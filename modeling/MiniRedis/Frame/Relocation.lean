import MiniRedis.Frame.Refinement

/-!
# Parsing depends only on the unread bytes

The scan of `get_line` counts from the cursor, its slice and the rewind of
`parse` count from the start of the buffer. Two cursors with the same unread
bytes nevertheless stay abreast through every step, on errors as well, so bytes
that were read before change neither the result nor the distance covered.
-/
namespace MiniRedis

open Library CursorM

/-- The same bytes are unread, and both cursors have covered the same distance since `origin`
and `origin'`. -/
structure Abreast (origin origin' src src' : Cursor) : Prop where
  unread_eq : src.unread = src'.unread
  covered : ∃ n, src = origin.skip n ∧ src' = origin'.skip n

namespace Abreast

variable {origin origin' src src' : Cursor}

theorem start (h : src.unread = src'.unread) : Abreast src src' src src' :=
  ⟨h, 0, by simp, by simp⟩

theorem skip (h : Abreast origin origin' src src') (n : ℕ) :
    Abreast origin origin' (src.skip n) (src'.skip n) := by
  obtain ⟨m, hsrc, hsrc'⟩ := h.covered
  refine ⟨?_, m + n, by rw [hsrc, Cursor.skip_skip], by rw [hsrc', Cursor.skip_skip]⟩
  rw [Cursor.unread_skip, Cursor.unread_skip, h.unread_eq]

/-- Setting the position back restores the cursor as it was. -/
theorem rewound {after after' : Cursor} (h : Abreast origin origin' src src')
    (hafter : Abreast origin origin' after after') :
    { after with position := src.position } = src ∧
      { after' with position := src'.position } = src' := by
  obtain ⟨_, hsrc, hsrc'⟩ := h.covered
  obtain ⟨_, hend, hend'⟩ := hafter.covered
  exact ⟨by rw [hend, hsrc]; rfl, by rw [hend', hsrc']; rfl⟩

end Abreast

section Respects

variable {α : Type} {origin origin' : Cursor}

/-- A look at the unread bytes that leaves the cursor where it is. -/
theorem respects_view (view : Bytes → Except Stop α) :
    Fallible.Respects (fun src : Cursor => (view src.unread, src)) (Abreast origin origin') :=
  fun _ _ h => ⟨congrArg view h.unread_eq, h⟩

theorem hasRemaining_respects : hasRemaining.Respects (Abreast origin origin') :=
  respects_view fun unread => .ok !unread.isEmpty

theorem remaining_respects : remaining.Respects (Abreast origin origin') :=
  respects_view fun unread => .ok unread.length

theorem lift_respects (result : Except FrameError α) :
    (lift result).Respects (Abreast origin origin') :=
  respects_view fun _ => result.mapError .error

theorem getU8_respects : getU8.Respects (Abreast origin origin') := by
  intro src src' h
  unfold getU8
  rw [h.unread_eq]
  cases src'.unread with
  | nil => exact ⟨rfl, h⟩
  | cons byte rest => exact ⟨rfl, h.skip 1⟩

theorem advance_respects (n : ℕ) : (advance n).Respects (Abreast origin origin') := by
  intro src src' h
  unfold advance
  rw [h.unread_eq]
  split
  · exact ⟨rfl, h.skip n⟩
  · exact ⟨rfl, h⟩

theorem chunkPrefix_respects (n : ℕ) : (chunkPrefix n).Respects (Abreast origin origin') := by
  intro src src' h
  unfold chunkPrefix
  rw [h.unread_eq]
  split
  · exact ⟨rfl, h⟩
  · exact ⟨rfl, h⟩

theorem usizeTryFrom_respects (length : Int64) (message : String) :
    (usizeTryFrom length message).Respects (Abreast origin origin') :=
  .ite (Fallible.respects_pure _) (Fallible.respects_err _)

theorem forCount_respects {body : CursorM Unit} (h : body.Respects (Abreast origin origin'))
    (count : ℕ) : (forCount body count).Respects (Abreast origin origin') := by
  induction count with
  | zero => exact Fallible.respects_pure ()
  | succ count ih => exact h.bind fun _ => ih

theorem collect_respects {body : CursorM Frame} (h : body.Respects (Abreast origin origin'))
    (count : ℕ) : (collect body count).Respects (Abreast origin origin') := by
  induction count with
  | zero => exact Fallible.respects_pure []
  | succ count ih => exact h.bind fun _ => ih.bind fun _ => Fallible.respects_pure _

theorem getLine_respects : getLine.Respects (Abreast origin origin') := by
  intro src src' h
  rw [getLine_apply, getLine_apply, h.unread_eq]
  cases scanLine src'.unread 0 with
  | error e => exact ⟨rfl, h⟩
  | ok index => exact ⟨rfl, h.skip (index + 2)⟩

theorem getDecimal_respects : getDecimal.Respects (Abreast origin origin') :=
  getLine_respects.bind fun _ => lift_respects _

/-- The payload and its terminator, once both are present. -/
theorem terminator_respects (lengthUsize : ℕ) :
    (do
      advance lengthUsize
      let first ← getU8
      if first = cr then
        let second ← getU8
        if second = lf then pure ()
        else err (.other "Invalid bulk string terminator")
      else err (.other "Invalid bulk string terminator") : CursorM Unit).Respects
      (Abreast origin origin') := by
  refine (advance_respects _).bind fun _ => getU8_respects.bind fun first => ?_
  refine .ite (getU8_respects.bind fun second => ?_) (Fallible.respects_err _)
  exact .ite (Fallible.respects_pure ()) (Fallible.respects_err _)

/-- The children of an array run at cursors that are abreast, one layer further in. -/
theorem checkWithDepth_respects (depth : ℕ) :
    (checkWithDepth depth).Respects (Abreast origin origin') := by
  induction depth using checkWithDepth.induct with
  | case1 depth ih =>
    rw [checkWithDepth]
    refine hasRemaining_respects.bind fun available => .ite (Fallible.respects_err _) ?_
    refine getU8_respects.bind fun firstByte => ?_
    refine .ite (getLine_respects.bind fun _ => Fallible.respects_pure ()) (.ite ?_ (.ite ?_ ?_))
    · refine getDecimal_respects.bind fun length => ?_
      refine .ite (Fallible.respects_pure ()) (.ite ?_ (Fallible.respects_err _))
      refine (usizeTryFrom_respects _ _).bind fun lengthUsize => .ite (Fallible.respects_err _) ?_
      refine remaining_respects.bind fun available => ?_
      exact .ite (terminator_respects lengthUsize) (Fallible.respects_err _)
    · by_cases hdepth : maxArrayDepth ≤ depth
      · rw [dif_pos hdepth]
        exact Fallible.respects_err _
      rw [dif_neg hdepth]
      refine getDecimal_respects.bind fun arrayLength => .ite (Fallible.respects_pure ()) ?_
      exact .ite (forCount_respects (ih hdepth) _) (Fallible.respects_err _)
    · exact Fallible.respects_err _

theorem parseData_respects (fuel : ℕ) : (parseData fuel).Respects (Abreast origin origin') := by
  induction fuel with
  | zero => exact Fallible.respects_err _
  | succ fuel ih =>
    rw [parseData]
    refine getU8_respects.bind fun firstByte => .ite ?_ (.ite ?_ (.ite ?_ (.ite ?_ ?_)))
    · refine getLine_respects.bind fun content => ?_
      cases fromUtf8 content with
      | none => exact Fallible.respects_err _
      | some string => exact .ite (Fallible.respects_pure _) (Fallible.respects_pure _)
    · exact getDecimal_respects.bind fun _ => Fallible.respects_pure _
    · refine getDecimal_respects.bind fun length => .ite (Fallible.respects_pure _) ?_
      refine (usizeTryFrom_respects _ _).bind fun lengthUsize => ?_
      refine (chunkPrefix_respects _).bind fun bytes => ?_
      exact (advance_respects _).bind fun _ => Fallible.respects_pure _
    · refine getDecimal_respects.bind fun arrayLength => .ite (Fallible.respects_pure _) ?_
      refine (usizeTryFrom_respects _ _).bind fun capacity => ?_
      exact (collect_respects ih _).bind fun _ => Fallible.respects_pure _
    · exact Fallible.respects_err _

/-- Each cursor is rewound to its own start. -/
theorem rewind_respects {p : CursorM Unit} {q : CursorM α}
    (hp : p.Respects (Abreast origin origin')) (hq : q.Respects (Abreast origin origin')) :
    (do
      let startPosition ← position
      p
      setPosition startPosition
      q).Respects (Abreast origin origin') := by
  intro src src' habreast
  -- the two runs go on differently: each sets back its own start
  refine hp.bind_related habreast fun _ after after' hafter => ?_
  obtain ⟨hback, hback'⟩ := habreast.rewound hafter
  have hrun := hq src src' habreast
  rw [← hback, ← hback'] at hrun
  exact hrun

theorem parse_respects : parse.Respects (Abreast origin origin') :=
  rewind_respects (checkWithDepth_respects 0)
    (remaining_respects.bind fun unread => parseData_respects (unread + 1))

end Respects

/-- From cursors with the same unread bytes the result is the same, after the same distance. -/
theorem ends_alike {α : Type} {p : CursorM α}
    (h : ∀ origin origin', p.Respects (Abreast origin origin')) {src src' : Cursor}
    (hunread : src.unread = src'.unread) :
    ∃ result n, p src = (result, src.skip n) ∧ p src' = (result, src'.skip n) := by
  obtain ⟨hresult, hafter⟩ := h src src' src src' (Abreast.start hunread)
  obtain ⟨n, hsrc, hsrc'⟩ := hafter.covered
  exact ⟨(p src).1, n, Prod.ext rfl hsrc, Prod.ext hresult.symm hsrc'⟩

/-- Behind bytes that were read before, `p` ends as it does on `b` alone and covers the same
distance. -/
def Relocates {α : Type} (p : CursorM α) : Prop :=
  ∀ pre b : Bytes,
    p ⟨pre ++ b, pre.length⟩ = ((p ⟨b, 0⟩).1, ⟨pre ++ b, pre.length + (p ⟨b, 0⟩).2.position⟩)

theorem relocates_of_respects {α : Type} {p : CursorM α}
    (h : ∀ origin origin', p.Respects (Abreast origin origin')) : Relocates p := by
  intro pre b
  have hunread : (Cursor.mk (pre ++ b) pre.length).unread = (Cursor.mk b 0).unread := by
    simp [Cursor.unread]
  obtain ⟨result, n, hsrc, hsrc'⟩ := ends_alike h hunread
  rw [hsrc, hsrc']
  simp [Cursor.skip]

/-- `check`, `parse`, `get_line` and `get_decimal` give the same result behind any bytes
`pre` as on `b` from position 0, and end `pre.length` positions later. -/
theorem parse_relocates :
    Relocates check ∧ Relocates parse ∧ Relocates getLine ∧ Relocates getDecimal :=
  ⟨relocates_of_respects fun _ _ => checkWithDepth_respects 0,
    relocates_of_respects fun _ _ => parse_respects,
    relocates_of_respects fun _ _ => getLine_respects,
    relocates_of_respects fun _ _ => getDecimal_respects⟩

/-- The second of three frames. -/
example :
    parse ⟨asBytes "$3\r\nSET\r\n$5\r\nAlpha\r\n$3\r\n137\r\n", 9⟩ =
      (.ok (.bulk (asBytes "Alpha")), ⟨asBytes "$3\r\nSET\r\n$5\r\nAlpha\r\n$3\r\n137\r\n", 20⟩) :=
  parse_eq_ok_iff.mpr ⟨11, rfl, rfl⟩

end MiniRedis
