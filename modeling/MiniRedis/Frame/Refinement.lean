import MiniRedis.Frame.Skeleton

/-!
# The parser refines the decoders

A cursor program refines a decoder when, from every cursor, it ends the way the
decoder's verdict on the unread bytes says, with the cursor past the used bytes
on success. No verdict is a panic, so refinement includes panic-freedom. The
content pass is only run behind a successful structural pass and is related to
it on that condition.
-/
namespace MiniRedis

open Library CursorM
open Library.Fallible (pure_apply bind_apply bind_ok bind_error)

@[simp] theorem Cursor.unread_skip (src : Cursor) (n : ℕ) :
    (src.skip n).unread = src.unread.drop n := by
  simp [Cursor.unread, Cursor.skip, List.drop_drop]

@[simp] theorem Cursor.skip_zero (src : Cursor) : src.skip 0 = src := rfl

@[simp] theorem Cursor.skip_skip (src : Cursor) (n m : ℕ) :
    (src.skip n).skip m = src.skip (n + m) := by
  simp [Cursor.skip, Nat.add_assoc]

namespace CursorM

variable {α γ : Type}

@[simp] theorem lift_ok (a : α) (src : Cursor) : lift (.ok a) src = (.ok a, src) := rfl

@[simp] theorem lift_error (e : FrameError) (src : Cursor) :
    (lift (.error e) : CursorM α) src = (.error (.error e), src) := rfl

theorem hasRemaining_bind (f : Bool → CursorM α) (src : Cursor) :
    (hasRemaining >>= f) src = f (!src.unread.isEmpty) src := rfl

end CursorM

/-- `p` ends as the verdict of `d` on the unread bytes says, with related values. -/
def Refines {α γ : Type} (p : CursorM α) (d : WireDecoder γ) (R : γ → α → Prop) : Prop :=
  ∀ src : Cursor,
    match d src.unread with
    | .incomplete => (p src).1 = .error (.error .incomplete)
    | .invalid message => (p src).1 = .error (.error (.other message))
    | .complete c n => ∃ a, p src = (.ok a, src.skip n) ∧ R c a

namespace Refines

variable {α γ δ ρ : Type} {p : CursorM α} {d : WireDecoder γ} {R : γ → α → Prop}

theorem of_complete (h : Refines p d R) {src : Cursor} {c : γ} {n : ℕ}
    (hd : d src.unread = .complete c n) : ∃ a, p src = (.ok a, src.skip n) ∧ R c a := by
  simpa only [hd] using h src

theorem of_incomplete (h : Refines p d R) {src : Cursor} (hd : d src.unread = .incomplete) :
    (p src).1 = .error (.error .incomplete) := by
  simpa only [hd] using h src

theorem of_invalid (h : Refines p d R) {src : Cursor} {message : String}
    (hd : d src.unread = .invalid message) : (p src).1 = .error (.error (.other message)) := by
  simpa only [hd] using h src

theorem pure {c : γ} {a : α} (h : R c a) : Refines (Pure.pure a) (Pure.pure c) R :=
  fun src => ⟨a, by simp [pure_apply], h⟩

theorem err {message : String} :
    Refines (CursorM.err (.other message)) (Decoder.fail message) R := fun _ => rfl

theorem bind {f : α → CursorM ρ} {g : γ → WireDecoder δ} {Q : δ → ρ → Prop}
    (hp : Refines p d R) (hf : ∀ c a, R c a → Refines (f a) (g c) Q) :
    Refines (p >>= f) (d >>= g) Q := by
  intro src
  rw [Decoder.bind_apply]
  cases hd : d src.unread with
  | incomplete => exact bind_error (hp.of_incomplete hd)
  | invalid message => exact bind_error (hp.of_invalid hd)
  | complete c n =>
    obtain ⟨a, hpa, hR⟩ := hp.of_complete hd
    rw [bind_ok hpa]
    have hfa := hf c a hR (src.skip n)
    rw [Cursor.unread_skip] at hfa
    cases hg : g c (src.unread.drop n) with
    | incomplete => simpa only [hg] using hfa
    | invalid message => simpa only [hg] using hfa
    | complete e m =>
      simpa only [hg, Cursor.skip_skip] using hfa

/-- Both branch on the same condition. -/
theorem ite {c : Prop} [Decidable c] {p' : CursorM α} {d' : WireDecoder γ}
    (hp : c → Refines p d R) (hp' : ¬ c → Refines p' d' R) :
    Refines (if c then p else p') (if c then d else d') R := by
  by_cases h : c
  · rw [if_pos h, if_pos h]
    exact hp h
  · rw [if_neg h, if_neg h]
    exact hp' h

/-- A further interpretation of the decoded value is invisible to the program. -/
theorem map_right {g : γ → δ} {Q : δ → α → Prop} (hp : Refines p d R)
    (hQ : ∀ c a, R c a → Q (g c) a) : Refines p (d >>= fun c => Pure.pure (g c)) Q := by
  intro src
  rw [Decoder.bind_apply]
  cases hd : d src.unread with
  | incomplete => exact hp.of_incomplete hd
  | invalid message => exact hp.of_invalid hd
  | complete c n =>
    obtain ⟨a, hpa, hR⟩ := hp.of_complete hd
    exact ⟨a, hpa, hQ c a hR⟩

theorem forCount {body : CursorM Unit} (h : Refines body d fun _ _ => True) (count : ℕ) :
    Refines (CursorM.forCount body count) (d.sequence count) fun _ _ => True := by
  induction count with
  | zero => exact pure trivial
  | succ count ih => exact h.bind fun _ _ _ => ih.map_right fun _ _ _ => trivial

/-- Conversely, the end of the program determines the verdict. -/
theorem eq_ok (h : Refines p d R) {src src' : Cursor} {a : α} (hp : p src = (.ok a, src')) :
    ∃ c n, d src.unread = .complete c n ∧ R c a ∧ src' = src.skip n := by
  cases hd : d src.unread with
  | incomplete => simpa [hp] using h.of_incomplete hd
  | invalid message => simpa [hp] using h.of_invalid hd
  | complete c n =>
    obtain ⟨a', hpa, hR⟩ := h.of_complete hd
    rw [hp] at hpa
    cases hpa
    exact ⟨c, n, rfl, hR, rfl⟩

theorem other_iff (h : Refines p d R) {src : Cursor} {message : String} :
    (p src).1 = .error (.error (.other message)) ↔ d src.unread = .invalid message := by
  refine ⟨fun hp => ?_, h.of_invalid⟩
  cases hd : d src.unread with
  | incomplete => simp [h.of_incomplete hd] at hp
  | invalid message' =>
    rw [h.of_invalid hd] at hp
    simp_all
  | complete c n =>
    obtain ⟨a, hpa, _⟩ := h.of_complete hd
    simp [hpa] at hp

/-- A refining program never panics. -/
theorem ne_panic (h : Refines p d R) (src : Cursor) : (p src).1 ≠ .error .panic := by
  have hsrc := h src
  cases hd : d src.unread with
  | incomplete => simp [h.of_incomplete hd]
  | invalid message => simp [h.of_invalid hd]
  | complete c n =>
    obtain ⟨a, hpa, _⟩ := h.of_complete hd
    simp [hpa]

end Refines

theorem getU8_cons {src : Cursor} {byte : UInt8} {rest : Bytes}
    (h : src.unread = byte :: rest) : getU8 src = (.ok byte, src.skip 1) := by
  simp [getU8, h]

theorem advance_of_le {src : Cursor} {n : ℕ} (h : n ≤ src.unread.length) :
    advance n src = (.ok (), src.skip n) := by
  simp [advance, h]

/-- Reading a marker behind the emptiness test is reading one symbol. -/
theorem marker_refines {α γ : Type} {f : UInt8 → CursorM α} {g : UInt8 → WireDecoder γ}
    {R : γ → α → Prop} (h : ∀ marker, Refines (f marker) (g marker) R) :
    Refines (do
      let available ← hasRemaining
      if !available then CursorM.err .incomplete
      else
        let firstByte ← getU8
        f firstByte) (Decoder.item >>= g) R := by
  intro src
  rw [Decoder.bind_apply]
  cases hs : src.unread with
  | nil => simp [Decoder.item, hasRemaining_bind, hs, CursorM.err]
  | cons byte rest =>
    have hf := h byte (src.skip 1)
    simp only [Cursor.unread_skip, hs, List.drop_succ_cons, List.drop_zero] at hf
    simp only [Decoder.item, List.drop_succ_cons, List.drop_zero, hasRemaining_bind, hs,
      List.isEmpty_cons, Bool.not_false, Bool.not_true, Bool.false_eq_true, if_false,
      bind_ok (getU8_cons hs)]
    cases hg : g byte rest with
    | incomplete => simpa only [hg] using hf
    | invalid message => simpa only [hg] using hf
    | complete c n => simpa only [hg, Cursor.skip_skip] using hf

/-- The slice of `get_line` is taken at absolute positions and the scan counts from the
cursor; the slice is the scanned part of the unread bytes. -/
theorem getLine_apply (src : Cursor) :
    getLine src =
      match scanLine src.unread 0 with
      | .error e => (.error (.error e), src)
      | .ok index => (.ok (src.unread.take index), src.skip (index + 2)) := by
  have hrun : getLine src =
      (do
        let index ← lift (scanLine src.unread 0)
        let result ← slice src.position (src.position + index)
        advance (index + 2)
        pure result) src := rfl
  rw [hrun]
  cases hscan : scanLine src.unread 0 with
  | error e => rfl
  | ok index =>
    obtain ⟨line, rest, hunread, -, rfl⟩ := scanLine_eq_ok hscan
    have hlen : src.unread.length = line.length + 2 + rest.length := by
      simp [hunread]
      omega
    have hdata : src.unread.length = src.data.length - src.position := by
      simp [Cursor.unread]
    have hslice : slice src.position (src.position + (0 + line.length)) src =
        (.ok (src.unread.take (0 + line.length)), src) := by
      rw [slice, if_pos (by omega), Nat.add_sub_cancel_left]
      rfl
    have hadvance := advance_of_le (show 0 + line.length + 2 ≤ src.unread.length by omega)
    rw [bind_ok (lift_ok _ src), bind_ok hslice, bind_ok hadvance, pure_apply]

theorem getLine_refines : Refines getLine lineDecoder fun line result => line = result := by
  intro src
  have hrun := getLine_apply src
  unfold lineDecoder
  cases hscan : scanLine src.unread 0 with
  | error e =>
    rw [hscan] at hrun
    cases e with
    | incomplete => simp [hrun]
    | other message => simp [hrun]
  | ok index =>
    rw [hscan] at hrun
    exact ⟨_, hrun, rfl⟩

/-- The messages with which a decimal field is rejected. -/
def decimalMessages : List String :=
  ["Empty decimal field", "Invalid decimal integer", "Integer overflow"]

theorem accumulate_error {sign result : Int64} {line : Bytes} {e : FrameError}
    (h : accumulate sign result line = .error e) : ∃ message ∈ decimalMessages, e = .other message := by
  induction line generalizing result with
  | nil => cases h
  | cons byte line ih =>
    simp only [accumulate] at h
    split at h
    · cases h
      exact ⟨_, by simp [decimalMessages], rfl⟩
    · split at h
      · split at h
        · cases h
          exact ⟨_, by simp [decimalMessages], rfl⟩
        · exact ih h
      · cases h
        exact ⟨_, by simp [decimalMessages], rfl⟩

theorem decimalOfLine_error {line : Bytes} {e : FrameError} (h : decimalOfLine line = .error e) :
    ∃ message ∈ decimalMessages, e = .other message := by
  cases line with
  | nil =>
    cases h
    exact ⟨_, by simp [decimalMessages], rfl⟩
  | cons byte line =>
    simp only [decimalOfLine] at h
    split at h
    · split at h
      · cases h
        exact ⟨_, by simp [decimalMessages], rfl⟩
      · exact accumulate_error h
    · split at h
      · exact accumulate_error h
      · cases h
        exact ⟨_, by simp [decimalMessages], rfl⟩

theorem getDecimal_refines : Refines getDecimal decimalDecoder Eq := by
  intro src
  unfold decimalDecoder Decoder.interpret
  cases hv : lineDecoder src.unread with
  | incomplete => exact bind_error (getLine_refines.of_incomplete hv)
  | invalid message => exact bind_error (getLine_refines.of_invalid hv)
  | complete line n =>
    obtain ⟨_, hline, rfl⟩ := getLine_refines.of_complete hv
    have hrun : getDecimal src = lift (decimalOfLine line) (src.skip n) := bind_ok hline
    cases hdec : decimalOfLine line with
    | ok number =>
      simp only [hdec, Except.mapError]
      exact ⟨number, by rw [hrun, hdec, lift_ok], rfl⟩
    | error e =>
      obtain ⟨message, -, rfl⟩ := decimalOfLine_error hdec
      simp only [hdec, Except.mapError, FrameError.display]
      rw [hrun, hdec, lift_error]

/-- The bulk branch of `check_with_depth` behind a nonnegative length. -/
theorem bulk_refines (length : Int64) (hlength : 0 ≤ length) :
    Refines (do
      let lengthUsize ← usizeTryFrom length "Bulk string length overflow"
      if usizeMax < lengthUsize + 2 then CursorM.err (.other "Bulk string length overflow")
      else
        let available ← remaining
        if lengthUsize + 2 ≤ available then
          advance lengthUsize
          let first ← getU8
          if first = cr then
            let second ← getU8
            if second = lf then pure ()
            else CursorM.err (.other "Invalid bulk string terminator")
          else CursorM.err (.other "Invalid bulk string terminator")
        else CursorM.err .incomplete)
      (bulkDecoder length.toNatClampNeg) fun _ _ => True := by
  intro src
  have hsize := length.toNatClampNeg_lt
  generalize hn : length.toNatClampNeg = n at hsize ⊢
  have hfits : ¬ usizeMax < n + 2 := by
    unfold usizeMax
    omega
  simp only [usizeTryFrom, if_pos hlength, hn, bind_apply, pure_apply, if_neg hfits, remaining,
    bulkDecoder_apply]
  by_cases hle : n + 2 ≤ src.unread.length
  · obtain ⟨first, second, rest, hbytes⟩ :
        ∃ first second rest, src.unread.drop n = first :: second :: rest := by
      have hdrop : 2 ≤ (src.unread.drop n).length := by
        rw [List.length_drop]
        omega
      match hm : src.unread.drop n with
      | [] => simp [hm] at hdrop
      | [b] => simp [hm] at hdrop
      | first :: second :: rest => exact ⟨first, second, rest, rfl⟩
    have hfirst : (src.skip n).unread = first :: second :: rest := by simpa using hbytes
    have hsecond : ((src.skip n).skip 1).unread = second :: rest := by
      rw [Cursor.unread_skip, hfirst]
      rfl
    simp only [if_pos hle, hbytes, List.take_succ_cons, List.take_zero]
    rw [bind_ok (advance_of_le (show n ≤ src.unread.length by omega)), bind_ok (getU8_cons hfirst)]
    by_cases hcr : first = cr
    · subst hcr
      rw [if_pos rfl, bind_ok (getU8_cons hsecond)]
      by_cases hlf : second = lf
      · subst hlf
        exact ⟨(), by simp [pure_apply], trivial⟩
      · simp [hlf, CursorM.err]
    · simp [hcr, CursorM.err]
  · simp only [if_neg hle, CursorM.err, Library.Fallible.err_apply]

theorem neg_one_le_and_le_zero (length : Int64) :
    (-1 ≤ length ∧ length ≤ 0) ↔ length = -1 ∨ length = 0 := by
  have hneg : (-1 : Int64).toInt = -1 := by decide
  have hzero : (0 : Int64).toInt = 0 := by decide
  rw [Int64.le_iff_toInt_le, Int64.le_iff_toInt_le, ← Int64.toInt_inj, ← Int64.toInt_inj, hneg,
    hzero]
  omega

theorem skeleton_eq (levels : ℕ) :
    skeleton levels =
      layer (match levels with
        | 0 => none
        | levels + 1 => some (skeleton levels)) := by
  cases levels <;> rfl

/-- Each call of `check_with_depth` finds a skeleton within the remaining layers. -/
theorem checkWithDepth_refines (depth : ℕ) :
    Refines (checkWithDepth depth) (skeleton (maxArrayDepth - depth)) fun _ _ => True := by
  induction depth using checkWithDepth.induct with
  | case1 depth ih =>
    rw [checkWithDepth, skeleton_eq]
    refine marker_refines fun marker => ?_
    refine .ite (fun _ => getLine_refines.bind fun _ _ _ => .pure trivial) fun _ => ?_
    refine .ite (fun _ => ?_) fun _ => .ite (fun _ => ?_) fun _ => .err
    · refine getDecimal_refines.bind fun length _ heq => ?_
      subst heq
      refine .ite (fun _ => .pure trivial) fun _ => ?_
      exact .ite (fun hlength => bulk_refines length hlength) fun _ => .err
    · by_cases hdepth : maxArrayDepth ≤ depth
      · rw [dif_pos hdepth, Nat.sub_eq_zero_of_le hdepth]
        exact .err
      · have hlevels : maxArrayDepth - depth = (maxArrayDepth - (depth + 1)) + 1 := by omega
        rw [dif_neg hdepth, hlevels]
        refine getDecimal_refines.bind fun length _ heq => ?_
        subst heq
        simp only [neg_one_le_and_le_zero]
        by_cases hneg : length = -1
        · simpa only [hneg, true_or, if_true] using Refines.pure trivial
        by_cases hzero : length = 0
        · simpa [hzero] using Refines.pure trivial
        simp only [hneg, hzero, or_self, if_false]
        refine .ite (fun _ => ?_) fun _ => .err
        exact ((ih hdepth).forCount _).map_right fun _ _ _ => trivial

theorem check_refines : Refines check (skeleton maxArrayDepth) fun _ _ => True :=
  checkWithDepth_refines 0

/-- The decoding program ends as the content pass says, with the cursor at `stop`. -/
def Decodes {α : Type} (outcome : Except Stop α × Cursor) (content : Except String α)
    (stop : Cursor) : Prop :=
  match content with
  | .ok a => outcome = (.ok a, stop)
  | .error message => outcome.1 = .error (.error (.other message))

theorem Decodes.error {α : Type} {outcome : Except Stop α × Cursor} {content : Except String α}
    {stop : Cursor} {message : String} (hcontent : content = .error message)
    (h : outcome.1 = .error (.error (.other message))) : Decodes outcome content stop := by
  simpa only [Decodes, hcontent] using h

theorem Decodes.ok {α : Type} {outcome : Except Stop α × Cursor} {content : Except String α}
    {stop : Cursor} {a : α} (hcontent : content = .ok a) (h : outcome = (.ok a, stop)) :
    Decodes outcome content stop := by
  simpa only [Decodes, hcontent] using h

theorem Decodes.fst_of_error {α : Type} {outcome : Except Stop α × Cursor}
    {content : Except String α} {stop : Cursor} {message : String}
    (h : Decodes outcome content stop) (hcontent : content = .error message) :
    outcome.1 = .error (.error (.other message)) := by
  simpa only [Decodes, hcontent] using h

theorem Decodes.eq_of_ok {α : Type} {outcome : Except Stop α × Cursor} {content : Except String α}
    {stop : Cursor} {a : α} (h : Decodes outcome content stop) (hcontent : content = .ok a) :
    outcome = (.ok a, stop) := by
  simpa only [Decodes, hcontent] using h

theorem text_decodes {marker : UInt8} {src : Cursor} {line : Bytes} {n : ℕ}
    (hmarker : marker = plus ∨ marker = minus)
    (hline : lineDecoder src.unread = .complete line n) :
    Decodes ((do
      let content ← getLine
      match fromUtf8 content with
      | none => err (.other "Invalid UTF-8")
      | some string =>
        if marker = plus then pure (Frame.simple string) else pure (Frame.error string)) src)
      (decode (.line marker line)) (src.skip n) := by
  obtain ⟨_, hrun, rfl⟩ := getLine_refines.of_complete hline
  rw [bind_ok hrun]
  simp only [decode, if_pos hmarker]
  cases hutf : fromUtf8 line with
  | none => exact .error rfl rfl
  | some string => by_cases hplus : marker = plus <;> simp [Decodes, hplus, pure_apply]

theorem integer_decodes {src : Cursor} {line : Bytes} {n : ℕ}
    (hline : lineDecoder src.unread = .complete line n) :
    Decodes ((do
      let number ← getDecimal
      pure (Frame.integer number)) src) (decode (.line colon line)) (src.skip n) := by
  obtain ⟨_, hrun, rfl⟩ := getLine_refines.of_complete hline
  have hdecimal : getDecimal src = lift (decimalOfLine line) (src.skip n) := bind_ok hrun
  have hmarker : ¬ (colon = plus ∨ colon = minus) := by decide
  simp only [decode, if_neg hmarker]
  cases hdec : decimalOfLine line with
  | error e =>
    obtain ⟨message, -, rfl⟩ := decimalOfLine_error hdec
    exact .error rfl (bind_error (by rw [hdecimal, hdec, lift_error]; rfl))
  | ok number =>
    rw [hdec, lift_ok] at hdecimal
    exact .ok rfl (by rw [bind_ok hdecimal, pure_apply])

theorem bulk_decodes {length : Int64} {src : Cursor} {sk : Skeleton} {n : ℕ}
    (h : (if length = -1 then pure Skeleton.null
      else if 0 ≤ length then bulkDecoder length.toNatClampNeg
      else Decoder.fail "Invalid bulk string length") src.unread = .complete sk n) :
    Decodes ((if length = -1 then pure Frame.null
      else do
        let lengthUsize ← usizeTryFrom length "Bulk string length overflow"
        let bytes ← chunkPrefix lengthUsize
        advance (lengthUsize + 2)
        pure (Frame.bulk bytes)) src) (decode sk) (src.skip n) := by
  by_cases hneg : length = -1
  · rw [if_pos hneg] at h ⊢
    cases h
    exact .ok (by rw [decode]) rfl
  rw [if_neg hneg] at h ⊢
  by_cases hnonneg : 0 ≤ length
  · rw [if_pos hnonneg, bulkDecoder_apply] at h
    rw [usizeTryFrom, if_pos hnonneg]
    generalize length.toNatClampNeg = size at h ⊢
    split at h
    · rename_i hsize
      split at h
      · cases h
        have hprefix : chunkPrefix size src = (.ok (src.unread.take size), src) := by
          rw [chunkPrefix, if_pos (by omega)]
        rw [bind_ok (pure_apply size _), bind_ok hprefix, bind_ok (advance_of_le hsize)]
        exact .ok (by rw [decode]) rfl
      · cases h
    · cases h
  · rw [if_neg hnonneg] at h
    cases h

/-- The elements of an array decode one after the other. -/
theorem collect_decodes {child : WireDecoder Skeleton} {fuel : ℕ}
    (hchild : ∀ src sk n, src.unread.length < fuel → child src.unread = .complete sk n →
      Decodes (parseData fuel src) (decode sk) (src.skip n))
    (count : ℕ) (src : Cursor) (elements : List Skeleton) (n : ℕ)
    (hfuel : src.unread.length < fuel)
    (h : child.sequence count src.unread = .complete elements n) :
    Decodes (collect (parseData fuel) count src) (decodeAll elements) (src.skip n) := by
  induction count generalizing src elements n with
  | zero =>
    cases h
    exact .ok (by rw [decodeAll]) rfl
  | succ count ih =>
    obtain ⟨first, k, m, hfirst, hrest, rfl⟩ := Decoder.bind_eq_complete.mp h
    obtain ⟨others, l, _, hothers, hpure, rfl⟩ := Decoder.bind_eq_complete.mp hrest
    cases hpure
    have hhead := hchild src first k hfuel hfirst
    have htail := ih (src.skip k) others l
      (by rw [Cursor.unread_skip, List.length_drop]; omega) (by simpa using hothers)
    simp only [decodeAll]
    cases hd : decode first with
    | error message => exact .error rfl (bind_error (hhead.fst_of_error hd))
    | ok frame =>
      have hrun : collect (parseData fuel) (count + 1) src =
          (collect (parseData fuel) count >>= fun elements =>
            pure (frame :: elements)) (src.skip k) := bind_ok (hhead.eq_of_ok hd)
      rw [hrun]
      cases hds : decodeAll others with
      | error message => exact .error rfl (bind_error (htail.fst_of_error hds))
      | ok frames =>
        refine .ok rfl ?_
        rw [bind_ok (htail.eq_of_ok hds), pure_apply, Cursor.skip_skip, Nat.add_zero]

theorem array_decodes {child : WireDecoder Skeleton} {fuel : ℕ} {length : Int64} {src : Cursor}
    {sk : Skeleton} {n : ℕ}
    (hchild : ∀ src sk n, src.unread.length < fuel → child src.unread = .complete sk n →
      Decodes (parseData fuel src) (decode sk) (src.skip n))
    (hfuel : src.unread.length < fuel)
    (h : (if length = -1 then pure Skeleton.null
      else if length = 0 then pure (Skeleton.array [])
      else if 1 ≤ length ∧ length < arrayLengthLimitExclusive then do
        let elements ← child.sequence length.toNatClampNeg
        pure (Skeleton.array elements)
      else Decoder.fail "Array length is outside the supported range") src.unread =
        .complete sk n) :
    Decodes ((if length = -1 then pure Frame.null
      else do
        let capacity ← usizeTryFrom length "Array length overflow"
        let elements ← collect (parseData fuel) capacity
        pure (Frame.array elements)) src) (decode sk) (src.skip n) := by
  by_cases hneg : length = -1
  · rw [if_pos hneg] at h ⊢
    cases h
    exact .ok (by rw [decode]) rfl
  rw [if_neg hneg] at h ⊢
  by_cases hzero : length = 0
  · subst hzero
    rw [if_pos rfl] at h
    cases h
    have hcapacity : usizeTryFrom 0 "Array length overflow" src = (.ok 0, src) := rfl
    exact .ok (by rw [decode, decodeAll]) (by rw [bind_ok hcapacity]; rfl)
  rw [if_neg hzero] at h
  split at h
  · rename_i hrange
    obtain ⟨elements, j, _, hseq, hpure, rfl⟩ := Decoder.bind_eq_complete.mp h
    cases hpure
    have hnonneg : 0 ≤ length := Int64.le_trans (by decide) hrange.1
    rw [usizeTryFrom, if_pos hnonneg, bind_ok (pure_apply _ _)]
    have hcollect := collect_decodes hchild length.toNatClampNeg src elements j hfuel hseq
    simp only [decode]
    cases hds : decodeAll elements with
    | error message => exact .error rfl (bind_error (hcollect.fst_of_error hds))
    | ok frames =>
      exact .ok rfl (by rw [bind_ok (hcollect.eq_of_ok hds), pure_apply, Nat.add_zero])
  · cases h

/-- Behind a successful structural pass, `parse_data` computes the content pass. -/
theorem parseData_decodes (levels fuel : ℕ) (src : Cursor) (sk : Skeleton) (n : ℕ)
    (hfuel : src.unread.length < fuel) (h : skeleton levels src.unread = .complete sk n) :
    Decodes (parseData fuel src) (decode sk) (src.skip n) := by
  induction fuel generalizing levels src sk n with
  | zero => omega
  | succ fuel ih =>
    rw [skeleton_eq] at h
    obtain ⟨marker, k, m, hitem, hlayer, rfl⟩ := Decoder.bind_eq_complete.mp h
    obtain ⟨rest, hunread, rfl⟩ : ∃ rest, src.unread = marker :: rest ∧ k = 1 := by
      cases hs : src.unread with
      | nil => simp [hs, Decoder.item] at hitem
      | cons b rest =>
        simp only [hs, Decoder.item] at hitem
        cases hitem
        exact ⟨rest, rfl, rfl⟩
    have hshort : (src.skip 1).unread.length < fuel := by
      rw [Cursor.unread_skip, List.length_drop, hunread, List.length_cons]
      rw [hunread, List.length_cons] at hfuel
      omega
    rw [← Cursor.unread_skip] at hlayer
    rw [parseData, bind_ok (getU8_cons hunread), ← Cursor.skip_skip]
    by_cases hline : marker = plus ∨ marker = minus ∨ marker = colon
    · rw [if_pos hline] at hlayer
      obtain ⟨line, l, _, hl, hpure, rfl⟩ := Decoder.bind_eq_complete.mp hlayer
      cases hpure
      by_cases htext : marker = plus ∨ marker = minus
      · rw [if_pos htext]
        exact text_decodes htext hl
      · obtain rfl : marker = colon := by tauto
        rw [if_neg htext, if_pos rfl]
        exact integer_decodes hl
    have htext : ¬ (marker = plus ∨ marker = minus) := by tauto
    have hcolon : ¬ marker = colon := by tauto
    rw [if_neg hline] at hlayer
    rw [if_neg htext, if_neg hcolon]
    by_cases hdollar : marker = dollar
    · rw [if_pos hdollar] at hlayer ⊢
      obtain ⟨length, l, _, hl, hbody, rfl⟩ := Decoder.bind_eq_complete.mp hlayer
      obtain ⟨_, hrun, rfl⟩ := getDecimal_refines.of_complete hl
      rw [bind_ok hrun, ← Cursor.skip_skip]
      exact bulk_decodes (by rw [Cursor.unread_skip]; exact hbody)
    rw [if_neg hdollar] at hlayer ⊢
    by_cases hstar : marker = star
    · rw [if_pos hstar] at hlayer ⊢
      cases levels with
      | zero => cases hlayer
      | succ levels =>
        obtain ⟨length, l, _, hl, hbody, rfl⟩ := Decoder.bind_eq_complete.mp hlayer
        obtain ⟨_, hrun, rfl⟩ := getDecimal_refines.of_complete hl
        rw [bind_ok hrun, ← Cursor.skip_skip]
        refine array_decodes (fun src sk n => ih levels src sk n) ?_
          (by rw [Cursor.unread_skip]; exact hbody)
        rw [Cursor.unread_skip, List.length_drop]
        omega
    · rw [if_neg hstar] at hlayer
      cases hlayer

/-- `Frame::parse` refines the frame decoder; the two passes agree on every input. -/
theorem parse_refines : Refines parse frameDecoder fun frame result => frame = result := by
  intro src
  have hstart : parse src =
      (check >>= fun _ => do
        setPosition src.position
        let unread ← remaining
        parseData (unread + 1)) src := rfl
  unfold frameDecoder Decoder.interpret
  cases hv : skeleton maxArrayDepth src.unread with
  | incomplete => exact hstart ▸ bind_error (check_refines.of_incomplete hv)
  | invalid message => exact hstart ▸ bind_error (check_refines.of_invalid hv)
  | complete sk n =>
    obtain ⟨_, hcheck, _⟩ := check_refines.of_complete hv
    have hrun : parse src = parseData (src.unread.length + 1) src := by
      rw [hstart, bind_ok hcheck]
      rfl
    have hdata := parseData_decodes maxArrayDepth _ src sk n (Nat.lt_succ_self _) hv
    rw [← hrun] at hdata
    cases hdec : decode sk with
    | error message =>
      simp only [hdec]
      exact hdata.fst_of_error hdec
    | ok frame =>
      simp only [hdec]
      exact ⟨frame, hdata.eq_of_ok hdec, rfl⟩

theorem parse_eq_ok_iff {src src' : Cursor} {frame : Frame} :
    parse src = (.ok frame, src') ↔
      ∃ n, frameDecoder src.unread = .complete frame n ∧ src' = src.skip n := by
  constructor
  · intro h
    obtain ⟨_, n, hd, rfl, hsrc⟩ := parse_refines.eq_ok h
    exact ⟨n, hd, hsrc⟩
  · rintro ⟨n, hd, rfl⟩
    obtain ⟨_, hrun, rfl⟩ := parse_refines.of_complete hd
    exact hrun

end MiniRedis
