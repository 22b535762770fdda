import MiniRedis.Frame.Audit

/-!
# The check makes decoding safe

Behind a successful check the decoding pass can only meet a line whose content it
cannot read. It then names that line's defect, and otherwise it ends where the
check ended.
-/
namespace MiniRedis

open Library Library.Audited

mutual

/-- The lines of a frame in order, each with its marker. -/
def Skeleton.lines : Skeleton → List (UInt8 × Bytes)
  | .line marker content => [(marker, content)]
  | .bulk _ => []
  | .array elements => linesAll elements
  | .null => []

def linesAll : List Skeleton → List (UInt8 × Bytes)
  | [] => []
  | element :: elements => element.lines ++ linesAll elements

end

/-- The payload is what its marker announces: a decimal or a text. -/
def ReadableLine (line : UInt8 × Bytes) : Prop :=
  if line.1 = colon then ∃ v, DecimalField line.2 v else ∃ string, fromUtf8 line.2 = some string

/-- What is wrong with a line that cannot be read, and how the parser reports it. -/
inductive LineDefect : UInt8 × Bytes → String → Prop where
  | utf8 {marker : UInt8} {content : Bytes} :
      marker = plus ∨ marker = minus → fromUtf8 content = none →
      LineDefect (marker, content) "Invalid UTF-8"
  | decimal {content : Bytes} {message : String} :
      (¬ ∃ v, DecimalField content v) → message ∈ decimalMessages →
      LineDefect (colon, content) message

/-- A line is decoded exactly when it is readable. -/
theorem decode_line {marker : UInt8} (content : Bytes)
    (hmarker : marker = plus ∨ marker = minus ∨ marker = colon) :
    (ReadableLine (marker, content) ∧ ∃ frame, decode (.line marker content) = .ok frame) ∨
      ∃ message, LineDefect (marker, content) message ∧
        decode (.line marker content) = .error message := by
  rw [decode]
  by_cases htext : marker = plus ∨ marker = minus
  · have hcolon : ¬ marker = colon := by
      rintro rfl
      exact absurd htext (by decide)
    rw [if_pos htext]
    cases hutf : fromUtf8 content with
    | none => exact .inr ⟨_, .utf8 htext hutf, rfl⟩
    | some string =>
      refine .inl ⟨?_, _, rfl⟩
      unfold ReadableLine
      rw [if_neg hcolon]
      exact ⟨string, hutf⟩
  · obtain rfl : marker = colon := by tauto
    rw [if_neg htext]
    cases hdec : decimalOfLine content with
    | ok num =>
      refine .inl ⟨?_, _, rfl⟩
      unfold ReadableLine
      rw [if_pos rfl]
      exact ⟨_, decimalOfLine_eq_ok.mp hdec⟩
    | error e =>
      obtain ⟨message, hmem, rfl⟩ := decimalOfLine_error hdec
      refine .inr ⟨message, .decimal ?_ hmem, rfl⟩
      rintro ⟨v, hv⟩
      obtain ⟨num, rfl⟩ := hv.exists_toInt
      rw [decimalOfLine_eq_ok.mpr hv] at hdec
      cases hdec

mutual

/-- A shape decodes when all its lines are readable, and fails with the defect of one. -/
theorem Shape.decode_cases {depth : ℕ} {s : Bytes} {sk : Skeleton} (h : Shape depth s sk) :
    ((∀ line ∈ sk.lines, ReadableLine line) ∧ ∃ frame, decode sk = .ok frame) ∨
      ∃ line ∈ sk.lines, ∃ message, LineDefect line message ∧ decode sk = .error message := by
  cases h with
  | @line _ marker line hmarker hline =>
    rw [Skeleton.lines]
    obtain ⟨hreadable, hframe⟩ | ⟨message, hdefect, herror⟩ := decode_line line hmarker
    · exact .inl ⟨by simpa using hreadable, hframe⟩
    · exact .inr ⟨_, List.mem_singleton_self _, message, hdefect, herror⟩
  | nullBulk hfield => exact .inl ⟨by simp [Skeleton.lines], _, by rw [decode]⟩
  | bulk hfield => exact .inl ⟨by simp [Skeleton.lines], _, by rw [decode]⟩
  | nullArray hdepth hfield => exact .inl ⟨by simp [Skeleton.lines], _, by rw [decode]⟩
  | array hdepth hfield hlimit helements =>
    rw [Skeleton.lines, decode]
    obtain ⟨hreadable, frames, hframes⟩ | ⟨line, hmem, message, hdefect, herror⟩ :=
      helements.decodeAll_cases
    · exact .inl ⟨hreadable, .array frames, by rw [hframes]⟩
    · exact .inr ⟨line, hmem, message, hdefect, by rw [herror]⟩

theorem ShapeAll.decodeAll_cases {depth : ℕ} {s : Bytes} {sks : List Skeleton}
    (h : ShapeAll depth s sks) :
    ((∀ line ∈ linesAll sks, ReadableLine line) ∧ ∃ frames, decodeAll sks = .ok frames) ∨
      ∃ line ∈ linesAll sks, ∃ message, LineDefect line message ∧
        decodeAll sks = .error message := by
  cases h with
  | nil => exact .inl ⟨by simp [linesAll], [], by rw [decodeAll]⟩
  | cons hfirst hothers =>
    rw [linesAll, decodeAll]
    obtain ⟨hreadable, frame, hframe⟩ | ⟨line, hmem, message, hdefect, herror⟩ :=
      hfirst.decode_cases
    · rw [hframe]
      obtain ⟨hrest, frames, hframes⟩ | ⟨line, hmem, message, hdefect, herror⟩ :=
        hothers.decodeAll_cases
      · refine .inl ⟨?_, frame :: frames, by rw [hframes]⟩
        intro line hline
        rcases List.mem_append.mp hline with hhead | htail
        · exact hreadable line hhead
        · exact hrest line htail
      · exact .inr ⟨line, List.mem_append_right _ hmem, message, hdefect, by rw [herror]⟩
    · exact .inr ⟨line, List.mem_append_left _ hmem, message, hdefect, by rw [herror]⟩

end

/-- What the check found, and where it ended. -/
theorem check_shape {src stop : Cursor} (h : check src = (.ok (), stop)) :
    ∃ used rest sk, src.unread = used ++ rest ∧ stop = src.skip used.length ∧ Shape 0 used sk ∧
      skeleton maxArrayDepth src.unread = .complete sk used.length := by
  obtain ⟨sk, n, hsk, -, rfl⟩ := check_refines.eq_ok h
  obtain ⟨used, rest, hunread, rfl, hshape⟩ := skeleton_eq_complete_iff.mp hsk
  exact ⟨used, rest, sk, hunread, rfl, hshape, hsk⟩

/-- Ends of the decoding pass that the check excludes. -/
def excludedStops : List Stop :=
  [.panic, .error .incomplete, .error (.other "Invalid frame type marker"),
    .error (.other "Bulk string length overflow"), .error (.other "Array length overflow")]

theorem LineDefect.not_excluded {line : UInt8 × Bytes} {message : String}
    (h : LineDefect line message) : Stop.error (.other message) ∉ excludedStops := by
  cases h with
  | utf8 hmarker hutf => decide
  | decimal hnone hmessage =>
    simp only [decimalMessages, List.mem_cons, List.not_mem_nil, or_false] at hmessage
    rcases hmessage with rfl | rfl | rfl <;> decide

/-- Parsing never panics and none of its unchecked sums overflows. Behind a successful check
the decoding pass returns a frame where the check ended if every line is readable, and
fails with the defect of a line otherwise. -/
theorem parse_safe (src : Cursor) :
    (parse src).1 ≠ .error .panic ∧
    (∀ log, Audit.parse (src, log) = ((parse src).1, (parse src).2, log ++ written Audit.parse src)) ∧
    (src.data.length ≤ usizeMax →
      ∀ value limit, Note.sum value limit ∈ written Audit.parse src → value ≤ limit) ∧
    ∀ stop, check src = (.ok (), stop) →
      ∃ used rest sk, src.unread = used ++ rest ∧ stop = src.skip used.length ∧ Shape 0 used sk ∧
        ∀ fuel, src.unread.length < fuel →
          (∀ e ∈ excludedStops, (parseData fuel src).1 ≠ .error e) ∧
          (((∀ line ∈ sk.lines, ReadableLine line) ∧
              ∃ frame, parseData fuel src = (.ok frame, stop)) ∨
            ∃ line ∈ sk.lines, ∃ message, LineDefect line message ∧
              (parseData fuel src).1 = .error (.error (.other message))) := by
  refine ⟨parse_refines.ne_panic src, parse_lawful.erases src, ?_, ?_⟩
  · intro hsrc value limit hmem
    exact parse_lawful.lawful src hsrc _ hmem
  · intro stop hcheck
    obtain ⟨used, rest, sk, hunread, rfl, hshape, hsk⟩ := check_shape hcheck
    refine ⟨used, rest, sk, hunread, rfl, hshape, fun fuel hfuel => ?_⟩
    have hdecodes := parseData_decodes maxArrayDepth fuel src sk used.length hfuel hsk
    obtain ⟨hreadable, frame, hframe⟩ | ⟨line, hmem, message, hdefect, herror⟩ :=
      hshape.decode_cases
    · have hrun := hdecodes.eq_of_ok hframe
      refine ⟨?_, .inl ⟨hreadable, frame, hrun⟩⟩
      intro e _ heq
      rw [hrun] at heq
      cases heq
    · have hrun := hdecodes.fst_of_error herror
      refine ⟨?_, .inr ⟨line, hmem, message, hdefect, hrun⟩⟩
      intro e he heq
      rw [hrun] at heq
      cases heq
      exact hdefect.not_excluded he

/-- A text that is not UTF-8 inside an array. -/
theorem parse_safe_bad_text :
    (parseData 12 ⟨[star, 49, cr, lf, plus, 255, cr, lf], 0⟩).1 ≠ .error .panic ∧
      ∀ value limit, Note.sum value limit ∈
        written Audit.parse ⟨[star, 49, cr, lf, plus, 255, cr, lf], 0⟩ → value ≤ limit := by
  have hcheck : check ⟨[star, 49, cr, lf, plus, 255, cr, lf], 0⟩ =
      (.ok (), ⟨[star, 49, cr, lf, plus, 255, cr, lf], 8⟩) := by
    have hskeleton : skeleton maxArrayDepth
        (Cursor.mk [star, 49, cr, lf, plus, 255, cr, lf] 0).unread =
          .complete (.array [.line plus [255]]) 8 := rfl
    obtain ⟨_, hrun, _⟩ := check_refines.of_complete hskeleton
    exact hrun
  obtain ⟨_, _, _, _, _, _, hdata⟩ := (parse_safe _).2.2.2 _ hcheck
  exact ⟨(hdata 12 (by decide)).1 .panic (by decide), (parse_safe _).2.2.1 (by decide)⟩

end MiniRedis
