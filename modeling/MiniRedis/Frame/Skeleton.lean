import MiniRedis.Frame.Parser
import MiniRedis.Library.Decoder

/-!
# What the two passes compute

The structural check finds the skeleton of a frame: its lines, payloads and
nesting, with the lines not yet interpreted. Decoding interprets a skeleton
without looking at the input again. Both are stated as stable decoders, where
`levels` counts the array layers that may still be opened.
-/
namespace MiniRedis

open Library

inductive Skeleton where
  | line (marker : UInt8) (content : Bytes)
  | bulk (payload : Bytes)
  | array (elements : List Skeleton)
  | null

/-- A decoder of the wire format; a rejection carries the message of `Error::Other`. -/
abbrev WireDecoder (α : Type) : Type := Decoder UInt8 String α

/-- Neither CR nor LF occurs. -/
def LineSafe (line : Bytes) : Prop := ∀ byte ∈ line, byte ≠ cr ∧ byte ≠ lf

instance (line : Bytes) : Decidable (LineSafe line) :=
  List.decidableBAll (fun byte => byte ≠ cr ∧ byte ≠ lf) line

@[simp] theorem lineSafe_nil : LineSafe [] := by simp [LineSafe]

@[simp] theorem lineSafe_cons {byte : UInt8} {line : Bytes} :
    LineSafe (byte :: line) ↔ (byte ≠ cr ∧ byte ≠ lf) ∧ LineSafe line := by
  simp [LineSafe]

@[simp] theorem lineSafe_append {l r : Bytes} :
    LineSafe (l ++ r) ↔ LineSafe l ∧ LineSafe r :=
  List.forall_mem_append

/-- A terminated line is found wherever it is safe, whatever follows. -/
theorem scanLine_line {line : Bytes} (hline : LineSafe line) (rest : Bytes) (index : ℕ) :
    scanLine (line ++ cr :: lf :: rest) index = .ok (index + line.length) := by
  induction line generalizing index with
  | nil => simp [scanLine]
  | cons byte line ih =>
    obtain ⟨⟨hcr, hlf⟩, hline⟩ := lineSafe_cons.mp hline
    simp only [List.cons_append, scanLine, if_neg hlf, if_pos hcr, ih hline, List.length_cons]
    congr 1
    omega

/-- Conversely, the scan only stops at the terminator of a safe line. -/
theorem scanLine_eq_ok {s : Bytes} {index stop : ℕ} (h : scanLine s index = .ok stop) :
    ∃ line rest, s = line ++ cr :: lf :: rest ∧ LineSafe line ∧ stop = index + line.length := by
  induction s generalizing index with
  | nil => cases h
  | cons byte s ih =>
    by_cases hlf : byte = lf
    · simp [scanLine, hlf] at h
    by_cases hcr : byte = cr
    · subst hcr
      cases s with
      | nil => simp [scanLine] at h
      | cons next rest =>
        by_cases hnext : next = lf
        · subst hnext
          simp only [scanLine, if_neg hlf, ne_eq, not_true_eq_false, if_false] at h
          cases h
          exact ⟨[], rest, rfl, lineSafe_nil, rfl⟩
        · simp [scanLine, hnext] at h
    · simp only [scanLine, if_neg hlf, ne_eq, hcr, not_false_eq_true, if_true] at h
      obtain ⟨line, rest, rfl, hline, rfl⟩ := ih h
      refine ⟨byte :: line, rest, rfl, lineSafe_cons.mpr ⟨⟨hcr, hlf⟩, hline⟩, ?_⟩
      simp only [List.length_cons]
      omega

theorem scanLine_error_append {s : Bytes} {index : ℕ} {message : String}
    (h : scanLine s index = .error (.other message)) (t : Bytes) :
    scanLine (s ++ t) index = .error (.other message) := by
  induction s generalizing index with
  | nil => cases h
  | cons byte s ih =>
    by_cases hlf : byte = lf
    · simpa [scanLine, hlf] using h
    by_cases hcr : byte = cr
    · subst hcr
      cases s with
      | nil => simp [scanLine] at h
      | cons next rest => simpa [scanLine] using h
    · simp only [List.cons_append, scanLine, if_neg hlf, ne_eq, hcr, not_false_eq_true,
        if_true] at h ⊢
      exact ih h

/-- The unread line and its terminator. -/
def lineDecoder : WireDecoder Bytes := fun s =>
  match scanLine s 0 with
  | .ok index => .complete (s.take index) (index + 2)
  | .error .incomplete => .incomplete
  | .error (.other message) => .invalid message

theorem lineDecoder_line {line : Bytes} (hline : LineSafe line) (rest : Bytes) :
    lineDecoder (line ++ cr :: lf :: rest) = .complete line (line.length + 2) := by
  simp [lineDecoder, scanLine_line hline]

theorem lineDecoder_eq_complete {s line : Bytes} {n : ℕ}
    (h : lineDecoder s = .complete line n) :
    ∃ rest, s = line ++ cr :: lf :: rest ∧ LineSafe line ∧ n = line.length + 2 := by
  unfold lineDecoder at h
  split at h
  · rename_i index hscan
    obtain ⟨l, rest, rfl, hl, rfl⟩ := scanLine_eq_ok hscan
    simp only [Nat.zero_add, List.take_left] at h
    cases h
    exact ⟨rest, rfl, hl, rfl⟩
  · cases h
  · cases h

theorem lineDecoder_eq_invalid {s : Bytes} {message : String} :
    lineDecoder s = .invalid message ↔ scanLine s 0 = .error (.other message) := by
  unfold lineDecoder
  split <;> simp_all

theorem lineDecoder_stable : lineDecoder.Stable where
  used_le h := by
    obtain ⟨rest, rfl, _, rfl⟩ := lineDecoder_eq_complete h
    simp
  complete_take h t := by
    obtain ⟨rest, rfl, hline, rfl⟩ := lineDecoder_eq_complete h
    simpa [List.take_append, List.take_of_length_le] using lineDecoder_line hline t
  invalid_append h t := by
    rw [lineDecoder_eq_invalid] at h ⊢
    exact scanLine_error_append h t

/-- A decimal field: a line whose content denotes an `i64`. -/
def decimalDecoder : WireDecoder Int64 :=
  lineDecoder.interpret fun line => (decimalOfLine line).mapError FrameError.display

/-- The payload of a bulk string and its terminator. -/
def bulkDecoder (length : ℕ) : WireDecoder Skeleton := do
  let payload ← Decoder.block length
  let terminator ← Decoder.block 2
  if terminator = [cr, lf] then pure (Skeleton.bulk payload)
  else Decoder.fail "Invalid bulk string terminator"

/-- The whole payload and its terminator are present before either is judged. -/
theorem bulkDecoder_apply (length : ℕ) (s : Bytes) :
    bulkDecoder length s =
      if length + 2 ≤ s.length then
        if (s.drop length).take 2 = [cr, lf] then
          .complete (.bulk (s.take length)) (length + 2)
        else .invalid "Invalid bulk string terminator"
      else .incomplete := by
  simp only [bulkDecoder, Decoder.bind_apply, Decoder.block]
  by_cases hpay : length ≤ s.length
  · by_cases hterm : 2 ≤ (s.drop length).length
    · have hle : length + 2 ≤ s.length := by
        rw [List.length_drop] at hterm
        omega
      simp only [if_pos hpay, if_pos hterm, if_pos hle]
      by_cases hcrlf : (s.drop length).take 2 = [cr, lf] <;> simp [hcrlf]
    · have hle : ¬ length + 2 ≤ s.length := by
        rw [List.length_drop] at hterm
        omega
      simp only [if_pos hpay, if_neg hterm, if_neg hle]
  · have hle : ¬ length + 2 ≤ s.length := by omega
    simp only [if_neg hpay, if_neg hle]

/-- One layer of the structural pass; `child` is absent at the nesting limit. -/
def layer (child : Option (WireDecoder Skeleton)) : WireDecoder Skeleton := do
  let marker ← Decoder.item
  if marker = plus ∨ marker = minus ∨ marker = colon then
    let content ← lineDecoder
    pure (Skeleton.line marker content)
  else if marker = dollar then
    let length ← decimalDecoder
    if length = -1 then pure Skeleton.null
    else if 0 ≤ length then bulkDecoder length.toNatClampNeg
    else Decoder.fail "Invalid bulk string length"
  else if marker = star then
    match child with
    | none => Decoder.fail "Array nesting depth exceeds the supported limit"
    | some child =>
      let length ← decimalDecoder
      if length = -1 then pure Skeleton.null
      else if length = 0 then pure (Skeleton.array [])
      else if 1 ≤ length ∧ length < arrayLengthLimitExclusive then
        let elements ← child.sequence length.toNatClampNeg
        pure (Skeleton.array elements)
      else Decoder.fail "Array length is outside the supported range"
  else Decoder.fail "Invalid frame type marker"

/-- The structural pass. -/
def skeleton : ℕ → WireDecoder Skeleton
  | 0 => layer none
  | levels + 1 => layer (some (skeleton levels))

theorem decimalDecoder_stable : decimalDecoder.Stable := lineDecoder_stable.interpret _

theorem bulkDecoder_stable (length : ℕ) : (bulkDecoder length).Stable := by
  refine (Decoder.Stable.block length).bind fun payload => ?_
  refine (Decoder.Stable.block 2).bind fun terminator => ?_
  split
  · exact .pure _
  · exact .fail _

theorem layer_stable {child : Option (WireDecoder Skeleton)}
    (hchild : ∀ d ∈ child, Decoder.Stable d) : (layer child).Stable := by
  refine Decoder.Stable.item.bind fun marker => ?_
  split
  · exact lineDecoder_stable.bind fun content => .pure _
  split
  · refine decimalDecoder_stable.bind fun length => ?_
    split
    · exact .pure _
    split
    · exact bulkDecoder_stable _
    · exact .fail _
  split
  · cases child with
    | none => exact .fail _
    | some child =>
      refine decimalDecoder_stable.bind fun length => ?_
      split
      · exact .pure _
      split
      · exact .pure _
      split
      · exact ((hchild child rfl).sequence _).bind fun elements => .pure _
      · exact .fail _
  · exact .fail _

theorem skeleton_stable (levels : ℕ) : (skeleton levels).Stable := by
  induction levels with
  | zero => exact layer_stable (by simp)
  | succ levels ih => exact layer_stable (by simpa using ih)

mutual

/-- The content pass on a skeleton. -/
def decode : Skeleton → Except String Frame
  | .line marker content =>
    if marker = plus ∨ marker = minus then
      match fromUtf8 content with
      | none => .error "Invalid UTF-8"
      | some string => .ok (if marker = plus then .simple string else .error string)
    else
      match decimalOfLine content with
      | .error e => .error e.display
      | .ok number => .ok (.integer number)
  | .bulk payload => .ok (.bulk payload)
  | .null => .ok .null
  | .array elements =>
    match decodeAll elements with
    | .error message => .error message
    | .ok frames => .ok (.array frames)

def decodeAll : List Skeleton → Except String (List Frame)
  | [] => .ok []
  | element :: elements =>
    match decode element with
    | .error message => .error message
    | .ok frame =>
      match decodeAll elements with
      | .error message => .error message
      | .ok frames => .ok (frame :: frames)

end

/-- `Frame::parse` as a decoder: the structural pass, then the content pass. -/
def frameDecoder : WireDecoder Frame := (skeleton maxArrayDepth).interpret decode

theorem frameDecoder_stable : frameDecoder.Stable := (skeleton_stable maxArrayDepth).interpret decode

end MiniRedis
