import MiniRedis.Frame.Grammar

/-!
# The normal form of a frame

The parser accepts padded lengths, minus zero and two nulls, the encoder writes
one spelling of each frame. That spelling is the shortest, and every decoded
frame meets what the encoder assumes of its argument.
-/
namespace MiniRedis

open Library

/-! ### Shortest decimals -/

theorem digitsValue_lt {line : Bytes} (hline : AllDigits line) (n : ℕ) :
    digitsValue n line < (n + 1) * 10 ^ line.length := by
  induction line generalizing n with
  | nil => simp [digitsValue]
  | cons byte line ih =>
    obtain ⟨hdigit, hline⟩ := allDigits_cons.mp hline
    have hlt := digit_lt hdigit
    have hstep : 10 * n + (byte - 48).toNat + 1 ≤ (n + 1) * 10 := by omega
    calc digitsValue n (byte :: line)
        = digitsValue (10 * n + (byte - 48).toNat) line := by rw [digitsValue]
      _ < (10 * n + (byte - 48).toNat + 1) * 10 ^ line.length := ih hline _
      _ ≤ (n + 1) * 10 * 10 ^ line.length := Nat.mul_le_mul_right _ hstep
      _ = (n + 1) * 10 ^ (byte :: line).length := by
        rw [List.length_cons, Nat.pow_succ', Nat.mul_assoc]

/-- A magnitude is never printed longer than it was spelled. -/
theorem length_toString_digitsValue {digits : Bytes} (hne : digits ≠ []) (h : AllDigits digits) :
    (asBytes (toString (digitsValue 0 digits))).length ≤ digits.length := by
  refine length_toString_le (List.length_pos_of_ne_nil hne) ?_
  have hlt := digitsValue_lt h 0
  rwa [Nat.zero_add, Nat.one_mul] at hlt

theorem DecimalField.length_toString {line : Bytes} {num : Int64}
    (h : DecimalField line num.toInt) : (asBytes (toString num)).length ≤ line.length := by
  obtain ⟨-, negative, digits, rfl, hne, hdigits, hvalue⟩ := h
  have hshort := length_toString_digitsValue hne hdigits
  have habs : num.toInt.natAbs = digitsValue 0 digits := by
    rw [hvalue, decimalValue]
    split <;> omega
  rw [asBytes_toString_int, habs]
  cases negative with
  | true =>
    rw [decimalLine, decimalLine, if_pos rfl]
    split
    · rw [List.length_cons, List.length_cons]
      omega
    · rw [List.length_cons]
      omega
  | false =>
    have hnonneg : ¬ num.toInt < 0 := by
      rw [hvalue, decimalValue, if_neg Bool.false_ne_true]
      omega
    rw [decimalLine, decimalLine, decide_eq_false hnonneg]
    exact hshort

theorem DecimalField.length_toString_nat {line : Bytes} {n : ℕ} (h : DecimalField line n) :
    (asBytes (toString n)).length ≤ line.length := by
  obtain ⟨num, hnum⟩ := h.exists_toInt
  have hfield := h
  rw [← hnum] at hfield
  have hshort := hfield.length_toString
  rw [asBytes_toString_int, hnum, Int.natAbs_natCast, decimalLine] at hshort
  split at hshort
  · rw [List.length_cons] at hshort
    omega
  · exact hshort

theorem DecimalField.length_neg_one {line : Bytes} (h : DecimalField line (-1)) :
    2 ≤ line.length := by
  have hfield : DecimalField line (-1 : Int64).toInt := h
  have hshort := hfield.length_toString
  have hlength : (asBytes (toString (-1 : Int64))).length = 2 := by decide
  omega

/-! ### What a derivation gives -/

theorem nodes_readable {frame : Frame} (hnodes : frame.nodes = [frame]) (h : ReadableNode frame) :
    Readable frame := by
  intro node hnode
  rw [hnodes, List.mem_singleton] at hnode
  rw [hnode]
  exact h

theorem asBytes_lineSafe {line : Bytes} {string : String} (hline : LineSafe line)
    (h : fromUtf8 line = some string) : LineSafe (asBytes string) := by
  rw [fromUtf8_eq_some.mp h]
  exact hline

theorem DecimalField.le_isizeMax {line : Bytes} {n : ℕ} (h : DecimalField line n) : n ≤ isizeMax := by
  have hrange := (inRange_iff.mp h.1).2
  unfold isizeMax
  omega

mutual

/-- Every node of a derived frame is in the domain of the encoder. -/
theorem Derives.readable {depth : ℕ} {s : Bytes} {frame : Frame} (h : Derives depth s frame) :
    Readable frame := by
  cases h with
  | simple hline hutf => exact nodes_readable rfl (asBytes_lineSafe hline hutf)
  | error hline hutf => exact nodes_readable rfl (asBytes_lineSafe hline hutf)
  | integer hfield => exact nodes_readable rfl trivial
  | nullBulk hfield => exact nodes_readable rfl trivial
  | bulk hfield => exact nodes_readable rfl hfield.le_isizeMax
  | nullArray hdepth hfield => exact nodes_readable rfl trivial
  | array hdepth hfield hlimit helements =>
    intro node hnode
    rcases List.mem_cons.mp hnode with rfl | hinner
    · exact lt_toNatClampNeg_iff.mpr hlimit
    · exact helements.readable node hinner

theorem DerivesAll.readable {depth : ℕ} {s : Bytes} {frames : List Frame}
    (h : DerivesAll depth s frames) : ∀ node ∈ Frame.nodesAll frames, ReadableNode node := by
  cases h with
  | nil =>
    intro node hnode
    cases hnode
  | cons hfirst hothers =>
    intro node hnode
    rcases List.mem_append.mp hnode with hhead | htail
    · exact hfirst.readable node hhead
    · exact hothers.readable node htail

end

mutual

/-- The layers of a derived frame fit below the arrays around it. -/
theorem Derives.depth_le {depth : ℕ} {s : Bytes} {frame : Frame} (h : Derives depth s frame)
    (hdepth : depth ≤ maxArrayDepth) : depth + frame.depth ≤ maxArrayDepth := by
  cases h with
  | simple hline hutf => exact hdepth
  | error hline hutf => exact hdepth
  | integer hfield => exact hdepth
  | nullBulk hfield => exact hdepth
  | bulk hfield => exact hdepth
  | nullArray hlt hfield => exact hdepth
  | array hlt hfield hlimit helements =>
    have hinner := helements.depth_le (by omega)
    rw [Frame.depth]
    omega

theorem DerivesAll.depth_le {depth : ℕ} {s : Bytes} {frames : List Frame}
    (h : DerivesAll depth s frames) (hdepth : depth ≤ maxArrayDepth) :
    depth + Frame.depthAll frames ≤ maxArrayDepth := by
  cases h with
  | nil => exact hdepth
  | cons hfirst hothers =>
    have hhead := hfirst.depth_le hdepth
    have htail := hothers.depth_le hdepth
    rw [Frame.depthAll]
    omega

end

mutual

/-- The encoding of a frame is the shortest of its spellings. -/
theorem Derives.length_encode {depth : ℕ} {s : Bytes} {frame : Frame} (h : Derives depth s frame) :
    (encode frame).length ≤ s.length := by
  cases h with
  | simple hline hutf =>
    rw [encode, fromUtf8_eq_some.mp hutf]
  | error hline hutf =>
    rw [encode, fromUtf8_eq_some.mp hutf]
  | integer hfield =>
    have hshort := hfield.length_toString
    rw [encode]
    simp only [List.length_cons, List.length_append]
    omega
  | nullBulk hfield =>
    have hshort := hfield.length_neg_one
    rw [encode_null]
    simp only [List.length_cons, List.length_append, List.length_nil]
    omega
  | bulk hfield =>
    have hshort := hfield.length_toString_nat
    rw [encode]
    simp only [List.length_cons, List.length_append]
    omega
  | nullArray hdepth hfield =>
    have hshort := hfield.length_neg_one
    rw [encode_null]
    simp only [List.length_cons, List.length_append, List.length_nil]
    omega
  | array hdepth hfield hlimit helements =>
    have hshort := hfield.length_toString_nat
    have hinner := helements.length_encode
    rw [encode]
    simp only [List.length_cons, List.length_append]
    omega

theorem DerivesAll.length_encode {depth : ℕ} {s : Bytes} {frames : List Frame}
    (h : DerivesAll depth s frames) : (encodeAll frames).length ≤ s.length := by
  cases h with
  | nil => exact Nat.le_refl _
  | cons hfirst hothers =>
    have hhead := hfirst.length_encode
    have htail := hothers.length_encode
    rw [encodeAll, List.length_append, List.length_append]
    omega

end

theorem Readable.lineSafe {frame : Frame} (h : Readable frame) : frame.LineSafe := by
  intro node hnode
  have hreadable := h node hnode
  cases node with
  | simple string => exact hreadable
  | error string => exact hreadable
  | integer num => trivial
  | bulk bytes => trivial
  | array elements => trivial
  | null => trivial

/-- What a frame spells, of which `parse` used `n` bytes. -/
theorem parse_derives {src src' : Cursor} {frame : Frame} (h : parse src = (.ok frame, src')) :
    ∃ used rest, src.unread = used ++ rest ∧ src' = src.skip used.length ∧ Derives 0 used frame := by
  obtain ⟨n, hdecoder, rfl⟩ := parse_eq_ok_iff.mp h
  obtain ⟨used, rest, hunread, rfl, hderives⟩ := frameDecoder_eq_complete_iff.mp hdecoder
  exact ⟨used, rest, hunread, rfl, hderives⟩

/-- The encoding of the frame at the cursor, for accepted input. -/
def normalForm (src : Cursor) : Option Bytes :=
  match (parse src).1 with
  | .ok frame => some (encode frame)
  | .error _ => none

theorem normalForm_of_parse {src src' : Cursor} {frame : Frame} (h : parse src = (.ok frame, src')) :
    normalForm src = some (encode frame) := by
  rw [normalForm, h]

/-- Decoding undoes encoding on every frame that was decoded. -/
theorem parse_encode_of_parse {src src' : Cursor} {frame : Frame}
    (h : parse src = (.ok frame, src')) :
    parse ⟨encode frame, 0⟩ = (.ok frame, ⟨encode frame, (encode frame).length⟩) := by
  obtain ⟨used, rest, -, -, hderives⟩ := parse_derives h
  have hdepth := hderives.depth_le (Nat.zero_le _)
  have hdecoder := frameDecoder_encode (by omega) hderives.readable []
  rw [List.append_nil] at hdecoder
  exact parse_eq_ok_iff.mpr ⟨(encode frame).length, hdecoder, by simp [Cursor.skip]⟩

/-- Encoding a decoded frame is a normal form that is never longer than the input: it is in
the encoder's domain, is read back as the same frame, is its own normal form, and is shared
by exactly the spellings of the frame. -/
theorem parse_normalForm {src src' : Cursor} {frame : Frame} (h : parse src = (.ok frame, src')) :
    frame.LineSafe ∧
    src.position + (encode frame).length ≤ src'.position ∧
    parse ⟨encode frame, 0⟩ = (.ok frame, ⟨encode frame, (encode frame).length⟩) ∧
    normalForm src = some (encode frame) ∧
    normalForm ⟨encode frame, 0⟩ = some (encode frame) ∧
    ∀ other other' : Cursor, ∀ frame' : Frame, parse other = (.ok frame', other') →
      (frame = frame' ↔ normalForm src = normalForm other) := by
  have hback := parse_encode_of_parse h
  obtain ⟨used, rest, hunread, rfl, hderives⟩ := parse_derives h
  have hlength := hderives.length_encode
  refine ⟨hderives.readable.lineSafe, Nat.add_le_add_left hlength _, hback, normalForm_of_parse h,
    normalForm_of_parse hback, ?_⟩
  intro other other' frame' hother
  rw [normalForm_of_parse h, normalForm_of_parse hother]
  constructor
  · intro heq
    rw [heq]
  · intro heq
    have hencode : encode frame = encode frame' := Option.some.inj heq
    have hback' := parse_encode_of_parse hother
    rw [← hencode, hback] at hback'
    cases hback'
    rfl

/-- A padded length and a null array become their short forms. -/
theorem parse_normalForm_padded :
    normalForm ⟨asBytes "*2\r\n$001\r\na\r\n*-1\r\n", 0⟩ = some (asBytes "*2\r\n$1\r\na\r\n$-1\r\n") := by
  have hrun : parse ⟨asBytes "*2\r\n$001\r\na\r\n*-1\r\n", 0⟩ =
      (.ok (.array [.bulk [97], .null]), ⟨asBytes "*2\r\n$001\r\na\r\n*-1\r\n", 18⟩) :=
    parse_eq_ok_iff.mpr ⟨18, rfl, rfl⟩
  have hencode : encode (.array [.bulk [97], .null]) = asBytes "*2\r\n$1\r\na\r\n$-1\r\n" := by
    simp only [encode, encodeAll]
    decide
  rw [← hencode]
  exact (parse_normalForm hrun).2.2.2.1

end MiniRedis
