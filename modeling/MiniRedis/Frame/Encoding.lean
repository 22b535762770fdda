import MiniRedis.Frame.Decimal

/-!
# Encoding frames

`encode` is the byte sequence of `Connection::write_data`. On the frames that
satisfy its documented precondition and the limits of the parser, decoding
undoes it in front of any continuation.
-/
namespace MiniRedis

open Library

mutual

/-- The bytes that `Connection::write_data` writes. -/
def encode : Frame → Bytes
  | .simple string => plus :: (asBytes string ++ [cr, lf])
  | .error string => minus :: (asBytes string ++ [cr, lf])
  | .integer num => colon :: (asBytes (toString num) ++ [cr, lf])
  | .bulk bytes => dollar :: (asBytes (toString bytes.length) ++ [cr, lf] ++ bytes ++ [cr, lf])
  | .array elements => star :: (asBytes (toString elements.length) ++ [cr, lf] ++ encodeAll elements)
  | .null => asBytes "$-1\r\n"

def encodeAll : List Frame → Bytes
  | [] => []
  | element :: elements => encode element ++ encodeAll elements

end

/-- `Null` has the bulk-null representation. -/
theorem encode_null : encode .null = [dollar, minus, 49, cr, lf] := by
  rw [encode]
  decide

namespace Frame

mutual

/-- The frame and everything nested in it. -/
def nodes : Frame → List Frame
  | .simple string => [.simple string]
  | .error string => [.error string]
  | .integer num => [.integer num]
  | .bulk bytes => [.bulk bytes]
  | .array elements => .array elements :: nodesAll elements
  | .null => [.null]

def nodesAll : List Frame → List Frame
  | [] => []
  | element :: elements => nodes element ++ nodesAll elements

end

mutual

/-- The number of array layers along the deepest path. -/
def depth : Frame → ℕ
  | .simple _ => 0
  | .error _ => 0
  | .integer _ => 0
  | .bulk _ => 0
  | .array elements => depthAll elements + 1
  | .null => 0

def depthAll : List Frame → ℕ
  | [] => 0
  | element :: elements => max (depth element) (depthAll elements)

end

/-- The precondition of `write_frame`: neither CR nor LF in a line payload, at any level. -/
def LineSafe (frame : Frame) : Prop :=
  ∀ node ∈ frame.nodes,
    match node with
    | .simple string => MiniRedis.LineSafe (asBytes string)
    | .error string => MiniRedis.LineSafe (asBytes string)
    | _ => True

/-- Every array is shorter than the parser's limit. -/
def ShortArrays (frame : Frame) : Prop :=
  ∀ node ∈ frame.nodes,
    match node with
    | .array elements => elements.length < arrayLengthLimitExclusive.toNatClampNeg
    | _ => True

/-- Every payload fits in memory, as each value of `Bytes` does. -/
def InMemory (frame : Frame) : Prop :=
  ∀ node ∈ frame.nodes,
    match node with
    | .bulk bytes => bytes.length ≤ isizeMax
    | _ => True

end Frame

/-- What one node needs for its encoding to be read back. -/
def ReadableNode : Frame → Prop
  | .simple string => LineSafe (asBytes string)
  | .error string => LineSafe (asBytes string)
  | .integer _ => True
  | .bulk bytes => bytes.length ≤ isizeMax
  | .array elements => elements.length < arrayLengthLimitExclusive.toNatClampNeg
  | .null => True

/-- The encodings of the frame and of all its parts can be read back. -/
def Readable (frame : Frame) : Prop := ∀ node ∈ frame.nodes, ReadableNode node

theorem readable_of_limits {frame : Frame} (hsafe : frame.LineSafe) (hshort : frame.ShortArrays)
    (hmemory : frame.InMemory) : Readable frame := by
  intro node hnode
  have h1 := hsafe node hnode
  have h2 := hshort node hnode
  have h3 := hmemory node hnode
  cases node with
  | simple string => exact h1
  | error string => exact h1
  | integer num => trivial
  | bulk bytes => exact h3
  | array elements => exact h2
  | null => trivial

theorem Readable.node {frame : Frame} (h : Readable frame) : ReadableNode frame := by
  refine h frame ?_
  cases frame <;> simp [Frame.nodes]

/-- The structure that the check finds in an encoded frame. -/
def skeletonOf : Frame → Skeleton
  | .simple string => .line plus (asBytes string)
  | .error string => .line minus (asBytes string)
  | .integer num => .line colon (asBytes (toString num))
  | .bulk bytes => .bulk bytes
  | .array elements => .array (elements.map skeletonOf)
  | .null => .null

mutual

/-- The content pass recovers the frame from its structure. -/
theorem decode_skeletonOf : ∀ frame : Frame, decode (skeletonOf frame) = .ok frame
  | .simple string => by simp [skeletonOf, decode]
  | .error string => by
    have hmarker : ¬ minus = plus := by decide
    simp [skeletonOf, decode, hmarker]
  | .integer num => by
    have hmarker : ¬ (colon = plus ∨ colon = minus) := by decide
    rw [skeletonOf, decode, if_neg hmarker, decimalOfLine_toString]
  | .bulk bytes => by simp [skeletonOf, decode]
  | .array elements => by simp [skeletonOf, decode, decodeAll_skeletonOf elements]
  | .null => by simp [skeletonOf, decode]

theorem decodeAll_skeletonOf : ∀ frames : List Frame,
    decodeAll (frames.map skeletonOf) = .ok frames
  | [] => by simp [decodeAll]
  | element :: elements => by
    simp [decodeAll, decode_skeletonOf element, decodeAll_skeletonOf elements]

end

theorem zero_le_ofNat {n : ℕ} (h : n < 2 ^ 63) : 0 ≤ Int64.ofNat n := by
  rw [Int64.le_iff_toInt_le, Int64.toInt_ofNat_of_lt h]
  exact Int.natCast_nonneg n

theorem ofNat_ne_neg_one {n : ℕ} (h : n < 2 ^ 63) : Int64.ofNat n ≠ -1 := by
  intro heq
  have hnonneg := zero_le_ofNat h
  rw [heq] at hnonneg
  exact absurd hnonneg (by decide)

/-- A length below a limit, as the parser compares them. -/
theorem lt_toNatClampNeg_iff {n : ℕ} {limit : Int64} :
    n < limit.toNatClampNeg ↔ (n : ℤ) < limit.toInt := by
  rw [← Int64.toNat_toInt, Int.lt_toNat]

/-- The lengths that open an array of elements. -/
theorem ofNat_inArrayRange {n : ℕ} (hpos : 0 < n)
    (h : n < arrayLengthLimitExclusive.toNatClampNeg) :
    Int64.ofNat n ≠ 0 ∧ 1 ≤ Int64.ofNat n ∧ Int64.ofNat n < arrayLengthLimitExclusive := by
  have hvalue : (Int64.ofNat n).toInt = n :=
    Int64.toInt_ofNat_of_lt (Nat.lt_trans h arrayLengthLimitExclusive.toNatClampNeg_lt)
  have hone : (1 : Int64).toInt = 1 := by decide
  have hlimit := lt_toNatClampNeg_iff.mp h
  refine ⟨fun heq => ?_, ?_, ?_⟩
  · rw [heq] at hvalue
    have hzero : (0 : Int64).toInt = 0 := by decide
    omega
  · rw [Int64.le_iff_toInt_le]
    omega
  · rw [Int64.lt_iff_toInt_lt]
    omega

theorem decimalDecoder_length {n : ℕ} (h : n < 2 ^ 63) (rest : Bytes) :
    decimalDecoder (asBytes (toString n) ++ [cr, lf] ++ rest) =
      .complete (Int64.ofNat n) ((asBytes (toString n)).length + 2) := by
  refine Decoder.interpret_eq_complete.mpr ⟨asBytes (toString n), ?_, ?_⟩
  · simpa using lineDecoder_line (lineSafe_toString_nat n) rest
  · rw [decimalOfLine_toString_nat h]
    rfl

/-- A line behind its marker. -/
theorem skeleton_line (levels : ℕ) {marker : UInt8}
    (hmarker : marker = plus ∨ marker = minus ∨ marker = colon) {line : Bytes}
    (hline : LineSafe line) (rest : Bytes) :
    skeleton levels (marker :: (line ++ [cr, lf]) ++ rest) =
      .complete (.line marker line) (marker :: (line ++ [cr, lf])).length := by
  rw [skeleton_eq]
  refine Decoder.bind_eq_complete.mpr ⟨marker, 1, line.length + 2, rfl, ?_, ?_⟩
  · rw [if_pos hmarker]
    refine Decoder.bind_eq_complete.mpr ⟨line, line.length + 2, 0, ?_, rfl, rfl⟩
    simpa using lineDecoder_line hline rest
  · simp only [List.length_cons, List.length_append, List.length_nil]
    omega

theorem skeleton_bulk (levels : ℕ) {bytes : Bytes} (hbytes : bytes.length ≤ isizeMax)
    (rest : Bytes) :
    skeleton levels (encode (.bulk bytes) ++ rest) =
      .complete (.bulk bytes) (encode (.bulk bytes)).length := by
  have hlength : bytes.length < 2 ^ 63 := by
    unfold isizeMax at hbytes
    omega
  have hdollar : ¬ (dollar = plus ∨ dollar = minus ∨ dollar = colon) := by decide
  rw [skeleton_eq, encode]
  refine Decoder.bind_eq_complete.mpr ⟨dollar, 1,
    (asBytes (toString bytes.length)).length + 2 + (bytes.length + 2), rfl, ?_, ?_⟩
  · rw [if_neg hdollar, if_pos rfl]
    refine Decoder.bind_eq_complete.mpr ⟨Int64.ofNat bytes.length, _, bytes.length + 2, ?_, ?_, rfl⟩
    · have hdecimal := decimalDecoder_length hlength (bytes ++ [cr, lf] ++ rest)
      simpa using hdecimal
    · rw [if_neg (ofNat_ne_neg_one hlength), if_pos (zero_le_ofNat hlength),
        Int64.toNatClampNeg_ofNat_of_lt hlength, bulkDecoder_apply]
      simp
  · simp only [List.length_cons, List.length_append, List.length_nil]
    omega

/-- The elements of an array follow its length. -/
theorem skeleton_array (levels : ℕ) {elements : List Frame}
    (hshort : elements.length < arrayLengthLimitExclusive.toNatClampNeg) {rest : Bytes}
    {skeletons : List Skeleton}
    (hsequence : (skeleton levels).sequence elements.length (encodeAll elements ++ rest) =
      .complete skeletons (encodeAll elements).length) :
    skeleton (levels + 1) (encode (.array elements) ++ rest) =
      .complete (.array skeletons) (encode (.array elements)).length := by
  have hlength : elements.length < 2 ^ 63 :=
    Nat.lt_trans hshort arrayLengthLimitExclusive.toNatClampNeg_lt
  have hstar : ¬ (star = plus ∨ star = minus ∨ star = colon) := by decide
  have hdollar : ¬ star = dollar := by decide
  rw [skeleton_eq, encode]
  refine Decoder.bind_eq_complete.mpr ⟨star, 1,
    (asBytes (toString elements.length)).length + 2 + (encodeAll elements).length, rfl, ?_, ?_⟩
  · rw [if_neg hstar, if_neg hdollar, if_pos rfl]
    refine Decoder.bind_eq_complete.mpr
      ⟨Int64.ofNat elements.length, _, (encodeAll elements).length, ?_, ?_, rfl⟩
    · have hdecimal := decimalDecoder_length hlength (encodeAll elements ++ rest)
      simpa using hdecimal
    · rw [if_neg (ofNat_ne_neg_one hlength)]
      by_cases hzero : elements = []
      · subst hzero
        cases hsequence
        rfl
      · obtain ⟨hne, hrange⟩ := ofNat_inArrayRange (List.length_pos_of_ne_nil hzero) hshort
        rw [if_neg hne, if_pos hrange, Int64.toNatClampNeg_ofNat_of_lt hlength]
        refine Decoder.bind_eq_complete.mpr ⟨skeletons, _, 0, ?_, rfl, rfl⟩
        simpa using hsequence
  · simp only [List.length_cons, List.length_append, List.length_nil]
    omega

theorem Readable.elements {elements : List Frame} (h : Readable (.array elements)) :
    ∀ node ∈ Frame.nodesAll elements, ReadableNode node :=
  fun node hnode => h node (List.mem_cons_of_mem _ hnode)

mutual

/-- The structural pass finds the structure of an encoded frame, whatever follows. -/
theorem skeleton_encode : ∀ (frame : Frame) (levels : ℕ) (rest : Bytes), frame.depth ≤ levels →
    Readable frame →
    skeleton levels (encode frame ++ rest) =
      .complete (skeletonOf frame) (encode frame).length
  | .simple string, levels, rest, _, h => by
    rw [encode, skeletonOf]
    exact skeleton_line levels (.inl rfl) h.node rest
  | .error string, levels, rest, _, h => by
    rw [encode, skeletonOf]
    exact skeleton_line levels (.inr (.inl rfl)) h.node rest
  | .integer num, levels, rest, _, _ => by
    rw [encode, skeletonOf]
    exact skeleton_line levels (.inr (.inr rfl)) (lineSafe_toString num) rest
  | .bulk bytes, levels, rest, _, h => by
    rw [skeletonOf]
    exact skeleton_bulk levels h.node rest
  | .array elements, levels, rest, hdepth, h => by
    cases levels with
    | zero => simp [Frame.depth] at hdepth
    | succ levels =>
      rw [Frame.depth] at hdepth
      rw [skeletonOf]
      exact skeleton_array levels h.node
        (sequence_encodeAll elements levels rest (by omega) h.elements)
  | .null, levels, rest, _, _ => by
    rw [encode_null, skeletonOf, skeleton_eq]
    rfl

theorem sequence_encodeAll : ∀ (frames : List Frame) (levels : ℕ) (rest : Bytes),
    Frame.depthAll frames ≤ levels → (∀ node ∈ Frame.nodesAll frames, ReadableNode node) →
    (skeleton levels).sequence frames.length (encodeAll frames ++ rest) =
      .complete (frames.map skeletonOf) (encodeAll frames).length
  | [], _, _, _, _ => rfl
  | element :: elements, levels, rest, hdepth, h => by
    rw [Frame.depthAll] at hdepth
    rw [Frame.nodesAll] at h
    have hhead := skeleton_encode element levels (encodeAll elements ++ rest) (by omega)
      fun node hnode => h node (List.mem_append_left _ hnode)
    have htail := sequence_encodeAll elements levels rest (by omega)
      fun node hnode => h node (List.mem_append_right _ hnode)
    rw [encodeAll, List.append_assoc, List.length_append]
    refine Decoder.bind_eq_complete.mpr ⟨_, _, _, hhead, ?_, rfl⟩
    refine Decoder.bind_eq_complete.mpr ⟨_, _, 0, ?_, rfl, rfl⟩
    rw [List.drop_left]
    exact htail

end

/-- The frame decoder undoes `encode` in front of any continuation. -/
theorem frameDecoder_encode {frame : Frame} (hdepth : frame.depth ≤ maxArrayDepth)
    (h : Readable frame) (rest : Bytes) :
    frameDecoder (encode frame ++ rest) = .complete frame (encode frame).length :=
  Decoder.interpret_eq_complete.mpr
    ⟨_, skeleton_encode frame maxArrayDepth rest hdepth h, decode_skeletonOf frame⟩

/-- Decoding undoes encoding, between any bytes. -/
theorem parse_encode (pre rest : Bytes) (frame : Frame) (hsafe : frame.LineSafe)
    (hshort : frame.ShortArrays) (hdepth : frame.depth ≤ maxArrayDepth)
    (hmemory : frame.InMemory) :
    parse ⟨pre ++ encode frame ++ rest, pre.length⟩ =
      (.ok frame, ⟨pre ++ encode frame ++ rest, pre.length + (encode frame).length⟩) := by
  have hunread : (Cursor.mk (pre ++ encode frame ++ rest) pre.length).unread =
      encode frame ++ rest := by
    rw [Cursor.unread, List.append_assoc, List.drop_left]
  refine parse_eq_ok_iff.mpr ⟨(encode frame).length, ?_, rfl⟩
  rw [hunread]
  exact frameDecoder_encode hdepth (readable_of_limits hsafe hshort hmemory) rest

/-- A null and the least `i64` inside an array, between other bytes. -/
theorem parse_encode_nested :
    parse ⟨[43] ++ encode (.array [.null, .integer Int64.minValue, .bulk [13, 10]]) ++ [13], 1⟩ =
      (.ok (.array [.null, .integer Int64.minValue, .bulk [13, 10]]),
        ⟨[43] ++ encode (.array [.null, .integer Int64.minValue, .bulk [13, 10]]) ++ [13],
          1 + (encode (.array [.null, .integer Int64.minValue, .bulk [13, 10]])).length⟩) := by
  refine parse_encode [43] [13] (.array [.null, .integer Int64.minValue, .bulk [13, 10]])
    ?_ ?_ ?_ ?_
  · simp [Frame.LineSafe, Frame.nodes, Frame.nodesAll]
  · simp [Frame.ShortArrays, Frame.nodes, Frame.nodesAll]
    decide
  · simp [Frame.depth, Frame.depthAll, maxArrayDepth]
  · simp [Frame.InMemory, Frame.nodes, Frame.nodesAll, isizeMax]

end MiniRedis
