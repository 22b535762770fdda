import MiniRedis.Frame.Grammar

/-!
# What a decoded frame costs and what a rejection says

Every node of a decoded frame is paid for by at least three bytes of the input
beside its payload, so a frame read within the buffer limit is small. The text of
every rejection is one of a few short lines.
-/
namespace MiniRedis

open Library

/-! ### Costs -/

/-- The payload bytes of one node. -/
def Frame.payload : Frame → ℕ
  | .simple string => (asBytes string).length
  | .error string => (asBytes string).length
  | .integer _ => 0
  | .bulk bytes => bytes.length
  | .array _ => 0
  | .null => 0

def nodesCost (nodes : List Frame) : ℕ := (nodes.map fun node => 3 + node.payload).sum

/-- Three bytes for each node, and all payloads. -/
def Frame.cost (frame : Frame) : ℕ := nodesCost frame.nodes

@[simp] theorem nodesCost_append (l r : List Frame) :
    nodesCost (l ++ r) = nodesCost l + nodesCost r := by
  simp [nodesCost]

@[simp] theorem Frame.cost_simple (string : String) :
    (Frame.simple string).cost = 3 + (asBytes string).length := rfl

@[simp] theorem Frame.cost_error (string : String) :
    (Frame.error string).cost = 3 + (asBytes string).length := rfl

@[simp] theorem Frame.cost_integer (num : Int64) : (Frame.integer num).cost = 3 := rfl

@[simp] theorem Frame.cost_bulk (bytes : Bytes) : (Frame.bulk bytes).cost = 3 + bytes.length := rfl

@[simp] theorem Frame.cost_null : Frame.null.cost = 3 := rfl

theorem Frame.nodesCost_nodesAll (elements : List Frame) :
    nodesCost (nodesAll elements) = (elements.map Frame.cost).sum := by
  induction elements with
  | nil => rfl
  | cons element elements ih => simp [nodesAll, ih, Frame.cost]

@[simp] theorem Frame.cost_array (elements : List Frame) :
    (Frame.array elements).cost = 3 + (elements.map Frame.cost).sum := by
  rw [← Frame.nodesCost_nodesAll]
  simp [Frame.cost, Frame.nodes, nodesCost, Frame.payload]

/-- The same for the structure that the check finds. -/
def Skeleton.cost : Skeleton → ℕ
  | .line _ content => 3 + content.length
  | .bulk payload => 3 + payload.length
  | .array elements => 3 + (elements.map Skeleton.cost).sum
  | .null => 3

mutual

/-- The bytes of a shape pay for its nodes and their payloads. -/
theorem Shape.cost_le {depth : ℕ} {s : Bytes} {sk : Skeleton} (h : Shape depth s sk) :
    sk.cost ≤ s.length := by
  cases h with
  | line _ _ =>
    simp only [Skeleton.cost, List.length_cons, List.length_append, List.length_nil]
    omega
  | nullBulk _ =>
    simp only [Skeleton.cost, List.length_cons, List.length_append, List.length_nil]
    omega
  | bulk _ =>
    simp only [Skeleton.cost, List.length_cons, List.length_append, List.length_nil]
    omega
  | nullArray _ _ =>
    simp only [Skeleton.cost, List.length_cons, List.length_append, List.length_nil]
    omega
  | array _ _ _ helements =>
    have hsum := helements.cost_le
    simp only [Skeleton.cost, List.length_cons, List.length_append, List.length_nil]
    omega

theorem ShapeAll.cost_le {depth : ℕ} {s : Bytes} {elements : List Skeleton}
    (h : ShapeAll depth s elements) : (elements.map Skeleton.cost).sum ≤ s.length := by
  cases h with
  | nil => exact Nat.le_refl _
  | cons hfirst hrest =>
    have hhead := hfirst.cost_le
    have htail := hrest.cost_le
    simp only [List.map_cons, List.sum_cons, List.length_append]
    omega

end

/-- The structural pass uses at least the cost of what it finds. -/
theorem skeleton_charge {s : Bytes} {sk : Skeleton} {n : ℕ}
    (h : skeleton maxArrayDepth s = .complete sk n) : sk.cost ≤ n := by
  obtain ⟨used, rest, rfl, rfl, hshape⟩ := skeleton_eq_complete_iff.mp h
  exact hshape.cost_le

mutual

/-- Decoding the lines adds nothing. -/
theorem decode_cost : ∀ (sk : Skeleton) (frame : Frame), decode sk = .ok frame →
    frame.cost ≤ sk.cost
  | .line marker content, frame, h => by
    rw [decode] at h
    split at h
    · split at h
      · cases h
      · rename_i string hutf
        have hlength : (asBytes string).length = content.length := by
          rw [fromUtf8_eq_some.mp hutf]
        cases h
        split <;> simp [Skeleton.cost, hlength]
    · split at h
      · cases h
      · cases h
        simp [Skeleton.cost]
  | .bulk payload, frame, h => by
    rw [decode] at h
    cases h
    simp [Skeleton.cost]
  | .array elements, frame, h => by
    obtain ⟨frames, rfl, hframes⟩ := decode_array_eq_ok h
    have hsum := decodeAll_cost elements frames hframes
    rw [Frame.cost_array, Skeleton.cost]
    omega
  | .null, frame, h => by
    rw [decode] at h
    cases h
    simp [Skeleton.cost]

theorem decodeAll_cost : ∀ (elements : List Skeleton) (frames : List Frame),
    decodeAll elements = .ok frames →
    (frames.map Frame.cost).sum ≤ (elements.map Skeleton.cost).sum
  | [], frames, h => by
    rw [decodeAll] at h
    cases h
    exact Nat.le_refl _
  | element :: elements, frames, h => by
    obtain ⟨frame, rest, rfl, hframe, hrest⟩ := decodeAll_cons_eq_ok h
    have hhead := decode_cost element frame hframe
    have htail := decodeAll_cost elements rest hrest
    simp only [List.map_cons, List.sum_cons]
    omega

end

/-- A frame costs no more than the bytes that it was decoded from. -/
theorem frameDecoder_charge {s : Bytes} {frame : Frame} {n : ℕ}
    (h : frameDecoder s = .complete frame n) : frame.cost ≤ n := by
  obtain ⟨sk, hsk, hdecode⟩ := Decoder.interpret_eq_complete.mp h
  exact Nat.le_trans (decode_cost sk frame hdecode) (skeleton_charge hsk)

/-! ### Texts of rejections -/

/-- A text that may stand in an error reply: one line, and within the reader's limit. -/
def ReplyText (text : String) : Prop :=
  LineSafe (asBytes text) ∧ (encode (.error text)).length ≤ maxBufferedBytes

theorem replyText_of_short {text : String} (hsafe : LineSafe (asBytes text))
    (hlength : (asBytes text).length ≤ 100) : ReplyText text := by
  refine ⟨hsafe, ?_⟩
  simp only [encode, List.length_cons, List.length_append, List.length_nil, maxBufferedBytes]
  omega

theorem scanLine_error {s : Bytes} {index : ℕ} {message : String}
    (h : scanLine s index = .error (.other message)) : ReplyText message := by
  induction s generalizing index with
  | nil => cases h
  | cons byte s ih =>
    simp only [scanLine] at h
    split at h
    · cases h
      exact replyText_of_short (by decide) (by decide)
    split at h
    · exact ih h
    split at h
    · cases h
    split at h
    · cases h
      exact replyText_of_short (by decide) (by decide)
    · cases h

theorem decimalMessages_text : ∀ message ∈ decimalMessages, ReplyText message := by
  intro message hmem
  simp only [decimalMessages, List.mem_cons, List.not_mem_nil, or_false] at hmem
  rcases hmem with rfl | rfl | rfl
  · exact replyText_of_short (by decide) (by decide)
  · exact replyText_of_short (by decide) (by decide)
  · exact replyText_of_short (by decide) (by decide)

theorem lineDecoder_rejects : lineDecoder.Rejects ReplyText := fun _ _ h =>
  scanLine_error (lineDecoder_eq_invalid.mp h)

theorem decimalDecoder_rejects : decimalDecoder.Rejects ReplyText := by
  refine lineDecoder_rejects.interpret fun line message h => ?_
  cases hline : decimalOfLine line with
  | ok value =>
    rw [hline] at h
    cases h
  | error e =>
    obtain ⟨text, htext, rfl⟩ := decimalOfLine_error hline
    rw [hline] at h
    cases h
    exact decimalMessages_text text htext

theorem bulkDecoder_rejects (length : ℕ) : (bulkDecoder length).Rejects ReplyText := by
  refine (Decoder.Rejects.block length).bind fun payload => ?_
  refine (Decoder.Rejects.block 2).bind fun terminator => ?_
  split
  · exact .pure _
  · exact .fail (replyText_of_short (by decide) (by decide))

theorem layer_rejects {child : Option (WireDecoder Skeleton)}
    (hchild : ∀ d ∈ child, Decoder.Rejects d ReplyText) : (layer child).Rejects ReplyText := by
  refine Decoder.Rejects.item.bind fun marker => ?_
  split
  · exact lineDecoder_rejects.bind fun content => .pure _
  split
  · refine decimalDecoder_rejects.bind fun length => ?_
    split
    · exact .pure _
    split
    · exact bulkDecoder_rejects _
    · exact .fail (replyText_of_short (by decide) (by decide))
  split
  · cases child with
    | none => exact .fail (replyText_of_short (by decide) (by decide))
    | some child =>
      refine decimalDecoder_rejects.bind fun length => ?_
      split
      · exact .pure _
      split
      · exact .pure _
      split
      · exact ((hchild child rfl).sequence _).bind fun elements => .pure _
      · exact .fail (replyText_of_short (by decide) (by decide))
  · exact .fail (replyText_of_short (by decide) (by decide))

theorem skeleton_rejects (levels : ℕ) : (skeleton levels).Rejects ReplyText := by
  induction levels with
  | zero => exact layer_rejects (by simp)
  | succ levels ih => exact layer_rejects (by simpa using ih)

mutual

theorem decode_error : ∀ (sk : Skeleton) (message : String), decode sk = .error message →
    ReplyText message
  | .line marker content, message, h => by
    rw [decode] at h
    split at h
    · split at h
      · cases h
        exact replyText_of_short (by decide) (by decide)
      · cases h
    · split at h
      · rename_i e hline
        obtain ⟨text, htext, rfl⟩ := decimalOfLine_error hline
        cases h
        exact decimalMessages_text text htext
      · cases h
  | .bulk payload, message, h => by
    rw [decode] at h
    cases h
  | .array elements, message, h => by
    rw [decode] at h
    split at h
    · rename_i text htext
      cases h
      exact decodeAll_error elements _ htext
    · cases h
  | .null, message, h => by
    rw [decode] at h
    cases h

theorem decodeAll_error : ∀ (elements : List Skeleton) (message : String),
    decodeAll elements = .error message → ReplyText message
  | [], message, h => by
    rw [decodeAll] at h
    cases h
  | element :: elements, message, h => by
    rw [decodeAll] at h
    split at h
    · rename_i text htext
      cases h
      exact decode_error element _ htext
    · split at h
      · rename_i text htext
        cases h
        exact decodeAll_error elements _ htext
      · cases h

end

/-- Every message of the parser may stand in an error reply. -/
theorem frameDecoder_rejects : frameDecoder.Rejects ReplyText :=
  (skeleton_rejects maxArrayDepth).interpret decode_error

end MiniRedis
