import MiniRedis.Command
import MiniRedis.Connection
import MiniRedis.Frame.Limits

/-!
# Replies and their readers

Frames that the project's own reader gets back from their encoding, alone and in
a stream; and why every reply of a handler is such a frame.
-/
namespace MiniRedis

open Library

/-- The reader accepts the encoding of the frame and gets the frame back. -/
structure Deliverable (frame : Frame) : Prop where
  readable : Readable frame
  depth_le : frame.depth ≤ maxArrayDepth
  fits : (encode frame).length ≤ maxBufferedBytes

/-- An encoding that is used up. -/
theorem frameDecoder_whole {frame : Frame} (hreadable : Readable frame)
    (hdepth : frame.depth ≤ maxArrayDepth) :
    frameDecoder (encode frame) = .complete frame (encode frame).length := by
  simpa using frameDecoder_encode hdepth hreadable []

/-- A strict prefix of an encoding decides nothing, of any length. -/
theorem frameDecoder_cut {frame : Frame} (hreadable : Readable frame)
    (hdepth : frame.depth ≤ maxArrayDepth) {sent rest : Bytes}
    (hsplit : sent ++ rest = encode frame) (hrest : rest ≠ []) :
    frameDecoder sent = .incomplete := by
  have hcomplete := frameDecoder_whole hreadable hdepth
  refine frameDecoder_stable.strict_prefix hcomplete ⟨rest, hsplit⟩ ?_
  have hlength := congrArg List.length hsplit
  have hpos := List.length_pos_of_ne_nil hrest
  rw [List.length_append] at hlength
  omega

namespace Deliverable

variable {frame : Frame}

theorem window (h : Deliverable frame) (rest : Bytes) :
    frameDecoder ((encode frame ++ rest).take maxBufferedBytes) =
      .complete frame (encode frame).length := by
  rw [List.take_append, List.take_of_length_le h.fits]
  exact frameDecoder_encode h.depth_le h.readable _

/-- A strict prefix of the encoding decides nothing. -/
theorem incomplete (h : Deliverable frame) {sent rest : Bytes} (hsplit : sent ++ rest = encode frame)
    (hrest : rest ≠ []) : frameDecoder sent = .incomplete :=
  frameDecoder_cut h.readable h.depth_le hsplit hrest

theorem referenceCall (h : Deliverable frame) (rest : Bytes) :
    referenceCall (encode frame ++ rest) = (.frame frame, rest) := by
  rw [referenceCall_of_complete (h.window rest), List.drop_left]

/-- A cut encoding is reported at EOF. -/
theorem referenceCall_cut (h : Deliverable frame) {sent rest : Bytes}
    (hsplit : sent ++ rest = encode frame) (hsent : sent ≠ []) (hrest : rest ≠ []) :
    MiniRedis.referenceCall sent = (.error incompleteEofError, sent) := by
  have hlength := congrArg List.length hsplit
  have hpos := List.length_pos_of_ne_nil hrest
  have hfits := h.fits
  rw [List.length_append] at hlength
  have hwindow : sent.take maxBufferedBytes = sent := List.take_of_length_le (by omega)
  rw [referenceCall_of_incomplete hsent (by rw [hwindow]; exact h.incomplete hsplit hrest),
    if_neg (by omega)]

end Deliverable

/-- On a stream of encodings the reader gets the frames, and then what follows. -/
theorem reference_encodeAll {frames : List Frame} (hframes : ∀ frame ∈ frames, Deliverable frame)
    {tail : Bytes} {result : ReadResult} (htail : referenceCall tail = (result, tail))
    (calls : ℕ) :
    (reference calls (encodeAll frames ++ tail)).1 <+:
      frames.map .frame ++ List.replicate calls result := by
  induction calls generalizing frames with
  | zero => exact List.nil_prefix
  | succ calls ih =>
    cases frames with
    | nil =>
      have hrest := @ih [] (by simp)
      simp only [encodeAll, List.nil_append, List.map_nil] at hrest ⊢
      simp only [reference, htail, List.replicate_succ]
      exact (List.prefix_cons_inj _).mpr hrest
    | cons frame frames =>
      have hframe := hframes frame List.mem_cons_self
      have hrest := ih fun f hf => hframes f (List.mem_cons_of_mem frame hf)
      have hmore : List.replicate calls result <+: List.replicate (calls + 1) result := by
        rw [List.replicate_succ']
        exact List.prefix_append _ _
      simp only [encodeAll, List.append_assoc, reference, hframe.referenceCall, List.map_cons,
        List.cons_append]
      refine (List.prefix_cons_inj _).mpr (hrest.trans ?_)
      exact (List.prefix_append_right_inj _).mpr hmore

/-! ### One frame in parts -/

/-- The bytes are in flight to the reader. -/
def Reader.deliver (s : Reader) (bytes : Bytes) : Reader :=
  { s with stream := s.stream ++ bytes }

@[simp] theorem Reader.deliver_nil (s : Reader) : s.deliver [] = s := by
  simp [deliver]

/-- A read that the reader waits for has room behind an incomplete frame. -/
def Reader.Waits (s : Reader) : Prop :=
  ∀ bytesLeft, s.reading = some bytesLeft →
    frameDecoder s.buffer = .incomplete ∧ s.buffer.length < maxBufferedBytes ∧
      bytesLeft = maxBufferedBytes - s.buffer.length

/-- The reader has a front part of the encoding, and `rest` is not in flight yet. -/
structure Reader.Receives (s : Reader) (frame : Frame) (rest : Bytes) : Prop where
  split : s.buffer ++ s.stream ++ rest = encode frame
  waits : s.Waits
  buffer_le : s.buffer.length ≤ maxBufferedBytes

/-- The reader has nothing, and nothing is in flight to it. -/
structure Reader.Idle (s : Reader) : Prop where
  stream_eq : s.stream = []
  buffer_eq : s.buffer = []
  waits : s.Waits

theorem encode_ne_nil (frame : Frame) : encode frame ≠ [] := by
  cases frame with
  | null => simp [encode_null]
  | _ => simp [encode]

namespace Reader

variable {s t : Reader} {frame : Frame} {rest : Bytes} {action : ReadAction}
  {results : List ReadResult}

theorem Idle.receives (h : s.Idle) (frame : Frame) : s.Receives frame (encode frame) where
  split := by simp [h.buffer_eq, h.stream_eq]
  waits := h.waits
  buffer_le := by simp [h.buffer_eq]

theorem waits_of_not_reading (h : s.reading = none) : s.Waits := by
  intro bytesLeft hreading
  rw [h] at hreading
  cases hreading

theorem idle_new : (Reader.mk [] [] none).Idle := ⟨rfl, rfl, waits_of_not_reading rfl⟩

/-- More of the encoding is in flight. -/
theorem Receives.deliver {bytes : Bytes} (h : s.Receives frame (bytes ++ rest)) :
    (s.deliver bytes).Receives frame rest where
  split := by
    rw [← h.split]
    simp [Reader.deliver]
  waits := h.waits
  buffer_le := h.buffer_le

/-- A call that does not wait any more has lost nothing. -/
theorem Receives.dropped (h : s.Receives frame rest) :
    Receives { s with reading := none } frame rest where
  split := h.split
  waits := waits_of_not_reading rfl
  buffer_le := h.buffer_le

theorem Idle.dropped (h : s.Idle) : Idle { s with reading := none } :=
  ⟨h.stream_eq, h.buffer_eq, waits_of_not_reading rfl⟩

/-- How reading a part of one encoding can go on: the reader waits, has the frame,
or gives up on a frame that exceeds its budget. -/
inductive Advances (frame : Frame) (rest : Bytes) (t : Reader) : List ReadResult → Prop
  | waits (h : t.Receives frame rest) : Advances frame rest t []
  | complete (hreader : t = ⟨[], [], none⟩) (hrest : rest = [])
    (hfits : (encode frame).length ≤ maxBufferedBytes) : Advances frame rest t [.frame frame]
  | exceeded (hexceeds : maxBufferedBytes < (encode frame).length) :
    Advances frame rest t [.error bufferLimitError]

theorem advances_turn (hreadable : Readable frame) (hdepth : frame.depth ≤ maxArrayDepth)
    {stream buffer : Bytes} (hsplit : buffer ++ stream ++ rest = encode frame)
    (hle : buffer.length ≤ maxBufferedBytes) (h : settle stream (turn buffer) = (t, results)) :
    Advances frame rest t results := by
  have hsplit' : buffer ++ (stream ++ rest) = encode frame := by rw [← hsplit, List.append_assoc]
  by_cases hall : stream ++ rest = []
  · obtain ⟨rfl, rfl⟩ := List.append_eq_nil_iff.mp hall
    obtain rfl : buffer = encode frame := by simpa using hsplit
    rw [turn_of_complete (frameDecoder_whole hreadable hdepth), List.drop_length] at h
    cases h
    exact .complete rfl rfl hle
  · have hcut := frameDecoder_cut hreadable hdepth hsplit' hall
    have hlength := congrArg List.length hsplit'
    have hpos := List.length_pos_of_ne_nil hall
    rw [List.length_append] at hlength
    rw [turn_of_incomplete hcut] at h
    split at h
    · cases h
      exact .exceeded (by omega)
    · rename_i hroom
      cases h
      refine .waits ⟨hsplit, ?_, hle⟩
      intro bytesLeft hreading
      cases hreading
      exact ⟨hcut, by simpa using hroom, rfl⟩

/-- One step of a reader that gets a frame in parts; EOF comes after all of it. -/
theorem Receives.step (h : s.Receives frame rest) (hreadable : Readable frame)
    (hdepth : frame.depth ≤ maxArrayDepth) (hfail : ∀ text, action ≠ .fail text)
    (hend : action = .read 0 → rest = []) (hstep : Reader.step action s = some (t, results)) :
    Advances frame rest t results := by
  -- At EOF the whole frame would be in the buffer, which is incomplete.
  have heof : ∀ bytesLeft, s.reading = some bytesLeft → s.stream = [] → action ≠ .read 0 := by
    intro bytesLeft hreading hstream hread
    have hincomplete := (h.waits bytesLeft hreading).1
    have hwhole : s.buffer = encode frame := by simpa [hstream, hend hread] using h.split
    rw [hwhole, frameDecoder_whole hreadable hdepth] at hincomplete
    cases hincomplete
  cases step_cases hstep with
  | call hidle hsettle => exact advances_turn hreadable hdepth h.split h.buffer_le hsettle
  | chunk hreading hpos hlimit havailable hsettle =>
    obtain ⟨_, hlt, hleft⟩ := h.waits _ hreading
    refine advances_turn hreadable hdepth ?_ ?_ hsettle
    · rw [List.append_assoc s.buffer, List.take_append_drop]
      exact h.split
    · rw [List.length_append, List.length_take]
      omega
  | eof hreading hstream hbuffer => exact absurd rfl (heof _ hreading hstream)
  | cut hreading hstream hbuffer => exact absurd rfl (heof _ hreading hstream)
  | fail hreading text => exact absurd rfl (hfail text)
  | cancel hreading => exact .waits h.dropped

/-- A reader to which nothing comes only waits. -/
theorem Idle.step (h : s.Idle) (hfail : ∀ text, action ≠ .fail text) (hend : action ≠ .read 0)
    (hstep : Reader.step action s = some (t, results)) : results = [] ∧ t.Idle := by
  have hnull : Readable .null := by simp [Readable, Frame.nodes, ReadableNode]
  have hadvances := (h.receives .null).step hnull (Nat.zero_le _) hfail
    (fun hread => absurd hread hend) hstep
  cases hadvances with
  | waits hreceives =>
    have hsplit := hreceives.split
    obtain ⟨hbuffer, hstream⟩ : t.buffer = [] ∧ t.stream = [] := by
      have hnil : t.buffer ++ t.stream = [] :=
        List.append_cancel_right (hsplit.trans (List.nil_append _).symm)
      exact List.append_eq_nil_iff.mp hnil
    exact ⟨rfl, hstream, hbuffer, hreceives.waits⟩
  | complete _ hrest => exact absurd hrest (encode_ne_nil _)
  | exceeded hexceeds => simp [encode_null, maxBufferedBytes] at hexceeds

end Reader

/-! ### The frames that handlers reply with -/

/-- A reply: no array, no line break in a line payload, within the reader's limit. -/
structure Sendable (frame : Frame) : Prop where
  lineSafe : frame.LineSafe
  fits : (encode frame).length ≤ maxBufferedBytes
  flat : frame.nodes = [frame] ∧ frame.depth = 0 ∧ ∀ elements, frame ≠ .array elements

theorem Sendable.deliverable {frame : Frame} (h : Sendable frame) : Deliverable frame where
  readable := by
    obtain ⟨hnodes, -, harray⟩ := h.flat
    intro node hnode
    have hsafe := h.lineSafe node hnode
    rw [hnodes] at hnode
    obtain rfl := List.mem_singleton.mp hnode
    cases node with
    | simple string => exact hsafe
    | error string => exact hsafe
    | integer num => trivial
    | bulk bytes =>
      have hfits := h.fits
      simp only [encode, List.length_cons, List.length_append, List.length_nil,
        maxBufferedBytes] at hfits
      simp only [ReadableNode, isizeMax]
      omega
    | array elements => exact absurd rfl (harray elements)
    | null => trivial
  depth_le := by
    rw [h.flat.2.1]
    exact Nat.zero_le _
  fits := h.fits

theorem sendable_error {text : String} (h : ReplyText text) : Sendable (.error text) where
  lineSafe := by
    simp only [Frame.LineSafe, Frame.nodes, List.mem_singleton]
    rintro node rfl
    exact h.1
  fits := h.2
  flat := ⟨rfl, rfl, by simp⟩

theorem sendable_ok : Sendable (.simple "OK") where
  lineSafe := by
    have hok : LineSafe (asBytes "OK") := by decide
    simp only [Frame.LineSafe, Frame.nodes, List.mem_singleton]
    rintro node rfl
    exact hok
  fits := by
    have hok : (asBytes "OK").length = 2 := by decide
    simp [encode, hok, maxBufferedBytes]
  flat := ⟨rfl, rfl, by simp⟩

theorem sendable_null : Sendable .null where
  lineSafe := by simp [Frame.LineSafe, Frame.nodes]
  fits := by simp [encode_null, maxBufferedBytes]
  flat := ⟨rfl, rfl, by simp⟩

/-- The values that a SET read within the buffer limit can carry: each of the four
frames of the request costs three bytes. -/
def maxStoredBytes : ℕ := maxBufferedBytes - 12

theorem length_encode_bulk {bytes : Bytes} (h : bytes.length ≤ maxBufferedBytes) :
    (encode (.bulk bytes)).length ≤ bytes.length + 10 := by
  have hdigits : (asBytes (toString bytes.length)).length ≤ 5 :=
    length_toString_le (by omega) (by rw [maxBufferedBytes] at h; omega)
  rw [encode]
  simp only [List.length_cons, List.length_append, List.length_nil]
  omega

theorem length_encode_bulk_le {bytes : Bytes} (h : bytes.length ≤ maxStoredBytes) :
    (encode (.bulk bytes)).length ≤ maxBufferedBytes := by
  have hlength := length_encode_bulk (h.trans (Nat.sub_le _ _))
  simp only [maxStoredBytes, maxBufferedBytes] at h ⊢
  omega

theorem sendable_bulk {bytes : Bytes} (h : (encode (.bulk bytes)).length ≤ maxBufferedBytes) :
    Sendable (.bulk bytes) where
  lineSafe := by simp [Frame.LineSafe, Frame.nodes]
  fits := h
  flat := ⟨rfl, rfl, by simp⟩

/-! ### Errors of commands -/

namespace Parse

theorem argument_error {frame : Frame} {error : ParseError} (h : argument frame = .error error) :
    ReplyText error.display := by
  cases frame <;> cases h <;> exact replyText_of_short (by decide) (by decide)

theorem nextBytes_raises : nextBytes.Raises fun error => ReplyText error.display := by
  rintro ⟨parts⟩ error t h
  cases parts with
  | nil =>
    cases h
    exact replyText_of_short (by decide) (by decide)
  | cons frame parts => exact argument_error (congrArg Prod.fst h)

theorem nextString_raises : nextString.Raises fun error => ReplyText error.display := by
  refine nextBytes_raises.bind fun bytes => ?_
  split
  · exact Fallible.raises_pure _
  · exact Fallible.raises_err (replyText_of_short (by decide) (by decide))

theorem finish_raises : finish.Raises fun error => ReplyText error.display := by
  rintro ⟨parts⟩ error t h
  cases parts with
  | nil => cases h
  | cons frame parts =>
    cases h
    exact replyText_of_short (by decide) (by decide)

end Parse

namespace Command

theorem fromParse_raises : fromParse.Raises fun error => ReplyText error.display := by
  refine Parse.nextString_raises.bind fun name => ?_
  split
  · refine Fallible.Raises.bind ?_ fun command => Fallible.raises_pure _
    refine Parse.nextString_raises.bind fun key => ?_
    exact Parse.finish_raises.bind fun _ => Fallible.raises_pure _
  split
  · refine Fallible.Raises.bind ?_ fun command => Fallible.raises_pure _
    refine Parse.nextString_raises.bind fun key => ?_
    refine Parse.nextBytes_raises.bind fun value => ?_
    exact Parse.finish_raises.bind fun _ => Fallible.raises_pure _
  · exact Fallible.raises_err (replyText_of_short (by decide) (by decide))

/-- The text of every rejected command may stand in an error reply. -/
theorem fromFrame_error {frame : Frame} {error : ParseError} (h : fromFrame frame = .error error) :
    ReplyText error.display := by
  cases frame with
  | array elements =>
    exact fromParse_raises ⟨elements⟩ error (fromParse ⟨elements⟩).2 (Prod.ext h rfl)
  | _ =>
    cases h
    exact replyText_of_short (by decide) (by decide)

theorem three_le_cost (frame : Frame) : 3 ≤ frame.cost := by
  cases frame <;> simp

/-- The frame of a SET costs its value and three bytes for each of its four nodes. -/
theorem set_cost {frame : Frame} {command : Set} (h : fromFrame frame = .ok (.set command)) :
    command.value.length + 12 ≤ frame.cost := by
  obtain ⟨name, nameFrame, parts, rfl, -, -, key, value, rfl, -, hvalue⟩ :=
    fromFrame_eq_ok_iff.mp h
  have hname := three_le_cost nameFrame
  have hkey := three_le_cost key
  have hlength : command.value.length + 3 ≤ value.cost := by
    cases value with
    | bulk bytes =>
      have hbytes : bytes = command.value := Except.ok.inj hvalue
      rw [Frame.cost_bulk, hbytes, Nat.add_comm]
    | simple string =>
      have hbytes : asBytes string = command.value := Except.ok.inj hvalue
      rw [Frame.cost_simple, hbytes, Nat.add_comm]
    | _ => cases hvalue
  simp only [Frame.cost_array, List.map_cons, List.map_nil, List.sum_cons, List.sum_nil]
  omega

end Command
end MiniRedis
