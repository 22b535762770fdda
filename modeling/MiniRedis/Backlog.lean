import MiniRedis.Replies
import MiniRedis.Wire

/-!
# Several frames in a row

A reader to which the encodings of several frames are sent, the last of them
possibly not completely: it waits, returns the first frame, gives up on one that
exceeds its buffer, or reports the end of a stream that ends too early.
-/
namespace MiniRedis

open Library

/-- Only the end of the stream gives these results. -/
def ReadResult.atEnd (result : ReadResult) : Prop :=
  result = .eof ∨ result = .error incompleteEofError

theorem not_atEnd_frame (frame : Frame) : ¬ (ReadResult.frame frame).atEnd := by
  rintro (h | h) <;> cases h

/-- A read at the end of the stream returns one of these results, and only it does. -/
theorem Reader.step_atEnd {s t : Reader} {read : ReadAction} {results : List ReadResult}
    (h : Reader.step read s = some (t, results)) :
    (∃ result ∈ results, result.atEnd) ↔ read = .read 0 := by
  have hturn : ∀ stream buffer, Reader.settle stream (turn buffer) = (t, results) →
      ¬ ∃ result ∈ results, result.atEnd := by
    rintro stream buffer hsettle ⟨result, hmem, hend⟩
    have hcases := turn_cases buffer
    generalize turn buffer = outcome at hcases hsettle
    cases hcases with
    | complete hd =>
      cases hsettle
      rw [List.mem_singleton.mp hmem] at hend
      exact not_atEnd_frame _ hend
    | invalid hd =>
      cases hsettle
      rw [List.mem_singleton.mp hmem] at hend
      rcases hend with hend | hend <;> cases hend
    | full hd hfull =>
      cases hsettle
      rw [List.mem_singleton.mp hmem] at hend
      rcases hend with hend | hend
      · cases hend
      · simp [bufferLimitError, incompleteEofError] at hend
    | waits hd hroom =>
      cases hsettle
      cases hmem
  cases Reader.step_cases h with
  | call hidle hsettle => simpa using hturn _ _ hsettle
  | chunk hreading hpos hlimit havailable hsettle =>
    have hnone := hturn _ _ hsettle
    simp only [hnone, ReadAction.read.injEq, false_iff]
    omega
  | eof => simp [ReadResult.atEnd]
  | cut => simp [ReadResult.atEnd]
  | fail hreading text => simp [ReadResult.atEnd, incompleteEofError]
  | cancel => simp

namespace Reader

/-- The reader gets these frames, and `rest` of their encodings is not in flight yet. -/
structure Queues (s : Reader) (frames : List Frame) (rest : Bytes) : Prop where
  split : s.buffer ++ s.stream ++ rest = encodeAll frames
  waits : s.Waits
  buffer_le : s.buffer.length ≤ maxBufferedBytes

/-- How reading frames in a row can go on. -/
inductive Pops (frames : List Frame) (rest : Bytes) (t : Reader) : List ReadResult → Prop
  | waits (h : t.Queues frames rest) : Pops frames rest t []
  | frame (frame : Frame) (later : List Frame) (hframes : frames = frame :: later)
    (h : t.Queues later rest) : Pops frames rest t [.frame frame]
  | exceeded (frame : Frame) (later : List Frame) (hframes : frames = frame :: later)
    (hexceeds : maxBufferedBytes < (encode frame).length) :
    Pops frames rest t [.error bufferLimitError]
  /-- The stream ends within the first frame, or before it. -/
  | ends (result : ReadResult) (hend : result.atEnd) (h : t.Queues frames rest)
    (hshort : ∀ frame later, frames = frame :: later → (encodeAll later).length < rest.length) :
    Pops frames rest t [result]

variable {s t : Reader} {frames more : List Frame} {rest bytes : Bytes} {action : ReadAction}
  {results : List ReadResult}

theorem Idle.queues (h : s.Idle) (frames : List Frame) : s.Queues frames (encodeAll frames) where
  split := by simp [h.buffer_eq, h.stream_eq]
  waits := h.waits
  buffer_le := by simp [h.buffer_eq]

theorem Queues.deliver (h : s.Queues frames (bytes ++ rest)) :
    (s.deliver bytes).Queues frames rest where
  split := by
    rw [← h.split]
    simp [Reader.deliver]
  waits := h.waits
  buffer_le := h.buffer_le

/-- More frames are on their way behind the others. -/
theorem Queues.append (h : s.Queues frames rest) (more : List Frame) :
    s.Queues (frames ++ more) (rest ++ encodeAll more) where
  split := by rw [encodeAll_append, ← h.split, ← List.append_assoc]
  waits := h.waits
  buffer_le := h.buffer_le

theorem Queues.dropped (h : s.Queues frames rest) : Queues { s with reading := none } frames rest where
  split := h.split
  waits := waits_of_not_reading rfl
  buffer_le := h.buffer_le

theorem pops_turn (hframes : ∀ frame ∈ frames, Readable frame ∧ frame.depth ≤ maxArrayDepth)
    {stream buffer : Bytes} (hsplit : buffer ++ stream ++ rest = encodeAll frames)
    (hle : buffer.length ≤ maxBufferedBytes) (h : settle stream (turn buffer) = (t, results)) :
    Pops frames rest t results := by
  cases frames with
  | nil =>
    have hnil : buffer = [] := by
      simp only [encodeAll, List.append_assoc, List.append_eq_nil_iff] at hsplit
      exact hsplit.1
    subst hnil
    rw [turn_of_incomplete frameDecoder_nil, if_neg (by simp [maxBufferedBytes])] at h
    cases h
    refine .waits ⟨hsplit, ?_, hle⟩
    intro bytesLeft hreading
    cases hreading
    exact ⟨frameDecoder_nil, by simp [maxBufferedBytes], rfl⟩
  | cons frame later =>
    obtain ⟨hreadable, hdepth⟩ := hframes frame List.mem_cons_self
    have hsplit' := hsplit
    rw [encodeAll, List.append_assoc] at hsplit'
    rcases List.append_eq_append_iff.mp hsplit' with ⟨tail, htail, hlater⟩ | ⟨tail, htail, hlater⟩
    · by_cases hall : tail = []
      · subst hall
        rw [List.append_nil] at htail
        rw [List.nil_append] at hlater
        rw [← htail, turn_of_complete (frameDecoder_whole hreadable hdepth)] at h
        cases h
        refine .frame frame later rfl ⟨?_, waits_of_not_reading rfl, by simp⟩
        rw [List.drop_length, List.nil_append, hlater]
      · have hcut := frameDecoder_cut hreadable hdepth htail.symm hall
        have hlength := congrArg List.length htail
        have hpos := List.length_pos_of_ne_nil hall
        rw [List.length_append] at hlength
        rw [turn_of_incomplete hcut] at h
        split at h
        · cases h
          exact .exceeded frame later rfl (by omega)
        · rename_i hroom
          cases h
          refine .waits ⟨hsplit, ?_, hle⟩
          intro bytesLeft hreading
          cases hreading
          exact ⟨hcut, by simpa using hroom, rfl⟩
    · have hcomplete := frameDecoder_encode hdepth hreadable tail
      rw [htail, turn_of_complete hcomplete, List.drop_left] at h
      cases h
      refine .frame frame later rfl ⟨?_, waits_of_not_reading rfl, ?_⟩
      · rw [List.append_assoc, hlater]
      · rw [htail, List.length_append] at hle
        show tail.length ≤ maxBufferedBytes
        omega

/-- When the stream has come to its end, the first frame is not complete in the buffer. -/
theorem Queues.short (h : s.Queues frames rest)
    (hframes : ∀ frame ∈ frames, Readable frame ∧ frame.depth ≤ maxArrayDepth) {bytesLeft : ℕ}
    (hreading : s.reading = some bytesLeft) (hstream : s.stream = []) :
    ∀ frame later, frames = frame :: later → (encodeAll later).length < rest.length := by
  rintro frame later rfl
  have hincomplete := (h.waits bytesLeft hreading).1
  obtain ⟨hreadable, hdepth⟩ := hframes frame List.mem_cons_self
  have hsplit := h.split
  rw [hstream, List.append_nil, encodeAll] at hsplit
  by_contra hlong
  obtain ⟨tail, htail⟩ : ∃ tail, s.buffer = encode frame ++ tail := by
    rcases List.append_eq_append_iff.mp hsplit with ⟨tail, htail, hlater⟩ | ⟨tail, htail, -⟩
    · have hlength := congrArg List.length hlater
      rw [List.length_append] at hlength
      have hnil : tail = [] := List.eq_nil_of_length_eq_zero (by omega)
      exact ⟨[], by simpa [hnil] using htail.symm⟩
    · exact ⟨tail, htail⟩
  rw [htail, frameDecoder_encode hdepth hreadable tail] at hincomplete
  cases hincomplete

/-- One step of a reader that gets frames in a row. -/
theorem Queues.step (h : s.Queues frames rest)
    (hframes : ∀ frame ∈ frames, Readable frame ∧ frame.depth ≤ maxArrayDepth)
    (hfail : ∀ text, action ≠ .fail text) (hstep : Reader.step action s = some (t, results)) :
    Pops frames rest t results := by
  cases step_cases hstep with
  | call hidle hsettle => exact pops_turn hframes h.split h.buffer_le hsettle
  | chunk hreading hpos hlimit havailable hsettle =>
    obtain ⟨_, hlt, hleft⟩ := h.waits _ hreading
    refine pops_turn hframes ?_ ?_ hsettle
    · rw [List.append_assoc s.buffer, List.take_append_drop]
      exact h.split
    · rw [List.length_append, List.length_take]
      omega
  | eof hreading hstream hbuffer =>
    exact .ends .eof (.inl rfl) h.dropped (h.short hframes hreading hstream)
  | cut hreading hstream hbuffer =>
    exact .ends _ (.inr rfl) h.dropped (h.short hframes hreading hstream)
  | fail hreading text => exact absurd rfl (hfail text)
  | cancel hreading => exact .waits h.dropped

end Reader

/-- An empty buffer waits for the whole budget. -/
theorem turn_nil : turn [] = (.reading maxBufferedBytes, []) := by
  rw [turn_of_incomplete frameDecoder_nil]
  rfl

theorem Reader.step_call_empty (stream : Bytes) : Reader.step .call ⟨stream, [], none⟩ =
    some (⟨stream, [], some maxBufferedBytes⟩, []) := by
  simp only [step, turn_nil, settle]

/-- All of a frame is read at once. -/
theorem turn_encode {frame : Frame} (h : Deliverable frame) :
    turn (encode frame) = (.returned (.frame frame), []) := by
  rw [turn_of_complete (frameDecoder_whole h.readable h.depth_le), List.drop_length]

theorem Reader.step_read_all {frame : Frame} (h : Deliverable frame) {n : ℕ}
    (hn : n = (encode frame).length) :
    Reader.step (.read n) ⟨encode frame, [], some maxBufferedBytes⟩ =
      some (⟨[], [], none⟩, [.frame frame]) := by
  subst hn
  have hpos := List.length_pos_of_ne_nil (encode_ne_nil frame)
  have hguard : (encode frame).length ≤ maxBufferedBytes ∧
      (encode frame).length ≤ (encode frame).length ∧
      ((encode frame).length = 0 → encode frame = []) := ⟨h.fits, Nat.le_refl _, by omega⟩
  have hsome : (encode frame).isEmpty = false := List.isEmpty_eq_false_iff.mpr (encode_ne_nil frame)
  simp only [step, if_pos hguard, List.take_length, List.drop_length, received, hsome,
    Bool.false_eq_true, if_false, List.nil_append, turn_encode h, settle]

/-- The handler reads all of a request. -/
theorem Endpoint.step_read_all {shared : Shared} {task : Task} {endpoint : Endpoint} {frame : Frame}
    {n : ℕ} (h : Deliverable frame) (hphase : task.phase = .selecting)
    (hinbound : endpoint.inbound = ⟨encode frame, [], some maxBufferedBytes⟩)
    (hn : n = (encode frame).length) :
    endpoint.step shared task (.read n) = some
      (shared, { task with phase := .received frame, request := task.request + 1 },
        { endpoint with inbound := ⟨[], [], none⟩ }, [.received (task.request + 1) frame]) := by
  have hpos := List.length_pos_of_ne_nil (encode_ne_nil frame)
  have hguard : Phase.selecting.isSelecting = true ∧ (n = 0 → endpoint.closed = true) :=
    ⟨rfl, by omega⟩
  have hnothing : encodeAll (attempts [.received (task.request + 1) frame]) = [] := rfl
  simp only [step, if_pos hguard, hinbound, Reader.step_read_all h hn, settle, perform, Task.step,
    hphase, Task.interpretRead, hnothing, List.append_nil]

end MiniRedis
