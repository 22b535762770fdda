import MiniRedis.Replies

/-!
# What a connection has done with its bytes

Whatever the outcomes of its calls, a connection holds the bytes it has received
but for the segments of the frames it has returned, each of which is a frame by
itself. No frame is free, and a call cannot read for ever.
-/
namespace MiniRedis

open Library

/-- Bytes that are a frame, used to the last one. -/
structure Segment where
  bytes : Bytes
  frame : Frame
  parses : parse ⟨bytes, 0⟩ = (.ok frame, ⟨bytes, bytes.length⟩)

/-- The bytes that a returned frame used. -/
def segmentOf {buffer : Bytes} {frame : Frame} {n : ℕ} (h : frameDecoder buffer = .complete frame n) :
    Segment where
  bytes := buffer.take n
  frame := frame
  parses := by
    have hlength : (buffer.take n).length = n :=
      List.length_take_of_le (frameDecoder_stable.used_le h)
    refine parse_eq_ok_iff.mpr ⟨n, frameDecoder_stable.complete_segment h, ?_⟩
    rw [hlength, Cursor.skip, Nat.zero_add]

def consumed (segments : List Segment) : Bytes := (segments.map Segment.bytes).flatten

/-- No frame is free. -/
theorem Segment.three_le (segment : Segment) : 3 ≤ segment.bytes.length := by
  obtain ⟨n, hd, _⟩ := parse_eq_ok_iff.mp segment.parses
  rw [unread_zero] at hd
  have hcost := frameDecoder_charge hd
  have hthree := Command.three_le_cost segment.frame
  have hle := frameDecoder_stable.used_le hd
  omega

theorem three_mul_le (segments : List Segment) :
    3 * segments.length ≤ (consumed segments).length := by
  induction segments with
  | nil => exact Nat.le_refl _
  | cons segment segments ih =>
    have hsegment := segment.three_le
    have hsplit : consumed (segment :: segments) = segment.bytes ++ consumed segments := rfl
    rw [hsplit, List.length_append, List.length_cons]
    omega

def ReadResult.returnedFrame : ReadResult → Option Frame
  | .frame returned => some returned
  | _ => none

/-- The bytes that no returned frame has used yet. -/
def Reader.unread (s : Reader) : ℕ := s.buffer.length + s.stream.length

/-- Between two states `received` came in, and the returned frames used the segments. -/
structure ByteAccount (s t : Reader) (results : List ReadResult) (received : Bytes)
    (segments : List Segment) : Prop where
  stream_eq : s.stream = received ++ t.stream
  buffer_eq : s.buffer ++ received = consumed segments ++ t.buffer
  frames_eq : results.filterMap ReadResult.returnedFrame = segments.map Segment.frame

namespace ByteAccount

variable {s t u : Reader} {results later : List ReadResult} {received more : Bytes}
  {segments others : List Segment}

theorem refl (s : Reader) : ByteAccount s s [] [] [] where
  stream_eq := rfl
  buffer_eq := List.append_nil _
  frames_eq := rfl

theorem trans (h : ByteAccount s t results received segments)
    (h' : ByteAccount t u later more others) :
    ByteAccount s u (results ++ later) (received ++ more) (segments ++ others) where
  stream_eq := by rw [h.stream_eq, h'.stream_eq, List.append_assoc]
  buffer_eq := by
    rw [← List.append_assoc, h.buffer_eq, List.append_assoc, h'.buffer_eq, ← List.append_assoc,
      consumed, consumed, consumed, List.map_append, List.flatten_append]
  frames_eq := by rw [List.filterMap_append, h.frames_eq, h'.frames_eq, List.map_append]

/-- Without a returned frame nothing leaves the buffer. -/
theorem kept (h : ByteAccount s t results received segments)
    (hnone : ∀ frame, .frame frame ∉ results) : t.buffer = s.buffer ++ received := by
  have hframes : results.filterMap ReadResult.returnedFrame = [] := by
    refine List.filterMap_eq_nil_iff.mpr fun result hresult => ?_
    cases result with
    | frame frame => exact absurd hresult (hnone frame)
    | eof => rfl
    | error error => rfl
    | panic => rfl
  have hsegments := h.frames_eq
  rw [hframes] at hsegments
  have hnil : segments = [] := List.map_eq_nil_iff.mp hsegments.symm
  rw [h.buffer_eq, hnil]
  rfl

/-- Every returned frame is paid for with three bytes. -/
theorem charge (h : ByteAccount s t results received segments) :
    t.unread + 3 * (results.filterMap ReadResult.returnedFrame).length ≤ s.unread := by
  have hstream := congrArg List.length h.stream_eq
  have hbuffer := congrArg List.length h.buffer_eq
  have hpaid := three_mul_le segments
  rw [List.length_append] at hstream
  rw [List.length_append, List.length_append] at hbuffer
  rw [h.frames_eq, List.length_map, Reader.unread, Reader.unread]
  omega

end ByteAccount

/-- Between the steps of a reader: a wait leaves room, and the buffer has a limit. -/
structure Reader.Sound (s : Reader) : Prop where
  waits : s.Waits
  buffer_le : s.buffer.length ≤ maxBufferedBytes

/-- What a step of the reader may do. -/
structure Reader.Accounted (s t : Reader) (results : List ReadResult) : Prop where
  sound : t.Sound
  accounts : ∃ received segments, ByteAccount s t results received segments
  /-- What failed to parse is still there, all of it. -/
  failed : ∀ e, .error (.frame e) ∈ results → (parse ⟨t.buffer, 0⟩).1 = .error (.error e)
  no_panic : .panic ∉ results

/-- Every way in which a buffer is judged keeps account. -/
theorem turn_accounted {s t : Reader} {stream buffer received : Bytes} {results : List ReadResult}
    (hstream : s.stream = received ++ stream) (hbuffer : buffer = s.buffer ++ received)
    (hle : buffer.length ≤ maxBufferedBytes)
    (h : Reader.settle stream (turn buffer) = (t, results)) : s.Accounted t results := by
  have hidle : Reader.Sound ⟨stream, buffer, none⟩ := ⟨Reader.waits_of_not_reading rfl, hle⟩
  have hkept : ∀ reading out, out.filterMap ReadResult.returnedFrame = [] →
      ByteAccount s ⟨stream, buffer, reading⟩ out received [] := fun _ _ hnone =>
    ⟨hstream, hbuffer.symm, hnone⟩
  have hturn := turn_cases buffer
  generalize turn buffer = outcome at h hturn
  cases hturn with
  | complete hd =>
    cases h
    exact {
      sound := ⟨Reader.waits_of_not_reading rfl, by rw [List.length_drop]; omega⟩
      accounts := by
        refine ⟨received, [segmentOf hd], hstream, ?_, rfl⟩
        rw [← hbuffer]
        simp [consumed, segmentOf]
      failed := by simp
      no_panic := by simp }
  | invalid hd =>
    cases h
    exact {
      sound := hidle
      accounts := ⟨received, [], hkept _ _ rfl⟩
      failed := by
        intro e he
        cases List.mem_singleton.mp he
        exact parse_refines.of_invalid hd
      no_panic := by simp }
  | full hd hfull =>
    cases h
    exact {
      sound := hidle
      accounts := ⟨received, [], hkept _ _ rfl⟩
      failed := by simp [bufferLimitError]
      no_panic := by simp }
  | waits hd hroom =>
    cases h
    exact {
      sound := by
        refine ⟨fun bytesLeft hreading => ?_, hle⟩
        cases hreading
        exact ⟨hd, hroom, rfl⟩
      accounts := ⟨received, [], hkept _ _ rfl⟩
      failed := by simp
      no_panic := by simp }

/-- A call that ends without a frame leaves the buffer as it is. -/
theorem ended_accounted {s : Reader} {results : List ReadResult}
    (hle : s.buffer.length ≤ maxBufferedBytes)
    (hresults : results.filterMap ReadResult.returnedFrame = [])
    (hplain : ∀ result ∈ results, result ≠ .panic ∧ ∀ e, result ≠ .error (.frame e)) :
    s.Accounted { s with reading := none } results where
  sound := ⟨Reader.waits_of_not_reading rfl, hle⟩
  accounts := ⟨[], [], rfl, List.append_nil _, hresults⟩
  failed e he := absurd rfl ((hplain _ he).2 e)
  no_panic h := (hplain _ h).1 rfl

/-- Every step keeps account: calls, reads, EOF, transport errors and cancellations. -/
theorem Reader.Sound.step {s t : Reader} {action : ReadAction} {results : List ReadResult}
    (h : s.Sound) (hstep : reader.step action s = some (t, results)) : s.Accounted t results := by
  cases Reader.step_cases hstep with
  | call hidle hsettle =>
    exact turn_accounted (List.nil_append _).symm (List.append_nil _).symm h.buffer_le hsettle
  | chunk hreading hpos hlimit havailable hsettle =>
    obtain ⟨_, hlt, hleft⟩ := h.waits _ hreading
    refine turn_accounted (List.take_append_drop _ s.stream).symm rfl ?_ hsettle
    rw [List.length_append, List.length_take]
    omega
  | eof => exact ended_accounted h.buffer_le rfl (by simp)
  | cut => exact ended_accounted h.buffer_le rfl (by simp [incompleteEofError])
  | fail => exact ended_accounted h.buffer_le rfl (by simp)
  | cancel => exact ended_accounted h.buffer_le rfl (by simp)

/-- The account of a whole run. -/
theorem Reader.Sound.run {s t : Reader} {actions : List ReadAction} {results : List ReadResult}
    (h : s.Sound) (hrun : reader.run actions s = some (t, results)) :
    t.Sound ∧ .panic ∉ results ∧
      ∃ received segments, ByteAccount s t results received segments := by
  have hinv := reader.run_invariant
    (P := fun u out => u.Sound ∧ .panic ∉ out ∧
      ∃ received segments, ByteAccount s u out received segments) ?_
    ⟨h, List.not_mem_nil, [], [], ByteAccount.refl s⟩ hrun
  · rwa [List.nil_append] at hinv
  · rintro u out action v now ⟨hu, hpanic, received, segments, haccounts⟩ hstep
    have hnow := hu.step hstep
    obtain ⟨more, others, hmore⟩ := hnow.accounts
    refine ⟨hnow.sound, ?_, _, _, haccounts.trans hmore⟩
    rw [List.mem_append, not_or]
    exact ⟨hpanic, hnow.no_panic⟩

theorem reader_sound_new (S : Bytes) : (Reader.mk S [] none).Sound :=
  ⟨Reader.waits_of_not_reading rfl, Nat.zero_le _⟩

/-- Byte accounting: with any outcomes and any reads, what was received is the segments of
the returned frames and then the buffer; the buffer keeps within its limit and every read
has room; calls that return no frame drop nothing, and what failed to parse stays. -/
theorem readFrame_accounting {S : Bytes} {actions : List ReadAction} {s : Reader}
    {results : List ReadResult} (hrun : reader.run actions ⟨S, [], none⟩ = some (s, results)) :
    (∃ received segments, S = received ++ s.stream ∧ received = consumed segments ++ s.buffer ∧
      results.filterMap ReadResult.returnedFrame = segments.map Segment.frame) ∧
    s.buffer.length ≤ maxBufferedBytes ∧
    (∀ bytesLeft, s.reading = some bytesLeft →
      bytesLeft = maxBufferedBytes - s.buffer.length ∧ 0 < bytesLeft) ∧
    (∀ more t later, reader.run more s = some (t, later) → (∀ frame, .frame frame ∉ later) →
      ∃ received, s.stream = received ++ t.stream ∧ t.buffer = s.buffer ++ received) ∧
    ∀ action t now, reader.step action s = some (t, now) → .panic ∉ now ∧
      ∀ e, .error (.frame e) ∈ now → (parse ⟨t.buffer, 0⟩).1 = .error (.error e) := by
  obtain ⟨hsound, -, received, segments, haccounts⟩ := (reader_sound_new S).run hrun
  refine ⟨⟨received, segments, haccounts.stream_eq, haccounts.buffer_eq, haccounts.frames_eq⟩,
    hsound.buffer_le, ?_, ?_, ?_⟩
  · intro bytesLeft hreading
    obtain ⟨_, hlt, heq⟩ := hsound.waits bytesLeft hreading
    exact ⟨heq, by omega⟩
  · intro more t later hmore hnone
    obtain ⟨-, -, received, segments, hlater⟩ := hsound.run hmore
    exact ⟨received, hlater.stream_eq, hlater.kept hnone⟩
  · intro action t now hstep
    have hnow := hsound.step hstep
    exact ⟨hnow.no_panic, hnow.failed⟩

/-- `:0\r\n` in two reads with a cancelled call between them, and then the EOF. -/
theorem readFrame_accounting_cancelled :
    ∃ received segments, ([58, 48, 13, 10] : Bytes) = received ++ [] ∧
      received = consumed segments ++ [] ∧
      [ReadResult.frame (.integer 0), .eof].filterMap ReadResult.returnedFrame =
        segments.map Segment.frame := by
  have hmarker : frameDecoder [58] = .incomplete := rfl
  have hframe : frameDecoder [58, 48, 13, 10] = .complete (.integer 0) 4 := rfl
  have hrun : reader.run [.call, .read 1, .cancel, .call, .read 3, .call, .read 0]
      ⟨[58, 48, 13, 10], [], none⟩ = some (⟨[], [], none⟩, [.frame (.integer 0), .eof]) := by
    simp [Machine.run, reader, Reader.step, Reader.settle, received, turn_of_incomplete hmarker,
      turn_of_complete hframe, turn_of_incomplete frameDecoder_nil, maxBufferedBytes]
  exact (readFrame_accounting hrun).1

end MiniRedis
