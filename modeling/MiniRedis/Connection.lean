import MiniRedis.Frame.Extension
import MiniRedis.Library.Machine

/-!
# The buffered frame reader

`Connection::read_frame` parses its buffer, and waits for a read whenever the
buffer holds an incomplete frame. A call may be cancelled while it waits; the
buffer stays with the connection. The transport decides how many bytes each read
delivers, within the limit that the code passes to it.
-/
namespace MiniRedis

open Library

/-- The boxed errors of `read_frame`; `io` is an error of the transport. -/
inductive ReadError where
  | frame (error : FrameError)
  | message (text : String)
  | io (text : String)
  deriving DecidableEq, Repr

def ReadError.display : ReadError → String
  | .frame error => error.display
  | .message text => text
  | .io text => text

/-- How a call of `read_frame` ends: `Ok(Some(frame))`, `Ok(None)`, an error, or a panic. -/
inductive ReadResult where
  | frame (frame : Frame)
  | eof
  | error (error : ReadError)
  | panic
  deriving Repr

def bufferLimitError : ReadError := .message "Frame cannot fit within the buffer limit"

def incompleteEofError : ReadError :=
  .message "Connection reached EOF with an incomplete frame"

/-- `Connection::parse_frame`: the result, `none` for a panic, and the buffer. -/
def parseFrame (buffer : Bytes) : Option (Except ReadError (Option Frame)) × Bytes :=
  match parse ⟨buffer, 0⟩ with
  | (.ok frame, cursor) =>
    -- `advance` panics past the end of the buffer.
    if cursor.position ≤ buffer.length then
      (some (.ok (some frame)), buffer.drop cursor.position)
    else (none, buffer)
  | (.error (.error .incomplete), _) => (some (.ok none), buffer)
  | (.error (.error error), _) => (some (.error (.frame error)), buffer)
  | (.error .panic, _) => (none, buffer)

/-- How far `read_frame` gets without waiting. -/
inductive Progress where
  | returned (result : ReadResult)
  | reading (bytesLeft : ℕ)

/-- Steps 1 to 3 of the loop of `read_frame`. -/
def turn (buffer : Bytes) : Progress × Bytes :=
  match parseFrame buffer with
  | (some (.ok (some frame)), buffer) => (.returned (.frame frame), buffer)
  | (some (.error error), buffer) => (.returned (.error error), buffer)
  | (none, buffer) => (.returned .panic, buffer)
  | (some (.ok none), buffer) =>
    if maxBufferedBytes ≤ buffer.length then (.returned (.error bufferLimitError), buffer)
    else (.reading (maxBufferedBytes - buffer.length), buffer)

/-- Step 4 of the loop, after a read that appended `chunk`. -/
def received (buffer chunk : Bytes) : Progress × Bytes :=
  if chunk.isEmpty then
    if buffer.isEmpty then (.returned .eof, buffer)
    else (.returned (.error incompleteEofError), buffer)
  else turn (buffer ++ chunk)

/-- How a buffer is judged, one constructor for each verdict of the decoder. -/
inductive Turn (buffer : Bytes) : Progress × Bytes → Prop
  | complete {frame : Frame} {n : ℕ} (h : frameDecoder buffer = .complete frame n) :
    Turn buffer (.returned (.frame frame), buffer.drop n)
  | invalid {message : String} (h : frameDecoder buffer = .invalid message) :
    Turn buffer (.returned (.error (.frame (.other message))), buffer)
  | full (h : frameDecoder buffer = .incomplete) (hfull : maxBufferedBytes ≤ buffer.length) :
    Turn buffer (.returned (.error bufferLimitError), buffer)
  | waits (h : frameDecoder buffer = .incomplete) (hroom : buffer.length < maxBufferedBytes) :
    Turn buffer (.reading (maxBufferedBytes - buffer.length), buffer)

section turn

variable {buffer : Bytes}

theorem unread_zero (buffer : Bytes) : (Cursor.mk buffer 0).unread = buffer := rfl

/-- The parser on a whole buffer says what the decoder says. -/
theorem parse_of_complete {frame : Frame} {n : ℕ} (h : frameDecoder buffer = .complete frame n) :
    parse ⟨buffer, 0⟩ = (.ok frame, ⟨buffer, n⟩) :=
  parse_eq_ok_iff.mpr ⟨n, h, by simp [Cursor.skip]⟩

theorem parse_of_invalid {message : String} (h : frameDecoder buffer = .invalid message) :
    ∃ cursor, parse ⟨buffer, 0⟩ = (.error (.error (.other message)), cursor) := by
  have hparse : (parse ⟨buffer, 0⟩).1 = .error (.error (.other message)) :=
    parse_refines.of_invalid h
  exact ⟨_, Prod.ext hparse rfl⟩

theorem parse_of_incomplete (h : frameDecoder buffer = .incomplete) :
    ∃ cursor, parse ⟨buffer, 0⟩ = (.error (.error .incomplete), cursor) := by
  have hparse : (parse ⟨buffer, 0⟩).1 = .error (.error .incomplete) :=
    parse_refines.of_incomplete h
  exact ⟨_, Prod.ext hparse rfl⟩

theorem turn_of_complete {frame : Frame} {n : ℕ} (h : frameDecoder buffer = .complete frame n) :
    turn buffer = (.returned (.frame frame), buffer.drop n) := by
  have hle := frameDecoder_stable.used_le h
  simp only [turn, parseFrame, parse_of_complete h, if_pos hle]

theorem turn_of_invalid {message : String} (h : frameDecoder buffer = .invalid message) :
    turn buffer = (.returned (.error (.frame (.other message))), buffer) := by
  obtain ⟨cursor, hparse⟩ := parse_of_invalid h
  simp only [turn, parseFrame, hparse]

theorem turn_of_incomplete (h : frameDecoder buffer = .incomplete) :
    turn buffer =
      if maxBufferedBytes ≤ buffer.length then (.returned (.error bufferLimitError), buffer)
      else (.reading (maxBufferedBytes - buffer.length), buffer) := by
  obtain ⟨cursor, hparse⟩ := parse_of_incomplete h
  simp only [turn, parseFrame, hparse]

theorem turn_cases (buffer : Bytes) : Turn buffer (turn buffer) := by
  cases hd : frameDecoder buffer with
  | complete frame n =>
    rw [turn_of_complete hd]
    exact .complete hd
  | invalid message =>
    rw [turn_of_invalid hd]
    exact .invalid hd
  | incomplete =>
    rw [turn_of_incomplete hd]
    by_cases hfull : maxBufferedBytes ≤ buffer.length
    · rw [if_pos hfull]
      exact .full hd hfull
    · rw [if_neg hfull]
      exact .waits hd (Nat.lt_of_not_le hfull)

/-- A call only waits behind an incomplete frame that leaves room in the buffer. -/
theorem turn_eq_reading {bytesLeft : ℕ} {buffer' : Bytes}
    (h : turn buffer = (.reading bytesLeft, buffer')) :
    buffer' = buffer ∧ frameDecoder buffer = .incomplete ∧ buffer.length < maxBufferedBytes ∧
      bytesLeft = maxBufferedBytes - buffer.length := by
  have hturn := turn_cases buffer
  rw [h] at hturn
  cases hturn with
  | waits hd hroom => exact ⟨rfl, hd, hroom, rfl⟩

/-- Returning from the buffer never adds to it. -/
theorem turn_length_le (buffer : Bytes) : (turn buffer).2.length ≤ buffer.length := by
  have hturn := turn_cases buffer
  generalize turn buffer = outcome at hturn ⊢
  cases hturn with
  | complete hd =>
    rw [List.length_drop]
    omega
  | _ => exact Nat.le_refl _

end turn

/-! ### The reader and its transport -/

/-- A connection during reading. `stream` are the bytes that the peer sends
before EOF and that no read has delivered yet; `reading` is the limit of the
read that the current call waits for. -/
structure Reader where
  stream : Bytes
  buffer : Bytes
  reading : Option ℕ
  deriving DecidableEq, Repr

inductive ReadAction where
  /-- `read_frame` is called. -/
  | call
  /-- The awaited read delivers `n` bytes; none only at EOF. -/
  | read (n : ℕ)
  /-- The awaited read fails. -/
  | fail (text : String)
  /-- The waiting call is dropped. -/
  | cancel
  deriving DecidableEq, Repr

namespace Reader

def settle (stream : Bytes) : Progress × Bytes → Reader × List ReadResult
  | (.returned result, buffer) => (⟨stream, buffer, none⟩, [result])
  | (.reading bytesLeft, buffer) => (⟨stream, buffer, some bytesLeft⟩, [])

def step : ReadAction → Reader → Option (Reader × List ReadResult)
  | .call, ⟨stream, buffer, none⟩ => some (settle stream (turn buffer))
  | .read n, ⟨stream, buffer, some bytesLeft⟩ =>
    if n ≤ bytesLeft ∧ n ≤ stream.length ∧ (n = 0 → stream = []) then
      some (settle (stream.drop n) (received buffer (stream.take n)))
    else none
  | .fail text, ⟨stream, buffer, some _⟩ => some (⟨stream, buffer, none⟩, [.error (.io text)])
  | .cancel, ⟨stream, buffer, some _⟩ => some (⟨stream, buffer, none⟩, [])
  | _, _ => none

/-- Everything a step can do, one constructor for each case. -/
inductive Step (s : Reader) : ReadAction → Reader → List ReadResult → Prop
  | call {t : Reader} {results : List ReadResult} (hidle : s.reading = none)
    (h : settle s.stream (turn s.buffer) = (t, results)) : Step s .call t results
  | chunk {n bytesLeft : ℕ} {t : Reader} {results : List ReadResult}
    (hreading : s.reading = some bytesLeft) (hpos : 0 < n) (hlimit : n ≤ bytesLeft)
    (havailable : n ≤ s.stream.length)
    (h : settle (s.stream.drop n) (turn (s.buffer ++ s.stream.take n)) = (t, results)) :
    Step s (.read n) t results
  | eof {bytesLeft : ℕ} (hreading : s.reading = some bytesLeft) (hstream : s.stream = [])
    (hbuffer : s.buffer = []) : Step s (.read 0) { s with reading := none } [.eof]
  | cut {bytesLeft : ℕ} (hreading : s.reading = some bytesLeft) (hstream : s.stream = [])
    (hbuffer : s.buffer ≠ []) :
    Step s (.read 0) { s with reading := none } [.error incompleteEofError]
  | fail {bytesLeft : ℕ} (hreading : s.reading = some bytesLeft) (text : String) :
    Step s (.fail text) { s with reading := none } [.error (.io text)]
  | cancel {bytesLeft : ℕ} (hreading : s.reading = some bytesLeft) :
    Step s .cancel { s with reading := none } []

theorem settle_stream {t : Reader} {stream : Bytes} {progress : Progress × Bytes}
    {results : List ReadResult} (h : settle stream progress = (t, results)) :
    t.stream = stream := by
  rcases progress with ⟨result | left, buffer⟩ <;> cases h <;> rfl

theorem step_cases {s t : Reader} {action : ReadAction} {results : List ReadResult}
    (h : step action s = some (t, results)) : s.Step action t results := by
  obtain ⟨stream, buffer, reading⟩ := s
  cases action with
  | call =>
    cases reading with
    | some bytesLeft => cases h
    | none => exact .call rfl (Option.some.inj h)
  | read n =>
    cases reading with
    | none => cases h
    | some bytesLeft =>
      simp only [step] at h
      split at h
      case isFalse => cases h
      case isTrue hread =>
        obtain ⟨hlimit, havailable, heof⟩ := hread
        replace h := Option.some.inj h
        -- A read that delivers nothing is the EOF, and the call returns.
        rcases Nat.eq_zero_or_pos n with rfl | hpos
        · obtain rfl := heof rfl
          by_cases hbuffer : buffer = []
          · subst hbuffer
            cases h
            exact .eof rfl rfl rfl
          · have hempty : buffer.isEmpty = false := by simpa using hbuffer
            simp only [received, List.take_nil, List.isEmpty_nil, if_true, hempty,
              Bool.false_eq_true, if_false] at h
            cases h
            exact .cut rfl rfl hbuffer
        · have hchunk : (stream.take n).isEmpty = false := by
            rw [List.isEmpty_eq_false_iff, ← List.length_pos_iff, List.length_take]
            omega
          rw [received, hchunk, if_neg Bool.false_ne_true] at h
          exact .chunk rfl hpos hlimit havailable h
  | fail text =>
    cases reading with
    | none => cases h
    | some bytesLeft =>
      cases h
      exact .fail rfl text
  | cancel =>
    cases reading with
    | none => cases h
    | some bytesLeft =>
      cases h
      exact .cancel rfl

/-- What a reader that waits for the rest of a frame still has to do. -/
def rank (s : Reader) : ℕ := s.stream.length + if s.reading = none then 1 else 0

theorem rank_settle {t : Reader} {stream : Bytes} {progress : Progress × Bytes}
    (h : settle stream progress = (t, [])) : t.rank = stream.length := by
  rcases progress with ⟨result | left, buffer⟩ <;> cases h
  rfl

/-- A call that waits has begun to read, or has taken a byte. -/
theorem rank_lt {s t : Reader} {action : ReadAction} (hcancel : action ≠ .cancel)
    (h : step action s = some (t, [])) : t.rank < s.rank := by
  cases step_cases h with
  | call hidle hsettle =>
    rw [rank_settle hsettle, rank, hidle, if_pos rfl]
    omega
  | chunk hreading hpos hlimit havailable hsettle =>
    rw [rank_settle hsettle, rank, List.length_drop]
    omega
  | cancel => exact absurd rfl hcancel

end Reader

/-- All schedules of calls, reads, transport errors and cancellations. -/
def reader : Machine Reader ReadAction ReadResult := ⟨Reader.step⟩

/-! ### The reference without chunks -/

/-- One call on a stream that arrives at once: its result and the bytes left. -/
def referenceCall (stream : Bytes) : ReadResult × Bytes :=
  if stream = [] then (.eof, stream)
  else
    match parse ⟨stream.take maxBufferedBytes, 0⟩ with
    | (.ok frame, cursor) => (.frame frame, stream.drop cursor.position)
    | (.error (.error .incomplete), _) =>
      if maxBufferedBytes ≤ stream.length then (.error bufferLimitError, stream)
      else (.error incompleteEofError, stream)
    | (.error (.error error), _) => (.error (.frame error), stream)
    | (.error .panic, _) => (.panic, stream)

/-- The results of the first calls, and the bytes that they leave. -/
def reference : ℕ → Bytes → List ReadResult × Bytes
  | 0, stream => ([], stream)
  | calls + 1, stream =>
    let later := reference calls (referenceCall stream).2
    ((referenceCall stream).1 :: later.1, later.2)

section referenceCall

variable {stream : Bytes}

theorem referenceCall_nil : referenceCall [] = (.eof, []) := rfl

theorem ne_nil_of_decided (h : frameDecoder (stream.take maxBufferedBytes) ≠ .incomplete) :
    stream ≠ [] := by
  rintro rfl
  simp at h

theorem referenceCall_of_complete {frame : Frame} {n : ℕ}
    (h : frameDecoder (stream.take maxBufferedBytes) = .complete frame n) :
    referenceCall stream = (.frame frame, stream.drop n) := by
  have hne : stream ≠ [] := ne_nil_of_decided (by simp [h])
  simp only [referenceCall, if_neg hne, parse_of_complete h]

theorem referenceCall_of_invalid {message : String}
    (h : frameDecoder (stream.take maxBufferedBytes) = .invalid message) :
    referenceCall stream = (.error (.frame (.other message)), stream) := by
  have hne : stream ≠ [] := ne_nil_of_decided (by simp [h])
  obtain ⟨cursor, hparse⟩ := parse_of_invalid h
  simp only [referenceCall, if_neg hne, hparse]

theorem referenceCall_of_incomplete (hne : stream ≠ [])
    (h : frameDecoder (stream.take maxBufferedBytes) = .incomplete) :
    referenceCall stream =
      if maxBufferedBytes ≤ stream.length then (.error bufferLimitError, stream)
      else (.error incompleteEofError, stream) := by
  obtain ⟨cursor, hparse⟩ := parse_of_incomplete h
  simp only [referenceCall, if_neg hne, hparse]

end referenceCall

theorem reference_succ (calls : ℕ) (stream : Bytes) :
    reference (calls + 1) stream =
      ((reference calls stream).1 ++ [(referenceCall (reference calls stream).2).1],
        (referenceCall (reference calls stream).2).2) := by
  induction calls generalizing stream with
  | zero => rfl
  | succ calls ih =>
    have hunfold : reference (calls + 1 + 1) stream =
        ((referenceCall stream).1 :: (reference (calls + 1) (referenceCall stream).2).1,
          (reference (calls + 1) (referenceCall stream).2).2) := rfl
    rw [hunfold, ih]
    rfl

/-! ### Every schedule of reads follows the reference -/

/-- The window of the reference begins with the buffer. -/
theorem take_window {buffer : Bytes} (hle : buffer.length ≤ maxBufferedBytes) (stream : Bytes) :
    ∃ t, (buffer ++ stream).take maxBufferedBytes = buffer ++ t := by
  rw [List.take_append, List.take_of_length_le hle]
  exact ⟨_, rfl⟩

/-- A call that returns from its buffer returns what the reference does. -/
theorem turn_reference {buffer buffer' : Bytes} {result : ReadResult}
    (hle : buffer.length ≤ maxBufferedBytes) (h : turn buffer = (.returned result, buffer'))
    (stream : Bytes) : referenceCall (buffer ++ stream) = (result, buffer' ++ stream) := by
  obtain ⟨t, ht⟩ := take_window hle stream
  have hturn := turn_cases buffer
  rw [h] at hturn
  cases hturn with
  | complete hd =>
    have hwindow := frameDecoder_stable.complete_append hd t
    rw [referenceCall_of_complete (ht ▸ hwindow),
      List.drop_append_of_le_length (frameDecoder_stable.used_le hd)]
  | invalid hd =>
    have hwindow := frameDecoder_stable.invalid_append hd t
    exact referenceCall_of_invalid (ht ▸ hwindow)
  | full hd hfull =>
    have hlen : buffer.length = maxBufferedBytes := Nat.le_antisymm hle hfull
    have hwindow : (buffer ++ stream).take maxBufferedBytes = buffer := by
      rw [← hlen, List.take_left]
    have hne : buffer ++ stream ≠ [] := by
      intro hnil
      have hnil' := congrArg List.length hnil
      rw [List.length_append, hlen] at hnil'
      simp [maxBufferedBytes] at hnil'
    rw [referenceCall_of_incomplete hne (by rw [hwindow]; exact hd), if_pos]
    rw [List.length_append]
    omega

/-- At EOF an incomplete buffer is what the reference has left as well. -/
theorem referenceCall_eof {buffer : Bytes} (hne : buffer ≠ [])
    (hd : frameDecoder buffer = .incomplete) (hlt : buffer.length < maxBufferedBytes) :
    referenceCall buffer = (.error incompleteEofError, buffer) := by
  have hwindow : buffer.take maxBufferedBytes = buffer := List.take_of_length_le (by omega)
  rw [referenceCall_of_incomplete hne (hwindow.symm ▸ hd), if_neg (by omega)]

/-- What holds between the steps of a reader that started on the stream `S`. -/
structure Follows (S : Bytes) (s : Reader) (results : List ReadResult) : Prop where
  results_eq : results = (reference results.length S).1
  unread_eq : s.buffer ++ s.stream = (reference results.length S).2
  buffer_le : s.buffer.length ≤ maxBufferedBytes
  reading_eq : ∀ bytesLeft, s.reading = some bytesLeft →
    frameDecoder s.buffer = .incomplete ∧ s.buffer.length < maxBufferedBytes ∧
      bytesLeft = maxBufferedBytes - s.buffer.length

/-- A result of the reference keeps the invariant. -/
theorem Follows.returned {S : Bytes} {s : Reader} {results : List ReadResult}
    (h : Follows S s results) {result : ReadResult} {stream buffer : Bytes}
    (hcall : referenceCall (s.buffer ++ s.stream) = (result, buffer ++ stream))
    (hle : buffer.length ≤ maxBufferedBytes) :
    Follows S ⟨stream, buffer, none⟩ (results ++ [result]) where
  results_eq := by
    rw [List.length_append, List.length_singleton, reference_succ, ← h.results_eq, ← h.unread_eq,
      hcall]
  unread_eq := by
    rw [List.length_append, List.length_singleton, reference_succ, ← h.unread_eq, hcall]
  buffer_le := hle
  reading_eq bytesLeft hreading := by cases hreading

/-- Whatever the code decides on a buffer keeps the invariant. -/
theorem Follows.settle {S : Bytes} {s t : Reader} {results now : List ReadResult}
    (h : Follows S s results) {stream buffer : Bytes}
    (hsplit : buffer ++ stream = s.buffer ++ s.stream) (hle : buffer.length ≤ maxBufferedBytes)
    (ht : Reader.settle stream (turn buffer) = (t, now)) : Follows S t (results ++ now) := by
  rcases hturn : turn buffer with ⟨result | bytesLeft, buffer'⟩
  · rw [hturn] at ht
    cases ht
    have hcall := turn_reference hle hturn stream
    rw [hsplit] at hcall
    have hlen := turn_length_le buffer
    rw [hturn] at hlen
    exact h.returned hcall (Nat.le_trans hlen hle)
  · rw [hturn] at ht
    cases ht
    obtain ⟨rfl, hd, hlt, rfl⟩ := turn_eq_reading hturn
    exact {
      results_eq := by simpa using h.results_eq
      unread_eq := by simpa [hsplit] using h.unread_eq
      buffer_le := hle
      reading_eq := fun bytesLeft hreading => by
        cases hreading
        exact ⟨hd, hlt, rfl⟩ }

/-- One step of any schedule without transport errors follows the reference. -/
theorem Follows.step {S : Bytes} {a : ReadAction} (hio : ∀ text, a ≠ .fail text) {s t : Reader}
    {results now : List ReadResult} (h : Follows S s results)
    (hstep : reader.step a s = some (t, now)) : Follows S t (results ++ now) := by
  cases Reader.step_cases hstep with
  | call hidle hsettle => exact h.settle rfl h.buffer_le hsettle
  | chunk hreading hpos hlimit havailable hsettle =>
    obtain ⟨_, hlt, hleft⟩ := h.reading_eq _ hreading
    refine h.settle ?_ ?_ hsettle
    · rw [List.append_assoc, List.take_append_drop]
    · rw [List.length_append, List.length_take]
      omega
  | eof hreading hstream hbuffer =>
    refine h.returned ?_ h.buffer_le
    rw [hstream, hbuffer]
    exact referenceCall_nil
  | cut hreading hstream hbuffer =>
    obtain ⟨hd, hlt, _⟩ := h.reading_eq _ hreading
    refine h.returned ?_ h.buffer_le
    rw [hstream, List.append_nil]
    exact referenceCall_eof hbuffer hd hlt
  | fail _ text => exact absurd rfl (hio text)
  | cancel hreading =>
    exact {
      results_eq := by simpa using h.results_eq
      unread_eq := by simpa using h.unread_eq
      buffer_le := h.buffer_le
      reading_eq := fun bytesLeft hreading => by cases hreading }

theorem Follows.init (S : Bytes) : Follows S ⟨S, [], none⟩ [] where
  results_eq := rfl
  unread_eq := rfl
  buffer_le := Nat.zero_le _
  reading_eq bytesLeft hreading := by cases hreading

/-- Without transport errors, the invariant holds along every schedule. -/
theorem Follows.run {S : Bytes} {actions : List ReadAction}
    (hio : ∀ text, .fail text ∉ actions) {s t : Reader} {results later : List ReadResult}
    (h : Follows S s results) (hrun : reader.run actions s = some (t, later)) :
    Follows S t (results ++ later) := by
  refine reader.run_invariant_of_meets (C := fun a _ => ∀ text, a ≠ .fail text)
    (fun s out a t now hs ha => Follows.step ha hs) h (reader.meets_of_forall ?_ s) hrun
  rintro a ha _ text rfl
  exact hio text ha

/-- A waiting call returns after finitely many one-byte reads, at the latest at EOF. -/
theorem Follows.exists_reads {S : Bytes} (stream : Bytes) {buffer : Bytes} {bytesLeft : ℕ}
    {results : List ReadResult} (h : Follows S ⟨stream, buffer, some bytesLeft⟩ results) :
    ∃ more t result, (∀ text, .fail text ∉ more) ∧
      reader.run more ⟨stream, buffer, some bytesLeft⟩ = some (t, [result]) := by
  induction stream generalizing buffer bytesLeft results with
  | nil =>
    have hread : ∃ t result, reader.step (.read 0) ⟨[], buffer, some bytesLeft⟩ =
        some (t, [result]) := by
      simp only [reader, Reader.step, received]
      by_cases hnil : buffer.isEmpty <;> simp [hnil, Reader.settle]
    obtain ⟨t, result, hstep⟩ := hread
    exact ⟨[.read 0], t, result, by simp, reader.run_singleton hstep⟩
  | cons byte stream ih =>
    obtain ⟨_, hlt, hleft⟩ := h.reading_eq bytesLeft rfl
    have hlimit : 1 ≤ bytesLeft := by
      simp only at hlt hleft
      omega
    have hread : reader.step (.read 1) ⟨byte :: stream, buffer, some bytesLeft⟩ =
        some (Reader.settle stream (turn (buffer ++ [byte]))) := by
      simp [reader, Reader.step, received, hlimit]
    rcases hturn : turn (buffer ++ [byte]) with ⟨result | left, buffer'⟩
    · rw [hturn] at hread
      exact ⟨[.read 1], _, result, by simp,
        reader.run_singleton hread⟩
    · rw [hturn] at hread
      have hnext := h.step (by simp) hread
      obtain ⟨more, t, result, hio, hrun⟩ := ih hnext
      exact ⟨.read 1 :: more, t, result, by simpa using hio,
        reader.run_cons_eq_some.mpr ⟨_, [], [result], hread, hrun, rfl⟩⟩

/-- From every state one more call can be completed. -/
theorem Follows.exists_result {S : Bytes} {s : Reader} {results : List ReadResult}
    (h : Follows S s results) :
    ∃ more t result, (∀ text, .fail text ∉ more) ∧ reader.run more s = some (t, [result]) := by
  obtain ⟨stream, buffer, reading⟩ := s
  cases reading with
  | some bytesLeft => exact h.exists_reads
  | none =>
    have hcall : reader.step .call ⟨stream, buffer, none⟩ =
        some (Reader.settle stream (turn buffer)) := rfl
    rcases hturn : turn buffer with ⟨result | left, buffer'⟩
    · rw [hturn] at hcall
      exact ⟨[.call], _, result, by simp,
        reader.run_singleton hcall⟩
    · rw [hturn] at hcall
      have hnext := h.step (by simp) hcall
      obtain ⟨more, t, result, hio, hrun⟩ := hnext.exists_reads
      exact ⟨.call :: more, t, result, by simpa using hio,
        reader.run_cons_eq_some.mpr ⟨_, [], [result], hcall, hrun, rfl⟩⟩

theorem Follows.exists_results {S : Bytes} (calls : ℕ) {s : Reader} {results : List ReadResult}
    (h : Follows S s results) :
    ∃ more t later, (∀ text, .fail text ∉ more) ∧ reader.run more s = some (t, later) ∧
      later.length = calls := by
  induction calls generalizing s results with
  | zero => exact ⟨[], s, [], by simp, rfl, rfl⟩
  | succ calls ih =>
    obtain ⟨first, u, result, hfirst, hrun⟩ := h.exists_result
    obtain ⟨more, t, later, hmore, hrun', hlen⟩ := ih (h.run hfirst hrun)
    refine ⟨first ++ more, t, result :: later, ?_, ?_, by simp [hlen]⟩
    · intro text hmem
      rcases List.mem_append.mp hmem with hmem | hmem
      · exact hfirst text hmem
      · exact hmore text hmem
    · exact reader.run_append.mpr ⟨u, [result], later, hrun, hrun', rfl⟩

/-- Chunking independence: for every split of the stream into reads, and with any
calls cancelled while they wait, the completed calls return what the reference
returns; a waiting call always has room to read, and every number of results is
reached. -/
theorem readFrame_chunking (S : Bytes) (actions : List ReadAction)
    (hio : ∀ text, .fail text ∉ actions) (s : Reader) (results : List ReadResult)
    (hrun : reader.run actions ⟨S, [], none⟩ = some (s, results)) :
    results = (reference results.length S).1 ∧
    (∀ bytesLeft, s.reading = some bytesLeft → 0 < bytesLeft) ∧
    ∀ calls, ∃ more t later, (∀ text, .fail text ∉ more) ∧
      reader.run more s = some (t, later) ∧ later.length = calls := by
  have h := (Follows.init S).run hio hrun
  rw [List.nil_append] at h
  refine ⟨h.results_eq, fun bytesLeft hreading => ?_, fun calls => h.exists_results calls⟩
  obtain ⟨_, hlt, rfl⟩ := h.reading_eq bytesLeft hreading
  omega

/-- `:0\r\n` in two reads, with a cancelled call between them, and then EOF. -/
theorem readFrame_chunking_cancelled :
    [ReadResult.frame (.integer 0), .eof] = (reference 2 [58, 48, 13, 10]).1 := by
  have hmarker : frameDecoder [58] = .incomplete := rfl
  have hframe : frameDecoder [58, 48, 13, 10] = .complete (.integer 0) 4 := rfl
  refine (readFrame_chunking [58, 48, 13, 10]
    [.call, .read 1, .cancel, .call, .read 3, .call, .read 0] (by simp) ⟨[], [], none⟩ _ ?_).1
  simp [Machine.run, reader, Reader.step, Reader.settle, received, turn_of_incomplete hmarker,
    turn_of_complete hframe, turn_of_incomplete frameDecoder_nil, maxBufferedBytes]

end MiniRedis
