import MiniRedis.Accounting

/-!
# One call on an endless or a finite stream

A call of `read_frame` that gets byte after byte returns before its buffer is full. On a
finite stream every frame costs bytes, so there are finitely many, and finitely many reads.
-/
namespace MiniRedis

open Library

/-- An endless transport: what it delivers to its read number `k` with the limit that
the code passes to it. -/
structure Supply where
  deliver : ℕ → ℕ → Bytes
  within : ∀ k limit, (deliver k limit).length ≤ limit
  nonempty : ∀ k limit, 0 < limit → deliver k limit ≠ []

/-- The loop of `read_frame` from where it stands, with at most `fuel` reads after `made`;
the result, the buffer, and the number of reads. -/
def readLoop (supply : Supply) : ℕ → ℕ → Progress × Bytes → Option (ReadResult × Bytes × ℕ)
  | _, made, (.returned result, buffer) => some (result, buffer, made)
  | 0, _, (.reading _, _) => none
  | fuel + 1, made, (.reading limit, buffer) =>
    readLoop supply fuel (made + 1) (received buffer (supply.deliver made limit))

theorem readLoop_returned (supply : Supply) (fuel made : ℕ) (result : ReadResult) (buffer : Bytes) :
    readLoop supply fuel made (.returned result, buffer) = some (result, buffer, made) := by
  cases fuel <;> rfl

/-- `Connection::read_frame`, with at most `fuel` reads. -/
def readFrame (supply : Supply) (fuel : ℕ) (buffer : Bytes) :
    Option (ReadResult × Bytes × ℕ) :=
  readLoop supply fuel 0 (turn buffer)

/-- The bytes that this many reads deliver, the first of them with number `made`, each with
the limit that the buffer leaves to it. -/
def Supply.delivered (supply : Supply) : ℕ → ℕ → Bytes → Bytes
  | 0, _, _ => []
  | reads + 1, made, buffer =>
    let chunk := supply.deliver made (maxBufferedBytes - buffer.length)
    chunk ++ supply.delivered reads (made + 1) (buffer ++ chunk)

/-- What a call that has a frame, or an error, returns from a buffer. -/
theorem turn_returned {buffer rest : Bytes} {result : ReadResult}
    (h : turn buffer = (.returned result, rest)) :
    (∃ frame, result = .frame frame) ∨ ∃ error, result = .error error := by
  have hturn := turn_cases buffer
  rw [h] at hturn
  cases hturn with
  | complete hd => exact .inl ⟨_, rfl⟩
  | invalid hd => exact .inr ⟨_, rfl⟩
  | full hd hfull => exact .inr ⟨_, rfl⟩

namespace Supply

variable (supply : Supply)

/-- A read with room appends between one byte and its limit. -/
theorem received_eq {limit : ℕ} (hlimit : 0 < limit) (made : ℕ) (buffer : Bytes) :
    received buffer (supply.deliver made limit) = turn (buffer ++ supply.deliver made limit) := by
  have hsome : (supply.deliver made limit).isEmpty = false := by
    simpa using supply.nonempty made limit hlimit
  rw [received, hsome, if_neg Bool.false_ne_true]

/-- A waiting call returns within its budget, and the reader gets there on the same bytes. -/
theorem readLoop_returns (made : ℕ) {fuel limit : ℕ} {buffer : Bytes}
    (hlt : buffer.length < maxBufferedBytes) (hlimit : limit = maxBufferedBytes - buffer.length)
    (hfuel : limit ≤ fuel) :
    ∃ (result : ReadResult) (rest : Bytes) (reads : List ℕ),
      readLoop supply fuel made (.reading limit, buffer) =
        some (result, rest, made + reads.length) ∧
      reads.length ≤ limit ∧
      ((∃ frame, result = .frame frame) ∨ ∃ error, result = .error error) ∧
      reader.run (reads.map ReadAction.read)
        ⟨supply.delivered reads.length made buffer, buffer, some limit⟩ =
        some (⟨[], rest, none⟩, [result]) := by
  induction fuel generalizing made limit buffer with
  | zero => omega
  | succ fuel ih =>
    have hpos : 0 < limit := by omega
    have hwithin := supply.within made limit
    have hlength := List.length_pos_of_ne_nil (supply.nonempty made limit hpos)
    have hreceived := supply.received_eq hpos made buffer
    have hloop : readLoop supply (fuel + 1) made (.reading limit, buffer) =
        readLoop supply fuel (made + 1) (received buffer (supply.deliver made limit)) := rfl
    have hdelivered : ∀ reads, supply.delivered (reads + 1) made buffer =
        supply.deliver made limit ++
          supply.delivered reads (made + 1) (buffer ++ supply.deliver made limit) := by
      intro reads
      rw [hlimit]
      rfl
    rw [hloop, hreceived]
    clear hloop
    generalize supply.deliver made limit = chunk at hwithin hlength hreceived hdelivered ⊢
    have hread : ∀ more, reader.step (.read chunk.length) ⟨chunk ++ more, buffer, some limit⟩ =
        some (Reader.settle more (turn (buffer ++ chunk))) := by
      intro more
      have hguard : chunk.length ≤ limit ∧ chunk.length ≤ (chunk ++ more).length ∧
          (chunk.length = 0 → chunk ++ more = []) := by
        rw [List.length_append]
        omega
      simp only [reader, Reader.step, if_pos hguard, List.take_left, List.drop_left, hreceived]
    rcases hturn : turn (buffer ++ chunk) with ⟨result | left, rest⟩
    · refine ⟨result, rest, [chunk.length], readLoop_returned .., hpos, turn_returned hturn, ?_⟩
      have hstep := hread []
      rw [hturn] at hstep
      rw [List.length_singleton, hdelivered]
      exact reader.run_singleton hstep
    · obtain ⟨rfl, -, hroom, hleft⟩ := turn_eq_reading hturn
      rw [List.length_append] at hroom hleft
      obtain ⟨result, rest, reads, hloop, hcount, hkind, hrun⟩ :=
        @ih (made + 1) left (buffer ++ chunk) (by rw [List.length_append]; omega)
          (by rw [List.length_append]; omega) (by omega)
      refine ⟨result, rest, chunk.length :: reads, ?_, ?_, hkind, ?_⟩
      · rw [hloop, List.length_cons, Nat.add_comm reads.length, Nat.add_assoc]
      · rw [List.length_cons]
        omega
      · have hstep := hread (supply.delivered reads.length (made + 1) (buffer ++ chunk))
        rw [hturn] at hstep
        rw [List.length_cons, hdelivered]
        exact reader.run_cons_eq_some.mpr ⟨_, [], [result], hstep, hrun, rfl⟩

/-- A call returns within the budget of its buffer, and so does the reader on the same bytes. -/
theorem readFrame_run {buffer : Bytes} (hle : buffer.length ≤ maxBufferedBytes) :
    ∃ (result : ReadResult) (rest : Bytes) (reads : ℕ) (actions : List ReadAction),
      readFrame supply (maxBufferedBytes - buffer.length) buffer = some (result, rest, reads) ∧
      reads ≤ maxBufferedBytes - buffer.length ∧
      ((∃ frame, result = .frame frame) ∨ ∃ error, result = .error error) ∧
      reader.run (.call :: actions) ⟨supply.delivered reads 0 buffer, buffer, none⟩ =
        some (⟨[], rest, none⟩, [result]) := by
  have hcall : ∀ stream, reader.step .call ⟨stream, buffer, none⟩ =
      some (Reader.settle stream (turn buffer)) := fun _ => rfl
  unfold readFrame
  rcases hturn : turn buffer with ⟨result | limit, rest⟩
  · have hstep := hcall []
    rw [hturn] at hstep
    exact ⟨result, rest, 0, [], readLoop_returned .., Nat.zero_le _, turn_returned hturn,
      reader.run_singleton hstep⟩
  · obtain ⟨rfl, -, hroom, hlimit⟩ := turn_eq_reading hturn
    obtain ⟨result, left, reads, hloop, hcount, hkind, hrun⟩ :=
      supply.readLoop_returns 0 hroom hlimit (Nat.le_of_eq hlimit)
    rw [Nat.zero_add] at hloop
    have hstep := hcall (supply.delivered reads.length 0 rest)
    rw [hturn] at hstep
    exact ⟨result, left, reads.length, reads.map .read, hloop, by omega, hkind,
      reader.run_cons_eq_some.mpr ⟨_, [], [result], hstep, hrun, rfl⟩⟩

/-- A frame that a call returns is read from the front and costs three bytes. -/
theorem readFrame_returns {buffer : Bytes} (hle : buffer.length ≤ maxBufferedBytes) :
    ∃ result rest reads,
      readFrame supply (maxBufferedBytes - buffer.length) buffer = some (result, rest, reads) ∧
      reads ≤ maxBufferedBytes - buffer.length ∧
      ((∃ frame, result = .frame frame) ∨ ∃ error, result = .error error) ∧
      ∀ frame, result = .frame frame → ∃ segment : Segment, segment.frame = frame ∧
        buffer ++ supply.delivered reads 0 buffer = segment.bytes ++ rest ∧
          3 ≤ segment.bytes.length := by
  obtain ⟨result, rest, reads, actions, hcall, hcount, hkind, hrun⟩ := supply.readFrame_run hle
  refine ⟨result, rest, reads, hcall, hcount, hkind, ?_⟩
  rintro frame rfl
  generalize supply.delivered reads 0 buffer = delivered at hrun ⊢
  have hsound : (Reader.mk delivered buffer none).Sound :=
    ⟨Reader.waits_of_not_reading rfl, hle⟩
  obtain ⟨-, -, received, segments, haccount⟩ := hsound.run hrun
  have hframes : [frame] = segments.map Segment.frame := haccount.frames_eq
  obtain ⟨segment, rfl⟩ : ∃ segment, segments = [segment] := by
    refine List.length_eq_one_iff.mp ?_
    rw [← List.length_map Segment.frame, ← hframes, List.length_singleton]
  have hstream : delivered = received := by simpa using haccount.stream_eq
  refine ⟨segment, ?_, ?_, segment.three_le⟩
  · simpa using hframes.symm
  · have hsplit := haccount.buffer_eq
    simp only [consumed, List.map_cons, List.map_nil, List.flatten_cons, List.flatten_nil,
      List.append_nil] at hsplit
    rw [hstream, hsplit]

end Supply

/-! ### A finite stream -/

/-- A read takes a byte from the stream, or returns. -/
theorem Reader.step_read {s t : Reader} {n : ℕ} {results : List ReadResult}
    (h : Reader.step (.read n) s = some (t, results)) :
    t.stream.length + 1 ≤ s.stream.length + results.length := by
  cases step_cases h with
  | chunk hreading hpos hlimit havailable hsettle =>
    rw [settle_stream hsettle, List.length_drop]
    omega
  | eof => simp
  | cut => simp

def ReadAction.isRead : ReadAction → Bool
  | .read _ => true
  | _ => false

theorem ReadAction.eq_read {action : ReadAction} (h : action.isRead = true) :
    ∃ n, action = .read n := by
  cases action <;> first | exact ⟨_, rfl⟩ | cases h

/-- There are no more reads than bytes and returned results. -/
theorem Reader.reads_le {s t : Reader} {actions : List ReadAction} {results : List ReadResult}
    (hs : s.Sound) (hrun : reader.run actions s = some (t, results)) :
    actions.countP ReadAction.isRead ≤ s.stream.length + results.length := by
  have hcount := reader.run_amortized (fun s => s.stream.length) ReadAction.isRead (fun _ => 0)
    (fun _ => 0) List.length (P := Reader.Sound) (fun _ _ => rfl) (fun _ _ => List.length_append)
    ?_ hs hrun
  · rw [List.map_const', List.sum_replicate, nsmul_zero] at hcount
    omega
  · intro u action v now hu hstep
    have hnow := hu.step hstep
    refine ⟨hnow.sound, ?_⟩
    by_cases hread : action.isRead = true
    · obtain ⟨n, rfl⟩ := ReadAction.eq_read hread
      have htaken := Reader.step_read hstep
      simp only [ReadAction.isRead, if_true]
      omega
    · obtain ⟨received, segments, haccount⟩ := hnow.accounts
      have hstream := congrArg List.length haccount.stream_eq
      rw [List.length_append] at hstream
      rw [if_neg hread]
      omega

/-- A finite stream holds finitely many frames, and there are no more reads than bytes
and results. -/
theorem finite_stream {S : Bytes} {actions : List ReadAction} {s : Reader}
    {results : List ReadResult} (hrun : reader.run actions ⟨S, [], none⟩ = some (s, results)) :
    s.unread + 3 * (results.filterMap ReadResult.returnedFrame).length ≤ S.length ∧
    (S.length / 3 < results.length →
      ∃ result ∈ results, result = .eof ∨ ∃ error, result = .error error) ∧
    actions.countP ReadAction.isRead ≤ S.length + results.length := by
  have hsound := reader_sound_new S
  obtain ⟨-, hpanic, received, segments, haccount⟩ := hsound.run hrun
  have hcharge := haccount.charge
  have hunread : (Reader.mk S [] none).unread = S.length := Nat.zero_add _
  rw [hunread] at hcharge
  refine ⟨hcharge, fun hmany => ?_, Reader.reads_le hsound hrun⟩
  by_contra hnone
  have hall : ∀ result ∈ results, (result.returnedFrame).isSome := by
    intro result hresult
    cases result with
    | frame frame => rfl
    | eof => exact absurd ⟨_, hresult, .inl rfl⟩ hnone
    | error error => exact absurd ⟨_, hresult, .inr ⟨error, rfl⟩⟩ hnone
    | panic => exact absurd hresult hpanic
  have hlength : (results.filterMap ReadResult.returnedFrame).length = results.length := by
    rw [List.length_filterMap_eq_countP]
    exact List.countP_eq_length.mpr hall
  omega

end MiniRedis
