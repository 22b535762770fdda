import MiniRedis.Frame.Encoding
import MiniRedis.Library.BufferedWriter
import MiniRedis.Wire

/-!
# Writing frames through the buffered stream

`Connection::write_frame` awaits one write for each part of a frame and then a
flush, on a `BufWriter` over the TCP stream. Calls may fail or be dropped in
between, and the connection may be used again. What is still to be sent, buffered
or not, is what the model of the wire calls `unsent`.
-/
namespace MiniRedis

open Library

mutual

/-- The writes of `Connection::write_data`, in their order. -/
def writeData : Frame → List Bytes
  | .simple string => [[plus], asBytes string, [cr, lf]]
  | .error string => [[minus], asBytes string, [cr, lf]]
  | .integer num => [[colon], asBytes (toString num), [cr, lf]]
  | .bulk bytes => [[dollar], asBytes (toString bytes.length), [cr, lf], bytes, [cr, lf]]
  | .array elements =>
    [[star], asBytes (toString elements.length), [cr, lf]] ++ writeDataAll elements
  | .null => [asBytes "$-1\r\n"]

def writeDataAll : List Frame → List Bytes
  | [] => []
  | element :: elements => writeData element ++ writeDataAll elements

end

mutual

/-- The writes of a frame are its encoding. -/
theorem flatten_writeData (frame : Frame) : (writeData frame).flatten = encode frame := by
  cases frame with
  | array elements => simp [writeData, encode, flatten_writeDataAll elements]
  | _ => simp [writeData, encode]

theorem flatten_writeDataAll (frames : List Frame) :
    (writeDataAll frames).flatten = encodeAll frames := by
  cases frames with
  | nil => rfl
  | cons frame frames =>
    simp [writeDataAll, encodeAll, flatten_writeData frame, flatten_writeDataAll frames]

end

abbrev FrameWriter := CallWriter UInt8 Frame

/-- A call of `write_frame` ends with `Ok(())`, with the text of an error, or is dropped. -/
abbrev FrameWriteEnd := WriteEnd String

/-- All schedules of `write_frame` on one connection, for a `BufWriter` of this capacity. -/
def frameWriter (capacity : ℕ) : Machine FrameWriter (WriteAction Frame String)
    (Frame × FrameWriteEnd) :=
  callWriter capacity writeData

/-- What one call has added to the bytes of the connection. -/
def Adds (entry : Frame × FrameWriteEnd) (segment : Bytes) : Prop :=
  segment <+: encode entry.1 ∧ (entry.2 = .done → segment = encode entry.1)

/-- The frames of the calls so far, the current one included. -/
def framesOf (s : FrameWriter) (out : List (Frame × FrameWriteEnd)) : List Frame :=
  out.map Prod.fst ++ s.phase.call?.toList

section ledger

variable {s : FrameWriter} {out : List (Frame × FrameWriteEnd)} {segments : List Bytes}

theorem adds_of_covers (h : List.Forall₂ (CallWriter.Covers writeData) out segments) :
    List.Forall₂ Adds out segments := by
  refine h.imp ?_
  rintro ⟨frame, ending⟩ segment ⟨hfront, hdone⟩
  rw [flatten_writeData] at hfront hdone
  exact ⟨hfront, hdone⟩

theorem flatten_of_adds (h : List.Forall₂ Adds out segments)
    (hdone : ∀ entry ∈ out, entry.2 = .done) :
    segments.flatten = encodeAll (out.map Prod.fst) := by
  induction h with
  | nil => rfl
  | cons hadds _ ih =>
    rw [List.flatten_cons, hadds.2 (hdone _ List.mem_cons_self),
      ih fun entry hmem => hdone entry (List.mem_cons_of_mem _ hmem)]
    rfl

variable {begun : Bytes}

/-- While every call has been done, the connection carries whole frames. -/
theorem flow_of_ledger (h : CallWriter.Ledger writeData s out segments begun)
    (hdone : ∀ entry ∈ out, entry.2 = .done) :
    s.writer.sent ++ s.unsent = encodeAll (framesOf s out) := by
  rw [← s.total_append_rest, h.total, flatten_of_adds (adds_of_covers h.covers) hdone, framesOf,
    encodeAll_append, List.append_assoc]
  congr 1
  cases hcall : s.phase.call? with
  | none =>
    rw [h.idle hcall, WritePhase.rest_of_idle hcall]
    rfl
  | some frame =>
    rw [h.split frame hcall, flatten_writeData]
    exact (List.append_nil _).symm

end ledger

/-- What holds of a connection on which frames are written: `segments` is what the calls
have added to its bytes, and `begun` what the current call has. -/
structure Written (capacity : ℕ) (s : FrameWriter) (out : List (Frame × FrameWriteEnd))
    (segments : List Bytes) (begun : Bytes) : Prop where
  /-- A call that is done has added its frame, and any other a front of its frame. -/
  adds : List.Forall₂ Adds out segments
  current : ∀ frame, s.phase.call? = some frame → begun ++ s.phase.rest = encode frame
  /-- The bytes sent and buffered are exactly these, in the order of the calls. -/
  bytes : s.writer.sent ++ s.writer.pending = segments.flatten ++ begun
  /-- When a call is done, everything written before is sent. -/
  prompt : ∀ pre post, out = pre ++ post → (∀ entry ∈ pre.getLast?, entry.2 = .done) →
    (segments.take pre.length).flatten <+: s.writer.sent
  /-- While all calls are done, the connection carries the encodings of the frames. -/
  whole : (∀ entry ∈ out, entry.2 = .done) →
    s.writer.sent ++ s.unsent = encodeAll (framesOf s out)
  /-- A call can be completed, and then everything is sent. -/
  completes : ∀ frame, s.phase.call? = some frame → ∃ actions t,
    (∀ action ∈ actions, action = .proceed ∨ action = .take 1) ∧
      (frameWriter capacity).run actions s = some (t, [(frame, .done)]) ∧
      t.writer.pending = [] ∧ t.writer.sent = s.writer.sent ++ s.unsent

theorem written_of_ledger {capacity : ℕ} {s : FrameWriter} {out : List (Frame × FrameWriteEnd)}
    {segments : List Bytes} {begun : Bytes}
    (h : CallWriter.Ledger writeData s out segments begun) :
    Written capacity s out segments begun where
  adds := adds_of_covers h.covers
  current frame hcall := by rw [h.split frame hcall, flatten_writeData]
  bytes := h.total
  prompt := h.prompt
  whole := flow_of_ledger h
  completes frame hcall := by
    obtain ⟨actions, t, hactions, hrun, -, hpending, hsent⟩ := CallWriter.exists_done hcall
    exact ⟨actions, t, hactions, hrun, hpending, hsent⟩

/-- For every capacity of the buffer and every schedule of calls, of what the TCP stream
takes, of its errors and of dropped calls: nothing that is written is lost, duplicated or
reordered, and only the frame of a call that is not done can be cut. -/
theorem writeFrame_accounting (capacity : ℕ) (s : FrameWriter)
    (actions : List (WriteAction Frame String)) (out : List (Frame × FrameWriteEnd))
    (hrun : (frameWriter capacity).run actions .new = some (s, out)) :
    ∃ segments begun, Written capacity s out segments begun := by
  obtain ⟨segments, begun, hledger⟩ := CallWriter.Ledger.new.run hrun
  exact ⟨segments, begun, written_of_ledger hledger⟩

/-- A reply is dropped half sent, and its rest goes out in front of the next frame. -/
theorem writeFrame_accounting_dropped :
    ∃ s actions out, (frameWriter 4).run actions .new = some (s, out) ∧
      out = [(.simple "OK", .cancelled), (.null, .done)] ∧
      s.writer.sent = [43, 79, 75, 36, 45, 49, 13, 10] ∧
      ∃ segments begun, Written 4 s out segments begun := by
  have hok : writeData (.simple "OK") = [[43], [79, 75], [13, 10]] := by
    rw [writeData]
    decide
  have hnull : writeData .null = [[36, 45, 49, 13, 10]] := by
    rw [writeData]
    decide
  obtain ⟨s, out, hrun, hout, hsent⟩ : ∃ s out, (frameWriter 4).run [.begin (.simple "OK"),
      .proceed, .proceed, .take 2, .cancel, .begin .null, .take 1, .take 5, .proceed, .proceed,
      .proceed] .new = some (s, out) ∧ out = [(.simple "OK", .cancelled), (.null, .done)] ∧
        s.writer.sent = [43, 79, 75, 36, 45, 49, 13, 10] := by
    simp [frameWriter, callWriter, Machine.run, CallWriter.step, CallWriter.new, CallWriter.Fits,
      BufWriter.new, BufWriter.push, BufWriter.drain, BufWriter.pending, BufWriter.bypass, hok,
      hnull]
  exact ⟨s, _, out, hrun, hout, hsent, writeFrame_accounting 4 s _ out hrun⟩

end MiniRedis
