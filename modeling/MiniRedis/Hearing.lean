import MiniRedis.Backlog
import MiniRedis.Charges
import MiniRedis.Library.Scanner
import MiniRedis.Session
import MiniRedis.Stages

/-!
# What a handler hears

Whatever the schedule, the frames that a handler receives are those at the front of
the bytes that its peer has delivered, in their order, and a read fails only for the
bytes behind them or with the transport.
-/
namespace MiniRedis

open Library

/-! ### The frames of a stream -/

/-- What a call without chunks returns, one constructor for each reason. -/
inductive ReferenceCase (stream : Bytes) : ReadResult × Bytes → Prop
  | eof (h : stream = []) : ReferenceCase stream (.eof, stream)
  | complete {frame : Frame} {n : ℕ}
    (h : frameDecoder (stream.take maxBufferedBytes) = .complete frame n) :
    ReferenceCase stream (.frame frame, stream.drop n)
  | invalid {message : String}
    (h : frameDecoder (stream.take maxBufferedBytes) = .invalid message) :
    ReferenceCase stream (.error (.frame (.other message)), stream)
  | full (h : frameDecoder (stream.take maxBufferedBytes) = .incomplete)
    (hfull : maxBufferedBytes ≤ stream.length) :
    ReferenceCase stream (.error bufferLimitError, stream)
  | cut (hne : stream ≠ []) (hlt : stream.length < maxBufferedBytes) :
    ReferenceCase stream (.error incompleteEofError, stream)

theorem referenceCall_cases (stream : Bytes) : ReferenceCase stream (referenceCall stream) := by
  by_cases hne : stream = []
  · rw [hne]
    exact .eof rfl
  · cases hd : frameDecoder (stream.take maxBufferedBytes) with
    | complete frame n =>
      rw [referenceCall_of_complete hd]
      exact .complete hd
    | invalid message =>
      rw [referenceCall_of_invalid hd]
      exact .invalid hd
    | incomplete =>
      rw [referenceCall_of_incomplete hne hd]
      split
      · exact .full hd (by assumption)
      · exact .cut hne (by omega)

/-- Only a returned frame takes bytes from the stream. -/
theorem referenceCall_snd {stream : Bytes}
    (hframe : ∀ frame, (referenceCall stream).1 ≠ .frame frame) :
    (referenceCall stream).2 = stream := by
  have hcases := referenceCall_cases stream
  generalize referenceCall stream = call at hcases hframe
  cases hcases with
  | complete hd => exact absurd rfl (hframe _)
  | _ => rfl

theorem take_append_window (stream more : Bytes) :
    ∃ t, (stream ++ more).take maxBufferedBytes = stream.take maxBufferedBytes ++ t := by
  rw [List.take_append]
  exact ⟨_, rfl⟩

/-- An error other than that of an early end survives what comes later. -/
theorem referenceCall_append {stream : Bytes} {error : ReadError}
    (h : (referenceCall stream).1 = .error error) (hend : error ≠ incompleteEofError)
    (more : Bytes) : (referenceCall (stream ++ more)).1 = .error error := by
  obtain ⟨t, hwindow⟩ := take_append_window stream more
  have hcases := referenceCall_cases stream
  generalize referenceCall stream = call at hcases h
  cases hcases with
  | eof => cases h
  | complete hd => cases h
  | invalid hd =>
    cases h
    have hmore := frameDecoder_stable.invalid_append hd t
    rw [← hwindow] at hmore
    rw [referenceCall_of_invalid hmore]
  | full hd hfull =>
    cases h
    have hsame : (stream ++ more).take maxBufferedBytes = stream.take maxBufferedBytes :=
      List.take_append_of_le_length hfull
    have hne : stream ++ more ≠ [] := by
      intro hnil
      rw [(List.append_eq_nil_iff.mp hnil).1] at hfull
      simp [maxBufferedBytes] at hfull
    rw [referenceCall_of_incomplete hne (hsame.symm ▸ hd), if_pos]
    rw [List.length_append]
    omega
  | cut hne hlt =>
    cases h
    exact absurd rfl hend

/-- The next request of a stream. -/
def nextFrame (stream : Bytes) : Option (Frame × Bytes) :=
  match referenceCall stream with
  | (.frame frame, left) => some (frame, left)
  | _ => none

theorem nextFrame_eq_some {stream left : Bytes} {frame : Frame} :
    nextFrame stream = some (frame, left) ↔ referenceCall stream = (.frame frame, left) := by
  unfold nextFrame
  split
  · rename_i hcall
    rw [hcall]
    simp
  · rename_i hother
    constructor
    · intro h
      cases h
    · intro h
      exact absurd h (hother frame left)

theorem nextFrame_eq_none {stream : Bytes}
    (hframe : ∀ frame, (referenceCall stream).1 ≠ .frame frame) : nextFrame stream = none := by
  cases hnext : nextFrame stream with
  | none => rfl
  | some pair => exact absurd (congrArg Prod.fst (nextFrame_eq_some.mp hnext)) (hframe _)

/-- The requests of a stream, one after the other. -/
def frameScanner : Scanner UInt8 Frame where
  next := nextFrame
  consumes := by
    intro stream frame left h
    have hcases := referenceCall_cases stream
    rw [nextFrame_eq_some.mp h] at hcases
    cases hcases with
    | complete hd =>
      have hcost := frameDecoder_charge hd
      have hthree := Command.three_le_cost frame
      have hused := frameDecoder_stable.used_le hd
      rw [List.length_take] at hused
      rw [List.length_drop]
      omega
  next_append := by
    intro stream frame left h more
    obtain ⟨t, hwindow⟩ := take_append_window stream more
    have hcases := referenceCall_cases stream
    rw [nextFrame_eq_some.mp h] at hcases
    cases hcases with
    | complete hd =>
      have hmore := frameDecoder_stable.complete_append hd t
      rw [← hwindow] at hmore
      have hused := frameDecoder_stable.used_le hd
      rw [List.length_take] at hused
      rw [nextFrame_eq_some, referenceCall_of_complete hmore,
        List.drop_append_of_le_length (by omega)]

/-! ### What a handler makes of its bytes -/

/-- The bytes that no frame has used. -/
def Reader.pending (s : Reader) : Bytes := s.buffer ++ s.stream

/-- A step of the reader is what the reference does on the bytes that are left. -/
theorem Reader.Sound.reference {s t : Reader} {action : ReadAction} {results : List ReadResult}
    (hsound : s.Sound) (hfail : ∀ text, action ≠ .fail text)
    (h : Reader.step action s = some (t, results)) :
    results = (reference results.length s.pending).1 ∧
      t.pending = (reference results.length s.pending).2 := by
  have hfollows : Follows s.pending s [] := ⟨rfl, rfl, hsound.buffer_le, hsound.waits⟩
  have hnext := hfollows.step hfail h
  exact ⟨hnext.results_eq, hnext.unread_eq⟩

/-- A step that neither fails nor returns leaves the bytes; a result is that of the
reference. -/
theorem Reader.Sound.waited {s t : Reader} {action : ReadAction} (hsound : s.Sound)
    (h : Reader.step action s = some (t, [])) : t.pending = s.pending := by
  by_cases hfail : ∃ text, action = .fail text
  · obtain ⟨text, rfl⟩ := hfail
    cases Reader.step_cases h
  · exact (hsound.reference (fun text heq => hfail ⟨text, heq⟩) h).2

theorem Reader.Sound.returned {s t : Reader} {action : ReadAction} {result : ReadResult}
    (hsound : s.Sound) (hfail : ∀ text, action ≠ .fail text)
    (h : Reader.step action s = some (t, [result])) :
    referenceCall s.pending = (result, t.pending) := by
  obtain ⟨hresult, hpending⟩ := hsound.reference hfail h
  refine Prod.ext ?_ hpending.symm
  exact (List.cons.inj hresult).1.symm

/-- What holds of a handler whose peer has delivered these bytes, when the transport
fails with these texts only. -/
structure Heard (fails : String → Prop) (delivered : Bytes) (phase : Phase) (endpoint : Endpoint)
    (events : List Event) : Prop where
  sound : endpoint.inbound.Sound
  /-- The received frames are those at the front of the bytes, in their order. -/
  scans : frameScanner.Scans delivered (receivedFrames events) endpoint.inbound.pending
  /-- A read fails for the bytes that are left, or with the transport. -/
  failed : ∀ error, .readFailed error ∈ events → phase.isClosing = true ∧
    ((∃ text, error = .io text ∧ fails text) ∨
      (referenceCall endpoint.inbound.pending).1 = .error error ∧
        (error = incompleteEofError → endpoint.closed = true))
  sent : Sent (some phase) endpoint (attempts events)

/-- A task that reports or leaves does not come back. -/
theorem Task.Step.isClosing {shared shared' : Shared} {task task' : Task} {action : TaskAction}
    {events : List Event} (h : task.Step shared action shared' task' events)
    (hclosing : task.phase.isClosing = true) : task'.phase.isClosing = true := by
  cases h with
  | leaveReport | drop => rfl
  | abandon | leaveLoop | leaveReply => rfl
  | _ => simp_all [Phase.isClosing]

/-- The transport takes a part of what is owed. -/
theorem Sent.send {task : Task} {endpoint : Endpoint} {replies : List Frame}
    (h : Sent (some task.phase) endpoint replies) (hphase : task.phase.isWriting = true) (n : ℕ) :
    Sent (some task.phase)
      { endpoint with
        sent := endpoint.sent ++ endpoint.unsent.take n
        unsent := endpoint.unsent.drop n } replies where
  total := by
    rw [List.append_assoc, List.take_append_drop]
    exact h.total
  last := by
    rcases h.last with hnil | ⟨done, frame, hreplies, hsuffix⟩
    · exact .inl (by simp [hnil])
    · exact .inr ⟨done, frame, hreplies, (List.drop_suffix _ _).trans hsuffix⟩
  settled hidle := by
    have howe := hidle _ rfl
    rw [Phase.mayOwe_of_isWriting hphase] at howe
    cases howe

/-- Only a failed read is seen as one. -/
theorem Task.Step.readFailed {shared shared' : Shared} {task task' : Task} {action : TaskAction}
    {events : List Event} (h : task.Step shared action shared' task' events) {error : ReadError}
    (hmem : .readFailed error ∈ events) :
    action = .readFrame (.error error) ∧ task'.phase = .reporting error := by
  cases h with
  | readError hphase other =>
    obtain rfl : error = other := by simpa using hmem
    exact ⟨rfl, rfl⟩
  | _ => simp at hmem

namespace Heard

variable {fails : String → Prop} {delivered : Bytes} {phase : Phase} {endpoint : Endpoint}
  {events : List Event}

theorem new : Heard fails [] .spawned .new [] where
  sound := reader_sound_new []
  scans := .nil []
  failed := by simp
  sent := ⟨rfl, .inl rfl, fun _ => rfl⟩

theorem deliver (h : Heard fails delivered phase endpoint events) (hopen : endpoint.closed = false)
    (bytes : Bytes) : Heard fails (delivered ++ bytes) phase
      { endpoint with
        inbound := { endpoint.inbound with stream := endpoint.inbound.stream ++ bytes } }
      events := by
  have hpending : Reader.pending { endpoint.inbound with
      stream := endpoint.inbound.stream ++ bytes } = endpoint.inbound.pending ++ bytes :=
    (List.append_assoc _ _ _).symm
  refine ⟨⟨h.sound.waits, h.sound.buffer_le⟩, ?_, ?_, h.sent.congr rfl rfl id⟩
  · rw [hpending]
    exact h.scans.append bytes
  · intro error hmem
    obtain ⟨hclosing, hio | ⟨hcall, hend⟩⟩ := h.failed error hmem
    · exact ⟨hclosing, .inl hio⟩
    · refine ⟨hclosing, .inr ⟨?_, hend⟩⟩
      rw [hpending]
      refine referenceCall_append hcall (fun heq => ?_) bytes
      rw [hend heq] at hopen
      cases hopen

theorem close (h : Heard fails delivered phase endpoint events) :
    Heard fails delivered phase { endpoint with closed := true } events where
  sound := h.sound
  scans := h.scans
  failed error hmem := by
    obtain ⟨hclosing, hio | ⟨hcall, -⟩⟩ := h.failed error hmem
    · exact ⟨hclosing, .inl hio⟩
    · exact ⟨hclosing, .inr ⟨hcall, fun _ => rfl⟩⟩
  sent := h.sent.congr rfl rfl id

variable {shared shared' : Shared} {task task' : Task} {endpoint' : Endpoint} {now : List Event}

/-- A step of the task that takes nothing from the reader. -/
theorem kept (h : Heard fails delivered task.phase endpoint events)
    (hsound : endpoint'.inbound.Sound)
    (hpending : endpoint'.inbound.pending = endpoint.inbound.pending)
    (hclosed : endpoint'.closed = endpoint.closed) (hreceived : receivedFrames now = [])
    (hnone : ∀ error, .readFailed error ∉ now)
    (hphase : task.phase.isClosing = true → task'.phase.isClosing = true)
    (hsent : Sent (some task'.phase) endpoint' (attempts (events ++ now))) :
    Heard fails delivered task'.phase endpoint' (events ++ now) where
  sound := hsound
  scans := by
    rw [receivedFrames_append, hreceived, List.append_nil, hpending]
    exact h.scans
  failed error hmem := by
    obtain ⟨hclosing, hcause⟩ := h.failed error ((List.mem_append.mp hmem).resolve_right (hnone _))
    rw [hpending, hclosed]
    exact ⟨hphase hclosing, hcause⟩
  sent := hsent

/-- The task goes on with what the reader has returned. -/
theorem returned (h : Heard fails delivered task.phase endpoint events) {readAction : ReadAction}
    {next : Reader} {result : ReadResult} (hphase : task.phase.isSelecting = true)
    (hread : Reader.step readAction endpoint.inbound = some (next, [result]))
    (hfail : ∀ text, readAction = .fail text → fails text)
    (hend : readAction = .read 0 → endpoint.closed = true)
    (htask : task.Step shared (.readFrame result) shared' task' now) :
    Heard fails delivered task'.phase
      { endpoint with inbound := next, unsent := endpoint.unsent ++ encodeAll (attempts now) }
      (events ++ now) := by
  have hsent := h.sent.perform rfl (by simp) htask next
  rw [← attempts_append] at hsent
  have hsound := (h.sound.step hread).sound
  have hselecting := Phase.eq_selecting hphase
  have hbefore : ∀ error, .readFailed error ∉ events := by
    intro error hmem
    obtain ⟨hclosing, -⟩ := h.failed error hmem
    rw [hselecting] at hclosing
    cases hclosing
  by_cases hio : ∃ text, readAction = .fail text
  · obtain ⟨text, rfl⟩ := hio
    obtain ⟨rfl, rfl⟩ : next = { endpoint.inbound with reading := none } ∧
        result = .error (.io text) := by
      cases Reader.step_cases hread
      exact ⟨rfl, rfl⟩
    obtain ⟨-, hreporting, rfl⟩ := htask.of_readError
    refine ⟨hsound, ?_, ?_, hsent⟩
    · show frameScanner.Scans delivered (receivedFrames (events ++ _)) endpoint.inbound.pending
      rw [receivedFrames_append]
      exact (List.append_nil (receivedFrames events)).symm ▸ h.scans
    · intro error hmem
      obtain rfl : error = .io text := by simpa [hbefore] using hmem
      rw [hreporting]
      exact ⟨rfl, .inl ⟨text, rfl, hfail text rfl⟩⟩
  · have hcall := h.sound.returned (fun text heq => hio ⟨text, heq⟩) hread
    by_cases hframe : ∃ frame, result = .frame frame
    · obtain ⟨frame, rfl⟩ := hframe
      obtain ⟨-, -, rfl⟩ := htask.of_readFrame
      refine ⟨hsound, ?_, ?_, hsent⟩
      · rw [receivedFrames_append]
        exact h.scans.concat (nextFrame_eq_some.mpr hcall)
      · simp [hbefore]
    · have hpending : next.pending = endpoint.inbound.pending := by
        have hsame := referenceCall_snd fun frame heq => hframe ⟨frame, by rwa [hcall] at heq⟩
        rwa [hcall] at hsame
      refine ⟨hsound, ?_, ?_, hsent⟩
      · have hnone : receivedFrames now = [] := by
          cases htask with
          | readFrame _ frame => exact absurd ⟨frame, rfl⟩ hframe
          | _ => rfl
        show frameScanner.Scans delivered _ next.pending
        rw [receivedFrames_append, hnone, List.append_nil, hpending]
        exact h.scans
      · intro error hmem
        obtain ⟨haction, hreporting⟩ :=
          htask.readFailed ((List.mem_append.mp hmem).resolve_left (hbefore error))
        cases haction
        show _ ∧ (_ ∨ (referenceCall next.pending).1 = _ ∧ _)
        rw [hreporting, hpending, hcall]
        refine ⟨rfl, .inr ⟨rfl, ?_⟩⟩
        rintro rfl
        exact hend ((Reader.step_atEnd hread).mp ⟨_, List.mem_singleton_self _, .inr rfl⟩)

theorem step {action : EndpointAction} (h : Heard fails delivered task.phase endpoint events)
    (hio : ∀ text, action = .readError text → fails text)
    (hstep : endpoint.Step shared task action shared' task' endpoint' now) :
    Heard fails delivered task'.phase endpoint' (events ++ now) := by
  cases hstep with
  | wait _ readAction hphase hread hfail hend =>
    refine h.kept (h.sound.step hread).sound (h.sound.waited hread) rfl rfl (by simp) id ?_
    rw [List.append_nil]
    exact h.sent.congr rfl rfl id
  | returned _ readAction hphase hread hfail hend htask =>
    exact h.returned hphase hread (fun text heq => hio text (hfail text heq)) hend
      (Task.step_cases htask)
  | send n hphase hn =>
    refine h.kept h.sound rfl rfl rfl (by simp) id ?_
    rw [List.append_nil]
    exact h.sent.send hphase n
  | task action next hnext hread hwrite htask =>
    have htask := Task.step_cases htask
    have hsent := h.sent.perform rfl hwrite htask next
    rw [← attempts_append] at hsent
    have hreader : next.Sound ∧ next.pending = endpoint.inbound.pending := by
      rcases hnext with rfl | rfl
      · exact ⟨h.sound, rfl⟩
      · exact ⟨⟨Reader.waits_of_not_reading rfl, h.sound.buffer_le⟩, rfl⟩
    exact h.kept hreader.1 hreader.2 rfl (htask.receivedFrames_eq_nil hread)
      (fun error hmem => hread _ (htask.readFailed hmem).1) htask.isClosing hsent

end Heard

/-! ### On the wire -/

/-- The bytes that the peer of a connection delivers. -/
def WireAction.bytes (i : ℕ) : WireAction → Bytes
  | .peer j (.deliver bytes) => if j = i then bytes else []
  | _ => []

def deliveredBytes (i : ℕ) (actions : List WireAction) : Bytes :=
  actions.flatMap (WireAction.bytes i)

theorem WireAction.bytes_eq_nil {i : ℕ} {action : WireAction}
    (h : ∀ peerAction, action ≠ .peer i peerAction) : action.bytes i = [] := by
  cases action with
  | peer j peerAction =>
    have hji : j ≠ i := by
      rintro rfl
      exact h peerAction rfl
    cases peerAction with
    | deliver bytes => exact if_neg hji
    | close => rfl
  | _ => rfl

section wire

variable {fails : String → Prop} {i : ℕ} {w w' : Wire} {out now : List (ℕ × Event)}
  {delivered : Bytes}

theorem Heard.wire_step {action : WireAction}
    (h : Heard fails delivered (w.server.phaseAt i) (w.endpoints i) (project i out))
    (hio : ∀ text, action = .connection i (.readError text) → fails text)
    (hstep : wire.step action w = some (w', now)) :
    Heard fails (delivered ++ action.bytes i) (w'.server.phaseAt i) (w'.endpoints i)
      (project i (out ++ now)) := by
  by_cases hown : ∃ own, action = .connection i own
  · obtain ⟨own, rfl⟩ := hown
    obtain ⟨task, shared, task', endpoint, events, hi, hmove, rfl, rfl⟩ :=
      Wire.step_connection_eq_some hstep
    have hlt := (List.getElem?_eq_some_iff.mp hi).1
    rw [Server.phaseAt_of_task hi] at h
    rw [Server.phaseAt_of_task (List.getElem?_set_self hlt), project_append, project_map_self,
      WireAction.bytes_eq_nil (by simp), List.append_nil]
    simp only [Function.update_self]
    exact h.step (fun text heq => hio text (by rw [heq])) (Endpoint.step_cases hmove)
  · have hcases := Wire.step_cases hstep
    have hother : ∀ own, action ≠ .connection i own := fun own heq => hown ⟨own, heq⟩
    obtain ⟨-, hnone, hendpoint⟩ := hcases.elsewhere hother
    rw [hcases.phaseAt_eq hother, project_append, hnone, List.append_nil]
    by_cases hpeer : ∃ peerAction, action = .peer i peerAction
    · obtain ⟨peerAction, rfl⟩ := hpeer
      have hmove : (w.endpoints i).peerStep peerAction = some (w'.endpoints i) := by
        cases hcases with
        | peer _ _ hmove => simpa using hmove
      rcases Endpoint.peerStep_cases hmove with ⟨bytes, rfl, hopen, hnext⟩ | ⟨rfl, hnext⟩
      · rw [hnext, WireAction.bytes, if_pos rfl]
        exact h.deliver hopen bytes
      · have hnothing : (WireAction.peer i .close).bytes i = [] := rfl
        rw [hnext, hnothing, List.append_nil]
        exact h.close
    · rw [WireAction.bytes_eq_nil fun peerAction heq => hpeer ⟨peerAction, heq⟩, List.append_nil]
      rcases hendpoint with hsame | ⟨peerAction, heq, -⟩
      · rw [hsame]
        exact h
      · exact absurd ⟨peerAction, heq⟩ hpeer

/-- The law of a handler holds in every reachable state. -/
theorem Heard.run {maxConnections : ℕ} {database : Database} {s : Server}
    {actions : List WireAction} (hnew : Server.new maxConnections database = some s)
    (hio : ∀ text, .connection i (.readError text) ∈ actions → fails text)
    (hrun : wire.run actions (Wire.new s) = some (w, out)) :
    Heard fails (deliveredBytes i actions) (w.server.phaseAt i) (w.endpoints i)
      (project i out) := by
  have hmeets := wire.meets_of_forall
    (C := fun action _ => ∀ text, action = .connection i (.readError text) → fails text)
    (fun action hmem _ text heq => hio text (heq ▸ hmem)) (Wire.new s)
  have hstep : ∀ w out past action w' now,
      Heard fails (deliveredBytes i (past.map fun step => step.2.1)) (w.server.phaseAt i)
        (w.endpoints i) (project i out) →
      (∀ text, action = .connection i (.readError text) → fails text) →
      wire.step action w = some (w', now) →
      Heard fails (deliveredBytes i ((past ++ [(w, action, w')]).map fun step => step.2.1))
        (w'.server.phaseAt i) (w'.endpoints i) (project i (out ++ now)) := by
    intro w out past action w' now h hio hstep
    have hsplit : deliveredBytes i ((past ++ [(w, action, w')]).map fun step => step.2.1) =
        deliveredBytes i (past.map fun step => step.2.1) ++ action.bytes i := by
      simp [deliveredBytes]
    rw [hsplit]
    exact h.wire_step hio hstep
  have hbegin : Heard fails
      (deliveredBytes i (([] : List (Wire × WireAction × Wire)).map fun step => step.2.1))
      ((Wire.new s).server.phaseAt i) ((Wire.new s).endpoints i) (project i []) := by
    have hphase : (Wire.new s).server.phaseAt i = .spawned := by
      simp only [Server.phaseAt, Wire.new, (Server.tasks_new hnew).1, List.getElem?_nil]
    rw [hphase]
    exact .new
  have hlaw := wire.run_history_of_meets
    (P := fun w out past => Heard fails (deliveredBytes i (past.map fun step => step.2.1))
      (w.server.phaseAt i) (w.endpoints i) (project i out)) hstep hbegin hmeets hrun
  rwa [List.nil_append, List.nil_append, wire.actions_transitions hrun] at hlaw

end wire

/-- What the handler of a connection has made of the bytes that its peer delivered. -/
structure Understood (i : ℕ) (actions : List WireAction) (endpoint : Endpoint)
    (events : List Event) : Prop where
  /-- The frames received are those at the front of the bytes, each once and in order. -/
  received : frameScanner.Scans (deliveredBytes i actions) (receivedFrames events)
    endpoint.inbound.pending
  front : receivedFrames events <+: (frameScanner.scan (deliveredBytes i actions)).1
  /-- They are parsed and executed one after the other, the last one perhaps not yet. -/
  executed : ∃ waiting, (outcomes events).map Outcome.parsed ++ waiting =
    (receivedFrames events).map Command.fromFrame ∧ waiting.length ≤ 1
  /-- A read fails with the transport, or for the bytes behind all frames. -/
  failed : ∀ error, .readFailed error ∈ events →
    (∃ text, error = .io text ∧ .connection i (.readError text) ∈ actions) ∨
      ∃ left, frameScanner.scan (deliveredBytes i actions) = (receivedFrames events, left) ∧
        (referenceCall left).1 = .error error

/-- What was received has been executed, up to the last frame. -/
theorem ServerTrace.parsed {s : Server} {out : List (ℕ × Event)} (h : ServerTrace s out)
    (i : ℕ) : ∃ waiting, (outcomes (project i out)).map Outcome.parsed ++ waiting =
      (receivedFrames (project i out)).map Command.fromFrame ∧ waiting.length ≤ 1 := by
  obtain ⟨phase, requests, unsent, pending, attempted, hpass⟩ := h.pass i
  refine ⟨pending.map Command.fromFrame, ?_, ?_⟩
  · rw [hpass.parsed_eq, hpass.shows.receivedFrames_eq, ← List.map_append]
  · have hshort := hpass.short
    rw [List.length_map]
    omega

/-- The wire loses, adds and reorders no request: for any chunks, any schedule and whatever
the other connections do, what a handler receives and executes are the frames at the front
of the bytes that its peer has delivered. -/
theorem requests_delivered (maxConnections : ℕ) (database : Database) (s : Server) (w : Wire)
    (actions : List WireAction) (out : List (ℕ × Event))
    (hnew : Server.new maxConnections database = some s)
    (hrun : wire.run actions (Wire.new s) = some (w, out)) (i : ℕ) :
    Understood i actions (w.endpoints i) (project i out) := by
  have hheard := Heard.run (i := i) hnew (fun _ hmem => hmem) hrun
  obtain ⟨serverActions, t, hserver, -⟩ := wire_simulates.run (t := s) rfl hrun
  refine ⟨hheard.scans, ?_, (ServerTrace.run hnew hserver).parsed i, ?_⟩
  · rw [hheard.scans.scan_eq]
    exact List.prefix_append _ _
  · intro error hmem
    obtain ⟨-, hio | ⟨hcall, -⟩⟩ := hheard.failed error hmem
    · exact .inl hio
    · refine .inr ⟨_, hheard.scans.scan_eq_of_none (nextFrame_eq_none fun frame heq => ?_), hcall⟩
      rw [hcall] at heq
      cases heq

/-- `:0\r\n` arrives in two parts, and the handler reads it in two parts. -/
theorem requests_delivered_parts :
    ∃ s w actions out, Server.new 1 .new = some s ∧
      wire.run actions (Wire.new s) = some (w, out) ∧
      deliveredBytes 0 actions = [58, 48, 13, 10] ∧
      receivedFrames (project 0 out) = [.integer 0] ∧
      Understood 0 actions (w.endpoints 0) (project 0 out) := by
  have hmarker : frameDecoder [58, 48] = .incomplete := rfl
  have hframe : frameDecoder [58, 48, 13, 10] = .complete (.integer 0) 4 := rfl
  obtain ⟨s, hnew⟩ : ∃ s, Server.new 1 .new = some s := ⟨_, rfl⟩
  obtain ⟨w, out, hrun, hreceived⟩ : ∃ w out, wire.run
      (.acceptor .run :: admission .acceptor (fun action => .connection 0 (.task action)) ++
        [.peer 0 (.deliver [58, 48]), .connection 0 .poll, .connection 0 (.read 2),
        .peer 0 (.deliver [13, 10]), .connection 0 (.read 2)]) (Wire.new s) = some (w, out) ∧
      receivedFrames (project 0 out) = [.integer 0] := by
    cases hnew
    simp [admission, acceptance, opening, wire, Machine.run, Wire.step, Wire.new, server,
      Server.step, Acceptor.step, Acceptor.goto, Shared.subscribe, Task.step, Task.goto, Task.interpretRead, Endpoint.step,
      Endpoint.new, Endpoint.peerStep, Endpoint.settle, Endpoint.perform, Phase.isSelecting,
      Reader.step, Reader.settle, received, turn_of_incomplete frameDecoder_nil,
      turn_of_incomplete hmarker, turn_of_complete hframe, maxBufferedBytes, receivedFrames,
      project, Event.received?]
  exact ⟨s, w, _, out, hnew, hrun, rfl, hreceived, requests_delivered 1 .new s w _ out hnew hrun 0⟩

end MiniRedis
