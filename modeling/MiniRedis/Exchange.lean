import MiniRedis.Backlog
import MiniRedis.Requester
import MiniRedis.Session

/-!
# One exchange

A connection at rest: its handler waits for a request, and nothing is on its way in either
direction. A request that is delivered then can be answered by the handler alone, and the
connection is at rest again.
-/
namespace MiniRedis

open Library

/-- One task with its endpoint. -/
def endpointMachine : Machine (Shared × Task × Endpoint) EndpointAction Event :=
  ⟨fun action state => match state.2.2.step state.1 state.2.1 action with
    | some (shared, task, endpoint, events) => some ((shared, task, endpoint), events)
    | none => none⟩

section endpoint

variable {shared shared' : Shared} {task task' : Task} {endpoint endpoint' : Endpoint}
  {events : List Event}

theorem endpointMachine_step_eq_some {action : EndpointAction}
    (h : endpointMachine.step action (shared, task, endpoint) =
      some ((shared', task', endpoint'), events)) :
    endpoint.step shared task action = some (shared', task', endpoint', events) := by
  simp only [endpointMachine] at h
  split at h
  · rename_i hstep
    cases h
    exact hstep
  · cases h

/-- The wire can do what one of its connections does alone. -/
theorem wire_run_endpoint {i : ℕ} {actions : List EndpointAction} {w : Wire}
    (hi : w.server.tasks[i]? = some task)
    (hrun : endpointMachine.run actions (w.server.shared, task, w.endpoints i) =
      some ((shared', task', endpoint'), events)) :
    wire.run (actions.map (.connection i ·)) w =
      some (⟨{ w.server with shared := shared', tasks := w.server.tasks.set i task' },
        Function.update w.endpoints i endpoint'⟩, events.map fun event => (i, event)) := by
  induction actions generalizing w task events with
  | nil =>
    cases hrun
    rw [set_getElem?_self hi, Function.update_eq_self]
    rfl
  | cons action actions ih =>
    obtain ⟨⟨shared₁, task₁, endpoint₁⟩, now, later, hstep, hlater, rfl⟩ :=
      endpointMachine.run_cons_eq_some.mp hrun
    have hlt := (List.getElem?_eq_some_iff.mp hi).1
    have hmore := @ih task₁ later ⟨{ w.server with
        shared := shared₁, tasks := w.server.tasks.set i task₁ },
      Function.update w.endpoints i endpoint₁⟩ (List.getElem?_set_self hlt)
      (by simpa only [Function.update_self] using hlater)
    rw [List.set_set, Function.update_idem] at hmore
    exact wire.run_cons_eq_some.mpr ⟨_, _, _,
      Wire.step_connection hi (endpointMachine_step_eq_some hstep), hmore, List.map_append⟩

/-- The handler reads the request. -/
theorem Endpoint.run_read (shared : Shared) {frame : Frame} (hframe : Deliverable frame)
    (shutdownRx number : ℕ) (closed : Bool) (sent : Bytes) :
    endpointMachine.run [.poll, .read (encode frame).length]
      (shared, ⟨.selecting, shutdownRx, number⟩, ⟨⟨encode frame, [], none⟩, closed, sent, []⟩) =
      some ((shared, ⟨.received frame, shutdownRx, number + 1⟩, ⟨⟨[], [], none⟩, closed, sent, []⟩),
        [.received (number + 1) frame]) := by
  have hpoll : endpointMachine.step .poll
      (shared, ⟨.selecting, shutdownRx, number⟩, ⟨⟨encode frame, [], none⟩, closed, sent, []⟩) =
      some ((shared, ⟨.selecting, shutdownRx, number⟩,
        ⟨⟨encode frame, [], some maxBufferedBytes⟩, closed, sent, []⟩), []) := by
    simp only [endpointMachine, step, Phase.isSelecting, if_true, Reader.step_call_empty, settle]
  have hread : endpointMachine.step (.read (encode frame).length)
      (shared, ⟨.selecting, shutdownRx, number⟩,
        ⟨⟨encode frame, [], some maxBufferedBytes⟩, closed, sent, []⟩) =
      some ((shared, ⟨.received frame, shutdownRx, number + 1⟩,
        ⟨⟨[], [], none⟩, closed, sent, []⟩), [.received (number + 1) frame]) := by
    simp only [endpointMachine]
    rw [step_read_all hframe rfl rfl rfl]
  exact endpointMachine.run_cons_eq_some.mpr
    ⟨_, _, _, hpoll, endpointMachine.run_singleton hread, rfl⟩

/-- The transport fails while the handler waits, and the handler begins its report. -/
theorem Endpoint.run_fail (shared : Shared) (text : String) (shutdownRx number : ℕ)
    (closed : Bool) (sent : Bytes) :
    endpointMachine.run [.poll, .readError text]
      (shared, ⟨.selecting, shutdownRx, number⟩, ⟨⟨[], [], none⟩, closed, sent, []⟩) =
      some ((shared, ⟨.reporting (.io text), shutdownRx, number⟩,
        ⟨⟨[], [], none⟩, closed, sent, encode (.error text)⟩),
        [.readFailed (.io text), .attempted (.error text)]) := by
  simp [Machine.run, endpointMachine, step, Phase.isSelecting, turn_nil, Reader.settle, settle,
    Reader.step, perform, Task.step, Task.interpretRead, Task.goto, ReadError.display, attempts,
    List.filterMap_cons, Event.attempt?, encodeAll]

/-- The transport takes the reply, and the handler waits for the next request. -/
theorem Endpoint.run_reply (shared : Shared) (output : Frame) (shutdownRx number : ℕ)
    (inbound : Reader) (closed : Bool) (sent : Bytes) :
    endpointMachine.run [.send (encode output).length, .task .writeOk, .task .countResponse]
      (shared, ⟨.replying output, shutdownRx, number⟩, ⟨inbound, closed, sent, encode output⟩) =
      some (({ shared with metrics := shared.metrics.incCommandResponsesWritten },
        ⟨.selecting, shutdownRx, number⟩,
        ⟨{ inbound with reading := none }, closed, sent ++ encode output, []⟩),
        [.written number output]) := by
  simp [Machine.run, endpointMachine, step, perform, Task.step, Task.goto, Phase.isWriting,
    attempts, encodeAll, Event.attempt?, List.filterMap_cons]

/-- The handler executes a request that it has read, and begins to reply. -/
theorem Endpoint.run_execute (request : Request) (shutdownRx number : ℕ) (closed : Bool)
    (sent : Bytes)
    (hreply : request.outcome.reply = (respond request.frame shared.database).1) :
    ∃ actions shared', (∀ action ∈ actions, EndpointAction.Undisturbed action) ∧
      endpointMachine.run actions (shared, ⟨.received request.frame, shutdownRx, number⟩,
          ⟨⟨[], [], none⟩, closed, sent, []⟩) =
        some ((shared', ⟨.replying request.outcome.reply, shutdownRx, number⟩,
          ⟨⟨[], [], none⟩, closed, sent, encode request.outcome.reply⟩),
          [request.outcome.event number, .attempted request.outcome.reply]) ∧
      shared'.database = (respond request.frame shared.database).2 := by
  obtain ⟨frame, outcome, hparse⟩ := request
  simp only at hreply ⊢
  cases outcome with
  | rejected error =>
    have hframe : Command.fromFrame frame = .error error := hparse
    refine ⟨[.task .count, .task .execute],
      { shared with metrics := shared.metrics.incRequestsReceived.incCommandParseErrors },
      by simp [EndpointAction.Undisturbed, TaskAction.Undisturbed], ?_, ?_⟩
    · simp [Machine.run, endpointMachine, step, perform, Task.step, Task.goto, Task.execute,
        hframe, attempts, encodeAll, Event.attempt?, List.filterMap_cons, Outcome.reply,
        Outcome.event]
    · simp [respond, hframe]
  | applied command reply =>
    have hframe : Command.fromFrame frame = .ok command := hparse
    rw [respond_of_ok hframe] at hreply ⊢
    obtain rfl : reply = (command.apply shared.database).1 := hreply
    cases command with
    | get command =>
      refine ⟨[.task .count, .task .execute, .task .countLookup],
        { shared with
          metrics := Task.countLookup shared.metrics.incRequestsReceived
            ((Command.get command).apply shared.database).1 },
        by simp [EndpointAction.Undisturbed, TaskAction.Undisturbed], ?_,
        (Command.apply_get_snd command shared.database).symm⟩
      simp [Machine.run, endpointMachine, step, perform, Task.step, Task.goto, Task.execute,
        hframe, attempts, encodeAll, Event.attempt?, List.filterMap_cons, Outcome.reply,
        Outcome.event, Command.apply_get_snd]
    | set command =>
      refine ⟨[.task .count, .task .execute],
        { shared with
          database := shared.database.set command.key command.value
          metrics := shared.metrics.incRequestsReceived },
        by simp [EndpointAction.Undisturbed, TaskAction.Undisturbed], ?_, rfl⟩
      simp [Machine.run, endpointMachine, step, perform, Task.step, Task.goto, Task.execute,
        hframe, attempts, encodeAll, Event.attempt?, List.filterMap_cons, Outcome.reply,
        Outcome.event, Command.apply]

/-- The handler serves a request that is in flight. -/
theorem Endpoint.run_serve (request : Request) (hframe : Deliverable request.frame)
    (shutdownRx number : ℕ) (closed : Bool) (sent : Bytes)
    (hreply : request.outcome.reply = (respond request.frame shared.database).1) :
    ∃ actions shared', (∀ action ∈ actions, EndpointAction.Undisturbed action) ∧
      endpointMachine.run actions (shared, ⟨.selecting, shutdownRx, number⟩,
          ⟨⟨encode request.frame, [], none⟩, closed, sent, []⟩) =
        some ((shared', ⟨.selecting, shutdownRx, number + 1⟩,
          ⟨⟨[], [], none⟩, closed, sent ++ encode request.outcome.reply, []⟩),
          request.served (number + 1)) ∧
      shared'.database = (respond request.frame shared.database).2 := by
  obtain ⟨actions, shared', hundisturbed, hexecute, hdatabase⟩ :=
    run_execute request shutdownRx (number + 1) closed sent hreply
  have hread := run_read shared hframe shutdownRx number closed sent
  have hsend := run_reply shared' request.outcome.reply shutdownRx (number + 1) ⟨[], [], none⟩
    closed sent
  refine ⟨_, _, ?_, endpointMachine.run_append.mpr ⟨_, _, _, hread,
    endpointMachine.run_append.mpr ⟨_, _, _, hexecute, hsend, rfl⟩, rfl⟩, hdatabase⟩
  simp only [List.cons_append, List.nil_append, List.mem_cons, List.mem_append, List.not_mem_nil,
    or_false]
  rintro action (rfl | rfl | hmem | rfl | rfl | rfl)
  · exact trivial
  · exact trivial
  · exact hundisturbed action hmem
  · exact trivial
  · exact trivial
  · exact trivial

end endpoint

/-! ### On the wire -/

/-- The peer of a connection closes its side. -/
def Wire.close (w : Wire) (i : ℕ) : Wire :=
  { w with endpoints := Function.update w.endpoints i { w.endpoints i with closed := true } }

/-- The request of a call, with the outcome that it has on this database. -/
def Call.request (call : Call) (database : Database) : Request :=
  ⟨call.commandFrame, .applied call.command (call.command.apply database).1,
    call.fromFrame_commandFrame⟩

/-- The peer of a connection delivers these bytes. -/
def Wire.deliver (w : Wire) (i : ℕ) (bytes : Bytes) : Wire :=
  { w with
    endpoints := Function.update w.endpoints i
      { w.endpoints i with inbound := (w.endpoints i).inbound.deliver bytes } }

/-- The handler of a connection waits for a request, and these bytes of it are in flight. -/
structure Wire.Waits (w : Wire) (i : ℕ) (stream : Bytes) (number : ℕ) (sent : Bytes) : Prop where
  task : ∃ shutdownRx, w.server.tasks[i]? = some ⟨.selecting, shutdownRx, number⟩
  endpoint : w.endpoints i = ⟨⟨stream, [], none⟩, false, sent, []⟩

/-- The command that a served call has applied. -/
theorem Call.applied_mem_served {call : Call} {database : Database} {number k : ℕ}
    {command : Command} {reply : Frame} :
    .applied k command reply ∈ (call.request database).served number ↔
      k = number ∧ command = call.command ∧ reply = (call.command.apply database).1 := by
  simp [Request.served, Request.attempted, Request.executed, Outcome.event, request]

/-- The handler and the bytes of a connection are as they were. -/
def Wire.Alike (w w' : Wire) (i : ℕ) : Prop :=
  w'.server.tasks[i]? = w.server.tasks[i]? ∧ w'.endpoints i = w.endpoints i

namespace Wire

variable {w w' : Wire} {i j : ℕ} {stream sent : Bytes} {number : ℕ}

theorem Waits.alike (h : w.Waits j stream number sent) (hsame : w.Alike w' j) :
    w'.Waits j stream number sent where
  task := by
    rw [hsame.1]
    exact h.task
  endpoint := by
    rw [hsame.2]
    exact h.endpoint

theorem Alike.trans {w'' : Wire} (h : w.Alike w' i) (h' : w'.Alike w'' i) : w.Alike w'' i :=
  ⟨h'.1.trans h.1, h'.2.trans h.2⟩

theorem alike_deliver (hji : j ≠ i) (bytes : Bytes) : w.Alike (w.deliver i bytes) j :=
  ⟨rfl, Function.update_of_ne hji _ _⟩

/-- The peer delivers a request. -/
theorem Waits.deliver (h : w.Waits i [] number sent) (bytes : Bytes) :
    Waits (w.deliver i bytes) i bytes number sent where
  task := h.task
  endpoint := by simp [Wire.deliver, h.endpoint, Reader.deliver]

/-- The handler serves the request in flight alone, and waits again. -/
theorem Waits.serve (request : Request) (hframe : Deliverable request.frame)
    (h : w.Waits i (encode request.frame) number sent)
    (hreply : request.outcome.reply = (respond request.frame w.server.shared.database).1) :
    ∃ (actions : List EndpointAction) (w' : Wire),
      (∀ action ∈ actions, EndpointAction.Undisturbed action) ∧
      wire.run (actions.map (.connection i ·)) w =
        some (w', (request.served (number + 1)).map fun event => (i, event)) ∧
      w'.Waits i [] (number + 1) (sent ++ encode request.outcome.reply) ∧
      w'.server.shared.database = (respond request.frame w.server.shared.database).2 ∧
      ∀ j, j ≠ i → w.Alike w' j := by
  obtain ⟨shutdownRx, hi⟩ := h.task
  have hlt := (List.getElem?_eq_some_iff.mp hi).1
  obtain ⟨actions, shared', hundisturbed, hrun, hdatabase⟩ :=
    Endpoint.run_serve request hframe shutdownRx number false sent hreply
  rw [← h.endpoint] at hrun
  refine ⟨actions, _, hundisturbed, wire_run_endpoint hi hrun, ⟨⟨shutdownRx, ?_⟩, ?_⟩, hdatabase,
    fun j hji => ⟨?_, ?_⟩⟩
  · exact List.getElem?_set_self hlt
  · exact Function.update_self _ _ _
  · exact List.getElem?_set_ne hji.symm
  · exact Function.update_of_ne hji _ _

/-- The handler serves the request of a call that is in flight. -/
theorem Waits.serve_call {call : Call} (hfits : call.Fits)
    (h : w.Waits i (encode call.commandFrame) number sent) :
    ∃ (actions : List EndpointAction) (w' : Wire),
      (∀ action ∈ actions, EndpointAction.Undisturbed action) ∧
      wire.run (actions.map (.connection i ·)) w =
        some (w', ((call.request w.server.shared.database).served (number + 1)).map
          fun event => (i, event)) ∧
      w'.Waits i [] (number + 1)
        (sent ++ encode (call.command.apply w.server.shared.database).1) ∧
      w'.server.shared.database = (call.command.apply w.server.shared.database).2 ∧
      ∀ j, j ≠ i → w.Alike w' j := by
  have hrespond := respond_of_ok call.fromFrame_commandFrame w.server.shared.database
  have hserve := h.serve (call.request w.server.shared.database) hfits.deliverable
    (congrArg Prod.fst hrespond).symm
  simp only [Call.request] at hserve
  rwa [hrespond] at hserve

/-- An open peer delivers. -/
theorem step_peer_deliver (hopen : (w.endpoints i).closed = false) (bytes : Bytes) :
    wire.step (.peer i (.deliver bytes)) w = some (w.deliver i bytes, []) := by
  have hpeer : (w.endpoints i).peerStep (.deliver bytes) =
      some { w.endpoints i with inbound := (w.endpoints i).inbound.deliver bytes } :=
    if_neg (Bool.eq_false_iff.mp hopen)
  simp only [wire, step, hpeer]
  rfl

/-- An open peer delivers for the last time. -/
theorem run_deliver_close (hopen : (w.endpoints i).closed = false) (bytes : Bytes) :
    wire.run [.peer i (.deliver bytes), .peer i .close] w =
      some ((w.deliver i bytes).close i, []) :=
  wire.run_cons_eq_some.mpr ⟨_, _, _, step_peer_deliver hopen bytes, wire.run_singleton rfl, rfl⟩

/-- The peer of a connection at rest asks for a command, and the handler serves it alone. -/
theorem Waits.ask {call : Call} (hfits : call.Fits) (h : w.Waits i [] number sent) :
    ∃ (actions : List EndpointAction) (w' : Wire),
      (∀ action ∈ actions, EndpointAction.Undisturbed action) ∧
      wire.run (.peer i (.deliver (encode call.commandFrame)) :: actions.map (.connection i ·)) w =
        some (w', ((call.request w.server.shared.database).served (number + 1)).map
          fun event => (i, event)) ∧
      w'.Waits i [] (number + 1)
        (sent ++ encode (call.command.apply w.server.shared.database).1) ∧
      w'.server.shared.database = (call.command.apply w.server.shared.database).2 ∧
      ∀ j, j ≠ i → w.Alike w' j := by
  have hopen : (w.endpoints i).closed = false := by rw [h.endpoint]
  obtain ⟨actions, w', hundisturbed, hrun, hagain, hdatabase, hothers⟩ :=
    (h.deliver (encode call.commandFrame)).serve_call hfits
  refine ⟨actions, w', hundisturbed, wire.run_cons_eq_some.mpr
    ⟨_, _, _, step_peer_deliver hopen _, hrun, rfl⟩, hagain, hdatabase, fun j hji => ?_⟩
  exact (alike_deliver hji _).trans (hothers j hji)

/-- The acceptor runs, and accepts this many connections before their peers deliver. -/
def opened (count : ℕ) : List WireAction :=
  .acceptor .run :: (List.range count).flatMap fun i =>
    admission .acceptor fun action => .connection i (.task action)

theorem of_mem_opened {action : WireAction} {count : ℕ} (h : action ∈ opened count) :
    (∃ own, action = .acceptor own) ∨
      ∃ (i : ℕ) (own : EndpointAction), action = .connection i own ∧ own.Undisturbed := by
  rcases List.mem_cons.mp h with rfl | hmem
  · exact .inl ⟨_, rfl⟩
  · obtain ⟨i, -, hmem⟩ := List.mem_flatMap.mp hmem
    rcases List.mem_append.mp hmem with hmem | hmem
    · obtain ⟨own, -, rfl⟩ := List.mem_map.mp hmem
      exact .inl ⟨own, rfl⟩
    · obtain ⟨own, hopening, rfl⟩ := List.mem_map.mp hmem
      refine .inr ⟨i, .task own, rfl, ?_⟩
      simp only [opening, List.mem_cons, List.not_mem_nil, or_false] at hopening
      rcases hopening with rfl | rfl
      · exact rfl
      · exact trivial

/-- The connections that are accepted first wait for their requests. -/
structure Opened (database : Database) (count permits : ℕ) (w : Wire) : Prop where
  phase : w.server.acceptor.phase = .acquiring
  length : w.server.tasks.length = count
  permits : w.server.shared.permits = permits
  database : w.server.shared.database = database
  endpoints : w.endpoints = fun _ => .new
  waits : ∀ i, i < count → w.Waits i [] 0 []

theorem Opened.admit {database : Database} {count permits : ℕ}
    (h : Opened database count (permits + 1) w) :
    Opened database (count + 1) permits { w with server := w.server.admitted } where
  phase := h.phase
  length := by simp [Server.admitted, h.length]
  permits := by simp [Server.admitted, h.permits]
  database := h.database
  endpoints := h.endpoints
  waits i hi := by
    have hlength := h.length
    rcases Nat.lt_succ_iff_lt_or_eq.mp hi with hbefore | rfl
    · obtain ⟨⟨shutdownRx, htask⟩, hendpoint⟩ := h.waits i hbefore
      refine ⟨⟨shutdownRx, ?_⟩, hendpoint⟩
      simp only [Server.admitted]
      rw [List.getElem?_append_left (by omega)]
      exact htask
    · refine ⟨⟨w.server.shared.subscribe, ?_⟩, congrFun h.endpoints i⟩
      subst hlength
      exact List.getElem?_concat_length

theorem run_opened {maxConnections : ℕ} {database : Database} {s : Server} (count : ℕ)
    (hnew : Server.new maxConnections database = some s) (hcount : count ≤ maxConnections) :
    ∃ w, wire.run (opened count) (Wire.new s) = some (w, []) ∧
      Opened database count (maxConnections - count) w := by
  induction count with
  | zero =>
    obtain ⟨-, hs⟩ := Option.ite_none_right_eq_some.mp hnew
    obtain rfl := Option.some.inj hs
    exact ⟨_, rfl, rfl, rfl, rfl, rfl, rfl, fun i hi => absurd hi (Nat.not_lt_zero i)⟩
  | succ count ih =>
    obtain ⟨w, hrun, hopened⟩ := ih (Nat.le_of_succ_le hcount)
    rw [show maxConnections - count = maxConnections - (count + 1) + 1 by omega] at hopened
    have hadmit := Wire.run_admission hopened.length.symm hopened.phase
      (by rw [hopened.permits]; omega) (congrFun hopened.endpoints count)
    have hactions : opened (count + 1) = opened count ++
        admission .acceptor fun action => .connection count (.task action) := by
      simp [opened, List.range_succ]
    rw [hactions]
    exact ⟨_, wire.run_append.mpr ⟨_, _, _, hrun, hadmit, rfl⟩, hopened.admit⟩

end Wire

end MiniRedis
