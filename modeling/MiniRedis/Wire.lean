import Mathlib.Logic.Function.Basic
import MiniRedis.Frame.Encoding
import MiniRedis.Trace

/-!
# Connections on the wire

The server together with the bytes of its connections. A handler reads with the
buffered reader, a part of the bytes in flight at a time, and the transport takes
the encoding of a frame in parts while `write_frame` is awaited. Every run on the
wire is a run of the server with the same events.
-/
namespace MiniRedis

open Library

theorem encodeAll_append (l r : List Frame) : encodeAll (l ++ r) = encodeAll l ++ encodeAll r := by
  induction l with
  | nil => rfl
  | cons frame l ih => simp [encodeAll, ih]

/-- The handler's side of a connection. -/
structure Endpoint where
  /-- The bytes in flight to the handler, its buffer, and the read it waits for. -/
  inbound : Reader
  /-- The peer sends nothing more. -/
  closed : Bool
  /-- The bytes that the transport has taken. -/
  sent : Bytes
  /-- The bytes that `write_frame` was to write and the transport has not taken. -/
  unsent : Bytes

/-- What the peer does. -/
inductive PeerAction where
  | deliver (bytes : Bytes)
  | close

inductive EndpointAction where
  /-- `select!` polls `read_frame` for the first time. -/
  | poll
  /-- The awaited read delivers `n` bytes. -/
  | read (n : ℕ)
  | readError (text : String)
  /-- The transport takes `n` bytes of the awaited write. -/
  | send (n : ℕ)
  /-- Any other step of the task. -/
  | task (action : TaskAction)

/-- No failure of the transport, timeout, shutdown or cancellation. -/
def EndpointAction.Undisturbed : EndpointAction → Prop
  | .readError _ => False
  | .task action => action.Undisturbed
  | _ => True

/-- The loop awaits its `select!`. -/
def Phase.isSelecting : Phase → Bool
  | .selecting => true
  | _ => false

theorem Phase.eq_selecting {phase : Phase} (h : phase.isSelecting = true) :
    phase = .selecting := by
  cases phase <;> first | rfl | cases h

/-- The task awaits `write_frame`. -/
def Phase.isWriting : Phase → Bool
  | .replying _ => true
  | .reporting _ => true
  | _ => false

namespace Endpoint

def new : Endpoint := ⟨⟨[], [], none⟩, false, [], []⟩

/-- A peer that has closed its side delivers nothing. -/
def peerStep (endpoint : Endpoint) : PeerAction → Option Endpoint
  | .deliver bytes =>
    if endpoint.closed then none
    else some { endpoint with
      inbound := { endpoint.inbound with stream := endpoint.inbound.stream ++ bytes } }
  | .close => some { endpoint with closed := true }

/-- A step of the task; `write_frame` starts with the encoding of its frame. -/
def perform (shared : Shared) (task : Task) (endpoint : Endpoint) (action : TaskAction) :
    Option (Shared × Task × Endpoint × List Event) :=
  match task.step shared action with
  | some (shared, task, events) =>
    some (shared, task,
      { endpoint with unsent := endpoint.unsent ++ encodeAll (attempts events) }, events)
  | none => none

/-- The reader waits on, or returns a result to the task. -/
def settle (shared : Shared) (task : Task) (endpoint : Endpoint) :
    Option (Reader × List ReadResult) → Option (Shared × Task × Endpoint × List Event)
  | some (inbound, []) => some (shared, task, { endpoint with inbound }, [])
  | some (inbound, [result]) =>
    perform shared task { endpoint with inbound } (.readFrame result)
  | _ => none

def step (shared : Shared) (task : Task) (endpoint : Endpoint) :
    EndpointAction → Option (Shared × Task × Endpoint × List Event)
  | .poll =>
    if task.phase.isSelecting then
      settle shared task endpoint (Reader.step .call endpoint.inbound)
    else none
  | .read n =>
    if task.phase.isSelecting ∧ (n = 0 → endpoint.closed) then
      settle shared task endpoint (Reader.step (.read n) endpoint.inbound)
    else none
  | .readError text =>
    if task.phase.isSelecting then
      settle shared task endpoint (Reader.step (.fail text) endpoint.inbound)
    else none
  | .send n =>
    if task.phase.isWriting ∧ n ≤ endpoint.unsent.length then
      some (shared, task,
        { endpoint with
          sent := endpoint.sent ++ endpoint.unsent.take n
          unsent := endpoint.unsent.drop n }, [])
    else none
  | .task (.readFrame _) => none
  | .task .writeOk =>
    if endpoint.unsent = [] then perform shared task endpoint .writeOk else none
  -- Leaving the `select!` drops the future of `read_frame`.
  | .task action =>
    perform shared task { endpoint with inbound := { endpoint.inbound with reading := none } } action

end Endpoint

/-- The server and the endpoints of its connections, also of those still pending. -/
structure Wire where
  server : Server
  endpoints : ℕ → Endpoint

inductive WireAction where
  | acceptor (action : AcceptorAction)
  | caller (action : CallerAction)
  | peer (i : ℕ) (action : PeerAction)
  | connection (i : ℕ) (action : EndpointAction)

namespace Wire

def new (server : Server) : Wire := ⟨server, fun _ => .new⟩

def step (action : WireAction) (w : Wire) : Option (Wire × List (ℕ × Event)) :=
  match action with
  | .acceptor action =>
    match MiniRedis.server.step (.acceptor action) w.server with
    | some (server, out) => some ({ w with server }, out)
    | none => none
  | .caller action =>
    match MiniRedis.server.step (.caller action) w.server with
    | some (server, out) => some ({ w with server }, out)
    | none => none
  | .peer i action =>
    match (w.endpoints i).peerStep action with
    | some endpoint => some ({ w with endpoints := Function.update w.endpoints i endpoint }, [])
    | none => none
  | .connection i action =>
    match w.server.tasks[i]? with
    | some task =>
      match (w.endpoints i).step w.server.shared task action with
      | some (shared, task, endpoint, events) =>
        some (⟨{ w.server with shared, tasks := w.server.tasks.set i task },
          Function.update w.endpoints i endpoint⟩, events.map fun event => (i, event))
      | none => none
    | none => none

end Wire

/-- All interleavings of the server, the transports and the peers. -/
def wire : Machine Wire WireAction (ℕ × Event) := ⟨Wire.step⟩

/-! ### What a step on the wire can do -/

/-- Everything a step of an endpoint with its task can do. -/
inductive Endpoint.Step (shared : Shared) (task : Task) (endpoint : Endpoint) :
    EndpointAction → Shared → Task → Endpoint → List Event → Prop
  /-- The reader waits for more. -/
  | wait (action : EndpointAction) (readAction : ReadAction) {next : Reader}
    (hphase : task.phase.isSelecting = true)
    (hread : Reader.step readAction endpoint.inbound = some (next, []))
    (hfail : ∀ text, readAction = .fail text → action = .readError text)
    (hend : readAction = .read 0 → endpoint.closed = true) :
    Step shared task endpoint action shared task { endpoint with inbound := next } []
  /-- The reader returns to the task. -/
  | returned (action : EndpointAction) (readAction : ReadAction) {next : Reader}
    {result : ReadResult} {shared' : Shared} {task' : Task} {events : List Event}
    (hphase : task.phase.isSelecting = true)
    (hread : Reader.step readAction endpoint.inbound = some (next, [result]))
    (hfail : ∀ text, readAction = .fail text → action = .readError text)
    (hend : readAction = .read 0 → endpoint.closed = true)
    (htask : task.step shared (.readFrame result) = some (shared', task', events)) :
    Step shared task endpoint action shared' task'
      { endpoint with inbound := next, unsent := endpoint.unsent ++ encodeAll (attempts events) }
      events
  | send (n : ℕ) (hphase : task.phase.isWriting = true) (hn : n ≤ endpoint.unsent.length) :
    Step shared task endpoint (.send n) shared task
      { endpoint with
        sent := endpoint.sent ++ endpoint.unsent.take n
        unsent := endpoint.unsent.drop n } []
  | task (action : TaskAction) (next : Reader)
    (hnext : next = endpoint.inbound ∨ next = { endpoint.inbound with reading := none })
    (hread : ∀ result, action ≠ .readFrame result)
    (hwrite : action = .writeOk → endpoint.unsent = []) {shared' : Shared} {task' : Task}
    {events : List Event} (htask : task.step shared action = some (shared', task', events)) :
    Step shared task endpoint (.task action) shared' task'
      { endpoint with inbound := next, unsent := endpoint.unsent ++ encodeAll (attempts events) }
      events

namespace Endpoint

variable {shared shared' : Shared} {task task' : Task} {endpoint endpoint' : Endpoint}
  {events : List Event}

theorem perform_eq_some {action : TaskAction}
    (h : perform shared task endpoint action = some (shared', task', endpoint', events)) :
    task.step shared action = some (shared', task', events) ∧
      endpoint' = { endpoint with unsent := endpoint.unsent ++ encodeAll (attempts events) } := by
  unfold perform at h
  split at h
  · rename_i hstep
    cases h
    exact ⟨hstep, rfl⟩
  · cases h

/-- What a peer does: it adds to the stream, or closes its side. -/
theorem peerStep_cases {action : PeerAction} (h : endpoint.peerStep action = some endpoint') :
    (∃ bytes, action = .deliver bytes ∧ endpoint.closed = false ∧ endpoint' = { endpoint with
        inbound := { endpoint.inbound with stream := endpoint.inbound.stream ++ bytes } }) ∨
      action = .close ∧ endpoint' = { endpoint with closed := true } := by
  cases action with
  | deliver bytes =>
    simp only [peerStep] at h
    split at h
    · cases h
    · rename_i hopen
      exact .inl ⟨bytes, rfl, Bool.eq_false_iff.mpr hopen, (Option.some.inj h).symm⟩
  | close => exact .inr ⟨rfl, (Option.some.inj h).symm⟩

theorem settle_cases {action : EndpointAction} {readAction : ReadAction}
    (hphase : task.phase.isSelecting = true)
    (hfail : ∀ text, readAction = .fail text → action = .readError text)
    (hend : readAction = .read 0 → endpoint.closed = true)
    (h : settle shared task endpoint (Reader.step readAction endpoint.inbound) =
      some (shared', task', endpoint', events)) :
    Step shared task endpoint action shared' task' endpoint' events := by
  rcases hread : Reader.step readAction endpoint.inbound with _ | ⟨next, _ | ⟨result, _ | more⟩⟩
  · rw [hread] at h
    cases h
  · rw [hread] at h
    cases h
    exact .wait action readAction hphase hread hfail hend
  · rw [hread] at h
    obtain ⟨htask, rfl⟩ := perform_eq_some h
    exact .returned action readAction hphase hread hfail hend htask
  · rw [hread] at h
    cases h

theorem step_cases {action : EndpointAction}
    (h : step shared task endpoint action = some (shared', task', endpoint', events)) :
    Step shared task endpoint action shared' task' endpoint' events := by
  cases action with
  | poll =>
    simp only [step] at h
    split at h
    · rename_i hphase
      exact settle_cases hphase (by simp) (by simp) h
    · cases h
  | read n =>
    simp only [step] at h
    split at h
    · rename_i hphase
      exact settle_cases hphase.1 (by simp) (by simpa using hphase.2) h
    · cases h
  | readError text =>
    simp only [step] at h
    split at h
    · rename_i hphase
      exact settle_cases hphase (by simp) (by simp) h
    · cases h
  | send n =>
    simp only [step] at h
    split at h
    · rename_i hphase
      cases h
      exact .send n hphase.1 hphase.2
    · cases h
  | task action =>
    cases action with
    | readFrame result => cases h
    | writeOk =>
      simp only [step] at h
      split at h
      · rename_i hunsent
        obtain ⟨htask, rfl⟩ := perform_eq_some h
        exact .task .writeOk endpoint.inbound (.inl rfl) (by simp) (fun _ => hunsent) htask
      · cases h
    | _ =>
      obtain ⟨htask, rfl⟩ := perform_eq_some h
      exact .task _ _ (.inr rfl) (by simp) (by simp) htask

theorem Step.closed_eq {action : EndpointAction}
    (h : Step shared task endpoint action shared' task' endpoint' events) :
    endpoint'.closed = endpoint.closed := by
  cases h <;> rfl

/-- What a step hands to the transport is the front of what the handler owes. -/
theorem Step.sent_eq {action : EndpointAction}
    (h : Step shared task endpoint action shared' task' endpoint' events) :
    ∃ bytes, endpoint'.sent = endpoint.sent ++ bytes ∧
      endpoint.unsent ++ encodeAll (attempts events) = bytes ++ endpoint'.unsent := by
  have hnothing : encodeAll (attempts []) = [] := rfl
  cases h with
  | send n hphase hn =>
    refine ⟨_, rfl, ?_⟩
    rw [hnothing, List.append_nil]
    exact (List.take_append_drop n _).symm
  | _ => exact ⟨[], (List.append_nil _).symm, by simp [hnothing]⟩

end Endpoint

namespace Wire

/-- Everything a step on the wire can do. -/
inductive Step (w : Wire) : WireAction → Wire → List (ℕ × Event) → Prop
  | acceptor (action : AcceptorAction) {server : Server} {out : List (ℕ × Event)}
    (h : MiniRedis.server.step (.acceptor action) w.server = some (server, out)) :
    Step w (.acceptor action) { w with server } out
  | caller (action : CallerAction) {server : Server} {out : List (ℕ × Event)}
    (h : MiniRedis.server.step (.caller action) w.server = some (server, out)) :
    Step w (.caller action) { w with server } out
  | peer (i : ℕ) (action : PeerAction) {endpoint : Endpoint}
    (h : (w.endpoints i).peerStep action = some endpoint) :
    Step w (.peer i action) { w with endpoints := Function.update w.endpoints i endpoint } []
  | connection (i : ℕ) (action : EndpointAction) {task task' : Task} {shared : Shared}
    {endpoint : Endpoint} {events : List Event} (hi : w.server.tasks[i]? = some task)
    (h : (w.endpoints i).Step w.server.shared task action shared task' endpoint events) :
    Step w (.connection i action)
      ⟨{ w.server with shared, tasks := w.server.tasks.set i task' },
        Function.update w.endpoints i endpoint⟩ (events.map fun event => (i, event))

/-- A step of a connection, as its endpoint takes it. -/
theorem step_connection_eq_some {w w' : Wire} {i : ℕ} {action : EndpointAction}
    {out : List (ℕ × Event)} (h : wire.step (.connection i action) w = some (w', out)) :
    ∃ task shared task' endpoint events, w.server.tasks[i]? = some task ∧
      (w.endpoints i).step w.server.shared task action = some (shared, task', endpoint, events) ∧
      w' = ⟨{ w.server with shared, tasks := w.server.tasks.set i task' },
        Function.update w.endpoints i endpoint⟩ ∧
      out = events.map fun event => (i, event) := by
  simp only [wire, step] at h
  split at h
  · rename_i task hi
    split at h
    · rename_i shared task' endpoint events hstep
      cases h
      exact ⟨task, shared, task', endpoint, events, hi, hstep, rfl, rfl⟩
    · cases h
  · cases h

theorem step_cases {w w' : Wire} {action : WireAction} {out : List (ℕ × Event)}
    (h : wire.step action w = some (w', out)) : Step w action w' out := by
  cases action with
  | acceptor action =>
    simp only [wire, step] at h
    split at h
    · rename_i hstep
      cases h
      exact .acceptor action hstep
    · cases h
  | caller action =>
    simp only [wire, step] at h
    split at h
    · rename_i hstep
      cases h
      exact .caller action hstep
    · cases h
  | peer i action =>
    simp only [wire, step] at h
    split at h
    · rename_i hstep
      cases h
      exact .peer i action hstep
    · cases h
  | connection i action =>
    obtain ⟨task, shared, task', endpoint, events, hi, hstep, rfl, rfl⟩ :=
      step_connection_eq_some h
    exact .connection i action hi (Endpoint.step_cases hstep)

/-- What the others do leaves a connection alone, up to its peer, and shows nothing of it. -/
theorem Step.elsewhere {w w' : Wire} {i : ℕ} {action : WireAction} {out : List (ℕ × Event)}
    (h : w.Step action w' out) (hother : ∀ own, action ≠ .connection i own) :
    (∀ task, w.server.tasks[i]? = some task → w'.server.tasks[i]? = some task) ∧
      project i out = [] ∧
      (w'.endpoints i = w.endpoints i ∨ ∃ peerAction, action = .peer i peerAction ∧
        (w.endpoints i).peerStep peerAction = some (w'.endpoints i)) := by
  cases h with
  | acceptor action hact =>
    obtain ⟨hkept, hnone⟩ := (Server.step_cases hact).elsewhere (i := i) (by simp)
    exact ⟨hkept, hnone, .inl rfl⟩
  | caller action hcall =>
    obtain ⟨hkept, hnone⟩ := (Server.step_cases hcall).elsewhere (i := i) (by simp)
    exact ⟨hkept, hnone, .inl rfl⟩
  | peer j peerAction hpeer =>
    refine ⟨fun _ hi => hi, rfl, ?_⟩
    by_cases hij : i = j
    · subst hij
      exact .inr ⟨peerAction, rfl, by simpa using hpeer⟩
    · exact .inl (Function.update_of_ne hij _ _)
  | connection j action hj hmove =>
    have hij : i ≠ j := by
      rintro rfl
      exact hother action rfl
    refine ⟨fun task hi => ?_, project_map_ne hij.symm _, .inl (Function.update_of_ne hij _ _)⟩
    rw [List.getElem?_set_ne hij.symm]
    exact hi

/-- What a handler has sent stays sent. -/
theorem Step.sent_front {w w' : Wire} {action : WireAction} {out : List (ℕ × Event)}
    (h : w.Step action w' out) (i : ℕ) : (w.endpoints i).sent <+: (w'.endpoints i).sent := by
  by_cases hown : ∃ own, action = .connection i own
  · obtain ⟨own, rfl⟩ := hown
    cases h with
    | connection _ _ hi hmove =>
      obtain ⟨bytes, hsent, -⟩ := hmove.sent_eq
      simp only [Function.update_self, hsent]
      exact List.prefix_append _ _
  · obtain ⟨-, -, hsame | ⟨peerAction, -, hpeer⟩⟩ := h.elsewhere fun own heq => hown ⟨own, heq⟩
    · rw [hsame]
    · rcases Endpoint.peerStep_cases hpeer with ⟨bytes, -, -, hdeliver⟩ | ⟨-, hclose⟩
      · rw [hdeliver]
      · rw [hclose]

end Wire

/-- Where the handler of a connection stands; before the accept, its task counts as one
that has not been polled. -/
def Server.phaseAt (s : Server) (i : ℕ) : Phase :=
  match s.tasks[i]? with
  | some task => task.phase
  | none => .spawned

theorem Server.phaseAt_of_task {s : Server} {i : ℕ} {task : Task} (hi : s.tasks[i]? = some task) :
    s.phaseAt i = task.phase := by
  simp only [phaseAt, hi]

/-- What the others do changes no phase. -/
theorem Wire.Step.phaseAt_eq {w w' : Wire} {action : WireAction} {events : List (ℕ × Event)}
    (h : w.Step action w' events) {i : ℕ} (hother : ∀ own, action ≠ .connection i own) :
    w'.server.phaseAt i = w.server.phaseAt i := by
  cases hi : w.server.tasks[i]? with
  | some task =>
    rw [Server.phaseAt_of_task hi, Server.phaseAt_of_task ((h.elsewhere hother).1 task hi)]
  | none =>
    have hbefore : w.server.phaseAt i = .spawned := by simp only [Server.phaseAt, hi]
    rw [hbefore]
    cases h with
    | acceptor action hact =>
      cases Server.step_cases hact with
      | acceptor _ hacceptor =>
        simp only [Server.phaseAt, List.getElem?_append_right (List.getElem?_eq_none_iff.mp hi)]
        split
        · rename_i task htask
          exact hacceptor.spawned_phase task (List.mem_of_getElem? htask)
        · rfl
    | caller action hcaller =>
      cases Server.step_cases hcaller with
      | _ => exact hbefore
    | peer j action hpeer => exact hbefore
    | connection j action hj hmove =>
      have hij : j ≠ i := by
        rintro rfl
        exact hother action rfl
      simp only [Server.phaseAt, List.getElem?_set_ne hij, hi]

theorem Wire.step_connection {w : Wire} {i : ℕ} {action : EndpointAction} {task task' : Task}
    {shared : Shared} {endpoint : Endpoint} {events : List Event}
    (hi : w.server.tasks[i]? = some task)
    (h : (w.endpoints i).step w.server.shared task action =
      some (shared, task', endpoint, events)) :
    wire.step (.connection i action) w =
      some (⟨{ w.server with shared, tasks := w.server.tasks.set i task' },
        Function.update w.endpoints i endpoint⟩, events.map fun event => (i, event)) := by
  simp only [wire, Wire.step, hi, h]

/-- A connection is accepted on which its peer has delivered nothing yet. -/
theorem Wire.run_admission {w : Wire} {i : ℕ} (hi : i = w.server.tasks.length)
    (hphase : w.server.acceptor.phase = .acquiring) (hpermits : 0 < w.server.shared.permits)
    (hnew : w.endpoints i = .new) :
    wire.run (admission .acceptor fun action => .connection i (.task action)) w =
      some ({ w with server := w.server.admitted }, []) := by
  subst hi
  obtain ⟨⟨shared, ⟨phase, shutdownRx⟩, tasks, holdsShutdownTx, holdsCompleteTx⟩, endpoints⟩ := w
  obtain rfl : phase = .acquiring := hphase
  simp only at hpermits hnew
  simp [admission, acceptance, opening, Machine.run, wire, step, MiniRedis.server, Server.step,
    Acceptor.step, Acceptor.goto, hpermits, Endpoint.step, Endpoint.perform, Task.step, Task.goto,
    Server.admitted, Shared.subscribe, hnew, Endpoint.new, attempts, encodeAll]

theorem Endpoint.step_poll_wait {shared : Shared} {task : Task} {endpoint : Endpoint}
    {bytesLeft : ℕ} (hphase : task.phase.isSelecting = true)
    (hreading : endpoint.inbound.reading = none)
    (hturn : turn endpoint.inbound.buffer = (.reading bytesLeft, endpoint.inbound.buffer)) :
    endpoint.step shared task .poll =
      some (shared, task,
        { endpoint with inbound := { endpoint.inbound with reading := some bytesLeft } }, []) := by
  obtain ⟨⟨stream, buffer, reading⟩, closed, sent, unsent⟩ := endpoint
  simp only at hreading hturn
  subst hreading
  simp only [step, hphase, if_true, Reader.step, hturn, Reader.settle, settle]

theorem set_getElem?_self {α : Type*} {l : List α} {i : ℕ} {a : α} (h : l[i]? = some a) :
    l.set i a = l := by
  obtain ⟨hlt, rfl⟩ := List.getElem?_eq_some_iff.mp h
  exact List.set_getElem_self hlt

/-- Whatever happens on the wire, the server does it step by step. -/
theorem wire_simulates : wire.Simulates server fun w s => w.server = s := by
  rintro w s action w' now rfl hstep
  cases Wire.step_cases hstep with
  | acceptor action h =>
    exact ⟨[.acceptor action], _, server.run_singleton h, rfl⟩
  | caller action h =>
    exact ⟨[.caller action], _, server.run_singleton h, rfl⟩
  | peer i action h => exact ⟨[], w.server, rfl, rfl⟩
  | connection i action hi h =>
    cases h with
    | wait _ readAction hphase hread hfail hend =>
      refine ⟨[], w.server, rfl, ?_⟩
      simp only [set_getElem?_self hi]
    | returned _ readAction hphase hread hfail hend htask =>
      exact ⟨[.task i (.readFrame _)], _, server.run_singleton (Server.step_task hi htask), rfl⟩
    | send n hphase hn =>
      refine ⟨[], w.server, rfl, ?_⟩
      simp only [set_getElem?_self hi]
    | task action next hnext hread hwrite htask =>
      exact ⟨[.task i action], _, server.run_singleton (Server.step_task hi htask), rfl⟩

end MiniRedis
