import MiniRedis.Delivery
import MiniRedis.Requester

/-!
# One requester and its handler

Both ends of one connection, with the bytes in flight in both directions. Of the
other connections only what they share with the handler is modelled: they may
change it at any time, and do not write to the database.
-/
namespace MiniRedis

open Library

/-- Both ends of one connection. -/
structure Dialogue where
  shared : Shared
  task : Task
  endpoint : Endpoint
  requester : Requester

inductive DialogueAction where
  | client (action : RequesterAction)
  | handler (action : EndpointAction)
  /-- Other tasks change what they share with the handler. -/
  | others (change : Shared)

inductive DialogueEvent where
  | client (event : RequesterEvent)
  | handler (event : Event)

/-- The task has dropped its connection. -/
def Phase.hungUp : Phase → Bool
  | .leaving _ unwinding => decide (.connection ∉ unwinding.rest)
  | _ => false

namespace Dialogue

/-- The acceptor has spawned the task, the client is connected, and the database is empty. -/
def new (shared : Shared) (shutdownRx : ℕ) : Dialogue :=
  ⟨{ shared with database := .new }, ⟨.spawned, shutdownRx, 0⟩, .new, .new⟩

def step (action : DialogueAction) (d : Dialogue) : Option (Dialogue × List DialogueEvent) :=
  match action with
  | .client action =>
    match d.requester.step d.task.phase.hungUp action with
    | some (requester, bytes, events) =>
      match d.endpoint.peerStep (.deliver bytes) with
      | some endpoint => some ({ d with endpoint, requester }, events.map .client)
      | none => none
    | none => none
  | .handler action =>
    match d.endpoint.step d.shared d.task action with
    | some (shared, task, endpoint, events) =>
      let bytes := endpoint.sent.drop d.endpoint.sent.length
      some (⟨shared, task, endpoint,
        { d.requester with inbound := d.requester.inbound.deliver bytes }⟩, events.map .handler)
    | none => none
  | .others change => some ({ d with shared := { change with database := d.shared.database } }, [])

end Dialogue

/-- All interleavings of the requester, the handler, both transports and the others. -/
def dialogue : Machine Dialogue DialogueAction DialogueEvent := ⟨Dialogue.step⟩

/-- No failure of a transport, timeout, shutdown or cancellation. -/
def DialogueAction.Undisturbed : DialogueAction → Prop
  | .client action => Requester.Undisturbed action
  | .handler action => action.Undisturbed
  | .others _ => True

/-- Everything an undisturbed step of an open dialogue can do. -/
inductive Dialogue.Step (d : Dialogue) :
    DialogueAction → Dialogue → List DialogueEvent → Prop
  | client (action : RequesterAction) {requester : Requester} {bytes : Bytes}
    {events : List RequesterEvent}
    (h : d.requester.Step d.task.phase.hungUp action requester bytes events) :
    Step d (.client action)
      { d with
        endpoint := { d.endpoint with inbound := d.endpoint.inbound.deliver bytes }
        requester } (events.map .client)
  | handler (action : EndpointAction) {shared : Shared} {task : Task} {endpoint : Endpoint}
    {events : List Event} (hundisturbed : action.Undisturbed)
    (h : d.endpoint.Step d.shared d.task action shared task endpoint events) :
    Step d (.handler action)
      ⟨shared, task, endpoint, { d.requester with
        inbound := d.requester.inbound.deliver (endpoint.sent.drop d.endpoint.sent.length) }⟩
      (events.map .handler)
  | others (change : Shared) :
    Step d (.others change) { d with shared := { change with database := d.shared.database } } []

theorem Dialogue.step_cases {d d' : Dialogue} {action : DialogueAction} {out : List DialogueEvent}
    (hundisturbed : action.Undisturbed) (h : dialogue.step action d = some (d', out)) :
    Step d action d' out := by
  cases action with
  | client action =>
    simp only [dialogue, step] at h
    split at h
    · rename_i hstep
      split at h
      · rename_i hdeliver
        cases h
        simp only [Endpoint.peerStep] at hdeliver
        split at hdeliver
        · cases hdeliver
        · cases hdeliver
          exact .client action (Requester.step_cases hundisturbed hstep)
      · cases h
    · cases h
  | handler action =>
    simp only [dialogue, step] at h
    split at h
    · rename_i hstep
      cases h
      exact .handler action hundisturbed (Endpoint.step_cases hstep)
    · cases h
  | others change =>
    cases h
    exact .others change

/-! ### What the events show -/

namespace DialogueEvent

def called? : DialogueEvent → Option Call
  | .client (.called call) => some call
  | _ => none

def returned? : DialogueEvent → Option (Call × CallResult)
  | .client (.returned call result) => some (call, result)
  | _ => none

def handled? : DialogueEvent → Option Event
  | .handler event => some event
  | _ => none

end DialogueEvent

/-- The calls in the order in which they begin. -/
def calls (out : List DialogueEvent) : List Call := out.filterMap DialogueEvent.called?

/-- The results in the order in which the calls return. -/
def returns (out : List DialogueEvent) : List (Call × CallResult) :=
  out.filterMap DialogueEvent.returned?

/-- The events of the handler. -/
def handled (out : List DialogueEvent) : List Event := out.filterMap DialogueEvent.handled?

def Event.command? : Event → Option Command
  | .applied _ command _ => some command
  | _ => none

/-- The commands that the handler applies. -/
def applied (events : List Event) : List Command := events.filterMap Event.command?

section events

variable (l r : List DialogueEvent) (events : List Event) (actions : List RequesterEvent)

@[simp] theorem calls_append : calls (l ++ r) = calls l ++ calls r := by simp [calls]

@[simp] theorem returns_append : returns (l ++ r) = returns l ++ returns r := by simp [returns]

@[simp] theorem handled_append : handled (l ++ r) = handled l ++ handled r := by simp [handled]

@[simp] theorem applied_append (l r : List Event) : applied (l ++ r) = applied l ++ applied r := by
  simp [applied]

@[simp] theorem handled_client : handled (actions.map .client) = [] := by
  induction actions with
  | nil => rfl
  | cons action actions ih => exact ih

@[simp] theorem handled_handler : handled (events.map .handler) = events := by
  induction events with
  | nil => rfl
  | cons event events ih => exact congrArg (event :: ·) ih

@[simp] theorem calls_handler : calls (events.map .handler) = [] := by
  induction events with
  | nil => rfl
  | cons event events ih => exact ih

@[simp] theorem returns_handler : returns (events.map .handler) = [] := by
  induction events with
  | nil => rfl
  | cons event events ih => exact ih

end events

/-! ### What a requester does during a call -/

/-- The call has begun, and all of its request is written but `unsent`. -/
def RequesterPhase.Sends (phase : RequesterPhase) (call : Call) (unsent : Bytes) : Prop :=
  phase = .writing call unsent ∨ unsent = [] ∧ phase = .awaiting call

/-- The undisturbed steps during a call. -/
inductive CallMove (hungUp : Bool) (requester : Requester) (call : Call) (unsent : Bytes) :
    Requester → Bytes → List RequesterEvent → Prop
  | write {requester' : Requester} {bytes : Bytes} (unsent' : Bytes)
    (hsplit : unsent = bytes ++ unsent') (hphase : requester'.phase.Sends call unsent')
    (hinbound : requester'.inbound = requester.inbound) :
    CallMove hungUp requester call unsent requester' bytes []
  | wait (readAction : ReadAction) {next : Reader} (hunsent : unsent = [])
    (hfail : ∀ text, readAction ≠ .fail text) (hend : readAction = .read 0 → hungUp = true)
    (hread : Reader.step readAction requester.inbound = some (next, [])) :
    CallMove hungUp requester call unsent ⟨.awaiting call, next⟩ [] []
  | returned (readAction : ReadAction) {next : Reader} {result : ReadResult}
    (hunsent : unsent = []) (hfail : ∀ text, readAction ≠ .fail text)
    (hend : readAction = .read 0 → hungUp = true)
    (hread : Reader.step readAction requester.inbound = some (next, [result])) :
    CallMove hungUp requester call unsent ⟨.idle, next⟩ []
      [.returned call (call.interpret result)]

theorem Requester.Step.of_sends {hungUp : Bool} {requester requester' : Requester}
    {action : RequesterAction} {bytes unsent : Bytes} {events : List RequesterEvent} {call : Call}
    (h : Requester.Step hungUp requester action requester' bytes events)
    (hphase : requester.phase.Sends call unsent) :
    CallMove hungUp requester call unsent requester' bytes events := by
  rcases hphase with hwriting | ⟨rfl, hawaiting⟩
  · cases h with
    | begin _ hidle => cases hwriting.symm.trans hidle
    | transmit _ _ n hwriting' =>
      cases hwriting.symm.trans hwriting'
      exact .write (unsent.drop n) (List.take_append_drop n unsent).symm (.inl rfl) rfl
    | flush _ hwriting' =>
      cases hwriting.symm.trans hwriting'
      exact .write [] rfl (.inr ⟨rfl, rfl⟩) rfl
    | wait _ _ _ hawaiting => cases hwriting.symm.trans hawaiting
    | returned _ _ _ hawaiting => cases hwriting.symm.trans hawaiting
  · cases h with
    | begin _ hidle => cases hawaiting.symm.trans hidle
    | transmit _ _ _ hwriting => cases hawaiting.symm.trans hwriting
    | flush _ hwriting => cases hawaiting.symm.trans hwriting
    | wait _ _ readAction hawaiting' hfail hend hread =>
      cases hawaiting.symm.trans hawaiting'
      exact .wait readAction rfl hfail hend hread
    | returned _ _ readAction hawaiting' hfail hend hread =>
      cases hawaiting.symm.trans hawaiting'
      exact .returned readAction rfl hfail hend hread

/-! ### What an undisturbed handler does -/

/-- The handler gets to, or waits in, the read of the next request. -/
def Phase.isReady : Phase → Bool
  | .spawned | .constructed | .selecting | .replying _ | .replied => true
  | _ => false

/-- The handler ends, at first with the report of a failed read. -/
def Phase.isClosing : Phase → Bool
  | .reporting _ | .leaving _ _ => true
  | _ => false

/-- The handler at most hands bytes that it owes to the transport. -/
structure Quiet (shared : Shared) (endpoint : Endpoint) (shared' : Shared) (endpoint' : Endpoint)
    (events : List Event) : Prop where
  database : shared'.database = shared.database
  sent : ∃ bytes, endpoint'.sent = endpoint.sent ++ bytes ∧
    endpoint.unsent = bytes ++ endpoint'.unsent
  inbound : endpoint'.inbound = endpoint.inbound ∨
    endpoint'.inbound = { endpoint.inbound with reading := none }
  closed : endpoint'.closed = endpoint.closed
  events : applied events = []

/-- The undisturbed steps of a handler that is ready. -/
inductive ReadyMove (shared : Shared) (task : Task) (endpoint : Endpoint) :
    Shared → Task → Endpoint → List Event → Prop
  | quiet {shared' : Shared} {task' : Task} {endpoint' : Endpoint} {events : List Event}
    (h : Quiet shared endpoint shared' endpoint' events) (hready : task'.phase.isReady = true)
    (hsettled : task'.phase.isWriting = false → endpoint'.unsent = []) :
    ReadyMove shared task endpoint shared' task' endpoint' events
  | wait (readAction : ReadAction) {next : Reader} (howed : endpoint.unsent = [])
    (hfail : ∀ text, readAction ≠ .fail text) (hend : readAction = .read 0 → endpoint.closed = true)
    (hread : Reader.step readAction endpoint.inbound = some (next, [])) :
    ReadyMove shared task endpoint shared task { endpoint with inbound := next } []
  | returned (readAction : ReadAction) {next : Reader} {result : ReadResult} {shared' : Shared}
    {task' : Task} {events : List Event} (howed : endpoint.unsent = [])
    (hfail : ∀ text, readAction ≠ .fail text) (hend : readAction = .read 0 → endpoint.closed = true)
    (hread : Reader.step readAction endpoint.inbound = some (next, [result]))
    (htask : task.Step shared (.readFrame result) shared' task' events) :
    ReadyMove shared task endpoint shared' task'
      { endpoint with inbound := next, unsent := endpoint.unsent ++ encodeAll (attempts events) }
      events

section handler

variable {shared shared' : Shared} {task task' : Task} {endpoint endpoint' : Endpoint}
  {action : EndpointAction} {events : List Event}

/-- A step of the task that neither reads nor writes. -/
theorem Quiet.of_task {next : Reader} (hdatabase : shared'.database = shared.database)
    (hnext : next = endpoint.inbound ∨ next = { endpoint.inbound with reading := none })
    (hattempts : attempts events = []) (happlied : applied events = []) :
    Quiet shared endpoint shared'
      { endpoint with inbound := next, unsent := endpoint.unsent ++ encodeAll (attempts events) }
      events where
  database := hdatabase
  sent := ⟨[], by simp, by simp [hattempts, encodeAll]⟩
  inbound := hnext
  closed := rfl
  events := happlied

theorem Quiet.send (n : ℕ) :
    Quiet shared endpoint shared
      { endpoint with
        sent := endpoint.sent ++ endpoint.unsent.take n
        unsent := endpoint.unsent.drop n } [] where
  database := rfl
  sent := ⟨_, rfl, (List.take_append_drop n _).symm⟩
  inbound := .inl rfl
  closed := rfl
  events := rfl

theorem Endpoint.Step.of_ready
    (h : endpoint.Step shared task action shared' task' endpoint' events)
    (hundisturbed : action.Undisturbed) (hready : task.phase.isReady = true)
    (hsettled : task.phase.isWriting = false → endpoint.unsent = []) :
    ReadyMove shared task endpoint shared' task' endpoint' events := by
  have hnothing : attempts [] = [] := rfl
  cases h with
  | wait _ readAction hphase hread hfail hend =>
    refine .wait readAction (hsettled (by rw [Phase.eq_selecting hphase]; rfl)) ?_ hend hread
    rintro text rfl
    rw [hfail text rfl] at hundisturbed
    exact hundisturbed
  | returned _ readAction hphase hread hfail hend htask =>
    refine .returned readAction (hsettled (by rw [Phase.eq_selecting hphase]; rfl)) ?_ hend hread
      (Task.step_cases htask)
    rintro text rfl
    rw [hfail text rfl] at hundisturbed
    exact hundisturbed
  | send n hphase hn =>
    refine .quiet (Quiet.send n) hready ?_
    intro hwriting
    rw [hphase] at hwriting
    cases hwriting
  | task action next hnext hread hwrite htask =>
    cases (Task.step_cases htask).works hundisturbed hread with
    | start hphase =>
      have howed := hsettled (by rw [hphase]; rfl)
      exact .quiet (.of_task rfl hnext rfl rfl) rfl fun _ => by simp [howed, hnothing, encodeAll]
    | enter hphase =>
      have howed := hsettled (by rw [hphase]; rfl)
      exact .quiet (.of_task rfl hnext rfl rfl) rfl fun _ => by simp [howed, hnothing, encodeAll]
    | write output hphase =>
      have howed := hwrite rfl
      have hattempts : attempts [.written task.request output] = [] := rfl
      exact .quiet (.of_task rfl hnext hattempts rfl) rfl fun _ => by
        simp [howed, hattempts, encodeAll]
    | countResponse hphase =>
      have howed := hsettled (by rw [hphase]; rfl)
      exact .quiet (.of_task rfl hnext rfl rfl) rfl fun _ => by simp [howed, hnothing, encodeAll]
    | count frame hphase => simp [hphase, Phase.isReady] at hready
    | lookUp frame command hphase hparse => simp [hphase, Phase.isReady] at hready
    | store frame command hphase hparse => simp [hphase, Phase.isReady] at hready
    | reject frame error hphase hparse => simp [hphase, Phase.isReady] at hready
    | countLookup output hphase => simp [hphase, Phase.isReady] at hready
    | leaveReport error hphase => simp [hphase, Phase.isReady] at hready
    | drop ending resource rest suffix hphase => simp [hphase, Phase.isReady] at hready

/-- A handler that ends reads and executes nothing. -/
theorem Endpoint.Step.of_closing
    (h : endpoint.Step shared task action shared' task' endpoint' events)
    (hundisturbed : action.Undisturbed) (hclosing : task.phase.isClosing = true)
    (hsettled : task.phase.isWriting = false → endpoint.unsent = []) :
    Quiet shared endpoint shared' endpoint' events ∧ task'.phase.isClosing = true ∧
      (task'.phase.isWriting = false → endpoint'.unsent = []) := by
  cases h with
  | wait _ readAction hphase =>
    rw [Phase.eq_selecting hphase] at hclosing
    cases hclosing
  | returned _ readAction hphase =>
    rw [Phase.eq_selecting hphase] at hclosing
    cases hclosing
  | send n hphase hn =>
    refine ⟨Quiet.send n, hclosing, ?_⟩
    intro hwriting
    rw [hphase] at hwriting
    cases hwriting
  | task action next hnext hread hwrite htask =>
    cases (Task.step_cases htask).works hundisturbed hread with
    | leaveReport error hphase ending hending =>
      have hattempts : attempts [.ended ending] = [] := rfl
      have howed := hwrite rfl
      exact ⟨.of_task rfl hnext hattempts rfl, rfl, fun _ => by simp [howed, hattempts, encodeAll]⟩
    | drop ending resource rest suffix hphase =>
      have howed := hsettled (by rw [hphase]; rfl)
      have hnothing : attempts [] = [] := rfl
      refine ⟨.of_task ?_ hnext hnothing rfl, rfl, fun _ => by simp [howed, hnothing, encodeAll]⟩
      cases resource <;> rfl
    | start hphase => simp [hphase, Phase.isClosing] at hclosing
    | enter hphase => simp [hphase, Phase.isClosing] at hclosing
    | write output hphase => simp [hphase, Phase.isClosing] at hclosing
    | countResponse hphase => simp [hphase, Phase.isClosing] at hclosing
    | count frame hphase => simp [hphase, Phase.isClosing] at hclosing
    | lookUp frame command hphase hparse => simp [hphase, Phase.isClosing] at hclosing
    | store frame command hphase hparse => simp [hphase, Phase.isClosing] at hclosing
    | reject frame error hphase hparse => simp [hphase, Phase.isClosing] at hclosing
    | countLookup output hphase => simp [hphase, Phase.isClosing] at hclosing

end handler

end MiniRedis
