import MiniRedis.Handler
import MiniRedis.Library.Interleaving

/-!
# The acceptor and the tasks it spawns

`Acceptor::run` reserves a permit, accepts a connection and moves the permit into
a new task. Its caller may drop the future of `run` where it awaits, send the
shutdown message, and drop the handles that it keeps.
-/
namespace MiniRedis

open Library

/-- Where `Acceptor::run` stands. -/
inductive AcceptorPhase where
  /-- No future of `run` exists. -/
  | idle
  /-- Awaits a permit. -/
  | acquiring
  /-- Holds a permit and waits in `select!`. -/
  | selecting
  /-- Holds a permit and sleeps after an accept error. -/
  | sleeping
  /-- Ends an attempt that failed; its permit is still held. -/
  | releasing
  /-- Step 5 with an accepted connection. -/
  | accepted
  | subscribed (handlerRx : ℕ)
  | cloned (handlerRx : ℕ)
  /-- `run` returns or its future is dropped. -/
  | leaving (holdsPermit : Bool)
  /-- The acceptor itself is dropped. -/
  | dropped
  deriving DecidableEq, Repr

structure Acceptor where
  phase : AcceptorPhase
  shutdownRx : ℕ
  deriving DecidableEq, Repr

inductive AcceptorAction where
  /-- The first poll of `run`. -/
  | run
  | acquire
  /-- `select!` takes the accept branch with a connection. -/
  | accept
  /-- `select!` takes the accept branch with an error. -/
  | acceptError (retryAtOnce : Bool)
  | wake
  | release
  | subscribe
  | cloneSender
  | spawn
  /-- `select!` takes the shutdown branch. -/
  | stop
  /-- The future of `run` is dropped where it awaits. -/
  | dropRun
  | unwind
  | dropAcceptor
  deriving DecidableEq, Repr

namespace Acceptor

def goto (acceptor : Acceptor) (phase : AcceptorPhase) : Acceptor := { acceptor with phase }

/-- One step of the acceptor, with the tasks that it spawns. -/
def step (shared : Shared) (acceptor : Acceptor) (action : AcceptorAction) :
    Option (Shared × Acceptor × List Task) :=
  match acceptor.phase, action with
  | .idle, .run => some (shared, ⟨.acquiring, shared.subscribe⟩, [])
  | .acquiring, .acquire =>
    if 0 < shared.permits then
      some ({ shared with permits := shared.permits - 1 }, acceptor.goto .selecting, [])
    else none
  | .selecting, .accept => some (shared, acceptor.goto .accepted, [])
  | .selecting, .acceptError retryAtOnce =>
    some ({ shared with metrics := shared.metrics.incAcceptErrors },
      acceptor.goto (if retryAtOnce then .releasing else .sleeping), [])
  | .selecting, .stop =>
    match shared.recv acceptor.shutdownRx with
    | some shutdownRx => some (shared, ⟨.leaving true, shutdownRx⟩, [])
    | none => none
  | .sleeping, .wake => some (shared, acceptor.goto .releasing, [])
  | .releasing, .release =>
    some ({ shared with permits := shared.permits + 1 }, acceptor.goto .acquiring, [])
  | .accepted, .subscribe => some (shared, acceptor.goto (.subscribed shared.subscribe), [])
  | .subscribed handlerRx, .cloneSender =>
    some ({ shared with completeSenders := shared.completeSenders + 1 },
      acceptor.goto (.cloned handlerRx), [])
  | .cloned handlerRx, .spawn =>
    some (shared, acceptor.goto .acquiring, [⟨.spawned, handlerRx, 0⟩])
  | .acquiring, .dropRun => some (shared, acceptor.goto (.leaving false), [])
  | .selecting, .dropRun => some (shared, acceptor.goto (.leaving true), [])
  | .sleeping, .dropRun => some (shared, acceptor.goto (.leaving true), [])
  | .leaving true, .unwind =>
    some ({ shared with permits := shared.permits + 1 }, acceptor.goto (.leaving false), [])
  | .leaving false, .unwind => some (shared, acceptor.goto .idle, [])
  | .idle, .dropAcceptor =>
    some ({ shared with
        shutdownSenders := shared.shutdownSenders - 1
        completeSenders := shared.completeSenders - 1 }, acceptor.goto .dropped, [])
  | _, _ => none

/-- Everything a step can do, one constructor for each transition. -/
inductive Step (shared : Shared) (acceptor : Acceptor) :
    AcceptorAction → Shared → Acceptor → List Task → Prop
  | run (hphase : acceptor.phase = .idle) :
    Step shared acceptor .run shared ⟨.acquiring, shared.subscribe⟩ []
  | acquire (hphase : acceptor.phase = .acquiring) (hpermits : 0 < shared.permits) :
    Step shared acceptor .acquire { shared with permits := shared.permits - 1 }
      (acceptor.goto .selecting) []
  | accept (hphase : acceptor.phase = .selecting) :
    Step shared acceptor .accept shared (acceptor.goto .accepted) []
  | acceptError (hphase : acceptor.phase = .selecting) (retryAtOnce : Bool)
    (phase : AcceptorPhase) (hnext : phase = .releasing ∨ phase = .sleeping) :
    Step shared acceptor (.acceptError retryAtOnce)
      { shared with metrics := shared.metrics.incAcceptErrors } (acceptor.goto phase) []
  | wake (hphase : acceptor.phase = .sleeping) :
    Step shared acceptor .wake shared (acceptor.goto .releasing) []
  | release (hphase : acceptor.phase = .releasing) :
    Step shared acceptor .release { shared with permits := shared.permits + 1 }
      (acceptor.goto .acquiring) []
  | subscribe (hphase : acceptor.phase = .accepted) :
    Step shared acceptor .subscribe shared (acceptor.goto (.subscribed shared.subscribe)) []
  | cloneSender (handlerRx : ℕ) (hphase : acceptor.phase = .subscribed handlerRx) :
    Step shared acceptor .cloneSender
      { shared with completeSenders := shared.completeSenders + 1 }
      (acceptor.goto (.cloned handlerRx)) []
  | spawn (handlerRx : ℕ) (hphase : acceptor.phase = .cloned handlerRx) :
    Step shared acceptor .spawn shared (acceptor.goto .acquiring) [⟨.spawned, handlerRx, 0⟩]
  | leaveAcquiring (hphase : acceptor.phase = .acquiring) :
    Step shared acceptor .dropRun shared (acceptor.goto (.leaving false)) []
  | leave (hphase : acceptor.phase = .selecting ∨ acceptor.phase = .sleeping)
    (action : AcceptorAction) (shutdownRx : ℕ) :
    Step shared acceptor action shared ⟨.leaving true, shutdownRx⟩ []
  | dropPermit (hphase : acceptor.phase = .leaving true) :
    Step shared acceptor .unwind { shared with permits := shared.permits + 1 }
      (acceptor.goto (.leaving false)) []
  | finish (hphase : acceptor.phase = .leaving false) :
    Step shared acceptor .unwind shared (acceptor.goto .idle) []
  | dropAcceptor (hphase : acceptor.phase = .idle) :
    Step shared acceptor .dropAcceptor
      { shared with
        shutdownSenders := shared.shutdownSenders - 1
        completeSenders := shared.completeSenders - 1 } (acceptor.goto .dropped) []

theorem step_cases {shared shared' : Shared} {acceptor acceptor' : Acceptor}
    {action : AcceptorAction} {spawned : List Task}
    (h : acceptor.step shared action = some (shared', acceptor', spawned)) :
    Step shared acceptor action shared' acceptor' spawned := by
  unfold step at h
  split at h
  case h_1 hphase =>
    cases h
    exact .run hphase
  case h_2 hphase =>
    split at h
    · cases h
      exact .acquire hphase (by assumption)
    · cases h
  case h_3 hphase =>
    cases h
    exact .accept hphase
  case h_4 retryAtOnce hphase =>
    cases h
    exact .acceptError hphase retryAtOnce _ (by cases retryAtOnce <;> simp)
  case h_5 hphase =>
    split at h
    · cases h
      exact .leave (.inl hphase) _ _
    · cases h
  case h_6 hphase =>
    cases h
    exact .wake hphase
  case h_7 hphase =>
    cases h
    exact .release hphase
  case h_8 hphase =>
    cases h
    exact .subscribe hphase
  case h_9 handlerRx hphase =>
    cases h
    exact .cloneSender handlerRx hphase
  case h_10 handlerRx hphase =>
    cases h
    exact .spawn handlerRx hphase
  case h_11 hphase =>
    cases h
    exact .leaveAcquiring hphase
  case h_12 hphase =>
    cases h
    exact .leave (.inl hphase) _ _
  case h_13 hphase =>
    cases h
    exact .leave (.inr hphase) _ _
  case h_14 hphase =>
    cases h
    exact .dropPermit hphase
  case h_15 hphase =>
    cases h
    exact .finish hphase
  case h_16 hphase =>
    cases h
    exact .dropAcceptor hphase
  case h_17 => cases h

theorem Step.spawned_phase {shared shared' : Shared} {acceptor acceptor' : Acceptor}
    {action : AcceptorAction} {spawned : List Task}
    (h : Step shared acceptor action shared' acceptor' spawned) :
    ∀ task ∈ spawned, task.phase = .spawned := by
  cases h <;> simp

end Acceptor

/-- What the caller of `Acceptor::run` does with the handles it keeps. -/
inductive CallerAction where
  | send
  | dropShutdownTx
  | dropCompleteTx
  deriving DecidableEq, Repr

/-- The acceptor, its caller's handles, and every task spawned so far. -/
structure Server where
  shared : Shared
  acceptor : Acceptor
  tasks : List Task
  holdsShutdownTx : Bool
  holdsCompleteTx : Bool

inductive ServerAction where
  | acceptor (action : AcceptorAction)
  | caller (action : CallerAction)
  | task (i : ℕ) (action : TaskAction)

namespace Server

/-- The channels and `Acceptor::new`, which panics on too many permits. -/
def new (maxConnections : ℕ) (database : Database) : Option Server :=
  if maxConnections ≤ semaphoreMaxPermits then
    some {
      shared := {
        database
        metrics := .new
        permits := maxConnections
        messages := 0
        shutdownSenders := 2
        completeSenders := 2 }
      acceptor := ⟨.idle, 0⟩
      tasks := []
      holdsShutdownTx := true
      holdsCompleteTx := true }
  else none

def callerStep (s : Server) : CallerAction → Option Server
  | .send =>
    if s.holdsShutdownTx then
      some { s with shared := { s.shared with messages := s.shared.messages + 1 } }
    else none
  | .dropShutdownTx =>
    if s.holdsShutdownTx then
      some { s with
        holdsShutdownTx := false
        shared := { s.shared with shutdownSenders := s.shared.shutdownSenders - 1 } }
    else none
  | .dropCompleteTx =>
    if s.holdsCompleteTx then
      some { s with
        holdsCompleteTx := false
        shared := { s.shared with completeSenders := s.shared.completeSenders - 1 } }
    else none

def step (action : ServerAction) (s : Server) : Option (Server × List (ℕ × Event)) :=
  match action with
  | .acceptor action =>
    match s.acceptor.step s.shared action with
    | some (shared, acceptor, spawned) =>
      some ({ s with shared, acceptor, tasks := s.tasks ++ spawned }, [])
    | none => none
  | .caller action =>
    match s.callerStep action with
    | some s => some (s, [])
    | none => none
  | .task i action =>
    match s.tasks[i]? with
    | some task =>
      match task.step s.shared action with
      | some (shared, task, events) =>
        some ({ s with shared, tasks := s.tasks.set i task }, events.map fun event => (i, event))
      | none => none
    | none => none

end Server

/-- All interleavings of the acceptor, its caller and its tasks. -/
def server : Machine Server ServerAction (ℕ × Event) := ⟨Server.step⟩

namespace Server

theorem step_task {s : Server} {i : ℕ} {task task' : Task} {shared : Shared}
    {action : TaskAction} {events : List Event} (hi : s.tasks[i]? = some task)
    (h : task.step s.shared action = some (shared, task', events)) :
    server.step (.task i action) s =
      some ({ s with shared, tasks := s.tasks.set i task' }, events.map fun event => (i, event)) := by
  simp only [server, Server.step, hi, h]

/-- Everything a step of the server can do. -/
inductive Step (s : Server) : ServerAction → Server → List (ℕ × Event) → Prop
  | acceptor (action : AcceptorAction) {shared : Shared} {acceptor : Acceptor}
    {spawned : List Task} (h : s.acceptor.Step s.shared action shared acceptor spawned) :
    Step s (.acceptor action) { s with shared, acceptor, tasks := s.tasks ++ spawned } []
  | send :
    Step s (.caller .send)
      { s with shared := { s.shared with messages := s.shared.messages + 1 } } []
  | dropShutdownTx (hold : s.holdsShutdownTx = true) :
    Step s (.caller .dropShutdownTx)
      { s with
        holdsShutdownTx := false
        shared := { s.shared with shutdownSenders := s.shared.shutdownSenders - 1 } } []
  | dropCompleteTx (hold : s.holdsCompleteTx = true) :
    Step s (.caller .dropCompleteTx)
      { s with
        holdsCompleteTx := false
        shared := { s.shared with completeSenders := s.shared.completeSenders - 1 } } []
  | task (i : ℕ) (action : TaskAction) {task task' : Task} {shared : Shared}
    {events : List Event} (hi : s.tasks[i]? = some task)
    (h : task.Step s.shared action shared task' events) :
    Step s (.task i action) { s with shared, tasks := s.tasks.set i task' }
      (events.map fun event => (i, event))

/-- A step of a task, as the task takes it. -/
theorem step_task_eq_some {s t : Server} {i : ℕ} {action : TaskAction} {out : List (ℕ × Event)}
    (h : server.step (.task i action) s = some (t, out)) :
    ∃ task shared task' events, s.tasks[i]? = some task ∧
      task.step s.shared action = some (shared, task', events) ∧
      t = { s with shared, tasks := s.tasks.set i task' } ∧
      out = events.map fun event => (i, event) := by
  simp only [server, step] at h
  split at h
  · rename_i task hi
    split at h
    · rename_i shared task' events hstep
      cases h
      exact ⟨task, shared, task', events, hi, hstep, rfl, rfl⟩
    · cases h
  · cases h

theorem step_cases {s t : Server} {action : ServerAction} {out : List (ℕ × Event)}
    (h : server.step action s = some (t, out)) : Step s action t out := by
  cases action with
  | acceptor action =>
    simp only [server, step] at h
    split at h
    · rename_i hstep
      cases h
      exact .acceptor action (Acceptor.step_cases hstep)
    · cases h
  | caller action =>
    simp only [server, step] at h
    split at h
    · rename_i hstep
      cases h
      cases action with
      | send =>
        simp only [callerStep] at hstep
        split at hstep <;> cases hstep
        exact .send
      | dropShutdownTx =>
        simp only [callerStep] at hstep
        split at hstep <;> cases hstep
        exact .dropShutdownTx (by assumption)
      | dropCompleteTx =>
        simp only [callerStep] at hstep
        split at hstep <;> cases hstep
        exact .dropCompleteTx (by assumption)
    · cases h
  | task i action =>
    obtain ⟨task, shared, task', events, hi, hstep, rfl, rfl⟩ := step_task_eq_some h
    exact .task i action hi (Task.step_cases hstep)

/-- What the others do leaves a task in its place, and shows nothing of it. -/
theorem Step.elsewhere {s t : Server} {i : ℕ} {action : ServerAction} {out : List (ℕ × Event)}
    (h : s.Step action t out) (hother : ∀ own, action ≠ .task i own) :
    (∀ task, s.tasks[i]? = some task → t.tasks[i]? = some task) ∧ project i out = [] := by
  cases h with
  | acceptor action hact =>
    refine ⟨fun task hi => ?_, rfl⟩
    rw [List.getElem?_append_left (List.getElem?_eq_some_iff.mp hi).1]
    exact hi
  | task j action hj hmove =>
    have hji : j ≠ i := by
      rintro rfl
      exact hother action rfl
    refine ⟨fun task hi => ?_, project_map_ne hji _⟩
    rw [List.getElem?_set_ne hji]
    exact hi
  | _ => exact ⟨fun _ hi => hi, rfl⟩

end Server

/-! ### A connection is accepted -/

/-- One pass of the accept loop, from the permit to the new task. -/
def acceptance : List AcceptorAction := [.acquire, .accept, .subscribe, .cloneSender, .spawn]

/-- A new task is polled until it waits in the loop of its handler. -/
def opening : List TaskAction := [.start true, .enter]

/-- A connection is accepted, and its handler waits for the first request. -/
def admission {α : Type*} (acceptor : AcceptorAction → α) (task : TaskAction → α) : List α :=
  acceptance.map acceptor ++ opening.map task

namespace Server

/-- The server with one more handler in its loop. -/
def admitted (s : Server) : Server :=
  { s with
    shared := { s.shared with
      permits := s.shared.permits - 1
      completeSenders := s.shared.completeSenders + 1
      metrics := s.shared.metrics.incActiveConnections }
    tasks := s.tasks ++ [⟨.selecting, s.shared.subscribe, 0⟩] }

theorem run_admission {s : Server} (hphase : s.acceptor.phase = .acquiring)
    (hpermits : 0 < s.shared.permits) :
    server.run (admission .acceptor (.task s.tasks.length)) s = some (s.admitted, []) := by
  obtain ⟨shared, ⟨phase, shutdownRx⟩, tasks, holdsShutdownTx, holdsCompleteTx⟩ := s
  obtain rfl : phase = .acquiring := hphase
  simp only at hpermits
  simp [admission, acceptance, opening, Machine.run, server, step, Acceptor.step, Acceptor.goto,
    hpermits, Task.step, Task.goto, admitted, Shared.subscribe]

end Server
end MiniRedis
