import MiniRedis.Library.Interleaving
import MiniRedis.Server

/-!
# What a task makes visible

Whatever the other tasks do, the events of one task are the script of the
requests that it has served, followed by the events of the pass of its loop that
it is in. Everything about the observable behaviour of a connection is read off
this shape.
-/
namespace MiniRedis

open Library

/-- What step 6 of `run` makes of a frame. -/
inductive Outcome where
  | applied (command : Command) (reply : Frame)
  | rejected (error : ParseError)

namespace Outcome

def parsed : Outcome → Except ParseError Command
  | .applied command _ => .ok command
  | .rejected error => .error error

def reply : Outcome → Frame
  | .applied _ reply => reply
  | .rejected error => .error error.display

def event (request : ℕ) : Outcome → Event
  | .applied command reply => .applied request command reply
  | .rejected error => .rejected request error

end Outcome

/-- A frame and what step 6 has made of it. -/
structure Request where
  frame : Frame
  outcome : Outcome
  parsed_eq : Command.fromFrame frame = outcome.parsed

namespace Request

/-- The events of a request up to its execution. -/
def executed (number : ℕ) (request : Request) : List Event :=
  [.received number request.frame, request.outcome.event number]

/-- The events of a request up to the attempt of its reply. -/
def attempted (number : ℕ) (request : Request) : List Event :=
  request.executed number ++ [.attempted request.outcome.reply]

/-- The events of a request that is served completely. -/
def served (number : ℕ) (request : Request) : List Event :=
  request.attempted number ++ [.written number request.outcome.reply]

end Request

/-- The events of requests served one after the other, numbered from `number` on. -/
def script : ℕ → List Request → List Event
  | _, [] => []
  | number, request :: requests => request.served number ++ script (number + 1) requests

theorem script_concat (number : ℕ) (requests : List Request) (request : Request) :
    script number (requests ++ [request]) =
      script number requests ++ request.served (number + requests.length) := by
  induction requests generalizing number with
  | nil => simp [script]
  | cons first requests ih =>
    have hnumber : number + 1 + requests.length = number + (requests.length + 1) := by omega
    simp only [List.cons_append, script, ih, List.append_assoc, List.length_cons, hnumber]

/-- The events of the pass of the loop that a task is in, after `n` served requests. -/
inductive Current (n : ℕ) : Phase → ℕ → List Event → Prop
  | spawned : Current n .spawned n []
  | constructed : Current n .constructed n []
  | selecting : Current n .selecting n []
  | received (frame : Frame) :
    Current n (.received frame) (n + 1) [.received (n + 1) frame]
  | counted (frame : Frame) :
    Current n (.counted frame) (n + 1) [.received (n + 1) frame]
  | looked (request : Request) :
    Current n (.looked request.outcome.reply) (n + 1) (request.executed (n + 1))
  | replying (request : Request) :
    Current n (.replying request.outcome.reply) (n + 1) (request.attempted (n + 1))
  | replied : Current n .replied n []
  | reporting (error : ReadError) :
    Current n (.reporting error) n [.readFailed error, .attempted (.error error.display)]
  /-- The task has left between two requests. -/
  | left (ending : Ending) (unwinding : Unwinding) (number : ℕ)
    (hending : ending = .notStarted ∨ ending = .finished ∨ ending = .cancelled ∨
      ending = .panicked) :
    Current n (.leaving ending unwinding) number [.ended ending]
  /-- The task has left before the last reply was written. -/
  | unanswered (request : Request) (ending : Ending) (unwinding : Unwinding) (number : ℕ)
    (hending : (∃ text, ending = .failed (.io text)) ∨ ending = .cancelled) :
    Current n (.leaving ending unwinding) number
      (request.attempted (n + 1) ++ [.ended ending])
  /-- The task has left after a read error. -/
  | unreadable (error : ReadError) (ending : Ending) (unwinding : Unwinding) (number : ℕ)
    (hending : ending = .failed error ∨ ending = .cancelled) :
    Current n (.leaving ending unwinding) number
      [.readFailed error, .attempted (.error error.display), .ended ending]

/-- The events of a task: the script of what it has served, and its current pass. -/
def TaskTrace (task : Task) (events : List Event) : Prop :=
  ∃ requests current, events = script 1 requests ++ current ∧
    Current requests.length task.phase task.request current

/-- One step extends the current pass, or completes it with a written reply. -/
theorem Current.step {n : ℕ} {shared shared' : Shared} {task task' : Task} {action : TaskAction}
    {current now : List Event} (h : Current n task.phase task.request current)
    (hstep : task.Step shared action shared' task' now) :
    Current n task'.phase task'.request (current ++ now) ∨
      ∃ request : Request, current ++ now = request.served (n + 1) ∧
        Current (n + 1) task'.phase task'.request [] := by
  obtain ⟨phase, shutdownRx, number⟩ := task
  cases hstep with
  | start hphase =>
    cases hphase
    cases h
    exact .inl .constructed
  | abandon hphase action ending hending =>
    cases hphase
    cases h
    exact .inl (.left ending _ _ (by tauto))
  | enter hphase =>
    cases hphase
    cases h
    exact .inl .selecting
  | readFrame hphase frame =>
    cases hphase
    cases h
    exact .inl (.received frame)
  | readError hphase error =>
    cases hphase
    cases h
    exact .inl (.reporting error)
  | leaveLoop hphase action ending shutdownRx hending =>
    cases hphase
    cases h
    exact .inl (.left ending _ _ (by tauto))
  | count frame hphase =>
    cases hphase
    cases h
    exact .inl (.counted frame)
  | lookUp frame command hphase hparse =>
    cases hphase
    cases h
    exact .inl (.looked ⟨frame, .applied (.get command) _, hparse⟩)
  | store frame command hphase hparse =>
    cases hphase
    cases h
    exact .inl (.replying ⟨frame, .applied (.set command) (.simple "OK"), hparse⟩)
  | reject frame error hphase hparse =>
    cases hphase
    cases h
    exact .inl (.replying ⟨frame, .rejected error, hparse⟩)
  | countLookup output hphase =>
    cases hphase
    cases h with
    | looked request => exact .inl (.replying request)
  | write output hphase =>
    cases hphase
    cases h with
    | replying request => exact .inr ⟨request, rfl, .replied⟩
  | leaveReply output hphase action ending hending =>
    cases hphase
    cases h with
    | replying request => exact .inl (.unanswered request ending _ _ hending)
  | countResponse hphase =>
    cases hphase
    cases h
    exact .inl .selecting
  | leaveReport error hphase action ending hending =>
    cases hphase
    cases h
    exact .inl (.unreadable error ending _ _ hending)
  | drop ending resource rest suffix hphase =>
    cases hphase
    rw [List.append_nil]
    cases h with
    | left _ _ number hending => exact .inl (.left ending _ _ hending)
    | unanswered request _ _ number hending => exact .inl (.unanswered request ending _ _ hending)
    | unreadable error _ _ number hending => exact .inl (.unreadable error ending _ _ hending)

theorem TaskTrace.step {shared shared' : Shared} {task task' : Task} {action : TaskAction}
    {events now : List Event} (h : TaskTrace task events)
    (hstep : task.Step shared action shared' task' now) : TaskTrace task' (events ++ now) := by
  obtain ⟨requests, current, rfl, hcurrent⟩ := h
  rcases hcurrent.step hstep with hcurrent' | ⟨request, hserved, hcurrent'⟩
  · exact ⟨requests, current ++ now, by simp, hcurrent'⟩
  · refine ⟨requests ++ [request], [], ?_, by simpa using hcurrent'⟩
    rw [script_concat, List.append_nil, List.append_assoc, hserved, Nat.add_comm]

/-- A task that has left has shown how. -/
theorem TaskTrace.ended {task : Task} {events : List Event} (h : TaskTrace task events)
    {ending : Ending} {unwinding : Unwinding} (hphase : task.phase = .leaving ending unwinding) :
    .ended ending ∈ events := by
  obtain ⟨requests, current, rfl, hcurrent⟩ := h
  rw [hphase] at hcurrent
  cases hcurrent <;> simp

/-- A task that reports a failed read has shown it. -/
theorem TaskTrace.reporting {task : Task} {events : List Event} (h : TaskTrace task events)
    {error : ReadError} (hphase : task.phase = .reporting error) : .readFailed error ∈ events := by
  obtain ⟨requests, current, rfl, hcurrent⟩ := h
  obtain ⟨phase, shutdownRx, number⟩ := task
  cases hphase
  cases hcurrent
  simp

/-! ### Projections of a trace -/

namespace Event

def received? : Event → Option Frame
  | .received _ frame => some frame
  | _ => none

def outcome? : Event → Option Outcome
  | .applied _ command reply => some (.applied command reply)
  | .rejected _ error => some (.rejected error)
  | _ => none

def attempt? : Event → Option Frame
  | .attempted frame => some frame
  | _ => none

def reply? : Event → Option Frame
  | .written _ reply => some reply
  | _ => none

end Event

/-- The frames received. -/
def receivedFrames (events : List Event) : List Frame := events.filterMap Event.received?

/-- What was executed or rejected. -/
def outcomes (events : List Event) : List Outcome := events.filterMap Event.outcome?

/-- The frames that `write_frame` was called with. -/
def attempts (events : List Event) : List Frame := events.filterMap Event.attempt?

/-- The command responses written. -/
def writtenReplies (events : List Event) : List Frame := events.filterMap Event.reply?

@[simp] theorem receivedFrames_append (l r : List Event) :
    receivedFrames (l ++ r) = receivedFrames l ++ receivedFrames r := by simp [receivedFrames]

@[simp] theorem attempts_append (l r : List Event) :
    attempts (l ++ r) = attempts l ++ attempts r := by simp [attempts]

/-- The projections of a list of events. -/
structure Shows (events : List Event) (frames : List Frame) (executed : List Outcome)
    (attempted written : List Frame) : Prop where
  receivedFrames_eq : receivedFrames events = frames
  outcomes_eq : outcomes events = executed
  attempts_eq : attempts events = attempted
  writtenReplies_eq : writtenReplies events = written

theorem Shows.append {l r : List Event} {frames frames' : List Frame}
    {executed executed' : List Outcome} {attempted attempted' written written' : List Frame}
    (hl : Shows l frames executed attempted written)
    (hr : Shows r frames' executed' attempted' written') :
    Shows (l ++ r) (frames ++ frames') (executed ++ executed') (attempted ++ attempted')
      (written ++ written') := by
  obtain ⟨rfl, rfl, rfl, rfl⟩ := hl
  obtain ⟨rfl, rfl, rfl, rfl⟩ := hr
  exact ⟨List.filterMap_append, List.filterMap_append, List.filterMap_append,
    List.filterMap_append⟩

theorem Outcome.shows_event (outcome : Outcome) (number : ℕ) :
    Shows [outcome.event number] [] [outcome] [] [] := by
  cases outcome <;> exact ⟨rfl, rfl, rfl, rfl⟩

namespace Request

variable (request : Request) (number : ℕ)

theorem shows_executed :
    Shows (request.executed number) [request.frame] [request.outcome] [] [] :=
  (⟨rfl, rfl, rfl, rfl⟩ : Shows [.received number request.frame] _ [] [] []).append
    (request.outcome.shows_event number)

theorem shows_attempted :
    Shows (request.attempted number) [request.frame] [request.outcome] [request.outcome.reply] [] :=
  (request.shows_executed number).append
    (⟨rfl, rfl, rfl, rfl⟩ : Shows [.attempted request.outcome.reply] [] [] _ [])

theorem shows_served :
    Shows (request.served number) [request.frame] [request.outcome] [request.outcome.reply]
      [request.outcome.reply] :=
  (request.shows_attempted number).append
    (⟨rfl, rfl, rfl, rfl⟩ : Shows [.written number request.outcome.reply] [] [] [] _)

end Request

/-- What a script shows, request by request. -/
theorem shows_script (number : ℕ) (requests : List Request) :
    Shows (script number requests) (requests.map (·.frame)) (requests.map (·.outcome))
      (requests.map (·.outcome.reply)) (requests.map (·.outcome.reply)) := by
  induction requests generalizing number with
  | nil => exact ⟨rfl, rfl, rfl, rfl⟩
  | cons request requests ih => exact (request.shows_served number).append (ih (number + 1))

/-! ### Where events come from -/

/-- What was executed is what a frame received before parses to; what was written
is the reply to something executed. -/
structure Explained (events : List Event) : Prop where
  outcome : ∀ (number : ℕ) (outcome : Outcome), outcome.event number ∈ events →
    ∃ frame, Before events (.received number frame) (outcome.event number) ∧
      Command.fromFrame frame = outcome.parsed
  written : ∀ number reply, .written number reply ∈ events →
    ∃ outcome : Outcome, outcome.event number ∈ events ∧ reply = outcome.reply

theorem Explained.append {l r : List Event} (hl : Explained l) (hr : Explained r) :
    Explained (l ++ r) where
  outcome number outcome hmem := by
    rcases List.mem_append.mp hmem with hmem | hmem
    · obtain ⟨frame, hbefore, hparse⟩ := hl.outcome number outcome hmem
      exact ⟨frame, hbefore.append_right r, hparse⟩
    · obtain ⟨frame, hbefore, hparse⟩ := hr.outcome number outcome hmem
      exact ⟨frame, hbefore.append_left l, hparse⟩
  written number reply hmem := by
    rcases List.mem_append.mp hmem with hmem | hmem
    · obtain ⟨outcome, houtcome, hreply⟩ := hl.written number reply hmem
      exact ⟨outcome, List.mem_append_left r houtcome, hreply⟩
    · obtain ⟨outcome, houtcome, hreply⟩ := hr.written number reply hmem
      exact ⟨outcome, List.mem_append_right l houtcome, hreply⟩

/-- Events that neither execute nor acknowledge anything. -/
theorem explained_of_idle {events : List Event}
    (houtcome : ∀ (number : ℕ) (outcome : Outcome), outcome.event number ∉ events)
    (hwritten : ∀ number reply, .written number reply ∉ events) : Explained events where
  outcome number outcome hmem := absurd hmem (houtcome number outcome)
  written number reply hmem := absurd hmem (hwritten number reply)

theorem Outcome.event_injective {number number' : ℕ} {outcome outcome' : Outcome}
    (h : outcome.event number = outcome'.event number') : number = number' ∧ outcome = outcome' := by
  cases outcome <;> cases outcome' <;> simp_all [Outcome.event]

theorem Request.explained_executed (request : Request) (number : ℕ) :
    Explained (request.executed number) where
  outcome number' outcome hmem := by
    have heq : outcome.event number' = request.outcome.event number := by
      cases outcome <;> simpa [Request.executed, Outcome.event] using hmem
    obtain ⟨rfl, rfl⟩ := Outcome.event_injective heq
    exact ⟨request.frame, ⟨[_], [_], rfl, by simp, by simp⟩, request.parsed_eq⟩
  written number' reply hmem := by
    cases houtcome : request.outcome <;> simp [Request.executed, Outcome.event, houtcome] at hmem

theorem Request.explained_attempted (request : Request) (number : ℕ) :
    Explained (request.attempted number) := by
  refine (request.explained_executed number).append (explained_of_idle ?_ (by simp))
  intro number' outcome
  cases outcome <;> simp [Outcome.event]

theorem Request.explained_served (request : Request) (number : ℕ) :
    Explained (request.served number) where
  outcome number' outcome hmem := by
    have hattempted : outcome.event number' ∈ request.attempted number := by
      cases outcome <;> simpa [Request.served, Outcome.event] using hmem
    obtain ⟨frame, hbefore, hparse⟩ :=
      (request.explained_attempted number).outcome number' outcome hattempted
    exact ⟨frame, hbefore.append_right _, hparse⟩
  written number' reply hmem := by
    rcases List.mem_append.mp hmem with hmem | hmem
    · obtain ⟨outcome, houtcome, hreply⟩ :=
        (request.explained_attempted number).written number' reply hmem
      exact ⟨outcome, List.mem_append_left _ houtcome, hreply⟩
    · obtain ⟨rfl, rfl⟩ : number' = number ∧ reply = request.outcome.reply := by
        simpa using hmem
      exact ⟨request.outcome, by simp [Request.served, Request.attempted, Request.executed], rfl⟩

theorem explained_script (number : ℕ) (requests : List Request) :
    Explained (script number requests) := by
  induction requests generalizing number with
  | nil => exact explained_of_idle (by simp [script]) (by simp [script])
  | cons request requests ih => exact (request.explained_served number).append (ih (number + 1))

theorem Current.explained {n number : ℕ} {phase : Phase} {events : List Event}
    (h : Current n phase number events) : Explained events := by
  have hidle : ∀ ending, Explained [.ended ending] := fun ending =>
    explained_of_idle (by intro _ outcome; cases outcome <;> simp [Outcome.event]) (by simp)
  cases h with
  | looked request => exact request.explained_executed _
  | replying request => exact request.explained_attempted _
  | unanswered request ending => exact (request.explained_attempted _).append (hidle ending)
  | _ =>
    refine explained_of_idle ?_ (by simp)
    intro _ outcome
    cases outcome <;> simp [Outcome.event]

/-- Every task has a trace, and nothing is seen of the others. -/
structure ServerTrace (s : Server) (out : List (ℕ × Event)) : Prop where
  tasks : ∀ i task, s.tasks[i]? = some task → TaskTrace task (project i out)
  others : ∀ i, s.tasks[i]? = none → project i out = []

theorem Acceptor.Step.spawned_trace {shared shared' : Shared} {acceptor acceptor' : Acceptor}
    {action : AcceptorAction} {spawned : List Task}
    (h : acceptor.Step shared action shared' acceptor' spawned) :
    ∀ task ∈ spawned, TaskTrace task [] := by
  cases h with
  | spawn handlerRx hphase =>
    intro task htask
    rw [List.mem_singleton.mp htask]
    exact ⟨[], [], rfl, .spawned⟩
  | _ => simp

theorem ServerTrace.step {s t : Server} {out : List (ℕ × Event)} (h : ServerTrace s out)
    {action : ServerAction} {now : List (ℕ × Event)}
    (hstep : server.step action s = some (t, now)) : ServerTrace t (out ++ now) := by
  cases Server.step_cases hstep with
  | acceptor action hact =>
    rw [List.append_nil]
    constructor
    · intro i task hi
      rw [List.getElem?_append] at hi
      split at hi
      · exact h.tasks i task hi
      · rename_i hlt
        rw [h.others i (List.getElem?_eq_none (by omega))]
        exact hact.spawned_trace task (List.mem_of_getElem? hi)
    · intro i hi
      refine h.others i (List.getElem?_eq_none ?_)
      have hlen := List.getElem?_eq_none_iff.mp hi
      rw [List.length_append] at hlen
      omega
  | task j action hj htask =>
    have hlt := (List.getElem?_eq_some_iff.mp hj).1
    constructor
    · intro i task hi
      rw [project_append]
      by_cases hji : j = i
      · subst hji
        rw [List.getElem?_set_self hlt] at hi
        cases hi
        rw [project_map_self]
        exact (h.tasks j _ hj).step htask
      · rw [List.getElem?_set_ne hji] at hi
        rw [project_map_ne hji, List.append_nil]
        exact h.tasks i task hi
    · intro i hi
      rw [List.getElem?_eq_none_iff, List.length_set] at hi
      rw [project_append, h.others i (List.getElem?_eq_none hi), project_map_ne (by omega)]
      rfl
  | send =>
    rw [List.append_nil]
    exact ⟨h.tasks, h.others⟩
  | dropShutdownTx =>
    rw [List.append_nil]
    exact ⟨h.tasks, h.others⟩
  | dropCompleteTx =>
    rw [List.append_nil]
    exact ⟨h.tasks, h.others⟩

theorem Server.tasks_new {maxConnections : ℕ} {database : Database} {s : Server}
    (h : Server.new maxConnections database = some s) :
    s.tasks = [] ∧ s.shared.database = database := by
  unfold Server.new at h
  split at h
  · cases h
    exact ⟨rfl, rfl⟩
  · cases h

theorem ServerTrace.new {maxConnections : ℕ} {database : Database} {s : Server}
    (h : Server.new maxConnections database = some s) : ServerTrace s [] := by
  obtain ⟨htasks, -⟩ := Server.tasks_new h
  exact ⟨by simp [htasks], by simp⟩

/-- In every run from a new server, every task has a trace. -/
theorem ServerTrace.run {maxConnections : ℕ} {database : Database} {s₀ s : Server}
    {actions : List ServerAction} {out : List (ℕ × Event)}
    (hnew : Server.new maxConnections database = some s₀)
    (hrun : server.run actions s₀ = some (s, out)) : ServerTrace s out := by
  have hstep : ∀ s out action t now, ServerTrace s out → server.step action s = some (t, now) →
      ServerTrace t (out ++ now) := fun _ _ _ _ _ hs hstep => hs.step hstep
  simpa using server.run_invariant hstep (ServerTrace.new hnew) hrun

/-- The trace behind a projection, with or without a task. -/
theorem ServerTrace.project_eq {s : Server} {out : List (ℕ × Event)} (h : ServerTrace s out)
    (i : ℕ) : ∃ requests current phase number, project i out = script 1 requests ++ current ∧
      Current requests.length phase number current := by
  cases hi : s.tasks[i]? with
  | some task =>
    obtain ⟨requests, current, hproject, hcurrent⟩ := h.tasks i task hi
    exact ⟨requests, current, _, _, hproject, hcurrent⟩
  | none => exact ⟨[], [], .spawned, 0, h.others i hi, .spawned⟩

/-- The events of every connection explain themselves. -/
theorem ServerTrace.explained {s : Server} {out : List (ℕ × Event)} (h : ServerTrace s out)
    (i : ℕ) : Explained (project i out) := by
  obtain ⟨requests, current, phase, number, hproject, hcurrent⟩ := h.project_eq i
  rw [hproject]
  exact (explained_script 1 requests).append hcurrent.explained

end MiniRedis
