import MiniRedis.Command
import MiniRedis.Connection
import MiniRedis.Metrics

/-!
# Handler tasks

One task runs the closure that the acceptor spawns: it constructs a handler and
runs its loop. A step is one access to shared state, or what the task does
between two such accesses; every step of other tasks may come between. A task
can only be cancelled where the code awaits. What it owns is dropped one
resource at a time, in Rust's order.
-/
namespace MiniRedis

/-- What the acceptor and all tasks share. The broadcast channel is the number of
messages sent; a receiver is the number of messages it no longer sees. -/
structure Shared where
  database : Database
  metrics : Metrics
  /-- Free permits of the semaphore. -/
  permits : ℕ
  messages : ℕ
  /-- Live senders of the shutdown channel. -/
  shutdownSenders : ℕ
  /-- Live senders of the shutdown-completion channel. -/
  completeSenders : ℕ

namespace Shared

/-- `subscribe`: only messages sent from now on are seen. -/
def subscribe (shared : Shared) : ℕ := shared.messages

/-- `recv`, when it is ready: with a message, or because the channel is closed. -/
def recv (shared : Shared) (receiver : ℕ) : Option ℕ :=
  if receiver < shared.messages then some (receiver + 1)
  else if shared.shutdownSenders = 0 then some receiver
  else none

end Shared

/-- What a task owns and others can notice. -/
inductive Resource where
  | guard
  | connection
  | shutdownRx
  | shutdownCompleteTx
  | permit
  deriving DecidableEq, Repr

/-- The fields of `Handler` in declaration order, which is their drop order. The
closure captures them in the same order. -/
def handlerFields : List Resource := [.connection, .shutdownRx, .shutdownCompleteTx, .permit]

/-- `run` drops its guard before `self`. -/
def runLocals : List Resource := .guard :: handlerFields

/-- Dropping one resource. -/
def Resource.drop (shared : Shared) : Resource → Shared
  | .guard => { shared with metrics := shared.metrics.decActiveConnections }
  | .shutdownCompleteTx => { shared with completeSenders := shared.completeSenders - 1 }
  | .permit => { shared with permits := shared.permits + 1 }
  | .connection => shared
  | .shutdownRx => shared

/-- What an ending task still has to drop. -/
structure Unwinding where
  rest : List Resource
  suffix : rest <:+ runLocals

/-- How a task ends. -/
inductive Ending where
  /-- `set_nodelay` failed; no handler was constructed. -/
  | notStarted
  /-- `run` returned `Ok(())`. -/
  | finished
  /-- `run` returned the error. -/
  | failed (error : ReadError)
  | cancelled
  | panicked
  deriving DecidableEq, Repr

/-- Where a task stands. -/
inductive Phase where
  /-- The closure has not been polled. -/
  | spawned
  /-- `Handler::new` has returned. -/
  | constructed
  /-- The guard exists; the loop waits in `select!`. -/
  | selecting
  /-- Before step 5. -/
  | received (frame : Frame)
  /-- Before step 6. -/
  | counted (frame : Frame)
  /-- The lookup of a GET is done and not counted. -/
  | looked (output : Frame)
  /-- Step 7 awaits `write_frame`. -/
  | replying (output : Frame)
  /-- Before step 8. -/
  | replied
  /-- The error response of a failed read awaits `write_frame`. -/
  | reporting (error : ReadError)
  | leaving (ending : Ending) (unwinding : Unwinding)

structure Task where
  phase : Phase
  shutdownRx : ℕ
  /-- Frames read so far. The code does not count them for each connection; the
  events below refer to them by number. -/
  request : ℕ

/-- What an observer of one task sees. -/
inductive Event where
  | received (request : ℕ) (frame : Frame)
  | applied (request : ℕ) (command : Command) (reply : Frame)
  | rejected (request : ℕ) (error : ParseError)
  /-- `write_frame` is called. -/
  | attempted (frame : Frame)
  /-- `write_frame` of a command response has succeeded. -/
  | written (request : ℕ) (reply : Frame)
  | readFailed (error : ReadError)
  | ended (ending : Ending)

inductive TaskAction where
  /-- The first poll of the closure, up to `Handler::new`. -/
  | start (nodelay : Bool)
  /-- `run` creates its guard. -/
  | enter
  /-- The awaited read completes. -/
  | readFrame (result : ReadResult)
  | timeout
  | shutdown
  | count
  | execute
  | countLookup
  | writeOk
  | writeFail (text : String)
  | countResponse
  | drop
  | cancel

/-- Neither a failure of the transport, nor a timeout, a shutdown or a cancellation. -/
def TaskAction.Undisturbed : TaskAction → Prop
  | .start nodelay => nodelay = true
  | .timeout => False
  | .shutdown => False
  | .writeFail _ => False
  | .cancel => False
  | _ => True

namespace Task

def goto (task : Task) (phase : Phase) : Task := { task with phase }

/-- The task ends while it owns a handler and the guard of `run`. -/
def leave (task : Task) (ending : Ending) : Task × List Event :=
  (task.goto (.leaving ending ⟨runLocals, List.suffix_refl _⟩), [.ended ending])

/-- The task ends without the guard. -/
def abandon (task : Task) (ending : Ending) : Task × List Event :=
  (task.goto (.leaving ending ⟨handlerFields, List.suffix_cons _ _⟩), [.ended ending])

@[simp] theorem phase_goto (task : Task) (phase : Phase) : (task.goto phase).phase = phase := rfl

@[simp] theorem request_goto (task : Task) (phase : Phase) :
    (task.goto phase).request = task.request := rfl

@[simp] theorem shutdownRx_goto (task : Task) (phase : Phase) :
    (task.goto phase).shutdownRx = task.shutdownRx := rfl

@[simp] theorem phase_leave (task : Task) (ending : Ending) :
    (task.leave ending).1.phase = .leaving ending ⟨runLocals, List.suffix_refl _⟩ := rfl

@[simp] theorem request_leave (task : Task) (ending : Ending) :
    (task.leave ending).1.request = task.request := rfl

@[simp] theorem phase_abandon (task : Task) (ending : Ending) :
    (task.abandon ending).1.phase = .leaving ending ⟨handlerFields, List.suffix_cons _ _⟩ := rfl

@[simp] theorem request_abandon (task : Task) (ending : Ending) :
    (task.abandon ending).1.request = task.request := rfl

/-- Step 4 of `run`. -/
def interpretRead (task : Task) : ReadResult → Task × List Event
  | .frame frame =>
    ({ task with phase := .received frame, request := task.request + 1 },
      [.received (task.request + 1) frame])
  | .eof => task.leave .finished
  | .error error =>
    (task.goto (.reporting error), [.readFailed error, .attempted (.error error.display)])
  | .panic => task.leave .panicked

/-- Step 6 of `run`, up to the access of the database. -/
def execute (shared : Shared) (task : Task) (frame : Frame) : Shared × Task × List Event :=
  match Command.fromFrame frame with
  | .ok (.get command) =>
    let (output, database) := (Command.get command).apply shared.database
    ({ shared with database }, task.goto (.looked output),
      [.applied task.request (.get command) output])
  | .ok (.set command) =>
    let (output, database) := (Command.set command).apply shared.database
    ({ shared with database }, task.goto (.replying output),
      [.applied task.request (.set command) output, .attempted output])
  | .error error =>
    ({ shared with metrics := shared.metrics.incCommandParseErrors },
      task.goto (.replying (.error error.display)),
      [.rejected task.request error, .attempted (.error error.display)])

/-- The hit or miss of a lookup. -/
def countLookup (metrics : Metrics) : Frame → Metrics
  | .bulk _ => metrics.incCacheHits
  | .null => metrics.incCacheMisses
  | _ => metrics

def step (shared : Shared) (task : Task) (action : TaskAction) :
    Option (Shared × Task × List Event) :=
  match task.phase, action with
  | .spawned, .start true => some (shared, task.goto .constructed, [])
  | .spawned, .start false => some (shared, task.abandon .notStarted)
  | .spawned, .cancel => some (shared, task.abandon .cancelled)
  | .constructed, .enter =>
    some ({ shared with metrics := shared.metrics.incActiveConnections },
      task.goto .selecting, [])
  | .selecting, .readFrame result => some (shared, task.interpretRead result)
  | .selecting, .timeout => some (shared, task.leave .finished)
  | .selecting, .shutdown =>
    match shared.recv task.shutdownRx with
    | some shutdownRx => some (shared, leave { task with shutdownRx } .finished)
    | none => none
  | .selecting, .cancel => some (shared, task.leave .cancelled)
  | .received frame, .count =>
    some ({ shared with metrics := shared.metrics.incRequestsReceived },
      task.goto (.counted frame), [])
  | .counted frame, .execute => some (task.execute shared frame)
  | .looked output, .countLookup =>
    some ({ shared with metrics := countLookup shared.metrics output },
      task.goto (.replying output), [.attempted output])
  | .replying output, .writeOk =>
    some (shared, task.goto .replied, [.written task.request output])
  | .replying _, .writeFail text => some (shared, task.leave (.failed (.io text)))
  | .replying _, .cancel => some (shared, task.leave .cancelled)
  | .replied, .countResponse =>
    some ({ shared with metrics := shared.metrics.incCommandResponsesWritten },
      task.goto .selecting, [])
  | .reporting error, .writeOk => some (shared, task.leave (.failed error))
  | .reporting error, .writeFail _ => some (shared, task.leave (.failed error))
  | .reporting _, .cancel => some (shared, task.leave .cancelled)
  | .leaving ending ⟨resource :: rest, suffix⟩, .drop =>
    some (resource.drop shared,
      task.goto (.leaving ending ⟨rest, (List.suffix_cons resource rest).trans suffix⟩), [])
  | _, _ => none

/-- Everything a step can do, one constructor for each transition. -/
inductive Step (shared : Shared) (task : Task) : TaskAction → Shared → Task → List Event → Prop
  | start (hphase : task.phase = .spawned) :
    Step shared task (.start true) shared (task.goto .constructed) []
  | abandon (hphase : task.phase = .spawned) (action : TaskAction) (ending : Ending)
    (hending : ending = .notStarted ∨ ending = .cancelled) (hdisturbed : ¬ action.Undisturbed) :
    Step shared task action shared (task.abandon ending).1 [.ended ending]
  | enter (hphase : task.phase = .constructed) :
    Step shared task .enter { shared with metrics := shared.metrics.incActiveConnections }
      (task.goto .selecting) []
  | readFrame (hphase : task.phase = .selecting) (frame : Frame) :
    Step shared task (.readFrame (.frame frame)) shared
      { task with phase := .received frame, request := task.request + 1 }
      [.received (task.request + 1) frame]
  | readError (hphase : task.phase = .selecting) (error : ReadError) :
    Step shared task (.readFrame (.error error)) shared (task.goto (.reporting error))
      [.readFailed error, .attempted (.error error.display)]
  | leaveLoop (hphase : task.phase = .selecting) (action : TaskAction) (ending : Ending)
    (shutdownRx : ℕ) (hending : ending = .finished ∨ ending = .cancelled ∨ ending = .panicked)
    (hdisturbed : action.Undisturbed → action = .readFrame .eof ∨ action = .readFrame .panic) :
    Step shared task action shared (leave { task with shutdownRx } ending).1 [.ended ending]
  | count (frame : Frame) (hphase : task.phase = .received frame) :
    Step shared task .count { shared with metrics := shared.metrics.incRequestsReceived }
      (task.goto (.counted frame)) []
  | lookUp (frame : Frame) (command : Get) (hphase : task.phase = .counted frame)
    (hparse : Command.fromFrame frame = .ok (.get command)) :
    Step shared task .execute shared
      (task.goto (.looked ((Command.get command).apply shared.database).1))
      [.applied task.request (.get command) ((Command.get command).apply shared.database).1]
  | store (frame : Frame) (command : Set) (hphase : task.phase = .counted frame)
    (hparse : Command.fromFrame frame = .ok (.set command)) :
    Step shared task .execute
      { shared with database := shared.database.set command.key command.value }
      (task.goto (.replying (.simple "OK")))
      [.applied task.request (.set command) (.simple "OK"), .attempted (.simple "OK")]
  | reject (frame : Frame) (error : ParseError) (hphase : task.phase = .counted frame)
    (hparse : Command.fromFrame frame = .error error) :
    Step shared task .execute
      { shared with metrics := shared.metrics.incCommandParseErrors }
      (task.goto (.replying (.error error.display)))
      [.rejected task.request error, .attempted (.error error.display)]
  | countLookup (output : Frame) (hphase : task.phase = .looked output) :
    Step shared task .countLookup
      { shared with metrics := Task.countLookup shared.metrics output }
      (task.goto (.replying output)) [.attempted output]
  | write (output : Frame) (hphase : task.phase = .replying output) :
    Step shared task .writeOk shared (task.goto .replied) [.written task.request output]
  | leaveReply (output : Frame) (hphase : task.phase = .replying output) (action : TaskAction)
    (ending : Ending) (hending : (∃ text, ending = .failed (.io text)) ∨ ending = .cancelled)
    (hdisturbed : ¬ action.Undisturbed) :
    Step shared task action shared (task.leave ending).1 [.ended ending]
  | countResponse (hphase : task.phase = .replied) :
    Step shared task .countResponse
      { shared with metrics := shared.metrics.incCommandResponsesWritten }
      (task.goto .selecting) []
  | leaveReport (error : ReadError) (hphase : task.phase = .reporting error)
    (action : TaskAction) (ending : Ending)
    (hending : ending = .failed error ∨ ending = .cancelled)
    (hdisturbed : action.Undisturbed → action = .writeOk) :
    Step shared task action shared (task.leave ending).1 [.ended ending]
  | drop (ending : Ending) (resource : Resource) (rest : List Resource)
    (suffix : resource :: rest <:+ runLocals)
    (hphase : task.phase = .leaving ending ⟨resource :: rest, suffix⟩) :
    Step shared task .drop (resource.drop shared)
      (task.goto (.leaving ending ⟨rest, (List.suffix_cons resource rest).trans suffix⟩)) []

theorem step_cases {shared shared' : Shared} {task task' : Task} {action : TaskAction}
    {events : List Event} (h : task.step shared action = some (shared', task', events)) :
    Step shared task action shared' task' events := by
  unfold step at h
  split at h
  case h_1 hphase =>
    cases h
    exact .start hphase
  case h_2 hphase =>
    cases h
    exact .abandon hphase _ _ (.inl rfl) Bool.false_ne_true
  case h_3 hphase =>
    cases h
    exact .abandon hphase _ _ (.inr rfl) not_false
  case h_4 hphase =>
    cases h
    exact .enter hphase
  case h_5 result hphase =>
    cases result with
    | frame frame =>
      cases h
      exact .readFrame hphase frame
    | eof =>
      cases h
      exact .leaveLoop hphase _ _ task.shutdownRx (.inl rfl) fun _ => .inl rfl
    | error error =>
      cases h
      exact .readError hphase error
    | panic =>
      cases h
      exact .leaveLoop hphase _ _ task.shutdownRx (.inr (.inr rfl)) fun _ => .inr rfl
  case h_6 hphase =>
    cases h
    exact .leaveLoop hphase _ _ task.shutdownRx (.inl rfl) False.elim
  case h_7 hphase =>
    split at h
    · cases h
      exact .leaveLoop hphase _ _ _ (.inl rfl) False.elim
    · cases h
  case h_8 hphase =>
    cases h
    exact .leaveLoop hphase _ _ task.shutdownRx (.inr (.inl rfl)) False.elim
  case h_9 frame hphase =>
    cases h
    exact .count frame hphase
  case h_10 frame hphase =>
    unfold execute at h
    split at h
    · rename_i command hparse
      have hdatabase := Command.apply_get_snd command shared.database
      have hstep := @Step.lookUp shared task frame command hphase hparse
      rcases happly : (Command.get command).apply shared.database with ⟨output, database⟩
      rw [happly] at hdatabase hstep h
      cases hdatabase
      cases h
      exact hstep
    · rename_i command hparse
      cases h
      exact .store frame command hphase hparse
    · rename_i error hparse
      cases h
      exact .reject frame error hphase hparse
  case h_11 output hphase =>
    cases h
    exact .countLookup output hphase
  case h_12 output hphase =>
    cases h
    exact .write output hphase
  case h_13 output text hphase =>
    cases h
    exact .leaveReply output hphase _ _ (.inl ⟨_, rfl⟩) not_false
  case h_14 output hphase =>
    cases h
    exact .leaveReply output hphase _ _ (.inr rfl) not_false
  case h_15 hphase =>
    cases h
    exact .countResponse hphase
  case h_16 error hphase =>
    cases h
    exact .leaveReport error hphase _ _ (.inl rfl) fun _ => rfl
  case h_17 error text hphase =>
    cases h
    exact .leaveReport error hphase _ _ (.inl rfl) False.elim
  case h_18 error hphase =>
    cases h
    exact .leaveReport error hphase _ _ (.inr rfl) False.elim
  case h_19 ending resource rest suffix hphase =>
    cases h
    exact .drop ending resource rest suffix hphase
  case h_20 => cases h

/-- The steps of a task that nothing disturbs and that are no reads. -/
inductive Works (shared : Shared) (task : Task) : TaskAction → Shared → Task → List Event → Prop
  | start (hphase : task.phase = .spawned) :
    Works shared task (.start true) shared (task.goto .constructed) []
  | enter (hphase : task.phase = .constructed) :
    Works shared task .enter { shared with metrics := shared.metrics.incActiveConnections }
      (task.goto .selecting) []
  | count (frame : Frame) (hphase : task.phase = .received frame) :
    Works shared task .count { shared with metrics := shared.metrics.incRequestsReceived }
      (task.goto (.counted frame)) []
  | lookUp (frame : Frame) (command : Get) (hphase : task.phase = .counted frame)
    (hparse : Command.fromFrame frame = .ok (.get command)) :
    Works shared task .execute shared
      (task.goto (.looked ((Command.get command).apply shared.database).1))
      [.applied task.request (.get command) ((Command.get command).apply shared.database).1]
  | store (frame : Frame) (command : Set) (hphase : task.phase = .counted frame)
    (hparse : Command.fromFrame frame = .ok (.set command)) :
    Works shared task .execute
      { shared with database := shared.database.set command.key command.value }
      (task.goto (.replying (.simple "OK")))
      [.applied task.request (.set command) (.simple "OK"), .attempted (.simple "OK")]
  | reject (frame : Frame) (error : ParseError) (hphase : task.phase = .counted frame)
    (hparse : Command.fromFrame frame = .error error) :
    Works shared task .execute
      { shared with metrics := shared.metrics.incCommandParseErrors }
      (task.goto (.replying (.error error.display)))
      [.rejected task.request error, .attempted (.error error.display)]
  | countLookup (output : Frame) (hphase : task.phase = .looked output) :
    Works shared task .countLookup
      { shared with metrics := Task.countLookup shared.metrics output }
      (task.goto (.replying output)) [.attempted output]
  | write (output : Frame) (hphase : task.phase = .replying output) :
    Works shared task .writeOk shared (task.goto .replied) [.written task.request output]
  | countResponse (hphase : task.phase = .replied) :
    Works shared task .countResponse
      { shared with metrics := shared.metrics.incCommandResponsesWritten }
      (task.goto .selecting) []
  | leaveReport (error : ReadError) (hphase : task.phase = .reporting error) (ending : Ending)
    (hending : ending = .failed error ∨ ending = .cancelled) :
    Works shared task .writeOk shared (task.leave ending).1 [.ended ending]
  | drop (ending : Ending) (resource : Resource) (rest : List Resource)
    (suffix : resource :: rest <:+ runLocals)
    (hphase : task.phase = .leaving ending ⟨resource :: rest, suffix⟩) :
    Works shared task .drop (resource.drop shared)
      (task.goto (.leaving ending ⟨rest, (List.suffix_cons resource rest).trans suffix⟩)) []

theorem Step.works {shared shared' : Shared} {task task' : Task} {action : TaskAction}
    {events : List Event} (h : Step shared task action shared' task' events)
    (hundisturbed : action.Undisturbed) (hread : ∀ result, action ≠ .readFrame result) :
    Works shared task action shared' task' events := by
  cases h with
  | start hphase => exact .start hphase
  | enter hphase => exact .enter hphase
  | count frame hphase => exact .count frame hphase
  | lookUp frame command hphase hparse => exact .lookUp frame command hphase hparse
  | store frame command hphase hparse => exact .store frame command hphase hparse
  | reject frame error hphase hparse => exact .reject frame error hphase hparse
  | countLookup output hphase => exact .countLookup output hphase
  | write output hphase => exact .write output hphase
  | countResponse hphase => exact .countResponse hphase
  | leaveReport error hphase _ ending hending hdisturbed =>
    obtain rfl := hdisturbed hundisturbed
    exact .leaveReport error hphase ending hending
  | drop ending resource rest suffix hphase => exact .drop ending resource rest suffix hphase
  | readFrame | readError => exact absurd rfl (hread _)
  | abandon _ _ _ _ hdisturbed => exact absurd hundisturbed hdisturbed
  | leaveReply _ _ _ _ _ hdisturbed => exact absurd hundisturbed hdisturbed
  | leaveLoop _ _ _ _ _ hdisturbed =>
    rcases hdisturbed hundisturbed with rfl | rfl
    · exact absurd rfl (hread _)
    · exact absurd rfl (hread _)

end Task
end MiniRedis
