import MiniRedis.Library.Ledger
import MiniRedis.Session

/-!
# The balance of the request metrics

Every request that is counted is classified once and answered at most once. What is
counted and not yet classified, or not yet answered, is with a task that stands
between the two, or with one that has ended there.
-/
namespace MiniRedis

open Library

/-- A request is counted, and neither a hit, a miss, a SET nor a parse error yet. -/
def Phase.unclassified : Phase → Bool
  | .counted _ => true
  | .looked _ => true
  | _ => false

/-- A request is counted, and its response is not. -/
def Phase.unanswered : Phase → Bool
  | .counted _ => true
  | .looked _ => true
  | .replying _ => true
  | .replied => true
  | _ => false

/-- The handler is in `run`. -/
def Phase.running : Phase → Bool
  | .spawned => false
  | .constructed => false
  | .leaving _ _ => false
  | _ => true

def Phase.isLeaving : Phase → Bool
  | .leaving _ _ => true
  | _ => false

def Phase.isReplying : Phase → Bool
  | .replying _ => true
  | _ => false

def TaskAction.entersRun : TaskAction → Bool
  | .enter => true
  | _ => false

/-- What makes an awaited write fail, or cancels it. -/
def TaskAction.breaksWrite : TaskAction → Bool
  | .writeFail _ => true
  | .cancel => true
  | _ => false

/-- A SET is applied. -/
def Event.stores : Event → Bool
  | .applied _ (.set _) _ => true
  | _ => false

/-- The five counters of requests are below the limit of `usize`. -/
structure Metrics.Below (metrics : Metrics) : Prop where
  received : metrics.requestsReceived < usizeMax
  written : metrics.commandResponsesWritten < usizeMax
  hits : metrics.cacheHits < usizeMax
  misses : metrics.cacheMisses < usizeMax
  errors : metrics.commandParseErrors < usizeMax

/-- The five counters of requests agree. -/
structure Metrics.SameRequests (metrics metrics' : Metrics) : Prop where
  received : metrics'.requestsReceived = metrics.requestsReceived
  written : metrics'.commandResponsesWritten = metrics.commandResponsesWritten
  hits : metrics'.cacheHits = metrics.cacheHits
  misses : metrics'.cacheMisses = metrics.cacheMisses
  errors : metrics'.commandParseErrors = metrics.commandParseErrors

theorem Metrics.SameRequests.refl (metrics : Metrics) : metrics.SameRequests metrics :=
  ⟨rfl, rfl, rfl, rfl, rfl⟩

/-- What was looked up is counted as a hit or as a miss. -/
def Phase.Countable : Phase → Prop
  | .looked output => (∃ bytes, output = .bulk bytes) ∨ output = .null
  | _ => True

/-- What one step of a task does to the counters, with the requests that the task holds. -/
structure Counts (shared shared' : Shared) (task task' : Task) (action : TaskAction)
    (events : List Event) : Prop where
  classified : shared'.metrics.requestsReceived + shared.metrics.cacheHits +
      shared.metrics.cacheMisses + shared.metrics.commandParseErrors + task.phase.unclassified.toNat =
    shared.metrics.requestsReceived + shared'.metrics.cacheHits + shared'.metrics.cacheMisses +
      shared'.metrics.commandParseErrors + task'.phase.unclassified.toNat + events.countP Event.stores
  answered : shared'.metrics.requestsReceived + shared.metrics.commandResponsesWritten +
      task.phase.unanswered.toNat =
    shared.metrics.requestsReceived + shared'.metrics.commandResponsesWritten +
      task'.phase.unanswered.toNat + (task.phase.unanswered && task'.phase.isLeaving).toNat
  entered : task'.phase.running.toNat + (task.phase.unanswered && task'.phase.isLeaving).toNat ≤
    task.phase.running.toNat + action.entersRun.toNat
  countable : task'.phase.Countable

/-- A step that keeps the counters, between two phases outside of a request. -/
theorem counts_of_idle {shared shared' : Shared} {task task' : Task} {action : TaskAction}
    {events : List Event} (hsame : shared.metrics.SameRequests shared'.metrics)
    (hclassified : task.phase.unclassified = task'.phase.unclassified)
    (hphase : task.phase.unanswered = false) (hphase' : task'.phase.unanswered = false)
    (hstores : events.countP Event.stores = 0)
    (hentered : task'.phase.running.toNat ≤ task.phase.running.toNat + action.entersRun.toNat)
    (hcountable : task'.phase.Countable) : Counts shared shared' task task' action events where
  classified := by
    rw [hsame.received, hsame.hits, hsame.misses, hsame.errors, hclassified, hstores]
    rfl
  answered := by
    rw [hsame.received, hsame.written, hphase, hphase']
    rfl
  entered := by
    rw [hphase]
    exact hentered
  countable := hcountable

/-- Every step keeps both balances. -/
theorem Task.Step.counts {shared shared' : Shared} {task task' : Task} {action : TaskAction}
    {events : List Event} (h : task.Step shared action shared' task' events)
    (hbelow : shared.metrics.Below) (hcountable : task.phase.Countable) :
    Counts shared shared' task task' action events := by
  obtain ⟨phase, shutdownRx, number⟩ := task
  cases h with
  | start hphase =>
    cases hphase
    exact counts_of_idle (.refl _) rfl rfl rfl rfl (Nat.zero_le _) trivial
  | abandon hphase action ending hending hdisturbed =>
    cases hphase
    exact counts_of_idle (.refl _) rfl rfl rfl rfl (Nat.zero_le _) trivial
  | enter hphase =>
    cases hphase
    exact counts_of_idle ⟨rfl, rfl, rfl, rfl, rfl⟩ rfl rfl rfl rfl (Nat.le_refl _) trivial
  | readFrame hphase frame =>
    cases hphase
    exact counts_of_idle (.refl _) rfl rfl rfl rfl (Nat.le_refl _) trivial
  | readError hphase error =>
    cases hphase
    exact counts_of_idle (.refl _) rfl rfl rfl rfl (Nat.le_refl _) trivial
  | leaveLoop hphase action ending shutdownRx hending hdisturbed =>
    cases hphase
    exact counts_of_idle (.refl _) rfl rfl rfl rfl (Nat.zero_le _) trivial
  | count frame hphase =>
    cases hphase
    have hreceived := fetchAdd_of_lt hbelow.received
    constructor
    · simp only [Metrics.incRequestsReceived, hreceived, goto, Phase.unclassified]
      simp
      omega
    · simp only [Metrics.incRequestsReceived, hreceived, goto, Phase.unanswered]
      simp [Phase.isLeaving]
      omega
    · exact Nat.le_refl _
    · trivial
  | lookUp frame command hphase hparse =>
    cases hphase
    refine ⟨rfl, rfl, Nat.le_refl _, ?_⟩
    cases hget : shared.database.get command.key with
    | none => exact .inr (by simp [Command.apply, hget])
    | some bytes => exact .inl ⟨bytes, by simp [Command.apply, hget]⟩
  | store frame command hphase hparse =>
    cases hphase
    exact ⟨rfl, rfl, Nat.le_refl _, trivial⟩
  | reject frame error hphase hparse =>
    cases hphase
    have herrors := fetchAdd_of_lt hbelow.errors
    refine ⟨?_, rfl, Nat.le_refl _, trivial⟩
    simp only [Metrics.incCommandParseErrors, herrors, goto, Phase.unclassified]
    simp [Event.stores]
    omega
  | countLookup output hphase =>
    cases hphase
    have hhits := fetchAdd_of_lt hbelow.hits
    have hmisses := fetchAdd_of_lt hbelow.misses
    rcases hcountable with ⟨bytes, rfl⟩ | rfl
    · refine ⟨?_, rfl, Nat.le_refl _, trivial⟩
      simp only [Task.countLookup, Metrics.incCacheHits, hhits, goto, Phase.unclassified]
      simp [Event.stores]
      omega
    · refine ⟨?_, rfl, Nat.le_refl _, trivial⟩
      simp only [Task.countLookup, Metrics.incCacheMisses, hmisses, goto, Phase.unclassified]
      simp [Event.stores]
      omega
  | write output hphase =>
    cases hphase
    exact ⟨rfl, rfl, Nat.le_refl _, trivial⟩
  | leaveReply output hphase action ending hending hdisturbed =>
    cases hphase
    refine ⟨rfl, rfl, ?_, trivial⟩
    simp [Phase.running, Phase.unanswered, Phase.isLeaving]
  | countResponse hphase =>
    cases hphase
    have hwritten := fetchAdd_of_lt hbelow.written
    refine ⟨rfl, ?_, Nat.le_refl _, trivial⟩
    simp only [Metrics.incCommandResponsesWritten, hwritten, goto, Phase.unanswered]
    simp [Phase.isLeaving]
    omega
  | leaveReport error hphase action ending hending hdisturbed =>
    cases hphase
    exact counts_of_idle (.refl _) rfl rfl rfl rfl (Nat.zero_le _) trivial
  | drop ending resource rest suffix hphase =>
    cases hphase
    refine counts_of_idle ?_ rfl rfl rfl rfl (Nat.zero_le _) trivial
    cases resource <;> exact ⟨rfl, rfl, rfl, rfl, rfl⟩

/-- A task only leaves a request when the write of its response fails or is cancelled. -/
theorem Task.step_leaves {shared shared' : Shared} {task task' : Task} {action : TaskAction}
    {events : List Event} (h : task.step shared action = some (shared', task', events)) :
    (task.phase.unanswered && task'.phase.isLeaving) =
      (task.phase.isReplying && action.breaksWrite) := by
  obtain ⟨phase, shutdownRx, number⟩ := task
  cases phase with
  | counted frame =>
    cases step_cases h <;> first | rfl | contradiction
  | looked output =>
    cases action <;> cases h
    rfl
  | replying output => cases action <;> cases h <;> rfl
  | replied =>
    cases action <;> cases h
    rfl
  | _ => rfl

/-! ### The balances of a run -/

namespace Server

/-- The step of a run ends a handler between counting a request and counting its response. -/
def endsUnanswered : Server × ServerAction × Server → Bool
  | (s, .task i _, t) =>
    match s.tasks[i]?, t.tasks[i]? with
    | some task, some task' => task.phase.unanswered && task'.phase.isLeaving
    | _, _ => false
  | _ => false

/-- The step of a run makes the write of a command response fail, or cancels it. -/
def breaksReply : Server × ServerAction × Server → Bool
  | (s, .task i action, _) =>
    match s.tasks[i]? with
    | some task => task.phase.isReplying && action.breaksWrite
    | none => false
  | _ => false

/-- The step of a run starts `run` of a handler. -/
def startsHandler : Server × ServerAction × Server → Bool
  | (_, .task _ action, _) => action.entersRun
  | _ => false

end Server

/-- The balances of a run from its past steps and events. -/
structure Balanced (s : Server) (out : List (ℕ × Event))
    (past : List (Server × ServerAction × Server)) : Prop where
  classified : s.shared.metrics.requestsReceived = s.shared.metrics.cacheHits +
    s.shared.metrics.cacheMisses + out.countP (fun entry => entry.2.stores) +
      s.shared.metrics.commandParseErrors + s.tasks.countP (fun task => task.phase.unclassified)
  answered : s.shared.metrics.requestsReceived = s.shared.metrics.commandResponsesWritten +
    s.tasks.countP (fun task => task.phase.unanswered) + past.countP Server.endsUnanswered
  entered : s.tasks.countP (fun task => task.phase.running) + past.countP Server.endsUnanswered ≤
    past.countP Server.startsHandler
  broken : past.countP Server.endsUnanswered = past.countP Server.breaksReply
  countable : ∀ task ∈ s.tasks, task.phase.Countable

theorem Balanced.below {s : Server} {out : List (ℕ × Event)}
    {past : List (Server × ServerAction × Server)} (h : Balanced s out past)
    (hlimit : s.shared.metrics.requestsReceived < usizeMax) : s.shared.metrics.Below := by
  have hclassified := h.classified
  have hanswered := h.answered
  constructor <;> omega

theorem Balanced.new {maxConnections : ℕ} {database : Database} {s : Server}
    (h : Server.new maxConnections database = some s) : Balanced s [] [] := by
  unfold Server.new at h
  split at h
  · cases h
    exact ⟨rfl, rfl, Nat.le_refl _, rfl, by simp⟩
  · cases h

/-- A step of a task keeps the balances. -/
theorem Balanced.task_step {s t : Server} {out now : List (ℕ × Event)}
    {past : List (Server × ServerAction × Server)} (h : Balanced s out past)
    (hlimit : s.shared.metrics.requestsReceived < usizeMax) {i : ℕ} {action : TaskAction}
    (hstep : server.step (.task i action) s = some (t, now)) :
    Balanced t (out ++ now) (past ++ [(s, .task i action, t)]) := by
  obtain ⟨task, shared, task', events, hi, htask, rfl, rfl⟩ := Server.step_task_eq_some hstep
  have hcounts := (Task.step_cases htask).counts (h.below hlimit)
    (h.countable task (List.mem_of_getElem? hi))
  have hset : (s.tasks.set i task')[i]? = some task' :=
    List.getElem?_set_self (List.getElem?_eq_some_iff.mp hi).1
  have hends : Server.endsUnanswered
      (s, .task i action, { s with shared, tasks := s.tasks.set i task' }) =
        (task.phase.unanswered && task'.phase.isLeaving) := by
    simp only [Server.endsUnanswered, hi, hset]
  have hbreaks : Server.breaksReply
      (s, .task i action, { s with shared, tasks := s.tasks.set i task' }) =
        (task.phase.isReplying && action.breaksWrite) := by
    simp only [Server.breaksReply, hi]
  have hstores : (events.map fun event => (i, event)).countP (fun entry => entry.2.stores) =
      events.countP Event.stores := by
    rw [List.countP_map]
    rfl
  have hone : ∀ p : Server × ServerAction × Server → Bool, ∀ step,
      (past ++ [step]).countP p = past.countP p + (p step).toNat := by
    intro p step
    cases hp : p step <;> simp [List.countP_append, hp]
  have hunclassified := countP_set (fun task : Task => task.phase.unclassified) hi task'
  have hunanswered := countP_set (fun task : Task => task.phase.unanswered) hi task'
  have hrunning := countP_set (fun task : Task => task.phase.running) hi task'
  obtain ⟨hclassified, hanswered, hentered, hbroken, hcountable⟩ := h
  obtain ⟨hclassified', hanswered', hentered', hcountable'⟩ := hcounts
  constructor
  · rw [List.countP_append, hstores]
    simp only
    omega
  · rw [hone, hends]
    simp only
    omega
  · rw [hone, hone, hends]
    simp only [Server.startsHandler]
    omega
  · rw [hone, hone, hends, hbreaks, Task.step_leaves htask, hbroken]
  · intro other hother
    rcases List.mem_or_eq_of_mem_set hother with hmem | rfl
    · exact hcountable other hmem
    · exact hcountable'

theorem Acceptor.Step.sameRequests {shared shared' : Shared} {acceptor acceptor' : Acceptor}
    {action : AcceptorAction} {spawned : List Task}
    (h : acceptor.Step shared action shared' acceptor' spawned) :
    shared.metrics.SameRequests shared'.metrics := by
  cases h <;> exact ⟨rfl, rfl, rfl, rfl, rfl⟩

/-- A step that keeps the counters, and only adds tasks that have not begun. -/
theorem Balanced.other_step {s t : Server} {out : List (ℕ × Event)}
    {past : List (Server × ServerAction × Server)} (h : Balanced s out past) {action : ServerAction}
    (haction : ∀ i taskAction, action ≠ .task i taskAction)
    (hsame : s.shared.metrics.SameRequests t.shared.metrics) {spawned : List Task}
    (htasks : t.tasks = s.tasks ++ spawned) (hspawned : ∀ task ∈ spawned, task.phase = .spawned) :
    Balanced t out (past ++ [(s, action, t)]) := by
  have hnone : ∀ p : Phase → Bool, p .spawned = false →
      t.tasks.countP (fun task => p task.phase) = s.tasks.countP (fun task => p task.phase) := by
    intro p hp
    rw [htasks, List.countP_append, Nat.add_eq_left, List.countP_eq_zero]
    intro task htask
    rw [hspawned task htask, hp]
    exact Bool.false_ne_true
  have hpast : ∀ p : Server × ServerAction × Server → Bool, p (s, action, t) = false →
      (past ++ [(s, action, t)]).countP p = past.countP p := by
    intro p hp
    simp [List.countP_append, hp]
  have hquiet : Server.endsUnanswered (s, action, t) = false ∧
      Server.breaksReply (s, action, t) = false ∧ Server.startsHandler (s, action, t) = false := by
    cases action with
    | task i taskAction => exact absurd rfl (haction i taskAction)
    | _ => exact ⟨rfl, rfl, rfl⟩
  obtain ⟨hends, hbreaks, hstarts⟩ := hquiet
  obtain ⟨hclassified, hanswered, hentered, hbroken, hcountable⟩ := h
  constructor
  · rw [hsame.received, hsame.hits, hsame.misses, hsame.errors, hnone Phase.unclassified rfl]
    exact hclassified
  · rw [hsame.received, hsame.written, hnone Phase.unanswered rfl, hpast _ hends]
    exact hanswered
  · rw [hnone Phase.running rfl, hpast _ hends, hpast _ hstarts]
    exact hentered
  · rw [hpast _ hends, hpast _ hbreaks]
    exact hbroken
  · intro task htask
    rw [htasks] at htask
    rcases List.mem_append.mp htask with hmem | hmem
    · exact hcountable task hmem
    · rw [hspawned task hmem]
      trivial

theorem Balanced.step {s t : Server} {out now : List (ℕ × Event)}
    {past : List (Server × ServerAction × Server)} (h : Balanced s out past)
    (hlimit : s.shared.metrics.requestsReceived < usizeMax) {action : ServerAction}
    (hstep : server.step action s = some (t, now)) :
    Balanced t (out ++ now) (past ++ [(s, action, t)]) := by
  by_cases htask : ∃ i taskAction, action = .task i taskAction
  · obtain ⟨i, taskAction, rfl⟩ := htask
    exact h.task_step hlimit hstep
  · have haction : ∀ i taskAction, action ≠ .task i taskAction :=
      fun i taskAction heq => htask ⟨i, taskAction, heq⟩
    cases Server.step_cases hstep with
    | acceptor action hact =>
      rw [List.append_nil]
      exact h.other_step haction hact.sameRequests rfl hact.spawned_phase
    | task i taskAction => exact absurd rfl (haction i taskAction)
    | _ =>
      rw [List.append_nil]
      exact h.other_step haction (.refl _) (List.append_nil _).symm (by simp)

/-! ### Read errors -/

/-- A task that has failed to read touches no counter of requests any more. -/
theorem Task.Step.sameRequests {shared shared' : Shared} {task task' : Task} {action : TaskAction}
    {events : List Event} (h : task.Step shared action shared' task' events)
    (hfailed : (∃ error, action = .readFrame (.error error)) ∨
      (∃ error, task.phase = .reporting error) ∨ task.phase.isLeaving = true) :
    shared.metrics.SameRequests shared'.metrics := by
  have houtside : ∀ phase, task.phase = phase → (∀ error, phase ≠ .reporting error) →
      phase.isLeaving = false → (∀ error, action ≠ .readFrame (.error error)) → False := by
    rintro phase rfl hreporting hleaving hread
    rcases hfailed with ⟨error, heq⟩ | ⟨error, heq⟩ | heq
    · exact hread error heq
    · exact hreporting error heq
    · exact Bool.false_ne_true (hleaving.symm.trans heq)
  cases h with
  | count frame hphase => exact (houtside _ hphase (by simp) rfl (by simp)).elim
  | reject frame error hphase => exact (houtside _ hphase (by simp) rfl (by simp)).elim
  | countLookup output hphase => exact (houtside _ hphase (by simp) rfl (by simp)).elim
  | countResponse hphase => exact (houtside _ hphase (by simp) rfl (by simp)).elim
  | drop ending resource rest suffix hphase => cases resource <;> exact ⟨rfl, rfl, rfl, rfl, rfl⟩
  | _ => exact ⟨rfl, rfl, rfl, rfl, rfl⟩

/-- A task that has shown a read error reports it, or has left. -/
theorem TaskTrace.readFailed {task : Task} {events : List Event} (h : TaskTrace task events)
    {error : ReadError} (hfailed : .readFailed error ∈ events) :
    (∃ error, task.phase = .reporting error) ∨ task.phase.isLeaving = true := by
  obtain ⟨requests, current, rfl, hcurrent⟩ := h
  obtain ⟨phase, shutdownRx, number⟩ := task
  have hmem := (List.mem_append.mp hfailed).resolve_left (closing_not_mem_script 1 requests rfl)
  cases hcurrent with
  | reporting error => exact .inl ⟨error, rfl⟩
  | left => exact .inr rfl
  | unanswered => exact .inr rfl
  | unreadable => exact .inr rfl
  | looked request =>
    exact absurd (List.mem_append_left _ hmem) (request.closing_not_mem _ rfl)
  | replying request => exact absurd hmem (request.closing_not_mem _ rfl)
  | _ => simp at hmem

/-! ### The balance -/

/-- The request metrics balance in every reachable state, as long as the counters are below
their limit. -/
theorem metrics_balance (maxConnections : ℕ) (database : Database) (s₀ s : Server)
    (actions : List ServerAction) (out : List (ℕ × Event))
    (hnew : Server.new maxConnections database = some s₀)
    (hrun : server.run actions s₀ = some (s, out))
    (hlimit : server.Meets (fun _ s => s.shared.metrics.requestsReceived < usizeMax) actions s₀) :
    s.shared.metrics.requestsReceived = s.shared.metrics.cacheHits +
        s.shared.metrics.cacheMisses + out.countP (fun entry => entry.2.stores) +
        s.shared.metrics.commandParseErrors + s.tasks.countP (fun task => task.phase.unclassified) ∧
    s.shared.metrics.requestsReceived = s.shared.metrics.commandResponsesWritten +
        s.tasks.countP (fun task => task.phase.unanswered) +
        (server.transitions actions s₀).countP Server.endsUnanswered ∧
    s.shared.metrics.commandResponsesWritten ≤ s.shared.metrics.requestsReceived ∧
    s.shared.metrics.requestsReceived ≤ s.shared.metrics.commandResponsesWritten +
        (server.transitions actions s₀).countP Server.startsHandler ∧
    ((∀ task ∈ s.tasks, task.phase.running = false) →
      s.shared.metrics.requestsReceived = s.shared.metrics.commandResponsesWritten +
        (server.transitions actions s₀).countP Server.breaksReply) ∧
    ∀ i action t now, server.step (.task i action) s = some (t, now) →
      ((∃ error, action = .readFrame (.error error)) ∨ ∃ error, (i, .readFailed error) ∈ out) →
      s.shared.metrics.SameRequests t.shared.metrics := by
  have hbalanced := server.run_history_of_meets (P := Balanced)
    (fun s out past action t now h hlimit hstep => h.step hlimit hstep) (Balanced.new hnew) hlimit
    hrun
  rw [List.nil_append, List.nil_append] at hbalanced
  have hclassified := hbalanced.classified
  have hanswered := hbalanced.answered
  have hentered := hbalanced.entered
  have hrunning : s.tasks.countP (fun task => task.phase.unanswered) ≤
      s.tasks.countP (fun task => task.phase.running) := by
    refine List.countP_mono_left fun task _ hunanswered => ?_
    cases hphase : task.phase <;> rw [hphase] at hunanswered <;> first | rfl | cases hunanswered
  refine ⟨hclassified, hanswered, by omega, by omega, fun hnone => ?_, ?_⟩
  · have hzero : s.tasks.countP (fun task => task.phase.running) = 0 := by
      refine List.countP_eq_zero.mpr fun task htask => ?_
      rw [hnone task htask]
      exact Bool.false_ne_true
    rw [← hbalanced.broken]
    omega
  · intro i action t now hstep hfailed
    obtain ⟨task, shared, task', events, hi, htask, rfl, rfl⟩ := Server.step_task_eq_some hstep
    refine (Task.step_cases htask).sameRequests (hfailed.imp_right ?_)
    rintro ⟨error, hmem⟩
    exact ((ServerTrace.run hnew hrun).tasks i task hi).readFailed (mem_project.mpr hmem)

/-! ### Short runs stay below the limit -/

theorem fetchAdd_le (count : ℕ) : fetchAdd count ≤ count + 1 := by
  unfold fetchAdd
  split <;> omega

theorem Task.Step.requestsReceived_le {shared shared' : Shared} {task task' : Task}
    {action : TaskAction} {events : List Event}
    (h : task.Step shared action shared' task' events) :
    shared'.metrics.requestsReceived ≤ shared.metrics.requestsReceived + 1 := by
  cases h with
  | count frame hphase => exact fetchAdd_le _
  | countLookup output hphase => cases output <;> exact Nat.le_succ _
  | drop ending resource rest suffix hphase => cases resource <;> exact Nat.le_succ _
  | _ => exact Nat.le_succ _

theorem Server.Step.requestsReceived_le {s t : Server} {action : ServerAction}
    {out : List (ℕ × Event)} (h : s.Step action t out) :
    t.shared.metrics.requestsReceived ≤ s.shared.metrics.requestsReceived + 1 := by
  cases h with
  | acceptor action hact =>
    rw [hact.sameRequests.received]
    exact Nat.le_succ _
  | task i action hi htask => exact htask.requestsReceived_le
  | _ => exact Nat.le_succ _

/-- A run of no more steps than the counter has values left does not exceed its limit. -/
theorem meets_of_short {actions : List ServerAction} {s : Server}
    (h : s.shared.metrics.requestsReceived + actions.length ≤ usizeMax) :
    server.Meets (fun _ s => s.shared.metrics.requestsReceived < usizeMax) actions s := by
  induction actions generalizing s with
  | nil => trivial
  | cons action actions ih =>
    rw [List.length_cons] at h
    refine ⟨by omega, fun t now hstep => ih ?_⟩
    have hle := (Server.step_cases hstep).requestsReceived_le
    omega

/-- A handler is cancelled while it writes the response of its only request. -/
theorem metrics_balance_cancelled :
    ∃ s₀ s actions out, Server.new 1 .new = some s₀ ∧ server.run actions s₀ = some (s, out) ∧
      s.shared.metrics.requestsReceived = s.shared.metrics.commandResponsesWritten +
        (server.transitions actions s₀).countP Server.breaksReply ∧
      (server.transitions actions s₀).countP Server.breaksReply = 1 := by
  obtain ⟨s₀, hnew⟩ : ∃ s₀, Server.new 1 .new = some s₀ := ⟨_, rfl⟩
  obtain ⟨s, out, hrun, hlimit, hrunning, hbroken⟩ : ∃ s out, server.run
      (.acceptor .run :: admission .acceptor (.task 0) ++
        [.task 0 (.readFrame (.frame .null)), .task 0 .count, .task 0 .execute,
        .task 0 .cancel]) s₀ = some (s, out) ∧
      s₀.shared.metrics.requestsReceived + 12 ≤ usizeMax ∧
      (∀ task ∈ s.tasks, task.phase.running = false) ∧
      (server.transitions (.acceptor .run :: admission .acceptor (.task 0) ++
        [.task 0 (.readFrame (.frame .null)), .task 0 .count, .task 0 .execute,
        .task 0 .cancel]) s₀).countP Server.breaksReply = 1 := by
    cases hnew
    exact ⟨_, _, rfl, by decide, by simp [Phase.running], rfl⟩
  have h := metrics_balance 1 .new s₀ s _ out hnew hrun (meets_of_short hlimit)
  exact ⟨s₀, s, _, out, hnew, hrun, h.2.2.2.2.1 hrunning, hbroken⟩

end MiniRedis
