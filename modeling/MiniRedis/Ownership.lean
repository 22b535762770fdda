import MiniRedis.Library.Ledger
import MiniRedis.Server
import Mathlib.Data.List.Infix

/-!
# Who owns what

Every phase of a task owns a suffix of the locals of `run` in their drop order:
what is dropped later is owned whenever what is dropped earlier is. The counters
that the program keeps (permits, active connections, completion senders) equal
what the parties own.
-/
namespace MiniRedis

open Library

/-- What a task in this phase owns, in drop order. -/
def Phase.resources : Phase → List Resource
  | .spawned => handlerFields
  | .constructed => handlerFields
  | .selecting => runLocals
  | .received _ => runLocals
  | .counted _ => runLocals
  | .looked _ => runLocals
  | .replying _ => runLocals
  | .replied => runLocals
  | .reporting _ => runLocals
  | .leaving _ unwinding => unwinding.rest

def Task.resources (task : Task) : List Resource := task.phase.resources

/-- How many of the resource the task owns. -/
def Task.owns (task : Task) (resource : Resource) : ℕ := task.resources.count resource

/-- How many of the resource the tasks own together. -/
def owned (tasks : List Task) (resource : Resource) : ℕ := total (·.owns resource) tasks

theorem Task.resources_suffix (task : Task) : task.resources <:+ runLocals := by
  obtain ⟨phase, shutdownRx, request⟩ := task
  cases phase with
  | spawned => exact List.suffix_cons _ _
  | constructed => exact List.suffix_cons _ _
  | leaving ending unwinding => exact unwinding.suffix
  | _ => exact List.suffix_refl _

/-- The guard is dropped before the completion sender, and that before the permit. -/
theorem Task.owns_le (task : Task) :
    task.owns .guard ≤ task.owns .shutdownCompleteTx ∧
      task.owns .shutdownRx ≤ task.owns .shutdownCompleteTx ∧
      task.owns .connection ≤ task.owns .shutdownCompleteTx ∧
      task.owns .shutdownCompleteTx ≤ task.owns .permit := by
  have hall : ∀ rest ∈ runLocals.tails,
      rest.count .guard ≤ rest.count .shutdownCompleteTx ∧
        rest.count .shutdownRx ≤ rest.count .shutdownCompleteTx ∧
        rest.count .connection ≤ rest.count .shutdownCompleteTx ∧
        rest.count .shutdownCompleteTx ≤ rest.count .permit := by
    decide
  exact hall task.resources ((List.mem_tails _ _).mpr task.resources_suffix)

theorem Task.owns_of_cons {task task' : Task} {resource : Resource}
    (h : task.resources = resource :: task'.resources) (kind : Resource) :
    task.owns kind = [resource].count kind + task'.owns kind := by
  rw [Task.owns, h, ← List.singleton_append, List.count_append, Task.owns]

/-! ### What a dropped resource gives back -/

namespace Resource

variable (resource : Resource) (shared : Shared)

theorem permits_drop :
    (resource.drop shared).permits = shared.permits + [resource].count .permit := by
  cases resource <;> rfl

theorem completeSenders_drop :
    (resource.drop shared).completeSenders =
      shared.completeSenders - [resource].count .shutdownCompleteTx := by
  cases resource <;> rfl

theorem activeConnections_drop
    (h : [resource].count .guard ≤ shared.metrics.activeConnections) :
    (resource.drop shared).metrics.activeConnections =
      shared.metrics.activeConnections - [resource].count .guard := by
  cases resource with
  | guard => exact fetchSub_of_pos h
  | _ => rfl

end Resource

/-! ### The counters agree with what is owned -/

/-- A task step leaves what the task owns alone, creates the guard, or drops the
next resource. -/
theorem Task.Step.resources_cases {shared shared' : Shared} {task task' : Task}
    {action : TaskAction} {events : List Event}
    (h : task.Step shared action shared' task' events) :
    (task'.resources = task.resources ∧ shared'.permits = shared.permits ∧
      shared'.completeSenders = shared.completeSenders ∧
      shared'.metrics.activeConnections = shared.metrics.activeConnections) ∨
    (task'.resources = .guard :: task.resources ∧ Resource.guard ∉ task.resources ∧
      shared' = { shared with metrics := shared.metrics.incActiveConnections }) ∨
    (∃ resource, task.resources = resource :: task'.resources ∧
      shared' = resource.drop shared) := by
  cases h with
  | enter hphase =>
    refine .inr (.inl ⟨?_, ?_, rfl⟩)
    · simp [resources, hphase, Phase.resources, runLocals]
    · simp [resources, hphase, Phase.resources, handlerFields]
  | countLookup output hphase =>
    refine .inl ⟨by simp [resources, hphase, Phase.resources], rfl, rfl, ?_⟩
    cases output <;> rfl
  | drop ending resource rest suffix hphase =>
    exact .inr (.inr ⟨resource, by simp [resources, hphase, Phase.resources], rfl⟩)
  | _ =>
    refine .inl ⟨?_, rfl, rfl, rfl⟩
    simp_all [resources, Phase.resources]

/-- The permits that the acceptor holds. -/
def AcceptorPhase.permits : AcceptorPhase → ℕ
  | .idle => 0
  | .acquiring => 0
  | .selecting => 1
  | .sleeping => 1
  | .releasing => 1
  | .accepted => 1
  | .subscribed _ => 1
  | .cloned _ => 1
  | .leaving holdsPermit => if holdsPermit then 1 else 0
  | .dropped => 0

theorem AcceptorPhase.permits_le_one (phase : AcceptorPhase) : phase.permits ≤ 1 := by
  cases phase with
  | leaving holdsPermit => cases holdsPermit <;> decide
  | _ => simp [permits]

/-- The completion senders that the acceptor holds. -/
def AcceptorPhase.completeSenders : AcceptorPhase → ℕ
  | .cloned _ => 2
  | .dropped => 0
  | _ => 1

/-- The counters of the program agree with what the parties own. -/
structure Accounts (maxConnections : ℕ) (s : Server) : Prop where
  permits_eq : s.shared.permits + s.acceptor.phase.permits + owned s.tasks .permit = maxConnections
  active_eq : s.shared.metrics.activeConnections = owned s.tasks .guard
  senders_eq : s.shared.completeSenders =
    (if s.holdsCompleteTx then 1 else 0) + s.acceptor.phase.completeSenders +
      owned s.tasks .shutdownCompleteTx
  bounded : maxConnections ≤ semaphoreMaxPermits

theorem semaphoreMaxPermits_lt : semaphoreMaxPermits < usizeMax := by decide

theorem owned_le (tasks : List Task) :
    owned tasks .guard ≤ owned tasks .shutdownCompleteTx ∧
      owned tasks .shutdownCompleteTx ≤ owned tasks .permit :=
  ⟨total_le_total fun task _ => task.owns_le.1, total_le_total fun task _ => task.owns_le.2.2.2⟩

theorem Accounts.active_le {maxConnections : ℕ} {s : Server} (h : Accounts maxConnections s) :
    owned s.tasks .guard ≤ maxConnections := by
  have hle := owned_le s.tasks
  have hpermits := h.permits_eq
  omega

theorem Accounts.new {maxConnections : ℕ} {database : Database} {s : Server}
    (h : Server.new maxConnections database = some s) : Accounts maxConnections s := by
  unfold Server.new at h
  split at h
  · rename_i hbounded
    cases h
    exact ⟨by simp [AcceptorPhase.permits, owned], by simp [Metrics.new, owned],
      by simp [AcceptorPhase.completeSenders, owned], hbounded⟩
  · cases h

/-- A task pays for what it takes and gives back what it drops. -/
theorem Accounts.task_step {maxConnections : ℕ} {s : Server} (h : Accounts maxConnections s)
    {i : ℕ} {task task' : Task} {action : TaskAction} {shared : Shared} {events : List Event}
    (hi : s.tasks[i]? = some task) (hstep : task.Step s.shared action shared task' events) :
    Accounts maxConnections { s with shared, tasks := s.tasks.set i task' } := by
  obtain ⟨hpermits, hactive, hsenders, hbounded⟩ := h
  have hset : ∀ kind, owned (s.tasks.set i task') kind + task.owns kind =
      owned s.tasks kind + task'.owns kind := fun kind => total_set _ hi task'
  have hle := owned_le s.tasks
  have hlt := Nat.lt_of_le_of_lt hbounded semaphoreMaxPermits_lt
  rcases hstep.resources_cases with ⟨hsame, hp, hc, ha⟩ | ⟨hcreate, _, rfl⟩ | ⟨resource, hdrop, rfl⟩
  · have hkept : ∀ kind, owned (s.tasks.set i task') kind = owned s.tasks kind := fun kind => by
      have hkind := hset kind
      rw [Task.owns, Task.owns, hsame] at hkind
      exact Nat.add_right_cancel hkind
    refine ⟨?_, ?_, ?_, hbounded⟩
    · rw [hkept, hp]
      exact hpermits
    · rw [hkept, ha]
      exact hactive
    · rw [hkept, hc]
      exact hsenders
  · have htaken : ∀ kind, owned (s.tasks.set i task') kind =
        owned s.tasks kind + [Resource.guard].count kind := fun kind => by
      have hkind := hset kind
      rw [Task.owns_of_cons hcreate] at hkind
      omega
    have hroom : s.shared.metrics.activeConnections < usizeMax := by omega
    refine ⟨?_, ?_, ?_, hbounded⟩
    · rw [htaken]
      exact hpermits
    · rw [htaken, ← hactive]
      exact fetchAdd_of_lt hroom
    · rw [htaken]
      exact hsenders
  · have hpaid : ∀ kind, owned (s.tasks.set i task') kind + [resource].count kind =
        owned s.tasks kind := fun kind => by
      have hkind := hset kind
      rw [Task.owns_of_cons hdrop] at hkind
      omega
    have hpermit := hpaid .permit
    have hguard := hpaid .guard
    have hsender := hpaid .shutdownCompleteTx
    have hcounted : [resource].count .guard ≤ s.shared.metrics.activeConnections := by omega
    refine ⟨?_, ?_, ?_, hbounded⟩
    · simp only [Resource.permits_drop]
      omega
    · simp only [Resource.activeConnections_drop resource s.shared hcounted]
      omega
    · simp only [Resource.completeSenders_drop]
      omega

/-- The acceptor moves permits and senders between the counters, itself and the
tasks that it spawns. -/
theorem Acceptor.Step.balance {shared shared' : Shared} {acceptor acceptor' : Acceptor}
    {action : AcceptorAction} {spawned : List Task}
    (h : acceptor.Step shared action shared' acceptor' spawned)
    (hsenders : acceptor.phase.completeSenders ≤ shared.completeSenders) :
    shared'.permits + acceptor'.phase.permits + owned spawned .permit =
        shared.permits + acceptor.phase.permits ∧
      shared'.metrics.activeConnections = shared.metrics.activeConnections ∧
      owned spawned .guard = 0 ∧
      shared'.completeSenders + acceptor.phase.completeSenders =
        shared.completeSenders + acceptor'.phase.completeSenders +
          owned spawned .shutdownCompleteTx := by
  cases h with
  | acquire hphase hpermits =>
    simp [hphase, goto, AcceptorPhase.permits, AcceptorPhase.completeSenders, owned]
    omega
  | acceptError hphase retryAtOnce phase hnext =>
    have hactive : shared.metrics.incAcceptErrors.activeConnections =
        shared.metrics.activeConnections := rfl
    rcases hnext with rfl | rfl <;>
      simp [hphase, hactive, goto, AcceptorPhase.permits, AcceptorPhase.completeSenders, owned]
  | spawn handlerRx hphase =>
    have howns : ∀ resource, owned [⟨.spawned, handlerRx, 0⟩] resource =
        handlerFields.count resource := fun _ => rfl
    simp only [hphase, goto, AcceptorPhase.permits, AcceptorPhase.completeSenders, howns]
    exact ⟨rfl, trivial, rfl, rfl⟩
  | leave hphase action shutdownRx =>
    rcases hphase with hphase | hphase <;>
      simp [hphase, AcceptorPhase.permits, AcceptorPhase.completeSenders, owned]
  | dropAcceptor hphase =>
    simp only [hphase, AcceptorPhase.completeSenders] at hsenders
    simp [hphase, goto, AcceptorPhase.permits, AcceptorPhase.completeSenders, owned]
    omega
  | cloneSender handlerRx hphase =>
    simp [hphase, goto, AcceptorPhase.permits, AcceptorPhase.completeSenders, owned]
  | run hphase | accept hphase | wake hphase | release hphase | subscribe hphase
  | leaveAcquiring hphase | dropPermit hphase | finish hphase =>
    simp [hphase, goto, AcceptorPhase.permits, AcceptorPhase.completeSenders, owned]

theorem Accounts.acceptor_step {maxConnections : ℕ} {s : Server} (h : Accounts maxConnections s)
    {action : AcceptorAction} {shared : Shared} {acceptor : Acceptor} {spawned : List Task}
    (hstep : s.acceptor.Step s.shared action shared acceptor spawned) :
    Accounts maxConnections { s with shared, acceptor, tasks := s.tasks ++ spawned } := by
  obtain ⟨hpermits, hactive, hsenders, hbounded⟩ := h
  have hspawned : ∀ resource, owned (s.tasks ++ spawned) resource =
      owned s.tasks resource + owned spawned resource := fun resource => total_append _ _ _
  obtain ⟨hp, ha, hg, hc⟩ := hstep.balance (by omega)
  refine ⟨?_, ?_, ?_, hbounded⟩
  · rw [hspawned]
    simp only
    omega
  · rw [hspawned]
    simp only
    omega
  · rw [hspawned]
    simp only
    omega

theorem Accounts.step {maxConnections : ℕ} {s t : Server} (h : Accounts maxConnections s)
    {action : ServerAction} {out : List (ℕ × Event)} (hstep : server.step action s = some (t, out)) :
    Accounts maxConnections t := by
  cases Server.step_cases hstep with
  | acceptor action hact => exact h.acceptor_step hact
  | task i action hi htask => exact h.task_step hi htask
  | send => exact ⟨h.permits_eq, h.active_eq, h.senders_eq, h.bounded⟩
  | dropShutdownTx => exact ⟨h.permits_eq, h.active_eq, h.senders_eq, h.bounded⟩
  | dropCompleteTx hold =>
    obtain ⟨hpermits, hactive, hsenders, hbounded⟩ := h
    rw [hold, if_pos rfl] at hsenders
    refine ⟨hpermits, hactive, ?_, hbounded⟩
    simp only [Bool.false_eq_true, if_false]
    omega

theorem Accounts.run {maxConnections : ℕ} {database : Database} {s₀ s : Server}
    {actions : List ServerAction} {out : List (ℕ × Event)}
    (hnew : Server.new maxConnections database = some s₀)
    (hrun : server.run actions s₀ = some (s, out)) : Accounts maxConnections s :=
  server.run_state_invariant (P := Accounts maxConnections) (fun _ _ _ _ h hstep => h.step hstep)
    (Accounts.new hnew) hrun

/-- Permits are conserved and bound the active connections, and no guard is
dropped at the count zero. -/
theorem permits_conserved (maxConnections : ℕ) (database : Database) (s₀ s : Server)
    (actions : List ServerAction) (out : List (ℕ × Event))
    (hnew : Server.new maxConnections database = some s₀)
    (hrun : server.run actions s₀ = some (s, out)) :
    s.shared.permits + s.acceptor.phase.permits + owned s.tasks .permit = maxConnections ∧
    s.acceptor.phase.permits ≤ 1 ∧
    s.shared.metrics.activeConnections = owned s.tasks .guard ∧
    owned s.tasks .guard ≤ owned s.tasks .permit ∧
    s.shared.metrics.activeConnections ≤ maxConnections ∧
    ∀ task ∈ s.tasks, .guard ∈ task.resources → 0 < s.shared.metrics.activeConnections := by
  have h := Accounts.run hnew hrun
  have hle := owned_le s.tasks
  refine ⟨h.permits_eq, s.acceptor.phase.permits_le_one, h.active_eq, by omega, ?_, ?_⟩
  · rw [h.active_eq]
    exact h.active_le
  · intro task htask hguard
    have hshare : task.owns .guard ≤ owned s.tasks .guard :=
      share_le_total (fun task : Task => task.owns .guard) htask
    have hpos : 0 < task.owns .guard := List.count_pos_iff.mpr hguard
    rw [h.active_eq]
    omega

/-- With one permit, a handler that has entered `run` owns it and is counted. -/
theorem permits_conserved_one :
    ∃ s₀ s out, Server.new 1 .new = some s₀ ∧
      server.run (.acceptor .run :: admission .acceptor (.task 0)) s₀ = some (s, out) ∧
      s.shared.permits = 0 ∧ s.shared.metrics.activeConnections = 1 ∧
      s.shared.metrics.activeConnections = owned s.tasks .guard ∧
      s.shared.permits + s.acceptor.phase.permits + owned s.tasks .permit = 1 := by
  refine ⟨_, _, _, rfl, rfl, rfl, rfl, ?_⟩
  have h := permits_conserved 1 .new _ _ (.acceptor .run :: admission .acceptor (.task 0)) _ rfl rfl
  exact ⟨h.2.2.1, h.1⟩

end MiniRedis
