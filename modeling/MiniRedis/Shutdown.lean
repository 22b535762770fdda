import MiniRedis.Server

/-!
# Who observes the shutdown message

A receiver sees the messages sent after its subscription. The acceptor subscribes
the receiver of a handler only after `select!` has taken the accept branch, so a
message that was sent before this subscription is invisible to the handler.
-/
namespace MiniRedis

open Library

/-- The task has not left its loop. -/
def Phase.live : Phase → Bool
  | .leaving _ _ => false
  | _ => true

def Task.live (task : Task) : Bool := task.phase.live

/-- A message is unread on the task's receiver, or the channel is closed. -/
def Shared.Notifies (shared : Shared) (task : Task) : Prop :=
  task.shutdownRx < shared.messages ∨ shared.shutdownSenders = 0

/-- After the send, every live handler is going to observe the shutdown. -/
def NoLostShutdown (s : Server) : Prop :=
  0 < s.shared.messages → ∀ task ∈ s.tasks, task.live = true → s.shared.Notifies task

/-- The receiver is only read by the shutdown branch, which ends the loop. -/
theorem Task.Step.live_iff {shared shared' : Shared} {task task' : Task} {action : TaskAction}
    {events : List Event} (h : task.Step shared action shared' task' events)
    (hlive : task'.live = true) : task.live = true ∧ task'.shutdownRx = task.shutdownRx := by
  cases h <;> simp_all [live, Phase.live]

theorem Task.Step.messages_eq {shared shared' : Shared} {task task' : Task} {action : TaskAction}
    {events : List Event} (h : task.Step shared action shared' task' events) :
    shared'.messages = shared.messages := by
  cases h with
  | drop ending resource => cases resource <;> rfl
  | _ => rfl

theorem Acceptor.Step.messages_eq {shared shared' : Shared} {acceptor acceptor' : Acceptor}
    {action : AcceptorAction} {spawned : List Task}
    (h : acceptor.Step shared action shared' acceptor' spawned) :
    shared'.messages = shared.messages := by
  cases h <;> rfl

/-- The receiver that the acceptor has subscribed for the next handler. -/
def AcceptorPhase.handlerRx : AcceptorPhase → Option ℕ
  | .subscribed handlerRx => some handlerRx
  | .cloned handlerRx => some handlerRx
  | _ => none

/-- Every receiver of a live or coming handler was subscribed before any message. -/
structure SubscribedBefore (s : Server) : Prop where
  tasks : ∀ task ∈ s.tasks, task.live = true → task.shutdownRx = 0
  acceptor : ∀ handlerRx ∈ s.acceptor.phase.handlerRx, handlerRx = 0

theorem SubscribedBefore.noLostShutdown {s : Server} (h : SubscribedBefore s) :
    NoLostShutdown s := by
  intro hsent task htask hlive
  have hrx := h.tasks task htask hlive
  exact .inl (by omega)

theorem SubscribedBefore.new {maxConnections : ℕ} {database : Database} {s : Server}
    (h : Server.new maxConnections database = some s) : SubscribedBefore s := by
  unfold Server.new at h
  split at h
  · cases h
    exact ⟨by simp, by simp [AcceptorPhase.handlerRx]⟩
  · cases h

theorem SubscribedBefore.acceptor_step {s : Server} (h : SubscribedBefore s)
    {action : AcceptorAction} {shared : Shared} {acceptor : Acceptor} {spawned : List Task}
    (hstep : s.acceptor.Step s.shared action shared acceptor spawned)
    (hearly : action = .subscribe → s.shared.messages = 0) :
    SubscribedBefore { s with shared, acceptor, tasks := s.tasks ++ spawned } := by
  obtain ⟨htasks, hacceptor⟩ := h
  cases hstep with
  | subscribe hphase =>
    refine ⟨by simpa using htasks, ?_⟩
    simpa [Acceptor.goto, AcceptorPhase.handlerRx, Shared.subscribe] using hearly rfl
  | cloneSender handlerRx hphase =>
    refine ⟨by simpa using htasks, ?_⟩
    simpa [Acceptor.goto, AcceptorPhase.handlerRx, hphase] using hacceptor
  | spawn handlerRx hphase =>
    have hrx : handlerRx = 0 := hacceptor handlerRx (by simp [hphase, AcceptorPhase.handlerRx])
    refine ⟨?_, by simp [Acceptor.goto, AcceptorPhase.handlerRx]⟩
    intro task htask hlive
    rcases List.mem_append.mp htask with htask | htask
    · exact htasks task htask hlive
    · rw [List.mem_singleton.mp htask]
      exact hrx
  | acceptError hphase retryAtOnce phase hnext =>
    refine ⟨by simpa using htasks, ?_⟩
    rcases hnext with rfl | rfl <;> simp [Acceptor.goto, AcceptorPhase.handlerRx]
  | _ =>
    refine ⟨by simpa using htasks, ?_⟩
    simp [Acceptor.goto, AcceptorPhase.handlerRx]

theorem SubscribedBefore.step {s t : Server} (h : SubscribedBefore s) {action : ServerAction}
    {out : List (ℕ × Event)} (hstep : server.step action s = some (t, out))
    (hearly : action = .acceptor .subscribe → s.shared.messages = 0) : SubscribedBefore t := by
  cases Server.step_cases hstep with
  | acceptor action hact =>
    exact h.acceptor_step hact fun haction => hearly (by rw [haction])
  | task i action hi htask =>
    refine ⟨fun task hmem hlive => ?_, h.acceptor⟩
    rcases List.mem_or_eq_of_mem_set hmem with hmem | rfl
    · exact h.tasks task hmem hlive
    · obtain ⟨hwas, hrx⟩ := htask.live_iff hlive
      rw [hrx]
      exact h.tasks _ (List.mem_of_getElem? hi) hwas
  | send => exact ⟨h.tasks, h.acceptor⟩
  | dropShutdownTx => exact ⟨h.tasks, h.acceptor⟩
  | dropCompleteTx => exact ⟨h.tasks, h.acceptor⟩

/-- No shutdown is lost in a run that subscribes no handler after the send. -/
theorem shutdown_not_lost (maxConnections : ℕ) (database : Database) (s₀ s : Server)
    (actions : List ServerAction) (out : List (ℕ × Event))
    (hnew : Server.new maxConnections database = some s₀)
    (hearly : server.Meets
      (fun action s => action = .acceptor .subscribe → s.shared.messages = 0) actions s₀)
    (hrun : server.run actions s₀ = some (s, out)) : NoLostShutdown s := by
  have h : SubscribedBefore s := server.run_state_invariant_of_meets
    (fun s action t now hs hC hstep => hs.step hstep hC) (SubscribedBefore.new hnew) hearly hrun
  exact h.noLostShutdown

/-- The message is sent once the handler is spawned. -/
theorem shutdown_not_lost_spawned :
    ∃ s₀ s out, Server.new 1 .new = some s₀ ∧
      server.run (.acceptor .run :: acceptance.map .acceptor ++ [.caller .send]) s₀ =
        some (s, out) ∧
      s.shared.messages = 1 ∧ s.tasks.length = 1 ∧ NoLostShutdown s := by
  refine ⟨_, _, _, rfl, rfl, rfl, rfl, ?_⟩
  refine shutdown_not_lost 1 .new _ _
    (.acceptor .run :: acceptance.map .acceptor ++ [.caller .send]) _ rfl ?_ rfl
  refine ⟨by simp, fun _ _ h => ?_⟩
  cases h
  refine ⟨by simp, fun _ _ h => ?_⟩
  cases h
  refine ⟨by simp, fun _ _ h => ?_⟩
  cases h
  refine ⟨fun _ => rfl, fun _ _ h => ?_⟩
  cases h
  refine ⟨by simp, fun _ _ h => ?_⟩
  cases h
  refine ⟨by simp, fun _ _ h => ?_⟩
  cases h
  exact ⟨by simp, fun _ _ _ => trivial⟩

/-- A connection is pending when the message is sent, and `select!` takes the
accept branch: the handler is subscribed too late and the channel stays open. -/
theorem shutdown_lost :
    ∃ s₀ s out, Server.new 1 .new = some s₀ ∧
      server.run [.acceptor .run, .acceptor .acquire, .caller .send, .acceptor .accept,
        .acceptor .subscribe, .acceptor .cloneSender, .acceptor .spawn, .task 0 (.start true),
        .task 0 .enter] s₀ = some (s, out) ∧
      s.holdsShutdownTx = true ∧ s.shared.messages = 1 ∧ ¬ NoLostShutdown s := by
  refine ⟨_, _, _, rfl, rfl, rfl, rfl, ?_⟩
  intro h
  have hnotified := h (by decide) _ List.mem_cons_self rfl
  rcases hnotified with hunread | hclosed
  · exact absurd hunread (by decide)
  · exact absurd hclosed (by decide)

end MiniRedis
