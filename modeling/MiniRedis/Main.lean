import MiniRedis.Ownership
import MiniRedis.Shutdown

/-!
# The server binary

`main` selects between the accept loop and Ctrl+C, drops the future of the accept
loop, sends the shutdown message, drops the acceptor and its own completion
sender, and waits until all completion senders are gone. Tasks run meanwhile.
-/
namespace MiniRedis

open Library

/-- Where `main` stands. -/
inductive MainPhase where
  /-- Before the first poll of the accept loop. -/
  | starting
  /-- Step 2: the accept loop runs. -/
  | selecting
  /-- `select!` has completed; the future of `run` is being dropped. -/
  | unselected
  /-- After step 3.1. -/
  | notified
  | acceptorDropped
  /-- Step 3.3: awaits `shutdown_complete_rx.recv()`. -/
  | waiting
  /-- `recv` has returned `None`. -/
  | complete
  deriving DecidableEq, Repr

def MainPhase.sent : MainPhase → Bool
  | .starting => false
  | .selecting => false
  | .unselected => false
  | _ => true

structure Main where
  phase : MainPhase
  server : Server

inductive MainAction where
  | poll
  | acceptor (action : AcceptorAction)
  /-- The accept loop has returned, or the Ctrl+C listener has finished. -/
  | select
  | send
  | dropAcceptor
  | dropSender
  | recv
  | task (i : ℕ) (action : TaskAction)

/-- The future of `run` is suspended or finished. -/
def AcceptorPhase.suspended : AcceptorPhase → Bool
  | .idle => true
  | .acquiring => true
  | .selecting => true
  | .sleeping => true
  | _ => false

namespace Main

/-- The resources of step 1. -/
def new : Option Main :=
  match Server.new defaultMaxConnections .new with
  | some server => some ⟨.starting, server⟩
  | none => none

/-- A step of `main` that the server performs. -/
def via (m : Main) (phase : MainPhase) (action : ServerAction) :
    Option (Main × List (ℕ × Event)) :=
  match MiniRedis.server.step action m.server with
  | some (server, out) => some (⟨phase, server⟩, out)
  | none => none

def step (action : MainAction) (m : Main) : Option (Main × List (ℕ × Event)) :=
  match m.phase, action with
  | phase, .task i action => m.via phase (.task i action)
  | .starting, .poll => m.via .selecting (.acceptor .run)
  | .selecting, .acceptor action =>
    if action = .run ∨ action = .dropRun ∨ action = .dropAcceptor then none
    else m.via .selecting (.acceptor action)
  | .starting, .select => some (⟨.unselected, m.server⟩, [])
  | .selecting, .select =>
    if m.server.acceptor.phase.suspended then some (⟨.unselected, m.server⟩, []) else none
  | .unselected, .acceptor action =>
    if action = .dropRun ∨ action = .unwind then m.via .unselected (.acceptor action) else none
  | .unselected, .send =>
    if m.server.acceptor.phase = .idle then m.via .notified (.caller .send) else none
  | .notified, .dropAcceptor => m.via .acceptorDropped (.acceptor .dropAcceptor)
  | .acceptorDropped, .dropSender => m.via .waiting (.caller .dropCompleteTx)
  | .waiting, .recv =>
    if m.server.shared.completeSenders = 0 then some (⟨.complete, m.server⟩, []) else none
  | _, _ => none

end Main

/-- `main` and its tasks. -/
def main : Machine Main MainAction (ℕ × Event) := ⟨Main.step⟩

namespace Main

theorem via_eq_some {m m' : Main} {phase : MainPhase} {action : ServerAction}
    {out : List (ℕ × Event)} (h : m.via phase action = some (m', out)) :
    m'.phase = phase ∧ MiniRedis.server.step action m.server = some (m'.server, out) := by
  unfold via at h
  split at h
  · rename_i hstep
    cases h
    exact ⟨rfl, hstep⟩
  · cases h

/-- What `main` does besides letting a task run. -/
inductive Step (m : Main) : MainAction → Main → List (ℕ × Event) → Prop
  | task (i : ℕ) (action : TaskAction) {m' : Main} {out : List (ℕ × Event)}
    (hphase : m'.phase = m.phase)
    (h : MiniRedis.server.step (.task i action) m.server = some (m'.server, out)) :
    Step m (.task i action) m' out
  | accept (action : MainAction) (acting : AcceptorAction)
    (haction : action = .poll ∨ action = .acceptor acting) {m' : Main}
    {out : List (ℕ × Event)} (hsent : m.phase.sent = false) (hsent' : m'.phase.sent = false)
    (hkeep : acting ≠ .dropAcceptor)
    (h : MiniRedis.server.step (.acceptor acting) m.server = some (m'.server, out)) :
    Step m action m' out
  | select (hsent : m.phase.sent = false) : Step m .select ⟨.unselected, m.server⟩ []
  | send (hphase : m.phase = .unselected) (hidle : m.server.acceptor.phase = .idle)
    {m' : Main} {out : List (ℕ × Event)} (hphase' : m'.phase = .notified)
    (h : MiniRedis.server.step (.caller .send) m.server = some (m'.server, out)) :
    Step m .send m' out
  | dropAcceptor (hphase : m.phase = .notified) {m' : Main} {out : List (ℕ × Event)}
    (hphase' : m'.phase = .acceptorDropped)
    (h : MiniRedis.server.step (.acceptor .dropAcceptor) m.server = some (m'.server, out)) :
    Step m .dropAcceptor m' out
  | dropSender (hphase : m.phase = .acceptorDropped) {m' : Main} {out : List (ℕ × Event)}
    (hphase' : m'.phase = .waiting)
    (h : MiniRedis.server.step (.caller .dropCompleteTx) m.server = some (m'.server, out)) :
    Step m .dropSender m' out
  | recv (hphase : m.phase = .waiting) (hnone : m.server.shared.completeSenders = 0) :
    Step m .recv ⟨.complete, m.server⟩ []

theorem step_cases {m m' : Main} {action : MainAction} {out : List (ℕ × Event)}
    (h : main.step action m = some (m', out)) : Step m action m' out := by
  simp only [main, step] at h
  split at h
  case h_1 i action =>
    obtain ⟨hphase, hstep⟩ := via_eq_some h
    exact .task i action hphase hstep
  case h_2 hphase =>
    obtain ⟨hphase', hstep⟩ := via_eq_some h
    exact .accept _ .run (.inl rfl) (by rw [hphase]; rfl) (by rw [hphase']; rfl) (by simp) hstep
  case h_3 action hphase =>
    split at h
    · cases h
    · rename_i hallowed
      obtain ⟨hphase', hstep⟩ := via_eq_some h
      exact .accept _ action (.inr rfl) (by rw [hphase]; rfl) (by rw [hphase']; rfl) (by tauto) hstep
  case h_4 hphase =>
    cases h
    exact .select (by rw [hphase]; rfl)
  case h_5 hphase =>
    split at h <;> cases h
    exact .select (by rw [hphase]; rfl)
  case h_6 action hphase =>
    split at h
    · rename_i hallowed
      obtain ⟨hphase', hstep⟩ := via_eq_some h
      refine .accept _ action (.inr rfl) (by rw [hphase]; rfl) (by rw [hphase']; rfl) ?_ hstep
      rcases hallowed with rfl | rfl <;> simp
    · cases h
  case h_7 hphase =>
    split at h
    · rename_i hidle
      obtain ⟨hphase', hstep⟩ := via_eq_some h
      exact .send hphase hidle hphase' hstep
    · cases h
  case h_8 hphase =>
    obtain ⟨hphase', hstep⟩ := via_eq_some h
    exact .dropAcceptor hphase hphase' hstep
  case h_9 hphase =>
    obtain ⟨hphase', hstep⟩ := via_eq_some h
    exact .dropSender hphase hphase' hstep
  case h_10 hphase =>
    split at h
    · cases h
      exact .recv hphase (by assumption)
    · cases h
  case h_11 => cases h

end Main

/-! ### What holds along every run of `main` -/

/-- The ownership states that `main` goes through. -/
structure Graceful (m : Main) : Prop where
  accounts : Accounts defaultMaxConnections m.server
  subscribed : SubscribedBefore m.server
  messages_eq : m.server.shared.messages = if m.phase.sent then 1 else 0
  notified : m.phase = .notified → m.server.acceptor.phase = .idle
  dropped : m.phase = .acceptorDropped ∨ m.phase = .waiting ∨ m.phase = .complete →
    m.server.acceptor.phase = .dropped
  released : m.phase = .waiting ∨ m.phase = .complete → m.server.holdsCompleteTx = false
  complete : m.phase = .complete → m.server.shared.completeSenders = 0

/-- Before the send there is nothing to hold but the accounts. -/
theorem Graceful.of_unsent {m : Main} (hsent : m.phase.sent = false)
    (haccounts : Accounts defaultMaxConnections m.server) (hsubscribed : SubscribedBefore m.server)
    (hmessages : m.server.shared.messages = 0) : Graceful m := by
  have hphase : ∀ phase, phase.sent = true → m.phase ≠ phase := by
    rintro phase hphase rfl
    exact Bool.false_ne_true (hsent.symm.trans hphase)
  exact {
    accounts := haccounts
    subscribed := hsubscribed
    messages_eq := by rw [hmessages, hsent, if_neg Bool.false_ne_true]
    notified := fun h => absurd h (hphase _ rfl)
    dropped := by
      rintro (h | h | h)
      · exact absurd h (hphase _ rfl)
      · exact absurd h (hphase _ rfl)
      · exact absurd h (hphase _ rfl)
    released := by
      rintro (h | h)
      · exact absurd h (hphase _ rfl)
      · exact absurd h (hphase _ rfl)
    complete := fun h => absurd h (hphase _ rfl) }

theorem Graceful.new {m : Main} (h : Main.new = some m) : Graceful m := by
  unfold Main.new at h
  split at h
  · rename_i server hnew
    cases h
    have hmessages : server.shared.messages = 0 := by
      unfold Server.new at hnew
      split at hnew
      · cases hnew
        rfl
      · cases hnew
    exact .of_unsent rfl (Accounts.new hnew) (SubscribedBefore.new hnew) hmessages
  · cases h

/-- A task step changes nothing that `main` waits for, except by dropping a sender. -/
theorem Server.task_step_frame {s t : Server} {i : ℕ} {action : TaskAction}
    {out : List (ℕ × Event)} (h : server.step (.task i action) s = some (t, out)) :
    t.shared.messages = s.shared.messages ∧ t.acceptor = s.acceptor ∧
      t.holdsCompleteTx = s.holdsCompleteTx ∧ t.tasks.length = s.tasks.length ∧
      t.shared.completeSenders ≤ s.shared.completeSenders := by
  cases Server.step_cases h with
  | task i action hi htask =>
    refine ⟨htask.messages_eq, rfl, rfl, by simp, ?_⟩
    rcases htask.resources_cases with ⟨_, _, hsenders, _⟩ | ⟨_, _, rfl⟩ | ⟨resource, _, rfl⟩
    · exact Nat.le_of_eq hsenders
    · exact Nat.le_refl _
    · cases resource <;> simp [Resource.drop]

theorem Server.acceptor_step_frame {s t : Server} {action : AcceptorAction}
    {out : List (ℕ × Event)} (h : server.step (.acceptor action) s = some (t, out)) :
    t.shared.messages = s.shared.messages := by
  cases Server.step_cases h with
  | acceptor action hact => exact hact.messages_eq

theorem Graceful.step {m m' : Main} (h : Graceful m) {action : MainAction}
    {out : List (ℕ × Event)} (hstep : main.step action m = some (m', out)) : Graceful m' := by
  obtain ⟨phase', server'⟩ := m'
  have hmessages := h.messages_eq
  cases Main.step_cases hstep with
  | task i action hphase htask =>
    obtain ⟨hmessages, hacceptor, hholds, _, hsenders⟩ := Server.task_step_frame htask
    exact {
      accounts := h.accounts.step htask
      subscribed := h.subscribed.step htask (by simp)
      messages_eq := by rw [hmessages, h.messages_eq, hphase]
      notified := fun hp => by rw [hacceptor, h.notified (hphase ▸ hp)]
      dropped := fun hp => by rw [hacceptor, h.dropped (hphase ▸ hp)]
      released := fun hp => by rw [hholds, h.released (hphase ▸ hp)]
      complete := fun hp => by
        have hzero := h.complete (hphase ▸ hp)
        omega }
  | accept _ acting _ hsent hsent' hkeep hact =>
    rw [hsent, if_neg Bool.false_ne_true] at hmessages
    refine .of_unsent hsent' (h.accounts.step hact) (h.subscribed.step hact fun _ => hmessages) ?_
    exact (Server.acceptor_step_frame hact).trans hmessages
  | select hsent =>
    rw [hsent, if_neg Bool.false_ne_true] at hmessages
    exact .of_unsent rfl h.accounts h.subscribed hmessages
  | send hphase hidle hphase' hact =>
    cases hphase'
    have haccounts := h.accounts.step hact
    have hsubscribed := h.subscribed.step hact (by simp)
    cases Server.step_cases hact with
    | send =>
      exact {
        accounts := haccounts
        subscribed := hsubscribed
        messages_eq := by simpa [hphase, MainPhase.sent] using hmessages
        notified := fun _ => hidle
        dropped := by simp
        released := by simp
        complete := by simp }
  | dropAcceptor hphase hphase' hact =>
    cases hphase'
    have haccounts := h.accounts.step hact
    have hsubscribed := h.subscribed.step hact (by simp)
    have hframe := Server.acceptor_step_frame hact
    have hidle := h.notified hphase
    rw [hphase] at hmessages
    cases Server.step_cases hact with
    | acceptor _ hdrop =>
      cases hdrop with
      | leave hselecting => simp_all
      | dropAcceptor =>
        exact {
          accounts := haccounts
          subscribed := hsubscribed
          messages_eq := hframe.trans hmessages
          notified := by simp
          dropped := fun _ => rfl
          released := by simp
          complete := by simp }
  | dropSender hphase hphase' hact =>
    cases hphase'
    have haccounts := h.accounts.step hact
    have hsubscribed := h.subscribed.step hact (by simp)
    rw [hphase] at hmessages
    cases Server.step_cases hact with
    | dropCompleteTx hold =>
      exact {
        accounts := haccounts
        subscribed := hsubscribed
        messages_eq := hmessages
        notified := by simp
        dropped := fun _ => h.dropped (.inl hphase)
        released := fun _ => rfl
        complete := by simp }
  | recv hphase hnone =>
    rw [hphase] at hmessages
    exact {
      accounts := h.accounts
      subscribed := h.subscribed
      messages_eq := hmessages
      notified := by simp
      dropped := fun _ => h.dropped (.inr (.inl hphase))
      released := fun _ => h.released (.inl hphase)
      complete := fun _ => hnone }

theorem Graceful.run {m m' : Main} (h : Graceful m) {actions : List MainAction}
    {out : List (ℕ × Event)} (hrun : main.run actions m = some (m', out)) : Graceful m' :=
  main.run_state_invariant (fun _ _ _ _ hm hstep => hm.step hstep) h hrun

/-- What steps from graceful states keep, runs keep. -/
theorem Graceful.run_keeps {P : Main → Prop}
    (hkeep : ∀ m action m' out, Graceful m → P m → main.step action m = some (m', out) → P m')
    {m m' : Main} (h : Graceful m) (hm : P m) {actions : List MainAction} {out : List (ℕ × Event)}
    (hrun : main.run actions m = some (m', out)) : P m' := by
  have hinv := main.run_state_invariant (P := fun m => Graceful m ∧ P m)
    (fun m action m' out hboth hstep =>
      ⟨hboth.1.step hstep, hkeep m action m' out hboth.1 hboth.2 hstep⟩) ⟨h, hm⟩ hrun
  exact hinv.2

/-- `main` is a caller of the server. -/
theorem main_simulates : main.Simulates server fun m s => m.server = s := by
  rintro m _ action m' out rfl hstep
  cases Main.step_cases hstep with
  | task i action _ h => exact ⟨[.task i action], m'.server, server.run_singleton h, rfl⟩
  | accept _ acting _ _ _ _ h => exact ⟨[.acceptor acting], m'.server, server.run_singleton h, rfl⟩
  | select => exact ⟨[], m.server, rfl, rfl⟩
  | send _ _ _ h => exact ⟨[.caller .send], m'.server, server.run_singleton h, rfl⟩
  | dropAcceptor _ _ h =>
    exact ⟨[.acceptor .dropAcceptor], m'.server, server.run_singleton h, rfl⟩
  | dropSender _ _ h => exact ⟨[.caller .dropCompleteTx], m'.server, server.run_singleton h, rfl⟩
  | recv => exact ⟨[], m.server, rfl, rfl⟩

/-- A task that has left its loop only drops what it owns. -/
theorem Task.Step.of_not_live {shared shared' : Shared} {task task' : Task} {action : TaskAction}
    {events : List Event} (h : task.Step shared action shared' task' events)
    (hlive : task.live = false) :
    task'.live = false ∧ events = [] ∧
      ∃ resource ∈ task.resources, shared' = resource.drop shared := by
  cases h with
  | drop ending resource rest suffix hphase =>
    exact ⟨rfl, rfl, resource, by simp [resources, hphase, Phase.resources], rfl⟩
  | _ => simp_all [live, Phase.live]

/-- A task that has left its loop stays outside and shows nothing any more. -/
theorem Server.left_step {s t : Server} {action : ServerAction} {out : List (ℕ × Event)} {i : ℕ}
    (hleft : ∃ task, s.tasks[i]? = some task ∧ task.live = false)
    (hstep : server.step action s = some (t, out)) :
    (∃ task, t.tasks[i]? = some task ∧ task.live = false) ∧ ∀ event, (i, event) ∉ out := by
  obtain ⟨task, hi, hlive⟩ := hleft
  have hmove := Server.step_cases hstep
  by_cases hown : ∃ own, action = .task i own
  · obtain ⟨own, rfl⟩ := hown
    cases hmove with
    | task _ _ hi' htask =>
      cases hi.symm.trans hi'
      have hlt := (List.getElem?_eq_some_iff.mp hi).1
      obtain ⟨hlive', rfl, _⟩ := htask.of_not_live hlive
      exact ⟨⟨_, List.getElem?_set_self hlt, hlive'⟩, fun _ => List.not_mem_nil⟩
  · obtain ⟨hkept, hnone⟩ := hmove.elsewhere fun own heq => hown ⟨own, heq⟩
    refine ⟨⟨task, hkept task hi, hlive⟩, fun event hmem => ?_⟩
    rw [← mem_project, hnone] at hmem
    cases hmem

theorem Server.left_run {s t : Server} {actions : List ServerAction} {out : List (ℕ × Event)}
    {i : ℕ} (hleft : ∃ task, s.tasks[i]? = some task ∧ task.live = false)
    (hrun : server.run actions s = some (t, out)) : ∀ event, (i, event) ∉ out := by
  have hinv := server.run_invariant
    (P := fun s out => (∃ task, s.tasks[i]? = some task ∧ task.live = false) ∧
      ∀ event, (i, event) ∉ out)
    (fun s before action t now hs hstep => ?_) ⟨hleft, fun _ => List.not_mem_nil⟩ hrun
  · exact hinv.2
  · obtain ⟨hleft', hnow⟩ := Server.left_step hs.1 hstep
    refine ⟨hleft', fun event hmem => ?_⟩
    rcases List.mem_append.mp hmem with hmem | hmem
    · exact hs.2 event hmem
    · exact hnow event hmem

/-- The shutdown branch ends the loop. -/
theorem Server.shutdown_leaves {s t : Server} {i : ℕ} {out : List (ℕ × Event)}
    (hstep : server.step (.task i .shutdown) s = some (t, out)) :
    ∃ task, t.tasks[i]? = some task ∧ task.live = false := by
  cases Server.step_cases hstep with
  | task _ _ hi htask =>
    refine ⟨_, List.getElem?_set_self (List.getElem?_eq_some_iff.mp hi).1, ?_⟩
    cases htask <;> rfl

theorem Main.shutdown_leaves {m m' : Main} {i : ℕ} {out : List (ℕ × Event)}
    (hstep : main.step (.task i .shutdown) m = some (m', out)) :
    ∃ task, m'.server.tasks[i]? = some task ∧ task.live = false := by
  cases Main.step_cases hstep with
  | task _ _ _ htask => exact Server.shutdown_leaves htask
  | accept _ _ haction => simp at haction

theorem Main.left_run {m m' : Main} {actions : List MainAction} {out : List (ℕ × Event)} {i : ℕ}
    (hleft : ∃ task, m.server.tasks[i]? = some task ∧ task.live = false)
    (hrun : main.run actions m = some (m', out)) : ∀ event, (i, event) ∉ out := by
  obtain ⟨serverActions, _, hserver, _⟩ := main_simulates.run rfl hrun
  exact Server.left_run hleft hserver

/-- From the send on, `main` creates no handler. -/
theorem Main.sent_step {m m' : Main} (hsent : m.phase.sent = true) {action : MainAction}
    {out : List (ℕ × Event)} (h : Graceful m) (hstep : main.step action m = some (m', out)) :
    m'.phase.sent = true ∧ m'.server.tasks.length = m.server.tasks.length := by
  obtain ⟨phase', server'⟩ := m'
  cases Main.step_cases hstep with
  | task i action hphase htask =>
    exact ⟨hphase ▸ hsent, (Server.task_step_frame htask).2.2.2.1⟩
  | accept _ acting _ hunsent => simp [hsent] at hunsent
  | select hunsent => simp [hsent] at hunsent
  | send hphase => simp [hphase, MainPhase.sent] at hsent
  | dropAcceptor hphase hphase' hact =>
    cases hphase'
    have hidle := h.notified hphase
    cases Server.step_cases hact with
    | acceptor _ hdrop =>
      cases hdrop with
      | leave hselecting => simp_all
      | dropAcceptor => exact ⟨rfl, by simp⟩
  | dropSender hphase hphase' hact =>
    cases hphase'
    cases Server.step_cases hact with
    | dropCompleteTx hold => exact ⟨rfl, rfl⟩
  | recv hphase hnone => exact ⟨rfl, rfl⟩

theorem Main.sent_run {m m' : Main} (hsent : m.phase.sent = true) (h : Graceful m)
    {actions : List MainAction} {out : List (ℕ × Event)}
    (hrun : main.run actions m = some (m', out)) :
    m'.server.tasks.length = m.server.tasks.length := by
  have hinv := h.run_keeps
    (P := fun n => n.phase.sent = true ∧ n.server.tasks.length = m.server.tasks.length)
    (fun n action n' now hn hboth hstep => ?_) ⟨hsent, rfl⟩ hrun
  · exact hinv.2
  · obtain ⟨hsent', hlength⟩ := Main.sent_step hboth.1 hn hstep
    exact ⟨hsent', hlength.trans hboth.2⟩

/-- When `recv` has returned `None`, tasks own at most their permit. -/
theorem Graceful.complete_resources {m : Main} (h : Graceful m) (hphase : m.phase = .complete) :
    ∀ task ∈ m.server.tasks, task.live = false ∧ ∀ resource ∈ task.resources,
      resource = .permit := by
  have hsenders := h.accounts.senders_eq
  rw [h.complete hphase, h.released (.inr hphase), h.dropped (.inr (.inr hphase)),
    if_neg Bool.false_ne_true] at hsenders
  simp only [AcceptorPhase.completeSenders] at hsenders
  intro task htask
  have hnone : total (fun task : Task => task.owns .shutdownCompleteTx) m.server.tasks = 0 := by
    unfold owned at hsenders
    omega
  have hzero := total_eq_zero_iff.mp hnone task htask
  obtain ⟨hguard, hrx, hconnection, -⟩ := task.owns_le
  have hnot : ∀ resource, task.owns resource ≤ task.owns .shutdownCompleteTx →
      resource ∉ task.resources := fun resource hle => List.count_eq_zero.mp (by
    unfold Task.owns at hle hzero
    omega)
  constructor
  · by_contra hlive
    obtain ⟨phase, shutdownRx, request⟩ := task
    have hmem : Resource.shutdownCompleteTx ∈ (Task.mk phase shutdownRx request).resources := by
      cases phase <;> simp_all [Task.live, Phase.live, Task.resources, Phase.resources,
        runLocals, handlerFields]
    exact hnot _ (Nat.le_refl _) hmem
  · intro resource hmem
    cases resource with
    | guard => exact absurd hmem (hnot _ hguard)
    | connection => exact absurd hmem (hnot _ hconnection)
    | shutdownRx => exact absurd hmem (hnot _ hrx)
    | shutdownCompleteTx => exact absurd hmem (hnot _ (Nat.le_refl _))
    | permit => rfl

/-- Then no counter changes any more. -/
theorem Main.complete_step {m m' : Main} (hphase : m.phase = .complete) {action : MainAction}
    {out : List (ℕ × Event)} (h : Graceful m) (hstep : main.step action m = some (m', out)) :
    m'.phase = .complete ∧ m'.server.shared.metrics = m.server.shared.metrics := by
  obtain ⟨phase', server'⟩ := m'
  cases Main.step_cases hstep with
  | task i action hphase' htask =>
    refine ⟨hphase'.trans hphase, ?_⟩
    cases Server.step_cases htask with
    | task i action hi hact =>
      obtain ⟨hlive, hpermit⟩ := h.complete_resources hphase _ (List.mem_of_getElem? hi)
      obtain ⟨_, _, resource, hmem, rfl⟩ := hact.of_not_live hlive
      rw [hpermit resource hmem]
      rfl
  | accept _ acting _ hunsent => simp [hphase, MainPhase.sent] at hunsent
  | select hunsent => simp [hphase, MainPhase.sent] at hunsent
  | send hother => simp [hphase] at hother
  | dropAcceptor hother => simp [hphase] at hother
  | dropSender hother => simp [hphase] at hother
  | recv hother => simp [hphase] at hother

theorem Main.complete_run {m m' : Main} (hphase : m.phase = .complete) (h : Graceful m)
    {actions : List MainAction} {out : List (ℕ × Event)}
    (hrun : main.run actions m = some (m', out)) :
    m'.server.shared.metrics = m.server.shared.metrics := by
  have hinv := h.run_keeps
    (P := fun n => n.phase = .complete ∧ n.server.shared.metrics = m.server.shared.metrics)
    (fun n action n' now hn hboth hstep => ?_) ⟨hphase, rfl⟩ hrun
  · exact hinv.2
  · obtain ⟨hphase', hmetrics⟩ := Main.complete_step hboth.1 hn hstep
    exact ⟨hphase', hmetrics.trans hboth.2⟩

/-- Graceful shutdown: from the send on every handler in its loop has the message
unread and none is created; a handler that takes the message does nothing more;
and when `recv` returns `None` all handlers are gone and the totals are final. -/
theorem graceful_shutdown (m₀ m : Main) (actions : List MainAction) (out : List (ℕ × Event))
    (hnew : Main.new = some m₀) (hrun : main.run actions m₀ = some (m, out)) :
    (m.phase.sent = true → ∀ task ∈ m.server.tasks, task.live = true →
      task.shutdownRx < m.server.shared.messages) ∧
    (∀ i m' m'' now later more, main.step (.task i .shutdown) m = some (m', now) →
      main.run more m' = some (m'', later) → ∀ event, (i, event) ∉ later) ∧
    (m.phase.sent = true → ∀ m' more later, main.run more m = some (m', later) →
      m'.server.tasks.length = m.server.tasks.length) ∧
    (m.phase = .complete →
      (∀ task ∈ m.server.tasks, task.live = false ∧ ∀ resource ∈ task.resources,
        resource = .permit) ∧
      m.server.shared.metrics.activeConnections = 0 ∧
      ∀ m' more later, main.run more m = some (m', later) →
        m'.server.shared.metrics = m.server.shared.metrics) := by
  have h := (Graceful.new hnew).run hrun
  refine ⟨?_, ?_, ?_, ?_⟩
  · intro hsent task htask hlive
    rw [h.messages_eq, hsent, if_pos rfl, h.subscribed.tasks task htask hlive]
    exact Nat.zero_lt_one
  · intro i m' m'' now later more hstep hmore
    exact Main.left_run (Main.shutdown_leaves hstep) hmore
  · intro hsent m' more later hmore
    exact Main.sent_run hsent h hmore
  · intro hphase
    have hresources := h.complete_resources hphase
    refine ⟨hresources, ?_, fun m' more later hmore => Main.complete_run hphase h hmore⟩
    rw [h.accounts.active_eq]
    refine total_eq_zero_iff.mpr fun task htask => List.count_eq_zero.mpr fun hguard => ?_
    cases (hresources task htask).2 _ hguard

/-- One connection is accepted, and its task is polled for the first time after
the send. -/
theorem graceful_shutdown_one :
    ∃ m₀ m out, Main.new = some m₀ ∧
      main.run (.poll :: acceptance.map .acceptor ++ [.select, .acceptor .dropRun,
        .acceptor .unwind, .send] ++ opening.map (.task 0) ++ [.task 0 .shutdown, .dropAcceptor,
        .task 0 .drop, .task 0 .drop, .task 0 .drop, .dropSender, .task 0 .drop, .recv]) m₀ =
          some (m, out) ∧
      m.phase = .complete ∧ m.server.tasks.length = 1 ∧
      m.server.shared.metrics.activeConnections = 0 := by
  refine ⟨_, _, _, rfl, rfl, rfl, rfl, ?_⟩
  have h := graceful_shutdown _ _ (.poll :: acceptance.map .acceptor ++ [.select,
    .acceptor .dropRun, .acceptor .unwind, .send] ++ opening.map (.task 0) ++ [.task 0 .shutdown,
    .dropAcceptor, .task 0 .drop, .task 0 .drop, .task 0 .drop, .dropSender, .task 0 .drop,
    .recv]) _ rfl rfl
  exact (h.2.2.2 rfl).2.1

end MiniRedis
