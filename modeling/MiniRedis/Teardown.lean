import MiniRedis.Main
import MiniRedis.Session
import MiniRedis.WindingDown

/-!
# Shutdown ends

From any state of `main`, and for any order of the steps, a bounded number of steps that
take nothing new from outside lead to its end. No read has to time out for that: the
shutdown message reaches every handler. Writes do have to end, since `main` waits for a
handler whose peer takes no bytes. Until the end every handler finishes what it has read.
-/
namespace MiniRedis

open Library

/-- The task is started, no frame comes from its peer, its writes fail not, and it is neither
cancelled nor panics. -/
def TaskAction.Orderly : TaskAction → Prop
  | .start nodelay => nodelay = true
  | .readFrame (.frame _) => False
  | .readFrame .panic => False
  | .writeFail _ => False
  | .cancel => False
  | _ => True

/-- Neither a connection nor an error comes out of the listener. -/
def AcceptorAction.Orderly : AcceptorAction → Prop
  | .accept => False
  | .acceptError _ => False
  | _ => True

def MainAction.Orderly : MainAction → Prop
  | .acceptor action => action.Orderly
  | .task _ action => action.Orderly
  | _ => True

/-- Besides, the task waits neither for its read, nor for a timeout, nor for its peer to take
the bytes of a write. -/
def TaskAction.Unaided : TaskAction → Prop
  | .readFrame _ => False
  | .timeout => False
  | .writeOk => False
  | action => action.Orderly

def MainAction.Unaided : MainAction → Prop
  | .task _ action => action.Unaided
  | action => action.Orderly

/-! ### How many steps are left -/

def AcceptorPhase.ahead : AcceptorPhase → ℕ
  | .idle => 0
  | .dropped => 0
  | .leaving holdsPermit => if holdsPermit then 2 else 1
  | .selecting => 3
  | .acquiring => 4
  | .releasing => 5
  | .sleeping => 6
  | .cloned _ => 15
  | .subscribed _ => 16
  | .accepted => 17

def MainPhase.ahead : MainPhase → ℕ
  | .starting => 10
  | .selecting => 5
  | .unselected => 4
  | .notified => 3
  | .acceptorDropped => 2
  | .waiting => 1
  | .complete => 0

def Server.ahead (s : Server) : ℕ :=
  s.acceptor.phase.ahead + total (fun task : Task => task.phase.ahead none) s.tasks

/-- The steps that are left of `main` and its tasks. -/
def Main.ahead (m : Main) : ℕ := m.phase.ahead + m.server.ahead

theorem Main.ahead_le (m : Main) : m.ahead ≤ 13 * m.server.tasks.length + 27 := by
  have hphase : m.phase.ahead ≤ 10 := by cases m.phase <;> simp [MainPhase.ahead]
  have hacceptor : m.server.acceptor.phase.ahead ≤ 17 := by
    cases m.server.acceptor.phase with
    | leaving holdsPermit => cases holdsPermit <;> simp [AcceptorPhase.ahead]
    | _ => simp [AcceptorPhase.ahead]
  have htasks : ∀ tasks : List Task,
      total (fun task : Task => task.phase.ahead none) tasks ≤ 13 * tasks.length := by
    intro tasks
    induction tasks with
    | nil => exact Nat.le_refl _
    | cons task tasks ih =>
      have hle := task.phase.ahead_le none
      rw [total_cons, List.length_cons]
      omega
  have hle := htasks m.server.tasks
  unfold ahead Server.ahead
  omega

/-- An acceptor to which nothing comes goes on towards the end of `run`. -/
theorem Acceptor.Step.ahead_lt {shared shared' : Shared} {acceptor acceptor' : Acceptor}
    {action : AcceptorAction} {spawned : List Task}
    (h : acceptor.Step shared action shared' acceptor' spawned) (horderly : action.Orderly)
    (hrun : action ≠ .run) (hdrop : action ≠ .dropAcceptor) :
    acceptor'.phase.ahead + total (fun task : Task => task.phase.ahead none) spawned <
      acceptor.phase.ahead := by
  cases h with
  | run => exact absurd rfl hrun
  | accept => exact horderly.elim
  | acceptError => exact horderly.elim
  | dropAcceptor => exact absurd rfl hdrop
  | leave hphase =>
    rcases hphase with hphase | hphase <;> simp [hphase, AcceptorPhase.ahead]
  | _ => simp_all [AcceptorPhase.ahead, goto, Phase.ahead]

theorem Server.task_ahead_lt {s t : Server} {i : ℕ} {action : TaskAction} {out : List (ℕ × Event)}
    (h : server.step (.task i action) s = some (t, out)) (horderly : action.Orderly) :
    t.ahead < s.ahead := by
  cases Server.step_cases h with
  | task i action hi htask =>
    have hlt := htask.ahead_lt (fun frame heq => by rw [heq] at horderly; exact horderly) none none
    have htotal := total_set (fun task : Task => task.phase.ahead none) hi
    have htasks := htotal (by assumption)
    simp only [ahead]
    omega

theorem Server.acceptor_ahead_lt {s t : Server} {action : AcceptorAction}
    {out : List (ℕ × Event)} (h : server.step (.acceptor action) s = some (t, out))
    (horderly : action.Orderly) (hrun : action ≠ .run) (hdrop : action ≠ .dropAcceptor) :
    t.ahead < s.ahead := by
  cases Server.step_cases h with
  | acceptor action hact =>
    have hlt := hact.ahead_lt horderly hrun hdrop
    simp only [ahead, total_append]
    omega

/-! ### What keeps `main` going -/

/-- A step of the acceptor, as `main` lets it take one. -/
inductive Main.Lets (m : Main) : MainAction → MainPhase → AcceptorAction → Prop
  | poll (hphase : m.phase = .starting) : Lets m .poll .selecting .run
  | loop (hphase : m.phase = .selecting) (action : AcceptorAction) (hrun : action ≠ .run)
    (hdrop : action ≠ .dropAcceptor) : Lets m (.acceptor action) .selecting action
  | unwind (hphase : m.phase = .unselected) (action : AcceptorAction)
    (haction : action = .dropRun ∨ action = .unwind) : Lets m (.acceptor action) .unselected action

theorem Main.lets_of_step {m m' : Main} {action : MainAction} {acting : AcceptorAction}
    {out : List (ℕ × Event)} (haction : action = .poll ∨ action = .acceptor acting)
    (h : main.step action m = some (m', out)) :
    ∃ acting, m.Lets action m'.phase acting ∧
      MiniRedis.server.step (.acceptor acting) m.server = some (m'.server, out) := by
  simp only [main, step] at h
  split at h
  case h_1 => simp at haction
  case h_2 hphase =>
    obtain ⟨hphase', hstep⟩ := via_eq_some h
    exact ⟨.run, hphase' ▸ .poll hphase, hstep⟩
  case h_3 action hphase =>
    split at h
    · cases h
    · rename_i hallowed
      obtain ⟨hphase', hstep⟩ := via_eq_some h
      exact ⟨action, hphase' ▸ .loop hphase action (by tauto) (by tauto), hstep⟩
  case h_6 action hphase =>
    split at h
    · rename_i hallowed
      obtain ⟨hphase', hstep⟩ := via_eq_some h
      exact ⟨action, hphase' ▸ .unwind hphase action hallowed, hstep⟩
    · cases h
  case h_11 => cases h
  all_goals simp at haction

/-- Where the future of `run` can be dropped, or is being dropped. -/
def AcceptorPhase.stoppable : AcceptorPhase → Bool
  | .leaving _ => true
  | phase => phase.suspended

theorem AcceptorPhase.stoppable_of_suspended {phase : AcceptorPhase}
    (h : phase.suspended = true) : phase.stoppable = true := by
  cases phase with
  | leaving => rfl
  | _ => exact h

theorem Acceptor.Step.not_dropped {shared shared' : Shared} {acceptor acceptor' : Acceptor}
    {action : AcceptorAction} {spawned : List Task}
    (h : acceptor.Step shared action shared' acceptor' spawned) (hdrop : action ≠ .dropAcceptor) :
    acceptor'.phase ≠ .dropped := by
  cases h with
  | dropAcceptor => exact absurd rfl hdrop
  | acceptError _ _ phase hnext => rcases hnext with rfl | rfl <;> simp [goto]
  | _ => simp [goto]

theorem Acceptor.Step.stoppable {shared shared' : Shared} {acceptor acceptor' : Acceptor}
    {action : AcceptorAction} {spawned : List Task}
    (h : acceptor.Step shared action shared' acceptor' spawned)
    (haction : action = .dropRun ∨ action = .unwind) : acceptor'.phase.stoppable = true := by
  cases h with
  | leaveAcquiring | leave | dropPermit | finish => rfl
  | _ => simp at haction

/-- What `main` needs besides the ownership states to go on. -/
structure Proceeds (m : Main) : Prop where
  graceful : Graceful m
  starting : m.phase = .starting → m.server.acceptor.phase = .idle
  selecting : m.phase = .selecting → m.server.acceptor.phase ≠ .dropped
  unselected : m.phase = .unselected → m.server.acceptor.phase.stoppable = true
  holdsShutdownTx : m.server.holdsShutdownTx = true
  holdsCompleteTx : m.phase ≠ .waiting → m.phase ≠ .complete → m.server.holdsCompleteTx = true

namespace Proceeds

theorem new {m : Main} (h : Main.new = some m) : Proceeds m := by
  have hgraceful := Graceful.new h
  cases h
  exact ⟨hgraceful, fun _ => rfl, by simp, by simp, rfl, fun _ _ => rfl⟩

theorem lets {m m' : Main} (h : Proceeds m) {action : MainAction} {acting : AcceptorAction}
    {out : List (ℕ × Event)} (hstep : main.step action m = some (m', out))
    (hlets : m.Lets action m'.phase acting)
    (hact : MiniRedis.server.step (.acceptor acting) m.server = some (m'.server, out)) :
    Proceeds m' := by
  have hgraceful := h.graceful.step hstep
  obtain ⟨phase', server'⟩ := m'
  have hholds : m.phase ≠ .waiting ∧ m.phase ≠ .complete := by
    cases hlets with
    | poll hphase | loop hphase | unwind hphase => simp [hphase]
  have hcomplete := h.holdsCompleteTx hholds.1 hholds.2
  cases Server.step_cases hact with
  | acceptor _ hmove =>
    cases hlets with
    | poll hphase =>
      exact ⟨hgraceful, by simp, fun _ => hmove.not_dropped (by simp), by simp, h.holdsShutdownTx,
        fun _ _ => hcomplete⟩
    | loop hphase _ hrun hdrop =>
      exact ⟨hgraceful, by simp, fun _ => hmove.not_dropped hdrop, by simp, h.holdsShutdownTx,
        fun _ _ => hcomplete⟩
    | unwind hphase _ haction =>
      exact ⟨hgraceful, by simp, by simp, fun _ => hmove.stoppable haction, h.holdsShutdownTx,
        fun _ _ => hcomplete⟩

/-- `select!` completes before `run` is polled, or where `run` awaits. -/
theorem stoppable_of_select {m m' : Main} (h : Proceeds m) {out : List (ℕ × Event)}
    (hstep : main.step .select m = some (m', out)) :
    m.server.acceptor.phase.stoppable = true := by
  obtain ⟨phase, server⟩ := m
  cases phase with
  | starting =>
    have hidle := h.starting rfl
    simp only at hidle ⊢
    rw [hidle]
    rfl
  | selecting =>
    simp only [main, Main.step] at hstep
    split at hstep
    · exact AcceptorPhase.stoppable_of_suspended (by assumption)
    · cases hstep
  | _ => simp [main, Main.step] at hstep

theorem step {m m' : Main} (h : Proceeds m) {action : MainAction} {out : List (ℕ × Event)}
    (hstep : main.step action m = some (m', out)) : Proceeds m' := by
  have hgraceful := h.graceful.step hstep
  have hcases := Main.step_cases hstep
  cases hcases with
  | task i action hphase htask =>
    obtain ⟨-, hacceptor, hcomplete, -⟩ := Server.task_step_frame htask
    refine ⟨hgraceful, ?_, ?_, ?_, ?_, ?_⟩
    · rw [hphase, hacceptor]
      exact h.starting
    · rw [hphase, hacceptor]
      exact h.selecting
    · rw [hphase, hacceptor]
      exact h.unselected
    · obtain ⟨phase', server'⟩ := m'
      cases Server.step_cases htask with
      | task => exact h.holdsShutdownTx
    · rw [hphase, hcomplete]
      exact h.holdsCompleteTx
  | accept action acting haction =>
    obtain ⟨acting, hlets, hact⟩ := Main.lets_of_step haction hstep
    exact h.lets hstep hlets hact
  | select hsent =>
    have hholds : m.phase ≠ .waiting ∧ m.phase ≠ .complete := by
      constructor <;> intro hphase <;> simp [hphase, MainPhase.sent] at hsent
    exact ⟨hgraceful, by simp, by simp, fun _ => h.stoppable_of_select hstep, h.holdsShutdownTx,
      fun _ _ => h.holdsCompleteTx hholds.1 hholds.2⟩
  | send hphase hidle hphase' hact =>
    have hholds := h.holdsCompleteTx (by simp [hphase]) (by simp [hphase])
    obtain ⟨phase', server'⟩ := m'
    cases hphase'
    cases Server.step_cases hact with
    | send => exact ⟨hgraceful, by simp, by simp, by simp, h.holdsShutdownTx, fun _ _ => hholds⟩
  | dropAcceptor hphase hphase' hact =>
    have hholds := h.holdsCompleteTx (by simp [hphase]) (by simp [hphase])
    obtain ⟨phase', server'⟩ := m'
    cases hphase'
    cases Server.step_cases hact with
    | acceptor =>
      exact ⟨hgraceful, by simp, by simp, by simp, h.holdsShutdownTx, fun _ _ => hholds⟩
  | dropSender hphase hphase' hact =>
    obtain ⟨phase', server'⟩ := m'
    cases hphase'
    cases Server.step_cases hact with
    | dropCompleteTx =>
      exact ⟨hgraceful, by simp, by simp, by simp, h.holdsShutdownTx, by simp⟩
  | recv hphase => exact ⟨hgraceful, by simp, by simp, by simp, h.holdsShutdownTx, by simp⟩

theorem run {m m' : Main} (h : Proceeds m) {actions : List MainAction} {out : List (ℕ × Event)}
    (hrun : main.run actions m = some (m', out)) : Proceeds m' :=
  main.run_state_invariant (fun _ _ _ _ hm hstep => hm.step hstep) h hrun

theorem lets_ahead_lt {m m' : Main} (h : Proceeds m) {action : MainAction}
    {acting : AcceptorAction} {out : List (ℕ × Event)} (horderly : action.Orderly)
    (hlets : m.Lets action m'.phase acting)
    (hact : MiniRedis.server.step (.acceptor acting) m.server = some (m'.server, out)) :
    m'.ahead < m.ahead := by
  obtain ⟨phase', server'⟩ := m'
  cases hlets with
  | poll hphase =>
    have hidle := h.starting hphase
    cases Server.step_cases hact with
    | acceptor _ hrun =>
      cases hrun with
      | leave hselecting => simp [hidle] at hselecting
      | run =>
        simp only [Main.ahead, Server.ahead, hphase, hidle, MainPhase.ahead, AcceptorPhase.ahead,
          List.append_nil]
        omega
  | loop hphase _ hrun hdrop =>
    have hlt := Server.acceptor_ahead_lt hact horderly hrun hdrop
    rw [Main.ahead, Main.ahead, hphase]
    exact Nat.add_lt_add_left hlt _
  | unwind hphase _ haction =>
    have hkept : acting ≠ .run ∧ acting ≠ .dropAcceptor := by
      rcases haction with rfl | rfl <;> simp
    have hlt := Server.acceptor_ahead_lt hact horderly hkept.1 hkept.2
    rw [Main.ahead, Main.ahead, hphase]
    exact Nat.add_lt_add_left hlt _

/-- Every orderly step brings `main` nearer to its end. -/
theorem ahead_lt {m m' : Main} (h : Proceeds m) {action : MainAction} {out : List (ℕ × Event)}
    (horderly : action.Orderly) (hstep : main.step action m = some (m', out)) :
    m'.ahead < m.ahead := by
  have hcases := Main.step_cases hstep
  cases hcases with
  | task i action hphase htask =>
    have hlt := Server.task_ahead_lt htask horderly
    unfold Main.ahead
    rw [hphase]
    omega
  | accept action acting haction =>
    obtain ⟨acting, hlets, hact⟩ := Main.lets_of_step haction hstep
    exact h.lets_ahead_lt horderly hlets hact
  | select hsent =>
    have hlt : MainPhase.unselected.ahead < m.phase.ahead := by
      cases hphase : m.phase with
      | starting | selecting => simp [MainPhase.ahead]
      | _ => simp [main, Main.step, hphase] at hstep
    exact Nat.add_lt_add_right hlt _
  | send hphase hidle hphase' hact =>
    obtain ⟨phase', server'⟩ := m'
    cases hphase'
    cases Server.step_cases hact with
    | send => simp [Main.ahead, Server.ahead, hphase, MainPhase.ahead]
  | dropAcceptor hphase hphase' hact =>
    obtain ⟨phase', server'⟩ := m'
    cases hphase'
    have hidle := h.graceful.notified hphase
    cases Server.step_cases hact with
    | acceptor _ hdrop =>
      cases hdrop with
      | leave hselecting => simp [hidle] at hselecting
      | dropAcceptor =>
        simp [Main.ahead, Server.ahead, Acceptor.goto, hphase, hidle, MainPhase.ahead,
          AcceptorPhase.ahead]
  | dropSender hphase hphase' hact =>
    obtain ⟨phase', server'⟩ := m'
    cases hphase'
    cases Server.step_cases hact with
    | dropCompleteTx => simp [Main.ahead, Server.ahead, hphase, MainPhase.ahead]
  | recv hphase => simp [Main.ahead, hphase, MainPhase.ahead]

end Proceeds

/-! ### What `main` can wait for -/

/-- A task that still owns something goes on, when its loop can end, unless it writes. -/
theorem Task.exists_unaided {shared : Shared} {task : Task}
    (hnotified : task.live = true → task.shutdownRx < shared.messages)
    (howns : task.resources ≠ []) : ∃ action : TaskAction,
      (action.Unaided ∨ action = .writeOk) ∧ (task.step shared action).isSome := by
  obtain ⟨phase, shutdownRx, number⟩ := task
  cases phase with
  | spawned => exact ⟨.start true, .inl rfl, rfl⟩
  | constructed => exact ⟨.enter, .inl trivial, rfl⟩
  | selecting =>
    refine ⟨.shutdown, .inl trivial, ?_⟩
    have hunread : shutdownRx < shared.messages := hnotified rfl
    simp [step, Shared.recv, hunread]
  | received frame => exact ⟨.count, .inl trivial, rfl⟩
  | counted frame => exact ⟨.execute, .inl trivial, rfl⟩
  | looked output => exact ⟨.countLookup, .inl trivial, rfl⟩
  | replying output => exact ⟨.writeOk, .inr rfl, rfl⟩
  | replied => exact ⟨.countResponse, .inl trivial, rfl⟩
  | reporting error => exact ⟨.writeOk, .inr rfl, rfl⟩
  | leaving ending unwinding =>
    obtain ⟨rest, suffix⟩ := unwinding
    cases rest with
    | nil => exact absurd rfl howns
    | cons resource rest => exact ⟨.drop, .inl trivial, rfl⟩

/-- An acceptor whose `run` goes on or ends can take a step that is no connection. -/
theorem Acceptor.exists_orderly {shared : Shared} {acceptor : Acceptor}
    (hsuspended : acceptor.phase.suspended = false) (hdropped : acceptor.phase ≠ .dropped) :
    ∃ action : AcceptorAction, action.Orderly ∧ action ≠ .run ∧ action ≠ .dropRun ∧
      action ≠ .dropAcceptor ∧ (acceptor.step shared action).isSome := by
  obtain ⟨phase, shutdownRx⟩ := acceptor
  cases phase with
  | idle | acquiring | selecting | sleeping => cases hsuspended
  | dropped => exact absurd rfl hdropped
  | releasing => exact ⟨.release, trivial, by simp, by simp, by simp, rfl⟩
  | accepted => exact ⟨.subscribe, trivial, by simp, by simp, by simp, rfl⟩
  | subscribed handlerRx => exact ⟨.cloneSender, trivial, by simp, by simp, by simp, rfl⟩
  | cloned handlerRx => exact ⟨.spawn, trivial, by simp, by simp, by simp, rfl⟩
  | leaving holdsPermit =>
    refine ⟨.unwind, trivial, by simp, by simp, by simp, ?_⟩
    cases holdsPermit <;> rfl

theorem Acceptor.exists_stop {shared : Shared} {acceptor : Acceptor}
    (hstoppable : acceptor.phase.stoppable = true) (hidle : acceptor.phase ≠ .idle) :
    ∃ action : AcceptorAction, (action = .dropRun ∨ action = .unwind) ∧
      (acceptor.step shared action).isSome := by
  obtain ⟨phase, shutdownRx⟩ := acceptor
  cases phase with
  | idle => exact absurd rfl hidle
  | acquiring | selecting | sleeping => exact ⟨.dropRun, .inl rfl, rfl⟩
  | leaving holdsPermit =>
    refine ⟨.unwind, .inr rfl, ?_⟩
    cases holdsPermit <;> rfl
  | _ => cases hstoppable

theorem Server.isSome_acceptor {s : Server} {action : AcceptorAction}
    (h : (s.acceptor.step s.shared action).isSome) :
    (server.step (.acceptor action) s).isSome := by
  obtain ⟨⟨shared, acceptor, spawned⟩, hstep⟩ := Option.isSome_iff_exists.mp h
  simp [server, step, hstep]

theorem Server.isSome_task {s : Server} {i : ℕ} {task : Task} {action : TaskAction}
    (hi : s.tasks[i]? = some task) (h : (task.step s.shared action).isSome) :
    (server.step (.task i action) s).isSome := by
  obtain ⟨⟨shared, task', events⟩, hstep⟩ := Option.isSome_iff_exists.mp h
  rw [step_task hi hstep]
  rfl

theorem Main.isSome_via {m : Main} {phase : MainPhase} {action : ServerAction}
    (h : (MiniRedis.server.step action m.server).isSome) : (m.via phase action).isSome := by
  obtain ⟨⟨server, out⟩, hstep⟩ := Option.isSome_iff_exists.mp h
  simp [via, hstep]

theorem Main.isSome_task {m : Main} {i : ℕ} {task : Task} {action : TaskAction}
    (hi : m.server.tasks[i]? = some task) (h : (task.step m.server.shared action).isSome) :
    (main.step (.task i action) m).isSome := by
  have hvia : (m.via m.phase (.task i action)).isSome := isSome_via (Server.isSome_task hi h)
  simpa only [main, Main.step] using hvia

/-- After the send the message waits in the receiver of every live task. -/
theorem Graceful.unread_of_live {m : Main} (h : Graceful m) (hsent : m.phase.sent = true)
    {task : Task} (htask : task ∈ m.server.tasks) (hlive : task.live = true) :
    task.shutdownRx < m.server.shared.messages := by
  rw [h.messages_eq, hsent, if_pos rfl, h.subscribed.tasks task htask hlive]
  exact Nat.zero_lt_one

/-- Where a task selects after the send, the message can be the branch it takes. -/
theorem Graceful.isSome_shutdown {m : Main} (h : Graceful m) (hsent : m.phase.sent = true)
    {i : ℕ} {task : Task} (hi : m.server.tasks[i]? = some task) (hphase : task.phase = .selecting) :
    (main.step (.task i .shutdown) m).isSome := by
  have hlive : task.live = true := by rw [Task.live, hphase]; rfl
  have hunread := h.unread_of_live hsent (List.mem_of_getElem? hi) hlive
  refine Main.isSome_task hi ?_
  simp [Task.step, hphase, Shared.recv, hunread]

/-- While a completion sender is left, its task goes on, when its write ends. -/
theorem Graceful.exists_task {m : Main} (h : Graceful m) (hphase : m.phase = .waiting)
    (hsenders : m.server.shared.completeSenders ≠ 0) :
    ∃ i action, (action.Unaided ∨ action = .writeOk) ∧
      (main.step (.task i action) m).isSome := by
  have haccount := h.accounts.senders_eq
  rw [h.released (.inl hphase), h.dropped (.inr (.inl hphase)), if_neg Bool.false_ne_true] at haccount
  have howned : ¬ ∀ task ∈ m.server.tasks, task.owns .shutdownCompleteTx = 0 := by
    intro hall
    rw [owned, total_eq_zero_iff.mpr hall] at haccount
    exact hsenders haccount
  obtain ⟨task, htask, howns⟩ : ∃ task ∈ m.server.tasks, task.owns .shutdownCompleteTx ≠ 0 := by
    simpa using howned
  obtain ⟨i, hi⟩ := List.mem_iff_getElem?.mp htask
  have hresources : task.resources ≠ [] := by
    intro hnil
    rw [Task.owns, hnil] at howns
    exact howns rfl
  obtain ⟨action, haction, hsome⟩ :=
    Task.exists_unaided (h.unread_of_live (by rw [hphase]; rfl) htask) hresources
  exact ⟨i, action, haction, Main.isSome_task hi hsome⟩

/-- Until it is complete, `main` has an unaided step, or waits for a write to end. -/
theorem Proceeds.exists_unaided {m : Main} (h : Proceeds m) (hcomplete : m.phase ≠ .complete) :
    (∃ action : MainAction, action.Unaided ∧ (main.step action m).isSome) ∨
      m.phase = .waiting ∧ ∃ i, (main.step (.task i .writeOk) m).isSome := by
  cases hphase : m.phase with
  | starting => exact .inl ⟨.select, trivial, by simp [main, Main.step, hphase]⟩
  | selecting =>
    cases hsuspended : m.server.acceptor.phase.suspended with
    | true => exact .inl ⟨.select, trivial, by simp [main, Main.step, hphase, hsuspended]⟩
    | false =>
      obtain ⟨action, horderly, hrun, hdropRun, hdrop, hsome⟩ :=
        Acceptor.exists_orderly hsuspended (h.selecting hphase)
      refine .inl ⟨.acceptor action, horderly, ?_⟩
      have hvia : (m.via .selecting (.acceptor action)).isSome :=
        Main.isSome_via (Server.isSome_acceptor hsome)
      simpa [main, Main.step, hphase, hrun, hdropRun, hdrop] using hvia
  | unselected =>
    by_cases hidle : m.server.acceptor.phase = .idle
    · have hvia : (m.via .notified (.caller .send)).isSome :=
        Main.isSome_via (by simp [server, Server.step, Server.callerStep, h.holdsShutdownTx])
      exact .inl ⟨.send, trivial, by simpa [main, Main.step, hphase, hidle] using hvia⟩
    · obtain ⟨action, haction, hsome⟩ := Acceptor.exists_stop (h.unselected hphase) hidle
      have hvia : (m.via .unselected (.acceptor action)).isSome :=
        Main.isSome_via (Server.isSome_acceptor hsome)
      refine .inl ⟨.acceptor action, ?_, by simpa [main, Main.step, hphase, haction] using hvia⟩
      rcases haction with rfl | rfl <;> trivial
  | notified =>
    have hidle := h.graceful.notified hphase
    have hvia : (m.via .acceptorDropped (.acceptor .dropAcceptor)).isSome :=
      Main.isSome_via (Server.isSome_acceptor (by simp [Acceptor.step, hidle]))
    exact .inl ⟨.dropAcceptor, trivial, by simpa [main, Main.step, hphase] using hvia⟩
  | acceptorDropped =>
    have hholds := h.holdsCompleteTx (by simp [hphase]) (by simp [hphase])
    have hvia : (m.via .waiting (.caller .dropCompleteTx)).isSome :=
      Main.isSome_via (by simp [server, Server.step, Server.callerStep, hholds])
    exact .inl ⟨.dropSender, trivial, by simpa [main, Main.step, hphase] using hvia⟩
  | waiting =>
    by_cases hsenders : m.server.shared.completeSenders = 0
    · exact .inl ⟨.recv, trivial, by simp [main, Main.step, hphase, hsenders]⟩
    · obtain ⟨i, action, haction, hsome⟩ := h.graceful.exists_task hphase hsenders
      rcases haction with haction | rfl
      · exact .inl ⟨.task i action, haction, hsome⟩
      · exact .inr ⟨rfl, i, hsome⟩
  | complete => exact absurd hphase hcomplete

/-! ### What was read is answered -/

/-- An orderly task ends its loop by itself, or because its read has failed. -/
theorem Task.ended_of_orderly {shared shared' : Shared} {task task' : Task} {action : TaskAction}
    {events : List Event} {ending : Ending}
    (h : task.step shared action = some (shared', task', events)) (horderly : action.Orderly)
    (hmem : .ended ending ∈ events) :
    ending = .finished ∨ ∃ error, ending = .failed error ∧ task.phase = .reporting error := by
  have hcases := step_cases h
  obtain ⟨phase, shutdownRx, number⟩ := task
  cases hcases with
  | abandon hphase =>
    cases hphase
    cases action with
    | start nodelay =>
      obtain rfl : nodelay = true := horderly
      cases h
    | cancel => exact horderly.elim
    | _ => cases h
  | leaveLoop hphase =>
    cases hphase
    cases action with
    | readFrame result =>
      cases result with
      | frame frame => exact horderly.elim
      | eof =>
        cases h
        exact .inl (by simpa using hmem)
      | error error => cases h
      | panic => exact horderly.elim
    | timeout =>
      cases h
      exact .inl (by simpa using hmem)
    | shutdown =>
      simp only [step] at h
      split at h
      · cases h
        exact .inl (by simpa using hmem)
      · cases h
    | cancel => exact horderly.elim
    | _ => cases h
  | leaveReply output hphase =>
    cases hphase
    cases action with
    | writeFail text => exact horderly.elim
    | cancel => exact horderly.elim
    | _ => cases h
  | leaveReport error hphase =>
    cases hphase
    cases action with
    | writeOk =>
      cases h
      exact .inr ⟨error, by simpa using hmem, rfl⟩
    | writeFail text => exact horderly.elim
    | cancel => exact horderly.elim
    | _ => cases h
  | _ => simp at hmem

/-- Everything received is executed, and everything executed is answered; what is sent besides
is the report of a failed read. -/
structure Concluded (events : List Event) : Prop where
  executed : (outcomes events).map Outcome.parsed = (receivedFrames events).map Command.fromFrame
  written : writtenReplies events = (outcomes events).map Outcome.reply
  sent : (∀ error, .readFailed error ∉ events) → attempts events = writtenReplies events
  reported : ∀ error, .readFailed error ∈ events →
    attempts events = writtenReplies events ++ [.error error.display]

/-- A handler ends with an answer when it ends its loop, or because its read has failed. -/
def EndsOrderly (events : List Event) (ending : Ending) : Prop :=
  ending = .finished ∨ ∃ error, ending = .failed error ∧ .readFailed error ∈ events

theorem ServerTrace.concluded {s : Server} {out : List (ℕ × Event)} (h : ServerTrace s out) {i : ℕ}
    {ending : Ending} (hended : .ended ending ∈ project i out)
    (hending : EndsOrderly (project i out) ending) : Concluded (project i out) := by
  obtain ⟨phase, requests, unsent, pending, attempted, hpass⟩ := h.pass i
  have hshows := hpass.shows
  have hnothing : pending = [] ∧ unsent = [] := by
    rcases hending with rfl | ⟨error, rfl, hread⟩
    · exact hpass.finished hended
    · obtain ⟨hpending, hunsent, -⟩ := hpass.readFailed error hread
      exact ⟨hpending, hunsent⟩
  obtain ⟨rfl, rfl⟩ := hnothing
  constructor
  · rw [hpass.parsed_eq, hshows.receivedFrames_eq, List.append_nil, List.append_nil]
  · rw [hpass.replies_eq, hshows.writtenReplies_eq, List.append_nil]
  · intro hnone
    have hquiet := hpass.answers hnone
    rw [hshows.attempts_eq, hshows.writtenReplies_eq, List.prefix_nil.mp hquiet, List.append_nil]
  · intro error hmem
    obtain ⟨-, -, hattempted, -⟩ := hpass.readFailed error hmem
    rw [hshows.attempts_eq, hshows.writtenReplies_eq, hattempted]

theorem Main.server_new {m : Main} (h : Main.new = some m) :
    Server.new defaultMaxConnections .new = some m.server := by
  unfold new at h
  split at h
  · rename_i hserver
    cases h
    exact hserver
  · cases h

theorem ServerTrace.main_step {m m' : Main} {out now : List (ℕ × Event)} {action : MainAction}
    (h : ServerTrace m.server out) (hstep : main.step action m = some (m', now)) :
    ServerTrace m'.server (out ++ now) := by
  obtain ⟨serverActions, t, hrun, rfl⟩ := main_simulates m m.server action m' now rfl hstep
  exact server.run_invariant (fun _ _ _ _ _ hs hmove => hs.step hmove) h hrun

/-- Only tasks show something. -/
theorem Server.silent {s t : Server} {action : ServerAction} {out : List (ℕ × Event)}
    (h : server.step action s = some (t, out)) (hother : ∀ i own, action ≠ .task i own) :
    out = [] := by
  cases Server.step_cases h with
  | task i own => exact absurd rfl (hother i own)
  | _ => rfl

/-- An orderly step ends a handler in no other way. -/
theorem Main.ended_of_orderly {m m' : Main} {out now : List (ℕ × Event)} {action : MainAction}
    (h : ServerTrace m.server out) (horderly : action.Orderly)
    (hstep : main.step action m = some (m', now)) {i : ℕ} {ending : Ending}
    (hmem : (i, .ended ending) ∈ now) : EndsOrderly (project i (out ++ now)) ending := by
  cases Main.step_cases hstep with
  | task j action hphase htask =>
    obtain ⟨task, shared, task', events, hj, hmove, -, rfl⟩ := Server.step_task_eq_some htask
    obtain ⟨event, hevent, heq⟩ := List.mem_map.mp hmem
    obtain ⟨rfl, rfl⟩ := Prod.mk.inj heq
    rcases Task.ended_of_orderly hmove horderly hevent with rfl | ⟨error, rfl, hreporting⟩
    · exact .inl rfl
    · refine .inr ⟨error, rfl, ?_⟩
      rw [project_append]
      exact List.mem_append_left _ ((h.tasks j task hj).reporting hreporting)
  | accept _ _ _ _ _ _ hact | send _ _ _ hact | dropAcceptor _ _ hact | dropSender _ _ hact =>
    rw [Server.silent hact (by simp)] at hmem
    cases hmem
  | select => cases hmem
  | recv => cases hmem

theorem EndsOrderly.append {events : List Event} {ending : Ending} (h : EndsOrderly events ending)
    (more : List Event) : EndsOrderly (events ++ more) ending := by
  rcases h with rfl | ⟨error, rfl, hmem⟩
  · exact .inl rfl
  · exact .inr ⟨error, rfl, List.mem_append_left _ hmem⟩

/-- Shutdown completes. From every reachable state of `main`, and for every order of its and
its tasks' steps: the steps that take nothing new from outside come to an end, not before
`recv` has returned `None`; until then one of them is possible that waits for no read and
no write, or `main` waits for a handler whose write has not ended; after the send a
handler in `select!` can take the shutdown branch; and a handler that had not ended before
has in the end executed every frame it has received, and answered it. -/
theorem shutdown_completes (m₀ m m' : Main) (actions more : List MainAction)
    (out later : List (ℕ × Event)) (hnew : Main.new = some m₀)
    (hrun : main.run actions m₀ = some (m, out)) (horderly : ∀ action ∈ more, action.Orderly)
    (hmore : main.run more m = some (m', later)) :
    more.length ≤ 13 * m.server.tasks.length + 27 ∧
      (m'.phase ≠ .complete →
        (∃ action : MainAction, action.Unaided ∧ (main.step action m').isSome) ∨
          m'.phase = .waiting ∧ ∃ i, (main.step (.task i .writeOk) m').isSome) ∧
      (m'.phase.sent = true → ∀ i task, m'.server.tasks[i]? = some task →
        task.phase = .selecting → (main.step (.task i .shutdown) m').isSome) ∧
      (m'.phase = .complete → ∀ i, (∀ ending, (i, .ended ending) ∉ out) →
        Concluded (project i (out ++ later))) := by
  have hproceeds := (Proceeds.new hnew).run hrun
  have hend := hproceeds.run hmore
  refine ⟨?_, hend.exists_unaided,
    fun hsent i task hi hphase => hend.graceful.isSome_shutdown hsent hi hphase, ?_⟩
  · have hlength := main.run_length_le Main.ahead
      (fun u action v now hu haction hstep => ⟨hu.step hstep, hu.ahead_lt haction hstep⟩)
      hproceeds horderly hmore
    exact hlength.trans m.ahead_le
  · intro hcomplete i hopen
    have htrace : ServerTrace m.server out := by
      obtain ⟨serverActions, t, hserver, rfl⟩ := main_simulates.run rfl hrun
      exact ServerTrace.run (Main.server_new hnew) hserver
    have hlaw := main.run_invariant_of_meets
      (P := fun u all => ServerTrace u.server all ∧ ∀ i ending, (i, .ended ending) ∈ all →
        (i, .ended ending) ∈ out ∨ EndsOrderly (project i all) ending)
      (fun u all action v now hu haction hstep => ?_)
      ⟨htrace, fun i ending hmem => .inl hmem⟩
      (main.meets_of_forall (fun action hmem _ => horderly action hmem) m) hmore
    · obtain ⟨htrace', hends⟩ := hlaw
      cases hi : m'.server.tasks[i]? with
      | none =>
        rw [htrace'.others i hi]
        exact ⟨rfl, rfl, fun _ => rfl, by simp⟩
      | some task =>
        obtain ⟨hlive, -⟩ :=
          hend.graceful.complete_resources hcomplete task (List.mem_of_getElem? hi)
        obtain ⟨phase, shutdownRx, number⟩ := task
        cases phase with
        | leaving ending unwinding =>
          have hended := (htrace'.tasks i _ hi).ended rfl
          exact htrace'.concluded hended
            ((hends i ending (mem_project.mp hended)).resolve_left (hopen ending))
        | _ => cases hlive
    · obtain ⟨hall, hends⟩ := hu
      refine ⟨hall.main_step hstep, fun i ending hmem => ?_⟩
      rcases List.mem_append.mp hmem with hmem | hmem
      · rw [project_append]
        exact (hends i ending hmem).imp_right fun hends => hends.append _
      · exact .inr (Main.ended_of_orderly hall haction hstep hmem)

/-- Ctrl+C arrives between the receipt of a request and its reply. -/
theorem shutdown_completes_request :
    ∃ m₀ m m' out later, Main.new = some m₀ ∧
      main.run (.poll :: acceptance.map .acceptor ++ opening.map (.task 0) ++
        [.task 0 (.readFrame (.frame (.integer 0)))]) m₀ = some (m, out) ∧
      main.run [.select, .acceptor .dropRun, .acceptor .unwind, .send, .task 0 .count,
        .task 0 .execute, .task 0 .writeOk, .dropAcceptor, .task 0 .countResponse,
        .task 0 .shutdown, .task 0 .drop, .dropSender, .task 0 .drop, .task 0 .drop,
        .task 0 .drop, .recv] m = some (m', later) ∧
      m'.phase = .complete ∧ receivedFrames (project 0 (out ++ later)) = [.integer 0] ∧
      Concluded (project 0 (out ++ later)) := by
  refine ⟨_, _, _, _, _, rfl, rfl, rfl, rfl, rfl, ?_⟩
  have h := shutdown_completes _ _ _ (.poll :: acceptance.map .acceptor ++
      opening.map (.task 0) ++ [.task 0 (.readFrame (.frame (.integer 0)))])
    [.select, .acceptor .dropRun, .acceptor .unwind, .send, .task 0 .count,
      .task 0 .execute, .task 0 .writeOk, .dropAcceptor, .task 0 .countResponse,
      .task 0 .shutdown, .task 0 .drop, .dropSender, .task 0 .drop, .task 0 .drop,
      .task 0 .drop, .recv] _ _ rfl rfl
    (by simp [MainAction.Orderly, AcceptorAction.Orderly, TaskAction.Orderly]) rfl
  exact h.2.2.2 rfl 0 (by simp)

end MiniRedis
