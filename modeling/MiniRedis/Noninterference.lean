import MiniRedis.Session
import Mathlib.Logic.Equiv.Defs

/-!
# Connections that do not influence each other

A connection sees the database only through the keys that it gets. Where no other
connection sets these keys, its replies are those of a run of its own; and where no
two connections set one key, the order of all SETs does not matter.
-/
namespace MiniRedis

open Library

/-- The frames that a connection has executed. -/
def executedFrames (events : List Event) : List Frame :=
  (receivedFrames events).take (outcomes events).length

/-- The replies that a connection has computed, written or not. -/
def producedReplies (events : List Event) : List Frame := (outcomes events).map Outcome.reply

/-- The connection has applied a SET to the key. -/
def SetsKey (out : List (ℕ × Event)) (i : ℕ) (key : String) : Prop :=
  ∃ number command reply, (i, .applied number (.set command) reply) ∈ out ∧ command.key = key

/-- The connection has applied a GET to the key. -/
def GetsKey (out : List (ℕ × Event)) (i : ℕ) (key : String) : Prop :=
  ∃ number command reply, (i, .applied number (.get command) reply) ∈ out ∧ command.key = key

/-- A frame is received and not executed yet. -/
def Phase.hasPending : Phase → Bool
  | .received _ => true
  | .counted _ => true
  | _ => false

/-! ### What a connection has executed -/

/-- What a connection sends: the replies that it has produced, and behind them at most the
report of a read error. -/
structure Answers (events : List Event) : Prop where
  written : writtenReplies events <+: producedReplies events
  attempted : attempts events <+: producedReplies events ∨
    ∃ error, .readFailed error ∈ events ∧
      attempts events = producedReplies events ++ [.error error.display]

/-- The executed requests behind the events of a connection. -/
theorem ServerTrace.executed {s : Server} {out : List (ℕ × Event)} (h : ServerTrace s out)
    (i : ℕ) : ∃ executed : List Request, executedFrames (project i out) = executed.map (·.frame) ∧
      outcomes (project i out) = executed.map (·.outcome) ∧ Answers (project i out) := by
  obtain ⟨phase, requests, unsent, pending, attempted, hpass⟩ := h.pass i
  have hshows := hpass.shows
  refine ⟨requests ++ unsent, ?_, hshows.outcomes_eq, ?_, ?_⟩
  · rw [executedFrames, hshows.receivedFrames_eq, hshows.outcomes_eq]
    exact List.take_left' (by rw [List.length_map, List.length_map])
  · rw [hshows.writtenReplies_eq, producedReplies, hpass.replies_eq, List.map_append]
    exact List.prefix_append _ _
  · rcases h.attempts_eq i with ⟨unanswered, hattempts, -⟩ | hfailed
    · exact .inl ⟨unanswered, hattempts⟩
    · exact .inr hfailed

/-- Outside of these phases a task has executed all that it has received. -/
theorem TaskTrace.executedFrames_eq {task : Task} {events : List Event} (h : TaskTrace task events)
    (hphase : task.phase.hasPending = false) : executedFrames events = receivedFrames events := by
  obtain ⟨requests, current, rfl, hcurrent⟩ := h
  obtain ⟨phase, shutdownRx, number⟩ := task
  have hlength : (receivedFrames current).length = (outcomes current).length := by
    cases hcurrent with
    | received frame => cases hphase
    | counted frame => cases hphase
    | looked request =>
      have hshows := request.shows_executed (requests.length + 1)
      rw [hshows.receivedFrames_eq, hshows.outcomes_eq]
      rfl
    | replying request =>
      have hshows := request.shows_attempted (requests.length + 1)
      rw [hshows.receivedFrames_eq, hshows.outcomes_eq]
      rfl
    | unanswered request ending =>
      have hshows := (request.shows_attempted (requests.length + 1)).append
        (⟨rfl, rfl, rfl, rfl⟩ : Shows [.ended ending] [] [] [] [])
      rw [hshows.receivedFrames_eq, hshows.outcomes_eq]
      rfl
    | _ => rfl
  have hscript := shows_script 1 requests
  have happend : ∀ l r : List Event, (receivedFrames (l ++ r)).length =
      (receivedFrames l).length + (receivedFrames r).length ∧ (outcomes (l ++ r)).length =
      (outcomes l).length + (outcomes r).length := by
    intro l r
    simp [receivedFrames, outcomes]
  obtain ⟨hreceived, houtcomes⟩ := happend (script 1 requests) current
  refine List.take_of_length_le ?_
  rw [hreceived, houtcomes, hscript.receivedFrames_eq, hscript.outcomes_eq, List.length_map,
    List.length_map]
  omega

/-- The commands that a connection has applied are those that its executed frames parse to. -/
theorem ServerTrace.operations {s : Server} {out : List (ℕ × Event)} (h : ServerTrace s out)
    (i : ℕ) : (project i (appliedOrder out)).map (·.operation) =
      (executedFrames (project i out)).filterMap fun frame => (Command.fromFrame frame).toOption := by
  obtain ⟨executed, hframes, houtcomes, -⟩ := h.executed i
  have hcommits := project_appliedOrder i out
  rw [houtcomes] at hcommits
  have hoperations := congrArg (List.map Prod.fst) hcommits
  rw [List.map_map, List.map_filterMap, List.filterMap_map] at hoperations
  rw [hframes, List.filterMap_map]
  refine hoperations.trans (List.filterMap_congr fun request _ => ?_)
  obtain ⟨frame, outcome, hparse⟩ := request
  simp only [Function.comp_apply, hparse]
  cases outcome <;> rfl

/-! ### The replies of one connection -/

/-- Where no other connection sets a key that it gets, a connection replies what the
reference interpreter does on its frames alone. -/
theorem Replays.producedReplies_eq {database : Database} {s : Server} {out : List (ℕ × Event)}
    (h : Replays database s out) (htrace : ServerTrace s out) {c : ℕ}
    (hquiet : ∀ j key, j ≠ c → SetsKey out j key → ¬ GetsKey out c key) :
    producedReplies (project c out) =
      (replay respond database (executedFrames (project c out))).1 := by
  have hown : ∀ commit, (c, commit) ∈ appliedOrder out → ∀ s t : Database,
      (∀ key, GetsKey out c key → s.get key = t.get key) →
      (commit.operation.apply s).1 = (commit.operation.apply t).1 ∧
        ∀ key, GetsKey out c key →
          (commit.operation.apply s).2.get key = (commit.operation.apply t).2.get key := by
    rintro ⟨number, command, reply⟩ hmem s t hview
    cases command with
    | get command =>
      have hkey := hview command.key ⟨number, command, reply, mem_appliedOrder.mp hmem, rfl⟩
      simp only [Command.apply_get_fst, Command.apply_get_snd, hkey]
      exact ⟨trivial, hview⟩
    | set command =>
      refine ⟨rfl, fun key hgets => ?_⟩
      rw [Command.get_apply, Command.get_apply, hview key hgets]
  have hother : ∀ j commit, (j, commit) ∈ appliedOrder out → j ≠ c → ∀ s t : Database,
      (∀ key, GetsKey out c key → s.get key = t.get key) →
      ∀ key, GetsKey out c key → (commit.operation.apply s).2.get key = t.get key := by
    rintro j ⟨number, command, reply⟩ hmem hjc s t hview key hgets
    cases command with
    | get command =>
      rw [Command.apply_get_snd]
      exact hview key hgets
    | set command =>
      have hne : command.key ≠ key := by
        rintro rfl
        exact hquiet j _ hjc ⟨number, command, reply, mem_appliedOrder.mp hmem, rfl⟩ hgets
      rw [Command.get_apply, Command.stores, if_neg hne]
      exact hview key hgets
  obtain ⟨rest, -, hreplay⟩ := replay_project_of_view h hown hother (fun _ _ => rfl)
  obtain ⟨executed, hframes, houtcomes, -⟩ := htrace.executed c
  have hrespond := replay_respond_of_commits houtcomes hreplay
  rw [hframes, hrespond, producedReplies, houtcomes, List.map_map]
  rfl

/-! ### The final database -/

/-- The value that a database holds in the end was set by one connection, or by none. -/
theorem lastSet_of_owner {order : List (ℕ × Commit Command Frame)} {i : ℕ} {key : String}
    (h : ∀ j commit, (j, commit) ∈ order → j ≠ i → commit.operation.stores key = none) :
    lastSet key (order.map (·.2.operation)) =
      lastSet key ((project i order).map (·.operation)) := by
  rw [lastSet, lastSet, ← List.map_reverse, ← List.map_reverse, List.findSome?_map,
    List.findSome?_map, ← project_reverse]
  refine findSome?_project (f := fun commit : Commit Command Frame => commit.operation.stores key) ?_
  intro j commit hmem hji
  exact h j commit (List.mem_reverse.mp hmem) hji

/-- A connection that has not set the key stores nothing under it. -/
theorem stores_eq_none {out : List (ℕ × Event)} {j : ℕ} {key : String}
    {commit : Commit Command Frame} (hmem : (j, commit) ∈ appliedOrder out)
    (hsets : ¬ SetsKey out j key) : commit.operation.stores key = none := by
  obtain ⟨number, command, reply⟩ := commit
  cases command with
  | get command => rfl
  | set command =>
    refine if_neg fun hkey => hsets ?_
    exact ⟨number, command, reply, mem_appliedOrder.mp hmem, hkey⟩

/-- Where no two connections set one key, the database only depends on what each connection
has executed, in whatever order and under whatever numbers. -/
theorem Replays.database_eq {database : Database} {s s' : Server} {out out' : List (ℕ × Event)}
    (h : Replays database s out) (htrace : ServerTrace s out) (h' : Replays database s' out')
    (htrace' : ServerTrace s' out')
    (howner : ∀ i j key, SetsKey out i key → SetsKey out j key → i = j) (e : Equiv.Perm ℕ)
    (hsame : ∀ i, executedFrames (project i out) = executedFrames (project (e i) out')) :
    s'.shared.database = s.shared.database := by
  have hoperations : ∀ i, (project i (appliedOrder out)).map (·.operation) =
      (project (e i) (appliedOrder out')).map (·.operation) := by
    intro i
    rw [htrace.operations, htrace'.operations, hsame]
  refine Database.eq_of_get fun key => ?_
  obtain ⟨i, hi⟩ : ∃ i, ∀ j, j ≠ i → ¬ SetsKey out j key := by
    by_cases hset : ∃ i, SetsKey out i key
    · obtain ⟨i, hi⟩ := hset
      exact ⟨i, fun j hji hj => hji (howner j i key hj hi)⟩
    · exact ⟨0, fun j _ hj => hset ⟨j, hj⟩⟩
  have hleft := lastSet_of_owner fun j commit hmem hji => stores_eq_none hmem (hi j hji)
  have hright : lastSet key ((appliedOrder out').map (·.2.operation)) =
      lastSet key ((project (e i) (appliedOrder out')).map (·.operation)) := by
    refine lastSet_of_owner fun j commit hmem hji => ?_
    have hback : commit.operation ∈ (project (e.symm j) (appliedOrder out)).map (·.operation) := by
      rw [hoperations, Equiv.apply_symm_apply]
      exact List.mem_map_of_mem (mem_project.mpr hmem)
    obtain ⟨commit', hmem', heq⟩ := List.mem_map.mp hback
    rw [← heq]
    refine stores_eq_none (mem_project.mp hmem') (hi _ ?_)
    rintro rfl
    exact hji (e.apply_symm_apply j).symm
  rw [h.get_eq, h'.get_eq, hleft, hright, hoperations]

/-! ### A connection alone -/

/-- Whatever a waiting task reads one after the other, it can answer all of it. -/
theorem serve_all (frames : List Frame) (shared : Shared) (task : Task)
    (hphase : task.phase = .selecting) :
    ∃ actions shared' task' events,
      taskMachine.run actions (shared, task) = some ((shared', task'), events) ∧
      task'.phase = .selecting ∧ receivedFrames events = frames ∧
      writtenReplies events = (replay respond shared.database frames).1 := by
  induction frames generalizing shared task with
  | nil => exact ⟨[], shared, task, [], rfl, hphase, rfl, rfl⟩
  | cons frame frames ih =>
    obtain ⟨first, shared₁, task₁, now, hrun, hphase₁, hreceived, hwritten, hdatabase⟩ :=
      serve_run shared task hphase frame
    obtain ⟨more, shared', task', later, hmore, hphase', hreceived', hwritten'⟩ :=
      ih shared₁ task₁ hphase₁
    refine ⟨first ++ more, shared', task', now ++ later,
      taskMachine.run_append.mpr ⟨_, now, later, hrun, hmore, rfl⟩, hphase', ?_, ?_⟩
    · rw [receivedFrames, List.filterMap_append, ← receivedFrames, ← receivedFrames, hreceived,
        hreceived']
      rfl
    · rw [writtenReplies, List.filterMap_append, ← writtenReplies, ← writtenReplies, hwritten,
        hwritten', hdatabase]
      rfl

/-- Only the connection `c` shows anything. -/
def Alone (c : ℕ) (out : List (ℕ × Event)) : Prop := ∀ entry ∈ out, entry.1 = c

/-- On every database there is a run in which one connection alone is served these frames. -/
theorem exists_alone (database : Database) (frames : List Frame) :
    ∃ s₀ s actions out, Server.new 1 database = some s₀ ∧ server.run actions s₀ = some (s, out) ∧
      Alone 0 out ∧ executedFrames (project 0 out) = frames ∧
      writtenReplies (project 0 out) = (replay respond database frames).1 := by
  obtain ⟨s₀, hnew⟩ : ∃ s₀, Server.new 1 database = some s₀ := ⟨_, rfl⟩
  obtain ⟨s₁, task, hstart, hi, hphase, hdatabase⟩ : ∃ s₁ task,
      server.run (.acceptor .run :: admission .acceptor (.task 0)) s₀ = some (s₁, []) ∧
      s₁.tasks[0]? = some task ∧ task.phase = .selecting ∧
      s₁.shared.database = database := by
    cases hnew
    exact ⟨_, _, rfl, rfl, rfl, rfl⟩
  obtain ⟨actions, shared', task', events, hserve, hphase', hreceived, hwritten⟩ :=
    serve_all frames s₁.shared task hphase
  obtain ⟨s, hrun, htask, -⟩ := server_run_task hi hserve
  have hwhole := server.run_append.mpr ⟨s₁, [], _, hstart, hrun, rfl⟩
  have htrace := (ServerTrace.run hnew hwhole).tasks 0 task' htask
  rw [List.nil_append, project_map_self] at htrace
  refine ⟨s₀, s, _, _, hnew, hwhole, ?_, ?_, ?_⟩
  · intro entry hentry
    obtain ⟨event, -, rfl⟩ := List.mem_map.mp hentry
    rfl
  · rw [List.nil_append, project_map_self, htrace.executedFrames_eq (by rw [hphase']; rfl), hreceived]
  · rw [List.nil_append, project_map_self, hwritten, hdatabase]

/-! ### Independence -/

/-- The connection replies what it replies alone to the same frames on the database. -/
structure RepliesAsAlone (database : Database) (events : List Event) : Prop where
  answers : Answers events
  same : ∀ maxConnections s₀ s actions out c, Server.new maxConnections database = some s₀ →
    server.run actions s₀ = some (s, out) → Alone c out →
    executedFrames events = executedFrames (project c out) →
    producedReplies events = producedReplies (project c out)
  /-- The run of its own may go on. -/
  cut : ∀ maxConnections s₀ s actions out c, Server.new maxConnections database = some s₀ →
    server.run actions s₀ = some (s, out) → Alone c out →
    executedFrames events <+: executedFrames (project c out) →
    producedReplies events <+: producedReplies (project c out)
  /-- There is such a run. -/
  exists_alone : ∃ s₀ s actions out, Server.new 1 database = some s₀ ∧
    server.run actions s₀ = some (s, out) ∧ Alone 0 out ∧
    executedFrames (project 0 out) = executedFrames events ∧
    writtenReplies (project 0 out) = producedReplies events

theorem Alone.producedReplies_eq {maxConnections : ℕ} {database : Database} {s₀ s : Server}
    {actions : List ServerAction} {out : List (ℕ × Event)} {c : ℕ}
    (hnew : Server.new maxConnections database = some s₀)
    (hrun : server.run actions s₀ = some (s, out)) (h : Alone c out) :
    producedReplies (project c out) =
      (replay respond database (executedFrames (project c out))).1 := by
  refine (Replays.run hnew hrun).producedReplies_eq (ServerTrace.run hnew hrun) ?_
  rintro j key hjc ⟨number, command, reply, hmem, -⟩
  exact absurd (h _ hmem) hjc

/-- Connections that do not set each other's keys do not influence each other: in every
reachable state a connection has replied what it does alone, and where no two connections
set one key, all runs in which they have executed the same leave the same database. -/
theorem connections_independent (maxConnections : ℕ) (database : Database) (s₀ s : Server)
    (actions : List ServerAction) (out : List (ℕ × Event))
    (hnew : Server.new maxConnections database = some s₀)
    (hrun : server.run actions s₀ = some (s, out)) :
    (∀ c, (∀ j key, j ≠ c → SetsKey out j key → ¬ GetsKey out c key) →
      RepliesAsAlone database (project c out)) ∧
    ((∀ i j key, SetsKey out i key → SetsKey out j key → i = j) →
      ∀ maxConnections' s₀' s' actions' out' (e : Equiv.Perm ℕ),
        Server.new maxConnections' database = some s₀' →
        server.run actions' s₀' = some (s', out') →
        (∀ i, executedFrames (project i out) = executedFrames (project (e i) out')) →
        s'.shared.database = s.shared.database) ∧
    ∀ i task, s.tasks[i]? = some task → task.phase.hasPending = false →
      executedFrames (project i out) = receivedFrames (project i out) := by
  have htrace := ServerTrace.run hnew hrun
  have hreplays := Replays.run hnew hrun
  refine ⟨?_, ?_, fun i task hi hphase => (htrace.tasks i task hi).executedFrames_eq hphase⟩
  · intro c hquiet
    have hproduced := hreplays.producedReplies_eq htrace hquiet
    obtain ⟨-, -, -, hanswers⟩ := htrace.executed c
    refine ⟨hanswers, ?_, ?_, ?_⟩
    · intro maxConnections' s₀' s' actions' out' c' hnew' hrun' halone hsame
      rw [hproduced, halone.producedReplies_eq hnew' hrun', hsame]
    · intro maxConnections' s₀' s' actions' out' c' hnew' hrun' halone hprefix
      obtain ⟨more, hmore⟩ := hprefix
      rw [hproduced, halone.producedReplies_eq hnew' hrun', ← hmore, replay_append]
      exact List.prefix_append _ _
    · obtain ⟨s₀', s', actions', out', hnew', hrun', halone, hframes, hwritten⟩ :=
        exists_alone database (executedFrames (project c out))
      exact ⟨s₀', s', actions', out', hnew', hrun', halone, hframes, hwritten.trans hproduced.symm⟩
  · intro howner maxConnections' s₀' s' actions' out' e hnew' hrun' hsame
    exact hreplays.database_eq htrace (Replays.run hnew' hrun') (ServerTrace.run hnew' hrun') howner
      e hsame

/-- Two connections that have each read a request. -/
def twoRequests : List ServerAction :=
  .acceptor .run :: admission .acceptor (.task 0) ++ admission .acceptor (.task 1) ++
    [.task 1 (.readFrame (.frame (.array [.bulk [71, 69, 84], .bulk [106]]))),
    .task 0 (.readFrame (.frame (.array [.simple "set", .bulk [107], .bulk [13]]))),
    .task 0 .count, .task 1 .count]

/-- One connection sets the key `k` before or after another one gets the key `j`. -/
theorem connections_independent_two :
    ∃ s₀ s s' out out', Server.new 2 .new = some s₀ ∧
      server.run (twoRequests ++ [.task 0 .execute, .task 1 .execute]) s₀ = some (s, out) ∧
      server.run (twoRequests ++ [.task 1 .execute, .task 0 .execute]) s₀ = some (s', out') ∧
      RepliesAsAlone .new (project 1 out) ∧ s'.shared.database = s.shared.database := by
  obtain ⟨s₀, hnew⟩ : ∃ s₀, Server.new 2 .new = some s₀ := ⟨_, rfl⟩
  obtain ⟨s, s', out, out', hrun, hrun', hquiet, howner, hsame⟩ : ∃ s s' out out',
      server.run (twoRequests ++ [.task 0 .execute, .task 1 .execute]) s₀ = some (s, out) ∧
      server.run (twoRequests ++ [.task 1 .execute, .task 0 .execute]) s₀ = some (s', out') ∧
      (∀ j key, j ≠ 1 → SetsKey out j key → ¬ GetsKey out 1 key) ∧
      (∀ i j key, SetsKey out i key → SetsKey out j key → i = j) ∧
      ∀ i, executedFrames (project i out) = executedFrames (project i out') := by
    cases hnew
    refine ⟨_, _, _, _, rfl, rfl, ?_, ?_, ?_⟩
    · rintro j key hj ⟨number, command, reply, hmem, hkey⟩ ⟨number', command', reply', hmem', hkey'⟩
      simp at hmem hmem'
      obtain ⟨-, -, rfl, -⟩ := hmem
      obtain ⟨-, rfl, -⟩ := hmem'
      exact absurd (hkey.trans hkey'.symm) (by decide)
    · rintro i j key ⟨number, command, reply, hmem, -⟩ ⟨number', command', reply', hmem', -⟩
      simp at hmem hmem'
      rw [hmem.1, hmem'.1]
    · intro i
      rcases i with _ | _ | i
      · rfl
      · rfl
      · rfl
  have h := connections_independent 2 .new s₀ s _ out hnew hrun
  exact ⟨s₀, s, s', out, out', hnew, hrun, hrun', h.1 1 hquiet,
    h.2.1 howner 2 s₀ s' _ out' (Equiv.refl ℕ) hnew hrun' hsame⟩

end MiniRedis
