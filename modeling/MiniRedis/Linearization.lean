import Mathlib.Data.List.Induction
import MiniRedis.Library.Linearization
import MiniRedis.Trace

/-!
# The server as one sequential database

The accesses of the database, in the order in which the tasks make them, are one
total order of the applied commands. It explains every reply, keeps the order of
each connection, and keeps the order of a written reply and a later request.
-/
namespace MiniRedis

open Library

/-- What an event is for the command that it belongs to. -/
def Event.mark : Event → Option (Mark Command Frame)
  | .received request _ => some (.call request)
  | .applied request command reply => some (.commit request command reply)
  | .rejected request _ => some (.refuse request)
  | .written request _ => some (.return request)
  | _ => none

/-- The marks of all connections. -/
def history (out : List (ℕ × Event)) : List (ℕ × Mark Command Frame) := select Event.mark out

/-- The applied commands of all connections, in the order of their application. -/
def appliedOrder (out : List (ℕ × Event)) : List (ℕ × Commit Command Frame) :=
  select Mark.commit? (history out)

theorem appliedOrder_append (l r : List (ℕ × Event)) :
    appliedOrder (l ++ r) = appliedOrder l ++ appliedOrder r := by
  simp [appliedOrder, history]

theorem mem_history {out : List (ℕ × Event)} {i : ℕ} {mark : Mark Command Frame} :
    (i, mark) ∈ history out ↔ ∃ event, (i, event) ∈ out ∧ event.mark = some mark :=
  mem_select

theorem commit_mem_history {out : List (ℕ × Event)} {i number : ℕ} {command : Command}
    {reply : Frame} :
    (i, .commit number command reply) ∈ history out ↔
      (i, .applied number command reply) ∈ out := by
  rw [mem_history]
  constructor
  · rintro ⟨event, hmem, hmark⟩
    cases event <;> cases hmark
    exact hmem
  · intro hmem
    exact ⟨_, hmem, rfl⟩

theorem mem_appliedOrder {out : List (ℕ × Event)} {i : ℕ} {commit : Commit Command Frame} :
    (i, commit) ∈ appliedOrder out ↔
      (i, .applied commit.number commit.operation commit.result) ∈ out :=
  mem_commits.trans commit_mem_history

/-! ### The marks of a connection are in order -/

def Outcome.mark (number : ℕ) : Outcome → Mark Command Frame
  | .applied command reply => .commit number command reply
  | .rejected _ => .refuse number

@[simp] theorem Outcome.clock_mark (number : ℕ) (outcome : Outcome) :
    (outcome.mark number).clock = 3 * number + 1 := by
  cases outcome <;> rfl

theorem Outcome.mark_event (number : ℕ) (outcome : Outcome) :
    (outcome.event number).mark = some (outcome.mark number) := by
  cases outcome <;> rfl

@[simp] theorem Request.marks_executed (request : Request) (number : ℕ) :
    (request.executed number).filterMap Event.mark =
      [.call number, request.outcome.mark number] := by
  have hcall : (Event.received number request.frame).mark = some (.call number) := rfl
  rw [executed, List.filterMap_cons_some hcall, List.filterMap_cons_some (Outcome.mark_event _ _),
    List.filterMap_nil]

@[simp] theorem Request.marks_attempted (request : Request) (number : ℕ) :
    (request.attempted number).filterMap Event.mark =
      [.call number, request.outcome.mark number] := by
  simp [attempted, List.filterMap_cons, Event.mark]

@[simp] theorem Request.marks_served (request : Request) (number : ℕ) :
    (request.served number).filterMap Event.mark =
      [.call number, request.outcome.mark number, .return number] := by
  simp [served, Event.mark]

theorem marks_script (number : ℕ) (requests : List Request) :
    ((script number requests).filterMap Event.mark).Pairwise (fun a b => a.clock < b.clock) ∧
      ∀ mark ∈ (script number requests).filterMap Event.mark,
        3 * number ≤ mark.clock ∧ mark.clock < 3 * (number + requests.length) := by
  induction requests generalizing number with
  | nil => simp [script]
  | cons request requests ih =>
    have hserved : ((request.served number).filterMap Event.mark).Pairwise
        fun a b => a.clock < b.clock := by simp
    have hservedBounds : ∀ mark ∈ (request.served number).filterMap Event.mark,
        3 * number ≤ mark.clock ∧ mark.clock < 3 * (number + 1) := by
      simp
      omega
    obtain ⟨hlater, hlaterBounds⟩ := ih (number + 1)
    rw [script, List.filterMap_append, List.length_cons]
    refine ⟨List.pairwise_append.mpr ⟨hserved, hlater, ?_⟩, ?_⟩
    · intro a ha b hb
      have hltA := (hservedBounds a ha).2
      have hleB := (hlaterBounds b hb).1
      omega
    · intro mark hmark
      rcases List.mem_append.mp hmark with hmark | hmark
      · have hbounds := hservedBounds mark hmark
        omega
      · have hbounds := hlaterBounds mark hmark
        omega

theorem Current.marks {n number : ℕ} {phase : Phase} {events : List Event}
    (h : Current n phase number events) :
    (events.filterMap Event.mark).Pairwise (fun a b => a.clock < b.clock) ∧
      ∀ mark ∈ events.filterMap Event.mark, 3 * (n + 1) ≤ mark.clock := by
  cases h with
  | looked request => simp
  | replying request => simp
  | unanswered request => simp [List.filterMap_cons, Event.mark]
  | _ => simp [List.filterMap_cons, Event.mark]

theorem ServerTrace.timed {s : Server} {out : List (ℕ × Event)} (h : ServerTrace s out) :
    Timed (history out) := by
  intro i
  obtain ⟨requests, current, phase, number, hproject, hcurrent⟩ := h.project_eq i
  obtain ⟨hscript, hscriptBounds⟩ := marks_script 1 requests
  obtain ⟨hpass, hpassBounds⟩ := hcurrent.marks
  rw [history, project_select, hproject, List.filterMap_append]
  refine List.pairwise_append.mpr ⟨hscript, hpass, ?_⟩
  intro a ha b hb
  have hltA := (hscriptBounds a ha).2
  have hleB := hpassBounds b hb
  omega

/-! ### The applied commands replay -/

/-- The database is the one that the applied commands leave, and each has had the
reply of the database before it. -/
def Replays (database : Database) (s : Server) (out : List (ℕ × Event)) : Prop :=
  replay Command.apply database ((appliedOrder out).map (·.2.operation)) =
    ((appliedOrder out).map (·.2.result), s.shared.database)

/-- A step of a task applies at most one command. -/
theorem Task.Step.applies {shared shared' : Shared} {task task' : Task} {action : TaskAction}
    {events : List Event} (h : task.Step shared action shared' task' events) :
    ((events.filterMap Event.mark).filterMap Mark.commit? = [] ∧
        shared'.database = shared.database) ∨
      ∃ number command, (events.filterMap Event.mark).filterMap Mark.commit? =
          [⟨number, command, (command.apply shared.database).1⟩] ∧
        shared'.database = (command.apply shared.database).2 := by
  cases h with
  | lookUp frame command hphase hparse =>
    exact .inr ⟨task.request, .get command, rfl, (Command.apply_get_snd command _).symm⟩
  | store frame command hphase hparse => exact .inr ⟨task.request, .set command, rfl, rfl⟩
  | drop ending resource =>
    refine .inl ⟨rfl, ?_⟩
    cases resource <;> rfl
  | _ => exact .inl ⟨rfl, rfl⟩

theorem Acceptor.Step.database_eq {shared shared' : Shared} {acceptor acceptor' : Acceptor}
    {action : AcceptorAction} {spawned : List Task}
    (h : acceptor.Step shared action shared' acceptor' spawned) :
    shared'.database = shared.database := by
  cases h <;> rfl

theorem Replays.step {database : Database} {s t : Server} {out now : List (ℕ × Event)}
    (h : Replays database s out) {action : ServerAction}
    (hstep : server.step action s = some (t, now)) : Replays database t (out ++ now) := by
  cases Server.step_cases hstep with
  | acceptor action hact =>
    rw [List.append_nil]
    unfold Replays at h ⊢
    rw [h, ← hact.database_eq]
  | task i action hi htask =>
    have horder : ∀ events : List Event, appliedOrder (events.map fun event => (i, event)) =
        ((events.filterMap Event.mark).filterMap Mark.commit?).map fun commit => (i, commit) := by
      intro events
      rw [appliedOrder, history, select_map, select_map]
    unfold Replays at h ⊢
    rw [appliedOrder_append, horder, List.map_append, List.map_append]
    rcases htask.applies with ⟨hnone, hdatabase⟩ | ⟨number, command, hone, hdatabase⟩
    · simpa [hnone, hdatabase] using h
    · rw [hone]
      simp only [List.map_cons, List.map_nil]
      rw [replay_concat, h, hdatabase]
  | send => simpa [Replays] using h
  | dropShutdownTx => simpa [Replays] using h
  | dropCompleteTx => simpa [Replays] using h

theorem Replays.run {maxConnections : ℕ} {database : Database} {s₀ s : Server}
    {actions : List ServerAction} {out : List (ℕ × Event)}
    (hnew : Server.new maxConnections database = some s₀)
    (hrun : server.run actions s₀ = some (s, out)) : Replays database s out := by
  have hstep : ∀ s out action t now, Replays database s out →
      server.step action s = some (t, now) → Replays database t (out ++ now) :=
    fun _ _ _ _ _ hs hstep => hs.step hstep
  have hinit : Replays database s₀ [] := by
    obtain ⟨-, hdatabase⟩ := Server.tasks_new hnew
    simp [Replays, appliedOrder, history, hdatabase]
  simpa using server.run_invariant hstep hinit hrun

/-! ### The last SET before a GET -/

/-- The value that a command stores under the key. -/
def Command.stores (key : String) : Command → Option Bytes
  | .set command => if command.key = key then some command.value else none
  | .get _ => none

/-- The value of the last SET to the key. -/
def lastSet (key : String) (commands : List Command) : Option Bytes :=
  commands.reverse.findSome? (Command.stores key)

theorem Command.get_apply (command : Command) (database : Database) (key : String) :
    (command.apply database).2.get key = (command.stores key).or (database.get key) := by
  cases command with
  | get command => simp [apply_get_snd, stores]
  | set command =>
    by_cases h : command.key = key
    · simp [apply, stores, h]
    · simp [apply, stores, h, Database.get_set_of_ne _ _ (Ne.symm h)]

/-- A database holds the last SETs. -/
theorem get_replay (database : Database) (key : String) (commands : List Command) :
    (replay Command.apply database commands).2.get key =
      (lastSet key commands).or (database.get key) := by
  induction commands using List.reverseRecOn with
  | nil => rfl
  | append_singleton commands command ih =>
    rw [replay_concat, Command.get_apply, ih, lastSet, lastSet, List.reverse_concat,
      List.findSome?_cons]
    cases command.stores key <;> rfl

theorem Replays.get_eq {database : Database} {s : Server} {out : List (ℕ × Event)}
    (h : Replays database s out) (key : String) : s.shared.database.get key =
      (lastSet key ((appliedOrder out).map (·.2.operation))).or (database.get key) := by
  rw [← get_replay]
  exact congrArg (fun result => result.2.get key) h.symm

/-- What a GET replies for a lookup. -/
def lookupReply : Option Bytes → Frame
  | some bytes => .bulk bytes
  | none => .null

theorem Command.apply_get_fst (command : Get) (database : Database) :
    ((Command.get command).apply database).1 = lookupReply (database.get command.key) := by
  cases h : database.get command.key <;> simp [apply, h, lookupReply]

/-! ### Linearizability -/

/-- One total order of the applied commands explains what all connections see. -/
structure Linearizes (out : List (ℕ × Event)) (order : List (ℕ × Commit Command Frame)) : Prop where
  /-- Exactly the applied commands are in the order, with the replies that they had. -/
  mem_iff : ∀ i number command reply,
    (i, ⟨number, command, reply⟩) ∈ order ↔ (i, .applied number command reply) ∈ out
  /-- No request is there twice. -/
  nodup : (order.map fun entry => (entry.1, entry.2.number)).Nodup
  /-- It extends the request order of each connection. -/
  requestOrder : order.Pairwise fun a b => a.1 = b.1 → a.2.number < b.2.number
  /-- A reply written before a request was read puts their commands in this order. -/
  realTime : ∀ a ∈ order, ∀ b ∈ order, ∀ reply frame,
    Before out (a.1, .written a.2.number reply) (b.1, .received b.2.number frame) →
    Before order a b
  /-- Each command is the parse of a frame that was received completely before. -/
  requested : ∀ i number command reply, (i, ⟨number, command, reply⟩) ∈ order →
    ∃ frame, Before out (i, .received number frame) (i, .applied number command reply) ∧
      Command.fromFrame frame = .ok command
  /-- A GET replies with the last value set before it, or with null. -/
  get : ∀ pre post i number command reply,
    order = pre ++ (i, ⟨number, .get command, reply⟩) :: post →
    reply = lookupReply (lastSet command.key (pre.map (·.2.operation)))
  set : ∀ i number command reply, (i, ⟨number, .set command, reply⟩) ∈ order →
    reply = .simple "OK"
  /-- The reply that a connection writes is the one of the order, or reports a rejection. -/
  written : ∀ i number reply, (i, .written number reply) ∈ out →
    (∃ command, (i, ⟨number, command, reply⟩) ∈ order) ∨
      ∃ error, (i, .rejected number error) ∈ out ∧ reply = .error error.display
  /-- A rejected frame is nowhere in the order. -/
  rejected : ∀ i number error, (i, .rejected number error) ∈ out →
    ∀ command reply, (i, ⟨number, command, reply⟩) ∉ order

theorem appliedOrder_linearizes {s : Server} {out : List (ℕ × Event)} (htrace : ServerTrace s out)
    (hreplays : Replays .new s out) : Linearizes out (appliedOrder out) := by
  have hlin := Linearization.commits htrace.timed hreplays
  have hmem : ∀ i number command reply, (i, ⟨number, command, reply⟩) ∈ appliedOrder out ↔
      (i, .applied number command reply) ∈ out := fun _ _ _ _ => mem_appliedOrder
  exact {
    mem_iff := hmem
    nodup := hlin.nodup
    requestOrder := hlin.sourceOrder
    realTime := fun a ha b hb reply frame hbefore =>
      hlin.realTime a ha b hb (hbefore.filterMap rfl rfl)
    requested := by
      intro i number command reply hentry
      have happlied := mem_project.mpr ((hmem _ _ _ _).mp hentry)
      obtain ⟨frame, hbefore, hparse⟩ :=
        (htrace.explained i).outcome number (.applied command reply) happlied
      exact ⟨frame, hbefore.of_project, hparse⟩
    get := by
      intro pre post i number command reply hsplit
      have hresult := hlin.result_eq hsplit
      simp only at hresult
      rw [hresult, Command.apply_get_fst, get_replay, Database.get_new, Option.or_none]
    set := by
      intro i number command reply hentry
      obtain ⟨pre, post, hsplit⟩ := List.append_of_mem hentry
      exact hlin.result_eq hsplit
    written := by
      intro i number reply hwritten
      obtain ⟨outcome, houtcome, rfl⟩ :=
        (htrace.explained i).written number reply (mem_project.mpr hwritten)
      cases outcome with
      | applied command reply =>
        exact .inl ⟨command, (hmem _ _ _ _).mpr (mem_project.mp houtcome)⟩
      | rejected error => exact .inr ⟨error, mem_project.mp houtcome, rfl⟩
    rejected := by
      intro i number error hrejected command reply hentry
      exact hlin.refused i number (mem_history.mpr ⟨_, hrejected, rfl⟩) _ hentry rfl }

/-- The order of the applied commands explains the replies, and its SETs are the database. -/
theorem Replays.exists_order {s : Server} {out : List (ℕ × Event)} (htrace : ServerTrace s out)
    (h : Replays .new s out) :
    ∃ order, Linearizes out order ∧
      ∀ key, s.shared.database.get key = lastSet key (order.map (·.2.operation)) := by
  refine ⟨appliedOrder out, appliedOrder_linearizes htrace h, fun key => ?_⟩
  rw [h.get_eq, Database.get_new, Option.or_none]

/-- Every run of the server, with any number of connections and any interleaving,
is explained by one total order of the applied commands, whose SETs are the database. -/
theorem server_linearizable (maxConnections : ℕ) (s₀ s : Server) (actions : List ServerAction)
    (out : List (ℕ × Event)) (hnew : Server.new maxConnections .new = some s₀)
    (hrun : server.run actions s₀ = some (s, out)) :
    ∃ order, Linearizes out order ∧
      ∀ key, s.shared.database.get key = lastSet key (order.map (·.2.operation)) :=
  (Replays.run hnew hrun).exists_order (ServerTrace.run hnew hrun)

/-- One connection sets a key while the request of another to get it is already read. -/
theorem server_linearizable_two :
    ∃ s₀ s actions out, Server.new 2 .new = some s₀ ∧ server.run actions s₀ = some (s, out) ∧
      (1, .written 1 (.bulk [13])) ∈ out ∧
      ∃ order, Linearizes out order ∧
        ∀ key, s.shared.database.get key = lastSet key (order.map (·.2.operation)) := by
  obtain ⟨s₀, hnew⟩ : ∃ s₀, Server.new 2 .new = some s₀ := ⟨_, rfl⟩
  obtain ⟨s, out, hrun, hwritten⟩ : ∃ s out, server.run
      (.acceptor .run :: admission .acceptor (.task 0) ++ admission .acceptor (.task 1) ++
        [.task 1 (.readFrame (.frame (.array [.bulk [71, 69, 84], .bulk [107]]))),
        .task 0 (.readFrame (.frame (.array [.simple "set", .bulk [107], .bulk [13]]))),
        .task 0 .count, .task 1 .count, .task 0 .execute, .task 1 .execute, .task 1 .countLookup,
        .task 1 .writeOk]) s₀ = some (s, out) ∧ (1, .written 1 (.bulk [13])) ∈ out := by
    cases hnew
    exact ⟨_, _, rfl, by simp⟩
  exact ⟨s₀, s, _, out, hnew, hrun, hwritten, server_linearizable 2 s₀ s _ out hnew hrun⟩

end MiniRedis
