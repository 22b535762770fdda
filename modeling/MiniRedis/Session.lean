import MiniRedis.Linearization

/-!
# The session of one connection

While no other connection writes, a connection behaves as the reference
interpreter on the frames that it has executed, which are a prefix of the frames
that it has received. The law holds in every reachable state, so for a session of
any length that is cut at any point.
-/
namespace MiniRedis

open Library

/-- The reference interpreter on one frame. -/
def respond (frame : Frame) (database : Database) : Frame × Database :=
  match Command.fromFrame frame with
  | .ok (.get command) => (lookupReply (database.get command.key), database)
  | .ok (.set command) => (.simple "OK", database.set command.key command.value)
  | .error error => (.error error.display, database)

/-- The SETs among the frames. -/
def sets (frames : List Frame) : List Set :=
  frames.filterMap fun frame =>
    match Command.fromFrame frame with
    | .ok (.set command) => some command
    | _ => none

/-- The left fold of SETs. -/
def storeAll (database : Database) (commands : List Set) : Database :=
  commands.foldl (fun database command => database.set command.key command.value) database

/-- The reference interpreter changes the database by the SETs alone. -/
theorem replay_respond_snd (database : Database) (frames : List Frame) :
    (replay respond database frames).2 = storeAll database (sets frames) := by
  induction frames generalizing database with
  | nil => rfl
  | cons frame frames ih =>
    rw [replay, ih]
    cases hparse : Command.fromFrame frame with
    | error error => simp [respond, sets, hparse]
    | ok command => cases command <;> simp [respond, sets, storeAll, hparse]

theorem respond_of_ok {frame : Frame} {command : Command}
    (h : Command.fromFrame frame = .ok command) (database : Database) :
    respond frame database = command.apply database := by
  cases command with
  | get command =>
    rw [respond, h]
    exact Prod.ext (Command.apply_get_fst command database).symm
      (Command.apply_get_snd command database).symm
  | set command =>
    rw [respond, h]
    rfl

/-! ### What one pass of the loop adds -/

/-- What a connection shows: the requests that it has answered, and behind them the current
pass, with a request that is executed and not yet acknowledged, or a frame that is received
and not yet executed. -/
structure Pass (phase : Phase) (events : List Event) (requests unsent : List Request)
    (pending attempted : List Frame) : Prop where
  shows : Shows events ((requests ++ unsent).map (·.frame) ++ pending)
    ((requests ++ unsent).map (·.outcome)) (requests.map (·.outcome.reply) ++ attempted)
    (requests.map (·.outcome.reply))
  short : pending.length + unsent.length ≤ 1
  answers : (∀ error, .readFailed error ∉ events) → attempted <+: unsent.map (·.outcome.reply)
  selecting : phase = .selecting → pending = [] ∧ unsent = []
  finished : .ended .finished ∈ events → pending = [] ∧ unsent = []
  readFailed : ∀ error, .readFailed error ∈ events → pending = [] ∧ unsent = [] ∧
    attempted = [.error error.display] ∧
    ∀ ending, .ended ending ∈ events → ending = .failed error ∨ ending = .cancelled
  failed : ∀ error, .ended (.failed error) ∈ events → .readFailed error ∈ events ∨
    pending = [] ∧ unsent.length = 1 ∧ attempted = unsent.map (·.outcome.reply) ∧
      ∃ text, error = .io text

/-- The events that only occur when a session closes. -/
def Event.closing : Event → Bool
  | .readFailed _ => true
  | .ended _ => true
  | _ => false

theorem Request.closing_not_mem (request : Request) (number : ℕ) {event : Event}
    (h : event.closing = true) : event ∉ request.attempted number := by
  intro hmem
  cases houtcome : request.outcome <;> cases event <;>
    simp_all [attempted, executed, Outcome.event, Event.closing]

theorem closing_not_mem_script (number : ℕ) (requests : List Request) {event : Event}
    (h : event.closing = true) : event ∉ script number requests := by
  induction requests generalizing number with
  | nil => exact List.not_mem_nil
  | cons request requests ih =>
    intro hmem
    rcases List.mem_append.mp hmem with hmem | hmem
    · rcases List.mem_append.mp hmem with hmem | hmem
      · exact request.closing_not_mem number h hmem
      · rw [List.mem_singleton.mp hmem] at h
        cases h
    · exact ih (number + 1) hmem

theorem Current.pass {n number : ℕ} {phase : Phase} {events : List Event}
    (h : Current n phase number events) :
    ∃ unsent pending attempted, Pass phase events [] unsent pending attempted := by
  cases h with
  | received frame =>
    exact ⟨[], [frame], [], ⟨rfl, rfl, rfl, rfl⟩, by simp, by simp, by simp, by simp, by simp,
      by simp⟩
  | counted frame =>
    exact ⟨[], [frame], [], ⟨rfl, rfl, rfl, rfl⟩, by simp, by simp, by simp, by simp, by simp,
      by simp⟩
  | looked request =>
    have hclosing : ∀ event : Event, event.closing = true → event ∉ request.executed (n + 1) :=
      fun event h hmem => request.closing_not_mem (n + 1) h (List.mem_append_left _ hmem)
    refine ⟨[request], [], [], request.shows_executed (n + 1), by simp, by simp, by simp, ?_, ?_,
      ?_⟩
    · exact fun hmem => absurd hmem (hclosing _ rfl)
    · exact fun error hmem => absurd hmem (hclosing _ rfl)
    · exact fun error hmem => absurd hmem (hclosing _ rfl)
  | replying request =>
    refine ⟨[request], [], [request.outcome.reply], request.shows_attempted (n + 1), by simp,
      by simp, by simp, ?_, ?_, ?_⟩
    · exact fun hmem => absurd hmem (request.closing_not_mem (n + 1) rfl)
    · exact fun error hmem => absurd hmem (request.closing_not_mem (n + 1) rfl)
    · exact fun error hmem => absurd hmem (request.closing_not_mem (n + 1) rfl)
  | reporting error =>
    exact ⟨[], [], [.error error.display], ⟨rfl, rfl, rfl, rfl⟩, by simp,
      fun hnone => absurd (by simp) (hnone error), by simp, by simp, by simp, by simp⟩
  | left ending unwinding number hending =>
    refine ⟨[], [], [], ⟨rfl, rfl, rfl, rfl⟩, by simp, by simp, by simp, by simp, by simp, ?_⟩
    intro error hmem
    obtain rfl : Ending.failed error = ending := by simpa using hmem
    simp at hending
  | unanswered request ending unwinding number hending =>
    have hended : Shows [.ended ending] [] [] [] [] := ⟨rfl, rfl, rfl, rfl⟩
    refine ⟨[request], [], [request.outcome.reply], (request.shows_attempted (n + 1)).append hended,
      by simp, by simp, by simp, ?_, ?_, ?_⟩
    · intro hmem
      rcases List.mem_append.mp hmem with hmem | hmem
      · exact absurd hmem (request.closing_not_mem (n + 1) rfl)
      · obtain rfl : Ending.finished = ending := by simpa using hmem
        simp at hending
    · intro error hmem
      rcases List.mem_append.mp hmem with hmem | hmem
      · exact absurd hmem (request.closing_not_mem (n + 1) rfl)
      · simp at hmem
    · intro error hmem
      rcases List.mem_append.mp hmem with hmem | hmem
      · exact absurd hmem (request.closing_not_mem (n + 1) rfl)
      · obtain rfl : Ending.failed error = ending := by simpa using hmem
        exact .inr ⟨rfl, rfl, rfl, by simpa using hending⟩
  | unreadable error ending unwinding number hending =>
    refine ⟨[], [], [.error error.display], ⟨rfl, rfl, rfl, rfl⟩, by simp,
      fun hnone => absurd (by simp) (hnone error), by simp, by simp, ?_, ?_⟩
    · intro error' hmem
      obtain rfl : error' = error := by simpa using hmem
      exact ⟨rfl, rfl, rfl, fun ending' hmem' => by
        obtain rfl : ending' = ending := by simpa using hmem'
        exact hending⟩
    · intro error' hmem
      obtain rfl : Ending.failed error' = ending := by simpa using hmem
      obtain rfl : error' = error := by simpa using hending
      exact .inl (by simp)
  | _ =>
    exact ⟨[], [], [], ⟨rfl, rfl, rfl, rfl⟩, by simp, by simp, by simp, by simp, by simp, by simp⟩

/-- The answered requests before the current pass close nothing. -/
theorem Pass.behind {phase : Phase} {current : List Event} {unsent : List Request}
    {pending attempted : List Frame} (h : Pass phase current [] unsent pending attempted)
    (requests : List Request) :
    Pass phase (script 1 requests ++ current) requests unsent pending attempted := by
  have hclosing : ∀ event : Event, event.closing = true → event ∈ script 1 requests ++ current →
      event ∈ current := fun event hevent hmem =>
    (List.mem_append.mp hmem).resolve_left (closing_not_mem_script 1 requests hevent)
  have hkept : ∀ event, event ∈ current → event ∈ script 1 requests ++ current :=
    fun _ => List.mem_append_right _
  exact {
    shows := by
      have hshows := (shows_script 1 requests).append h.shows
      simpa using hshows
    short := h.short
    answers := fun hnone => h.answers fun error hmem => hnone error (hkept _ hmem)
    selecting := h.selecting
    finished := fun hmem => h.finished (hclosing _ rfl hmem)
    readFailed := by
      intro error hmem
      obtain ⟨hpending, hunsent, hattempted, hending⟩ := h.readFailed error (hclosing _ rfl hmem)
      exact ⟨hpending, hunsent, hattempted, fun ending hend =>
        hending ending (hclosing _ rfl hend)⟩
    failed := fun error hmem => (h.failed error (hclosing _ rfl hmem)).imp_left (hkept _) }

theorem TaskTrace.pass {task : Task} {events : List Event} (h : TaskTrace task events) :
    ∃ requests unsent pending attempted,
      Pass task.phase events requests unsent pending attempted := by
  obtain ⟨requests, current, rfl, hcurrent⟩ := h
  obtain ⟨unsent, pending, attempted, hpass⟩ := hcurrent.pass
  exact ⟨requests, unsent, pending, attempted, hpass.behind requests⟩

/-- What any connection shows, with or without a task. -/
theorem ServerTrace.pass {s : Server} {out : List (ℕ × Event)} (h : ServerTrace s out) (i : ℕ) :
    ∃ phase requests unsent pending attempted,
      Pass phase (project i out) requests unsent pending attempted := by
  obtain ⟨requests, current, phase, number, hproject, hcurrent⟩ := h.project_eq i
  obtain ⟨unsent, pending, attempted, hpass⟩ := hcurrent.pass
  exact ⟨phase, requests, unsent, pending, attempted, hproject ▸ hpass.behind requests⟩

namespace Pass

variable {phase : Phase} {events : List Event} {requests unsent : List Request}
  {pending attempted : List Frame}

/-- The replies to the executed requests. -/
theorem replies_eq (h : Pass phase events requests unsent pending attempted) :
    (outcomes events).map Outcome.reply = (requests ++ unsent).map (·.outcome.reply) := by
  rw [h.shows.outcomes_eq, List.map_map]
  rfl

/-- The executed requests are what their frames parse to. -/
theorem parsed_eq (h : Pass phase events requests unsent pending attempted) :
    (outcomes events).map Outcome.parsed =
      ((requests ++ unsent).map (·.frame)).map Command.fromFrame := by
  rw [h.shows.outcomes_eq, List.map_map, List.map_map]
  exact List.map_congr_left fun request _ => request.parsed_eq.symm

end Pass

/-! ### The executed frames replay -/

def Outcome.applied? : Outcome → Option (Command × Frame)
  | .applied command reply => some (command, reply)
  | .rejected _ => none

/-- The commits of a connection are the outcomes that are no rejections. -/
theorem project_appliedOrder (i : ℕ) (out : List (ℕ × Event)) :
    (project i (appliedOrder out)).map (fun commit => (commit.operation, commit.result)) =
      (outcomes (project i out)).filterMap Outcome.applied? := by
  rw [appliedOrder, history, project_select, project_select, outcomes, List.filterMap_filterMap,
    List.filterMap_filterMap, List.map_filterMap]
  congr
  funext event
  cases event <;> rfl

/-- Rejections in between change nothing. -/
theorem replay_respond {executed : List Request} {database final : Database}
    (h : replay Command.apply database
        (((executed.map (·.outcome)).filterMap Outcome.applied?).map (·.1)) =
      (((executed.map (·.outcome)).filterMap Outcome.applied?).map (·.2), final)) :
    replay respond database (executed.map (·.frame)) =
      (executed.map (·.outcome.reply), final) := by
  induction executed generalizing database with
  | nil => exact h
  | cons request executed ih =>
    obtain ⟨frame, outcome, hparse⟩ := request
    cases outcome with
    | rejected error =>
      have hrespond : respond frame database = (.error error.display, database) := by
        rw [respond, hparse]
        rfl
      simp only [List.map_cons, replay, hrespond, ih h, Outcome.reply]
    | applied command reply =>
      have hrespond := respond_of_ok hparse database
      change replay Command.apply database (command :: _) = (reply :: _, final) at h
      simp only [replay, Prod.mk.injEq, List.cons.injEq] at h
      obtain ⟨⟨hreply, hreplies⟩, hfinal⟩ := h
      simp only [List.map_cons, replay, hrespond, ih (Prod.ext hreplies hfinal), Outcome.reply,
        hreply]

/-- Where its commits replay alone, a connection has replied what the reference does. -/
theorem replay_respond_of_commits {out : List (ℕ × Event)} {i : ℕ} {executed : List Request}
    {database final : Database}
    (hexecuted : outcomes (project i out) = executed.map (·.outcome))
    (h : replay Command.apply database ((project i (appliedOrder out)).map (·.operation)) =
      ((project i (appliedOrder out)).map (·.result), final)) :
    replay respond database (executed.map (·.frame)) =
      (executed.map (·.outcome.reply), final) := by
  have hcommits := project_appliedOrder i out
  rw [hexecuted] at hcommits
  refine replay_respond ?_
  rw [← hcommits, List.map_map, List.map_map]
  exact h

/-- What a connection has executed replays on the reference, when it alone writes. -/
theorem Replays.connection {database : Database} {s : Server} {out : List (ℕ × Event)} {i : ℕ}
    (h : Replays database s out)
    (honly : ∀ j number command reply, (j, .applied number (.set command) reply) ∈ out → j = i)
    {executed : List Request} (hexecuted : outcomes (project i out) = executed.map (·.outcome)) :
    replay respond database (executed.map (·.frame)) =
      (executed.map (·.outcome.reply), s.shared.database) := by
  refine replay_respond_of_commits hexecuted (replay_project h ?_)
  rintro j ⟨number, command, reply⟩ hmem hji database
  cases command with
  | get command => exact Command.apply_get_snd command database
  | set command =>
    exact absurd (honly j number command reply (mem_appliedOrder.mp hmem)) hji

/-! ### The law of a session -/

/-- What a connection shows in a state with the database `final`: it has executed
the frames `served`; `pending` is received and not yet executed, and `unsent` is
the reply of an executed frame that is not yet acknowledged. -/
structure SessionLaw (database final : Database) (phase : Phase) (events : List Event)
    (served pending unsent : List Frame) : Prop where
  /-- The executed frames are a prefix of the received ones. -/
  received : receivedFrames events = served ++ pending
  executed : (outcomes events).map Outcome.parsed = served.map Command.fromFrame
  /-- Every reply is the one of the reference interpreter. -/
  replies : (outcomes events).map Outcome.reply = (replay respond database served).1
  /-- The database is the left fold of the executed SETs. -/
  stored : final = storeAll database (sets served)
  /-- One reply is written for each executed frame, the last one perhaps not yet. -/
  written : (replay respond database served).1 = writtenReplies events ++ unsent
  short : pending.length + unsent.length ≤ 1
  /-- Nothing but these replies is attempted, until a read fails. -/
  answers : (∀ error, .readFailed error ∉ events) →
    attempts events <+: (replay respond database served).1
  selecting : phase = .selecting → pending = [] ∧ unsent = []
  /-- `Ok(())` leaves nothing unacknowledged. -/
  finished : .ended .finished ∈ events → pending = [] ∧ unsent = []
  /-- A read error is reported once, and `run` returns it. -/
  readFailed : ∀ error, .readFailed error ∈ events → pending = [] ∧ unsent = [] ∧
    attempts events = writtenReplies events ++ [.error error.display] ∧
    ∀ ending, .ended ending ∈ events → ending = .failed error ∨ ending = .cancelled
  /-- Any other error is that of the write of the last reply, whose command is executed. -/
  failed : ∀ error, .ended (.failed error) ∈ events → .readFailed error ∈ events ∨
    pending = [] ∧ (∃ reply, unsent = [reply]) ∧
      attempts events = writtenReplies events ++ unsent ∧ ∃ text, error = .io text

theorem sessionLaw_of_trace {database : Database} {s : Server} {out : List (ℕ × Event)} {i : ℕ}
    {task : Task} (htrace : TaskTrace task (project i out)) (hreplays : Replays database s out)
    (honly : ∀ j number command reply, (j, .applied number (.set command) reply) ∈ out → j = i) :
    ∃ served pending unsent,
      SessionLaw database s.shared.database task.phase (project i out) served pending unsent := by
  obtain ⟨requests, unsent, pending, attempted, hpass⟩ := htrace.pass
  have hshows := hpass.shows
  have hreplay := hreplays.connection honly hshows.outcomes_eq
  refine ⟨(requests ++ unsent).map (·.frame), pending, unsent.map (·.outcome.reply), ?_⟩
  constructor
  · exact hshows.receivedFrames_eq
  · exact hpass.parsed_eq
  · rw [hreplay, hpass.replies_eq]
  · rw [← replay_respond_snd, hreplay]
  · rw [hreplay, hshows.writtenReplies_eq, List.map_append]
  · simpa using hpass.short
  · intro hnone
    rw [hreplay, hshows.attempts_eq, List.map_append]
    exact (List.prefix_append_right_inj _).mpr (hpass.answers hnone)
  · intro hphase
    simpa using hpass.selecting hphase
  · intro hmem
    simpa using hpass.finished hmem
  · intro error hmem
    obtain ⟨hpending, hunsent, hattempted, hending⟩ := hpass.readFailed error hmem
    subst hunsent hattempted
    refine ⟨hpending, rfl, ?_, hending⟩
    rw [hshows.attempts_eq, hshows.writtenReplies_eq]
  · intro error hmem
    rcases hpass.failed error hmem with hread | ⟨hpending, hlength, hattempted, htext⟩
    · exact .inl hread
    · obtain ⟨request, rfl⟩ := List.length_eq_one_iff.mp hlength
      subst hattempted
      refine .inr ⟨hpending, ⟨_, rfl⟩, ?_, htext⟩
      rw [hshows.attempts_eq, hshows.writtenReplies_eq]

/-- The attempted frames of a connection: the replies to the executed requests, and
after a failed read its report. -/
theorem ServerTrace.attempts_eq {s : Server} {out : List (ℕ × Event)} (h : ServerTrace s out)
    (i : ℕ) :
    (∃ unanswered, attempts (project i out) ++ unanswered =
        (outcomes (project i out)).map Outcome.reply ∧ unanswered.length ≤ 1) ∨
      ∃ error, .readFailed error ∈ project i out ∧
        attempts (project i out) =
          (outcomes (project i out)).map Outcome.reply ++ [.error error.display] := by
  obtain ⟨phase, requests, unsent, pending, attempted, hpass⟩ := h.pass i
  rw [hpass.shows.attempts_eq, hpass.replies_eq, List.map_append]
  by_cases hread : ∃ error, .readFailed error ∈ project i out
  · obtain ⟨error, hmem⟩ := hread
    obtain ⟨-, hunsent, hattempted, -⟩ := hpass.readFailed error hmem
    refine .inr ⟨error, hmem, ?_⟩
    rw [hunsent, hattempted, List.map_nil, List.append_nil]
  · obtain ⟨unanswered, hanswers⟩ := hpass.answers fun error hmem => hread ⟨error, hmem⟩
    refine .inl ⟨unanswered, ?_, ?_⟩
    · rw [List.append_assoc, hanswers]
    · have hlength := congrArg List.length hanswers
      have hshort := hpass.short
      rw [List.length_append, List.length_map] at hlength
      omega

/-! ### How a session goes on -/

/-- One task alone. -/
def taskMachine : Machine (Shared × Task) TaskAction Event :=
  ⟨fun action state => match state.2.step state.1 action with
    | some (shared, task, events) => some ((shared, task), events)
    | none => none⟩

/-- The server can do what one of its tasks does alone. -/
theorem server_run_task {i : ℕ} {actions : List TaskAction} {s : Server} {task task' : Task}
    {shared : Shared} {events : List Event} (hi : s.tasks[i]? = some task)
    (hrun : taskMachine.run actions (s.shared, task) = some ((shared, task'), events)) :
    ∃ t, server.run (actions.map (.task i ·)) s = some (t, events.map fun event => (i, event)) ∧
      t.tasks[i]? = some task' ∧ t.shared = shared := by
  induction actions generalizing s task events with
  | nil =>
    cases hrun
    exact ⟨s, rfl, hi, rfl⟩
  | cons action actions ih =>
    obtain ⟨⟨shared₁, task₁⟩, now, later, hstep, hlater, rfl⟩ :=
      taskMachine.run_cons_eq_some.mp hrun
    have hlt := (List.getElem?_eq_some_iff.mp hi).1
    have hserver : server.step (.task i action) s =
        some ({ s with shared := shared₁, tasks := s.tasks.set i task₁ },
          now.map fun event => (i, event)) := by
      simp only [taskMachine] at hstep
      split at hstep
      · rename_i hstep'
        cases hstep
        exact Server.step_task hi hstep'
      · cases hstep
    obtain ⟨t, hrun', htask, hshared⟩ :=
      @ih { s with shared := shared₁, tasks := s.tasks.set i task₁ } _ _
        (List.getElem?_set_self hlt) hlater
    exact ⟨t, server.run_cons_eq_some.mpr ⟨_, _, _, hserver, hrun', List.map_append⟩, htask,
      hshared⟩

/-- Whatever a waiting task reads, it can answer it and wait again. -/
theorem serve_run (shared : Shared) (task : Task) (hphase : task.phase = .selecting)
    (frame : Frame) :
    ∃ actions shared' task' events,
      taskMachine.run actions (shared, task) = some ((shared', task'), events) ∧
      task'.phase = .selecting ∧ receivedFrames events = [frame] ∧
      writtenReplies events = [(respond frame shared.database).1] ∧
      shared'.database = (respond frame shared.database).2 := by
  obtain ⟨phase, shutdownRx, number⟩ := task
  obtain rfl : phase = .selecting := hphase
  cases hparse : Command.fromFrame frame with
  | error error =>
    refine ⟨[.readFrame (.frame frame), .count, .execute, .writeOk, .countResponse], ?_⟩
    simp only [Machine.run, taskMachine, Task.step, Task.interpretRead, Task.execute, Task.goto,
      hparse, respond]
    exact ⟨_, _, _, rfl, rfl, rfl, rfl, rfl⟩
  | ok command =>
    cases command with
    | get command =>
      refine ⟨[.readFrame (.frame frame), .count, .execute, .countLookup, .writeOk,
        .countResponse], ?_⟩
      cases hget : shared.database.get command.key <;>
        simp only [Machine.run, taskMachine, Task.step, Task.interpretRead, Task.execute,
          Task.goto, hparse, respond, Command.apply, hget]
      · exact ⟨_, _, _, rfl, rfl, rfl, rfl, rfl⟩
      · exact ⟨_, _, _, rfl, rfl, rfl, rfl, rfl⟩
    | set command =>
      refine ⟨[.readFrame (.frame frame), .count, .execute, .writeOk, .countResponse], ?_⟩
      simp only [Machine.run, taskMachine, Task.step, Task.interpretRead, Task.execute, Task.goto,
        hparse, respond, Command.apply]
      exact ⟨_, _, _, rfl, rfl, rfl, rfl, rfl⟩

/-- What a session can still do: nothing that was read before keeps the loop from
serving another frame, and a failed write ends `run` with the error named here. -/
structure Continues (s : Server) (i : ℕ) (task : Task) : Prop where
  serve : task.phase = .selecting → ∀ frame, ∃ actions t task' out,
    server.run actions s = some (t, out) ∧ t.tasks[i]? = some task' ∧ task'.phase = .selecting ∧
      receivedFrames (project i out) = [frame] ∧
      writtenReplies (project i out) = [(respond frame s.shared.database).1] ∧
      t.shared.database = (respond frame s.shared.database).2
  writeFail : ∀ output text, task.phase = .replying output → ∃ t,
    server.step (.task i (.writeFail text)) s = some (t, [(i, .ended (.failed (.io text)))])
  report : ∀ error, task.phase = .reporting error →
    (∃ t, server.step (.task i .writeOk) s = some (t, [(i, .ended (.failed error))])) ∧
      ∀ text, ∃ t,
        server.step (.task i (.writeFail text)) s = some (t, [(i, .ended (.failed error))])

theorem continues (s : Server) (i : ℕ) (task : Task) (hi : s.tasks[i]? = some task) :
    Continues s i task := by
  obtain ⟨phase, shutdownRx, number⟩ := task
  constructor
  · intro hphase frame
    obtain ⟨actions, shared', task', events, hrun, hphase', hreceived, hwritten, hdatabase⟩ :=
      serve_run s.shared _ hphase frame
    obtain ⟨t, hrun', htask, rfl⟩ := server_run_task hi hrun
    exact ⟨_, t, task', _, hrun', htask, hphase', by rwa [project_map_self],
      by rwa [project_map_self], hdatabase⟩
  · rintro output text rfl
    simp only [server, Server.step, hi, Task.step]
    exact ⟨_, rfl⟩
  · rintro error rfl
    simp only [server, Server.step, hi, Task.step]
    exact ⟨⟨_, rfl⟩, fun _ => ⟨_, rfl⟩⟩

/-- In every reachable state, a connection beside which no other one writes has
followed the law of its session, and can go on. -/
theorem session_semantics (maxConnections : ℕ) (database : Database) (s₀ s : Server)
    (actions : List ServerAction) (out : List (ℕ × Event)) (i : ℕ) (task : Task)
    (hnew : Server.new maxConnections database = some s₀)
    (hrun : server.run actions s₀ = some (s, out)) (hi : s.tasks[i]? = some task)
    (honly : ∀ j number command reply, (j, .applied number (.set command) reply) ∈ out → j = i) :
    (∃ served pending unsent,
      SessionLaw database s.shared.database task.phase (project i out) served pending unsent) ∧
      Continues s i task :=
  ⟨sessionLaw_of_trace ((ServerTrace.run hnew hrun).tasks i task hi) (Replays.run hnew hrun) honly,
    continues s i task hi⟩

/-- A SET is acknowledged; the reply to the rejected frame after it cannot be written. -/
theorem session_semantics_write_error :
    ∃ s₀ s actions out task, Server.new 1 .new = some s₀ ∧
      server.run actions s₀ = some (s, out) ∧ s.tasks[0]? = some task ∧
      .ended (.failed (.io "reset")) ∈ project 0 out ∧
      (∃ served pending unsent,
        SessionLaw .new s.shared.database task.phase (project 0 out) served pending unsent) ∧
      Continues s 0 task := by
  obtain ⟨s₀, hnew⟩ : ∃ s₀, Server.new 1 .new = some s₀ := ⟨_, rfl⟩
  obtain ⟨s, out, task, hrun, hi, hended, honly⟩ : ∃ s out task, server.run
      (.acceptor .run :: admission .acceptor (.task 0) ++
        [.task 0 (.readFrame (.frame (.array [.simple "SET", .bulk [107], .bulk []]))),
        .task 0 .count, .task 0 .execute, .task 0 .writeOk, .task 0 .countResponse,
        .task 0 (.readFrame (.frame .null)), .task 0 .count, .task 0 .execute,
        .task 0 (.writeFail "reset")]) s₀ = some (s, out) ∧ s.tasks[0]? = some task ∧
      .ended (.failed (.io "reset")) ∈ project 0 out ∧
      ∀ j number command reply, (j, .applied number (.set command) reply) ∈ out → j = 0 := by
    cases hnew
    exact ⟨_, _, _, rfl, rfl, by simp [project], by simp +contextual⟩
  exact ⟨s₀, s, _, out, task, hnew, hrun, hi, hended,
    session_semantics 1 .new s₀ s _ out 0 task hnew hrun hi honly⟩

end MiniRedis
