import MiniRedis.Exchange
import MiniRedis.Hearing
import MiniRedis.Noninterference
import MiniRedis.Shutdown
import MiniRedis.WindingDown

/-!
# A handler as a function of the bytes it is sent

Where no other connection sets a key that it asks for, what a handler sends is a prefix of
one function of the bytes that its peer has delivered, and all of it once the peer has closed
its side and the handler has gone on.
-/
namespace MiniRedis

open Library

/-- The report of a failed read. -/
def report : ReadResult → Bytes
  | .error error => encode (.error error.display)
  | _ => []

/-- What a peer is answered that sends these bytes and then nothing more. -/
def service (database : Database) (stream : Bytes) : Bytes :=
  encodeAll (replay respond database (frameScanner.scan stream).1).1 ++
    report (referenceCall (frameScanner.scan stream).2).1

theorem encodeAll_mono {l r : List Frame} (h : l <+: r) : encodeAll l <+: encodeAll r := by
  obtain ⟨more, rfl⟩ := h
  rw [encodeAll_append]
  exact List.prefix_append _ _

theorem replay_respond_mono {l r : List Frame} (h : l <+: r) (database : Database) :
    (replay respond database l).1 <+: (replay respond database r).1 := by
  obtain ⟨more, rfl⟩ := h
  rw [replay_append]
  exact List.prefix_append _ _

/-- Behind the last frame, the service ends with what the reference has left. -/
theorem service_of_scan {stream left : Bytes} {frames : List Frame} {result : ReadResult}
    (h : frameScanner.Scans stream frames left) (hcall : (referenceCall left).1 = result)
    (hframe : ∀ frame, result ≠ .frame frame) (database : Database) :
    service database stream = encodeAll (replay respond database frames).1 ++ report result := by
  have hscan := h.scan_eq_of_none (nextFrame_eq_none fun frame heq => hframe frame (hcall ▸ heq))
  rw [service, hscan, hcall]

theorem Deliverable.next {frame : Frame} (h : Deliverable frame) (rest : Bytes) :
    nextFrame (encode frame ++ rest) = some (frame, rest) :=
  nextFrame_eq_some.mpr (h.referenceCall rest)

theorem scans_encodeAll {frames : List Frame} (hframes : ∀ frame ∈ frames, Deliverable frame) :
    frameScanner.Scans (encodeAll frames) frames [] := by
  induction frames with
  | nil => exact .nil []
  | cons frame frames ih =>
    have hframe := hframes frame List.mem_cons_self
    exact .cons (hframe.next _) (ih fun f hmem => hframes f (List.mem_cons_of_mem _ hmem))

theorem referenceCall_nil_ne (frame : Frame) : (referenceCall []).1 ≠ .frame frame := by
  simp [referenceCall_nil]

/-- What is sent as frames is heard as these frames. -/
theorem scan_encodeAll {frames : List Frame} (hframes : ∀ frame ∈ frames, Deliverable frame) :
    frameScanner.scan (encodeAll frames) = (frames, []) :=
  (scans_encodeAll hframes).scan_eq_of_none (nextFrame_eq_none referenceCall_nil_ne)

/-- Whole requests are answered with nothing but their replies. -/
theorem service_encodeAll {frames : List Frame} (hframes : ∀ frame ∈ frames, Deliverable frame)
    (database : Database) :
    service database (encodeAll frames) = encodeAll (replay respond database frames).1 := by
  rw [service, scan_encodeAll hframes, referenceCall_nil]
  exact List.append_nil _

/-- One of the frames is a GET of the key. -/
def Asks (frames : List Frame) (key : String) : Prop :=
  ∃ frame ∈ frames, ∃ command : Get,
    Command.fromFrame frame = .ok (.get command) ∧ command.key = key

/-! ### The answers so far -/

/-- Every written reply is an attempted one. -/
theorem TaskTrace.written_prefix {task : Task} {events : List Event} (h : TaskTrace task events) :
    writtenReplies events <+: attempts events := by
  obtain ⟨requests, unsent, pending, attempted, hpass⟩ := h.pass
  rw [hpass.shows.attempts_eq, hpass.shows.writtenReplies_eq]
  exact List.prefix_append _ _

/-- How the replies of a connection follow from the frames `served` that it has executed;
`pending` is received and not yet executed, and `unsent` is not yet acknowledged. -/
structure Replied (database : Database) (events : List Event)
    (served pending unsent : List Frame) : Prop where
  received : receivedFrames events = served ++ pending
  written : (replay respond database served).1 = writtenReplies events ++ unsent
  answers : (∀ error, .readFailed error ∉ events) →
    attempts events <+: (replay respond database served).1
  finished : .ended .finished ∈ events → pending = [] ∧ unsent = []
  readFailed : ∀ error, .readFailed error ∈ events → pending = [] ∧ unsent = [] ∧
    attempts events = writtenReplies events ++ [.error error.display]

/-- A connection replies from its own frames when no other one sets a key that it gets. -/
theorem replied_of_trace {database : Database} {s : Server} {out : List (ℕ × Event)}
    (htrace : ServerTrace s out) (hreplays : Replays database s out) {i : ℕ}
    (hquiet : ∀ j key, j ≠ i → SetsKey out j key → ¬ GetsKey out i key) :
    ∃ served pending unsent, Replied database (project i out) served pending unsent := by
  obtain ⟨phase, requests, unsent, pending, attempted, hpass⟩ := htrace.pass i
  have hshows := hpass.shows
  have hserved : executedFrames (project i out) = (requests ++ unsent).map (·.frame) := by
    rw [executedFrames, hshows.receivedFrames_eq, hshows.outcomes_eq]
    exact List.take_left' (by rw [List.length_map, List.length_map])
  have hreplay : (replay respond database ((requests ++ unsent).map (·.frame))).1 =
      (requests ++ unsent).map (·.outcome.reply) := by
    rw [← hserved, ← hreplays.producedReplies_eq htrace hquiet, producedReplies, hpass.replies_eq]
  refine ⟨(requests ++ unsent).map (·.frame), pending, unsent.map (·.outcome.reply), ?_⟩
  constructor
  · exact hshows.receivedFrames_eq
  · rw [hreplay, hshows.writtenReplies_eq, List.map_append]
  · intro hnone
    rw [hreplay, hshows.attempts_eq, List.map_append]
    exact (List.prefix_append_right_inj _).mpr (hpass.answers hnone)
  · intro hmem
    simpa using hpass.finished hmem
  · intro error hmem
    obtain ⟨hpending, hunsent, hattempted, -⟩ := hpass.readFailed error hmem
    subst hunsent hattempted
    refine ⟨hpending, rfl, ?_⟩
    rw [hshows.attempts_eq, hshows.writtenReplies_eq]

theorem Asks.mono {l r : List Frame} {key : String} (h : Asks l key) (hfront : l <+: r) :
    Asks r key := by
  obtain ⟨frame, hmem, hcommand⟩ := h
  exact ⟨frame, hfront.subset hmem, hcommand⟩

/-- A connection only gets keys that its requests ask for. -/
theorem ServerTrace.asks {s : Server} {out : List (ℕ × Event)} (h : ServerTrace s out) {i : ℕ}
    {key : String} (hgets : GetsKey out i key) : Asks (receivedFrames (project i out)) key := by
  obtain ⟨number, command, reply, hmem, hkey⟩ := hgets
  have hcommit : Command.get command ∈ (project i (appliedOrder out)).map (·.operation) :=
    List.mem_map.mpr ⟨⟨number, .get command, reply⟩, mem_project.mpr (mem_appliedOrder.mpr hmem),
      rfl⟩
  rw [h.operations, List.mem_filterMap] at hcommit
  obtain ⟨frame, hexecuted, hparse⟩ := hcommit
  refine ⟨frame, List.mem_of_mem_take hexecuted, command, ?_, hkey⟩
  cases hresult : Command.fromFrame frame with
  | ok parsed =>
    rw [hresult] at hparse
    exact congrArg Except.ok (Option.some.inj hparse)
  | error error =>
    rw [hresult] at hparse
    cases hparse

theorem Heard.received_prefix {fails : String → Prop} {delivered : Bytes} {phase : Phase}
    {endpoint : Endpoint} {events : List Event} (h : Heard fails delivered phase endpoint events) :
    receivedFrames events <+: (frameScanner.scan delivered).1 := by
  rw [h.scans.scan_eq]
  exact List.prefix_append _ _

section answers

variable {delivered : Bytes} {database : Database} {phase : Phase} {endpoint : Endpoint}
  {events : List Event} {served pending unsent : List Frame}

/-- After a failed read everything is answered. -/
theorem Heard.service_of_readFailed
    (h : Heard (fun _ => False) delivered phase endpoint events)
    (hreplied : Replied database events served pending unsent) {error : ReadError}
    (hmem : .readFailed error ∈ events) :
    encodeAll (attempts events) = service database delivered := by
  obtain ⟨rfl, rfl, hattempts⟩ := hreplied.readFailed error hmem
  obtain ⟨-, ⟨_, -, himpossible⟩ | ⟨hcall, -⟩⟩ := h.failed error hmem
  · exact himpossible.elim
  · have hserved := hreplied.received
    have hwritten := hreplied.written
    rw [List.append_nil] at hserved hwritten
    rw [service_of_scan h.scans hcall (by simp), hserved, hwritten, hattempts, encodeAll_append,
      encodeAll_singleton]
    rfl

/-- At any time the answers are a prefix of the service. -/
theorem Heard.answers_prefix (h : Heard (fun _ => False) delivered phase endpoint events)
    (hreplied : Replied database events served pending unsent) :
    encodeAll (attempts events) <+: service database delivered := by
  by_cases hread : ∃ error, .readFailed error ∈ events
  · obtain ⟨error, hmem⟩ := hread
    exact h.service_of_readFailed hreplied hmem ▸ List.prefix_rfl
  · have hanswers := hreplied.answers fun error hmem => hread ⟨error, hmem⟩
    have hserved : served <+: (frameScanner.scan delivered).1 := by
      refine List.IsPrefix.trans ?_ h.received_prefix
      rw [hreplied.received]
      exact List.prefix_append _ _
    exact ((encodeAll_mono hanswers).trans
      (encodeAll_mono (replay_respond_mono hserved database))).trans (List.prefix_append _ _)

/-- Behind the end of the stream everything is answered. -/
theorem Heard.service_of_finished
    (h : Heard (fun _ => False) delivered phase endpoint events)
    (hreplied : Replied database events served pending unsent)
    (hwritten : writtenReplies events <+: attempts events) (hmem : .ended .finished ∈ events)
    (hcall : (referenceCall endpoint.inbound.pending).1 = .eof) :
    encodeAll (attempts events) = service database delivered := by
  by_cases hread : ∃ error, .readFailed error ∈ events
  · obtain ⟨error, hmem⟩ := hread
    exact h.service_of_readFailed hreplied hmem
  · obtain ⟨rfl, rfl⟩ := hreplied.finished hmem
    have hanswers := hreplied.answers fun error hmem => hread ⟨error, hmem⟩
    have hserved := hreplied.received
    have hreplies := hreplied.written
    rw [List.append_nil] at hserved hreplies
    rw [← hreplies] at hwritten
    rw [service_of_scan h.scans hcall (by simp), hserved,
      hanswers.eq_of_length_le hwritten.length_le]
    exact (List.append_nil _).symm

end answers

/-! ### The handler goes on -/

/-- What a task does next when nothing disturbs it. -/
def Endpoint.advance (task : Task) (endpoint : Endpoint) : EndpointAction :=
  match task.phase with
  | .spawned => .task (.start true)
  | .constructed => .task .enter
  | .selecting =>
    if endpoint.inbound.reading.isNone then .poll
    else .read (min 1 endpoint.inbound.stream.length)
  | .received _ => .task .count
  | .counted _ => .task .execute
  | .looked _ => .task .countLookup
  | .replying _ | .reporting _ => if endpoint.unsent = [] then .task .writeOk else .send 1
  | .replied => .task .countResponse
  | .leaving _ _ => .task .drop

namespace Endpoint

variable {shared shared' : Shared} {task task' : Task} {endpoint endpoint' : Endpoint}
  {events : List Event}

theorem advance_undisturbed (task : Task) (endpoint : Endpoint) :
    (endpoint.advance task).Undisturbed := by
  unfold advance
  split
  case h_3 => split <;> trivial
  case h_7 => split <;> trivial
  case h_8 => split <;> trivial
  all_goals first | rfl | trivial

/-- The reader of a waiting task goes on with a byte, or with the end of the stream. -/
theorem isSome_advance_read (hsound : endpoint.inbound.Sound) (hphase : task.phase = .selecting)
    (hready : ∀ left, endpoint.inbound.reading = some left → endpoint.inbound.stream = [] →
      endpoint.closed = true) :
    (endpoint.step shared task (endpoint.advance task)).isSome := by
  obtain ⟨⟨stream, buffer, reading⟩, closed, sent, unsent⟩ := endpoint
  cases reading with
  | none =>
    simp only [advance, hphase, Option.isNone_none, if_true, step, Reader.step]
    exact exists_settle hphase _ _
  | some left =>
    obtain ⟨-, hlt, hleft⟩ := hsound.waits left rfl
    have hclosed := hready left rfl
    simp only at hlt hleft hclosed
    have hempty : min 1 stream.length = 0 → stream = [] := fun hzero =>
      List.eq_nil_of_length_eq_zero (by omega)
    have hguard : min 1 stream.length ≤ left ∧ min 1 stream.length ≤ stream.length ∧
        (min 1 stream.length = 0 → stream = []) :=
      ⟨by omega, Nat.min_le_right _ _, hempty⟩
    have hread : Phase.selecting.isSelecting = true ∧ (min 1 stream.length = 0 → closed = true) :=
      ⟨rfl, fun hzero => hclosed (hempty hzero)⟩
    simp only [advance, hphase, Option.isNone_some, Bool.false_eq_true, if_false, step,
      if_pos hread, Reader.step, if_pos hguard]
    exact exists_settle hphase _ _

/-- Up to the end of the loop the next step is enabled, unless the task waits for its peer. -/
theorem isSome_advance (hsound : endpoint.inbound.Sound) (hloop : task.phase.live = true)
    (hready : task.phase = .selecting → ∀ left, endpoint.inbound.reading = some left →
      endpoint.inbound.stream = [] → endpoint.closed = true) :
    (endpoint.step shared task (endpoint.advance task)).isSome := by
  cases hphase : task.phase with
  | selecting => exact isSome_advance_read hsound hphase (hready hphase)
  | replying output | reporting error =>
    by_cases hunsent : endpoint.unsent = []
    · simp [advance, hphase, hunsent, step, perform, Task.step]
    · have hbyte := List.length_pos_of_ne_nil hunsent
      have hguard : 1 ≤ endpoint.unsent.length := hbyte
      simp [advance, hphase, hunsent, step, Phase.isWriting, hguard]
  | leaving ending unwinding =>
    rw [hphase] at hloop
    cases hloop
  | _ => simp [advance, hphase, step, perform, Task.step]

theorem send_of_advance {n : ℕ} (h : endpoint.advance task = .send n) :
    n = 1 ∧ endpoint.unsent ≠ [] := by
  unfold advance at h
  split at h
  case h_3 => split at h <;> cases h
  case h_7 =>
    split at h
    · cases h
    · cases h
      exact ⟨rfl, by assumption⟩
  case h_8 =>
    split at h
    · cases h
    · cases h
      exact ⟨rfl, by assumption⟩
  all_goals cases h

/-- What a task does next brings it nearer to the end of its loop, or sends a byte. -/
theorem advance_lt (hsound : endpoint.inbound.Sound)
    (h : endpoint.step shared task (endpoint.advance task) =
      some (shared', task', endpoint', events)) :
    endpoint'.ahead task' < endpoint.ahead task ∨
      task' = task ∧ endpoint.unsent ≠ [] ∧ endpoint' = { endpoint with
        sent := endpoint.sent ++ endpoint.unsent.take 1
        unsent := endpoint.unsent.drop 1 } := by
  cases hadvance : endpoint.advance task with
  | send n =>
    obtain ⟨rfl, hunsent⟩ := send_of_advance hadvance
    rw [hadvance, step] at h
    split at h
    · cases h
      exact .inr ⟨rfl, hunsent, rfl⟩
    · cases h
  | _ =>
    refine .inl (ahead_lt ?_ hsound h)
    rw [hadvance]
    rfl

/-- A task that leaves its loop undisturbed owes nothing, and has reported a failed read
or has come to the end of the stream. -/
theorem Step.left {action : EndpointAction}
    (h : endpoint.Step shared task action shared' task' endpoint' events)
    (hundisturbed : action.Undisturbed) (hsound : endpoint.inbound.Sound)
    (hloop : task.phase.live = true)
    (hsettled : task.phase.mayOwe = false → endpoint.unsent = [])
    (hleft : task'.phase.live = false) :
    endpoint'.unsent = [] ∧ ((∃ error, task.phase = .reporting error) ∨
      .ended .finished ∈ events ∧ (referenceCall endpoint'.inbound.pending).1 = .eof) := by
  cases h with
  | wait => cases hloop.symm.trans hleft
  | send => cases hloop.symm.trans hleft
  | @returned _ readAction next result _ _ _ hphase hread hfail hend htask =>
    have hselecting := Phase.eq_selecting hphase
    have howed := hsettled (by rw [hselecting]; rfl)
    simp only [Task.step, hselecting, Option.some.injEq, Prod.mk.injEq] at htask
    obtain ⟨-, htask⟩ := htask
    cases result with
    | frame frame =>
      obtain ⟨rfl, -⟩ := htask
      cases hleft
    | error error =>
      obtain ⟨rfl, -⟩ := htask
      cases hleft
    | panic => exact absurd (List.mem_singleton_self _) (hsound.step hread).no_panic
    | eof =>
      obtain ⟨rfl, rfl⟩ := htask
      have hnothing : attempts [.ended .finished] = [] := rfl
      have hio : ∀ text, readAction ≠ .fail text := by
        rintro text rfl
        rw [hfail text rfl] at hundisturbed
        exact hundisturbed
      have hcall := hsound.returned hio hread
      have hpending : next.pending = endpoint.inbound.pending := by
        have hsame := @referenceCall_snd endpoint.inbound.pending (by simp [hcall])
        rwa [hcall] at hsame
      refine ⟨by simp [howed, hnothing, encodeAll], .inr ⟨List.mem_singleton_self _, ?_⟩⟩
      show (referenceCall next.pending).1 = .eof
      rw [hpending, hcall]
  | task action next hnext hread hwrite htask =>
    cases (Task.step_cases htask).works hundisturbed hread with
    | leaveReport error hphase ending hending =>
      have hattempts : attempts [.ended ending] = [] := rfl
      have howed := hwrite rfl
      exact ⟨by simp [howed, hattempts, encodeAll], .inl ⟨error, hphase⟩⟩
    | drop _ _ _ _ hphase =>
      rw [hphase] at hloop
      cases hloop
    | _ => cases hleft

end Endpoint

/-- A reachable state in which a peer has delivered these bytes and closed its side, and
no other handler has set a key that these bytes ask for. -/
structure Draining (s : Server) (i : ℕ) (delivered : Bytes) (w : Wire)
    (out : List (ℕ × Event)) : Prop where
  reached : ∃ actions, wire.run actions (Wire.new s) = some (w, out) ∧
    deliveredBytes i actions = delivered ∧ ∀ text, .connection i (.readError text) ∉ actions
  closed : (w.endpoints i).closed = true
  quiet : ∀ j key, j ≠ i → SetsKey out j key → ¬ Asks (frameScanner.scan delivered).1 key
  task : ∃ task, w.server.tasks[i]? = some task
  /-- When the handler has left its loop, it has come to the end and owes nothing. -/
  left : (w.server.phaseAt i).live = false → (w.endpoints i).unsent = [] ∧
    ((∃ error, .readFailed error ∈ project i out) ∨ .ended .finished ∈ project i out ∧
      (referenceCall (w.endpoints i).inbound.pending).1 = .eof)

def Wire.drainRank (w : Wire) (i : ℕ) : ℕ ×ₗ ℕ :=
  toLex (w.ahead i, (w.endpoints i).unsent.length)

section draining

variable {maxConnections : ℕ} {database : Database} {s : Server} {i : ℕ} {delivered : Bytes}
  {w : Wire} {out : List (ℕ × Event)}

theorem Draining.heard (hnew : Server.new maxConnections database = some s)
    (h : Draining s i delivered w out) :
    Heard (fun _ => False) delivered (w.server.phaseAt i) (w.endpoints i) (project i out) := by
  obtain ⟨actions, hrun, rfl, hio⟩ := h.reached
  exact Heard.run hnew (fun text hmem => hio text hmem) hrun

theorem Draining.trace (hnew : Server.new maxConnections database = some s)
    (h : Draining s i delivered w out) : ServerTrace w.server out ∧ Replays database w.server out := by
  obtain ⟨actions, hrun, -, -⟩ := h.reached
  obtain ⟨serverActions, t, hserver, rfl⟩ := wire_simulates.run (t := s) rfl hrun
  exact ⟨ServerTrace.run hnew hserver, Replays.run hnew hserver⟩

/-- Until it has left its loop, the handler can go on alone and undisturbed. -/
theorem Draining.exists_step (hnew : Server.new maxConnections database = some s)
    (h : Draining s i delivered w out) :
    (w.server.phaseAt i).live = false ∨ ∃ action w' now,
      (∃ own : EndpointAction, action = .connection i own ∧ own.Undisturbed) ∧
      wire.step action w = some (w', now) ∧ Draining s i delivered w' (out ++ now) ∧
      w'.drainRank i < w.drainRank i := by
  obtain ⟨task, hi⟩ := h.task
  have hheard := h.heard hnew
  rw [Server.phaseAt_of_task hi] at hheard ⊢
  cases hloop : task.phase.live with
  | false => exact .inl rfl
  | true =>
    have hgoes : ((w.endpoints i).step w.server.shared task
        ((w.endpoints i).advance task)).isSome :=
      Endpoint.isSome_advance hheard.sound hloop fun _ _ _ _ => h.closed
    obtain ⟨⟨shared, task', endpoint, events⟩, hstep⟩ := Option.isSome_iff_exists.mp hgoes
    have hundisturbed := Endpoint.advance_undisturbed task (w.endpoints i)
    have hcases := Endpoint.step_cases hstep
    have hlt := (List.getElem?_eq_some_iff.mp hi).1
    have hwire := Wire.step_connection hi hstep
    have hphase' : Server.phaseAt { w.server with shared, tasks := w.server.tasks.set i task' } i =
        task'.phase := Server.phaseAt_of_task (List.getElem?_set_self hlt)
    refine .inr ⟨_, _, _, ⟨_, rfl, hundisturbed⟩, hwire, ?_, ?_⟩
    · obtain ⟨actions, hrun, hbytes, hio⟩ := h.reached
      constructor
      · refine ⟨actions ++ [.connection i ((w.endpoints i).advance task)],
          wire.run_append.mpr ⟨w, out, _, hrun, wire.run_singleton hwire, rfl⟩, ?_, ?_⟩
        · rw [deliveredBytes, List.flatMap_append, ← deliveredBytes, hbytes]
          simp [WireAction.bytes]
        · intro text hmem
          rcases List.mem_append.mp hmem with hmem | hmem
          · exact hio text hmem
          · have heq := (WireAction.connection.inj (List.mem_singleton.mp hmem)).2
            rw [← heq] at hundisturbed
            exact hundisturbed
      · simp only [Function.update_self]
        rw [hcases.closed_eq]
        exact h.closed
      · rintro j key hji ⟨number, command, reply, hmem, hkey⟩
        refine h.quiet j key hji ⟨number, command, reply, ?_, hkey⟩
        refine (List.mem_append.mp hmem).resolve_right fun hmem => hji ?_
        obtain ⟨event, -, heq⟩ := List.mem_map.mp hmem
        exact (Prod.mk.inj heq).1.symm
      · exact ⟨task', List.getElem?_set_self hlt⟩
      · intro hleft
        simp only [Function.update_self, project_append, project_map_self]
        rw [hphase'] at hleft
        obtain ⟨hunsent, hreporting | ⟨hended, hcall⟩⟩ := hcases.left hundisturbed hheard.sound
          hloop (fun howe => hheard.sent.settled fun p hp => by cases hp; exact howe) hleft
        · obtain ⟨error, hreporting⟩ := hreporting
          have hmem := ((h.trace hnew).1.tasks i task hi).reporting hreporting
          exact ⟨hunsent, .inl ⟨error, List.mem_append_left _ hmem⟩⟩
        · exact ⟨hunsent, .inr ⟨List.mem_append_right _ hended, hcall⟩⟩
    · rw [Wire.drainRank, Wire.drainRank, Wire.ahead_eq hi,
        Wire.ahead_eq (List.getElem?_set_self hlt), Prod.Lex.toLex_lt_toLex]
      simp only [Function.update_self]
      rcases Endpoint.advance_lt hheard.sound hstep with hlt | ⟨rfl, hunsent, rfl⟩
      · exact .inl hlt
      · refine .inr ⟨rfl, ?_⟩
        have hpos := List.length_pos_of_ne_nil hunsent
        rw [List.length_drop]
        omega

/-- A drained handler has sent the whole service. -/
theorem Draining.service_eq (hnew : Server.new maxConnections database = some s)
    (h : Draining s i delivered w out) (hleft : (w.server.phaseAt i).live = false) :
    (w.endpoints i).sent = service database delivered := by
  obtain ⟨task, hi⟩ := h.task
  obtain ⟨htrace, hreplays⟩ := h.trace hnew
  have htask := htrace.tasks i task hi
  have hheard := h.heard hnew
  obtain ⟨served, pending, unsent, hreplied⟩ := replied_of_trace htrace hreplays
    fun j key hji hsets hgets =>
      h.quiet j key hji hsets ((htrace.asks hgets).mono hheard.received_prefix)
  obtain ⟨hunsent, hended⟩ := h.left hleft
  rw [Server.phaseAt_of_task hi] at hheard
  have htotal := hheard.sent.total
  rw [hunsent, List.append_nil] at htotal
  rw [htotal]
  rcases hended with ⟨error, hread⟩ | ⟨hfinished, hcall⟩
  · exact hheard.service_of_readFailed hreplied hread
  · exact hheard.service_of_finished hreplied htask.written_prefix hfinished hcall

end draining

section runs

variable {maxConnections : ℕ} {database : Database} {s : Server} {w : Wire}
  {actions : List WireAction} {out : List (ℕ × Event)} {i : ℕ}

/-- What has been sent is a prefix of the service. -/
theorem sent_prefix_service (hnew : Server.new maxConnections database = some s)
    (hrun : wire.run actions (Wire.new s) = some (w, out))
    (hio : ∀ text, .connection i (.readError text) ∉ actions)
    (hquiet : ∀ j key, j ≠ i → SetsKey out j key →
      ¬ Asks (frameScanner.scan (deliveredBytes i actions)).1 key) :
    (w.endpoints i).sent <+: service database (deliveredBytes i actions) := by
  have hheard : Heard (fun _ => False) (deliveredBytes i actions) (w.server.phaseAt i)
      (w.endpoints i) (project i out) := Heard.run hnew (fun text hmem => hio text hmem) hrun
  obtain ⟨serverActions, t, hserver, rfl⟩ := wire_simulates.run (t := s) rfl hrun
  have htrace := ServerTrace.run hnew hserver
  obtain ⟨served, pending, unsent, hreplied⟩ := replied_of_trace htrace
    (Replays.run hnew hserver)
    fun j key hji hsets hgets =>
      hquiet j key hji hsets ((htrace.asks hgets).mono hheard.received_prefix)
  refine List.IsPrefix.trans ?_ (hheard.answers_prefix hreplied)
  rw [← hheard.sent.total]
  exact List.prefix_append _ _

/-- Behind a closed peer the handler alone can go on until it has sent the whole service. -/
theorem exists_drain (hnew : Server.new maxConnections database = some s)
    (hrun : wire.run actions (Wire.new s) = some (w, out))
    (hio : ∀ text, .connection i (.readError text) ∉ actions)
    (hquiet : ∀ j key, j ≠ i → SetsKey out j key →
      ¬ Asks (frameScanner.scan (deliveredBytes i actions)).1 key)
    {task : Task} (hi : w.server.tasks[i]? = some task) (hclosed : (w.endpoints i).closed = true)
    (hloop : task.phase.live = true) :
    ∃ more w' later, (∀ action ∈ more, ∃ own : EndpointAction, action = .connection i own ∧
        own.Undisturbed) ∧ wire.run more w = some (w', later) ∧
      (w'.endpoints i).sent = service database (deliveredBytes i actions) := by
  have hdraining : Draining s i (deliveredBytes i actions) w out := by
    refine ⟨⟨actions, hrun, rfl, hio⟩, hclosed, hquiet, ⟨task, hi⟩, fun hleft => ?_⟩
    rw [Server.phaseAt_of_task hi, hloop] at hleft
    cases hleft
  obtain ⟨more, w', later, hmore, hrun', hdrained, hleft⟩ := wire.exists_run
    (fun w => w.drainRank i) (fun _ _ h => h.exists_step hnew) hdraining
  exact ⟨more, w', later, hmore, hrun', hdrained.service_eq hnew hleft⟩

end runs

/-- A handler computes a function of the bytes that its peer delivers, as long as no other one
sets a key that these bytes ask for: for any chunks and any schedule, what it has sent is a
prefix of the service of these bytes, and when the peer closes its side before the handler has
left its loop, the handler alone can go on until it has sent all of it. -/
theorem handler_computes_service (maxConnections : ℕ) (database : Database) (s : Server) (w : Wire)
    (actions : List WireAction) (out : List (ℕ × Event)) (i : ℕ)
    (hnew : Server.new maxConnections database = some s)
    (hrun : wire.run actions (Wire.new s) = some (w, out))
    (hio : ∀ text, .connection i (.readError text) ∉ actions)
    (hquiet : ∀ j key, j ≠ i → SetsKey out j key →
      ¬ Asks (frameScanner.scan (deliveredBytes i actions)).1 key) :
    (w.endpoints i).sent <+: service database (deliveredBytes i actions) ∧
      ∀ task, w.server.tasks[i]? = some task → (w.endpoints i).closed = true →
        task.phase.live = true → ∃ more w' later,
          (∀ action ∈ more, ∃ own : EndpointAction, action = .connection i own ∧
            own.Undisturbed) ∧
          wire.run more w = some (w', later) ∧
          (w'.endpoints i).sent = service database (deliveredBytes i actions) :=
  ⟨sent_prefix_service hnew hrun hio hquiet, fun _ hi hclosed hloop =>
    exists_drain hnew hrun hio hquiet hi hclosed hloop⟩

/-- A handler waits for its first request, and another one has set a key. -/
theorem exists_beside : ∃ s actions w out, Server.new 2 .new = some s ∧
    wire.run actions (Wire.new s) = some (w, out) ∧ w.Waits 0 [] 0 [] ∧ SetsKey out 1 "j" ∧
    (∀ j key, SetsKey out j key → key = "j") ∧ deliveredBytes 0 actions = [] ∧
    ∀ text, .connection 0 (.readError text) ∉ actions := by
  have hset : (Call.set "j" [1] (by decide) (by decide)).Fits := Call.fits_set (by decide)
  obtain ⟨s, hnew⟩ : ∃ s, Server.new 2 .new = some s := ⟨_, rfl⟩
  obtain ⟨w₀, hrun₀, hopened⟩ := Wire.run_opened 2 hnew (Nat.le_refl 2)
  obtain ⟨actions, w, hundisturbed, hrun, -, -, hothers⟩ := (hopened.waits 1 (by decide)).ask hset
  refine ⟨s, _, w, _, hnew, wire.run_append.mpr ⟨_, _, _, hrun₀, hrun, rfl⟩,
    (hopened.waits 0 (by decide)).alike (hothers 0 (by decide)), ?_, ?_, ?_, ?_⟩
  · simp [SetsKey, Call.applied_mem_served, Call.command]
  · rintro j key ⟨number, command, reply, hmem, rfl⟩
    simp [Call.applied_mem_served, Call.command] at hmem
    rw [hmem.1.2.1]
  · refine List.flatMap_eq_nil_iff.mpr fun action hmem => ?_
    rcases List.mem_append.mp hmem with hmem | hmem
    · rcases Wire.of_mem_opened hmem with ⟨own, rfl⟩ | ⟨i, own, rfl, -⟩ <;> rfl
    · rcases List.mem_cons.mp hmem with rfl | hmem
      · rfl
      · obtain ⟨own, -, rfl⟩ := List.mem_map.mp hmem
        rfl
  · intro text hmem
    rcases List.mem_append.mp hmem with hmem | hmem
    · rcases Wire.of_mem_opened hmem with ⟨own, heq⟩ | ⟨i, own, heq, hown⟩
      · cases heq
      · cases heq
        exact hown
    · simp at hmem

/-- A peer delivers a SET and a GET of its key and closes its side; another connection has set
another key. -/
theorem handler_computes_service_beside :
    ∃ s w actions out more w' later, Server.new 2 .new = some s ∧
      wire.run actions (Wire.new s) = some (w, out) ∧ SetsKey out 1 "j" ∧
      (w.endpoints 0).sent = [] ∧ wire.run more w = some (w', later) ∧
      (w'.endpoints 0).sent = encodeAll [.simple "OK", .bulk [13, 10]] := by
  have hset : (Call.set "k" [13, 10] (by decide) (by decide)).Fits := Call.fits_set (by decide)
  have hframes : ∀ frame ∈ [(Call.set "k" [13, 10] (by decide) (by decide)).commandFrame,
      (Call.get "k" (by decide)).commandFrame], Deliverable frame := by
    simp only [List.forall_mem_cons]
    exact ⟨hset.deliverable, (Call.fits_get_of_set hset).1.deliverable, by simp⟩
  have hscan := scan_encodeAll hframes
  have hservice : service .new (encodeAll
      [(Call.set "k" [13, 10] (by decide) (by decide)).commandFrame,
        (Call.get "k" (by decide)).commandFrame]) = encodeAll [.simple "OK", .bulk [13, 10]] := by
    rw [service_encodeAll hframes]
    simp only [replay, respond, Call.fromFrame_commandFrame]
    rfl
  have hasks : ¬ Asks [(Call.set "k" [13, 10] (by decide) (by decide)).commandFrame,
      (Call.get "k" (by decide)).commandFrame] "j" := by
    rintro ⟨frame, hmem, command, hparse, hkey⟩
    simp only [List.mem_cons, List.not_mem_nil, or_false] at hmem
    rcases hmem with rfl | rfl
    · simp [Call.fromFrame_commandFrame, Call.command] at hparse
    · simp [Call.fromFrame_commandFrame, Call.command] at hparse
      rw [← hparse] at hkey
      exact absurd hkey (by decide)
  generalize encodeAll [(Call.set "k" [13, 10] (by decide) (by decide)).commandFrame,
      (Call.get "k" (by decide)).commandFrame] = bytes at hscan hservice
  obtain ⟨s, before, w, out, hnew, hbefore, hwaits, hsets, hother, hnothing, hio⟩ := exists_beside
  have hopen : (w.endpoints 0).closed = false := by rw [hwaits.endpoint]
  have hrun := wire.run_append.mpr ⟨_, _, _, hbefore, Wire.run_deliver_close hopen bytes, rfl⟩
  rw [List.append_nil] at hrun
  have hdelivered : deliveredBytes 0 (before ++ [.peer 0 (.deliver bytes), .peer 0 .close]) =
      bytes := by
    rw [deliveredBytes, List.flatMap_append, ← deliveredBytes, hnothing]
    simp [WireAction.bytes]
  obtain ⟨-, hdrains⟩ := handler_computes_service 2 .new s _ _ out 0 hnew hrun (by simpa using hio)
    fun j key _ hset => by rw [hdelivered, hscan, hother j key hset]; exact hasks
  obtain ⟨shutdownRx, htask⟩ := hwaits.task
  obtain ⟨more, w', later, -, hmore, hsent⟩ := hdrains _ htask (by simp [Wire.close]) rfl
  rw [hdelivered, hservice] at hsent
  refine ⟨s, _, _, out, more, w', later, hnew, hrun, hsets, ?_, hmore, hsent⟩
  simp [Wire.close, Wire.deliver, hwaits.endpoint]

end MiniRedis
