import MiniRedis.Link
import MiniRedis.Noninterference

/-!
# What requesters and handlers agree on

In every run the executed requests of a connection are a front of the commands that its
requester has begun, and each call that has returned `Ok` was answered by its handler.
Requesters are used as documented: none begins a call after one that timed out, failed or
was dropped.
-/
namespace MiniRedis

open Library

/-! ### The executed requests of a connection, by number -/

theorem mem_outcomes {events : List Event} {outcome : Outcome} :
    outcome ∈ outcomes events ↔ ∃ number, outcome.event number ∈ events := by
  rw [outcomes, List.mem_filterMap]
  constructor
  · rintro ⟨event, hmem, hevent⟩
    cases event <;> cases hevent
    · exact ⟨_, hmem⟩
    · exact ⟨_, hmem⟩
  · rintro ⟨number, hmem⟩
    exact ⟨_, hmem, by cases outcome <;> rfl⟩

theorem Request.event_mem_served {request : Request} {number m : ℕ} {outcome : Outcome} :
    outcome.event m ∈ request.served number ↔ m = number ∧ request.outcome = outcome := by
  have hreceived : outcome.event m ≠ .received number request.frame := by
    cases outcome <;> simp [Outcome.event]
  have hattempted : outcome.event m ≠ .attempted request.outcome.reply := by
    cases outcome <;> simp [Outcome.event]
  have hwritten : outcome.event m ≠ .written number request.outcome.reply := by
    cases outcome <;> simp [Outcome.event]
  simp only [served, attempted, executed, List.cons_append, List.nil_append, List.mem_cons,
    List.not_mem_nil, or_false, hreceived, hattempted, hwritten, false_or]
  constructor
  · intro heq
    obtain ⟨hnumber, houtcome⟩ := Outcome.event_injective heq
    exact ⟨hnumber, houtcome.symm⟩
  · rintro ⟨rfl, rfl⟩
    rfl

/-- The requests of a script are numbered one after the other. -/
theorem event_mem_script {number m : ℕ} {requests : List Request} {outcome : Outcome} :
    outcome.event m ∈ script number requests ↔
      ∃ (k : ℕ) (request : Request), m = number + k ∧ requests[k]? = some request ∧
        request.outcome = outcome := by
  induction requests generalizing number with
  | nil => simp [script]
  | cons request requests ih =>
    rw [script, List.mem_append, Request.event_mem_served, ih]
    constructor
    · rintro (⟨rfl, houtcome⟩ | ⟨k, later, rfl, hk, houtcome⟩)
      · exact ⟨0, request, rfl, rfl, houtcome⟩
      · exact ⟨k + 1, later, by omega, hk, houtcome⟩
    · rintro ⟨k, found, rfl, hk, houtcome⟩
      cases k with
      | zero =>
        cases hk
        exact .inl ⟨rfl, houtcome⟩
      | succ k => exact .inr ⟨k, found, by omega, hk, houtcome⟩

/-- The current pass executes the next request. -/
theorem Current.number_eq {n number m : ℕ} {phase : Phase} {current : List Event}
    {outcome : Outcome} (h : Current n phase number current) (hmem : outcome.event m ∈ current) :
    m = n + 1 := by
  have hserved : ∀ request : Request, outcome.event m ∈ request.served (n + 1) → m = n + 1 :=
    fun request hserved => (Request.event_mem_served.mp hserved).1
  cases h with
  | looked request =>
    exact hserved request (List.mem_append_left _ (List.mem_append_left _ hmem))
  | replying request => exact hserved request (List.mem_append_left _ hmem)
  | unanswered request ending =>
    rcases List.mem_append.mp hmem with hmem | hmem
    · exact hserved request (List.mem_append_left _ hmem)
    · cases outcome <;> simp [Outcome.event] at hmem
  | _ => cases outcome <;> simp [Outcome.event] at hmem

/-- The requests that a connection has executed. -/
structure Executes (events : List Event) (executed : List Request) : Prop where
  received : ∃ pending, receivedFrames events = executed.map (·.frame) ++ pending
  /-- A reply that was attempted is the one with its number, or the report of a failed read. -/
  attempts : ∀ (k : ℕ) (reply : Frame), (attempts events)[k]? = some reply →
    (∃ request : Request, executed[k]? = some request ∧ request.outcome.reply = reply) ∨
      ∃ error, .readFailed error ∈ events ∧ reply = Frame.error error.display
  numbered : ∀ number (outcome : Outcome), outcome.event number ∈ events ↔
    ∃ (k : ℕ) (request : Request), number = k + 1 ∧ executed[k]? = some request ∧
      request.outcome = outcome

theorem ServerTrace.executes {s : Server} {out : List (ℕ × Event)} (h : ServerTrace s out) (i : ℕ) :
    ∃ executed, Executes (project i out) executed := by
  obtain ⟨requests, current, phase, number, hproject, hcurrent⟩ := h.project_eq i
  obtain ⟨unsent, pending, attempted, hpass⟩ := hcurrent.pass
  have hwhole := hpass.behind requests
  rw [← hproject] at hwhole
  have hshows := hwhole.shows
  refine ⟨requests ++ unsent, ⟨pending, hshows.receivedFrames_eq⟩, ?_, ?_⟩
  · intro k reply hk
    have hreplies : ∀ l more : List Frame, l ++ more = (requests ++ unsent).map (·.outcome.reply) →
        l[k]? = some reply →
        ∃ request : Request, (requests ++ unsent)[k]? = some request ∧
          request.outcome.reply = reply := by
      intro l more hprefix hget
      have hall : ((requests ++ unsent).map (·.outcome.reply))[k]? = some reply := by
        rw [← hprefix, List.getElem?_append_left (List.getElem?_eq_some_iff.mp hget).1, hget]
      rw [List.getElem?_map] at hall
      exact Option.map_eq_some_iff.mp hall
    have houtcomes := hwhole.replies_eq
    rcases h.attempts_eq i with ⟨unanswered, hattempts, -⟩ | ⟨error, hread, hattempts⟩
    · rw [houtcomes] at hattempts
      exact .inl (hreplies _ _ hattempts hk)
    · rw [hattempts, houtcomes] at hk
      rcases Nat.lt_or_ge k ((requests ++ unsent).map (·.outcome.reply)).length with hlt | hge
      · rw [List.getElem?_append_left hlt] at hk
        exact .inl (hreplies _ [] (List.append_nil _) hk)
      · rw [List.getElem?_append_right hge] at hk
        have hmem := List.mem_of_getElem? hk
        exact .inr ⟨error, hread, List.mem_singleton.mp hmem⟩
  · intro m outcome
    have hcurrent' : outcome.event m ∈ current ↔
        m = requests.length + 1 ∧ ∃ request ∈ unsent, request.outcome = outcome := by
      have hunsent : (∃ m, outcome.event m ∈ current) ↔
          ∃ request ∈ unsent, request.outcome = outcome := by
        rw [← mem_outcomes, hpass.shows.outcomes_eq, List.nil_append, List.mem_map]
      constructor
      · intro hmem
        exact ⟨hcurrent.number_eq hmem, hunsent.mp ⟨m, hmem⟩⟩
      · rintro ⟨rfl, hrequest⟩
        obtain ⟨m, hmem⟩ := hunsent.mpr hrequest
        rwa [← hcurrent.number_eq hmem]
    have hshort := hpass.short
    rw [hproject, List.mem_append, event_mem_script, hcurrent']
    constructor
    · rintro (⟨k, request, rfl, hk, houtcome⟩ | ⟨rfl, request, hmem, houtcome⟩)
      · have hlt := (List.getElem?_eq_some_iff.mp hk).1
        exact ⟨k, request, Nat.add_comm 1 k, by rw [List.getElem?_append_left hlt, hk], houtcome⟩
      · obtain ⟨only, rfl⟩ : ∃ only, unsent = [only] := by
          have hpos := List.length_pos_of_mem hmem
          exact List.length_eq_one_iff.mp (by omega)
        cases List.mem_singleton.mp hmem
        exact ⟨requests.length, request, rfl, by simp, houtcome⟩
    · rintro ⟨k, request, rfl, hk, houtcome⟩
      rcases Nat.lt_or_ge k requests.length with hlt | hge
      · rw [List.getElem?_append_left hlt] at hk
        exact .inl ⟨k, request, Nat.add_comm k 1, hk, houtcome⟩
      · rw [List.getElem?_append_right hge] at hk
        have hlt := (List.getElem?_eq_some_iff.mp hk).1
        exact .inr ⟨by omega, request, List.mem_of_getElem? hk, houtcome⟩

/-- A command is applied before its reply is attempted. -/
theorem TaskTrace.applied_fresh {shared shared' : Shared} {task task' : Task} {action : TaskAction}
    {events now : List Event} {number : ℕ} {command : Command} {reply : Frame}
    (h : TaskTrace task events) (hstep : task.Step shared action shared' task' now)
    (hmem : .applied number command reply ∈ now) : (attempts events).length < number := by
  obtain ⟨requests, current, rfl, hcurrent⟩ := h
  have hcounted : ∀ frame, task.phase = .counted frame → number = task.request →
      (attempts (script 1 requests ++ current)).length < number := by
    rintro frame hphase rfl
    have hscript := (shows_script 1 requests).attempts_eq
    obtain ⟨phase, shutdownRx, request⟩ := task
    cases hphase
    cases hcurrent
    rw [attempts_append, hscript]
    simp [attempts, Event.attempt?]
  cases hstep with
  | lookUp frame command' hphase =>
    simp only [List.mem_singleton, Event.applied.injEq] at hmem
    exact hcounted frame hphase hmem.1
  | store frame command' hphase =>
    simp only [List.mem_cons, Event.applied.injEq, reduceCtorEq, List.not_mem_nil, or_false] at hmem
    exact hcounted frame hphase hmem.1
  | _ => simp at hmem

/-! ### The invariant of the network -/

/-- A call begins before its command is applied, and does not return `Ok` before that. -/
structure InOrder (events : List NetworkEvent) : Prop where
  called : ∀ number call command reply,
    ¬ Before events (.handled (.applied number command reply)) (.called number call)
  returned : ∀ number call result command reply, result.isOk = true →
    ¬ Before events (.returned number call result) (.handled (.applied number command reply))

/-- What holds in every reachable state of the network. -/
structure NetworkLaw (n : Network) (out : List (ℕ × NetworkEvent)) : Prop where
  wire : WireLaw n.wire (serverEvents out)
  trace : ServerTrace n.wire.server (serverEvents out)
  links : ∀ i client, n.clients i = some client →
    Link (n.wire.server.phaseAt i) (n.wire.endpoints i) client (project i out)
  inOrder : ∀ i client, n.clients i = some client → InOrder (project i out)

section link

variable {phase : Phase} {endpoint : Endpoint} {client : Client} {events : List NetworkEvent}
  {requests : List Request}

/-- The handler executes the requests of the calls, in their order. -/
theorem Link.executed (h : Link phase endpoint client events)
    (hexecuted : Executes (handlerEvents events) requests) {k : ℕ} {request : Request}
    (hk : requests[k]? = some request) : ∃ call reply, (begun events)[k]? = some call ∧
      request.outcome = .applied call.command reply := by
  obtain ⟨pending, hreceived⟩ := hexecuted.received
  obtain ⟨later, hrequests, -⟩ := h.inlet
  have hframe : ((begun events).map Call.commandFrame)[k]? = some request.frame := by
    have hlt := (List.getElem?_eq_some_iff.mp hk).1
    rw [← hrequests, hreceived, List.append_assoc,
      List.getElem?_append_left (by rw [List.length_map]; exact hlt), List.getElem?_map, hk]
    rfl
  rw [List.getElem?_map] at hframe
  obtain ⟨call, hcall, hsame⟩ := Option.map_eq_some_iff.mp hframe
  have hparse := request.parsed_eq
  rw [← hsame, call.fromFrame_commandFrame] at hparse
  cases houtcome : request.outcome with
  | rejected error =>
    rw [houtcome] at hparse
    cases hparse
  | applied command reply =>
    rw [houtcome] at hparse
    cases hparse
    exact ⟨call, reply, hcall, rfl⟩

/-- Whatever the handler applies is the command of a call that has begun. -/
theorem Link.applied (h : Link phase endpoint client events)
    (hexecuted : Executes (handlerEvents events) requests) {number : ℕ} {command : Command}
    {reply : Frame} (hmem : .applied number command reply ∈ handlerEvents events) :
    ∃ k call, number = k + 1 ∧ (begun events)[k]? = some call ∧ command = call.command := by
  obtain ⟨k, request, rfl, hk, houtcome⟩ :=
    (hexecuted.numbered number (.applied command reply)).mp hmem
  obtain ⟨call, reply', hcall, happlied⟩ := h.executed hexecuted hk
  rw [houtcome] at happlied
  cases happlied
  exact ⟨k, call, rfl, hcall, rfl⟩

/-- Up to a call that has returned `Ok`, every call was applied. -/
theorem Link.applied_of_isOk (h : Link phase endpoint client events)
    (hexecuted : Executes (handlerEvents events) requests) {number : ℕ} {call : Call}
    {result : CallResult} (hreturned : .returned number call result ∈ events)
    (hok : result.isOk = true) :
    (∃ reply, .applied number call.command reply ∈ handlerEvents events ∧
      result = call.interpret (.frame reply)) ∧
    ∀ k earlier, k + 1 < number → (begun events)[k]? = some earlier →
      ∃ reply, .applied (k + 1) earlier.command reply ∈ handlerEvents events := by
  obtain ⟨k, reply, rfl, hcall, hreply, rfl⟩ := h.answered number call result hreturned hok
  obtain ⟨request, hk, rfl⟩ : ∃ request : Request, requests[k]? = some request ∧
      request.outcome.reply = reply := by
    rcases hexecuted.attempts k reply hreply with hrequest | ⟨error, -, rfl⟩
    · exact hrequest
    · rw [call.isOk_interpret_error error.display] at hok
      cases hok
  have happlied : ∀ j earlier, j ≤ k → (begun events)[j]? = some earlier →
      ∃ request reply, requests[j]? = some request ∧
        request.outcome = .applied earlier.command reply ∧
        .applied (j + 1) earlier.command reply ∈ handlerEvents events := by
    intro j earlier hj hearlier
    have hlt := (List.getElem?_eq_some_iff.mp hk).1
    have hget : requests[j]? = some (requests[j]) := List.getElem?_eq_getElem (by omega)
    obtain ⟨call', reply, hcall', houtcome⟩ := h.executed hexecuted hget
    cases hearlier.symm.trans hcall'
    exact ⟨_, reply, hget, houtcome,
      (hexecuted.numbered (j + 1) (.applied earlier.command reply)).mpr ⟨j, _, rfl, hget, houtcome⟩⟩
  constructor
  · obtain ⟨request', reply, hk', houtcome, hmem⟩ := happlied k call (Nat.le_refl k) hcall
    cases hk.symm.trans hk'
    rw [houtcome]
    exact ⟨reply, hmem, rfl⟩
  · intro j earlier hj hearlier
    obtain ⟨_, reply, -, -, hmem⟩ := happlied j earlier (by omega) hearlier
    exact ⟨reply, hmem⟩

/-- A handler has applied no call that has not begun. -/
theorem Link.number_le (h : Link phase endpoint client events)
    (hexecuted : Executes (handlerEvents events) requests) {number : ℕ} {command : Command}
    {reply : Frame} (hmem : .applied number command reply ∈ handlerEvents events) :
    number ≤ (begun events).length := by
  obtain ⟨k, call, rfl, hcall, -⟩ := h.applied hexecuted hmem
  exact (List.getElem?_eq_some_iff.mp hcall).1

theorem mem_handlerEvents {event : Event} :
    event ∈ handlerEvents events ↔ .handled event ∈ events := by
  rw [handlerEvents, List.mem_filterMap]
  constructor
  · rintro ⟨networkEvent, hmem, hevent⟩
    cases networkEvent <;> cases hevent
    exact hmem
  · intro hmem
    exact ⟨_, hmem, rfl⟩

theorem mem_begun_of_called {number : ℕ} {call : Call} (h : .called number call ∈ events) :
    call ∈ begun events := List.mem_filterMap.mpr ⟨_, h, rfl⟩

theorem InOrder.new : InOrder [] where
  called _ _ _ _ := by
    rintro ⟨l, r, hsplit, hl, -⟩
    rw [(List.append_eq_nil_iff.mp hsplit.symm).1] at hl
    cases hl
  returned _ _ _ _ _ _ := by
    rintro ⟨l, r, hsplit, hl, -⟩
    rw [(List.append_eq_nil_iff.mp hsplit.symm).1] at hl
    cases hl

/-- Events of the handler come in order, when only new commands are applied. -/
theorem InOrder.handler (h : InOrder events) (hlink : Link phase endpoint client events)
    {now : List Event} (hfresh : ∀ number command reply, .applied number command reply ∈ now →
      (attempts (handlerEvents events)).length < number) :
    InOrder (events ++ now.map .handled) where
  called number call command reply hbefore := by
    rcases hbefore.of_append with hold | ⟨hnew, -⟩
    · exact h.called number call command reply hold
    · obtain ⟨_, -, heq⟩ := List.mem_map.mp hnew
      cases heq
  returned number call result command reply hok hbefore := by
    rcases hbefore.of_append with hold | ⟨hnew, hmem⟩
    · exact h.returned number call result command reply hok hold
    · obtain ⟨event, hevent, heq⟩ := List.mem_map.mp hnew
      cases heq
      have hreturned : .returned number call result ∈ events := by
        rcases List.mem_append.mp hmem with hmem | hmem
        · exact hmem
        · obtain ⟨_, -, heq⟩ := List.mem_map.mp hmem
          cases heq
      obtain ⟨k, _, rfl, -, hk, -⟩ := hlink.answered number call result hreturned hok
      have hlt := (List.getElem?_eq_some_iff.mp hk).1
      have hlt' := hfresh _ _ _ hevent
      omega

/-- Events of the requester come in order, when only a new call begins. -/
theorem InOrder.requester (h : InOrder events) (hlink : Link phase endpoint client events)
    (hexecuted : Executes (handlerEvents events) requests) {later : List NetworkEvent}
    (hhandler : handlerEvents later = [])
    (hnumber : ∀ number call, .called number call ∈ later →
      number = (begun (events ++ later)).length) : InOrder (events ++ later) where
  called number call command reply hbefore := by
    rcases hbefore.of_append with hold | ⟨hnew, hmem⟩
    · exact h.called number call command reply hold
    · have happlied : .applied number command reply ∈ handlerEvents events := by
        have hall := mem_handlerEvents.mpr hmem
        rwa [handlerEvents_append, hhandler, List.append_nil] at hall
      have hle := hlink.number_le hexecuted happlied
      have hpos := List.length_pos_of_mem (mem_begun_of_called hnew)
      have heq := hnumber number call hnew
      rw [begun_append, List.length_append] at heq
      omega
  returned number call result command reply hok hbefore := by
    rcases hbefore.of_append with hold | ⟨hnew, -⟩
    · exact h.returned number call result command reply hok hold
    · have hmem := mem_handlerEvents.mpr hnew
      rw [hhandler] at hmem
      cases hmem

end link

theorem NetworkLaw.new {maxConnections : ℕ} {s : Server} (requesters : ℕ → Bool)
    (hnew : Server.new maxConnections .new = some s) :
    NetworkLaw (.new s requesters) [] where
  wire := .new hnew
  trace := .new hnew
  links i client hclient := by
    obtain ⟨htasks, -⟩ := Server.tasks_new hnew
    have hphase : s.phaseAt i = .spawned := by
      rw [Server.phaseAt, htasks]
      rfl
    simp only [Network.new, Option.ite_none_right_eq_some] at hclient
    cases hclient.2
    show Link (s.phaseAt i) .new .new []
    rw [hphase]
    exact .new
  inOrder i client hclient := .new

theorem project_handled (i : ℕ) (events : List (ℕ × Event)) :
    project i (events.map fun entry => (entry.1, NetworkEvent.handled entry.2)) =
      (project i events).map .handled := by
  induction events with
  | nil => rfl
  | cons entry events ih =>
    rw [List.map_cons, project_cons, ih, project_cons]
    split <;> rfl

section step

variable {n n' : Network} {out now : List (ℕ × NetworkEvent)}

theorem NetworkLaw.executes (h : NetworkLaw n out) (i : ℕ) :
    ∃ requests, Executes (handlerEvents (project i out)) requests := by
  obtain ⟨requests, hexecuted⟩ := h.trace.executes i
  rw [project_serverEvents] at hexecuted
  exact ⟨requests, hexecuted⟩

/-- What a step leaves alone keeps its link. -/
theorem NetworkLaw.elsewhere (h : NetworkLaw n out) {i : ℕ} {client : Client}
    (hclient : n.clients i = some client) {later : List (ℕ × NetworkEvent)}
    (hlater : project i later = []) {phase : Phase} (hphase : phase = n.wire.server.phaseAt i)
    {endpoint : Endpoint} (hendpoint : endpoint = n.wire.endpoints i) :
    Link phase endpoint client (project i (out ++ later)) ∧ InOrder (project i (out ++ later)) := by
  rw [project_append, hlater, List.append_nil, hphase, hendpoint]
  exact ⟨h.links i client hclient, h.inOrder i client hclient⟩

theorem NetworkLaw.wire_step (h : NetworkLaw n out) {action : WireAction} {wire : Wire}
    {events : List (ℕ × Event)} (hallowed : n.allows action = true)
    (hstep : MiniRedis.wire.step action n.wire = some (wire, events)) {i : ℕ} {client : Client}
    (hclient : n.clients i = some client) {later : List (ℕ × NetworkEvent)}
    (hlater : later = events.map fun entry => (entry.1, .handled entry.2)) :
    Link (wire.server.phaseAt i) (wire.endpoints i)
        (client.deliver ((wire.endpoints i).sent.drop (n.wire.endpoints i).sent.length))
        (project i (out ++ later)) ∧
      InOrder (project i (out ++ later)) := by
  by_cases hown : ∃ own, action = .connection i own
  · obtain ⟨own, rfl⟩ := hown
    obtain ⟨task, shared, task', endpoint, now, hi, hmove, rfl, rfl⟩ :=
      Wire.step_connection_eq_some hstep
    have hlt := (List.getElem?_eq_some_iff.mp hi).1
    have hlink := h.links i client hclient
    rw [Server.phaseAt_of_task hi] at hlink
    have hcases := Endpoint.step_cases hmove
    rw [project_append, hlater, project_handled, project_map_self,
      Server.phaseAt_of_task (List.getElem?_set_self hlt)]
    simp only [Function.update_self]
    refine ⟨hlink.handler hcases, (h.inOrder i client hclient).handler hlink ?_⟩
    intro number command reply hmem
    have htrace := h.trace.tasks i task hi
    rw [project_serverEvents] at htrace
    cases hcases with
    | wait _ readAction => cases hmem
    | returned _ readAction hphase hread hfail hend htask =>
      exact htrace.applied_fresh (Task.step_cases htask) hmem
    | send n hphase hn => cases hmem
    | task action next hnext hread hwrite htask =>
      exact htrace.applied_fresh (Task.step_cases htask) hmem
  · have hother : ∀ own, action ≠ .connection i own := fun own heq => hown ⟨own, heq⟩
    have hcases := Wire.step_cases hstep
    obtain ⟨-, hnone, hendpoint⟩ := hcases.elsewhere hother
    have hsame : wire.endpoints i = n.wire.endpoints i := by
      rcases hendpoint with hsame | ⟨peerAction, rfl, -⟩
      · exact hsame
      · simp [Network.allows, hclient] at hallowed
    rw [hsame, List.drop_length, Client.deliver_nil]
    refine h.elsewhere hclient ?_ (hcases.phaseAt_eq hother) rfl
    rw [hlater, project_handled, hnone, List.map_nil]

/-- Whatever a handler replies, its requester can read. -/
theorem NetworkLaw.deliverable (h : NetworkLaw n out) (i : ℕ) :
    ∀ frame ∈ attempts (handlerEvents (project i out)), Deliverable frame := by
  intro frame hmem
  rw [← project_serverEvents] at hmem
  exact (h.wire.sendable i frame hmem).deliverable

/-- A step of the requester at a connection, for the link of any requester. -/
theorem NetworkLaw.client_step (h : NetworkLaw n out) {i : ℕ} {action : RequesterAction}
    {client : Client} {after : Requester} {bytes : Bytes} {now : List RequesterEvent}
    (hclient : n.clients i = some client)
    (hdisciplined : ∀ call, action = .begin call → client.spent = false)
    (hstep : client.requester.step (n.wire.server.phaseAt i).hungUp action =
      some (after, bytes, now)) {later : List NetworkEvent}
    (hlater : later = now.map fun event => event.numbered (client.advance action after).number) :
    Link (n.wire.server.phaseAt i) { n.wire.endpoints i with
        inbound := (n.wire.endpoints i).inbound.deliver bytes }
        (client.advance action after) (project i out ++ later) ∧
      InOrder (project i out ++ later) := by
  have hlink := h.links i client hclient
  have hlink' := hlink.requester (h.deliverable i) hdisciplined hstep
  rw [← hlater] at hlink'
  obtain ⟨requests, hexecuted⟩ := h.executes i
  refine ⟨hlink', (h.inOrder i client hclient).requester hlink hexecuted ?_ ?_⟩
  · rw [hlater, handlerEvents, List.filterMap_map, List.filterMap_eq_nil_iff]
    intro event hmem
    cases event <;> rfl
  · intro number call hmem
    rw [← hlink'.number_eq]
    rw [hlater] at hmem
    obtain ⟨event, -, heq⟩ := List.mem_map.mp hmem
    cases event <;> cases heq
    rfl

/-- A condition on the steps: requesters are used as documented, and the texts of the
transport errors at the server can be sent. -/
def NetworkAction.Proper (action : NetworkAction) (n : Network) : Prop :=
  action.Disciplined n ∧
    ∀ i text, action = .wire (.connection i (.readError text)) → ReplyText text

theorem NetworkLaw.step {action : NetworkAction} (h : NetworkLaw n out)
    (hproper : action.Proper n) (hstep : network.step action n = some (n', now)) :
    NetworkLaw n' (out ++ now) := by
  have hcases := Network.step_cases hstep
  obtain ⟨wireAction, hwire, hio⟩ := hcases.on_wire
  have hwire' := h.wire.step (fun i text heq => hproper.2 i text (hio i text heq)) hwire
  have htrace' : ServerTrace n'.wire.server (serverEvents (out ++ now)) := by
    obtain ⟨serverActions, t, hserver, rfl⟩ := wire_simulates _ _ _ _ _ rfl hwire
    have hkeep : ∀ s out action t now, ServerTrace s out → server.step action s = some (t, now) →
        ServerTrace t (out ++ now) := fun _ _ _ _ _ hs hstep => hs.step hstep
    rw [serverEvents_append]
    exact server.run_invariant hkeep h.trace hserver
  rw [← serverEvents_append] at hwire'
  have hlinks : ∀ i client, n'.clients i = some client →
      Link (n'.wire.server.phaseAt i) (n'.wire.endpoints i) client (project i (out ++ now)) ∧
        InOrder (project i (out ++ now)) := by
    intro i client hclient
    cases hcases with
    | wire action hallowed hmove =>
      simp only [Network.delivered, Option.map_eq_some_iff] at hclient
      obtain ⟨before, hbefore, rfl⟩ := hclient
      exact h.wire_step hallowed hmove hbefore rfl
    | @client j action before after bytes events hbefore hdropped hmove hopen =>
      have hmap : (events.map fun event => (j, event.numbered (before.advance action after).number)) =
          (events.map fun event => event.numbered (before.advance action after).number).map
            fun event => (j, event) := by
        rw [List.map_map]
        rfl
      rw [hmap]
      by_cases hij : i = j
      · subst hij
        simp only [Function.update_self, Option.some.injEq] at hclient
        subst hclient
        have hdisciplined : ∀ call, action = .begin call → before.spent = false := by
          rintro call rfl
          exact hproper.1 i call before rfl hbefore
        rw [project_append, project_map_self]
        simp only [Wire.deliver, Function.update_self]
        exact h.client_step hbefore hdisciplined hmove rfl
      · simp only [Function.update_of_ne hij] at hclient
        exact h.elsewhere hclient (project_map_ne (Ne.symm hij) _) rfl (Function.update_of_ne hij _ _)
    | drop j hbefore hdropped =>
      rw [List.append_nil]
      by_cases hij : i = j
      · subst hij
        simp only [Function.update_self, Option.some.injEq] at hclient
        subst hclient
        have hlink := h.links i _ hbefore
        simp only [Wire.close, Function.update_self]
        exact ⟨⟨hlink.number_eq, hlink.idle, hlink.current, hlink.called, hlink.inlet, hlink.outlet,
          hlink.answered⟩, h.inOrder i _ hbefore⟩
      · simp only [Function.update_of_ne hij] at hclient
        simp only [Wire.close, Function.update_of_ne hij]
        exact ⟨h.links i client hclient, h.inOrder i client hclient⟩
  exact ⟨hwire', htrace', fun i client hclient => (hlinks i client hclient).1,
    fun i client hclient => (hlinks i client hclient).2⟩

/-- Requesters stay at their connections. -/
theorem Network.Step.isSome_clients {action : NetworkAction} (h : Network.Step n action n' now)
    (i : ℕ) : (n'.clients i).isSome = (n.clients i).isSome := by
  cases h with
  | wire action hallowed hmove => simp [Network.delivered]
  | client j action hclient hdropped hmove hopen =>
    by_cases hij : i = j
    · subst hij
      simp [hclient]
    · simp [Function.update_of_ne hij]
  | drop j hclient hdropped =>
    by_cases hij : i = j
    · subst hij
      simp [hclient]
    · simp [Function.update_of_ne hij]

end step

theorem NetworkLaw.run {maxConnections : ℕ} {s : Server} {requesters : ℕ → Bool} {n : Network}
    {actions : List NetworkAction} {out : List (ℕ × NetworkEvent)}
    (hnew : Server.new maxConnections .new = some s)
    (hproper : network.Meets NetworkAction.Proper actions (.new s requesters))
    (hrun : network.run actions (.new s requesters) = some (n, out)) : NetworkLaw n out := by
  have hstep : ∀ n out (action : NetworkAction) n' now, NetworkLaw n out → action.Proper n →
      network.step action n = some (n', now) → NetworkLaw n' (out ++ now) :=
    fun _ _ _ _ _ h hproper hstep => h.step hproper hstep
  exact network.run_invariant_of_meets hstep (.new requesters hnew) hproper hrun

theorem Network.run_clients {s : Server} {requesters : ℕ → Bool} {n : Network}
    {actions : List NetworkAction} {out : List (ℕ × NetworkEvent)}
    (hrun : network.run actions (.new s requesters) = some (n, out)) (i : ℕ) :
    (n.clients i).isSome = requesters i := by
  have hstep : ∀ n action n' now, (n.clients i).isSome = requesters i →
      network.step action n = some (n', now) → (n'.clients i).isSome = requesters i :=
    fun _ _ _ _ h hstep => ((Network.step_cases hstep).isSome_clients i).trans h
  refine network.run_state_invariant (P := fun n => (n.clients i).isSome = requesters i) hstep ?_
    hrun
  cases hi : requesters i <;> simp [Network.new, hi]

/-- Discipline holds as long as no call times out, fails or is dropped. -/
theorem Network.meets_of_undisturbed {n : Network} {actions : List NetworkAction}
    (hgoing : ∀ i client, n.clients i = some client → client.spent = false)
    (hundisturbed : ∀ action ∈ actions, action.Undisturbed) :
    network.Meets NetworkAction.Proper actions n := by
  induction actions generalizing n with
  | nil => trivial
  | cons action actions ih =>
    refine ⟨⟨?_, ?_⟩, ?_⟩
    · rintro i call client rfl hi
      exact hgoing i client hi
    · rintro i text rfl
      exact absurd (hundisturbed _ List.mem_cons_self) not_false
    · intro n' now hstep
      refine ih ?_ fun action hmem => hundisturbed action (List.mem_cons_of_mem _ hmem)
      intro i client hi
      cases Network.step_cases hstep with
      | wire action hallowed hmove =>
        simp only [Network.delivered, Option.map_eq_some_iff] at hi
        obtain ⟨before, hbefore, rfl⟩ := hi
        exact hgoing i before hbefore
      | client j action hbefore hdropped hmove hopen =>
        by_cases hij : i = j
        · subst hij
          simp only [Function.update_self, Option.some.injEq] at hi
          subst hi
          simp only [Client.advance, hgoing i _ hbefore, Bool.false_or]
          exact (hundisturbed _ List.mem_cons_self).disturbs_eq
        · simp only [Function.update_of_ne hij] at hi
          exact hgoing i client hi
      | drop j hbefore hdropped =>
        by_cases hij : i = j
        · subst hij
          simp only [Function.update_self, Option.some.injEq] at hi
          subst hi
          have hspent := hgoing i _ hbefore
          exact hspent
        · simp only [Function.update_of_ne hij] at hi
          exact hgoing i client hi

end MiniRedis
