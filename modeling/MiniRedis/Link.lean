import MiniRedis.Network

/-!
# Both ends of a connection

The frames that a handler has received are the requests of the calls, in order, and
the requester reads the reply frames in order. This holds in every reachable state,
whatever times out, fails, or is dropped.
-/
namespace MiniRedis

open Library

/-- `Ok` of a call. -/
def CallResult.isOk : CallResult → Bool
  | .value _ => true
  | .done => true
  | _ => false

/-- Only a frame gives an `Ok`. -/
theorem Call.frame_of_isOk {call : Call} {result : ReadResult}
    (h : (call.interpret result).isOk = true) : ∃ frame, result = .frame frame := by
  cases result with
  | frame frame => exact ⟨frame, rfl⟩
  | _ => cases call <;> cases h

/-- An error frame gives none. -/
theorem Call.isOk_interpret_error (call : Call) (text : String) :
    (call.interpret (.frame (.error text))).isOk = false := by
  cases call <;> rfl

/-- The call that a requester has begun and that has not returned. -/
def RequesterPhase.current : RequesterPhase → List Call
  | .idle => []
  | .writing call _ => [call]
  | .awaiting call => [call]

theorem RequesterPhase.Sends.current {phase : RequesterPhase} {call : Call} {unsent : Bytes}
    (h : phase.Sends call unsent) : phase.current = [call] := by
  rcases h with rfl | ⟨-, rfl⟩ <;> rfl

/-! ### The events of one connection -/

def NetworkEvent.called? : NetworkEvent → Option Call
  | .called _ call => some call
  | _ => none

/-- The calls in the order in which they begin. -/
def begun (events : List NetworkEvent) : List Call := events.filterMap NetworkEvent.called?

/-- The events of the handler. -/
def handlerEvents (events : List NetworkEvent) : List Event :=
  events.filterMap NetworkEvent.handled?

section events

variable (l r : List NetworkEvent) (events : List Event)

@[simp] theorem begun_append : begun (l ++ r) = begun l ++ begun r := by simp [begun]

@[simp] theorem handlerEvents_append :
    handlerEvents (l ++ r) = handlerEvents l ++ handlerEvents r := by simp [handlerEvents]

@[simp] theorem begun_handled : begun (events.map .handled) = [] := by
  induction events with
  | nil => rfl
  | cons event events ih => exact ih

@[simp] theorem handlerEvents_handled : handlerEvents (events.map .handled) = events := by
  induction events with
  | nil => rfl
  | cons event events ih => exact congrArg (event :: ·) ih

@[simp] theorem begun_called (number : ℕ) (call : Call) : begun [.called number call] = [call] :=
  rfl

@[simp] theorem begun_returned (number : ℕ) (call : Call) (result : CallResult) :
    begun [.returned number call result] = [] := rfl

@[simp] theorem handlerEvents_called (number : ℕ) (call : Call) :
    handlerEvents [.called number call] = [] := rfl

@[simp] theorem handlerEvents_returned (number : ℕ) (call : Call) (result : CallResult) :
    handlerEvents [.returned number call result] = [] := rfl

/-- The events of the handler of a connection are those of the server. -/
theorem project_serverEvents (i : ℕ) (out : List (ℕ × NetworkEvent)) :
    project i (serverEvents out) = handlerEvents (project i out) := project_select i out

end events

/-! ### What links both ends -/

/-- What a requester that goes on has not written of its request. -/
def Client.Owes (client : Client) (unsent : Bytes) : Prop :=
  client.spent = false → client.requester.phase = .idle ∧ unsent = [] ∨
    ∃ call, client.requester.phase.Sends call unsent

/-- The first frame is not complete, and never will be without the rest. -/
def Short (frames : List Frame) (rest : Bytes) : Prop :=
  ∀ frame later, frames = frame :: later → (encodeAll later).length < rest.length

/-- The way of the requests, as long as the handler reads. -/
def Inlet (phase : Phase) (inbound : Reader) (client : Client) (requests received : List Frame) :
    Prop :=
  ∃ pending, received ++ pending = requests ∧
    (phase.isClosing = true ∨ ∃ unsent, inbound.Queues pending unsent ∧ client.Owes unsent)

/-- The way of the replies: every call that has returned has taken one, unless the stream ended. -/
def Outlet (phase : Phase) (unsent : Bytes) (client : Client) (replies : List Frame) : Prop :=
  ∃ taken pending, replies = taken ++ pending ∧ client.requester.inbound.Queues pending unsent ∧
    (client.spent = true ∨ phase.hungUp = true ∧ Short pending unsent ∨
      taken.length + client.requester.phase.current.length = client.number)

/-- The result of a call is the interpretation of the reply frame with its number. -/
def Answered (events : List NetworkEvent) (number : ℕ) (call : Call) (result : CallResult) :
    Prop :=
  ∃ k reply, number = k + 1 ∧ (begun events)[k]? = some call ∧
    (attempts (handlerEvents events))[k]? = some reply ∧ result = call.interpret (.frame reply)

theorem Answered.append {events : List NetworkEvent} {number : ℕ} {call : Call}
    {result : CallResult} (h : Answered events number call result) (later : List NetworkEvent) :
    Answered (events ++ later) number call result := by
  obtain ⟨k, reply, rfl, hcall, hreply, rfl⟩ := h
  refine ⟨k, reply, rfl, ?_, ?_, rfl⟩
  · rw [begun_append, List.getElem?_append_left (List.getElem?_eq_some_iff.mp hcall).1, hcall]
  · rw [handlerEvents_append, attempts_append,
      List.getElem?_append_left (List.getElem?_eq_some_iff.mp hreply).1, hreply]

/-- What holds between a requester and its handler. -/
structure Link (phase : Phase) (endpoint : Endpoint) (client : Client)
    (events : List NetworkEvent) : Prop where
  number_eq : client.number = (begun events).length
  idle : client.spent = true → client.requester.phase = .idle
  current : ∃ finished, begun events = finished ++ client.requester.phase.current
  called : ∀ number call, .called number call ∈ events ↔
    ∃ k, number = k + 1 ∧ (begun events)[k]? = some call
  inlet : Inlet phase endpoint.inbound client ((begun events).map Call.commandFrame)
    (receivedFrames (handlerEvents events))
  outlet : Outlet phase endpoint.unsent client (attempts (handlerEvents events))
  answered : ∀ number call result, .returned number call result ∈ events → result.isOk = true →
    Answered events number call result

theorem Link.new : Link .spawned .new .new [] where
  number_eq := rfl
  idle _ := rfl
  current := ⟨[], rfl⟩
  called := by simp [begun]
  inlet := ⟨[], rfl, .inr ⟨[], Reader.idle_new.queues [], fun _ => .inl ⟨rfl, rfl⟩⟩⟩
  outlet := ⟨[], [], rfl, Reader.idle_new.queues [], .inr (.inr rfl)⟩
  answered := by simp

/-! ### Steps of the handler -/

section handler

variable {shared shared' : Shared} {task task' : Task} {endpoint endpoint' : Endpoint}
  {action : EndpointAction} {now : List Event}

/-- A task only receives a frame that was read. -/
theorem Task.Step.receivedFrames_eq {action : TaskAction}
    (h : task.Step shared action shared' task' now)
    (hread : ∀ result, action ≠ .readFrame result) : receivedFrames now = [] := by
  cases h with
  | readFrame _ frame => exact absurd rfl (hread _)
  | _ => rfl

/-- A handler that ends receives and attempts nothing. -/
theorem Task.Step.of_closing {action : TaskAction} (h : task.Step shared action shared' task' now)
    (hclosing : task.phase.isClosing = true) :
    task'.phase.isClosing = true ∧ attempts now = [] ∧
      (task.phase.hungUp = true → task'.phase.hungUp = true) := by
  cases h with
  | leaveReport error hphase => exact ⟨rfl, rfl, by simp [hphase, Phase.hungUp]⟩
  | drop ending resource rest suffix hphase =>
    refine ⟨rfl, rfl, fun hhung => ?_⟩
    simp only [hphase, Phase.hungUp, decide_eq_true_eq, List.mem_cons, not_or] at hhung
    simpa [Phase.hungUp] using hhung.2
  | abandon hphase => simp [hphase, Phase.isClosing] at hclosing
  | leaveLoop hphase => simp [hphase, Phase.isClosing] at hclosing
  | leaveReply output hphase => simp [hphase, Phase.isClosing] at hclosing
  | start hphase => simp [hphase, Phase.isClosing] at hclosing
  | enter hphase => simp [hphase, Phase.isClosing] at hclosing
  | readFrame hphase => simp [hphase, Phase.isClosing] at hclosing
  | readError hphase => simp [hphase, Phase.isClosing] at hclosing
  | write output hphase => simp [hphase, Phase.isClosing] at hclosing
  | countResponse hphase => simp [hphase, Phase.isClosing] at hclosing
  | count frame hphase => simp [hphase, Phase.isClosing] at hclosing
  | lookUp frame command hphase => simp [hphase, Phase.isClosing] at hclosing
  | store frame command hphase => simp [hphase, Phase.isClosing] at hclosing
  | reject frame error hphase => simp [hphase, Phase.isClosing] at hclosing
  | countLookup output hphase => simp [hphase, Phase.isClosing] at hclosing

/-- After a read without a frame the handler ends. -/
theorem Task.closing_interpretRead (task : Task) {result : ReadResult}
    (h : ∀ frame, result ≠ .frame frame) :
    (task.interpretRead result).1.phase.isClosing = true ∧
      receivedFrames (task.interpretRead result).2 = [] := by
  cases result with
  | frame frame => exact absurd rfl (h frame)
  | eof => exact ⟨rfl, rfl⟩
  | error error => exact ⟨rfl, rfl⟩
  | panic => exact ⟨rfl, rfl⟩

theorem Task.step_readFrame {result : ReadResult} (hphase : task.phase.isSelecting = true)
    (h : task.step shared (.readFrame result) = some (shared', task', now)) :
    task' = (task.interpretRead result).1 ∧ now = (task.interpretRead result).2 := by
  simp only [step, Phase.eq_selecting hphase, Option.some.injEq, Prod.mk.injEq] at h
  obtain ⟨-, hread⟩ := h
  exact ⟨(congrArg Prod.fst hread).symm, (congrArg Prod.snd hread).symm⟩

/-- A step takes the frames that it receives from the queue, or the handler ends. -/
theorem Endpoint.Step.queues
    (h : endpoint.Step shared task action shared' task' endpoint' now) {pending : List Frame}
    {unsent : Bytes} (hqueues : endpoint.inbound.Queues pending unsent)
    (hframes : ∀ frame ∈ pending, Readable frame ∧ frame.depth ≤ maxArrayDepth) :
    (task'.phase.isClosing = true ∧ receivedFrames now = []) ∨
      ∃ later, pending = receivedFrames now ++ later ∧ endpoint'.inbound.Queues later unsent := by
  cases h with
  | wait _ readAction hphase hread =>
    have hfail : ∀ text, readAction ≠ .fail text := by
      rintro text rfl
      cases Reader.step_cases hread
    cases hqueues.step hframes hfail hread with
    | waits hnext => exact .inr ⟨pending, rfl, hnext⟩
  | @returned _ readAction next result _ _ _ hphase hread hfail hend htask =>
    obtain ⟨rfl, rfl⟩ := Task.step_readFrame hphase htask
    by_cases hframe : ∃ frame, result = .frame frame
    · obtain ⟨frame, rfl⟩ := hframe
      have hfail : ∀ text, readAction ≠ .fail text := by
        rintro text rfl
        cases Reader.step_cases hread
      cases hqueues.step hframes hfail hread with
      | frame _ later hsplit hnext =>
        exact .inr ⟨later, hsplit, hnext⟩
      | ends _ hatEnd => exact absurd hatEnd (not_atEnd_frame frame)
    · exact .inl (task.closing_interpretRead fun frame heq => hframe ⟨frame, heq⟩)
  | send n hphase hn => exact .inr ⟨pending, rfl, hqueues⟩
  | task action next hnext hread hwrite htask =>
    rw [(Task.step_cases htask).receivedFrames_eq hread]
    refine .inr ⟨pending, rfl, ?_⟩
    rcases hnext with rfl | rfl
    · exact hqueues
    · exact hqueues.dropped

/-- A handler that ends goes on to its end, and leaves a connection alone that it has dropped. -/
theorem Endpoint.Step.ends (h : endpoint.Step shared task action shared' task' endpoint' now)
    (hclosing : task.phase.isClosing = true) :
    task'.phase.isClosing = true ∧ receivedFrames now = [] ∧
      (task.phase.hungUp = true → task'.phase.hungUp = true ∧ attempts now = [] ∧
        endpoint'.unsent = endpoint.unsent) := by
  cases h with
  | wait _ readAction hphase =>
    rw [Phase.eq_selecting hphase] at hclosing
    cases hclosing
  | returned _ readAction hphase =>
    rw [Phase.eq_selecting hphase] at hclosing
    cases hclosing
  | send n hphase hn =>
    refine ⟨hclosing, rfl, fun hhung => ?_⟩
    cases hp : task.phase <;> simp [hp, Phase.hungUp, Phase.isWriting] at hhung hphase
  | task action next hnext hread hwrite htask =>
    have hstep := Task.step_cases htask
    obtain ⟨hclosing', hattempts, hhung⟩ := hstep.of_closing hclosing
    rw [hattempts]
    exact ⟨hclosing', hstep.receivedFrames_eq hread, fun h => ⟨hhung h, rfl, by simp [encodeAll]⟩⟩

/-- The link after a step of the handler. -/
theorem Link.handler {client : Client} {events : List NetworkEvent}
    (h : Link task.phase endpoint client events)
    (hstep : endpoint.Step shared task action shared' task' endpoint' now) :
    Link task'.phase endpoint' (client.deliver (endpoint'.sent.drop endpoint.sent.length))
      (events ++ now.map .handled) where
  number_eq := by simpa using h.number_eq
  idle := h.idle
  current := by simpa using h.current
  called number call := by
    rw [begun_append, begun_handled, List.append_nil, ← h.called, List.mem_append,
      List.mem_map]
    simp
  inlet := by
    obtain ⟨pending, hsplit, hreads⟩ := h.inlet
    simp only [begun_append, begun_handled, List.append_nil, handlerEvents_append,
      handlerEvents_handled, receivedFrames_append]
    rcases hreads with hclosing | ⟨unsent, hqueues, howes⟩
    · obtain ⟨hclosing', hreceived, -⟩ := hstep.ends hclosing
      exact ⟨pending, by rw [hreceived, List.append_nil, hsplit], .inl hclosing'⟩
    · have hframes : ∀ frame ∈ pending, Readable frame ∧ frame.depth ≤ maxArrayDepth := by
        intro frame hmem
        have hrequest : frame ∈ (begun events).map Call.commandFrame := by
          rw [← hsplit]
          exact List.mem_append_right _ hmem
        obtain ⟨call, -, rfl⟩ := List.mem_map.mp hrequest
        exact ⟨call.commandFrame_readable, call.depth_commandFrame⟩
      rcases hstep.queues hqueues hframes with ⟨hclosing, hreceived⟩ | ⟨later, rfl, hlater⟩
      · exact ⟨pending, by rw [hreceived, List.append_nil, hsplit], .inl hclosing⟩
      · exact ⟨later, by rw [← hsplit, List.append_assoc], .inr ⟨unsent, hlater, howes⟩⟩
  outlet := by
    obtain ⟨taken, pending, hsplit, hqueues, hcount⟩ := h.outlet
    obtain ⟨bytes, hsent, hunsent⟩ := hstep.sent_eq
    simp only [handlerEvents_append, handlerEvents_handled, attempts_append]
    refine ⟨taken, pending ++ attempts now, by rw [hsplit, List.append_assoc], ?_, ?_⟩
    · rw [hsent, List.drop_left]
      refine Reader.Queues.deliver ?_
      rw [← hunsent]
      exact hqueues.append _
    · rcases hcount with hspent | ⟨hhung, hshort⟩ | hcount
      · exact .inl hspent
      · have hclosing : task.phase.isClosing = true := by
          cases hp : task.phase <;> rw [hp] at hhung <;> first | rfl | cases hhung
        obtain ⟨hhung', hattempts, hsame⟩ := (hstep.ends hclosing).2.2 hhung
        rw [hattempts, List.append_nil, hsame]
        exact .inr (.inl ⟨hhung', hshort⟩)
      · exact .inr (.inr hcount)
  answered number call result hmem hok := by
    have hold : .returned number call result ∈ events := by
      rcases List.mem_append.mp hmem with hmem | hmem
      · exact hmem
      · obtain ⟨_, -, heq⟩ := List.mem_map.mp hmem
        cases heq
    exact (h.answered number call result hold hok).append _

end handler

/-! ### Steps of the requester -/

section requester

variable {phase : Phase} {endpoint : Endpoint} {client : Client} {events : List NetworkEvent}
  {after : Requester} {bytes : Bytes} {now : List RequesterEvent} {replies : List Frame}

/-- A call only begins when no other is going on. -/
theorem Requester.idle_of_begin {hungUp : Bool} {requester requester' : Requester} {call : Call}
    (h : requester.step hungUp (.begin call) = some (requester', bytes, now)) :
    requester.phase = .idle := by
  cases hphase : requester.phase with
  | idle => rfl
  | writing call' unsent => simp [step, hphase] at h
  | awaiting call' => simp [step, hphase] at h

/-- A call that times out, fails in its transport or is dropped takes no reply. -/
theorem Requester.step_disturbed {hungUp : Bool} {requester requester' : Requester}
    {action : RequesterAction} (hdisturbs : action.disturbs = true)
    (h : requester.step hungUp action = some (requester', bytes, now)) :
    requester'.phase = .idle ∧ bytes = [] ∧
      (requester'.inbound = requester.inbound ∨
        requester'.inbound = { requester.inbound with reading := none }) ∧
      (now = [] ∨ ∃ call text, now = [.returned call (.error text)]) := by
  cases action with
  | fail text =>
    cases hphase : requester.phase with
    | idle => simp [step, hphase] at h
    | writing call unsent =>
      simp only [step, hphase] at h
      cases h
      exact ⟨rfl, rfl, .inl rfl, .inr ⟨_, _, rfl⟩⟩
    | awaiting call =>
      simp only [step, hphase] at h
      cases h
      exact ⟨rfl, rfl, .inr rfl, .inr ⟨_, _, rfl⟩⟩
  | cancel =>
    cases hphase : requester.phase with
    | idle => simp [step, hphase] at h
    | writing call unsent =>
      simp only [step, hphase] at h
      cases h
      exact ⟨rfl, rfl, .inl rfl, .inl rfl⟩
    | awaiting call =>
      simp only [step, hphase] at h
      cases h
      exact ⟨rfl, rfl, .inr rfl, .inl rfl⟩
  | _ => cases hdisturbs

/-- The requester reads on, or takes the next reply, or the stream ends. -/
theorem Outlet.read {unsent : Bytes} {call : Call} {readAction : ReadAction} {next : Reader}
    {results : List ReadResult} (h : Outlet phase unsent client replies)
    (hspent : client.spent = false) (hsends : client.requester.phase.Sends call [])
    (hreplies : ∀ frame ∈ replies, Deliverable frame) (hfail : ∀ text, readAction ≠ .fail text)
    (hend : readAction = .read 0 → phase.hungUp = true)
    (hread : Reader.step readAction client.requester.inbound = some (next, results)) :
    (results = [] ∧
      Outlet phase unsent { client with requester := ⟨.awaiting call, next⟩ } replies) ∨
      ∃ result, results = [result] ∧
        Outlet phase unsent { client with requester := ⟨.idle, next⟩ } replies ∧
        (phase.hungUp = true ∨ ∃ reply, result = .frame reply) ∧
        ∀ reply, result = .frame reply → ∃ k, client.number = k + 1 ∧ replies[k]? = some reply := by
  obtain ⟨taken, pending, rfl, hqueues, hcount⟩ := h
  have hpending : ∀ frame ∈ pending, Deliverable frame := fun frame hmem =>
    hreplies frame (List.mem_append_right taken hmem)
  have hcount := hcount.resolve_left (by simp [hspent])
  simp only [hsends.current, List.length_singleton] at hcount
  have hpops := hqueues.step (fun frame hmem => ⟨(hpending frame hmem).readable,
    (hpending frame hmem).depth_le⟩) hfail hread
  cases hpops with
  | waits hnext => exact .inl ⟨rfl, taken, pending, rfl, hnext, .inr hcount⟩
  | frame frame later hframes hnext =>
    subst hframes
    rcases hcount with ⟨-, hshort⟩ | hcount
    · -- The rest of the first frame does not come any more.
      have hlength := congrArg List.length hnext.split
      have hlt := hshort frame later rfl
      rw [List.length_append] at hlength
      omega
    · refine .inr ⟨.frame frame, rfl, ⟨taken ++ [frame], later, by simp, hnext, ?_⟩,
        .inr ⟨frame, rfl⟩, ?_⟩
      · refine .inr (.inr ?_)
        simpa [RequesterPhase.current] using hcount
      · rintro reply heq
        cases heq
        exact ⟨taken.length, hcount.symm, by simp⟩
  | exceeded frame later hframes hexceeds =>
    have hfits := (hpending frame (by rw [hframes]; exact List.mem_cons_self)).fits
    omega
  | ends result hatEnd hnext hshort =>
    have hhung := hend ((Reader.step_atEnd hread).mp ⟨result, List.mem_singleton_self _, hatEnd⟩)
    refine .inr ⟨result, rfl, ⟨taken, pending, rfl, hnext, .inr (.inl ⟨hhung, hshort⟩)⟩,
      .inl hhung, ?_⟩
    rintro reply rfl
    exact absurd hatEnd (not_atEnd_frame reply)

theorem RequesterPhase.Sends.unique {phase : RequesterPhase} {call call' : Call}
    {unsent unsent' : Bytes} (h : phase.Sends call unsent) (h' : phase.Sends call' unsent') :
    call' = call ∧ unsent' = unsent := by
  rcases h with rfl | ⟨rfl, rfl⟩ <;> rcases h' with h' | ⟨rfl, h'⟩ <;> cases h' <;> exact ⟨rfl, rfl⟩

theorem Link.begin (h : Link phase endpoint client events) (hspent : client.spent = false)
    (hphase : client.requester.phase = .idle) (call : Call) :
    Link phase endpoint
      { client with
        requester := { client.requester with phase := .writing call (encode call.commandFrame) }
        number := client.number + 1 }
      (events ++ [.called (client.number + 1) call]) where
  number_eq := by simp [h.number_eq]
  idle hspent' := absurd hspent' (by simp [hspent])
  current := ⟨begun events, by simp [RequesterPhase.current]⟩
  called number call' := by
    rw [List.mem_append, h.called, List.mem_singleton, begun_append, begun_called, h.number_eq]
    constructor
    · rintro (⟨k, rfl, hk⟩ | heq)
      · have hlt := (List.getElem?_eq_some_iff.mp hk).1
        exact ⟨k, rfl, by rw [List.getElem?_append_left hlt, hk]⟩
      · cases heq
        exact ⟨_, rfl, by simp⟩
    · rintro ⟨k, rfl, hk⟩
      rcases Nat.lt_or_ge k (begun events).length with hlt | hge
      · rw [List.getElem?_append_left hlt] at hk
        exact .inl ⟨k, rfl, hk⟩
      · rw [List.getElem?_append_right hge] at hk
        obtain ⟨hlt, rfl⟩ := List.getElem?_eq_some_iff.mp hk
        rw [List.length_singleton] at hlt
        obtain rfl : k = (begun events).length := by omega
        exact .inr (by simp)
  inlet := by
    obtain ⟨pending, hsplit, hreads⟩ := h.inlet
    simp only [begun_append, begun_called, List.map_append, List.map_cons, List.map_nil,
      handlerEvents_append, handlerEvents_called, List.append_nil]
    refine ⟨pending ++ [call.commandFrame], by rw [← hsplit, List.append_assoc], ?_⟩
    rcases hreads with hclosing | ⟨unsent, hqueues, howes⟩
    · exact .inl hclosing
    · have hunsent : unsent = [] := by
        rcases howes hspent with ⟨-, hunsent⟩ | ⟨call', hsends⟩
        · exact hunsent
        · rw [hphase] at hsends
          cases hsends.current
      subst hunsent
      have hmore := hqueues.append [call.commandFrame]
      rw [encodeAll_singleton, List.nil_append] at hmore
      exact .inr ⟨_, hmore, fun _ => .inr ⟨call, .inl rfl⟩⟩
  outlet := by
    obtain ⟨taken, pending, hsplit, hqueues, hcount⟩ := h.outlet
    refine ⟨taken, pending, by simpa using hsplit, hqueues, ?_⟩
    rw [hphase] at hcount
    simpa [RequesterPhase.current] using hcount
  answered number call' result hmem hok := by
    have hold : .returned number call' result ∈ events := by simpa using hmem
    exact (h.answered number call' result hold hok).append _

/-- Bytes of the request are written. -/
theorem Link.write (h : Link phase endpoint client events) (hspent : client.spent = false)
    {call : Call} {unsent unsent' : Bytes} (hsends : client.requester.phase.Sends call unsent)
    (hsplit : unsent = bytes ++ unsent') (hsends' : after.phase.Sends call unsent')
    (hinbound : after.inbound = client.requester.inbound) :
    Link phase { endpoint with inbound := endpoint.inbound.deliver bytes }
      { client with requester := after } events where
  number_eq := h.number_eq
  idle hspent' := absurd hspent' (by simp [hspent])
  current := by
    rw [hsends'.current, ← hsends.current]
    exact h.current
  called := h.called
  inlet := by
    obtain ⟨pending, hrequests, hreads⟩ := h.inlet
    refine ⟨pending, hrequests, hreads.imp_right ?_⟩
    rintro ⟨left, hqueues, howes⟩
    have hleft : left = unsent := by
      rcases howes hspent with ⟨hidle, -⟩ | ⟨call', hsends''⟩
      · rw [hidle] at hsends
        cases hsends.current
      · exact (hsends.unique hsends'').2
    subst hleft
    rw [hsplit] at hqueues
    exact ⟨unsent', hqueues.deliver, fun _ => .inr ⟨call, hsends'⟩⟩
  outlet := by
    obtain ⟨taken, pending, hreplies, hqueues, hcount⟩ := h.outlet
    refine ⟨taken, pending, hreplies, ?_, ?_⟩
    · rw [hinbound]
      exact hqueues
    · rw [hsends'.current, ← hsends.current]
      exact hcount
  answered := h.answered

/-- The requester reads on, or returns what it has read. -/
theorem Link.read (h : Link phase endpoint client events) (hspent : client.spent = false)
    {call : Call} (hsends : client.requester.phase.Sends call []) {readAction : ReadAction}
    {next : Reader} {results : List ReadResult}
    (hreplies : ∀ frame ∈ attempts (handlerEvents events), Deliverable frame)
    (hfail : ∀ text, readAction ≠ .fail text)
    (hend : readAction = .read 0 → phase.hungUp = true)
    (hread : Reader.step readAction client.requester.inbound = some (next, results)) :
    (results = [] ∧
      Link phase endpoint { client with requester := ⟨.awaiting call, next⟩ } events) ∨
    ∃ result, results = [result] ∧
      (phase.hungUp = true ∨ Answered events client.number call (call.interpret result)) ∧
      Link phase endpoint { client with requester := ⟨.idle, next⟩ }
        (events ++ [.returned client.number call (call.interpret result)]) := by
  have hcurrent := h.current
  have hinlet := h.inlet
  rw [hsends.current] at hcurrent
  rcases h.outlet.read hspent hsends hreplies hfail hend hread with
    ⟨rfl, houtlet⟩ | ⟨result, rfl, houtlet, hgot, hframe⟩
  · refine .inl ⟨rfl, h.number_eq, fun hspent' => absurd hspent' (by simp [hspent]), hcurrent,
      h.called, ?_, houtlet, h.answered⟩
    obtain ⟨pending, hrequests, hreads⟩ := hinlet
    refine ⟨pending, hrequests, hreads.imp_right ?_⟩
    rintro ⟨unsent, hqueues, howes⟩
    refine ⟨unsent, hqueues, fun _ => ?_⟩
    rcases howes hspent with ⟨hidle, -⟩ | ⟨call', hsends'⟩
    · rw [hidle] at hsends
      cases hsends.current
    · exact .inr ⟨call, .inr ⟨(hsends.unique hsends').2, rfl⟩⟩
  · obtain ⟨finished, hfinished⟩ := hcurrent
    have hanswered : ∀ reply, result = .frame reply →
        Answered events client.number call (call.interpret result) := by
      rintro reply rfl
      obtain ⟨k, hnumber, hreply⟩ := hframe reply rfl
      refine ⟨k, reply, hnumber, ?_, hreply, rfl⟩
      have hlength := h.number_eq
      rw [hfinished, List.length_append, List.length_singleton] at hlength
      rw [hfinished, List.getElem?_append_right (by omega)]
      have hzero : k - finished.length = 0 := by omega
      rw [hzero]
      rfl
    refine .inr ⟨result, rfl, hgot.imp_right fun ⟨reply, heq⟩ => hanswered reply heq, ?_⟩
    refine ⟨by simpa using h.number_eq, fun _ => rfl, ⟨finished ++ [call], ?_⟩, ?_, ?_, ?_, ?_⟩
    · simpa [RequesterPhase.current] using hfinished
    · intro number call'
      rw [begun_append, begun_returned, List.append_nil, ← h.called, List.mem_append]
      simp
    · obtain ⟨pending, hrequests, hreads⟩ := hinlet
      refine ⟨pending, by simpa using hrequests, hreads.imp_right ?_⟩
      rintro ⟨unsent, hqueues, howes⟩
      refine ⟨unsent, hqueues, fun _ => .inl ⟨rfl, ?_⟩⟩
      rcases howes hspent with ⟨-, hunsent⟩ | ⟨call', hsends'⟩
      · exact hunsent
      · exact (hsends.unique hsends').2
    · simpa using houtlet
    · intro number call' result' hmem hok
      rcases List.mem_append.mp hmem with hold | hnew
      · exact (h.answered number call' result' hold hok).append _
      · cases List.mem_singleton.mp hnew
        obtain ⟨reply, hreply⟩ := Call.frame_of_isOk hok
        exact (hanswered reply hreply).append _

/-- The requester has given up its call. -/
theorem Link.spend (h : Link phase endpoint client events) {client' : Client}
    {later : List NetworkEvent} (hspent : client'.spent = true)
    (hidle : client'.requester.phase = .idle) (hnumber : client'.number = client.number)
    (hinbound : client'.requester.inbound = client.requester.inbound ∨
      client'.requester.inbound = { client.requester.inbound with reading := none })
    (hlater : later = [] ∨ ∃ number call text, later = [.returned number call (.error text)]) :
    Link phase endpoint client' (events ++ later) := by
  obtain ⟨hbegun, hhandler, hcalled, hreturned⟩ : begun later = [] ∧ handlerEvents later = [] ∧
      (∀ number call, .called number call ∉ later) ∧
      ∀ number call result, .returned number call result ∈ later → result.isOk = false := by
    rcases hlater with rfl | ⟨number, call, text, rfl⟩
    · exact ⟨rfl, rfl, by simp, by simp⟩
    · refine ⟨rfl, rfl, by simp, ?_⟩
      intro number' call' result hmem
      cases List.mem_singleton.mp hmem
      rfl
  exact {
    number_eq := by simpa [hnumber, hbegun] using h.number_eq
    idle := fun _ => hidle
    current := ⟨begun events, by simp [hbegun, hidle, RequesterPhase.current]⟩
    called := by
      intro number call
      rw [begun_append, hbegun, List.append_nil, ← h.called, List.mem_append,
        or_iff_left (hcalled number call)]
    inlet := by
      obtain ⟨pending, hrequests, hreads⟩ := h.inlet
      refine ⟨pending, by simpa [hbegun, hhandler] using hrequests, hreads.imp_right ?_⟩
      rintro ⟨unsent, hqueues, -⟩
      exact ⟨unsent, hqueues, fun hgoes => absurd hspent (by simp [hgoes])⟩
    outlet := by
      obtain ⟨taken, pending, hreplies, hqueues, -⟩ := h.outlet
      refine ⟨taken, pending, by simpa [hhandler] using hreplies, ?_, .inl hspent⟩
      rcases hinbound with hinbound | hinbound
      · rw [hinbound]
        exact hqueues
      · rw [hinbound]
        exact hqueues.dropped
    answered := by
      intro number call result hmem hok
      rcases List.mem_append.mp hmem with hold | hnew
      · exact (h.answered number call result hold hok).append _
      · rw [hreturned number call result hnew] at hok
        cases hok }

/-- The requester goes on with its call. -/
theorem Client.advance_of_going {action : RequesterAction} (hdisturbs : action.disturbs = false)
    (hbegin : ∀ call, action ≠ .begin call) :
    client.advance action after = { client with requester := after } := by
  cases action with
  | begin call => exact absurd rfl (hbegin call)
  | fail text => cases hdisturbs
  | cancel => cases hdisturbs
  | _ => simp [advance, RequesterAction.disturbs]

theorem Requester.undisturbed_of_disturbs {action : RequesterAction}
    (h : action.disturbs = false) : Undisturbed action := by
  cases action with
  | fail text => cases h
  | cancel => cases h
  | _ => trivial

theorem Endpoint.deliver_nil (endpoint : Endpoint) :
    { endpoint with inbound := endpoint.inbound.deliver [] } = endpoint := by
  rw [Reader.deliver_nil]

/-- A step that does not begin a call goes on with one. -/
theorem Requester.Step.sends {hungUp : Bool} {requester requester' : Requester}
    {action : RequesterAction}
    (h : Requester.Step hungUp requester action requester' bytes now)
    (hbegin : ∀ call, action ≠ .begin call) :
    ∃ call unsent, requester.phase.Sends call unsent := by
  cases h with
  | begin call => exact absurd rfl (hbegin call)
  | transmit call unsent n hphase => exact ⟨call, unsent, .inl hphase⟩
  | flush call hphase => exact ⟨call, [], .inl hphase⟩
  | wait call _ readAction hphase => exact ⟨call, [], .inr ⟨rfl, hphase⟩⟩
  | returned call _ readAction hphase => exact ⟨call, [], .inr ⟨rfl, hphase⟩⟩

/-- The link after a step of the requester. -/
theorem Link.requester {action : RequesterAction} (h : Link phase endpoint client events)
    (hreplies : ∀ frame ∈ attempts (handlerEvents events), Deliverable frame)
    (hdisciplined : ∀ call, action = .begin call → client.spent = false)
    (hstep : client.requester.step phase.hungUp action = some (after, bytes, now)) :
    Link phase { endpoint with inbound := endpoint.inbound.deliver bytes }
      (client.advance action after)
      (events ++ now.map fun event => event.numbered (client.advance action after).number) := by
  cases hdisturbs : action.disturbs with
  | true =>
    obtain ⟨hidle, rfl, hinbound, hnow⟩ := Requester.step_disturbed hdisturbs hstep
    rw [Endpoint.deliver_nil]
    refine h.spend (by simp [Client.advance, hdisturbs]) hidle ?_ hinbound ?_
    · cases action <;> first | rfl | cases hdisturbs
    · rcases hnow with rfl | ⟨call, text, rfl⟩
      · exact .inl rfl
      · exact .inr ⟨_, call, text, rfl⟩
  | false =>
    have hmove := Requester.step_cases (Requester.undisturbed_of_disturbs hdisturbs) hstep
    by_cases hbegin : ∃ call, action = .begin call
    · obtain ⟨call, rfl⟩ := hbegin
      have hphase := Requester.idle_of_begin hstep
      have hspent := hdisciplined call rfl
      simp only [Requester.step, hphase, Option.some.injEq, Prod.mk.injEq] at hstep
      obtain ⟨rfl, rfl, rfl⟩ := hstep
      rw [Endpoint.deliver_nil]
      simpa [Client.advance, hdisturbs, RequesterEvent.numbered] using h.begin hspent hphase call
    · obtain ⟨call, unsent, hsends⟩ := hmove.sends fun call heq => hbegin ⟨call, heq⟩
      have hspent : client.spent = false := by
        by_contra hne
        rw [h.idle (by simpa using hne)] at hsends
        cases hsends.current
      rw [Client.advance_of_going hdisturbs fun call heq => hbegin ⟨call, heq⟩]
      cases hmove.of_sends hsends with
      | write unsent' hsplit hsends' hinbound =>
        rw [List.map_nil, List.append_nil]
        exact h.write hspent hsends hsplit hsends' hinbound
      | wait readAction hunsent hfail hend hread =>
        subst hunsent
        rw [Endpoint.deliver_nil, List.map_nil, List.append_nil]
        rcases h.read hspent hsends hreplies hfail hend hread with ⟨-, hlink⟩ | ⟨_, hnone, -, -⟩
        · exact hlink
        · cases hnone
      | returned readAction hunsent hfail hend hread =>
        subst hunsent
        rw [Endpoint.deliver_nil]
        rcases h.read hspent hsends hreplies hfail hend hread with ⟨hnone, -⟩ | ⟨_, hone, -, hlink⟩
        · cases hnone
        · cases hone
          exact hlink

end requester
end MiniRedis
