import MiniRedis.Dialogue

/-!
# The stages of a call

A request is on its way, served, or looked up, or its reply is on its way; between
two calls nothing is in flight. When a request exceeds the limit, only its error is
on its way. Every undisturbed step stays within these stages.
-/
namespace MiniRedis

open Library

/-- The reply to a call after others. -/
def Call.reply (call : Call) (before : List Call) : Frame :=
  (call.command.apply (Call.stored before)).1

theorem Call.length_stored_le {before : List Call} (hfits : ∀ call ∈ before, call.Fits)
    {key : String} {value : Bytes} (h : (Call.stored before).get key = some value) :
    (encode (.bulk value)).length ≤ maxBufferedBytes := by
  induction before using List.reverseRecOn with
  | nil => cases h
  | append_singleton before call ih =>
    have hbefore := ih fun c hc => hfits c (List.mem_append_left _ hc)
    have hcall := hfits call (List.mem_append_right _ (List.mem_singleton_self call))
    rw [stored_concat, Command.get_apply] at h
    cases call with
    | get k hk => exact hbefore h
    | set k v hk hv =>
      by_cases hkey : k = key
      · have hvalue : some v = some value := by simpa [command, Command.stores, hkey] using h
        cases hvalue
        exact (fits_get_of_set hcall).2
      · refine hbefore ?_
        simpa [command, Command.stores, hkey] using h

theorem Call.reply_sendable {before : List Call} (hfits : ∀ call ∈ before, call.Fits)
    (call : Call) : Sendable (call.reply before) := by
  cases call with
  | get key hkey =>
    have hreply := Command.apply_get_fst ⟨key⟩ (stored before)
    show Sendable ((Command.get ⟨key⟩).apply (stored before)).1
    rw [hreply]
    cases hget : (stored before).get key with
    | none => exact sendable_null
    | some value => exact sendable_bulk (length_stored_le hfits hget)
  | set key value hkey hvalue => exact sendable_ok

/-- Where the calls stand while all of them have fitted: which of them are answered,
and which are executed. -/
inductive Stage (phase : Phase) (endpoint : Endpoint) (requester : Requester) :
    List Call → List Call → Prop
  | resting (answered : List Call) (hidle : requester.phase = .idle)
    (hreplies : requester.inbound = ⟨[], [], none⟩) (hrequests : endpoint.inbound.Idle)
    (howed : endpoint.unsent = []) (hready : phase.isReady = true) :
    Stage phase endpoint requester answered answered
  /-- The request is on its way. -/
  | asking (answered : List Call) (call : Call) (unsent : Bytes)
    (hsends : requester.phase.Sends call unsent) (hreplies : requester.inbound.Idle)
    (hrequests : endpoint.inbound.Receives call.commandFrame unsent)
    (howed : endpoint.unsent = []) (hready : phase.isReady = true) :
    Stage phase endpoint requester answered answered
  | serving (answered : List Call) (call : Call) (hfits : call.Fits)
    (hsends : requester.phase.Sends call []) (hreplies : requester.inbound.Idle)
    (hrequests : endpoint.inbound = ⟨[], [], none⟩) (howed : endpoint.unsent = [])
    (hphase : phase = .received call.commandFrame ∨ phase = .counted call.commandFrame) :
    Stage phase endpoint requester answered answered
  | looking (answered : List Call) (call : Call) (hsends : requester.phase.Sends call [])
    (hreplies : requester.inbound.Idle) (hrequests : endpoint.inbound = ⟨[], [], none⟩)
    (howed : endpoint.unsent = []) (hphase : phase = .looked (call.reply answered)) :
    Stage phase endpoint requester answered (answered ++ [call])
  /-- The reply is on its way. -/
  | answering (answered : List Call) (call : Call) (hsends : requester.phase.Sends call [])
    (hreplies : requester.inbound.Receives (call.reply answered) endpoint.unsent)
    (hrequests : endpoint.inbound.Idle) (hready : phase.isReady = true)
    (hsettled : phase.isWriting = false → endpoint.unsent = []) :
    Stage phase endpoint requester answered (answered ++ [call])

/-- The request of the call has exceeded the limit, and the error is on its way. -/
structure Refusing (phase : Phase) (endpoint : Endpoint) (requester : Requester) (call : Call) :
    Prop where
  sends : ∃ unsent, requester.phase.Sends call unsent
  replies : requester.inbound.Receives (.error bufferLimitError.display) endpoint.unsent
  closing : phase.isClosing = true
  settled : phase.isWriting = false → endpoint.unsent = []

theorem Phase.not_hungUp {phase : Phase} (h : phase.isClosing = false) : phase.hungUp = false := by
  cases phase <;> first | rfl | cases h

theorem Phase.not_closing {phase : Phase} (h : phase.isReady = true) :
    phase.isClosing = false := by
  cases phase <;> first | rfl | cases h

section client

variable {phase : Phase} {endpoint : Endpoint} {requester requester' : Requester}
  {answered executed : List Call} {action : RequesterAction} {bytes unsent : Bytes}
  {events : List RequesterEvent} {call : Call}

/-- During a call to which nothing has come back, the requester only writes and waits. -/
theorem CallMove.of_idle (h : CallMove false requester call unsent requester' bytes events)
    (hreplies : requester.inbound.Idle) :
    events = [] ∧ requester'.inbound.Idle ∧
      ∃ unsent', unsent = bytes ++ unsent' ∧ requester'.phase.Sends call unsent' := by
  cases h with
  | write unsent' hsplit hphase hinbound =>
    exact ⟨rfl, by rw [hinbound]; exact hreplies, unsent', hsplit, hphase⟩
  | wait readAction hunsent hfail hend hread =>
    obtain ⟨-, hidle⟩ := hreplies.step hfail (fun hzero => by cases hend hzero) hread
    exact ⟨rfl, hidle, [], hunsent, .inr ⟨rfl, rfl⟩⟩
  | returned readAction hunsent hfail hend hread =>
    obtain ⟨hnone, -⟩ := hreplies.step hfail (fun hzero => by cases hend hzero) hread
    cases hnone

/-- A requester that has written all of its call only waits. -/
theorem CallMove.of_sent (h : CallMove false requester call [] requester' bytes events)
    (hreplies : requester.inbound.Idle) :
    events = [] ∧ bytes = [] ∧ requester'.inbound.Idle ∧ requester'.phase.Sends call [] := by
  obtain ⟨hevents, hidle, unsent', hsplit, hsends⟩ := h.of_idle hreplies
  obtain ⟨rfl, rfl⟩ := List.append_eq_nil_iff.mp hsplit.symm
  exact ⟨hevents, rfl, hidle, hsends⟩

/-- A step of the requester goes on with its call, or returns the answer of the map. -/
theorem Stage.client (h : Stage phase endpoint requester answered executed)
    (hfits : ∀ call ∈ executed, call.Fits)
    (hstep : requester.Step phase.hungUp action requester' bytes events) :
    (returns (events.map .client) = [] ∧
        Stage phase { endpoint with inbound := endpoint.inbound.deliver bytes } requester'
          answered executed) ∨
      ∃ call, executed = answered ++ [call] ∧
        events = [.returned call (call.answer (Call.stored answered)).1] ∧
        Stage phase { endpoint with inbound := endpoint.inbound.deliver bytes } requester'
          executed executed := by
  cases h with
  | resting hidle hreplies hrequests howed hready =>
    cases hstep with
    | begin call =>
      refine .inl ⟨rfl, .asking answered call (encode call.commandFrame) (.inl rfl) ?_ ?_ howed
        hready⟩
      · rw [hreplies]
        exact Reader.idle_new
      · rw [Reader.deliver_nil]
        exact hrequests.receives _
    | transmit _ _ _ hwriting => cases hidle.symm.trans hwriting
    | flush _ hwriting => cases hidle.symm.trans hwriting
    | wait _ _ _ hawaiting => cases hidle.symm.trans hawaiting
    | returned _ _ _ hawaiting => cases hidle.symm.trans hawaiting
  | asking call unsent hsends hreplies hrequests howed hready =>
    have hmove := hstep.of_sends hsends
    rw [Phase.not_hungUp (Phase.not_closing hready)] at hmove
    obtain ⟨rfl, hidle, unsent', rfl, hsends'⟩ := hmove.of_idle hreplies
    exact .inl ⟨rfl, .asking answered call unsent' hsends' hidle hrequests.deliver howed hready⟩
  | serving call hcall hsends hreplies hrequests howed hphase =>
    have hmove := hstep.of_sends hsends
    have hopen : phase.isClosing = false := by rcases hphase with rfl | rfl <;> rfl
    rw [Phase.not_hungUp hopen] at hmove
    obtain ⟨rfl, rfl, hidle, hsends'⟩ := hmove.of_sent hreplies
    rw [Reader.deliver_nil]
    exact .inl ⟨rfl, .serving answered call hcall hsends' hidle hrequests howed hphase⟩
  | looking call hsends hreplies hrequests howed hphase =>
    have hmove := hstep.of_sends hsends
    have hopen : phase.isClosing = false := by rw [hphase]; rfl
    rw [Phase.not_hungUp hopen] at hmove
    obtain ⟨rfl, rfl, hidle, hsends'⟩ := hmove.of_sent hreplies
    rw [Reader.deliver_nil]
    exact .inl ⟨rfl, .looking answered call hsends' hidle hrequests howed hphase⟩
  | answering call hsends hreplies hrequests hready hsettled =>
    have hbefore : ∀ c ∈ answered, c.Fits := fun c hc => hfits c (List.mem_append_left _ hc)
    have hreply := (Call.reply_sendable hbefore call).deliverable
    have hmove := hstep.of_sends hsends
    rw [Phase.not_hungUp (Phase.not_closing hready)] at hmove
    cases hmove with
    | write unsent' hsplit hsends' hinbound =>
      obtain ⟨rfl, rfl⟩ := List.append_eq_nil_iff.mp hsplit.symm
      rw [Reader.deliver_nil]
      refine .inl ⟨rfl, .answering answered call hsends' ?_ hrequests hready hsettled⟩
      rw [hinbound]
      exact hreplies
    | wait readAction _ hfail hend hread =>
      have hadvances := hreplies.step hreply.readable hreply.depth_le hfail
        (fun hzero => by cases hend hzero) hread
      cases hadvances with
      | waits hnext =>
        rw [Reader.deliver_nil]
        exact .inl ⟨rfl, .answering answered call (.inr ⟨rfl, rfl⟩) hnext hrequests hready hsettled⟩
    | returned readAction _ hfail hend hread =>
      have hadvances := hreplies.step hreply.readable hreply.depth_le hfail
        (fun hzero => by cases hend hzero) hread
      rw [Reader.deliver_nil]
      cases hadvances with
      | complete hreader howed _ =>
        refine .inr ⟨call, rfl, ?_, .resting _ rfl hreader hrequests howed hready⟩
        rw [Call.reply, Call.interpret_apply]
      | exceeded hexceeds => exact absurd hreply.fits (by omega)

end client

/-- What a step of the handler does to the calls. -/
inductive HandlerMove (shared : Shared) (answered executed : List Call) (shared' : Shared)
    (phase : Phase) (endpoint : Endpoint) (requester : Requester) (events : List Event) : Prop
  | same (hdatabase : shared'.database = shared.database) (hevents : applied events = [])
    (hstage : Stage phase endpoint requester answered executed)
  | executes (call : Call) (hfits : call.Fits) (hexecuted : executed = answered)
    (hdatabase : shared'.database = (call.command.apply shared.database).2)
    (hevents : applied events = [call.command])
    (hstage : Stage phase endpoint requester answered (answered ++ [call]))
  | refuses (call : Call) (hexceeds : ¬ call.Fits) (hexecuted : executed = answered)
    (hsends : ∃ unsent, requester.phase.Sends call unsent)
    (hdatabase : shared'.database = shared.database) (hevents : applied events = [])
    (hreport : .attempted (.error bufferLimitError.display) ∈ events)
    (hstage : Refusing phase endpoint requester call)

section handler

variable {shared shared' : Shared} {task task' : Task} {endpoint endpoint' : Endpoint}
  {requester : Requester} {answered executed : List Call} {action : EndpointAction}
  {events : List Event} {call : Call} {unsent : Bytes}

/-- What a quiet step hands over is what the requester still lacks. -/
theorem Quiet.receives (h : Quiet shared endpoint shared' endpoint' events) {s : Reader}
    {frame : Frame} (hreceives : s.Receives frame endpoint.unsent) :
    (s.deliver (endpoint'.sent.drop endpoint.sent.length)).Receives frame endpoint'.unsent := by
  obtain ⟨bytes, hsent, hunsent⟩ := h.sent
  rw [hsent, List.drop_left]
  rw [hunsent] at hreceives
  exact hreceives.deliver

/-- Who owes nothing hands over nothing. -/
theorem Quiet.owes_nothing (h : Quiet shared endpoint shared' endpoint' events)
    (howed : endpoint.unsent = []) :
    endpoint'.sent.drop endpoint.sent.length = [] ∧ endpoint'.unsent = [] := by
  obtain ⟨bytes, hsent, hunsent⟩ := h.sent
  obtain ⟨rfl, hunsent'⟩ := List.append_eq_nil_iff.mp (hunsent.symm.trans howed)
  rw [hsent, List.append_nil, List.drop_length]
  exact ⟨rfl, hunsent'⟩

theorem Quiet.idle (h : Quiet shared endpoint shared' endpoint' events)
    (hidle : endpoint.inbound.Idle) : endpoint'.inbound.Idle := by
  rcases h.inbound with hsame | hdropped
  · rw [hsame]
    exact hidle
  · rw [hdropped]
    exact hidle.dropped

theorem Quiet.requests (h : Quiet shared endpoint shared' endpoint' events) {frame : Frame}
    {rest : Bytes} (hreceives : endpoint.inbound.Receives frame rest) :
    endpoint'.inbound.Receives frame rest := by
  rcases h.inbound with hsame | hdropped
  · rw [hsame]
    exact hreceives
  · rw [hdropped]
    exact hreceives.dropped

/-- Between two calls the handler only gets ready. -/
theorem ReadyMove.of_idle (h : ReadyMove shared task endpoint shared' task' endpoint' events)
    (hready : task.phase.isReady = true) (hsettled : task.phase.isWriting = false → endpoint.unsent = [])
    (hrequests : endpoint.inbound.Idle) (hclosed : endpoint.closed = false) :
    Quiet shared endpoint shared' { endpoint' with inbound := endpoint.inbound } events ∧
      endpoint'.inbound.Idle ∧ task'.phase.isReady = true ∧
      (task'.phase.isWriting = false → endpoint'.unsent = []) := by
  have hend : ∀ readAction : ReadAction, (readAction = .read 0 → endpoint.closed = true) →
      readAction ≠ .read 0 := by
    intro readAction hzero heq
    rw [hzero heq] at hclosed
    cases hclosed
  cases h with
  | quiet hquiet hready' hsettled' =>
    refine ⟨⟨hquiet.database, hquiet.sent, .inl rfl, hquiet.closed, hquiet.events⟩,
      hquiet.idle hrequests, hready', hsettled'⟩
  | wait readAction howed hfail hzero hread =>
    obtain ⟨-, hidle⟩ := hrequests.step hfail (hend _ hzero) hread
    exact ⟨⟨rfl, ⟨[], by simp, by simp⟩, .inl rfl, rfl, rfl⟩, hidle, hready, hsettled⟩
  | returned readAction howed hfail hzero hread htask =>
    obtain ⟨hnone, -⟩ := hrequests.step hfail (hend _ hzero) hread
    cases hnone

/-- While the task neither waits for a request nor writes, only the task itself steps. -/
theorem Endpoint.Step.of_running
    (h : endpoint.Step shared task action shared' task' endpoint' events)
    (hundisturbed : action.Undisturbed) (hselecting : task.phase.isSelecting = false)
    (hwriting : task.phase.isWriting = false) (hrequests : endpoint.inbound = ⟨[], [], none⟩) :
    ∃ taskAction : TaskAction, taskAction.Undisturbed ∧
      task.Step shared taskAction shared' task' events ∧
      endpoint' = { endpoint with unsent := endpoint.unsent ++ encodeAll (attempts events) } := by
  cases h with
  | wait _ readAction hphase => cases hselecting.symm.trans hphase
  | returned _ readAction hphase => cases hselecting.symm.trans hphase
  | send n hphase => cases hwriting.symm.trans hphase
  | task action next hnext hread hwrite htask =>
    have hsame : next = endpoint.inbound := by
      rcases hnext with rfl | rfl
      · rfl
      · rw [hrequests]
    subst hsame
    exact ⟨action, hundisturbed, Task.step_cases htask, rfl⟩

/-- A frame or an error that the reader returns is what the task goes on with. -/
theorem Task.Step.of_read {result : ReadResult}
    (h : task.Step shared (.readFrame result) shared' task' events)
    (hresult : result ≠ .eof ∧ result ≠ .panic) :
    shared' = shared ∧ (task', events) = task.interpretRead result := by
  cases h with
  | readFrame _ frame => exact ⟨rfl, rfl⟩
  | readError _ error => exact ⟨rfl, rfl⟩
  | abandon _ _ _ _ hdisturbed => exact absurd trivial hdisturbed
  | leaveLoop _ _ _ _ _ hdisturbed =>
    rcases hdisturbed trivial with heq | heq
    · cases heq
      exact absurd rfl hresult.1
    · cases heq
      exact absurd rfl hresult.2
  | leaveReply _ _ _ _ _ hdisturbed => exact absurd trivial hdisturbed
  | leaveReport _ _ _ _ _ hdisturbed => cases hdisturbed trivial

theorem Task.Step.of_readFrame {frame : Frame}
    (h : task.Step shared (.readFrame (.frame frame)) shared' task' events) :
    shared' = shared ∧ task'.phase = .received frame ∧
      events = [.received (task.request + 1) frame] := by
  obtain ⟨hsame, hread⟩ := h.of_read (by simp)
  cases hread
  exact ⟨hsame, rfl, rfl⟩

theorem Task.Step.of_readError {error : ReadError}
    (h : task.Step shared (.readFrame (.error error)) shared' task' events) :
    shared' = shared ∧ task'.phase = .reporting error ∧
      events = [.readFailed error, .attempted (.error error.display)] := by
  obtain ⟨hsame, hread⟩ := h.of_read (by simp)
  cases hread
  exact ⟨hsame, rfl, rfl⟩

theorem Task.Step.of_received {frame : Frame} {taskAction : TaskAction}
    (h : task.Step shared taskAction shared' task' events) (hphase : task.phase = .received frame) :
    shared'.database = shared.database ∧ task'.phase = .counted frame ∧ events = [] := by
  cases h with
  | count _ hreceived =>
    cases hphase.symm.trans hreceived
    exact ⟨rfl, rfl, rfl⟩
  | _ => simp_all

theorem Task.Step.of_counted {frame : Frame} {command : Command} {taskAction : TaskAction}
    (h : task.Step shared taskAction shared' task' events) (hphase : task.phase = .counted frame)
    (hparse : Command.fromFrame frame = .ok command) :
    shared'.database = (command.apply shared.database).2 ∧ applied events = [command] ∧
      (task'.phase = .looked (command.apply shared.database).1 ∧ attempts events = [] ∨
        task'.phase = .replying (command.apply shared.database).1 ∧
          attempts events = [(command.apply shared.database).1]) := by
  cases h with
  | lookUp _ get hcounted hget =>
    cases hphase.symm.trans hcounted
    cases hparse.symm.trans hget
    exact ⟨(Command.apply_get_snd get _).symm, rfl, .inl ⟨rfl, rfl⟩⟩
  | store _ set hcounted hset =>
    cases hphase.symm.trans hcounted
    cases hparse.symm.trans hset
    exact ⟨rfl, rfl, .inr ⟨rfl, rfl⟩⟩
  | reject _ error hcounted herror =>
    cases hphase.symm.trans hcounted
    cases hparse.symm.trans herror
  | _ => simp_all

theorem Task.Step.of_looked {output : Frame} {taskAction : TaskAction}
    (h : task.Step shared taskAction shared' task' events) (hphase : task.phase = .looked output) :
    shared'.database = shared.database ∧ task'.phase = .replying output ∧
      events = [.attempted output] := by
  cases h with
  | countLookup _ hlooked =>
    cases hphase.symm.trans hlooked
    exact ⟨rfl, rfl, rfl⟩
  | _ => simp_all

/-- The handler reads a request. -/
theorem Stage.asking_step
    (hstep : endpoint.Step shared task action shared' task' endpoint' events)
    (hundisturbed : action.Undisturbed) (hclosed : endpoint.closed = false)
    (hsends : requester.phase.Sends call unsent) (hreplies : requester.inbound.Idle)
    (hrequests : endpoint.inbound.Receives call.commandFrame unsent)
    (howed : endpoint.unsent = []) (hready : task.phase.isReady = true) :
    HandlerMove shared answered answered shared' task'.phase endpoint'
      { requester with
        inbound := requester.inbound.deliver (endpoint'.sent.drop endpoint.sent.length) } events := by
  have hend : ∀ readAction : ReadAction, (readAction = .read 0 → endpoint.closed = true) →
      readAction = .read 0 → unsent = [] := by
    intro readAction hzero heq
    rw [hzero heq] at hclosed
    cases hclosed
  cases hstep.of_ready hundisturbed hready (fun _ => howed) with
  | quiet hquiet hready' hsettled' =>
    obtain ⟨hnothing, howed'⟩ := hquiet.owes_nothing howed
    rw [hnothing, Reader.deliver_nil]
    exact .same hquiet.database hquiet.events
      (.asking answered call unsent hsends hreplies (hquiet.requests hrequests) howed' hready')
  | wait readAction howed hfail hzero hread =>
    rw [List.drop_length, Reader.deliver_nil]
    cases hrequests.step call.commandFrame_readable call.depth_commandFrame hfail (hend _ hzero)
      hread with
    | waits hnext =>
      exact .same rfl rfl (.asking answered call unsent hsends hreplies hnext howed hready)
  | returned readAction _ hfail hzero hread htask =>
    rw [List.drop_length, Reader.deliver_nil, howed, List.nil_append]
    cases hrequests.step call.commandFrame_readable call.depth_commandFrame hfail (hend _ hzero)
      hread with
    | complete hreader hunsent hfits =>
      obtain ⟨rfl, hphase, rfl⟩ := htask.of_readFrame
      subst hunsent
      have hattempts : attempts [.received (task.request + 1) call.commandFrame] = [] := rfl
      exact .same rfl rfl (.serving answered call hfits hsends hreplies hreader
        (by simp [hattempts, encodeAll]) (.inl hphase))
    | exceeded hexceeds =>
      obtain ⟨rfl, hphase, rfl⟩ := htask.of_readError
      have hattempts : attempts [.readFailed bufferLimitError,
          .attempted (.error bufferLimitError.display)] =
            [.error bufferLimitError.display] := rfl
      refine .refuses call (Nat.not_le_of_lt hexceeds) rfl ⟨unsent, hsends⟩ rfl rfl (by simp)
        ⟨⟨unsent, hsends⟩, ?_, by rw [hphase]; rfl, ?_⟩
      · rw [hattempts, encodeAll_singleton]
        exact hreplies.receives _
      · rw [hphase]
        intro hwriting
        cases hwriting

/-- The handler serves a request that it has read. -/
theorem Stage.serving_step
    (hstep : endpoint.Step shared task action shared' task' endpoint' events)
    (hundisturbed : action.Undisturbed) (hdatabase : shared.database = Call.stored answered)
    (hfits : call.Fits) (hsends : requester.phase.Sends call []) (hreplies : requester.inbound.Idle)
    (hrequests : endpoint.inbound = ⟨[], [], none⟩) (howed : endpoint.unsent = [])
    (hphase : task.phase = .received call.commandFrame ∨ task.phase = .counted call.commandFrame) :
    HandlerMove shared answered answered shared' task'.phase endpoint'
      { requester with
        inbound := requester.inbound.deliver (endpoint'.sent.drop endpoint.sent.length) } events := by
  have hselecting : task.phase.isSelecting = false := by rcases hphase with h | h <;> rw [h] <;> rfl
  have hwriting : task.phase.isWriting = false := by rcases hphase with h | h <;> rw [h] <;> rfl
  obtain ⟨taskAction, -, htask, rfl⟩ :=
    hstep.of_running hundisturbed hselecting hwriting hrequests
  rw [List.drop_length, Reader.deliver_nil, howed, List.nil_append]
  rcases hphase with hreceived | hcounted
  · obtain ⟨hsame, hphase', rfl⟩ := htask.of_received hreceived
    exact .same hsame rfl
      (.serving answered call hfits hsends hreplies hrequests rfl (.inr hphase'))
  · obtain ⟨hdatabase', happlied, hreply⟩ := htask.of_counted hcounted call.fromFrame_commandFrame
    have hreplyEq : (call.command.apply shared.database).1 = call.reply answered := by
      rw [hdatabase]
      rfl
    rw [hreplyEq] at hreply
    refine .executes call hfits rfl hdatabase' happlied ?_
    rcases hreply with ⟨hphase', hattempts⟩ | ⟨hphase', hattempts⟩
    · rw [hattempts]
      exact .looking answered call hsends hreplies hrequests rfl hphase'
    · rw [hattempts, encodeAll_singleton, hphase']
      refine .answering answered call hsends (hreplies.receives _) ?_ rfl ?_
      · rw [hrequests]
        exact Reader.idle_new
      · intro hwriting'
        cases hwriting'

theorem Stage.looking_step
    (hstep : endpoint.Step shared task action shared' task' endpoint' events)
    (hundisturbed : action.Undisturbed) (hsends : requester.phase.Sends call [])
    (hreplies : requester.inbound.Idle) (hrequests : endpoint.inbound = ⟨[], [], none⟩)
    (howed : endpoint.unsent = []) (hphase : task.phase = .looked (call.reply answered)) :
    HandlerMove shared answered (answered ++ [call]) shared' task'.phase endpoint'
      { requester with
        inbound := requester.inbound.deliver (endpoint'.sent.drop endpoint.sent.length) } events := by
  obtain ⟨taskAction, -, htask, rfl⟩ := hstep.of_running hundisturbed
    (by rw [hphase]; rfl) (by rw [hphase]; rfl) hrequests
  rw [List.drop_length, Reader.deliver_nil, howed, List.nil_append]
  obtain ⟨hsame, hphase', rfl⟩ := htask.of_looked hphase
  have hattempts : attempts [.attempted (call.reply answered)] = [call.reply answered] := rfl
  rw [hattempts, encodeAll_singleton, hphase']
  refine .same hsame rfl (.answering answered call hsends (hreplies.receives _) ?_ rfl ?_)
  · rw [hrequests]
    exact Reader.idle_new
  · intro hwriting
    cases hwriting

/-- A step of the handler goes on with the current call, executes its command, or
refuses its request. -/
theorem Stage.handler (h : Stage task.phase endpoint requester answered executed)
    (hdatabase : shared.database = Call.stored executed) (hclosed : endpoint.closed = false)
    (hundisturbed : action.Undisturbed)
    (hstep : endpoint.Step shared task action shared' task' endpoint' events) :
    HandlerMove shared answered executed shared' task'.phase endpoint'
      { requester with
        inbound := requester.inbound.deliver (endpoint'.sent.drop endpoint.sent.length) } events := by
  cases h with
  | resting hidle hreplies hrequests howed hready =>
    have hmove := hstep.of_ready hundisturbed hready fun _ => howed
    obtain ⟨hquiet, hidle', hready', -⟩ := hmove.of_idle hready (fun _ => howed) hrequests hclosed
    obtain ⟨hnothing, howed'⟩ := hquiet.owes_nothing howed
    rw [hnothing, Reader.deliver_nil]
    exact .same hquiet.database hquiet.events
      (.resting answered hidle hreplies hidle' howed' hready')
  | asking call unsent hsends hreplies hrequests howed hready =>
    exact Stage.asking_step hstep hundisturbed hclosed hsends hreplies hrequests howed hready
  | serving call hfits hsends hreplies hrequests howed hphase =>
    exact Stage.serving_step hstep hundisturbed hdatabase hfits hsends hreplies hrequests howed
      hphase
  | looking call hsends hreplies hrequests howed hphase =>
    exact Stage.looking_step hstep hundisturbed hsends hreplies hrequests howed hphase
  | answering call hsends hreplies hrequests hready hsettled =>
    have hmove := hstep.of_ready hundisturbed hready hsettled
    obtain ⟨hquiet, hidle', hready', hsettled'⟩ := hmove.of_idle hready hsettled hrequests hclosed
    exact .same hquiet.database hquiet.events
      (.answering answered call hsends (hquiet.receives hreplies) hidle' hready' hsettled')

end handler

/-! ### A request that exceeds the limit -/

section refusing

variable {phase : Phase} {shared shared' : Shared} {task task' : Task}
  {endpoint endpoint' : Endpoint} {requester requester' : Requester} {call : Call}

theorem bufferLimit_deliverable : Deliverable (.error bufferLimitError.display) :=
  (sendable_error bufferLimit_text).deliverable

theorem Phase.not_writing_of_hungUp (h : phase.hungUp = true) : phase.isWriting = false := by
  cases phase <;> first | rfl | cases h

/-- The requester goes on with the call, or returns the error. -/
theorem Refusing.client {action : RequesterAction} {bytes : Bytes} {events : List RequesterEvent}
    (h : Refusing phase endpoint requester call)
    (hstep : requester.Step phase.hungUp action requester' bytes events) :
    (events = [] ∧
        Refusing phase { endpoint with inbound := endpoint.inbound.deliver bytes } requester' call) ∨
      events = [.returned call (.error bufferLimitError.display)] := by
  obtain ⟨unsent, hsends⟩ := h.sends
  have hreport := bufferLimit_deliverable
  have hend : ∀ readAction : ReadAction, (readAction = .read 0 → phase.hungUp = true) →
      readAction = .read 0 → endpoint.unsent = [] := fun readAction hzero heq =>
    h.settled (Phase.not_writing_of_hungUp (hzero heq))
  cases hstep.of_sends hsends with
  | write unsent' hsplit hsends' hinbound =>
    refine .inl ⟨rfl, ⟨unsent', hsends'⟩, ?_, h.closing, h.settled⟩
    rw [hinbound]
    exact h.replies
  | wait readAction _ hfail hzero hread =>
    cases h.replies.step hreport.readable hreport.depth_le hfail (hend _ hzero) hread with
    | waits hnext => exact .inl ⟨rfl, ⟨[], .inr ⟨rfl, rfl⟩⟩, hnext, h.closing, h.settled⟩
  | returned readAction _ hfail hzero hread =>
    cases h.replies.step hreport.readable hreport.depth_le hfail (hend _ hzero) hread with
    | complete =>
      refine .inr ?_
      cases call <;> rfl
    | exceeded hexceeds => exact absurd hreport.fits (by omega)

theorem Refusing.handler {action : EndpointAction} {events : List Event}
    (h : Refusing phase endpoint requester call) (hphase : task.phase = phase)
    (hundisturbed : action.Undisturbed)
    (hstep : endpoint.Step shared task action shared' task' endpoint' events) :
    shared'.database = shared.database ∧ applied events = [] ∧
      Refusing task'.phase endpoint'
        { requester with
          inbound := requester.inbound.deliver (endpoint'.sent.drop endpoint.sent.length) } call := by
  subst hphase
  obtain ⟨hquiet, hclosing, hsettled⟩ := hstep.of_closing hundisturbed h.closing h.settled
  exact ⟨hquiet.database, hquiet.events, h.sends, hquiet.receives h.replies, hclosing, hsettled⟩

end refusing

/-! ### The law of a dialogue -/

def RequesterPhase.call? : RequesterPhase → Option Call
  | .idle => none
  | .writing call _ => some call
  | .awaiting call => some call

/-- The commands that are executed, all of which were in requests within the limit. -/
structure Executed (d : Dialogue) (out : List DialogueEvent) (executed : List Call) : Prop where
  fits : ∀ call ∈ executed, call.Fits
  applied : applied (handled out) = executed.map Call.command
  database : d.shared.database = Call.stored executed

/-- The text that answers a request over the limit. -/
def exceededResult : CallResult := .error bufferLimitError.display

/-- Where the calls stand. -/
inductive Talks (d : Dialogue) (out : List DialogueEvent) : Prop
  | talking (answered executed : List Call) (hexecuted : Executed d out executed)
    (hreturns : returns out = Call.answered answered)
    (hstage : Stage d.task.phase d.endpoint d.requester answered executed)
  | refusing (answered : List Call) (call : Call) (hexecuted : Executed d out answered)
    (hreturns : returns out = Call.answered answered) (hexceeds : ¬ call.Fits)
    (hreport : .attempted (.error bufferLimitError.display) ∈ handled out)
    (hstage : Refusing d.task.phase d.endpoint d.requester call)
  /-- The error has been returned; nothing more is executed. -/
  | refused (answered : List Call) (call : Call) (later : List (Call × CallResult))
    (hexecuted : Executed d out answered)
    (hreturns : returns out = Call.answered answered ++ (call, exceededResult) :: later)
    (hexceeds : ¬ call.Fits)
    (hreport : .attempted (.error bufferLimitError.display) ∈ handled out)
    (hclosing : d.task.phase.isClosing = true)
    (hsettled : d.task.phase.isWriting = false → d.endpoint.unsent = [])

/-- What holds in every reachable state of an undisturbed dialogue. -/
structure DialogueLaw (d : Dialogue) (out : List DialogueEvent) : Prop where
  order : calls out = (returns out).map Prod.fst ++ d.requester.phase.call?.toList
  closed : d.endpoint.closed = false
  talks : Talks d out

section law

variable {d d' : Dialogue} {out now : List DialogueEvent} {answered executed : List Call}

theorem Executed.keep (h : Executed d out executed)
    (hdatabase : d'.shared.database = d.shared.database) (happlied : MiniRedis.applied (handled now) = []) :
    Executed d' (out ++ now) executed where
  fits := h.fits
  applied := by
    rw [handled_append, applied_append, happlied, List.append_nil]
    exact h.applied
  database := hdatabase.trans h.database

theorem mem_handled_append {event : Event} (h : event ∈ handled out) :
    event ∈ handled (out ++ now) := by
  rw [handled_append]
  exact List.mem_append_left _ h

/-- A call is outstanding from its beginning to its return. -/
theorem Requester.Step.order {hungUp : Bool} {requester requester' : Requester}
    {action : RequesterAction} {bytes : Bytes} {events : List RequesterEvent}
    (h : Requester.Step hungUp requester action requester' bytes events) :
    requester.phase.call?.toList ++ calls (events.map .client) =
      (returns (events.map .client)).map Prod.fst ++ requester'.phase.call?.toList := by
  cases h with
  | begin call hphase =>
    rw [hphase]
    rfl
  | transmit call unsent n hphase =>
    rw [hphase]
    rfl
  | flush call hphase =>
    rw [hphase]
    rfl
  | wait call _ _ hphase =>
    rw [hphase]
    rfl
  | returned call _ _ hphase =>
    rw [hphase]
    rfl

theorem Talks.client {action : RequesterAction} {requester : Requester} {bytes : Bytes}
    {events : List RequesterEvent} (h : Talks d out)
    (hstep : d.requester.Step d.task.phase.hungUp action requester bytes events) :
    Talks { d with
      endpoint := { d.endpoint with inbound := d.endpoint.inbound.deliver bytes }
      requester } (out ++ events.map .client) := by
  have happlied : applied (handled (events.map .client)) = [] := by
    rw [handled_client]
    rfl
  cases h with
  | talking answered executed hexecuted hreturns hstage =>
    rcases hstage.client hexecuted.fits hstep with ⟨hnone, hstage'⟩ | ⟨call, hcall, rfl, hstage'⟩
    · refine .talking answered executed (hexecuted.keep rfl happlied) ?_ hstage'
      rw [returns_append, hnone, List.append_nil, hreturns]
    · refine .talking executed executed (hexecuted.keep rfl happlied) ?_ hstage'
      rw [returns_append, hreturns, hcall, Call.answered_concat]
      rfl
  | refusing answered call hexecuted hreturns hexceeds hreport hstage =>
    rcases hstage.client hstep with ⟨rfl, hstage'⟩ | rfl
    · refine .refusing answered call (hexecuted.keep rfl happlied) ?_ hexceeds
        (mem_handled_append hreport) hstage'
      rw [returns_append, hreturns]
      exact List.append_nil _
    · refine .refused answered call [] (hexecuted.keep rfl happlied) ?_ hexceeds
        (mem_handled_append hreport) hstage.closing hstage.settled
      rw [returns_append, hreturns]
      rfl
  | refused answered call later hexecuted hreturns hexceeds hreport hclosing hsettled =>
    refine .refused answered call (later ++ returns (events.map .client))
      (hexecuted.keep rfl happlied) ?_ hexceeds (mem_handled_append hreport)
      hclosing hsettled
    rw [returns_append, hreturns, List.append_assoc, List.cons_append]

theorem Talks.handler {action : EndpointAction} {shared : Shared} {task : Task}
    {endpoint : Endpoint} {events : List Event} (h : Talks d out)
    (hclosed : d.endpoint.closed = false) (hundisturbed : action.Undisturbed)
    (hstep : d.endpoint.Step d.shared d.task action shared task endpoint events) :
    Talks ⟨shared, task, endpoint, { d.requester with
      inbound := d.requester.inbound.deliver (endpoint.sent.drop d.endpoint.sent.length) }⟩
      (out ++ events.map .handler) := by
  have hreturns' : returns (out ++ events.map .handler) = returns out := by simp
  have happlied : applied events = [] → applied (handled (events.map .handler)) = [] := by
    rw [handled_handler]
    exact id
  cases h with
  | talking answered executed hexecuted hreturns hstage =>
    cases hstage.handler hexecuted.database hclosed hundisturbed hstep with
    | same hdatabase hevents hstage' =>
      exact .talking answered executed (hexecuted.keep hdatabase (happlied hevents))
        (hreturns'.trans hreturns) hstage'
    | executes call hfits hsame hdatabase hevents hstage' =>
      subst hsame
      refine .talking executed (executed ++ [call]) ⟨?_, ?_, ?_⟩ (hreturns'.trans hreturns) hstage'
      · intro c hc
        rcases List.mem_append.mp hc with hc | hc
        · exact hexecuted.fits c hc
        · rw [List.mem_singleton.mp hc]
          exact hfits
      · rw [handled_append, applied_append, handled_handler, hevents, hexecuted.applied,
          List.map_append]
        rfl
      · rw [Call.stored_concat, ← hexecuted.database]
        exact hdatabase
    | refuses call hexceeds hsame _ hdatabase hevents hreport hstage' =>
      subst hsame
      refine .refusing executed call (hexecuted.keep hdatabase (happlied hevents))
        (hreturns'.trans hreturns) hexceeds ?_ hstage'
      rw [handled_append, handled_handler]
      exact List.mem_append_right _ hreport
  | refusing answered call hexecuted hreturns hexceeds hreport hstage =>
    obtain ⟨hdatabase, hevents, hstage'⟩ := hstage.handler rfl hundisturbed hstep
    exact .refusing answered call (hexecuted.keep hdatabase (happlied hevents))
      (hreturns'.trans hreturns) hexceeds (mem_handled_append hreport) hstage'
  | refused answered call later hexecuted hreturns hexceeds hreport hclosing hsettled =>
    obtain ⟨hquiet, hclosing', hsettled'⟩ := hstep.of_closing hundisturbed hclosing hsettled
    exact .refused answered call later (hexecuted.keep hquiet.database (happlied hquiet.events))
      (hreturns'.trans hreturns) hexceeds (mem_handled_append hreport) hclosing' hsettled'

theorem DialogueLaw.step {action : DialogueAction} (h : DialogueLaw d out)
    (hundisturbed : action.Undisturbed) (hstep : dialogue.step action d = some (d', now)) :
    DialogueLaw d' (out ++ now) := by
  cases Dialogue.step_cases hundisturbed hstep with
  | client action hclient =>
    refine ⟨?_, h.closed, h.talks.client hclient⟩
    rw [calls_append, h.order, List.append_assoc, hclient.order, returns_append, List.map_append,
      List.append_assoc]
  | handler action hundisturbed hhandler =>
    refine ⟨?_, hhandler.closed_eq.trans h.closed, h.talks.handler h.closed hundisturbed hhandler⟩
    rw [calls_append, calls_handler, List.append_nil, returns_append, returns_handler,
      List.append_nil]
    exact h.order
  | others change =>
    rw [List.append_nil]
    refine ⟨h.order, h.closed, ?_⟩
    cases h.talks with
    | talking answered executed hexecuted hreturns hstage =>
      exact .talking answered executed ⟨hexecuted.fits, hexecuted.applied, hexecuted.database⟩
        hreturns hstage
    | refusing answered call hexecuted hreturns hexceeds hreport hstage =>
      exact .refusing answered call ⟨hexecuted.fits, hexecuted.applied, hexecuted.database⟩
        hreturns hexceeds hreport hstage
    | refused answered call later hexecuted hreturns hexceeds hreport hclosing hsettled =>
      exact .refused answered call later
        ⟨hexecuted.fits, hexecuted.applied, hexecuted.database⟩ hreturns hexceeds hreport hclosing
        hsettled

theorem DialogueLaw.new (shared : Shared) (shutdownRx : ℕ) :
    DialogueLaw (.new shared shutdownRx) [] where
  order := rfl
  closed := rfl
  talks := .talking [] [] ⟨by simp, rfl, rfl⟩ rfl
    (.resting [] rfl rfl Reader.idle_new rfl rfl)

theorem DialogueLaw.run {actions : List DialogueAction} (h : DialogueLaw d out)
    (hundisturbed : ∀ action ∈ actions, action.Undisturbed)
    (hrun : dialogue.run actions d = some (d', now)) : DialogueLaw d' (out ++ now) :=
  dialogue.run_invariant_of_meets (C := fun action _ => action.Undisturbed)
    (fun _ _ _ _ _ hlaw haction hstep => hlaw.step haction hstep) h
    (dialogue.meets_of_forall (fun action hmem _ => hundisturbed action hmem) d) hrun

end law
end MiniRedis
