import MiniRedis.Stages

/-!
# The calls of a requester are a map

From the stages follow the results of all calls, and what the handler executes. A
rank over both ends shows that every call can be completed from every reachable
state, for every sequence of calls.
-/
namespace MiniRedis

open Library

/-! ### Progress -/

/-- When all of the encoding is in flight, the reader can be called or can read on. -/
theorem Reader.Receives.exists_step {s : Reader} {frame : Frame} (h : s.Receives frame [])
    (hreadable : Readable frame) (hdepth : frame.depth ≤ maxArrayDepth) :
    ∃ action next results, (action = .call ∨ ∃ n, n ≠ 0 ∧ action = .read n) ∧
      Reader.step action s = some (next, results) ∧ Advances frame [] next results ∧
      (results = [] → next.rank < s.rank) := by
  have hrank : ∀ action outcome, action ≠ .cancel → Reader.step action s = some outcome →
      outcome.2 = [] → outcome.1.rank < s.rank := by
    rintro action ⟨next, results⟩ hcancel hstep rfl
    exact rank_lt hcancel hstep
  obtain ⟨stream, buffer, reading⟩ := s
  cases reading with
  | none =>
    have hstep : Reader.step .call ⟨stream, buffer, none⟩ =
        some (settle stream (turn buffer)) := rfl
    have hadvances := h.step hreadable hdepth (by simp) (by simp) hstep
    exact ⟨.call, _, _, .inl rfl, hstep, hadvances, hrank _ _ (by simp) hstep⟩
  | some bytesLeft =>
    obtain ⟨hincomplete, hlt, hleft⟩ := h.waits bytesLeft rfl
    simp only at hincomplete hlt hleft
    have hstream : stream ≠ [] := by
      rintro rfl
      have hwhole : buffer = encode frame := by simpa using h.split
      rw [hwhole, frameDecoder_whole hreadable hdepth] at hincomplete
      cases hincomplete
    have hpos := List.length_pos_of_ne_nil hstream
    have hn : min bytesLeft stream.length ≠ 0 := by omega
    have hguard : min bytesLeft stream.length ≤ bytesLeft ∧
        min bytesLeft stream.length ≤ stream.length ∧
        (min bytesLeft stream.length = 0 → stream = []) :=
      ⟨Nat.min_le_left _ _, Nat.min_le_right _ _, fun hzero => absurd hzero hn⟩
    have hstep : Reader.step (.read (min bytesLeft stream.length)) ⟨stream, buffer, some bytesLeft⟩ =
        some (settle (stream.drop (min bytesLeft stream.length))
          (received buffer (stream.take (min bytesLeft stream.length)))) := by
      simp only [Reader.step, if_pos hguard]
    have hadvances := h.step hreadable hdepth (by simp) (by simp) hstep
    exact ⟨.read (min bytesLeft stream.length), _, _, .inr ⟨_, hn, rfl⟩, hstep, hadvances,
      hrank _ _ (by simp) hstep⟩

/-- How far the requester is in its call. -/
def RequesterPhase.rank : RequesterPhase → ℕ
  | .idle => 0
  | .awaiting _ => 1
  | .writing _ [] => 2
  | .writing _ (_ :: _) => 3

/-- How far the handler is from the reply, when these bytes of the request have reached it. -/
def Phase.rank (phase : Phase) (request : Bytes) : ℕ :=
  if phase.isReady = true ∧ request = [] then 0
  else
    match phase with
    | .spawned => 9
    | .constructed => 8
    | .replying _ => 8
    | .replied => 7
    | .selecting => 6
    | .received _ => 5
    | .counted _ => 4
    | .looked _ => 3
    | _ => 0

theorem Phase.rank_lt (phase : Phase) (request : Bytes) : phase.rank request < 10 := by
  unfold rank
  split
  · omega
  · cases phase <;> simp

/-- Whatever a read returns, the handler does not wait for this request any more. -/
theorem Task.rank_interpretRead_lt (task : Task) (result : ReadResult) (request : Bytes) :
    (task.interpretRead result).1.phase.rank request < 6 := by
  cases result <;> simp [interpretRead, Phase.rank, Phase.isReady]

theorem Endpoint.settle_returned {task : Task} (shared : Shared) (endpoint : Endpoint)
    (hphase : task.phase = .selecting) (next : Reader) (result : ReadResult) :
    settle shared task endpoint (some (next, [result])) =
      some (shared, (task.interpretRead result).1, { endpoint with
        inbound := next
        unsent := endpoint.unsent ++ encodeAll (attempts (task.interpretRead result).2) },
        (task.interpretRead result).2) := by
  simp only [settle, perform, Task.step, hphase]

namespace Dialogue

/-- Both ends: who has to act, and the bytes left for them. -/
def rank (d : Dialogue) : ℕ ×ₗ ℕ :=
  toLex (10 * d.requester.phase.rank +
      d.task.phase.rank (d.endpoint.inbound.buffer ++ d.endpoint.inbound.stream),
    2 * d.endpoint.unsent.length + d.endpoint.inbound.rank + d.requester.inbound.rank)

theorem rank_lt_of_left {d d' : Dialogue}
    (h : 10 * d.requester.phase.rank +
        d.task.phase.rank (d.endpoint.inbound.buffer ++ d.endpoint.inbound.stream) <
      10 * d'.requester.phase.rank +
        d'.task.phase.rank (d'.endpoint.inbound.buffer ++ d'.endpoint.inbound.stream)) :
    d.rank < d'.rank :=
  Prod.Lex.toLex_lt_toLex.mpr (.inl h)

theorem rank_lt_of_right {d d' : Dialogue}
    (heq : 10 * d.requester.phase.rank +
        d.task.phase.rank (d.endpoint.inbound.buffer ++ d.endpoint.inbound.stream) =
      10 * d'.requester.phase.rank +
        d'.task.phase.rank (d'.endpoint.inbound.buffer ++ d'.endpoint.inbound.stream))
    (h : 2 * d.endpoint.unsent.length + d.endpoint.inbound.rank + d.requester.inbound.rank <
      2 * d'.endpoint.unsent.length + d'.endpoint.inbound.rank + d'.requester.inbound.rank) :
    d.rank < d'.rank :=
  Prod.Lex.toLex_lt_toLex.mpr (.inr ⟨heq, h⟩)

end Dialogue

/-- Undisturbed, and no new call. -/
def DialogueAction.Continues (action : DialogueAction) : Prop :=
  action.Undisturbed ∧ ∀ call, action ≠ .client (.begin call)

/-- Some step goes on with the current call. -/
def Dialogue.CanAdvance (d : Dialogue) : Prop :=
  ∃ action d' now, DialogueAction.Continues action ∧ dialogue.step action d = some (d', now) ∧
    d'.rank < d.rank

namespace Dialogue

variable {d : Dialogue}

theorem step_client {action : RequesterAction} {requester : Requester} {bytes : Bytes}
    {events : List RequesterEvent} (hclosed : d.endpoint.closed = false)
    (h : d.requester.step d.task.phase.hungUp action = some (requester, bytes, events)) :
    dialogue.step (.client action) d =
      some ({ d with
        endpoint := { d.endpoint with inbound := d.endpoint.inbound.deliver bytes }
        requester }, events.map .client) := by
  simp only [dialogue, step, h, Endpoint.peerStep, hclosed, if_neg Bool.false_ne_true]
  rfl

theorem step_handler {action : EndpointAction} {shared : Shared} {task : Task}
    {endpoint : Endpoint} {events : List Event}
    (h : d.endpoint.step d.shared d.task action = some (shared, task, endpoint, events)) :
    dialogue.step (.handler action) d =
      some (⟨shared, task, endpoint, { d.requester with
        inbound := d.requester.inbound.deliver (endpoint.sent.drop d.endpoint.sent.length) }⟩,
        events.map .handler) := by
  simp only [dialogue, step, h]

/-- The requester writes the rest of its request, and then waits for the reply. -/
theorem canAdvance_writing {call : Call} {unsent : Bytes} (hclosed : d.endpoint.closed = false)
    (hphase : d.requester.phase = .writing call unsent) : d.CanAdvance := by
  cases unsent with
  | nil =>
    have hstep : d.requester.step d.task.phase.hungUp .flush =
        some ({ d.requester with phase := .awaiting call }, [], []) := by
      simp only [Requester.step, hphase]
    refine ⟨.client .flush, _, _, ⟨trivial, by simp⟩, step_client hclosed hstep,
      rank_lt_of_left ?_⟩
    have hlt := Phase.rank_lt d.task.phase
      ((d.endpoint.inbound.deliver []).buffer ++ (d.endpoint.inbound.deliver []).stream)
    simp only [hphase, RequesterPhase.rank]
    omega
  | cons byte unsent =>
    have hstep : d.requester.step d.task.phase.hungUp (.transmit (byte :: unsent).length) =
        some ({ d.requester with phase := .writing call [] }, byte :: unsent, []) := by
      simp only [Requester.step, hphase, Nat.le_refl, if_true, List.drop_length, List.take_length]
    refine ⟨.client (.transmit (byte :: unsent).length), _, _, ⟨trivial, by simp⟩,
      step_client hclosed hstep, rank_lt_of_left ?_⟩
    have hlt := Phase.rank_lt d.task.phase
      ((d.endpoint.inbound.deliver (byte :: unsent)).buffer ++
        (d.endpoint.inbound.deliver (byte :: unsent)).stream)
    simp only [hphase, RequesterPhase.rank]
    omega

/-- The requester reads a reply that is in flight. -/
theorem canAdvance_reply {call : Call} {frame : Frame} (hclosed : d.endpoint.closed = false)
    (hphase : d.requester.phase = .awaiting call) (hreplies : d.requester.inbound.Receives frame [])
    (hreadable : Readable frame) (hdepth : frame.depth ≤ maxArrayDepth) : d.CanAdvance := by
  obtain ⟨readAction, next, results, haction, hread, hadvances, hrank⟩ :=
    hreplies.exists_step hreadable hdepth
  obtain ⟨action, hundisturbed, hstep⟩ : ∃ action, Requester.Undisturbed action ∧
      (∀ call, action ≠ .begin call) ∧ d.requester.step d.task.phase.hungUp action =
        Requester.settle call (some (next, results)) := by
    rcases haction with rfl | ⟨n, hn, rfl⟩
    · exact ⟨.poll, trivial, by simp, by simp only [Requester.step, hphase, hread]⟩
    · exact ⟨.read n, trivial, by simp, by simp [Requester.step, hphase, hread, hn]⟩
  obtain ⟨hbegin, hstep⟩ := hstep
  have hcontinues : DialogueAction.Continues (.client action) := by
    refine ⟨hundisturbed, ?_⟩
    rintro call heq
    cases heq
    exact hbegin call rfl
  cases hadvances with
  | waits =>
    refine ⟨.client action, _, _, hcontinues, step_client hclosed hstep, rank_lt_of_right ?_ ?_⟩
    · simp only [hphase, Reader.deliver_nil, RequesterPhase.rank]
    · have hlt := hrank rfl
      simp only [Reader.deliver_nil]
      omega
  | complete =>
    refine ⟨.client action, _, _, hcontinues, step_client hclosed hstep, rank_lt_of_left ?_⟩
    simp only [hphase, Reader.deliver_nil, RequesterPhase.rank]
    omega
  | exceeded =>
    refine ⟨.client action, _, _, hcontinues, step_client hclosed hstep, rank_lt_of_left ?_⟩
    simp only [hphase, Reader.deliver_nil, RequesterPhase.rank]
    omega

/-- The handler hands over what it owes. -/
theorem canAdvance_send (hphase : d.task.phase.isWriting = true) (howed : d.endpoint.unsent ≠ []) :
    d.CanAdvance := by
  have hpos := List.length_pos_of_ne_nil howed
  have hstep : d.endpoint.step d.shared d.task (.send d.endpoint.unsent.length) =
      some (d.shared, d.task, { d.endpoint with
        sent := d.endpoint.sent ++ d.endpoint.unsent, unsent := [] }, []) := by
    simp only [Endpoint.step, hphase, Nat.le_refl, and_self, if_true, List.take_length,
      List.drop_length]
  refine ⟨.handler (.send d.endpoint.unsent.length), _, _, ⟨trivial, by simp⟩, step_handler hstep,
    rank_lt_of_right rfl ?_⟩
  simp only [List.drop_left, Reader.rank, Reader.deliver, List.length_append, List.length_nil]
  omega

/-- The task takes a step of its own. -/
theorem canAdvance_task {action : TaskAction} {shared : Shared} {task : Task} {events : List Event}
    (hstep : d.task.step d.shared action = some (shared, task, events))
    (hundisturbed : action.Undisturbed) (hread : ∀ result, action ≠ .readFrame result)
    (hwrite : action = .writeOk → d.endpoint.unsent = [])
    (hrank : task.phase.rank (d.endpoint.inbound.buffer ++ d.endpoint.inbound.stream) <
      d.task.phase.rank (d.endpoint.inbound.buffer ++ d.endpoint.inbound.stream)) :
    d.CanAdvance := by
  obtain ⟨next, hbuffer, hstream, hendpoint⟩ : ∃ next : Reader,
      next.buffer = d.endpoint.inbound.buffer ∧ next.stream = d.endpoint.inbound.stream ∧
      d.endpoint.step d.shared d.task (.task action) = some (shared, task,
        { d.endpoint with
          inbound := next
          unsent := d.endpoint.unsent ++ encodeAll (attempts events) }, events) := by
    cases action with
    | readFrame result => exact absurd rfl (hread result)
    | writeOk =>
      refine ⟨d.endpoint.inbound, rfl, rfl, ?_⟩
      simp only [Endpoint.step, if_pos (hwrite rfl), Endpoint.perform, hstep]
    | _ =>
      refine ⟨{ d.endpoint.inbound with reading := none }, rfl, rfl, ?_⟩
      simp only [Endpoint.step, Endpoint.perform, hstep]
  refine ⟨.handler (.task action), _, _, ⟨hundisturbed, by simp⟩, step_handler hendpoint,
    rank_lt_of_left ?_⟩
  simp only [hbuffer, hstream]
  omega

/-- The handler reads a request that is in flight. -/
theorem canAdvance_request {frame : Frame} (hphase : d.task.phase = .selecting)
    (hrequests : d.endpoint.inbound.Receives frame []) (hreadable : Readable frame)
    (hdepth : frame.depth ≤ maxArrayDepth) : d.CanAdvance := by
  obtain ⟨readAction, next, results, haction, hread, hadvances, hrank⟩ :=
    hrequests.exists_step hreadable hdepth
  have hselecting : d.task.phase.isSelecting = true := by rw [hphase]; rfl
  obtain ⟨action, hundisturbed, hstep⟩ : ∃ action : EndpointAction, action.Undisturbed ∧
      d.endpoint.step d.shared d.task action =
        Endpoint.settle d.shared d.task d.endpoint (some (next, results)) := by
    rcases haction with rfl | ⟨n, hn, rfl⟩
    · exact ⟨.poll, trivial, by simp only [Endpoint.step, hselecting, if_true, hread]⟩
    · exact ⟨.read n, trivial, by simp [Endpoint.step, hselecting, hread, hn]⟩
  have hrequest : d.endpoint.inbound.buffer ++ d.endpoint.inbound.stream = encode frame := by
    simpa using hrequests.split
  have hbefore : d.task.phase.rank
      (d.endpoint.inbound.buffer ++ d.endpoint.inbound.stream) = 6 := by
    rw [hrequest, hphase]
    simp [Phase.rank, encode_ne_nil]
  cases hadvances with
  | waits hnext =>
    have hrequest' : next.buffer ++ next.stream = encode frame := by simpa using hnext.split
    refine ⟨.handler action, _, _, ⟨hundisturbed, by simp⟩, step_handler hstep,
      rank_lt_of_right ?_ ?_⟩
    · simp only [hrequest, hrequest']
    · have hlt := hrank rfl
      simp only [List.drop_length, Reader.deliver_nil]
      omega
  | complete =>
    have hperform := Endpoint.settle_returned d.shared d.endpoint hphase next (.frame frame)
    refine ⟨.handler action, _, _, ⟨hundisturbed, by simp⟩, step_handler (hstep.trans hperform),
      rank_lt_of_left ?_⟩
    have hafter := Task.rank_interpretRead_lt d.task (.frame frame) (next.buffer ++ next.stream)
    rw [hbefore]
    exact Nat.add_lt_add_left hafter _
  | exceeded =>
    have hperform := Endpoint.settle_returned d.shared d.endpoint hphase next
      (.error bufferLimitError)
    refine ⟨.handler action, _, _, ⟨hundisturbed, by simp⟩, step_handler (hstep.trans hperform),
      rank_lt_of_left ?_⟩
    have hafter := Task.rank_interpretRead_lt d.task (.error bufferLimitError)
      (next.buffer ++ next.stream)
    rw [hbefore]
    exact Nat.add_lt_add_left hafter _

end Dialogue

section progress

variable {d d' : Dialogue} {out now : List DialogueEvent}

/-- An asked handler gets to the read of the request, and reads it. -/
theorem Dialogue.canAdvance_asked {frame : Frame} (hready : d.task.phase.isReady = true)
    (howed : d.endpoint.unsent = []) (hrequests : d.endpoint.inbound.Receives frame [])
    (hreadable : Readable frame) (hdepth : frame.depth ≤ maxArrayDepth) : d.CanAdvance := by
  have hrequest : d.endpoint.inbound.buffer ++ d.endpoint.inbound.stream ≠ [] := by
    have hsplit : d.endpoint.inbound.buffer ++ d.endpoint.inbound.stream = encode frame := by
      simpa using hrequests.split
    rw [hsplit]
    exact encode_ne_nil frame
  cases hphase : d.task.phase with
  | spawned =>
    have hstep : d.task.step d.shared (.start true) =
        some (d.shared, d.task.goto .constructed, []) := by
      simp only [Task.step, hphase]
    exact canAdvance_task hstep rfl (by simp) (by simp) (by simp [hphase, Phase.rank, hrequest])
  | constructed =>
    have hstep : d.task.step d.shared .enter =
        some ({ d.shared with metrics := d.shared.metrics.incActiveConnections },
          d.task.goto .selecting, []) := by
      simp only [Task.step, hphase]
    exact canAdvance_task hstep trivial (by simp) (by simp) (by simp [hphase, Phase.rank, hrequest])
  | selecting => exact canAdvance_request hphase hrequests hreadable hdepth
  | replying output =>
    have hstep : d.task.step d.shared .writeOk =
        some (d.shared, d.task.goto .replied, [.written d.task.request output]) := by
      simp only [Task.step, hphase]
    exact canAdvance_task hstep trivial (by simp) (fun _ => howed)
      (by simp [hphase, Phase.rank, hrequest])
  | replied =>
    have hstep : d.task.step d.shared .countResponse =
        some ({ d.shared with metrics := d.shared.metrics.incCommandResponsesWritten },
          d.task.goto .selecting, []) := by
      simp only [Task.step, hphase]
    exact canAdvance_task hstep trivial (by simp) (by simp) (by simp [hphase, Phase.rank, hrequest])
  | _ => simp [hphase, Phase.isReady] at hready

/-- A handler that has read a request executes it. -/
theorem Dialogue.canAdvance_serving {call : Call} (hrequests : d.endpoint.inbound = ⟨[], [], none⟩)
    (hphase : d.task.phase = .received call.commandFrame ∨
      d.task.phase = .counted call.commandFrame) : d.CanAdvance := by
  rcases hphase with hreceived | hcounted
  · have hstep : d.task.step d.shared .count =
        some ({ d.shared with metrics := d.shared.metrics.incRequestsReceived },
          d.task.goto (.counted call.commandFrame), []) := by
      simp only [Task.step, hreceived]
    exact canAdvance_task hstep trivial (by simp) (by simp)
      (by simp [hreceived, Phase.rank, Phase.isReady])
  · rcases hexecute : d.task.execute d.shared call.commandFrame with ⟨shared, task, events⟩
    have hstep : d.task.step d.shared .execute = some (shared, task, events) := by
      simp only [Task.step, hcounted, hexecute]
    obtain ⟨-, -, hphase'⟩ :=
      (Task.step_cases hstep).of_counted hcounted call.fromFrame_commandFrame
    refine canAdvance_task hstep trivial (by simp) (by simp) ?_
    rcases hphase' with ⟨hlooked, -⟩ | ⟨hreplying, -⟩
    · simp [hlooked, hcounted, Phase.rank, Phase.isReady]
    · simp [hreplying, hcounted, hrequests, Phase.rank, Phase.isReady]

theorem Dialogue.canAdvance_looking {output : Frame}
    (hrequests : d.endpoint.inbound = ⟨[], [], none⟩) (hphase : d.task.phase = .looked output) :
    d.CanAdvance := by
  have hstep : d.task.step d.shared .countLookup =
      some ({ d.shared with metrics := Task.countLookup d.shared.metrics output },
        d.task.goto (.replying output), [.attempted output]) := by
    simp only [Task.step, hphase]
  exact canAdvance_task hstep trivial (by simp) (by simp)
    (by simp [hphase, hrequests, Phase.rank, Phase.isReady])

/-- The rest of a reply is handed over, or read. -/
theorem Dialogue.canAdvance_answering {call : Call} {frame : Frame}
    (hclosed : d.endpoint.closed = false) (hphase : d.requester.phase = .awaiting call)
    (hreplies : d.requester.inbound.Receives frame d.endpoint.unsent) (hframe : Deliverable frame)
    (hsettled : d.task.phase.isWriting = false → d.endpoint.unsent = []) : d.CanAdvance := by
  by_cases howed : d.endpoint.unsent = []
  · rw [howed] at hreplies
    exact canAdvance_reply hclosed hphase hreplies hframe.readable hframe.depth_le
  · have hwriting : d.task.phase.isWriting = true := by
      by_contra hnot
      exact howed (hsettled (by simpa using hnot))
    exact canAdvance_send hwriting howed

/-- While only the last call may exceed the limit, an outstanding call goes on. -/
theorem DialogueLaw.progress (h : DialogueLaw d out)
    (hfits : ∀ call ∈ (calls out).dropLast, call.Fits) :
    d.requester.phase = .idle ∨ d.CanAdvance := by
  cases hphase : d.requester.phase with
  | idle => exact .inl rfl
  | writing call unsent => exact .inr (Dialogue.canAdvance_writing h.closed hphase)
  | awaiting call =>
    refine .inr ?_
    cases h.talks with
    | talking answered executed hexecuted hreturns hstage =>
      cases hstage with
      | resting hidle => cases hphase.symm.trans hidle
      | asking call' unsent hsends hreplies hrequests howed hready =>
        obtain rfl : unsent = [] := by
          rcases hsends with hwriting | ⟨hunsent, -⟩
          · cases hphase.symm.trans hwriting
          · exact hunsent
        exact Dialogue.canAdvance_asked hready howed hrequests call'.commandFrame_readable
          call'.depth_commandFrame
      | serving _ _ _ _ hrequests _ htask => exact Dialogue.canAdvance_serving hrequests htask
      | looking _ _ _ hrequests _ htask => exact Dialogue.canAdvance_looking hrequests htask
      | answering call' hsends hreplies hrequests hready hsettled =>
        have hreply := Call.reply_sendable
          (fun c hc => hexecuted.fits c (List.mem_append_left _ hc)) call'
        exact Dialogue.canAdvance_answering h.closed hphase hreplies hreply.deliverable hsettled
    | refusing answered call' hexecuted hreturns hexceeds hreport hstage =>
      exact Dialogue.canAdvance_answering h.closed hphase hstage.replies bufferLimit_deliverable
        hstage.settled
    | refused answered call' later hexecuted hreturns hexceeds =>
      have hmem : call' ∈ (calls out).dropLast := by
        have horder : calls out =
            (answered ++ call' :: later.map Prod.fst) ++ [call] := by
          rw [h.order, hphase, hreturns, List.map_append, Call.map_fst_answered]
          rfl
        rw [horder, List.dropLast_concat]
        simp
      exact absurd (hfits call' hmem) hexceeds

end progress

/-! ### The calls are a map -/

section completes

variable {d : Dialogue} {out : List DialogueEvent}

theorem Dialogue.calls_continues {d' : Dialogue} {now : List DialogueEvent}
    {action : DialogueAction} (hcontinues : action.Continues)
    (hstep : dialogue.step action d = some (d', now)) : calls now = [] := by
  cases Dialogue.step_cases hcontinues.1 hstep with
  | client action hclient =>
    cases hclient with
    | begin call => exact absurd rfl (hcontinues.2 call)
    | _ => rfl
  | handler action _ _ => exact calls_handler _
  | others change => rfl

/-- The outstanding call can be completed. -/
theorem DialogueLaw.completes_call (h : DialogueLaw d out)
    (hfits : ∀ call ∈ (calls out).dropLast, call.Fits) :
    ∃ more t later, (∀ action ∈ more, DialogueAction.Continues action) ∧
      dialogue.run more d = some (t, later) ∧
      (DialogueLaw t (out ++ later) ∧ calls (out ++ later) = calls out) ∧
      t.requester.phase = .idle := by
  have hlaw : ∀ t events, DialogueLaw t events ∧ calls events = calls out →
      t.requester.phase = .idle ∨ ∃ action t' now, DialogueAction.Continues action ∧
        dialogue.step action t = some (t', now) ∧
        (DialogueLaw t' (events ++ now) ∧ calls (events ++ now) = calls out) ∧
        t'.rank < t.rank := by
    rintro t events ⟨ht, hcalls⟩
    rcases ht.progress (by rwa [hcalls]) with hidle | ⟨action, t', now, hcontinues, hstep, hrank⟩
    · exact .inl hidle
    · refine .inr ⟨action, t', now, hcontinues, hstep, ⟨ht.step hcontinues.1 hstep, ?_⟩, hrank⟩
      rw [calls_append, Dialogue.calls_continues hcontinues hstep, List.append_nil, hcalls]
  exact dialogue.exists_run Dialogue.rank hlaw ⟨h, rfl⟩

/-- An idle requester can begin any call. -/
theorem Dialogue.step_begin (hclosed : d.endpoint.closed = false)
    (hidle : d.requester.phase = .idle) (call : Call) :
    ∃ t, dialogue.step (.client (.begin call)) d = some (t, [.client (.called call)]) := by
  have hbegin : d.requester.step d.task.phase.hungUp (.begin call) =
      some ({ d.requester with phase := .writing call (encode call.commandFrame) }, [],
        [.called call]) := by
    simp only [Requester.step, hidle]
  exact ⟨_, Dialogue.step_client hclosed hbegin⟩

/-- All calls of a sequence can be completed, when only the last one may exceed the limit. -/
theorem DialogueLaw.completes (sequence : List Call) (h : DialogueLaw d out)
    (hfits : ∀ call ∈ (calls out ++ sequence).dropLast, call.Fits) :
    ∃ more t later, (∀ action ∈ more, DialogueAction.Undisturbed action) ∧
      dialogue.run more d = some (t, later) ∧ calls (out ++ later) = calls out ++ sequence ∧
      (returns (out ++ later)).map Prod.fst = calls out ++ sequence := by
  induction sequence generalizing d out with
  | nil =>
    rw [List.append_nil] at hfits ⊢
    obtain ⟨more, t, later, hmore, hrun, ⟨ht, hcalls⟩, hidle⟩ := h.completes_call hfits
    have horder := ht.order
    rw [hidle, hcalls] at horder
    refine ⟨more, t, later, fun action hmem => (hmore action hmem).1, hrun, hcalls, ?_⟩
    simpa [RequesterPhase.call?] using horder.symm
  | cons call sequence ih =>
    have hsplit : (calls out ++ call :: sequence).dropLast =
        calls out ++ (call :: sequence).dropLast :=
      List.dropLast_append_of_ne_nil (List.cons_ne_nil call sequence)
    have hbefore : ∀ c ∈ (calls out).dropLast, c.Fits := by
      intro c hc
      refine hfits c ?_
      rw [hsplit]
      exact List.mem_append_left _ (List.dropLast_subset _ hc)
    obtain ⟨first, t, events, hfirst, hrun, ⟨ht, hcalls⟩, hidle⟩ := h.completes_call hbefore
    obtain ⟨u, hbegin⟩ := Dialogue.step_begin ht.closed hidle call
    have hu := ht.step (show DialogueAction.Undisturbed (.client (.begin call)) from trivial) hbegin
    have hnext : calls (out ++ events ++ [.client (.called call)]) ++ sequence =
        calls out ++ call :: sequence := by
      rw [calls_append, hcalls, List.append_assoc]
      rfl
    obtain ⟨more, v, later, hmore, hrun', hall, hreturned⟩ := ih hu (by rwa [hnext])
    have hout : out ++ events ++ [.client (.called call)] ++ later =
        out ++ (events ++ .client (.called call) :: later) := by simp
    rw [hout, hnext] at hall hreturned
    refine ⟨first ++ .client (.begin call) :: more, v, events ++ .client (.called call) :: later,
      ?_, ?_, hall, hreturned⟩
    · intro action hmem
      rcases List.mem_append.mp hmem with hmem | hmem
      · exact (hfirst action hmem).1
      · rcases List.mem_cons.mp hmem with rfl | hmem
        · exact trivial
        · exact hmore action hmem
    · exact dialogue.run_append.mpr ⟨t, events, .client (.called call) :: later, hrun,
        dialogue.run_cons_eq_some.mpr ⟨u, _, later, hbegin, hrun', rfl⟩, rfl⟩

end completes

/-- What the client and the handler observe, while nothing disturbs them. -/
structure BehavesAsMap (out : List DialogueEvent) : Prop where
  /-- The calls return in their order. -/
  inOrder : (returns out).map Prod.fst <+: calls out
  /-- A SET within the limit, after others within it, returns `Ok(())`. -/
  set : ∀ pre post key value hkey hvalue result,
    returns out = pre ++ (.set key value hkey hvalue, result) :: post →
    (∀ entry ∈ pre, entry.1.Fits) → (Call.set key value hkey hvalue).Fits → result = .done
  /-- A GET returns the last value set to exactly its key, or none. -/
  get : ∀ pre post key hkey result, returns out = pre ++ (.get key hkey, result) :: post →
    (∀ entry ∈ pre, entry.1.Fits) → (Call.get key hkey).Fits →
    result = .value (lastSet key (pre.map fun entry => entry.1.command))
  /-- The first call over the limit returns the error that the handler replies with. -/
  exceeded : ∀ pre post call result, returns out = pre ++ (call, result) :: post →
    (∀ entry ∈ pre, entry.1.Fits) → ¬ call.Fits →
    result = .error "Frame cannot fit within the buffer limit" ∧
      .attempted (.error "Frame cannot fit within the buffer limit") ∈ handled out
  /-- The handler applies the calls in order, up to the first one over the limit. -/
  executed : applied (handled out) <+:
    ((calls out).takeWhile fun call => call.Fits).map Call.command
  notApplied : ∀ call : Call, ¬ call.Fits → call.command ∉ applied (handled out)

/-- The result at a position, when all calls before it have fitted. -/
theorem Call.answered_cases {before : List Call} {rest pre post : List (Call × CallResult)}
    {call : Call} {result error : CallResult} (hfits : ∀ c ∈ before, c.Fits)
    (hrest : rest = [] ∨ ∃ first later, rest = (first, error) :: later ∧ ¬ first.Fits)
    (h : answered before ++ rest = pre ++ (call, result) :: post)
    (hpre : ∀ entry ∈ pre, entry.1.Fits) :
    call.Fits ∧ result = (call.answer (stored (pre.map Prod.fst))).1 ∨
      ¬ call.Fits ∧ rest ≠ [] ∧ result = error := by
  have hinside : ∀ post', answered before = pre ++ (call, result) :: post' →
      call.Fits ∧ result = (call.answer (stored (pre.map Prod.fst))).1 := by
    intro post' hsplit
    refine ⟨hfits call ?_, answered_split hsplit⟩
    rw [← map_fst_answered before, hsplit]
    simp
  rcases List.append_eq_append_iff.mp h with ⟨more, rfl, hmore⟩ | ⟨more, hmore, hpost⟩
  · -- The position is in the rest, so it is the first one there.
    rcases hrest with hnil | ⟨first, later, hcons, hexceeds⟩
    · rw [hnil] at hmore
      cases (List.append_eq_nil_iff.mp hmore.symm).2
    · rw [hcons] at hmore
      cases more with
      | nil =>
        cases hmore
        exact .inr ⟨hexceeds, by simp [hcons], rfl⟩
      | cons entry more =>
        cases hmore
        exact absurd (hpre (first, error) (by simp)) hexceeds
  · cases more with
    | nil =>
      rcases hrest with hnil | ⟨first, later, hcons, hexceeds⟩
      · rw [hnil] at hpost
        cases hpost
      · rw [hcons] at hpost
        cases hpost
        exact .inr ⟨hexceeds, by simp [hcons], rfl⟩
    | cons entry more =>
      cases hpost
      exact .inl (hinside more hmore)

theorem Stage.executed_prefix {phase : Phase} {endpoint : Endpoint} {requester : Requester}
    {answered executed : List Call} (h : Stage phase endpoint requester answered executed) :
    executed <+: answered ++ requester.phase.call?.toList := by
  have hcall : ∀ call, requester.phase.Sends call [] → requester.phase.call? = some call := by
    intro call hsends
    rcases hsends with hwriting | ⟨-, hawaiting⟩
    · rw [hwriting]
      rfl
    · rw [hawaiting]
      rfl
  cases h with
  | looking call hsends =>
    rw [hcall call hsends]
    exact List.prefix_refl _
  | answering call hsends =>
    rw [hcall call hsends]
    exact List.prefix_refl _
  | _ => exact List.prefix_append _ _

section results

variable {d : Dialogue} {out : List DialogueEvent}

theorem DialogueLaw.executed (h : DialogueLaw d out) :
    ∃ executed, Executed d out executed ∧ executed <+: calls out := by
  have horder := h.order
  cases h.talks with
  | talking answered executed hexecuted hreturns hstage =>
    refine ⟨executed, hexecuted, ?_⟩
    rw [horder, hreturns, Call.map_fst_answered]
    exact hstage.executed_prefix
  | refusing answered call hexecuted hreturns =>
    refine ⟨answered, hexecuted, ?_⟩
    rw [horder, hreturns, Call.map_fst_answered]
    exact List.prefix_append _ _
  | refused answered call later hexecuted hreturns =>
    refine ⟨answered, hexecuted, ?_⟩
    rw [horder, hreturns, List.map_append, Call.map_fst_answered, List.append_assoc]
    exact List.prefix_append _ _

/-- The results are the answers of the map, up to the error of a call over the limit. -/
theorem DialogueLaw.results (h : DialogueLaw d out) :
    ∃ answered rest, (∀ call ∈ answered, call.Fits) ∧
      returns out = Call.answered answered ++ rest ∧
      (rest = [] ∨ ∃ first later, rest = (first, exceededResult) :: later ∧ ¬ first.Fits) ∧
      (rest ≠ [] → .attempted (.error bufferLimitError.display) ∈ handled out) := by
  cases h.talks with
  | talking answered executed hexecuted hreturns hstage =>
    have hfits : ∀ call ∈ answered, call.Fits := by
      intro call hcall
      cases hstage with
      | looking => exact hexecuted.fits call (List.mem_append_left _ hcall)
      | answering => exact hexecuted.fits call (List.mem_append_left _ hcall)
      | _ => exact hexecuted.fits call hcall
    exact ⟨answered, [], hfits, by rw [hreturns, List.append_nil], .inl rfl, by simp⟩
  | refusing answered call hexecuted hreturns =>
    exact ⟨answered, [], hexecuted.fits, by rw [hreturns, List.append_nil], .inl rfl, by simp⟩
  | refused answered call later hexecuted hreturns hexceeds hreport =>
    exact ⟨answered, _, hexecuted.fits, hreturns, .inr ⟨call, later, rfl, hexceeds⟩,
      fun _ => hreport⟩

theorem DialogueLaw.behavesAsMap (h : DialogueLaw d out) : BehavesAsMap out := by
  obtain ⟨executed, hexecuted, hprefix⟩ := h.executed
  obtain ⟨answered, rest, hanswered, hreturns, hrest, hreport⟩ := h.results
  have hcases : ∀ {pre post : List (Call × CallResult)} {call : Call} {result : CallResult},
      returns out = pre ++ (call, result) :: post → (∀ entry ∈ pre, entry.1.Fits) →
      call.Fits ∧ result = (call.answer (Call.stored (pre.map Prod.fst))).1 ∨
        ¬ call.Fits ∧ rest ≠ [] ∧ result = exceededResult := by
    intro pre post call result hsplit hpre
    rw [hreturns] at hsplit
    exact Call.answered_cases hanswered hrest hsplit hpre
  exact {
    inOrder := by
      rw [h.order]
      exact List.prefix_append _ _
    set := by
      intro pre post key value hkey hvalue result hsplit hpre hfits
      rcases hcases hsplit hpre with ⟨-, hresult⟩ | ⟨hexceeds, -⟩
      · exact hresult
      · exact absurd hfits hexceeds
    get := by
      intro pre post key hkey result hsplit hpre hfits
      rcases hcases hsplit hpre with ⟨-, hresult⟩ | ⟨hexceeds, -⟩
      · have hvalue : result = .value ((Call.stored (pre.map Prod.fst)).get key) := hresult
        rw [hvalue, Call.get_stored, List.map_map]
        rfl
      · exact absurd hfits hexceeds
    exceeded := by
      intro pre post call result hsplit hpre hexceeds
      rcases hcases hsplit hpre with ⟨hfits, -⟩ | ⟨-, hsome, hresult⟩
      · exact absurd hfits hexceeds
      · exact ⟨hresult, hreport hsome⟩
    executed := by
      obtain ⟨later, hcalls⟩ := hprefix
      have hfits : ∀ call ∈ executed, decide call.Fits = true := fun call hmem =>
        decide_eq_true (hexecuted.fits call hmem)
      rw [hexecuted.applied, ← hcalls, List.takeWhile_append_of_pos hfits, List.map_append]
      exact List.prefix_append _ _
    notApplied := by
      intro call hexceeds hmem
      rw [hexecuted.applied] at hmem
      obtain ⟨other, hother, heq⟩ := List.mem_map.mp hmem
      rw [Call.command_injective heq] at hother
      exact hexceeds (hexecuted.fits call hother) }

end results

/-- The calls of one requester on one connection behave as a map: for any schedule of
both ends and any chunking of the bytes, without timeouts, cancellations, shutdown and
transport errors, and while no other connection writes to the database. -/
theorem requester_map (shared : Shared) (shutdownRx : ℕ) (actions : List DialogueAction)
    (d : Dialogue) (out : List DialogueEvent)
    (hundisturbed : ∀ action ∈ actions, DialogueAction.Undisturbed action)
    (hrun : dialogue.run actions (.new shared shutdownRx) = some (d, out)) :
    BehavesAsMap out ∧
    (∀ key, d.shared.database.get key = lastSet key (applied (handled out))) ∧
    -- Any further calls can be made and completed, when only the last one may exceed the limit.
    (∀ sequence : List Call, (∀ call ∈ (calls out ++ sequence).dropLast, call.Fits) →
      ∃ more t later, (∀ action ∈ more, DialogueAction.Undisturbed action) ∧
        dialogue.run more d = some (t, later) ∧ calls (out ++ later) = calls out ++ sequence ∧
        (returns (out ++ later)).map Prod.fst = calls out ++ sequence) ∧
    ∀ key value hkey hvalue, (Call.set key value hkey hvalue).Fits →
      (Call.get key hkey).Fits ∧ (encode (.bulk value)).length ≤ maxBufferedBytes := by
  have hlaw := (DialogueLaw.new shared shutdownRx).run hundisturbed hrun
  rw [List.nil_append] at hlaw
  refine ⟨hlaw.behavesAsMap, ?_, fun sequence hfits => hlaw.completes sequence hfits,
    fun key value hkey hvalue hfits => Call.fits_get_of_set hfits⟩
  intro key
  obtain ⟨executed, hexecuted, -⟩ := hlaw.executed
  rw [hexecuted.database, Call.get_stored, hexecuted.applied]

/-- A value of CR and LF under the empty key is set and read back. -/
theorem requester_map_set_get :
    ∃ hkey hvalue actions d out, (∀ action ∈ actions, DialogueAction.Undisturbed action) ∧
      dialogue.run actions (.new ⟨.new, .new, 1, 0, 1, 1⟩ 0) = some (d, out) ∧
      returns out = [(.set "" [13, 10] hkey hvalue, .done), (.get "" hkey, .value (some [13, 10]))] := by
  have hkey : (asBytes "").length ≤ isizeMax := by decide
  have hvalue : [(13 : UInt8), 10].length ≤ isizeMax := by decide
  have hfits : (Call.set "" [13, 10] hkey hvalue).Fits := Call.fits_set (by decide)
  obtain ⟨-, -, hcomplete, hget⟩ :=
    requester_map ⟨.new, .new, 1, 0, 1, 1⟩ 0 [] _ [] (by simp) rfl
  have hsequence : ∀ call ∈ (calls [] ++ [Call.set "" [13, 10] hkey hvalue, .get "" hkey]).dropLast,
      call.Fits := by
    intro call hmem
    rw [List.mem_singleton.mp hmem]
    exact hfits
  obtain ⟨actions, d, out, hundisturbed, hrun, -, hreturned⟩ := hcomplete _ hsequence
  obtain ⟨hmap, -⟩ := requester_map _ 0 actions d out hundisturbed hrun
  refine ⟨hkey, hvalue, actions, d, out, hundisturbed, hrun, ?_⟩
  obtain ⟨⟨first, setResult⟩, tail, hreturns, rfl, htail⟩ :=
    List.map_eq_cons_iff.mp (show (returns out).map Prod.fst = _ from hreturned)
  obtain ⟨⟨second, getResult⟩, none, rfl, rfl, hnone⟩ := List.map_eq_cons_iff.mp htail
  obtain rfl := List.map_eq_nil_iff.mp hnone
  have hset := hmap.set [] _ _ _ _ _ _ hreturns (by simp) hfits
  have hvalue' := hmap.get [(_, setResult)] [] _ _ _ hreturns (by simpa using hfits)
    (hget _ _ _ _ hfits).1
  have hlast : lastSet "" [(Call.set "" [13, 10] hkey hvalue).command] = some [13, 10] := rfl
  rw [hreturns, hset, hvalue']
  exact congrArg (fun value => [_, (_, CallResult.value value)]) hlast

end MiniRedis
