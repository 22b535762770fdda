import MiniRedis.Balance
import MiniRedis.Consistency
import MiniRedis.Ownership
import MiniRedis.Service

/-!
# Calls can return

Whatever has happened on the network: as long as a requester is not dropped and its
connection is accepted, it and its handler alone can go on until its call returns, and with
`Ok` when the handler serves it. A connection that is not accepted yet also needs the accept
loop, its turn and a free permit.
-/
namespace MiniRedis

open Library

/-- The accept loop has not been left. -/
def AcceptorPhase.accepting : AcceptorPhase → Bool
  | .idle | .leaving _ | .dropped => false
  | _ => true

/-- A step of the accept loop towards the next connection. -/
def AcceptorAction.accepts : AcceptorAction → Bool
  | .acquire | .accept | .wake | .release | .subscribe | .cloneSender | .spawn => true
  | _ => false

/-- A step of one connection that nothing disturbs, and that begins no call, or one towards
the next connection. -/
def NetworkAction.Own (i : ℕ) : NetworkAction → Prop
  | .wire (.acceptor action) => action.accepts = true
  | .wire (.connection j action) => j = i ∧ action.Undisturbed
  | .client j action => j = i ∧ action.disturbs = false ∧ ∀ call, action ≠ .begin call
  | _ => False

/-- How far a requester is from the end of its call. -/
def RequesterPhase.unwritten : RequesterPhase → ℕ
  | .idle => 0
  | .awaiting _ => 1
  | .writing _ unsent => unsent.length + 2

section requester

variable {hungUp : Bool} {requester : Requester} {call : Call}

/-- A requester that writes can always go on. -/
theorem Requester.exists_write (hungUp : Bool) {unsent : Bytes}
    (hphase : requester.phase = .writing call unsent) :
    ∃ action after bytes, action.disturbs = false ∧ (∀ call, action ≠ .begin call) ∧
      requester.step hungUp action = some (after, bytes, []) ∧
      after.phase.unwritten < requester.phase.unwritten := by
  cases unsent with
  | nil =>
    refine ⟨.flush, _, [], rfl, by simp, by simp only [step, hphase]; rfl, ?_⟩
    simp [hphase, RequesterPhase.unwritten]
  | cons byte unsent =>
    refine ⟨.transmit 1, { requester with phase := .writing call unsent }, [byte], rfl, by simp,
      ?_, ?_⟩
    · simp [step, hphase]
    · simp [hphase, RequesterPhase.unwritten]

/-- After a turn of its reader the call has returned, or waits for fewer bytes. -/
theorem Requester.settle_goes {s : Reader} {readAction : ReadAction} {stream : Bytes}
    {progress : Progress × Bytes}
    (hread : Reader.step readAction s = some (Reader.settle stream progress))
    (hcancel : readAction ≠ .cancel) :
    ∃ after events, settle call (Reader.step readAction s) = some (after, [], events) ∧
      (after.phase = .idle ∨ after.phase = .awaiting call ∧ after.inbound.rank < s.rank) := by
  rcases progress with ⟨result | left, buffer⟩
  · rw [hread]
    exact ⟨_, _, rfl, .inl rfl⟩
  · have hrank := Reader.rank_lt hcancel hread
    rw [hread]
    exact ⟨_, _, rfl, .inr ⟨rfl, hrank⟩⟩

/-- A requester that reads can go on, unless it waits for its handler. -/
theorem Requester.exists_read (hphase : requester.phase = .awaiting call)
    (hwaits : requester.inbound.Waits)
    (hready : ∀ left, requester.inbound.reading = some left → requester.inbound.stream = [] →
      hungUp = true) :
    ∃ action after events, action.disturbs = false ∧ (∀ call, action ≠ .begin call) ∧
      requester.step hungUp action = some (after, [], events) ∧
      (after.phase = .idle ∨ after.phase = .awaiting call ∧
        after.inbound.rank < requester.inbound.rank) := by
  obtain ⟨phase, stream, buffer, reading⟩ := requester
  obtain rfl : phase = .awaiting call := hphase
  cases reading with
  | none =>
    have hread : Reader.step .call ⟨stream, buffer, none⟩ =
        some (Reader.settle stream (turn buffer)) := rfl
    obtain ⟨after, events, hsettle, hgoes⟩ :=
      settle_goes hread (by simp)
    exact ⟨.poll, after, events, rfl, by simp, hsettle, hgoes⟩
  | some left =>
    obtain ⟨-, hlt, hleft⟩ := hwaits left rfl
    have hend := hready left rfl
    simp only at hlt hleft hend
    have hempty : min 1 stream.length = 0 → stream = [] := fun hzero =>
      List.eq_nil_of_length_eq_zero (by omega)
    have hguard : min 1 stream.length ≤ left ∧ min 1 stream.length ≤ stream.length ∧
        (min 1 stream.length = 0 → stream = []) :=
      ⟨by omega, Nat.min_le_right _ _, hempty⟩
    have hread : Reader.step (.read (min 1 stream.length)) ⟨stream, buffer, some left⟩ =
        some (Reader.settle (stream.drop (min 1 stream.length))
          (received buffer (stream.take (min 1 stream.length)))) := by
      simp only [Reader.step, if_pos hguard]
    obtain ⟨after, events, hsettle, hgoes⟩ :=
      settle_goes hread (by simp)
    refine ⟨.read (min 1 stream.length), after, events, rfl, by simp, ?_, hgoes⟩
    simp only [step, if_pos fun hzero => hend (hempty hzero)]
    exact hsettle

end requester

/-! ### The handler acts -/

section handler

variable {shared shared' : Shared} {task task' : Task} {endpoint endpoint' : Endpoint}
  {events : List Event}

/-- Undisturbed, a handler whose requests fit in its buffer stays in its loop. -/
theorem Endpoint.Step.not_closing {action : EndpointAction} {frames : List Frame} {rest : Bytes}
    (h : endpoint.Step shared task action shared' task' endpoint' events)
    (hundisturbed : action.Undisturbed) (hopen : endpoint.closed = false)
    (hqueues : endpoint.inbound.Queues frames rest) (hframes : ∀ frame ∈ frames, Deliverable frame)
    (hserving : task.phase.isClosing = false) : task'.phase.isClosing = false := by
  cases h with
  | wait => exact hserving
  | send => exact hserving
  | @returned _ readAction next result _ _ _ hphase hread hfail hend htask =>
    obtain ⟨rfl, -⟩ := Task.step_readFrame hphase htask
    have hio : ∀ text, readAction ≠ .fail text := by
      rintro text rfl
      rw [hfail text rfl] at hundisturbed
      exact hundisturbed
    have hpops := hqueues.step (fun frame hmem => ⟨(hframes frame hmem).readable,
      (hframes frame hmem).depth_le⟩) hio hread
    cases hpops with
    | frame => rfl
    | exceeded frame later hsplit hexceeds =>
      have hfits := (hframes frame (by rw [hsplit]; exact List.mem_cons_self)).fits
      omega
    | ends result hatEnd =>
      have hclosed := hend ((Reader.step_atEnd hread).mp ⟨_, List.mem_singleton_self _, hatEnd⟩)
      rw [hopen] at hclosed
      cases hclosed
  | task action next hnext hread hwrite htask =>
    cases (Task.step_cases htask).works hundisturbed hread with
    | leaveReport error hphase => simp [hphase, Phase.isClosing] at hserving
    | drop ending resource rest suffix hphase => simp [hphase, Phase.isClosing] at hserving
    | _ => rfl

end handler

/-! ### Who has to act -/

section link

variable {phase : Phase} {endpoint : Endpoint} {client : Client} {events : List NetworkEvent}
  {call : Call}

theorem RequesterPhase.sends_of_current {phase : RequesterPhase} (h : phase.current = [call]) :
    ∃ unsent, phase.Sends call unsent := by
  cases phase with
  | idle => cases h
  | writing call' unsent =>
    cases h
    exact ⟨unsent, .inl rfl⟩
  | awaiting call' =>
    cases h
    exact ⟨[], .inr ⟨rfl, rfl⟩⟩

theorem Link.not_spent (h : Link phase endpoint client events)
    (hcurrent : client.requester.phase.current = [call]) : client.spent = false := by
  by_contra hspent
  rw [h.idle (by simpa using hspent)] at hcurrent
  cases hcurrent

end link

/-! ### The call goes on -/

/-- The connection is accepted, or it is the next one and there is a permit for it. -/
def Server.Reaches (s : Server) (maxConnections i : ℕ) : Prop :=
  (∃ task, s.tasks[i]? = some task) ∨
    i = s.tasks.length ∧ s.acceptor.phase.accepting = true ∧ owned s.tasks .permit < maxConnections

/-- The call with this number is going on, or has returned in the meantime; `served` says
whether the handler is known to stay in its loop. -/
structure Outstanding (maxConnections : ℕ) (served : Prop) (i number : ℕ) (call : Call)
    (out : List (ℕ × NetworkEvent)) (n : Network) (later : List (ℕ × NetworkEvent)) : Prop where
  law : NetworkLaw n (out ++ later)
  sound : n.wire.Sound
  accounts : Accounts maxConnections n.wire.server
  accepted : n.wire.server.Reaches maxConnections i
  stays : (n.wire.endpoints i).closed = false
  client : ∃ client, n.clients i = some client ∧ client.dropped = false ∧ client.number = number ∧
    (client.requester.phase.current = [call] ∨ client.requester.phase = .idle ∧
      ∃ result, (i, .returned number call result) ∈ later ∧
        (served → Answered (project i (out ++ later)) number call result))
  serving : served → (n.wire.server.phaseAt i).isClosing = false

section outstanding

variable {maxConnections : ℕ} {served : Prop} {i number : ℕ} {call : Call}
  {out later : List (ℕ × NetworkEvent)} {n : Network} {client : Client}

theorem Network.sound_step {n' : Network} {action : NetworkAction}
    {now : List (ℕ × NetworkEvent)} (h : n.wire.Sound)
    (hstep : network.step action n = some (n', now)) : n'.wire.Sound := by
  obtain ⟨wireAction, hwire, -⟩ := (Network.step_cases hstep).on_wire
  exact (h.step 0 hwire).1

theorem Network.accounts_step {n' : Network} {action : NetworkAction}
    {now : List (ℕ × NetworkEvent)} (h : Accounts maxConnections n.wire.server)
    (hstep : network.step action n = some (n', now)) : Accounts maxConnections n'.wire.server := by
  obtain ⟨wireAction, hwire, -⟩ := (Network.step_cases hstep).on_wire
  obtain ⟨serverActions, t, hserver, rfl⟩ := wire_simulates _ _ _ _ _ rfl hwire
  exact server.run_state_invariant (P := Accounts maxConnections)
    (fun _ _ _ _ hs hmove => hs.step hmove) h hserver

theorem NetworkAction.Own.proper {action : NetworkAction} (h : action.Own i) (n : Network) :
    action.Proper n := by
  refine ⟨?_, ?_⟩
  · rintro j call client rfl -
    exact absurd rfl (h.2.2 call)
  · rintro j text rfl
    exact absurd h.2 not_false

/-- A step of the requester. -/
theorem Outstanding.client_step (h : Outstanding maxConnections served i number call out n later)
    (hclient : n.clients i = some client) (hdropped : client.dropped = false)
    (hnumber : client.number = number) (hcurrent : client.requester.phase.current = [call])
    {action : RequesterAction} {after : Requester} {bytes : Bytes} {events : List RequesterEvent}
    (hdisturbs : action.disturbs = false) (hbegin : ∀ call, action ≠ .begin call)
    (hstep : client.requester.step (n.wire.server.phaseAt i).hungUp action =
      some (after, bytes, events)) :
    ∃ now, network.step (.client i action) n = some (⟨n.wire.deliver i bytes,
        Function.update n.clients i (some { client with requester := after })⟩, now) ∧
      Outstanding maxConnections served i number call out ⟨n.wire.deliver i bytes,
        Function.update n.clients i (some { client with requester := after })⟩ (later ++ now) := by
  subst hnumber
  have hown : (NetworkAction.client i action).Own i := ⟨rfl, hdisturbs, hbegin⟩
  have hnet := Network.step_client _ hclient hdropped h.stays hstep
  rw [Client.advance_of_going hdisturbs hbegin] at hnet
  have hlaw := h.law.step (hown.proper n) hnet
  rw [List.append_assoc] at hlaw
  refine ⟨_, hnet, hlaw, Network.sound_step h.sound hnet, Network.accounts_step h.accounts hnet,
    h.accepted, ?_, ?_, h.serving⟩
  · simp only [Wire.deliver, Function.update_self]
    exact h.stays
  · refine ⟨_, Function.update_self .., hdropped, rfl, ?_⟩
    obtain ⟨unsent, hsends⟩ := RequesterPhase.sends_of_current hcurrent
    have hlink := h.law.links i client hclient
    have hmove := Requester.step_cases (Requester.undisturbed_of_disturbs hdisturbs) hstep
    cases hmove.of_sends hsends with
    | write unsent' hsplit hsends' hinbound => exact .inl hsends'.current
    | wait readAction hunsent hfail hend hread => exact .inl rfl
    | returned readAction hunsent hfail hend hread =>
      subst hunsent
      refine .inr ⟨rfl, _, List.mem_append_right _ (List.mem_singleton_self _), ?_⟩
      intro hserved
      have hspent := hlink.not_spent hcurrent
      rcases hlink.read hspent hsends (h.law.deliverable i) hfail hend hread with
        ⟨hnone, -⟩ | ⟨_, hone, hanswered, -⟩
      · cases hnone
      · cases hone
        rw [Phase.not_hungUp (h.serving hserved)] at hanswered
        rw [← List.append_assoc, project_append]
        exact (hanswered.resolve_left (by simp)).append _

end outstanding

section runs

variable {n : Network} {out : List (ℕ × NetworkEvent)} {i : ℕ}

/-- Only its peer closes a connection. -/
theorem Wire.closed_eq {w w' : Wire} {action : WireAction} {now : List (ℕ × Event)}
    (h : wire.step action w = some (w', now)) (hpeer : ∀ own, action ≠ .peer i own) :
    (w'.endpoints i).closed = (w.endpoints i).closed := by
  cases Wire.step_cases h with
  | acceptor => rfl
  | caller => rfl
  | peer j own =>
    have hij : i ≠ j := by
      rintro rfl
      exact hpeer own rfl
    simp only [Function.update_of_ne hij]
  | connection j own hj hmove =>
    by_cases hij : i = j
    · subst hij
      simp only [Function.update_self]
      exact hmove.closed_eq
    · simp only [Function.update_of_ne hij]

/-- The side of a requester is open until it is dropped. -/
theorem Network.closed_eq {s : Server} {requesters : ℕ → Bool} {actions : List NetworkAction}
    (hrun : network.run actions (.new s requesters) = some (n, out)) {client : Client}
    (hclient : n.clients i = some client) : (n.wire.endpoints i).closed = client.dropped := by
  refine network.run_state_invariant (P := fun n => ∀ client, n.clients i = some client →
    (n.wire.endpoints i).closed = client.dropped) ?_ ?_ hrun client hclient
  · intro n action n' now h hstep client hclient
    cases Network.step_cases hstep with
    | wire action hallowed hmove =>
      simp only [Network.delivered, Option.map_eq_some_iff] at hclient
      obtain ⟨before, hbefore, rfl⟩ := hclient
      refine (Wire.closed_eq hmove fun own heq => ?_).trans (h before hbefore)
      subst heq
      simp [Network.allows, hbefore] at hallowed
    | @client j action before after bytes events hbefore hdropped hmove hopen =>
      by_cases hij : i = j
      · subst hij
        simp only [Function.update_self, Option.some.injEq] at hclient
        subst hclient
        simp only [Wire.deliver, Function.update_self]
        exact h before hbefore
      · simp only [Function.update_of_ne hij] at hclient
        simp only [Wire.deliver, Function.update_of_ne hij]
        exact h client hclient
    | drop j hbefore hdropped =>
      by_cases hij : i = j
      · subst hij
        simp only [Function.update_self, Option.some.injEq] at hclient
        subst hclient
        simp only [Wire.close, Function.update_self]
      · simp only [Function.update_of_ne hij] at hclient
        simp only [Wire.close, Function.update_of_ne hij]
        exact h client hclient
  · intro client hnew
    simp only [Network.new, Option.ite_none_right_eq_some, Option.some.injEq] at hnew
    rw [← hnew.2]
    rfl

end runs

end MiniRedis
