import MiniRedis.Accounting
import MiniRedis.Wire

/-!
# What frames cost on the wire

A handler pays for every frame that it receives with bytes that its peer has delivered,
in every run on the wire.
-/
namespace MiniRedis

open Library

/-- Bytes that the peer of the connection sends. -/
def WireAction.delivered (i : ℕ) : WireAction → ℕ
  | .peer j (.deliver bytes) => if j = i then bytes.length else 0
  | _ => 0

/-- A task receives at most the frame that its reader returns. -/
theorem Task.Step.receivedFrames_le {shared shared' : Shared} {task task' : Task}
    {result : ReadResult} {events : List Event}
    (h : task.Step shared (.readFrame result) shared' task' events) :
    (receivedFrames events).length ≤ ([result].filterMap ReadResult.returnedFrame).length := by
  cases h with
  | readFrame hphase frame => exact Nat.le_refl _
  | _ => exact Nat.zero_le _

theorem Task.Step.receivedFrames_eq_nil {shared shared' : Shared} {task task' : Task}
    {action : TaskAction} {events : List Event}
    (h : task.Step shared action shared' task' events)
    (hread : ∀ result, action ≠ .readFrame result) : receivedFrames events = [] := by
  cases h with
  | readFrame hphase frame => exact absurd rfl (hread _)
  | _ => rfl

/-- A step of an endpoint keeps its reader sound; what it returns is paid for. -/
theorem Endpoint.Step.charge {shared shared' : Shared} {task task' : Task}
    {endpoint endpoint' : Endpoint} {action : EndpointAction} {events : List Event}
    (h : endpoint.Step shared task action shared' task' endpoint' events)
    (hsound : endpoint.inbound.Sound) :
    endpoint'.inbound.Sound ∧
      endpoint'.inbound.unread + 3 * (receivedFrames events).length ≤ endpoint.inbound.unread := by
  cases h with
  | wait action readAction hphase hread =>
    have hnow := hsound.step hread
    obtain ⟨received, segments, haccount⟩ := hnow.accounts
    exact ⟨hnow.sound, haccount.charge⟩
  | returned action readAction hphase hread hfail hend htask =>
    have hnow := hsound.step hread
    obtain ⟨received, segments, haccount⟩ := hnow.accounts
    have hcharge := haccount.charge
    have hle := (Task.step_cases htask).receivedFrames_le
    refine ⟨hnow.sound, ?_⟩
    simp only
    omega
  | send n hphase hn => exact ⟨hsound, Nat.le_refl _⟩
  | task action next hnext hread hwrite htask =>
    have hnone := (Task.step_cases htask).receivedFrames_eq_nil hread
    rw [hnone]
    rcases hnext with rfl | rfl
    · exact ⟨hsound, Nat.le_refl _⟩
    · exact ⟨⟨Reader.waits_of_not_reading rfl, hsound.buffer_le⟩, Nat.le_refl _⟩

/-- The readers of all connections are sound. -/
def Wire.Sound (w : Wire) : Prop := ∀ i, (w.endpoints i).inbound.Sound

/-- What a peer does to the reader of its connection. -/
theorem Endpoint.peerStep_charge {endpoint endpoint' : Endpoint} {action : PeerAction} {i : ℕ}
    (h : endpoint.peerStep action = some endpoint') (hsound : endpoint.inbound.Sound) :
    endpoint'.inbound.Sound ∧
      endpoint'.inbound.unread ≤ endpoint.inbound.unread + (WireAction.peer i action).delivered i := by
  rcases peerStep_cases h with ⟨bytes, rfl, -, rfl⟩ | ⟨rfl, rfl⟩
  · refine ⟨⟨hsound.waits, hsound.buffer_le⟩, ?_⟩
    simp only [Reader.unread, WireAction.delivered, List.length_append, if_true]
    omega
  · exact ⟨hsound, Nat.le_refl _⟩

/-- A step on the wire keeps all readers sound, and a connection pays for its frames with
what its peer delivers. -/
theorem Wire.Sound.step {w w' : Wire} {action : WireAction} {now : List (ℕ × Event)}
    (h : w.Sound) (i : ℕ) (hstep : wire.step action w = some (w', now)) :
    w'.Sound ∧ (w'.endpoints i).inbound.unread + 3 * (receivedFrames (project i now)).length ≤
      (w.endpoints i).inbound.unread + action.delivered i := by
  have heach : ∀ j, (w'.endpoints j).inbound.Sound ∧
      (w'.endpoints j).inbound.unread + 3 * (receivedFrames (project j now)).length ≤
        (w.endpoints j).inbound.unread + action.delivered j := by
    intro j
    by_cases hown : ∃ own, action = .connection j own
    · obtain ⟨own, rfl⟩ := hown
      obtain ⟨task, shared, task', endpoint, events, hj, hmove, rfl, rfl⟩ :=
        Wire.step_connection_eq_some hstep
      obtain ⟨hsound, hcharge⟩ := (Endpoint.step_cases hmove).charge (h j)
      simp only [Function.update_self, project_map_self]
      exact ⟨hsound, Nat.le_trans hcharge (Nat.le_add_right _ _)⟩
    · obtain ⟨-, hnone, hendpoint⟩ :=
        (Wire.step_cases hstep).elsewhere fun own heq => hown ⟨own, heq⟩
      rw [hnone]
      rcases hendpoint with hsame | ⟨peerAction, rfl, hpeer⟩
      · rw [hsame]
        exact ⟨h j, Nat.le_add_right _ _⟩
      · exact Endpoint.peerStep_charge hpeer (h j)
  exact ⟨fun j => (heach j).1, (heach i).2⟩

theorem Wire.sound_new (s : Server) : (Wire.new s).Sound := fun _ => reader_sound_new []

theorem Wire.Sound.run {w w' : Wire} {actions : List WireAction} {out : List (ℕ × Event)}
    (h : w.Sound) (hrun : wire.run actions w = some (w', out)) : w'.Sound :=
  wire.run_state_invariant (P := Wire.Sound) (fun _ _ _ _ hw hstep => (hw.step 0 hstep).1) h hrun

/-- A connection pays for every frame with three of the bytes that its peer has sent. -/
theorem Wire.Sound.received_le {w w' : Wire} {actions : List WireAction} {out : List (ℕ × Event)}
    (h : w.Sound) (i : ℕ) (hrun : wire.run actions w = some (w', out)) :
    (w'.endpoints i).inbound.unread + 3 * (receivedFrames (project i out)).length ≤
      (w.endpoints i).inbound.unread + (actions.map (WireAction.delivered i)).sum := by
  have hbound := wire.run_amortized (fun w => (w.endpoints i).inbound.unread) (fun _ => false)
    (WireAction.delivered i) (fun out => 3 * (receivedFrames (project i out)).length) (fun _ => 0)
    (P := Wire.Sound) ?_ (fun _ _ => rfl) ?_ h hrun
  · omega
  · intro l r
    simp only [project_append, receivedFrames, List.filterMap_append, List.length_append]
    omega
  · intro u action v now hu hstep
    obtain ⟨hsound, hcharge⟩ := hu.step i hstep
    refine ⟨hsound, ?_⟩
    simpa using hcharge

end MiniRedis
