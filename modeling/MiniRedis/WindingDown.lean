import MiniRedis.Charges

/-!
# Behind the end of a stream

A rank of a connection says how many steps its handler can still take on the bytes in
flight. Behind a closed peer every step lowers it, whatever the other connections do, and
until everything is dropped there is a next step.
-/
namespace MiniRedis

open Library

/-! ### The loop of a handler -/

/-- How many steps of a task are ahead of it when it reads no further frame. -/
def Phase.ahead (reading : Option ℕ) : Phase → ℕ
  | .spawned => 10
  | .constructed => 9
  | .selecting => if reading.isNone then 8 else 7
  | .received _ => 13
  | .counted _ => 12
  | .looked _ => 11
  | .replying _ => 10
  | .replied => 9
  | .reporting _ => 6
  | .leaving _ unwinding => unwinding.rest.length

/-- The steps that a connection can still take on the bytes in flight. -/
def Endpoint.ahead (task : Task) (endpoint : Endpoint) : ℕ :=
  task.phase.ahead endpoint.inbound.reading + 3 * endpoint.inbound.unread +
    endpoint.inbound.stream.length

theorem Phase.ahead_selecting_le (reading : Option ℕ) :
    7 ≤ Phase.selecting.ahead reading ∧ Phase.selecting.ahead reading ≤ 8 := by
  cases reading <;> simp [ahead]

theorem Phase.ahead_le (phase : Phase) (reading : Option ℕ) : phase.ahead reading ≤ 13 := by
  cases phase with
  | selecting => exact Nat.le_trans (ahead_selecting_le reading).2 (by omega)
  | leaving ending unwinding =>
    have hle := unwinding.suffix.length_le
    simp only [runLocals, handlerFields, List.length_cons, List.length_nil] at hle
    simp only [ahead]
    omega
  | _ => simp [ahead]

/-- Every step of the task but the receipt of a frame brings it nearer to its end. -/
theorem Task.Step.ahead_lt {shared shared' : Shared} {task task' : Task} {action : TaskAction}
    {events : List Event} (h : task.Step shared action shared' task' events)
    (hframe : ∀ frame, action ≠ .readFrame (.frame frame)) (reading reading' : Option ℕ) :
    task'.phase.ahead reading' < task.phase.ahead reading := by
  have hselecting := Phase.ahead_selecting_le reading
  have hselecting' := Phase.ahead_selecting_le reading'
  cases h with
  | readFrame hphase frame => exact absurd rfl (hframe frame)
  | abandon hphase => simp [hphase, Phase.ahead, handlerFields]
  | enter hphase =>
    rw [hphase]
    exact Nat.lt_of_le_of_lt hselecting'.2 (by simp [Phase.ahead])
  | readError hphase error =>
    rw [hphase]
    exact Nat.lt_of_lt_of_le (by simp [Phase.ahead]) hselecting.1
  | leaveLoop hphase =>
    rw [hphase]
    exact Nat.lt_of_lt_of_le (by simp [Phase.ahead, runLocals, handlerFields]) hselecting.1
  | leaveReply output hphase => simp [hphase, Phase.ahead, runLocals, handlerFields]
  | countResponse hphase =>
    rw [hphase]
    exact Nat.lt_of_le_of_lt hselecting'.2 (by simp [Phase.ahead])
  | leaveReport error hphase => simp [hphase, Phase.ahead, runLocals, handlerFields]
  | drop ending resource rest suffix hphase => simp [hphase, Phase.ahead]
  | start hphase => simp [hphase, Phase.ahead]
  | count frame hphase | lookUp frame command hphase | store frame command hphase
  | reject frame error hphase | countLookup output hphase | write output hphase =>
    simp [hphase, Phase.ahead]

theorem Reader.ahead_eq (s : Reader) :
    Phase.selecting.ahead s.reading + s.stream.length = s.rank + 7 := by
  cases hreading : s.reading with
  | none =>
    simp only [Phase.ahead, rank, hreading, Option.isNone_none, if_true]
    omega
  | some left =>
    simp only [Phase.ahead, rank, hreading, Option.isNone_some, reduceCtorEq, if_false]
    exact Nat.add_comm _ _

/-- A step of a connection, other than of its transport. -/
def EndpointAction.isSend : EndpointAction → Bool
  | .send _ => true
  | _ => false

namespace Endpoint

variable {shared shared' : Shared} {task task' : Task} {endpoint endpoint' : Endpoint}
  {events : List Event}

/-- What the reader does brings the connection nearer to its end; a frame is paid for
with its bytes. -/
theorem ahead_lt_of_settle {action : ReadAction} (hcancel : action ≠ .cancel)
    (hsound : endpoint.inbound.Sound) (hphase : task.phase = .selecting)
    (h : settle shared task endpoint (Reader.step action endpoint.inbound) =
      some (shared', task', endpoint', events)) :
    endpoint'.ahead task' < endpoint.ahead task := by
  rcases hread : Reader.step action endpoint.inbound with _ | ⟨next, results⟩
  · rw [hread] at h
    cases h
  obtain ⟨received, segments, haccount⟩ := (hsound.step hread).accounts
  have hcharge := haccount.charge
  have hstream := congrArg List.length haccount.stream_eq
  rw [List.length_append] at hstream
  rw [hread] at h
  match results with
  | [] =>
    cases h
    have hwaits := Reader.rank_lt hcancel hread
    have hbefore := endpoint.inbound.ahead_eq
    have hafter := next.ahead_eq
    simp only [ahead, hphase]
    simp only [List.filterMap_nil, List.length_nil] at hcharge
    omega
  | [result] =>
    obtain ⟨htask, rfl⟩ := perform_eq_some h
    have htask := Task.step_cases htask
    by_cases hframe : ∃ frame, result = .frame frame
    · obtain ⟨frame, rfl⟩ := hframe
      have hbefore := (Phase.ahead_selecting_le endpoint.inbound.reading).1
      have hafter := task'.phase.ahead_le next.reading
      have hpaid : ([ReadResult.frame frame].filterMap ReadResult.returnedFrame).length = 1 := rfl
      simp only [ahead, hphase]
      omega
    · have hlt := htask.ahead_lt (fun frame heq => hframe ⟨frame, by cases heq; rfl⟩)
        endpoint.inbound.reading next.reading
      simp only [ahead]
      omega
  | _ :: _ :: _ => cases h

/-- Whatever a connection does but sending brings it nearer to its end. -/
theorem ahead_lt {action : EndpointAction} (hsend : action.isSend = false)
    (hsound : endpoint.inbound.Sound)
    (h : endpoint.step shared task action = some (shared', task', endpoint', events)) :
    endpoint'.ahead task' < endpoint.ahead task := by
  cases action with
  | poll =>
    simp only [step] at h
    split at h
    · rename_i hphase
      exact ahead_lt_of_settle (by simp) hsound (Phase.eq_selecting hphase) h
    · cases h
  | read n =>
    simp only [step] at h
    split at h
    · rename_i hphase
      exact ahead_lt_of_settle (by simp) hsound (Phase.eq_selecting hphase.1) h
    · cases h
  | readError text =>
    simp only [step] at h
    split at h
    · rename_i hphase
      exact ahead_lt_of_settle (by simp) hsound (Phase.eq_selecting hphase) h
    · cases h
  | send n => cases hsend
  | task action =>
    have hframe : ∀ frame, action ≠ .readFrame (.frame frame) := by
      rintro frame rfl
      cases h
    obtain ⟨reading, hperform⟩ : ∃ reading, perform shared task
        { endpoint with inbound := { endpoint.inbound with reading } } action =
          some (shared', task', endpoint', events) := by
      cases action with
      | readFrame result => cases h
      | writeOk =>
        simp only [step] at h
        split at h
        · exact ⟨endpoint.inbound.reading, h⟩
        · cases h
      | _ => exact ⟨none, h⟩
    obtain ⟨htask, rfl⟩ := perform_eq_some hperform
    have hlt := (Task.step_cases htask).ahead_lt hframe endpoint.inbound.reading reading
    simp only [ahead, Reader.unread]
    omega

theorem exists_settle (hphase : task.phase = .selecting) (stream : Bytes)
    (progress : Progress × Bytes) :
    (settle shared task endpoint (some (Reader.settle stream progress))).isSome := by
  rcases progress with ⟨result | left, buffer⟩
  · simp only [Reader.settle, settle, perform, Task.step, hphase, Option.isSome_some]
  · rfl

/-- The reader of a waiting task can always go on, at the latest with the end of the stream. -/
theorem exists_read (hsound : endpoint.inbound.Sound) (hclosed : endpoint.closed = true)
    (hphase : task.phase = .selecting) :
    ∃ action, action ≠ .send 0 ∧ (endpoint.step shared task action).isSome := by
  have hselecting : task.phase.isSelecting = true := by rw [hphase]; rfl
  obtain ⟨⟨stream, buffer, reading⟩, closed, sent, unsent⟩ := endpoint
  cases reading with
  | none =>
    refine ⟨.poll, by simp, ?_⟩
    simp only [step, hselecting, if_true, Reader.step]
    exact exists_settle hphase _ _
  | some left =>
    obtain ⟨-, hlt, hleft⟩ := hsound.waits left rfl
    simp only at hlt hleft hclosed
    by_cases hstream : stream = []
    · refine ⟨.read 0, by simp, ?_⟩
      simp only [step, hselecting, hclosed, Reader.step, hstream, implies_true, and_self, if_true,
        Nat.zero_le]
      exact exists_settle hphase _ _
    · have hbyte := List.length_pos_of_ne_nil hstream
      have hguard : 1 ≤ left ∧ 1 ≤ stream.length ∧ (1 = 0 → stream = []) := by omega
      refine ⟨.read 1, by simp, ?_⟩
      simp only [step, hselecting, hclosed, implies_true, and_self, if_true, Reader.step,
        if_pos hguard]
      exact exists_settle hphase _ _

/-- A task that awaits `write_frame` can go on with the next byte, or behind the last. -/
theorem exists_write (hphase : task.phase.isWriting = true) :
    ∃ action, action ≠ .send 0 ∧ (endpoint.step shared task action).isSome := by
  by_cases hunsent : endpoint.unsent = []
  · refine ⟨.task .writeOk, by simp, ?_⟩
    obtain ⟨phase, shutdownRx, request⟩ := task
    simp only [step, hunsent, if_true, perform]
    cases phase <;> first | rfl | cases hphase
  · have hbyte := List.length_pos_of_ne_nil hunsent
    refine ⟨.send 1, by simp, ?_⟩
    have hguard : task.phase.isWriting = true ∧ 1 ≤ endpoint.unsent.length := ⟨hphase, hbyte⟩
    simp only [step, if_pos hguard, Option.isSome_some]

/-- Behind a closed peer a task can go on until it has dropped everything. -/
theorem exists_step (hsound : endpoint.inbound.Sound) (hclosed : endpoint.closed = true) :
    (∃ ending suffix, task.phase = .leaving ending ⟨[], suffix⟩) ∨
      ∃ action, action ≠ .send 0 ∧ (endpoint.step shared task action).isSome := by
  have hperform : ∀ action, (task.step shared (action : TaskAction)).isSome →
      (perform shared task { endpoint with inbound := { endpoint.inbound with reading := none } }
        action).isSome := by
    intro action hstep
    obtain ⟨⟨shared', task', events⟩, hsome⟩ := Option.isSome_iff_exists.mp hstep
    simp only [perform, hsome, Option.isSome_some]
  cases hphase : task.phase with
  | spawned =>
    exact .inr ⟨.task (.start true), by simp, hperform _ (by simp only [Task.step, hphase]; rfl)⟩
  | constructed =>
    exact .inr ⟨.task .enter, by simp, hperform _ (by simp only [Task.step, hphase]; rfl)⟩
  | selecting => exact .inr (exists_read hsound hclosed hphase)
  | received frame =>
    exact .inr ⟨.task .count, by simp, hperform _ (by simp only [Task.step, hphase]; rfl)⟩
  | counted frame =>
    exact .inr ⟨.task .execute, by simp, hperform _ (by simp only [Task.step, hphase]; rfl)⟩
  | looked output =>
    exact .inr ⟨.task .countLookup, by simp, hperform _ (by simp only [Task.step, hphase]; rfl)⟩
  | replying output => exact .inr (exists_write (by rw [hphase]; rfl))
  | replied =>
    exact .inr ⟨.task .countResponse, by simp, hperform _ (by simp only [Task.step, hphase]; rfl)⟩
  | reporting error => exact .inr (exists_write (by rw [hphase]; rfl))
  | leaving ending unwinding =>
    obtain ⟨rest, suffix⟩ := unwinding
    cases rest with
    | nil => exact .inl ⟨ending, suffix, rfl⟩
    | cons resource rest =>
      exact .inr ⟨.task .drop, by simp, hperform _ (by simp only [Task.step, hphase]; rfl)⟩

end Endpoint

/-! ### Steps of one connection -/

/-- A step of the connection, other than of its transport. -/
def WireAction.proceeds (i : ℕ) : WireAction → Bool
  | .connection j action => j = i && !action.isSend
  | _ => false

/-- The transport of the connection takes bytes. -/
def WireAction.sends (i : ℕ) : WireAction → Bool
  | .connection j (.send (_ + 1)) => j = i
  | _ => false

section others

variable {i : ℕ} {action : WireAction} (hother : ∀ own, action ≠ .connection i own)
include hother

theorem WireAction.proceeds_eq_false : action.proceeds i = false := by
  cases action with
  | connection j own =>
    have hji : j ≠ i := by
      rintro rfl
      exact hother own rfl
    simp [proceeds, hji]
  | _ => rfl

theorem WireAction.sends_eq_false : action.sends i = false := by
  cases action with
  | connection j own =>
    have hji : j ≠ i := by
      rintro rfl
      exact hother own rfl
    cases own with
    | send n => cases n <;> simp [sends, hji]
    | _ => rfl
  | _ => rfl

end others

/-! ### Behind the end of the stream -/

/-- The peer of the connection has closed its side, and the task of the connection exists. -/
structure Wire.Closing (w : Wire) (i : ℕ) : Prop where
  sound : w.Sound
  closed : (w.endpoints i).closed = true
  task : ∃ task, w.server.tasks[i]? = some task

/-- The steps that are left for the connection. -/
def Wire.ahead (w : Wire) (i : ℕ) : ℕ :=
  match w.server.tasks[i]? with
  | some task => (w.endpoints i).ahead task
  | none => 0

theorem Wire.ahead_eq {w : Wire} {i : ℕ} {task : Task} (hi : w.server.tasks[i]? = some task) :
    w.ahead i = (w.endpoints i).ahead task := by
  simp only [ahead, hi]

/-- What others do takes nothing from a closed connection and adds nothing to it. -/
theorem Wire.Closing.other_step {w w' : Wire} {i : ℕ} {action : WireAction}
    {now : List (ℕ × Event)} (h : w.Closing i) (hother : ∀ own, action ≠ .connection i own)
    (hstep : wire.step action w = some (w', now)) : w'.Closing i ∧ w'.ahead i = w.ahead i := by
  have hsound := (h.sound.step i hstep).1
  obtain ⟨task, hi⟩ := h.task
  obtain ⟨hkept, -, hendpoint⟩ := (Wire.step_cases hstep).elsewhere hother
  have hsame : (w'.endpoints i).closed = true ∧
      (w'.endpoints i).inbound = (w.endpoints i).inbound := by
    rcases hendpoint with hsame | ⟨peerAction, -, hpeer⟩
    · rw [hsame]
      exact ⟨h.closed, rfl⟩
    · rcases Endpoint.peerStep_cases hpeer with ⟨bytes, -, hopen, -⟩ | ⟨-, hclose⟩
      · cases hopen.symm.trans h.closed
      · rw [hclose]
        exact ⟨rfl, rfl⟩
  refine ⟨⟨hsound, hsame.1, task, hkept task hi⟩, ?_⟩
  rw [Wire.ahead_eq hi, Wire.ahead_eq (hkept task hi), Endpoint.ahead, Endpoint.ahead, hsame.2]

/-- Its own steps bring a closed connection nearer to its end. -/
theorem Wire.Closing.own_step {w w' : Wire} {i : ℕ} {action : EndpointAction}
    {now : List (ℕ × Event)} (h : w.Closing i)
    (hstep : wire.step (.connection i action) w = some (w', now)) :
    w'.Closing i ∧ w'.ahead i + (if action.isSend then 0 else 1) ≤ w.ahead i := by
  have hsound := (h.sound.step i hstep).1
  obtain ⟨task, shared, task', endpoint, events, hi, hmove, rfl, rfl⟩ :=
    Wire.step_connection_eq_some hstep
  have hclosed := (Endpoint.step_cases hmove).closed_eq
  have hset : (w.server.tasks.set i task')[i]? = some task' :=
    List.getElem?_set_self (List.getElem?_eq_some_iff.mp hi).1
  refine ⟨⟨hsound, ?_, task', hset⟩, ?_⟩
  · simp only [Function.update_self]
    rw [hclosed]
    exact h.closed
  · rw [Wire.ahead_eq hi, Wire.ahead_eq hset]
    simp only [Function.update_self]
    cases hsend : action.isSend with
    | false => exact Endpoint.ahead_lt hsend (h.sound i) hmove
    | true =>
      cases action with
      | send n =>
        simp only [Endpoint.step] at hmove
        split at hmove
        · cases hmove
          exact Nat.le_refl _
        · cases hmove
      | _ => cases hsend

theorem Wire.Closing.step {w w' : Wire} {i : ℕ} {action : WireAction} {now : List (ℕ × Event)}
    (h : w.Closing i) (hstep : wire.step action w = some (w', now)) :
    w'.Closing i ∧ w'.ahead i + (if action.proceeds i then 1 else 0) ≤ w.ahead i := by
  by_cases hown : ∃ own, action = .connection i own
  · obtain ⟨own, rfl⟩ := hown
    have hnow := h.own_step hstep
    cases hsend : own.isSend <;> simpa [WireAction.proceeds, hsend] using hnow
  · have hother : ∀ own, action ≠ .connection i own := fun own heq => hown ⟨own, heq⟩
    obtain ⟨hclosing, hahead⟩ := h.other_step hother hstep
    rw [WireAction.proceeds_eq_false hother, hahead]
    exact ⟨hclosing, Nat.le_refl _⟩

/-- A closed connection takes only as many steps as are ahead of it. -/
theorem Wire.Closing.proceeds_le {w w' : Wire} {i : ℕ} {actions : List WireAction}
    {out : List (ℕ × Event)} (h : w.Closing i) (hrun : wire.run actions w = some (w', out)) :
    actions.countP (WireAction.proceeds i) ≤ w.ahead i := by
  have hbound := wire.run_amortized (fun w => w.ahead i) (WireAction.proceeds i) (fun _ => 0)
    (fun _ => 0) (fun _ => 0) (P := fun w => w.Closing i) (fun _ _ => rfl) (fun _ _ => rfl)
    (fun u action v now hu hstep => hu.step hstep) h hrun
  rw [List.map_const', List.sum_replicate, nsmul_zero] at hbound
  omega

theorem Wire.unsent_eq {w w' : Wire} {i : ℕ} {action : WireAction} {now : List (ℕ × Event)}
    (hother : ∀ own, action ≠ .connection i own) (hstep : wire.step action w = some (w', now)) :
    (w'.endpoints i).unsent = (w.endpoints i).unsent := by
  obtain ⟨-, -, hsame | ⟨peerAction, -, hpeer⟩⟩ := (Wire.step_cases hstep).elsewhere hother
  · rw [hsame]
  · rcases Endpoint.peerStep_cases hpeer with ⟨bytes, -, -, hdeliver⟩ | ⟨-, hclose⟩
    · rw [hdeliver]
    · rw [hclose]

/-- What the transport takes is unsent before; only an attempt adds to it. -/
theorem Endpoint.unsent_le {shared shared' : Shared} {task task' : Task}
    {endpoint endpoint' : Endpoint} {action : EndpointAction} {events : List Event}
    (h : endpoint.step shared task action = some (shared', task', endpoint', events)) :
    endpoint'.unsent.length + (if (WireAction.connection i action).sends i then 1 else 0) ≤
      endpoint.unsent.length + (encodeAll (attempts events)).length := by
  by_cases hsend : ∃ n, action = .send n
  · obtain ⟨n, rfl⟩ := hsend
    simp only [step] at h
    split at h
    · rename_i hguard
      cases h
      rw [List.length_drop]
      cases n with
      | zero => simp [WireAction.sends]
      | succ n =>
        simp only [WireAction.sends, decide_true, if_true]
        omega
    · cases h
  · have hquiet : (WireAction.connection i action).sends i = false := by
      cases action with
      | send n => exact absurd ⟨n, rfl⟩ hsend
      | _ => rfl
    rw [hquiet]
    cases step_cases h with
    | wait => exact Nat.le_add_right _ _
    | returned => simp
    | send n => exact absurd ⟨n, rfl⟩ hsend
    | task => simp

/-- The transport of a connection takes only what is unsent or attempted later. -/
theorem Wire.sends_le {w w' : Wire} {actions : List WireAction} {out : List (ℕ × Event)}
    (i : ℕ) (hrun : wire.run actions w = some (w', out)) :
    actions.countP (WireAction.sends i) ≤
      (w.endpoints i).unsent.length + (encodeAll (attempts (project i out))).length := by
  have hbound := wire.run_amortized (fun w => (w.endpoints i).unsent.length) (WireAction.sends i)
    (fun _ => 0) (fun _ => 0) (fun out => (encodeAll (attempts (project i out))).length)
    (P := fun _ => True) (fun _ _ => rfl) ?_ ?_ trivial hrun
  · rw [List.map_const', List.sum_replicate, nsmul_zero] at hbound
    omega
  · intro l r
    simp only [project_append, attempts, List.filterMap_append, encodeAll_append,
      List.length_append]
  · intro u action v now _ hstep
    refine ⟨trivial, ?_⟩
    by_cases hown : ∃ own, action = .connection i own
    · obtain ⟨own, rfl⟩ := hown
      obtain ⟨task, shared, task', endpoint, events, hi, hmove, rfl, rfl⟩ :=
        Wire.step_connection_eq_some hstep
      have hunsent := Endpoint.unsent_le (i := i) hmove
      simpa using hunsent
    · have hother : ∀ own, action ≠ .connection i own := fun own heq => hown ⟨own, heq⟩
      rw [WireAction.sends_eq_false hother, Wire.unsent_eq hother hstep]
      exact Nat.le_add_right _ _

end MiniRedis
