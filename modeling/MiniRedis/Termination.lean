import MiniRedis.Exchange
import MiniRedis.Supply
import MiniRedis.WindingDown

/-!
# Reading ends

A call returns within its budget, a finite stream holds finitely many requests, and behind
its end the loop of the handler is left, never by a panic.
-/
namespace MiniRedis

open Library

/-! ### No exit is a panic -/

theorem Task.step_no_panic {shared shared' : Shared} {task task' : Task} {action : TaskAction}
    {events : List Event} (h : task.step shared action = some (shared', task', events))
    (hpanic : action ≠ .readFrame .panic) : .ended .panicked ∉ events := by
  have hrelation := step_cases h
  cases hrelation with
  | leaveLoop hphase action ending shutdownRx hending =>
    obtain ⟨phase, receiver, request⟩ := task
    cases hphase
    cases action with
    | readFrame result =>
      cases result with
      | panic => exact absurd rfl hpanic
      | _ => cases h <;> simp
    | shutdown =>
      simp only [step] at h
      split at h <;> cases h
      simp
    | _ => cases h <;> simp
  | abandon hphase action ending hending => rcases hending with rfl | rfl <;> simp
  | leaveReply output hphase action ending hending =>
    rcases hending with ⟨text, rfl⟩ | rfl <;> simp
  | leaveReport error hphase action ending hending => rcases hending with rfl | rfl <;> simp
  | _ => simp

theorem Endpoint.step_no_panic {shared shared' : Shared} {task task' : Task}
    {endpoint endpoint' : Endpoint} {action : EndpointAction} {events : List Event}
    (hsound : endpoint.inbound.Sound)
    (h : endpoint.step shared task action = some (shared', task', endpoint', events)) :
    .ended .panicked ∉ events := by
  cases step_cases h with
  | wait => exact List.not_mem_nil
  | returned _ readAction hphase hread hfail hend htask =>
    refine Task.step_no_panic htask ?_
    rintro heq
    cases heq
    exact (hsound.step hread).no_panic (List.mem_singleton_self _)
  | send => exact List.not_mem_nil
  | task action next hnext hread hwrite htask => exact Task.step_no_panic htask (hread _)

theorem Wire.no_panic {w w' : Wire} {actions : List WireAction} {out : List (ℕ × Event)}
    (h : w.Sound) (hrun : wire.run actions w = some (w', out)) (i : ℕ) :
    (i, .ended .panicked) ∉ out := by
  have hinv := wire.run_invariant (P := fun w out => w.Sound ∧ (i, .ended .panicked) ∉ out) ?_
    ⟨h, List.not_mem_nil⟩ hrun
  · simpa using hinv.2
  · rintro u before action v now ⟨hu, hbefore⟩ hstep
    have hnow : .ended .panicked ∉ project i now := by
      by_cases hown : ∃ own, action = .connection i own
      · obtain ⟨own, rfl⟩ := hown
        obtain ⟨task, shared, task', endpoint, events, hi, hmove, rfl, rfl⟩ :=
          Wire.step_connection_eq_some hstep
        rw [project_map_self]
        exact Endpoint.step_no_panic (hu i) hmove
      · rw [((Wire.step_cases hstep).elsewhere fun own heq => hown ⟨own, heq⟩).2.1]
        exact List.not_mem_nil
    refine ⟨(hu.step i hstep).1, ?_⟩
    rw [List.mem_append, not_or]
    exact ⟨hbefore, fun hmem => hnow (mem_project.mpr hmem)⟩

/-! ### Reading ends -/

/-- What holds of a connection whose peer has closed its side after `n` bytes. -/
structure WindsDown (w : Wire) (i : ℕ) (events : List Event) (n : ℕ) (task : Task) : Prop where
  /-- The task has left, and dropped everything, or the connection can go on. -/
  progress : (∃ ending suffix, task.phase = .leaving ending ⟨[], suffix⟩ ∧ .ended ending ∈ events ∧
      ending ≠ .panicked) ∨
    ∃ action, action ≠ .send 0 ∧ (wire.step (.connection i action) w).isSome
  /-- Whatever the others do, only so many steps are left. -/
  bounded : ∀ more w' later, wire.run more w = some (w', later) →
    more.countP (WireAction.proceeds i) ≤ 4 * n + 13 ∧
    more.countP (WireAction.sends i) ≤
      (w.endpoints i).unsent.length + (encodeAll (attempts (project i later))).length

/-- Reading ends. A call that gets byte after byte returns within the budget of its buffer;
a finite stream holds at most a third as many frames as bytes before a call that returns no
frame; and behind the end of its stream a handler cannot but leave its loop. -/
theorem reading_ends (maxConnections : ℕ) (database : Database) (s : Server) (w : Wire)
    (actions : List WireAction) (out : List (ℕ × Event)) (i : ℕ)
    (hnew : Server.new maxConnections database = some s)
    (hrun : wire.run actions (Wire.new s) = some (w, out)) :
    (∀ (supply : Supply) (buffer : Bytes), buffer.length ≤ maxBufferedBytes →
      ∃ result rest reads,
        readFrame supply (maxBufferedBytes - buffer.length) buffer = some (result, rest, reads) ∧
        reads ≤ maxBufferedBytes - buffer.length ∧
        ((∃ frame, result = .frame frame) ∨ ∃ error, result = .error error) ∧
        ∀ frame, result = .frame frame → ∃ segment : Segment, segment.frame = frame ∧
          buffer ++ supply.delivered reads 0 buffer = segment.bytes ++ rest ∧
            3 ≤ segment.bytes.length) ∧
    (∀ S calls r results, reader.run calls ⟨S, [], none⟩ = some (r, results) →
      r.unread + 3 * (results.filterMap ReadResult.returnedFrame).length ≤ S.length ∧
      (S.length / 3 < results.length →
        ∃ result ∈ results, result = .eof ∨ ∃ error, result = .error error) ∧
      calls.countP ReadAction.isRead ≤ S.length + results.length) ∧
    3 * (receivedFrames (project i out)).length ≤ (actions.map (WireAction.delivered i)).sum ∧
    ∀ task, w.server.tasks[i]? = some task → (w.endpoints i).closed = true →
      WindsDown w i (project i out) (actions.map (WireAction.delivered i)).sum task := by
  have hsound := (Wire.sound_new s).run hrun
  have hreceived := (Wire.sound_new s).received_le i hrun
  have hfresh : ((Wire.new s).endpoints i).inbound.unread = 0 := rfl
  rw [hfresh] at hreceived
  obtain ⟨serverActions, t, hserver, rfl⟩ := wire_simulates.run (t := s) rfl hrun
  have htrace := ServerTrace.run hnew hserver
  refine ⟨fun supply buffer hle => supply.readFrame_returns hle,
    fun S calls r results hcalls => finite_stream hcalls, by omega, ?_⟩
  intro task hi hclosed
  have hclosing : w.Closing i := ⟨hsound, hclosed, task, hi⟩
  constructor
  · have hgoes : (∃ ending suffix, task.phase = .leaving ending ⟨[], suffix⟩) ∨
        ∃ action, action ≠ .send 0 ∧ ((w.endpoints i).step w.server.shared task action).isSome :=
      Endpoint.exists_step (hsound i) hclosed
    rcases hgoes with ⟨ending, suffix, hphase⟩ | ⟨action, haction, hstep⟩
    · have hended := (htrace.tasks i task hi).ended hphase
      refine .inl ⟨ending, suffix, hphase, hended, ?_⟩
      rintro rfl
      exact Wire.no_panic (Wire.sound_new s) hrun i (mem_project.mp hended)
    · obtain ⟨⟨shared, task', endpoint, events⟩, hsome⟩ := Option.isSome_iff_exists.mp hstep
      exact .inr ⟨action, haction, by rw [Wire.step_connection hi hsome]; rfl⟩
  · intro more w' later hmore
    refine ⟨?_, Wire.sends_le i hmore⟩
    have hsteps := hclosing.proceeds_le hmore
    have hphase := task.phase.ahead_le (w.endpoints i).inbound.reading
    rw [Wire.ahead_eq hi, Endpoint.ahead] at hsteps
    simp only [Reader.unread] at hsteps hreceived
    omega

/-- The transport that delivers one byte at a time. -/
def Supply.bytewise (byte : UInt8) : Supply where
  deliver _ limit := List.replicate (min limit 1) byte
  within _ limit := by
    rw [List.length_replicate]
    exact Nat.min_le_left _ _
  nonempty _ limit h := by
    rw [Nat.min_eq_right h]
    simp

/-- The handler has served a SET, and its peer closes its side within the next request. -/
theorem reading_ends_served :
    (∃ result rest reads, readFrame (.bytewise 43) maxBufferedBytes [] = some (result, rest, reads) ∧
      reads ≤ maxBufferedBytes) ∧
    ∃ s w actions out task, Server.new 1 .new = some s ∧
      wire.run actions (Wire.new s) = some (w, out) ∧ (0, .written 1 (.simple "OK")) ∈ out ∧
      w.server.tasks[0]? = some task ∧
      WindsDown w 0 (project 0 out) (actions.map (WireAction.delivered 0)).sum task := by
  have hset : (Call.set "k" [1] (by decide) (by decide)).Fits := Call.fits_set (by decide)
  obtain ⟨s, hnew⟩ : ∃ s, Server.new 1 .new = some s := ⟨_, rfl⟩
  obtain ⟨w₀, hrun₀, hopened⟩ := Wire.run_opened 1 hnew (Nat.le_refl 1)
  obtain ⟨served, w₁, -, hrun₁, hwaits, -, -⟩ := (hopened.waits 0 (by decide)).ask hset
  obtain ⟨shutdownRx, htask⟩ := hwaits.task
  have hopen : (w₁.endpoints 0).closed = false := by rw [hwaits.endpoint]
  have hrun := wire.run_append.mpr ⟨_, _, _, hrun₀, wire.run_append.mpr ⟨_, _, _, hrun₁,
    Wire.run_deliver_close hopen [42], rfl⟩, rfl⟩
  have h := reading_ends 1 .new s _ _ _ 0 hnew hrun
  obtain ⟨result, rest, reads, hcall, hreads, -⟩ := h.1 (.bytewise 43) [] (Nat.zero_le _)
  refine ⟨⟨result, rest, reads, hcall, hreads⟩, s, _, _, _, _, hnew, hrun, ?_, htask,
    h.2.2.2 _ htask (by simp [Wire.close])⟩
  simp [Request.served, Call.request, Outcome.reply, Call.command, Command.apply]

end MiniRedis
