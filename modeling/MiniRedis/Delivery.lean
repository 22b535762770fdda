import MiniRedis.Exchange

/-!
# Replies reach their readers

Whatever the peers send, every reply of a handler is a frame that the project's
own reader gets back, and what the transport has taken is a prefix of the
concatenated encodings. The bound on the stored values comes from the buffer
limit of the reader and the cost of a SET.
-/
namespace MiniRedis

open Library

/-! ### What the reader can return -/

/-- The buffer and the awaited read stay within the budget. -/
def Reader.Bounded (s : Reader) : Prop :=
  s.buffer.length ≤ maxBufferedBytes ∧
    ∀ bytesLeft, s.reading = some bytesLeft → bytesLeft + s.buffer.length ≤ maxBufferedBytes

/-- A frame within the budget, or an error that may be reported. -/
def ReadResult.Reportable : ReadResult → Prop
  | .frame input => input.cost ≤ maxBufferedBytes
  | .eof => True
  | .error e => ReplyText e.display
  | .panic => False

theorem bufferLimit_text : ReplyText bufferLimitError.display :=
  replyText_of_short (by decide) (by decide)

theorem incompleteEof_text : ReplyText incompleteEofError.display :=
  replyText_of_short (by decide) (by decide)

/-- What `turn` decides about a buffer within the limit. -/
theorem settle_turn {buffer stream : Bytes} (hle : buffer.length ≤ maxBufferedBytes) {s : Reader}
    {results : List ReadResult} (h : Reader.settle stream (turn buffer) = (s, results)) :
    s.Bounded ∧ ∀ result ∈ results, result.Reportable := by
  have hturn := turn_cases buffer
  generalize turn buffer = outcome at h hturn
  cases hturn with
  | complete hd =>
    cases h
    have hcost := frameDecoder_charge hd
    have hused := frameDecoder_stable.used_le hd
    refine ⟨⟨?_, by simp⟩, ?_⟩
    · rw [List.length_drop]
      omega
    · exact List.forall_mem_singleton.mpr (Nat.le_trans hcost (Nat.le_trans hused hle))
  | invalid hd =>
    cases h
    exact ⟨⟨hle, by simp⟩, List.forall_mem_singleton.mpr (frameDecoder_rejects buffer _ hd)⟩
  | full hd hfull =>
    cases h
    exact ⟨⟨hle, by simp⟩, List.forall_mem_singleton.mpr bufferLimit_text⟩
  | waits hd hroom =>
    cases h
    refine ⟨⟨hle, ?_⟩, by simp⟩
    rintro bytesLeft hleft
    obtain rfl : maxBufferedBytes - buffer.length = bytesLeft := by simpa using hleft
    show maxBufferedBytes - buffer.length + buffer.length ≤ maxBufferedBytes
    omega

/-- A reader within its budget stays there, and only returns what can be reported. -/
theorem Reader.Bounded.step {s t : Reader} (h : s.Bounded) {action : ReadAction}
    {results : List ReadResult} (hfail : ∀ text, action = .fail text → ReplyText text)
    (hstep : Reader.step action s = some (t, results)) :
    t.Bounded ∧ ∀ result ∈ results, result.Reportable := by
  have hidle : Reader.Bounded { s with reading := none } := ⟨h.1, by simp⟩
  cases Reader.step_cases hstep with
  | call _ hsettle => exact settle_turn h.1 hsettle
  | chunk hreading hpos hlimit havailable hsettle =>
    have hbudget := h.2 _ hreading
    refine settle_turn ?_ hsettle
    rw [List.length_append, List.length_take]
    omega
  | eof => exact ⟨hidle, by simp [ReadResult.Reportable]⟩
  | cut => exact ⟨hidle, List.forall_mem_singleton.mpr incompleteEof_text⟩
  | fail _ text => exact ⟨hidle, List.forall_mem_singleton.mpr (hfail text rfl)⟩
  | cancel => exact ⟨hidle, by simp⟩

/-! ### What a task can attempt -/

/-- Every stored value fits in a reply. -/
def Database.Bounded (database : Database) : Prop :=
  ∀ key value, database.get key = some value → value.length ≤ maxStoredBytes

/-- The frames that a task holds: requests within the budget, and replies. -/
def Phase.Bounded : Phase → Prop
  | .received frame => frame.cost ≤ maxBufferedBytes
  | .counted frame => frame.cost ≤ maxBufferedBytes
  | .looked output => Sendable output
  | .replying output => Sendable output
  | .reporting error => ReplyText error.display
  | _ => True

theorem Database.Bounded.set {database : Database} (h : database.Bounded) {key : String}
    {value : Bytes} (hvalue : value.length ≤ maxStoredBytes) : (database.set key value).Bounded := by
  intro k v hget
  rw [Database.get_set] at hget
  split at hget
  · cases hget
    exact hvalue
  · exact h k v hget

theorem Database.Bounded.lookup {database : Database} (h : database.Bounded) (key : String) :
    Sendable (lookupReply (database.get key)) := by
  cases hget : database.get key with
  | none => exact sendable_null
  | some value => exact sendable_bulk (length_encode_bulk_le (h key value hget))

/-- One step keeps the bounds, and whatever it attempts to write can be sent. -/
theorem Task.Step.bounded {shared shared' : Shared} {task task' : Task} {action : TaskAction}
    {events : List Event} (h : task.Step shared action shared' task' events)
    (hphase : task.phase.Bounded) (hdatabase : shared.database.Bounded)
    (hresult : ∀ result, action = .readFrame result → result.Reportable) :
    task'.phase.Bounded ∧ shared'.database.Bounded ∧ ∀ frame ∈ attempts events, Sendable frame := by
  cases h with
  | readFrame _ frame =>
    have hframe := hresult _ rfl
    exact ⟨hframe, hdatabase, by simp [attempts, Event.attempt?]⟩
  | readError _ error =>
    have htext : ReplyText error.display := hresult _ rfl
    refine ⟨htext, hdatabase, ?_⟩
    simpa [attempts, Event.attempt?] using sendable_error htext
  | count frame hcounting =>
    rw [hcounting] at hphase
    exact ⟨hphase, hdatabase, by simp [attempts]⟩
  | lookUp frame command hcounted hparse =>
    refine ⟨?_, hdatabase, by simp [attempts, Event.attempt?]⟩
    have hreply := hdatabase.lookup command.key
    rwa [← Command.apply_get_fst] at hreply
  | store frame command hcounted hparse =>
    rw [hcounted] at hphase
    have hcost := Command.set_cost hparse
    refine ⟨sendable_ok, hdatabase.set ?_, ?_⟩
    · simp only [Phase.Bounded] at hphase
      simp only [maxStoredBytes]
      omega
    · simpa [attempts, Event.attempt?] using sendable_ok
  | reject frame error hcounted hparse =>
    have hreply := sendable_error (Command.fromFrame_error hparse)
    exact ⟨hreply, hdatabase, by simpa [attempts, Event.attempt?] using hreply⟩
  | countLookup output hlooked =>
    rw [hlooked] at hphase
    have hreply : Sendable output := hphase
    exact ⟨hreply, hdatabase, by simpa [attempts, Event.attempt?] using hreply⟩
  | drop ending resource rest suffix hleaving =>
    refine ⟨trivial, ?_, by simp [attempts]⟩
    cases resource <;> exact hdatabase
  | _ => exact ⟨trivial, hdatabase, by simp [attempts, Event.attempt?]⟩

/-! ### What the transport has taken -/

/-- Only these phases leave a part of a frame unsent. -/
def Phase.mayOwe : Phase → Bool
  | .replying _ => true
  | .reporting _ => true
  | .leaving _ _ => true
  | _ => false

theorem Phase.mayOwe_of_isWriting {phase : Phase} (h : phase.isWriting = true) :
    phase.mayOwe = true := by
  cases phase <;> first | rfl | cases h

/-- What is sent and unsent are the encodings of the attempted frames, and only the
last of them can be cut. -/
structure Sent (phase : Option Phase) (endpoint : Endpoint) (replies : List Frame) : Prop where
  total : endpoint.sent ++ endpoint.unsent = encodeAll replies
  last : endpoint.unsent = [] ∨
    ∃ done frame, replies = done ++ [frame] ∧ endpoint.unsent <:+ encode frame
  settled : (∀ p, phase = some p → p.mayOwe = false) → endpoint.unsent = []

@[simp] theorem encodeAll_singleton (frame : Frame) : encodeAll [frame] = encode frame := by
  simp [encodeAll]

/-- A step attempts one frame when nothing is owed, or none. -/
theorem Task.Step.attempts_cases {shared shared' : Shared} {task task' : Task}
    {action : TaskAction} {events : List Event}
    (h : task.Step shared action shared' task' events) :
    (∃ frame, attempts events = [frame] ∧ task.phase.mayOwe = false ∧ task'.phase.mayOwe = true) ∨
      attempts events = [] ∧
        (task'.phase.mayOwe = false → task.phase.mayOwe = false ∨ action = .writeOk) := by
  cases h with
  | start hphase => exact .inr ⟨rfl, fun _ => .inl (by rw [hphase]; rfl)⟩
  | enter hphase => exact .inr ⟨rfl, fun _ => .inl (by rw [hphase]; rfl)⟩
  | readFrame hphase => exact .inr ⟨rfl, fun _ => .inl (by rw [hphase]; rfl)⟩
  | readError hphase => exact .inl ⟨_, rfl, by rw [hphase]; rfl, rfl⟩
  | count frame hphase => exact .inr ⟨rfl, fun _ => .inl (by rw [hphase]; rfl)⟩
  | lookUp frame command hphase => exact .inr ⟨rfl, fun _ => .inl (by rw [hphase]; rfl)⟩
  | store frame command hphase => exact .inl ⟨_, rfl, by rw [hphase]; rfl, rfl⟩
  | reject frame error hphase => exact .inl ⟨_, rfl, by rw [hphase]; rfl, rfl⟩
  | countLookup output hphase => exact .inl ⟨_, rfl, by rw [hphase]; rfl, rfl⟩
  | write output hphase => exact .inr ⟨rfl, fun _ => .inr rfl⟩
  | countResponse hphase => exact .inr ⟨rfl, fun _ => .inl (by rw [hphase]; rfl)⟩
  -- The other steps lead to or stay in a leaving task.
  | _ => exact .inr ⟨rfl, fun howe => by cases howe⟩

/-- A step of the task, with the write that it begins. -/
theorem Sent.perform {phase : Option Phase} {task task' : Task} {shared shared' : Shared}
    {endpoint : Endpoint} {action : TaskAction} {events : List Event} {replies : List Frame}
    (h : Sent phase endpoint replies) (hphase : phase = some task.phase)
    (hwrite : action = .writeOk → endpoint.unsent = [])
    (hstep : task.Step shared action shared' task' events) (inbound : Reader) :
    Sent (some task'.phase)
      { endpoint with inbound, unsent := endpoint.unsent ++ encodeAll (attempts events) }
      (replies ++ attempts events) := by
  have hsettled : task.phase.mayOwe = false → endpoint.unsent = [] := by
    intro howe
    refine h.settled fun p hp => ?_
    rw [hphase] at hp
    cases hp
    exact howe
  refine ⟨?_, ?_, ?_⟩
  · rw [encodeAll_append, ← h.total, List.append_assoc]
  · rcases hstep.attempts_cases with ⟨frame, hattempts, howe, -⟩ | ⟨hattempts, -⟩
    · rw [hattempts, hsettled howe]
      exact .inr ⟨replies, frame, rfl, by simp⟩
    · rw [hattempts]
      simpa [encodeAll] using h.last
  · intro hnext
    have hnext' := hnext _ rfl
    rcases hstep.attempts_cases with ⟨frame, -, -, howe⟩ | ⟨hattempts, hback⟩
    · rw [howe] at hnext'
      cases hnext'
    · rw [hattempts]
      rcases hback hnext' with howe | rfl
      · simpa [encodeAll] using hsettled howe
      · simpa [encodeAll] using hwrite rfl

/-! ### The invariant on the wire -/

/-- What holds in every reachable state of the wire. -/
structure WireLaw (w : Wire) (out : List (ℕ × Event)) : Prop where
  database : w.server.shared.database.Bounded
  phases : ∀ (i : ℕ) (task : Task), w.server.tasks[i]? = some task → task.phase.Bounded
  readers : ∀ i, (w.endpoints i).inbound.Bounded
  sendable : ∀ i, ∀ frame ∈ attempts (project i out), Sendable frame
  sent : ∀ i,
    Sent (w.server.tasks[i]?.map Task.phase) (w.endpoints i) (attempts (project i out))

theorem Sent.congr {phase phase' : Option Phase} {endpoint endpoint' : Endpoint}
    {replies : List Frame} (h : Sent phase endpoint replies) (hsent : endpoint'.sent = endpoint.sent)
    (hunsent : endpoint'.unsent = endpoint.unsent)
    (hphase : (∀ p, phase' = some p → p.mayOwe = false) → ∀ p, phase = some p → p.mayOwe = false) :
    Sent phase' endpoint' replies where
  total := by rw [hsent, hunsent, h.total]
  last := by
    rw [hunsent]
    exact h.last
  settled hnew := by
    rw [hunsent]
    exact h.settled (hphase hnew)

/-- New tasks owe nothing and hold nothing. -/
theorem WireLaw.acceptor {w : Wire} {out : List (ℕ × Event)} (h : WireLaw w out)
    {action : AcceptorAction} {shared : Shared} {acceptor : Acceptor} {spawned : List Task}
    (hstep : w.server.acceptor.Step w.server.shared action shared acceptor spawned) :
    WireLaw { w with server :=
      { w.server with shared, acceptor, tasks := w.server.tasks ++ spawned } } out where
  database := by
    simp only [hstep.database_eq]
    exact h.database
  phases i task hi := by
    simp only [List.getElem?_append] at hi
    split at hi
    · exact h.phases i task hi
    · rw [hstep.spawned_phase task (List.mem_of_getElem? hi)]
      trivial
  readers := h.readers
  sendable := h.sendable
  sent i := by
    refine (h.sent i).congr rfl rfl fun hnew p hp => ?_
    refine hnew p ?_
    obtain ⟨task, hi, rfl⟩ := Option.map_eq_some_iff.mp hp
    have hlt := (List.getElem?_eq_some_iff.mp hi).1
    simp only [List.getElem?_append_left hlt, hi, Option.map_some]

theorem WireLaw.peer {w : Wire} {out : List (ℕ × Event)} (h : WireLaw w out) {i : ℕ}
    {action : PeerAction} {endpoint : Endpoint}
    (hstep : (w.endpoints i).peerStep action = some endpoint) :
    WireLaw { w with endpoints := Function.update w.endpoints i endpoint } out := by
  have hkeeps : endpoint.inbound.Bounded ∧ endpoint.sent = (w.endpoints i).sent ∧
      endpoint.unsent = (w.endpoints i).unsent := by
    have hreader := h.readers i
    rcases Endpoint.peerStep_cases hstep with ⟨bytes, -, -, rfl⟩ | ⟨-, rfl⟩
    · exact ⟨hreader, rfl, rfl⟩
    · exact ⟨hreader, rfl, rfl⟩
  obtain ⟨hreader, hsent, hunsent⟩ := hkeeps
  exact {
    database := h.database
    phases := h.phases
    readers := (Function.forall_update_iff w.endpoints
      (p := fun _ endpoint => endpoint.inbound.Bounded)).mpr
        ⟨hreader, fun j _ => h.readers j⟩
    sendable := h.sendable
    sent := (Function.forall_update_iff w.endpoints (p := fun j endpoint =>
      Sent (w.server.tasks[j]?.map Task.phase) endpoint (attempts (project j out)))).mpr
        ⟨(h.sent i).congr hsent hunsent id, fun j _ => h.sent j⟩ }

/-- What a step of one connection keeps for that connection. -/
theorem WireLaw.connection {w : Wire} {out : List (ℕ × Event)} (h : WireLaw w out) {i : ℕ}
    {action : EndpointAction} (hio : ∀ text, action = .readError text → ReplyText text)
    {task task' : Task} {shared : Shared} {endpoint : Endpoint} {events : List Event}
    (hi : w.server.tasks[i]? = some task)
    (hstep : (w.endpoints i).Step w.server.shared task action shared task' endpoint events) :
    shared.database.Bounded ∧ task'.phase.Bounded ∧ endpoint.inbound.Bounded ∧
      (∀ frame ∈ attempts events, Sendable frame) ∧
      Sent (some task'.phase) endpoint (attempts (project i out) ++ attempts events) := by
  have hphase := h.phases i task hi
  have hreader := h.readers i
  have hsent := h.sent i
  have hmap : w.server.tasks[i]?.map Task.phase = some task.phase := by rw [hi]; rfl
  have hnone : attempts [] = [] := rfl
  cases hstep with
  | wait _ readAction hselecting hread hfail hend =>
    have htext : ∀ text, readAction = .fail text → ReplyText text :=
      fun text heq => hio text (hfail text heq)
    refine ⟨h.database, hphase, (hreader.step htext hread).1, by simp [attempts], ?_⟩
    rw [hnone, List.append_nil]
    exact hsent.congr rfl rfl (by rw [hmap]; exact id)
  | returned _ readAction hselecting hread hfail hend htask =>
    have htext : ∀ text, readAction = .fail text → ReplyText text :=
      fun text heq => hio text (hfail text heq)
    obtain ⟨hnext, hresults⟩ := hreader.step htext hread
    have hstep' := Task.step_cases htask
    obtain ⟨hphase', hdatabase, hattempts⟩ := hstep'.bounded hphase h.database fun result heq => by
      cases heq
      exact hresults _ (List.mem_singleton_self _)
    exact ⟨hdatabase, hphase', hnext, hattempts, hsent.perform hmap (by simp) hstep' _⟩
  | send n hwriting hn =>
    refine ⟨h.database, hphase, hreader, by simp [attempts], ?_⟩
    rw [hnone, List.append_nil]
    refine ⟨?_, ?_, ?_⟩
    · simpa using hsent.total
    · rcases hsent.last with hnil | ⟨done, frame, hreplies, hsuffix⟩
      · exact .inl (by simp [hnil])
      · exact .inr ⟨done, frame, hreplies, (List.drop_suffix _ _).trans hsuffix⟩
    · intro howe
      have hnone := howe _ rfl
      cases hp : task.phase <;> simp_all [Phase.mayOwe, Phase.isWriting]
  | task action next hnext hnoread hwrite htask =>
    have hstep' := Task.step_cases htask
    obtain ⟨hphase', hdatabase, hattempts⟩ := hstep'.bounded hphase h.database fun result heq =>
      absurd heq (hnoread result)
    refine ⟨hdatabase, hphase', ?_, hattempts, hsent.perform hmap hwrite hstep' _⟩
    rcases hnext with rfl | rfl
    · exact hreader
    · exact ⟨hreader.1, by simp⟩

theorem WireLaw.step {w w' : Wire} {out now : List (ℕ × Event)} (h : WireLaw w out)
    {action : WireAction}
    (hio : ∀ i text, action = .connection i (.readError text) → ReplyText text)
    (hstep : wire.step action w = some (w', now)) : WireLaw w' (out ++ now) := by
  cases Wire.step_cases hstep with
  | acceptor action hact =>
    cases Server.step_cases hact with
    | acceptor _ hacceptor =>
      rw [List.append_nil]
      exact h.acceptor hacceptor
  | caller action hact =>
    cases Server.step_cases hact with
    | send =>
      rw [List.append_nil]
      exact ⟨h.database, h.phases, h.readers, h.sendable, h.sent⟩
    | dropShutdownTx =>
      rw [List.append_nil]
      exact ⟨h.database, h.phases, h.readers, h.sendable, h.sent⟩
    | dropCompleteTx =>
      rw [List.append_nil]
      exact ⟨h.database, h.phases, h.readers, h.sendable, h.sent⟩
  | peer i action hpeer =>
    rw [List.append_nil]
    exact h.peer hpeer
  | @connection i action task task' shared endpoint events hi hact =>
    obtain ⟨hdatabase, hphase, hreader, hattempts, hsent⟩ := h.connection
      (fun text heq => hio i text (by rw [heq])) hi hact
    have hlt := (List.getElem?_eq_some_iff.mp hi).1
    exact {
      database := hdatabase
      phases := by
        intro j other hj
        by_cases hji : i = j
        · subst hji
          rw [List.getElem?_set_self hlt] at hj
          cases hj
          exact hphase
        · rw [List.getElem?_set_ne hji] at hj
          exact h.phases j other hj
      readers := (Function.forall_update_iff w.endpoints
        (p := fun _ endpoint => endpoint.inbound.Bounded)).mpr
          ⟨hreader, fun j _ => h.readers j⟩
      sendable := by
        intro j frame hmem
        rw [project_append, attempts, List.filterMap_append, List.mem_append] at hmem
        rcases hmem with hmem | hmem
        · exact h.sendable j frame hmem
        · by_cases hji : i = j
          · subst hji
            rw [project_map_self] at hmem
            exact hattempts frame hmem
          · rw [project_map_ne hji] at hmem
            cases hmem
      sent := by
        refine (Function.forall_update_iff w.endpoints (p := fun j endpoint =>
          Sent ((w.server.tasks.set i task')[j]?.map Task.phase) endpoint
            (attempts (project j (out ++ events.map fun event => (i, event)))))).mpr ⟨?_, ?_⟩
        · rw [List.getElem?_set_self hlt, project_append, project_map_self, attempts,
            List.filterMap_append]
          exact hsent
        · intro j hji
          rw [List.getElem?_set_ne (Ne.symm hji), project_append, project_map_ne (Ne.symm hji),
            List.append_nil]
          exact h.sent j }

theorem WireLaw.new {maxConnections : ℕ} {s : Server}
    (hnew : Server.new maxConnections .new = some s) : WireLaw (Wire.new s) [] := by
  obtain ⟨htasks, hdatabase⟩ := Server.tasks_new hnew
  have hendpoint : ∀ i, (Wire.new s).endpoints i = .new := fun _ => rfl
  refine ⟨?_, ?_, fun i => ?_, by simp [attempts], fun i => ?_⟩
  · simp [Wire.new, hdatabase, Database.Bounded]
  · simp [Wire.new, htasks]
  · rw [hendpoint]
    exact ⟨Nat.zero_le _, by simp [Endpoint.new]⟩
  · rw [hendpoint]
    exact ⟨rfl, .inl rfl, fun _ => rfl⟩

/-- The law holds in every reachable state, when every transport error can be reported. -/
theorem WireLaw.run {maxConnections : ℕ} {s : Server} {w : Wire} {actions : List WireAction}
    {out : List (ℕ × Event)} (hnew : Server.new maxConnections .new = some s)
    (hio : ∀ i text, .connection i (.readError text) ∈ actions → ReplyText text)
    (hrun : wire.run actions (Wire.new s) = some (w, out)) : WireLaw w out := by
  have hmeets := wire.meets_of_forall
    (C := fun action _ => ∀ i text, action = .connection i (.readError text) → ReplyText text)
    (fun action hmem _ i text heq => hio i text (heq ▸ hmem)) (Wire.new s)
  have hstep : ∀ w out action w' now, WireLaw w out →
      (∀ i text, action = .connection i (.readError text) → ReplyText text) →
      wire.step action w = some (w', now) → WireLaw w' (out ++ now) :=
    fun _ _ _ _ _ hw hC hstep => hw.step hC hstep
  simpa using wire.run_invariant_of_meets hstep (WireLaw.new hnew) hmeets hrun

/-! ### What the peer reads -/

/-- Under every schedule of reads and calls, a reader of the stream gets the frames
in order and then the same result forever; every number of results is reached. -/
structure ReadsAs (stream : Bytes) (frames : List Frame) (rest : ReadResult) : Prop where
  results_prefix : ∀ actions s results, (∀ text, .fail text ∉ actions) →
    reader.run actions ⟨stream, [], none⟩ = some (s, results) →
    results <+: frames.map .frame ++ List.replicate results.length rest
  results_reached : ∀ calls, ∃ actions s results, (∀ text, .fail text ∉ actions) ∧
    reader.run actions ⟨stream, [], none⟩ = some (s, results) ∧ results.length = calls

theorem readsAs_encodeAll {frames : List Frame} (hframes : ∀ frame ∈ frames, Deliverable frame)
    {tail : Bytes} {rest : ReadResult} (htail : referenceCall tail = (rest, tail)) :
    ReadsAs (encodeAll frames ++ tail) frames rest where
  results_prefix actions s results hio hrun := by
    have hfollows := (Follows.init (encodeAll frames ++ tail)).run hio hrun
    have hprefix := reference_encodeAll hframes htail results.length
    have hresults := hfollows.results_eq
    rw [List.nil_append] at hresults
    rwa [← hresults] at hprefix
  results_reached calls := by
    obtain ⟨actions, s, results, hio, hrun, hlength⟩ :=
      (Follows.init (encodeAll frames ++ tail)).exists_results calls
    exact ⟨actions, s, results, hio, hrun, hlength⟩

/-- What one connection has been sent, and what its peer makes of it. -/
structure Delivered (endpoint : Endpoint) (events : List Event) : Prop where
  /-- The bytes sent are a prefix of the encodings of the reply frames. -/
  sent : endpoint.sent <+: encodeAll (attempts events)
  /-- The reply frames answer the executed requests one by one; a failed read adds its report. -/
  replies : (∃ unanswered, attempts events ++ unanswered = (outcomes events).map Outcome.reply ∧
      unanswered.length ≤ 1) ∨
    ∃ error, .readFailed error ∈ events ∧
      attempts events = (outcomes events).map Outcome.reply ++ [.error error.display]
  lineSafe : ∀ frame ∈ attempts events, frame.LineSafe
  fits : ∀ frame ∈ attempts events, (encode frame).length ≤ maxBufferedBytes
  /-- When all of them are written, the peer reads exactly the reply frames and EOF. -/
  complete : endpoint.sent = encodeAll (attempts events) →
    ReadsAs endpoint.sent (attempts events) .eof
  /-- Otherwise only the last frame is cut, and all others are read. -/
  cut : endpoint.sent ≠ encodeAll (attempts events) →
    ∃ done frame, attempts events = done ++ [frame] ∧
      (ReadsAs endpoint.sent done .eof ∨ ReadsAs endpoint.sent done (.error incompleteEofError))

theorem Sent.delivered {phase : Option Phase} {endpoint : Endpoint} {events : List Event}
    (h : Sent phase endpoint (attempts events))
    (hsendable : ∀ frame ∈ attempts events, Sendable frame)
    (hreplies : (∃ unanswered, attempts events ++ unanswered =
        (outcomes events).map Outcome.reply ∧ unanswered.length ≤ 1) ∨
      ∃ error, .readFailed error ∈ events ∧
        attempts events = (outcomes events).map Outcome.reply ++ [.error error.display]) :
    Delivered endpoint events where
  sent := ⟨endpoint.unsent, h.total⟩
  replies := hreplies
  lineSafe frame hmem := (hsendable frame hmem).lineSafe
  fits frame hmem := (hsendable frame hmem).fits
  complete hall := by
    have hreads : ReadsAs (encodeAll (attempts events) ++ []) (attempts events) .eof :=
      readsAs_encodeAll (fun frame hmem => (hsendable frame hmem).deliverable) referenceCall_nil
    rw [hall]
    rwa [List.append_nil] at hreads
  cut hcut := by
    have htotal := h.total
    have hunsent : endpoint.unsent ≠ [] := by
      intro hnil
      rw [hnil, List.append_nil] at htotal
      exact hcut htotal
    obtain ⟨done, frame, hattempts, front, hfront⟩ := h.last.resolve_left hunsent
    have hsent : endpoint.sent = encodeAll done ++ front := by
      rw [hattempts, encodeAll_append, encodeAll_singleton, ← hfront, ← List.append_assoc] at htotal
      exact List.append_cancel_right htotal
    have hdone : ∀ f ∈ done, Deliverable f := fun f hmem =>
      (hsendable f (by rw [hattempts]; exact List.mem_append_left _ hmem)).deliverable
    have hframe : Deliverable frame :=
      (hsendable frame (by rw [hattempts]; exact List.mem_append_right _ (by simp))).deliverable
    refine ⟨done, frame, hattempts, ?_⟩
    rw [hsent]
    by_cases hnone : front = []
    · subst hnone
      exact .inl (readsAs_encodeAll hdone referenceCall_nil)
    · exact .inr (readsAs_encodeAll hdone (hframe.referenceCall_cut hfront hnone hunsent))

/-- Everything that handlers write is readable by the project's own reader: for any
byte streams of any number of connections, in any interleaving, when the texts of
transport errors are lines that fit in a reply. One order of the applied commands says
what the replies are: a GET is answered with all of the last value set before it as one
`Bulk` frame, or with `Null`. -/
theorem replies_delivered (maxConnections : ℕ) (s : Server) (w : Wire) (actions : List WireAction)
    (out : List (ℕ × Event)) (hnew : Server.new maxConnections .new = some s)
    (hio : ∀ i text, .connection i (.readError text) ∈ actions → ReplyText text)
    (hrun : wire.run actions (Wire.new s) = some (w, out)) :
    (∀ i, Delivered (w.endpoints i) (project i out)) ∧
      (∀ key value, w.server.shared.database.get key = some value →
        (encode (.bulk value)).length ≤ maxBufferedBytes) ∧
      ∃ order, Linearizes out order ∧
        ∀ key, w.server.shared.database.get key = lastSet key (order.map (·.2.operation)) := by
  have hlaw := WireLaw.run hnew hio hrun
  obtain ⟨serverActions, t, hserver, rfl⟩ := wire_simulates.run (t := s) rfl hrun
  have htrace := ServerTrace.run hnew hserver
  refine ⟨fun i => (hlaw.sent i).delivered (hlaw.sendable i) (htrace.attempts_eq i), ?_,
    (Replays.run hnew hserver).exists_order htrace⟩
  intro key value hget
  exact length_encode_bulk_le (hlaw.database key value hget)

/-- The value `\r\n` is set on one connection and comes back on another; then the transport of
the first one fails. -/
theorem replies_delivered_lines :
    ∃ s w actions out, Server.new 2 .new = some s ∧
      wire.run actions (Wire.new s) = some (w, out) ∧
      (w.endpoints 0).sent = encode (.simple "OK") ∧
      (w.endpoints 0).unsent = encode (.error "reset") ∧
      (w.endpoints 1).sent = encode (.bulk [13, 10]) ∧
      (∀ i, Delivered (w.endpoints i) (project i out)) ∧
      (∀ key value, w.server.shared.database.get key = some value →
        (encode (.bulk value)).length ≤ maxBufferedBytes) ∧
      ∃ order, Linearizes out order ∧
        ∀ key, w.server.shared.database.get key = lastSet key (order.map (·.2.operation)) := by
  have hset : (Call.set "k" [13, 10] (by decide) (by decide)).Fits := Call.fits_set (by decide)
  have hget := (Call.fits_get_of_set hset).1
  obtain ⟨s, hnew⟩ : ∃ s, Server.new 2 .new = some s := ⟨_, rfl⟩
  obtain ⟨w₀, hrun₀, hopened⟩ := Wire.run_opened 2 hnew (Nat.le_refl 2)
  obtain ⟨first, w₁, hfirst, hrun₁, hwaits₁, hdatabase₁, hothers₁⟩ :=
    (hopened.waits 0 (by decide)).ask hset
  obtain ⟨second, w₂, hsecond, hrun₂, hwaits₂, -, hothers₂⟩ :=
    ((hopened.waits 1 (by decide)).alike (hothers₁ 1 (by decide))).ask hget
  have hvalue : ((Call.get "k" (by decide)).command.apply w₁.server.shared.database).1 =
      .bulk [13, 10] := by
    rw [hdatabase₁, hopened.database]
    rfl
  rw [hvalue] at hwaits₂
  have hwaits : w₂.Waits 0 [] 1 (encode (.simple "OK")) := hwaits₁.alike (hothers₂ 0 (by decide))
  obtain ⟨shutdownRx, htask⟩ := hwaits.task
  have hreset := Endpoint.run_fail w₂.server.shared "reset" shutdownRx 1 false
    (encode (.simple "OK"))
  rw [← hwaits.endpoint] at hreset
  have hrun := wire.run_append.mpr ⟨_, _, _, hrun₀, wire.run_append.mpr ⟨_, _, _, hrun₁,
    wire.run_append.mpr ⟨_, _, _, hrun₂, wire_run_endpoint htask hreset, rfl⟩, rfl⟩, rfl⟩
  refine ⟨s, _, _, _, hnew, hrun, ?_, ?_, ?_, replies_delivered 2 s _ _ _ hnew ?_ hrun⟩
  · simp only [Function.update_self]
  · simp only [Function.update_self]
  · simp only [Function.update_of_ne one_ne_zero, hwaits₂.endpoint, List.nil_append]
  · intro i text hmem
    simp only [List.mem_append, List.mem_cons, List.mem_map, reduceCtorEq, false_or,
      List.not_mem_nil, or_false, List.map_cons, List.map_nil, WireAction.connection.injEq,
      and_false, EndpointAction.readError.injEq] at hmem
    rcases hmem with hmem | ⟨own, hmem, -, rfl⟩ | ⟨own, hmem, -, rfl⟩ | ⟨-, rfl⟩
    · rcases Wire.of_mem_opened hmem with ⟨own, heq⟩ | ⟨j, own, heq, hundisturbed⟩
      · cases heq
      · cases heq
        exact absurd hundisturbed not_false
    · exact absurd (hfirst _ hmem) not_false
    · exact absurd (hsecond _ hmem) not_false
    · exact replyText_of_short (by decide) (by decide)

end MiniRedis
