import MiniRedis.Delivery
import MiniRedis.Writer

/-!
# Connections with their buffered writers

On the wire the transport takes the bytes of a frame straight from `write_frame`. Here
each connection has the `BufWriter` of the code between the two, and its writes fail or
are dropped where the code awaits them. Every such run is a run on the wire.
-/
namespace MiniRedis

open Library

/-- The handler's side of a connection, with the buffer of its writer. -/
structure Socket where
  inbound : Reader
  /-- The peer sends nothing more. -/
  closed : Bool
  outbound : FrameWriter

inductive SocketAction where
  /-- `select!` polls `read_frame` for the first time. -/
  | poll
  /-- The awaited read delivers `n` bytes. -/
  | read (n : ℕ)
  | readError (text : String)
  /-- `write_frame` goes on without awaiting. -/
  | proceed
  /-- The TCP stream takes `n` bytes. -/
  | take (n : ℕ)
  | writeError (text : String)
  /-- Any other step of the task. -/
  | task (action : TaskAction)

namespace Socket

def new : Socket := ⟨⟨[], [], none⟩, false, .new⟩

/-- What the wire sees of a connection. -/
def endpoint (socket : Socket) : Endpoint :=
  ⟨socket.inbound, socket.closed, socket.outbound.writer.sent, socket.outbound.unsent⟩

def peerStep (socket : Socket) : PeerAction → Option Socket
  | .deliver bytes =>
    if socket.closed then none
    else some { socket with inbound := socket.inbound.deliver bytes }
  | .close => some { socket with closed := true }

variable (capacity : ℕ) (shared : Shared) (task : Task)

/-- A step of the writer, inside or at the end of a call. -/
def write (action : WriteAction Frame String) (socket : Socket) :
    Option (Socket × List (Frame × FrameWriteEnd)) :=
  match CallWriter.step capacity writeData action socket.outbound with
  | some (outbound, ended) => some ({ socket with outbound }, ended)
  | none => none

/-- A step of the task; an attempted frame is a call of `write_frame`. -/
def perform (action : TaskAction) (socket : Socket) : Option (Shared × Task × Socket × List Event) :=
  match task.step shared action with
  | some (shared, task, events) =>
    match attempts events with
    | [] => some (shared, task, socket, events)
    | frame :: _ =>
      match socket.write capacity (.begin frame) with
      | some (socket, _) => some (shared, task, socket, events)
      | none => none
  | none => none

/-- The reader waits on, or returns a result to the task. -/
def settle (socket : Socket) : Option (Reader × List ReadResult) →
    Option (Shared × Task × Socket × List Event)
  | some (inbound, []) => some (shared, task, { socket with inbound }, [])
  | some (inbound, [result]) =>
    perform capacity shared task (.readFrame result) { socket with inbound }
  | _ => none

/-- `write_frame` goes on, or returns to the task. -/
def resume : Option (Socket × List (Frame × FrameWriteEnd)) →
    Option (Shared × Task × Socket × List Event)
  | some (socket, []) => some (shared, task, socket, [])
  | some (socket, [(_, .done)]) => perform capacity shared task .writeOk socket
  | some (socket, [(_, .failed text)]) => perform capacity shared task (.writeFail text) socket
  | _ => none

def step (socket : Socket) : SocketAction → Option (Shared × Task × Socket × List Event)
  | .poll =>
    if task.phase.isSelecting then
      settle capacity shared task socket (Reader.step .call socket.inbound)
    else none
  | .read n =>
    if task.phase.isSelecting ∧ (n = 0 → socket.closed) then
      settle capacity shared task socket (Reader.step (.read n) socket.inbound)
    else none
  | .readError text =>
    if task.phase.isSelecting then
      settle capacity shared task socket (Reader.step (.fail text) socket.inbound)
    else none
  | .proceed =>
    if task.phase.isWriting then resume capacity shared task (socket.write capacity .proceed)
    else none
  | .take n =>
    if task.phase.isWriting then resume capacity shared task (socket.write capacity (.take n))
    else none
  | .writeError text =>
    if task.phase.isWriting then resume capacity shared task (socket.write capacity (.fail text))
    else none
  | .task (.readFrame _) => none
  | .task .writeOk => none
  | .task (.writeFail _) => none
  | .task action =>
    if task.phase.isWriting then
      -- Only a cancellation ends the task here; it drops the future of `write_frame`.
      match socket.write capacity .cancel with
      | some (socket, _) => perform capacity shared task action socket
      | none => none
    else
      perform capacity shared task action
        { socket with inbound := { socket.inbound with reading := none } }

end Socket

/-- The server and the sockets of its connections, also of those still pending. -/
structure Sockets where
  server : Server
  sockets : ℕ → Socket

inductive SocketsAction where
  | acceptor (action : AcceptorAction)
  | caller (action : CallerAction)
  | peer (i : ℕ) (action : PeerAction)
  | connection (i : ℕ) (action : SocketAction)

namespace Sockets

def new (server : Server) : Sockets := ⟨server, fun _ => .new⟩

def step (capacity : ℕ) (action : SocketsAction) (s : Sockets) :
    Option (Sockets × List (ℕ × Event)) :=
  match action with
  | .acceptor action =>
    match MiniRedis.server.step (.acceptor action) s.server with
    | some (server, out) => some ({ s with server }, out)
    | none => none
  | .caller action =>
    match MiniRedis.server.step (.caller action) s.server with
    | some (server, out) => some ({ s with server }, out)
    | none => none
  | .peer i action =>
    match (s.sockets i).peerStep action with
    | some socket => some ({ s with sockets := Function.update s.sockets i socket }, [])
    | none => none
  | .connection i action =>
    match s.server.tasks[i]? with
    | some task =>
      match (s.sockets i).step capacity s.server.shared task action with
      | some (shared, task, socket, events) =>
        some (⟨{ s.server with shared, tasks := s.server.tasks.set i task },
          Function.update s.sockets i socket⟩, events.map fun event => (i, event))
      | none => none
    | none => none

end Sockets

/-- All interleavings of the server, the buffers, the TCP streams and the peers. -/
def sockets (capacity : ℕ) : Machine Sockets SocketsAction (ℕ × Event) := ⟨Sockets.step capacity⟩

/-! ### A socket does what its endpoint does -/

/-- The socket is seen as this endpoint. Once a handler has left, the wire does not tell
what it has left in the buffer from what it has not written. -/
structure Socket.Refines (socket : Socket) (phase : Option Phase) (endpoint : Endpoint) : Prop where
  inbound : endpoint.inbound = socket.inbound
  closed : endpoint.closed = socket.closed
  sent : endpoint.sent = socket.outbound.writer.sent
  reading : (∀ p, phase = some p → p.isSelecting = false) → socket.inbound.reading = none
  writing : ∀ p, phase = some p → p.isWriting = true →
    socket.outbound.phase.call? ≠ none ∧ endpoint.unsent = socket.outbound.unsent
  settled : (∀ p, phase = some p → p.mayOwe = false) → socket.outbound.phase = .idle ∧
    socket.outbound.writer.pending = [] ∧ endpoint.unsent = []

theorem Socket.refines_new : Socket.new.Refines none .new :=
  ⟨rfl, rfl, rfl, fun _ => rfl, by simp, fun _ => ⟨rfl, rfl, rfl⟩⟩

/-- A step leads to a phase that awaits `write_frame` exactly when it calls it. -/
theorem Task.Step.isWriting_iff {shared shared' : Shared} {task task' : Task}
    {action : TaskAction} {events : List Event}
    (h : task.Step shared action shared' task' events) :
    task'.phase.isWriting = true ↔ attempts events ≠ [] := by
  cases h <;> simp [attempts, Event.attempt?, Phase.isWriting]

theorem Phase.isSelecting_of_isWriting {phase : Phase} (h : phase.isWriting = true) :
    phase.isSelecting = false := by
  cases phase <;> first | rfl | cases h

namespace Socket

variable {capacity : ℕ} {shared shared' : Shared} {task task' : Task}
  {socket socket' : Socket} {endpoint : Endpoint} {events : List Event}

theorem write_eq_some {action : WriteAction Frame String}
    {ended : List (Frame × FrameWriteEnd)}
    (h : socket.write capacity action = some (socket', ended)) :
    ∃ outbound, socket' = { socket with outbound } ∧
      CallWriter.Step writeData socket.outbound action outbound ended := by
  unfold write at h
  split at h
  · rename_i hstep
    cases h
    exact ⟨_, rfl, CallWriter.step_cases hstep⟩
  · cases h

/-- A step of the task is the same step at the endpoint. -/
theorem perform_refines {action : TaskAction}
    (h : perform capacity shared task action socket = some (shared', task', socket', events))
    (hinbound : endpoint.inbound = socket.inbound) (hclosed : endpoint.closed = socket.closed)
    (hsent : endpoint.sent = socket.outbound.writer.sent) (hreading : socket.inbound.reading = none)
    (hsettled : task.phase.mayOwe = false ∨ action = .writeOk → socket.outbound.phase = .idle ∧
      socket.outbound.writer.pending = [] ∧ endpoint.unsent = []) :
    task.step shared action = some (shared', task', events) ∧
      socket'.Refines (some task'.phase)
        { endpoint with unsent := endpoint.unsent ++ encodeAll (attempts events) } := by
  unfold perform at h
  split at h
  · rename_i shared₁ task₁ events₁ htask
    have hstep := Task.step_cases htask
    have howes := hstep.attempts_cases
    have hwriting := hstep.isWriting_iff
    split at h
    · rename_i hnone
      cases h
      refine ⟨htask, hinbound, hclosed, hsent, fun _ => hreading, ?_, ?_⟩
      · rintro p hp hwrites
        cases hp
        exact absurd hnone (hwriting.mp hwrites)
      · intro hidle
        rcases howes with ⟨frame, hone, -⟩ | ⟨-, hback⟩
        · rw [hone] at hnone
          cases hnone
        · obtain ⟨hphase, hpending, hunsent⟩ := hsettled (hback (hidle _ rfl))
          exact ⟨hphase, hpending, by simp [hnone, hunsent, encodeAll]⟩
    · rename_i frame later hattempts
      split at h
      · rename_i hwrite
        cases h
        obtain ⟨outbound, rfl, hbegin⟩ := write_eq_some hwrite
        rcases howes with ⟨_, hone, howe, howe'⟩ | ⟨hnone, -⟩
        · rw [hone] at hattempts
          cases hattempts
          obtain ⟨hphase, hpending, hunsent⟩ := hsettled (.inl howe)
          refine ⟨htask, hinbound, hclosed, ?_, fun _ => hreading, ?_, ?_⟩
          · cases hbegin with
            | begin _ _ => exact hsent
            | advance _ n moved haction => simp at haction
            | stop _ call ending haction => simp at haction
          · intro p hp hwrites
            cases hbegin with
            | begin _ _ =>
              refine ⟨by simp [WritePhase.call?], ?_⟩
              simp [CallWriter.unsent, WritePhase.rest, hpending, hunsent, hone,
                flatten_writeData]
            | advance _ n moved haction => simp at haction
            | stop _ call ending haction => simp at haction
          · intro hidle
            rw [hidle _ rfl] at howe'
            cases howe'
        · rw [hnone] at hattempts
          cases hattempts
      · cases h
  · cases h

theorem reading_of_settle {stream : Bytes} {progress : Progress × Bytes} {next : Reader}
    {result : ReadResult} (h : Reader.settle stream progress = (next, [result])) :
    next.reading = none := by
  rcases progress with ⟨result | bytesLeft, buffer⟩ <;> cases h
  rfl

/-- A reader that returns awaits nothing more. -/
theorem reading_of_returned {reader next : Reader} {action : ReadAction} {result : ReadResult}
    (h : Reader.step action reader = some (next, [result])) : next.reading = none := by
  cases Reader.step_cases h with
  | call _ hsettle => exact reading_of_settle hsettle
  | chunk _ _ _ _ hsettle => exact reading_of_settle hsettle
  | _ => rfl

theorem settle_refines {readAction : ReadAction} (hphase : task.phase.isSelecting = true)
    (hrefines : socket.Refines (some task.phase) endpoint)
    (h : settle capacity shared task socket (Reader.step readAction socket.inbound) =
      some (shared', task', socket', events)) :
    ∃ endpoint', Endpoint.settle shared task endpoint
        (Reader.step readAction endpoint.inbound) = some (shared', task', endpoint', events) ∧
      socket'.Refines (some task'.phase) endpoint' := by
  have hselecting := Phase.eq_selecting hphase
  have hsettled := hrefines.settled fun p hp => by
    cases hp
    rw [hselecting]
    rfl
  rw [hrefines.inbound]
  rcases hread : Reader.step readAction socket.inbound with _ | ⟨next, _ | ⟨result, _ | more⟩⟩
  · rw [hread] at h
    cases h
  · rw [hread] at h
    cases h
    refine ⟨_, rfl, rfl, hrefines.closed, hrefines.sent, ?_, ?_, fun _ => hsettled⟩
    · intro hother
      rw [hother _ rfl] at hphase
      cases hphase
    · rintro p hp hwrites
      cases hp
      rw [hselecting] at hwrites
      cases hwrites
  · rw [hread] at h
    have hreading : ({ socket with inbound := next } : Socket).inbound.reading = none :=
      reading_of_returned hread
    obtain ⟨htask, hnext⟩ := @perform_refines _ _ _ _ _ _ _ { endpoint with inbound := next } _ _
      h rfl hrefines.closed hrefines.sent hreading fun _ => hsettled
    refine ⟨_, ?_, hnext⟩
    simp only [Endpoint.settle, Endpoint.perform, htask]
  · rw [hread] at h
    cases h

/-- The reader of an endpoint in these phases awaits nothing. -/
theorem Refines.dropped (h : socket.Refines (some task.phase) endpoint)
    (hphase : task.phase.isWriting = true) :
    { endpoint.inbound with reading := none } = endpoint.inbound := by
  have hreading := h.reading fun p hp => by
    cases hp
    exact Phase.isSelecting_of_isWriting hphase
  rw [← h.inbound] at hreading
  obtain ⟨⟨stream, buffer, reading⟩, closed, sent, unsent⟩ := endpoint
  cases hreading
  rfl

/-- The call of `write_frame` has ended, and the task goes on. -/
theorem perform_refines_ended {writer : BufWriter UInt8} {taskAction : TaskAction}
    (hphase : task.phase.isWriting = true) (hrefines : socket.Refines (some task.phase) endpoint)
    (hsent : writer.sent = socket.outbound.writer.sent)
    (hdone : taskAction = .writeOk → writer.pending = [] ∧ endpoint.unsent = [])
    (h : perform capacity shared task taskAction { socket with outbound := ⟨writer, .idle⟩ } =
      some (shared', task', socket', events)) :
    task.step shared taskAction = some (shared', task', events) ∧
      socket'.Refines (some task'.phase)
        { endpoint with unsent := endpoint.unsent ++ encodeAll (attempts events) } := by
  refine perform_refines h hrefines.inbound hrefines.closed ?_ ?_ ?_
  · exact hrefines.sent.trans hsent.symm
  · refine hrefines.reading fun p hp => ?_
    cases hp
    exact Phase.isSelecting_of_isWriting hphase
  · rintro (hidle | hok)
    · rw [Phase.mayOwe_of_isWriting hphase] at hidle
      cases hidle
    · exact ⟨rfl, hdone hok⟩

theorem resume_refines {action : WriteAction Frame String} (hphase : task.phase.isWriting = true)
    (hrefines : socket.Refines (some task.phase) endpoint)
    (h : resume capacity shared task (socket.write capacity action) =
      some (shared', task', socket', events)) :
    ∃ action' endpoint',
      endpoint.step shared task action' = some (shared', task', endpoint', events) ∧
      socket'.Refines (some task'.phase) endpoint' ∧ ∀ text, action' ≠ .readError text := by
  obtain ⟨hcall, hunsent⟩ := hrefines.writing _ rfl hphase
  rcases hwrite : socket.write capacity action with _ | ⟨next, ended⟩
  · rw [hwrite] at h
    cases h
  · rw [hwrite] at h
    obtain ⟨outbound, rfl, hstep⟩ := write_eq_some hwrite
    cases hstep with
    | begin _ hidle =>
      rw [hidle] at hcall
      exact absurd rfl hcall
    | advance _ n moved haction hcall' hrest htotal hn hsent =>
      cases h
      refine ⟨.send n, _, if_pos ⟨hphase, by rwa [hunsent]⟩, ⟨hrefines.inbound, hrefines.closed,
        ?_, hrefines.reading, ?_, ?_⟩, by simp⟩
      · show endpoint.sent ++ endpoint.unsent.take n = outbound.writer.sent
        rw [hsent, hunsent, hrefines.sent]
      · rintro p hp -
        refine ⟨?_, ?_⟩
        · rw [hcall'.2]
          exact hcall
        · show endpoint.unsent.drop n = outbound.unsent
          rw [hunsent, CallWriter.Step.unsent_eq hrest htotal hsent]
      · intro hidle
        have howe := hidle _ rfl
        rw [Phase.mayOwe_of_isWriting hphase] at howe
        cases howe
    | done call hflushing hpending =>
      have hnil : endpoint.unsent = [] := by
        rw [hunsent, CallWriter.unsent, hflushing, hpending]
        rfl
      change perform capacity shared task _ _ = _ at h
      obtain ⟨htask, hnext⟩ := perform_refines_ended hphase hrefines rfl
        (fun _ => ⟨hpending, hnil⟩) h
      refine ⟨.task .writeOk, _, ?_, hnext, by simp⟩
      simp only [Endpoint.step, hnil, if_true, Endpoint.perform, htask]
    | stop _ call ending hending hcall' hsent htotal =>
      rcases hending with ⟨text, -, rfl⟩ | ⟨-, rfl⟩
      · change perform capacity shared task _ _ = _ at h
        obtain ⟨htask, hnext⟩ := perform_refines_ended hphase hrefines hsent (by simp) h
        refine ⟨.task (.writeFail text), _, ?_, hnext, by simp⟩
        simp only [Endpoint.step, hrefines.dropped hphase, Endpoint.perform, htask]
      · cases h

/-- Leaving the `select!`, or cutting a call of `write_frame` short. -/
theorem task_refines {taskAction : TaskAction} (hok : taskAction ≠ .writeOk)
    (hrefines : socket.Refines (some task.phase) endpoint)
    (h : (if task.phase.isWriting then
        match socket.write capacity .cancel with
        | some (socket, _) => perform capacity shared task taskAction socket
        | none => none
      else perform capacity shared task taskAction
        { socket with inbound := { socket.inbound with reading := none } }) =
      some (shared', task', socket', events)) :
    ∃ endpoint', Endpoint.perform shared task
        { endpoint with inbound := { endpoint.inbound with reading := none } } taskAction =
          some (shared', task', endpoint', events) ∧
      socket'.Refines (some task'.phase) endpoint' := by
  split at h
  · rename_i hphase
    split at h
    · rename_i next ended hwrite
      obtain ⟨outbound, rfl, hstep⟩ := write_eq_some hwrite
      cases hstep with
      | advance _ n moved haction => simp at haction
      | stop _ call ending hending hcall hsent htotal =>
        obtain ⟨htask, hnext⟩ := perform_refines_ended hphase hrefines hsent
          (fun heq => absurd heq hok) h
        refine ⟨_, ?_, hnext⟩
        simp only [hrefines.dropped hphase, Endpoint.perform, htask]
    · cases h
  · rename_i hphase
    obtain ⟨htask, hnext⟩ := @perform_refines _ _ _ _ _ _ _
      { endpoint with inbound := { endpoint.inbound with reading := none } } _ _ h
      (by rw [hrefines.inbound]) hrefines.closed hrefines.sent rfl fun hidle => by
        refine hrefines.settled fun p hp => ?_
        cases hp
        exact hidle.resolve_right hok
    refine ⟨_, ?_, hnext⟩
    simp only [Endpoint.perform, htask]

/-- Every step of a socket is a step of its endpoint. -/
theorem step_refines {action : SocketAction} (hrefines : socket.Refines (some task.phase) endpoint)
    (h : step capacity shared task socket action = some (shared', task', socket', events)) :
    ∃ action' endpoint',
      endpoint.step shared task action' = some (shared', task', endpoint', events) ∧
      socket'.Refines (some task'.phase) endpoint' ∧
      ∀ text, action' = .readError text → action = .readError text := by
  cases action with
  | poll =>
    simp only [step] at h
    split at h
    · rename_i hphase
      obtain ⟨endpoint', hstep, hnext⟩ := settle_refines hphase hrefines h
      refine ⟨.poll, endpoint', ?_, hnext, by simp⟩
      simpa only [Endpoint.step, hphase, if_true] using hstep
    · cases h
  | read n =>
    simp only [step] at h
    split at h
    · rename_i hphase
      obtain ⟨endpoint', hstep, hnext⟩ := settle_refines hphase.1 hrefines h
      refine ⟨.read n, endpoint', ?_, hnext, by simp⟩
      rw [Endpoint.step, if_pos ⟨hphase.1, by rw [hrefines.closed]; exact hphase.2⟩]
      exact hstep
    · cases h
  | readError text =>
    simp only [step] at h
    split at h
    · rename_i hphase
      obtain ⟨endpoint', hstep, hnext⟩ := settle_refines hphase hrefines h
      refine ⟨.readError text, endpoint', ?_, hnext, by simp⟩
      simpa only [Endpoint.step, hphase, if_true] using hstep
    · cases h
  | proceed =>
    simp only [step] at h
    split at h
    · rename_i hphase
      obtain ⟨action', endpoint', hstep, hnext, hother⟩ := resume_refines hphase hrefines h
      exact ⟨action', endpoint', hstep, hnext, fun text heq => absurd heq (hother text)⟩
    · cases h
  | take n =>
    simp only [step] at h
    split at h
    · rename_i hphase
      obtain ⟨action', endpoint', hstep, hnext, hother⟩ := resume_refines hphase hrefines h
      exact ⟨action', endpoint', hstep, hnext, fun text heq => absurd heq (hother text)⟩
    · cases h
  | writeError text =>
    simp only [step] at h
    split at h
    · rename_i hphase
      obtain ⟨action', endpoint', hstep, hnext, hother⟩ := resume_refines hphase hrefines h
      exact ⟨action', endpoint', hstep, hnext, fun text heq => absurd heq (hother text)⟩
    · cases h
  | task taskAction =>
    refine ⟨.task taskAction, ?_⟩
    cases taskAction with
    | readFrame result => cases h
    | writeOk => cases h
    | writeFail text => cases h
    | _ =>
      obtain ⟨endpoint', hstep, hnext⟩ := task_refines (by simp) hrefines h
      exact ⟨endpoint', hstep, hnext, by simp⟩

end Socket

/-- The servers are the same, and every socket is seen as its endpoint. -/
structure Sockets.Refines (s : Sockets) (w : Wire) : Prop where
  server : w.server = s.server
  sockets : ∀ i, (s.sockets i).Refines (s.server.tasks[i]?.map Task.phase) (w.endpoints i)

theorem Sockets.refines_new {maxConnections : ℕ} {s : Server}
    (hnew : Server.new maxConnections .new = some s) : (Sockets.new s).Refines (Wire.new s) := by
  refine ⟨rfl, fun i => ?_⟩
  simp only [Sockets.new, Wire.new, (Server.tasks_new hnew).1]
  exact Socket.refines_new

/-- What a peer does is the same on both sides. -/
theorem Socket.peerStep_refines {socket socket' : Socket} {phase : Option Phase}
    {endpoint : Endpoint} {action : PeerAction} (hrefines : socket.Refines phase endpoint)
    (h : socket.peerStep action = some socket') :
    ∃ endpoint', endpoint.peerStep action = some endpoint' ∧ socket'.Refines phase endpoint' := by
  cases action with
  | deliver bytes =>
    simp only [peerStep] at h
    split at h
    · cases h
    · rename_i hopen
      cases h
      refine ⟨_, if_neg ?_, ?_, hrefines.closed, hrefines.sent, hrefines.reading,
        hrefines.writing, hrefines.settled⟩
      · rwa [hrefines.closed]
      · rw [hrefines.inbound]
        rfl
  | close =>
    cases h
    exact ⟨_, rfl, hrefines.inbound, rfl, hrefines.sent, hrefines.reading, hrefines.writing,
      hrefines.settled⟩

/-- A new task finds its socket as the listener has handed it over. -/
theorem Socket.Refines.spawned {socket : Socket} {endpoint : Endpoint} {phase : Phase}
    (h : socket.Refines none endpoint) (hphase : phase.isWriting = false) :
    socket.Refines (some phase) endpoint where
  inbound := h.inbound
  closed := h.closed
  sent := h.sent
  reading _ := h.reading (by simp)
  writing p hp hwrites := by
    cases hp
    rw [hphase] at hwrites
    cases hwrites
  settled _ := h.settled (by simp)

/-- The tasks of a server change at most at their end. -/
theorem Sockets.Refines.append {s : Sockets} {w : Wire} (h : s.Refines w) {spawned : List Task}
    (hspawned : ∀ task ∈ spawned, task.phase.isWriting = false) (i : ℕ) :
    (s.sockets i).Refines ((s.server.tasks ++ spawned)[i]?.map Task.phase) (w.endpoints i) := by
  have hsocket := h.sockets i
  rw [List.getElem?_append]
  split
  · exact hsocket
  · rename_i hlt
    rw [List.getElem?_eq_none (Nat.le_of_not_lt hlt)] at hsocket
    cases hi : spawned[i - s.server.tasks.length]? with
    | none => exact hsocket
    | some task => exact hsocket.spawned (hspawned task (List.mem_of_getElem? hi))

/-- What the step is on the wire: a step of the same connection, and the same step of
the acceptor, its caller or a peer. -/
def SocketsAction.Becomes : SocketsAction → WireAction → Prop
  | .acceptor action, .acceptor action' => action' = action
  | .caller action, .caller action' => action' = action
  | .peer i action, .peer j action' => j = i ∧ action' = action
  | .connection i action, .connection j action' =>
    j = i ∧ ∀ text, action' = .readError text → action = .readError text
  | _, _ => False

/-- Every step of the sockets is a step on the wire. -/
theorem Sockets.Refines.step {capacity : ℕ} {s s' : Sockets} {w : Wire} {action : SocketsAction}
    {now : List (ℕ × Event)} (hrefines : s.Refines w)
    (h : (MiniRedis.sockets capacity).step action s = some (s', now)) :
    ∃ action' w', action.Becomes action' ∧ wire.step action' w = some (w', now) ∧
      s'.Refines w' := by
  obtain ⟨server, endpoints⟩ := w
  obtain rfl : server = s.server := hrefines.server
  simp only [MiniRedis.sockets, Sockets.step] at h
  cases action with
  | acceptor action =>
    simp only at h
    split at h
    · rename_i server now hact
      cases h
      refine ⟨.acceptor action, ⟨server, endpoints⟩, rfl, ?_, rfl, fun i => ?_⟩
      · simp only [wire, Wire.step, hact]
      · cases Server.step_cases hact with
        | acceptor _ hacceptor =>
          refine hrefines.append (fun task hmem => ?_) i
          rw [hacceptor.spawned_phase task hmem]
          rfl
    · cases h
  | caller action =>
    simp only at h
    split at h
    · rename_i server now hact
      cases h
      refine ⟨.caller action, ⟨server, endpoints⟩, rfl, ?_, rfl, fun i => ?_⟩
      · simp only [wire, Wire.step, hact]
      · cases Server.step_cases hact with
        | _ => exact hrefines.sockets i
    · cases h
  | peer i action =>
    simp only at h
    split at h
    · rename_i socket hpeer
      cases h
      obtain ⟨endpoint, hstep, hnext⟩ := Socket.peerStep_refines (hrefines.sockets i) hpeer
      refine ⟨.peer i action, ⟨s.server, Function.update endpoints i endpoint⟩, ⟨rfl, rfl⟩, ?_,
        rfl, fun j => ?_⟩
      · simp only [wire, Wire.step, hstep]
      · by_cases hij : j = i
        · subst hij
          simpa using hnext
        · simpa [Function.update_of_ne hij] using hrefines.sockets j
    · cases h
  | connection i action =>
    simp only at h
    split at h
    · rename_i task hi
      split at h
      · rename_i shared task' socket events hact
        cases h
        have hsocket := hrefines.sockets i
        rw [hi] at hsocket
        obtain ⟨action', endpoint, hstep, hnext, hread⟩ := Socket.step_refines hsocket hact
        refine ⟨.connection i action', _, ⟨rfl, hread⟩, Wire.step_connection hi hstep, rfl,
          fun j => ?_⟩
        have hlt := (List.getElem?_eq_some_iff.mp hi).1
        by_cases hij : j = i
        · subst hij
          simpa [List.getElem?_set_self hlt] using hnext
        · simpa [Function.update_of_ne hij, List.getElem?_set_ne (Ne.symm hij)] using
            hrefines.sockets j
      · cases h
    · cases h

theorem SocketsAction.Becomes.readError {action : SocketsAction} {i : ℕ} {text : String}
    (h : action.Becomes (.connection i (.readError text))) :
    action = .connection i (.readError text) := by
  cases action with
  | connection j action =>
    obtain ⟨rfl, hread⟩ := h
    rw [hread text rfl]
  | _ => cases h

theorem SocketsAction.Becomes.peer {i : ℕ} {action : PeerAction} {action' : WireAction}
    (h : (SocketsAction.peer i action).Becomes action') : action' = .peer i action := by
  cases action' with
  | peer j action' =>
    obtain ⟨rfl, rfl⟩ := h
    rfl
  | _ => cases h

/-- The sockets keep in step with the wire, and so do the texts of their read errors. -/
theorem sockets_lockstep (capacity : ℕ) :
    (sockets capacity).Lockstep wire Sockets.Refines
      (fun action _ => ∀ i text, action = .connection i (.readError text) → ReplyText text)
      (fun action _ => ∀ i text, action = .connection i (.readError text) → ReplyText text) := by
  intro s w action s' now hrefines hio h
  obtain ⟨action', w', hbecomes, hstep, hnext⟩ := hrefines.step h
  refine ⟨action', w', ?_, hstep, hnext⟩
  rintro i text rfl
  exact hio i text hbecomes.readError

/-! ### What reaches the TCP streams -/

theorem Delivered.congr {endpoint endpoint' : Endpoint} {events : List Event}
    (hsent : endpoint'.sent = endpoint.sent) (h : Delivered endpoint events) :
    Delivered endpoint' events where
  sent := hsent ▸ h.sent
  replies := h.replies
  lineSafe := h.lineSafe
  fits := h.fits
  complete := hsent ▸ h.complete
  cut := hsent ▸ h.cut

/-- What holds of a connection with a buffered writer. -/
structure SocketLaw (task : Option Task) (socket : Socket) (events : List Event) : Prop where
  delivered : Delivered socket.endpoint events
  /-- A handler that may read its next request has nothing left in the buffer. -/
  flushed : (∀ p, task.map Task.phase = some p → p.mayOwe = false) →
    socket.outbound.writer.pending = [] ∧
      socket.outbound.writer.sent = encodeAll (attempts events)

/-- With a `BufWriter` of any capacity, TCP streams that take any parts and fail at any
point, and tasks that are cancelled while they write: every run is a run on the wire, and
what reaches the TCP streams are the replies, in order, with at most the last one cut. -/
theorem sockets_delivered (capacity maxConnections : ℕ) (s : Server) (t : Sockets)
    (actions : List SocketsAction) (out : List (ℕ × Event))
    (hnew : Server.new maxConnections .new = some s)
    (hio : ∀ i text, .connection i (.readError text) ∈ actions → ReplyText text)
    (hrun : (sockets capacity).run actions (Sockets.new s) = some (t, out)) :
    (∃ wireActions w, wire.run wireActions (Wire.new s) = some (w, out) ∧ t.Refines w) ∧
      ∀ i, SocketLaw t.server.tasks[i]? (t.sockets i) (project i out) := by
  have hmeets : (sockets capacity).Meets (fun action _ => ∀ i text,
      action = .connection i (.readError text) → ReplyText text) actions (Sockets.new s) := by
    refine (sockets capacity).meets_of_forall ?_ _
    rintro _ hmem _ i text rfl
    exact hio i text hmem
  obtain ⟨wireActions, w, hmeets', hwire, hrefines⟩ :=
    (sockets_lockstep capacity).run (Sockets.refines_new hnew) hmeets hrun
  refine ⟨⟨wireActions, w, hwire, hrefines⟩, fun i => ?_⟩
  have hlaw := WireLaw.run hnew (fun i text hmem =>
    wire.forall_mem_of_meets hmeets' hwire _ hmem i text rfl) hwire
  obtain ⟨serverActions, u, hserver, -⟩ := wire_simulates.run (t := s) rfl hwire
  have htrace := ServerTrace.run hnew hserver
  have hsent := hlaw.sent i
  have hsocket := hrefines.sockets i
  refine ⟨(hsent.delivered (hlaw.sendable i) (htrace.attempts_eq i)).congr hsocket.sent.symm,
    fun hidle => ?_⟩
  obtain ⟨-, hpending, hunsent⟩ := hsocket.settled hidle
  have htotal := hsent.total
  rw [hunsent, List.append_nil, hsocket.sent] at htotal
  exact ⟨hpending, htotal⟩

/-- A read fails, its report goes out through a buffer of four bytes, and then the
TCP stream fails. -/
theorem sockets_delivered_reset :
    ∃ s t actions out, Server.new 1 .new = some s ∧
      (sockets 4).run actions (Sockets.new s) = some (t, out) ∧
      (t.sockets 0).outbound.writer.sent = [45, 114, 101] ∧
      (∃ wireActions w, wire.run wireActions (Wire.new s) = some (w, out) ∧ t.Refines w) ∧
      ∀ i, SocketLaw t.server.tasks[i]? (t.sockets i) (project i out) := by
  have hdata : writeData (.error "reset") = [[45], [114, 101, 115, 101, 116], [13, 10]] := by
    rw [writeData]
    decide
  obtain ⟨s, hnew⟩ : ∃ s, Server.new 1 .new = some s := ⟨_, rfl⟩
  obtain ⟨t, out, hrun, hsent⟩ : ∃ t out, (sockets 4).run
      (.acceptor .run :: admission .acceptor (fun action => .connection 0 (.task action)) ++
        [.connection 0 .poll, .connection 0 (.readError "reset"), .connection 0 .proceed,
        .connection 0 (.take 1), .connection 0 (.take 2), .connection 0 .proceed,
        .connection 0 (.writeError "broken pipe")]) (Sockets.new s) =
          some (t, out) ∧
      (t.sockets 0).outbound.writer.sent = [45, 114, 101] := by
    cases hnew
    simp [admission, acceptance, opening, sockets, Machine.run, Sockets.step, Sockets.new, server,
      Server.step, Acceptor.step, Acceptor.goto, Shared.subscribe, Task.step, Socket.step, Socket.new, Socket.settle,
      Socket.perform, Socket.resume, Socket.write, Phase.isSelecting, Phase.isWriting, Reader.step,
      Reader.settle, turn_nil, hdata, CallWriter.step, CallWriter.new, CallWriter.Fits,
      BufWriter.new, BufWriter.push, BufWriter.drain, BufWriter.pending, BufWriter.bypass,
      attempts, Event.attempt?, Task.goto, Task.interpretRead, ReadError.display,
      Task.leave, BufWriter.cut, List.filterMap_cons]
  refine ⟨s, t, _, out, hnew, hrun, hsent, sockets_delivered 4 1 s t _ out hnew ?_ hrun⟩
  intro i text hmem
  simp only [admission, acceptance, opening, List.map_cons, List.map_nil, List.cons_append,
    List.nil_append, List.mem_cons, reduceCtorEq, SocketsAction.connection.injEq,
    SocketAction.readError.injEq, List.not_mem_nil, false_or, or_false, and_false] at hmem
  obtain ⟨-, rfl⟩ := hmem
  exact replyText_of_short (by decide) (by decide)

end MiniRedis
