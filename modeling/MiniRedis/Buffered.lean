import MiniRedis.Consistency
import MiniRedis.Socket

/-!
# Requesters with their buffered writers

In the network the transport takes the bytes of a request straight from the requester.
Here the connections have the `BufWriter` of the code at both ends, and a call tells an
expired timeout from an error of the TCP stream. Requesters that are used as documented
do nothing but what they do in the network.
-/
namespace MiniRedis

open Library

/-- Which step of a call awaits. -/
inductive BufferedPhase where
  | idle
  /-- Step 2 awaits `write_frame`. -/
  | writing (call : Call)
  /-- Step 3 awaits `read_frame`. -/
  | awaiting (call : Call)

/-- A requester, with the buffer of its connection's writer. -/
structure BufferedRequester where
  phase : BufferedPhase
  inbound : Reader
  outbound : FrameWriter

inductive BufferedAction where
  | begin (call : Call)
  /-- `write_frame` goes on without awaiting. -/
  | proceed
  /-- The TCP stream takes `n` bytes. -/
  | take (n : ℕ)
  /-- `read_frame` is polled for the first time. -/
  | poll
  /-- The awaited read delivers `n` bytes. -/
  | read (n : ℕ)
  /-- The TCP stream fails. -/
  | ioError (text : String)
  /-- The timeout of the step expires, and the awaited future is dropped. -/
  | elapse
  /-- The future of the call is dropped. -/
  | cancel

/-- The text of an expired timeout. -/
def elapsedText : String := "deadline has elapsed"

namespace BufferedRequester

def new : BufferedRequester := ⟨.idle, ⟨[], [], none⟩, .new⟩

/-- What the TCP stream has taken when the writer has come this far. -/
def taken (requester : BufferedRequester) (outbound : FrameWriter) : Bytes :=
  outbound.writer.sent.drop requester.outbound.writer.sent.length

/-- `write_frame` goes on, or returns to the call. -/
def resume (requester : BufferedRequester) (call : Call) :
    Option (FrameWriter × List (Frame × FrameWriteEnd)) →
    Option (BufferedRequester × Bytes × List RequesterEvent)
  | some (outbound, []) =>
    some ({ requester with outbound }, requester.taken outbound, [])
  | some (outbound, [(_, .done)]) =>
    some (⟨.awaiting call, requester.inbound, outbound⟩, requester.taken outbound, [])
  | some (outbound, [(_, .failed text)]) =>
    some (⟨.idle, requester.inbound, outbound⟩, requester.taken outbound,
      [.returned call (.error text)])
  | _ => none

/-- `read_frame` waits on, or its result is interpreted. -/
def settle (requester : BufferedRequester) (call : Call) : Option (Reader × List ReadResult) →
    Option (BufferedRequester × Bytes × List RequesterEvent)
  | some (inbound, []) => some ({ requester with inbound }, [], [])
  | some (inbound, [result]) =>
    some (⟨.idle, inbound, requester.outbound⟩, [], [.returned call (call.interpret result)])
  | _ => none

/-- Dropping the awaited future. What `write_frame` has left in the buffer stays there. -/
def abandon (capacity : ℕ) (requester : BufferedRequester) : Option BufferedRequester :=
  match requester.phase with
  | .idle => none
  | .writing _ =>
    match CallWriter.step capacity writeData (.cancel : WriteAction Frame String)
        requester.outbound with
    | some (outbound, _) => some ⟨.idle, requester.inbound, outbound⟩
    | none => none
  | .awaiting _ =>
    match Reader.step .cancel requester.inbound with
    | some (inbound, _) => some ⟨.idle, inbound, requester.outbound⟩
    | none => none

/-- A step, the bytes that the TCP stream takes in it, and its events. `hungUp` says that
the server has closed its sending side. -/
def step (capacity : ℕ) (hungUp : Bool) (requester : BufferedRequester) (action : BufferedAction) :
    Option (BufferedRequester × Bytes × List RequesterEvent) :=
  let write := fun (action : WriteAction Frame String) =>
    CallWriter.step capacity writeData action requester.outbound
  match requester.phase, action with
  | .idle, .begin call =>
    match write (.begin call.commandFrame) with
    | some (outbound, _) => some (⟨.writing call, requester.inbound, outbound⟩, [], [.called call])
    | none => none
  | .writing call, .proceed => requester.resume call (write .proceed)
  | .writing call, .take n => requester.resume call (write (.take n))
  | .writing call, .ioError text => requester.resume call (write (.fail text))
  | .awaiting call, .poll => requester.settle call (Reader.step .call requester.inbound)
  | .awaiting call, .read n =>
    if n = 0 → hungUp then requester.settle call (Reader.step (.read n) requester.inbound)
    else none
  | .awaiting call, .ioError text =>
    requester.settle call (Reader.step (.fail text) requester.inbound)
  | .writing call, .elapse =>
    (requester.abandon capacity).map fun after => (after, [], [.returned call (.error elapsedText)])
  | .awaiting call, .elapse =>
    (requester.abandon capacity).map fun after => (after, [], [.returned call (.error elapsedText)])
  | .writing _, .cancel => (requester.abandon capacity).map fun after => (after, [], [])
  | .awaiting _, .cancel => (requester.abandon capacity).map fun after => (after, [], [])
  | _, _ => none

end BufferedRequester

/-- An expired timeout, a failed stream or a dropped call. -/
def BufferedAction.disturbs : BufferedAction → Bool
  | .ioError _ => true
  | .elapse => true
  | .cancel => true
  | _ => false

/-! ### A requester does what it does in the network -/

/-- The requester is seen as this one of the network. Only a call that has timed out,
failed in its transport or been dropped leaves something in the buffer. -/
inductive BufferedRequester.Refines (spent : Bool) : BufferedRequester → Requester → Prop
  | idle (inbound : Reader) (outbound : FrameWriter) (hphase : outbound.phase = .idle)
    (hpending : spent = false → outbound.writer.pending = []) :
    Refines spent ⟨.idle, inbound, outbound⟩ ⟨.idle, inbound⟩
  | writing (call : Call) (inbound : Reader) (outbound : FrameWriter)
    (hcall : outbound.phase.call? ≠ none) :
    Refines spent ⟨.writing call, inbound, outbound⟩ ⟨.writing call outbound.unsent, inbound⟩
  | awaiting (call : Call) (inbound : Reader) (outbound : FrameWriter)
    (hphase : outbound.phase = .idle) (hpending : outbound.writer.pending = []) :
    Refines spent ⟨.awaiting call, inbound, outbound⟩ ⟨.awaiting call, inbound⟩

namespace BufferedRequester

variable {capacity : ℕ} {hungUp spent : Bool} {call : Call} {inbound : Reader}
  {outbound : FrameWriter} {b' : BufferedRequester} {bytes : Bytes} {events : List RequesterEvent}

theorem refines_new : Refines false new .new := .idle _ _ rfl fun _ => rfl

/-- A step of `write_frame` is one of step 2 in the network. -/
theorem resume_refines {action : WriteAction Frame String} (hcall : outbound.phase.call? ≠ none)
    (h : resume ⟨.writing call, inbound, outbound⟩ call
      (CallWriter.step capacity writeData action outbound) = some (b', bytes, events)) :
    ∃ action' r', Requester.step hungUp ⟨.writing call outbound.unsent, inbound⟩ action' =
        some (r', bytes, events) ∧
      b'.Refines (spent || action'.disturbs) r' ∧
      (action'.disturbs = true ↔ ∃ text, action = .fail text) ∧ ∀ call, action' ≠ .begin call := by
  rcases hwrite : CallWriter.step capacity writeData action outbound with _ | ⟨next, ended⟩
  · rw [hwrite] at h
    cases h
  · rw [hwrite] at h
    cases CallWriter.step_cases hwrite with
    | begin _ hidle =>
      rw [hidle] at hcall
      exact absurd rfl hcall
    | advance _ n moved haction hcall' hrest htotal hn hsent =>
      cases h
      have htaken : taken ⟨.writing call, inbound, outbound⟩ next = outbound.unsent.take n := by
        rw [taken, hsent, List.drop_left]
      refine ⟨.transmit n, ⟨.writing call (outbound.unsent.drop n), inbound⟩, ?_, ?_, ?_, by simp⟩
      · simp only [Requester.step, if_pos hn, htaken]
      · rw [← CallWriter.Step.unsent_eq hrest htotal hsent]
        exact .writing call inbound next (by rwa [hcall'.2])
      · rcases haction with ⟨rfl, -⟩ | ⟨rfl, -⟩ <;> simp [RequesterAction.disturbs]
    | done frame hflushing hpending =>
      cases h
      have hnil : outbound.unsent = [] := by
        rw [CallWriter.unsent, hflushing, hpending]
        rfl
      refine ⟨.flush, ⟨.awaiting call, inbound⟩, ?_, .awaiting _ _ _ rfl hpending, ?_, by simp⟩
      · simp [Requester.step, hnil, taken]
      · simp [RequesterAction.disturbs]
    | @stop _ frame ending writer hending hcall' hsent htotal =>
      rcases hending with ⟨text, rfl, rfl⟩ | ⟨-, rfl⟩
      · cases h
        refine ⟨.fail text, ⟨.idle, inbound⟩, ?_, .idle _ _ rfl ?_, ?_, by simp⟩
        · simp [Requester.step, taken, hsent]
        · simp [RequesterAction.disturbs]
        · simp [RequesterAction.disturbs]
      · cases h

/-- A step of `read_frame` is one of step 3 in the network. -/
theorem settle_refines {read : Option (Reader × List ReadResult)}
    (hphase : outbound.phase = .idle) (hpending : outbound.writer.pending = [])
    (h : settle ⟨.awaiting call, inbound, outbound⟩ call read = some (b', bytes, events)) :
    ∃ r', Requester.settle call read = some (r', bytes, events) ∧ b'.Refines spent r' := by
  rcases read with _ | ⟨next, _ | ⟨result, _ | more⟩⟩
  · cases h
  · cases h
    exact ⟨_, rfl, .awaiting call next outbound hphase hpending⟩
  · cases h
    exact ⟨_, rfl, .idle next outbound hphase fun _ => hpending⟩
  · cases h

/-- Dropping the awaited future ends the call as in the network. -/
theorem abandon_refines {b : BufferedRequester} {r : Requester} (hrefines : b.Refines spent r)
    (h : b.abandon capacity = some b') :
    ∃ r', b'.Refines true r' ∧ r.step hungUp .cancel = some (r', [], []) ∧
      ∀ call text, b.phase = .writing call ∨ b.phase = .awaiting call →
        r.step hungUp (.fail text) = some (r', [], [.returned call (.error text)]) := by
  cases hrefines with
  | idle inbound outbound hphase hpending => cases h
  | writing call inbound outbound hcall =>
    simp only [abandon] at h
    split at h
    · rename_i next ended hwrite
      cases h
      refine ⟨⟨.idle, inbound⟩, .idle _ _ ?_ (by simp), rfl, ?_⟩
      · cases CallWriter.step_cases hwrite with
        | advance _ n moved haction => simp at haction
        | stop _ frame ending hending hcall' hsent htotal => rfl
      · rintro call' text (heq | heq) <;> cases heq
        rfl
    · cases h
  | awaiting call inbound outbound hphase hpending =>
    simp only [abandon] at h
    split at h
    · rename_i next results hread
      cases h
      cases Reader.step_cases hread with
      | cancel hreading =>
        refine ⟨_, .idle _ _ hphase (by simp), rfl, ?_⟩
        rintro call' text (heq | heq) <;> cases heq
        rfl
    · cases h

/-- Every step of a requester that is used as documented is one in the network. -/
theorem step_refines {b : BufferedRequester} {r : Requester} {action : BufferedAction}
    (hrefines : b.Refines spent r) (hbegin : ∀ call, action = .begin call → spent = false)
    (h : b.step capacity hungUp action = some (b', bytes, events)) :
    ∃ action' r', r.step hungUp action' = some (r', bytes, events) ∧
      b'.Refines (spent || action'.disturbs) r' ∧ action'.disturbs = action.disturbs ∧
      ∀ call, action' = .begin call ↔ action = .begin call := by
  have hseen := hrefines
  cases hrefines with
  | idle inbound outbound hphase hpending =>
    cases action with
    | begin call =>
      simp only [step] at h
      split at h
      · rename_i next ended hwrite
        cases h
        cases CallWriter.step_cases hwrite with
        | begin _ _ =>
          have hunsent : encode call.commandFrame = CallWriter.unsent
              ⟨outbound.writer, .writing call.commandFrame (writeData call.commandFrame)⟩ := by
            rw [CallWriter.unsent, hpending (hbegin call rfl), WritePhase.rest, flatten_writeData]
            rfl
          refine ⟨.begin call, ⟨.writing call (encode call.commandFrame), inbound⟩, rfl, ?_, rfl,
            fun _ => Iff.of_eq ?_⟩
          · rw [hunsent]
            exact .writing call inbound _ (by simp [WritePhase.call?])
          · simp
        | advance _ n moved haction => simp at haction
        | stop _ frame ending hending => simp at hending
      · cases h
    | _ => cases h
  | writing call inbound outbound hcall =>
    cases action with
    | proceed =>
      obtain ⟨action', r', hstep, hnext, hdisturbs, hother⟩ := resume_refines hcall h
      exact ⟨action', r', hstep, hnext, by simpa [BufferedAction.disturbs] using hdisturbs,
        by simpa using hother⟩
    | take n =>
      obtain ⟨action', r', hstep, hnext, hdisturbs, hother⟩ := resume_refines hcall h
      exact ⟨action', r', hstep, hnext, by simpa [BufferedAction.disturbs] using hdisturbs,
        by simpa using hother⟩
    | ioError text =>
      obtain ⟨action', r', hstep, hnext, hdisturbs, hother⟩ := resume_refines hcall h
      exact ⟨action', r', hstep, hnext, by simpa [BufferedAction.disturbs] using hdisturbs,
        by simpa using hother⟩
    | elapse =>
      obtain ⟨after, hafter, heq⟩ := Option.map_eq_some_iff.mp h
      cases heq
      obtain ⟨r', hnext, -, hfail⟩ := abandon_refines hseen hafter
      exact ⟨.fail elapsedText, r', hfail call _ (.inl rfl), by simpa [RequesterAction.disturbs],
        rfl, by simp⟩
    | cancel =>
      obtain ⟨after, hafter, heq⟩ := Option.map_eq_some_iff.mp h
      cases heq
      obtain ⟨r', hnext, hcancel, -⟩ := abandon_refines hseen hafter
      exact ⟨.cancel, r', hcancel, by simpa [RequesterAction.disturbs], rfl, by simp⟩
    | _ => cases h
  | awaiting call inbound outbound hphase hpending =>
    cases action with
    | poll =>
      obtain ⟨r', hstep, hnext⟩ := settle_refines hphase hpending h
      exact ⟨.poll, r', hstep, by simpa [RequesterAction.disturbs] using hnext, rfl, by simp⟩
    | read n =>
      simp only [step] at h
      split at h
      · rename_i hend
        obtain ⟨r', hstep, hnext⟩ := settle_refines hphase hpending h
        refine ⟨.read n, r', ?_, by simpa [RequesterAction.disturbs] using hnext, rfl, by simp⟩
        simpa only [Requester.step, if_pos hend] using hstep
      · cases h
    | ioError text =>
      have hinterpret : call.interpret (.error (.io text)) = .error text := by
        cases call <;> rfl
      simp only [step] at h
      rcases hread : Reader.step (.fail text) inbound with _ | ⟨next, results⟩
      · rw [hread] at h
        cases h
      · rw [hread] at h
        cases Reader.step_cases hread with
        | fail hreading text =>
          cases h
          refine ⟨.fail text, _, ?_, .idle _ _ hphase fun _ => hpending, rfl, by simp⟩
          rw [hinterpret]
          rfl
    | elapse =>
      obtain ⟨after, hafter, heq⟩ := Option.map_eq_some_iff.mp h
      cases heq
      obtain ⟨r', hnext, -, hfail⟩ := abandon_refines hseen hafter
      exact ⟨.fail elapsedText, r', hfail call _ (.inr rfl), by simpa [RequesterAction.disturbs],
        rfl, by simp⟩
    | cancel =>
      obtain ⟨after, hafter, heq⟩ := Option.map_eq_some_iff.mp h
      cases heq
      obtain ⟨r', hnext, hcancel, -⟩ := abandon_refines hseen hafter
      exact ⟨.cancel, r', hcancel, by simpa [RequesterAction.disturbs], rfl, by simp⟩
    | _ => cases h

end BufferedRequester

/-! ### The network of buffered connections -/

/-- A requester with its connection. -/
structure BufferedClient where
  requester : BufferedRequester
  /-- Calls begun so far. -/
  number : ℕ
  /-- A call has timed out, failed in its transport, or been dropped. -/
  spent : Bool
  /-- The requester is dropped. -/
  dropped : Bool

namespace BufferedClient

def new : BufferedClient := ⟨.new, 0, false, false⟩

def deliver (client : BufferedClient) (bytes : Bytes) : BufferedClient :=
  { client with requester :=
    { client.requester with inbound := client.requester.inbound.deliver bytes } }

/-- The client after a step of its requester. -/
def advance (client : BufferedClient) (action : BufferedAction) (requester : BufferedRequester) :
    BufferedClient :=
  { client with
    requester
    number :=
      match action with
      | .begin _ => client.number + 1
      | _ => client.number
    spent := client.spent || action.disturbs }

end BufferedClient

/-- The server with its sockets, and at each connection a requester, or another kind of peer. -/
structure BufferedNetwork where
  sockets : Sockets
  clients : ℕ → Option BufferedClient

inductive BufferedNetworkAction where
  /-- The server, the TCP streams, and the peers that are not requesters. -/
  | sockets (action : SocketsAction)
  | client (i : ℕ) (action : BufferedAction)
  | drop (i : ℕ)

namespace BufferedNetwork

def new (server : Server) (requesters : ℕ → Bool) : BufferedNetwork :=
  ⟨.new server, fun i => if requesters i then some .new else none⟩

/-- The bytes of a requester are its own. -/
def allows (n : BufferedNetwork) : SocketsAction → Bool
  | .peer i _ => (n.clients i).isNone
  | _ => true

/-- What the TCP streams have taken from the handlers arrives at the requesters. -/
def delivered (n : BufferedNetwork) (sockets : Sockets) (i : ℕ) : Option BufferedClient :=
  (n.clients i).map fun client =>
    client.deliver ((sockets.sockets i).outbound.writer.sent.drop
      (n.sockets.sockets i).outbound.writer.sent.length)

def step (capacity : ℕ) (action : BufferedNetworkAction) (n : BufferedNetwork) :
    Option (BufferedNetwork × List (ℕ × NetworkEvent)) :=
  match action with
  | .sockets action =>
    if n.allows action then
      match (MiniRedis.sockets capacity).step action n.sockets with
      | some (sockets, out) =>
        some (⟨sockets, n.delivered sockets⟩, out.map fun entry => (entry.1, .handled entry.2))
      | none => none
    else none
  | .client i action =>
    match n.clients i with
    | some client =>
      if client.dropped then none
      else
        match client.requester.step capacity (n.sockets.server.phaseAt i).hungUp action with
        | some (requester, bytes, events) =>
          match (MiniRedis.sockets capacity).step (.peer i (.deliver bytes)) n.sockets with
          | some (sockets, _) =>
            let client := client.advance action requester
            some (⟨sockets, Function.update n.clients i (some client)⟩,
              events.map fun event => (i, event.numbered client.number))
          | none => none
        | none => none
    | none => none
  | .drop i =>
    match n.clients i with
    | some client =>
      if client.dropped then none
      else
        -- What is left in the buffer of the requester is lost.
        match (MiniRedis.sockets capacity).step (.peer i .close) n.sockets with
        | some (sockets, _) =>
          some (⟨sockets, Function.update n.clients i (some { client with dropped := true })⟩, [])
        | none => none
    | none => none

end BufferedNetwork

/-- All interleavings of the server, the buffers, the TCP streams, the requesters and the
other peers. -/
def bufferedNetwork (capacity : ℕ) :
    Machine BufferedNetwork BufferedNetworkAction (ℕ × NetworkEvent) :=
  ⟨BufferedNetwork.step capacity⟩

/-- A condition on the steps: requesters are used as documented, and the texts of the
transport errors at the server can be sent. -/
def BufferedNetworkAction.Proper (action : BufferedNetworkAction) (n : BufferedNetwork) : Prop :=
  (∀ i call client, action = .client i (.begin call) → n.clients i = some client →
    client.spent = false) ∧
  ∀ i text, action = .sockets (.connection i (.readError text)) → ReplyText text

/-! ### Every run is one of the network -/

/-- The client is seen as this one of the network. -/
structure BufferedClient.Refines (b : BufferedClient) (client : Client) : Prop where
  requester : b.requester.Refines client.spent client.requester
  number : client.number = b.number
  spent : client.spent = b.spent
  dropped : client.dropped = b.dropped

/-- The servers are the same, every socket is seen as its endpoint, and every client as one
of the network. -/
structure BufferedNetwork.Refines (b : BufferedNetwork) (n : Network) : Prop where
  sockets : b.sockets.Refines n.wire
  clients : ∀ i, Option.Rel BufferedClient.Refines (b.clients i) (n.clients i)

namespace BufferedNetwork

theorem refines_new {maxConnections : ℕ} {s : Server} (requesters : ℕ → Bool)
    (hnew : Server.new maxConnections .new = some s) :
    (BufferedNetwork.new s requesters).Refines (.new s requesters) := by
  refine ⟨Sockets.refines_new hnew, fun i => ?_⟩
  simp only [new, Network.new]
  split
  · exact .some ⟨BufferedRequester.refines_new, rfl, rfl, rfl⟩
  · exact .none

end BufferedNetwork

theorem BufferedRequester.Refines.deliver {spent : Bool} {b : BufferedRequester} {r : Requester}
    (h : b.Refines spent r) (bytes : Bytes) :
    BufferedRequester.Refines spent { b with inbound := b.inbound.deliver bytes }
      { r with inbound := r.inbound.deliver bytes } := by
  cases h with
  | idle inbound outbound hphase hpending => exact .idle _ _ hphase hpending
  | writing call inbound outbound hcall => exact .writing _ _ _ hcall
  | awaiting call inbound outbound hphase hpending => exact .awaiting _ _ _ hphase hpending

theorem BufferedClient.Refines.deliver {b : BufferedClient} {client : Client}
    (h : b.Refines client) (bytes : Bytes) : (b.deliver bytes).Refines (client.deliver bytes) :=
  ⟨h.requester.deliver bytes, h.number, h.spent, h.dropped⟩

theorem BufferedClient.Refines.advance {b : BufferedClient} {client : Client}
    {action : BufferedAction} {action' : RequesterAction} {next : BufferedRequester}
    {next' : Requester} (h : b.Refines client)
    (hnext : next.Refines (client.spent || action'.disturbs) next')
    (hdisturbs : action'.disturbs = action.disturbs)
    (hbegin : ∀ call, action' = .begin call ↔ action = .begin call) :
    (b.advance action next).Refines (client.advance action' next') where
  requester := hnext
  number := by
    cases action with
    | begin call =>
      obtain rfl := (hbegin call).mpr rfl
      exact congrArg (· + 1) h.number
    | _ =>
      cases action' with
      | begin call => cases (hbegin call).mp rfl
      | _ => exact h.number
  spent := by
    show (client.spent || action'.disturbs) = (b.spent || action.disturbs)
    rw [h.spent, hdisturbs]
  dropped := h.dropped

namespace BufferedNetwork.Refines

variable {capacity : ℕ} {b b' : BufferedNetwork} {n : Network} {now : List (ℕ × NetworkEvent)}

theorem exists_client (h : b.Refines n) {i : ℕ} {client : BufferedClient}
    (hclient : b.clients i = some client) :
    ∃ client', n.clients i = some client' ∧ client.Refines client' := by
  have hrel := h.clients i
  rw [hclient] at hrel
  cases hn : n.clients i with
  | none =>
    rw [hn] at hrel
    cases hrel
  | some client' =>
    rw [hn] at hrel
    cases hrel with
    | some hrefines => exact ⟨client', rfl, hrefines⟩

theorem isNone_eq (h : b.Refines n) (i : ℕ) : (n.clients i).isNone = (b.clients i).isNone := by
  have hrel := h.clients i
  generalize b.clients i = client at hrel ⊢
  generalize n.clients i = client' at hrel ⊢
  cases hrel <;> rfl

theorem allows (h : b.Refines n) {action : SocketsAction} {action' : WireAction}
    (hbecomes : action.Becomes action') (hallowed : b.allows action = true) :
    n.allows action' = true := by
  cases action' with
  | peer j action' =>
    cases action with
    | peer i action =>
      obtain ⟨rfl, -⟩ := hbecomes
      exact (h.isNone_eq j).trans hallowed
    | _ => cases hbecomes
  | _ => rfl

/-- What the streams have taken is what the wire delivers. -/
theorem delivered (h : b.Refines n) {sockets : Sockets} {w : Wire} (hnext : sockets.Refines w)
    (i : ℕ) : Option.Rel BufferedClient.Refines (b.delivered sockets i) (n.delivered w i) := by
  have hrel := h.clients i
  have hbefore := (h.sockets.sockets i).sent
  have hafter := (hnext.sockets i).sent
  simp only [BufferedNetwork.delivered, Network.delivered, hbefore, hafter]
  generalize b.clients i = client at hrel ⊢
  generalize n.clients i = client' at hrel ⊢
  cases hrel with
  | none => exact .none
  | some hrefines => exact .some (hrefines.deliver _)

theorem update (h : b.Refines n) {sockets : Sockets} {w : Wire} (hnext : sockets.Refines w)
    {i : ℕ} {client : BufferedClient} {client' : Client} (hclient : client.Refines client') :
    (BufferedNetwork.mk sockets (Function.update b.clients i (some client))).Refines
      ⟨w, Function.update n.clients i (some client')⟩ := by
  refine ⟨hnext, fun j => ?_⟩
  by_cases hij : j = i
  · subst hij
    simpa using Option.Rel.some hclient
  · simpa [Function.update_of_ne hij] using h.clients j

/-- Every step of requesters that are used as documented is one of the network. -/
theorem step {action : BufferedNetworkAction} (h : b.Refines n) (hproper : action.Proper b)
    (hstep : (bufferedNetwork capacity).step action b = some (b', now)) :
    ∃ action' n', action'.Proper n ∧ network.step action' n = some (n', now) ∧ b'.Refines n' := by
  cases action with
  | sockets action =>
    simp only [bufferedNetwork, BufferedNetwork.step] at hstep
    split at hstep
    · rename_i hallowed
      split at hstep
      · rename_i sockets out hmove
        cases hstep
        obtain ⟨action', w, hbecomes, hwire, hnext⟩ := h.sockets.step hmove
        refine ⟨.wire action', _, ⟨?_, ?_⟩, Network.step_wire (h.allows hbecomes hallowed) hwire,
          hnext, h.delivered hnext⟩
        · rintro i call client heq
          cases heq
        · rintro i text heq
          cases heq
          exact hproper.2 i text (congrArg _ hbecomes.readError)
      · cases hstep
    · cases hstep
  | client i action =>
    simp only [bufferedNetwork, BufferedNetwork.step] at hstep
    split at hstep
    · rename_i client hclient
      split at hstep
      · cases hstep
      · rename_i hdropped
        split at hstep
        · rename_i requester bytes events hmove
          split at hstep
          · rename_i sockets out hdeliver
            cases hstep
            obtain ⟨client', hclient', hrefines⟩ := h.exists_client hclient
            have hfresh : ∀ call, action = .begin call → client'.spent = false := by
              rintro call rfl
              rw [hrefines.spent]
              exact hproper.1 i call client rfl hclient
            rw [← h.sockets.server] at hmove
            obtain ⟨action', requester', hmove', hnext, hdisturbs, hbegin⟩ :=
              BufferedRequester.step_refines hrefines.requester hfresh hmove
            obtain ⟨action'', w, hbecomes, hwire, hsockets⟩ := h.sockets.step hdeliver
            obtain rfl := hbecomes.peer
            obtain ⟨hopen, rfl⟩ := Wire.step_deliver hwire
            have hadvance := hrefines.advance hnext hdisturbs hbegin
            refine ⟨.client i action', _, ⟨?_, ?_⟩, ?_, h.update hsockets hadvance⟩
            · rintro j call client'' heq hi
              cases heq
              cases hi.symm.trans hclient'
              exact hfresh call ((hbegin call).mp rfl)
            · rintro j text heq
              cases heq
            · rw [← hadvance.number]
              exact Network.step_client _ hclient' (by rw [hrefines.dropped]; simpa using hdropped)
                hopen hmove'
          · cases hstep
        · cases hstep
    · cases hstep
  | drop i =>
    simp only [bufferedNetwork, BufferedNetwork.step] at hstep
    split at hstep
    · rename_i client hclient
      split at hstep
      · cases hstep
      · rename_i hdropped
        split at hstep
        · rename_i sockets out hclose
          cases hstep
          obtain ⟨client', hclient', hrefines⟩ := h.exists_client hclient
          obtain ⟨action', w, hbecomes, hwire, hsockets⟩ := h.sockets.step hclose
          obtain rfl := hbecomes.peer
          have hdrop : BufferedClient.Refines { client with dropped := true }
              { client' with dropped := true } :=
            ⟨hrefines.requester, hrefines.number, hrefines.spent, rfl⟩
          refine ⟨.drop i, ⟨w, _⟩, ⟨?_, ?_⟩, ?_, h.update hsockets hdrop⟩
          · rintro j call client'' heq
            cases heq
          · rintro j text heq
            cases heq
          · simp only [network, Network.step, hclient', hrefines.dropped, hdropped, hwire]
            rfl
        · cases hstep
    · cases hstep

end BufferedNetwork.Refines

theorem bufferedNetwork_lockstep (capacity : ℕ) :
    (bufferedNetwork capacity).Lockstep network BufferedNetwork.Refines
      BufferedNetworkAction.Proper NetworkAction.Proper :=
  fun _ _ _ _ _ hrefines hproper hstep => hrefines.step hproper hstep

/-- With a `BufWriter` of any capacity at both ends of every connection: as long as
requesters are used as documented, every run is one of the network with the same events, and
so the server and all requesters are linearizable. -/
theorem bufferedNetwork_linearizable (capacity maxConnections : ℕ) (requesters : ℕ → Bool)
    (s : Server) (b : BufferedNetwork) (actions : List BufferedNetworkAction)
    (out : List (ℕ × NetworkEvent)) (hnew : Server.new maxConnections .new = some s)
    (hproper : (bufferedNetwork capacity).Meets BufferedNetworkAction.Proper actions
      (.new s requesters))
    (hrun : (bufferedNetwork capacity).run actions (.new s requesters) = some (b, out)) :
    (∃ networkActions n, network.Meets NetworkAction.Proper networkActions (.new s requesters) ∧
      network.run networkActions (.new s requesters) = some (n, out) ∧ b.Refines n) ∧
    ∃ order, Linearizes (serverEvents out) order ∧ CallsLinearize requesters out order ∧
      ∀ key, b.sockets.server.shared.database.get key = lastSet key (order.map (·.2.operation)) := by
  obtain ⟨networkActions, n, hproper', hrun', hrefines⟩ := (bufferedNetwork_lockstep capacity).run
    (BufferedNetwork.refines_new requesters hnew) hproper hrun
  refine ⟨⟨networkActions, n, hproper', hrun', hrefines⟩, ?_⟩
  obtain ⟨serverActions, hserver⟩ := Network.run_on_server hrun'
  rw [← hrefines.sockets.server]
  exact (NetworkLaw.run hnew hproper' hrun').linearizes (Network.run_clients hrun')
    (Replays.run hnew hserver)

/-- A requester gets a key that another peer sets while the request is on its way. -/
theorem bufferedNetwork_linearizable_two :
    ∃ s hkey actions b out, Server.new 2 .new = some s ∧
      (bufferedNetwork 64).run actions (.new s fun i => i == 0) = some (b, out) ∧
      (0, .returned 1 (.get "k" hkey) (.value (some [13, 10]))) ∈ out ∧
      ∃ order, Linearizes (serverEvents out) order ∧ CallsLinearize (fun i => i == 0) out order ∧
        ∀ key, b.sockets.server.shared.database.get key =
          lastSet key (order.map (·.2.operation)) := by
  have hkey : (asBytes "k").length ≤ isizeMax := by decide
  have hlines : [(13 : UInt8), 10].length ≤ isizeMax := by decide
  have hdata : writeData (Call.get "k" hkey).commandFrame =
      [[42], [50], [13, 10], [36], [51], [13, 10], [71, 69, 84], [13, 10], [36], [49], [13, 10],
        [107], [13, 10]] := by
    simp only [Call.commandFrame, writeData, writeDataAll]
    decide
  have hbulkData : writeData (.bulk [13, 10]) = [[36], [50], [13, 10], [13, 10], [13, 10]] := by
    rw [writeData]
    decide
  have hread : ∀ {frame : Frame} {bytes : Bytes}, encode frame = bytes → Readable frame →
      frame.depth ≤ maxArrayDepth → bytes.length ≤ maxBufferedBytes →
      turn bytes = (.returned (.frame frame), []) := by
    rintro frame _ rfl hreadable hdepth hfits
    exact turn_encode ⟨hreadable, hdepth, hfits⟩
  have hset : turn [42, 51, 13, 10, 36, 51, 13, 10, 83, 69, 84, 13, 10, 36, 49, 13, 10, 107, 13,
      10, 36, 50, 13, 10, 13, 10, 13, 10] =
        (.returned (.frame (Call.set "k" [13, 10] hkey hlines).commandFrame), []) := by
    refine hread ?_ (Call.commandFrame_readable _) (Call.depth_commandFrame _) (by decide)
    simp only [Call.commandFrame, encode, encodeAll]
    decide
  have hget : turn [42, 50, 13, 10, 36, 51, 13, 10, 71, 69, 84, 13, 10, 36, 49, 13, 10, 107, 13,
      10] = (.returned (.frame (Call.get "k" hkey).commandFrame), []) := by
    refine hread ?_ (Call.commandFrame_readable _) (Call.depth_commandFrame _) (by decide)
    simp only [Call.commandFrame, encode, encodeAll]
    decide
  have hbulk : turn [36, 50, 13, 10, 13, 10, 13, 10] =
      (.returned (.frame (.bulk [13, 10])), []) := by
    have hencode : encode (.bulk [13, 10]) = [36, 50, 13, 10, 13, 10, 13, 10] := by
      rw [encode]
      decide
    have hsendable : Sendable (.bulk [13, 10]) := sendable_bulk (by rw [hencode]; decide)
    rw [← hencode]
    exact turn_encode hsendable.deliverable
  have hparseSet := (Call.set "k" [13, 10] hkey hlines).fromFrame_commandFrame
  have hparseGet := (Call.get "k" hkey).fromFrame_commandFrame
  have hstore : (Command.set ⟨"k", [13, 10]⟩).apply .new =
      (.simple "OK", Database.new.set "k" [13, 10]) := rfl
  have hlookup : (Command.get ⟨"k"⟩).apply (Database.new.set "k" [13, 10]) =
      (.bulk [13, 10], Database.new.set "k" [13, 10]) := rfl
  obtain ⟨s, hnew⟩ : ∃ s, Server.new 2 .new = some s := ⟨_, rfl⟩
  obtain ⟨b, out, hrun, hreturned⟩ : ∃ b out, (bufferedNetwork 64).run
      (.client 0 (.begin (.get "k" hkey)) :: (List.replicate 14 (.client 0 .proceed) ++
        [.client 0 (.take 20), .client 0 .proceed] ++
        (.acceptor .run :: (admission .acceptor (fun action => .connection 0 (.task action)) ++
          admission .acceptor (fun action => .connection 1 (.task action)) ++
        [.peer 1 (.deliver [42, 51, 13, 10, 36, 51, 13, 10, 83, 69, 84, 13, 10, 36, 49, 13, 10,
          107, 13, 10, 36, 50, 13, 10, 13, 10, 13, 10]), .connection 1 .poll,
        .connection 1 (.read 28), .connection 1 (.task .count), .connection 1 (.task .execute),
        .connection 0 .poll, .connection 0 (.read 20), .connection 0 (.task .count),
        .connection 0 (.task .execute), .connection 0 (.task .countLookup)] ++
        List.replicate 6 (.connection 0 .proceed) ++
        [.connection 0 (.take 8), .connection 0 .proceed])).map .sockets ++
        [.client 0 .poll, .client 0 (.read 8)]))
      (.new s fun i => i == 0) = some (b, out) ∧
      (0, .returned 1 (.get "k" hkey) (.value (some [13, 10]))) ∈ out := by
    cases hnew
    simp [admission, acceptance, opening, bufferedNetwork, Machine.run, List.replicate,
      BufferedNetwork.step, BufferedNetwork.new, BufferedNetwork.allows, BufferedNetwork.delivered,
      BufferedClient.new, BufferedClient.deliver, BufferedClient.advance, BufferedRequester.new,
      BufferedRequester.step, BufferedRequester.resume, BufferedRequester.taken,
      BufferedRequester.settle, sockets, Sockets.step, Sockets.new, Socket.step, Socket.new,
      Socket.settle, Socket.perform, Socket.resume, Socket.write, Socket.peerStep, server,
      Server.step, Server.phaseAt, Acceptor.step, Acceptor.goto, Shared.subscribe, Task.step,
      Task.goto, Task.interpretRead, Task.execute, Task.countLookup, Phase.isSelecting,
      Phase.isWriting, Phase.hungUp, Reader.step, Reader.settle, Reader.deliver, received,
      maxBufferedBytes, turn_nil, hset, hget, hbulk, CallWriter.step, CallWriter.new,
      CallWriter.Fits, BufWriter.new, BufWriter.push, BufWriter.drain, BufWriter.pending, hdata,
      hbulkData, attempts, Event.attempt?, List.filterMap_cons, hparseSet, hparseGet, hstore,
      hlookup, Call.command, Call.interpret, Call.interpretGet, RequesterEvent.numbered]
  have hproper : ∀ rest, (∀ action ∈ rest, ∀ n, BufferedNetworkAction.Proper action n) →
      (bufferedNetwork 64).Meets BufferedNetworkAction.Proper
        (.client 0 (.begin (.get "k" hkey)) :: rest) (.new s fun i => i == 0) := by
    refine fun rest hrest => ⟨⟨?_, by simp⟩, fun n _ _ => Machine.meets_of_forall _ hrest n⟩
    rintro i call client - hclient
    simp only [BufferedNetwork.new, Option.ite_none_right_eq_some, Option.some.injEq] at hclient
    rw [← hclient.2]
    rfl
  refine ⟨s, hkey, _, b, out, hnew, hrun, hreturned,
    (bufferedNetwork_linearizable 64 2 _ s b _ out hnew (hproper _ ?_) hrun).2⟩
  rintro action hmem n
  refine ⟨?_, ?_⟩
  · rintro i call client rfl
    simp at hmem
  · rintro i text rfl
    simp [admission, acceptance, opening] at hmem

end MiniRedis
