import MiniRedis.Exchange
import MiniRedis.Dialogue

/-!
# The server and its clients

The server on the wire together with the requesters at the other ends of its
connections. Requesters time out, have calls dropped, and are dropped themselves;
handlers fail, time out and are shut down; other peers send what they like.
-/
namespace MiniRedis

open Library

/-- A requester and its connection. -/
structure Client where
  requester : Requester
  /-- Calls begun so far. The code does not count them; the events refer to them by number. -/
  number : ℕ
  /-- A call has timed out, failed in its transport, or been dropped. -/
  spent : Bool
  /-- The requester is dropped. -/
  dropped : Bool

/-- The server on the wire, and at each connection a requester, or another kind of peer. -/
structure Network where
  wire : Wire
  clients : ℕ → Option Client

inductive NetworkAction where
  /-- The server, the transports, and the peers that are not requesters. -/
  | wire (action : WireAction)
  | client (i : ℕ) (action : RequesterAction)
  | drop (i : ℕ)

inductive NetworkEvent where
  | called (number : ℕ) (call : Call)
  | returned (number : ℕ) (call : Call) (result : CallResult)
  | handled (event : Event)

namespace Client

def new : Client := ⟨.new, 0, false, false⟩

def deliver (client : Client) (bytes : Bytes) : Client :=
  { client with requester :=
    { client.requester with inbound := client.requester.inbound.deliver bytes } }

@[simp] theorem number_deliver (client : Client) (bytes : Bytes) :
    (client.deliver bytes).number = client.number := rfl

@[simp] theorem phase_deliver (client : Client) (bytes : Bytes) :
    (client.deliver bytes).requester.phase = client.requester.phase := rfl

@[simp] theorem deliver_nil (client : Client) : client.deliver [] = client := by
  simp [deliver]

end Client

/-- An expired timeout, a failed transport or a dropped call. -/
def RequesterAction.disturbs : RequesterAction → Bool
  | .fail _ => true
  | .cancel => true
  | _ => false

theorem Requester.Undisturbed.disturbs_eq {action : RequesterAction} (h : Undisturbed action) :
    action.disturbs = false := by
  cases action <;> first | rfl | exact absurd h not_false

/-- The number of the call that the event belongs to. -/
def RequesterEvent.numbered (number : ℕ) : RequesterEvent → NetworkEvent
  | .called call => .called number call
  | .returned call result => .returned number call result

namespace Client

/-- The client after a step of its requester. -/
def advance (client : Client) (action : RequesterAction) (requester : Requester) : Client :=
  { client with
    requester
    number :=
      match action with
      | .begin _ => client.number + 1
      | _ => client.number
    spent := client.spent || action.disturbs }

end Client

namespace Network

/-- A new server, and requesters at some of the connections to come. -/
def new (server : Server) (requesters : ℕ → Bool) : Network :=
  ⟨.new server, fun i => if requesters i then some .new else none⟩

/-- The bytes of a requester are its own. -/
def allows (n : Network) : WireAction → Bool
  | .peer i _ => (n.clients i).isNone
  | _ => true

/-- What the handlers have sent arrives at the requesters. -/
def delivered (n : Network) (wire : Wire) (i : ℕ) : Option Client :=
  (n.clients i).map fun client =>
    client.deliver ((wire.endpoints i).sent.drop (n.wire.endpoints i).sent.length)

def step (action : NetworkAction) (n : Network) : Option (Network × List (ℕ × NetworkEvent)) :=
  match action with
  | .wire action =>
    if n.allows action then
      match MiniRedis.wire.step action n.wire with
      | some (wire, out) =>
        some (⟨wire, n.delivered wire⟩, out.map fun entry => (entry.1, .handled entry.2))
      | none => none
    else none
  | .client i action =>
    match n.clients i with
    | some client =>
      if client.dropped then none
      else
        match client.requester.step (n.wire.server.phaseAt i).hungUp action with
        | some (requester, bytes, events) =>
          match MiniRedis.wire.step (.peer i (.deliver bytes)) n.wire with
          | some (wire, _) =>
            let client := client.advance action requester
            some (⟨wire, Function.update n.clients i (some client)⟩,
              events.map fun event => (i, event.numbered client.number))
          | none => none
        | none => none
    | none => none
  | .drop i =>
    match n.clients i with
    | some client =>
      if client.dropped then none
      else
        match MiniRedis.wire.step (.peer i .close) n.wire with
        | some (wire, _) =>
          some (⟨wire, Function.update n.clients i (some { client with dropped := true })⟩, [])
        | none => none
    | none => none

end Network

/-- All interleavings of the server, the transports, the requesters and the other peers. -/
def network : Machine Network NetworkAction (ℕ × NetworkEvent) := ⟨Network.step⟩

/-- After a call that has timed out, failed in its transport or been dropped, the
requester begins no other call, as its documentation asks. -/
def NetworkAction.Disciplined (action : NetworkAction) (n : Network) : Prop :=
  ∀ i call client, action = .client i (.begin call) → n.clients i = some client →
    client.spent = false

/-! ### What a step can do -/

/-- Everything a step of the network can do. -/
inductive Network.Step (n : Network) :
    NetworkAction → Network → List (ℕ × NetworkEvent) → Prop
  | wire (action : WireAction) {wire : Wire} {out : List (ℕ × Event)}
    (hallowed : n.allows action = true) (h : MiniRedis.wire.step action n.wire = some (wire, out)) :
    Step n (.wire action) ⟨wire, n.delivered wire⟩
      (out.map fun entry => (entry.1, .handled entry.2))
  | client (i : ℕ) (action : RequesterAction) {client : Client} {requester : Requester}
    {bytes : Bytes} {events : List RequesterEvent} (hclient : n.clients i = some client)
    (hdropped : client.dropped = false)
    (h : client.requester.step (n.wire.server.phaseAt i).hungUp action =
      some (requester, bytes, events)) (hopen : (n.wire.endpoints i).closed = false) :
    Step n (.client i action)
      ⟨n.wire.deliver i bytes,
        Function.update n.clients i (some (client.advance action requester))⟩
      (events.map fun event => (i, event.numbered (client.advance action requester).number))
  | drop (i : ℕ) {client : Client} (hclient : n.clients i = some client)
    (hdropped : client.dropped = false) :
    Step n (.drop i)
      ⟨n.wire.close i, Function.update n.clients i (some { client with dropped := true })⟩ []

section step

variable {n n' : Network} {out : List (ℕ × NetworkEvent)}

/-- A peer delivers on an open connection. -/
theorem Wire.step_deliver {w w' : Wire} {i : ℕ} {bytes : Bytes} {now : List (ℕ × Event)}
    (h : wire.step (.peer i (.deliver bytes)) w = some (w', now)) :
    (w.endpoints i).closed = false ∧ w' = w.deliver i bytes := by
  cases Wire.step_cases h with
  | peer _ _ hpeer =>
    rcases Endpoint.peerStep_cases hpeer with ⟨bytes', hbytes, hopen, rfl⟩ | ⟨hclose, -⟩
    · cases hbytes
      exact ⟨hopen, rfl⟩
    · cases hclose

theorem Wire.step_close {w w' : Wire} {i : ℕ} {now : List (ℕ × Event)}
    (h : wire.step (.peer i .close) w = some (w', now)) :
    w' = w.close i := by
  cases Wire.step_cases h with
  | peer _ _ hpeer =>
    rcases Endpoint.peerStep_cases hpeer with ⟨bytes, hdeliver, -⟩ | ⟨-, rfl⟩
    · cases hdeliver
    · rfl

theorem Network.step_cases {action : NetworkAction}
    (h : network.step action n = some (n', out)) : Network.Step n action n' out := by
  cases action with
  | wire action =>
    simp only [network, step] at h
    split at h
    · rename_i hallowed
      split at h
      · rename_i hstep
        cases h
        exact .wire action hallowed hstep
      · cases h
    · cases h
  | client i action =>
    simp only [network, step] at h
    split at h
    · rename_i client hclient
      split at h
      · cases h
      · rename_i hdropped
        split at h
        · rename_i hstep
          split at h
          · rename_i hdeliver
            cases h
            obtain ⟨hopen, rfl⟩ := Wire.step_deliver hdeliver
            exact .client i action hclient (by simpa using hdropped) hstep hopen
          · cases h
        · cases h
    · cases h
  | drop i =>
    simp only [network, step] at h
    split at h
    · rename_i client hclient
      split at h
      · cases h
      · rename_i hdropped
        split at h
        · rename_i hclose
          cases h
          rw [Wire.step_close hclose]
          exact .drop i hclient (by simpa using hdropped)
        · cases h
    · cases h

end step

/-! ### Steps of one call -/

theorem Network.delivered_self (n : Network) : n.delivered n.wire = n.clients := by
  funext i
  simp [delivered]

/-- What arrives in two parts arrives. -/
theorem Network.delivered_trans {n : Network} {w w' : Wire}
    (hfirst : ∀ i, (n.wire.endpoints i).sent <+: (w.endpoints i).sent)
    (hlater : ∀ i, (w.endpoints i).sent <+: (w'.endpoints i).sent) :
    Network.delivered ⟨w, n.delivered w⟩ w' = n.delivered w' := by
  funext i
  obtain ⟨first, hfirst⟩ := hfirst i
  obtain ⟨later, hlater⟩ := hlater i
  have hhead : (w.endpoints i).sent.drop (n.wire.endpoints i).sent.length = first := by
    rw [← hfirst, List.drop_left]
  have htail : (w'.endpoints i).sent.drop (w.endpoints i).sent.length = later := by
    rw [← hlater, List.drop_left]
  have hall : (w'.endpoints i).sent.drop (n.wire.endpoints i).sent.length = first ++ later := by
    rw [← hlater, ← hfirst, List.append_assoc, List.drop_left]
  simp [delivered, hhead, htail, hall, Function.comp_def, Client.deliver, Reader.deliver]

theorem Network.step_wire {n : Network} {action : WireAction} {w : Wire} {events : List (ℕ × Event)}
    (hallowed : n.allows action = true) (h : MiniRedis.wire.step action n.wire = some (w, events)) :
    network.step (.wire action) n = some (⟨w, n.delivered w⟩,
      events.map fun entry => (entry.1, .handled entry.2)) := by
  simp only [network, Network.step, hallowed, h, if_true]

/-- The network does what the wire does, up to the peers that are requesters. -/
theorem Network.run_wire {n : Network} {actions : List WireAction} {w : Wire}
    {out : List (ℕ × Event)} (hallowed : ∀ action ∈ actions, n.allows action = true)
    (hrun : MiniRedis.wire.run actions n.wire = some (w, out)) :
    network.run (actions.map .wire) n =
        some (⟨w, n.delivered w⟩, out.map fun entry => (entry.1, .handled entry.2)) ∧
      ∀ i, (n.wire.endpoints i).sent <+: (w.endpoints i).sent := by
  induction actions generalizing n out with
  | nil =>
    cases hrun
    rw [delivered_self]
    exact ⟨rfl, fun _ => List.prefix_rfl⟩
  | cons action actions ih =>
    obtain ⟨u, now, later, hstep, hlater, rfl⟩ := MiniRedis.wire.run_cons_eq_some.mp hrun
    have hfirst := (Wire.step_cases hstep).sent_front
    have hkept : ∀ action, Network.allows ⟨u, n.delivered u⟩ action = n.allows action := by
      intro action
      cases action <;> simp [allows, delivered]
    obtain ⟨hmore, hsent⟩ := @ih ⟨u, n.delivered u⟩ later (fun action hmem =>
      (hkept action).trans (hallowed action (List.mem_cons_of_mem _ hmem))) hlater
    rw [delivered_trans hfirst hsent] at hmore
    exact ⟨network.run_cons_eq_some.mpr ⟨_, _, _,
      step_wire (hallowed action List.mem_cons_self) hstep, hmore, List.map_append⟩,
      fun i => (hfirst i).trans (hsent i)⟩

theorem Network.step_client {n : Network} {i : ℕ} {client : Client} (action : RequesterAction)
    {after : Requester} {bytes : Bytes} {events : List RequesterEvent}
    (hclient : n.clients i = some client) (hdropped : client.dropped = false)
    (hopen : (n.wire.endpoints i).closed = false)
    (h : client.requester.step (n.wire.server.phaseAt i).hungUp action =
      some (after, bytes, events)) :
    network.step (.client i action) n = some
      (⟨n.wire.deliver i bytes,
        Function.update n.clients i (some (client.advance action after))⟩,
      events.map fun event => (i, event.numbered (client.advance action after).number)) := by
  simp only [network, Network.step, hclient, hdropped, Bool.false_eq_true, if_false, h,
    Wire.step_peer_deliver hopen]

theorem Requester.step_poll_empty {hungUp : Bool} {requester : Requester} {call : Call}
    {stream : Bytes} (hphase : requester.phase = .awaiting call)
    (hinbound : requester.inbound = ⟨stream, [], none⟩) :
    requester.step hungUp .poll =
      some (⟨.awaiting call, ⟨stream, [], some maxBufferedBytes⟩⟩, [], []) := by
  simp only [step, hphase, hinbound, Reader.step_call_empty, settle]

/-- The requester reads all of a reply. -/
theorem Requester.step_read_all {hungUp : Bool} {requester : Requester} {call : Call}
    {frame : Frame} {n : ℕ} (h : Deliverable frame) (hphase : requester.phase = .awaiting call)
    (hinbound : requester.inbound = ⟨encode frame, [], some maxBufferedBytes⟩)
    (hn : n = (encode frame).length) :
    requester.step hungUp (.read n) =
      some (⟨.idle, ⟨[], [], none⟩⟩, [], [.returned call (call.interpret (.frame frame))]) := by
  have hpos := List.length_pos_of_ne_nil (encode_ne_nil frame)
  have hguard : n = 0 → hungUp = true := by omega
  simp only [step, hphase, if_pos hguard, hinbound, Reader.step_read_all h hn, settle]

@[simp] theorem Wire.deliver_nil (w : Wire) (i : ℕ) : w.deliver i [] = w := by
  simp [Wire.deliver]

/-- A requester that has made this many calls is idle, and its handler waits for a request. -/
structure Network.Ready (n : Network) (i number : ℕ) : Prop where
  client : n.clients i = some ⟨.new, number, false, false⟩
  handler : ∃ sent, n.wire.Waits i [] number sent

namespace Network

variable {n : Network} {i number : ℕ} {call : Call} {sent : Bytes}

/-- The requester writes the request of a call. -/
theorem run_request (hclient : n.clients i = some ⟨.new, number, false, false⟩)
    (hopen : (n.wire.endpoints i).closed = false) (call : Call) :
    network.run [.client i (.begin call), .client i (.transmit (encode call.commandFrame).length),
        .client i .flush] n =
      some (⟨n.wire.deliver i (encode call.commandFrame), Function.update n.clients i
          (some ⟨⟨.awaiting call, ⟨[], [], none⟩⟩, number + 1, false, false⟩)⟩,
        [(i, .called (number + 1) call)]) := by
  have hbegin := step_client (.begin call) hclient rfl hopen rfl
  have htransmit := step_client (i := i) (.transmit (encode call.commandFrame).length)
    (n := ⟨n.wire, Function.update n.clients i
      (some ⟨⟨.writing call (encode call.commandFrame), ⟨[], [], none⟩⟩, number + 1, false,
        false⟩)⟩)
    (Function.update_self _ _ _) rfl hopen (if_pos (Nat.le_refl _))
  have hflush := step_client (i := i) .flush
    (n := ⟨n.wire.deliver i (encode call.commandFrame), Function.update n.clients i
      (some ⟨⟨.writing call [], ⟨[], [], none⟩⟩, number + 1, false, false⟩)⟩)
    (Function.update_self _ _ _) rfl (by simpa [Wire.deliver] using hopen) rfl
  simp only [Wire.deliver_nil, Function.update_idem, List.take_length, List.drop_length]
    at hbegin htransmit hflush
  exact network.run_cons_eq_some.mpr ⟨_, _, _, hbegin, network.run_cons_eq_some.mpr
    ⟨_, _, _, htransmit, network.run_singleton hflush, rfl⟩, rfl⟩

/-- The requester reads the reply. -/
theorem run_response {reply : Frame} (hreply : Deliverable reply)
    (hclient : n.clients i =
      some ⟨⟨.awaiting call, ⟨encode reply, [], none⟩⟩, number, false, false⟩)
    (hopen : (n.wire.endpoints i).closed = false) :
    network.run [.client i .poll, .client i (.read (encode reply).length)] n =
      some (⟨n.wire, Function.update n.clients i (some ⟨.new, number, false, false⟩)⟩,
        [(i, .returned number call (call.interpret (.frame reply)))]) := by
  have hpoll := step_client .poll hclient rfl hopen (Requester.step_poll_empty rfl rfl)
  have hread := step_client (i := i) (.read (encode reply).length)
    (n := ⟨n.wire, Function.update n.clients i
      (some ⟨⟨.awaiting call, ⟨encode reply, [], some maxBufferedBytes⟩⟩, number, false, false⟩)⟩)
    (Function.update_self _ _ _) rfl hopen (Requester.step_read_all hreply rfl rfl rfl)
  simp only [Wire.deliver_nil, Function.update_idem] at hpoll hread
  exact network.run_cons_eq_some.mpr ⟨_, _, _, hpoll, network.run_singleton hread, rfl⟩

end Network

/-! ### The network does what the wire does -/

def NetworkEvent.handled? : NetworkEvent → Option Event
  | .handled event => some event
  | _ => none

/-- The events of the server. -/
def serverEvents (out : List (ℕ × NetworkEvent)) : List (ℕ × Event) :=
  select NetworkEvent.handled? out

section serverEvents

variable (l r : List (ℕ × NetworkEvent)) (out : List (ℕ × Event))

@[simp] theorem serverEvents_append : serverEvents (l ++ r) = serverEvents l ++ serverEvents r :=
  select_append l r

@[simp] theorem serverEvents_handled :
    serverEvents (out.map fun entry => (entry.1, .handled entry.2)) = out := by
  induction out with
  | nil => rfl
  | cons entry out ih => exact congrArg (entry :: ·) ih

@[simp] theorem serverEvents_numbered (i number : ℕ) (events : List RequesterEvent) :
    serverEvents (events.map fun event => (i, event.numbered number)) = [] := by
  induction events with
  | nil => rfl
  | cons event events ih =>
    rw [← ih]
    cases event <;> rfl

end serverEvents

/-! ### A whole call -/

/-- No failure of a transport, timeout, shutdown, cancellation or dropped call, at either end. -/
def NetworkAction.Undisturbed : NetworkAction → Prop
  | .wire (.connection _ action) => action.Undisturbed
  | .client _ action => Requester.Undisturbed action
  | _ => True

/-- The handler serves the request of a call, and the reply arrives. -/
theorem Network.run_serve {n : Network} {i number : ℕ} {call : Call} {sent : Bytes}
    {client : Client} (hclient : n.clients i = some client) (hfits : call.Fits)
    (h : n.wire.Waits i (encode call.commandFrame) number sent) :
    ∃ (actions : List EndpointAction) (n' : Network),
      (∀ action ∈ actions, EndpointAction.Undisturbed action) ∧
      network.run (actions.map fun action => .wire (.connection i action)) n =
        some (n', (((call.request n.wire.server.shared.database).served (number + 1)).map
          fun event => (i, event)).map fun entry => (entry.1, .handled entry.2)) ∧
      n'.clients = Function.update n.clients i (some
        (client.deliver (encode (call.command.apply n.wire.server.shared.database).1))) ∧
      (∃ sent', n'.wire.Waits i [] (number + 1) sent') ∧
      n'.wire.server.shared.database = (call.command.apply n.wire.server.shared.database).2 ∧
      ∀ j, j ≠ i → n.wire.Alike n'.wire j := by
  obtain ⟨actions, w, hundisturbed, hserve, hagain, hdatabase, hothers⟩ := h.serve_call hfits
  obtain ⟨hrun, -⟩ := run_wire (n := n) (by simp [allows]) hserve
  rw [List.map_map] at hrun
  refine ⟨actions, _, hundisturbed, hrun, ?_, ⟨_, hagain⟩, hdatabase, hothers⟩
  funext j
  by_cases hji : j = i
  · subst hji
    simp [delivered, hclient, hagain.endpoint, h.endpoint]
  · have hsame : (w.endpoints j).sent = (n.wire.endpoints j).sent := by rw [(hothers j hji).2]
    simp [delivered, hsame, Function.update_of_ne hji]

/-- A call that nothing disturbs returns the answer of the map in the server. -/
theorem Network.Ready.exists_call {n : Network} {i number : ℕ} (h : n.Ready i number) {call : Call}
    (hfits : call.Fits)
    (hreply : Deliverable (call.command.apply n.wire.server.shared.database).1) :
    ∃ (actions : List NetworkAction) (n' : Network) (out : List (ℕ × NetworkEvent)),
      (∀ action ∈ actions, action.Undisturbed) ∧ network.run actions n = some (n', out) ∧
      n'.Ready i (number + 1) ∧
      n'.wire.server.shared.database = (call.answer n.wire.server.shared.database).2 ∧
      (∀ j k, j ≠ i → n.Ready j k → n'.Ready j k) ∧
      (i, .returned (number + 1) call (call.answer n.wire.server.shared.database).1) ∈ out ∧
      serverEvents out = ((call.request n.wire.server.shared.database).served (number + 1)).map
        fun event => (i, event) := by
  obtain ⟨sent, hwaits⟩ := h.handler
  have hopen : (n.wire.endpoints i).closed = false := by rw [hwaits.endpoint]
  have hrequest := run_request h.client hopen call
  obtain ⟨actions, n', hundisturbed, hserve, hclients, ⟨sent', hagain⟩, hdatabase, hothers⟩ :=
    run_serve (n := ⟨n.wire.deliver i (encode call.commandFrame), Function.update n.clients i
        (some ⟨⟨.awaiting call, ⟨[], [], none⟩⟩, number + 1, false, false⟩)⟩)
      (Function.update_self _ _ _) hfits (hwaits.deliver (encode call.commandFrame))
  have hreturned := run_response (n := n') hreply
    (by rw [hclients]; exact Function.update_self _ _ _) (by rw [hagain.endpoint])
  have hrun := network.run_append.mpr ⟨_, _, _, hrequest,
    network.run_append.mpr ⟨_, _, _, hserve, hreturned, rfl⟩, rfl⟩
  refine ⟨_, _, _, ?_, hrun, ⟨Function.update_self _ _ _, sent', hagain⟩, ?_, fun j k hji hj => ?_,
    ?_, ?_⟩
  · simp only [List.cons_append, List.nil_append, List.mem_cons, List.mem_append, List.mem_map,
      List.not_mem_nil, or_false]
    rintro action (rfl | rfl | rfl | ⟨own, hmem, rfl⟩ | rfl | rfl)
    · exact trivial
    · exact trivial
    · exact trivial
    · exact hundisturbed own hmem
    · exact trivial
    · exact trivial
  · rw [hdatabase, Call.answer_snd]
    rfl
  · obtain ⟨sent', hwaits'⟩ := hj.handler
    refine ⟨?_, sent', hwaits'.alike ((Wire.alike_deliver hji _).trans (hothers j hji))⟩
    simp only [hclients, Function.update_of_ne hji, hj.client]
  · rw [← Call.interpret_apply]
    exact List.mem_append_right _ (List.mem_append_right _ (List.mem_singleton_self _))
  · rw [serverEvents_append, serverEvents_append, serverEvents_handled]
    exact List.append_nil _

/-- The first connections are accepted, and the requesters at them can call. -/
theorem Network.exists_ready {maxConnections : ℕ} {database : Database} {s : Server} (count : ℕ)
    (hnew : Server.new maxConnections database = some s) (hcount : count ≤ maxConnections)
    (requesters : ℕ → Bool) :
    ∃ (actions : List NetworkAction) (n : Network), (∀ action ∈ actions, action.Undisturbed) ∧
      network.run actions (.new s requesters) = some (n, []) ∧
      n.wire.server.shared.database = database ∧
      ∀ i, i < count → requesters i = true → n.Ready i 0 := by
  obtain ⟨w, hrun, hopened⟩ := Wire.run_opened count hnew hcount
  obtain ⟨hnetwork, -⟩ := run_wire (n := .new s requesters) (fun action hmem => by
    rcases Wire.of_mem_opened hmem with ⟨own, rfl⟩ | ⟨i, own, rfl, -⟩ <;> rfl) hrun
  refine ⟨_, _, ?_, hnetwork, hopened.database, fun i hi hrequester => ⟨?_, [], hopened.waits i hi⟩⟩
  · intro action hmem
    obtain ⟨wireAction, hwire, rfl⟩ := List.mem_map.mp hmem
    rcases Wire.of_mem_opened hwire with ⟨own, rfl⟩ | ⟨i, own, rfl, hundisturbed⟩
    · exact trivial
    · exact hundisturbed
  · simp only [delivered, new, hrequester, if_true, Option.map_some, hopened.endpoints]
    rfl

/-- A step of the network is at most one step on the wire, with the same events of the server. -/
theorem Network.Step.on_wire {n n' : Network} {action : NetworkAction}
    {out : List (ℕ × NetworkEvent)} (h : Network.Step n action n' out) :
    ∃ wireAction, MiniRedis.wire.step wireAction n.wire = some (n'.wire, serverEvents out) ∧
      ∀ i text, wireAction = .connection i (.readError text) →
        action = .wire (.connection i (.readError text)) := by
  cases h with
  | wire action hallowed hstep =>
    rw [serverEvents_handled]
    refine ⟨action, hstep, ?_⟩
    rintro i text rfl
    rfl
  | client i action hclient hdropped hstep hopen =>
    rename_i client requester bytes events
    rw [serverEvents_numbered]
    exact ⟨.peer i (.deliver bytes), Wire.step_peer_deliver hopen bytes, by simp⟩
  | drop i hclient hdropped => exact ⟨.peer i .close, rfl, by simp⟩

/-- A run of the network is a run on the wire. -/
theorem Network.run_on_wire {n n' : Network} {actions : List NetworkAction}
    {out : List (ℕ × NetworkEvent)} (hrun : network.run actions n = some (n', out)) :
    ∃ wireActions, MiniRedis.wire.run wireActions n.wire = some (n'.wire, serverEvents out) := by
  induction actions generalizing n out with
  | nil =>
    cases hrun
    exact ⟨[], rfl⟩
  | cons action actions ih =>
    obtain ⟨u, now, later, hstep, hlater, rfl⟩ := network.run_cons_eq_some.mp hrun
    obtain ⟨wireAction, hwire, -⟩ := (Network.step_cases hstep).on_wire
    obtain ⟨wireActions, hmore⟩ := ih hlater
    rw [serverEvents_append]
    exact ⟨wireAction :: wireActions, MiniRedis.wire.run_cons_eq_some.mpr ⟨_, _, _, hwire, hmore, rfl⟩⟩

/-- And so it is one of the server. -/
theorem Network.run_on_server {n n' : Network} {actions : List NetworkAction}
    {out : List (ℕ × NetworkEvent)} (hrun : network.run actions n = some (n', out)) :
    ∃ serverActions,
      server.run serverActions n.wire.server = some (n'.wire.server, serverEvents out) := by
  obtain ⟨wireActions, hwire⟩ := run_on_wire hrun
  obtain ⟨serverActions, _, hserver, rfl⟩ := wire_simulates.run rfl hwire
  exact ⟨serverActions, hserver⟩

end MiniRedis
