import MiniRedis.Agreement

/-!
# What all callers see

One total order of the executed commands explains the results of all calls of all
requesters, whatever happens to their connections, and whatever other peers send.
-/
namespace MiniRedis

open Library

/-! ### Linearizability for the callers -/

/-- The result of a call after these commands. -/
def Call.resultAfter (call : Call) (commands : List Command) : CallResult :=
  match call with
  | .get key _ => .value (lastSet key commands)
  | .set _ _ _ _ => .done

/-- One total order of the executed commands explains the results of all calls. -/
structure CallsLinearize (requesters : ℕ → Bool) (out : List (ℕ × NetworkEvent))
    (order : List (ℕ × Commit Command Frame)) : Prop where
  /-- For a requester only commands of calls that it has begun are executed. -/
  called : ∀ i commit, requesters i = true → (i, commit) ∈ order →
    ∃ call, (i, .called commit.number call) ∈ out ∧ commit.operation = call.command
  /-- A call that returns `Ok` is executed, and returns what the order gives at its place. -/
  returned : ∀ i number call result, requesters i = true →
    (i, .returned number call result) ∈ out → result.isOk = true →
    ∃ pre post reply, order = pre ++ (i, ⟨number, call.command, reply⟩) :: post ∧
      result = call.resultAfter (pre.map (·.2.operation))
  /-- So are all calls of the requester before it. -/
  gapless : ∀ i number call result earlier call', requesters i = true →
    (i, .returned number call result) ∈ out → result.isOk = true →
    (i, .called earlier call') ∈ out → earlier < number →
    ∃ reply, (i, ⟨earlier, call'.command, reply⟩) ∈ order
  /-- A call that returns `Ok` comes before every call that begins later, at any requester. -/
  realTime : ∀ a ∈ order, ∀ b ∈ order, requesters a.1 = true → requesters b.1 = true →
    ∀ call result call', result.isOk = true →
    Before out (a.1, .returned a.2.number call result) (b.1, .called b.2.number call') →
    Before order a b

theorem Call.resultAfter_eq {call : Call} {commands : List Command} {reply : Frame}
    (h : reply = (call.command.apply (replay Command.apply .new commands).2).1) :
    call.interpret (.frame reply) = call.resultAfter commands := by
  rw [h, Call.interpret_apply]
  cases call with
  | get key hkey =>
    simp only [answer, resultAfter, get_replay, Database.get_new, Option.or_none]
  | set key value hkey hvalue => rfl

theorem mem_appliedOrder_serverEvents {out : List (ℕ × NetworkEvent)} {i : ℕ}
    {commit : Commit Command Frame} : (i, commit) ∈ appliedOrder (serverEvents out) ↔
      .applied commit.number commit.operation commit.result ∈ handlerEvents (project i out) := by
  rw [mem_appliedOrder, ← project_serverEvents, mem_project]

theorem NetworkLaw.callsLinearize {n : Network} {out : List (ℕ × NetworkEvent)}
    {requesters : ℕ → Bool} (h : NetworkLaw n out)
    (hclients : ∀ i, (n.clients i).isSome = requesters i)
    (hreplays : Replays .new n.wire.server (serverEvents out)) :
    CallsLinearize requesters out (appliedOrder (serverEvents out)) := by
  have hlin := Linearization.commits h.trace.timed hreplays
  have hlink : ∀ i, requesters i = true → ∃ client requests, n.clients i = some client ∧
      Link (n.wire.server.phaseAt i) (n.wire.endpoints i) client (project i out) ∧
        Executes (handlerEvents (project i out)) requests := by
    intro i hi
    rw [← hclients] at hi
    obtain ⟨client, hclient⟩ := Option.isSome_iff_exists.mp hi
    obtain ⟨requests, hexecuted⟩ := h.executes i
    exact ⟨client, requests, hclient, h.links i client hclient, hexecuted⟩
  exact {
    called := by
      intro i commit hi hmem
      obtain ⟨client, requests, -, hlink, hexecuted⟩ := hlink i hi
      obtain ⟨k, call, hnumber, hcall, hcommand⟩ :=
        hlink.applied hexecuted (mem_appliedOrder_serverEvents.mp hmem)
      exact ⟨call, mem_project.mp ((hlink.called _ _).mpr ⟨k, hnumber, hcall⟩), hcommand⟩
    returned := by
      intro i number call result hi hreturned hok
      obtain ⟨client, requests, -, hlink, hexecuted⟩ := hlink i hi
      obtain ⟨⟨reply, happlied, rfl⟩, -⟩ :=
        hlink.applied_of_isOk hexecuted (mem_project.mpr hreturned) hok
      have hmem : (i, ⟨number, call.command, reply⟩) ∈ appliedOrder (serverEvents out) :=
        mem_appliedOrder_serverEvents.mpr happlied
      obtain ⟨pre, post, hsplit⟩ := List.append_of_mem hmem
      exact ⟨pre, post, reply, hsplit, Call.resultAfter_eq (hlin.result_eq hsplit)⟩
    gapless := by
      intro i number call result earlier call' hi hreturned hok hcalled hlt
      obtain ⟨client, requests, -, hlink, hexecuted⟩ := hlink i hi
      obtain ⟨-, hbefore⟩ := hlink.applied_of_isOk hexecuted (mem_project.mpr hreturned) hok
      obtain ⟨k, rfl, hk⟩ := (hlink.called _ _).mp (mem_project.mpr hcalled)
      obtain ⟨reply, happlied⟩ := hbefore k call' hlt hk
      exact ⟨reply, mem_appliedOrder_serverEvents.mpr happlied⟩
    realTime := by
      rintro ⟨i, a⟩ ha ⟨j, b⟩ hb hi hj call result call' hok hbefore
      obtain ⟨client, -, hclient, -⟩ := hlink i hi
      obtain ⟨client', -, hclient', -⟩ := hlink j hj
      have ha' := mem_handlerEvents.mp (mem_appliedOrder_serverEvents.mp ha)
      have hb' := mem_handlerEvents.mp (mem_appliedOrder_serverEvents.mp hb)
      have hret : ¬ Before out (i, .returned a.number call result)
          (i, .handled (.applied a.number a.operation a.result)) := fun hwrong =>
        (h.inOrder i client hclient).returned _ _ _ _ _ hok hwrong.project
      have hcall : ¬ Before out (j, .handled (.applied b.number b.operation b.result))
          (j, .called b.number call') := fun hwrong =>
        (h.inOrder j client' hclient').called _ _ _ _ hwrong.project
      have happlied := hbefore.of_return_call (mem_project.mp ha') (mem_project.mp hb') hret hcall
      have hserver : Before (serverEvents out) (i, .applied a.number a.operation a.result)
          (j, .applied b.number b.operation b.result) := happlied.filterMap rfl rfl
      have hhistory : Before (history (serverEvents out))
          (i, .commit a.number a.operation a.result)
          (j, .commit b.number b.operation b.result) := hserver.filterMap rfl rfl
      exact hhistory.filterMap rfl rfl }

/-- The order of the applied commands explains the replies, the results and the database. -/
theorem NetworkLaw.linearizes {n : Network} {out : List (ℕ × NetworkEvent)}
    {requesters : ℕ → Bool} (h : NetworkLaw n out)
    (hclients : ∀ i, (n.clients i).isSome = requesters i)
    (hreplays : Replays .new n.wire.server (serverEvents out)) :
    ∃ order, Linearizes (serverEvents out) order ∧ CallsLinearize requesters out order ∧
      ∀ key, n.wire.server.shared.database.get key = lastSet key (order.map (·.2.operation)) := by
  refine ⟨appliedOrder (serverEvents out), appliedOrder_linearizes h.trace hreplays,
    h.callsLinearize hclients hreplays, fun key => ?_⟩
  rw [hreplays.get_eq key, Database.get_new, Option.or_none]

/-- The server and all requesters, together with any other peers, are linearizable: one
total order of the executed commands explains the replies of all handlers and the results
of all calls. Calls may time out, fail or be dropped, connections may break or be closed,
and handlers may be shut down or cancelled, at any time. -/
theorem network_linearizable (maxConnections : ℕ) (requesters : ℕ → Bool) (s : Server)
    (n : Network) (actions : List NetworkAction) (out : List (ℕ × NetworkEvent))
    (hnew : Server.new maxConnections .new = some s)
    (hproper : network.Meets NetworkAction.Proper actions (.new s requesters))
    (hrun : network.run actions (.new s requesters) = some (n, out)) :
    ∃ order, Linearizes (serverEvents out) order ∧ CallsLinearize requesters out order ∧
      ∀ key, n.wire.server.shared.database.get key = lastSet key (order.map (·.2.operation)) := by
  obtain ⟨serverActions, hserver⟩ := Network.run_on_server hrun
  exact (NetworkLaw.run hnew hproper hrun).linearizes (Network.run_clients hrun)
    (Replays.run hnew hserver)

/-- One requester sets and gets a key, and another one sets another key in between. -/
theorem exists_calls : ∃ s actions n out, Server.new 2 .new = some s ∧
    network.Meets NetworkAction.Proper actions (.new s fun _ => true) ∧
    network.run actions (.new s fun _ => true) = some (n, out) ∧
    (0, .returned 2 (.get "k" (by decide)) (.value (some [13, 10]))) ∈ out ∧
    serverEvents out =
      (((Call.set "k" [13, 10] (by decide) (by decide)).request .new).served 1).map
        (fun event => (0, event)) ++
      (((Call.set "j" [1] (by decide) (by decide)).request
        (Database.new.set "k" [13, 10])).served 1).map (fun event => (1, event)) ++
      (((Call.get "k" (by decide)).request
        ((Database.new.set "k" [13, 10]).set "j" [1])).served 2).map fun event => (0, event) := by
  have hset : (Call.set "k" [13, 10] (by decide) (by decide)).Fits := Call.fits_set (by decide)
  have hother : (Call.set "j" [1] (by decide) (by decide)).Fits := Call.fits_set (by decide)
  obtain ⟨hget, hbulk⟩ := Call.fits_get_of_set hset
  obtain ⟨s, hnew⟩ : ∃ s, Server.new 2 .new = some s := ⟨_, rfl⟩
  obtain ⟨start, n₀, hstart, hrun₀, hdatabase₀, hready₀⟩ :=
    Network.exists_ready 2 hnew (Nat.le_refl 2) fun _ => true
  obtain ⟨first, n₁, out₁, hfirst, hrun₁, hready₁, hdatabase₁, hothers₁, -, hevents₁⟩ :=
    (hready₀ 0 (by decide) rfl).exists_call hset sendable_ok.deliverable
  obtain ⟨second, n₂, out₂, hsecond, hrun₂, -, hdatabase₂, hothers₂, -, hevents₂⟩ :=
    (hothers₁ 1 0 (by decide) (hready₀ 1 (by decide) rfl)).exists_call hother
      sendable_ok.deliverable
  rw [hdatabase₀] at hdatabase₁ hevents₁
  rw [hdatabase₁] at hdatabase₂ hevents₂
  have hanswer : ((Call.get "k" (by decide)).command.apply n₂.wire.server.shared.database).1 =
      .bulk [13, 10] := by
    rw [hdatabase₂]
    rfl
  obtain ⟨third, n₃, out₃, hthird, hrun₃, -, -, -, hreturned, hevents₃⟩ :=
    (hothers₂ 0 1 (by decide) hready₁).exists_call hget
      (by rw [hanswer]; exact (sendable_bulk hbulk).deliverable)
  rw [hdatabase₂] at hreturned hevents₃
  have hrun := network.run_append.mpr ⟨_, _, _, hrun₀, network.run_append.mpr ⟨_, _, _, hrun₁,
    network.run_append.mpr ⟨_, _, _, hrun₂, hrun₃, rfl⟩, rfl⟩, rfl⟩
  refine ⟨s, _, n₃, _, hnew, Network.meets_of_undisturbed ?_ ?_, hrun, ?_, ?_⟩
  · intro i client hclient
    obtain rfl := Option.some.inj hclient
    rfl
  · intro action hmem
    simp only [List.mem_append] at hmem
    rcases hmem with hmem | hmem | hmem | hmem
    · exact hstart action hmem
    · exact hfirst action hmem
    · exact hsecond action hmem
    · exact hthird action hmem
  · exact List.mem_append_right _ (List.mem_append_right _ (List.mem_append_right _ hreturned))
  · simp only [serverEvents_append, hevents₁, hevents₂, hevents₃, List.append_assoc]
    rfl

/-- Two requesters set different keys, and one of them gets its own. -/
theorem network_linearizable_two :
    ∃ s actions n out, Server.new 2 .new = some s ∧
      network.run actions (.new s fun _ => true) = some (n, out) ∧
      (0, .returned 2 (.get "k" (by decide)) (.value (some [13, 10]))) ∈ out ∧
      ∃ order, Linearizes (serverEvents out) order ∧ CallsLinearize (fun _ => true) out order ∧
        ∀ key, n.wire.server.shared.database.get key = lastSet key (order.map (·.2.operation)) := by
  obtain ⟨s, actions, n, out, hnew, hproper, hrun, hreturned, -⟩ := exists_calls
  exact ⟨s, actions, n, out, hnew, hrun, hreturned,
    network_linearizable 2 _ s n actions out hnew hproper hrun⟩

/-! ### Private keys -/

/-- On the requests of calls the reference interpreter applies their commands. -/
theorem replay_respond_commandFrame (calls : List Call) (database : Database) :
    replay respond database (calls.map Call.commandFrame) =
      replay Command.apply database (calls.map Call.command) := by
  induction calls generalizing database with
  | nil => rfl
  | cons call calls ih =>
    simp only [List.map_cons, replay, respond_of_ok call.fromFrame_commandFrame, ih]

/-- The calls that a requester has begun before the one with this number. -/
def callsBefore (out : List (ℕ × NetworkEvent)) (i number : ℕ) : List Call :=
  (begun (project i out)).take (number - 1)

/-- Where no other connection sets a key that a requester gets, its calls behave as on a map
of its own, up to the last one that returns `Ok`, whatever happens to it and to the others. -/
theorem network_private_map (maxConnections : ℕ) (requesters : ℕ → Bool) (s : Server)
    (n : Network) (actions : List NetworkAction) (out : List (ℕ × NetworkEvent)) (i : ℕ)
    (hnew : Server.new maxConnections .new = some s)
    (hproper : network.Meets NetworkAction.Proper actions (.new s requesters))
    (hrun : network.run actions (.new s requesters) = some (n, out)) (hi : requesters i = true)
    (hprivate : ∀ j key, j ≠ i → SetsKey (serverEvents out) j key →
      ¬ GetsKey (serverEvents out) i key) :
    ∀ number call result, (i, .returned number call result) ∈ out → result.isOk = true →
      result = (call.answer (Call.stored (callsBefore out i number))).1 := by
  intro number call result hreturned hok
  have hlaw := NetworkLaw.run hnew hproper hrun
  obtain ⟨serverActions, hserver⟩ := Network.run_on_server hrun
  have hreplays := Replays.run hnew hserver
  obtain ⟨client, hclient⟩ : ∃ client, n.clients i = some client := by
    rw [← Network.run_clients hrun i] at hi
    exact Option.isSome_iff_exists.mp hi
  have hlink := hlaw.links i client hclient
  obtain ⟨k, reply, rfl, hcall, hreply, rfl⟩ :=
    hlink.answered number call result (mem_project.mpr hreturned) hok
  -- The handler has produced this reply as the reference does on its frames.
  have hproduced := hreplays.producedReplies_eq hlaw.trace hprivate
  have hreply' : (producedReplies (project i (serverEvents out)))[k]? = some reply := by
    obtain ⟨-, -, -, hanswers⟩ := hlaw.trace.executed i
    rw [← project_serverEvents] at hreply
    rcases hanswers.attempted with ⟨later, hlater⟩ | ⟨error, -, hattempts⟩
    · rw [← hlater, List.getElem?_append_left (List.getElem?_eq_some_iff.mp hreply).1, hreply]
    · rw [hattempts] at hreply
      rcases Nat.lt_or_ge k (producedReplies (project i (serverEvents out))).length with hlt | hge
      · rwa [List.getElem?_append_left hlt] at hreply
      · rw [List.getElem?_append_right hge] at hreply
        rw [List.mem_singleton.mp (List.mem_of_getElem? hreply),
          call.isOk_interpret_error error.display] at hok
        cases hok
  -- These frames are the requests of the first calls.
  obtain ⟨served, later, hbegun, hframes⟩ : ∃ served later, begun (project i out) = served ++ later ∧
      executedFrames (project i (serverEvents out)) = served.map Call.commandFrame := by
    obtain ⟨pending, hrequests, -⟩ := hlink.inlet
    rw [← project_serverEvents] at hrequests
    have hsplit : executedFrames (project i (serverEvents out)) ++
        ((receivedFrames (project i (serverEvents out))).drop
          (outcomes (project i (serverEvents out))).length ++ pending) =
        (begun (project i out)).map Call.commandFrame := by
      rw [← hrequests, ← List.append_assoc, executedFrames, List.take_append_drop]
    obtain ⟨served, later, hbegun, hserved, -⟩ := List.map_eq_append_iff.mp hsplit.symm
    exact ⟨served, later, hbegun, hserved.symm⟩
  rw [hproduced, hframes, replay_respond_commandFrame, getElem?_replay, List.getElem?_map] at hreply'
  obtain ⟨_, hsome, rfl⟩ := Option.map_eq_some_iff.mp hreply'
  obtain ⟨call', hcall', rfl⟩ := Option.map_eq_some_iff.mp hsome
  have hlt := (List.getElem?_eq_some_iff.mp hcall').1
  rw [hbegun, List.getElem?_append_left hlt] at hcall
  cases hcall.symm.trans hcall'
  have hbefore : callsBefore out i (k + 1) = served.take k := by
    rw [callsBefore, hbegun, Nat.add_sub_cancel, List.take_append_of_le_length (Nat.le_of_lt hlt)]
  rw [Call.interpret_apply, hbefore, Call.stored, Call.replay_answer_snd, List.map_take]

/-- Another requester sets another key between the calls. -/
theorem network_private_map_two :
    ∃ s actions n out, Server.new 2 .new = some s ∧
      network.run actions (.new s fun _ => true) = some (n, out) ∧
      SetsKey (serverEvents out) 1 "j" ∧
      (0, .returned 2 (.get "k" (by decide)) (.value (some [13, 10]))) ∈ out ∧
      ∀ number call result, (0, .returned number call result) ∈ out → result.isOk = true →
        result = (call.answer (Call.stored (callsBefore out 0 number))).1 := by
  obtain ⟨s, actions, n, out, hnew, hproper, hrun, hreturned, hevents⟩ := exists_calls
  refine ⟨s, actions, n, out, hnew, hrun, ?_, hreturned,
    network_private_map 2 _ s n actions out 0 hnew hproper hrun rfl ?_⟩
  · rw [hevents]
    simp [SetsKey, Call.applied_mem_served, Call.command]
  · rintro j key hj ⟨number, command, reply, hset, rfl⟩ ⟨number', command', reply', hget, hkey⟩
    have hother : command = ⟨"j", [1]⟩ := by
      rw [hevents] at hset
      simp [Call.applied_mem_served, Call.command, hj.symm] at hset
      exact hset.1.2.1
    have hown : command' = ⟨"k"⟩ := by
      rw [hevents] at hget
      simp [Call.applied_mem_served, Call.command] at hget
      exact hget.2.1
    rw [hother, hown] at hkey
    exact absurd hkey (by decide)

end MiniRedis
