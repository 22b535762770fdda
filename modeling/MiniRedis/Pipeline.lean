import MiniRedis.Delivery
import MiniRedis.Service

/-!
# Pipelined requests

A peer may send many requests before it reads a reply. The replies come back whole, in the
order of the requests, and as the reference interpreter gives them.
-/
namespace MiniRedis

open Library

/-! ### The replies can be read -/

theorem Deliverable.cost_le {frame : Frame} (h : Deliverable frame) :
    frame.cost ≤ maxBufferedBytes :=
  (frameDecoder_charge (frameDecoder_whole h.readable h.depth_le)).trans h.fits

/-- The reply to a request within the budget, and the database behind it, are within theirs. -/
theorem Database.Bounded.respond {database : Database} (h : database.Bounded) {frame : Frame}
    (hframe : Deliverable frame) :
    Sendable (respond frame database).1 ∧ (respond frame database).2.Bounded := by
  unfold MiniRedis.respond
  cases hparse : Command.fromFrame frame with
  | error error => exact ⟨sendable_error (Command.fromFrame_error hparse), h⟩
  | ok command =>
    cases command with
    | get command => exact ⟨h.lookup command.key, h⟩
    | set command =>
      have hcost := Command.set_cost hparse
      have hbudget := hframe.cost_le
      refine ⟨sendable_ok, h.set ?_⟩
      simp only [maxStoredBytes]
      omega

theorem Database.Bounded.replay_respond {database : Database} (h : database.Bounded)
    {frames : List Frame} (hframes : ∀ frame ∈ frames, Deliverable frame) :
    ∀ reply ∈ (replay MiniRedis.respond database frames).1, Sendable reply := by
  induction frames generalizing database with
  | nil => simp
  | cons frame frames ih =>
    obtain ⟨hreply, hnext⟩ := h.respond (hframes frame List.mem_cons_self)
    intro reply hmem
    rcases List.mem_cons.mp hmem with rfl | hmem
    · exact hreply
    · exact ih hnext (fun f hf => hframes f (List.mem_cons_of_mem _ hf)) reply hmem

/-! ### A peer that has not sent all of it -/

/-- An open connection is answered as far as its requests have come, with no report. -/
theorem Heard.answers_prefix_of_open {delivered rest : Bytes} {database : Database} {phase : Phase}
    {endpoint : Endpoint} {events : List Event} {frames served pending unsent : List Frame}
    (h : Heard (fun _ => False) delivered phase endpoint events)
    (hreplied : Replied database events served pending unsent)
    (hopen : endpoint.closed = false) (hscan : frameScanner.scan (delivered ++ rest) = (frames, [])) :
    encodeAll (attempts events) <+: encodeAll (replay respond database frames).1 := by
  have hscans := h.scans.append rest
  have hnone : ∀ error, .readFailed error ∉ events := by
    intro error hmem
    obtain ⟨-, ⟨_, -, himpossible⟩ | ⟨hcall, hend⟩⟩ := h.failed error hmem
    · exact himpossible
    · have hlater := referenceCall_append hcall
        (fun heq => Bool.false_ne_true (hopen.symm.trans (hend heq))) rest
      have hleft := hscans.scan_eq_of_none
        (nextFrame_eq_none fun frame heq => by rw [hlater] at heq; cases heq)
      rw [hscan] at hleft
      rw [← (Prod.mk.inj hleft).2, referenceCall_nil] at hlater
      cases hlater
  have hserved : served <+: frames := by
    have hfront := hscans.scan_eq
    rw [hscan] at hfront
    rw [(Prod.mk.inj hfront).1, hreplied.received, List.append_assoc]
    exact List.prefix_append _ _
  exact (encodeAll_mono (hreplied.answers hnone)).trans
    (encodeAll_mono (replay_respond_mono hserved database))

/-- Pipelined requests. Whatever part of them a peer has delivered in whatever chunks, it has
been sent a prefix of their replies; and when it closes its side behind the last one, the
handler alone can go on until it has sent them all, and a reader of what it has sent gets
each reply once, in order, and then the end of the stream. -/
theorem pipeline_answered (maxConnections : ℕ) (database : Database) (s : Server) (w : Wire)
    (actions : List WireAction) (out : List (ℕ × Event)) (i : ℕ) (frames : List Frame)
    (rest : Bytes) (hnew : Server.new maxConnections database = some s)
    (hrun : wire.run actions (Wire.new s) = some (w, out)) (hdatabase : database.Bounded)
    (hframes : ∀ frame ∈ frames, Deliverable frame)
    (hdelivered : deliveredBytes i actions ++ rest = encodeAll frames)
    (hio : ∀ text, .connection i (.readError text) ∉ actions)
    (hquiet : ∀ j key, j ≠ i → SetsKey out j key → ¬ Asks frames key) :
    ((w.endpoints i).closed = false ∨ rest = [] →
      (w.endpoints i).sent <+: encodeAll (replay respond database frames).1) ∧
    (rest = [] → ∀ task, w.server.tasks[i]? = some task → (w.endpoints i).closed = true →
      task.phase.live = true → ∃ more w' later,
        (∀ action ∈ more, ∃ own : EndpointAction, action = .connection i own ∧
          own.Undisturbed) ∧
        wire.run more w = some (w', later) ∧
        (w'.endpoints i).sent = encodeAll (replay respond database frames).1 ∧
        ReadsAs (w'.endpoints i).sent (replay respond database frames).1 .eof) := by
  have hscan : frameScanner.scan (deliveredBytes i actions ++ rest) = (frames, []) := by
    rw [hdelivered]
    exact scan_encodeAll hframes
  have hwhole : rest = [] → service database (deliveredBytes i actions) =
        encodeAll (replay respond database frames).1 ∧
      ∀ j key, j ≠ i → SetsKey out j key →
        ¬ Asks (frameScanner.scan (deliveredBytes i actions)).1 key := by
    rintro rfl
    rw [List.append_nil] at hdelivered hscan
    rw [hscan, hdelivered]
    exact ⟨service_encodeAll hframes database, hquiet⟩
  constructor
  · rintro (hopen | hall)
    · have hheard : Heard (fun _ => False) (deliveredBytes i actions) (w.server.phaseAt i)
          (w.endpoints i) (project i out) := Heard.run hnew (fun text hmem => hio text hmem) hrun
      obtain ⟨serverActions, t, hserver, rfl⟩ := wire_simulates.run (t := s) rfl hrun
      have htrace := ServerTrace.run hnew hserver
      have hreceived : receivedFrames (project i out) <+: frames := by
        have hfront := (hheard.scans.append rest).scan_eq
        rw [hscan] at hfront
        rw [(Prod.mk.inj hfront).1]
        exact List.prefix_append _ _
      obtain ⟨served, pending, unsent, hreplied⟩ := replied_of_trace htrace
        (Replays.run hnew hserver)
        fun j key hji hsets hgets => hquiet j key hji hsets ((htrace.asks hgets).mono hreceived)
      refine List.IsPrefix.trans ?_ (hheard.answers_prefix_of_open hreplied hopen hscan)
      rw [← hheard.sent.total]
      exact List.prefix_append _ _
    · obtain ⟨hservice, hsilent⟩ := hwhole hall
      rw [← hservice]
      exact sent_prefix_service hnew hrun hio hsilent
  · intro hall task hi hclosed hloop
    obtain ⟨hservice, hsilent⟩ := hwhole hall
    obtain ⟨more, w', later, hmore, hrun', hsent⟩ :=
      exists_drain hnew hrun hio hsilent hi hclosed hloop
    rw [hservice] at hsent
    refine ⟨more, w', later, hmore, hrun', hsent, ?_⟩
    have hreads := readsAs_encodeAll
      (fun reply hmem => (hdatabase.replay_respond hframes reply hmem).deliverable)
      referenceCall_nil
    rwa [List.append_nil, ← hsent] at hreads

/-- A SET and a GET of its key arrive in two parts, cut in the middle of the SET. -/
theorem pipeline_answered_two :
    ∃ s w actions out more w' later, Server.new 1 .new = some s ∧
      wire.run actions (Wire.new s) = some (w, out) ∧ (w.endpoints 0).sent = [] ∧
      wire.run more w = some (w', later) ∧
      (w'.endpoints 0).sent = encodeAll [.simple "OK", .bulk [118]] ∧
      ReadsAs (w'.endpoints 0).sent [.simple "OK", .bulk [118]] .eof := by
  have hkey : (asBytes "k").length ≤ isizeMax := by decide
  have hvalue : [(118 : UInt8)].length ≤ isizeMax := by decide
  have hset : (Call.set "k" [118] hkey hvalue).Fits := Call.fits_set (by decide)
  have hget := (Call.fits_get_of_set hset).1
  have hframes : ∀ frame ∈ [(Call.set "k" [118] hkey hvalue).commandFrame,
      (Call.get "k" hkey).commandFrame], Deliverable frame := by
    intro frame hmem
    rcases List.mem_cons.mp hmem with rfl | hmem
    · exact hset.deliverable
    · rw [List.mem_singleton.mp hmem]
      exact hget.deliverable
  have hreplies : (replay respond .new [(Call.set "k" [118] hkey hvalue).commandFrame,
      (Call.get "k" hkey).commandFrame]).1 = [.simple "OK", .bulk [118]] := by
    simp only [replay, respond, Call.fromFrame_commandFrame]
    rfl
  obtain ⟨s, hnew⟩ : ∃ s, Server.new 1 .new = some s := ⟨_, rfl⟩
  generalize hbytes : encodeAll [(Call.set "k" [118] hkey hvalue).commandFrame,
    (Call.get "k" hkey).commandFrame] = bytes
  obtain ⟨w, task, hrun, hi, hclosed, hloop, hsent⟩ : ∃ w task, wire.run
      (.acceptor .run :: acceptance.map .acceptor ++ [.peer 0 (.deliver (bytes.take 9)),
        .connection 0 (.task (.start true)), .peer 0 (.deliver (bytes.drop 9)), .peer 0 .close])
        (Wire.new s) = some (w, []) ∧ w.server.tasks[0]? = some task ∧
      (w.endpoints 0).closed = true ∧ task.phase.live = true ∧
      (w.endpoints 0).sent = [] := by
    cases hnew
    exact ⟨_, _, rfl, rfl, rfl, rfl, rfl⟩
  have hall : deliveredBytes 0 (.acceptor .run :: acceptance.map .acceptor ++
      [.peer 0 (.deliver (bytes.take 9)), .connection 0 (.task (.start true)),
      .peer 0 (.deliver (bytes.drop 9)), .peer 0 .close]) ++ [] = bytes := by
    simp [deliveredBytes, WireAction.bytes, acceptance]
  obtain ⟨-, hdrains⟩ :=
    pipeline_answered 1 .new s w _ [] 0 _ [] hnew hrun (by simp [Database.Bounded])
    hframes (hall.trans hbytes.symm) (by simp) fun _ _ _ hsets => by simp [SetsKey] at hsets
  obtain ⟨more, w', later, -, hmore, hsent', hreads⟩ := hdrains rfl task hi hclosed hloop
  rw [hreplies] at hsent' hreads
  exact ⟨s, w, _, [], more, w', later, hnew, hrun, hsent, hmore, hsent', hreads⟩

end MiniRedis
