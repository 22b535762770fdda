import MiniRedis.Backlog
import MiniRedis.Delivery
import MiniRedis.Writer

/-!
# Two connections

One `Connection` writes frames and another one reads them. The TCP stream takes the
bytes from the buffer of the writer, and delivers them to the reader, in any parts;
writes may fail and calls on both sides may be dropped. As long as no call is made
after a write that did not succeed, frames arrive whole, once and in order.
-/
namespace MiniRedis

open Library

/-- A writing and a reading connection. -/
structure Channel where
  outbound : FrameWriter
  inbound : Reader
  /-- The writing connection is dropped. -/
  closed : Bool

inductive ChannelAction where
  | write (action : WriteAction Frame String)
  | read (action : ReadAction)
  | close

inductive ChannelEvent where
  | wrote (frame : Frame) (ending : FrameWriteEnd)
  | got (result : ReadResult)

namespace Channel

def new : Channel := ⟨.new, ⟨[], [], none⟩, false⟩

def step (capacity : ℕ) (action : ChannelAction) (c : Channel) :
    Option (Channel × List ChannelEvent) :=
  match action with
  | .write action =>
    if c.closed then none
    else
      match CallWriter.step capacity writeData action c.outbound with
      | some (outbound, ended) =>
        let bytes := outbound.writer.sent.drop c.outbound.writer.sent.length
        some (⟨outbound, c.inbound.deliver bytes, c.closed⟩,
          ended.map fun entry => .wrote entry.1 entry.2)
      | none => none
  | .read action =>
    -- Only a dropped writer ends the stream.
    if action = .read 0 ∧ c.closed = false then none
    else
      match Reader.step action c.inbound with
      | some (inbound, results) => some ({ c with inbound }, results.map .got)
      | none => none
  | .close => some ({ c with closed := true }, [])

end Channel

/-- All schedules of both connections and of the stream between them. -/
def channel (capacity : ℕ) : Machine Channel ChannelAction ChannelEvent :=
  ⟨Channel.step capacity⟩

def ChannelEvent.wrote? : ChannelEvent → Option (Frame × FrameWriteEnd)
  | .wrote frame ending => some (frame, ending)
  | .got _ => none

def ChannelEvent.got? : ChannelEvent → Option ReadResult
  | .wrote _ _ => none
  | .got result => some result

/-- The calls of `write_frame` that have ended. -/
def writes (out : List ChannelEvent) : List (Frame × FrameWriteEnd) :=
  out.filterMap ChannelEvent.wrote?

/-- The results of `read_frame`. -/
def reads (out : List ChannelEvent) : List ReadResult := out.filterMap ChannelEvent.got?

section events

variable (l r : List ChannelEvent) (ended : List (Frame × FrameWriteEnd))
  (results : List ReadResult)

@[simp] theorem writes_append : writes (l ++ r) = writes l ++ writes r := by simp [writes]

@[simp] theorem reads_append : reads (l ++ r) = reads l ++ reads r := by simp [reads]

@[simp] theorem writes_wrote :
    writes (ended.map fun entry => .wrote entry.1 entry.2) = ended := by
  induction ended with
  | nil => rfl
  | cons entry ended ih => exact congrArg (entry :: ·) ih

@[simp] theorem reads_wrote : reads (ended.map fun entry => .wrote entry.1 entry.2) = [] := by
  induction ended with
  | nil => rfl
  | cons entry ended ih => exact ih

@[simp] theorem writes_got : writes (results.map .got) = [] := by
  induction results with
  | nil => rfl
  | cons result results ih => exact ih

@[simp] theorem reads_got : reads (results.map .got) = results := by
  induction results with
  | nil => rfl
  | cons result results ih => exact congrArg (result :: ·) ih

end events

/-- Everything a step of a channel can do. -/
inductive Channel.Step (capacity : ℕ) (c : Channel) :
    ChannelAction → Channel → List ChannelEvent → Prop
  | write (action : WriteAction Frame String) {outbound : FrameWriter}
    {ended : List (Frame × FrameWriteEnd)} (bytes : Bytes) (hopen : c.closed = false)
    (h : (frameWriter capacity).step action c.outbound = some (outbound, ended))
    (hsent : outbound.writer.sent = c.outbound.writer.sent ++ bytes) :
    Step capacity c (.write action) ⟨outbound, c.inbound.deliver bytes, c.closed⟩
      (ended.map fun entry => .wrote entry.1 entry.2)
  | read (action : ReadAction) {inbound : Reader} {results : List ReadResult}
    (hend : action = .read 0 → c.closed = true)
    (h : Reader.step action c.inbound = some (inbound, results)) :
    Step capacity c (.read action) { c with inbound } (results.map .got)
  | close : Step capacity c .close { c with closed := true } []

section step

variable {capacity : ℕ} {c c' : Channel} {action : ChannelAction} {out : List ChannelEvent}

/-- What a writer has sent stays sent. -/
theorem sent_prefix {s t : FrameWriter} {write : WriteAction Frame String}
    {ended : List (Frame × FrameWriteEnd)}
    (h : (frameWriter capacity).step write s = some (t, ended)) :
    s.writer.sent <+: t.writer.sent := by
  cases CallWriter.step_cases h with
  | begin call hphase => exact List.prefix_rfl
  | advance _ n moved _ _ _ _ _ hsent =>
    rw [hsent]
    exact List.prefix_append _ _
  | done call hphase hpending => exact List.prefix_rfl
  | stop _ call ending _ _ hsent _ => exact hsent ▸ List.prefix_rfl

theorem Channel.step_cases (h : (channel capacity).step action c = some (c', out)) :
    Channel.Step capacity c action c' out := by
  cases action with
  | write write =>
    simp only [channel, step] at h
    split at h
    · cases h
    · rename_i hopen
      split at h
      · rename_i outbound ended hstep
        cases h
        obtain ⟨bytes, hbytes⟩ := sent_prefix hstep
        rw [← hbytes, List.drop_left]
        exact .write write bytes (by simpa using hopen) hstep hbytes.symm
      · cases h
  | read read =>
    simp only [channel, step] at h
    split at h
    · cases h
    · rename_i hallowed
      split at h
      · rename_i inbound results hstep
        cases h
        refine .read read ?_ hstep
        rintro rfl
        simpa using hallowed
      · cases h
  | close =>
    cases h
    exact .close

/-- The writing side of a run is a run of the writer. -/
theorem Channel.run_writer {actions : List ChannelAction}
    (hrun : (channel capacity).run actions c = some (c', out)) :
    ∃ more, (frameWriter capacity).run more c.outbound = some (c'.outbound, writes out) := by
  induction actions generalizing c out with
  | nil =>
    cases hrun
    exact ⟨[], rfl⟩
  | cons action actions ih =>
    obtain ⟨u, now, later, hstep, hlater, rfl⟩ := (channel capacity).run_cons_eq_some.mp hrun
    obtain ⟨more, hmore⟩ := ih hlater
    rw [writes_append]
    cases step_cases hstep with
    | write write bytes hopen hwrite hsent =>
      rw [writes_wrote]
      exact ⟨write :: more, (frameWriter capacity).run_cons_eq_some.mpr
        ⟨_, _, _, hwrite, hmore, rfl⟩⟩
    | read read hend hread =>
      rw [writes_got]
      exact ⟨more, hmore⟩
    | close => exact ⟨more, hmore⟩

/-! ### The reader as if all bytes were there -/

/-- More bytes behind the stream do not change a read that is not at its end. -/
theorem Reader.step_deliver {s t : Reader} {read : ReadAction} {results : List ReadResult}
    {bytes : Bytes} (h : Reader.step read s = some (t, results))
    (hend : read = .read 0 → bytes = []) :
    Reader.step read (s.deliver bytes) = some (t.deliver bytes, results) := by
  obtain ⟨stream, buffer, reading⟩ := s
  have hsettle : ∀ stream progress, Reader.settle (stream ++ bytes) progress =
      ((Reader.settle stream progress).1.deliver bytes, (Reader.settle stream progress).2) := by
    rintro stream ⟨result | left, buffer⟩ <;> rfl
  cases read with
  | call =>
    cases reading with
    | some left => cases h
    | none =>
      have hsame := Option.some.inj h
      simp only [deliver, step, hsettle, hsame]
  | read n =>
    cases reading with
    | none => cases h
    | some left =>
      simp only [step] at h
      split at h
      · rename_i hread
        have hsame := Option.some.inj h
        by_cases hzero : n = 0
        · subst hzero
          rw [hend rfl, deliver_nil, deliver_nil, ← hsame]
          exact if_pos hread
        · have hlonger : n ≤ left ∧ n ≤ (stream ++ bytes).length ∧ (n = 0 → stream ++ bytes = []) := by
            rw [List.length_append]
            exact ⟨hread.1, by omega, fun heq => absurd heq hzero⟩
          simp only [deliver, step, if_pos hlonger]
          rw [List.drop_append_of_le_length hread.2.1, List.take_append_of_le_length hread.2.1,
            hsettle, hsame]
          rfl
      · cases h
  | fail text =>
    cases reading with
    | none => cases h
    | some left =>
      cases h
      rfl
  | cancel =>
    cases reading with
    | none => cases h
    | some left =>
      cases h
      rfl

/-- After the writer is dropped, nothing more is sent. -/
theorem Channel.run_closed {actions : List ChannelAction} (hclosed : c.closed = true)
    (hrun : (channel capacity).run actions c = some (c', out)) :
    c'.outbound = c.outbound := by
  have hkeeps := (channel capacity).run_state_invariant
    (P := fun u => u.closed = true ∧ u.outbound = c.outbound) ?_ ⟨hclosed, rfl⟩ hrun
  · exact hkeeps.2
  · rintro u action t now ⟨hu, hsame⟩ hstep
    cases step_cases hstep with
    | write _ _ hopen => cases hu.symm.trans hopen
    | read => exact ⟨hu, hsame⟩
    | close => exact ⟨rfl, hsame⟩

/-- The reading side of a run is a run of the reader to which all bytes that are sent
during the run are delivered before. -/
theorem Channel.run_reader {actions : List ChannelAction}
    (hio : ∀ text, .read (.fail text) ∉ actions)
    (hrun : (channel capacity).run actions c = some (c', out)) :
    ∃ bytes more, c'.outbound.writer.sent = c.outbound.writer.sent ++ bytes ∧
      (∀ text, .fail text ∉ more) ∧
      reader.run more (c.inbound.deliver bytes) = some (c'.inbound, reads out) := by
  induction actions generalizing c out with
  | nil =>
    cases hrun
    exact ⟨[], [], (List.append_nil _).symm, by simp, by rw [Reader.deliver_nil]; rfl⟩
  | cons action actions ih =>
    obtain ⟨u, now, later, hstep, hlater, rfl⟩ := (channel capacity).run_cons_eq_some.mp hrun
    obtain ⟨bytes, more, hsent, hfail, hmore⟩ :=
      ih (fun text hmem => hio text (List.mem_cons_of_mem _ hmem)) hlater
    rw [reads_append]
    cases step_cases hstep with
    | write write first hopen hwrite hfirst =>
      refine ⟨first ++ bytes, more, ?_, hfail, ?_⟩
      · rw [hsent, hfirst, List.append_assoc]
      · rw [reads_wrote]
        simpa [Reader.deliver] using hmore
    | @read read inbound results hend hread =>
      have hquiet : read = .read 0 → bytes = [] := by
        intro hzero
        rw [run_closed (c := { c with inbound }) (hend hzero) hlater] at hsent
        exact List.self_eq_append_right.mp hsent
      refine ⟨bytes, read :: more, hsent, ?_, ?_⟩
      · intro text hmem
        rcases List.mem_cons.mp hmem with rfl | hmem
        · exact hio text List.mem_cons_self
        · exact hfail text hmem
      · rw [reads_got]
        exact reader.run_cons_eq_some.mpr
          ⟨_, _, _, Reader.step_deliver hread hquiet, hmore, rfl⟩
    | close => exact ⟨bytes, more, hsent, hfail, hmore⟩

end step

/-! ### Frames arrive in order -/

/-- At most the last call has not been done: `whole` are the frames of the others. -/
structure OnlyLastCut (s : FrameWriter) (ended : List (Frame × FrameWriteEnd))
    (whole last : List Frame) : Prop where
  ended : ∃ done cut, ended = done ++ cut ∧ (∀ entry ∈ done, entry.2 = .done) ∧
    whole = done.map Prod.fst ∧ last = cut.map Prod.fst ++ s.phase.call?.toList
  length_le : last.length ≤ 1

/-- A frame of which not all is sent is not among the frames that are sent completely. -/
theorem prefix_of_front {whole complete : List Frame} {frame : Frame} {front : Bytes}
    (hcomplete : complete <+: whole ++ [frame])
    (hfront : ¬ encode frame <+: front)
    (hsent : encodeAll complete <+: encodeAll whole ++ front) : complete <+: whole := by
  rcases List.prefix_concat_iff.mp hcomplete with rfl | hwhole
  · rw [encodeAll_append, encodeAll_singleton] at hsent
    exact absurd ((List.prefix_append_right_inj _).mp hsent) hfront
  · exact hwhole

/-- The front of one more frame behind whole ones. The reader gets all frames that are sent
completely. -/
theorem readsAs_front {whole last : List Frame} {front : Bytes}
    (hframes : ∀ frame ∈ whole ++ last, Deliverable frame) (hlast : last.length ≤ 1)
    (hfront : front <+: encodeAll last) :
    ∃ got rest, whole <+: got ∧ got <+: whole ++ last ∧ rest.atEnd ∧
      ReadsAs (encodeAll whole ++ front) got rest ∧
      ∀ complete, complete <+: whole ++ last →
        encodeAll complete <+: encodeAll whole ++ front → complete <+: got := by
  have hwhole : ∀ frame ∈ whole, Deliverable frame := fun frame hmem =>
    hframes frame (List.mem_append_left _ hmem)
  obtain ⟨rest, hrest⟩ := hfront
  rcases last with _ | ⟨frame, _ | ⟨_, _⟩⟩
  · obtain ⟨rfl, -⟩ := List.append_eq_nil_iff.mp hrest
    exact ⟨whole, .eof, List.prefix_rfl, List.prefix_append _ _, .inl rfl,
      readsAs_encodeAll hwhole referenceCall_nil,
      fun complete hcomplete _ => by simpa using hcomplete⟩
  · rw [encodeAll_singleton] at hrest
    have hframe := hframes frame (List.mem_append_right _ (List.mem_singleton_self frame))
    by_cases hall : rest = []
    · rw [hall, List.append_nil] at hrest
      have hreads := readsAs_encodeAll hframes referenceCall_nil
      rw [encodeAll_append, encodeAll_singleton, List.append_nil, ← hrest] at hreads
      exact ⟨whole ++ [frame], .eof, List.prefix_append _ _, List.prefix_rfl, .inl rfl, hreads,
        fun complete hcomplete _ => hcomplete⟩
    · have hcut : ¬ encode frame <+: front := by
        intro hprefix
        have hlength := congrArg List.length hrest
        have hle := hprefix.length_le
        have hpos := List.length_pos_of_ne_nil hall
        rw [List.length_append] at hlength
        omega
      have hlater : ∀ complete, complete <+: whole ++ [frame] →
          encodeAll complete <+: encodeAll whole ++ front → complete <+: whole :=
        fun complete hcomplete hsent => prefix_of_front hcomplete hcut hsent
      by_cases hnone : front = []
      · subst hnone
        exact ⟨whole, .eof, List.prefix_rfl, List.prefix_append _ _, .inl rfl,
          readsAs_encodeAll hwhole referenceCall_nil, hlater⟩
      · exact ⟨whole, .error incompleteEofError, List.prefix_rfl, List.prefix_append _ _, .inr rfl,
          readsAs_encodeAll hwhole (hframe.referenceCall_cut hrest hnone hall), hlater⟩
  · simp at hlast

/-- What is sent when at most the last call is not done. -/
theorem sent_of_ledger {s : FrameWriter} {ended : List (Frame × FrameWriteEnd)}
    {segments : List Bytes} {begun : Bytes} {whole last : List Frame}
    (h : CallWriter.Ledger writeData s ended segments begun)
    (hcut : OnlyLastCut s ended whole last) :
    ∃ front, s.writer.sent = encodeAll whole ++ front ∧ front <+: encodeAll last := by
  obtain ⟨⟨done, cut, rfl, hdone, rfl, rfl⟩, hlength⟩ := hcut
  have hadds := adds_of_covers h.covers
  have hprompt := h.prompt done cut rfl fun entry hentry => hdone entry (List.mem_of_getLast? hentry)
  have hdoneAdds := List.forall₂_take done.length hadds
  rw [List.take_left] at hdoneAdds
  rw [flatten_of_adds hdoneAdds hdone] at hprompt
  obtain ⟨front, hfront⟩ := hprompt
  refine ⟨front, hfront.symm, ?_⟩
  -- What is not of the whole frames is of the last one.
  have hlater : front ++ s.writer.pending = (segments.drop done.length).flatten ++ begun := by
    have htotal := h.total
    rw [BufWriter.total, ← hfront, ← flatten_of_adds hdoneAdds hdone, List.append_assoc,
      ← List.take_append_drop done.length segments, List.flatten_append, List.append_assoc] at htotal
    simpa using htotal
  refine (List.prefix_append front s.writer.pending).trans ?_
  rw [hlater]
  have hcutAdds := List.forall₂_drop done.length hadds
  rw [List.drop_left] at hcutAdds
  generalize segments.drop done.length = added at hcutAdds
  cases hcutAdds with
  | nil =>
    cases hcall : s.phase.call? with
    | none =>
      rw [h.idle hcall]
      exact List.nil_prefix
    | some frame =>
      refine ⟨s.phase.rest, ?_⟩
      have hsplit := h.split frame hcall
      rw [flatten_writeData] at hsplit
      simpa [encodeAll] using hsplit
  | @cons entry segment cut more hentry hmore =>
    have hcall : s.phase.call? = none := by
      cases hcall : s.phase.call? with
      | none => rfl
      | some frame => simp [hcall] at hlength
    have hnone : cut = [] := by
      refine List.eq_nil_of_length_eq_zero ?_
      simp only [List.map_cons, List.length_append, List.length_cons, List.length_map] at hlength
      omega
    subst hnone
    cases hmore
    rw [h.idle hcall, hcall]
    simpa [encodeAll] using hentry.1

/-- What the reader has got of the frames, and what it can get. -/
structure Transfers (capacity : ℕ) (c : Channel) (out : List ChannelEvent)
    (whole last : List Frame) : Prop where
  /-- The results are the frames in the order of the calls, each once; behind them there is
  only the end of the stream. -/
  results : ∃ got rest, whole <+: got ∧ got <+: whole ++ last ∧ rest.atEnd ∧
    reads out <+: got.map .frame ++ List.replicate (reads out).length rest
  /-- Before the writer is dropped, all results are frames. -/
  live : c.closed = false → reads out <+: (whole ++ last).map .frame
  /-- The frames whose calls are done are sent. -/
  sent : encodeAll whole <+: c.outbound.writer.sent
  /-- Every frame that is sent completely can be read, without waiting for anything more. -/
  reaches : ∀ complete, complete <+: whole ++ last →
    encodeAll complete <+: c.outbound.writer.sent →
    ∃ (more : List ReadAction) (c' : Channel) (later : List ChannelEvent),
      (channel capacity).run (more.map .read) c = some (c', later) ∧
        complete.map .frame <+: reads (out ++ later)

section transfers

variable {capacity : ℕ} {c c' : Channel} {out : List ChannelEvent}

/-- Before the writer is dropped, no call reaches the end of the stream. -/
theorem Channel.live_run {actions : List ChannelAction}
    (hrun : (channel capacity).run actions .new = some (c, out)) (hopen : c.closed = false) :
    ∀ result ∈ reads out, ¬ result.atEnd := by
  have hinv := (channel capacity).run_invariant
    (P := fun u past => u.closed = false → ∀ result ∈ reads past, ¬ result.atEnd) ?_
    (fun _ => by simp [reads] : Channel.new.closed = false → ∀ result ∈ reads [], ¬ result.atEnd)
    hrun
  · simpa using hinv hopen
  · intro u past action t now hpast hstep hlive
    rw [reads_append]
    cases step_cases hstep with
    | write write bytes hclosed =>
      rw [reads_wrote, List.append_nil]
      exact hpast hlive
    | read read hend hread =>
      rw [reads_got]
      intro result hmem hresult
      rcases List.mem_append.mp hmem with hmem | hmem
      · exact hpast hlive result hmem hresult
      · have hzero := (Reader.step_atEnd hread).mp ⟨result, hmem, hresult⟩
        have hclosed : u.closed = true := hend hzero
        rw [hclosed] at hlive
        cases hlive
    | close => cases hlive

/-- Reading on its own is a run of the channel. -/
theorem Channel.run_reads {more : List ReadAction} {t : Reader} {results : List ReadResult}
    (hrun : reader.run more c.inbound = some (t, results))
    (hlive : ∀ result ∈ results, ¬ result.atEnd) :
    (channel capacity).run (more.map .read) c =
      some ({ c with inbound := t }, results.map .got) := by
  induction more generalizing c results with
  | nil =>
    cases hrun
    rfl
  | cons read more ih =>
    obtain ⟨u, now, later, hread, hmore, rfl⟩ := reader.run_cons_eq_some.mp hrun
    have hzero : ¬ (read = .read 0 ∧ c.closed = false) := by
      rintro ⟨hread0, -⟩
      obtain ⟨result, hmem, hend⟩ := (Reader.step_atEnd hread).mpr hread0
      exact hlive result (List.mem_append_left _ hmem) hend
    have hstep : (channel capacity).step (.read read) c =
        some ({ c with inbound := u }, now.map .got) := by
      have hread' : Reader.step read c.inbound = some (u, now) := hread
      simp only [channel, step, if_neg hzero, hread']
    have hrest := ih (c := { c with inbound := u }) hmore fun result hmem =>
      hlive result (List.mem_append_right _ hmem)
    rw [List.map_append]
    exact (channel capacity).run_cons_eq_some.mpr ⟨_, _, _, hstep, hrest, rfl⟩

end transfers

/-- Results that are not those of the end are frames. -/
theorem prefix_of_not_mem {α : Type*} {results frames : List α} {rest : α} {n : ℕ}
    (h : results <+: frames ++ List.replicate n rest) (hnone : rest ∉ results) :
    results <+: frames := by
  rcases Nat.le_total results.length frames.length with hle | hle
  · exact List.prefix_of_prefix_length_le h (List.prefix_append _ _) hle
  · obtain ⟨tail, rfl⟩ := List.prefix_of_prefix_length_le (List.prefix_append _ _) h hle
    have htail := (List.prefix_append_right_inj _).mp h
    cases tail with
    | nil => simp
    | cons result tail =>
      have hmem := htail.subset List.mem_cons_self
      rw [List.eq_of_mem_replicate hmem] at hnone
      simp at hnone

/-- For every capacity of the write buffer and all schedules: as long as no call is made
after a write that is not done, the frames arrive whole, once and in the order of the
calls, under any chunking, and whatever calls of the reader are dropped. The reader can get
every frame that is sent completely, also when its call has not returned. -/
theorem channel_fifo (capacity : ℕ) (c : Channel) (actions : List ChannelAction)
    (out : List ChannelEvent) (whole last : List Frame)
    (hrun : (channel capacity).run actions .new = some (c, out))
    (hio : ∀ text, .read (.fail text) ∉ actions)
    (hcut : OnlyLastCut c.outbound (writes out) whole last)
    (hframes : ∀ frame ∈ whole ++ last, Deliverable frame) :
    Transfers capacity c out whole last := by
  obtain ⟨writeActions, hwriter⟩ := Channel.run_writer hrun
  obtain ⟨segments, begun, hledger⟩ := CallWriter.Ledger.new.run hwriter
  obtain ⟨front, hsent, hfront⟩ := sent_of_ledger hledger hcut
  obtain ⟨bytes, readActions, hbytes, hfail, hreader⟩ := Channel.run_reader hio hrun
  have hstream : (Channel.new.inbound).deliver bytes = ⟨c.outbound.writer.sent, [], none⟩ := by
    rw [hbytes]
    rfl
  rw [hstream] at hreader
  obtain ⟨got, rest, hwhole, hgot, hrest, hreads, hcompletes⟩ :=
    readsAs_front hframes hcut.length_le hfront
  rw [← hsent] at hreads hcompletes
  have hprefix := hreads.results_prefix readActions c.inbound (reads out) hfail hreader
  refine ⟨⟨got, rest, hwhole, hgot, hrest, hprefix⟩, ?_, hsent ▸ List.prefix_append _ _, ?_⟩
  · intro hopen
    have hlive := Channel.live_run hrun hopen
    exact (prefix_of_not_mem hprefix fun hmem => hlive rest hmem hrest).trans (hgot.map _)
  · intro complete hamong hcomplete
    have hfollows := (Follows.init c.outbound.writer.sent).run hfail hreader
    obtain ⟨more, t, later, hmoreFail, hmore, hlength⟩ :=
      hfollows.exists_results (complete.length - (reads out).length)
    have hboth := hreads.results_prefix (readActions ++ more) t (reads out ++ later)
      (fun text hmem => (List.mem_append.mp hmem).elim (hfail text) (hmoreFail text))
      (reader.run_append.mpr ⟨_, _, _, hreader, hmore, rfl⟩)
    have hgotten : complete.map ReadResult.frame <+:
        got.map .frame ++ List.replicate (reads out ++ later).length rest :=
      ((hcompletes complete hamong hcomplete).map _).trans (List.prefix_append _ _)
    have hreached : complete.map ReadResult.frame <+: reads out ++ later := by
      refine List.prefix_of_prefix_length_le hgotten hboth ?_
      rw [List.length_map, List.length_append]
      omega
    have hnotEnd : ∀ result ∈ later, ¬ result.atEnd := by
      intro result hmem
      -- When anything is read, the results are as many as the frames.
      have hpos := List.length_pos_of_mem hmem
      obtain ⟨tail, htail⟩ := hreached
      have hnil : tail = [] := by
        refine List.eq_nil_of_length_eq_zero ?_
        have hsame := congrArg List.length htail
        rw [List.length_append, List.length_append, List.length_map] at hsame
        omega
      rw [hnil, List.append_nil] at htail
      have hframe : result ∈ complete.map ReadResult.frame := by
        rw [htail]
        exact List.mem_append_right _ hmem
      obtain ⟨frame, -, rfl⟩ := List.mem_map.mp hframe
      exact not_atEnd_frame frame
    refine ⟨more, _, _, Channel.run_reads hmore hnotEnd, ?_⟩
    rw [reads_append, reads_got]
    exact hreached

/-- The second of two writes is dropped half sent, and then the connection. -/
theorem channel_fifo_cut :
    ∃ c actions out, (channel 4).run actions .new = some (c, out) ∧
      reads out = [.frame .null, .error incompleteEofError] ∧
      Transfers 4 c out [.null] [.simple "OK"] := by
  have hok : writeData (.simple "OK") = [[43], [79, 75], [13, 10]] := by
    rw [writeData]
    decide
  have hnull : writeData .null = [[36, 45, 49, 13, 10]] := by
    rw [writeData]
    decide
  have hwhole : frameDecoder [36, 45, 49, 13, 10] = .complete .null 5 := rfl
  have hcut : frameDecoder [43, 79] = .incomplete := rfl
  obtain ⟨c, out, hrun, hwrites, hphase, hreads⟩ : ∃ c out, (channel 4).run
      [.write (.begin .null), .write (.take 5), .write .proceed, .write .proceed, .write .proceed,
        .write (.begin (.simple "OK")), .read .call, .write .proceed, .write .proceed,
        .write (.take 2), .read (.read 5), .read .call, .close, .read (.read 2), .read (.read 0)]
      .new = some (c, out) ∧ writes out = [(.null, .done)] ∧
        c.outbound.phase.call? = some (.simple "OK") ∧
        reads out = [.frame .null, .error incompleteEofError] := by
    simp [channel, Channel.step, Machine.run, CallWriter.step, CallWriter.new, Channel.new,
      CallWriter.Fits, BufWriter.new, BufWriter.push, BufWriter.drain, BufWriter.pending,
      BufWriter.bypass, hok, hnull, Reader.step, Reader.settle, Reader.deliver, received,
      turn_of_incomplete frameDecoder_nil, turn_of_complete hwhole, turn_of_incomplete hcut,
      maxBufferedBytes, writes, reads, ChannelEvent.wrote?, WritePhase.call?]
    rfl
  refine ⟨c, _, out, hrun, hreads, channel_fifo 4 c _ out [.null] [.simple "OK"] hrun (by simp)
    ⟨⟨[(.null, .done)], [], by simpa using hwrites, by simp, rfl, by simp [hphase]⟩, by simp⟩ ?_⟩
  intro frame hmem
  rcases List.mem_cons.mp hmem with rfl | hmem
  · exact sendable_null.deliverable
  · rw [List.mem_singleton.mp hmem]
    exact sendable_ok.deliverable

end MiniRedis
