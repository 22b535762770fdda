import Mathlib.Data.List.Forall2
import MiniRedis.Library.Machine

/-!
# Buffered writers

A writer collects pieces in a buffer of fixed capacity, in front of a sink that
takes any nonempty part of what it is offered. A call writes its pieces one after
the other and then flushes. It may fail or be dropped wherever it awaits the sink;
what it has left in the buffer stays there, in front of the next call.
-/
namespace Library

variable {β κ ε : Type*}

/-- A buffer in front of a sink. -/
structure BufWriter (β : Type*) where
  /-- What the sink has taken. -/
  sent : List β
  buffer : List β
  /-- How much of the buffer the sink has taken. -/
  written : ℕ
  /-- The buffer is cleared when the sink has taken all of it. -/
  written_lt : written = 0 ∨ written < buffer.length

namespace BufWriter

def new : BufWriter β := ⟨[], [], 0, .inl rfl⟩

/-- What the sink has not taken of the buffer. -/
def pending (w : BufWriter β) : List β := w.buffer.drop w.written

/-- Everything that has been written so far. -/
def total (w : BufWriter β) : List β := w.sent ++ w.pending

/-- The piece goes to the buffer. -/
def push (w : BufWriter β) (piece : List β) : BufWriter β :=
  ⟨w.sent, w.buffer ++ piece, w.written, by
    have hlt := w.written_lt
    rw [List.length_append]
    omega⟩

/-- The sink takes `n` of the buffer. -/
def drain (w : BufWriter β) (n : ℕ) : BufWriter β :=
  if h : w.written + n < w.buffer.length then
    ⟨w.sent ++ w.pending.take n, w.buffer, w.written + n, .inr h⟩
  else ⟨w.sent ++ w.pending, [], 0, .inl rfl⟩

/-- The sink takes the front of a piece past the empty buffer. -/
def bypass (w : BufWriter β) (front : List β) : BufWriter β :=
  { w with sent := w.sent ++ front }

/-- After an error of the sink, what it has taken is cut from the buffer. -/
def cut (w : BufWriter β) : BufWriter β := ⟨w.sent, w.pending, 0, .inl rfl⟩

variable (w : BufWriter β) (n : ℕ) (piece : List β)

theorem written_le : w.written ≤ w.buffer.length := by
  have hlt := w.written_lt
  omega

@[simp] theorem pending_new : (new : BufWriter β).pending = [] := rfl

@[simp] theorem sent_push : (w.push piece).sent = w.sent := rfl

@[simp] theorem pending_push : (w.push piece).pending = w.pending ++ piece :=
  List.drop_append_of_le_length w.written_le

@[simp] theorem total_push : (w.push piece).total = w.total ++ piece := by
  simp [total]

theorem sent_drain : (w.drain n).sent = w.sent ++ w.pending.take n := by
  unfold drain
  split
  · rfl
  · rw [List.take_of_length_le]
    rw [pending, List.length_drop]
    omega

theorem pending_drain : (w.drain n).pending = w.pending.drop n := by
  unfold drain
  split
  · exact List.drop_drop.symm
  · rw [List.drop_eq_nil_of_le]
    · rfl
    · rw [pending, List.length_drop]
      omega

@[simp] theorem total_drain : (w.drain n).total = w.total := by
  rw [total, sent_drain, pending_drain, List.append_assoc, List.take_append_drop, total]

@[simp] theorem sent_bypass : (w.bypass piece).sent = w.sent ++ piece := rfl

@[simp] theorem pending_bypass : (w.bypass piece).pending = w.pending := rfl

theorem total_bypass (h : w.pending = []) : (w.bypass piece).total = w.total ++ piece := by
  simp [total, h]

@[simp] theorem sent_cut : w.cut.sent = w.sent := rfl

@[simp] theorem pending_cut : w.cut.pending = w.pending := rfl

@[simp] theorem total_cut : w.cut.total = w.total := rfl

theorem pending_eq_nil_iff : w.pending = [] ↔ w.buffer = [] := by
  rw [pending, List.drop_eq_nil_iff]
  have hlt := w.written_lt
  constructor
  · intro hle
    exact List.eq_nil_of_length_eq_zero (by omega)
  · rintro hnil
    rw [hnil]
    exact Nat.zero_le _

end BufWriter

/-! ### Calls that write -/

/-- Where the current call stands. -/
inductive WritePhase (β κ : Type*) where
  | idle
  /-- These pieces are not written yet; the first may be cut. -/
  | writing (call : κ) (pieces : List (List β))
  | flushing (call : κ)

/-- How a call ends. -/
inductive WriteEnd (ε : Type*) where
  | done
  | failed (error : ε)
  | cancelled

inductive WriteAction (κ ε : Type*) where
  | begin (call : κ)
  /-- What happens without the sink. -/
  | proceed
  /-- The sink takes `n` of what it is offered. -/
  | take (n : ℕ)
  | fail (error : ε)
  | cancel

/-- The writer with its current call. -/
structure CallWriter (β κ : Type*) where
  writer : BufWriter β
  phase : WritePhase β κ

namespace CallWriter

def new : CallWriter β κ := ⟨.new, .idle⟩

/-- A piece that fits goes to the buffer; a piece as large as the buffer never does. -/
def Fits (capacity : ℕ) (buffer piece : List β) : Prop :=
  buffer.length + piece.length ≤ capacity ∧ piece.length < capacity

instance (capacity : ℕ) (buffer piece : List β) : Decidable (Fits capacity buffer piece) :=
  inferInstanceAs (Decidable (_ ∧ _))

variable (capacity : ℕ) (payload : κ → List (List β))

def step (action : WriteAction κ ε) (s : CallWriter β κ) :
    Option (CallWriter β κ × List (κ × WriteEnd ε)) :=
  match s.phase, action with
  | .idle, .begin call => some (⟨s.writer, .writing call (payload call)⟩, [])
  | .writing call [], .proceed => some (⟨s.writer, .flushing call⟩, [])
  | .writing call ([] :: pieces), .proceed => some (⟨s.writer, .writing call pieces⟩, [])
  | .writing call ((b :: piece) :: pieces), .proceed =>
    if Fits capacity s.writer.buffer (b :: piece) then
      some (⟨s.writer.push (b :: piece), .writing call pieces⟩, [])
    else none
  | .writing call ((b :: piece) :: pieces), .take n =>
    if Fits capacity s.writer.buffer (b :: piece) ∨ n = 0 then none
    else if s.writer.buffer = [] then
      if n ≤ (b :: piece).length then
        some (⟨s.writer.bypass ((b :: piece).take n),
          .writing call ((b :: piece).drop n :: pieces)⟩, [])
      else none
    else if n ≤ s.writer.pending.length then some (⟨s.writer.drain n, s.phase⟩, [])
    else none
  | .writing call ((b :: piece) :: _), .fail error =>
    if Fits capacity s.writer.buffer (b :: piece) then none
    else some (⟨s.writer.cut, .idle⟩, [(call, .failed error)])
  | .writing call ((b :: piece) :: _), .cancel =>
    if Fits capacity s.writer.buffer (b :: piece) then none
    else some (⟨s.writer, .idle⟩, [(call, .cancelled)])
  | .flushing call, .proceed =>
    if s.writer.buffer = [] then some (⟨s.writer, .idle⟩, [(call, .done)]) else none
  | .flushing _, .take n =>
    if 0 < n ∧ n ≤ s.writer.pending.length then some (⟨s.writer.drain n, s.phase⟩, []) else none
  | .flushing call, .fail error => some (⟨s.writer.cut, .idle⟩, [(call, .failed error)])
  | .flushing call, .cancel => some (⟨s.writer, .idle⟩, [(call, .cancelled)])
  | _, _ => none

end CallWriter

/-- All schedules of calls, of what the sink takes, of its errors and of dropped calls. -/
def callWriter (capacity : ℕ) (payload : κ → List (List β)) :
    Machine (CallWriter β κ) (WriteAction κ ε) (κ × WriteEnd ε) :=
  ⟨CallWriter.step capacity payload⟩

namespace WritePhase

def call? : WritePhase β κ → Option κ
  | .idle => none
  | .writing call _ => some call
  | .flushing call => some call

/-- What the current call has not written yet. -/
def rest : WritePhase β κ → List β
  | .writing _ pieces => pieces.flatten
  | _ => []

theorem rest_of_idle {phase : WritePhase β κ} (h : phase.call? = none) : phase.rest = [] := by
  cases phase <;> first | rfl | cases h

/-- What the current call still has to do. -/
def rank : WritePhase β κ → ℕ
  | .idle => 0
  | .writing _ pieces => 2 * pieces.flatten.length + pieces.length + 2
  | .flushing _ => 1

end WritePhase

namespace CallWriter

/-- What the sink still has to take before the current call can end. -/
def unsent (s : CallWriter β κ) : List β := s.writer.pending ++ s.phase.rest

theorem total_append_rest (s : CallWriter β κ) :
    s.writer.total ++ s.phase.rest = s.writer.sent ++ s.unsent := by
  rw [BufWriter.total, unsent, List.append_assoc]

/-- Everything a step can do: what is moved from the call to the buffer and from the
buffer to the sink keeps its place. -/
inductive Step (payload : κ → List (List β)) (s : CallWriter β κ) :
    WriteAction κ ε → CallWriter β κ → List (κ × WriteEnd ε) → Prop
  | begin (call : κ) (hphase : s.phase = .idle) :
    Step payload s (.begin call) ⟨s.writer, .writing call (payload call)⟩ []
  | advance (action : WriteAction κ ε) (n : ℕ) (moved : List β) {t : CallWriter β κ}
    (haction : action = .proceed ∧ n = 0 ∨ action = .take n ∧ 0 < n)
    (hcall : s.phase.call? ≠ none ∧ t.phase.call? = s.phase.call?)
    (hrest : s.phase.rest = moved ++ t.phase.rest)
    (htotal : t.writer.total = s.writer.total ++ moved)
    (hn : n ≤ s.unsent.length) (hsent : t.writer.sent = s.writer.sent ++ s.unsent.take n) :
    Step payload s action t []
  | done (call : κ) (hphase : s.phase = .flushing call) (hpending : s.writer.pending = []) :
    Step payload s .proceed ⟨s.writer, .idle⟩ [(call, .done)]
  | stop (action : WriteAction κ ε) (call : κ) (ending : WriteEnd ε) {writer : BufWriter β}
    (haction : (∃ error, action = .fail error ∧ ending = .failed error) ∨
      action = .cancel ∧ ending = .cancelled)
    (hcall : s.phase.call? = some call) (hsent : writer.sent = s.writer.sent)
    (htotal : writer.total = s.writer.total) :
    Step payload s action ⟨writer, .idle⟩ [(call, ending)]

variable {capacity : ℕ} {payload : κ → List (List β)} {s t : CallWriter β κ}
  {action : WriteAction κ ε} {out : List (κ × WriteEnd ε)}

/-- The sink takes a part of the buffer. -/
theorem step_drain {n : ℕ} (hcall : s.phase.call? ≠ none) (hpos : 0 < n)
    (hn : n ≤ s.writer.pending.length) :
    Step payload s (.take n : WriteAction κ ε) ⟨s.writer.drain n, s.phase⟩ [] := by
  refine .advance _ n [] (.inr ⟨rfl, hpos⟩) ⟨hcall, rfl⟩ rfl (by simp) ?_ ?_
  · rw [unsent, List.length_append]
    omega
  · rw [unsent, List.take_append_of_le_length hn]
    exact s.writer.sent_drain n

theorem step_cases (h : step capacity payload action s = some (t, out)) :
    Step payload s action t out := by
  obtain ⟨writer, phase⟩ := s
  unfold step at h
  split at h
  case h_1 call hphase =>
    cases h
    exact .begin call hphase
  case h_2 call hphase =>
    cases h
    obtain rfl : phase = .writing call [] := hphase
    exact .advance _ 0 [] (.inl ⟨rfl, rfl⟩) ⟨by simp [WritePhase.call?], rfl⟩ rfl (by simp)
      (Nat.zero_le _) (by simp)
  case h_3 call pieces hphase =>
    cases h
    obtain rfl : phase = .writing call ([] :: pieces) := hphase
    exact .advance _ 0 [] (.inl ⟨rfl, rfl⟩) ⟨by simp [WritePhase.call?], rfl⟩ rfl (by simp)
      (Nat.zero_le _) (by simp)
  case h_4 call b piece pieces hphase =>
    obtain rfl : phase = .writing call ((b :: piece) :: pieces) := hphase
    split at h
    · cases h
      exact .advance _ 0 (b :: piece) (.inl ⟨rfl, rfl⟩) ⟨by simp [WritePhase.call?], rfl⟩ rfl
        (BufWriter.total_push _ _) (Nat.zero_le _) (by simp)
    · cases h
  case h_5 call b piece pieces n hphase =>
    obtain rfl : phase = .writing call ((b :: piece) :: pieces) := hphase
    split at h
    · cases h
    · rename_i hawaits
      have hpos : 0 < n := by omega
      split at h
      · rename_i hbuffer
        have hpending := writer.pending_eq_nil_iff.mpr hbuffer
        split at h
        · rename_i hn
          cases h
          refine .advance _ n ((b :: piece).take n) (.inr ⟨rfl, hpos⟩)
            ⟨by simp [WritePhase.call?], rfl⟩ ?_ (writer.total_bypass _ hpending) ?_ ?_
          · simp [WritePhase.rest, ← List.append_assoc]
          · simp only [unsent, WritePhase.rest, hpending, List.nil_append, List.flatten_cons,
              List.length_append]
            omega
          · simp only [unsent, WritePhase.rest, hpending, List.nil_append, List.flatten_cons]
            rw [List.take_append_of_le_length hn]
            rfl
        · cases h
      · split at h
        · rename_i hn
          cases h
          exact step_drain (by simp [WritePhase.call?]) hpos hn
        · cases h
  case h_6 call b piece pieces error hphase =>
    obtain rfl : phase = .writing call ((b :: piece) :: pieces) := hphase
    split at h
    · cases h
    · cases h
      exact .stop _ call _ (.inl ⟨error, rfl, rfl⟩) rfl rfl rfl
  case h_7 call b piece pieces hphase =>
    obtain rfl : phase = .writing call ((b :: piece) :: pieces) := hphase
    split at h
    · cases h
    · cases h
      exact .stop _ call _ (.inr ⟨rfl, rfl⟩) rfl rfl rfl
  case h_8 call hphase =>
    obtain rfl : phase = .flushing call := hphase
    split at h
    · rename_i hbuffer
      cases h
      exact .done call rfl (writer.pending_eq_nil_iff.mpr hbuffer)
    · cases h
  case h_9 call n hphase =>
    obtain rfl : phase = .flushing call := hphase
    split at h
    · rename_i hn
      cases h
      exact step_drain (by simp [WritePhase.call?]) hn.1 hn.2
    · cases h
  case h_10 call error hphase =>
    obtain rfl : phase = .flushing call := hphase
    cases h
    exact .stop _ call _ (.inl ⟨error, rfl, rfl⟩) rfl rfl rfl
  case h_11 call hphase =>
    obtain rfl : phase = .flushing call := hphase
    cases h
    exact .stop _ call _ (.inr ⟨rfl, rfl⟩) rfl rfl rfl
  case h_12 => cases h

/-- What is not sent changes like the front of a queue. -/
theorem Step.unsent_eq {n : ℕ} {moved : List β} (hrest : s.phase.rest = moved ++ t.phase.rest)
    (htotal : t.writer.total = s.writer.total ++ moved)
    (hsent : t.writer.sent = s.writer.sent ++ s.unsent.take n) :
    t.unsent = s.unsent.drop n := by
  have hflow : t.writer.sent ++ t.unsent = s.writer.sent ++ s.unsent := by
    rw [← total_append_rest, ← total_append_rest, htotal, hrest, List.append_assoc]
  rw [hsent, List.append_assoc, List.append_cancel_left_eq] at hflow
  refine (List.append_right_inj (s.unsent.take n)).mp ?_
  rw [List.take_append_drop, hflow]

/-! ### What the calls have written -/

/-- What a call has written: a front of its payload, and all of it when the call is done. -/
def Covers (payload : κ → List (List β)) (entry : κ × WriteEnd ε) (segment : List β) : Prop :=
  segment <+: (payload entry.1).flatten ∧
    (entry.2 = .done → segment = (payload entry.1).flatten)

/-- What each call has written, and the current one so far. -/
structure Ledger (payload : κ → List (List β)) (s : CallWriter β κ) (out : List (κ × WriteEnd ε))
    (segments : List (List β)) (begun : List β) : Prop where
  covers : List.Forall₂ (Covers payload) out segments
  total : s.writer.total = segments.flatten ++ begun
  idle : s.phase.call? = none → begun = []
  split : ∀ call, s.phase.call? = some call → begun ++ s.phase.rest = (payload call).flatten
  /-- A call that is done leaves nothing in the buffer, also of the calls before it. -/
  prompt : ∀ pre post, out = pre ++ post → (∀ entry ∈ pre.getLast?, entry.2 = .done) →
    (segments.take pre.length).flatten <+: s.writer.sent

theorem Ledger.new :
    Ledger payload (.new : CallWriter β κ) ([] : List (κ × WriteEnd ε)) [] [] where
  covers := .nil
  total := rfl
  idle _ := rfl
  split call hcall := by cases hcall
  prompt pre post _ _ := by simp

/-- What is flushed stays with the sink. -/
theorem Ledger.prompt_mono {past : List (κ × WriteEnd ε)} {segments : List (List β)}
    {begun sent : List β} (h : Ledger payload s past segments begun)
    (hsent : s.writer.sent <+: sent) (pre post : List (κ × WriteEnd ε)) (hsplit : past = pre ++ post)
    (hlast : ∀ entry ∈ pre.getLast?, entry.2 = .done) :
    (segments.take pre.length).flatten <+: sent :=
  (h.prompt pre post hsplit hlast).trans hsent

/-- The current call ends with what it has written. -/
theorem Ledger.close {past : List (κ × WriteEnd ε)} {call : κ} {ending : WriteEnd ε}
    {writer : BufWriter β} {segments : List (List β)} {begun : List β}
    (h : Ledger payload s past segments begun) (hcall : s.phase.call? = some call)
    (hsent : writer.sent = s.writer.sent) (htotal : writer.total = s.writer.total)
    (hdone : ending = .done → s.phase.rest = [] ∧ s.writer.pending = []) :
    Ledger payload ⟨writer, .idle⟩ (past ++ [(call, ending)]) (segments ++ [begun]) [] where
  covers := by
    have hpayload := h.split call hcall
    refine List.rel_append h.covers (.cons ⟨⟨_, hpayload⟩, fun hend => ?_⟩ .nil)
    rw [(hdone hend).1, List.append_nil] at hpayload
    exact hpayload
  total := by
    rw [htotal, h.total]
    simp
  idle _ := rfl
  split other hother := by cases hother
  prompt pre post hsplit hlast := by
    have hlength := h.covers.length_eq
    rcases List.eq_nil_or_concat post with rfl | ⟨post, entry, rfl⟩
    · -- The call that has just ended is done, and the buffer is empty.
      rw [List.append_nil] at hsplit
      subst hsplit
      have hpending := (hdone (hlast (call, ending) (by simp))).2
      have hall := h.total
      rw [BufWriter.total, hpending, List.append_nil] at hall
      rw [List.take_of_length_le (by simp [hlength]), hsent, hall]
      simp
    · rw [List.concat_eq_append, ← List.append_assoc] at hsplit
      have hpast := List.append_inj_left' hsplit rfl
      have hle := congrArg List.length hpast
      rw [List.length_append] at hle
      rw [List.take_append_of_le_length (by omega), hsent]
      exact h.prompt pre post hpast hlast

theorem Ledger.step {past now : List (κ × WriteEnd ε)} {segments : List (List β)}
    {begun : List β} (h : Ledger payload s past segments begun)
    (hstep : step capacity payload action s = some (t, now)) :
    ∃ segments begun, Ledger payload t (past ++ now) segments begun := by
  cases step_cases hstep with
  | begin call hphase =>
    have hbegun := h.idle (by rw [hphase]; rfl)
    rw [List.append_nil]
    refine ⟨segments, [], h.covers, ?_, fun _ => rfl, ?_, h.prompt⟩
    · rw [← hbegun]
      exact h.total
    · rintro other hother
      cases hother
      rfl
  | advance _ n moved haction hcall hrest htotal hn hsent =>
    rw [List.append_nil]
    refine ⟨segments, begun ++ moved, h.covers, ?_, ?_, ?_, ?_⟩
    · rw [htotal, h.total, List.append_assoc]
    · intro hidle
      rw [hcall.2] at hidle
      exact absurd hidle hcall.1
    · intro call htcall
      rw [hcall.2] at htcall
      rw [List.append_assoc, ← hrest]
      exact h.split call htcall
    · exact h.prompt_mono (by rw [hsent]; exact List.prefix_append _ _)
  | done call hphase hpending =>
    have hcall : s.phase.call? = some call := by rw [hphase]; rfl
    exact ⟨_, _, h.close hcall rfl rfl fun _ => ⟨by rw [hphase]; rfl, hpending⟩⟩
  | stop _ call ending haction hcall hsent htotal =>
    refine ⟨_, _, h.close hcall hsent htotal ?_⟩
    rintro rfl
    simp at haction

/-- The ledger is right in every run. -/
theorem Ledger.run {actions : List (WriteAction κ ε)} {past later : List (κ × WriteEnd ε)}
    {segments : List (List β)} {begun : List β} (h : Ledger payload s past segments begun)
    (hrun : (callWriter capacity payload).run actions s = some (t, later)) :
    ∃ segments begun, Ledger payload t (past ++ later) segments begun := by
  have hstep : ∀ (s : CallWriter β κ) (out : List (κ × WriteEnd ε)) action t now,
      (∃ segments begun, Ledger payload s out segments begun) →
      (callWriter capacity payload).step action s = some (t, now) →
      ∃ segments begun, Ledger payload t (out ++ now) segments begun := by
    rintro s out action t now ⟨segments, begun, hs⟩ hstep
    exact hs.step hstep
  exact (callWriter capacity payload).run_invariant hstep ⟨segments, begun, h⟩ hrun

/-! ### A call can be completed -/

def rank (s : CallWriter β κ) : ℕ := s.writer.pending.length + s.phase.rank

/-- Wherever a call stands, the writer can go on with it, without an error. -/
theorem exists_step {call : κ} (hcall : s.phase.call? = some call) :
    ∃ (action : WriteAction κ ε) (t : CallWriter β κ) (out : List (κ × WriteEnd ε)),
      (action = .proceed ∨ action = .take 1) ∧ step capacity payload action s = some (t, out) ∧
        t.rank < s.rank ∧ (out = [] ∧ t.phase.call? = some call ∨
          out = [(call, .done)] ∧ t.phase = .idle ∧ t.writer.pending = []) := by
  obtain ⟨writer, phase⟩ := s
  have hdrain : writer.buffer ≠ [] → 1 ≤ writer.pending.length := by
    intro hbuffer
    exact List.length_pos_of_ne_nil (mt writer.pending_eq_nil_iff.mp hbuffer)
  have hdrained : (writer.drain 1).pending.length = writer.pending.length - 1 := by
    rw [writer.pending_drain, List.length_drop]
  cases phase with
  | idle => cases hcall
  | writing call' pieces =>
    cases hcall
    rcases pieces with _ | ⟨_ | ⟨b, piece⟩, pieces⟩
    · exact ⟨.proceed, _, _, .inl rfl, rfl, by simp [rank, WritePhase.rank], .inl ⟨rfl, rfl⟩⟩
    · exact ⟨.proceed, _, _, .inl rfl, rfl, by simp [rank, WritePhase.rank], .inl ⟨rfl, rfl⟩⟩
    · by_cases hfits : Fits capacity writer.buffer (b :: piece)
      · refine ⟨.proceed, ⟨writer.push (b :: piece), .writing call pieces⟩, [], .inl rfl, ?_, ?_,
          .inl ⟨rfl, rfl⟩⟩
        · simp only [step, if_pos hfits]
        · simp only [rank, WritePhase.rank, BufWriter.pending_push, List.length_append,
            List.flatten_cons, List.length_cons]
          omega
      · have hawaits : ¬ (Fits capacity writer.buffer (b :: piece) ∨ 1 = 0) := by
          simpa using hfits
        by_cases hbuffer : writer.buffer = []
        · refine ⟨.take 1, ⟨writer.bypass [b], .writing call (piece :: pieces)⟩, [], .inr rfl, ?_,
            ?_, .inl ⟨rfl, rfl⟩⟩
          · simp only [step, if_neg hawaits, if_pos hbuffer]
            rw [if_pos (by simp)]
            rfl
          · simp only [rank, WritePhase.rank, BufWriter.pending_bypass, List.flatten_cons,
              List.length_append, List.length_cons]
            omega
        · have hle := hdrain hbuffer
          refine ⟨.take 1, ⟨writer.drain 1, .writing call ((b :: piece) :: pieces)⟩, [], .inr rfl,
            ?_, ?_, .inl ⟨rfl, rfl⟩⟩
          · simp only [step, if_neg hawaits, if_neg hbuffer, if_pos hle]
          · simp only [rank, hdrained]
            omega
  | flushing call' =>
    cases hcall
    by_cases hbuffer : writer.buffer = []
    · refine ⟨.proceed, ⟨writer, .idle⟩, [(call, .done)], .inl rfl, ?_, ?_,
        .inr ⟨rfl, rfl, writer.pending_eq_nil_iff.mpr hbuffer⟩⟩
      · simp only [step, if_pos hbuffer]
      · simp [rank, WritePhase.rank]
    · have hle := hdrain hbuffer
      refine ⟨.take 1, ⟨writer.drain 1, .flushing call⟩, [], .inr rfl, ?_, ?_, .inl ⟨rfl, rfl⟩⟩
      · simp only [step]
        rw [if_pos ⟨Nat.one_pos, hle⟩]
      · simp only [rank, hdrained]
        omega

/-- Going on with a call loses nothing of what is written or still to be written. -/
theorem step_flow (hcall : s.phase.call? ≠ none) (hgo : action = .proceed ∨ action = .take 1)
    (hstep : step capacity payload action s = some (t, out)) :
    t.writer.sent ++ t.unsent = s.writer.sent ++ s.unsent := by
  rw [← total_append_rest, ← total_append_rest]
  cases step_cases hstep with
  | begin call hphase =>
    rw [hphase] at hcall
    exact absurd rfl hcall
  | advance _ n moved haction _ hrest htotal => rw [htotal, hrest, List.append_assoc]
  | done call hphase => rw [hphase]; rfl
  | stop _ call ending haction => rcases hgo with rfl | rfl <;> simp at haction

/-- The call goes on, or it is done, and the sink gets all of `bytes`. -/
def Completes (call : κ) (bytes : List β) (s : CallWriter β κ) (out : List (κ × WriteEnd ε)) :
    Prop :=
  s.writer.sent ++ s.unsent = bytes ∧
    (out = [] ∧ s.phase.call? = some call ∨
      out = [(call, .done)] ∧ s.phase = .idle ∧ s.writer.pending = [])

/-- Every call can be completed when the sink goes on taking. -/
theorem exists_done {call : κ} (hcall : s.phase.call? = some call) :
    ∃ (actions : List (WriteAction κ ε)) (t : CallWriter β κ),
      (∀ action ∈ actions, action = .proceed ∨ action = .take 1) ∧
        (callWriter capacity payload).run actions s = some (t, [(call, .done)]) ∧
        t.phase = .idle ∧ t.writer.pending = [] ∧ t.writer.sent = s.writer.sent ++ s.unsent := by
  have hbegun : Completes call (s.writer.sent ++ s.unsent) s ([] : List (κ × WriteEnd ε)) :=
    ⟨rfl, .inl ⟨rfl, hcall⟩⟩
  have hprogress : ∀ (u : CallWriter β κ) (out : List (κ × WriteEnd ε)),
      Completes call (s.writer.sent ++ s.unsent) u out → u.phase = .idle ∨
        ∃ (action : WriteAction κ ε) (v : CallWriter β κ) (now : List (κ × WriteEnd ε)),
          (action = .proceed ∨ action = .take 1) ∧
          (callWriter capacity payload).step action u = some (v, now) ∧
          Completes call (s.writer.sent ++ s.unsent) v (out ++ now) ∧ v.rank < u.rank := by
    rintro u out ⟨hflow, ⟨rfl, hu⟩ | ⟨-, hidle, -⟩⟩
    · obtain ⟨action, v, now, hallowed, hstep, hlt, hnext⟩ := exists_step hu
      have hkeeps := step_flow (by simp [hu]) hallowed hstep
      exact .inr ⟨action, v, now, hallowed, hstep, ⟨hkeeps.trans hflow, hnext⟩, hlt⟩
    · exact .inl hidle
  obtain ⟨actions, t, out, hactions, hrun, ⟨hflow, hcompletes⟩, hidle⟩ :=
    (callWriter capacity payload).exists_run rank hprogress hbegun
  rcases hcompletes with ⟨-, hcall'⟩ | ⟨hout, -, hpending⟩
  · rw [hidle] at hcall'
    cases hcall'
  · rw [List.nil_append] at hout
    refine ⟨actions, t, hactions, hout ▸ hrun, hidle, hpending, ?_⟩
    rw [← hflow, unsent, hidle, hpending]
    exact (List.append_nil _).symm

end CallWriter
end Library
