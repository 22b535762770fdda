import MiniRedis.Library.Fallible

/-!
# Audited programs

An audited program writes notes next to its state. `Audits` says that erasing the
notes gives a given program, and that from the states of an invariant every note
satisfies a predicate; it is closed under composition.
-/
namespace Library

/-- A program over `σ` with a log of notes. -/
abbrev Audited (σ ν ε α : Type) : Type := Fallible (σ × List ν) ε α

namespace Audited

variable {σ ν ε α γ : Type}

/-- A program that writes nothing. -/
def silent (p : Fallible σ ε α) : Audited σ ν ε α := fun s => ((p s.1).1, (p s.1).2, s.2)

/-- Write a note about the current state. -/
def note (f : σ → ν) : Audited σ ν ε Unit := fun s => (.ok (), s.1, s.2 ++ [f s.1])

/-- The notes of the run from a state. -/
def written (q : Audited σ ν ε α) (s : σ) : List ν := (q (s, [])).2.2

/-- Without its notes `q` is `p`; whatever is in the log before stays. -/
def Erases (q : Audited σ ν ε α) (p : Fallible σ ε α) : Prop :=
  ∀ s log, q (s, log) = ((p s).1, (p s).2, log ++ written q s)

theorem written_silent (p : Fallible σ ε α) (s : σ) : written (ν := ν) (silent p) s = [] := rfl

namespace Erases

variable {q : Audited σ ν ε α} {p : Fallible σ ε α} {f : α → Audited σ ν ε γ}
  {g : α → Fallible σ ε γ}

theorem pure (a : α) : Erases (Pure.pure a : Audited σ ν ε α) (Pure.pure a) := by
  intro s log
  show (Except.ok a, s, log) = (Except.ok a, s, log ++ [])
  rw [List.append_nil]

theorem err (e : ε) : Erases (Fallible.err e : Audited σ ν ε α) (Fallible.err e) := by
  intro s log
  show (Except.error e, s, log) = (Except.error e, s, log ++ [])
  rw [List.append_nil]

theorem silent (p : Fallible σ ε α) : Erases (ν := ν) (Audited.silent p) p := by
  intro s log
  rw [written_silent, List.append_nil]
  rfl

/-- A composition that goes on writes the notes of both parts. -/
theorem bind_run (hq : Erases q p) {s t : σ} {a : α} (hp : p s = (.ok a, t)) (log : List ν) :
    (q >>= f) (s, log) = f a (t, log ++ written q s) := by
  have hrun := hq s log
  rw [hp] at hrun
  exact Fallible.bind_ok hrun

theorem written_bind_error (hq : Erases q p) {s t : σ} {e : ε} (hp : p s = (.error e, t)) :
    written (q >>= f) s = written q s := by
  have hrun := hq s []
  rw [hp, List.nil_append] at hrun
  rw [written, Fallible.bind_apply, hrun]

theorem written_bind_ok (hq : Erases q p) {s t : σ} {a : α} (hp : p s = (.ok a, t))
    {r : Fallible σ ε γ} (hf : Erases (f a) r) :
    written (q >>= f) s = written q s ++ written (f a) t := by
  rw [written, hq.bind_run hp, hf t, List.nil_append]

/-- The continuations only need to agree on the results of the first part. -/
theorem bind (hq : Erases q p) (hf : ∀ a s t, p s = (.ok a, t) → Erases (f a) (g a)) :
    Erases (q >>= f) (p >>= g) := by
  intro s log
  rcases hp : p s with ⟨e | a, t⟩
  · have hrun := hq s log
    rw [hp] at hrun
    rw [hq.written_bind_error hp, Fallible.bind_apply, Fallible.bind_apply, hrun, hp]
  · have hcont := hf a s t hp
    rw [hq.written_bind_ok hp hcont, hq.bind_run hp, hcont t, Fallible.bind_ok hp,
      List.append_assoc]

theorem written_note_bind {r : σ → ν} {k : Audited σ ν ε α} (hk : Erases k p) (s : σ) :
    written (note r >>= fun _ => k) s = r s :: written k s := by
  show (k (s, [r s])).2.2 = _
  rw [hk s [r s]]
  rfl

/-- A note changes nothing that is kept. -/
theorem note_bind {r : σ → ν} {k : Audited σ ν ε α} (hk : Erases k p) :
    Erases (note r >>= fun _ => k) p := by
  intro s log
  rw [hk.written_note_bind]
  show k (s, log ++ [r s]) = _
  rw [hk s, List.append_assoc]
  rfl

end Erases

/-- `q` is `p` with notes; from a state of the invariant, every note is lawful. -/
structure Audits (I : σ → Prop) (P : ν → Prop) (q : Audited σ ν ε α) (p : Fallible σ ε α) :
    Prop where
  erases : Erases q p
  keeps : ∀ s, I s → I (p s).2
  lawful : ∀ s, I s → ∀ v ∈ written q s, P v

namespace Audits

variable {I : σ → Prop} {P : ν → Prop} {q : Audited σ ν ε α} {p : Fallible σ ε α}
  {f : α → Audited σ ν ε γ} {g : α → Fallible σ ε γ}

theorem pure (a : α) : Audits I P (Pure.pure a : Audited σ ν ε α) (Pure.pure a) where
  erases := .pure a
  keeps s hs := hs
  lawful s hs v hv := by cases hv

theorem err (e : ε) : Audits I P (Fallible.err e : Audited σ ν ε α) (Fallible.err e) where
  erases := .err e
  keeps s hs := hs
  lawful s hs v hv := by cases hv

theorem silent (hkeeps : ∀ s, I s → I (p s).2) : Audits I P (Audited.silent p) p where
  erases := .silent p
  keeps := hkeeps
  lawful s hs v hv := by cases hv

theorem bind (hq : Audits I P q p) (hf : ∀ a s t, p s = (.ok a, t) → Audits I P (f a) (g a)) :
    Audits I P (q >>= f) (p >>= g) where
  erases := hq.erases.bind fun a s t hp => (hf a s t hp).erases
  keeps s hs := by
    have hkeep := hq.keeps s hs
    rw [Fallible.bind_apply]
    rcases hp : p s with ⟨e | a, t⟩
    · rw [hp] at hkeep
      exact hkeep
    · rw [hp] at hkeep
      exact (hf a s t hp).keeps t hkeep
  lawful s hs v hv := by
    have hkeep := hq.keeps s hs
    rcases hp : p s with ⟨e | a, t⟩
    · rw [hq.erases.written_bind_error hp] at hv
      exact hq.lawful s hs v hv
    · rw [hp] at hkeep
      rw [hq.erases.written_bind_ok hp (hf a s t hp).erases] at hv
      rcases List.mem_append.mp hv with hhead | htail
      · exact hq.lawful s hs v hhead
      · exact (hf a s t hp).lawful t hkeep v htail

theorem note_bind {r : σ → ν} {k : Audited σ ν ε α} (hr : ∀ s, I s → P (r s))
    (hk : Audits I P k p) : Audits I P (note r >>= fun _ => k) p where
  erases := hk.erases.note_bind
  keeps := hk.keeps
  lawful s hs v hv := by
    rw [hk.erases.written_note_bind] at hv
    rcases List.mem_cons.mp hv with rfl | htail
    · exact hr s hs
    · exact hk.lawful s hs v htail

/-- A test that both programs make. -/
theorem ite {c : Prop} [Decidable c] {q' : Audited σ ν ε α} {p' : Fallible σ ε α}
    (h : c → Audits I P q p) (h' : ¬ c → Audits I P q' p') :
    Audits I P (if c then q else q') (if c then p else p') := by
  by_cases hc : c
  · rw [if_pos hc, if_pos hc]
    exact h hc
  · rw [if_neg hc, if_neg hc]
    exact h' hc

end Audits
end Audited
end Library
