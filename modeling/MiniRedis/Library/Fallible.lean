import Mathlib.Tactic.Common

/-!
# Fallible programs that keep their state

A program maps a state to a result and the state it leaves behind, which it
keeps on an error as well: a method `&mut self -> Result<_, _>`.
-/
namespace Library

def Fallible (σ ε α : Type) : Type := σ → Except ε α × σ

namespace Fallible

variable {σ ε α γ : Type}

def bind (p : Fallible σ ε α) (f : α → Fallible σ ε γ) : Fallible σ ε γ := fun s =>
  match p s with
  | (.error e, s) => (.error e, s)
  | (.ok a, s) => f a s

instance : Monad (Fallible σ ε) where
  pure a := fun s => (.ok a, s)
  bind := bind

/-- Stop with an error; the state stays. -/
def err (e : ε) : Fallible σ ε α := fun s => (.error e, s)

@[simp] theorem err_apply (e : ε) (s : σ) : (err e : Fallible σ ε α) s = (.error e, s) := rfl

theorem pure_apply (a : α) (s : σ) : (pure a : Fallible σ ε α) s = (.ok a, s) := rfl

theorem bind_apply (p : Fallible σ ε α) (f : α → Fallible σ ε γ) (s : σ) :
    (p >>= f) s =
      match p s with
      | (.error e, s) => (.error e, s)
      | (.ok a, s) => f a s := rfl

theorem bind_ok {p : Fallible σ ε α} {f : α → Fallible σ ε γ} {s t : σ} {a : α}
    (h : p s = (.ok a, t)) : (p >>= f) s = f a t := by
  rw [bind_apply, h]

theorem bind_error {p : Fallible σ ε α} {f : α → Fallible σ ε γ} {s : σ} {e : ε}
    (h : (p s).1 = .error e) : ((p >>= f) s).1 = .error e := by
  rw [bind_apply]
  rcases hp : p s with ⟨_ | _, t⟩
  · rw [hp] at h
    simpa using h
  · rw [hp] at h
    cases h

theorem pure_eq_ok {a b : α} {s t : σ} :
    (pure a : Fallible σ ε α) s = (.ok b, t) ↔ a = b ∧ s = t := by
  simp [pure_apply]

/-- A composition succeeds exactly when both of its parts do. -/
theorem bind_eq_ok {p : Fallible σ ε α} {f : α → Fallible σ ε γ} {s u : σ} {c : γ} :
    (p >>= f) s = (.ok c, u) ↔ ∃ a t, p s = (.ok a, t) ∧ f a t = (.ok c, u) := by
  rw [bind_apply]
  rcases hp : p s with ⟨_ | a, t⟩ <;> simp

/-- A composition fails exactly when its first part does, or its second part behind it. -/
theorem bind_fst_eq_error {p : Fallible σ ε α} {f : α → Fallible σ ε γ} {s : σ} {e : ε} :
    ((p >>= f) s).1 = .error e ↔
      (p s).1 = .error e ∨ ∃ a t, p s = (.ok a, t) ∧ (f a t).1 = .error e := by
  rw [bind_apply]
  rcases hp : p s with ⟨_ | a, t⟩ <;> simp

/-- From related states the results are equal and the states left behind are related. -/
def Respects (p : Fallible σ ε α) (R : σ → σ → Prop) : Prop :=
  ∀ s t, R s t → (p s).1 = (p t).1 ∧ R (p s).2 (p t).2

theorem respects_pure {R : σ → σ → Prop} (a : α) : (pure a : Fallible σ ε α).Respects R :=
  fun _ _ h => ⟨rfl, h⟩

theorem respects_err {R : σ → σ → Prop} (e : ε) : (err e : Fallible σ ε α).Respects R :=
  fun _ _ h => ⟨rfl, h⟩

theorem Respects.ite {p q : Fallible σ ε α} {R : σ → σ → Prop} {c : Prop} [Decidable c]
    (hp : p.Respects R) (hq : q.Respects R) : (if c then p else q).Respects R := by
  split
  · exact hp
  · exact hq

/-- The continuations may differ if they agree from related states. -/
theorem Respects.bind_related {p : Fallible σ ε α} {f g : α → Fallible σ ε γ} {R : σ → σ → Prop}
    (hp : p.Respects R) {s t : σ} (h : R s t)
    (hfg : ∀ a s t, R s t → (f a s).1 = (g a t).1 ∧ R (f a s).2 (g a t).2) :
    ((p >>= f) s).1 = ((p >>= g) t).1 ∧ R ((p >>= f) s).2 ((p >>= g) t).2 := by
  obtain ⟨hresult, hstates⟩ := hp s t h
  rw [bind_apply, bind_apply]
  rcases hs : p s with ⟨e | a, s'⟩
  · rcases ht : p t with ⟨e' | b, t'⟩
    · rw [hs, ht] at hresult hstates
      cases hresult
      exact ⟨rfl, hstates⟩
    · rw [hs, ht] at hresult
      cases hresult
  · rcases ht : p t with ⟨e' | b, t'⟩
    · rw [hs, ht] at hresult
      cases hresult
    · rw [hs, ht] at hresult hstates
      cases hresult
      exact hfg a s' t' hstates

theorem Respects.bind {p : Fallible σ ε α} {f : α → Fallible σ ε γ} {R : σ → σ → Prop}
    (hp : p.Respects R) (hf : ∀ a, (f a).Respects R) : (p >>= f).Respects R :=
  fun _ _ h => hp.bind_related h hf

/-- Every error satisfies the predicate. -/
def Raises (p : Fallible σ ε α) (P : ε → Prop) : Prop := ∀ s e t, p s = (.error e, t) → P e

theorem raises_pure {P : ε → Prop} (a : α) : (pure a : Fallible σ ε α).Raises P := by
  intro s e t h
  cases h

theorem raises_err {P : ε → Prop} {e : ε} (he : P e) : (err e : Fallible σ ε α).Raises P := by
  intro s e' t h
  cases h
  exact he

theorem Raises.bind {p : Fallible σ ε α} {f : α → Fallible σ ε γ} {P : ε → Prop}
    (hp : p.Raises P) (hf : ∀ a, (f a).Raises P) : (p >>= f).Raises P := by
  intro s e t h
  rw [bind_apply] at h
  rcases hrun : p s with ⟨e' | a, u⟩
  · rw [hrun] at h
    cases h
    exact hp s e t hrun
  · rw [hrun] at h
    exact hf a u e t h

end Fallible
end Library
