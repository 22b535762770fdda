import Mathlib.Algebra.BigOperators.Group.List.Basic
import Mathlib.Algebra.Ring.Nat
import Mathlib.Tactic.Common

/-!
# Stable decoders

A decoder reads a value from the front of a list and says how many symbols it
used. It is stable when a verdict other than `incomplete` survives every
extension of the input, and when a complete value depends only on the symbols
it used. Stability is closed under the combinators below.
-/
namespace Library

universe u

/-- What a decoder knows after seeing a finite part of its input. -/
inductive Verdict (ε α : Type u) where
  | incomplete
  | invalid (e : ε)
  | complete (a : α) (used : ℕ)
  deriving Repr, DecidableEq

def Decoder (β ε α : Type u) : Type u := List β → Verdict ε α

namespace Decoder

variable {β ε α γ : Type u}

/-- The second decoder starts where the first one stopped. -/
def bind (d : Decoder β ε α) (f : α → Decoder β ε γ) : Decoder β ε γ := fun s =>
  match d s with
  | .incomplete => .incomplete
  | .invalid e => .invalid e
  | .complete a n =>
    match f a (s.drop n) with
    | .incomplete => .incomplete
    | .invalid e => .invalid e
    | .complete c m => .complete c (n + m)

instance : Monad (Decoder β ε) where
  pure a := fun _ => .complete a 0
  bind := bind

/-- Reject whatever comes. -/
def fail (e : ε) : Decoder β ε α := fun _ => .invalid e

/-- One symbol. -/
def item : Decoder β ε β
  | [] => .incomplete
  | b :: _ => .complete b 1

/-- A block of known length. -/
def block (n : ℕ) : Decoder β ε (List β) := fun s =>
  if n ≤ s.length then .complete (s.take n) n else .incomplete

/-- The same decoder a known number of times. -/
def sequence (d : Decoder β ε α) : ℕ → Decoder β ε (List α)
  | 0 => pure []
  | n + 1 => do
    let a ← d
    let as ← sequence d n
    pure (a :: as)

/-- Interpret a complete value; a failed interpretation is a rejection. -/
def interpret (d : Decoder β ε α) (g : α → Except ε γ) : Decoder β ε γ := fun s =>
  match d s with
  | .incomplete => .incomplete
  | .invalid e => .invalid e
  | .complete a n =>
    match g a with
    | .error e => .invalid e
    | .ok c => .complete c n

@[simp] theorem pure_apply (a : α) (s : List β) :
    (pure a : Decoder β ε α) s = .complete a 0 := rfl

@[simp] theorem fail_apply (e : ε) (s : List β) : (fail e : Decoder β ε α) s = .invalid e := rfl

theorem bind_apply (d : Decoder β ε α) (f : α → Decoder β ε γ) (s : List β) :
    (d >>= f) s =
      match d s with
      | .incomplete => .incomplete
      | .invalid e => .invalid e
      | .complete a n =>
        match f a (s.drop n) with
        | .incomplete => .incomplete
        | .invalid e => .invalid e
        | .complete c m => .complete c (n + m) := rfl

/-- A composition is complete exactly when both of its parts are. -/
theorem bind_eq_complete {d : Decoder β ε α} {f : α → Decoder β ε γ} {s : List β} {c : γ}
    {k : ℕ} :
    (d >>= f) s = .complete c k ↔
      ∃ a n m, d s = .complete a n ∧ f a (s.drop n) = .complete c m ∧ k = n + m := by
  rw [bind_apply]
  cases hd : d s with
  | incomplete => simp
  | invalid e => simp
  | complete a n =>
    cases hf : f a (s.drop n) with
    | incomplete => simp [hf]
    | invalid e => simp [hf]
    | complete c' m => simp [hf, eq_comm]

theorem bind_eq_invalid {d : Decoder β ε α} {f : α → Decoder β ε γ} {s : List β} {e : ε} :
    (d >>= f) s = .invalid e ↔
      d s = .invalid e ∨ ∃ a n, d s = .complete a n ∧ f a (s.drop n) = .invalid e := by
  rw [bind_apply]
  cases hd : d s with
  | incomplete => simp
  | invalid e' => simp
  | complete a n =>
    cases hf : f a (s.drop n) with
    | incomplete => simp [hf]
    | invalid e' => simp [hf]
    | complete c' m => simp [hf]

theorem interpret_eq_complete {d : Decoder β ε α} {g : α → Except ε γ} {s : List β} {c : γ}
    {n : ℕ} : d.interpret g s = .complete c n ↔ ∃ a, d s = .complete a n ∧ g a = .ok c := by
  unfold interpret
  cases hd : d s with
  | incomplete => simp
  | invalid e => simp
  | complete a m => cases hg : g a <;> simp [hg, and_comm]

theorem interpret_eq_invalid {d : Decoder β ε α} {g : α → Except ε γ} {s : List β} {e : ε} :
    d.interpret g s = .invalid e ↔
      d s = .invalid e ∨ ∃ a n, d s = .complete a n ∧ g a = .error e := by
  unfold interpret
  cases hd : d s with
  | incomplete => simp
  | invalid e' => simp
  | complete a m => cases hg : g a <;> simp [hg]

/-- Verdicts that extension cannot change. -/
structure Stable (d : Decoder β ε α) : Prop where
  used_le : ∀ {s a n}, d s = .complete a n → n ≤ s.length
  complete_take : ∀ {s a n}, d s = .complete a n → ∀ t, d (s.take n ++ t) = .complete a n
  invalid_append : ∀ {s e}, d s = .invalid e → ∀ t, d (s ++ t) = .invalid e

namespace Stable

variable {d : Decoder β ε α} {f : α → Decoder β ε γ}

theorem complete_append (hd : d.Stable) {s : List β} {a : α} {n : ℕ}
    (h : d s = .complete a n) (t : List β) : d (s ++ t) = .complete a n := by
  have hsplit : s ++ t = s.take n ++ (s.drop n ++ t) := by
    rw [← List.append_assoc, List.take_append_drop]
  rw [hsplit]
  exact hd.complete_take h _

/-- The used symbols alone are enough. -/
theorem complete_segment (hd : d.Stable) {s : List β} {a : α} {n : ℕ}
    (h : d s = .complete a n) : d (s.take n) = .complete a n := by
  simpa using hd.complete_take h []

/-- A code word that is used up entirely has only incomplete strict prefixes. -/
theorem strict_prefix (hd : d.Stable) {s : List β} {a : α} (h : d s = .complete a s.length)
    {p : List β} (hp : p <+: s) (hlt : p.length < s.length) : d p = .incomplete := by
  obtain ⟨t, rfl⟩ := hp
  cases hv : d p with
  | incomplete => rfl
  | invalid e =>
    rw [hd.invalid_append hv t] at h
    cases h
  | complete a' n =>
    have hle := hd.used_le hv
    rw [hd.complete_append hv t] at h
    injection h with _ hn
    omega

theorem pure (a : α) : (Pure.pure a : Decoder β ε α).Stable where
  used_le h := by
    cases h
    exact Nat.zero_le _
  complete_take h t := by
    cases h
    rfl
  invalid_append h := by cases h

theorem fail (e : ε) : (Decoder.fail e : Decoder β ε α).Stable where
  used_le h := by cases h
  complete_take h := by cases h
  invalid_append h t := h

theorem item : (Decoder.item : Decoder β ε β).Stable where
  used_le {s a n} h := by
    cases s with
    | nil => cases h
    | cons b s =>
      cases h
      simp
  complete_take {s a n} h t := by
    cases s with
    | nil => cases h
    | cons b s =>
      cases h
      rfl
  invalid_append {s e} h := by cases s <;> cases h

theorem block (n : ℕ) : (Decoder.block n : Decoder β ε (List β)).Stable where
  used_le {s a k} h := by
    unfold Decoder.block at h
    split at h
    · cases h
      assumption
    · cases h
  complete_take {s a k} h t := by
    unfold Decoder.block at h ⊢
    split at h
    · rename_i hle
      cases h
      have hlen : (s.take n).length = n := List.length_take_of_le hle
      rw [if_pos (by simp [hlen]), List.take_left' hlen]
    · cases h
  invalid_append {s e} h := by
    unfold Decoder.block at h
    split at h <;> cases h

theorem bind (hd : d.Stable) (hf : ∀ a, (f a).Stable) : (d >>= f).Stable where
  used_le h := by
    obtain ⟨a, n, m, hda, hfa, rfl⟩ := bind_eq_complete.mp h
    have hn := hd.used_le hda
    have hm := (hf a).used_le hfa
    rw [List.length_drop] at hm
    omega
  complete_take {s c k} h t := by
    obtain ⟨a, n, m, hda, hfa, rfl⟩ := bind_eq_complete.mp h
    have hn := hd.used_le hda
    have hlen : (s.take n).length = n := List.length_take_of_le hn
    rw [List.take_add, List.append_assoc]
    refine bind_eq_complete.mpr ⟨a, n, m, hd.complete_take hda _, ?_, rfl⟩
    rw [List.drop_left' hlen]
    exact (hf a).complete_take hfa t
  invalid_append {s e} h t := by
    rcases bind_eq_invalid.mp h with hda | ⟨a, n, hda, hfa⟩
    · exact bind_eq_invalid.mpr (.inl (hd.invalid_append hda t))
    · refine bind_eq_invalid.mpr (.inr ⟨a, n, hd.complete_append hda t, ?_⟩)
      rw [List.drop_append_of_le_length (hd.used_le hda)]
      exact (hf a).invalid_append hfa t

theorem sequence (hd : d.Stable) (n : ℕ) : (d.sequence n).Stable := by
  induction n with
  | zero => exact Stable.pure []
  | succ n ih => exact hd.bind fun a => ih.bind fun as => Stable.pure (a :: as)

theorem interpret (hd : d.Stable) (g : α → Except ε γ) : (d.interpret g).Stable where
  used_le h := by
    obtain ⟨a, hda, _⟩ := interpret_eq_complete.mp h
    exact hd.used_le hda
  complete_take h t := by
    obtain ⟨a, hda, hg⟩ := interpret_eq_complete.mp h
    exact interpret_eq_complete.mpr ⟨a, hd.complete_take hda t, hg⟩
  invalid_append h t := by
    rcases interpret_eq_invalid.mp h with hda | ⟨a, n, hda, hg⟩
    · exact interpret_eq_invalid.mpr (.inl (hd.invalid_append hda t))
    · exact interpret_eq_invalid.mpr (.inr ⟨a, n, hd.complete_append hda t, hg⟩)

end Stable

/-- Every rejection satisfies the predicate. -/
def Rejects (d : Decoder β ε α) (P : ε → Prop) : Prop := ∀ s e, d s = .invalid e → P e

namespace Rejects

variable {d : Decoder β ε α} {f : α → Decoder β ε γ} {P : ε → Prop}

theorem pure (a : α) : (Pure.pure a : Decoder β ε α).Rejects P := by
  intro s e h
  cases h

theorem fail {e : ε} (he : P e) : (Decoder.fail e : Decoder β ε α).Rejects P := by
  intro s e' h
  cases h
  exact he

theorem item : (Decoder.item : Decoder β ε β).Rejects P := by
  intro s e h
  cases s <;> cases h

theorem block (n : ℕ) : (Decoder.block n : Decoder β ε (List β)).Rejects P := by
  intro s e h
  unfold Decoder.block at h
  split at h <;> cases h

theorem bind (hd : d.Rejects P) (hf : ∀ a, (f a).Rejects P) : (d >>= f).Rejects P := by
  intro s e h
  rcases bind_eq_invalid.mp h with hda | ⟨a, n, _, hfa⟩
  · exact hd s e hda
  · exact hf a _ e hfa

theorem sequence (hd : d.Rejects P) (n : ℕ) : (d.sequence n).Rejects P := by
  induction n with
  | zero => exact Rejects.pure []
  | succ n ih => exact hd.bind fun a => ih.bind fun as => Rejects.pure (a :: as)

theorem interpret (hd : d.Rejects P) {g : α → Except ε γ} (hg : ∀ a e, g a = .error e → P e) :
    (d.interpret g).Rejects P := by
  intro s e h
  rcases interpret_eq_invalid.mp h with hda | ⟨a, n, _, hga⟩
  · exact hd s e hda
  · exact hg a e hga

end Rejects

end Decoder
end Library
