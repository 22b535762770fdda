import Mathlib.Algebra.BigOperators.Group.Finset.Basic
import Mathlib.Algebra.Ring.Nat
import Mathlib.Tactic.Common

/-!
# Shares of a list of parties

A total over a list, and how it moves when one party changes or joins.
-/
namespace Library

variable {α : Type*}

/-- The total of the shares. -/
def total (share : α → ℕ) (parties : List α) : ℕ := (parties.map share).sum

@[simp] theorem total_nil (share : α → ℕ) : total share [] = 0 := rfl

@[simp] theorem total_cons (share : α → ℕ) (a : α) (parties : List α) :
    total share (a :: parties) = share a + total share parties := by
  simp [total]

@[simp] theorem total_append (share : α → ℕ) (l r : List α) :
    total share (l ++ r) = total share l + total share r := by
  simp [total]

/-- When one party changes, the total changes by the difference of its shares. -/
theorem total_set (share : α → ℕ) {parties : List α} {i : ℕ} {a : α} (hi : parties[i]? = some a)
    (b : α) : total share (parties.set i b) + share a = total share parties + share b := by
  induction parties generalizing i with
  | nil => simp at hi
  | cons c parties ih =>
    cases i with
    | zero =>
      obtain rfl : c = a := by simpa using hi
      simp only [List.set_cons_zero, total_cons]
      omega
    | succ i =>
      have h := ih (by simpa using hi)
      simp only [List.set_cons_succ, total_cons]
      omega

/-- The same for the number of parties of a kind. -/
theorem countP_set (p : α → Bool) {parties : List α} {i : ℕ} {a : α} (hi : parties[i]? = some a)
    (b : α) : (parties.set i b).countP p + (p a).toNat = parties.countP p + (p b).toNat := by
  have hcount : ∀ l : List α, l.countP p = total (fun c => (p c).toNat) l := by
    intro l
    induction l with
    | nil => rfl
    | cons c l ih => cases hc : p c <;> simp [hc, ih, Nat.add_comm]
  rw [hcount, hcount]
  exact total_set (fun c => (p c).toNat) hi b

/-- Nobody's share exceeds the total. -/
theorem share_le_total (share : α → ℕ) {parties : List α} {a : α} (h : a ∈ parties) :
    share a ≤ total share parties := by
  induction parties with
  | nil => simp at h
  | cons c parties ih =>
    rcases List.mem_cons.mp h with rfl | h
    · simp
    · have hle := ih h
      simp only [total_cons]
      omega

theorem total_le_total {share share' : α → ℕ} {parties : List α}
    (h : ∀ a ∈ parties, share a ≤ share' a) : total share parties ≤ total share' parties := by
  induction parties with
  | nil => exact Nat.le_refl _
  | cons c parties ih =>
    have hc := h c List.mem_cons_self
    have hrest := ih fun a ha => h a (List.mem_cons_of_mem c ha)
    simp only [total_cons]
    omega

theorem total_eq_zero_iff {share : α → ℕ} {parties : List α} :
    total share parties = 0 ↔ ∀ a ∈ parties, share a = 0 := by
  induction parties with
  | nil => simp
  | cons c parties ih => simp [ih]

end Library
