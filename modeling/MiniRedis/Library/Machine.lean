import Mathlib.Algebra.Ring.Nat
import Mathlib.Data.List.Basic
import Mathlib.Data.Prod.Lex
import Mathlib.Tactic.Common

/-!
# Step machines with observable output

An action resolves every nondeterministic choice of one step, so the step
itself is a partial function. A run is a list of actions; its output is the
concatenation of what its steps make visible. Invariants may speak about the
state and the whole output together.
-/
namespace Library

/-- `step a s = none` says that the action `a` is not enabled in the state `s`. -/
structure Machine (σ α ω : Type*) where
  step : α → σ → Option (σ × List ω)

namespace Machine

variable {σ τ α β ω : Type*} (M : Machine σ α ω)

/-- Perform the actions in order, collecting the output. -/
def run : List α → σ → Option (σ × List ω)
  | [], s => some (s, [])
  | a :: as, s =>
    match M.step a s with
    | none => none
    | some (t, now) =>
      match run as t with
      | none => none
      | some (u, later) => some (u, now ++ later)

@[simp] theorem run_nil (s : σ) : M.run [] s = some (s, []) := rfl

theorem run_cons_eq_some {a : α} {as : List α} {s u : σ} {out : List ω} :
    M.run (a :: as) s = some (u, out) ↔
      ∃ t now later, M.step a s = some (t, now) ∧ M.run as t = some (u, later) ∧
        out = now ++ later := by
  simp only [run]
  constructor
  · intro h
    split at h
    · cases h
    · split at h
      · cases h
      · cases h
        exact ⟨_, _, _, by assumption, by assumption, rfl⟩
  · rintro ⟨t, now, later, hs, hr, rfl⟩
    simp only [hs, hr]

theorem run_singleton {a : α} {s t : σ} {out : List ω} (h : M.step a s = some (t, out)) :
    M.run [a] s = some (t, out) :=
  M.run_cons_eq_some.mpr ⟨t, out, [], h, rfl, (List.append_nil out).symm⟩

theorem run_append {as bs : List α} {s u : σ} {out : List ω} :
    M.run (as ++ bs) s = some (u, out) ↔
      ∃ t now later, M.run as s = some (t, now) ∧ M.run bs t = some (u, later) ∧
        out = now ++ later := by
  induction as generalizing s out with
  | nil => simp
  | cons a as ih =>
    simp only [List.cons_append, run_cons_eq_some, ih]
    constructor
    · rintro ⟨t, now, _, hs, ⟨v, mid, later, hr, hb, rfl⟩, rfl⟩
      exact ⟨v, now ++ mid, later, ⟨t, now, mid, hs, hr, rfl⟩, hb, by simp⟩
    · rintro ⟨v, _, later, ⟨t, now, mid, hs, hr, rfl⟩, hb, rfl⟩
      exact ⟨t, now, mid ++ later, hs, ⟨v, mid, later, hr, hb, rfl⟩, by simp⟩

/-- Every step of the run is taken in a state that satisfies the condition. -/
def Meets (C : α → σ → Prop) : List α → σ → Prop
  | [], _ => True
  | a :: as, s => C a s ∧ ∀ t now, M.step a s = some (t, now) → Meets C as t

theorem meets_of_forall {C : α → σ → Prop} {as : List α} (h : ∀ a ∈ as, ∀ s, C a s) (s : σ) :
    M.Meets C as s := by
  induction as generalizing s with
  | nil => trivial
  | cons a as ih =>
    exact ⟨h a List.mem_cons_self s,
      fun t _ _ => ih (fun b hb => h b (List.mem_cons_of_mem a hb)) t⟩

/-- A condition on the actions alone holds of every action of the run. -/
theorem forall_mem_of_meets {P : α → Prop} {as : List α} {s t : σ} {out : List ω}
    (hC : M.Meets (fun a _ => P a) as s) (hrun : M.run as s = some (t, out)) : ∀ a ∈ as, P a := by
  induction as generalizing s out with
  | nil => simp
  | cons a as ih =>
    obtain ⟨u, now, later, ha, hr, -⟩ := M.run_cons_eq_some.mp hrun
    intro b hmem
    rcases List.mem_cons.mp hmem with rfl | hmem
    · exact hC.1
    · exact ih (hC.2 u now ha) hr b hmem

/-- The steps that a run takes, each with the states before and behind it. -/
def transitions : List α → σ → List (σ × α × σ)
  | [], _ => []
  | a :: as, s =>
    match M.step a s with
    | none => []
    | some (t, _) => (s, a, t) :: transitions as t

theorem transitions_cons {a : α} {as : List α} {s t : σ} {now : List ω}
    (h : M.step a s = some (t, now)) :
    M.transitions (a :: as) s = (s, a, t) :: M.transitions as t := by
  simp only [transitions, h]

/-- A run takes its actions one after the other. -/
theorem actions_transitions {as : List α} {s t : σ} {out : List ω}
    (h : M.run as s = some (t, out)) : (M.transitions as s).map (fun step => step.2.1) = as := by
  induction as generalizing s out with
  | nil => rfl
  | cons a as ih =>
    obtain ⟨u, now, later, ha, hr, -⟩ := M.run_cons_eq_some.mp h
    rw [M.transitions_cons ha, List.map_cons, ih hr]

/-- The run rule for invariants that speak about the output and the steps of the run,
under a condition on the steps taken. -/
theorem run_history_of_meets {C : α → σ → Prop} {P : σ → List ω → List (σ × α × σ) → Prop}
    (hstep : ∀ s out past a t now, P s out past → C a s → M.step a s = some (t, now) →
      P t (out ++ now) (past ++ [(s, a, t)]))
    {as : List α} {s t : σ} {before out : List ω} {past : List (σ × α × σ)}
    (hs : P s before past) (hC : M.Meets C as s) (hrun : M.run as s = some (t, out)) :
    P t (before ++ out) (past ++ M.transitions as s) := by
  induction as generalizing s before out past with
  | nil =>
    cases hrun
    simpa [transitions] using hs
  | cons a as ih =>
    obtain ⟨u, now, later, ha, hr, rfl⟩ := M.run_cons_eq_some.mp hrun
    have hu := hstep s before past a u now hs hC.1 ha
    have hlater := ih hu (hC.2 u now ha) hr
    rw [M.transitions_cons ha]
    simpa using hlater

/-- The run rule under a condition on the steps taken. -/
theorem run_invariant_of_meets {C : α → σ → Prop} {P : σ → List ω → Prop}
    (hstep : ∀ s out a t now, P s out → C a s → M.step a s = some (t, now) → P t (out ++ now))
    {as : List α} {s t : σ} {before out : List ω} (hs : P s before) (hC : M.Meets C as s)
    (hrun : M.run as s = some (t, out)) : P t (before ++ out) := by
  have hlift : ∀ s out (past : List (σ × α × σ)) a t now, P s out → C a s →
      M.step a s = some (t, now) → P t (out ++ now) := fun s out _ a t now => hstep s out a t now
  exact @run_history_of_meets _ _ _ M C (fun s out _ => P s out) hlift as s t before out [] hs hC hrun

/-- The same rule for invariants of the state alone. -/
theorem run_state_invariant_of_meets {C : α → σ → Prop} {P : σ → Prop}
    (hstep : ∀ s a t now, P s → C a s → M.step a s = some (t, now) → P t)
    {as : List α} {s t : σ} {out : List ω} (hs : P s) (hC : M.Meets C as s)
    (hrun : M.run as s = some (t, out)) : P t := by
  have hlift : ∀ s (before : List ω) a t now, P s → C a s → M.step a s = some (t, now) → P t :=
    fun s _ a t now => hstep s a t now
  exact @run_invariant_of_meets _ _ _ M C (fun s _ => P s) hlift as s t [] out hs hC hrun

/-- The run rule: what every step preserves, every run preserves. -/
theorem run_invariant {P : σ → List ω → Prop}
    (hstep : ∀ s out a t now, P s out → M.step a s = some (t, now) → P t (out ++ now))
    {as : List α} {s t : σ} {before out : List ω} (hs : P s before)
    (hrun : M.run as s = some (t, out)) : P t (before ++ out) :=
  M.run_invariant_of_meets (fun s out a t now hP (_ : True) => hstep s out a t now hP) hs
    (M.meets_of_forall (fun _ _ _ => trivial) s) hrun

/-- The run rule for invariants of the state alone. -/
theorem run_state_invariant {P : σ → Prop}
    (hstep : ∀ s a t now, P s → M.step a s = some (t, now) → P t)
    {as : List α} {s t : σ} {out : List ω} (hs : P s)
    (hrun : M.run as s = some (t, out)) : P t :=
  M.run_state_invariant_of_meets (fun s a t now hP (_ : True) => hstep s a t now hP) hs
    (M.meets_of_forall (fun _ _ _ => trivial) s) hrun

/-- The amortised bound: a rank pays for the counted actions and for what the run makes
visible, and may be filled up again by both. -/
theorem run_amortized (rank : σ → ℕ) (counted : α → Bool) (earned : α → ℕ)
    (paid gained : List ω → ℕ) {P : σ → Prop} (hpaid : ∀ l r, paid (l ++ r) = paid l + paid r)
    (hgained : ∀ l r, gained (l ++ r) = gained l + gained r)
    (hstep : ∀ s a t now, P s → M.step a s = some (t, now) →
      P t ∧ rank t + (if counted a then 1 else 0) + paid now ≤ rank s + earned a + gained now)
    {as : List α} {s t : σ} {out : List ω} (hs : P s) (hrun : M.run as s = some (t, out)) :
    rank t + as.countP counted + paid out ≤ rank s + (as.map earned).sum + gained out := by
  induction as generalizing s out with
  | nil =>
    cases hrun
    have hzero := hpaid [] []
    rw [List.append_nil] at hzero
    rw [List.countP_nil, List.map_nil, List.sum_nil]
    omega
  | cons a as ih =>
    obtain ⟨u, now, later, ha, hr, rfl⟩ := M.run_cons_eq_some.mp hrun
    obtain ⟨hu, hnow⟩ := hstep s a u now hs ha
    have hlater := ih hu hr
    rw [hpaid, hgained, List.countP_cons, List.map_cons, List.sum_cons]
    omega

/-- Where every allowed step lowers the rank, it bounds the length of a run. -/
theorem run_length_le (rank : σ → ℕ) {allowed : α → Prop} {P : σ → Prop}
    (hstep : ∀ s a t now, P s → allowed a → M.step a s = some (t, now) → P t ∧ rank t < rank s)
    {as : List α} {s t : σ} {out : List ω} (hs : P s) (has : ∀ a ∈ as, allowed a)
    (hrun : M.run as s = some (t, out)) : as.length ≤ rank s := by
  induction as generalizing s out with
  | nil => exact Nat.zero_le _
  | cons a as ih =>
    obtain ⟨u, now, later, ha, hr, rfl⟩ := M.run_cons_eq_some.mp hrun
    obtain ⟨hu, hlt⟩ := hstep s a u now hs (has a List.mem_cons_self) ha
    have hlength := ih hu (fun b hb => has b (List.mem_cons_of_mem a hb)) hr
    rw [List.length_cons]
    omega

/-- The progress rule: an invariant under which some step lowers the rank, wherever the
goal is not reached, leads to the goal. -/
theorem exists_run {ρ : Type*} [LT ρ] [WellFoundedLT ρ] (rank : σ → ρ) {allowed : α → Prop}
    {P : σ → List ω → Prop} {goal : σ → Prop}
    (hstep : ∀ s out, P s out → goal s ∨ ∃ a t now, allowed a ∧ M.step a s = some (t, now) ∧
      P t (out ++ now) ∧ rank t < rank s) {s : σ} {out : List ω} (hs : P s out) :
    ∃ as t later, (∀ a ∈ as, allowed a) ∧ M.run as s = some (t, later) ∧ P t (out ++ later) ∧
      goal t := by
  induction hrank : rank s using WellFoundedLT.induction generalizing s out with
  | ind r ih =>
    rcases hstep s out hs with hgoal | ⟨a, t, now, ha, hstep', ht, hlt⟩
    · exact ⟨[], s, [], by simp, rfl, by simpa using hs, hgoal⟩
    · obtain ⟨as, u, later, has, hrun, hu, hgoal⟩ := ih (rank t) (hrank ▸ hlt) ht rfl
      refine ⟨a :: as, u, now ++ later, ?_, ?_, by simpa using hu, hgoal⟩
      · intro b hb
        rcases List.mem_cons.mp hb with rfl | hb
        · exact ha
        · exact has b hb
      · exact M.run_cons_eq_some.mpr ⟨t, now, later, hstep', hrun, rfl⟩

/-- `N` can do, in any number of steps, whatever one step of `M` makes visible. -/
def Simulates (N : Machine τ β ω) (R : σ → τ → Prop) : Prop :=
  ∀ s t a s' now, R s t → M.step a s = some (s', now) →
    ∃ bs t', N.run bs t = some (t', now) ∧ R s' t'

/-- Runs of the concrete machine are runs of the abstract one with the same output. -/
theorem Simulates.run {M : Machine σ α ω} {N : Machine τ β ω} {R : σ → τ → Prop}
    (hsim : M.Simulates N R) {as : List α} {s s' : σ} {t : τ} {out : List ω} (hR : R s t)
    (hrun : M.run as s = some (s', out)) : ∃ bs t', N.run bs t = some (t', out) ∧ R s' t' := by
  induction as generalizing s t out with
  | nil =>
    cases hrun
    exact ⟨[], t, rfl, hR⟩
  | cons a as ih =>
    obtain ⟨u, now, later, ha, hr, rfl⟩ := M.run_cons_eq_some.mp hrun
    obtain ⟨bs, v, hb, hv⟩ := hsim s t a u now hR ha
    obtain ⟨cs, w, hc, hw⟩ := ih hv hr
    exact ⟨bs ++ cs, w, N.run_append.mpr ⟨v, now, later, hb, hc, rfl⟩, hw⟩

/-- Every step of `M` under its condition is one step of `N` under its condition. -/
def Lockstep (N : Machine τ β ω) (R : σ → τ → Prop) (C : α → σ → Prop) (D : β → τ → Prop) : Prop :=
  ∀ s t a s' now, R s t → C a s → M.step a s = some (s', now) →
    ∃ b t', D b t ∧ N.step b t = some (t', now) ∧ R s' t'

theorem Lockstep.run {M : Machine σ α ω} {N : Machine τ β ω} {R : σ → τ → Prop}
    {C : α → σ → Prop} {D : β → τ → Prop} (hsim : M.Lockstep N R C D) {as : List α} {s s' : σ}
    {t : τ} {out : List ω} (hR : R s t) (hC : M.Meets C as s)
    (hrun : M.run as s = some (s', out)) :
    ∃ bs t', N.Meets D bs t ∧ N.run bs t = some (t', out) ∧ R s' t' := by
  induction as generalizing s t out with
  | nil =>
    cases hrun
    exact ⟨[], t, trivial, rfl, hR⟩
  | cons a as ih =>
    obtain ⟨u, now, later, ha, hr, rfl⟩ := M.run_cons_eq_some.mp hrun
    obtain ⟨b, v, hD, hb, hv⟩ := hsim s t a u now hR hC.1 ha
    obtain ⟨bs, w, hmeets, hbs, hw⟩ := ih hv (hC.2 u now ha) hr
    refine ⟨b :: bs, w, ⟨hD, fun v' now' hb' => ?_⟩,
      N.run_cons_eq_some.mpr ⟨v, now, later, hb, hbs, rfl⟩, hw⟩
    cases hb.symm.trans hb'
    exact hmeets

end Machine
end Library
