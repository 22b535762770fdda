import Mathlib.Algebra.BigOperators.Group.Finset.Piecewise
import Mathlib.Algebra.Ring.Nat
import Mathlib.Data.List.Basic
import Mathlib.Tactic.Common

/-!
# Interleaved histories

A history interleaves the events of many sources, each tagged with its source.
What relates events of one source can be read off its projection, and the other
way round.
-/
namespace Library

variable {α : Type*}

/-- The events of one source, in order. -/
def project (i : ℕ) (history : List (ℕ × α)) : List α :=
  history.filterMap fun entry => if entry.1 = i then some entry.2 else none

@[simp] theorem project_nil (i : ℕ) : project i ([] : List (ℕ × α)) = [] := rfl

theorem project_cons (i j : ℕ) (event : α) (history : List (ℕ × α)) :
    project i ((j, event) :: history) =
      if j = i then event :: project i history else project i history := by
  by_cases h : j = i <;> simp [project, h]

@[simp] theorem project_append (i : ℕ) (l r : List (ℕ × α)) :
    project i (l ++ r) = project i l ++ project i r := by
  simp [project]

@[simp] theorem project_map_self (i : ℕ) (events : List α) :
    project i (events.map fun event => (i, event)) = events := by
  simp [project, List.filterMap_map]

theorem project_map_ne {i j : ℕ} (h : j ≠ i) (events : List α) :
    project i (events.map fun event => (j, event)) = [] := by
  simp [project, List.filterMap_map, h]

@[simp] theorem mem_project {i : ℕ} {history : List (ℕ × α)} {event : α} :
    event ∈ project i history ↔ (i, event) ∈ history := by
  simp only [project, List.mem_filterMap]
  constructor
  · rintro ⟨⟨j, e⟩, hmem, heq⟩
    split at heq
    · cases heq
      rename_i hj
      exact hj ▸ hmem
    · cases heq
  · intro hmem
    exact ⟨(i, event), hmem, by simp⟩

/-- When only one source has what is looked for, it is found in its events. -/
theorem findSome?_project {β : Type*} {f : α → Option β} {i : ℕ} {history : List (ℕ × α)}
    (h : ∀ j event, (j, event) ∈ history → j ≠ i → f event = none) :
    history.findSome? (fun entry => f entry.2) = (project i history).findSome? f := by
  induction history with
  | nil => rfl
  | cons entry history ih =>
    obtain ⟨j, event⟩ := entry
    have hrest := ih fun j' event' hmem => h j' event' (List.mem_cons_of_mem _ hmem)
    rw [project_cons, List.findSome?_cons, hrest]
    by_cases hji : j = i
    · rw [if_pos hji, List.findSome?_cons]
    · rw [if_neg hji, h j event List.mem_cons_self hji]

theorem project_reverse (i : ℕ) (history : List (ℕ × α)) :
    project i history.reverse = (project i history).reverse := by
  rw [project, List.filterMap_reverse, project]

/-- What the selected events say, still tagged with their source. -/
def select {β : Type*} (f : α → Option β) (history : List (ℕ × α)) : List (ℕ × β) :=
  history.filterMap fun entry => (f entry.2).map fun b => (entry.1, b)

section select

variable {β : Type*} {f : α → Option β}

@[simp] theorem select_nil : select f ([] : List (ℕ × α)) = [] := rfl

@[simp] theorem select_append (l r : List (ℕ × α)) :
    select f (l ++ r) = select f l ++ select f r := by
  simp [select]

theorem select_map (i : ℕ) (events : List α) :
    select f (events.map fun event => (i, event)) =
      (events.filterMap f).map fun b => (i, b) := by
  induction events with
  | nil => rfl
  | cons event events ih =>
    rw [select] at ih ⊢
    cases h : f event <;> simp [h, ih]

theorem mem_select {history : List (ℕ × α)} {i : ℕ} {b : β} :
    (i, b) ∈ select f history ↔ ∃ event, (i, event) ∈ history ∧ f event = some b := by
  simp only [select, List.mem_filterMap, Option.map_eq_some_iff, Prod.mk.injEq]
  constructor
  · rintro ⟨⟨j, event⟩, hmem, c, hc, rfl, rfl⟩
    exact ⟨event, hmem, hc⟩
  · rintro ⟨event, hmem, hb⟩
    exact ⟨(i, event), hmem, b, hb, rfl, rfl⟩

/-- Selecting and projecting commute. -/
theorem project_select (i : ℕ) (history : List (ℕ × α)) :
    project i (select f history) = (project i history).filterMap f := by
  induction history with
  | nil => rfl
  | cons entry history ih =>
    obtain ⟨j, event⟩ := entry
    rw [project, select] at ih
    cases h : f event with
    | none => by_cases hji : j = i <;> simp_all [project, select]
    | some b => by_cases hji : j = i <;> simp_all [project, select]

end select

/-- A relation between earlier and later events of the same source holds in a
history exactly when it holds in every projection. -/
theorem pairwise_iff_project {R : α → α → Prop} {history : List (ℕ × α)} :
    (history.Pairwise fun a b => a.1 = b.1 → R a.2 b.2) ↔
      ∀ i, (project i history).Pairwise R := by
  induction history with
  | nil => simp
  | cons entry history ih =>
    obtain ⟨j, event⟩ := entry
    rw [List.pairwise_cons, ih]
    constructor
    · rintro ⟨hhead, htail⟩ i
      rw [project_cons]
      split
      · rename_i hji
        subst hji
        refine List.pairwise_cons.mpr ⟨fun later hlater => ?_, htail j⟩
        exact hhead (j, later) (mem_project.mp hlater) rfl
      · exact htail i
    · intro h
      constructor
      · rintro ⟨i, later⟩ hmem hji
        simp only at hji
        subst hji
        have hj := h j
        rw [project_cons, if_pos rfl, List.pairwise_cons] at hj
        exact hj.1 later (mem_project.mpr hmem)
      · intro i
        have hi := h i
        rw [project_cons] at hi
        split at hi
        · exact (List.pairwise_cons.mp hi).2
        · exact hi

/-- Some occurrence of `a` comes before some occurrence of `b`. -/
def Before (history : List α) (a b : α) : Prop := ∃ l r, history = l ++ r ∧ a ∈ l ∧ b ∈ r

namespace Before

variable {history : List α} {a b : α}

theorem rel {R : α → α → Prop} (hpair : history.Pairwise R) (h : Before history a b) : R a b := by
  obtain ⟨l, r, rfl, ha, hb⟩ := h
  exact (List.pairwise_append.mp hpair).2.2 a ha b hb

theorem filterMap {β : Type*} {f : α → Option β} {c d : β} (h : Before history a b)
    (hc : f a = some c) (hd : f b = some d) : Before (history.filterMap f) c d := by
  obtain ⟨l, r, rfl, ha, hb⟩ := h
  exact ⟨l.filterMap f, r.filterMap f, List.filterMap_append,
    List.mem_filterMap.mpr ⟨a, ha, hc⟩, List.mem_filterMap.mpr ⟨b, hb, hd⟩⟩

/-- Two events of a history occur in one order or the other. -/
theorem total (ha : a ∈ history) (hb : b ∈ history) (hne : a ≠ b) :
    Before history a b ∨ Before history b a := by
  obtain ⟨l, r, rfl⟩ := List.append_of_mem ha
  rcases List.mem_append.mp hb with hl | hr
  · exact .inr ⟨l, a :: r, rfl, hl, List.mem_cons_self⟩
  · rcases List.mem_cons.mp hr with rfl | hr
    · exact absurd rfl hne
    · exact .inl ⟨l ++ [a], r, by simp, by simp, hr⟩

/-- What a source orders, the history orders. -/
theorem of_project {i : ℕ} {history : List (ℕ × α)} (h : Before (project i history) a b) :
    Before history (i, a) (i, b) := by
  obtain ⟨l, r, hsplit, ha, hb⟩ := h
  obtain ⟨l', r', rfl, rfl, rfl⟩ := List.filterMap_eq_append_iff.mp hsplit
  exact ⟨l', r', rfl, mem_project.mp ha, mem_project.mp hb⟩

/-- What the history orders at a source, the source orders. -/
theorem project {i : ℕ} {history : List (ℕ × α)} (h : Before history (i, a) (i, b)) :
    Before (project i history) a b :=
  h.filterMap (if_pos rfl) (if_pos rfl)

theorem append_right (h : Before history a b) (later : List α) : Before (history ++ later) a b := by
  obtain ⟨l, r, rfl, ha, hb⟩ := h
  exact ⟨l, r ++ later, List.append_assoc l r later, ha, List.mem_append_left _ hb⟩

theorem append_left (h : Before history a b) (earlier : List α) :
    Before (earlier ++ history) a b := by
  obtain ⟨l, r, rfl, ha, hb⟩ := h
  exact ⟨earlier ++ l, r, (List.append_assoc earlier l r).symm, List.mem_append_right _ ha, hb⟩

/-- When `a` never follows its return and `b` never precedes its call, they occur
in the order of that return and that call. -/
theorem of_return_call {ret call : α} (h : Before history ret call) (ha : a ∈ history)
    (hb : b ∈ history) (hret : ¬ Before history ret a) (hcall : ¬ Before history b call) :
    Before history a b := by
  obtain ⟨l, r, rfl, hl, hr⟩ := h
  refine ⟨l, r, rfl, ?_, ?_⟩
  · rcases List.mem_append.mp ha with ha | ha
    · exact ha
    · exact absurd ⟨l, r, rfl, hl, ha⟩ hret
  · rcases List.mem_append.mp hb with hb | hb
    · exact absurd ⟨l, r, rfl, hb, hr⟩ hcall
    · exact hb

/-- Two events come in this order only when the second one is new behind the first. -/
theorem of_append {later : List α} (h : Before (history ++ later) a b) :
    Before history a b ∨ b ∈ later ∧ a ∈ history ++ later := by
  obtain ⟨l, r, hsplit, ha, hb⟩ := h
  have hmem : a ∈ history ++ later := by
    rw [hsplit]
    exact List.mem_append_left r ha
  rcases List.append_eq_append_iff.mp hsplit with ⟨more, rfl, rfl⟩ | ⟨more, rfl, rfl⟩
  · exact .inr ⟨List.mem_append_right more hb, hmem⟩
  · rcases List.mem_append.mp hb with hb | hb
    · exact .inl ⟨l, more, rfl, ha, hb⟩
    · exact .inr ⟨hb, hmem⟩

end Before
end Library
