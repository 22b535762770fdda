import MiniRedis.Library.Interleaving

/-!
# Linearization at commit points

Many sources call operations of one object, numbered per source. Between its call
and its return an operation commits, which takes effect in one step, or is refused
and has no effect. When the marks of each source come in order and the commits
replay on the sequential object, the commits are a linearization of the history.
-/
namespace Library

variable {ω ρ σ : Type*}

/-- The sequential object: operations one after the other, with their results. -/
def replay (apply : ω → σ → ρ × σ) : σ → List ω → List ρ × σ
  | s, [] => ([], s)
  | s, o :: os => ((apply o s).1 :: (replay apply (apply o s).2 os).1,
      (replay apply (apply o s).2 os).2)

section replay

variable {apply : ω → σ → ρ × σ} {s : σ}

@[simp] theorem replay_nil : replay apply s [] = ([], s) := rfl

@[simp] theorem length_replay (os : List ω) : (replay apply s os).1.length = os.length := by
  induction os generalizing s with
  | nil => rfl
  | cons o os ih => simp only [replay, List.length_cons, ih]

theorem replay_append (os os' : List ω) :
    replay apply s (os ++ os') =
      ((replay apply s os).1 ++ (replay apply (replay apply s os).2 os').1,
        (replay apply (replay apply s os).2 os').2) := by
  induction os generalizing s with
  | nil => rfl
  | cons o os ih => simp only [List.cons_append, replay, ih]

theorem replay_concat (os : List ω) (o : ω) :
    replay apply s (os ++ [o]) =
      ((replay apply s os).1 ++ [(apply o (replay apply s os).2).1],
        (apply o (replay apply s os).2).2) :=
  replay_append os [o]

/-- The result at a position comes from the operations before it. -/
theorem getElem?_replay (os : List ω) (k : ℕ) :
    (replay apply s os).1[k]? = os[k]?.map fun o => (apply o (replay apply s (os.take k)).2).1 := by
  induction os generalizing s k with
  | nil => rfl
  | cons o os ih =>
    cases k with
    | zero => rfl
    | succ k =>
      simp only [replay, List.getElem?_cons_succ, List.take_succ_cons]
      exact ih k

end replay

/-- Where an operation of a source stands. -/
inductive Mark (ω ρ : Type*) where
  | call (number : ℕ)
  | commit (number : ℕ) (operation : ω) (result : ρ)
  | refuse (number : ℕ)
  | return (number : ℕ)

/-- An operation is called, then commits or is refused, and returns. -/
def Mark.clock : Mark ω ρ → ℕ
  | .call number => 3 * number
  | .commit number _ _ => 3 * number + 1
  | .refuse number => 3 * number + 1
  | .return number => 3 * number + 2

@[simp] theorem Mark.clock_call (number : ℕ) : (.call number : Mark ω ρ).clock = 3 * number := rfl

@[simp] theorem Mark.clock_return (number : ℕ) :
    (.return number : Mark ω ρ).clock = 3 * number + 2 := rfl

/-- A committed operation. -/
structure Commit (ω ρ : Type*) where
  number : ℕ
  operation : ω
  result : ρ

def Mark.commit? : Mark ω ρ → Option (Commit ω ρ)
  | .commit number operation result => some ⟨number, operation, result⟩
  | _ => none

theorem Mark.commit?_eq_some {mark : Mark ω ρ} {commit : Commit ω ρ} :
    mark.commit? = some commit ↔
      mark = .commit commit.number commit.operation commit.result := by
  cases mark with
  | commit number operation result =>
    constructor
    · intro h
      cases h
      rfl
    · intro h
      cases h
      rfl
  | _ => simp [commit?]

/-- One order of the committed operations that explains the history. -/
structure Linearization (apply : ω → σ → ρ × σ) (initial final : σ)
    (history : List (ℕ × Mark ω ρ)) (order : List (ℕ × Commit ω ρ)) : Prop where
  legal : replay apply initial (order.map (·.2.operation)) = (order.map (·.2.result), final)
  mem_iff : ∀ i commit, (i, commit) ∈ order ↔
    (i, .commit commit.number commit.operation commit.result) ∈ history
  sourceOrder : order.Pairwise fun a b => a.1 = b.1 → a.2.number < b.2.number
  realTime : ∀ a ∈ order, ∀ b ∈ order,
    Before history (a.1, .return a.2.number) (b.1, .call b.2.number) → Before order a b
  refused : ∀ i number, (i, .refuse number) ∈ history →
    ∀ commit, (i, commit) ∈ order → commit.number ≠ number

/-- The marks of each source are in order. -/
def Timed (history : List (ℕ × Mark ω ρ)) : Prop :=
  ∀ i, (project i history).Pairwise fun a b => a.clock < b.clock

theorem Timed.pairwise {history : List (ℕ × Mark ω ρ)} (h : Timed history) :
    history.Pairwise fun a b => a.1 = b.1 → a.2.clock < b.2.clock :=
  pairwise_iff_project.mpr h

/-- A source has at most one mark at a time. -/
theorem Timed.eq_of_clock {history : List (ℕ × Mark ω ρ)} (h : Timed history) {i : ℕ}
    {a b : Mark ω ρ} (ha : (i, a) ∈ history) (hb : (i, b) ∈ history) (heq : a.clock = b.clock) :
    a = b := by
  by_contra hne
  have hpair : (i, a) ≠ (i, b) := fun hpair => hne (Prod.mk.inj hpair).2
  rcases Before.total ha hb hpair with hbefore | hbefore
  · have hlt := hbefore.rel h.pairwise rfl
    simp only at hlt
    omega
  · have hlt := hbefore.rel h.pairwise rfl
    simp only at hlt
    omega

variable {apply : ω → σ → ρ × σ} {initial final : σ} {history : List (ℕ × Mark ω ρ)}

theorem mem_commits {i : ℕ} {commit : Commit ω ρ} :
    (i, commit) ∈ select Mark.commit? history ↔
      (i, .commit commit.number commit.operation commit.result) ∈ history := by
  rw [mem_select]
  constructor
  · rintro ⟨mark, hmem, hmark⟩
    rw [Mark.commit?_eq_some.mp hmark] at hmem
    exact hmem
  · intro hmem
    exact ⟨_, hmem, rfl⟩

/-- The commits are a linearization. -/
theorem Linearization.commits (htimed : Timed history)
    (hlegal : replay apply initial ((select Mark.commit? history).map (·.2.operation)) =
      ((select Mark.commit? history).map (·.2.result), final)) :
    Linearization apply initial final history (select Mark.commit? history) where
  legal := hlegal
  mem_iff _ _ := mem_commits
  sourceOrder := by
    refine (pairwise_iff_project (R := fun a b : Commit ω ρ => a.number < b.number)).mpr
      fun i => ?_
    rw [project_select, List.pairwise_filterMap]
    refine (htimed i).imp ?_
    intro a b hlt c hc d hd
    rw [Mark.commit?_eq_some.mp hc, Mark.commit?_eq_some.mp hd] at hlt
    simp only [Mark.clock] at hlt
    omega
  realTime := by
    rintro ⟨i, a⟩ ha ⟨j, b⟩ hb hbefore
    have ha' := mem_commits.mp ha
    have hb' := mem_commits.mp hb
    have hret : ¬ Before history (i, .return a.number)
        (i, .commit a.number a.operation a.result) := by
      intro h
      have hlt := h.rel htimed.pairwise rfl
      simp only [Mark.clock] at hlt
      omega
    have hcall : ¬ Before history (j, .commit b.number b.operation b.result)
        (j, .call b.number) := by
      intro h
      have hlt := h.rel htimed.pairwise rfl
      simp only [Mark.clock] at hlt
      omega
    exact (hbefore.of_return_call ha' hb' hret hcall).filterMap rfl rfl
  refused := by
    rintro i number hrefuse commit hcommit rfl
    have heq := htimed.eq_of_clock (mem_commits.mp hcommit) hrefuse rfl
    cases heq

/-- No operation is committed twice. -/
theorem Linearization.nodup {order : List (ℕ × Commit ω ρ)}
    (h : Linearization apply initial final history order) :
    (order.map fun entry => (entry.1, entry.2.number)).Nodup := by
  rw [List.Nodup, List.pairwise_map]
  refine h.sourceOrder.imp ?_
  intro a b hlt heq
  obtain ⟨hsource, hnumber⟩ := Prod.mk.inj heq
  have hnumber' := hlt hsource
  omega

/-- A relation between the object and what one source sees of it: when the operations of
the source keep it with equal results, and those of the others keep it for the object
alone, the operations of the source replay alone. -/
theorem replay_project_of_view {order : List (ℕ × Commit ω ρ)} {i : ℕ} {R : σ → σ → Prop}
    {view : σ}
    (hlegal : replay apply initial (order.map (·.2.operation)) = (order.map (·.2.result), final))
    (hown : ∀ commit, (i, commit) ∈ order → ∀ s t, R s t →
      (apply commit.operation s).1 = (apply commit.operation t).1 ∧
        R (apply commit.operation s).2 (apply commit.operation t).2)
    (hother : ∀ j commit, (j, commit) ∈ order → j ≠ i → ∀ s t, R s t →
      R (apply commit.operation s).2 t) (hview : R initial view) :
    ∃ rest, R final rest ∧ replay apply view ((project i order).map (·.operation)) =
      ((project i order).map (·.result), rest) := by
  induction order generalizing initial view with
  | nil =>
    cases hlegal
    exact ⟨view, hview, rfl⟩
  | cons entry order ih =>
    obtain ⟨j, commit⟩ := entry
    simp only [List.map_cons, replay, Prod.mk.injEq, List.cons.injEq] at hlegal
    obtain ⟨⟨hresult, hresults⟩, hfinal⟩ := hlegal
    have hlegal' : replay apply (apply commit.operation initial).2 (order.map (·.2.operation)) =
        (order.map (·.2.result), final) := Prod.ext hresults hfinal
    have hown' := fun commit' hmem => hown commit' (List.mem_cons_of_mem (j, commit) hmem)
    have hother' := fun j' commit' hmem =>
      hother j' commit' (List.mem_cons_of_mem (j, commit) hmem)
    rw [project_cons]
    by_cases hji : j = i
    · subst hji
      obtain ⟨hsame, hkeep⟩ := hown commit List.mem_cons_self initial view hview
      obtain ⟨rest, hrest, hreplay⟩ := ih hlegal' hown' hother' hkeep
      refine ⟨rest, hrest, ?_⟩
      rw [if_pos rfl]
      simp only [List.map_cons, replay, hreplay, ← hsame, hresult]
    · rw [if_neg hji]
      exact ih hlegal' hown' hother' (hother j commit List.mem_cons_self hji initial view hview)

/-- When the other sources only read, the operations of one source replay alone. -/
theorem replay_project {order : List (ℕ × Commit ω ρ)} {i : ℕ}
    (hlegal : replay apply initial (order.map (·.2.operation)) = (order.map (·.2.result), final))
    (hread : ∀ j commit, (j, commit) ∈ order → j ≠ i → ∀ s, (apply commit.operation s).2 = s) :
    replay apply initial ((project i order).map (·.operation)) =
      ((project i order).map (·.result), final) := by
  obtain ⟨rest, rfl, hreplay⟩ := replay_project_of_view (R := fun s t : σ => s = t) hlegal
    (fun commit _ s t hst => by rw [hst]; exact ⟨rfl, rfl⟩)
    (fun j commit hmem hji s t hst => (hread j commit hmem hji s).trans hst) rfl
  exact hreplay

/-- Every result is the one of the object that the earlier operations leave. -/
theorem Linearization.result_eq {order pre post : List (ℕ × Commit ω ρ)}
    (h : Linearization apply initial final history order) {i : ℕ} {commit : Commit ω ρ}
    (hsplit : order = pre ++ (i, commit) :: post) :
    commit.result =
      (apply commit.operation (replay apply initial (pre.map (·.2.operation))).2).1 := by
  have hlegal := congrArg Prod.fst h.legal
  rw [hsplit, List.map_append, replay_append, List.map_append] at hlegal
  simp only [List.map_cons, replay] at hlegal
  have hlength : (replay apply initial (pre.map (·.2.operation))).1.length =
      (pre.map (·.2.result)).length := by
    rw [length_replay, List.length_map, List.length_map]
  obtain ⟨-, htail⟩ := List.append_inj hlegal hlength
  exact (List.cons.inj htail).1.symm

end Library
