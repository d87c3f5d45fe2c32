import Mathlib.Tactic.Common
import Mathlib.Tactic.SplitIfs

/-!
# Machines given by a partial step function

A machine is a function `step : σ → α → Option σ`; `step s l = none` when the label `l` is not
enabled in `s`. `Run step ok s ls t` is a run from `s` to `t` along the labels `ls` in which
every step meets the condition `ok` on the state before it and its label. A prefix of a run is
a run, so "`P` holds in every state reached" is `P t` for every run.

* `Run.invariant`: the induction behind every safety statement.
* `Run.length_le`, `Run.countP_le`: how many steps a run can take that lower a measure.
* `Run.invariant_tally`: the same for a state and a value kept along the run.
* `par`: two machines side by side.
* `Run.simulate`: the runs of a machine whose steps are steps of another one, or none.
* `Run.forward`, `Run.follow`: the runs of a machine that another one follows, step by step or by
  runs.
* `Possible`: what some run still leads to, and how such runs are put together.
* `run_of_exec`: a run from its execution, for concrete runs.
* `throughout_iff_eachStep`: a condition on steps that is exactly what a property needs.
-/

namespace Lts

variable {σ α : Type*} {step : σ → α → Option σ} {ok ok' : σ → α → Prop}

/-- A run from one state to another whose every step meets `ok`. -/
inductive Run (step : σ → α → Option σ) (ok : σ → α → Prop) : σ → List α → σ → Prop
  | nil (s : σ) : Run step ok s [] s
  | cons {s s' t : σ} {l : α} {ls : List α} :
      ok s l → step s l = some s' → Run step ok s' ls t → Run step ok s (l :: ls) t

/-- No condition on the steps. -/
abbrev Any : σ → α → Prop := fun _ _ => True

namespace Run

theorem single {s t : σ} {l : α} (hok : ok s l) (hs : step s l = some t) :
    Run step ok s [l] t :=
  .cons hok hs (.nil t)

theorem step_eq {s t : σ} {l : α} (h : Run step ok s [l] t) : step s l = some t := by
  cases h with
  | cons _ hst hnil =>
    cases hnil
    exact hst

theorem append {s t u : σ} {ls ls' : List α} (h : Run step ok s ls t)
    (h' : Run step ok t ls' u) : Run step ok s (ls ++ ls') u := by
  induction h with
  | nil => exact h'
  | cons hok hs _ ih => exact .cons hok hs (ih h')

theorem snoc {s t u : σ} {ls : List α} {l : α} (h : Run step ok s ls t) (hok : ok t l)
    (hs : step t l = some u) : Run step ok s (ls ++ [l]) u :=
  h.append (single hok hs)

theorem mono (hle : ∀ s l, ok s l → ok' s l) {s t : σ} {ls : List α}
    (h : Run step ok s ls t) : Run step ok' s ls t := by
  induction h with
  | nil => exact .nil _
  | cons hok hs _ ih => exact .cons (hle _ _ hok) hs ih

/-- What holds at the start and is kept by every step that meets the condition holds at the
end of the run. -/
theorem invariant {I : σ → Prop} {s t : σ} {ls : List α} (h : Run step ok s ls t) (hs : I s)
    (hstep : ∀ s l s', I s → ok s l → step s l = some s' → I s') : I t := by
  induction h with
  | nil => exact hs
  | cons hok hst _ ih => exact ih (hstep _ _ _ hs hok hst)

/-- When no step raises a measure and the steps of one kind lower it, a run has no more of these
than the measure. -/
theorem countP_le {I : σ → Prop} {μ : σ → ℕ} {p : α → Bool} {s t : σ} {ls : List α}
    (h : Run step ok s ls t) (hs : I s)
    (hkeep : ∀ s l s', I s → ok s l → step s l = some s' → I s')
    (hless : ∀ s l s', I s → ok s l → step s l = some s' →
      μ s' + (if p l then 1 else 0) ≤ μ s) :
    ls.countP p + μ t ≤ μ s := by
  induction h with
  | nil => exact Nat.le_of_eq (Nat.zero_add _)
  | cons hok hst _ ih =>
    have hrest := ih (hkeep _ _ _ hs hok hst)
    have hfirst := hless _ _ _ hs hok hst
    rw [List.countP_cons]
    omega

/-- A run whose every step lowers a measure is no longer than the measure. -/
theorem length_le {I : σ → Prop} {μ : σ → ℕ} {s t : σ} {ls : List α} (h : Run step ok s ls t)
    (hs : I s) (hkeep : ∀ s l s', I s → ok s l → step s l = some s' → I s')
    (hless : ∀ s l s', I s → ok s l → step s l = some s' → μ s' < μ s) :
    ls.length + μ t ≤ μ s := by
  have hcount := h.countP_le (p := fun _ => true) hs hkeep hless
  rwa [List.countP_true] at hcount

end Run

/-! ## Values kept along a run -/

section Tally

variable {τ : Type*}

/-- What has become of a value that `note` updates at each step. -/
def tally (step : σ → α → Option σ) (note : σ → α → τ → τ) : σ → List α → τ → τ
  | _, [], x => x
  | s, l :: ls, x =>
    match step s l with
    | some s' => tally step note s' ls (note s l x)
    | none => x

variable {note : σ → α → τ → τ}

theorem tally_cons {s s' : σ} {l : α} (h : step s l = some s') (ls : List α) (x : τ) :
    tally step note s (l :: ls) x = tally step note s' ls (note s l x) := by
  simp only [tally, h]

/-- What holds of a state and a value at the start, and is kept by every step that meets the
condition, holds of them at the end of the run. -/
theorem Run.invariant_tally {I : σ → τ → Prop} {s t : σ} {ls : List α} {x : τ}
    (h : Run step ok s ls t) (hs : I s x)
    (hstep : ∀ s x l s', I s x → ok s l → step s l = some s' → I s' (note s l x)) :
    I t (tally step note s ls x) := by
  induction h generalizing x with
  | nil => exact hs
  | cons hok hst _ ih =>
    rw [tally_cons hst]
    exact ih (hstep _ _ _ _ hs hok hst)

end Tally

/-- The states that the labels lead through. -/
def trace (step : σ → α → Option σ) : σ → List α → List σ
  | s, [] => [s]
  | s, l :: ls =>
    match step s l with
    | some s' => s :: trace step s' ls
    | none => [s]

/-- Labels that the machine does not tell apart lead through the same states. -/
theorem trace_congr {R : α → α → Prop} (hR : ∀ s l l', R l l' → step s l = step s l')
    {ls ls' : List α} (h : List.Forall₂ R ls ls') (s : σ) :
    trace step s ls = trace step s ls' := by
  induction h generalizing s with
  | nil => rfl
  | cons hl _ ih =>
    simp only [trace, hR s _ _ hl]
    split
    · rw [ih]
    · rfl

theorem Run.congr {R : α → α → Prop} (hR : ∀ s l l', R l l' → step s l = step s l')
    {s t : σ} {ls ls' : List α} (h : Run step ok s ls t) (h' : List.Forall₂ R ls ls') :
    Run step Any s ls' t := by
  induction h generalizing ls' with
  | nil =>
    cases h'
    exact .nil _
  | cons _ hst _ ih =>
    cases h' with
    | cons hl hrest => exact .cons trivial ((hR _ _ _ hl).symm.trans hst) (ih hrest)

/-! ## Machines side by side -/

section Par

variable {τ β : Type*}

/-- Two machines that share nothing, each taking its own steps. -/
def par (step : σ → α → Option σ) (step' : τ → β → Option τ) (s : σ × τ) : α ⊕ β → Option (σ × τ)
  | .inl l => (step s.1 l).map fun u => (u, s.2)
  | .inr l => (step' s.2 l).map fun u => (s.1, u)

variable {step' : τ → β → Option τ} {s s' : σ × τ}

theorem par_inl {l : α} (h : par step step' s (.inl l) = some s') :
    step s.1 l = some s'.1 ∧ s'.2 = s.2 := by
  obtain ⟨u, hu, rfl⟩ := Option.map_eq_some_iff.mp h
  exact ⟨hu, rfl⟩

theorem par_inr {l : β} (h : par step step' s (.inr l) = some s') :
    s'.1 = s.1 ∧ step' s.2 l = some s'.2 := by
  obtain ⟨u, hu, rfl⟩ := Option.map_eq_some_iff.mp h
  exact ⟨rfl, hu⟩

end Par

/-! ## Simulation -/

section Simulate

variable {τ β : Type*} {step' : τ → β → Option τ}

/-- A step whose label is not a label of the other machine leaves the image of the state alone,
and every other one is a step of it. `I` is kept by the other machine. -/
theorem Run.simulate {f : σ → τ} {g : α → Option β} {I : τ → Prop}
    (hkeep : ∀ t l t', I t → step' t l = some t' → I t')
    (hnone : ∀ s l s', I (f s) → step s l = some s' → g l = none → f s' = f s)
    (hsome : ∀ s l s' l', I (f s) → step s l = some s' → g l = some l' →
      step' (f s) l' = some (f s'))
    {s t : σ} {ls : List α} (h : Run step ok s ls t) (hs : I (f s)) :
    Run step' Any (f s) (ls.filterMap g) (f t) := by
  induction h with
  | nil => exact .nil _
  | @cons s s' t l ls _ hst _ ih =>
    cases hg : g l with
    | none =>
      have hsame := hnone s l s' hs hst hg
      rw [List.filterMap_cons_none hg, ← hsame]
      exact ih (hsame ▸ hs)
    | some l' =>
      have hmade := hsome s l s' l' hs hst hg
      rw [List.filterMap_cons_some hg]
      exact .cons trivial hmade (ih (hkeep _ _ _ hs hmade))

/-- The other machine takes the same steps, in states that `R` relates to those of this one. -/
theorem Run.forward {step' : τ → α → Option τ} {R : τ → σ → Prop}
    (hstep : ∀ t s l s', R t s → ok s l → step s l = some s' → ∃ t', step' t l = some t' ∧ R t' s')
    {s s' : σ} {t : τ} {ls : List α} (h : Run step ok s ls s') (hs : R t s) :
    ∃ t', Run step' Any t ls t' ∧ R t' s' := by
  induction h generalizing t with
  | nil => exact ⟨t, .nil t, hs⟩
  | cons hok hst _ ih =>
    obtain ⟨u, hu, hR⟩ := hstep _ _ _ _ hs hok hst
    obtain ⟨t', hrun, ht'⟩ := ih hR
    exact ⟨t', .cons trivial hu hrun, ht'⟩

/-- The other machine takes any number of steps for each one of this one. -/
theorem Run.follow {R : τ → σ → Prop}
    (hstep : ∀ t s l s', R t s → ok s l → step s l = some s' →
      ∃ ls t', Run step' Any t ls t' ∧ R t' s')
    {s s' : σ} {t : τ} {ls : List α} (h : Run step ok s ls s') (hs : R t s) :
    ∃ ls' t', Run step' Any t ls' t' ∧ R t' s' := by
  induction h generalizing t with
  | nil => exact ⟨[], t, .nil t, hs⟩
  | cons hok hst _ ih =>
    obtain ⟨ls, u, hrun, hR⟩ := hstep _ _ _ _ hs hok hst
    obtain ⟨ls', t', hthen, ht'⟩ := ih hR
    exact ⟨ls ++ ls', t', hrun.append hthen, ht'⟩

end Simulate

/-! ## What can still happen -/

/-- Some run of the machine leads on to a state in which `P` holds. -/
def Possible (step : σ → α → Option σ) (ok : σ → α → Prop) (P : σ → Prop) (s : σ) : Prop :=
  ∃ ls t, Run step ok s ls t ∧ P t

theorem possible_of_now {P : σ → Prop} {s : σ} (h : P s) : Possible step ok P s :=
  ⟨[], s, .nil s, h⟩

theorem possible_of_step {P : σ → Prop} {s t : σ} {l : α} (hok : ok s l)
    (hs : step s l = some t) (h : Possible step ok P t) : Possible step ok P s := by
  obtain ⟨ls, u, hrun, hu⟩ := h
  exact ⟨l :: ls, u, .cons hok hs hrun, hu⟩

/-- What is possible from every state that is possible is possible. -/
theorem Possible.bind {P Q : σ → Prop} {s : σ} (h : Possible step ok Q s)
    (hQ : ∀ t, Q t → Possible step ok P t) : Possible step ok P s := by
  obtain ⟨ls, t, hrun, ht⟩ := h
  obtain ⟨ls', u, hrun', hu⟩ := hQ t ht
  exact ⟨ls ++ ls', u, hrun.append hrun', hu⟩

theorem Possible.mono {P Q : σ → Prop} (hle : ∀ s l, ok s l → ok' s l) (hPQ : ∀ t, P t → Q t)
    {s : σ} (h : Possible step ok P s) : Possible step ok' Q s := by
  obtain ⟨ls, t, hrun, ht⟩ := h
  exact ⟨ls, t, hrun.mono hle, hPQ t ht⟩

/-- What no step leaves and `P` is not part of excludes `P` for good. -/
theorem not_possible_of_invariant {I P : σ → Prop} {s : σ} (hs : I s)
    (hstep : ∀ s l s', I s → ok s l → step s l = some s' → I s') (hno : ∀ t, I t → ¬ P t) :
    ¬ Possible step ok P s := by
  rintro ⟨ls, t, hrun, ht⟩
  exact hno t (hrun.invariant hs hstep) ht

/-! ## Concrete runs -/

/-- Execute the labels in order, checking the condition at each step. -/
def exec (step : σ → α → Option σ) (ok : σ → α → Prop) [∀ s l, Decidable (ok s l)] :
    σ → List α → Option σ
  | s, [] => some s
  | s, l :: ls =>
    if ok s l then
      match step s l with
      | some s' => exec step ok s' ls
      | none => none
    else none

theorem run_of_exec [∀ s l, Decidable (ok s l)] {s t : σ} {ls : List α}
    (h : exec step ok s ls = some t) : Run step ok s ls t := by
  induction ls generalizing s with
  | nil =>
    obtain rfl : s = t := Option.some.inj h
    exact .nil _
  | cons l ls ih =>
    unfold exec at h
    split_ifs at h with hok
    split at h
    · rename_i s' hs
      exact .cons hok hs (ih h)
    · exact absurd h (by simp)

/-- The state the labels lead to, or the first state if one of them is not enabled. -/
def reached (step : σ → α → Option σ) (ok : σ → α → Prop) [∀ s l, Decidable (ok s l)] (s : σ)
    (ls : List α) : σ :=
  (exec step ok s ls).getD s

theorem run_reached [∀ s l, Decidable (ok s l)] {s : σ} {ls : List α}
    (h : (exec step ok s ls).isSome = true) : Run step ok s ls (reached step ok s ls) := by
  obtain ⟨t, ht⟩ := Option.isSome_iff_exists.mp h
  have hreached : reached step ok s ls = t := by
    unfold reached
    rw [ht]
    rfl
  rw [hreached]
  exact run_of_exec ht

/-! ## Conditions that are exactly what a property needs -/

/-- `P` in every state the labels lead through. -/
def Throughout (step : σ → α → Option σ) (P : σ → Prop) : σ → List α → Prop
  | s, [] => P s
  | s, l :: ls => P s ∧ ∀ s', step s l = some s' → Throughout step P s' ls

/-- `ok` at every step the labels lead through. -/
def EachStep (step : σ → α → Option σ) (ok : σ → α → Prop) : σ → List α → Prop
  | _, [] => True
  | s, l :: ls => ok s l ∧ ∀ s', step s l = some s' → EachStep step ok s' ls

instance decidableEachStep [∀ s l, Decidable (ok s l)] :
    ∀ (s : σ) (ls : List α), Decidable (EachStep step ok s ls)
  | _, [] => isTrue trivial
  | s, l :: ls =>
    match h : step s l with
    | none => decidable_of_iff (ok s l)
        ⟨fun hp => ⟨hp, fun _ hs => absurd (h.symm.trans hs) (by simp)⟩, And.left⟩
    | some s' =>
      have : Decidable (EachStep step ok s' ls) := decidableEachStep s' ls
      decidable_of_iff (ok s l ∧ EachStep step ok s' ls)
        ⟨fun hp => ⟨hp.1, fun _ hs => Option.some.inj (h.symm.trans hs) ▸ hp.2⟩,
          fun hp => ⟨hp.1, hp.2 s' h⟩⟩

/-- A run whose steps also meet another condition. -/
theorem Run.and_eachStep {s t : σ} {ls : List α} (h : Run step ok s ls t)
    (h' : EachStep step ok' s ls) : Run step (fun s l => ok s l ∧ ok' s l) s ls t := by
  induction h with
  | nil => exact .nil _
  | cons hok hst _ ih => exact .cons ⟨hok, h'.1⟩ hst (ih (h'.2 _ hst))

theorem Throughout.head {P : σ → Prop} {s : σ} {ls : List α} (h : Throughout step P s ls) :
    P s := by
  cases ls with
  | nil => exact h
  | cons l ls => exact h.1

/-- If, from the states the invariant `I` describes, a step keeps `I` when it meets `ok` and
breaks `P` when it does not, then along every run `P` holds throughout exactly when every step
meets `ok`. -/
theorem throughout_iff_eachStep {base : σ → α → Prop} {I P : σ → Prop}
    (hP : ∀ s, I s → P s)
    (hkeep : ∀ s l s', I s → base s l → ok s l → step s l = some s' → I s')
    (hbreak : ∀ s l s', I s → base s l → ¬ ok s l → step s l = some s' → ¬ P s')
    {s t : σ} {ls : List α} (h : Run step base s ls t) (hs : I s) :
    Throughout step P s ls ↔ EachStep step ok s ls := by
  induction h with
  | nil => exact ⟨fun _ => trivial, fun _ => hP _ hs⟩
  | @cons s s' t l ls hb hst _ ih =>
    constructor
    · rintro ⟨-, hthen⟩
      have hok : ok s l := by
        by_contra hno
        exact hbreak s l s' hs hb hno hst (hthen s' hst).head
      refine ⟨hok, ?_⟩
      intro u hu
      obtain rfl : s' = u := Option.some.inj (hst.symm.trans hu)
      exact (ih (hkeep s l s' hs hb hok hst)).mp (hthen s' hst)
    · rintro ⟨hok, hthen⟩
      refine ⟨hP s hs, ?_⟩
      intro u hu
      obtain rfl : s' = u := Option.some.inj (hst.symm.trans hu)
      exact (ih (hkeep s l s' hs hb hok hst)).mpr (hthen s' hst)

/-- If, from the states of `I`, a step keeps `I` when it meets `ok` and leads into `J` when it
does not, and no step leaves `J`, then a run ends in `I` or in `J`, as all its steps meet `ok` or
not. -/
theorem Run.eachStep_cases {base : σ → α → Prop} {I J : σ → Prop}
    (hkeep : ∀ s l s', I s → base s l → ok s l → step s l = some s' → I s')
    (hbreak : ∀ s l s', I s → base s l → ¬ ok s l → step s l = some s' → J s')
    (hstay : ∀ s l s', J s → base s l → step s l = some s' → J s')
    {s t : σ} {ls : List α} (h : Run step base s ls t) (hs : I s) :
    (EachStep step ok s ls ∧ I t) ∨ (¬ EachStep step ok s ls ∧ J t) := by
  induction h with
  | nil => exact Or.inl ⟨trivial, hs⟩
  | @cons s s' t l ls hb hst hthen ih =>
    by_cases hok : ok s l
    · rcases ih (hkeep s l s' hs hb hok hst) with ⟨heach, ht⟩ | ⟨hno, ht⟩
      · refine Or.inl ⟨⟨hok, ?_⟩, ht⟩
        intro u hu
        obtain rfl : s' = u := Option.some.inj (hst.symm.trans hu)
        exact heach
      · exact Or.inr ⟨fun heach => hno (heach.2 s' hst), ht⟩
    · exact Or.inr ⟨fun heach => hok heach.1, hthen.invariant (hbreak s l s' hs hb hok hst) hstay⟩

end Lts
