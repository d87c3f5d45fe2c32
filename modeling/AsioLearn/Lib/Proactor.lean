import Mathlib.Data.List.Basic
import Mathlib.Tactic.Common
import Mathlib.Tactic.SplitIfs

/-!
# Pools of asynchronous operations

A proactor keeps the operations that have been started and whose handlers have not yet run. An
operation is a task, which says what was started, and the result it has completed with, if any.
`pick` singles out one operation of the pool, to complete it or to run its handler; `abort`
completes, with one given result, every outstanding operation of a kind; `waiting` and `finished`
are what is still outstanding, and what has become of the rest.
-/

namespace Proactor

/-- A started operation whose handler has not run: outstanding while it has no result. -/
structure Op (κ ρ : Type*) where
  task : κ
  result : Option ρ := none
  deriving DecidableEq, Repr

/-! ## Singling out an element -/

section Pick

variable {α : Type*}

/-- The element at a position, between the elements before it and those after it. -/
def pick : List α → ℕ → Option (List α × α × List α)
  | [], _ => none
  | x :: xs, 0 => some ([], x, xs)
  | x :: xs, i + 1 =>
    match pick xs i with
    | some (l, y, r) => some (x :: l, y, r)
    | none => none

theorem pick_eq_some {xs l r : List α} {i : ℕ} {y : α} (h : pick xs i = some (l, y, r)) :
    xs = l ++ y :: r := by
  induction xs generalizing i l with
  | nil => exact absurd h (by simp [pick])
  | cons x xs ih =>
    cases i with
    | zero =>
      simp only [pick, Option.some.injEq, Prod.mk.injEq] at h
      obtain ⟨rfl, rfl, rfl⟩ := h
      rfl
    | succ i =>
      simp only [pick] at h
      split at h
      · rename_i l' y' r' hrec
        simp only [Option.some.injEq, Prod.mk.injEq] at h
        obtain ⟨rfl, rfl, rfl⟩ := h
        rw [ih hrec]
        rfl
      · exact absurd h (by simp)

/-- Every element can be singled out. -/
theorem exists_pick {xs : List α} {y : α} (h : y ∈ xs) : ∃ i l r, pick xs i = some (l, y, r) := by
  induction xs with
  | nil => exact absurd h List.not_mem_nil
  | cons x xs ih =>
    rcases List.mem_cons.mp h with rfl | h
    · exact ⟨0, [], xs, rfl⟩
    · obtain ⟨i, l, r, hpick⟩ := ih h
      exact ⟨i + 1, x :: l, r, by simp only [pick, hpick]⟩

theorem pick_length (l : List α) (y : α) (r : List α) :
    pick (l ++ y :: r) l.length = some (l, y, r) := by
  induction l with
  | nil => rfl
  | cons x l ih => simp only [List.cons_append, List.length_cons, pick, ih]

/-- What is started later does not change which element stands at a position. -/
theorem pick_append {xs l r : List α} {i : ℕ} {y : α} (h : pick xs i = some (l, y, r))
    (ys : List α) : pick (xs ++ ys) i = some (l, y, r ++ ys) := by
  induction xs generalizing i l with
  | nil => exact absurd h (by simp [pick])
  | cons x xs ih =>
    cases i with
    | zero =>
      simp only [pick, Option.some.injEq, Prod.mk.injEq] at h
      obtain ⟨rfl, rfl, rfl⟩ := h
      rfl
    | succ i =>
      simp only [pick] at h
      split at h
      · rename_i l' y' r' hrec
        simp only [Option.some.injEq, Prod.mk.injEq] at h
        obtain ⟨rfl, rfl, rfl⟩ := h
        simp only [List.cons_append, pick, ih hrec]
      · exact absurd h (by simp)

theorem mem_of_mem_rest {l r : List α} {y z : α} (h : z ∈ l ++ r) : z ∈ l ++ y :: r := by
  rcases List.mem_append.mp h with h | h
  · exact List.mem_append_left _ h
  · exact List.mem_append_right _ (List.mem_cons_of_mem _ h)

/-- An element counts by itself. -/
theorem countP_besides (p : α → Bool) (l r : List α) (y : α) :
    (l ++ y :: r).countP p = (l ++ r).countP p + (p y).toNat := by
  rw [List.countP_append, List.countP_append, List.countP_cons]
  cases p y with
  | true =>
    simp only [if_true, Bool.toNat_true]
    omega
  | false => simp only [Bool.false_eq_true, if_false, Bool.toNat_false]; omega

end Pick

/-! ## Aborting -/

section Abort

variable {κ ρ : Type*} (p : κ → Bool) (r : ρ)

/-- Complete with `r` the outstanding operations whose task satisfies `p`. -/
def abort (ops : List (Op κ ρ)) : List (Op κ ρ) :=
  ops.map fun op =>
    if p op.task && op.result.isNone then { op with result := some r } else op

/-- Two aborts are one. -/
theorem abort_abort (p' : κ → Bool) (ops : List (Op κ ρ)) :
    abort p' r (abort p r ops) = abort (fun k => p k || p' k) r ops := by
  unfold abort
  rw [List.map_map]
  apply List.map_congr_left
  intro op _
  obtain ⟨k, res⟩ := op
  cases res <;> cases hp : p k <;> simp [hp]

/-- Where no operation that satisfies `p` is outstanding, nothing is aborted. -/
theorem abort_eq_self {ops : List (Op κ ρ)}
    (h : ∀ op ∈ ops, op.result = none → p op.task = false) : abort p r ops = ops := by
  refine (List.map_congr_left ?_).trans (List.map_id ops)
  intro op hop
  refine if_neg ?_
  intro hc
  obtain ⟨hp, hn⟩ := (Bool.and_eq_true ..).mp hc
  rw [h op hop (Option.isNone_iff_eq_none.mp hn)] at hp
  exact absurd hp (by simp)

/-- Aborting changes no task. -/
@[simp] theorem map_task_abort (ops : List (Op κ ρ)) :
    (abort p r ops).map Op.task = ops.map Op.task := by
  unfold abort
  rw [List.map_map]
  apply List.map_congr_left
  intro op _
  simp only [Function.comp_apply]
  split_ifs <;> rfl

/-- An operation of the pool after an abort was in it before, or is an outstanding one that has
just been given the result. -/
theorem mem_abort {ops : List (Op κ ρ)} {op : Op κ ρ} (h : op ∈ abort p r ops) :
    (op ∈ ops ∧ (p op.task = true → op.result.isSome)) ∨
      (p op.task = true ∧ op.result = some r ∧ ⟨op.task, none⟩ ∈ ops) := by
  obtain ⟨o, ho, rfl⟩ := List.mem_map.mp h
  by_cases hc : (p o.task && o.result.isNone) = true
  · rw [if_pos hc]
    obtain ⟨hp, hn⟩ := (Bool.and_eq_true ..).mp hc
    refine Or.inr ⟨hp, rfl, ?_⟩
    rwa [show (⟨o.task, none⟩ : Op κ ρ) = o by
      cases o; simp only [Option.isNone_iff_eq_none] at hn; rw [hn]]
  · rw [if_neg hc]
    refine Or.inl ⟨ho, ?_⟩
    intro hp
    cases hres : o.result with
    | none => simp [hp, hres] at hc
    | some _ => rfl

/-- What holds of every operation still does after an abort, if it survives being given the
result. -/
theorem forall_abort {Q : Op κ ρ → Prop} {ops : List (Op κ ρ)} (h : ∀ op ∈ ops, Q op)
    (hr : ∀ k, p k = true → Q ⟨k, none⟩ → Q ⟨k, some r⟩) : ∀ op ∈ abort p r ops, Q op := by
  intro op hop
  rcases mem_abort p r hop with ⟨hmem, -⟩ | ⟨hp, hres, hmem⟩
  · exact h op hmem
  · have := hr op.task hp (h _ hmem)
    rwa [← hres] at this

/-- A count does not go up, if an operation that counts after being given the result counted
before. -/
theorem countP_abort_le {q : Op κ ρ → Bool}
    (hq : ∀ k, p k = true → q ⟨k, some r⟩ = true → q ⟨k, none⟩ = true) (ops : List (Op κ ρ)) :
    (abort p r ops).countP q ≤ ops.countP q := by
  unfold abort
  rw [List.countP_map]
  apply List.countP_mono_left
  intro op _ h
  simp only [Function.comp_apply] at h
  by_cases hc : (p op.task && op.result.isNone) = true
  · rw [if_pos hc] at h
    obtain ⟨hp, hn⟩ := (Bool.and_eq_true ..).mp hc
    obtain ⟨k, res⟩ := op
    simp only [Option.isNone_iff_eq_none] at hn
    subst hn
    exact hq k hp h
  · rwa [if_neg hc] at h

/-- An operation of a kind is still there, if being given the result does not change its kind. -/
theorem exists_abort {Q : Op κ ρ → Prop} {ops : List (Op κ ρ)} (h : ∃ op ∈ ops, Q op)
    (hQ : ∀ k, p k = true → Q ⟨k, none⟩ → Q ⟨k, some r⟩) : ∃ op ∈ abort p r ops, Q op := by
  obtain ⟨op, hop, hq⟩ := h
  refine ⟨_, List.mem_map.mpr ⟨op, hop, rfl⟩, ?_⟩
  by_cases hc : (p op.task && op.result.isNone) = true
  · rw [if_pos hc]
    obtain ⟨hp, hn⟩ := (Bool.and_eq_true ..).mp hc
    obtain ⟨k, res⟩ := op
    simp only [Option.isNone_iff_eq_none] at hn
    subst hn
    exact hQ k hp hq
  · rwa [if_neg hc]

/-- An operation that is not aborted is still in the pool. -/
theorem mem_abort_of_mem {ops : List (Op κ ρ)} {op : Op κ ρ} (h : op ∈ ops)
    (hp : p op.task = true → op.result.isSome = true) : op ∈ abort p r ops := by
  refine List.mem_map.mpr ⟨op, h, if_neg ?_⟩
  intro hc
  obtain ⟨hpt, hn⟩ := (Bool.and_eq_true ..).mp hc
  rw [Option.isNone_iff_eq_none] at hn
  have := hp hpt
  rw [hn] at this
  exact absurd this (by simp)

/-- What is selected does not change, if an operation is not selected before it is given the
result, nor after that. -/
theorem filter_abort {q : Op κ ρ → Bool}
    (hq : ∀ k, p k = true → q ⟨k, none⟩ = false ∧ q ⟨k, some r⟩ = false) (ops : List (Op κ ρ)) :
    (abort p r ops).filter q = ops.filter q := by
  induction ops with
  | nil => rfl
  | cons op ops ih =>
    unfold abort at ih ⊢
    rw [List.map_cons, List.filter_cons, List.filter_cons, ih]
    by_cases hc : (p op.task && op.result.isNone) = true
    · obtain ⟨hp, hn⟩ := (Bool.and_eq_true ..).mp hc
      obtain ⟨k, res⟩ := op
      simp only [Option.isNone_iff_eq_none] at hn
      subst hn
      obtain ⟨hbefore, hafter⟩ := hq k hp
      simp only [if_pos hc, hbefore, hafter, Bool.false_eq_true, if_false]
    · rw [if_neg hc]

/-- The outstanding operations that satisfy `q`. -/
def waiting (q : κ → Bool) (ops : List (Op κ ρ)) : List κ :=
  ops.filterMap fun op => if op.result.isNone && q op.task then some op.task else none

theorem waiting_append (q : κ → Bool) (ops ops' : List (Op κ ρ)) :
    waiting q (ops ++ ops') = waiting q ops ++ waiting q ops' := List.filterMap_append

theorem waiting_snoc (q : κ → Bool) (ops : List (Op κ ρ)) (k : κ) (result : Option ρ) :
    waiting q (ops ++ [⟨k, result⟩]) =
      waiting q ops ++ if result.isNone && q k then [k] else [] := by
  rw [waiting_append]
  congr 1
  unfold waiting
  rw [List.filterMap_cons]
  dsimp only
  split_ifs <;> rfl

theorem mem_waiting {q : κ → Bool} {ops : List (Op κ ρ)} {k : κ} :
    k ∈ waiting q ops ↔ ⟨k, none⟩ ∈ ops ∧ q k = true := by
  unfold waiting
  rw [List.mem_filterMap]
  constructor
  · rintro ⟨⟨task, result⟩, hop, heq⟩
    split_ifs at heq with hc
    obtain ⟨hnone, hq⟩ := (Bool.and_eq_true ..).mp hc
    obtain rfl := Option.some.inj heq
    simp only [Option.isNone_iff_eq_none] at hnone
    subst hnone
    exact ⟨hop, hq⟩
  · rintro ⟨hop, hq⟩
    exact ⟨_, hop, if_pos (by rw [hq]; rfl)⟩

theorem waiting_congr {q q' : κ → Bool} {ops : List (Op κ ρ)}
    (h : ∀ k, ⟨k, none⟩ ∈ ops → q k = q' k) : waiting q ops = waiting q' ops := by
  unfold waiting
  apply List.filterMap_congr
  intro op hop
  obtain ⟨k, result⟩ := op
  cases result with
  | some r => rfl
  | none => rw [h k hop]

theorem waiting_sublist (q : κ → Bool) (ops : List (Op κ ρ)) :
    (waiting q ops).Sublist (ops.map Op.task) := by
  induction ops with
  | nil => exact List.Sublist.refl _
  | cons op ops ih =>
    unfold waiting at ih ⊢
    rw [List.filterMap_cons, List.map_cons]
    split_ifs
    · exact ih.cons_cons _
    · exact ih.cons _

theorem filter_waiting (q q' : κ → Bool) (ops : List (Op κ ρ)) :
    (waiting q ops).filter q' = waiting (fun k => q k && q' k) ops := by
  unfold waiting
  rw [List.filter_filterMap]
  apply List.filterMap_congr
  intro op _
  by_cases hc : (op.result.isNone && q op.task) = true
  · obtain ⟨hn, hq⟩ := (Bool.and_eq_true ..).mp hc
    cases hq' : q' op.task <;> simp [hn, hq, hq']
  · grind

/-- What an abort leaves outstanding. -/
theorem waiting_abort (q : κ → Bool) (ops : List (Op κ ρ)) :
    waiting q (abort p r ops) = waiting (fun k => q k && !p k) ops := by
  unfold waiting abort
  rw [List.filterMap_map]
  apply List.filterMap_congr
  intro op _
  rw [Function.comp_apply]
  cases hn : op.result <;> cases hp : p op.task <;> cases hq : q op.task <;> simp [hn, hp, hq]

/-- What the completed operations give, by `g`. -/
def finished {β : Type*} (g : κ → ρ → Option β) (ops : List (Op κ ρ)) : List β :=
  ops.filterMap fun op => op.result.bind (g op.task)

theorem finished_snoc {β : Type*} (g : κ → ρ → Option β) (ops : List (Op κ ρ)) (k : κ)
    (result : Option ρ) :
    finished g (ops ++ [⟨k, result⟩]) = finished g ops ++ (result.bind (g k)).toList := by
  unfold finished
  rw [List.filterMap_append, List.filterMap_cons]
  dsimp only
  cases result.bind (g k) <;> rfl

/-- An abort completes the outstanding operations that satisfy `p`, in addition to those that were
complete before. -/
theorem perm_finished_abort {β : Type*} (g : κ → ρ → Option β) (ops : List (Op κ ρ)) :
    (finished g (abort p r ops)).Perm
      (finished g ops ++ (waiting p ops).filterMap fun k => g k r) := by
  induction ops with
  | nil => exact List.Perm.nil
  | cons op ops ih =>
    have hhead : ∀ ops : List (Op κ ρ), finished g (op :: ops) =
        (op.result.bind (g op.task)).toList ++ finished g ops := by
      intro ops
      unfold finished
      rw [List.filterMap_cons]
      cases op.result.bind (g op.task) <;> rfl
    by_cases hc : (op.result.isNone && p op.task) = true
    · obtain ⟨hn, hp⟩ := (Bool.and_eq_true ..).mp hc
      obtain ⟨k, result⟩ := op
      simp only [Option.isNone_iff_eq_none] at hn
      subst hn
      have hleft : finished g (abort p r (⟨k, none⟩ :: ops)) =
          (g k r).toList ++ finished g (abort p r ops) := by
        unfold finished abort
        simp only [List.map_cons, hp, Option.isNone_none, Bool.and_self, if_true,
          List.filterMap_cons, Option.bind_some]
        cases g k r <;> rfl
      have hright : (waiting p ((⟨k, none⟩ : Op κ ρ) :: ops)).filterMap (fun k => g k r) =
          (g k r).toList ++ (waiting p ops).filterMap fun k => g k r := by
        unfold waiting
        simp only [List.filterMap_cons, hp, Option.isNone_none, Bool.and_self, if_true]
        cases g k r <;> rfl
      rw [hleft, hright]
      exact (ih.append_left _).trans (List.perm_append_comm_assoc ..)
    · have hleft : abort p r (op :: ops) = op :: abort p r ops := by
        unfold abort
        rw [List.map_cons, if_neg]
        rwa [Bool.and_comm]
      have hright : waiting p (op :: ops) = waiting p ops := by
        unfold waiting
        rw [List.filterMap_cons, if_neg hc]
      rw [hleft, hright, hhead, hhead, List.append_assoc]
      exact ih.append_left _

end Abort

/-! ## Batches -/

section Batch

variable {α ι : Type*}

theorem perm_filter_or (p q : α → Bool) (xs : List α) (h : ∀ x ∈ xs, p x = true → q x = false) :
    (xs.filter p ++ xs.filter q).Perm (xs.filter fun x => p x || q x) := by
  have hsplit := List.filter_append_perm p (xs.filter fun x => p x || q x)
  have hp : (xs.filter fun x => p x || q x).filter p = xs.filter p := by
    rw [List.filter_filter]
    apply List.filter_congr
    intro x _
    cases p x <;> simp
  have hq : (xs.filter fun x => p x || q x).filter (fun x => !p x) = xs.filter q := by
    rw [List.filter_filter]
    apply List.filter_congr
    intro x hx
    have := h x hx
    cases hpx : p x <;> simp_all
  rwa [hp, hq] at hsplit

/-- Batches by a key, for some of the keys, are all that have one of these keys. -/
theorem perm_flatMap_filter [DecidableEq ι] (key : α → ι) (xs : List α) {us : List ι}
    (h : us.Nodup) :
    (us.flatMap fun u => xs.filter fun x => key x = u).Perm
      (xs.filter fun x => decide (key x ∈ us)) := by
  induction us with
  | nil => simp
  | cons u us ih =>
    obtain ⟨hu, hnodup⟩ := List.nodup_cons.mp h
    have hor := perm_filter_or (fun x => decide (key x = u)) (fun x => decide (key x ∈ us)) xs (by
      intro x _ hx
      rw [decide_eq_true_eq] at hx
      rw [hx]
      exact decide_eq_false hu)
    rw [List.flatMap_cons]
    refine ((ih hnodup).append_left _).trans (hor.trans (List.Perm.of_eq ?_))
    apply List.filter_congr
    intro x _
    simp only [List.mem_cons, Bool.decide_or]

end Batch

end Proactor
