import AsioLearn.Detail.TimerWaits
import Mathlib.Data.List.Nodup

/-!
# Moving and emptying a `timer_queue`

* `moveTimer_spec`: the waits of a timer, its entry and its place in the list go to another timer.
* `getAllTimers_spec`: every wait comes out once, and nothing is left.
-/

namespace AsioLearn.Detail.TimerQueue

open BinaryHeap LinkedList

variable {ι τ : Type*} [DecidableEq ι] {s : State ι τ}

/-! ## `move_timer` -/

section

variable {target source : ι}

theorem heapIndex_moveTimer (u : ι) : (moveTimer target source s).heapIndex u =
    if u = source then none else if u = target then s.heapIndex source else s.heapIndex u := by
  have hframe : (moveTimer target source s).heapIndex = Function.update
      (Function.update s.heapIndex target (s.heapIndex source)) source none := by
    unfold moveTimer
    dsimp only
    split <;> rfl
  rw [hframe, Function.update_apply, Function.update_apply]

theorem opQueue_moveTimer (u : ι) : (moveTimer target source s).opQueue u =
    if u = source then [] else if u = target then s.opQueue target ++ s.opQueue source
      else s.opQueue u := by
  have hframe : (moveTimer target source s).opQueue = Function.update
      (Function.update s.opQueue target (s.opQueue target ++ s.opQueue source)) source [] := by
    unfold moveTimer
    dsimp only
    split <;> rfl
  rw [hframe, Function.update_apply, Function.update_apply]

theorem links_moveTimer : (moveTimer target source s).links = replace source target s.links := by
  unfold moveTimer
  dsimp only
  split <;> rfl

/-- Where the timer of an entry is changed, if anywhere. -/
theorem getElem?_heap_moveTimer (hp : Placed s) (target source : ι) (k : ℕ) :
    (moveTimer target source s).heap[k]? = s.heap[k]?.map fun entry =>
      if entry.timer = source then { entry with timer := target } else entry := by
  have hframe : (moveTimer target source s).heap = (s.heapIndex source).elim s.heap fun index =>
      s.heap.modify index fun entry => { entry with timer := target } := by
    unfold moveTimer
    simp only [setHeapIndex, setOpQueue]
    split <;> simp only [*, Option.elim_none, Option.elim_some]
  rw [hframe]
  cases hsource : s.heapIndex source with
  | none =>
    rw [Option.elim_none]
    apply Option.ext
    intro entry
    rw [Option.map_eq_some_iff]
    have hother : ∀ entry', s.heap[k]? = some entry' → entry'.timer ≠ source := by
      intro entry' he heq
      rw [← heq, hp.heapIndex he] at hsource
      exact absurd hsource (by simp)
    constructor
    · intro he
      exact ⟨entry, he, if_neg (hother entry he)⟩
    · rintro ⟨entry', he, rfl⟩
      rw [if_neg (hother entry' he)]
      exact he
  | some index =>
    rw [Option.elim_some, List.getElem?_modify]
    apply Option.map_congr
    intro entry he
    by_cases hk : index = k
    · obtain ⟨entry', he', ht⟩ := (hp _ _).mp hsource
      rw [hk] at he'
      obtain rfl := Option.some.inj (he.symm.trans he')
      rw [if_pos hk, if_pos ht]
    · have ht : entry.timer ≠ source := by
        intro heq
        rw [← heq, hp.heapIndex he] at hsource
        exact hk (Option.some.inj hsource).symm
      rw [if_neg hk, if_neg ht]

theorem placed_moveTimer (hp : Placed s) (hne : target ≠ source)
    (hnone : s.heapIndex target = none) : Placed (moveTimer target source s) := by
  have hat := getElem?_heap_moveTimer hp target source
  intro u k
  rw [heapIndex_moveTimer, hat]
  constructor
  · intro hk
    split_ifs at hk with hsource htarget
    · obtain ⟨entry, he, ht⟩ := (hp _ _).mp hk
      exact ⟨{ entry with timer := target }, by rw [he, Option.map_some, if_pos ht], htarget.symm⟩
    · obtain ⟨entry, he, rfl⟩ := (hp _ _).mp hk
      exact ⟨entry, by rw [he, Option.map_some, if_neg hsource], rfl⟩
  · rintro ⟨entry, he, rfl⟩
    obtain ⟨entry', he', rfl⟩ := Option.map_eq_some_iff.mp he
    have hk := hp.heapIndex he'
    by_cases ht : entry'.timer = source
    · rw [if_pos ht, if_neg hne, if_pos rfl, ← ht, hk]
    · have htarget : entry'.timer ≠ target := by
        intro heq
        rw [← heq, hk] at hnone
        exact absurd hnone (by simp)
      rw [if_neg ht, if_neg ht, if_neg htarget, hk]

theorem expiry_moveTimer (hp : Placed s) (u : ι) : expiry (moveTimer target source s) u =
    if u = source then none else if u = target then expiry s source else expiry s u := by
  have htimes : ∀ k : ℕ, (moveTimer target source s).heap[k]?.map HeapEntry.time =
      s.heap[k]?.map HeapEntry.time := by
    intro k
    rw [getElem?_heap_moveTimer hp, Option.map_map]
    apply Option.map_congr
    intro entry _
    rw [Function.comp_apply]
    split_ifs <;> rfl
  unfold expiry
  rw [heapIndex_moveTimer]
  simp only [htimes]
  split_ifs <;> rfl

variable [LinearOrder τ]

/-- **Moving.** A timer without waits is given those of another timer. -/
theorem moveTimer_spec (h : Valid s) (hne : target ≠ source) (hempty : s.opQueue target = []) :
    Valid (moveTimer target source s) ∧
      (∀ u, (moveTimer target source s).opQueue u =
        if u = source then [] else if u = target then s.opQueue source else s.opQueue u) ∧
      ∀ u, expiry (moveTimer target source s) u =
        if u = source then none else if u = target then expiry s source else expiry s u := by
  have hnone : s.heapIndex target = none := by
    rw [← Option.not_isSome_iff_eq_none, h.waits, not_not]
    exact hempty
  have hqueue : ∀ u, (moveTimer target source s).opQueue u =
      if u = source then [] else if u = target then s.opQueue source else s.opQueue u := by
    intro u
    rw [opQueue_moveTimer, hempty, List.nil_append]
  have hp := placed_moveTimer h.placed hne hnone
  refine ⟨⟨⟨?_, hp, ?_⟩, ?_⟩, hqueue, expiry_moveTimer h.placed⟩
  · intro i hi x y hx hy
    rw [getElem?_heap_moveTimer h.placed] at hx hy
    obtain ⟨x', hx', rfl⟩ := Option.map_eq_some_iff.mp hx
    obtain ⟨y', hy', rfl⟩ := Option.map_eq_some_iff.mp hy
    have hle := h.ordered i hi x' y' hx' hy'
    split_ifs <;> exact hle
  · obtain ⟨active, hlist, hmem⟩ := h.linked
    have htarget : target ∉ active := by simp [hmem, hnone]
    rw [links_moveTimer]
    by_cases hin : source ∈ active
    · obtain ⟨a, b, rfl⟩ := List.append_of_mem hin
      refine ⟨a ++ target :: b, represents_replace hlist htarget, ?_⟩
      intro u
      have hnd := hlist.nodup
      have hu : u ∈ a ++ target :: b ↔
          u ≠ source ∧ (u = target ∨ u ∈ a ++ source :: b) := by grind
      rw [hu, heapIndex_moveTimer, hmem]
      split_ifs with hsource ht
      · simp [hsource]
      · simp [ht, hne, (hmem source).mp hin]
      · simp [hsource, ht]
    · refine ⟨active, represents_replace_of_not_mem hlist hin htarget, ?_⟩
      intro u
      have hsourceNone : s.heapIndex source = none := by
        rw [hmem, Option.not_isSome_iff_eq_none] at hin
        exact hin
      rw [heapIndex_moveTimer]
      split_ifs with hsource ht
      · simp [hsource, hin]
      · simp [ht, htarget, hsourceNone]
      · exact hmem u
  · intro u
    rw [heapIndex_moveTimer, hqueue]
    split_ifs with hsource ht
    · simp
    · exact h.waits source
    · exact h.waits u

end

/-! ## `get_all_timers` -/

/-- Nothing is left. -/
structure Drained (s : State ι τ) : Prop where
  links : s.links = {}
  heap : s.heap = []
  queues : ∀ u, s.opQueue u = []

theorem getAllLoop_spec (n : ℕ) (ops : List WaitOp) {us : List ι} (hlist : Follows s.links us)
    (hn : us.length ≤ n) (hothers : ∀ u, u ∉ us → s.opQueue u = []) :
    (getAllLoop n ops s).1 = ops ++ us.flatMap s.opQueue ∧
      (getAllLoop n ops s).2.links = {} ∧ ∀ u, (getAllLoop n ops s).2.opQueue u = [] := by
  induction n generalizing s ops us with
  | zero =>
    obtain rfl := List.length_eq_zero_iff.mp (Nat.le_zero.mp hn)
    exact ⟨(List.append_nil ops).symm, hlist.eq_empty, fun u => hothers u List.not_mem_nil⟩
  | succ n ih =>
    unfold getAllLoop
    rw [hlist.head]
    cases us with
    | nil =>
      exact ⟨(List.append_nil ops).symm, hlist.eq_empty, fun u => hothers u List.not_mem_nil⟩
    | cons timer us =>
      have hnot := (List.nodup_cons.mp hlist.nodup).1
      have hqueue : ∀ u, (setOpQueue timer [] s).opQueue u =
          if u = timer then [] else s.opQueue u := fun _ => Function.update_apply ..
      obtain ⟨hops, hlinks, hempty⟩ := ih
        (s := { setOpQueue timer [] s with links := takeFirst timer s.links })
        (ops ++ s.opQueue timer) (follows_takeFirst hlist) (Nat.le_of_succ_le_succ hn) (by
          intro u hu
          show (setOpQueue timer [] s).opQueue u = []
          rw [hqueue]
          split_ifs with ht
          · rfl
          · exact hothers u (List.not_mem_cons_of_ne_of_not_mem ht hu))
      refine ⟨?_, hlinks, hempty⟩
      rw [List.head?_cons]
      dsimp only
      rw [hops, List.flatMap_cons, List.append_assoc]
      congr 2
      apply List.flatMap_congr
      intro u hu
      show (setOpQueue timer [] s).opQueue u = s.opQueue u
      rw [hqueue, if_neg]
      rintro rfl
      exact hnot hu

/-- **Emptying.** All waits on all timers come out, each once, and nothing is left. -/
theorem getAllTimers_spec [LinearOrder τ] (ops : List WaitOp) (h : Valid s) :
    ∃ us : List ι, us.Nodup ∧ (∀ u, u ∈ us ↔ s.opQueue u ≠ []) ∧
      (getAllTimers ops s).1 = ops ++ us.flatMap s.opQueue ∧ Drained (getAllTimers ops s).2 := by
  obtain ⟨active, hlist, hmem⟩ := h.linked
  have hwaits : ∀ u, u ∈ active ↔ s.opQueue u ≠ [] := fun u => (hmem u).trans (h.waits u)
  have hlength : active.length ≤ s.heap.length := by
    have hsub : active ⊆ s.heap.map HeapEntry.timer := by
      intro u hu
      obtain ⟨x, hx⟩ := (isSome_heapIndex_iff h.placed).mp ((hmem u).mp hu)
      exact List.mem_map_of_mem ((expiry_eq_some_iff h.placed).mp hx)
    have hle := (List.subperm_of_subset hlist.nodup hsub).length_le
    rwa [List.length_map] at hle
  obtain ⟨hops, hlinks, hempty⟩ := getAllLoop_spec s.heap.length ops hlist.follows hlength (by
    intro u hu
    rwa [hwaits, not_not] at hu)
  exact ⟨active, hlist.nodup, hwaits, hops, hlinks, rfl, hempty⟩

end AsioLearn.Detail.TimerQueue
