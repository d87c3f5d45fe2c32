import AsioLearn.Detail.TimerQueue

/-!
# What the operations of `timer_queue` do

Each operation keeps heap, indices, list and queues in agreement with each other, and changes the
expiries and operations of no timer but its own.

* `valid_enqueueTimer`, `valid_cancelTimer` and so on: the invariant.
* `getReadyTimers_spec`: the waits that are over come out in the order of their expiry.
* `earliest_enqueueTimer`: when the reactor has to be told of a new wait.
-/

namespace AsioLearn.Detail.TimerQueue

open BinaryHeap LinkedList

variable {ι τ : Type*} [LinearOrder τ]

theorem Valid.isSome_expiry_iff {s : State ι τ} (h : Valid s) {timer : ι} :
    (∃ x, expiry s timer = some x) ↔ s.opQueue timer ≠ [] := by
  rw [← isSome_heapIndex_iff h.placed, h.waits]

/-- An empty queue. -/
theorem valid_empty : Valid ({} : State ι τ) := by
  refine ⟨⟨Ordered.nil, ?_, [], represents_nil, by simp⟩, by simp⟩
  intro timer i
  simp

/-- No wait is over before the first entry's time. -/
theorem earliest_le {s : State ι τ} (h : Valid s) {first x : τ} (hfirst : earliest s = some first)
    {u : ι} (hx : expiry s u = some x) : first ≤ x := by
  obtain ⟨entry, hhead, rfl⟩ := Option.map_eq_some_iff.mp hfirst
  obtain ⟨i, hi⟩ := List.mem_iff_getElem?.mp ((expiry_eq_some_iff h.placed).mp hx)
  rw [List.head?_eq_getElem?] at hhead
  exact h.ordered.front_le i entry _ hhead hi

theorem exists_earliest {s : State ι τ} (h : Valid s) {u : ι} {x : τ} (hx : expiry s u = some x) :
    ∃ entry, s.heap[0]? = some entry ∧ earliest s = some entry.time ∧
      expiry s entry.timer = some entry.time := by
  have hmem := (expiry_eq_some_iff h.placed).mp hx
  cases hheap : s.heap with
  | nil => exact absurd hmem (by simp [hheap])
  | cons entry rest =>
    refine ⟨entry, rfl, by simp [earliest, hheap], ?_⟩
    rw [expiry_eq_some_iff h.placed, hheap]
    exact List.mem_cons_self

variable [DecidableEq ι]

section

/-! ## Sifting -/

theorem heap_upHeap (s : State ι τ) (i : ℕ) :
    (upHeap s i).heap = BinaryHeap.upHeap HeapEntry.time s.heap i := by
  fun_induction upHeap s i with
  | case1 s i hi hb _ ih =>
    rw [ih, heap_swapHeap]
    conv_rhs => rw [BinaryHeap.upHeap, dif_pos hi, if_pos hb]
  | case2 s i hi hb => rw [BinaryHeap.upHeap, dif_pos hi, if_neg hb]
  | case3 s i hi => rw [BinaryHeap.upHeap, dif_neg hi]

theorem heap_downHeap (s : State ι τ) (i : ℕ) :
    (downHeap s i).heap = BinaryHeap.downHeap HeapEntry.time s.heap i := by
  fun_induction downHeap s i with
  | case1 s i hlen child hb => rw [BinaryHeap.downHeap, dif_pos hlen, if_pos hb]
  | case2 s i hlen child hb _ ih =>
    rw [ih, heap_swapHeap]
    conv_rhs => rw [BinaryHeap.downHeap, dif_pos hlen, if_neg hb]
  | case3 s i hlen => rw [BinaryHeap.downHeap, dif_neg hlen]

theorem sifted_upHeap (s : State ι τ) (i : ℕ) : Sifted s (upHeap s i) := by
  fun_induction upHeap s i with
  | case1 s i _ _ _ ih => exact (sifted_swapHeap i _ s).trans ih
  | case2 => exact Sifted.refl _
  | case3 => exact Sifted.refl _

theorem sifted_downHeap (s : State ι τ) (i : ℕ) : Sifted s (downHeap s i) := by
  fun_induction downHeap s i with
  | case1 => exact Sifted.refl _
  | case2 s i _ _ _ _ ih => exact (sifted_swapHeap i _ s).trans ih
  | case3 => exact Sifted.refl _

theorem heap_siftHeap (s : State ι τ) (i : ℕ) :
    (siftHeap s i).heap = sift HeapEntry.time s.heap i := by
  unfold siftHeap sift
  split_ifs
  · exact heap_upHeap s i
  · exact heap_downHeap s i

theorem sifted_siftHeap (s : State ι τ) (i : ℕ) : Sifted s (siftHeap s i) := by
  unfold siftHeap
  split_ifs
  · exact sifted_upHeap s i
  · exact sifted_downHeap s i

end

/-! ## Removing -/

section

variable {s : State ι τ} {timer : ι} {i : ℕ} {entry : HeapEntry ι τ}

theorem heap_removeTimer (hindex : s.heapIndex timer = some i) (hi : i < s.heap.length) :
    (removeTimer timer s).heap = removeAt HeapEntry.time s.heap i := by
  show (removeFromHeap timer s).heap = _
  unfold removeFromHeap removeAt
  simp only [hindex, if_pos hi]
  split_ifs with hlast
  · rfl
  · rw [heap_siftHeap]
    show sift _ (swapHeap i _ s).heap.dropLast i = _
    rw [heap_swapHeap]

theorem links_removeFromHeap (timer : ι) (s : State ι τ) :
    (removeFromHeap timer s).links = s.links := by
  unfold removeFromHeap
  split
  · rfl
  · split_ifs
    · rfl
    · exact (sifted_siftHeap _ _).links.trans (sifted_swapHeap _ _ s).links
    · rfl

theorem opQueue_removeTimer (timer : ι) (s : State ι τ) :
    (removeTimer timer s).opQueue = s.opQueue := by
  show (removeFromHeap timer s).opQueue = _
  unfold removeFromHeap
  split
  · rfl
  · split_ifs
    · rfl
    · exact (sifted_siftHeap _ _).opQueue.trans (sifted_swapHeap _ _ s).opQueue
    · rfl

theorem links_removeTimer (timer : ι) (s : State ι τ) :
    (removeTimer timer s).links = remove timer s.links :=
  congrArg (remove timer) (links_removeFromHeap timer s)

theorem placed_removeTimer (hp : Placed s) (he : s.heap[i]? = some entry) :
    Placed (removeTimer entry.timer s) := by
  have hi := lt_length_of_getElem? he
  show Placed (removeFromHeap entry.timer s)
  unfold removeFromHeap
  simp only [hp.heapIndex he, if_pos hi]
  split_ifs with hlast
  · rw [hlast] at he
    exact hp.popHeap he
  · obtain ⟨last, hl⟩ : ∃ last, s.heap[s.heap.length - 1]? = some last :=
      ⟨_, List.getElem?_eq_getElem (by omega)⟩
    have hat := getElem?_swap he hl (s.heap.length - 1)
    rw [if_pos rfl] at hat
    apply (sifted_siftHeap _ _).placed
    apply ((sifted_swapHeap i (s.heap.length - 1) s).placed hp).popHeap
    rw [heap_swapHeap, length_swap]
    exact hat

/-- The other entries stay. -/
theorem mem_heap_removeTimer (hp : Placed s) (he : s.heap[i]? = some entry)
    (entry' : HeapEntry ι τ) : entry' ∈ (removeTimer entry.timer s).heap ↔
      entry' ∈ s.heap ∧ entry'.timer ≠ entry.timer := by
  have hi := lt_length_of_getElem? he
  have hperm : (entry :: removeAt HeapEntry.time s.heap i).Perm s.heap := perm_removeAt he
  rw [heap_removeTimer (hp.heapIndex he) hi]
  have hnodup : (s.heap.map HeapEntry.timer).Nodup := by
    rw [List.nodup_iff_getElem?_ne_getElem?]
    intro a b hab hb heq
    rw [List.length_map] at hb
    rw [List.getElem?_map, List.getElem?_map, List.getElem?_eq_getElem (by omega),
      List.getElem?_eq_getElem hb] at heq
    have := hp.index_unique (List.getElem?_eq_getElem (by omega)) (List.getElem?_eq_getElem hb)
      (Option.some.inj heq)
    omega
  have hcons := (hperm.map HeapEntry.timer).nodup_iff.mpr hnodup
  rw [List.map_cons, List.nodup_cons] at hcons
  constructor
  · intro hmem
    refine ⟨hperm.mem_iff.mp (List.mem_cons_of_mem _ hmem), ?_⟩
    intro heq
    exact hcons.1 (heq ▸ List.mem_map_of_mem hmem)
  · rintro ⟨hmem, hne⟩
    rcases List.mem_cons.mp (hperm.mem_iff.mpr hmem) with rfl | hrest
    · exact absurd rfl hne
    · exact hrest

theorem expiry_removeTimer (h : Tracked s) (he : s.heap[i]? = some entry) (u : ι) :
    expiry (removeTimer entry.timer s) u = if u = entry.timer then none else expiry s u := by
  have hmem := mem_heap_removeTimer h.placed he
  have hp := placed_removeTimer h.placed he
  split_ifs with hu
  · rw [Option.eq_none_iff_forall_ne_some]
    intro x hx
    exact ((hmem _).mp ((expiry_eq_some_iff hp).mp hx)).2 hu
  · apply expiry_congr h.placed hp
    intro x
    rw [hmem]
    exact and_iff_left hu

theorem tracked_removeTimer (h : Tracked s) (he : s.heap[i]? = some entry) :
    Tracked (removeTimer entry.timer s) := by
  have hp := placed_removeTimer h.placed he
  refine ⟨?_, hp, ?_⟩
  · rw [heap_removeTimer (h.placed.heapIndex he) (lt_length_of_getElem? he)]
    exact h.ordered.removeAt (lt_length_of_getElem? he)
  · obtain ⟨active, hlist, hmem⟩ := h.linked
    have hin : entry.timer ∈ active := by
      rw [hmem, h.placed.heapIndex he]
      rfl
    obtain ⟨a, b, rfl⟩ := List.append_of_mem hin
    refine ⟨a ++ b, ?_, ?_⟩
    · rw [links_removeTimer]
      exact represents_remove hlist
    · intro u
      have hnd := hlist.nodup
      have hu : u ∈ a ++ b ↔ u ∈ a ++ entry.timer :: b ∧ u ≠ entry.timer := by grind
      rw [hu, hmem, isSome_heapIndex_iff hp, isSome_heapIndex_iff h.placed, expiry_removeTimer h he]
      split_ifs with hut
      · simp [hut]
      · simp [hut]

end

/-! ## Operations -/

section

variable {s : State ι τ} {timer : ι}

theorem Valid.isActive_iff (h : Valid s) : isActive timer s = true ↔ s.opQueue timer ≠ [] := by
  rw [h.toTracked.isActive_iff, h.waits]

theorem opQueue_leave (timer : ι) (ops : List WaitOp) (s : State ι τ) (u : ι) :
    (leave timer ops s).opQueue u = if u = timer then ops else s.opQueue u := by
  unfold leave
  split_ifs with hempty hu hu
  · rw [opQueue_removeTimer, hu]
    exact Function.update_self ..
  · rw [opQueue_removeTimer]
    exact Function.update_of_ne hu ..
  · rw [hu]
    exact Function.update_self ..
  · exact Function.update_of_ne hu ..

theorem leave_spec (h : Valid s) (hactive : s.opQueue timer ≠ []) (ops : List WaitOp) :
    Valid (leave timer ops s) ∧ ∀ u, expiry (leave timer ops s) u =
      if u = timer ∧ ops = [] then none else expiry s u := by
  obtain ⟨i, hi⟩ := Option.isSome_iff_exists.mp ((h.waits timer).mpr hactive)
  obtain ⟨entry, he, rfl⟩ := (h.placed _ _).mp hi
  have htracked : Tracked (setOpQueue entry.timer ops s) := ⟨h.ordered, h.placed, h.linked⟩
  have hqueue := opQueue_leave entry.timer ops s
  cases ops with
  | nil =>
    have hexp : ∀ u, expiry (leave entry.timer [] s) u =
        if u = entry.timer then none else expiry s u := expiry_removeTimer htracked he
    have hleft : Tracked (leave entry.timer [] s) := tracked_removeTimer htracked he
    refine ⟨⟨hleft, ?_⟩, ?_⟩
    · intro u
      rw [hqueue, isSome_heapIndex_iff hleft.placed, hexp]
      split_ifs with hu
      · simp
      · exact h.isSome_expiry_iff
    · intro u
      rw [hexp]
      simp only [and_true]
  | cons op ops =>
    refine ⟨⟨htracked, ?_⟩, ?_⟩
    · intro u
      rw [hqueue]
      split_ifs with hu
      · rw [hu]
        show (s.heapIndex entry.timer).isSome = true ↔ _
        simp [hi]
      · exact h.waits u
    · intro u
      rw [if_neg (by simp)]
      rfl

/-- A timer that is not active has no operations. -/
theorem opQueue_of_not_active (h : Valid s) (hno : ¬ isActive timer s = true) :
    s.opQueue timer = [] ∧ expiry s timer = none := by
  have hempty : s.opQueue timer = [] := by
    by_contra hne
    exact hno (h.isActive_iff.mpr hne)
  refine ⟨hempty, ?_⟩
  by_contra hne
  obtain ⟨x, hx⟩ := Option.ne_none_iff_exists'.mp hne
  exact h.isSome_expiry_iff.mp ⟨x, hx⟩ hempty

/-- The waits of one timer are changed to `left`, and its expiry goes with the last one. -/
structure Leaves (timer : ι) (left : List WaitOp) (s s' : State ι τ) : Prop where
  valid : Valid s'
  queues : ∀ u, s'.opQueue u = if u = timer then left else s.opQueue u
  expiries : ∀ u, expiry s' u = if u = timer ∧ left = [] then none else expiry s u

theorem Leaves.of_empty (h : Valid s) (hno : ¬ isActive timer s = true) : Leaves timer [] s s := by
  obtain ⟨hempty, hnone⟩ := opQueue_of_not_active h hno
  refine ⟨h, ?_, ?_⟩
  · intro u
    split_ifs with hu
    · rw [hu, hempty]
    · rfl
  · intro u
    split_ifs with hu
    · rw [hu.1, hnone]
    · rfl

/-- `cancel_timer` aborts the first operations of the timer. -/
theorem cancelTimer_spec (h : Valid s) (timer : ι) (ops : List WaitOp) (maxCancelled : Option ℕ) :
    let n := numCancelled timer maxCancelled s
    (cancelTimer timer ops maxCancelled s).1 = n ∧
      (cancelTimer timer ops maxCancelled s).2.1 =
        ops ++ ((s.opQueue timer).take n).map WaitOp.aborted ∧
      Leaves timer ((s.opQueue timer).drop n) s (cancelTimer timer ops maxCancelled s).2.2 := by
  intro n
  unfold cancelTimer
  split_ifs with hactive
  · obtain ⟨hvalid, hexp⟩ := leave_spec h (h.isActive_iff.mp hactive) ((s.opQueue timer).drop n)
    exact ⟨rfl, rfl, hvalid, opQueue_leave _ _ _, hexp⟩
  · have hempty := (opQueue_of_not_active h hactive).1
    have hn : n = 0 := by simp [n, numCancelled, hempty]
    rw [hn, hempty]
    exact ⟨rfl, (List.append_nil ops).symm, Leaves.of_empty h hactive⟩

/-- `cancel_timer_by_key` aborts those with the key. -/
theorem cancelTimerByKey_spec (h : Valid s) (timer : ι) (ops : List WaitOp) (key : ℕ) :
    (cancelTimerByKey timer ops key s).1 =
        ops ++ ((s.opQueue timer).filter fun op => op.cancellationKey == key).map WaitOp.aborted ∧
      Leaves timer ((s.opQueue timer).filter fun op => !(op.cancellationKey == key)) s
        (cancelTimerByKey timer ops key s).2 := by
  unfold cancelTimerByKey
  rw [List.partition_eq_filter_filter]
  split_ifs with hactive
  · obtain ⟨hvalid, hexp⟩ := leave_spec h (h.isActive_iff.mp hactive)
      ((s.opQueue timer).filter fun op => !(op.cancellationKey == key))
    exact ⟨rfl, hvalid, opQueue_leave _ _ _, hexp⟩
  · rw [(opQueue_of_not_active h hactive).1]
    exact ⟨(List.append_nil ops).symm, Leaves.of_empty h hactive⟩

/-! ### `enqueue_timer` -/

variable (time : τ) (timer : ι) (op : WaitOp)

theorem opQueue_enqueueTimer (s : State ι τ) (u : ι) : (enqueueTimer time timer op s).2.opQueue u =
    if u = timer then s.opQueue timer ++ [op] else s.opQueue u := by
  have hframe : (upHeap (pushHeap time timer s) s.heap.length).opQueue = s.opQueue :=
    (sifted_upHeap _ _).opQueue
  unfold enqueueTimer
  dsimp only [setOpQueue]
  rw [Function.update_apply]
  split_ifs
  · rfl
  · rw [hframe]
  · rfl
  · rw [hframe]

/-- A timer without waits is given an entry. -/
theorem expiry_upHeap_pushHeap (h : Valid s) (hno : ¬ isActive timer s = true) (u : ι) :
    expiry (upHeap (pushHeap time timer s) s.heap.length) u =
      if u = timer then some time else expiry s u := by
  have hnone : s.heapIndex timer = none := by
    rw [h.toTracked.isActive_iff, Option.isSome_iff_ne_none, not_not] at hno
    exact hno
  have hp : Placed (upHeap (pushHeap time timer s) s.heap.length) :=
    (sifted_upHeap _ _).placed (h.placed.pushHeap hnone)
  have hperm : (upHeap (pushHeap time timer s) s.heap.length).heap.Perm
      (s.heap ++ [⟨time, timer⟩]) := by
    rw [heap_upHeap]
    exact perm_upHeap _ _
  split_ifs with hu
  · rw [hu, expiry_eq_some_iff hp, hperm.mem_iff]
    simp
  · apply expiry_congr h.placed hp
    intro x
    rw [hperm.mem_iff]
    simp [hu]

theorem expiry_enqueueTimer (h : Valid s) (u : ι) : expiry (enqueueTimer time timer op s).2 u =
    if u = timer then some ((expiry s timer).getD time) else expiry s u := by
  by_cases hactive : isActive timer s = true
  · have hsame : expiry (enqueueTimer time timer op s).2 u = expiry s u := by
      unfold enqueueTimer
      rw [if_pos hactive]
      rfl
    obtain ⟨x, hx⟩ := h.isSome_expiry_iff.mpr (h.isActive_iff.mp hactive)
    rw [hsame, hx]
    split_ifs with hu
    · rw [hu, hx]
      rfl
    · rfl
  · have hsame : expiry (enqueueTimer time timer op s).2 u =
        expiry (upHeap (pushHeap time timer s) s.heap.length) u := by
      unfold enqueueTimer
      rw [if_neg hactive]
      rfl
    rw [hsame, expiry_upHeap_pushHeap time timer h hactive, (opQueue_of_not_active h hactive).2]
    rfl

theorem valid_enqueueTimer (h : Valid s) : Valid (enqueueTimer time timer op s).2 := by
  have hqueue := opQueue_enqueueTimer time timer op s
  have hexp := expiry_enqueueTimer time timer op h
  have htracked : Tracked (enqueueTimer time timer op s).2 := by
    by_cases hactive : isActive timer s = true
    · have hsame : (enqueueTimer time timer op s).2 =
          setOpQueue timer (s.opQueue timer ++ [op]) s := by
        unfold enqueueTimer
        rw [if_pos hactive]
      rw [hsame]
      exact ⟨h.ordered, h.placed, h.linked⟩
    · have hnone : s.heapIndex timer = none := by
        have hno := hactive
        rw [h.toTracked.isActive_iff, Option.isSome_iff_ne_none, not_not] at hno
        exact hno
      have hp : Placed (upHeap (pushHeap time timer s) s.heap.length) :=
        (sifted_upHeap _ _).placed (h.placed.pushHeap hnone)
      have ho : Ordered HeapEntry.time (upHeap (pushHeap time timer s) s.heap.length).heap := by
        rw [heap_upHeap]
        exact h.ordered.push _
      obtain ⟨active, hlist, hmem⟩ := h.linked
      have hout : timer ∉ active := by simp [hmem, hnone]
      have hsame : (enqueueTimer time timer op s).2 = setOpQueue timer (s.opQueue timer ++ [op])
          { upHeap (pushHeap time timer s) s.heap.length with
            links := pushFront timer s.links } := by
        have hframe := sifted_upHeap (pushHeap time timer s) s.heap.length
        unfold enqueueTimer
        rw [if_neg hactive]
        dsimp only
        rw [hframe.links, hframe.opQueue]
        rfl
      rw [hsame]
      refine ⟨ho, hp, timer :: active, represents_pushFront hlist hout, ?_⟩
      intro u
      show _ ↔ ((upHeap (pushHeap time timer s) s.heap.length).heapIndex u).isSome = true
      rw [isSome_heapIndex_iff hp, expiry_upHeap_pushHeap time timer h hactive, List.mem_cons, hmem,
        isSome_heapIndex_iff h.placed]
      split_ifs with hu
      · simp [hu]
      · simp [hu]
  refine ⟨htracked, ?_⟩
  intro u
  rw [isSome_heapIndex_iff htracked.placed, hexp, hqueue]
  split_ifs with hu
  · simp
  · exact h.isSome_expiry_iff

/-- A wait whose start `enqueue_timer` does not report as the earliest leaves the time until which
the reactor may sleep as it was. -/
theorem earliest_enqueueTimer (h : Valid s) (hno : (enqueueTimer time timer op s).1 = false) :
    earliest (enqueueTimer time timer op s).2 = earliest s := by
  have hvalid := valid_enqueueTimer time timer op h
  have hexp := expiry_enqueueTimer time timer op h
  by_cases hactive : isActive timer s = true
  · unfold enqueueTimer
    rw [if_pos hactive]
    rfl
  · obtain ⟨hempty, hnone⟩ := opQueue_of_not_active h hactive
    rw [hnone] at hexp
    -- the timer has an entry, and it is not the first one
    have hfront : (enqueueTimer time timer op s).2.heapIndex timer ≠ some 0 := by
      intro hzero
      have hhead : (enqueueTimer time timer op s).2.opQueue timer = [op] := by
        rw [opQueue_enqueueTimer, if_pos rfl, hempty]
        rfl
      have htrue : (enqueueTimer time timer op s).1 =
          ((enqueueTimer time timer op s).2.heapIndex timer == some 0 &&
            ((enqueueTimer time timer op s).2.opQueue timer).head? == some op) := rfl
      rw [htrue, hzero, hhead] at hno
      simp at hno
    have hself : expiry (enqueueTimer time timer op s).2 timer = some time := by
      rw [hexp, if_pos rfl]
      rfl
    obtain ⟨entry, hat, hfirst, hentry⟩ := exists_earliest hvalid hself
    have hne : entry.timer ≠ timer := by
      intro heq
      have hzero := hvalid.placed.heapIndex hat
      rw [heq] at hzero
      exact hfront hzero
    rw [hexp, if_neg hne] at hentry
    obtain ⟨entry', -, hfirst', hentry'⟩ := exists_earliest h hentry
    have hne' : entry'.timer ≠ timer := by
      intro heq
      rw [heq, hnone] at hentry'
      exact absurd hentry' (by simp)
    have hstill : expiry (enqueueTimer time timer op s).2 entry'.timer = some entry'.time := by
      rw [hexp, if_neg hne']
      exact hentry'
    rw [hfirst, hfirst',
      le_antisymm (earliest_le hvalid hfirst hstill) (earliest_le h hfirst' hentry)]

/-! ### `get_ready_timers` -/

/-- The timers `us` have been dequeued with all their waits: those that are over at `now`, in the
order of their expiry. -/
structure Dequeued (now : τ) (us : List ι) (s s' : State ι τ) : Prop where
  valid : Valid s'
  nodup : us.Nodup
  ready : ∀ u, u ∈ us ↔ ∃ x, expiry s u = some x ∧ x ≤ now
  sorted : us.Pairwise fun u v => ∀ x y, expiry s u = some x → expiry s v = some y → x ≤ y
  queues : ∀ u, s'.opQueue u = if u ∈ us then [] else s.opQueue u
  expiries : ∀ u, expiry s' u = if u ∈ us then none else expiry s u

/-- With nothing over at `now` nothing is dequeued. -/
theorem Dequeued.nil (h : Valid s) {now : τ} (hlater : ∀ u x, expiry s u = some x → now < x) :
    Dequeued now [] s s where
  valid := h
  nodup := List.nodup_nil
  ready := by
    intro u
    constructor
    · intro hu
      exact absurd hu List.not_mem_nil
    · rintro ⟨x, hx, hle⟩
      exact absurd (hlater u x hx) (not_lt_of_ge hle)
  sorted := List.Pairwise.nil
  queues := fun u => (if_neg List.not_mem_nil).symm
  expiries := fun u => (if_neg List.not_mem_nil).symm

theorem getReadyLoop_spec (now : τ) (n : ℕ) (ops : List WaitOp) (h : Valid s)
    (hn : s.heap.length ≤ n) :
    ∃ us, Dequeued now us s (getReadyLoop now n ops s).2 ∧ (getReadyLoop now n ops s).1 =
      ops ++ us.flatMap fun u => (s.opQueue u).map WaitOp.expired := by
  induction n generalizing s ops with
  | zero =>
    refine ⟨[], Dequeued.nil h ?_, (List.append_nil ops).symm⟩
    intro u x hx
    have hmem := (expiry_eq_some_iff h.placed).mp hx
    rw [List.length_eq_zero_iff.mp (Nat.le_zero.mp hn)] at hmem
    exact absurd hmem List.not_mem_nil
  | succ n ih =>
    unfold getReadyLoop
    cases hheap : s.heap with
    | nil =>
      refine ⟨[], Dequeued.nil h ?_, (List.append_nil ops).symm⟩
      intro u x hx
      have hmem := (expiry_eq_some_iff h.placed).mp hx
      rw [hheap] at hmem
      exact absurd hmem List.not_mem_nil
    | cons entry rest =>
      have hat : s.heap[0]? = some entry := by rw [hheap]; rfl
      have hfirst : earliest s = some entry.time := by simp [earliest, hheap]
      have hentry : expiry s entry.timer = some entry.time := by
        rw [expiry_eq_some_iff h.placed]
        exact List.mem_of_getElem? hat
      dsimp only
      split_ifs with hlater
      · refine ⟨[], Dequeued.nil h ?_, (List.append_nil ops).symm⟩
        intro u x hx
        exact lt_of_lt_of_le hlater (earliest_le h hfirst hx)
      · have hqueue := h.isSome_expiry_iff.mp ⟨_, hentry⟩
        obtain ⟨hvalid, hexp⟩ := leave_spec h hqueue []
        have hops := opQueue_leave entry.timer [] s
        have hleave : leave entry.timer [] s =
            removeTimer entry.timer (setOpQueue entry.timer [] s) := rfl
        rw [hleave] at hvalid hexp hops
        simp only [and_true] at hexp
        have hlength : (removeTimer entry.timer (setOpQueue entry.timer [] s)).heap.length ≤ n := by
          have hheap' : (removeTimer entry.timer (setOpQueue entry.timer [] s)).heap =
              removeAt HeapEntry.time s.heap 0 :=
            heap_removeTimer (s := setOpQueue entry.timer [] s) (h.placed.heapIndex hat)
              (lt_length_of_getElem? hat)
          have hperm : (entry :: removeAt HeapEntry.time s.heap 0).Perm s.heap := perm_removeAt hat
          have hlen := hperm.length_eq
          rw [List.length_cons] at hlen
          rw [hheap']
          omega
        obtain ⟨us, hus, hout⟩ := ih
          (ops ++ (s.opQueue entry.timer).map WaitOp.expired) hvalid hlength
        have hnot : entry.timer ∉ us := by
          intro hmem
          obtain ⟨x, hx, -⟩ := (hus.ready _).mp hmem
          rw [hexp, if_pos rfl] at hx
          exact absurd hx (by simp)
        have hother : ∀ u ∈ us, u ≠ entry.timer := fun u hu heq => hnot (heq ▸ hu)
        refine ⟨entry.timer :: us, ⟨hus.valid, List.nodup_cons.mpr ⟨hnot, hus.nodup⟩, ?_, ?_, ?_, ?_⟩,
          ?_⟩
        · intro u
          rw [List.mem_cons, hus.ready, hexp]
          split_ifs with hu
          · simp only [hu, hentry, true_or, true_iff, Option.some.injEq, exists_eq_left']
            exact le_of_not_gt hlater
          · simp only [hu, false_or]
        · refine List.pairwise_cons.mpr ⟨?_, ?_⟩
          · intro v _ x y hx hy
            rw [Option.some.inj (hx.symm.trans hentry)]
            exact earliest_le h hfirst hy
          · refine hus.sorted.imp_of_mem ?_
            intro u v hu hv huv x y hx hy
            apply huv x y
            · rw [hexp, if_neg (hother u hu), hx]
            · rw [hexp, if_neg (hother v hv), hy]
        · intro u
          rw [hus.queues, hops]
          by_cases hu : u = entry.timer <;> simp [hu, hnot]
        · intro u
          rw [hus.expiries, hexp]
          by_cases hu : u = entry.timer <;> simp [hu, hnot]
        · rw [hout, List.flatMap_cons, List.append_assoc]
          congr 2
          apply List.flatMap_congr
          intro u hu
          rw [hops, if_neg (hother u hu)]

/-- **Expiry.** `get_ready_timers` dequeues all waits on the timers that are over, timer by timer in
the order of their expiry, and no other. -/
theorem getReadyTimers_spec (now : τ) (ops : List WaitOp) (h : Valid s) :
    ∃ us, Dequeued now us s (getReadyTimers now ops s).2 ∧ (getReadyTimers now ops s).1 =
      ops ++ us.flatMap fun u => (s.opQueue u).map WaitOp.expired :=
  getReadyLoop_spec now _ ops h (Nat.le_refl _)

end

end AsioLearn.Detail.TimerQueue
