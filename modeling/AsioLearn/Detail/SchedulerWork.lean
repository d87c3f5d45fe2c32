import AsioLearn.Detail.SchedulerTask

/-!
# The work of the scheduler

* `once_in_order`: every operation is completed at most once, and as long as it is not it is in one
  place; operations are taken from the queue in the order in which they were pushed.
* `Counted`: the count of outstanding work, and what the threads have counted on their own, is the
  number of operations that are not done and of work guards.
-/

namespace AsioLearn.Detail.Scheduler

open Lts

/-! ## Where the operations are -/

def Item.op? : Item → Option Op
  | .task => none
  | .op o => some o

/-- What the thread is about to push to the queue. -/
def Thread.pushing (th : Thread) : List Op :=
  match th.call with
  | .push ops => ops
  | _ => []

/-- The operations that the thread has not yet pushed to the queue. -/
def Thread.holds (th : Thread) : List ℕ := handlers th.privateQueue ++ handlers th.pushing

/-- The scheduler is to count off one piece of work after the function that the thread is in. -/
def Thread.unit (th : Thread) : ℕ :=
  match th.place with
  | .handler | .cleanup _ => 1
  | _ => 0

/-- What a thread has counted on its own, and where it may have a private queue. -/
def Thread.Lawful (th : Thread) : Prop :=
  match th.place with
  | .handler => th.privateWork ≤ (handlers th.privateQueue).length
  -- a descriptor that has completed nothing has counted one
  | .cleanup _ => th.privateWork ≤ (handlers th.privateQueue).length ∨
      th.privateWork = 1 ∧ th.privateQueue = []
  | .look | .taskDone | .leave => th.privateWork = 0
  | .outside | .blocked | .woken | .task _ | .descriptor =>
    th.privateWork = 0 ∧ th.privateQueue = []

variable {ι : Type*}

/-- The operations in the queue. -/
def ready (s : State ι) : List Op := s.opQueue.filterMap Item.op?

/-- The operations that are not with a thread. -/
def shared (s : State ι) : List ℕ := s.pending ++ handlers (ready s)

/-- The operations that have been completed. -/
def begun (s : State ι) : List ℕ := s.taken ++ s.inlined

def weigh (w : ℕ → ℤ) (ids : List ℕ) : ℤ := (ids.map w).sum

section

variable (w : ℕ → ℤ)

@[simp]
theorem weigh_nil : weigh w [] = 0 := rfl

@[simp]
theorem weigh_cons (id : ℕ) (ids : List ℕ) : weigh w (id :: ids) = w id + weigh w ids := rfl

@[simp]
theorem weigh_append (ids ids' : List ℕ) : weigh w (ids ++ ids') = weigh w ids + weigh w ids' := by
  unfold weigh
  rw [List.map_append, List.sum_append]

theorem weigh_perm {ids ids' : List ℕ} (h : ids.Perm ids') : weigh w ids = weigh w ids' :=
  (h.map w).sum_eq

theorem weigh_diff {ids pending : List ℕ} (h : ids.Subperm pending) :
    weigh w (pending.diff ids) + weigh w ids = weigh w pending := by
  have hperm := List.subperm_append_diff_self_of_count_le (List.subperm_ext_iff.mp h)
  rw [← weigh_perm w hperm, weigh_append, add_comm]

theorem weigh_range_add (n k : ℕ) :
    weigh w (List.range (n + k)) = weigh w (List.range n) + weigh w (List.range' n k) := by
  rw [← weigh_append, List.range_eq_range', List.range_eq_range', ← List.range'_append_1]
  simp

end

@[simp]
theorem handlers_nil : handlers [] = [] := rfl

@[simp]
theorem handlers_append (ops ops' : List Op) :
    handlers (ops ++ ops') = handlers ops ++ handlers ops' :=
  List.filterMap_append

@[simp]
theorem handlers_map (ids : List ℕ) : handlers (ids.map .handler) = ids := by
  unfold handlers
  rw [List.filterMap_map]
  exact List.filterMap_some

theorem length_diff {ids pending : List ℕ} (h : ids.Subperm pending) :
    (pending.diff ids).length + ids.length = pending.length := by
  have hperm := List.subperm_append_diff_self_of_count_le (List.subperm_ext_iff.mp h)
  have hlength := hperm.length_eq
  rw [List.length_append] at hlength
  omega

/-! ### What a step of a thread does to them -/

/-- Between two states, with the thread that moves: no operation is lost or doubled, the work is
counted, and the order in the queue is kept. -/
structure Balanced (s : State ι) (th : Thread) (r : State ι × Thread) : Prop where
  ops : ∀ w, weigh w (shared r.1) + weigh w r.2.holds + weigh w (begun r.1) +
      weigh w (List.range s.nextId) =
    weigh w (shared s) + weigh w th.holds + weigh w (begun s) + weigh w (List.range r.1.nextId)
  work : r.1.outstandingWork + r.2.privateWork +
      (s.guards + (shared s).length + th.holds.length + th.unit : ℕ) =
    s.outstandingWork + th.privateWork +
      (r.1.guards + (shared r.1).length + r.2.holds.length + r.2.unit : ℕ)
  order : s.pushed = s.taken ++ handlers (ready s) →
    r.1.pushed = r.1.taken ++ handlers (ready r.1)

section

variable {s s' : State ι} {th th' : Thread}

theorem Balanced.refl (s : State ι) (th : Thread) : Balanced s th (s, th) :=
  ⟨fun _ => rfl, rfl, id⟩

theorem Balanced.trans {r : State ι × Thread} (h : Balanced s th (s', th'))
    (h' : Balanced s' th' r) : Balanced s th r where
  ops := by
    intro w
    have h1 := h.ops w
    have h2 := h'.ops w
    dsimp only at h1
    omega
  work := by
    have h1 := h.work
    have h2 := h'.work
    dsimp only at h1
    omega
  order := fun hbefore => h'.order (h.order hbefore)

/-- Nothing is done to any operation. -/
theorem Balanced.same (hpending : s'.pending = s.pending) (hready : ready s' = ready s)
    (htaken : s'.taken = s.taken) (hinlined : s'.inlined = s.inlined)
    (hpushed : s'.pushed = s.pushed) (hnextId : s'.nextId = s.nextId)
    (hholds : th'.holds = th.holds)
    (hwork : s'.outstandingWork + th'.privateWork + (s.guards + th.unit : ℕ) =
      s.outstandingWork + th.privateWork + (s'.guards + th'.unit : ℕ)) :
    Balanced s th (s', th') := by
  have hshared : shared s' = shared s := by
    unfold shared
    rw [hpending, hready]
  refine ⟨?_, ?_, ?_⟩
  · intro w
    unfold begun
    rw [hshared, hholds, htaken, hinlined, hnextId]
  · rw [hshared, hholds]
    push_cast at hwork ⊢
    omega
  · rw [hpushed, htaken, hready]
    exact id

theorem ready_push (ops : List Op) (s : State ι) : ready (push ops s) = ready s ++ ops := by
  unfold ready push
  rw [List.filterMap_append, List.filterMap_map]
  congr 1
  exact List.filterMap_some

theorem ready_pushTask (s : State ι) : ready (pushTask s) = ready s := by
  unfold ready pushTask
  rw [List.filterMap_append]
  exact List.append_nil _

theorem balanced_push (ops : List Op) (s : State ι)
    (hholds : th.holds.Perm (handlers ops ++ th'.holds))
    (hprivate : th'.privateWork = th.privateWork) (hunit : th'.unit = th.unit) :
    Balanced s th (push ops s, th') := by
  have hshared : shared (push ops s) = shared s ++ handlers ops := by
    unfold shared
    rw [ready_push, handlers_append, ← List.append_assoc]
    rfl
  refine ⟨?_, ?_, ?_⟩
  · intro w
    rw [hshared, weigh_append, weigh_perm w hholds, weigh_append]
    show weigh w (shared s) + _ + _ + weigh w (begun s) + _ = _ + weigh w (List.range s.nextId)
    dsimp only
    omega
  · rw [hshared, hholds.length_eq, List.length_append, List.length_append, hprivate, hunit]
    show s.outstandingWork + _ + _ = _ + (s.guards + _ + _ + _ : ℕ)
    push_cast
    omega
  · intro hbefore
    show s.pushed ++ handlers ops = s.taken ++ handlers (ready (push ops s))
    rw [ready_push, handlers_append, hbefore, List.append_assoc]

theorem balanced_wakeOne (s : State ι) (th : Thread) (hidle : th.pushing = []) :
    Balanced s th ((wakeOneThreadAndUnlock s).1,
      { th with call := (wakeOneThreadAndUnlock s).2 }) := by
  have hpushing : ∀ call, (call = .signal ∨ call = .idle) →
      ({ th with call := call } : Thread).holds = th.holds := by
    rintro call (rfl | rfl) <;>
      · show handlers th.privateQueue ++ [] = handlers th.privateQueue ++ handlers th.pushing
        rw [hidle]
        rfl
  rw [wakeOneThreadAndUnlock_eq]
  split_ifs
  · exact .same rfl rfl rfl rfl rfl rfl (hpushing _ (Or.inl rfl)) rfl
  · exact .same rfl rfl rfl rfl rfl rfl (hpushing _ (Or.inr rfl)) rfl

theorem balanced_take {o : Op} {ops : List Item} (hqueue : s.opQueue = .op o :: ops)
    (hunit : th.unit = 0) : Balanced s th
      ({ s with opQueue := ops, taken := s.taken ++ handlers [o] }, { th with place := o.place }) := by
  have hready : handlers (ready s) =
      handlers [o] ++ handlers (ready { s with opQueue := ops, taken := s.taken ++ handlers [o] }) := by
    rw [← handlers_append]
    unfold ready
    rw [hqueue]
    rfl
  have hcount : (handlers [o]).length = Thread.unit { th with place := o.place } := by
    cases o <;> rfl
  refine ⟨?_, ?_, ?_⟩
  · intro w
    unfold shared begun
    rw [hready]
    simp only [weigh_append]
    show _ + weigh w th.holds + _ + _ = _
    omega
  · unfold shared
    rw [hready, hunit, ← hcount]
    simp only [List.length_append]
    show s.outstandingWork + th.privateWork + _ =
      _ + (s.guards + (s.pending.length + _) + th.holds.length + _ : ℕ)
    push_cast
    omega
  · intro hbefore
    refine hbefore.trans ?_
    rw [hready, ← List.append_assoc]

theorem balanced_doRunOne (hcall : th.call = .idle) (hunit : th.unit = 0) :
    Balanced s th (doRunOne s th) := by
  have hpushing : th.pushing = [] := by
    unfold Thread.pushing
    rw [hcall]
  have hran := doRunOne_cases s th
  generalize doRunOne s th = r at hran
  cases hran with
  | stopped hstopped => exact .same rfl rfl rfl rfl rfl rfl rfl (by rw [hunit]; rfl)
  | empty hstopped hqueue => exact .same rfl rfl rfl rfl rfl rfl rfl (by rw [hunit]; rfl)
  | task ops hstopped hqueue hlast =>
    refine .same rfl ?_ rfl rfl rfl rfl rfl (by rw [hunit]; rfl)
    unfold ready
    rw [hqueue]
    rfl
  | taskMore ops hstopped hqueue hmore hone =>
    refine .same rfl ?_ rfl rfl rfl rfl ?_ ?_
    · unfold ready
      rw [hqueue]
      rfl
    · unfold Thread.holds
      rw [hpushing]
      dsimp only [Thread.pushing]
      split_ifs <;> rfl
    · rw [hunit]
      rfl
  | op o ops hstopped hqueue hlast => exact balanced_take hqueue hunit
  | opMore o ops hstopped hqueue hmore hone =>
    exact (balanced_take hqueue hunit).trans
      (balanced_wakeOne _ { th with place := o.place } hpushing)

theorem exists_postDeferred (ids : List ℕ) (s : State ι) (th : Thread) (hcall : th.call = .idle) :
    ∃ th', postDeferred ids s th = (s, th') ∧ th'.holds.Perm (th.holds ++ ids) ∧
      th'.privateWork = th.privateWork ∧ th'.place = th.place := by
  have hpushing : th.pushing = [] := by
    unfold Thread.pushing
    rw [hcall]
  unfold postDeferred
  split_ifs with hempty
  · refine ⟨th, rfl, ?_, rfl, rfl⟩
    rw [List.isEmpty_iff.mp hempty, List.append_nil]
  · refine ⟨_, rfl, ?_, rfl, rfl⟩
    show (handlers (th.privateQueue ++ ids.map .handler) ++ handlers th.pushing).Perm
      (handlers th.privateQueue ++ handlers th.pushing ++ ids)
    rw [hpushing]
    simp
  · refine ⟨_, rfl, ?_, rfl, rfl⟩
    unfold Thread.holds
    rw [hpushing, handlers_nil, List.append_nil]
    show (handlers th.privateQueue ++ handlers (ids.map .handler)).Perm _
    rw [handlers_map]

theorem pushing_idle (hcall : th.call = .idle) : th.pushing = [] := by
  unfold Thread.pushing
  rw [hcall]

/-- Operations of the reactor are handed to the thread. -/
theorem balanced_handOver {ids : List ℕ} (hids : ids.Subperm s.pending)
    (hholds : th'.holds.Perm (th.holds ++ ids)) (hprivate : th'.privateWork = th.privateWork)
    (hunit : th'.unit = th.unit) (interrupted : Bool) : Balanced s th
      ({ s with pending := s.pending.diff ids, interrupted := interrupted }, th') := by
  refine ⟨?_, ?_, id⟩
  · intro w
    have hdiff := weigh_diff w hids
    unfold shared
    rw [weigh_perm w hholds]
    simp only [weigh_append]
    show weigh w (s.pending.diff ids) + weigh w (handlers (ready s)) + _ + weigh w (begun s) +
      weigh w (List.range s.nextId) = _
    omega
  · have hdiff := length_diff hids
    unfold shared
    rw [hholds.length_eq, hprivate, hunit]
    simp only [List.length_append]
    show s.outstandingWork + _ + _ = _ + (s.guards + ((s.pending.diff ids).length +
      (handlers (ready s)).length) + _ + _ : ℕ)
    push_cast
    omega

/-- New operations are handed to the thread. -/
theorem balanced_new {k : ℕ} {outstanding : ℤ}
    (hholds : th'.holds.Perm (th.holds ++ List.range' s.nextId k)) (hunit : th'.unit = th.unit)
    (hwork : outstanding + th'.privateWork = s.outstandingWork + th.privateWork + k) :
    Balanced s th ({ s with nextId := s.nextId + k, outstandingWork := outstanding }, th') := by
  refine ⟨?_, ?_, id⟩
  · intro w
    rw [weigh_perm w hholds, weigh_append, weigh_range_add]
    show weigh w (shared s) + _ + weigh w (begun s) + _ = _
    omega
  · rw [hholds.length_eq, List.length_append, List.length_range', hunit]
    show outstanding + _ + _ = _ + (s.guards + (shared s).length + _ + _ : ℕ)
    push_cast
    omega

theorem balanced_workCleanup (throws : Bool) (hcall : th.call = .idle)
    (hplace : th.place = .cleanup throws) : Balanced s th (workCleanup throws s th) := by
  have hpushing := pushing_idle hcall
  have hunit : th.unit = 1 := by
    unfold Thread.unit
    rw [hplace]
  unfold workCleanup
  dsimp only
  generalize hnext : (if (!throws && !th.once) = true then Place.look
    else if th.privateQueue.isEmpty = true then Place.outside else Place.leave) = next
  have hnone : ∀ (call : Call) (once : Bool) (privateQueue : List Op),
      Thread.unit ⟨next, call, once, 0, privateQueue⟩ = 0 := by
    intro call once privateQueue
    rw [← hnext]
    unfold Thread.unit
    split_ifs <;> rfl
  split_ifs with hmore hless hlast
  · refine .same rfl rfl rfl rfl rfl rfl rfl ?_
    rw [hunit, hnone]
    push_cast
    omega
  · refine .same rfl rfl rfl rfl rfl rfl ?_ ?_
    · unfold Thread.holds
      rw [hpushing]
      rfl
    · rw [hunit, hnone]
      push_cast
      omega
  · refine .same rfl rfl rfl rfl rfl rfl ?_ ?_
    · unfold Thread.holds
      rw [hpushing]
      rfl
    · rw [hunit, hnone]
      push_cast
      omega
  · refine .same rfl rfl rfl rfl rfl rfl rfl ?_
    rw [hunit, hnone]
    push_cast
    omega

/-- The thread pushes its private queue. -/
theorem balanced_pushPrivate (th' : Thread) (hcall : th.call = .idle) (hqueue : th'.privateQueue = [])
    (hcall' : th'.call = .idle) (hprivate : th'.privateWork = th.privateWork)
    (hunit : th'.unit = th.unit) : Balanced s th (push th.privateQueue s, th') := by
  refine balanced_push th.privateQueue s ?_ hprivate hunit
  unfold Thread.holds
  rw [pushing_idle hcall, pushing_idle hcall', hqueue]
  simp

theorem unit_of_place {p : Place} (hplace : th.place = p) (hp : p.isAway = false) : th.unit = 0 := by
  subst hplace
  unfold Thread.unit
  split
  · rename_i heq
    rw [heq] at hp
    exact absurd hp (by simp [Place.isAway])
  · rename_i heq
    rw [heq] at hp
    exact absurd hp (by simp [Place.isAway])
  · rfl

theorem balanced_locked {r : State ι × Thread} (h : Locked s th r) : Balanced s th r := by
  cases h with
  | push ops hcall =>
    have hpushed : Balanced s th (push ops s, { th with call := .idle }) := by
      refine balanced_push ops s ?_ rfl rfl
      have hpushing : th.pushing = ops := by
        unfold Thread.pushing
        rw [hcall]
      show (handlers th.privateQueue ++ handlers th.pushing).Perm
        (handlers ops ++ (handlers th.privateQueue ++ []))
      rw [hpushing, List.append_nil]
      exact List.perm_append_comm
    exact hpushed.trans (balanced_wakeOne _ { th with call := .idle } rfl)
  | stop hcall =>
    have hpushing : th.pushing = [] := by
      unfold Thread.pushing
      rw [hcall]
    unfold stopAllThreads
    rw [interruptTask_eq]
    refine .same rfl rfl rfl rfl rfl rfl ?_ rfl
    unfold Thread.holds
    rw [hpushing]
    rfl
  | look hcall hplace =>
    exact (balanced_pushPrivate { th with privateQueue := [] } hcall rfl hcall rfl rfl).trans
      (balanced_doRunOne hcall (unit_of_place hplace rfl))
  | leave hcall hplace =>
    refine balanced_pushPrivate _ hcall rfl hcall rfl ?_
    unfold Thread.unit
    rw [hplace]
  | taskDone hcall hplace =>
    have hunit := unit_of_place hplace rfl
    have hwork : Balanced s th ({ s with
        outstandingWork := s.outstandingWork + th.privateWork, taskInterrupted := true },
        { th with privateWork := 0 }) := by
      refine .same rfl rfl rfl rfl rfl rfl rfl ?_
      show s.outstandingWork + th.privateWork + 0 + _ = _
      rw [Int.add_zero]
      rfl
    have hcleaned : Balanced s th (taskCleanup s th) := by
      refine (hwork.trans (balanced_pushPrivate { th with privateWork := 0, privateQueue := [] }
        hcall rfl hcall rfl rfl)).trans ?_
      exact .same rfl (ready_pushTask _) rfl rfl rfl rfl rfl rfl
    exact hcleaned.trans (balanced_doRunOne hcall hunit)
  | woken hcall hplace hsignalled =>
    have hcount : Balanced s th ({ s with waiters := s.waiters - 1 }, th) :=
      .same rfl rfl rfl rfl rfl rfl rfl rfl
    exact hcount.trans (balanced_doRunOne hcall (unit_of_place hplace rfl))
  | again hcall hplace hsignalled =>
    refine .same rfl rfl rfl rfl rfl rfl rfl ?_
    rw [unit_of_place hplace rfl]
    rfl

theorem balanced_start (s : State ι) (th : Thread) : Balanced s th
    ({ s with
      nextId := s.nextId + 1
      outstandingWork := s.outstandingWork + 1
      pending := s.pending ++ [s.nextId] }, th) := by
  refine ⟨?_, ?_, id⟩
  · intro w
    unfold shared
    rw [weigh_range_add]
    simp only [weigh_append]
    show weigh w s.pending + weigh w [s.nextId] + weigh w (handlers (ready s)) + _ +
      weigh w (begun s) + _ = _ + weigh w (begun s) + (_ + weigh w [s.nextId])
    omega
  · unfold shared
    simp only [List.length_append, List.length_singleton]
    show s.outstandingWork + 1 + _ + _ = _ + (s.guards + (s.pending.length + 1 +
      (handlers (ready s)).length) + _ + _ : ℕ)
    push_cast
    omega

/-- The first of the operations is completed at once. -/
theorem balanced_performIo {id : ℕ} {ids : List ℕ} (hcall : th.call = .idle)
    (hplace : th.place = .descriptor) (hids : (id :: ids).Subperm s.pending) : Balanced s th
      (postDeferred ids
        { s with pending := s.pending.diff (id :: ids), inlined := s.inlined ++ [id] }
        { th with place := .handler }) := by
  obtain ⟨th', heq, hholds, hprivate, hplace'⟩ := exists_postDeferred ids
    { s with pending := s.pending.diff (id :: ids), inlined := s.inlined ++ [id] }
    { th with place := .handler } hcall
  have hunit : th'.unit = 1 ∧ th.unit = 0 := by
    unfold Thread.unit
    rw [hplace', hplace]
    exact ⟨rfl, rfl⟩
  rw [heq]
  refine ⟨?_, ?_, fun hbefore => hbefore⟩
  · intro w
    have hdiff := weigh_diff w hids
    unfold shared begun
    rw [weigh_perm w hholds]
    simp only [weigh_append, weigh_cons, weigh_nil] at hdiff ⊢
    show weigh w (s.pending.diff (id :: ids)) + weigh w (handlers (ready s)) +
      (weigh w th.holds + _) + _ + weigh w (List.range s.nextId) = _
    omega
  · have hdiff := length_diff hids
    unfold shared
    rw [hholds.length_eq, hprivate, hunit.1, hunit.2]
    simp only [List.length_append, List.length_cons] at hdiff ⊢
    show s.outstandingWork + _ + _ = _ + (s.guards + ((s.pending.diff (id :: ids)).length +
      (handlers (ready s)).length) + (th.holds.length + _) + _ : ℕ)
    push_cast
    omega

/-! ### What the threads have counted -/

theorem Thread.Lawful.doRunOne (hprivate : th.privateWork = 0) (hqueue : th.privateQueue = []) :
    (Scheduler.doRunOne s th).2.Lawful := by
  have hran := doRunOne_cases s th
  generalize Scheduler.doRunOne s th = r at hran
  cases hran with
  | stopped hstopped => exact ⟨hprivate, hqueue⟩
  | empty hstopped hempty => exact ⟨hprivate, hqueue⟩
  | task ops hstopped hops hlast => exact ⟨hprivate, hqueue⟩
  | taskMore ops hstopped hops hmore hone => exact ⟨hprivate, hqueue⟩
  | op o ops hstopped hops hlast =>
    cases o with
    | handler id => exact hprivate.trans_le (Nat.zero_le _)
    | descriptor => exact ⟨hprivate, hqueue⟩
  | opMore o ops hstopped hops hmore hone =>
    cases o with
    | handler id => exact hprivate.trans_le (Nat.zero_le _)
    | descriptor => exact ⟨hprivate, hqueue⟩

theorem Thread.Lawful.locked (h : th.Lawful) {r : State ι × Thread} (hlock : Locked s th r) :
    r.2.Lawful := by
  cases hlock with
  | push ops hcall => exact h
  | stop hcall => exact h
  | look hcall hplace =>
    unfold Thread.Lawful at h
    rw [hplace] at h
    exact .doRunOne h rfl
  | leave hcall hplace =>
    unfold Thread.Lawful at h
    rw [hplace] at h
    exact ⟨h, rfl⟩
  | taskDone hcall hplace => exact .doRunOne rfl rfl
  | woken hcall hplace hsignalled =>
    unfold Thread.Lawful at h
    rw [hplace] at h
    exact .doRunOne h.1 h.2
  | again hcall hplace hsignalled =>
    unfold Thread.Lawful at h
    rw [hplace] at h
    exact h

theorem Thread.Lawful.wake (h : th.Lawful) : th.wake.Lawful := by
  unfold Thread.wake
  split_ifs with hblocked
  · unfold Thread.Lawful at h
    rw [hblocked] at h
    exact h
  · exact h

theorem Thread.Lawful.postDeferred (h : th.Lawful) (hplace : th.place = .outside ∨ th.place = .handler)
    (ids : List ℕ) : (Scheduler.postDeferred ids s th).2.Lawful := by
  unfold Scheduler.postDeferred
  split_ifs with hempty hprivate
  · exact h
  · rcases hplace with hplace | hplace
    · rw [Thread.isInside, hplace] at hprivate
      exact absurd hprivate (by simp)
    · unfold Thread.Lawful at h ⊢
      rw [hplace] at h
      dsimp only
      rw [hplace, handlers_append, List.length_append]
      exact h.trans (Nat.le_add_right ..)
  · exact h

theorem Thread.Lawful.workCleanup (throws : Bool) :
    (Scheduler.workCleanup throws s th).2.Lawful := by
  have hnext : ∀ call once, Thread.Lawful ⟨if (!throws && !th.once) = true then Place.look
      else if th.privateQueue.isEmpty = true then Place.outside else Place.leave,
      call, once, 0, th.privateQueue⟩ := by
    intro call once
    unfold Thread.Lawful
    split_ifs with hlook hempty
    · rfl
    · exact ⟨rfl, List.isEmpty_iff.mp hempty⟩
    · rfl
  unfold Scheduler.workCleanup
  dsimp only
  split
  · exact hnext _ _
  · split <;> exact hnext _ _

theorem Thread.inUserCode.place (h : th.inUserCode = true) :
    th.place = .outside ∨ th.place = .handler := by
  unfold Thread.inUserCode at h
  simp only [Bool.and_eq_true, Bool.or_eq_true, decide_eq_true_eq] at h
  exact h.2

end

/-! ### The books -/

structure Counted [Fintype ι] (s : State ι) : Prop where
  lawful : ∀ u, (s.thread u).Lawful
  ops : ∀ w, weigh w (shared s) + ∑ u, weigh w (s.thread u).holds + weigh w (begun s) =
    weigh w (List.range s.nextId)
  work : s.outstandingWork + ∑ u, ((s.thread u).privateWork : ℤ) =
    s.guards + (shared s).length + ∑ u, ((s.thread u).holds.length + (s.thread u).unit : ℤ)
  order : s.pushed = s.taken ++ handlers (ready s)

theorem counted_initial [Fintype ι] (oneThread : Bool) : Counted (initial oneThread : State ι) where
  lawful := fun _ => ⟨rfl, rfl⟩
  ops := by
    intro w
    simp [initial, shared, ready, begun, Thread.holds, Thread.pushing]
  work := by simp [initial, shared, ready, Thread.holds, Thread.pushing, Thread.unit]
  order := rfl

variable [DecidableEq ι] [Fintype ι] {s : State ι} {t : ι} {th : Thread}

/-- A call of user code that hands nothing to the thread. -/
theorem holds_of_idle (hcall : th.call = .idle) {call : Call} (h : call = .idle ∨ call = .stop) :
    ({ th with call := call } : Thread).holds = th.holds := by
  unfold Thread.holds
  rw [pushing_idle hcall]
  rcases h with rfl | rfl <;> rfl

theorem balanced_act {l : Label ι} {r : State ι × Thread} (hlaw : th.Lawful)
    (h : act s th l = some r) : Balanced s th r := by
  cases l with
  | initTask u =>
    simp only [act] at h
    split_ifs at h with huser htask
    · obtain rfl := Option.some.inj h
      exact .refl s th
    · obtain rfl := Option.some.inj h
      have hinit : Balanced s th (pushTask { s with hasTask := true }, th) :=
        .same rfl (ready_pushTask _) rfl rfl rfl rfl rfl rfl
      exact hinit.trans (balanced_wakeOne _ _ (pushing_idle (Thread.inUserCode.away huser).1))
  | run u once =>
    simp only [act] at h
    split_ifs at h with hgo hzero
    · obtain rfl := Option.some.inj h
      exact .same rfl rfl rfl rfl rfl rfl (holds_of_idle hgo.1 (Or.inr rfl)) rfl
    · obtain rfl := Option.some.inj h
      have hnone : th.privateWork = 0 := by
        unfold Thread.Lawful at hlaw
        rw [hgo.2] at hlaw
        exact hlaw.1
      refine .same rfl rfl rfl rfl rfl rfl rfl ?_
      unfold Thread.unit
      rw [hgo.2, hnone]
  | post u n isContinuation =>
    simp only [act] at h
    split_ifs at h with huser hprivate
    · obtain rfl := Option.some.inj h
      refine balanced_new ?_ rfl ?_
      · show (handlers (th.privateQueue ++ (List.range' s.nextId n).map Op.handler) ++
          handlers th.pushing).Perm _
        unfold Thread.holds
        rw [pushing_idle (Thread.inUserCode.away huser).1]
        simp
      · push_cast
        omega
    · obtain rfl := Option.some.inj h
      refine balanced_new ?_ rfl ?_
      · show (handlers th.privateQueue ++
          handlers ((List.range' s.nextId n).map Op.handler)).Perm _
        unfold Thread.holds
        rw [pushing_idle (Thread.inUserCode.away huser).1]
        simp
      · dsimp only
        omega
  | dispatch u =>
    simp only [act] at h
    split_ifs at h with huser
    obtain rfl := Option.some.inj h
    refine balanced_new (k := 1) ?_ rfl ?_
    · unfold Thread.holds
      rw [pushing_idle (Thread.inUserCode.away huser).1, handlers_nil, List.append_nil]
      exact .refl _
    · dsimp only
      omega
  | start u =>
    simp only [act] at h
    split_ifs at h with huser
    obtain rfl := Option.some.inj h
    exact balanced_start s th
  | cancel u ids =>
    simp only [act] at h
    split_ifs at h with huser
    obtain rfl := Option.some.inj h
    obtain ⟨th', heq, hholds, hprivate, hplace⟩ := exists_postDeferred ids
      { s with pending := s.pending.diff ids } _ (Thread.inUserCode.away huser.1).1
    rw [heq]
    refine balanced_handOver huser.2 hholds hprivate ?_ s.interrupted
    unfold Thread.unit
    rw [hplace]
  | workStarted u =>
    simp only [act] at h
    split_ifs at h with huser
    obtain rfl := Option.some.inj h
    refine .same rfl rfl rfl rfl rfl rfl rfl ?_
    push_cast
    omega
  | workFinished u =>
    simp only [act] at h
    by_cases hgo : th.inUserCode = true ∧ 0 < s.guards
    · rw [if_pos hgo] at h
      obtain rfl := Option.some.inj h
      refine .same rfl rfl rfl rfl rfl rfl ?_ ?_
      · refine holds_of_idle (Thread.inUserCode.away hgo.1).1 ?_
        split_ifs
        · exact Or.inr rfl
        · exact Or.inl rfl
      · have hguards := hgo.2
        show s.outstandingWork - 1 + th.privateWork + _ =
          s.outstandingWork + th.privateWork + ((s.guards - 1 + th.unit : ℕ) : ℤ)
        omega
    · rw [if_neg hgo] at h
      exact absurd h (by simp)
  | stop u =>
    simp only [act] at h
    split_ifs at h with huser
    obtain rfl := Option.some.inj h
    exact .same rfl rfl rfl rfl rfl rfl
      (holds_of_idle (Thread.inUserCode.away huser).1 (Or.inr rfl)) rfl
  | restart u =>
    simp only [act] at h
    split_ifs at h with huser
    obtain rfl := Option.some.inj h
    exact .same rfl rfl rfl rfl rfl rfl rfl rfl
  | lock u => exact balanced_locked (locked_cases h)
  | signal u target =>
    obtain ⟨hcall, htarget⟩ := act_signal h
    have hholds : ({ th with call := .idle } : Thread).holds = th.holds := by
      unfold Thread.holds
      rw [show th.pushing = [] by unfold Thread.pushing; rw [hcall]]
      rfl
    rcases htarget with ⟨v, -, rfl⟩ | ⟨-, rfl⟩
    · exact .same rfl rfl rfl rfl rfl rfl hholds rfl
    · exact .same rfl rfl rfl rfl rfl rfl hholds rfl
  | spurious u =>
    simp only [act] at h
    split_ifs at h with hblocked
    obtain rfl := Option.some.inj h
    unfold Thread.wake
    rw [if_pos hblocked]
    refine .same rfl rfl rfl rfl rfl rfl rfl ?_
    unfold Thread.unit
    rw [hblocked]
  | taskReturns u ops reported =>
    simp only [act] at h
    split at h
    · rename_i hcall hplace
      split_ifs at h with hgo
      obtain rfl := Option.some.inj h
      refine balanced_handOver hgo.1 ?_ ?_ ?_ _
      · show (handlers (th.privateQueue ++ ops) ++ handlers th.pushing).Perm _
        unfold Thread.holds
        rw [pushing_idle hcall]
        simp
      · rfl
      · unfold Thread.unit
        rw [hplace]
    · exact absurd h (by simp)
  | performIo u ids =>
    simp only [act] at h
    by_cases hgo : th.call = .idle ∧ th.place = .descriptor ∧ ids.Subperm s.pending
    · rw [if_pos hgo] at h
      have hunit : th.unit = 0 := by
        unfold Thread.unit
        rw [hgo.2.1]
      cases ids with
      | nil =>
        obtain rfl := Option.some.inj h
        refine .same rfl rfl rfl rfl rfl rfl rfl ?_
        rw [hunit]
        show s.outstandingWork + (th.privateWork + 1 : ℕ) + _ = _ + ((s.guards + 1 : ℕ) : ℤ)
        push_cast
        omega
      | cons id ids =>
        obtain rfl := Option.some.inj h
        exact balanced_performIo hgo.1 hgo.2.1 hgo.2.2
    · rw [if_neg hgo] at h
      exact absurd h (by simp)
  | finish u =>
    simp only [act] at h
    split_ifs at h with hgo
    obtain rfl := Option.some.inj h
    refine .same rfl rfl rfl rfl rfl rfl rfl ?_
    unfold Thread.unit
    rw [hgo.2]
  | throw u =>
    simp only [act] at h
    split_ifs at h with hgo
    obtain rfl := Option.some.inj h
    refine .same rfl rfl rfl rfl rfl rfl rfl ?_
    unfold Thread.unit
    rw [hgo.2]
  | cleanup u =>
    simp only [act] at h
    split at h
    · rename_i throws hcall hplace
      obtain rfl := Option.some.inj h
      exact balanced_workCleanup throws hcall hplace
    · exact absurd h (by simp)

theorem Thread.Lawful.act {l : Label ι} {r : State ι × Thread} (hlaw : th.Lawful)
    (h : Scheduler.act s th l = some r) : r.2.Lawful := by
  have hsame : ∀ call, Thread.Lawful { th with call := call } := fun _ => hlaw
  cases l with
  | initTask u =>
    simp only [Scheduler.act] at h
    split_ifs at h
    · obtain rfl := Option.some.inj h
      exact hlaw
    · obtain rfl := Option.some.inj h
      exact hsame _
  | run u once =>
    simp only [Scheduler.act] at h
    split_ifs at h with hgo hzero
    · obtain rfl := Option.some.inj h
      exact hsame _
    · obtain rfl := Option.some.inj h
      rfl
  | post u n isContinuation =>
    simp only [Scheduler.act] at h
    split_ifs at h with huser hprivate
    · obtain rfl := Option.some.inj h
      have hplace : th.place = .handler := by
        rcases Thread.inUserCode.place huser with hout | hin
        · rw [Thread.isInside, hout] at hprivate
          exact absurd hprivate (by simp)
        · exact hin
      unfold Thread.Lawful at hlaw ⊢
      rw [hplace] at hlaw
      dsimp only
      rw [hplace, handlers_append, handlers_map, List.length_append, List.length_range']
      exact Nat.add_le_add_right hlaw n
    · obtain rfl := Option.some.inj h
      exact hsame _
  | dispatch u =>
    simp only [Scheduler.act] at h
    split_ifs at h
    obtain rfl := Option.some.inj h
    exact hsame _
  | start u =>
    simp only [Scheduler.act] at h
    split_ifs at h
    obtain rfl := Option.some.inj h
    exact hlaw
  | cancel u ids =>
    simp only [Scheduler.act] at h
    split_ifs at h with huser
    obtain rfl := Option.some.inj h
    exact hlaw.postDeferred (Thread.inUserCode.place huser.1) ids
  | workStarted u =>
    simp only [Scheduler.act] at h
    split_ifs at h
    obtain rfl := Option.some.inj h
    exact hlaw
  | workFinished u =>
    simp only [Scheduler.act] at h
    split_ifs at h
    all_goals
      obtain rfl := Option.some.inj h
      exact hsame _
  | stop u =>
    simp only [Scheduler.act] at h
    split_ifs at h
    obtain rfl := Option.some.inj h
    exact hsame _
  | restart u =>
    simp only [Scheduler.act] at h
    split_ifs at h
    obtain rfl := Option.some.inj h
    exact hlaw
  | lock u => exact hlaw.locked (locked_cases h)
  | signal u target =>
    rcases (act_signal h).2 with ⟨v, -, rfl⟩ | ⟨-, rfl⟩ <;> exact hsame _
  | spurious u =>
    simp only [Scheduler.act] at h
    split_ifs at h with hblocked
    obtain rfl := Option.some.inj h
    exact hlaw.wake
  | taskReturns u ops reported =>
    simp only [Scheduler.act] at h
    split at h
    · rename_i hcall hplace
      split_ifs at h
      obtain rfl := Option.some.inj h
      unfold Thread.Lawful at hlaw
      rw [hplace] at hlaw
      exact hlaw.1
    · exact absurd h (by simp)
  | performIo u ids =>
    simp only [Scheduler.act] at h
    by_cases hgo : th.call = .idle ∧ th.place = .descriptor ∧ ids.Subperm s.pending
    · rw [if_pos hgo] at h
      unfold Thread.Lawful at hlaw
      rw [hgo.2.1] at hlaw
      cases ids with
      | nil =>
        obtain rfl := Option.some.inj h
        refine Or.inr ⟨?_, hlaw.2⟩
        show th.privateWork + 1 = 1
        rw [hlaw.1]
      | cons id ids =>
        obtain rfl := Option.some.inj h
        refine Thread.Lawful.postDeferred ?_ (Or.inr rfl) ids
        exact hlaw.1.trans_le (Nat.zero_le _)
    · rw [if_neg hgo] at h
      exact absurd h (by simp)
  | finish u =>
    simp only [Scheduler.act] at h
    split_ifs at h with hgo
    obtain rfl := Option.some.inj h
    unfold Thread.Lawful at hlaw
    rw [hgo.2] at hlaw
    exact Or.inl hlaw
  | throw u =>
    simp only [Scheduler.act] at h
    split_ifs at h with hgo
    obtain rfl := Option.some.inj h
    unfold Thread.Lawful at hlaw
    rw [hgo.2] at hlaw
    exact Or.inl hlaw
  | cleanup u =>
    simp only [Scheduler.act] at h
    split at h
    · rename_i throws hcall hplace
      obtain rfl := Option.some.inj h
      exact .workCleanup throws
    · exact absurd h (by simp)

/-- Of the other threads, some are woken up. -/
theorem thread_act {l : Label ι} {r : State ι × Thread} (h : act s th l = some r) (u : ι) :
    r.1.thread u = s.thread u ∨ r.1.thread u = (s.thread u).wake := by
  by_cases hown : l.isOwn = true
  · rw [(minds_of_act hown h).thread]
    exact Or.inl rfl
  · cases l with
    | initTask t =>
      simp only [act] at h
      split_ifs at h
      · obtain rfl := Option.some.inj h
        exact Or.inl rfl
      · obtain rfl := Option.some.inj h
        rw [thread_wakeOne]
        exact Or.inl rfl
    | restart t =>
      simp only [act] at h
      split_ifs at h
      obtain rfl := Option.some.inj h
      exact Or.inl rfl
    | lock t =>
      have hrun : ∀ (s : State ι) (th : Thread), (doRunOne s th).1.thread = s.thread := by
        intro s th
        have hran := doRunOne_cases s th
        generalize doRunOne s th = r at hran
        cases hran with
        | opMore => exact thread_wakeOne _
        | _ => rfl
      cases locked_cases h with
      | push ops hcall =>
        rw [thread_wakeOne]
        exact Or.inl rfl
      | stop hcall =>
        unfold stopAllThreads
        rw [interruptTask_eq]
        exact Or.inr rfl
      | look hcall hplace =>
        rw [hrun]
        exact Or.inl rfl
      | leave hcall hplace => exact Or.inl rfl
      | taskDone hcall hplace =>
        rw [hrun]
        exact Or.inl rfl
      | woken hcall hplace hsignalled =>
        rw [hrun]
        exact Or.inl rfl
      | again hcall hplace hsignalled => exact Or.inl rfl
    | signal t target =>
      rcases (act_signal h).2 with ⟨v, -, rfl⟩ | ⟨-, rfl⟩
      · rw [thread_setThread]
        split_ifs with hu
        · rw [hu]
          exact Or.inr rfl
        · exact Or.inl rfl
      · exact Or.inl rfl
    | spurious t =>
      simp only [act] at h
      split_ifs at h
      obtain rfl := Option.some.inj h
      exact Or.inl rfl
    | taskReturns t ops reported =>
      simp only [act] at h
      split at h
      · split_ifs at h
        obtain rfl := Option.some.inj h
        exact Or.inl rfl
      · exact absurd h (by simp)
    | _ => exact absurd rfl hown

/-- A sum over the threads, when one of them acts and wakes up others. -/
theorem sum_act {l : Label ι} {r : State ι × Thread} (f : Thread → ℤ)
    (hwake : ∀ th, f th.wake = f th) (h : act s (s.thread t) l = some r) :
    ∑ u, f ((setThread t r.2 r.1).thread u) + f (s.thread t) = ∑ u, f (s.thread u) + f r.2 := by
  have hsame : ∀ u, f (r.1.thread u) = f (s.thread u) := by
    intro u
    rcases thread_act h u with heq | heq
    · rw [heq]
    · rw [heq, hwake]
  have hsum := sum_setThread f t r.2 r.1
  rw [hsame t, Finset.sum_congr rfl fun u _ => hsame u] at hsum
  exact hsum

theorem wake_same (th : Thread) : th.wake.holds = th.holds ∧ th.wake.unit = th.unit ∧
    th.wake.privateWork = th.privateWork ∧ th.wake.call = th.call := by
  unfold Thread.wake
  split_ifs with hblocked
  · refine ⟨rfl, ?_, rfl, rfl⟩
    unfold Thread.unit
    rw [hblocked]
  · exact ⟨rfl, rfl, rfl, rfl⟩

theorem Counted.step {l : Label ι} {s' : State ι} (h : Counted s)
    (hs : Scheduler.step s l = some s') : Counted s' := by
  obtain ⟨r, hr, rfl⟩ := Option.map_eq_some_iff.mp hs
  have hbalanced := balanced_act (h.lawful l.thread) hr
  refine ⟨?_, ?_, ?_, hbalanced.order h.order⟩
  · intro u
    show ((setThread l.thread r.2 r.1).thread u).Lawful
    rw [thread_setThread]
    split_ifs with hu
    · exact (h.lawful l.thread).act hr
    · rcases thread_act hr u with heq | heq
      · rw [heq]
        exact h.lawful u
      · rw [heq]
        exact (h.lawful u).wake
  · intro w
    have hsum := sum_act (fun th => weigh w th.holds)
      (fun th => by rw [(wake_same th).1]) hr
    have hops := hbalanced.ops w
    have hbefore := h.ops w
    show weigh w (shared r.1) + ∑ u, weigh w ((setThread l.thread r.2 r.1).thread u).holds +
      weigh w (begun r.1) = weigh w (List.range r.1.nextId)
    omega
  · have hprivate := sum_act (fun th => (th.privateWork : ℤ))
      (fun th => by rw [(wake_same th).2.2.1]) hr
    have hholds := sum_act (fun th => (th.holds.length + th.unit : ℤ))
      (fun th => by rw [(wake_same th).1, (wake_same th).2.1]) hr
    have hwork := hbalanced.work
    have hbefore := h.work
    show r.1.outstandingWork +
        ∑ u, (((setThread l.thread r.2 r.1).thread u).privateWork : ℤ) =
      r.1.guards + (shared r.1).length + ∑ u, (((setThread l.thread r.2 r.1).thread u).holds.length +
        ((setThread l.thread r.2 r.1).thread u).unit : ℤ)
    push_cast at hwork
    omega

theorem counted_of_run {ok : State ι → Label ι → Prop} {oneThread : Bool} {ls : List (Label ι)}
    (h : Run step ok (initial oneThread) ls s) : Counted s :=
  h.invariant (I := Counted) (counted_initial oneThread) fun _ _ _ hI _ hs => hI.step hs

/-! ## Every operation once -/

theorem weigh_count (id : ℕ) (ids : List ℕ) :
    weigh (fun i => if i = id then 1 else 0) ids = (ids.count id : ℤ) := by
  induction ids with
  | nil => rfl
  | cons i ids ih =>
    rw [weigh_cons, ih, List.count_cons]
    by_cases hi : i = id
    · simp [hi, add_comm]
    · simp [hi]

/-- **Once, and in order.** An operation that has been started or posted is with the reactor, in the
queue or with a thread, or it has been taken from the queue or completed by a descriptor: one of
these, and once. Those that were pushed to the queue are taken from it in that order. -/
theorem once_in_order {oneThread : Bool} {ls : List (Label ι)}
    (h : Run step Any (initial oneThread) ls s) :
    (∀ id, (s.pending.count id + (handlers (ready s)).count id +
        ∑ u, (s.thread u).holds.count id) + (s.taken.count id + s.inlined.count id) =
      if id < s.nextId then 1 else 0) ∧
    s.pushed = s.taken ++ handlers (ready s) := by
  have hcounted := counted_of_run h
  refine ⟨?_, hcounted.order⟩
  intro id
  have hops := hcounted.ops fun i => if i = id then 1 else 0
  simp only [weigh_count, shared, begun, List.count_append] at hops
  have hrange : (List.range s.nextId).count id = if id < s.nextId then 1 else 0 := by
    split_ifs with hid
    · exact List.count_eq_one_of_mem List.nodup_range (List.mem_range.mpr hid)
    · exact List.count_eq_zero.mpr fun hmem => hid (List.mem_range.mp hmem)
  rw [hrange, ← Nat.cast_sum] at hops
  exact_mod_cast hops

/-- An operation has been completed, one is with the thread that completed it, one in the queue. -/
theorem once_in_order_someRun :
    let s := reached step Any (initial false) ([.post 0 2 false, .lock 0, .run 1 false, .lock 1,
      .post 1 1 true, .start 1] : List (Label (Fin 2)))
    (∀ id, (s.pending.count id + (handlers (ready s)).count id +
        ∑ u, (s.thread u).holds.count id) + (s.taken.count id + s.inlined.count id) =
      if id < s.nextId then 1 else 0) ∧
    s.pushed = s.taken ++ handlers (ready s) :=
  once_in_order (run_reached (by decide +kernel))

end AsioLearn.Detail.Scheduler
