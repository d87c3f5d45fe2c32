import AsioLearn.Detail.DeadlineTimer
import AsioLearn.Lib.Proactor

/-!
# The timers as a pool of waits

What the timers are for, without a heap: a pool of waits, each with the timer that it is on and the
time at which it is over. A cancellation completes the waits on a timer, a run of the reactor those
that are over.

* `Refines`: the queue of the reactor holds the outstanding waits of the pool, and the reactor has
  completed the others with the outcome they have there.
* `exists_pool`: every run of the timers is one of the pool.
-/

namespace AsioLearn.Detail.DeadlineTimer

open TimerQueue Lts Proactor LinkedList

/-! ## The pool -/

structure Wait (ι : Type*) where
  id : ℕ
  timer : ι
  deadline : Ticks
  cancellationKey : ℕ

inductive Outcome
  | expired
  | aborted
  /-- Started after the end of the reactor. -/
  | refused
  /-- Destroyed with the reactor. -/
  | abandoned
  deriving DecidableEq, Repr

structure Pool (ι : Type*) where
  ops : List (Op (Wait ι) Outcome) := []
  expiry : ι → Ticks := fun _ => Ticks.zero
  shutdown : Bool := false
  now : Ticks

def Wait.op {ι : Type*} (k : Wait ι) : WaitOp := { id := k.id, cancellationKey := k.cancellationKey }

/-- What the scheduler is given. -/
def completion {ι : Type*} (k : Wait ι) : Outcome → Option WaitOp
  | .expired => some k.op
  | .aborted => some k.op.aborted
  | .refused => some k.op
  | .abandoned => none

/-- What is destroyed. -/
def abandonment {ι : Type*} (k : Wait ι) : Outcome → Option WaitOp
  | .abandoned => some k.op
  | _ => none

/-- The first of some waits, and the others. -/
theorem filter_head {ι : Type*} {waits : List (Wait ι)} (hnodup : (waits.map Wait.id).Nodup) :
    (waits.filter fun k => waits.head?.map Wait.id == some k.id) = waits.take 1 ∧
      (waits.filter fun k => !(waits.head?.map Wait.id == some k.id)) = waits.drop 1 := by
  cases waits with
  | nil => exact ⟨rfl, rfl⟩
  | cons first rest =>
    rw [List.map_cons, List.nodup_cons] at hnodup
    have hrest : ∀ k ∈ rest, first.id ≠ k.id := by
      intro k hk heq
      exact hnodup.1 (heq ▸ List.mem_map_of_mem hk)
    have hno : (rest.filter fun k => first.id == k.id) = [] := by
      rw [List.filter_eq_nil_iff]
      intro k hk heq
      exact hrest k hk (beq_iff_eq.mp heq)
    have hall : (rest.filter fun k => !(first.id == k.id)) = rest := by
      rw [List.filter_eq_self]
      intro k hk
      simpa using hrest k hk
    simp only [List.head?_cons, Option.map_some, Option.some_beq_some, List.filter_cons,
      beq_self_eq_true, if_true, Bool.not_true, Bool.false_eq_true, if_false, hno, hall]
    exact ⟨rfl, rfl⟩

variable {ι : Type*} [DecidableEq ι]

def onTimer (timer : ι) (k : Wait ι) : Bool := k.timer = timer

def isOver (now : Ticks) (k : Wait ι) : Bool := k.deadline ≤ now

namespace Pool

/-- Abort the waits on a timer that satisfy `c`. -/
def abortOn (timer : ι) (c : Wait ι → Bool) (p : Pool ι) : Pool ι :=
  { p with ops := abort (fun k => onTimer timer k && c k) .aborted p.ops }

@[simp] theorem ops_abortOn (timer : ι) (c : Wait ι → Bool) (p : Pool ι) :
    (p.abortOn timer c).ops = abort (fun k => onTimer timer k && c k) .aborted p.ops := rfl

def setExpiry (timer : ι) (time : Ticks) (p : Pool ι) : Pool ι :=
  { p with expiry := Function.update p.expiry timer time }

/-- The wait is the first one on the timer. -/
def isFirst (timer : ι) (p : Pool ι) (k : Wait ι) : Bool :=
  (waiting (onTimer timer) p.ops).head?.map Wait.id == some k.id

/-- An outstanding wait on `source` becomes one on `target`. -/
def retarget (target source : ι) (op : Op (Wait ι) Outcome) : Op (Wait ι) Outcome :=
  if op.result.isNone && onTimer source op.task then
    { op with task := { op.task with timer := target } }
  else op

def step (p : Pool ι) : Label ι → Option (Pool ι)
  | .tick now => if p.now ≤ now then some { p with now := now } else none
  | .asyncWait timer key =>
    let wait : Wait ι := ⟨p.ops.length, timer, p.expiry timer, key⟩
    some { p with ops := p.ops ++ [⟨wait, if p.shutdown then some .refused else none⟩] }
  | .cancel timer => some (p.abortOn timer fun _ => true)
  | .cancelOne timer => some (p.abortOn timer (p.isFirst timer))
  | .cancelSlot timer key => some (p.abortOn timer fun k => k.cancellationKey == key)
  | .expiresAt timer time => some ((p.abortOn timer fun _ => true).setExpiry timer time)
  | .expiresAfter timer duration =>
    some ((p.abortOn timer fun _ => true).setExpiry timer (Ticks.clamp (p.now.val + duration.val)))
  | .move target source =>
    if target = source then none
    else
      let p := p.abortOn target fun _ => true
      let p := { p with ops := p.ops.map (retarget target source) }
      some ((p.setExpiry target (p.expiry source)).setExpiry source Ticks.zero)
  | .run | .staleRun => some { p with ops := abort (isOver p.now) .expired p.ops }
  | .shutdown =>
    if p.shutdown then none
    else some { p with shutdown := true, ops := abort (fun _ => true) .abandoned p.ops }

def initial (now : Ticks) : Pool ι := { now := now }

end Pool

/-! ## The queue after a cancellation -/

/-- The queue is valid until the end of the reactor, and then it is empty. -/
structure Usable (shutdown : Bool) (q : TimerQueue.State ι Ticks) : Prop where
  valid : shutdown = false → Valid q
  drained : shutdown = true → Drained q

/-- The waits on one timer are changed to `left`. -/
structure Changes (shutdown : Bool) (timer : ι) (left : List WaitOp)
    (q q' : TimerQueue.State ι Ticks) : Prop where
  usable : Usable shutdown q'
  queues : ∀ u, q'.opQueue u = if u = timer then left else q.opQueue u
  expiries : shutdown = false → ∀ u, TimerQueue.expiry q' u =
    if u = timer ∧ left = [] then none else TimerQueue.expiry q u

section

variable {shutdown : Bool} {timer : ι} {left : List WaitOp} {q q' : TimerQueue.State ι Ticks}

theorem Changes.of_leaves (h : Leaves timer left q q') : Changes false timer left q q' where
  usable := ⟨fun _ => h.valid, fun hd => absurd hd (by simp)⟩
  queues := h.queues
  expiries := fun _ => h.expiries

/-- A timer without waits. -/
theorem Changes.of_empty (h : Usable shutdown q) (hempty : q.opQueue timer = []) :
    Changes shutdown timer [] q q where
  usable := h
  queues := by
    intro u
    split_ifs with hu
    · rw [hu, hempty]
    · rfl
  expiries := by
    intro hs u
    split_ifs with hu
    · rw [Option.eq_none_iff_forall_ne_some]
      intro x hx
      have hne := (h.valid hs).isSome_expiry_iff.mp ⟨x, hx⟩
      rw [hu.1] at hne
      exact hne hempty
    · rfl

theorem not_isActive (h : Drained q) : ¬ isActive timer q = true := by
  simp [isActive, h.links]

theorem cancelTimer_changes (h : Usable shutdown q) (timer : ι) (maxCancelled : Option ℕ) :
    let n := numCancelled timer maxCancelled q
    (TimerQueue.cancelTimer timer [] maxCancelled q).1 = n ∧
      (TimerQueue.cancelTimer timer [] maxCancelled q).2.1 =
        ((q.opQueue timer).take n).map WaitOp.aborted ∧
      Changes shutdown timer ((q.opQueue timer).drop n) q
        (TimerQueue.cancelTimer timer [] maxCancelled q).2.2 := by
  intro n
  cases shutdown with
  | false =>
    obtain ⟨hn, hops, hleaves⟩ := cancelTimer_spec (h.valid rfl) timer [] maxCancelled
    exact ⟨hn, hops, Changes.of_leaves hleaves⟩
  | true =>
    have hempty := (h.drained rfl).queues timer
    have hn : n = 0 := by simp [n, numCancelled, hempty]
    unfold TimerQueue.cancelTimer
    rw [if_neg (not_isActive (h.drained rfl)), hn, hempty]
    exact ⟨rfl, rfl, Changes.of_empty h hempty⟩

theorem cancelTimerByKey_changes (h : Usable shutdown q) (timer : ι) (key : ℕ) :
    (TimerQueue.cancelTimerByKey timer [] key q).1 =
        ((q.opQueue timer).filter fun op => op.cancellationKey == key).map WaitOp.aborted ∧
      Changes shutdown timer ((q.opQueue timer).filter fun op => !(op.cancellationKey == key)) q
        (TimerQueue.cancelTimerByKey timer [] key q).2 := by
  cases shutdown with
  | false =>
    obtain ⟨hops, hleaves⟩ := cancelTimerByKey_spec (h.valid rfl) timer [] key
    exact ⟨hops, Changes.of_leaves hleaves⟩
  | true =>
    have hempty := (h.drained rfl).queues timer
    unfold TimerQueue.cancelTimerByKey
    rw [if_neg (not_isActive (h.drained rfl)), hempty]
    exact ⟨rfl, Changes.of_empty h hempty⟩

theorem moveTimer_usable {target source : ι} (h : Usable shutdown q) (hne : target ≠ source)
    (hempty : q.opQueue target = []) : Usable shutdown (TimerQueue.moveTimer target source q) := by
  refine ⟨fun hs => (moveTimer_spec (h.valid hs) hne hempty).1, fun hs => ⟨?_, ?_, ?_⟩⟩
  · rw [links_moveTimer, (h.drained hs).links]
    exact (represents_replace_of_not_mem represents_nil List.not_mem_nil
      List.not_mem_nil).follows.eq_empty
  · unfold TimerQueue.moveTimer
    dsimp only
    split
    · exact (h.drained hs).heap
    · show q.heap.modify _ _ = []
      rw [(h.drained hs).heap, List.modify_nil]
  · intro u
    rw [opQueue_moveTimer, (h.drained hs).queues, (h.drained hs).queues, (h.drained hs).queues]
    split_ifs <;> rfl

end

/-! ## Refinement -/

/-- A timer with waits is known to have some, and they are over at its expiry. -/
structure Sound (s : State ι) : Prop where
  usable : Usable s.shutdown s.queue
  pending : ∀ timer, s.queue.opQueue timer ≠ [] → s.mightHavePendingWaits timer = true
  expiries : s.shutdown = false →
    ∀ timer x, TimerQueue.expiry s.queue timer = some x → x = s.expiry timer

structure Refines (p : Pool ι) (s : State ι) : Prop where
  sound : Sound s
  now : p.now = s.now
  shutdown : p.shutdown = s.shutdown
  expiry : p.expiry = s.expiry
  queues : ∀ timer, s.queue.opQueue timer = (waiting (onTimer timer) p.ops).map Wait.op
  deadlines : ∀ k, ⟨k, none⟩ ∈ p.ops → k.deadline = s.expiry k.timer
  completed : s.completed.Perm (finished completion p.ops)
  abandoned : s.abandoned.Perm (finished abandonment p.ops)
  ids : p.ops.map (fun op => op.task.id) = List.range s.nextId

theorem refines_initial (now : Ticks) : Refines (Pool.initial now) (initial now : State ι) where
  sound := ⟨⟨fun _ => valid_empty, fun h => absurd h (by simp [initial])⟩,
    fun _ h => absurd rfl h, fun _ _ _ h => absurd h (by simp [initial, TimerQueue.expiry])⟩
  now := rfl
  shutdown := rfl
  expiry := rfl
  queues := fun _ => rfl
  deadlines := fun _ h => absurd h List.not_mem_nil
  completed := List.Perm.nil
  abandoned := List.Perm.nil
  ids := rfl

section

variable {p : Pool ι} {s s' : State ι} {timer : ι}

/-- The waits on a timer that are left when those that satisfy `c` are not. -/
theorem waiting_abortOn (c : Wait ι → Bool) (ops : List (Op (Wait ι) Outcome)) (u : ι) :
    waiting (onTimer u) (abort (fun k => onTimer timer k && c k) .aborted ops) =
      if u = timer then (waiting (onTimer timer) ops).filter fun k => !c k
      else waiting (onTimer u) ops := by
  rw [waiting_abort, ← filter_waiting]
  split_ifs with hu
  · rw [hu]
    apply List.filter_congr
    intro k hk
    rw [(mem_waiting.mp hk).2, Bool.true_and]
  · rw [List.filter_eq_self]
    intro k hk
    have hon := (mem_waiting.mp hk).2
    simp only [onTimer, decide_eq_true_eq] at hon
    simp [onTimer, hon, hu]

/-- What a cancellation does to the pool. -/
theorem Refines.abortOn (h : Refines p s) (c : Wait ι → Bool)
    (hchanges : Changes s.shutdown timer
      (((waiting (onTimer timer) p.ops).filter fun k => !c k).map Wait.op) s.queue s'.queue)
    (hcompleted : s'.completed = s.completed ++
      ((waiting (onTimer timer) p.ops).filter c).map fun k => k.op.aborted)
    (hpending : ∀ u, s'.queue.opQueue u ≠ [] → s'.mightHavePendingWaits u = true)
    (hframe : s'.shutdown = s.shutdown ∧ s'.now = s.now ∧ s'.expiry = s.expiry ∧
      s'.abandoned = s.abandoned ∧ s'.nextId = s.nextId) :
    Refines (p.abortOn timer c) s' := by
  obtain ⟨hshutdown, hnow, hexpiry, habandoned, hnext⟩ := hframe
  have hbatch : (waiting (fun k => onTimer timer k && c k) p.ops) =
      (waiting (onTimer timer) p.ops).filter c := (filter_waiting ..).symm
  refine ⟨⟨hshutdown ▸ hchanges.usable, hpending, ?_⟩, h.now.trans hnow.symm,
    h.shutdown.trans hshutdown.symm, h.expiry.trans hexpiry.symm, ?_, ?_, ?_, ?_, ?_⟩
  · intro hs u x hx
    rw [hshutdown] at hs
    rw [hchanges.expiries hs] at hx
    split_ifs at hx with hu
    rw [hexpiry]
    exact h.sound.expiries hs u x hx
  · intro u
    rw [hchanges.queues, Pool.ops_abortOn, waiting_abortOn]
    split_ifs with hu
    · rfl
    · exact h.queues u
  · intro k hk
    rw [Pool.ops_abortOn] at hk
    rcases mem_abort _ _ hk with ⟨hmem, -⟩ | ⟨-, hres, -⟩
    · rw [hexpiry]
      exact h.deadlines k hmem
    · exact absurd hres (by simp)
  · rw [hcompleted, Pool.ops_abortOn]
    refine List.Perm.trans ?_ (perm_finished_abort _ _ completion p.ops).symm
    rw [hbatch]
    refine h.completed.append (List.Perm.of_eq ?_)
    show _ = List.filterMap (some ∘ fun k : Wait ι => k.op.aborted) _
    rw [List.filterMap_eq_map]
  · rw [habandoned, Pool.ops_abortOn]
    refine List.Perm.trans ?_ (perm_finished_abort _ _ abandonment p.ops).symm
    have hnone : (waiting (fun k => onTimer timer k && c k) p.ops).filterMap
        (fun k => abandonment k .aborted) = [] := by simp [abandonment]
    rw [hnone, List.append_nil]
    exact h.abandoned
  · rw [hnext, ← h.ids]
    have htask := congrArg (List.map Wait.id)
      (map_task_abort (fun k => onTimer timer k && c k) Outcome.aborted p.ops)
    rwa [List.map_map, List.map_map] at htask

/-! ### The operations on one timer -/

theorem Refines.queue_eq_nil (h : Refines p s) :
    s.queue.opQueue timer = [] ↔ waiting (onTimer timer) p.ops = [] := by
  rw [h.queues, List.map_eq_nil_iff]

theorem Refines.nodup_ids (h : Refines p s) (q : Wait ι → Bool) :
    ((waiting q p.ops).map Wait.id).Nodup := by
  have hall : (p.ops.map fun op => op.task.id).Nodup := by
    rw [h.ids]
    exact List.nodup_range
  have hsub := (waiting_sublist q p.ops).map Wait.id
  rw [List.map_map] at hsub
  exact hall.sublist hsub

theorem Refines.abortOn_of_empty (h : Refines p s) (hempty : s.queue.opQueue timer = [])
    (c : Wait ι → Bool) : Refines (p.abortOn timer c) s := by
  have hwaits := h.queue_eq_nil.mp hempty
  refine h.abortOn c ?_ ?_ h.sound.pending ⟨rfl, rfl, rfl, rfl, rfl⟩
  · rw [hwaits]
    exact Changes.of_empty h.sound.usable hempty
  · rw [hwaits]
    exact (List.append_nil _).symm

theorem refines_cancelTimer (h : Refines p s) (maxCancelled : Option ℕ) (c : Wait ι → Bool)
    (htake : (waiting (onTimer timer) p.ops).filter c =
      (waiting (onTimer timer) p.ops).take (numCancelled timer maxCancelled s.queue))
    (hdrop : ((waiting (onTimer timer) p.ops).filter fun k => !c k) =
      (waiting (onTimer timer) p.ops).drop (numCancelled timer maxCancelled s.queue)) :
    (cancelTimer timer maxCancelled s).1 = numCancelled timer maxCancelled s.queue ∧
      Refines (p.abortOn timer c) (cancelTimer timer maxCancelled s).2 := by
  obtain ⟨hn, hops, hchanges⟩ := cancelTimer_changes h.sound.usable timer maxCancelled
  refine ⟨hn, h.abortOn c ?_ ?_ ?_ ⟨rfl, rfl, rfl, rfl, rfl⟩⟩
  · rw [hdrop, List.map_drop, ← h.queues]
    exact hchanges
  · show s.completed ++ (TimerQueue.cancelTimer timer [] maxCancelled s.queue).2.1 = _
    rw [hops, htake, h.queues, ← List.map_take, List.map_map]
    rfl
  · intro u hu
    apply h.sound.pending
    intro hempty
    apply hu
    show (TimerQueue.cancelTimer timer [] maxCancelled s.queue).2.2.opQueue u = []
    rw [hchanges.queues]
    split_ifs with ht
    · rw [← ht, hempty, List.drop_nil]
    · exact hempty

/-- Only a timer without waits is not known to have some. -/
theorem Refines.setMightHave (h : Refines p s) {b : Bool}
    (hb : b = false → s.queue.opQueue timer = []) : Refines p (setMightHave timer b s) := by
  refine ⟨⟨h.sound.usable, ?_, h.sound.expiries⟩, h.now, h.shutdown, h.expiry, h.queues, h.deadlines,
    h.completed, h.abandoned, h.ids⟩
  intro u hu
  show Function.update s.mightHavePendingWaits timer b u = true
  rw [Function.update_apply]
  split_ifs with ht
  · cases b with
    | false => exact absurd (hb rfl) (ht ▸ hu)
    | true => rfl
  · exact h.sound.pending u hu

theorem Refines.setExpiry (h : Refines p s) (time : Ticks) (hempty : s.queue.opQueue timer = []) :
    Refines (p.setExpiry timer time) (setExpiry timer time s) := by
  have hother : ∀ k, ⟨k, none⟩ ∈ p.ops → k.timer ≠ timer := by
    intro k hk ht
    have hmem : k ∈ waiting (onTimer timer) p.ops := mem_waiting.mpr ⟨hk, decide_eq_true ht⟩
    rw [h.queue_eq_nil.mp hempty] at hmem
    exact List.not_mem_nil hmem
  refine ⟨⟨h.sound.usable, h.sound.pending, ?_⟩, h.now, h.shutdown, ?_, h.queues, ?_,
    h.completed, h.abandoned, h.ids⟩
  · intro hs u x hx
    have hu : u ≠ timer := by
      rintro rfl
      exact (h.sound.usable.valid hs).isSome_expiry_iff.mp ⟨x, hx⟩ hempty
    rw [h.sound.expiries hs u x hx]
    exact (Function.update_of_ne hu ..).symm
  · show Function.update p.expiry timer time = Function.update s.expiry timer time
    rw [h.expiry]
  · intro k hk
    rw [h.deadlines k hk]
    exact (Function.update_of_ne (hother k hk) ..).symm

theorem refines_cancelAll (h : Refines p s) (timer : ι) :
    (cancelTimer timer none s).1 = (waiting (onTimer timer) p.ops).length ∧
      (cancelTimer timer none s).2.queue.opQueue timer = [] ∧
      Refines (p.abortOn timer fun _ => true) (cancelTimer timer none s).2 := by
  have hall : numCancelled timer none s.queue = (waiting (onTimer timer) p.ops).length := by
    simp [numCancelled, h.queues]
  obtain ⟨hn, hafter⟩ := refines_cancelTimer h none (fun _ => true)
    (by rw [hall, List.take_length]; simp) (by rw [hall, List.drop_length]; simp)
  refine ⟨hn.trans hall, ?_, hafter⟩
  rw [hafter.queue_eq_nil, Pool.ops_abortOn, waiting_abortOn, if_pos rfl]
  simp

/-- `cancel` aborts all waits on the timer, and says how many. -/
theorem refines_cancel (h : Refines p s) (timer : ι) :
    (cancel timer s).1 = (waiting (onTimer timer) p.ops).length ∧
      (cancel timer s).2.queue.opQueue timer = [] ∧
      Refines (p.abortOn timer fun _ => true) (cancel timer s).2 := by
  unfold cancel
  split_ifs with hmight
  · obtain ⟨hn, hempty, hafter⟩ := refines_cancelAll h timer
    exact ⟨hn, hempty, hafter.setMightHave fun _ => hempty⟩
  · have hempty : s.queue.opQueue timer = [] := by
      by_contra hne
      exact hmight (h.sound.pending timer hne)
    refine ⟨?_, hempty, h.abortOn_of_empty hempty _⟩
    rw [h.queue_eq_nil.mp hempty]
    rfl

/-- `cancel_one` aborts the first one, if there is one, and says how many. -/
theorem refines_cancelOne (h : Refines p s) (timer : ι) :
    (cancelOne timer s).1 = ((waiting (onTimer timer) p.ops).take 1).length ∧
      Refines (p.abortOn timer (p.isFirst timer)) (cancelOne timer s).2 := by
  obtain ⟨htake, hdrop⟩ := filter_head (h.nodup_ids (onTimer timer))
  unfold cancelOne
  split_ifs with hmight
  · have hone : numCancelled timer (some 1) s.queue =
        min 1 (waiting (onTimer timer) p.ops).length := by
      simp [numCancelled, h.queues]
    obtain ⟨hn, hafter⟩ := refines_cancelTimer h (some 1) (p.isFirst timer)
      (by
        rw [hone, ← List.take_eq_take_min]
        exact htake)
      (by
        rw [hone, ← List.drop_eq_drop_min]
        exact hdrop)
    refine ⟨?_, ?_⟩
    · rw [List.length_take, ← hone]
      exact hn
    · dsimp only
      split_ifs with hzero
      · apply hafter.setMightHave
        intro _
        have hnone : (waiting (onTimer timer) p.ops) = [] := by
          rw [hn, hone] at hzero
          apply List.eq_nil_of_length_eq_zero
          omega
        rw [hafter.queue_eq_nil, Pool.ops_abortOn, waiting_abortOn, if_pos rfl, hnone]
        rfl
      · exact hafter
  · have hempty : s.queue.opQueue timer = [] := by
      by_contra hne
      exact hmight (h.sound.pending timer hne)
    refine ⟨?_, h.abortOn_of_empty hempty _⟩
    rw [h.queue_eq_nil.mp hempty]
    rfl

theorem refines_cancelSlot (h : Refines p s) (timer : ι) (key : ℕ) :
    Refines (p.abortOn timer fun k => k.cancellationKey == key) (cancelTimerByKey timer key s) := by
  obtain ⟨hops, hchanges⟩ := cancelTimerByKey_changes h.sound.usable timer key
  refine h.abortOn _ ?_ ?_ ?_ ⟨rfl, rfl, rfl, rfl, rfl⟩
  · rw [h.queues, List.filter_map] at hchanges
    exact hchanges
  · show s.completed ++ (TimerQueue.cancelTimerByKey timer [] key s.queue).1 = _
    rw [hops, h.queues, List.filter_map, List.map_map]
    rfl
  · intro u hu
    apply h.sound.pending
    intro hempty
    apply hu
    show (TimerQueue.cancelTimerByKey timer [] key s.queue).2.opQueue u = []
    rw [hchanges.queues]
    split_ifs with ht
    · rw [← ht, hempty]
      rfl
    · exact hempty

theorem refines_expiresAt (h : Refines p s) (timer : ι) (time : Ticks) :
    Refines ((p.abortOn timer fun _ => true).setExpiry timer time) (expiresAt timer time s).2 := by
  obtain ⟨-, hempty, hafter⟩ := refines_cancel h timer
  exact hafter.setExpiry time hempty

/-! ### Starting a wait -/

theorem Refines.updateTimeout (h : Refines p s) :
    ∃ s', updateTimeout s = some s' ∧ Refines p s' := by
  obtain ⟨spec, hspec, -⟩ := getTimeout_spec s.now s.queue
  refine ⟨{ s with wake := some (spec.wakeTime s.now) }, ?_, ?_⟩
  · unfold DeadlineTimer.updateTimeout
    rw [hspec]
    rfl
  · exact ⟨⟨h.sound.usable, h.sound.pending, h.sound.expiries⟩, h.now, h.shutdown, h.expiry,
      h.queues, h.deadlines, h.completed, h.abandoned, h.ids⟩

theorem refines_asyncWait (h : Refines p s) (timer : ι) (key : ℕ) :
    ∃ s', asyncWait timer key s = some s' ∧ Refines
      { p with ops := p.ops ++ [⟨⟨p.ops.length, timer, p.expiry timer, key⟩,
        if p.shutdown then some .refused else none⟩] } s' := by
  obtain ⟨ops, expiry, shutdown, now⟩ := p
  obtain rfl : expiry = s.expiry := h.expiry
  obtain rfl : shutdown = s.shutdown := h.shutdown
  have hlength : ops.length = s.nextId := by
    have hlen := congrArg List.length h.ids
    rwa [List.length_map, List.length_range] at hlen
  have hids : ∀ (k : Wait ι) (result : Option Outcome), k.id = s.nextId →
      (ops ++ [Op.mk k result]).map (fun op => op.task.id) = List.range (s.nextId + 1) := by
    intro k result hk
    rw [List.map_append, h.ids, List.range_succ, ← hk]
    rfl
  rw [hlength]
  unfold asyncWait scheduleTimer
  dsimp only [setMightHave]
  have hpending : ∀ u, s.queue.opQueue u ≠ [] ∨ u = timer →
      Function.update s.mightHavePendingWaits timer true u = true := by
    intro u hu
    rw [Function.update_apply]
    split_ifs with ht
    · rfl
    · exact h.sound.pending u (hu.resolve_right ht)
  by_cases hs : s.shutdown = true
  · rw [if_pos hs, if_pos hs]
    refine ⟨_, rfl, ⟨h.sound.usable, fun u hu => hpending u (Or.inl hu), h.sound.expiries⟩, h.now,
      rfl, rfl, ?_, ?_, ?_, ?_, hids ⟨s.nextId, timer, s.expiry timer, key⟩ _ rfl⟩
    · intro u
      rw [waiting_snoc, h.queues]
      simp
    · intro k hk
      apply h.deadlines
      simpa using hk
    · rw [finished_snoc]
      exact h.completed.append_right _
    · rw [finished_snoc]
      exact h.abandoned.trans (List.Perm.of_eq (List.append_nil _).symm)
  · have hvalid := h.sound.usable.valid (Bool.eq_false_iff.mpr hs)
    have hexp := expiry_enqueueTimer (s.expiry timer) timer
      { id := s.nextId, cancellationKey := key } hvalid
    have hqueue := opQueue_enqueueTimer (s.expiry timer) timer
      { id := s.nextId, cancellationKey := key } s.queue
    rw [if_neg hs, if_neg hs]
    have hafter : Refines
        ⟨ops ++ [⟨⟨s.nextId, timer, s.expiry timer, key⟩, none⟩], s.expiry, s.shutdown, now⟩
        { s with
          nextId := s.nextId + 1
          mightHavePendingWaits := Function.update s.mightHavePendingWaits timer true
          queue := (enqueueTimer (s.expiry timer) timer
            { id := s.nextId, cancellationKey := key } s.queue).2 } := by
      refine ⟨⟨⟨fun _ => valid_enqueueTimer _ _ _ hvalid, fun hd => absurd hd hs⟩, ?_, ?_⟩, h.now,
        rfl, rfl, ?_, ?_, ?_, ?_, hids ⟨s.nextId, timer, s.expiry timer, key⟩ none rfl⟩
      · intro u hu
        apply hpending
        rw [hqueue] at hu
        split_ifs at hu with ht
        · exact Or.inr ht
        · exact Or.inl hu
      · intro hno u x hx
        rw [hexp] at hx
        split_ifs at hx with ht
        · obtain rfl := Option.some.inj hx
          rw [ht]
          cases hold : TimerQueue.expiry s.queue timer with
          | none => rfl
          | some x => exact h.sound.expiries hno timer x hold
        · exact h.sound.expiries hno u x hx
      · intro u
        rw [hqueue, waiting_snoc, List.map_append, ← h.queues]
        split_ifs with ht hon hon
        · rw [ht]
          rfl
        · exact absurd (by simp [onTimer, ht]) hon
        · exact absurd (by simpa [onTimer] using hon) (Ne.symm ht)
        · exact (List.append_nil _).symm
      · intro k hk
        rcases List.mem_append.mp hk with hk | hk
        · exact h.deadlines k hk
        · simp only [List.mem_singleton, Op.mk.injEq, and_true] at hk
          rw [hk]
      · rw [finished_snoc]
        exact h.completed.trans (List.Perm.of_eq (List.append_nil _).symm)
      · rw [finished_snoc]
        exact h.abandoned.trans (List.Perm.of_eq (List.append_nil _).symm)
    split_ifs with hearliest
    · exact hafter.updateTimeout
    · exact ⟨_, rfl, hafter⟩

/-! ### Moving a timer -/

/-- What becomes of an outstanding wait. -/
def Wait.retarget (target source : ι) (k : Wait ι) : Wait ι :=
  if onTimer source k then { k with timer := target } else k

@[simp] theorem op_retarget (target source : ι) (k : Wait ι) :
    (k.retarget target source).op = k.op := by
  unfold Wait.retarget
  split_ifs <;> rfl

theorem retarget_none (target source : ι) (k : Wait ι) :
    Pool.retarget target source ⟨k, none⟩ = ⟨k.retarget target source, none⟩ := by
  unfold Pool.retarget Wait.retarget
  cases onTimer source k <;> rfl

theorem waiting_retarget (target source : ι) (q : Wait ι → Bool)
    (ops : List (Op (Wait ι) Outcome)) :
    waiting q (ops.map (Pool.retarget target source)) =
      (waiting (fun k => q (k.retarget target source)) ops).map (Wait.retarget target source) := by
  unfold waiting
  rw [List.filterMap_map, List.map_filterMap]
  apply List.filterMap_congr
  intro op _
  obtain ⟨k, result⟩ := op
  rw [Function.comp_apply]
  cases result with
  | some r => rfl
  | none =>
    rw [retarget_none]
    cases hq : q (k.retarget target source) <;> simp [hq]

theorem finished_retarget (target source : ι) (g : Wait ι → Outcome → Option WaitOp)
    (ops : List (Op (Wait ι) Outcome)) :
    finished g (ops.map (Pool.retarget target source)) = finished g ops := by
  unfold finished
  rw [List.filterMap_map]
  apply List.filterMap_congr
  intro op _
  obtain ⟨k, result⟩ := op
  rw [Function.comp_apply]
  cases result with
  | some r => rfl
  | none =>
    rw [retarget_none]
    rfl

theorem refines_move (h : Refines p s) {target source : ι} (hne : target ≠ source)
    (hempty : s.queue.opQueue target = []) :
    Refines (({ p with ops := p.ops.map (Pool.retarget target source) }.setExpiry target
      (p.expiry source)).setExpiry source Ticks.zero) (setMightHave source false
        (setMightHave target (s.mightHavePendingWaits source) (setExpiry source Ticks.zero
          (setExpiry target (s.expiry source)
            { s with queue := TimerQueue.moveTimer target source s.queue })))) := by
  have hqueue : ∀ u, (TimerQueue.moveTimer target source s.queue).opQueue u =
      if u = source then [] else if u = target then s.queue.opQueue source
        else s.queue.opQueue u := by
    intro u
    rw [opQueue_moveTimer, hempty, List.nil_append]
  have hother : ∀ k, ⟨k, none⟩ ∈ p.ops → onTimer target k = false := by
    intro k hk
    by_contra hno
    have hmem := mem_waiting.mpr ⟨hk, (Bool.not_eq_false _).mp hno⟩
    rw [h.queue_eq_nil.mp hempty] at hmem
    exact List.not_mem_nil hmem
  have hupdate : ∀ {α : Type} (f : ι → α) (x y : α) (u : ι),
      Function.update (Function.update f target x) source y u =
        if u = source then y else if u = target then x else f u := by
    intro α f x y u
    rw [Function.update_apply, Function.update_apply]
  refine ⟨⟨moveTimer_usable h.sound.usable hne hempty, ?_, ?_⟩, h.now, h.shutdown, ?_, ?_, ?_, ?_, ?_,
    ?_⟩
  · intro u hu
    refine (hupdate s.mightHavePendingWaits _ _ u).trans ?_
    replace hu : (TimerQueue.moveTimer target source s.queue).opQueue u ≠ [] := hu
    rw [hqueue] at hu
    split_ifs at hu ⊢ with h1 h2
    · exact absurd rfl hu
    · exact h.sound.pending source hu
    · exact h.sound.pending u hu
  · intro hs u x hx
    refine Eq.trans ?_ (hupdate s.expiry _ _ u).symm
    replace hx : TimerQueue.expiry (TimerQueue.moveTimer target source s.queue) u = some x := hx
    rw [(moveTimer_spec (h.sound.usable.valid hs) hne hempty).2.2] at hx
    split_ifs at hx ⊢ with h1 h2
    · exact h.sound.expiries hs source x hx
    · exact h.sound.expiries hs u x hx
  · show Function.update (Function.update p.expiry _ _) _ _ =
      Function.update (Function.update s.expiry _ _) _ _
    rw [h.expiry]
  · intro u
    show (TimerQueue.moveTimer target source s.queue).opQueue u =
      (waiting (onTimer u) (p.ops.map (Pool.retarget target source))).map Wait.op
    have hop : ∀ ks : List (Wait ι),
        (ks.map (Wait.retarget target source)).map Wait.op = ks.map Wait.op := by
      intro ks
      rw [List.map_map]
      exact List.map_congr_left fun k _ => op_retarget ..
    have hon : ∀ k, ⟨k, none⟩ ∈ p.ops → onTimer u (k.retarget target source) =
        if u = source then false else if u = target then onTimer source k else onTimer u k := by
      intro k hk
      have hnot := hother k hk
      unfold Wait.retarget onTimer at *
      grind
    rw [hqueue, waiting_retarget, hop, waiting_congr hon]
    split_ifs
    · simp [waiting]
    · exact h.queues source
    · exact h.queues u
  · intro k hk
    refine Eq.trans ?_ (hupdate s.expiry _ _ k.timer).symm
    obtain ⟨⟨k', result⟩, hmem, heq⟩ := List.mem_map.mp hk
    cases result with
    | some r => exact absurd (congrArg Op.result heq) (by simp [Pool.retarget])
    | none =>
      rw [retarget_none] at heq
      obtain rfl : k'.retarget target source = k := congrArg Op.task heq
      have hold := h.deadlines k' hmem
      have hnot := hother k' hmem
      unfold Wait.retarget onTimer at *
      grind
  · show s.completed.Perm (finished completion (p.ops.map (Pool.retarget target source)))
    rw [finished_retarget]
    exact h.completed
  · show s.abandoned.Perm (finished abandonment (p.ops.map (Pool.retarget target source)))
    rw [finished_retarget]
    exact h.abandoned
  · show (p.ops.map (Pool.retarget target source)).map _ = _
    refine Eq.trans ?_ h.ids
    rw [List.map_map]
    apply List.map_congr_left
    intro op _
    rw [Function.comp_apply]
    unfold Pool.retarget
    split_ifs <;> rfl

/-! ### All timers -/

/-- What a batch that `q` describes does to the pool. -/
theorem Refines.abortAll (h : Refines p s) (s' : State ι) (q : Wait ι → Bool) (r : Outcome)
    (batch lost : List WaitOp) (husable : Usable s'.shutdown s'.queue)
    (hqueues : ∀ u, s'.queue.opQueue u =
      ((waiting (onTimer u) p.ops).filter fun k => !q k).map Wait.op)
    (hexpiries : s'.shutdown = false → ∀ u x, TimerQueue.expiry s'.queue u = some x →
      TimerQueue.expiry s.queue u = some x ∧ s.shutdown = false)
    (hcompleted : s'.completed = s.completed ++ batch)
    (hbatch : batch.Perm ((waiting q p.ops).filterMap fun k => completion k r))
    (habandoned : s'.abandoned = s.abandoned ++ lost)
    (hlost : lost.Perm ((waiting q p.ops).filterMap fun k => abandonment k r))
    (hframe : s'.now = s.now ∧ s'.expiry = s.expiry ∧
      s'.mightHavePendingWaits = s.mightHavePendingWaits ∧ s'.nextId = s.nextId) :
    Refines { p with shutdown := s'.shutdown, ops := abort q r p.ops } s' := by
  obtain ⟨hnow, hexpiry, hmight, hnext⟩ := hframe
  refine ⟨⟨husable, ?_, ?_⟩, h.now.trans hnow.symm, rfl, h.expiry.trans hexpiry.symm, ?_, ?_, ?_, ?_,
    ?_⟩
  · intro u hu
    rw [hmight]
    apply h.sound.pending
    intro hempty
    apply hu
    rw [hqueues, h.queue_eq_nil.mp hempty]
    rfl
  · intro hs u x hx
    obtain ⟨hold, hs'⟩ := hexpiries hs u x hx
    rw [hexpiry]
    exact h.sound.expiries hs' u x hold
  · intro u
    rw [hqueues, waiting_abort, ← filter_waiting]
  · intro k hk
    rcases mem_abort _ _ hk with ⟨hmem, -⟩ | ⟨-, hres, -⟩
    · rw [hexpiry]
      exact h.deadlines k hmem
    · exact absurd hres (by simp)
  · rw [hcompleted]
    exact (h.completed.append hbatch).trans (perm_finished_abort _ _ completion p.ops).symm
  · rw [habandoned]
    exact (h.abandoned.append hlost).trans (perm_finished_abort _ _ abandonment p.ops).symm
  · rw [hnext, ← h.ids]
    have htask := congrArg (List.map Wait.id) (map_task_abort q r p.ops)
    rwa [List.map_map, List.map_map] at htask

/-- The waits on some timers, timer by timer. -/
theorem perm_flatMap_queues (h : Refines p s) {us : List ι} (hus : us.Nodup) :
    (us.flatMap s.queue.opQueue).Perm
      ((waiting (fun k => decide (k.timer ∈ us)) p.ops).map Wait.op) := by
  have hbatch := perm_flatMap_filter Wait.timer (waiting (fun _ => true) p.ops) hus
  have hall : ∀ q : Wait ι → Bool,
      (waiting (fun _ => true) p.ops).filter q = waiting q p.ops := by
    intro q
    rw [filter_waiting]
    simp only [Bool.true_and]
  have hleft : us.flatMap s.queue.opQueue =
      (us.flatMap fun u => (waiting (fun _ => true) p.ops).filter fun k => k.timer = u).map
        Wait.op := by
    rw [List.map_flatMap]
    apply List.flatMap_congr
    intro u _
    rw [h.queues, hall]
    rfl
  rw [hall fun k => decide (k.timer ∈ us)] at hbatch
  rw [hleft]
  exact hbatch.map _

/-- The waits on a timer are all over, or none is. -/
theorem isOver_of_waiting (h : Refines p s) {now : Ticks} {u : ι} {k : Wait ι}
    (hk : k ∈ waiting (onTimer u) p.ops) : isOver now k = decide (s.expiry u ≤ now) := by
  obtain ⟨hmem, hon⟩ := mem_waiting.mp hk
  simp only [onTimer, decide_eq_true_eq] at hon
  unfold isOver
  rw [h.deadlines k hmem, hon]

theorem refines_run (h : Refines p s) (hs : s.shutdown = false) :
    ∃ s', runReactor s = some s' ∧
      Refines { p with ops := abort (isOver p.now) .expired p.ops } s' := by
  have hvalid := h.sound.usable.valid hs
  obtain ⟨us, hus, hout⟩ := getReadyTimers_spec s.now [] hvalid
  -- the timers that have been dequeued are those whose waits are over
  have hready : ∀ u k, k ∈ waiting (onTimer u) p.ops → (u ∈ us ↔ isOver s.now k = true) := by
    intro u k hk
    rw [isOver_of_waiting h hk, decide_eq_true_eq, hus.ready]
    have hne : s.queue.opQueue u ≠ [] := by
      rw [Ne, h.queue_eq_nil]
      exact List.ne_nil_of_mem hk
    obtain ⟨x, hx⟩ := hvalid.isSome_expiry_iff.mpr hne
    have hexp := h.sound.expiries hs u x hx
    constructor
    · rintro ⟨y, hy, hle⟩
      rw [← h.sound.expiries hs u y hy]
      exact hle
    · intro hle
      exact ⟨x, hx, hexp ▸ hle⟩
  have hops : (getReadyTimers s.now [] s.queue).1 = us.flatMap s.queue.opQueue := by
    rw [hout, List.nil_append]
    apply List.flatMap_congr
    intro u _
    rw [h.queues, List.map_map]
    rfl
  have hwaits : waiting (fun k => decide (k.timer ∈ us)) p.ops = waiting (isOver s.now) p.ops := by
    apply waiting_congr
    intro k hk
    have hiff := hready k.timer k (mem_waiting.mpr ⟨hk, decide_eq_true rfl⟩)
    rw [Bool.eq_iff_iff, decide_eq_true_eq, hiff]
  let ready : State ι := { s with
    queue := (getReadyTimers s.now [] s.queue).2
    completed := s.completed ++ (getReadyTimers s.now [] s.queue).1 }
  have hafter : Refines
      { p with shutdown := s.shutdown, ops := abort (isOver s.now) .expired p.ops } ready := by
    refine h.abortAll ready (isOver s.now) .expired (getReadyTimers s.now [] s.queue).1 []
      ⟨fun _ => hus.valid, fun hd => absurd (hs.symm.trans hd) (by simp)⟩ ?_ ?_ rfl ?_
      (List.append_nil _).symm ?_ ⟨rfl, rfl, rfl, rfl⟩
    · intro u
      rw [hus.queues, h.queues]
      split_ifs with hu
      · symm
        rw [List.map_eq_nil_iff, List.filter_eq_nil_iff]
        intro k hk hno
        rw [(hready u k hk).mp hu] at hno
        exact absurd hno (by simp)
      · congr 1
        symm
        rw [List.filter_eq_self]
        intro k hk
        rw [Bool.eq_false_iff.mpr (mt (hready u k hk).mpr hu)]
        rfl
    · intro _ u x hx
      rw [hus.expiries] at hx
      split_ifs at hx
      exact ⟨hx, hs⟩
    · rw [hops]
      refine (perm_flatMap_queues h hus.nodup).trans (List.Perm.of_eq ?_)
      rw [hwaits]
      show _ = (waiting (isOver s.now) p.ops).filterMap (some ∘ Wait.op)
      rw [List.filterMap_eq_map]
    · simp [abandonment]
  obtain ⟨s', hs', hr⟩ := hafter.updateTimeout
  refine ⟨s', hs', ?_⟩
  have hover : isOver p.now = isOver (ι := ι) s.now := by rw [h.now]
  rw [hover]
  rw [← h.shutdown] at hr
  exact hr

theorem refines_shutdown (h : Refines p s) (hs : s.shutdown = false) :
    Refines { p with shutdown := true, ops := abort (fun _ => true) .abandoned p.ops }
      (shutdownReactor s) := by
  obtain ⟨us, hus, hmem, hops, hdrained⟩ := getAllTimers_spec [] (h.sound.usable.valid hs)
  have hwaits : waiting (fun k => decide (k.timer ∈ us)) p.ops = waiting (fun _ => true) p.ops := by
    apply waiting_congr
    intro k hk
    have hon : k ∈ waiting (onTimer k.timer) p.ops := mem_waiting.mpr ⟨hk, decide_eq_true rfl⟩
    rw [decide_eq_true_eq, hmem, Ne, h.queue_eq_nil]
    exact List.ne_nil_of_mem hon
  refine h.abortAll (shutdownReactor s) (fun _ => true) .abandoned [] (getAllTimers [] s.queue).1
    ⟨fun hno => absurd hno (by simp [shutdownReactor]), fun _ => hdrained⟩ ?_ ?_
    (List.append_nil _).symm ?_ rfl ?_ ⟨rfl, rfl, rfl, rfl⟩
  · intro u
    refine (hdrained.queues u).trans ?_
    simp
  · intro hno
    exact absurd hno (by simp [shutdownReactor])
  · simp [completion]
  · show (getAllTimers [] s.queue).1.Perm _
    rw [hops, List.nil_append]
    refine (perm_flatMap_queues h hus).trans (List.Perm.of_eq ?_)
    rw [hwaits]
    show _ = (waiting (fun _ => true) p.ops).filterMap (some ∘ Wait.op)
    rw [List.filterMap_eq_map]

/-! ### Runs -/

theorem refines_step (h : Refines p s) (l : Label ι) (hs : step s l = some s') :
    ∃ p', p.step l = some p' ∧ Refines p' s' := by
  cases l with
  | tick now =>
    simp only [step] at hs
    split_ifs at hs with hle
    obtain rfl := Option.some.inj hs
    refine ⟨{ p with now := now }, if_pos (h.now.symm ▸ hle), ?_⟩
    exact ⟨⟨h.sound.usable, h.sound.pending, h.sound.expiries⟩, rfl, h.shutdown, h.expiry, h.queues,
      h.deadlines, h.completed, h.abandoned, h.ids⟩
  | asyncWait timer key =>
    obtain ⟨s'', hs'', hr⟩ := refines_asyncWait h timer key
    obtain rfl := Option.some.inj (hs''.symm.trans hs)
    exact ⟨_, rfl, hr⟩
  | cancel timer =>
    obtain rfl := Option.some.inj hs
    exact ⟨_, rfl, (refines_cancel h timer).2.2⟩
  | cancelOne timer =>
    obtain rfl := Option.some.inj hs
    exact ⟨_, rfl, (refines_cancelOne h timer).2⟩
  | cancelSlot timer key =>
    obtain rfl := Option.some.inj hs
    exact ⟨_, rfl, refines_cancelSlot h timer key⟩
  | expiresAt timer time =>
    obtain rfl := Option.some.inj hs
    exact ⟨_, rfl, refines_expiresAt h timer time⟩
  | expiresAfter timer duration =>
    simp only [step, expiresAfter, add_eq, Option.map_some] at hs
    obtain rfl := Option.some.inj hs
    rw [← h.now]
    exact ⟨_, rfl, refines_expiresAt h timer _⟩
  | move target source =>
    simp only [step] at hs
    split_ifs at hs with hne
    obtain rfl := Option.some.inj hs
    obtain ⟨-, hempty, hafter⟩ := refines_cancelAll h target
    exact ⟨_, if_neg hne, refines_move hafter hne hempty⟩
  | run =>
    simp only [step] at hs
    split at hs
    · split_ifs at hs with hready
      obtain ⟨s'', hs'', hr⟩ := refines_run h hready.2
      obtain rfl := Option.some.inj (hs''.symm.trans hs)
      exact ⟨_, rfl, hr⟩
    · exact absurd hs (by simp)
  | staleRun =>
    simp only [step] at hs
    split_ifs at hs with hshutdown
    obtain ⟨s'', hs'', hr⟩ := refines_run h (Bool.eq_false_iff.mpr hshutdown)
    obtain rfl := Option.some.inj (hs''.symm.trans hs)
    exact ⟨_, rfl, hr⟩
  | shutdown =>
    simp only [step] at hs
    split_ifs at hs with hshutdown
    obtain rfl := Option.some.inj hs
    have hs' : s.shutdown = false := Bool.eq_false_iff.mpr hshutdown
    exact ⟨_, if_neg (h.shutdown.trans hs' ▸ Bool.false_ne_true), refines_shutdown h hs'⟩

end

/-- **Refinement.** Every run of the timers is one of the pool, and in every state reached the queue
of the reactor, with its heap, its list and its indices, holds the outstanding waits of the pool,
each with its timer, in the order in which they were started, and has completed the others as they
are complete there. -/
theorem exists_pool {now : Ticks} {ls : List (Label ι)} {s : State ι}
    (h : Run step Any (initial now) ls s) :
    ∃ p, Run Pool.step Any (Pool.initial now) ls p ∧ Refines p s :=
  h.forward (R := Refines) (fun _ _ l _ hr _ hs => refines_step hr l hs) (refines_initial now)

/-- Two timers are started, one is moved and one cancelled; then the reactor runs. -/
def someRun : List (Label ℕ) :=
  let soon : Ticks := ⟨50, by decide⟩
  [.expiresAfter 0 soon, .asyncWait 0 0, .expiresAt 1 soon, .asyncWait 1 7, .asyncWait 1 8,
    .move 2 0, .cancelSlot 1 7, .cancelOne 1, .asyncWait 1 0, .tick ⟨5000, by decide⟩]

theorem exists_pool_someRun : ∃ p, Run Pool.step Any (Pool.initial ⟨1, by decide⟩) someRun p ∧
    Refines p (reached step Any (initial ⟨1, by decide⟩) someRun) :=
  exists_pool (run_reached (by decide +kernel))

end AsioLearn.Detail.DeadlineTimer
