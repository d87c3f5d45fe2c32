import AsioLearn.Detail.Scheduler

/-!
# The task of the scheduler

The reactor runs as the task of the scheduler, on one thread at a time.

* `Orderly`: the task is in one place, the thread that has it has been interrupted whenever that is
  said of the task, and nobody sleeps when the scheduler is stopped.
-/

namespace AsioLearn.Detail.Scheduler

open Lts

/-! ## Waiting -/

/-- The thread does not wait, has not got the task and is not about to look at the queue. -/
def Place.isAway : Place → Bool
  | .outside | .handler | .descriptor | .cleanup _ | .leave => true
  | _ => false

def Place.hasTask : Place → Bool
  | .task _ | .taskDone => true
  | _ => false

/-- Where a thread may be in another function of the scheduler. -/
def Place.mayCall : Place → Bool
  | .blocked | .woken | .task true => false
  | _ => true

theorem Place.mayCall.stays {p : Place} (h : p.mayCall = true) :
    p ≠ .blocked ∧ p ≠ .woken ∧ p ≠ .task true := by
  refine ⟨?_, ?_, ?_⟩ <;> rintro rfl <;> exact absurd h (by simp [mayCall])

variable {ι : Type*}

/-- The thread goes on only if another one does something about it. -/
def Asleep (s : State ι) (u : ι) : Prop :=
  (s.thread u).place = .blocked ∨ (s.thread u).place = .task true ∧ s.interrupted = false

instance (s : State ι) (u : ι) : Decidable (Asleep s u) := inferInstanceAs (Decidable (_ ∨ _))

/-- The part of the state that decides which threads wait. -/
structure Core where
  oneThread : Bool
  hasTask : Bool
  taskInterrupted : Bool
  opQueue : List Item
  stopped : Bool
  signalled : Bool
  waiters : ℕ
  interrupted : Bool
  taken : List ℕ

def State.core (s : State ι) : Core where
  oneThread := s.oneThread
  hasTask := s.hasTask
  taskInterrupted := s.taskInterrupted
  opQueue := s.opQueue
  stopped := s.stopped
  signalled := s.signalled
  waiters := s.waiters
  interrupted := s.interrupted
  taken := s.taken

/-- The task is nowhere, in the queue or with one thread. -/
def TaskOnce (s : State ι) : Prop :=
  ∃ holder : Option ι, (∀ u, (s.thread u).place.hasTask = true ↔ holder = some u) ∧
    s.opQueue.count .task + holder.toList.length = s.hasTask.toNat

structure Orderly (s : State ι) : Prop where
  calls : ∀ u, (s.thread u).call ≠ .idle → (s.thread u).place.mayCall = true
  task : TaskOnce s
  interrupted : s.taskInterrupted = true → ∀ u, (s.thread u).place = .task true →
    s.interrupted = true
  stopped : s.stopped = true → s.signalled = true ∧ ∀ u, ¬ Asleep s u

theorem orderly_initial (oneThread : Bool) : Orderly (initial oneThread : State ι) where
  calls := by
    intro u hcall
    exact absurd rfl hcall
  task := by
    refine ⟨none, ?_, rfl⟩
    intro u
    simp [initial, Place.hasTask]
  interrupted := by
    intro _ u hplace
    exact absurd hplace (by simp [initial])
  stopped := by
    intro hstop
    exact absurd hstop (by simp [initial])

theorem interruptTask_eq (s : State ι) : interruptTask s = { s with
    taskInterrupted := s.taskInterrupted || s.hasTask
    interrupted := s.interrupted || (!s.taskInterrupted && s.hasTask) } := by
  obtain ⟨oneThread, hasTask, taskInterrupted⟩ := s
  cases taskInterrupted <;> cases hasTask <;> simp [interruptTask]

theorem wakeOneThreadAndUnlock_eq (s : State ι) : wakeOneThreadAndUnlock s =
    if 0 < s.waiters then ({ s with signalled := true }, .signal)
    else ({ s with
      signalled := true
      taskInterrupted := s.taskInterrupted || s.hasTask
      interrupted := s.interrupted || (!s.taskInterrupted && s.hasTask) }, .idle) := by
  unfold wakeOneThreadAndUnlock
  rw [interruptTask_eq]

/-! ### Shared changes -/

section

variable {s s' : State ι}

/-- What the other threads do not see, and waking them up. -/
theorem Orderly.wake (h : Orderly s) (hthread : s'.thread = s.thread)
    (hqueue : s'.opQueue.count .task = s.opQueue.count .task) (htask : s'.hasTask = s.hasTask)
    (hstopped : s'.stopped = true → s.stopped = true)
    (hsignalled : s'.stopped = true → s.signalled = true → s'.signalled = true)
    (hinterrupted : s.interrupted = true → s'.interrupted = true)
    (htaskInterrupted : s'.taskInterrupted = true → s'.interrupted = true ∨
      s.taskInterrupted = true) : Orderly s' where
  calls := by
    rw [hthread]
    exact h.calls
  task := by
    unfold TaskOnce
    rw [hthread, hqueue, htask]
    exact h.task
  interrupted := by
    rw [hthread]
    intro htrue u hplace
    rcases htaskInterrupted htrue with hdone | hbefore
    · exact hdone
    · exact hinterrupted (h.interrupted hbefore u hplace)
  stopped := by
    intro hstop
    obtain ⟨hsig, hawake⟩ := h.stopped (hstopped hstop)
    refine ⟨hsignalled hstop hsig, ?_⟩
    rintro u (hplace | ⟨hplace, hnot⟩)
    · exact hawake u (Or.inl (hthread ▸ hplace))
    · refine hawake u (Or.inr ⟨hthread ▸ hplace, ?_⟩)
      cases hbefore : s.interrupted with
      | false => rfl
      | true => rw [hinterrupted hbefore] at hnot; exact hnot

theorem Orderly.wakeOne (h : Orderly s) : Orderly (wakeOneThreadAndUnlock s).1 := by
  rw [wakeOneThreadAndUnlock_eq]
  split_ifs
  · exact h.wake rfl rfl rfl id (fun _ _ => rfl) id Or.inr
  · refine h.wake rfl rfl rfl id (fun _ _ => rfl) ?_ ?_
    · intro hbefore
      simp [hbefore]
    · cases s.taskInterrupted <;> cases s.hasTask <;> simp

theorem count_task_map_op (ops : List Op) : (ops.map Item.op).count .task = 0 := by
  rw [List.count_eq_zero]
  simp

theorem Orderly.pushed (h : Orderly s) (ops : List Op) : Orderly (push ops s) := by
  refine h.wake rfl ?_ rfl id (fun _ => id) id Or.inr
  show (s.opQueue ++ ops.map Item.op).count .task = _
  rw [List.count_append, count_task_map_op, Nat.add_zero]

end

/-! ### The task -/

theorem Orderly.initTask {s : State ι} (h : Orderly s) (htask : s.hasTask = false) :
    Orderly (pushTask { s with hasTask := true }) := by
  obtain ⟨holder, hholder, hcount⟩ := h.task
  rw [htask] at hcount
  obtain rfl : holder = none := by
    cases holder with
    | none => rfl
    | some v => exact absurd hcount (by simp)
  refine ⟨h.calls, ⟨none, hholder, ?_⟩, h.interrupted, h.stopped⟩
  show (s.opQueue ++ [Item.task]).count Item.task + 0 = 1
  rw [List.count_append, show s.opQueue.count .task = 0 by simpa using hcount]
  rfl

theorem TaskOnce.take {s : State ι} {ops : List Item} (h : TaskOnce s)
    (hqueue : s.opQueue = .task :: ops) :
    s.hasTask = true ∧ ops.count .task = 0 ∧ ∀ u, (s.thread u).place.hasTask = false := by
  obtain ⟨holder, hholder, hcount⟩ := h
  rw [hqueue, List.count_cons_self] at hcount
  cases htask : s.hasTask with
  | false =>
    rw [htask] at hcount
    exact absurd hcount (by simp)
  | true =>
    rw [htask] at hcount
    cases holder with
    | none =>
      refine ⟨rfl, by simpa using hcount, ?_⟩
      intro u
      simpa using hholder u
    | some u => exact absurd hcount (by simp)

theorem TaskOnce.hasTask {s : State ι} (h : TaskOnce s) {u : ι}
    (hu : (s.thread u).place.hasTask = true) : s.hasTask = true ∧ s.opQueue.count .task = 0 ∧
      ∀ v, (s.thread v).place.hasTask = true → v = u := by
  obtain ⟨holder, hholder, hcount⟩ := h
  obtain rfl := (hholder u).mp hu
  have htask : s.hasTask = true := by
    cases hno : s.hasTask with
    | true => rfl
    | false =>
      rw [hno] at hcount
      exact absurd hcount (by simp)
  rw [htask] at hcount
  refine ⟨htask, by simpa using hcount, ?_⟩
  intro v hv
  exact (Option.some.inj ((hholder v).mp hv)).symm

theorem thread_wakeOne (s : State ι) : (wakeOneThreadAndUnlock s).1.thread = s.thread := by
  rw [wakeOneThreadAndUnlock_eq]
  split_ifs <;> rfl

/-- After `stop_all_threads` nobody sleeps. -/
theorem Orderly.stopAllThreads {s : State ι} (h : Orderly s) :
    Orderly (Scheduler.stopAllThreads s) := by
  unfold Scheduler.stopAllThreads
  rw [interruptTask_eq]
  have hwake : ∀ u, (s.thread u).wake.place.hasTask = (s.thread u).place.hasTask ∧
      (s.thread u).wake.call = (s.thread u).call ∧ (s.thread u).wake.place ≠ .blocked ∧
      ((s.thread u).wake.place = .task true → (s.thread u).place = .task true) := by
    intro u
    unfold Thread.wake
    split_ifs with hblocked
    · simp [hblocked, Place.hasTask]
    · exact ⟨rfl, rfl, hblocked, id⟩
  have hinterrupted : ∀ u, (s.thread u).wake.place = .task true →
      (s.interrupted || (!s.taskInterrupted && s.hasTask)) = true := by
    intro u hu
    have hplace := (hwake u).2.2.2 hu
    cases hbefore : s.taskInterrupted with
    | true => rw [h.interrupted hbefore u hplace, Bool.true_or]
    | false => simp [(h.task.hasTask (u := u) (by rw [hplace]; rfl)).1]
  refine ⟨?_, ?_, ?_, ?_⟩
  · intro u hu
    have hcalls := h.calls u ((hwake u).2.1 ▸ hu)
    show (s.thread u).wake.place.mayCall = true
    unfold Thread.wake
    rw [if_neg (Place.mayCall.stays hcalls).1]
    exact hcalls
  · obtain ⟨holder, hholder, hcount⟩ := h.task
    refine ⟨holder, ?_, hcount⟩
    intro u
    show (s.thread u).wake.place.hasTask = true ↔ _
    rw [(hwake u).1]
    exact hholder u
  · exact fun _ u hu => hinterrupted u hu
  · intro _
    refine ⟨rfl, ?_⟩
    rintro u (hplace | ⟨hplace, hnot⟩)
    · exact (hwake u).2.2.1 hplace
    · exact absurd ((hinterrupted u hplace).symm.trans hnot) (by simp)

/-! ### Steps that are a thread's own -/

/-- The step does not concern the threads that wait. -/
def Label.isOwn : Label ι → Bool
  | .run .. | .post .. | .dispatch _ | .start _ | .cancel .. | .workStarted _ | .workFinished _
  | .stop _ | .performIo .. | .finish _ | .throw _ | .cleanup _ => true
  | _ => false

structure Minds (l : Label ι) (s : State ι) (th : Thread) (r : State ι × Thread) : Prop where
  core : r.1.core = s.core
  thread : r.1.thread = s.thread
  call : th.call = .idle
  away : th.place.isAway = true
  next : r.2.place.isAway = true ∨ r.2.place = .look
  enters : th.place = .outside → r.2.place ≠ .outside → ∃ once, l = .run l.thread once

theorem place_postDeferred (ids : List ℕ) (s : State ι) (th : Thread) :
    (postDeferred ids s th).1 = s ∧ (postDeferred ids s th).2.place = th.place := by
  unfold postDeferred
  split_ifs <;> exact ⟨rfl, rfl⟩

theorem Thread.inUserCode.away {th : Thread} (h : th.inUserCode = true) :
    th.call = .idle ∧ th.place.isAway = true := by
  unfold Thread.inUserCode at h
  simp only [Bool.and_eq_true, Bool.or_eq_true, decide_eq_true_eq] at h
  obtain ⟨hcall, hplace | hplace⟩ := h <;> exact ⟨hcall, by rw [hplace]; rfl⟩

/-- User code calls the scheduler, and stays where it is. -/
theorem Minds.of_user {l : Label ι} {s : State ι} {th : Thread} {r : State ι × Thread}
    (h : th.inUserCode = true) (hcore : r.1.core = s.core)
    (hthread : r.1.thread = s.thread) (hplace : r.2.place = th.place) : Minds l s th r where
  core := hcore
  thread := hthread
  call := (Thread.inUserCode.away h).1
  away := (Thread.inUserCode.away h).2
  next := by
    rw [hplace]
    exact Or.inl (Thread.inUserCode.away h).2
  enters := by
    intro hbefore hafter
    exact absurd (hplace.trans hbefore) hafter

theorem minds_workCleanup {l : Label ι} {s : State ι} {th : Thread} (throws : Bool)
    (hcall : th.call = .idle)
    (hplace : th.place = .cleanup throws) : Minds l s th (workCleanup throws s th) := by
  unfold workCleanup
  dsimp only
  split_ifs <;> exact
    ⟨rfl, rfl, hcall, by rw [hplace]; rfl, by simp [Place.isAway], by simp [hplace]⟩

variable [DecidableEq ι] {s : State ι} {t : ι} {th : Thread}

/-! ### One thread -/

theorem Orderly.set (h : Orderly s)
    (hcalls : th.call ≠ .idle → th.place.mayCall = true)
    (htask : TaskOnce (setThread t th s))
    (hinterrupted : th.place = .task true → s.taskInterrupted = true → s.interrupted = true)
    (hstopped : s.stopped = true → th.place ≠ .blocked ∧
      (th.place = .task true → s.interrupted = true)) : Orderly (setThread t th s) where
  calls := by
    intro u
    rw [thread_setThread]
    split_ifs
    · exact hcalls
    · exact h.calls u
  task := htask
  interrupted := by
    intro htrue u
    rw [thread_setThread]
    split_ifs
    · exact fun hplace => hinterrupted hplace htrue
    · exact h.interrupted htrue u
  stopped := by
    intro hstop
    obtain ⟨hsig, hawake⟩ := h.stopped hstop
    refine ⟨hsig, ?_⟩
    intro u hu
    unfold Asleep at hu
    rw [thread_setThread] at hu
    split_ifs at hu
    · rcases hu with hplace | ⟨hplace, hnot⟩
      · exact (hstopped hstop).1 hplace
      · exact absurd ((hstopped hstop).2 hplace) (by rw [show s.interrupted = false from hnot]; simp)
    · exact hawake u hu

theorem TaskOnce.set (h : TaskOnce s)
    (hplace : th.place.hasTask = (s.thread t).place.hasTask) : TaskOnce (setThread t th s) := by
  obtain ⟨holder, hholder, hcount⟩ := h
  refine ⟨holder, ?_, hcount⟩
  intro u
  rw [thread_setThread]
  split_ifs with hu
  · rw [hplace, hu]
    exact hholder t
  · exact hholder u

/-- The thread stays away from waiting, or it goes on with what it did. -/
theorem Orderly.move (h : Orderly s)
    (hcalls : th.call ≠ .idle → th.place.mayCall = true)
    (htask : th.place.hasTask = (s.thread t).place.hasTask)
    (hblocked : th.place ≠ .blocked)
    (htrue : th.place = .task true → (s.thread t).place = .task true) :
    Orderly (setThread t th s) := by
  refine h.set hcalls (h.task.set htask) ?_ ?_
  · intro hplace hinterrupted
    exact h.interrupted hinterrupted t (htrue hplace)
  · intro hstop
    refine ⟨hblocked, ?_⟩
    intro hplace
    by_contra hnot
    exact (h.stopped hstop).2 t (Or.inr ⟨htrue hplace, by simpa using hnot⟩)

/-! ### The thread that has locked the mutex -/

theorem wakeOneThreadAndUnlock_setThread (t : ι) (th : Thread) (s : State ι) :
    wakeOneThreadAndUnlock (setThread t th s) =
      (setThread t th (wakeOneThreadAndUnlock s).1, (wakeOneThreadAndUnlock s).2) := by
  rw [wakeOneThreadAndUnlock_eq, wakeOneThreadAndUnlock_eq]
  show (if 0 < s.waiters then _ else _) = _
  split_ifs <;> rfl

/-- A thread that is away takes nothing with it. -/
theorem Orderly.without (h : Orderly s) (hplace : (s.thread t).place.hasTask = false) :
    Orderly (setThread t {} s) :=
  h.move (by simp) hplace.symm (by simp) (by simp)

/-- A thread takes up what it does, the others being in order. -/
theorem Orderly.back (h : Orderly (setThread t {} s))
    (hcalls : th.call ≠ .idle → th.place.mayCall = true)
    (hplace : th.place.hasTask = false) (hblocked : s.stopped = true → th.place ≠ .blocked) :
    Orderly (Scheduler.setThread t th s) := by
  rw [← setThread_setThread t th {} s]
  have hself : ((Scheduler.setThread t {} s).thread t) = {} := by
    rw [thread_setThread, if_pos rfl]
  have hno : th.place ≠ .task true := by
    intro htrue
    rw [htrue] at hplace
    exact absurd hplace (by simp [Place.hasTask])
  refine h.set hcalls (h.task.set (by rw [hself, hplace]; rfl)) ?_ ?_
  · exact fun htrue => absurd htrue hno
  · exact fun hstop => ⟨hblocked hstop, fun htrue => absurd htrue hno⟩

theorem Orderly.takesTask {ops : List Item} {s' : State ι} (h : Orderly (setThread t {} s))
    (hqueue : s.opQueue = .task :: ops) (hqueue' : s'.opQueue = ops)
    (hthread : s'.thread = s.thread) (htask : s'.hasTask = s.hasTask)
    (hinterrupted : s'.taskInterrupted = !ops.isEmpty) (hstopped' : s'.stopped = false)
    (hplace : th.place = .task ops.isEmpty) (hcall : ops.isEmpty = true → th.call = .idle) :
    Orderly (Scheduler.setThread t th s') := by
  obtain ⟨hhas, hcount, hothers⟩ := h.task.take hqueue
  have hother : ∀ u, u ≠ t → (s.thread u).place.hasTask = false := by
    intro u hu
    have := hothers u
    rwa [thread_setThread, if_neg hu] at this
  refine ⟨?_, ⟨some t, ?_, ?_⟩, ?_, ?_⟩
  · intro u
    have hcalls := h.calls u
    rw [thread_setThread] at hcalls ⊢
    split_ifs at hcalls ⊢ with hu
    · intro hbusy
      cases hempty : ops.isEmpty with
      | true => exact absurd (hcall hempty) hbusy
      | false =>
        rw [hplace, hempty]
        rfl
    · rwa [hthread]
  · intro u
    rw [thread_setThread]
    split_ifs with hu
    · rw [hplace, hu]
      simp [Place.hasTask]
    · rw [hthread, hother u hu]
      simpa using Ne.symm hu
  · show s'.opQueue.count .task + _ = s'.hasTask.toNat
    rw [hqueue', hcount, htask, show s.hasTask = true from hhas]
    rfl
  · intro htrue u
    rw [thread_setThread]
    have hmore : ops.isEmpty = false := by
      have : s'.taskInterrupted = true := htrue
      rw [hinterrupted] at this
      simpa using this
    split_ifs with hu
    · rw [hplace, hmore]
      simp
    · rw [hthread]
      intro heq
      have := hother u hu
      rw [heq] at this
      exact absurd this (by simp [Place.hasTask])
  · intro hstop
    exact absurd (hstopped'.symm.trans hstop) (by simp)

theorem Op.place_stays (o : Op) :
    o.place.hasTask = false ∧ o.place.mayCall = true := by
  cases o <;> exact ⟨rfl, rfl⟩

theorem Orderly.takesOp {o : Op} {ops : List Item} (h : Orderly (setThread t {} s))
    (hqueue : s.opQueue = .op o :: ops) (taken : List ℕ) :
    Orderly (Scheduler.setThread t {} { s with opQueue := ops, taken := taken }) := by
  refine h.wake rfl ?_ rfl id (fun _ => id) id Or.inr
  show ops.count .task = s.opQueue.count .task
  rw [hqueue, List.count_cons_of_ne (by simp)]

theorem Orderly.doRunOne (h : Orderly (setThread t {} s)) (hcall : th.call = .idle) :
    Orderly (Scheduler.setThread t (Scheduler.doRunOne s th).2 (Scheduler.doRunOne s th).1) := by
  have hran := doRunOne_cases s th
  generalize Scheduler.doRunOne s th = r at hran
  cases hran with
  | stopped hstopped => exact h.back (by simp [hcall]) rfl (by simp)
  | empty hstopped hqueue =>
    have hempty : Orderly (Scheduler.setThread t {}
        { s with signalled := false, waiters := s.waiters + 1 }) :=
      h.wake rfl rfl rfl id (fun hstop => absurd (hstopped.symm.trans hstop) (by simp)) id Or.inr
    refine hempty.back (by simp [hcall]) rfl ?_
    intro hstop
    exact absurd (hstopped.symm.trans hstop) (by simp)
  | task ops hstopped hqueue hlast =>
    exact h.takesTask hqueue rfl rfl rfl rfl hstopped rfl fun _ => hcall
  | taskMore ops hstopped hqueue hmore hone =>
    have hnonempty : ops.isEmpty = false := by simpa using hmore
    refine h.takesTask hqueue rfl rfl rfl ?_ hstopped ?_ ?_
    · rw [hnonempty]
      rfl
    · rw [hnonempty]
    · rw [hnonempty]
      simp
  | op o ops hstopped hqueue hlast =>
    obtain ⟨htask, hstays⟩ := o.place_stays
    exact (h.takesOp hqueue _).back (fun _ => hstays) htask fun _ => (Place.mayCall.stays hstays).1
  | opMore o ops hstopped hqueue hmore hone =>
    obtain ⟨htask, hstays⟩ := o.place_stays
    have hwoken := (h.takesOp hqueue (s.taken ++ handlers [o])).wakeOne
    rw [wakeOneThreadAndUnlock_setThread] at hwoken
    exact hwoken.back (fun _ => hstays) htask fun _ => (Place.mayCall.stays hstays).1

theorem Orderly.taskCleanup (h : Orderly s) (hplace : (s.thread t).place = .taskDone) :
    Orderly (Scheduler.setThread t {} (Scheduler.taskCleanup s th).1) := by
  obtain ⟨htask, hcount, hothers⟩ := h.task.hasTask (u := t) (by rw [hplace]; rfl)
  have hother : ∀ u, ((Scheduler.setThread t {} s).thread u).place.hasTask = false := by
    intro u
    rw [thread_setThread]
    split_ifs with hu
    · rfl
    · by_contra hhas
      exact hu (hothers u (by simpa using hhas))
  refine ⟨?_, ⟨none, ?_, ?_⟩, ?_, ?_⟩
  · intro u
    rw [thread_setThread]
    split_ifs with hu
    · simp
    · exact h.calls u
  · intro u
    have := hother u
    show ((Scheduler.setThread t {} s).thread u).place.hasTask = true ↔ _
    rw [this]
    simp
  · show (s.opQueue ++ th.privateQueue.map Item.op ++ [Item.task]).count Item.task + 0 = s.hasTask.toNat
    rw [List.count_append, List.count_append, hcount, count_task_map_op, htask]
    rfl
  · intro _ u hu
    have := hother u
    rw [show ((Scheduler.setThread t {} s).thread u).place = .task true from hu] at this
    exact absurd this (by simp [Place.hasTask])
  · intro hstop
    obtain ⟨hsig, hawake⟩ := h.stopped hstop
    refine ⟨hsig, ?_⟩
    intro u hu
    unfold Asleep at hu
    rw [thread_setThread] at hu
    split_ifs at hu with heq
    · exact absurd hu (by simp)
    · exact hawake u hu

/-- What a thread does while it holds the mutex. -/
theorem Orderly.locked (h : Orderly s) {r : State ι × Thread}
    (hlock : Locked s (s.thread t) r) : Orderly (Scheduler.setThread t r.2 r.1) := by
  have hcalls := h.calls t
  cases hlock with
  | push ops hcall =>
    have hplace := hcalls (by rw [hcall]; simp)
    refine (h.pushed ops).wakeOne.move (fun _ => hplace) ?_ (Place.mayCall.stays hplace).1 ?_
    · rw [thread_wakeOne]
      rfl
    · rw [thread_wakeOne]
      exact id
  | stop hcall =>
    have hplace := hcalls (by rw [hcall]; simp)
    have hthread : ((Scheduler.stopAllThreads s).thread t) = s.thread t := by
      unfold Scheduler.stopAllThreads
      rw [interruptTask_eq]
      show (s.thread t).wake = _
      unfold Thread.wake
      rw [if_neg (Place.mayCall.stays hplace).1]
    refine h.stopAllThreads.move (fun hno => absurd rfl hno) ?_ (Place.mayCall.stays hplace).1 ?_
    · rw [hthread]
    · rw [hthread]
      exact id
  | look hcall hplace => exact Orderly.doRunOne ((h.without (by rw [hplace]; rfl)).pushed _) hcall
  | leave hcall hplace =>
    exact Orderly.back ((h.without (by rw [hplace]; rfl)).pushed _) (by simp [hcall]) rfl (by simp)
  | taskDone hcall hplace => exact Orderly.doRunOne (h.taskCleanup hplace) hcall
  | woken hcall hplace hsignalled =>
    refine Orderly.doRunOne ?_ hcall
    exact (h.without (t := t) (by rw [hplace]; rfl)).wake rfl rfl rfl id (fun _ => id) id Or.inr
  | again hcall hplace hsignalled =>
    refine (h.without (by rw [hplace]; rfl)).back (by simp [hcall]) rfl ?_
    intro hstop
    exact absurd ((h.stopped hstop).1.symm.trans hsignalled) (by simp)

theorem Place.isAway.stays {p : Place} (h : p.isAway = true) :
    p.hasTask = false ∧ p.mayCall = true := by
  cases p <;> simp_all [Place.isAway, Place.hasTask, Place.mayCall]

theorem Orderly.minds (h : Orderly s) {r : State ι × Thread} {l : Label ι}
    (hm : Minds l s (s.thread t) r) :
    Orderly (Scheduler.setThread t r.2 r.1) := by
  have hnext : r.2.place.hasTask = false ∧ r.2.place.mayCall = true := by
    rcases hm.next with haway | hlook
    · exact Place.isAway.stays haway
    · rw [hlook]
      exact ⟨rfl, rfl⟩
  have hafter : Orderly r.1 := by
    have hcore := hm.core
    simp only [State.core, Core.mk.injEq] at hcore
    obtain ⟨-, htask, hti, hqueue, hstopped, hsignalled, -, hinterrupted, -⟩ := hcore
    refine h.wake hm.thread (by rw [hqueue]) htask (by rw [hstopped]; exact id)
      (by rw [hsignalled]; exact fun _ => id) (by rw [hinterrupted]; exact id) ?_
    rw [hti]
    exact Or.inr
  obtain ⟨hblocked, -, htrue⟩ := Place.mayCall.stays hnext.2
  refine hafter.move (fun _ => hnext.2) ?_ hblocked fun hplace => absurd hplace htrue
  rw [hm.thread, hnext.1, (Place.isAway.stays hm.away).1]

theorem Orderly.taskReturns (h : Orderly s) (hplace : (s.thread t).place.hasTask = true)
    (hcall : th.call = .idle) (hdone : th.place = .taskDone) (interrupted : Bool)
    (pending : List ℕ) : Orderly (Scheduler.setThread t th
      { s with interrupted := interrupted, pending := pending }) := by
  have hafter : Orderly (Scheduler.setThread t th s) :=
    h.move (fun hno => absurd hcall hno) (by rw [hdone, hplace]; rfl) (by rw [hdone]; simp)
      (by rw [hdone]; simp)
  have hno : ∀ u, ((Scheduler.setThread t th s).thread u).place ≠ .task true := by
    intro u hu
    obtain ⟨-, -, honly⟩ := hafter.task.hasTask (u := t)
      (by rw [thread_setThread, if_pos rfl, hdone]; rfl)
    obtain rfl := honly u (by rw [hu]; rfl)
    rw [thread_setThread, if_pos rfl, hdone] at hu
    exact absurd hu (by simp)
  refine ⟨hafter.calls, hafter.task, fun _ u hu => absurd hu (hno u), ?_⟩
  intro hstop
  obtain ⟨hsig, hawake⟩ := hafter.stopped hstop
  refine ⟨hsig, ?_⟩
  rintro u (hblocked | ⟨htrue, -⟩)
  · exact hawake u (Or.inl hblocked)
  · exact hno u htrue

theorem Orderly.wakeThread (h : Orderly s) (hblocked : (s.thread t).place = .blocked) :
    Orderly (Scheduler.setThread t (s.thread t).wake s) := by
  unfold Thread.wake
  rw [if_pos hblocked]
  refine h.move ?_ (by rw [hblocked]; rfl) (by simp) (by simp)
  intro hcall
  exact absurd hblocked (Place.mayCall.stays (h.calls t hcall)).1

variable [Fintype ι]

theorem minds_of_act {l : Label ι} (hl : l.isOwn = true) {r : State ι × Thread}
    (h : act s th l = some r) : Minds l s th r := by
  cases l with
  | run u once =>
    simp only [act] at h
    split_ifs at h with hgo hzero
    · obtain rfl := Option.some.inj h
      exact ⟨rfl, rfl, hgo.1, by rw [hgo.2]; rfl, Or.inl (by rw [hgo.2]; rfl),
        fun _ _ => ⟨once, rfl⟩⟩
    · obtain rfl := Option.some.inj h
      exact ⟨rfl, rfl, hgo.1, by rw [hgo.2]; rfl, Or.inr rfl, fun _ _ => ⟨once, rfl⟩⟩
  | post u n isContinuation =>
    simp only [act] at h
    split_ifs at h with huser hprivate
    · obtain rfl := Option.some.inj h
      exact .of_user huser rfl rfl rfl
    · obtain rfl := Option.some.inj h
      exact .of_user huser rfl rfl rfl
  | dispatch u =>
    simp only [act] at h
    split_ifs at h with huser
    obtain rfl := Option.some.inj h
    exact .of_user huser rfl rfl rfl
  | start u =>
    simp only [act] at h
    split_ifs at h with huser
    obtain rfl := Option.some.inj h
    exact .of_user huser rfl rfl rfl
  | cancel u ids =>
    simp only [act] at h
    split_ifs at h with huser
    obtain rfl := Option.some.inj h
    obtain ⟨hstate, hplace⟩ := place_postDeferred ids { s with pending := s.pending.diff ids } th
    exact .of_user huser.1 (by rw [hstate]; rfl) (by rw [hstate]) hplace
  | workStarted u =>
    simp only [act] at h
    split_ifs at h with huser
    obtain rfl := Option.some.inj h
    exact .of_user huser rfl rfl rfl
  | workFinished u =>
    simp only [act] at h
    split_ifs at h with huser
    all_goals
      obtain rfl := Option.some.inj h
      exact .of_user huser.1 rfl rfl rfl
  | stop u =>
    simp only [act] at h
    split_ifs at h with huser
    obtain rfl := Option.some.inj h
    exact .of_user huser rfl rfl rfl
  | performIo u ids =>
    simp only [act] at h
    split_ifs at h with hgo
    have haway : th.place.isAway = true := by rw [hgo.2.1]; rfl
    cases ids with
    | nil =>
      obtain rfl := Option.some.inj h
      exact ⟨rfl, rfl, hgo.1, haway, Or.inl rfl, by simp [hgo.2.1]⟩
    | cons id ids =>
      obtain rfl := Option.some.inj h
      obtain ⟨hstate, hplace⟩ := place_postDeferred ids
        { s with pending := s.pending.diff (id :: ids), inlined := s.inlined ++ [id] }
        { th with place := .handler }
      exact ⟨by rw [hstate]; rfl, by rw [hstate], hgo.1, haway, Or.inl (by rw [hplace]; rfl),
        by simp [hgo.2.1]⟩
  | finish u =>
    simp only [act] at h
    split_ifs at h with hgo
    obtain rfl := Option.some.inj h
    exact ⟨rfl, rfl, hgo.1, by rw [hgo.2]; rfl, Or.inl rfl, by simp [hgo.2]⟩
  | throw u =>
    simp only [act] at h
    split_ifs at h with hgo
    obtain rfl := Option.some.inj h
    exact ⟨rfl, rfl, hgo.1, by rw [hgo.2]; rfl, Or.inl rfl, by simp [hgo.2]⟩
  | cleanup u =>
    simp only [act] at h
    split at h
    · rename_i throws hcall hplace
      obtain rfl := Option.some.inj h
      exact minds_workCleanup throws hcall hplace
    · exact absurd h (by simp)
  | _ => exact absurd hl (by simp [Label.isOwn])

/-! ### All steps -/

/-- A signal wakes one of the threads that are blocked, if there are any. -/
theorem act_signal {target : Option ι} {r : State ι × Thread}
    (h : act s th (.signal t target) = some r) : th.call = .signal ∧
      ((∃ v, (s.thread v).place = .blocked ∧
        r = (setThread v (s.thread v).wake s, { th with call := .idle })) ∨
      ((∀ v, (s.thread v).place ≠ .blocked) ∧ r = (s, { th with call := .idle }))) := by
  simp only [act] at h
  by_cases hcall : th.call = .signal
  · refine ⟨hcall, ?_⟩
    rw [if_pos hcall] at h
    cases target with
    | some v =>
      simp only [] at h
      split_ifs at h with hblocked
      exact Or.inl ⟨v, hblocked, (Option.some.inj h).symm⟩
    | none =>
      simp only [] at h
      split_ifs at h with hnone
      exact Or.inr ⟨hnone, (Option.some.inj h).symm⟩
  · rw [if_neg hcall] at h
    exact absurd h (by simp)

theorem Orderly.act {l : Label ι} (h : Orderly s) (hl : l.thread = t) {r : State ι × Thread}
    (hr : Scheduler.act s (s.thread t) l = some r) : Orderly (Scheduler.setThread t r.2 r.1) := by
  by_cases hown : l.isOwn = true
  · exact h.minds (minds_of_act hown hr)
  · cases l with
    | initTask u =>
      obtain rfl : u = t := hl
      simp only [Scheduler.act] at hr
      split_ifs at hr with huser htask
      · obtain rfl := Option.some.inj hr
        exact h.minds (l := .initTask u) (.of_user huser rfl rfl rfl)
      · obtain rfl := Option.some.inj hr
        obtain ⟨hcall, haway⟩ := Thread.inUserCode.away huser
        obtain ⟨-, hmay⟩ := Place.isAway.stays haway
        have hinit := h.initTask (by simpa using htask)
        refine hinit.wakeOne.move (fun _ => hmay) ?_ (Place.mayCall.stays hmay).1 ?_
        · rw [thread_wakeOne]
          rfl
        · rw [thread_wakeOne]
          exact id
    | restart u =>
      obtain rfl : u = t := hl
      simp only [Scheduler.act] at hr
      split_ifs at hr with huser
      obtain rfl := Option.some.inj hr
      obtain ⟨hcall, haway⟩ := Thread.inUserCode.away huser
      obtain ⟨-, hmay⟩ := Place.isAway.stays haway
      have hrestarted : Orderly { s with stopped := false } :=
        h.wake rfl rfl rfl (fun hno => absurd hno (by simp)) (fun _ => id) id Or.inr
      exact hrestarted.move (fun _ => hmay) rfl (Place.mayCall.stays hmay).1 id
    | lock u =>
      obtain rfl : u = t := hl
      exact h.locked (locked_cases hr)
    | signal u target =>
      obtain rfl : u = t := hl
      obtain ⟨hcall, htarget⟩ := act_signal hr
      have hself := (Place.mayCall.stays (h.calls u (by rw [hcall]; simp))).1
      rcases htarget with ⟨v, hblocked, rfl⟩ | ⟨hnone, rfl⟩
      · have hne : u ≠ v := by
          rintro rfl
          exact hself hblocked
        have hthread : ((Scheduler.setThread v (s.thread v).wake s).thread u) = s.thread u := by
          rw [thread_setThread, if_neg hne]
        refine (h.wakeThread hblocked).move (fun hno => absurd rfl hno) ?_ hself ?_
        · rw [hthread]
        · rw [hthread]
          exact id
      · exact h.move (fun hno => absurd rfl hno) rfl hself id
    | spurious u =>
      obtain rfl : u = t := hl
      simp only [Scheduler.act] at hr
      split_ifs at hr with hblocked
      obtain rfl := Option.some.inj hr
      exact h.wakeThread hblocked
    | taskReturns u ops reported =>
      obtain rfl : u = t := hl
      simp only [Scheduler.act] at hr
      split at hr
      · rename_i hcall hplace
        split_ifs at hr
        obtain rfl := Option.some.inj hr
        refine h.taskReturns (by rw [hplace]; rfl) ?_ ?_ _ _
        · exact hcall
        · rfl
      · exact absurd hr (by simp)
    | _ => exact absurd rfl hown

theorem Orderly.step {l : Label ι} {s' : State ι} (h : Orderly s)
    (hs : Scheduler.step s l = some s') : Orderly s' := by
  obtain ⟨r, hr, rfl⟩ := Option.map_eq_some_iff.mp hs
  exact h.act rfl hr

theorem orderly_of_run {oneThread : Bool} {ls : List (Label ι)}
    (h : Run step Any (initial oneThread) ls s) : Orderly s :=
  h.invariant (I := Orderly) (orderly_initial oneThread) fun _ _ _ hI _ hs => hI.step hs

end AsioLearn.Detail.Scheduler
