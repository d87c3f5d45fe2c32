import AsioLearn.Lib.Lts
import Mathlib

/-!
# `scheduler`

The operations of an `io_context` and the threads that run it. A step is what a thread does while it
holds the mutex, or one of its accesses to what no mutex protects: the count of outstanding work,
the condition variable, the reactor.

The operations that the reactor has not completed are `pending`. It hands over timers as handlers,
and descriptors whose events are yet to be looked at.
-/

namespace AsioLearn.Detail.Scheduler

open Lts

/-! ## Data -/

/-- An operation to be completed, or a descriptor of the reactor, which is not counted as work. -/
inductive Op
  | handler (id : ℕ)
  | descriptor
  deriving DecidableEq, Repr

/-- What is in the queue of the scheduler: `task_operation_`, or an operation. -/
inductive Item
  | task
  | op (o : Op)
  deriving DecidableEq, Repr

/-- Where in the code of the scheduler a thread is. -/
inductive Place
  | outside
  /-- It is about to lock the mutex and to go on with `do_run_one`. -/
  | look
  /-- `pthread_cond_wait`. -/
  | blocked
  /-- `pthread_cond_wait` has been signalled, and it is about to lock the mutex again. -/
  | woken
  /-- The `run` of the task. -/
  | task (block : Bool)
  /-- The destructor of `task_cleanup`. -/
  | taskDone
  /-- The `complete` of an operation. -/
  | handler
  /-- The `do_complete` of a descriptor. -/
  | descriptor
  /-- The destructor of `work_cleanup`. -/
  | cleanup (throws : Bool)
  /-- It is about to lock the mutex, to push its private queue and to leave. -/
  | leave
  deriving DecidableEq, Repr

/-- The function of the scheduler that a thread is in, besides `do_run_one`. -/
inductive Call
  | idle
  | push (ops : List Op)
  /-- `pthread_cond_signal`. -/
  | signal
  | stop
  deriving DecidableEq, Repr

/-- A thread, and its `thread_info`. -/
structure Thread where
  place : Place := .outside
  call : Call := .idle
  /-- It is in `run_one`, not in `run`. -/
  once : Bool := false
  privateWork : ℕ := 0
  privateQueue : List Op := []
  deriving DecidableEq, Repr

/-- The scheduler with its event, whose `state_` is `waiters` and the bit `signalled`. The last three
members are a record: what has been pushed to the queue, what was taken from it to be completed, and
what a descriptor completed at once. -/
structure State (ι : Type*) where
  oneThread : Bool := false
  hasTask : Bool := false
  taskInterrupted : Bool := true
  outstandingWork : ℤ := 0
  opQueue : List Item := []
  stopped : Bool := false
  signalled : Bool := false
  waiters : ℕ := 0
  /-- `interrupt` has been called, and `epoll_wait` is yet to report it. -/
  interrupted : Bool := false
  thread : ι → Thread := fun _ => {}
  pending : List ℕ := []
  /-- How often `work_started` has been called for something that is no operation. -/
  guards : ℕ := 0
  nextId : ℕ := 0
  pushed : List ℕ := []
  taken : List ℕ := []
  inlined : List ℕ := []

inductive Label (ι : Type*)
  | initTask (t : ι)
  /-- `run`, or `run_one`. -/
  | run (t : ι) (once : Bool)
  /-- `post_immediate_completions` of so many operations. -/
  | post (t : ι) (n : ℕ) (isContinuation : Bool)
  | dispatch (t : ι)
  /-- An operation of the reactor is started. -/
  | start (t : ι)
  /-- The reactor gives up operations that are cancelled, with `post_deferred_completions`. -/
  | cancel (t : ι) (ids : List ℕ)
  | workStarted (t : ι)
  | workFinished (t : ι)
  | stop (t : ι)
  | restart (t : ι)
  /-- The thread locks the mutex, does what it has to do and unlocks it. -/
  | lock (t : ι)
  | signal (t : ι) (target : Option ι)
  /-- A wait may end without a signal. -/
  | spurious (t : ι)
  /-- The task returns, with these operations, after `epoll_wait` has reported the interrupter. -/
  | taskReturns (t : ι) (ops : List Op) (reported : Bool)
  | performIo (t : ι) (ids : List ℕ)
  | finish (t : ι)
  | throw (t : ι)
  | cleanup (t : ι)
  deriving DecidableEq, Repr

def Label.thread {ι : Type*} : Label ι → ι
  | .initTask t | .run t _ | .post t _ _ | .dispatch t | .start t | .cancel t _ | .workStarted t
  | .workFinished t | .stop t | .restart t | .lock t | .signal t _ | .spurious t
  | .taskReturns t _ _ | .performIo t _ | .finish t | .throw t | .cleanup t => t

/-- The `thread_call_stack` has the scheduler. -/
def Thread.isInside (th : Thread) : Bool := th.place ≠ .outside

/-- The thread may call the scheduler. -/
def Thread.inUserCode (th : Thread) : Bool :=
  th.call = .idle && (th.place = .outside || th.place = .handler)

def Op.id? : Op → Option ℕ
  | .handler id => some id
  | .descriptor => none

/-- Where the `complete` of an operation is. -/
def Op.place : Op → Place
  | .handler _ => .handler
  | .descriptor => .descriptor

/-- The operations to be completed. -/
def handlers (ops : List Op) : List ℕ := ops.filterMap Op.id?

variable {ι : Type*}

/-! ## Waking up -/

/-- `interrupt`, unless the task has been interrupted. -/
def interruptTask (s : State ι) : State ι :=
  if !s.taskInterrupted && s.hasTask then { s with taskInterrupted := true, interrupted := true }
  else s

/-- `unlock_and_signal_one`, and what is left of it to be called without the mutex. -/
def unlockAndSignalOne (s : State ι) : State ι × Call :=
  ({ s with signalled := true }, if 0 < s.waiters then .signal else .idle)

/-- `wake_one_thread_and_unlock`. -/
def wakeOneThreadAndUnlock (s : State ι) : State ι × Call :=
  if 0 < s.waiters then ({ s with signalled := true }, .signal)
  else (interruptTask { s with signalled := true }, .idle)

def Thread.wake (th : Thread) : Thread :=
  if th.place = .blocked then { th with place := .woken } else th

/-- `stop_all_threads`. -/
def stopAllThreads (s : State ι) : State ι :=
  interruptTask
    { s with stopped := true, signalled := true, thread := fun u => (s.thread u).wake }

/-! ## Running -/

def push (ops : List Op) (s : State ι) : State ι :=
  { s with opQueue := s.opQueue ++ ops.map .op, pushed := s.pushed ++ handlers ops }

def pushTask (s : State ι) : State ι := { s with opQueue := s.opQueue ++ [.task] }

/-- `do_run_one`, from the test of `stopped_` until the mutex is unlocked. -/
def doRunOne (s : State ι) (th : Thread) : State ι × Thread :=
  if s.stopped then (s, { th with place := .outside })
  else
    match s.opQueue with
    | [] =>
      ({ s with signalled := false, waiters := s.waiters + 1 }, { th with place := .blocked })
    | o :: ops =>
      let s := { s with opQueue := ops }
      let moreHandlers := !ops.isEmpty
      match o with
      | .task =>
        let s := { s with taskInterrupted := moreHandlers }
        let th := { th with place := .task (!moreHandlers) }
        if moreHandlers && !s.oneThread then
          let (s, call) := unlockAndSignalOne s
          (s, { th with call := call })
        else (s, th)
      | .op o =>
        let s := { s with taken := s.taken ++ handlers [o] }
        let th := { th with place := o.place }
        if moreHandlers && !s.oneThread then
          let (s, call) := wakeOneThreadAndUnlock s
          (s, { th with call := call })
        else (s, th)

/-- What a thread that holds the mutex does with its private queue. -/
def pushPrivate (s : State ι) (th : Thread) : State ι × Thread :=
  (push th.privateQueue s, { th with privateQueue := [] })

/-- `post_deferred_completions`. -/
def postDeferred (ids : List ℕ) (s : State ι) (th : Thread) : State ι × Thread :=
  if ids.isEmpty then (s, th)
  else if s.oneThread && th.isInside then
    (s, { th with privateQueue := th.privateQueue ++ ids.map .handler })
  else (s, { th with call := .push (ids.map .handler) })

/-- The destructor of `task_cleanup`. -/
def taskCleanup (s : State ι) (th : Thread) : State ι × Thread :=
  let (s, th) := pushPrivate
    { s with outstandingWork := s.outstandingWork + th.privateWork, taskInterrupted := true }
    { th with privateWork := 0 }
  (pushTask s, th)

/-- The destructor of `work_cleanup`, but for the private queue, and where the thread goes on. -/
def workCleanup (throws : Bool) (s : State ι) (th : Thread) : State ι × Thread :=
  let next : Place :=
    if !throws && !th.once then .look
    else if th.privateQueue.isEmpty then .outside
    else .leave
  if 1 < th.privateWork then
    ({ s with outstandingWork := s.outstandingWork + (th.privateWork - 1) },
      { th with privateWork := 0, place := next })
  else if th.privateWork < 1 then
    ({ s with outstandingWork := s.outstandingWork - 1 },
      { th with
        privateWork := 0
        place := next
        call := if s.outstandingWork - 1 = 0 then .stop else .idle })
  else (s, { th with privateWork := 0, place := next })

/-- What a thread does from the lock of the mutex to its unlock. -/
def locked (s : State ι) (th : Thread) : Option (State ι × Thread) :=
  match th.call, th.place with
  | .push ops, _ =>
    let (s, call) := wakeOneThreadAndUnlock (push ops s)
    some (s, { th with call := call })
  | .stop, _ => some (stopAllThreads s, { th with call := .idle })
  | .idle, .look =>
    let (s, th) := pushPrivate s th
    some (doRunOne s th)
  | .idle, .leave =>
    let (s, th) := pushPrivate s th
    some (s, { th with place := .outside })
  | .idle, .taskDone =>
    let (s, th) := taskCleanup s th
    some (doRunOne s th)
  | .idle, .woken =>
    if s.signalled then some (doRunOne { s with waiters := s.waiters - 1 } th)
    else some (s, { th with place := .blocked })
  | _, _ => none

/-- What `do_run_one` does. -/
inductive Ran (s : State ι) (th : Thread) : State ι × Thread → Prop
  | stopped (hstopped : s.stopped = true) : Ran s th (s, { th with place := .outside })
  | empty (hstopped : s.stopped = false) (hqueue : s.opQueue = []) :
      Ran s th ({ s with signalled := false, waiters := s.waiters + 1 },
        { th with place := .blocked })
  | task (ops : List Item) (hstopped : s.stopped = false) (hqueue : s.opQueue = .task :: ops)
      (hlast : ops = [] ∨ s.oneThread = true) :
      Ran s th ({ s with opQueue := ops, taskInterrupted := !ops.isEmpty },
        { th with place := .task ops.isEmpty })
  | taskMore (ops : List Item) (hstopped : s.stopped = false) (hqueue : s.opQueue = .task :: ops)
      (hmore : ops ≠ []) (hone : s.oneThread = false) :
      Ran s th ({ s with opQueue := ops, taskInterrupted := true, signalled := true },
        { th with place := .task false, call := if 0 < s.waiters then .signal else .idle })
  | op (o : Op) (ops : List Item) (hstopped : s.stopped = false) (hqueue : s.opQueue = .op o :: ops)
      (hlast : ops = [] ∨ s.oneThread = true) :
      Ran s th ({ s with opQueue := ops, taken := s.taken ++ handlers [o] },
        { th with place := o.place })
  | opMore (o : Op) (ops : List Item) (hstopped : s.stopped = false)
      (hqueue : s.opQueue = .op o :: ops) (hmore : ops ≠ []) (hone : s.oneThread = false) :
      Ran s th ((wakeOneThreadAndUnlock
          { s with opQueue := ops, taken := s.taken ++ handlers [o] }).1,
        { th with
          place := o.place
          call := (wakeOneThreadAndUnlock
            { s with opQueue := ops, taken := s.taken ++ handlers [o] }).2 })

theorem doRunOne_cases (s : State ι) (th : Thread) : Ran s th (doRunOne s th) := by
  have hsplit : ∀ ops : List Item, ((!ops.isEmpty && !s.oneThread) = true →
      ops ≠ [] ∧ s.oneThread = false) ∧ (¬ (!ops.isEmpty && !s.oneThread) = true →
      ops = [] ∨ s.oneThread = true) := by
    intro ops
    cases ops <;> simp
  unfold doRunOne
  split_ifs with hstop
  · exact .stopped hstop
  · have hstopped : s.stopped = false := by simpa using hstop
    split
    · rename_i hqueue
      exact .empty hstopped hqueue
    · rename_i o ops hqueue
      cases o with
      | task =>
        dsimp only
        rw [Bool.not_not]
        split_ifs with hmore
        · obtain ⟨hne, hone⟩ := (hsplit ops).1 hmore
          have hnonempty : ops.isEmpty = false := by simpa using hne
          rw [hnonempty]
          exact .taskMore ops hstopped hqueue hne hone
        · exact .task ops hstopped hqueue ((hsplit ops).2 hmore)
      | op o =>
        dsimp only
        split_ifs with hmore
        · obtain ⟨hne, hone⟩ := (hsplit ops).1 hmore
          exact .opMore o ops hstopped hqueue hne hone
        · exact .op o ops hstopped hqueue ((hsplit ops).2 hmore)

/-- What a thread that has locked the mutex does. -/
inductive Locked (s : State ι) (th : Thread) : State ι × Thread → Prop
  | push (ops : List Op) (hcall : th.call = .push ops) :
      Locked s th ((wakeOneThreadAndUnlock (push ops s)).1,
        { th with call := (wakeOneThreadAndUnlock (push ops s)).2 })
  | stop (hcall : th.call = .stop) : Locked s th (stopAllThreads s, { th with call := .idle })
  | look (hcall : th.call = .idle) (hplace : th.place = .look) :
      Locked s th (doRunOne (Scheduler.push th.privateQueue s) { th with privateQueue := [] })
  | leave (hcall : th.call = .idle) (hplace : th.place = .leave) :
      Locked s th (Scheduler.push th.privateQueue s,
        { th with privateQueue := [], place := .outside })
  | taskDone (hcall : th.call = .idle) (hplace : th.place = .taskDone) :
      Locked s th (doRunOne (taskCleanup s th).1 (taskCleanup s th).2)
  | woken (hcall : th.call = .idle) (hplace : th.place = .woken) (hsignalled : s.signalled = true) :
      Locked s th (doRunOne { s with waiters := s.waiters - 1 } th)
  | again (hcall : th.call = .idle) (hplace : th.place = .woken) (hsignalled : s.signalled = false) :
      Locked s th (s, { th with place := .blocked })

theorem locked_cases {s : State ι} {th : Thread} {r : State ι × Thread}
    (h : locked s th = some r) : Locked s th r := by
  unfold locked at h
  split at h
  · rename_i ops hcall
    exact Option.some.inj h ▸ .push ops hcall
  · rename_i hcall
    exact Option.some.inj h ▸ .stop hcall
  · rename_i hcall hplace
    exact Option.some.inj h ▸ .look hcall hplace
  · rename_i hcall hplace
    exact Option.some.inj h ▸ .leave hcall hplace
  · rename_i hcall hplace
    exact Option.some.inj h ▸ .taskDone hcall hplace
  · rename_i hcall hplace
    split_ifs at h with hsignalled
    · exact Option.some.inj h ▸ .woken hcall hplace hsignalled
    · exact Option.some.inj h ▸ .again hcall hplace (by simpa using hsignalled)
  · exact absurd h (by simp)

variable [DecidableEq ι]

def setThread (t : ι) (th : Thread) (s : State ι) : State ι :=
  { s with thread := Function.update s.thread t th }

/-- What the thread of the label does. -/
def act [Fintype ι] (s : State ι) (th : Thread) : Label ι → Option (State ι × Thread)
  | .initTask _ =>
    if th.inUserCode then
      if s.hasTask then some (s, th)
      else
        let (s, call) := wakeOneThreadAndUnlock (pushTask { s with hasTask := true })
        some (s, { th with call := call })
    else none
  | .run _ once =>
    if th.call = .idle ∧ th.place = .outside then
      if s.outstandingWork = 0 then some (s, { th with call := .stop })
      else some (s, { th with place := .look, once := once, privateWork := 0 })
    else none
  | .post _ n isContinuation =>
    if th.inUserCode then
      let ops := (List.range' s.nextId n).map Op.handler
      let s := { s with nextId := s.nextId + n }
      if (s.oneThread || isContinuation) && th.isInside then
        some (s, { th with
          privateWork := th.privateWork + n
          privateQueue := th.privateQueue ++ ops })
      else
        some ({ s with outstandingWork := s.outstandingWork + n }, { th with call := .push ops })
    else none
  | .dispatch _ =>
    if th.inUserCode then
      some ({ s with nextId := s.nextId + 1, outstandingWork := s.outstandingWork + 1 },
        { th with call := .push [.handler s.nextId] })
    else none
  | .start _ =>
    if th.inUserCode then
      some ({ s with
        nextId := s.nextId + 1
        outstandingWork := s.outstandingWork + 1
        pending := s.pending ++ [s.nextId] }, th)
    else none
  | .cancel _ ids =>
    if th.inUserCode ∧ ids.Subperm s.pending then
      some (postDeferred ids { s with pending := s.pending.diff ids } th)
    else none
  | .workStarted _ =>
    if th.inUserCode then
      some ({ s with outstandingWork := s.outstandingWork + 1, guards := s.guards + 1 }, th)
    else none
  | .workFinished _ =>
    if th.inUserCode ∧ 0 < s.guards then
      some ({ s with outstandingWork := s.outstandingWork - 1, guards := s.guards - 1 },
        { th with call := if s.outstandingWork - 1 = 0 then .stop else .idle })
    else none
  | .stop _ => if th.inUserCode then some (s, { th with call := .stop }) else none
  | .restart _ => if th.inUserCode then some ({ s with stopped := false }, th) else none
  | .lock _ => locked s th
  -- if any thread is blocked, one is woken up
  | .signal _ target =>
    if th.call = .signal then
      match target with
      | some u =>
        if (s.thread u).place = .blocked then
          some (setThread u (s.thread u).wake s, { th with call := .idle })
        else none
      | none =>
        if ∀ u, (s.thread u).place ≠ .blocked then some (s, { th with call := .idle }) else none
    else none
  | .spurious _ => if th.place = .blocked then some (s, th.wake) else none
  | .taskReturns _ ops reported =>
    match th.call, th.place with
    | .idle, .task _ =>
      if (handlers ops).Subperm s.pending ∧ (reported → s.interrupted) then
        some ({ s with
            pending := s.pending.diff (handlers ops)
            interrupted := s.interrupted && !reported },
          { th with place := .taskDone, privateQueue := th.privateQueue ++ ops })
      else none
    | _, _ => none
  -- `perform_io`, and the `complete` of the first operation
  | .performIo _ ids =>
    if th.call = .idle ∧ th.place = .descriptor ∧ ids.Subperm s.pending then
      let s := { s with pending := s.pending.diff ids }
      match ids with
      | [] => some (s, { th with privateWork := th.privateWork + 1, place := .cleanup false })
      | id :: ids =>
        some (postDeferred ids { s with inlined := s.inlined ++ [id] } { th with place := .handler })
    else none
  | .finish _ =>
    if th.call = .idle ∧ th.place = .handler then some (s, { th with place := .cleanup false })
    else none
  | .throw _ =>
    if th.call = .idle ∧ th.place = .handler then some (s, { th with place := .cleanup true })
    else none
  | .cleanup _ =>
    match th.call, th.place with
    | .idle, .cleanup throws => some (workCleanup throws s th)
    | _, _ => none

def step [Fintype ι] (s : State ι) (l : Label ι) : Option (State ι) :=
  (act s (s.thread l.thread) l).map fun (s, th) => setThread l.thread th s

/-- No operation has been posted, and no thread runs the scheduler. -/
def initial (oneThread : Bool) : State ι := { oneThread := oneThread }

/-! ## What changes -/

section

variable {s : State ι} {t : ι} {th : Thread}

theorem thread_setThread (t : ι) (th : Thread) (s : State ι) (u : ι) :
    (setThread t th s).thread u = if u = t then th else s.thread u :=
  Function.update_apply ..

theorem setThread_setThread (t : ι) (th th' : Thread) (s : State ι) :
    setThread t th (setThread t th' s) = setThread t th s := by
  unfold setThread
  rw [Function.update_idem]

/-- A sum over the threads, when one of them has moved. -/
theorem sum_setThread [Fintype ι] {M : Type*} [AddCommMonoid M] (f : Thread → M) (t : ι)
    (th : Thread) (s : State ι) :
    ∑ u, f ((setThread t th s).thread u) + f (s.thread t) = ∑ u, f (s.thread u) + f th := by
  have hrest : ∑ u ∈ Finset.univ.erase t, f ((setThread t th s).thread u) =
      ∑ u ∈ Finset.univ.erase t, f (s.thread u) := by
    refine Finset.sum_congr rfl ?_
    intro u hu
    rw [thread_setThread, if_neg (Finset.ne_of_mem_erase hu)]
  rw [← Finset.add_sum_erase _ _ (Finset.mem_univ t), hrest,
    ← Finset.add_sum_erase _ (fun u => f (s.thread u)) (Finset.mem_univ t), thread_setThread,
    if_pos rfl]
  abel

end

end AsioLearn.Detail.Scheduler
