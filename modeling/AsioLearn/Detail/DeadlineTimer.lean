import AsioLearn.Detail.TimeTraits
import AsioLearn.Detail.TimerMoves
import AsioLearn.Lib.Lts

/-!
# `deadline_timer_service` and the timers of the reactor

What the timers of an `io_context` do with their common `timer_queue`, and when the reactor wakes
up for them. The clock may go on before every step.
-/

namespace AsioLearn.Detail.DeadlineTimer

open TimerQueue Lts

/-! ## Data -/

/-- The service, a map for each member of the `implementation_type` of all timers, and the reactor.
Operations that the reactor hands to the scheduler are `completed`; those that it destroys with
itself are `abandoned`. -/
structure State (ι : Type*) where
  queue : TimerQueue.State ι Ticks := {}
  expiry : ι → Ticks := fun _ => Ticks.zero
  mightHavePendingWaits : ι → Bool := fun _ => false
  shutdown : Bool := false
  now : Ticks
  /-- When the timer descriptor becomes ready. -/
  wake : Option ℤ := none
  completed : List WaitOp := []
  abandoned : List WaitOp := []
  nextId : ℕ := 0

inductive Label (ι : Type*)
  | tick (now : Ticks)
  | asyncWait (timer : ι) (cancellationKey : ℕ)
  | cancel (timer : ι)
  | cancelOne (timer : ι)
  /-- `op_cancellation`, called by the slot of a wait. -/
  | cancelSlot (timer : ι) (cancellationKey : ℕ)
  | expiresAt (timer : ι) (time : Ticks)
  | expiresAfter (timer : ι) (duration : Ticks)
  | move (target source : ι)
  /-- The reactor runs, as the timer descriptor is ready. -/
  | run
  /-- The reactor goes on after `epoll_wait` has found the timer descriptor ready; meanwhile another
  thread may have set it anew. -/
  | staleRun
  | shutdown

variable {ι : Type*}

def setMightHave (timer : ι) (b : Bool) [DecidableEq ι] (s : State ι) : State ι :=
  { s with mightHavePendingWaits := Function.update s.mightHavePendingWaits timer b }

def setExpiry (timer : ι) (time : Ticks) [DecidableEq ι] (s : State ι) : State ι :=
  { s with expiry := Function.update s.expiry timer time }

/-! ## The reactor -/

/-- `update_timeout`. From its reading of the clock to `timerfd_settime` no time goes by. -/
def updateTimeout (s : State ι) : Option (State ι) :=
  (getTimeout s.now s.queue).map fun spec => { s with wake := some (spec.wakeTime s.now) }

variable [DecidableEq ι]

/-- `schedule_timer`. -/
def scheduleTimer (time : Ticks) (timer : ι) (op : WaitOp) (s : State ι) : Option (State ι) :=
  if s.shutdown then some { s with completed := s.completed ++ [op] }
  else
    let (earliest, queue) := enqueueTimer time timer op s.queue
    let s := { s with queue := queue }
    if earliest then updateTimeout s else some s

/-- `cancel_timer`. -/
def cancelTimer (timer : ι) (maxCancelled : Option ℕ) (s : State ι) : ℕ × State ι :=
  let (n, ops, queue) := TimerQueue.cancelTimer timer [] maxCancelled s.queue
  (n, { s with queue := queue, completed := s.completed ++ ops })

/-- `cancel_timer_by_key`. -/
def cancelTimerByKey (timer : ι) (cancellationKey : ℕ) (s : State ι) : State ι :=
  let (ops, queue) := TimerQueue.cancelTimerByKey timer [] cancellationKey s.queue
  { s with queue := queue, completed := s.completed ++ ops }

/-- `move_timer`. -/
def moveTimer (target source : ι) (s : State ι) : State ι :=
  let s := (cancelTimer target none s).2
  { s with queue := TimerQueue.moveTimer target source s.queue }

/-- `epoll_reactor::run`, as far as it concerns timers. -/
def runReactor (s : State ι) : Option (State ι) :=
  let (ops, queue) := getReadyTimers s.now [] s.queue
  updateTimeout { s with queue := queue, completed := s.completed ++ ops }

/-- `epoll_reactor::shutdown`. -/
def shutdownReactor (s : State ι) : State ι :=
  let (ops, queue) := getAllTimers [] s.queue
  { s with shutdown := true, queue := queue, abandoned := s.abandoned ++ ops }

/-! ## The service -/

def asyncWait (timer : ι) (cancellationKey : ℕ) (s : State ι) : Option (State ι) :=
  let op : WaitOp := { id := s.nextId, cancellationKey := cancellationKey }
  let s := setMightHave timer true { s with nextId := s.nextId + 1 }
  scheduleTimer (s.expiry timer) timer op s

def cancel (timer : ι) (s : State ι) : ℕ × State ι :=
  if s.mightHavePendingWaits timer then
    let (count, s) := cancelTimer timer none s
    (count, setMightHave timer false s)
  else (0, s)

def cancelOne (timer : ι) (s : State ι) : ℕ × State ι :=
  if s.mightHavePendingWaits timer then
    let (count, s) := cancelTimer timer (some 1) s
    (count, if count = 0 then setMightHave timer false s else s)
  else (0, s)

def expiresAt (timer : ι) (time : Ticks) (s : State ι) : ℕ × State ι :=
  let (count, s) := cancel timer s
  (count, setExpiry timer time s)

def expiresAfter (timer : ι) (duration : Ticks) (s : State ι) : Option (ℕ × State ι) :=
  (add s.now duration).map fun time => expiresAt timer time s

/-- `move_construct`, and `move_assign` of a timer of the same service. -/
def moveImpl (target source : ι) (s : State ι) : State ι :=
  let s := moveTimer target source s
  let s := setExpiry source Ticks.zero (setExpiry target (s.expiry source) s)
  setMightHave source false (setMightHave target (s.mightHavePendingWaits source) s)

def step (s : State ι) : Label ι → Option (State ι)
  | .tick now => if s.now ≤ now then some { s with now := now } else none
  | .asyncWait timer cancellationKey => asyncWait timer cancellationKey s
  | .cancel timer => some (cancel timer s).2
  | .cancelOne timer => some (cancelOne timer s).2
  | .cancelSlot timer cancellationKey => some (cancelTimerByKey timer cancellationKey s)
  | .expiresAt timer time => some (expiresAt timer time s).2
  | .expiresAfter timer duration => (expiresAfter timer duration s).map Prod.snd
  -- a timer is not moved to itself
  | .move target source => if target = source then none else some (moveImpl target source s)
  | .run =>
    match s.wake with
    | some wake => if wake ≤ s.now.val ∧ s.shutdown = false then runReactor s else none
    | none => none
  | .staleRun => if s.shutdown then none else runReactor s
  | .shutdown => if s.shutdown then none else some (shutdownReactor s)

/-- No timer has been used. The clock is one that has been running. -/
def initial (now : Ticks) : State ι := { now := now }

end AsioLearn.Detail.DeadlineTimer
