import AsioLearn.Detail.TimerRuns

/-!
# The programs that print whenever a timer expires

`timer3.cpp`, `timer4.cpp` and `timer5.cpp`, and `repeat_timer` of `timer_async.cpp`: a handler
prints a counter, counts it up and waits again on the timer that has called it, until the counter
has reached a limit. In `timer5.cpp` two timers share the counter, and two threads run the handlers,
one at a time as they are in one strand.

A step of the timers is one of `DeadlineTimer`; the handlers of waits that are over may run in any
order.
-/

namespace AsioLearn.Timer

open Lts Detail

/-! ## Data -/

/-- What is different in the programs. -/
structure Printer (ι : Type*) where
  timers : List ι
  limit : ℕ
  period : Ticks
  /-- `expires_after`, and not `expires_at` with a time after the last expiry. -/
  fromNow : Bool := false
  nonempty : timers ≠ []
  nodup : timers.Nodup
  period_pos : 0 < period.val

/-- `asio::chrono::seconds(1)`. -/
def oneSecond : Ticks := ⟨1000000000, by decide⟩

def timer3 : Printer Unit where
  timers := [()]
  limit := 5
  period := oneSecond
  nonempty := by decide
  nodup := by decide
  period_pos := by decide

def timer4 : Printer Unit where
  timers := [()]
  limit := 5
  period := oneSecond
  nonempty := by decide
  nodup := by decide
  period_pos := by decide

inductive Timers
  | timer1
  | timer2
  deriving DecidableEq, Repr

def timer5 : Printer Timers where
  timers := [.timer1, .timer2]
  limit := 10
  period := oneSecond
  nonempty := by decide
  nodup := by decide
  period_pos := by decide

def repeatTimer : Printer Unit where
  timers := [()]
  limit := 10
  period := ⟨200000000, by decide⟩
  fromNow := true
  nonempty := by decide
  nodup := by decide
  period_pos := by decide

/-- What has been printed, by which timer and when. -/
structure Line (ι : Type*) where
  timer : ι
  count : ℕ
  time : Ticks

/-- The timers, what `main` or the constructor has yet to do, and the waits whose handlers have not
been called. -/
structure State (ι : Type*) where
  io : DeadlineTimer.State ι
  toConstruct : List ι
  toWait : List ι
  handlers : List (ℕ × ι) := []
  count : ℕ := 0
  lines : List (Line ι) := []

inductive Label
  /-- The next statement before `run`. -/
  | main
  | tick (now : Ticks)
  | reactor
  | staleReactor
  /-- The handler of this wait is called. -/
  | handle (id : ℕ)

variable {ι : Type*} [DecidableEq ι]

/-! ## Steps -/

def withIo (s : State ι) (io : DeadlineTimer.State ι) : State ι := { s with io := io }

/-- `async_wait`. -/
def wait (timer : ι) (s : State ι) : Option (State ι) :=
  (DeadlineTimer.step s.io (.asyncWait timer 0)).map fun io =>
    { s with io := io, handlers := s.handlers ++ [(s.io.nextId, timer)] }

/-- `expires_after` or `expires_at`. -/
def setTimer (P : Printer ι) (timer : ι) (s : State ι) : Option (State ι) :=
  if P.fromNow then (DeadlineTimer.step s.io (.expiresAfter timer P.period)).map (withIo s)
  else
    (Ticks.ofInt ((s.io.expiry timer).val + P.period.val)).bind fun time =>
      (DeadlineTimer.step s.io (.expiresAt timer time)).map (withIo s)

def print (P : Printer ι) (timer : ι) (s : State ι) : Option (State ι) :=
  if s.count < P.limit then
    (setTimer P timer { s with
      lines := s.lines ++ [⟨timer, s.count, s.io.now⟩]
      count := s.count + 1 }).bind (wait timer)
  else some s

/-- `printer::print1` and `printer::print2` of `timer5.cpp`. -/
def print1 : State Timers → Option (State Timers) := print timer5 .timer1

def print2 : State Timers → Option (State Timers) := print timer5 .timer2

/-- The wait whose handler is called, and the other ones. -/
def takeHandler (id : ℕ) (s : State ι) : Option (ι × State ι) :=
  (s.handlers.find? fun h => h.1 = id).map fun h =>
    (h.2, { s with handlers := s.handlers.filter fun h => h.1 ≠ id })

def step (P : Printer ι) (s : State ι) : Label → Option (State ι)
  | .main =>
    match s.toConstruct, s.toWait with
    | timer :: rest, _ => (DeadlineTimer.step s.io (.expiresAfter timer P.period)).map fun io =>
        { s with io := io, toConstruct := rest }
    | [], timer :: rest => wait timer { s with toWait := rest }
    | [], [] => none
  | .tick now => (DeadlineTimer.step s.io (.tick now)).map (withIo s)
  | .reactor => if s.toWait = [] then (DeadlineTimer.step s.io .run).map (withIo s) else none
  | .staleReactor =>
    if s.toWait = [] then (DeadlineTimer.step s.io .staleRun).map (withIo s) else none
  | .handle id =>
    if s.toWait = [] ∧ id ∈ s.io.completed.map TimerQueue.WaitOp.id then
      (takeHandler id s).bind fun (timer, s) => print P timer s
    else none

def initial (P : Printer ι) (now : Ticks) : State ι where
  io := DeadlineTimer.initial now
  toConstruct := P.timers
  toWait := P.timers

/-! ## What the steps do -/

section

variable {P : Printer ι} {timer : ι} {s s' : State ι}

/-- What `expires_after` and `expires_at` come to. -/
theorem setTimer_cases (h : setTimer P timer s = some s') :
    ∃ l io, DeadlineTimer.step s.io l = some io ∧ s' = withIo s io ∧
      ((P.fromNow = true ∧ l = .expiresAfter timer P.period) ∨
        ∃ time, time.val = (s.io.expiry timer).val + P.period.val ∧ l = .expiresAt timer time) := by
  unfold setTimer at h
  split_ifs at h with hnow
  · obtain ⟨io, hio, rfl⟩ := Option.map_eq_some_iff.mp h
    exact ⟨_, io, hio, rfl, Or.inl ⟨hnow, rfl⟩⟩
  · obtain ⟨time, htime, h⟩ := Option.bind_eq_some_iff.mp h
    obtain ⟨io, hio, rfl⟩ := Option.map_eq_some_iff.mp h
    refine ⟨_, io, hio, rfl, Or.inr ⟨time, ?_, rfl⟩⟩
    unfold Ticks.ofInt at htime
    split_ifs at htime
    obtain rfl := Option.some.inj htime
    rfl

/-- What a call of the handler comes to. -/
inductive Handled (P : Printer ι) (id : ℕ) (s : State ι) : State ι → Prop
  | last (timer : ι) (hmem : (id, timer) ∈ s.handlers) (hcount : P.limit ≤ s.count) :
      Handled P id s { s with handlers := s.handlers.filter fun h => h.1 ≠ id }
  | again (timer : ι) (hmem : (id, timer) ∈ s.handlers) (hcount : s.count < P.limit)
      (l : DeadlineTimer.Label ι) (io io' : DeadlineTimer.State ι)
      (hset : DeadlineTimer.step s.io l = some io)
      (hl : (P.fromNow = true ∧ l = .expiresAfter timer P.period) ∨
        ∃ time, time.val = (s.io.expiry timer).val + P.period.val ∧ l = .expiresAt timer time)
      (hwait : DeadlineTimer.step io (.asyncWait timer 0) = some io') :
      Handled P id s { s with
        io := io'
        handlers := (s.handlers.filter fun h => h.1 ≠ id) ++ [(io.nextId, timer)]
        count := s.count + 1
        lines := s.lines ++ [⟨timer, s.count, s.io.now⟩] }

theorem handle_cases {id : ℕ} (h : step P s (.handle id) = some s') :
    s.toWait = [] ∧ id ∈ s.io.completed.map TimerQueue.WaitOp.id ∧ Handled P id s s' := by
  simp only [step] at h
  split_ifs at h with hgo
  obtain ⟨⟨timer, t⟩, ht, h⟩ := Option.bind_eq_some_iff.mp h
  obtain ⟨⟨id', timer'⟩, hfound, heq⟩ := Option.map_eq_some_iff.mp ht
  obtain ⟨rfl, rfl⟩ := Prod.mk.inj heq
  have hmem := List.mem_of_find?_eq_some hfound
  obtain rfl : id' = id := by simpa using List.find?_some hfound
  refine ⟨hgo.1, hgo.2, ?_⟩
  dsimp only at h
  unfold print at h
  split_ifs at h with hcount
  · obtain ⟨u, hu, h⟩ := Option.bind_eq_some_iff.mp h
    obtain ⟨l, io, hio, rfl, hl⟩ := setTimer_cases hu
    obtain ⟨io', hio', rfl⟩ := Option.map_eq_some_iff.mp h
    exact .again _ hmem hcount l io io' hio hl hio'
  · obtain rfl := Option.some.inj h
    exact .last _ hmem (Nat.not_lt.mp hcount)

end

end AsioLearn.Timer
