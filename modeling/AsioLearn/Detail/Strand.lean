import AsioLearn.Lib.Lts
import AsioLearn.Lib.Proactor

/-!
# `strand_executor_service`

One strand, used by any number of threads. Handlers are posted to it, deferred or dispatched, from
outside or from a handler of the strand; an invoker, which the inner executor runs on one of the
threads, runs those that are ready, and schedules itself again if others are waiting by then.

* `Token`: the strand is locked by one thread or by a scheduled invoker, or it is free and empty.
* `exclusive`: handlers of the strand never run on two threads, and its ready queue, which no mutex
  protects, is never in the hands of two threads.
-/

namespace AsioLearn.Detail.Strand

open Lts Proactor

/-! ## Data -/

/-- What a thread is in the middle of, as far as it concerns the strand. -/
inductive Frame (ω : Type*)
  /-- `enqueue` has locked the strand, and the function is to be pushed. An executor that may run
  it at once does not have to schedule the invoker. -/
  | acquired (op : ω) (mayRun : Bool)
  /-- The invoker is to be given to the executor. -/
  | pushed (mayRun : Bool)
  /-- `run_ready_handlers`. -/
  | running
  /-- A function of the strand: from the ready queue, or one dispatched by the function below. -/
  | handler (op : ω)
  /-- The destructor of `on_invoker_exit`. -/
  | exiting
  /-- `push_waiting_to_ready` has returned true. -/
  | more
  deriving DecidableEq, Repr

/-- The `strand_impl`, the invokers that the executor has not yet run, and the calls that each
thread is in, the innermost first. The last three members are a record: what `enqueue` took, what
was started from the ready queue, and what was destroyed. -/
structure State (ω : Type*) where
  locked : Bool := false
  shutdown : Bool := false
  waitingQueue : List ω := []
  readyQueue : List ω := []
  scheduled : ℕ := 0
  threads : List (List (Frame ω))
  enqueued : List ω := []
  started : List ω := []
  destroyed : List ω := []
  deriving DecidableEq, Repr

inductive Label (ω : Type*)
  /-- `post` and `defer`. -/
  | post (thread : ℕ) (op : ω)
  /-- `dispatch`, and `execute` on an executor that may block. -/
  | dispatch (thread : ℕ) (op : ω)
  | push (thread : ℕ)
  /-- The executor schedules the invoker. -/
  | schedule (thread : ℕ)
  /-- The executor runs the invoker at once. -/
  | runHere (thread : ℕ)
  /-- The executor runs a scheduled invoker. -/
  | take (thread : ℕ)
  | start (thread : ℕ)
  | finish (thread : ℕ)
  | throw (thread : ℕ)
  | done (thread : ℕ)
  | exit (thread : ℕ)
  | reschedule (thread : ℕ)
  /-- All threads have left the `io_context`, which is destroyed. -/
  | shutdown
  deriving DecidableEq, Repr

variable {ω : Type*}

/-- The thread is in a function of the strand, or in none of its calls. -/
def inUserCode : List (Frame ω) → Bool
  | [] => true
  | .handler _ :: _ => true
  | _ => false

/-- `running_in_this_thread`. -/
def runningInThisThread (stack : List (Frame ω)) : Bool :=
  stack.any fun
    | .running => true
    | _ => false

/-! ## Steps -/

/-- `enqueue`, but for the push to the ready queue, which follows the unlocking of the mutex. -/
def enqueue (op : ω) (mayRun : Bool) (stack : List (Frame ω)) (s : State ω) :
    State ω × List (Frame ω) :=
  if s.shutdown then ({ s with destroyed := s.destroyed ++ [op] }, stack)
  else if s.locked then
    ({ s with waitingQueue := s.waitingQueue ++ [op], enqueued := s.enqueued ++ [op] }, stack)
  else ({ s with locked := true, enqueued := s.enqueued ++ [op] }, .acquired op mayRun :: stack)

/-- `push_waiting_to_ready`. -/
def pushWaitingToReady (s : State ω) : Bool × State ω :=
  let ready := s.readyQueue ++ s.waitingQueue
  let moreHandlers := !ready.isEmpty
  (moreHandlers, { s with readyQueue := ready, waitingQueue := [], locked := moreHandlers })

/-- What a thread does, given the calls that it is in. -/
def act (s : State ω) : Label ω → List (Frame ω) → Option (State ω × List (Frame ω))
  | .post _ op, stack => if inUserCode stack then some (enqueue op false stack s) else none
  | .dispatch _ op, stack =>
    if inUserCode stack then
      if runningInThisThread stack then some (s, .handler op :: stack)
      else some (enqueue op true stack s)
    else none
  | .push _, .acquired op mayRun :: stack =>
    some ({ s with readyQueue := s.readyQueue ++ [op] }, .pushed mayRun :: stack)
  | .schedule _, .pushed _ :: stack => some ({ s with scheduled := s.scheduled + 1 }, stack)
  | .runHere _, .pushed true :: stack => some (s, .running :: stack)
  | .take _, stack =>
    if inUserCode stack ∧ 0 < s.scheduled then
      some ({ s with scheduled := s.scheduled - 1 }, .running :: stack)
    else none
  | .start _, .running :: stack =>
    match s.readyQueue with
    | op :: ops =>
      some ({ s with readyQueue := ops, started := s.started ++ [op] },
        .handler op :: .running :: stack)
    | [] => none
  | .finish _, .handler _ :: stack => some (s, stack)
  -- an exception leaves `run_ready_handlers`, or it reaches the function that dispatched this one
  | .throw _, .handler _ :: .running :: stack => some (s, .exiting :: stack)
  | .throw _, .handler _ :: stack => some (s, stack)
  | .done _, .running :: stack => if s.readyQueue.isEmpty then some (s, .exiting :: stack) else none
  | .exit _, .exiting :: stack =>
    let (moreHandlers, s) := pushWaitingToReady s
    some (s, if moreHandlers then .more :: stack else stack)
  | .reschedule _, .more :: stack => some ({ s with scheduled := s.scheduled + 1 }, stack)
  | _, _ => none

def Label.thread : Label ω → Option ℕ
  | .post thread _ | .dispatch thread _ | .push thread | .schedule thread | .runHere thread
  | .take thread | .start thread | .finish thread | .throw thread | .done thread | .exit thread
  | .reschedule thread => some thread
  | .shutdown => none

/-- `shutdown`. -/
def shutdownService (s : State ω) : State ω :=
  { s with
    shutdown := true
    waitingQueue := []
    readyQueue := []
    destroyed := s.destroyed ++ s.waitingQueue ++ s.readyQueue }

def step (s : State ω) (l : Label ω) : Option (State ω) :=
  match l.thread with
  | some thread =>
    match pick s.threads thread with
    | some (before, stack, after) =>
      (act s l stack).map fun (s, stack) => { s with threads := before ++ stack :: after }
    | none => none
  | none =>
    if s.threads.all List.isEmpty && !s.shutdown then some (shutdownService s) else none

/-- A new strand, and so many threads. -/
def initial (threads : ℕ) : State ω := { threads := List.replicate threads [] }

/-! ## The token -/

/-- The calls of the threads that are in any. -/
def active (threads : List (List (Frame ω))) : List (List (Frame ω)) :=
  threads.filter fun stack => !stack.isEmpty

theorem active_around (before after : List (List (Frame ω))) (stack : List (Frame ω)) :
    active (before ++ stack :: after) =
      active before ++ ((if stack.isEmpty then [] else [stack]) ++ active after) := by
  unfold active
  rw [List.filter_append, List.filter_cons]
  cases stack <;> rfl

/-- The calls of the thread that holds the strand. -/
inductive Holder (ready : List ω) : List (Frame ω) → Prop
  | acquired (op : ω) (mayRun : Bool) (h : ready = []) : Holder ready [.acquired op mayRun]
  | pushed (mayRun : Bool) (h : ready ≠ []) : Holder ready [.pushed mayRun]
  | running (ops : List ω) : Holder ready (ops.map .handler ++ [.running])
  | exiting : Holder ready [.exiting]
  | more (h : ready ≠ []) : Holder ready [.more]

theorem Holder.ne_nil {ready : List ω} {stack : List (Frame ω)} (h : Holder ready stack) :
    stack.isEmpty = false := by
  cases h with
  | running ops => cases ops <;> rfl
  | _ => rfl

/-- The strand is free and empty, or an invoker is scheduled for it, or one thread holds it; other
threads are in no call of it. -/
inductive Token (s : State ω) : Prop
  | free (hactive : active s.threads = []) (hlocked : s.locked = false) (hscheduled : s.scheduled = 0)
      (hready : s.readyQueue = []) (hwaiting : s.waitingQueue = [])
  | scheduled (hactive : active s.threads = []) (hlocked : s.locked = true)
      (hscheduled : s.scheduled = 1) (hready : s.shutdown = false → s.readyQueue ≠ [])
  | held (stack : List (Frame ω)) (hactive : active s.threads = [stack]) (hlocked : s.locked = true)
      (hscheduled : s.scheduled = 0) (hholder : Holder s.readyQueue stack)

theorem token_initial (threads : ℕ) : Token (initial threads : State ω) := by
  refine .free ?_ rfl rfl rfl rfl
  show (List.replicate threads []).filter _ = []
  simp

/-- A thread that is in a call holds the strand. -/
theorem Token.holder {s : State ω} (h : Token s) {before after : List (List (Frame ω))}
    {stack : List (Frame ω)} (hthreads : s.threads = before ++ stack :: after)
    (hstack : stack ≠ []) : Holder s.readyQueue stack ∧ s.locked = true ∧ s.scheduled = 0 ∧
      active before = [] ∧ active after = [] := by
  have hactive := active_around before after stack
  rw [← hthreads, if_neg (by simpa using hstack)] at hactive
  cases h with
  | free hnone => rw [hnone] at hactive; simp at hactive
  | scheduled hnone => rw [hnone] at hactive; simp at hactive
  | held stack' hone hlocked hscheduled hholder =>
    rw [hone] at hactive
    have hlength := congrArg List.length hactive
    simp only [List.length_append, List.length_singleton] at hlength
    have hbefore : active before = [] := List.eq_nil_of_length_eq_zero (by omega)
    have hafter : active after = [] := List.eq_nil_of_length_eq_zero (by omega)
    rw [hbefore, hafter] at hactive
    obtain rfl : stack' = stack := by simpa using hactive
    exact ⟨hholder, hlocked, hscheduled, hbefore, hafter⟩

/-- The calls of one thread, the other threads being in none. -/
theorem active_single {before after : List (List (Frame ω))} (hbefore : active before = [])
    (hafter : active after = []) (stack : List (Frame ω)) :
    active (before ++ stack :: after) = if stack.isEmpty then [] else [stack] := by
  rw [active_around, hbefore, hafter, List.nil_append, List.append_nil]

theorem token_held {s : State ω} {before after : List (List (Frame ω))} {stack : List (Frame ω)}
    (hbefore : active before = []) (hafter : active after = [])
    (hthreads : s.threads = before ++ stack :: after) (hlocked : s.locked = true)
    (hscheduled : s.scheduled = 0) (hholder : Holder s.readyQueue stack) : Token s := by
  refine .held stack ?_ hlocked hscheduled hholder
  rw [hthreads, active_single hbefore hafter, hholder.ne_nil]
  rfl

/-- A thread that is in no call of the strand. -/
theorem Token.step_outside {s : State ω} (h : Token s) {before after : List (List (Frame ω))}
    (hthreads : s.threads = before ++ [] :: after) {l : Label ω} {s' : State ω}
    {stack' : List (Frame ω)} (hact : act s l [] = some (s', stack')) :
    Token { s' with threads := before ++ stack' :: after } := by
  have hactive := active_around before after ([] : List (Frame ω))
  rw [← hthreads] at hactive
  replace hactive : active s.threads = active before ++ active after := hactive
  have hsame : active (before ++ [] :: after) = active s.threads := by rw [hthreads]
  have henqueue : ∀ op mayRun, enqueue op mayRun [] s = (s', stack') →
      Token { s' with threads := before ++ stack' :: after } := by
    intro op mayRun heq
    unfold enqueue at heq
    split_ifs at heq with hshutdown hlocked
    · obtain ⟨rfl, rfl⟩ := Prod.mk.inj heq
      cases h with
      | free hnone hl hs hr hw => exact .free (hsame.trans hnone) hl hs hr hw
      | scheduled hnone hl hs hr => exact .scheduled (hsame.trans hnone) hl hs hr
      | held stack hone hl hs hh => exact .held stack (hsame.trans hone) hl hs hh
    · obtain ⟨rfl, rfl⟩ := Prod.mk.inj heq
      cases h with
      | free hnone hl => rw [hlocked] at hl; exact absurd hl (by simp)
      | scheduled hnone hl hs hr => exact .scheduled (hsame.trans hnone) hl hs hr
      | held stack hone hl hs hh => exact .held stack (hsame.trans hone) hl hs hh
    · obtain ⟨rfl, rfl⟩ := Prod.mk.inj heq
      cases h with
      | free hnone hl hs hr hw =>
        rw [hnone] at hactive
        obtain ⟨hbefore, hafter⟩ := List.append_eq_nil_iff.mp hactive.symm
        exact token_held hbefore hafter rfl rfl hs (.acquired op mayRun hr)
      | scheduled hnone hl => exact absurd hl hlocked
      | held stack hone hl => exact absurd hl hlocked
  cases l with
  | post _ op => exact henqueue op false (Option.some.inj hact)
  | dispatch _ op => exact henqueue op true (Option.some.inj hact)
  | take _ =>
    simp only [act] at hact
    split_ifs at hact with hready
    obtain ⟨rfl, rfl⟩ := Prod.mk.inj (Option.some.inj hact)
    cases h with
    | free hnone hl hs => omega
    | held stack hone hl hs => omega
    | scheduled hnone hl hs hr =>
      rw [hnone] at hactive
      obtain ⟨hbefore, hafter⟩ := List.append_eq_nil_iff.mp hactive.symm
      exact token_held hbefore hafter rfl hl (by show s.scheduled - 1 = 0; omega) (.running [])
  | _ => exact absurd hact (by simp [act])

/-- In user code of the strand, `enqueue` leaves the function to those who wait. -/
theorem enqueue_locked {s : State ω} (hlocked : s.locked = true) (op : ω) (mayRun : Bool)
    (stack : List (Frame ω)) : (enqueue op mayRun stack s).2 = stack ∧
      (enqueue op mayRun stack s).1.locked = true ∧
      (enqueue op mayRun stack s).1.scheduled = s.scheduled ∧
      (enqueue op mayRun stack s).1.readyQueue = s.readyQueue := by
  unfold enqueue
  split_ifs
  · exact ⟨rfl, hlocked, rfl, rfl⟩
  · exact ⟨rfl, hlocked, rfl, rfl⟩

/-- The thread that holds the strand. -/
theorem Token.step_inside {s : State ω} (hlocked : s.locked = true) (hscheduled : s.scheduled = 0)
    {before after : List (List (Frame ω))} (hbefore : active before = []) (hafter : active after = [])
    {stack : List (Frame ω)} (h : Holder s.readyQueue stack) {l : Label ω} {s' : State ω}
    {stack' : List (Frame ω)} (hact : act s l stack = some (s', stack')) :
    Token { s' with threads := before ++ stack' :: after } := by
  have hnone : active (before ++ [] :: after) = [] := active_single hbefore hafter []
  cases h with
  | acquired op mayRun hready =>
    cases l with
    | push _ =>
      obtain ⟨rfl, rfl⟩ := Prod.mk.inj (Option.some.inj hact)
      exact token_held hbefore hafter rfl hlocked hscheduled (.pushed mayRun (by simp))
    | _ => exact absurd hact (by simp [act, inUserCode])
  | pushed mayRun hready =>
    cases l with
    | schedule _ =>
      obtain ⟨rfl, rfl⟩ := Prod.mk.inj (Option.some.inj hact)
      exact .scheduled hnone hlocked (by rw [hscheduled]) fun _ => hready
    | runHere _ =>
      cases mayRun with
      | false => exact absurd hact (by simp [act])
      | true =>
        obtain ⟨rfl, rfl⟩ := Prod.mk.inj (Option.some.inj hact)
        exact token_held hbefore hafter rfl hlocked hscheduled (.running [])
    | _ => exact absurd hact (by simp [act, inUserCode])
  | running ops =>
    cases ops with
    | nil =>
      cases l with
      | start _ =>
        simp only [act, List.map_nil, List.nil_append] at hact
        split at hact
        · obtain ⟨rfl, rfl⟩ := Prod.mk.inj (Option.some.inj hact)
          exact token_held hbefore hafter rfl hlocked hscheduled (.running [_])
        · exact absurd hact (by simp)
      | done _ =>
        simp only [act, List.map_nil, List.nil_append] at hact
        split_ifs at hact
        obtain ⟨rfl, rfl⟩ := Prod.mk.inj (Option.some.inj hact)
        exact token_held hbefore hafter rfl hlocked hscheduled .exiting
      | _ => exact absurd hact (by simp [act, inUserCode])
    | cons op ops =>
      have huser : inUserCode ((op :: ops).map Frame.handler ++ [.running]) = true := rfl
      have hinside : runningInThisThread ((op :: ops).map Frame.handler ++ [.running]) = true := by
        simp [runningInThisThread]
      have hpost : ∀ op' mayRun,
          enqueue op' mayRun ((op :: ops).map Frame.handler ++ [.running]) s = (s', stack') →
          Token { s' with threads := before ++ stack' :: after } := by
        intro op' mayRun heq
        obtain ⟨hstack, hl, hs, hr⟩ := enqueue_locked hlocked op' mayRun
          ((op :: ops).map Frame.handler ++ [.running])
        rw [heq] at hstack hl hs hr
        obtain rfl : stack' = _ := hstack
        exact token_held hbefore hafter rfl hl (hs.trans hscheduled) (.running (op :: ops))
      cases l with
      | post _ op' =>
        simp only [act, huser, if_true] at hact
        exact hpost op' false (Option.some.inj hact)
      | dispatch _ op' =>
        simp only [act, huser, hinside, if_true] at hact
        obtain ⟨rfl, rfl⟩ := Prod.mk.inj (Option.some.inj hact)
        exact token_held hbefore hafter rfl hlocked hscheduled (.running (op' :: op :: ops))
      | take _ =>
        simp only [act, hscheduled] at hact
        exact absurd hact (by simp)
      | finish _ =>
        obtain ⟨rfl, rfl⟩ := Prod.mk.inj (Option.some.inj hact)
        exact token_held hbefore hafter rfl hlocked hscheduled (.running ops)
      | throw _ =>
        cases ops with
        | nil =>
          obtain ⟨rfl, rfl⟩ := Prod.mk.inj (Option.some.inj hact)
          exact token_held hbefore hafter rfl hlocked hscheduled .exiting
        | cons op' ops =>
          obtain ⟨rfl, rfl⟩ := Prod.mk.inj (Option.some.inj hact)
          exact token_held hbefore hafter rfl hlocked hscheduled (.running (op' :: ops))
      | _ => exact absurd hact (by simp [act])
  | exiting =>
    cases l with
    | exit _ =>
      obtain ⟨rfl, rfl⟩ := Prod.mk.inj (Option.some.inj hact)
      cases s.readyQueue ++ s.waitingQueue with
      | nil => exact .free hnone rfl hscheduled rfl rfl
      | cons op ops =>
        exact token_held hbefore hafter (show _ = before ++ [Frame.more] :: after from rfl) rfl
          hscheduled (.more (List.cons_ne_nil op ops))
    | _ => exact absurd hact (by simp [act, inUserCode])
  | more hready =>
    cases l with
    | reschedule _ =>
      obtain ⟨rfl, rfl⟩ := Prod.mk.inj (Option.some.inj hact)
      exact .scheduled hnone hlocked (by rw [hscheduled]) fun _ => hready
    | _ => exact absurd hact (by simp [act, inUserCode])

theorem Token.step {s s' : State ω} (h : Token s) (l : Label ω) (hs : step s l = some s') :
    Token s' := by
  unfold Strand.step at hs
  split at hs
  · split at hs
    · rename_i before stack after hpick
      obtain ⟨⟨t, stack'⟩, hact, rfl⟩ := Option.map_eq_some_iff.mp hs
      have hthreads := pick_eq_some hpick
      by_cases hstack : stack = []
      · rw [hstack] at hact hthreads
        exact h.step_outside hthreads hact
      · obtain ⟨hholder, hlocked, hscheduled, hbefore, hafter⟩ := h.holder hthreads hstack
        exact Token.step_inside hlocked hscheduled hbefore hafter hholder hact
    · exact absurd hs (by simp)
  · split_ifs at hs with hquiet
    obtain rfl := Option.some.inj hs
    have hnone : active s.threads = [] := by
      have hall := ((Bool.and_eq_true ..).mp hquiet).1
      unfold active
      rw [List.filter_eq_nil_iff]
      intro stack hstack hno
      rw [List.all_eq_true.mp hall stack hstack] at hno
      exact absurd hno (by simp)
    cases h with
    | free _ hl hsched _ _ => exact .free hnone hl hsched rfl rfl
    | scheduled _ hl hsched _ =>
      exact .scheduled hnone hl hsched fun hno => absurd hno (by simp [shutdownService])
    | held stack hone => rw [hnone] at hone; exact absurd hone (by simp)

theorem token_of_run {threads : ℕ} {ls : List (Label ω)} {s : State ω}
    (h : Run step Any (initial threads) ls s) : Token s :=
  h.invariant (token_initial threads) fun _ l _ hI _ hs => hI.step l hs

/-! ## Mutual exclusion -/

theorem nil_of_active {threads : List (List (Frame ω))} (h : active threads = [])
    {stack : List (Frame ω)} (hstack : stack ∈ threads) : stack = [] := by
  have hno := (List.filter_eq_nil_iff.mp h) stack hstack
  simpa using hno

/-- **Mutual exclusion.** Never are two threads in a function of the strand, or in one of its calls
that read or write the ready queue without the mutex; while one is, no invoker is scheduled. A free
strand has no functions. -/
theorem exclusive {threads : ℕ} {ls : List (Label ω)} {s : State ω}
    (h : Run step Any (initial threads) ls s) :
    (∀ (i j : ℕ) stack stack', s.threads[i]? = some stack → s.threads[j]? = some stack' →
      stack ≠ [] → stack' ≠ [] → i = j) ∧
    (∀ stack ∈ s.threads, stack ≠ [] → s.locked = true ∧ s.scheduled = 0) ∧
    s.scheduled ≤ 1 ∧ (s.locked = false → s.readyQueue = [] ∧ s.waitingQueue = []) := by
  have htoken := token_of_run h
  refine ⟨?_, ?_, ?_, ?_⟩
  · intro i j stack stack' hi hj hne hne'
    obtain ⟨hlen, rfl⟩ := List.getElem?_eq_some_iff.mp hi
    have hthreads : s.threads = s.threads.take i ++ s.threads[i] :: s.threads.drop (i + 1) := by
      rw [List.getElem_cons_drop, List.take_append_drop]
    obtain ⟨-, -, -, hbefore, hafter⟩ := htoken.holder hthreads hne
    by_contra hij
    apply hne'
    rcases Nat.lt_or_gt_of_ne hij with hlt | hgt
    · refine nil_of_active hafter (List.mem_of_getElem? (i := j - (i + 1)) ?_)
      rw [List.getElem?_drop, show i + 1 + (j - (i + 1)) = j by omega, hj]
    · refine nil_of_active hbefore (List.mem_of_getElem? (i := j) ?_)
      rw [List.getElem?_take, if_pos hgt, hj]
  · intro stack hstack hne
    obtain ⟨before, after, hthreads⟩ := List.append_of_mem hstack
    obtain ⟨-, hlocked, hscheduled, -, -⟩ := htoken.holder hthreads hne
    exact ⟨hlocked, hscheduled⟩
  · cases htoken with
    | free _ _ hs => omega
    | scheduled _ _ hs => omega
    | held _ _ _ hs => omega
  · intro hfree
    cases htoken with
    | free _ _ _ hr hw => exact ⟨hr, hw⟩
    | scheduled _ hl => exact absurd (hl.symm.trans hfree) (by simp)
    | held _ _ hl => exact absurd (hl.symm.trans hfree) (by simp)

/-- One thread posts to the strand and another one runs it, twice; the first function dispatches
another one, which throws. -/
def someRun : List (Label ℕ) :=
  [.post 0 1, .push 0, .post 1 2, .schedule 0, .take 1, .start 1, .dispatch 1 5, .post 0 3, .throw 1,
    .throw 1, .exit 1, .reschedule 1, .take 0, .start 0]

theorem exclusive_someRun :
    let s := reached step Any (initial 2) someRun
    (∀ (i j : ℕ) stack stack', s.threads[i]? = some stack → s.threads[j]? = some stack' →
      stack ≠ [] → stack' ≠ [] → i = j) ∧
    (∀ stack ∈ s.threads, stack ≠ [] → s.locked = true ∧ s.scheduled = 0) ∧
    s.scheduled ≤ 1 ∧ (s.locked = false → s.readyQueue = [] ∧ s.waitingQueue = []) :=
  exclusive (run_reached (by decide))

end AsioLearn.Detail.Strand
