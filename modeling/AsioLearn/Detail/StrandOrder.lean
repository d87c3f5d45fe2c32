import AsioLearn.Detail.Strand

/-!
# The order of the handlers of a strand

* `in_order`: handlers start in the order in which they were posted.
* `settles`: without further calls the threads come to an end, and all handlers that were posted
  have been started by then.
-/

namespace AsioLearn.Detail.Strand

open Lts Proactor

variable {ω : Type*}

/-! ## Order -/

/-- The function that is on its way to the ready queue. -/
def Frame.transit : Frame ω → Option ω
  | .acquired op _ => some op
  | _ => none

def transit (threads : List (List (Frame ω))) : List ω := threads.flatten.filterMap Frame.transit

/-- What was posted has been started, or it is still in the strand, in this order. -/
structure Fifo (s : State ω) : Prop where
  before : s.shutdown = false →
    s.enqueued = s.started ++ (transit s.threads ++ (s.readyQueue ++ s.waitingQueue))
  after : s.shutdown = true →
    s.started <+: s.enqueued ∧ s.readyQueue = [] ∧ s.waitingQueue = [] ∧ transit s.threads = []

theorem transit_around (before after : List (List (Frame ω))) (stack : List (Frame ω)) :
    transit (before ++ stack :: after) =
      transit before ++ (stack.filterMap Frame.transit ++ transit after) := by
  unfold transit
  rw [List.flatten_append, List.flatten_cons, List.filterMap_append, List.filterMap_append]

theorem transit_of_active {threads : List (List (Frame ω))} (h : active threads = []) :
    transit threads = [] := by
  have hflat : threads.flatten = [] := by
    rw [List.flatten_eq_nil_iff]
    intro stack hstack
    exact nil_of_active h hstack
  unfold transit
  rw [hflat]
  rfl

/-- What a step does to the functions that have been posted: some are added, some are started. -/
structure Moves (s : State ω) (queue : List ω) (s' : State ω) (queue' : List ω) : Prop where
  shutdown : s'.shutdown = s.shutdown
  moved : ∃ new gone, s'.enqueued = s.enqueued ++ new ∧ s'.started = s.started ++ gone ∧
    queue ++ new = gone ++ queue' ∧ (s.shutdown = true → new = [])

theorem Moves.none {s s' : State ω} {queue queue' : List ω} (hshutdown : s'.shutdown = s.shutdown)
    (henqueued : s'.enqueued = s.enqueued) (hstarted : s'.started = s.started)
    (hqueue : queue' = queue) : Moves s queue s' queue' where
  shutdown := hshutdown
  moved := by
    refine ⟨[], [], ?_, ?_, ?_, fun _ => rfl⟩
    · rw [henqueued, List.append_nil]
    · rw [hstarted, List.append_nil]
    · rw [hqueue, List.append_nil, List.nil_append]

/-- `enqueue` by a thread that is in none of the calls, or finds the strand locked. -/
theorem moves_enqueue {s : State ω} (h : Token s) {before after : List (List (Frame ω))}
    {stack : List (Frame ω)} (hthreads : s.threads = before ++ stack :: after)
    (hstack : stack = [] ∨ s.locked = true) (op : ω) (mayRun : Bool) :
    Moves s (transit s.threads ++ (s.readyQueue ++ s.waitingQueue)) (enqueue op mayRun stack s).1
      (transit (before ++ (enqueue op mayRun stack s).2 :: after) ++
        ((enqueue op mayRun stack s).1.readyQueue ++
          (enqueue op mayRun stack s).1.waitingQueue)) := by
  unfold enqueue
  split_ifs with hshutdown hlocked
  · exact .none rfl rfl rfl (by rw [← hthreads])
  · refine ⟨rfl, [op], [], rfl, (List.append_nil _).symm, ?_, fun hno => absurd hno hshutdown⟩
    rw [← hthreads]
    simp only [List.append_assoc, List.nil_append]
  · obtain rfl := hstack.resolve_right hlocked
    refine ⟨rfl, [op], [], rfl, (List.append_nil _).symm, ?_, fun hno => absurd hno hshutdown⟩
    cases h with
    | free hnone _ _ hr hw =>
      rw [transit_of_active hnone]
      have hactive := active_around before after ([] : List (Frame ω))
      rw [← hthreads, hnone] at hactive
      obtain ⟨hbefore, hafter⟩ := List.append_eq_nil_iff.mp hactive.symm
      rw [transit_around, transit_of_active hbefore, transit_of_active hafter]
      simp [Frame.transit, hr, hw]
    | scheduled _ hl => exact absurd hl hlocked
    | held _ _ hl => exact absurd hl hlocked

theorem moves_act {s : State ω} (h : Token s) {before after : List (List (Frame ω))}
    {stack : List (Frame ω)} (hthreads : s.threads = before ++ stack :: after) {l : Label ω}
    {s' : State ω} {stack' : List (Frame ω)} (hact : act s l stack = some (s', stack')) :
    Moves s (transit s.threads ++ (s.readyQueue ++ s.waitingQueue)) s'
      (transit (before ++ stack' :: after) ++ (s'.readyQueue ++ s'.waitingQueue)) := by
  by_cases hstack : stack = []
  · subst hstack
    have hrunning : transit (before ++ [.running] :: after) = transit s.threads := by
      rw [hthreads, transit_around, transit_around]
      rfl
    cases l with
    | post _ op =>
      obtain ⟨rfl, rfl⟩ := Prod.mk.inj (Option.some.inj hact)
      exact moves_enqueue h hthreads (Or.inl rfl) op false
    | dispatch _ op =>
      obtain ⟨rfl, rfl⟩ := Prod.mk.inj (Option.some.inj hact)
      exact moves_enqueue h hthreads (Or.inl rfl) op true
    | take _ =>
      simp only [act] at hact
      split_ifs at hact
      obtain ⟨rfl, rfl⟩ := Prod.mk.inj (Option.some.inj hact)
      exact .none rfl rfl rfl (by rw [hrunning])
    | _ => exact absurd hact (by simp [act])
  · obtain ⟨hholder, hlocked, hscheduled, hbefore, hafter⟩ := h.holder hthreads hstack
    have htransit : ∀ stack, transit (before ++ stack :: after) = stack.filterMap Frame.transit := by
      intro stack
      rw [transit_around, transit_of_active hbefore, transit_of_active hafter, List.nil_append,
        List.append_nil]
    have hpost : ∀ op mayRun, enqueue op mayRun stack s = (s', stack') →
        Moves s (transit s.threads ++ (s.readyQueue ++ s.waitingQueue)) s'
          (transit (before ++ stack' :: after) ++ (s'.readyQueue ++ s'.waitingQueue)) := by
      intro op mayRun heq
      have hmoves := moves_enqueue h hthreads (Or.inr hlocked) op mayRun
      rwa [heq] at hmoves
    rw [htransit stack', hthreads, htransit stack]
    rw [hthreads, htransit stack, htransit stack'] at hpost
    cases hholder with
    | acquired op mayRun hready =>
      cases l with
      | push _ =>
        obtain ⟨rfl, rfl⟩ := Prod.mk.inj (Option.some.inj hact)
        exact .none rfl rfl rfl (by simp [Frame.transit, hready])
      | _ => exact absurd hact (by simp [act, inUserCode])
    | pushed mayRun hready =>
      cases l with
      | schedule _ =>
        obtain ⟨rfl, rfl⟩ := Prod.mk.inj (Option.some.inj hact)
        exact .none rfl rfl rfl rfl
      | runHere _ =>
        cases mayRun with
        | false => exact absurd hact (by simp [act])
        | true =>
          obtain ⟨rfl, rfl⟩ := Prod.mk.inj (Option.some.inj hact)
          exact .none rfl rfl rfl rfl
      | _ => exact absurd hact (by simp [act, inUserCode])
    | running ops =>
      cases ops with
      | nil =>
        cases l with
        | start _ =>
          simp only [act, List.map_nil, List.nil_append] at hact
          split at hact
          · rename_i op ops hready
            obtain ⟨rfl, rfl⟩ := Prod.mk.inj (Option.some.inj hact)
            refine ⟨rfl, [], [op], (List.append_nil _).symm, rfl, ?_, fun _ => rfl⟩
            rw [hready, List.append_nil]
            rfl
          · exact absurd hact (by simp)
        | done _ =>
          simp only [act, List.map_nil, List.nil_append] at hact
          split_ifs at hact
          obtain ⟨rfl, rfl⟩ := Prod.mk.inj (Option.some.inj hact)
          exact .none rfl rfl rfl rfl
        | _ => exact absurd hact (by simp [act, inUserCode])
      | cons op ops =>
        have huser : inUserCode ((op :: ops).map Frame.handler ++ [.running]) = true := rfl
        have hinside : runningInThisThread ((op :: ops).map Frame.handler ++ [.running]) = true := by
          simp [runningInThisThread]
        cases l with
        | post _ op' =>
          simp only [act, huser, if_true] at hact
          exact hpost op' false (Option.some.inj hact)
        | dispatch _ op' =>
          simp only [act, huser, hinside, if_true] at hact
          obtain ⟨rfl, rfl⟩ := Prod.mk.inj (Option.some.inj hact)
          exact .none rfl rfl rfl rfl
        | take _ =>
          simp only [act, hscheduled] at hact
          exact absurd hact (by simp)
        | finish _ =>
          obtain ⟨rfl, rfl⟩ := Prod.mk.inj (Option.some.inj hact)
          exact .none rfl rfl rfl rfl
        | throw _ =>
          cases ops with
          | nil =>
            obtain ⟨rfl, rfl⟩ := Prod.mk.inj (Option.some.inj hact)
            exact .none rfl rfl rfl rfl
          | cons op' ops =>
            obtain ⟨rfl, rfl⟩ := Prod.mk.inj (Option.some.inj hact)
            exact .none rfl rfl rfl rfl
        | _ => exact absurd hact (by simp [act])
    | exiting =>
      cases l with
      | exit _ =>
        obtain ⟨rfl, rfl⟩ := Prod.mk.inj (Option.some.inj hact)
        refine .none rfl rfl rfl ?_
        have hnone : ∀ b : Bool,
            (if b then [Frame.more] else ([] : List (Frame ω))).filterMap Frame.transit = [] := by
          intro b
          cases b <;> rfl
        rw [hnone]
        exact congrArg _ (List.append_nil _)
      | _ => exact absurd hact (by simp [act, inUserCode])
    | more hready =>
      cases l with
      | reschedule _ =>
        obtain ⟨rfl, rfl⟩ := Prod.mk.inj (Option.some.inj hact)
        exact .none rfl rfl rfl rfl
      | _ => exact absurd hact (by simp [act, inUserCode])

theorem Fifo.step {s s' : State ω} (ht : Token s) (h : Fifo s) (l : Label ω)
    (hs : step s l = some s') : Fifo s' := by
  unfold Strand.step at hs
  split at hs
  · split at hs
    · rename_i before stack after hpick
      obtain ⟨⟨t, stack'⟩, hact, rfl⟩ := Option.map_eq_some_iff.mp hs
      obtain ⟨hshutdown, new, gone, henqueued, hstarted, hmoved, hnew⟩ :=
        moves_act ht (pick_eq_some hpick) hact
      refine ⟨?_, ?_⟩
      · intro hopen
        show t.enqueued = t.started ++ _
        rw [henqueued, hstarted, h.before (hshutdown.symm.trans hopen), List.append_assoc, hmoved,
          List.append_assoc]
      · intro hclosed
        obtain ⟨hfirst, hready, hwaiting, htransit⟩ := h.after (hshutdown.symm.trans hclosed)
        rw [hready, hwaiting, htransit, hnew (hshutdown.symm.trans hclosed)] at hmoved
        obtain ⟨hgone, hrest⟩ := List.append_eq_nil_iff.mp hmoved.symm
        obtain ⟨htransit', hrest⟩ := List.append_eq_nil_iff.mp hrest
        obtain ⟨hready', hwaiting'⟩ := List.append_eq_nil_iff.mp hrest
        refine ⟨?_, hready', hwaiting', htransit'⟩
        show t.started <+: t.enqueued
        rw [henqueued, hstarted, hgone, List.append_nil]
        exact hfirst.trans (List.prefix_append _ _)
    · exact absurd hs (by simp)
  · split_ifs at hs with hquiet
    obtain rfl := Option.some.inj hs
    obtain ⟨hall, hopen⟩ := (Bool.and_eq_true ..).mp hquiet
    refine ⟨fun hno => absurd hno (by simp [shutdownService]), fun _ => ⟨?_, rfl, rfl, ?_⟩⟩
    · show s.started <+: s.enqueued
      rw [h.before (by simpa using hopen)]
      exact List.prefix_append _ _
    · apply transit_of_active
      rw [active, List.filter_eq_nil_iff]
      intro stack hstack hno
      rw [List.all_eq_true.mp hall stack hstack] at hno
      exact absurd hno (by simp)

theorem fifo_of_run {threads : ℕ} {ls : List (Label ω)} {s : State ω}
    (h : Run step Any (initial threads) ls s) : Token s ∧ Fifo s := by
  refine h.invariant (I := fun s => Token s ∧ Fifo s) ⟨token_initial threads, ?_⟩ ?_
  · refine ⟨fun _ => ?_, fun hno => absurd hno (by simp [initial])⟩
    have hnone : transit (initial threads : State ω).threads = [] := by
      apply transit_of_active
      show (List.replicate threads []).filter _ = []
      simp
    rw [hnone]
    rfl
  · intro s l s' hI _ hs
    exact ⟨hI.1.step l hs, hI.2.step hI.1 l hs⟩

/-- **In order.** The functions that have been started from the ready queue are the first ones that
were posted, in the order in which they were, and until the end the others are still in the strand,
in this order: on their way to the ready queue, in it, or waiting. -/
theorem in_order {threads : ℕ} {ls : List (Label ω)} {s : State ω}
    (h : Run step Any (initial threads) ls s) : s.started <+: s.enqueued ∧
      (s.shutdown = false → s.enqueued =
        s.started ++ (transit s.threads ++ (s.readyQueue ++ s.waitingQueue))) := by
  obtain ⟨-, hfifo⟩ := fifo_of_run h
  refine ⟨?_, hfifo.before⟩
  cases hs : s.shutdown with
  | true => exact (hfifo.after hs).1
  | false =>
    rw [hfifo.before hs]
    exact List.prefix_append _ _

/-- Of three functions that were posted two have been started. -/
theorem in_order_someRun :
    let s := reached step Any (initial 2) someRun
    s.started <+: s.enqueued ∧ (s.shutdown = false → s.enqueued =
      s.started ++ (transit s.threads ++ (s.readyQueue ++ s.waitingQueue))) :=
  in_order (run_reached (by decide))

/-! ## Progress -/

/-- The steps that are not calls from outside. -/
def Label.internal : Label ω → Bool
  | .post .. | .dispatch .. | .shutdown => false
  | _ => true

/-- How many steps a call has ahead of it, at most. Handlers that are still to be started count
where they are queued; one that throws takes its `run_ready_handlers` with it. -/
def Frame.weight (ready : List ω) : Frame ω → ℕ
  | .acquired .. => 20
  | .pushed _ => 7
  | .running => if ready.isEmpty then 9 else 4
  | .handler _ => 6
  | .exiting => 8
  | .more => 7

def stackWeight (ready : List ω) : List (Frame ω) → ℕ
  | [] => 0
  | frame :: stack => frame.weight ready + stackWeight ready stack

def remaining (s : State ω) : ℕ :=
  12 * (s.readyQueue.length + s.waitingQueue.length) +
    (s.scheduled * if s.readyQueue.isEmpty then 10 else 6) +
    stackWeight s.readyQueue s.threads.flatten

theorem flatten_of_active {threads : List (List (Frame ω))} (h : active threads = []) :
    threads.flatten = [] := by
  rw [List.flatten_eq_nil_iff]
  intro stack hstack
  exact nil_of_active h hstack

theorem flatten_around {before after : List (List (Frame ω))} (hbefore : active before = [])
    (hafter : active after = []) (stack : List (Frame ω)) :
    (before ++ stack :: after).flatten = stack := by
  rw [List.flatten_append, List.flatten_cons, flatten_of_active hbefore, flatten_of_active hafter,
    List.nil_append, List.append_nil]

theorem stackWeight_handlers (ready ops : List ω) :
    stackWeight ready (ops.map Frame.handler ++ [Frame.running]) =
      6 * ops.length + Frame.weight ready (.running : Frame ω) := by
  induction ops with
  | nil => exact (Nat.add_comm ..)
  | cons op ops ih =>
    rw [List.map_cons, List.cons_append, stackWeight, ih, List.length_cons]
    show 6 + _ = _
    omega

/-- What a step that is not a call leaves as it was, and that less remains after it. -/
structure Progress (s : State ω) (t : State ω) : Prop where
  enqueued : t.enqueued = s.enqueued
  shutdown : t.shutdown = s.shutdown
  less : remaining t < remaining s

theorem progress_outside {s : State ω} (h : Token s) {before after : List (List (Frame ω))}
    (hthreads : s.threads = before ++ [] :: after) {l : Label ω} (hl : l.internal = true)
    {t : State ω} {stack' : List (Frame ω)} (hact : act s l [] = some (t, stack')) :
    Progress s { t with threads := before ++ stack' :: after } := by
  cases l with
  | take _ =>
    simp only [act] at hact
    split_ifs at hact with hready
    obtain ⟨rfl, rfl⟩ := Prod.mk.inj (Option.some.inj hact)
    refine ⟨rfl, rfl, ?_⟩
    cases h with
    | free _ _ hs => omega
    | held _ _ _ hs => omega
    | scheduled hnone _ hs _ =>
      have hactive := active_around before after ([] : List (Frame ω))
      rw [← hthreads, hnone] at hactive
      obtain ⟨hbefore, hafter⟩ := List.append_eq_nil_iff.mp hactive.symm
      unfold remaining
      rw [flatten_around hbefore hafter, flatten_of_active hnone, hs]
      simp only [stackWeight, Frame.weight]
      split_ifs <;> omega
  | post _ _ => exact absurd hl (by simp [Label.internal])
  | dispatch _ _ => exact absurd hl (by simp [Label.internal])
  | _ => exact absurd hact (by simp [act])

theorem progress_inside {s : State ω} (hscheduled : s.scheduled = 0)
    {before after : List (List (Frame ω))} (hbefore : active before = []) (hafter : active after = [])
    {stack : List (Frame ω)} (hthreads : s.threads = before ++ stack :: after)
    (h : Holder s.readyQueue stack) {l : Label ω} (hl : l.internal = true) {t : State ω}
    {stack' : List (Frame ω)} (hact : act s l stack = some (t, stack')) :
    Progress s { t with threads := before ++ stack' :: after } := by
  have hflat := flatten_around hbefore hafter
  have hbeforehand : remaining s =
      12 * (s.readyQueue.length + s.waitingQueue.length) + stackWeight s.readyQueue stack := by
    unfold remaining
    rw [hthreads, hflat, hscheduled]
    omega
  have hthen : ∀ (t : State ω) (stack' : List (Frame ω)),
      remaining { t with threads := before ++ stack' :: after } =
        12 * (t.readyQueue.length + t.waitingQueue.length) +
          (t.scheduled * if t.readyQueue.isEmpty then 10 else 6) +
          stackWeight t.readyQueue stack' := by
    intro t stack'
    unfold remaining
    rw [hflat]
  cases h with
  | acquired op mayRun hready =>
    cases l with
    | push _ =>
      obtain ⟨rfl, rfl⟩ := Prod.mk.inj (Option.some.inj hact)
      refine ⟨rfl, rfl, ?_⟩
      rw [hthen, hbeforehand]
      simp only [stackWeight, Frame.weight, hscheduled, List.length_append, List.length_singleton]
      omega
    | post _ _ => exact absurd hl (by simp [Label.internal])
    | dispatch _ _ => exact absurd hl (by simp [Label.internal])
    | _ => exact absurd hact (by simp [act, inUserCode])
  | pushed mayRun hready =>
    have hsome : s.readyQueue.isEmpty = false := by simpa using hready
    cases l with
    | schedule _ =>
      obtain ⟨rfl, rfl⟩ := Prod.mk.inj (Option.some.inj hact)
      refine ⟨rfl, rfl, ?_⟩
      rw [hthen, hbeforehand]
      simp only [stackWeight, Frame.weight, hscheduled, hsome, Bool.false_eq_true, if_false]
      omega
    | runHere _ =>
      cases mayRun with
      | false => exact absurd hact (by simp [act])
      | true =>
        obtain ⟨rfl, rfl⟩ := Prod.mk.inj (Option.some.inj hact)
        refine ⟨rfl, rfl, ?_⟩
        rw [hthen, hbeforehand]
        simp only [stackWeight, Frame.weight, hscheduled, hsome, Bool.false_eq_true, if_false]
        omega
    | post _ _ => exact absurd hl (by simp [Label.internal])
    | dispatch _ _ => exact absurd hl (by simp [Label.internal])
    | _ => exact absurd hact (by simp [act, inUserCode])
  | running ops =>
    cases ops with
    | nil =>
      cases l with
      | start _ =>
        simp only [act, List.map_nil, List.nil_append] at hact
        split at hact
        · rename_i op ops hready
          obtain ⟨rfl, rfl⟩ := Prod.mk.inj (Option.some.inj hact)
          refine ⟨rfl, rfl, ?_⟩
          rw [hthen, hbeforehand]
          simp only [stackWeight, Frame.weight, hscheduled, hready, List.length_cons,
            List.map_nil, List.nil_append, List.isEmpty_cons, Bool.false_eq_true, if_false]
          split_ifs <;> omega
        · exact absurd hact (by simp)
      | done _ =>
        simp only [act, List.map_nil, List.nil_append] at hact
        split_ifs at hact with hempty
        obtain ⟨rfl, rfl⟩ := Prod.mk.inj (Option.some.inj hact)
        refine ⟨rfl, rfl, ?_⟩
        rw [hthen, hbeforehand]
        simp only [stackWeight, Frame.weight, hscheduled, hempty, List.map_nil, List.nil_append,
          if_true]
        omega
      | post _ _ => exact absurd hl (by simp [Label.internal])
      | dispatch _ _ => exact absurd hl (by simp [Label.internal])
      | _ => exact absurd hact (by simp [act, inUserCode])
    | cons op ops =>
      cases l with
      | take _ =>
        simp only [act, hscheduled] at hact
        exact absurd hact (by simp)
      | finish _ =>
        obtain ⟨rfl, rfl⟩ := Prod.mk.inj (Option.some.inj hact)
        refine ⟨rfl, rfl, ?_⟩
        rw [hthen, hbeforehand, stackWeight_handlers _ (op :: ops), hscheduled]
        show _ + stackWeight s.readyQueue (ops.map Frame.handler ++ [Frame.running]) < _
        rw [stackWeight_handlers _ ops, List.length_cons]
        omega
      | throw _ =>
        cases ops with
        | nil =>
          obtain ⟨rfl, rfl⟩ := Prod.mk.inj (Option.some.inj hact)
          refine ⟨rfl, rfl, ?_⟩
          rw [hthen, hbeforehand, stackWeight_handlers, hscheduled]
          simp only [stackWeight, Frame.weight, List.length_singleton]
          split_ifs <;> omega
        | cons op' ops =>
          obtain ⟨rfl, rfl⟩ := Prod.mk.inj (Option.some.inj hact)
          refine ⟨rfl, rfl, ?_⟩
          rw [hthen, hbeforehand, stackWeight_handlers _ (op :: op' :: ops), hscheduled]
          show _ + stackWeight s.readyQueue ((op' :: ops).map Frame.handler ++ [Frame.running]) < _
          rw [stackWeight_handlers _ (op' :: ops)]
          simp only [List.length_cons]
          omega
      | post _ _ => exact absurd hl (by simp [Label.internal])
      | dispatch _ _ => exact absurd hl (by simp [Label.internal])
      | _ => exact absurd hact (by simp [act])
  | exiting =>
    cases l with
    | exit _ =>
      obtain ⟨rfl, rfl⟩ := Prod.mk.inj (Option.some.inj hact)
      refine ⟨rfl, rfl, ?_⟩
      rw [hthen, hbeforehand]
      have hlength : (s.readyQueue ++ s.waitingQueue).length =
        s.readyQueue.length + s.waitingQueue.length := List.length_append
      rw [hscheduled]
      cases hqueue : s.readyQueue ++ s.waitingQueue with
      | nil =>
        rw [hqueue] at hlength
        simp only [stackWeight, Frame.weight, List.isEmpty_nil, Bool.not_true, Bool.false_eq_true,
          if_false, List.length_nil] at hlength ⊢
        omega
      | cons op ops =>
        rw [hqueue] at hlength
        simp only [stackWeight, Frame.weight, List.isEmpty_cons, Bool.not_false, if_true,
          List.length_cons, List.length_nil] at hlength ⊢
        omega
    | post _ _ => exact absurd hl (by simp [Label.internal])
    | dispatch _ _ => exact absurd hl (by simp [Label.internal])
    | _ => exact absurd hact (by simp [act, inUserCode])
  | more hready =>
    have hsome : s.readyQueue.isEmpty = false := by simpa using hready
    cases l with
    | reschedule _ =>
      obtain ⟨rfl, rfl⟩ := Prod.mk.inj (Option.some.inj hact)
      refine ⟨rfl, rfl, ?_⟩
      rw [hthen, hbeforehand]
      simp only [stackWeight, Frame.weight, hscheduled, hsome, Bool.false_eq_true, if_false]
      omega
    | post _ _ => exact absurd hl (by simp [Label.internal])
    | dispatch _ _ => exact absurd hl (by simp [Label.internal])
    | _ => exact absurd hact (by simp [act, inUserCode])

theorem progress_step {s s' : State ω} (h : Token s) {l : Label ω} (hl : l.internal = true)
    (hs : step s l = some s') : Progress s s' := by
  unfold Strand.step at hs
  split at hs
  · split at hs
    · rename_i before stack after hpick
      obtain ⟨⟨t, stack'⟩, hact, rfl⟩ := Option.map_eq_some_iff.mp hs
      have hthreads := pick_eq_some hpick
      by_cases hstack : stack = []
      · rw [hstack] at hact hthreads
        exact progress_outside h hthreads hl hact
      · obtain ⟨hholder, -, hscheduled, hbefore, hafter⟩ := h.holder hthreads hstack
        exact progress_inside hscheduled hbefore hafter hthreads hholder hl hact
    · exact absurd hs (by simp)
  · rename_i hthread
    cases l with
    | shutdown => exact absurd hl (by simp [Label.internal])
    | _ => exact absurd hthread (Option.some_ne_none _)

theorem length_step {s s' : State ω} {l : Label ω} (hs : step s l = some s') :
    s'.threads.length = s.threads.length := by
  unfold Strand.step at hs
  split at hs
  · split at hs
    · rename_i before stack after hpick
      obtain ⟨⟨t, stack'⟩, -, rfl⟩ := Option.map_eq_some_iff.mp hs
      rw [pick_eq_some hpick]
      show (before ++ stack' :: after).length = _
      rw [List.length_append, List.length_append, List.length_cons, List.length_cons]
    · exact absurd hs (by simp)
  · split_ifs at hs
    obtain rfl := Option.some.inj hs
    rfl

/-- A thread whose calls let it take a step with some label can take it. -/
theorem exists_step {s : State ω} {before after : List (List (Frame ω))} {stack : List (Frame ω)}
    (hthreads : s.threads = before ++ stack :: after) (l : ℕ → Label ω)
    (hl : ∀ i, (l i).thread = some i ∧ (l i).internal = true)
    (hact : ∀ i, (act s (l i) stack).isSome = true) :
    ∃ l s', l.internal = true ∧ step s l = some s' := by
  obtain ⟨i, hi⟩ : ∃ i, pick s.threads i = some (before, stack, after) := by
    rw [hthreads]
    exact ⟨_, pick_length before stack after⟩
  obtain ⟨⟨t, stack'⟩, ht⟩ := Option.isSome_iff_exists.mp (hact i)
  refine ⟨l i, { t with threads := before ++ stack' :: after }, (hl i).2, ?_⟩
  unfold Strand.step
  rw [(hl i).1]
  dsimp only
  rw [hi]
  dsimp only
  rw [ht]
  rfl

/-- Only a strand that has come to an end allows no step but calls: it is free and empty. -/
theorem exists_step_or_free {s : State ω} (h : Token s) (hthreads : 0 < s.threads.length)
    (hno : ∀ l s', l.internal = true → step s l ≠ some s') :
    s.locked = false ∧ s.readyQueue = [] ∧ s.waitingQueue = [] ∧ transit s.threads = [] := by
  have hstuck : ∀ {before after : List (List (Frame ω))} {stack : List (Frame ω)},
      s.threads = before ++ stack :: after → ∀ l : ℕ → Label ω,
      (∀ i, (l i).thread = some i ∧ (l i).internal = true) →
      (∀ i, (act s (l i) stack).isSome = true) → False := by
    intro before after stack heq l hl hact
    obtain ⟨l', s', hl', hs'⟩ := exists_step heq l hl hact
    exact hno l' s' hl' hs'
  cases h with
  | free hnone hl _ hr hw => exact ⟨hl, hr, hw, transit_of_active hnone⟩
  | scheduled hnone _ hs _ =>
    cases hlist : s.threads with
    | nil => exact absurd hthreads (by simp [hlist])
    | cons stack rest =>
      have hempty : stack = [] := nil_of_active hnone (hlist ▸ List.mem_cons_self)
      rw [hempty] at hlist
      refine (hstuck (show s.threads = [] ++ [] :: rest from hlist) .take
        (fun i => ⟨rfl, rfl⟩) ?_).elim
      intro i
      simp [act, inUserCode, hs]
  | held stack hone _ _ hholder =>
    have hmem : stack ∈ s.threads := by
      have hin : stack ∈ active s.threads := by simp [hone]
      exact (List.mem_filter.mp hin).1
    obtain ⟨before, after, heq⟩ := List.append_of_mem hmem
    cases hholder with
    | acquired op mayRun _ =>
      exact (hstuck heq .push (fun i => ⟨rfl, rfl⟩) fun i => rfl).elim
    | pushed mayRun _ =>
      exact (hstuck heq .schedule (fun i => ⟨rfl, rfl⟩) fun i => rfl).elim
    | running ops =>
      cases ops with
      | nil =>
        cases hready : s.readyQueue with
        | nil =>
          refine (hstuck heq .done (fun i => ⟨rfl, rfl⟩) ?_).elim
          intro i
          simp [act, hready]
        | cons op ops =>
          refine (hstuck heq .start (fun i => ⟨rfl, rfl⟩) ?_).elim
          intro i
          simp [act, hready]
      | cons op ops =>
        exact (hstuck heq .finish (fun i => ⟨rfl, rfl⟩) fun i => rfl).elim
    | exiting => exact (hstuck heq .exit (fun i => ⟨rfl, rfl⟩) fun i => rfl).elim
    | more _ => exact (hstuck heq .reschedule (fun i => ⟨rfl, rfl⟩) fun i => rfl).elim

/-- **No function is lost.** Without further calls, from wherever they are, the threads take a
bounded number of steps, whichever way their handlers end; and where no step is left, all functions
that were posted have been started, and the strand is free. -/
theorem settles {threads : ℕ} {ls : List (Label ω)} {s : State ω} (hthreads : 0 < threads)
    (h : Run step Any (initial threads) ls s) (hopen : s.shutdown = false) :
    ∀ ls' t, Run step (fun _ l => l.internal = true) s ls' t →
      ls'.length ≤ remaining s ∧
      ((∀ l t', l.internal = true → step t l ≠ some t') →
        t.started = s.enqueued ∧ t.locked = false) := by
  obtain ⟨htoken, hfifo⟩ := fifo_of_run h
  have hlength : s.threads.length = threads :=
    h.invariant (I := fun s => s.threads.length = threads) (by simp [initial])
      fun _ _ _ hI _ hs => (length_step hs).trans hI
  intro ls' t hrun
  refine ⟨?_, ?_⟩
  · have hle := hrun.length_le (I := Token) (μ := remaining) htoken (fun _ l _ hI _ hs => hI.step l hs)
      fun _ _ _ hI hl hs => (progress_step hI hl hs).less
    omega
  · intro hno
    obtain ⟨ht, hf, henqueued, hshutdown, hlength'⟩ := hrun.invariant
      (I := fun t => Token t ∧ Fifo t ∧ t.enqueued = s.enqueued ∧ t.shutdown = s.shutdown ∧
        t.threads.length = s.threads.length)
      ⟨htoken, hfifo, rfl, rfl, rfl⟩
      (by
        rintro u l u' ⟨hI, hF, he, hd, hn⟩ hl hs
        have hp := progress_step hI hl hs
        exact ⟨hI.step l hs, hF.step hI l hs, hp.enqueued.trans he, hp.shutdown.trans hd,
          (length_step hs).trans hn⟩)
    obtain ⟨hlocked, hready, hwaiting, htransit⟩ := exists_step_or_free ht (by omega) hno
    have heq := hf.before (hshutdown.trans hopen)
    rw [hready, hwaiting, htransit] at heq
    refine ⟨?_, hlocked⟩
    rw [← henqueued, heq]
    simp

/-- Whatever the two threads do next, the third function is started. -/
theorem settles_someRun :
    let s := reached step Any (initial 2) someRun
    ∀ ls' t, Run step (fun _ l => l.internal = true) s ls' t →
      ls'.length ≤ remaining s ∧
      ((∀ l t', l.internal = true → step t l ≠ some t') →
        t.started = s.enqueued ∧ t.locked = false) :=
  settles (by decide) (run_reached (by decide)) (by decide)

end AsioLearn.Detail.Strand
