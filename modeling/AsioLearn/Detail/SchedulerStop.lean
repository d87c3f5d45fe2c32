import AsioLearn.Detail.SchedulerTask

/-!
# Stopping the scheduler

* `nothing_taken_after_stop`: after `stop`, and until `restart`, no operation is taken from the queue.
* `all_leave_after_stop`: after `stop`, every thread that runs the scheduler comes out of it, in a
  bounded number of steps, unless it is in a handler.
-/

namespace AsioLearn.Detail.Scheduler

open Lts

variable {ι : Type*}

theorem wakeOne_stopped (s : State ι) : (wakeOneThreadAndUnlock s).1.stopped = s.stopped ∧
    (wakeOneThreadAndUnlock s).1.taken = s.taken := by
  rw [wakeOneThreadAndUnlock_eq]
  split_ifs <;> exact ⟨rfl, rfl⟩

theorem doRunOne_stopped {s : State ι} {th : Thread} (h : s.stopped = true) :
    doRunOne s th = (s, { th with place := .outside }) := by
  unfold doRunOne
  rw [if_pos h]

/-! ### Locking the mutex of a stopped scheduler -/

section

variable {s : State ι} {t : ι} {th : Thread}

theorem locked_stopped (hstop : s.stopped = true) {r : State ι × Thread}
    (h : Locked s th r) : r.1.stopped = true ∧ r.1.taken = s.taken := by
  cases h with
  | push ops hcall =>
    rw [(wakeOne_stopped _).1, (wakeOne_stopped _).2]
    exact ⟨hstop, rfl⟩
  | stop hcall =>
    unfold stopAllThreads
    rw [interruptTask_eq]
    exact ⟨rfl, rfl⟩
  | look hcall hplace =>
    rw [doRunOne_stopped (s := push th.privateQueue s) hstop]
    exact ⟨hstop, rfl⟩
  | leave hcall hplace => exact ⟨hstop, rfl⟩
  | taskDone hcall hplace =>
    rw [doRunOne_stopped (s := (taskCleanup s th).1) hstop]
    exact ⟨hstop, rfl⟩
  | woken hcall hplace hsignalled =>
    rw [doRunOne_stopped (s := { s with waiters := s.waiters - 1 }) hstop]
    exact ⟨hstop, rfl⟩
  | again hcall hplace hsignalled => exact ⟨hstop, rfl⟩

/-- How many steps a thread takes at most until it is back in user code. -/
def Place.weight : Place → ℕ
  | .outside | .handler => 0
  | .look | .woken | .taskDone | .leave => 1
  | .blocked | .task _ => 2
  | .cleanup _ => 3
  | .descriptor => 4

def Call.weight : Call → ℕ
  | .idle => 0
  | .signal | .stop => 1
  | .push _ => 2

def Thread.weight (th : Thread) : ℕ := th.place.weight + th.call.weight

theorem weight_workCleanup (throws : Bool) (hcall : th.call = .idle)
    (hplace : th.place = .cleanup throws) : (workCleanup throws s th).2.weight < th.weight := by
  unfold workCleanup Thread.weight
  rw [hplace]
  dsimp only
  split_ifs <;> simp [Place.weight, Call.weight, hcall]

theorem weight_postDeferred (ids : List ℕ) (hcall : th.call = .idle) :
    (postDeferred ids s th).2.weight ≤ th.place.weight + 2 := by
  unfold postDeferred Thread.weight
  split_ifs <;> simp [Call.weight, hcall]

theorem weight_locked (h : Orderly s) (hstop : s.stopped = true) {r : State ι × Thread}
    (hlock : Locked s (s.thread t) r) : r.2.weight < (s.thread t).weight := by
  unfold Thread.weight
  cases hlock with
  | push ops hcall =>
    rw [hcall, wakeOneThreadAndUnlock_eq]
    split_ifs <;> simp [Call.weight]
  | stop hcall =>
    rw [hcall]
    simp [Call.weight]
  | look hcall hplace =>
    rw [doRunOne_stopped (s := push (s.thread t).privateQueue s) hstop]
    simp [hcall, hplace, Place.weight]
  | leave hcall hplace => simp [hcall, hplace, Place.weight]
  | taskDone hcall hplace =>
    rw [doRunOne_stopped (s := (taskCleanup s (s.thread t)).1) hstop]
    simp [taskCleanup, pushPrivate, hcall, hplace, Place.weight]
  | woken hcall hplace hsignalled =>
    rw [doRunOne_stopped (s := { s with waiters := s.waiters - 1 }) hstop]
    simp [hcall, hplace, Place.weight]
  | again hcall hplace hsignalled =>
    exact absurd ((h.stopped hstop).1.symm.trans hsignalled) (by simp)

/-- No thread is woken up by a thread that runs a stopped scheduler. -/
theorem thread_locked (hstop : s.stopped = true) (hwake : ∀ u, (s.thread u).wake = s.thread u)
    {r : State ι × Thread} (hlock : Locked s th r) : r.1.thread = s.thread := by
  cases hlock with
  | push ops hcall => exact thread_wakeOne _
  | stop hcall =>
    unfold stopAllThreads
    rw [interruptTask_eq]
    exact funext hwake
  | look hcall hplace =>
    rw [doRunOne_stopped (s := push th.privateQueue s) hstop]
    rfl
  | leave hcall hplace => rfl
  | taskDone hcall hplace =>
    rw [doRunOne_stopped (s := (taskCleanup s th).1) hstop]
    rfl
  | woken hcall hplace hsignalled =>
    rw [doRunOne_stopped (s := { s with waiters := s.waiters - 1 }) hstop]
  | again hcall hplace hsignalled => rfl

end

variable [DecidableEq ι] [Fintype ι] {s : State ι} {t : ι} {th : Thread}

/-! ## After `stop` -/

def Label.isRestart : Label ι → Bool
  | .restart _ => true
  | _ => false

theorem step_stopped {l : Label ι} {s' : State ι} (hstop : s.stopped = true)
    (hl : l.isRestart = false) (hs : step s l = some s') :
    s'.stopped = true ∧ s'.taken = s.taken := by
  obtain ⟨r, hr, rfl⟩ := Option.map_eq_some_iff.mp hs
  show r.1.stopped = true ∧ r.1.taken = s.taken
  by_cases hown : l.isOwn = true
  · have hcore := (minds_of_act hown hr).core
    simp only [State.core, Core.mk.injEq] at hcore
    obtain ⟨-, -, -, -, hstopped, -, -, -, htaken⟩ := hcore
    exact ⟨hstopped.trans hstop, htaken⟩
  · cases l with
    | initTask u =>
      simp only [act] at hr
      split_ifs at hr
      · obtain rfl := Option.some.inj hr
        exact ⟨hstop, rfl⟩
      · obtain rfl := Option.some.inj hr
        have hwake := wakeOne_stopped (pushTask { s with hasTask := true })
        exact ⟨hwake.1.trans hstop, hwake.2⟩
    | restart u => exact absurd hl (by simp [Label.isRestart])
    | lock u => exact locked_stopped hstop (locked_cases hr)
    | signal u target =>
      rcases (act_signal hr).2 with ⟨v, -, rfl⟩ | ⟨-, rfl⟩ <;> exact ⟨hstop, rfl⟩
    | spurious u =>
      simp only [act] at hr
      split_ifs at hr
      obtain rfl := Option.some.inj hr
      exact ⟨hstop, rfl⟩
    | taskReturns u ops reported =>
      simp only [act] at hr
      split at hr
      · split_ifs at hr
        obtain rfl := Option.some.inj hr
        exact ⟨hstop, rfl⟩
      · exact absurd hr (by simp)
    | _ => exact absurd rfl hown

/-- **Stopped.** From the time the scheduler has been stopped until it is restarted, whatever else
is called, no operation is taken from the queue, and no thread sleeps. -/
theorem nothing_taken_after_stop {oneThread : Bool} {ls ls' : List (Label ι)} {s' : State ι}
    (h : Run step Any (initial oneThread) ls s) (hstop : s.stopped = true)
    (hthen : Run step (fun _ l => l.isRestart = false) s ls' s') :
    s'.stopped = true ∧ s'.taken = s.taken ∧ ∀ u, ¬ Asleep s' u := by
  obtain ⟨horderly, hstopped, htaken⟩ := hthen.invariant
    (I := fun t => Orderly t ∧ t.stopped = true ∧ t.taken = s.taken)
    ⟨orderly_of_run h, hstop, rfl⟩
    (by
      rintro t l t' ⟨ht, hstopped, htaken⟩ hl hs
      obtain ⟨hstopped', htaken'⟩ := step_stopped hstopped hl hs
      exact ⟨ht.step hs, hstopped', htaken'.trans htaken⟩)
  exact ⟨hstopped, htaken, (horderly.stopped hstopped).2⟩

/-- A thread waits in the task, until another one stops the scheduler. -/
def someRun : List (Label (Fin 2)) :=
  [.initTask 0, .workStarted 0, .run 1 false, .lock 1, .stop 0, .lock 0]

theorem nothing_taken_after_stop_someRun :
    let s := reached step Any (initial false) someRun
    let s' := reached step (fun _ l => l.isRestart = false) s [.post 0 1 false, .lock 0]
    s'.stopped = true ∧ s'.taken = s.taken ∧ ∀ u, ¬ Asleep s' u :=
  nothing_taken_after_stop (run_reached (by decide +kernel)) (by decide +kernel)
    (run_reached (by decide +kernel))

/-! ## Leaving -/

/-- Steps that the scheduler takes by itself; the task returns when it does not sleep. -/
def Internal (s : State ι) : Label ι → Prop
  | .lock _ | .signal .. | .spurious _ | .performIo .. | .cleanup _ => True
  | .taskReturns t .. => ¬ Asleep s t
  | _ => False

/-- A step brings the thread that takes it nearer to user code and leaves the other ones alone. -/
theorem step_nearer {l : Label ι} {s' : State ι} (h : Orderly s) (hstop : s.stopped = true)
    (hl : Internal s l) (hs : step s l = some s') :
    (∀ u, u ≠ l.thread → s'.thread u = s.thread u) ∧
      (s'.thread l.thread).weight < (s.thread l.thread).weight := by
  have hawake := (h.stopped hstop).2
  have hwake : ∀ u, (s.thread u).wake = s.thread u := by
    intro u
    unfold Thread.wake
    rw [if_neg fun hblocked => hawake u (Or.inl hblocked)]
  obtain ⟨r, hr, rfl⟩ := Option.map_eq_some_iff.mp hs
  suffices hless : r.1.thread = s.thread ∧ r.2.weight < (s.thread l.thread).weight by
    constructor
    · intro u hu
      rw [thread_setThread, if_neg hu, hless.1]
    · rw [thread_setThread, if_pos rfl]
      exact hless.2
  cases l with
  | lock u =>
    have hlock := locked_cases hr
    exact ⟨thread_locked hstop hwake hlock, weight_locked h hstop hlock⟩
  | signal u target =>
    obtain ⟨hcall, htarget⟩ := act_signal hr
    have hself : (s.thread u).call = .signal := hcall
    rcases htarget with ⟨v, hblocked, rfl⟩ | ⟨-, rfl⟩
    · exact absurd (Or.inl hblocked) (hawake v)
    · refine ⟨rfl, ?_⟩
      show (s.thread u).place.weight + 0 < (s.thread u).place.weight + (s.thread u).call.weight
      rw [hself]
      simp [Call.weight]
  | spurious u =>
    simp only [act] at hr
    split_ifs at hr with hblocked
    exact absurd (Or.inl hblocked) (hawake u)
  | taskReturns u ops reported =>
    simp only [act] at hr
    split at hr
    · rename_i b hcall hplace
      split_ifs at hr
      obtain rfl := Option.some.inj hr
      refine ⟨rfl, ?_⟩
      have hbefore : (s.thread u).place = .task b := hplace
      show 1 + (s.thread u).call.weight < (s.thread u).place.weight + (s.thread u).call.weight
      rw [hbefore]
      simp [Place.weight]
    · exact absurd hr (by simp)
  | performIo u ids =>
    refine ⟨(minds_of_act rfl hr).thread, ?_⟩
    simp only [act] at hr
    split_ifs at hr with hgo
    have hbefore : (s.thread u).weight = 4 := by
      unfold Thread.weight
      rw [show (s.thread u).place = .descriptor from hgo.2.1,
        show (s.thread u).call = .idle from hgo.1]
      rfl
    show _ < (s.thread u).weight
    rw [hbefore]
    cases ids with
    | nil =>
      obtain rfl := Option.some.inj hr
      show 3 + (s.thread u).call.weight < 4
      rw [show (s.thread u).call = .idle from hgo.1]
      decide
    | cons id ids =>
      obtain rfl := Option.some.inj hr
      exact Nat.lt_of_le_of_lt (weight_postDeferred ids hgo.1) (show 0 + 2 < 4 by decide)
  | cleanup u =>
    refine ⟨(minds_of_act rfl hr).thread, ?_⟩
    simp only [act] at hr
    split at hr
    · rename_i throws hcall hplace
      obtain rfl := Option.some.inj hr
      exact weight_workCleanup throws hcall hplace
    · exact absurd hr (by simp)
  | _ => exact hl.elim

theorem step_weight {l : Label ι} {s' : State ι} (h : Orderly s) (hstop : s.stopped = true)
    (hl : Internal s l) (hs : step s l = some s') (u : ι) :
    (s'.thread u).weight + (if l.thread = u then 1 else 0) ≤ (s.thread u).weight := by
  obtain ⟨hothers, hown⟩ := step_nearer h hstop hl hs
  by_cases hu : l.thread = u
  · rw [if_pos hu, ← hu]
    exact hown
  · rw [if_neg hu, hothers u (Ne.symm hu), Nat.add_zero]

theorem weight_le (th : Thread) : th.weight ≤ 6 := by
  unfold Thread.weight
  have hplace : th.place.weight ≤ 4 := by
    cases th.place <;> simp [Place.weight]
  have hcall : th.call.weight ≤ 2 := by
    cases th.call <;> simp [Call.weight]
  omega

instance (s : State ι) : ∀ l, Decidable (Internal s l)
  | .lock _ | .signal .. | .spurious _ | .performIo .. | .cleanup _ => isTrue trivial
  | .taskReturns t .. => inferInstanceAs (Decidable (¬ Asleep s t))
  | .initTask _ | .run .. | .post .. | .dispatch _ | .start _ | .cancel .. | .workStarted _
  | .workFinished _ | .stop _ | .restart _ | .finish _ | .throw _ => isFalse id

/-- A thread that is in the code of a stopped scheduler can go on. -/
theorem exists_internal (h : Orderly s) (hstop : s.stopped = true)
    (huser : (s.thread t).inUserCode ≠ true) : ∃ l s', Internal s l ∧ step s l = some s' := by
  have hact : ∀ l, l.thread = t → Internal s l → (act s (s.thread t) l).isSome = true →
      ∃ l s', Internal s l ∧ step s l = some s' := by
    rintro l rfl hl hsome
    obtain ⟨r, hr⟩ := Option.isSome_iff_exists.mp hsome
    refine ⟨l, setThread l.thread r.2 r.1, hl, ?_⟩
    unfold step
    rw [hr]
    rfl
  have hawake := (h.stopped hstop).2
  have hnone : ∀ u, (s.thread u).place ≠ .blocked := fun u hblocked => hawake u (Or.inl hblocked)
  cases hcall : (s.thread t).call with
  | push ops => exact hact (.lock t) rfl trivial (by simp [act, locked, hcall])
  | stop => exact hact (.lock t) rfl trivial (by simp [act, locked, hcall])
  | signal => exact hact (.signal t none) rfl trivial (by simp [act, hcall, hnone])
  | idle =>
    cases hplace : (s.thread t).place with
    | outside => exact absurd (by simp [Thread.inUserCode, hcall, hplace]) huser
    | handler => exact absurd (by simp [Thread.inUserCode, hcall, hplace]) huser
    | blocked => exact absurd hplace (hnone t)
    | look => exact hact (.lock t) rfl trivial (by simp [act, locked, hcall, hplace])
    | taskDone => exact hact (.lock t) rfl trivial (by simp [act, locked, hcall, hplace])
    | leave => exact hact (.lock t) rfl trivial (by simp [act, locked, hcall, hplace])
    | woken =>
      refine hact (.lock t) rfl trivial ?_
      simp only [act, locked, hcall, hplace]
      split_ifs <;> rfl
    | task block =>
      refine hact (.taskReturns t [] false) rfl (hawake t) ?_
      simp [act, hcall, hplace, handlers]
    | descriptor =>
      exact hact (.performIo t []) rfl trivial (by simp [act, hcall, hplace])
    | cleanup throws => exact hact (.cleanup t) rfl trivial (by simp [act, hcall, hplace])

/-- **Everybody leaves.** After `stop`, a thread that runs the scheduler takes at most six steps of
its own until it is outside or in a handler, and all of them together at most six times as many as
there are threads; as long as some thread is not there, there is a step. -/
theorem all_leave_after_stop {oneThread : Bool} {ls ls' : List (Label ι)} {s' : State ι}
    (h : Run step Any (initial oneThread) ls s) (hstop : s.stopped = true)
    (hthen : Run step Internal s ls' s') :
    (∀ u, ls'.countP (fun l => l.thread = u) ≤ 6) ∧ ls'.length ≤ 6 * Fintype.card ι ∧
      ((∃ l t, Internal s' l ∧ step s' l = some t) ∨ ∀ u, (s'.thread u).inUserCode = true) := by
  have hnext : ∀ (t : State ι) l t', Orderly t ∧ t.stopped = true → Internal t l →
      step t l = some t' → Orderly t' ∧ t'.stopped = true := by
    rintro t l t' ⟨ht, hstopped⟩ hl hs
    refine ⟨ht.step hs, (step_stopped hstopped ?_ hs).1⟩
    cases l with
    | restart u => exact hl.elim
    | _ => rfl
  have hstart : Orderly s ∧ s.stopped = true := ⟨orderly_of_run h, hstop⟩
  refine ⟨?_, ?_, ?_⟩
  · intro u
    have hcount := hthen.countP_le (I := fun t => Orderly t ∧ t.stopped = true)
      (μ := fun t => (t.thread u).weight) (p := fun l => l.thread = u) hstart hnext
      fun t l t' ht hl hs => by simpa using step_weight ht.1 ht.2 hl hs u
    have hmost := weight_le (s.thread u)
    omega
  · have hlength := hthen.length_le (I := fun t => Orderly t ∧ t.stopped = true)
      (μ := fun t => ∑ u, (t.thread u).weight) hstart hnext ?_
    swap
    · intro t l t' ht hl hs
      refine Finset.sum_lt_sum (fun u _ => ?_) ⟨l.thread, Finset.mem_univ _, ?_⟩
      · have hu := step_weight ht.1 ht.2 hl hs u
        omega
      · exact (step_nearer ht.1 ht.2 hl hs).2
    have hmost : ∑ u, (s.thread u).weight ≤ ∑ _u : ι, 6 :=
      Finset.sum_le_sum fun u _ => weight_le _
    rw [Finset.sum_const, Finset.card_univ, smul_eq_mul] at hmost
    omega
  · obtain ⟨horderly, hstopped⟩ := hthen.invariant
      (I := fun t => Orderly t ∧ t.stopped = true) hstart hnext
    by_cases hall : ∀ u, (s'.thread u).inUserCode = true
    · exact Or.inr hall
    · obtain ⟨u, hu⟩ := not_forall.mp hall
      exact Or.inl (exists_internal horderly hstopped hu)

theorem all_leave_after_stop_someRun :
    let s := reached step Any (initial false) someRun
    let ls : List (Label (Fin 2)) := [.taskReturns 1 [] true, .lock 1]
    let s' := reached step Internal s ls
    (∀ u, ls.countP (fun l => l.thread = u) ≤ 6) ∧ ls.length ≤ 6 * Fintype.card (Fin 2) ∧
      ((∃ l t, Internal s' l ∧ step s' l = some t) ∨ ∀ u, (s'.thread u).inUserCode = true) :=
  all_leave_after_stop (run_reached (by decide +kernel)) (by decide +kernel)
    (run_reached (by decide +kernel))

end AsioLearn.Detail.Scheduler
