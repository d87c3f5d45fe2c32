import AsioLearn.Detail.SchedulerTask

/-!
# No wake-up is lost

The scheduler wakes up one thread at a time, which wakes up the next one if there is more to do.

* `Alert`: a thread is about to look at the queue, or to signal one that will.
* `no_lost_wakeup`: as long as there are operations and some thread sleeps, some thread is alert.
-/

namespace AsioLearn.Detail.Scheduler

open Lts

/-! ## Alert threads -/

def Place.waits : Place → ℕ
  | .blocked | .woken => 1
  | _ => 0

/-- It is about to look at the queue. -/
def Place.isAlert : Place → Bool
  | .look | .woken | .taskDone => true
  | _ => false

variable {ι : Type*}

/-- The thread is about to look at the queue, or to wake up one that is. -/
def Alert (s : State ι) (u : ι) : Prop :=
  (s.thread u).place.isAlert = true ∨
    (s.thread u).call = .signal ∧ ∃ v, (s.thread v).place = .blocked

theorem Orderly.noticed {s : State ι} (h : Orderly s) {u : ι}
    (hplace : (s.thread u).place = .task true) :
    s.hasTask = true ∧ (s.taskInterrupted = true → s.interrupted = true) :=
  ⟨(h.task.hasTask (u := u) (by rw [hplace]; rfl)).1, fun htrue => h.interrupted htrue u hplace⟩

instance [Fintype ι] (s : State ι) (u : ι) : Decidable (Alert s u) :=
  inferInstanceAs (Decidable (_ ∨ _))

/-- No thread leaves with operations on its private queue, after `run_one` or an exception, and a
scheduler for one thread is run by no more than one. -/
def Keeps (s : State ι) : Label ι → Prop
  | .run _ _ => s.oneThread = true → ∀ u, (s.thread u).place = .outside
  | .lock t => (s.thread t).place ≠ .leave
  | _ => True

section

variable [DecidableEq ι] {s : State ι} {t : ι} {th : Thread}

/-- The other threads are outside, where there is to be only one. -/
def Alone (s : State ι) (t : ι) : Prop :=
  s.oneThread = true → ∀ u, u ≠ t → (s.thread u).place = .outside

theorem Alone.waits (h : Alone s t) (hone : s.oneThread = true) (hth : th.place.waits = 0) (u : ι) :
    ((setThread t th s).thread u).place.waits = 0 := by
  rw [thread_setThread]
  split_ifs with hu
  · exact hth
  · rw [h hone u hu]
    rfl

theorem Alone.not_asleep (h : Alone s t) (hone : s.oneThread = true) (hplace : th.place ≠ .blocked)
    (htrue : th.place ≠ .task true) (u : ι) : ¬ Asleep (setThread t th s) u := by
  unfold Asleep
  rw [thread_setThread]
  split_ifs with hu
  · rintro (hblocked | ⟨htask, -⟩)
    · exact hplace hblocked
    · exact htrue htask
  · rw [h hone u hu]
    simp

end

instance [Fintype ι] (s : State ι) : ∀ l, Decidable (Keeps s l)
  | .run .. => inferInstanceAs (Decidable (_ → _))
  | .lock _ => inferInstanceAs (Decidable (_ ≠ _))
  | .initTask _ | .post .. | .dispatch _ | .start _ | .cancel .. | .workStarted _
  | .workFinished _ | .stop _ | .restart _ | .signal .. | .spurious _ | .taskReturns ..
  | .performIo .. | .finish _ | .throw _ | .cleanup _ => isTrue trivial

variable [Fintype ι]

def WaitersCounted (s : State ι) : Prop := s.waiters = ∑ u, (s.thread u).place.waits

structure Awake (s : State ι) : Prop where
  waiters : WaitersCounted s
  signalled : s.opQueue ≠ [] → s.signalled = true ∨ ∀ u, (s.thread u).place.waits = 0
  alert : s.opQueue ≠ [] → (∃ u, Asleep s u) → ∃ u, Alert s u
  alone : s.oneThread = true → ∀ u v, (s.thread u).place ≠ .outside →
    (s.thread v).place ≠ .outside → u = v

theorem awake_initial (oneThread : Bool) : Awake (initial oneThread : State ι) where
  waiters := by simp [WaitersCounted, initial, Place.waits]
  signalled := by simp [initial]
  alert := by simp [initial]
  alone := by simp [initial]

section

variable {s : State ι}

theorem WaitersCounted.pos_iff (h : WaitersCounted s) :
    0 < s.waiters ↔ ∃ u, (s.thread u).place.waits ≠ 0 := by
  rw [show s.waiters = _ from h, Finset.sum_pos_iff]
  simp [Nat.pos_iff_ne_zero]

theorem Awake.alone_of {t : ι} (h : Awake s) (hplace : (s.thread t).place ≠ .outside) :
    Alone s t := by
  intro hone u hu
  by_contra hout
  exact hu (h.alone hone u t hout hplace)

theorem Place.waits_ne_zero {p : Place} (h : p.waits ≠ 0) : p = .blocked ∨ p = .woken := by
  cases p <;> simp_all [Place.waits]

end

variable [DecidableEq ι] {s : State ι} {t : ι} {th : Thread}

/-! ### One thread -/

theorem WaitersCounted.set (h : WaitersCounted s)
    (hwaits : th.place.waits = (s.thread t).place.waits) : WaitersCounted (setThread t th s) := by
  have hsum := sum_setThread (fun th => th.place.waits) t th s
  have hbefore : s.waiters = ∑ u, (s.thread u).place.waits := h
  show s.waiters = ∑ u, ((setThread t th s).thread u).place.waits
  omega

/-- A thread that wakes up others puts them on the alert, if any are asleep. -/
theorem alert_wakeOne (hcount : WaitersCounted (setThread t {} s))
    (htask : ∀ u, u ≠ t → (s.thread u).place = .task true → s.hasTask = true ∧
      (s.taskInterrupted = true → s.interrupted = true))
    (hplace : th.place.mayCall = true)
    (hcall : th.call = (wakeOneThreadAndUnlock s).2)
    (hasleep : ∃ u, Asleep (setThread t th (wakeOneThreadAndUnlock s).1) u) :
    ∃ u, Alert (setThread t th (wakeOneThreadAndUnlock s).1) u := by
  obtain ⟨u, hu⟩ := hasleep
  have hne : u ≠ t := by
    rintro rfl
    unfold Asleep at hu
    rw [thread_setThread, if_pos rfl] at hu
    obtain ⟨hnot, -, hno⟩ := Place.mayCall.stays hplace
    rcases hu with hblocked | ⟨htrue, -⟩
    · exact hnot hblocked
    · exact hno htrue
  have hthread : ∀ v, v ≠ t → (setThread t th (wakeOneThreadAndUnlock s).1).thread v = s.thread v ∧
      (setThread t {} s).thread v = s.thread v := by
    intro v hv
    rw [thread_setThread, thread_setThread, if_neg hv, if_neg hv, thread_wakeOne]
    exact ⟨rfl, rfl⟩
  have hpos := hcount.pos_iff
  by_cases hwaiters : 0 < s.waiters
  · obtain ⟨v, hv⟩ := hpos.mp hwaiters
    have hvt : v ≠ t := by
      rintro rfl
      rw [thread_setThread, if_pos rfl] at hv
      exact hv rfl
    rw [(hthread v hvt).2] at hv
    rcases Place.waits_ne_zero hv with hblocked | hwoken
    · refine ⟨t, Or.inr ⟨?_, v, ?_⟩⟩
      · rw [thread_setThread, if_pos rfl, hcall, wakeOneThreadAndUnlock_eq, if_pos hwaiters]
      · rw [(hthread v hvt).1]
        exact hblocked
    · refine ⟨v, Or.inl ?_⟩
      rw [(hthread v hvt).1, hwoken]
      rfl
  · exfalso
    unfold Asleep at hu
    rw [(hthread u hne).1] at hu
    rcases hu with hblocked | ⟨htrue, hnot⟩
    · refine hwaiters (hpos.mpr ⟨u, ?_⟩)
      rw [(hthread u hne).2, hblocked]
      simp [Place.waits]
    · obtain ⟨hhas, hnoticed⟩ := htask u hne htrue
      have hinterrupted : (wakeOneThreadAndUnlock s).1.interrupted = true := by
        rw [wakeOneThreadAndUnlock_eq, if_neg hwaiters]
        cases hbefore : s.taskInterrupted with
        | true => simp [hnoticed hbefore]
        | false => simp [hhas]
      exact absurd (hinterrupted.symm.trans hnot) (by simp)

/-! ### The thread that has locked the mutex -/

/-- The thread takes up what it does, the others being counted. -/
theorem Awake.back {s' : State ι} (hcount : WaitersCounted (setThread t {} s)) (halone : Alone s t)
    (hthread : s'.thread = s.thread) (hone : s'.oneThread = s.oneThread)
    (hwaiters : s'.waiters = s.waiters + th.place.waits)
    (hsignalled : s'.opQueue ≠ [] → s'.signalled = true ∨
      ∀ u, ((setThread t th s').thread u).place.waits = 0)
    (halert : s'.opQueue ≠ [] → (∃ u, Asleep (setThread t th s') u) →
      ∃ u, Alert (setThread t th s') u) : Awake (setThread t th s') where
  waiters := by
    have hsum := sum_setThread (fun th => th.place.waits) t th (setThread t {} s)
    have hbefore : s.waiters = ∑ u, ((setThread t {} s).thread u).place.waits := hcount
    rw [setThread_setThread] at hsum
    have hself : ((setThread t {} s).thread t).place.waits = 0 := by
      rw [thread_setThread, if_pos rfl]
      rfl
    have hsame : ∑ u, ((setThread t th s').thread u).place.waits =
        ∑ u, ((setThread t th s).thread u).place.waits := by
      unfold setThread
      rw [hthread]
    show s'.waiters = _
    rw [hsame, hwaiters]
    omega
  signalled := hsignalled
  alert := halert
  alone := by
    intro htrue u v hu hv
    have houtside : ∀ w, ((setThread t th s').thread w).place ≠ .outside → w = t := by
      intro w hw
      by_contra hne
      rw [thread_setThread, if_neg hne, hthread] at hw
      exact hw (halone (hone ▸ htrue) w hne)
    rw [houtside u hu, houtside v hv]

theorem waits_place (o : Op) : o.place.waits = 0 := by
  cases o <;> rfl

theorem awake_doRunOne (hcount : WaitersCounted (setThread t {} s))
    (hother : Orderly (setThread t {} s)) (halone : Alone s t) :
    Awake (setThread t (doRunOne s th).2 (doRunOne s th).1) := by
  have hran := doRunOne_cases s th
  generalize doRunOne s th = r at hran
  cases hran with
  | stopped hstopped =>
    obtain ⟨hsignalled, hawake⟩ := hother.stopped hstopped
    refine .back hcount halone rfl rfl rfl (fun _ => Or.inl hsignalled) ?_
    rintro - ⟨u, hu⟩
    refine absurd ?_ (hawake u)
    unfold Asleep at hu ⊢
    rw [thread_setThread] at hu ⊢
    split_ifs at hu ⊢
    · exact absurd hu (by simp)
    · exact hu
  | empty hstopped hqueue =>
    exact .back hcount halone rfl rfl rfl (fun hne => absurd hqueue hne)
      (fun hne => absurd hqueue hne)
  | task ops hstopped hqueue hlast =>
    refine .back hcount halone rfl rfl rfl ?_ ?_
    · intro hne
      exact Or.inr (halone.waits (hlast.resolve_left hne) rfl)
    · rintro hne ⟨u, hu⟩
      refine absurd hu (halone.not_asleep (hlast.resolve_left hne) (by simp) ?_ u)
      simpa using hne
  | taskMore ops hstopped hqueue hmore hone =>
    refine .back hcount halone rfl rfl rfl (fun _ => Or.inl rfl) ?_
    rintro - ⟨u, hu⟩
    obtain ⟨-, -, hnobody⟩ := hother.task.take hqueue
    unfold Asleep at hu
    rw [thread_setThread] at hu
    by_cases heq : u = t
    · rw [if_pos heq] at hu
      exact absurd hu (by simp)
    · rw [if_neg heq] at hu
      have hplace := hnobody u
      have hsame : (setThread t {} s).thread u = s.thread u := by
        rw [thread_setThread, if_neg heq]
      rw [hsame] at hplace
      rcases hu with hblocked | ⟨htrue, -⟩
      · have hwaiters : 0 < s.waiters := by
          refine hcount.pos_iff.mpr ⟨u, ?_⟩
          rw [hsame, show (s.thread u).place = .blocked from hblocked]
          simp [Place.waits]
        refine ⟨t, Or.inr ⟨?_, u, ?_⟩⟩
        · rw [thread_setThread, if_pos rfl]
          exact if_pos (show 0 < s.waiters from hwaiters)
        · rw [thread_setThread, if_neg heq]
          exact hblocked
      · rw [show (s.thread u).place = .task true from htrue] at hplace
        exact absurd hplace (by simp [Place.hasTask])
  | op o ops hstopped hqueue hlast =>
    refine .back hcount halone rfl rfl ?_ ?_ ?_
    · show s.waiters = s.waiters + o.place.waits
      rw [waits_place, Nat.add_zero]
    · intro hne
      exact Or.inr (halone.waits (hlast.resolve_left hne) (waits_place o))
    · rintro hne ⟨u, hu⟩
      obtain ⟨hblocked, -, htrue⟩ := Place.mayCall.stays o.place_stays.2
      exact absurd hu (halone.not_asleep (hlast.resolve_left hne) hblocked htrue u)
  | opMore o ops hstopped hqueue hmore hone =>
    refine .back hcount halone ?_ ?_ ?_ ?_ ?_
    · rw [thread_wakeOne]
    · rw [wakeOneThreadAndUnlock_eq]
      split_ifs <;> rfl
    · rw [wakeOneThreadAndUnlock_eq, waits_place, Nat.add_zero]
      split_ifs <;> rfl
    · intro _
      rw [wakeOneThreadAndUnlock_eq]
      refine Or.inl ?_
      split_ifs <;> rfl
    · intro _ hasleep
      refine alert_wakeOne hcount ?_ o.place_stays.2 rfl hasleep
      intro u hu hplace
      refine (hother.takesOp hqueue []).noticed (u := u) ?_
      rw [thread_setThread, if_neg hu]
      exact hplace

/-! ### All steps -/

theorem Place.isAway.quiet {p : Place} (h : p.isAway = true) : p.waits = 0 ∧ p.isAlert = false := by
  cases p <;> simp_all [Place.isAway, Place.waits, Place.isAlert]

/-- A thread that is away stays away or looks at the queue. -/
theorem Awake.goesOn {s' : State ι} (h : Awake s) (hthread : s'.thread = s.thread)
    (hqueue : s'.opQueue = s.opQueue) (hsignalled : s'.signalled = s.signalled)
    (hwaiters : s'.waiters = s.waiters) (hinterrupted : s'.interrupted = s.interrupted)
    (hone : s'.oneThread = s.oneThread) (hcall : (s.thread t).call = .idle)
    (haway : (s.thread t).place.isAway = true)
    (hnext : th.place.isAway = true ∨ th.place = .look)
    (halone : s.oneThread = true → (s.thread t).place = .outside → th.place ≠ .outside →
      ∀ u, (s.thread u).place = .outside) : Awake (setThread t th s') := by
  obtain ⟨hwaits, halert⟩ := Place.isAway.quiet haway
  obtain ⟨hwaits', hblocked, htrue⟩ :
      th.place.waits = 0 ∧ th.place ≠ .blocked ∧ th.place ≠ .task true := by
    rcases hnext with hth | hth
    · obtain ⟨hblocked, -, htrue⟩ := Place.mayCall.stays (Place.isAway.stays hth).2
      exact ⟨(Place.isAway.quiet hth).1, hblocked, htrue⟩
    · rw [hth]
      exact ⟨rfl, by simp, by simp⟩
  refine ⟨?_, ?_, ?_, ?_⟩
  · refine WaitersCounted.set (s := s') ?_ ?_
    · unfold WaitersCounted
      rw [hwaiters, hthread]
      exact h.waiters
    · rw [hthread, hwaits, hwaits']
  · intro hne
    rcases h.signalled (hqueue ▸ hne) with hsig | hnone
    · exact Or.inl (hsignalled.trans hsig)
    · refine Or.inr ?_
      intro u
      rw [thread_setThread, hthread]
      split_ifs
      · exact hwaits'
      · exact hnone u
  · rintro hne ⟨u, hu⟩
    have hother : ∀ v, v ≠ t → (setThread t th s').thread v = s.thread v := by
      intro v hv
      rw [thread_setThread, if_neg hv, hthread]
    have hut : u ≠ t := by
      rintro rfl
      unfold Asleep at hu
      rw [thread_setThread, if_pos rfl] at hu
      rcases hu with hu | ⟨hu, -⟩
      · exact hblocked hu
      · exact htrue hu
    have hasleep : Asleep s u := by
      unfold Asleep at hu ⊢
      rw [hother u hut] at hu
      rcases hu with hu | ⟨hu, hnot⟩
      · exact Or.inl hu
      · exact Or.inr ⟨hu, hinterrupted.symm.trans hnot⟩
    obtain ⟨v, hv⟩ := h.alert (hqueue ▸ hne) ⟨u, hasleep⟩
    have hvt : v ≠ t := by
      rintro rfl
      rcases hv with hplace | ⟨hsignal, -⟩
      · exact absurd (hplace.symm.trans halert) (by simp)
      · exact absurd (hsignal.symm.trans hcall) (by simp)
    refine ⟨v, ?_⟩
    unfold Alert
    rw [hother v hvt]
    refine hv.imp id ?_
    rintro ⟨hsignal, w, hw⟩
    refine ⟨hsignal, w, ?_⟩
    rw [hother w]
    · exact hw
    · rintro rfl
      rw [hw] at haway
      exact absurd haway (by simp [Place.isAway])
  · intro honly u v hu hv
    rw [show (setThread t th s').oneThread = s.oneThread from hone] at honly
    have hbefore : ∀ w, ((setThread t th s').thread w).place ≠ .outside →
        (s.thread w).place ≠ .outside ∨ w = t ∧ ∀ x, (s.thread x).place = .outside := by
      intro w hw
      rw [thread_setThread, hthread] at hw
      split_ifs at hw with hwt
      · by_cases hout : (s.thread t).place = .outside
        · exact Or.inr ⟨hwt, halone honly hout hw⟩
        · exact Or.inl (hwt ▸ hout)
      · exact Or.inl hw
    rcases hbefore u hu with hu' | ⟨rfl, hall⟩
    · rcases hbefore v hv with hv' | ⟨-, hall⟩
      · exact h.alone honly u v hu' hv'
      · exact absurd (hall u) hu'
    · rcases hbefore v hv with hv' | ⟨rfl, -⟩
      · exact absurd (hall v) hv'
      · rfl

theorem Awake.minds {l : Label ι} (h : Awake s) {r : State ι × Thread}
    (hm : Minds l s (s.thread l.thread) r) (hl : Keeps s l) :
    Awake (setThread l.thread r.2 r.1) := by
  have hcore := hm.core
  simp only [State.core, Core.mk.injEq] at hcore
  obtain ⟨hone, -, -, hqueue, -, hsignalled, hwaiters, hinterrupted, -⟩ := hcore
  refine h.goesOn hm.thread hqueue hsignalled hwaiters hinterrupted hone hm.call hm.away hm.next ?_
  intro honly hout hin
  obtain ⟨once, hrun⟩ := hm.enters hout hin
  rw [hrun] at hl
  exact hl honly

/-- The other threads, when one has locked the mutex. -/
theorem WaitersCounted.without (h : WaitersCounted s) (hwaits : (s.thread t).place.waits = 0) :
    WaitersCounted (setThread t {} s) :=
  h.set hwaits.symm

/-- What has been pushed is signalled. -/
theorem Awake.pushes {s' : State ι} (h : Awake s) (ho : Orderly s')
    (hplace : (s.thread t).place.mayCall = true) (hthread : s'.thread = s.thread)
    (hwaiters : s'.waiters = s.waiters) (hone : s'.oneThread = s.oneThread) :
    Awake (setThread t { s.thread t with call := (wakeOneThreadAndUnlock s').2 }
      (wakeOneThreadAndUnlock s').1) := by
  have hwaits : (s.thread t).place.waits = 0 := by
    by_contra hne
    obtain ⟨hblocked, hwoken, -⟩ := Place.mayCall.stays hplace
    rcases Place.waits_ne_zero hne with heq | heq
    · exact hblocked heq
    · exact hwoken heq
  have hcount : WaitersCounted s' := by
    unfold WaitersCounted
    rw [hwaiters, hthread]
    exact h.waiters
  have hsame : (wakeOneThreadAndUnlock s').1.waiters = s'.waiters ∧
      (wakeOneThreadAndUnlock s').1.oneThread = s'.oneThread ∧
      (wakeOneThreadAndUnlock s').1.signalled = true := by
    rw [wakeOneThreadAndUnlock_eq]
    split_ifs <;> exact ⟨rfl, rfl, rfl⟩
  refine ⟨?_, fun _ => Or.inl hsame.2.2, ?_, ?_⟩
  · refine WaitersCounted.set (s := (wakeOneThreadAndUnlock s').1) ?_ ?_
    · unfold WaitersCounted
      rw [hsame.1, thread_wakeOne]
      exact hcount
    · rw [thread_wakeOne, hthread]
  · intro _ hasleep
    refine alert_wakeOne (hcount.without (by rw [hthread]; exact hwaits)) ?_ hplace rfl hasleep
    exact fun u _ hu => ho.noticed hu
  · intro honly u v hu hv
    have hbefore : ∀ w, ((setThread t { s.thread t with call := (wakeOneThreadAndUnlock s').2 }
        (wakeOneThreadAndUnlock s').1).thread w).place ≠ .outside →
        (s.thread w).place ≠ .outside := by
      intro w hw
      rw [thread_setThread, thread_wakeOne, hthread] at hw
      split_ifs at hw with hwt
      · rw [hwt]
        exact hw
      · exact hw
    exact h.alone (hone ▸ hsame.2.1 ▸ honly) u v (hbefore u hu) (hbefore v hv)

theorem Awake.stops (h : Awake s)
    (ho' : Orderly (setThread t { s.thread t with call := .idle } (stopAllThreads s))) :
    Awake (setThread t { s.thread t with call := .idle } (stopAllThreads s)) := by
  have hthread : ∀ u, ((stopAllThreads s).thread u) = (s.thread u).wake := by
    intro u
    unfold stopAllThreads
    rw [interruptTask_eq]
  have hfields : (stopAllThreads s).waiters = s.waiters ∧
      (stopAllThreads s).oneThread = s.oneThread ∧ (stopAllThreads s).signalled = true ∧
      (stopAllThreads s).stopped = true := by
    unfold stopAllThreads
    rw [interruptTask_eq]
    exact ⟨rfl, rfl, rfl, rfl⟩
  have hwake : ∀ u, (s.thread u).wake.place.waits = (s.thread u).place.waits ∧
      ((s.thread u).wake.place ≠ .outside → (s.thread u).place ≠ .outside) := by
    intro u
    unfold Thread.wake
    split_ifs with hblocked
    · rw [hblocked]
      exact ⟨rfl, by simp⟩
    · exact ⟨rfl, id⟩
  refine ⟨?_, fun _ => Or.inl hfields.2.2.1, ?_, ?_⟩
  · refine WaitersCounted.set (s := stopAllThreads s) ?_ ?_
    · unfold WaitersCounted
      rw [hfields.1, show s.waiters = _ from h.waiters]
      refine Finset.sum_congr rfl ?_
      intro u _
      rw [hthread, (hwake u).1]
    · rw [hthread, (hwake t).1]
  · rintro - ⟨u, hu⟩
    exact absurd hu ((ho'.stopped hfields.2.2.2).2 u)
  · intro honly u v hu hv
    have hbefore : ∀ w, ((setThread t { s.thread t with call := .idle }
        (stopAllThreads s)).thread w).place ≠ .outside → (s.thread w).place ≠ .outside := by
      intro w hw
      rw [thread_setThread, hthread] at hw
      split_ifs at hw with hwt
      · rw [hwt]
        exact hw
      · exact (hwake w).2 hw
    exact h.alone (hfields.2.1 ▸ honly) u v (hbefore u hu) (hbefore v hv)

theorem Awake.locked (h : Awake s) (ho : Orderly s) {r : State ι × Thread}
    (hlock : Locked s (s.thread t) r) (hleave : (s.thread t).place ≠ .leave)
    (ho' : Orderly (setThread t r.2 r.1)) : Awake (setThread t r.2 r.1) := by
  cases hlock with
  | push ops hcall =>
    exact h.pushes (ho.pushed ops) (ho.calls t (by rw [hcall]; simp)) rfl rfl rfl
  | stop hcall => exact h.stops ho'
  | look hcall hplace =>
    have hout : (s.thread t).place ≠ .outside := by rw [hplace]; simp
    exact awake_doRunOne (h.waiters.without (by rw [hplace]; rfl))
      ((ho.without (by rw [hplace]; rfl)).pushed _) (h.alone_of hout)
  | leave hcall hplace => exact absurd hplace hleave
  | taskDone hcall hplace =>
    have hout : (s.thread t).place ≠ .outside := by rw [hplace]; simp
    exact awake_doRunOne (h.waiters.without (by rw [hplace]; rfl)) (ho.taskCleanup hplace)
      (h.alone_of hout)
  | woken hcall hplace hsignalled =>
    have hout : (s.thread t).place ≠ .outside := by rw [hplace]; simp
    have hcount : WaitersCounted (setThread t {} { s with waiters := s.waiters - 1 }) := by
      have hsum := sum_setThread (fun th => th.place.waits) t {} s
      have hbefore : s.waiters = ∑ u, (s.thread u).place.waits := h.waiters
      rw [hplace] at hsum
      show s.waiters - 1 = ∑ u, ((setThread t {} s).thread u).place.waits
      simp only [Place.waits] at *
      omega
    refine awake_doRunOne hcount ?_ (h.alone_of hout)
    exact (ho.without (t := t) (by rw [hplace]; rfl)).wake rfl rfl rfl id (fun _ => id) id Or.inr
  | again hcall hplace hsignalled =>
    have hempty : s.opQueue = [] := by
      by_contra hne
      rcases h.signalled hne with hsig | hnone
      · exact absurd (hsig.symm.trans hsignalled) (by simp)
      · exact absurd (hnone t) (by rw [hplace]; simp [Place.waits])
    refine ⟨h.waiters.set (by rw [hplace]; rfl), fun hne => absurd hempty hne,
      fun hne => absurd hempty hne, ?_⟩
    intro honly u v hu hv
    have hbefore : ∀ w, ((setThread t { s.thread t with place := .blocked } s).thread w).place ≠
        .outside → (s.thread w).place ≠ .outside := by
      intro w hw
      rw [thread_setThread] at hw
      split_ifs at hw with hwt
      · rw [hwt, hplace]
        simp
      · exact hw
    exact h.alone honly u v (hbefore u hu) (hbefore v hv)

/-- A thread that is waiting or has the task becomes alert. -/
theorem Awake.alerted {s' : State ι} (h : Awake s) (hthread : s'.thread = s.thread)
    (hqueue : s'.opQueue = s.opQueue) (hsignalled : s'.signalled = s.signalled)
    (hwaiters : s'.waiters = s.waiters) (hone : s'.oneThread = s.oneThread)
    (halert : th.place.isAlert = true) (hwaits : th.place.waits = (s.thread t).place.waits)
    (hin : (s.thread t).place ≠ .outside) : Awake (setThread t th s') := by
  refine ⟨?_, ?_, ?_, ?_⟩
  · refine WaitersCounted.set (s := s') ?_ ?_
    · unfold WaitersCounted
      rw [hwaiters, hthread]
      exact h.waiters
    · rw [hthread]
      exact hwaits
  · intro hne
    rcases h.signalled (hqueue ▸ hne) with hsig | hnone
    · exact Or.inl (hsignalled.trans hsig)
    · refine Or.inr ?_
      intro u
      rw [thread_setThread, hthread]
      split_ifs
      · exact hwaits.trans (hnone t)
      · exact hnone u
  · rintro - -
    refine ⟨t, Or.inl ?_⟩
    rw [thread_setThread, if_pos rfl]
    exact halert
  · intro honly u v hu hv
    have hbefore : ∀ w, ((setThread t th s').thread w).place ≠ .outside →
        (s.thread w).place ≠ .outside := by
      intro w hw
      rw [thread_setThread, hthread] at hw
      split_ifs at hw with hwt
      · exact hwt ▸ hin
      · exact hw
    exact h.alone (hone ▸ honly) u v (hbefore u hu) (hbefore v hv)

/-- A thread has signalled another one, which is alert by now, or there was nobody to be woken. -/
theorem Awake.signals (h : Awake s) (hwoken : (∃ v, (s.thread v).place.isAlert = true) ∨
    ∀ v, (s.thread v).place ≠ .blocked) :
    Awake (setThread t { s.thread t with call := .idle } s) := by
  have hplace : ∀ u, ((setThread t { s.thread t with call := .idle } s).thread u).place =
      (s.thread u).place := by
    intro u
    rw [thread_setThread]
    split_ifs with hu
    · rw [hu]
    · rfl
  refine ⟨h.waiters.set rfl, ?_, ?_, ?_⟩
  · intro hne
    refine (h.signalled hne).imp id ?_
    intro hnone u
    rw [hplace]
    exact hnone u
  · rintro hne ⟨u, hu⟩
    have hasleep : Asleep s u := by
      unfold Asleep at hu ⊢
      rwa [hplace] at hu
    have halert : ∃ v, (s.thread v).place.isAlert = true := by
      obtain ⟨v, hv | ⟨-, w, hw⟩⟩ := h.alert hne ⟨u, hasleep⟩
      · exact ⟨v, hv⟩
      · rcases hwoken with hv | hnobody
        · exact hv
        · exact absurd hw (hnobody w)
    obtain ⟨v, hv⟩ := halert
    refine ⟨v, Or.inl ?_⟩
    rw [hplace]
    exact hv
  · intro honly u v hu hv
    rw [hplace] at hu hv
    exact h.alone honly u v hu hv

theorem Awake.wakeThread (h : Awake s) (hblocked : (s.thread t).place = .blocked) :
    Awake (setThread t (s.thread t).wake s) := by
  unfold Thread.wake
  rw [if_pos hblocked]
  exact h.alerted rfl rfl rfl rfl rfl rfl (by rw [hblocked]; rfl) (by rw [hblocked]; simp)

theorem Awake.act {l : Label ι} (h : Awake s) (ho : Orderly s) (hl : l.thread = t)
    (hkeeps : Keeps s l) {r : State ι × Thread} (hr : Scheduler.act s (s.thread t) l = some r) :
    Awake (setThread t r.2 r.1) := by
  have ho' := ho.act hl hr
  by_cases hown : l.isOwn = true
  · subst hl
    exact h.minds (minds_of_act hown hr) hkeeps
  · cases l with
    | initTask u =>
      obtain rfl : u = t := hl
      simp only [Scheduler.act] at hr
      split_ifs at hr with huser htask
      · obtain rfl := Option.some.inj hr
        exact h.minds (l := .initTask u) (.of_user huser rfl rfl rfl) trivial
      · obtain rfl := Option.some.inj hr
        have hmay := (Place.isAway.stays (Thread.inUserCode.away huser).2).2
        exact h.pushes (ho.initTask (by simpa using htask)) hmay rfl rfl rfl
    | restart u =>
      obtain rfl : u = t := hl
      simp only [Scheduler.act] at hr
      split_ifs at hr with huser
      obtain rfl := Option.some.inj hr
      obtain ⟨hcall, haway⟩ := Thread.inUserCode.away huser
      exact h.goesOn rfl rfl rfl rfl rfl rfl hcall haway (Or.inl haway)
        fun _ hout hin => absurd hout hin
    | lock u =>
      obtain rfl : u = t := hl
      exact h.locked ho (locked_cases hr) hkeeps ho'
    | signal u target =>
      obtain rfl : u = t := hl
      obtain ⟨hcall, htarget⟩ := act_signal hr
      rcases htarget with ⟨v, hblocked, rfl⟩ | ⟨hnone, rfl⟩
      · have hne : u ≠ v := by
          rintro rfl
          exact (Place.mayCall.stays (ho.calls u (by rw [hcall]; simp))).1 hblocked
        have hthread : ((setThread v (s.thread v).wake s).thread u) = s.thread u := by
          rw [thread_setThread, if_neg hne]
        have hsignals := (h.wakeThread hblocked).signals (t := u) (Or.inl ⟨v, by
          rw [thread_setThread, if_pos rfl, Thread.wake, if_pos hblocked]
          rfl⟩)
        rwa [hthread] at hsignals
      · exact h.signals (Or.inr hnone)
    | spurious u =>
      obtain rfl : u = t := hl
      simp only [Scheduler.act] at hr
      split_ifs at hr with hblocked
      obtain rfl := Option.some.inj hr
      exact h.wakeThread hblocked
    | taskReturns u ops reported =>
      obtain rfl : u = t := hl
      simp only [Scheduler.act] at hr
      split at hr
      · rename_i hcall hplace
        split_ifs at hr
        obtain rfl := Option.some.inj hr
        exact h.alerted rfl rfl rfl rfl rfl rfl (by rw [hplace]; rfl) (by rw [hplace]; simp)
      · exact absurd hr (by simp)
    | _ => exact absurd rfl hown

/-- **No lost wake-up.** In every run in which no thread leaves with a private queue: if there is
something in the queue and some thread sleeps, then the scheduler has not been stopped, and some
thread is about to look at the queue or to wake up one that will. -/
theorem no_lost_wakeup {oneThread : Bool} {ls : List (Label ι)}
    (h : Run step Keeps (initial oneThread) ls s) (hqueue : s.opQueue ≠ []) {u : ι}
    (hu : Asleep s u) : s.stopped = false ∧ ∃ v, Alert s v := by
  obtain ⟨horderly, hawake⟩ := h.invariant (I := fun s => Orderly s ∧ Awake s)
    ⟨orderly_initial oneThread, awake_initial oneThread⟩
    (by
      rintro s l s' ⟨ho, ha⟩ hl hs
      obtain ⟨r, hr, rfl⟩ := Option.map_eq_some_iff.mp hs
      exact ⟨ho.act rfl hr, ha.act ho rfl hl hr⟩)
  refine ⟨?_, hawake.alert hqueue ⟨u, hu⟩⟩
  by_contra hstopped
  exact (horderly.stopped (by simpa using hstopped)).2 u hu

/-- One thread is blocked, another one is woken up by an operation and then busy with it. -/
def busyRun : List (Label (Fin 3)) :=
  [.workStarted 0, .run 1 false, .lock 1, .run 2 false, .lock 2, .post 0 2 false, .lock 0,
    .signal 0 (some 1), .lock 1]

theorem no_lost_wakeup_busyRun :
    let s := reached step Keeps (initial false) busyRun
    s.stopped = false ∧ ∃ v, Alert s v :=
  no_lost_wakeup (u := 2) (run_reached (by decide +kernel)) (by decide +kernel)
    (by decide +kernel)

/-- A thread that leaves `run_one` with a private queue does not wake up the thread that sleeps. -/
example :
    let s := reached step Any (initial false) ([.workStarted 0, .run 1 false, .lock 1,
      .post 0 1 false, .lock 0, .signal 0 (some 1), .lock 1, .run 2 true, .lock 2, .post 0 1 false,
      .lock 0, .signal 0 (some 2), .lock 2, .post 2 1 true, .finish 1, .cleanup 1, .lock 1,
      .finish 2, .cleanup 2, .lock 2] : List (Label (Fin 3)))
    s.opQueue ≠ [] ∧ Asleep s 1 ∧ ∀ v, ¬ Alert s v := by
  decide +kernel

end AsioLearn.Detail.Scheduler
