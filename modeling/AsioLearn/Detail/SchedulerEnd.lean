import AsioLearn.Detail.SchedulerStop
import AsioLearn.Detail.SchedulerWork

/-!
# When `run` returns

* `stays_while_work`: as long as there is work to do, and nobody stops the scheduler or throws, `run`
  does not return.
* `ends_without_work`: when there is none left, the scheduler is stopped.
-/

namespace AsioLearn.Detail.Scheduler

open Lts

/-! ## Work -/

/-- The thread is in `run`, and will not leave it unless the scheduler is stopped. -/
def Thread.InRun (th : Thread) : Prop :=
  th.once = false ∧ th.place ≠ .outside ∧ th.place ≠ .leave ∧ th.place ≠ .cleanup true

theorem Thread.InRun.wake {th : Thread} (h : th.InRun) : th.wake.InRun := by
  unfold Thread.wake
  split_ifs
  · exact ⟨h.1, by simp, by simp, by simp⟩
  · exact h

variable {ι : Type*}

/-- There is an operation that is not completed, or some other work that has not been finished. -/
def HasWork (s : State ι) : Prop :=
  0 < s.guards ∨ shared s ≠ [] ∨ ∃ u, (s.thread u).holds ≠ [] ∨ (s.thread u).place = .handler

/-- There is work to do, and the step neither stops the scheduler nor throws. -/
def Busy (s : State ι) (l : Label ι) : Prop :=
  HasWork s ∧ match l with
    | .stop _ | .throw _ => False
    | _ => True

instance [Fintype ι] (s : State ι) : Decidable (HasWork s) :=
  inferInstanceAs (Decidable (_ ∨ _ ∨ _))

instance [Fintype ι] (s : State ι) : ∀ l, Decidable (Busy s l)
  | .stop _ | .throw _ => isFalse fun h => h.2
  | .initTask _ | .run .. | .post .. | .dispatch _ | .start _ | .cancel .. | .workStarted _
  | .workFinished _ | .restart _ | .lock _ | .signal .. | .spurious _ | .taskReturns ..
  | .performIo .. | .finish _ | .cleanup _ => inferInstanceAs (Decidable (HasWork s ∧ True))

theorem Thread.Lawful.le {th : Thread} (h : th.Lawful) :
    th.privateWork ≤ th.holds.length + th.unit ∧
      (th.holds ≠ [] ∨ th.place = .handler → th.privateWork < th.holds.length + th.unit) := by
  have hholds : th.holds.length = (handlers th.privateQueue).length +
      (handlers th.pushing).length := List.length_append
  have hpos : th.holds ≠ [] → 0 < th.holds.length := List.length_pos_of_ne_nil
  unfold Thread.Lawful at h
  unfold Thread.unit
  cases hplace : th.place with
  | handler =>
    rw [hplace] at h
    dsimp only at h ⊢
    exact ⟨by omega, fun _ => by omega⟩
  | cleanup throws =>
    rw [hplace] at h
    dsimp only at h ⊢
    rcases h with hle | ⟨hone, hqueue⟩
    · exact ⟨by omega, fun _ => by omega⟩
    · refine ⟨by omega, ?_⟩
      rintro (hne | habsurd)
      · have := hpos hne
        omega
      · exact absurd habsurd (by simp)
  | _ =>
    rw [hplace] at h
    dsimp only at h ⊢
    have hzero : th.privateWork = 0 := by first | exact h | exact h.1
    refine ⟨by omega, ?_⟩
    rintro (hne | habsurd)
    · have := hpos hne
      omega
    · exact absurd habsurd (by simp)

section

variable {s : State ι} {th : Thread}

/-- The scheduler is not stopped by the thread, which stays in `run` if it is in it. -/
def GoesOn (th : Thread) (r : State ι × Thread) : Prop :=
  r.1.stopped = false ∧ r.2.call ≠ .stop ∧ (th.InRun → r.2.InRun)

theorem goesOn_doRunOne (s : State ι) (th : Thread) (hstopped : s.stopped = false)
    (hcall : th.call = .idle) :
    (doRunOne s th).1.stopped = false ∧ (doRunOne s th).2.call ≠ .stop ∧
      (th.once = false → (doRunOne s th).2.InRun) := by
  have hran := doRunOne_cases s th
  generalize doRunOne s th = r at hran
  have hop : ∀ o : Op, o.place ≠ .outside ∧ o.place ≠ .leave ∧ o.place ≠ .cleanup true := by
    intro o
    cases o <;> simp [Op.place]
  cases hran with
  | stopped hstop => exact absurd (hstopped.symm.trans hstop) (by simp)
  | empty _ hqueue =>
    exact ⟨hstopped, by simp [hcall], fun honce => ⟨honce, by simp, by simp, by simp⟩⟩
  | task ops _ hqueue hlast =>
    exact ⟨hstopped, by simp [hcall], fun honce => ⟨honce, by simp, by simp, by simp⟩⟩
  | taskMore ops _ hqueue hmore hone =>
    refine ⟨hstopped, ?_, fun honce => ⟨honce, by simp, by simp, by simp⟩⟩
    dsimp only
    split_ifs <;> simp
  | op o ops _ hqueue hlast => exact ⟨hstopped, by simp [hcall], fun honce => ⟨honce, hop o⟩⟩
  | opMore o ops _ hqueue hmore hone =>
    rw [wakeOneThreadAndUnlock_eq]
    split_ifs
    · exact ⟨hstopped, by simp, fun honce => ⟨honce, hop o⟩⟩
    · exact ⟨hstopped, by simp, fun honce => ⟨honce, hop o⟩⟩

theorem goesOn_wakeOne (hstopped : s.stopped = false) :
    GoesOn th ((wakeOneThreadAndUnlock s).1,
      { th with call := (wakeOneThreadAndUnlock s).2 }) := by
  rw [wakeOneThreadAndUnlock_eq]
  split_ifs
  · exact ⟨hstopped, by simp, id⟩
  · exact ⟨hstopped, by simp, id⟩

theorem goesOn_locked {r : State ι × Thread} (h : Locked s th r) (hstopped : s.stopped = false)
    (hcall : th.call ≠ .stop) : GoesOn th r := by
  cases h with
  | push ops _ => exact goesOn_wakeOne (s := push ops s) hstopped
  | stop hstop => exact absurd hstop hcall
  | look hidle hplace =>
    obtain ⟨hafter, hnext, hrun⟩ := goesOn_doRunOne (push th.privateQueue s)
      { th with privateQueue := [] } hstopped hidle
    exact ⟨hafter, hnext, fun hin => hrun hin.1⟩
  | leave hidle hplace =>
    exact ⟨hstopped, by simp [hidle], fun hin => absurd hplace hin.2.2.1⟩
  | taskDone hidle hplace =>
    obtain ⟨hafter, hnext, hrun⟩ := goesOn_doRunOne (taskCleanup s th).1
      (taskCleanup s th).2 hstopped hidle
    exact ⟨hafter, hnext, fun hin => hrun hin.1⟩
  | woken hidle hplace hsignalled =>
    obtain ⟨hafter, hnext, hrun⟩ := goesOn_doRunOne { s with waiters := s.waiters - 1 } _
      hstopped hidle
    exact ⟨hafter, hnext, fun hin => hrun hin.1⟩
  | again hidle hplace hsignalled =>
    exact ⟨hstopped, by simp [hidle], fun hin => ⟨hin.1, by simp, by simp, by simp⟩⟩

theorem goesOn_postDeferred (ids : List ℕ) (s : State ι) (th : Thread)
    (hstopped : s.stopped = false) (hcall : th.call ≠ .stop) :
    GoesOn th (postDeferred ids s th) := by
  unfold postDeferred
  split_ifs
  · exact ⟨hstopped, hcall, id⟩
  · exact ⟨hstopped, hcall, id⟩
  · exact ⟨hstopped, by simp, id⟩

theorem goesOn_workCleanup (hstopped : s.stopped = false) (hcall : th.call = .idle)
    {throws : Bool} (hplace : th.place = .cleanup throws)
    (hpos : (workCleanup throws s th).1.outstandingWork ≠ 0) :
    GoesOn th (workCleanup throws s th) := by
  have hnext : th.InRun → (if (!throws && !th.once) = true then Place.look
      else if th.privateQueue.isEmpty = true then Place.outside else Place.leave) = .look := by
    rintro ⟨honce, -, -, hthrows⟩
    rw [hplace] at hthrows
    have hfalse : throws = false := by simpa using hthrows
    rw [hfalse, honce]
    rfl
  unfold workCleanup at hpos ⊢
  dsimp only at hpos ⊢
  generalize (if (!throws && !th.once) = true then Place.look
    else if th.privateQueue.isEmpty = true then Place.outside else Place.leave) = next at hnext hpos
  have hrun : ∀ call, th.InRun → Thread.InRun ⟨next, call, th.once, 0, th.privateQueue⟩ := by
    intro call hin
    rw [hnext hin]
    exact ⟨hin.1, by simp, by simp, by simp⟩
  by_cases hmore : 1 < th.privateWork
  · rw [if_pos hmore]
    exact ⟨hstopped, by simp [hcall], hrun _⟩
  · rw [if_neg hmore] at hpos ⊢
    by_cases hless : th.privateWork < 1
    · rw [if_pos hless] at hpos ⊢
      refine ⟨hstopped, ?_, hrun _⟩
      dsimp only at hpos ⊢
      rw [if_neg hpos]
      simp
    · rw [if_neg hless]
      exact ⟨hstopped, by simp [hcall], hrun _⟩

/-- A step does not take back a decision to stop, and the one that finishes the last piece of work
decides it. -/
structure Ends (s : State ι) (th : Thread) (r : State ι × Thread) : Prop where
  stop : th.call = .stop → r.2.call = .stop ∨ r.1.stopped = true
  zero : r.1.outstandingWork = 0 → s.outstandingWork = 0 ∨ r.2.call = .stop
  outside : r.1.outstandingWork = 0 → th.place = .outside → r.2.place = .outside

theorem Ends.of_user {r : State ι × Thread} (h : th.inUserCode = true)
    (hzero : r.1.outstandingWork = 0 → s.outstandingWork = 0 ∨ r.2.call = .stop)
    (hplace : r.2.place = th.place) : Ends s th r where
  stop := by
    intro hcall
    exact absurd ((Thread.inUserCode.away h).1.symm.trans hcall) (by simp)
  zero := hzero
  outside := fun _ hout => hplace.trans hout

/-- A thread in the code of the scheduler that leaves the count alone, or raises it. -/
theorem Ends.of_inside {r : State ι × Thread} (hcall : th.call = .idle)
    (hplace : th.place ≠ .outside) (hnonneg : 0 ≤ s.outstandingWork)
    (hle : s.outstandingWork ≤ r.1.outstandingWork) : Ends s th r where
  stop := fun hstop => absurd (hcall.symm.trans hstop) (by simp)
  zero := fun hzero => Or.inl (by omega)
  outside := fun _ hout => absurd hout hplace

theorem outstandingWork_doRunOne (s : State ι) (th : Thread) :
    (doRunOne s th).1.outstandingWork = s.outstandingWork := by
  have hran := doRunOne_cases s th
  generalize doRunOne s th = r at hran
  cases hran with
  | opMore o ops _ _ _ _ =>
    rw [wakeOneThreadAndUnlock_eq]
    split_ifs <;> rfl
  | _ => rfl

theorem outstandingWork_wakeOne (s : State ι) :
    (wakeOneThreadAndUnlock s).1.outstandingWork = s.outstandingWork := by
  rw [wakeOneThreadAndUnlock_eq]
  split_ifs <;> rfl

theorem ends_locked {r : State ι × Thread} (h : Locked s th r) (hnonneg : 0 ≤ s.outstandingWork) :
    Ends s th r := by
  cases h with
  | push ops hcall =>
    refine ⟨fun hstop => absurd (hcall.symm.trans hstop) (by simp), ?_, fun _ hout => hout⟩
    intro hzero
    exact Or.inl ((outstandingWork_wakeOne (push ops s)).symm.trans hzero)
  | stop hcall =>
    unfold stopAllThreads
    rw [interruptTask_eq]
    exact ⟨fun _ => Or.inr rfl, Or.inl, fun _ hout => hout⟩
  | look hidle hplace =>
    refine .of_inside hidle (by rw [hplace]; simp) hnonneg ?_
    rw [outstandingWork_doRunOne]
    exact le_refl _
  | leave hidle hplace => exact .of_inside hidle (by rw [hplace]; simp) hnonneg (le_refl _)
  | taskDone hidle hplace =>
    refine .of_inside hidle (by rw [hplace]; simp) hnonneg ?_
    rw [outstandingWork_doRunOne]
    show s.outstandingWork ≤ s.outstandingWork + th.privateWork
    omega
  | woken hidle hplace hsignalled =>
    refine .of_inside hidle (by rw [hplace]; simp) hnonneg ?_
    rw [outstandingWork_doRunOne]
  | again hidle hplace hsignalled =>
    exact .of_inside hidle (by rw [hplace]; simp) hnonneg (le_refl _)

theorem ends_workCleanup {throws : Bool} (hcall : th.call = .idle)
    (hplace : th.place = .cleanup throws) (hnonneg : 0 ≤ s.outstandingWork) :
    Ends s th (workCleanup throws s th) := by
  refine ⟨fun hstop => absurd (hcall.symm.trans hstop) (by simp), ?_,
    fun _ hout => absurd (hplace.symm.trans hout) (by simp)⟩
  unfold workCleanup
  dsimp only
  by_cases hmore : 1 < th.privateWork
  · rw [if_pos hmore]
    dsimp only
    exact fun hzero => Or.inl (by omega)
  · rw [if_neg hmore]
    by_cases hless : th.privateWork < 1
    · rw [if_pos hless]
      dsimp only
      intro hzero
      rw [if_pos hzero]
      exact Or.inr rfl
    · rw [if_neg hless]
      exact Or.inl

end

variable [Fintype ι] {s : State ι}

theorem Counted.nonneg (h : Counted s) : 0 ≤ s.outstandingWork := by
  have hsum : ∑ u, ((s.thread u).privateWork : ℤ) ≤
      ∑ u, ((s.thread u).holds.length + (s.thread u).unit : ℤ) := by
    refine Finset.sum_le_sum ?_
    intro u _
    exact_mod_cast (h.lawful u).le.1
  have hwork := h.work
  omega

theorem Counted.pos (h : Counted s) (hwork : HasWork s) : 0 < s.outstandingWork := by
  have hsum : ∑ u, ((s.thread u).privateWork : ℤ) ≤
      ∑ u, ((s.thread u).holds.length + (s.thread u).unit : ℤ) := by
    refine Finset.sum_le_sum ?_
    intro u _
    exact_mod_cast (h.lawful u).le.1
  have hcount := h.work
  rcases hwork with hguards | hshared | ⟨u, hu⟩
  · omega
  · have := List.length_pos_of_ne_nil hshared
    omega
  · have hless : ∑ u, ((s.thread u).privateWork : ℤ) <
        ∑ u, ((s.thread u).holds.length + (s.thread u).unit : ℤ) := by
      refine Finset.sum_lt_sum ?_ ⟨u, Finset.mem_univ u, ?_⟩
      · intro v _
        exact_mod_cast (h.lawful v).le.1
      · exact_mod_cast (h.lawful u).le.2 hu
    omega

theorem Counted.zero (h : Counted s) (hnone : ¬ HasWork s)
    (hdone : ∀ u throws, (s.thread u).place ≠ .cleanup throws) : s.outstandingWork = 0 := by
  unfold HasWork at hnone
  push Not at hnone
  obtain ⟨hguards, hshared, hthreads⟩ := hnone
  have hthread : ∀ u, (s.thread u).privateWork = 0 ∧ (s.thread u).unit = 0 := by
    intro u
    have hunit : (s.thread u).unit = 0 := by
      unfold Thread.unit
      split
      · rename_i hplace
        exact absurd hplace (hthreads u).2
      · rename_i throws hplace
        exact absurd hplace (hdone u throws)
      · rfl
    have hle := (h.lawful u).le.1
    rw [(hthreads u).1, hunit] at hle
    exact ⟨Nat.le_zero.mp hle, hunit⟩
  have hcount := h.work
  rw [Finset.sum_eq_zero fun u _ => by rw [(hthread u).1]; rfl,
    Finset.sum_eq_zero fun u _ => by rw [(hthreads u).1, (hthread u).2]; rfl, hshared] at hcount
  simp only [List.length_nil] at hcount
  omega

/-! ## Staying -/

variable [DecidableEq ι] {t : ι} {th : Thread}

theorem goesOn_act {l : Label ι} {r : State ι × Thread} (h : act s th l = some r)
    (hl : Busy s l) (hstopped : s.stopped = false) (hcall : th.call ≠ .stop)
    (hpos : s.outstandingWork ≠ 0) (hpos' : r.1.outstandingWork ≠ 0) : GoesOn th r := by
  have hsame : ∀ call, call ≠ .stop → GoesOn th (s, { th with call := call }) :=
    fun _ hne => ⟨hstopped, hne, id⟩
  cases l with
  | initTask u =>
    simp only [act] at h
    split_ifs at h
    · obtain rfl := Option.some.inj h
      exact ⟨hstopped, hcall, id⟩
    · obtain rfl := Option.some.inj h
      exact goesOn_wakeOne (s := pushTask { s with hasTask := true }) hstopped
  | run u once =>
    simp only [act] at h
    split_ifs at h with hgo
    obtain rfl := Option.some.inj h
    exact ⟨hstopped, hcall, fun hin => absurd hgo.2 hin.2.1⟩
  | post u n isContinuation =>
    simp only [act] at h
    split_ifs at h
    · obtain rfl := Option.some.inj h
      exact ⟨hstopped, hcall, id⟩
    · obtain rfl := Option.some.inj h
      exact ⟨hstopped, by simp, id⟩
  | dispatch u =>
    simp only [act] at h
    split_ifs at h
    obtain rfl := Option.some.inj h
    exact ⟨hstopped, by simp, id⟩
  | start u =>
    simp only [act] at h
    split_ifs at h
    obtain rfl := Option.some.inj h
    exact ⟨hstopped, hcall, id⟩
  | cancel u ids =>
    simp only [act] at h
    split_ifs at h
    obtain rfl := Option.some.inj h
    exact goesOn_postDeferred ids _ _ hstopped hcall
  | workStarted u =>
    simp only [act] at h
    split_ifs at h
    obtain rfl := Option.some.inj h
    exact ⟨hstopped, hcall, id⟩
  | workFinished u =>
    simp only [act] at h
    by_cases hgo : th.inUserCode = true ∧ 0 < s.guards
    · rw [if_pos hgo] at h
      obtain rfl := Option.some.inj h
      refine ⟨hstopped, ?_, id⟩
      dsimp only at hpos' ⊢
      rw [if_neg hpos']
      simp
    · rw [if_neg hgo] at h
      exact absurd h (by simp)
  | stop u => exact hl.2.elim
  | restart u =>
    simp only [act] at h
    split_ifs at h
    obtain rfl := Option.some.inj h
    exact ⟨rfl, hcall, id⟩
  | lock u => exact goesOn_locked (locked_cases h) hstopped hcall
  | signal u target =>
    rcases (act_signal h).2 with ⟨v, -, rfl⟩ | ⟨-, rfl⟩ <;> exact ⟨hstopped, by simp, id⟩
  | spurious u =>
    simp only [act] at h
    split_ifs at h
    obtain rfl := Option.some.inj h
    refine ⟨hstopped, ?_, Thread.InRun.wake⟩
    rw [(wake_same th).2.2.2]
    exact hcall
  | taskReturns u ops reported =>
    simp only [act] at h
    split at h
    · rename_i hidle hplace
      split_ifs at h
      obtain rfl := Option.some.inj h
      exact ⟨hstopped, hcall, fun hin => ⟨hin.1, by simp, by simp, by simp⟩⟩
    · exact absurd h (by simp)
  | performIo u ids =>
    simp only [act] at h
    by_cases hgo : th.call = .idle ∧ th.place = .descriptor ∧ ids.Subperm s.pending
    · rw [if_pos hgo] at h
      cases ids with
      | nil =>
        obtain rfl := Option.some.inj h
        exact ⟨hstopped, hcall, fun hin => ⟨hin.1, by simp, by simp, by simp⟩⟩
      | cons id ids =>
        obtain rfl := Option.some.inj h
        obtain ⟨hafter, hnext, hrun⟩ := goesOn_postDeferred ids
          { s with pending := s.pending.diff (id :: ids), inlined := s.inlined ++ [id] }
          { th with place := .handler } hstopped hcall
        exact ⟨hafter, hnext, fun hin => hrun ⟨hin.1, by simp, by simp, by simp⟩⟩
    · rw [if_neg hgo] at h
      exact absurd h (by simp)
  | finish u =>
    simp only [act] at h
    split_ifs at h
    obtain rfl := Option.some.inj h
    exact ⟨hstopped, hcall, fun hin => ⟨hin.1, by simp, by simp, by simp⟩⟩
  | throw u => exact hl.2.elim
  | cleanup u =>
    simp only [act] at h
    split at h
    · rename_i throws hidle hplace
      obtain rfl := Option.some.inj h
      exact goesOn_workCleanup hstopped hidle hplace hpos'
    · exact absurd h (by simp)

/-- Nobody has stopped the scheduler, or is about to. -/
def Unstopped (s : State ι) : Prop :=
  s.stopped = false ∧ ∀ u, (s.thread u).call ≠ .stop

instance (s : State ι) : Decidable (Unstopped s) := inferInstanceAs (Decidable (_ ∧ _))

theorem step_unstopped {l : Label ι} {s' : State ι} (h : Counted s) (hs : step s l = some s')
    (hl : Busy s l) (hgo : Unstopped s) (hwork : HasWork s') :
    Unstopped s' ∧ ∀ u, (s.thread u).InRun → (s'.thread u).InRun := by
  have hpos' := (h.step hs).pos hwork
  obtain ⟨r, hr, rfl⟩ := Option.map_eq_some_iff.mp hs
  obtain ⟨hstopped, hcall, hrun⟩ := goesOn_act hr hl hgo.1 (hgo.2 l.thread) (h.pos hl.1).ne'
    (show r.1.outstandingWork ≠ 0 from hpos'.ne')
  refine ⟨⟨hstopped, ?_⟩, ?_⟩
  · intro u
    show ((setThread l.thread r.2 r.1).thread u).call ≠ .stop
    rw [thread_setThread]
    split_ifs with hu
    · exact hcall
    · rcases thread_act hr u with heq | heq
      · rw [heq]
        exact hgo.2 u
      · rw [heq, (wake_same _).2.2.2]
        exact hgo.2 u
  · intro u hin
    show ((setThread l.thread r.2 r.1).thread u).InRun
    rw [thread_setThread]
    split_ifs with hu
    · exact hrun (hu ▸ hin)
    · rcases thread_act hr u with heq | heq
      · rw [heq]
        exact hin
      · rw [heq]
        exact hin.wake

/-- **Staying.** In every run from a state in which nobody has stopped the scheduler, as long as
there is work to do, and nobody calls `stop` and no handler throws: the scheduler is not stopped, and
the threads that are in `run` stay there. -/
theorem stays_while_work {oneThread : Bool} {ls ls' : List (Label ι)} {s' : State ι}
    (h : Run step Any (initial oneThread) ls s) (hgo : Unstopped s) (hthen : Run step Busy s ls' s')
    (hwork : HasWork s') :
    s'.stopped = false ∧ ∀ u, (s.thread u).InRun → (s'.thread u).InRun := by
  obtain ⟨-, hkept⟩ := hthen.invariant
    (I := fun t => Counted t ∧ (HasWork t → Unstopped t ∧
      ∀ u, (s.thread u).InRun → (t.thread u).InRun))
    ⟨counted_of_run h, fun _ => ⟨hgo, fun _ => id⟩⟩
    (by
      rintro t l t' ⟨ht, hbefore⟩ hl hs
      refine ⟨ht.step hs, ?_⟩
      intro hmore
      obtain ⟨hunstopped, hin⟩ := hbefore hl.1
      obtain ⟨hunstopped', hin'⟩ := step_unstopped ht hs hl hunstopped hmore
      exact ⟨hunstopped', fun u hu => hin' u (hin u hu)⟩)
  exact ⟨(hkept hwork).1.1, (hkept hwork).2⟩

/-- A handler is run by a thread that waits, which then waits again. -/
theorem stays_while_work_someRun :
    let s := reached step Any (initial false)
      ([.workStarted 0, .run 1 false, .lock 1] : List (Label (Fin 2)))
    let s' := reached step Busy s [.post 0 1 false, .lock 0, .signal 0 (some 1), .lock 1, .finish 1,
      .cleanup 1, .lock 1]
    s'.stopped = false ∧ ∀ u, (s.thread u).InRun → (s'.thread u).InRun :=
  stays_while_work (run_reached (by decide +kernel)) (by decide +kernel)
    (run_reached (by decide +kernel)) (by decide +kernel)

/-! ## Leaving -/

theorem ends_act {l : Label ι} {r : State ι × Thread} (h : act s th l = some r)
    (hnonneg : 0 ≤ s.outstandingWork) : Ends s th r := by
  cases l with
  | initTask u =>
    simp only [act] at h
    split_ifs at h with huser
    · obtain rfl := Option.some.inj h
      exact .of_user huser Or.inl rfl
    · obtain rfl := Option.some.inj h
      refine .of_user huser ?_ rfl
      rw [outstandingWork_wakeOne]
      exact Or.inl
  | run u once =>
    simp only [act] at h
    split_ifs at h with hgo hzero
    · obtain rfl := Option.some.inj h
      exact ⟨fun _ => Or.inl rfl, Or.inl, fun _ hout => hout⟩
    · obtain rfl := Option.some.inj h
      exact ⟨fun hstop => absurd (hgo.1.symm.trans hstop) (by simp), Or.inl,
        fun hzero' => absurd hzero' hzero⟩
  | post u n isContinuation =>
    simp only [act] at h
    split_ifs at h with huser
    · obtain rfl := Option.some.inj h
      exact .of_user huser Or.inl rfl
    · obtain rfl := Option.some.inj h
      refine .of_user huser ?_ rfl
      dsimp only
      exact fun hzero => Or.inl (by omega)
  | dispatch u =>
    simp only [act] at h
    split_ifs at h with huser
    obtain rfl := Option.some.inj h
    refine .of_user huser ?_ rfl
    dsimp only
    exact fun hzero => Or.inl (by omega)
  | start u =>
    simp only [act] at h
    split_ifs at h with huser
    obtain rfl := Option.some.inj h
    refine .of_user huser ?_ rfl
    dsimp only
    exact fun hzero => Or.inl (by omega)
  | cancel u ids =>
    simp only [act] at h
    split_ifs at h with huser
    obtain rfl := Option.some.inj h
    obtain ⟨th', heq, -, -, hplace⟩ := exists_postDeferred ids
      { s with pending := s.pending.diff ids } _ (Thread.inUserCode.away huser.1).1
    rw [heq]
    exact .of_user huser.1 Or.inl hplace
  | workStarted u =>
    simp only [act] at h
    split_ifs at h with huser
    obtain rfl := Option.some.inj h
    refine .of_user huser ?_ rfl
    dsimp only
    exact fun hzero => Or.inl (by omega)
  | workFinished u =>
    simp only [act] at h
    by_cases hgo : th.inUserCode = true ∧ 0 < s.guards
    · rw [if_pos hgo] at h
      obtain rfl := Option.some.inj h
      refine .of_user hgo.1 ?_ rfl
      intro hzero
      exact Or.inr (if_pos hzero)
    · rw [if_neg hgo] at h
      exact absurd h (by simp)
  | stop u =>
    simp only [act] at h
    split_ifs at h with huser
    obtain rfl := Option.some.inj h
    exact .of_user huser Or.inl rfl
  | restart u =>
    simp only [act] at h
    split_ifs at h with huser
    obtain rfl := Option.some.inj h
    exact .of_user huser Or.inl rfl
  | lock u => exact ends_locked (locked_cases h) hnonneg
  | signal u target =>
    obtain ⟨hcall, htarget⟩ := act_signal h
    have hnot : th.call ≠ .stop := by rw [hcall]; simp
    rcases htarget with ⟨v, -, rfl⟩ | ⟨-, rfl⟩
    · exact ⟨fun hstop => absurd hstop hnot, Or.inl, fun _ hout => hout⟩
    · exact ⟨fun hstop => absurd hstop hnot, Or.inl, fun _ hout => hout⟩
  | spurious u =>
    simp only [act] at h
    split_ifs at h with hblocked
    obtain rfl := Option.some.inj h
    refine ⟨?_, Or.inl, fun _ hout => absurd (hblocked.symm.trans hout) (by simp)⟩
    rw [(wake_same th).2.2.2]
    exact Or.inl
  | taskReturns u ops reported =>
    simp only [act] at h
    split at h
    · rename_i hidle hplace
      split_ifs at h
      obtain rfl := Option.some.inj h
      exact .of_inside hidle (by rw [hplace]; simp) hnonneg (le_refl _)
    · exact absurd h (by simp)
  | performIo u ids =>
    simp only [act] at h
    by_cases hgo : th.call = .idle ∧ th.place = .descriptor ∧ ids.Subperm s.pending
    · rw [if_pos hgo] at h
      have hout : th.place ≠ .outside := by rw [hgo.2.1]; simp
      cases ids with
      | nil =>
        obtain rfl := Option.some.inj h
        exact .of_inside hgo.1 hout hnonneg (le_refl _)
      | cons id ids =>
        obtain rfl := Option.some.inj h
        obtain ⟨th', heq, -, -, -⟩ := exists_postDeferred ids
          { s with pending := s.pending.diff (id :: ids), inlined := s.inlined ++ [id] }
          { th with place := .handler } hgo.1
        rw [heq]
        exact .of_inside hgo.1 hout hnonneg (le_refl _)
    · rw [if_neg hgo] at h
      exact absurd h (by simp)
  | finish u =>
    simp only [act] at h
    split_ifs at h with hgo
    obtain rfl := Option.some.inj h
    exact .of_inside hgo.1 (by rw [hgo.2]; simp) hnonneg (le_refl _)
  | throw u =>
    simp only [act] at h
    split_ifs at h with hgo
    obtain rfl := Option.some.inj h
    exact .of_inside hgo.1 (by rw [hgo.2]; simp) hnonneg (le_refl _)
  | cleanup u =>
    simp only [act] at h
    split at h
    · rename_i throws hidle hplace
      obtain rfl := Option.some.inj h
      exact ends_workCleanup hidle hplace hnonneg
    · exact absurd h (by simp)

/-- If there is nothing left to do, the threads that run the scheduler will be told. -/
def Ended (s : State ι) : Prop :=
  s.outstandingWork = 0 → (∃ u, (s.thread u).place ≠ .outside) →
    s.stopped = true ∨ ∃ u, (s.thread u).call = .stop

theorem step_ended {l : Label ι} {s' : State ι} (h : Counted s) (hended : Ended s)
    (hl : l.isRestart = false) (hs : step s l = some s') : Ended s' := by
  have hkeep : s.stopped = true → s'.stopped = true := fun hstop => (step_stopped hstop hl hs).1
  obtain ⟨r, hr, rfl⟩ := Option.map_eq_some_iff.mp hs
  have hends := ends_act hr h.nonneg
  intro hzero hin
  have hself : (setThread l.thread r.2 r.1).thread l.thread = r.2 := by
    rw [thread_setThread, if_pos rfl]
  have hother : ∀ u, u ≠ l.thread →
      (setThread l.thread r.2 r.1).thread u = s.thread u ∨
      (setThread l.thread r.2 r.1).thread u = (s.thread u).wake := by
    intro u hu
    rw [thread_setThread, if_neg hu]
    exact thread_act hr u
  rcases hends.zero hzero with hbefore | hcall
  · have hinside : ∃ u, (s.thread u).place ≠ .outside := by
      obtain ⟨u, hu⟩ := hin
      refine ⟨u, ?_⟩
      intro hout
      by_cases hul : u = l.thread
      · subst hul
        exact hu (by
          show ((setThread l.thread r.2 r.1).thread l.thread).place = .outside
          rw [hself]
          exact hends.outside hzero hout)
      · refine hu ?_
        show ((setThread l.thread r.2 r.1).thread u).place = .outside
        rcases hother u hul with heq | heq
        · rw [heq]
          exact hout
        · rw [heq, Thread.wake, if_neg (by rw [hout]; simp)]
          exact hout
    rcases hended hbefore hinside with hstop | ⟨v, hv⟩
    · exact Or.inl (hkeep hstop)
    · by_cases hvl : v = l.thread
      · subst hvl
        rcases hends.stop hv with hcall | hstop
        · refine Or.inr ⟨l.thread, ?_⟩
          show ((setThread l.thread r.2 r.1).thread l.thread).call = .stop
          rw [hself]
          exact hcall
        · exact Or.inl hstop
      · refine Or.inr ⟨v, ?_⟩
        show ((setThread l.thread r.2 r.1).thread v).call = .stop
        rcases hother v hvl with heq | heq
        · rw [heq]
          exact hv
        · rw [heq, (wake_same _).2.2.2]
          exact hv
  · refine Or.inr ⟨l.thread, ?_⟩
    show ((setThread l.thread r.2 r.1).thread l.thread).call = .stop
    rw [hself]
    exact hcall

/-- **Leaving.** In every run without `restart`: if there is no work to do, and no thread has just
done some, but a thread runs the scheduler, then the scheduler has been stopped, or some thread is
about to stop it. -/
theorem ends_without_work {oneThread : Bool} {ls : List (Label ι)}
    (h : Run step (fun _ l => l.isRestart = false) (initial oneThread) ls s) (hnone : ¬ HasWork s)
    (hdone : ∀ u throws, (s.thread u).place ≠ .cleanup throws)
    (hin : ∃ u, (s.thread u).place ≠ .outside) :
    s.stopped = true ∨ ∃ u, (s.thread u).call = .stop := by
  obtain ⟨hcounted, hended⟩ := h.invariant (I := fun s => Counted s ∧ Ended s)
    ⟨counted_initial oneThread, fun _ hin => by simp [initial] at hin⟩
    fun s l s' hI hl hs => ⟨hI.1.step hs, step_ended hI.1 hI.2 hl hs⟩
  exact hended (hcounted.zero hnone hdone) hin

/-- The only handler has returned. -/
theorem ends_without_work_someRun :
    let s := reached step (fun _ l => l.isRestart = false) (initial false)
      ([.post 0 1 false, .lock 0, .run 1 false, .lock 1, .finish 1, .cleanup 1] :
        List (Label (Fin 2)))
    s.stopped = true ∨ ∃ u, (s.thread u).call = .stop := by
  refine ends_without_work (run_reached (by decide +kernel)) (by decide +kernel) ?_ ⟨1, ?_⟩
  · intro u throws
    fin_cases u <;> cases throws <;> decide +kernel
  · decide +kernel

end AsioLearn.Detail.Scheduler
