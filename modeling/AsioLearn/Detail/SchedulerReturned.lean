import AsioLearn.Detail.SchedulerWork

/-!
# The reactor may use its descriptors again

The `run` of the reactor returns descriptors as operations, each with the events that have been
reported for it, and overwrites these events when it runs again.

* `dequeued_before_task`: when the task runs, the descriptors it has returned before have been
  dequeued.
-/

namespace AsioLearn.Detail.Scheduler

open Lts

/-- The task is behind every descriptor. -/
def Ahead : List Item → Prop
  | [] => True
  | .op .descriptor :: items => .task ∈ items ∧ Ahead items
  | _ :: items => Ahead items

theorem Ahead.tail {item : Item} {items : List Item} (h : Ahead (item :: items)) : Ahead items := by
  match item with
  | .task => exact h
  | .op .descriptor => exact h.2
  | .op (.handler _) => exact h

theorem Ahead.append {items items' : List Item} (h : Ahead items) (h' : Ahead items') :
    Ahead (items ++ items') := by
  induction items with
  | nil => exact h'
  | cons item items ih =>
    match item with
    | .task => exact ih h
    | .op .descriptor => exact ⟨List.mem_append_left _ h.1, ih h.2⟩
    | .op (.handler _) => exact ih h

theorem ahead_map {ops : List Op} (h : .descriptor ∉ ops) : Ahead (ops.map .op) := by
  induction ops with
  | nil => trivial
  | cons o ops ih =>
    have htail := ih fun hmem => h (List.mem_cons_of_mem _ hmem)
    cases o with
    | handler _ => exact htail
    | descriptor => exact absurd List.mem_cons_self h

/-- `task_cleanup` puts the task behind what it has returned. -/
theorem ahead_map_task (ops : List Op) : Ahead (ops.map .op ++ [.task]) := by
  induction ops with
  | nil => trivial
  | cons o ops ih =>
    cases o with
    | handler _ => exact ih
    | descriptor => exact ⟨List.mem_append_right _ (List.mem_singleton_self _), ih⟩

/-- Where the task is not in the queue, no descriptor is. -/
theorem Ahead.not_mem {items : List Item} (h : Ahead items) (htask : Item.task ∉ items) :
    Item.op .descriptor ∉ items := by
  induction items with
  | nil => simp
  | cons item items ih =>
    have htail := ih h.tail fun hmem => htask (List.mem_cons_of_mem _ hmem)
    match item with
    | .task => exact absurd List.mem_cons_self htask
    | .op .descriptor => exact absurd (List.mem_cons_of_mem _ h.1) htask
    | .op (.handler _) => simpa using htail

/-- The thread has no descriptors, unless it has just left the task. -/
structure Thread.Tidy (th : Thread) : Prop where
  queue : th.place ≠ .taskDone → .descriptor ∉ th.privateQueue
  call : ∀ ops, th.call = .push ops → .descriptor ∉ ops

theorem not_mem_map_handler (ids : List ℕ) : Op.descriptor ∉ ids.map Op.handler := by simp

section

variable {ι : Type*} {s : State ι} {th : Thread}

theorem Thread.Tidy.wake (h : th.Tidy) : th.wake.Tidy := by
  unfold Thread.wake
  split_ifs with hplace
  · exact ⟨fun _ => h.queue (by rw [hplace]; simp), h.call⟩
  · exact h

/-- A thread that has the task neither before nor after. -/
theorem Thread.Tidy.move {th' : Thread} (h : th.Tidy) (hplace : th.place ≠ .taskDone)
    (hqueue : th'.privateQueue = th.privateQueue) (hcall : ∀ ops, th'.call ≠ .push ops) :
    th'.Tidy :=
  ⟨fun _ => hqueue ▸ h.queue hplace, fun ops hpush => absurd hpush (hcall ops)⟩

theorem ahead_doRunOne (h : Ahead s.opQueue) (hqueue : .descriptor ∉ th.privateQueue)
    (hcall : th.call = .idle) :
    Ahead (doRunOne s th).1.opQueue ∧ (doRunOne s th).2.Tidy := by
  have hran := doRunOne_cases s th
  generalize doRunOne s th = r at hran
  have hidle : ∀ ops, th.call ≠ .push ops := by simp [hcall]
  cases hran with
  | stopped _ => exact ⟨h, fun _ => hqueue, fun ops hpush => absurd hpush (hidle ops)⟩
  | empty _ _ => exact ⟨h, fun _ => hqueue, fun ops hpush => absurd hpush (hidle ops)⟩
  | task ops _ hfront _ =>
    exact ⟨(hfront ▸ h).tail, fun _ => hqueue, fun ops hpush => absurd hpush (hidle ops)⟩
  | taskMore ops _ hfront _ _ =>
    refine ⟨(hfront ▸ h).tail, fun _ => hqueue, ?_⟩
    intro ops hpush
    dsimp only at hpush
    split_ifs at hpush
  | op o ops _ hfront _ =>
    exact ⟨(hfront ▸ h).tail, fun _ => hqueue, fun ops hpush => absurd hpush (hidle ops)⟩
  | opMore o ops _ hfront _ _ =>
    rw [wakeOneThreadAndUnlock_eq]
    have htail : Ahead ops := (hfront ▸ h).tail
    split_ifs
    · exact ⟨htail, fun _ => hqueue, by simp⟩
    · exact ⟨htail, fun _ => hqueue, by simp⟩

theorem tidy_postDeferred (ids : List ℕ) (h : th.Tidy) (hplace : th.place ≠ .taskDone) :
    (postDeferred ids s th).1 = s ∧ (postDeferred ids s th).2.Tidy := by
  unfold postDeferred
  split_ifs
  · exact ⟨rfl, h⟩
  · refine ⟨rfl, ?_, h.call⟩
    intro _ hmem
    rcases List.mem_append.mp hmem with hmem | hmem
    · exact h.queue hplace hmem
    · exact not_mem_map_handler ids hmem
  · refine ⟨rfl, h.queue, ?_⟩
    rintro ops hpush
    obtain rfl := Call.push.inj hpush
    exact not_mem_map_handler ids

theorem ahead_locked {r : State ι × Thread} (h : Ahead s.opQueue) (ht : th.Tidy)
    (hr : Locked s th r) : Ahead r.1.opQueue ∧ r.2.Tidy := by
  have hprivate : th.place ≠ .taskDone →
      Ahead (s.opQueue ++ th.privateQueue.map .op) :=
    fun hplace => h.append (ahead_map (ht.queue hplace))
  cases hr with
  | push ops hcall =>
    have hpushed := h.append (ahead_map (ht.call ops hcall))
    rw [wakeOneThreadAndUnlock_eq]
    split_ifs
    · exact ⟨hpushed, ht.queue, by simp⟩
    · exact ⟨hpushed, ht.queue, by simp⟩
  | stop hcall =>
    have hstate : (stopAllThreads s).opQueue = s.opQueue := by
      unfold stopAllThreads
      rw [interruptTask_eq]
    exact ⟨hstate ▸ h, ht.queue, by simp⟩
  | look hcall hplace =>
    exact ahead_doRunOne (hprivate (by rw [hplace]; simp)) (by simp) hcall
  | leave hcall hplace =>
    exact ⟨hprivate (by rw [hplace]; simp), by simp, by simp [hcall]⟩
  | taskDone hcall hplace =>
    refine ahead_doRunOne ?_ List.not_mem_nil hcall
    show Ahead (s.opQueue ++ th.privateQueue.map Item.op ++ [Item.task])
    rw [List.append_assoc]
    exact h.append (ahead_map_task _)
  | woken hcall hplace hsignalled =>
    exact ahead_doRunOne h (ht.queue (by rw [hplace]; simp)) hcall
  | again hcall hplace hsignalled =>
    exact ⟨h, ht.move (by rw [hplace]; simp) rfl (by simp [hcall])⟩

variable [DecidableEq ι] [Fintype ι]

theorem ahead_act {l : Label ι} {r : State ι × Thread} (h : Ahead s.opQueue) (ht : th.Tidy)
    (hr : act s th l = some r) : Ahead r.1.opQueue ∧ r.2.Tidy := by
  have haway : th.inUserCode = true → th.place ≠ .taskDone := by
    intro huser
    rcases Thread.inUserCode.place huser with hplace | hplace <;> rw [hplace] <;> simp
  have hidle : th.inUserCode = true → ∀ ops, th.call ≠ .push ops := by
    intro huser ops
    rw [(Thread.inUserCode.away huser).1]
    simp
  cases l with
  | initTask u =>
    simp only [act] at hr
    split_ifs at hr with huser htask
    · obtain rfl := Option.some.inj hr
      exact ⟨h, ht⟩
    · obtain rfl := Option.some.inj hr
      have hpushed : Ahead (s.opQueue ++ [Item.task]) := h.append trivial
      rw [wakeOneThreadAndUnlock_eq]
      split_ifs
      · exact ⟨hpushed, ht.move (haway huser) rfl (by simp)⟩
      · exact ⟨hpushed, ht.move (haway huser) rfl (by simp)⟩
  | run u once =>
    simp only [act] at hr
    split_ifs at hr with hgo hzero
    · obtain rfl := Option.some.inj hr
      exact ⟨h, ht.move (by rw [hgo.2]; simp) rfl (by simp)⟩
    · obtain rfl := Option.some.inj hr
      exact ⟨h, ht.move (by rw [hgo.2]; simp) rfl (by simp [hgo.1])⟩
  | post u n isContinuation =>
    simp only [act] at hr
    have hnew : Op.descriptor ∉ (List.range' s.nextId n).map Op.handler := not_mem_map_handler _
    split_ifs at hr with huser hprivate
    · obtain rfl := Option.some.inj hr
      refine ⟨h, ?_, fun ops hpush => absurd hpush (hidle huser ops)⟩
      intro _ hmem
      rcases List.mem_append.mp hmem with hmem | hmem
      · exact ht.queue (haway huser) hmem
      · exact hnew hmem
    · obtain rfl := Option.some.inj hr
      refine ⟨h, ht.queue, ?_⟩
      intro ops hpush
      obtain rfl := Call.push.inj hpush
      exact hnew
  | dispatch u =>
    simp only [act] at hr
    split_ifs at hr with huser
    obtain rfl := Option.some.inj hr
    refine ⟨h, ht.queue, ?_⟩
    intro ops hpush
    obtain rfl := Call.push.inj hpush
    simp
  | start u =>
    simp only [act] at hr
    split_ifs at hr with huser
    obtain rfl := Option.some.inj hr
    exact ⟨h, ht⟩
  | cancel u ids =>
    simp only [act] at hr
    split_ifs at hr with huser
    obtain rfl := Option.some.inj hr
    obtain ⟨hstate, htidy⟩ := tidy_postDeferred (s := { s with pending := s.pending.diff ids })
      ids ht (haway huser.1)
    rw [hstate]
    exact ⟨h, htidy⟩
  | workStarted u =>
    simp only [act] at hr
    split_ifs at hr with huser
    obtain rfl := Option.some.inj hr
    exact ⟨h, ht⟩
  | workFinished u =>
    simp only [act] at hr
    by_cases huser : th.inUserCode ∧ 0 < s.guards
    · rw [if_pos huser] at hr
      obtain rfl := Option.some.inj hr
      refine ⟨h, ht.move (haway huser.1) rfl ?_⟩
      intro ops
      dsimp only
      split_ifs <;> simp
    · rw [if_neg huser] at hr
      exact absurd hr (by simp)
  | stop u =>
    simp only [act] at hr
    split_ifs at hr with huser
    obtain rfl := Option.some.inj hr
    exact ⟨h, ht.move (haway huser) rfl (by simp)⟩
  | restart u =>
    simp only [act] at hr
    split_ifs at hr with huser
    obtain rfl := Option.some.inj hr
    exact ⟨h, ht⟩
  | lock u => exact ahead_locked h ht (locked_cases hr)
  | signal u target =>
    obtain ⟨hcall, ⟨v, -, rfl⟩ | ⟨-, rfl⟩⟩ := act_signal hr
    · exact ⟨h, ht.queue, by simp⟩
    · exact ⟨h, ht.queue, by simp⟩
  | spurious u =>
    simp only [act] at hr
    split_ifs at hr with hblocked
    obtain rfl := Option.some.inj hr
    exact ⟨h, ht.wake⟩
  | taskReturns u ops reported =>
    simp only [act] at hr
    split at hr
    · rename_i hcall hplace
      split_ifs at hr
      obtain rfl := Option.some.inj hr
      exact ⟨h, fun habsurd => absurd rfl habsurd, by simp [hcall]⟩
    · exact absurd hr (by simp)
  | performIo u ids =>
    simp only [act] at hr
    by_cases hgo : th.call = .idle ∧ th.place = .descriptor ∧ ids.Subperm s.pending
    · rw [if_pos hgo] at hr
      have hhandler : ∀ place, ({ th with place := place } : Thread).Tidy := fun _ =>
        ht.move (by rw [hgo.2.1]; simp) rfl (by simp [hgo.1])
      cases ids with
      | nil =>
        obtain rfl := Option.some.inj hr
        exact ⟨h, (hhandler (.cleanup false)).move (by simp) rfl (by simp [hgo.1])⟩
      | cons id ids =>
        obtain rfl := Option.some.inj hr
        obtain ⟨hstate, htidy⟩ := tidy_postDeferred (s := { s with
          pending := s.pending.diff (id :: ids), inlined := s.inlined ++ [id] })
          ids (hhandler .handler) (by simp)
        rw [hstate]
        exact ⟨h, htidy⟩
    · rw [if_neg hgo] at hr
      exact absurd hr (by simp)
  | finish u =>
    simp only [act] at hr
    split_ifs at hr with hgo
    obtain rfl := Option.some.inj hr
    exact ⟨h, ht.move (by rw [hgo.2]; simp) rfl (by simp [hgo.1])⟩
  | throw u =>
    simp only [act] at hr
    split_ifs at hr with hgo
    obtain rfl := Option.some.inj hr
    exact ⟨h, ht.move (by rw [hgo.2]; simp) rfl (by simp [hgo.1])⟩
  | cleanup u =>
    simp only [act] at hr
    split at hr
    · rename_i throws hcall hplace
      obtain rfl := Option.some.inj hr
      have hqueue := ht.queue (by rw [hplace]; simp)
      unfold workCleanup
      dsimp only
      split_ifs <;> exact ⟨h, fun _ => hqueue, by simp [hcall]⟩
    · exact absurd hr (by simp)

end

/-- **Descriptors can be returned again.** While a thread runs the task, no descriptor that the task
has returned before is in the queue of the scheduler or in that of a thread, and nobody is about to
push one. -/
theorem dequeued_before_task {ι : Type*} [DecidableEq ι] [Fintype ι] {oneThread : Bool}
    {ls : List (Label ι)} {s : State ι} (h : Run step Any (initial oneThread) ls s) {t : ι}
    {block : Bool} (htask : (s.thread t).place = .task block) :
    Item.op .descriptor ∉ s.opQueue ∧ ∀ u, Op.descriptor ∉ (s.thread u).privateQueue ∧
      ∀ ops, (s.thread u).call = .push ops → Op.descriptor ∉ ops := by
  obtain ⟨horderly, hahead, htidy⟩ := h.invariant
    (I := fun s => Orderly s ∧ Ahead s.opQueue ∧ ∀ u, (s.thread u).Tidy)
    ⟨orderly_initial oneThread, trivial, fun _ => ⟨fun _ => List.not_mem_nil, by simp [initial]⟩⟩
    (by
      rintro s l s' ⟨ho, hq, ht⟩ _ hs
      obtain ⟨r, hr, rfl⟩ := Option.map_eq_some_iff.mp hs
      obtain ⟨hq', ht'⟩ := ahead_act hq (ht l.thread) hr
      refine ⟨ho.act rfl hr, hq', ?_⟩
      intro u
      rw [thread_setThread]
      split_ifs
      · exact ht'
      · rcases thread_act hr u with heq | heq
        · rw [heq]
          exact ht u
        · rw [heq]
          exact (ht u).wake)
  obtain ⟨-, hnone, honly⟩ := horderly.task.hasTask (u := t) (by rw [htask]; rfl)
  refine ⟨hahead.not_mem (List.count_eq_zero.mp hnone), ?_⟩
  intro u
  refine ⟨(htidy u).queue ?_, (htidy u).call⟩
  intro hdone
  obtain rfl := honly u (by rw [hdone]; rfl)
  exact absurd (htask.symm.trans hdone) (by simp)

/-- The task runs again, after it has returned a descriptor. -/
theorem dequeued_before_task_returnedRun :
    let s := reached step Any (initial false) ([.initTask 0, .workStarted 0, .run 1 false, .lock 1,
      .taskReturns 1 [.descriptor] false, .lock 1, .performIo 1 [], .cleanup 1, .lock 1] :
        List (Label (Fin 2)))
    Item.op .descriptor ∉ s.opQueue ∧ ∀ u, Op.descriptor ∉ (s.thread u).privateQueue ∧
      ∀ ops, (s.thread u).call = .push ops → Op.descriptor ∉ ops :=
  dequeued_before_task (t := 1) (run_reached (by decide +kernel))
    (show _ = Place.task true by decide +kernel)

end AsioLearn.Detail.Scheduler
