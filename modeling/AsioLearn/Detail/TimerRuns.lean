import AsioLearn.Detail.TimerPool

/-!
# What the timers promise

Of every run of the timers of an `io_context`:

* `completed_once`: a wait is pending on one timer, or it has been completed or abandoned, once.
* `not_early`: a wait that was not cancelled is not over before the expiry its timer had.
* `woken_in_time`: when the expiry of a timer has been over for a microsecond, the reactor runs and
  completes the waits on it.
-/

namespace AsioLearn.Detail.DeadlineTimer

open TimerQueue Lts Proactor

variable {ι : Type*}

/-- What becomes of a wait in the end. -/
theorem perm_ends (ops : List (Op (Wait ι) Outcome)) :
    ((finished completion ops ++ finished abandonment ops).map WaitOp.id).Perm
      (ops.filterMap fun op => op.result.map fun _ => op.task.id) := by
  induction ops with
  | nil => exact List.Perm.nil
  | cons op ops ih =>
    obtain ⟨k, result⟩ := op
    unfold finished at *
    cases result with
    | none => exact ih
    | some r =>
      cases r with
      | expired => exact ih.cons k.id
      | aborted => exact ih.cons k.id
      | refused => exact ih.cons k.id
      | abandoned => exact (List.perm_middle.map WaitOp.id).trans (ih.cons k.id)

theorem ends_sublist (ops : List (Op (Wait ι) Outcome)) :
    (ops.filterMap fun op => op.result.map fun _ => op.task.id).Sublist
      (ops.map fun op => op.task.id) := by
  induction ops with
  | nil => exact List.Sublist.refl _
  | cons op ops ih =>
    rw [List.filterMap_cons, List.map_cons]
    cases op.result with
    | none => exact ih.cons _
    | some r => exact ih.cons_cons _

/-! ### Sleeping -/

/-- The reactor is woken up, or it will be less than a microsecond after the first wait is over. -/
def Woken (s : State ι) : Prop :=
  ∀ first, earliest s.queue = some first →
    ∃ wake, s.wake = some wake ∧ (wake ≤ s.now.val ∨ wake < first.val + 1000)

theorem woken_initial (now : Ticks) : Woken (initial now : State ι) :=
  fun _ hfirst => absurd hfirst (by simp [initial, earliest])

/-- The reactor sleeps as before, and no timer expires at a new time. -/
structure Fewer (s s' : State ι) : Prop where
  wake : s'.wake = s.wake
  now : s'.now = s.now
  shutdown : s'.shutdown = s.shutdown
  usable : Usable s'.shutdown s'.queue
  expiries : s.shutdown = false → ∀ u x, TimerQueue.expiry s'.queue u = some x →
    ∃ v, TimerQueue.expiry s.queue v = some x

section

variable {s s' s'' : State ι}

theorem Fewer.trans (h : Fewer s s') (h' : Fewer s' s'') : Fewer s s'' where
  wake := h'.wake.trans h.wake
  now := h'.now.trans h.now
  shutdown := h'.shutdown.trans h.shutdown
  usable := h'.usable
  expiries := by
    intro hs u x hx
    obtain ⟨v, hv⟩ := h'.expiries (h.shutdown.trans hs) u x hx
    exact h.expiries hs v x hv

theorem Fewer.of_queue (h : Usable s.shutdown s.queue) (hwake : s'.wake = s.wake)
    (hnow : s'.now = s.now) (hshutdown : s'.shutdown = s.shutdown) (hqueue : s'.queue = s.queue) :
    Fewer s s' where
  wake := hwake
  now := hnow
  shutdown := hshutdown
  usable := by rwa [hshutdown, hqueue]
  expiries := by
    intro _ u x hx
    exact ⟨u, hqueue ▸ hx⟩

theorem Woken.fewer (h : Woken s) (husable : Usable s.shutdown s.queue) (hf : Fewer s s') :
    Woken s' := by
  intro first hfirst
  cases hs : s.shutdown with
  | true =>
    rw [earliest, (hf.usable.drained (hf.shutdown.trans hs)).heap] at hfirst
    exact absurd hfirst (by simp)
  | false =>
    obtain ⟨entry, hhead, hentry⟩ := Option.map_eq_some_iff.mp hfirst
    have hvalid := hf.usable.valid (hf.shutdown.trans hs)
    have hexp : TimerQueue.expiry s'.queue entry.timer = some first := by
      rw [expiry_eq_some_iff hvalid.placed, ← hentry]
      exact List.mem_of_mem_head? hhead
    obtain ⟨v, hv⟩ := hf.expiries hs _ _ hexp
    obtain ⟨entry', -, hfirst', -⟩ := exists_earliest (husable.valid hs) hv
    obtain ⟨wake, hwake, hsoon⟩ := h _ hfirst'
    have hle : entry'.time.val ≤ first.val := earliest_le (husable.valid hs) hfirst' hv
    refine ⟨wake, hf.wake.trans hwake, ?_⟩
    rw [hf.now]
    omega

theorem now_updateTimeout (h : updateTimeout s = some s') : s'.now = s.now := by
  obtain ⟨spec, -, rfl⟩ := Option.map_eq_some_iff.mp h
  rfl

/-- After `update_timeout` the reactor is woken up in time. -/
theorem woken_updateTimeout (h : updateTimeout s = some s') (hnow : 0 < s.now.val) : Woken s' := by
  obtain ⟨spec, hspec, -, -, -, -, -, hfirst⟩ := getTimeout_spec s.now s.queue
  unfold updateTimeout at h
  rw [hspec] at h
  obtain rfl := Option.some.inj h
  intro first heq
  refine ⟨_, rfl, ?_⟩
  have := hfirst first heq
  show _ ≤ s.now.val ∨ _
  omega

end

/-! ### Deadlines -/

/-- The wait with this id is over at `deadline`. -/
structure Armed (id : ℕ) (deadline : Ticks) (p : Pool ι) : Prop where
  started : id < p.ops.length
  ops : ∀ op ∈ p.ops, op.task.id = id → op.task.deadline = deadline ∧
    op.result ≠ some .refused ∧ (op.result = some .expired → deadline ≤ p.now)

theorem Armed.abort {id : ℕ} {deadline : Ticks} {p : Pool ι} (h : Armed id deadline p)
    (q : Wait ι → Bool) {r : Outcome} (hr : r ≠ .refused)
    (hover : r = .expired → ∀ k, q k = true → k.deadline ≤ p.now) :
    Armed id deadline { p with ops := abort q r p.ops } := by
  refine ⟨?_, ?_⟩
  · show id < (Proactor.abort q r p.ops).length
    rw [Proactor.abort, List.length_map]
    exact h.started
  · refine forall_abort q r h.ops ?_
    intro k hk hbefore hid
    obtain ⟨hdeadline, -, -⟩ := hbefore hid
    refine ⟨hdeadline, fun heq => hr (Option.some.inj heq), ?_⟩
    intro heq
    rw [← hdeadline]
    exact hover (Option.some.inj heq) k hk

variable [DecidableEq ι]

theorem exists_refines {now : Ticks} {ls : List (Label ι)} {s : State ι}
    (h : Run step Any (initial now) ls s) : ∃ p, Refines p s := by
  refine h.invariant (I := fun s => ∃ p, Refines p s) ⟨_, refines_initial now⟩ ?_
  rintro s l s' ⟨p, hp⟩ _ hs
  obtain ⟨p', -, hp'⟩ := refines_step hp l hs
  exact ⟨p', hp'⟩

/-! ## Each wait once -/

/-- The wait is pending on some timer. -/
def Pending (s : State ι) (id : ℕ) : Prop := ∃ timer, ∃ op ∈ s.queue.opQueue timer, op.id = id

theorem Refines.pending_iff {p : Pool ι} {s : State ι} (h : Refines p s) (id : ℕ) :
    Pending s id ↔ ∃ k, ⟨k, none⟩ ∈ p.ops ∧ k.id = id := by
  constructor
  · rintro ⟨timer, op, hop, rfl⟩
    rw [h.queues] at hop
    obtain ⟨k, hk, rfl⟩ := List.mem_map.mp hop
    exact ⟨k, (mem_waiting.mp hk).1, rfl⟩
  · rintro ⟨k, hk, rfl⟩
    refine ⟨k.timer, k.op, ?_, rfl⟩
    rw [h.queues]
    exact List.mem_map_of_mem (mem_waiting.mpr ⟨hk, decide_eq_true rfl⟩)

/-- **Once.** A wait that has been started is pending, or it has been completed or abandoned, and
that once; one that is pending is so on one timer only. -/
theorem completed_once {now : Ticks} {ls : List (Label ι)} {s : State ι}
    (h : Run step Any (initial now) ls s) :
    ((s.completed ++ s.abandoned).map WaitOp.id).Nodup ∧
      (∀ id, id ∈ (s.completed ++ s.abandoned).map WaitOp.id ↔ id < s.nextId ∧ ¬ Pending s id) ∧
      ∀ timer timer' op op', op ∈ s.queue.opQueue timer → op' ∈ s.queue.opQueue timer' →
        op.id = op'.id → timer = timer' ∧ op = op' := by
  obtain ⟨p, hp⟩ := exists_refines h
  have hperm := ((hp.completed.append hp.abandoned).map WaitOp.id).trans (perm_ends p.ops)
  have hnodup : (p.ops.map fun op => op.task.id).Nodup := by
    rw [hp.ids]
    exact List.nodup_range
  have hsame : ∀ op ∈ p.ops, ∀ op' ∈ p.ops, op.task.id = op'.task.id → op = op' :=
    fun op hop op' hop' heq => List.inj_on_of_nodup_map hnodup hop hop' heq
  refine ⟨hperm.nodup_iff.mpr (hnodup.sublist (ends_sublist p.ops)), ?_, ?_⟩
  · intro id
    rw [hperm.mem_iff, List.mem_filterMap, hp.pending_iff]
    have hstarted : id < s.nextId ↔ ∃ op ∈ p.ops, op.task.id = id := by
      rw [← List.mem_range, ← hp.ids, List.mem_map]
    rw [hstarted]
    constructor
    · rintro ⟨op, hop, hid⟩
      obtain ⟨r, hr, rfl⟩ := Option.map_eq_some_iff.mp hid
      refine ⟨⟨op, hop, rfl⟩, ?_⟩
      rintro ⟨k, hk, heq⟩
      rw [← hsame _ hk op hop heq] at hr
      exact absurd hr (by simp)
    · rintro ⟨⟨op, hop, rfl⟩, hno⟩
      refine ⟨op, hop, ?_⟩
      obtain ⟨k, result⟩ := op
      cases result with
      | none => exact absurd ⟨k, hop, rfl⟩ hno
      | some r => rfl
  · intro timer timer' op op' hop hop' heq
    rw [hp.queues] at hop hop'
    obtain ⟨k, hk, rfl⟩ := List.mem_map.mp hop
    obtain ⟨k', hk', rfl⟩ := List.mem_map.mp hop'
    obtain ⟨hk, hon⟩ := mem_waiting.mp hk
    obtain ⟨hk', hon'⟩ := mem_waiting.mp hk'
    obtain rfl : k = k' := congrArg Op.task (hsame _ hk _ hk' heq)
    simp only [onTimer, decide_eq_true_eq] at hon hon'
    exact ⟨hon.symm.trans hon', rfl⟩

/-- After some run one wait is pending. -/
theorem completed_once_someRun :
    let s := reached step Any (initial ⟨1, by decide⟩) someRun
    ((s.completed ++ s.abandoned).map WaitOp.id).Nodup ∧
      (∀ id, id ∈ (s.completed ++ s.abandoned).map WaitOp.id ↔ id < s.nextId ∧ ¬ Pending s id) ∧
      ∀ timer timer' op op', op ∈ s.queue.opQueue timer → op' ∈ s.queue.opQueue timer' →
        op.id = op'.id → timer = timer' ∧ op = op' :=
  completed_once (run_reached (by decide +kernel))

/-! ## Not too early -/

theorem Armed.step {id : ℕ} {deadline : Ticks} {p p' : Pool ι} (h : Armed id deadline p)
    (l : Label ι) (hs : p.step l = some p') : Armed id deadline p' := by
  cases l with
  | tick now =>
    simp only [Pool.step] at hs
    split_ifs at hs with hle
    obtain rfl := Option.some.inj hs
    refine ⟨h.started, ?_⟩
    intro op hop hid
    obtain ⟨hdeadline, hrefused, hover⟩ := h.ops op hop hid
    exact ⟨hdeadline, hrefused, fun he => le_trans (hover he) hle⟩
  | asyncWait timer key =>
    obtain rfl := Option.some.inj hs
    refine ⟨?_, ?_⟩
    · rw [List.length_append]
      exact Nat.lt_of_lt_of_le h.started (Nat.le_add_right ..)
    · intro op hop hid
      rcases List.mem_append.mp hop with hop | hop
      · exact h.ops op hop hid
      · rw [List.mem_singleton.mp hop] at hid
        exact absurd h.started (hid ▸ Nat.lt_irrefl _)
  | cancel timer =>
    obtain rfl := Option.some.inj hs
    exact h.abort _ (by simp) (by simp)
  | cancelOne timer =>
    obtain rfl := Option.some.inj hs
    exact h.abort _ (by simp) (by simp)
  | cancelSlot timer key =>
    obtain rfl := Option.some.inj hs
    exact h.abort _ (by simp) (by simp)
  | expiresAt timer time =>
    obtain rfl := Option.some.inj hs
    have hafter := h.abort (fun k => onTimer timer k && true) (r := .aborted) (by simp) (by simp)
    exact ⟨hafter.started, hafter.ops⟩
  | expiresAfter timer duration =>
    obtain rfl := Option.some.inj hs
    have hafter := h.abort (fun k => onTimer timer k && true) (r := .aborted) (by simp) (by simp)
    exact ⟨hafter.started, hafter.ops⟩
  | move target source =>
    simp only [Pool.step] at hs
    split_ifs at hs with hne
    obtain rfl := Option.some.inj hs
    have hafter := h.abort (fun k => onTimer target k && true) (r := .aborted) (by simp) (by simp)
    refine ⟨?_, ?_⟩
    · show id < (List.map _ _).length
      rw [List.length_map]
      exact hafter.started
    · intro op hop hid
      obtain ⟨op', hop', rfl⟩ := List.mem_map.mp hop
      have hsame : (Pool.retarget target source op').task.id = op'.task.id ∧
          (Pool.retarget target source op').task.deadline = op'.task.deadline ∧
          (Pool.retarget target source op').result = op'.result := by
        unfold Pool.retarget
        split_ifs <;> exact ⟨rfl, rfl, rfl⟩
      rw [hsame.2.1, hsame.2.2]
      exact hafter.ops op' hop' (hsame.1.symm.trans hid)
  | run | staleRun =>
    obtain rfl := Option.some.inj hs
    exact h.abort _ (by simp) fun _ k hk => of_decide_eq_true hk
  | shutdown =>
    simp only [Pool.step] at hs
    split_ifs at hs
    obtain rfl := Option.some.inj hs
    have hafter := h.abort (fun _ => true) (r := .abandoned) (by simp) (by simp)
    exact ⟨hafter.started, hafter.ops⟩

/-- **Not too early.** However a run goes on after a wait has been started, if the wait completes
without an error then the expiry that the timer had at its start is over. -/
theorem not_early {now : Ticks} {ls ls' : List (Label ι)} {s s' t : State ι} {timer : ι} {key : ℕ}
    (h : Run step Any (initial now) ls s) (hopen : s.shutdown = false)
    (hstart : step s (.asyncWait timer key) = some s') (hthen : Run step Any s' ls' t)
    {op : WaitOp} (hop : op ∈ t.completed) (hid : op.id = s.nextId) (hec : op.ec = none) :
    s.expiry timer ≤ t.now := by
  obtain ⟨p, hp⟩ := exists_refines h
  obtain ⟨p', hp', hr⟩ := refines_step hp _ hstart
  obtain rfl := Option.some.inj hp'
  have hlength : p.ops.length = s.nextId := by
    have hlen := congrArg List.length hp.ids
    rwa [List.length_map, List.length_range] at hlen
  have harmed : Armed s.nextId (s.expiry timer)
      { p with ops := p.ops ++ [⟨⟨p.ops.length, timer, p.expiry timer, key⟩,
        if p.shutdown then some .refused else none⟩] } := by
    refine ⟨?_, ?_⟩
    · rw [List.length_append, hlength]
      exact Nat.lt_succ_self _
    · intro op hop hid
      rcases List.mem_append.mp hop with hop | hop
      · have hmem : op.task.id ∈ List.range s.nextId := by
          rw [← hp.ids]
          exact List.mem_map_of_mem hop
        rw [hid] at hmem
        exact absurd (List.mem_range.mp hmem) (Nat.lt_irrefl _)
      · rw [List.mem_singleton.mp hop, hp.shutdown, hopen, hp.expiry]
        exact ⟨rfl, by simp, by simp⟩
  obtain ⟨q, hq, hrq⟩ := hthen.forward (R := Refines)
    (fun _ _ l _ hr _ hs => refines_step hr l hs) hr
  have hdone : Armed s.nextId (s.expiry timer) q :=
    hq.invariant (I := Armed s.nextId (s.expiry timer)) harmed fun _ l _ hI _ hs => hI.step l hs
  obtain ⟨⟨k, result⟩, hmem, hw⟩ := List.mem_filterMap.mp (hrq.completed.mem_iff.mp hop)
  obtain ⟨r, rfl, hk⟩ := Option.bind_eq_some_iff.mp hw
  have hkid : k.id = s.nextId := by
    cases r <;> simp only [completion, Option.some.injEq, reduceCtorEq] at hk <;> rw [← hid, ← hk] <;>
      rfl
  obtain ⟨-, hrefused, hover⟩ := hdone.ops _ hmem hkid
  rw [← hrq.now]
  cases r with
  | expired => exact hover rfl
  | aborted =>
    simp only [completion, Option.some.injEq] at hk
    rw [← hk] at hec
    exact absurd hec (by simp [WaitOp.aborted])
  | refused => exact absurd rfl hrefused
  | abandoned => exact absurd hk (by simp [completion])

/-- A wait of 50 ticks that starts at 1 is over at 51. -/
theorem not_early_someRun :
    let s := reached step Any (initial ⟨1, by decide⟩) (someRun.take 1)
    let s' := reached step Any s [.asyncWait 0 0]
    let t := reached step Any s' (someRun.drop 2 ++ [.run])
    s.expiry 0 ≤ t.now :=
  not_early (run_reached (by decide +kernel)) (by decide +kernel)
    (run_reached (by decide +kernel)).step_eq
    (run_reached (by decide +kernel)) (show { id := 0 } ∈ _ by decide +kernel)
    (by decide +kernel) rfl

/-! ## Not too late -/

section

variable {s s' : State ι}

theorem Changes.fewer {timer : ι} {left : List WaitOp}
    (h : Changes s.shutdown timer left s.queue s'.queue) (hwake : s'.wake = s.wake)
    (hnow : s'.now = s.now) (hshutdown : s'.shutdown = s.shutdown) : Fewer s s' where
  wake := hwake
  now := hnow
  shutdown := hshutdown
  usable := by
    rw [hshutdown]
    exact h.usable
  expiries := by
    intro hs u x hx
    rw [h.expiries hs] at hx
    split_ifs at hx
    exact ⟨u, hx⟩

theorem fewer_cancelTimer (h : Usable s.shutdown s.queue) (timer : ι) (maxCancelled : Option ℕ) :
    Fewer s (cancelTimer timer maxCancelled s).2 :=
  (cancelTimer_changes h timer maxCancelled).2.2.fewer rfl rfl rfl

theorem fewer_cancel (h : Usable s.shutdown s.queue) (timer : ι) : Fewer s (cancel timer s).2 := by
  unfold cancel
  split_ifs
  · have hf := fewer_cancelTimer h timer none
    exact hf.trans (Fewer.of_queue hf.usable rfl rfl rfl rfl)
  · exact Fewer.of_queue h rfl rfl rfl rfl

theorem fewer_cancelOne (h : Usable s.shutdown s.queue) (timer : ι) :
    Fewer s (cancelOne timer s).2 := by
  unfold cancelOne
  split_ifs
  · have hf := fewer_cancelTimer h timer (some 1)
    refine hf.trans (Fewer.of_queue hf.usable ?_ ?_ ?_ ?_) <;> dsimp only <;> split_ifs <;> rfl
  · exact Fewer.of_queue h rfl rfl rfl rfl

theorem fewer_expiresAt (h : Usable s.shutdown s.queue) (timer : ι) (time : Ticks) :
    Fewer s (expiresAt timer time s).2 := by
  have hf := fewer_cancel h timer
  exact hf.trans (Fewer.of_queue hf.usable rfl rfl rfl rfl)

theorem fewer_moveImpl {p : Pool ι} (h : Refines p s) {target source : ι} (hne : target ≠ source) :
    Fewer s (moveImpl target source s) := by
  have hf := fewer_cancelTimer h.sound.usable target none
  have hempty := (refines_cancelAll h target).2.1
  have hmoved := moveTimer_usable hf.usable hne hempty
  refine hf.trans ⟨rfl, rfl, rfl, hmoved, ?_⟩
  intro hs u x hx
  replace hx : TimerQueue.expiry
    (TimerQueue.moveTimer target source (cancelTimer target none s).2.queue) u = some x := hx
  rw [(moveTimer_spec (hf.usable.valid hs) hne hempty).2.2] at hx
  split_ifs at hx
  · exact ⟨source, hx⟩
  · exact ⟨u, hx⟩

theorem runReactor_spec (s : State ι) : ∃ s', runReactor s = some s' ∧
    s'.queue = (getReadyTimers s.now [] s.queue).2 ∧
    s'.completed = s.completed ++ (getReadyTimers s.now [] s.queue).1 := by
  obtain ⟨spec, hspec, -⟩ := getTimeout_spec s.now (getReadyTimers s.now [] s.queue).2
  refine ⟨{ s with
    queue := (getReadyTimers s.now [] s.queue).2
    completed := s.completed ++ (getReadyTimers s.now [] s.queue).1
    wake := some (spec.wakeTime s.now) }, ?_, rfl, rfl⟩
  unfold runReactor updateTimeout
  dsimp only
  rw [hspec]
  rfl

theorem Woken.step {p : Pool ι} (hp : Refines p s) (hnow : 0 < s.now.val) (h : Woken s)
    (l : Label ι) (hs : step s l = some s') : 0 < s'.now.val ∧ Woken s' := by
  have husable := hp.sound.usable
  have hcut : ∀ {t : State ι}, Fewer s t → 0 < t.now.val ∧ Woken t :=
    fun hf => ⟨hf.now ▸ hnow, h.fewer husable hf⟩
  cases l with
  | tick now =>
    simp only [DeadlineTimer.step] at hs
    split_ifs at hs with hle
    obtain rfl := Option.some.inj hs
    have hlater : s.now.val ≤ now.val := hle
    refine ⟨lt_of_lt_of_le hnow hlater, ?_⟩
    intro first hfirst
    obtain ⟨wake, hwake, hsoon⟩ := h first hfirst
    refine ⟨wake, hwake, ?_⟩
    show wake ≤ now.val ∨ _
    omega
  | asyncWait timer key =>
    replace hs : asyncWait timer key s = some s' := hs
    unfold asyncWait scheduleTimer at hs
    dsimp only [setMightHave] at hs
    by_cases hshutdown : s.shutdown = true
    · rw [if_pos hshutdown] at hs
      obtain rfl := Option.some.inj hs
      exact hcut (Fewer.of_queue husable rfl rfl rfl rfl)
    · rw [if_neg hshutdown] at hs
      by_cases hearliest : (enqueueTimer (s.expiry timer) timer
          { id := s.nextId, cancellationKey := key } s.queue).1 = true
      · rw [if_pos hearliest] at hs
        exact ⟨now_updateTimeout hs ▸ hnow, woken_updateTimeout hs hnow⟩
      · rw [if_neg hearliest] at hs
        obtain rfl := Option.some.inj hs
        have hvalid := husable.valid (Bool.eq_false_iff.mpr hshutdown)
        refine ⟨hnow, ?_⟩
        intro first hfirst
        have hsame := earliest_enqueueTimer (s.expiry timer) timer
          { id := s.nextId, cancellationKey := key } hvalid
          (Bool.eq_false_iff.mpr hearliest)
        exact h first (hsame ▸ hfirst)
  | cancel timer =>
    obtain rfl := Option.some.inj hs
    exact hcut (fewer_cancel husable timer)
  | cancelOne timer =>
    obtain rfl := Option.some.inj hs
    exact hcut (fewer_cancelOne husable timer)
  | cancelSlot timer key =>
    obtain rfl := Option.some.inj hs
    exact hcut ((cancelTimerByKey_changes husable timer key).2.fewer rfl rfl rfl)
  | expiresAt timer time =>
    obtain rfl := Option.some.inj hs
    exact hcut (fewer_expiresAt husable timer time)
  | expiresAfter timer duration =>
    simp only [DeadlineTimer.step, expiresAfter, add_eq, Option.map_some] at hs
    obtain rfl := Option.some.inj hs
    exact hcut (fewer_expiresAt husable timer _)
  | move target source =>
    simp only [DeadlineTimer.step] at hs
    split_ifs at hs with hne
    obtain rfl := Option.some.inj hs
    exact hcut (fewer_moveImpl hp hne)
  | run =>
    simp only [DeadlineTimer.step] at hs
    split at hs
    · split_ifs at hs with hready
      unfold runReactor at hs
      exact ⟨now_updateTimeout hs ▸ hnow, woken_updateTimeout hs hnow⟩
    · exact absurd hs (by simp)
  | staleRun =>
    simp only [DeadlineTimer.step] at hs
    split_ifs at hs
    unfold runReactor at hs
    exact ⟨now_updateTimeout hs ▸ hnow, woken_updateTimeout hs hnow⟩
  | shutdown =>
    simp only [DeadlineTimer.step] at hs
    split_ifs at hs
    obtain rfl := Option.some.inj hs
    refine ⟨hnow, ?_⟩
    intro first hfirst
    exact absurd hfirst (by simp [shutdownReactor, getAllTimers, earliest])

end

/-- When a timer expired a microsecond ago, the reactor runs and completes the waits on it. -/
theorem exists_run {p : Pool ι} {s : State ι} {timer : ι} (hwoken : Woken s) (hp : Refines p s)
    (hopen : s.shutdown = false) (hwaits : s.queue.opQueue timer ≠ [])
    (hover : (s.expiry timer).val + 1000 ≤ s.now.val) :
    ∃ s', step s .run = some s' ∧ s'.queue.opQueue timer = [] ∧
      ∀ op ∈ s.queue.opQueue timer, op.expired ∈ s'.completed := by
  have hvalid := hp.sound.usable.valid hopen
  obtain ⟨x, hx⟩ := hvalid.isSome_expiry_iff.mpr hwaits
  have hexpiry := hp.sound.expiries hopen timer x hx
  have hready : ∃ wake, s.wake = some wake ∧ wake ≤ s.now.val := by
    obtain ⟨entry, -, hfirst, -⟩ := exists_earliest hvalid hx
    obtain ⟨wake, hwake, hsoon⟩ := hwoken _ hfirst
    have hle : entry.time.val ≤ x.val := earliest_le hvalid hfirst hx
    rw [hexpiry] at hle
    exact ⟨wake, hwake, by omega⟩
  obtain ⟨wake, hwake, hsoon⟩ := hready
  obtain ⟨us, hus, hout⟩ := getReadyTimers_spec s.now [] hvalid
  have hmem : timer ∈ us := by
    rw [hus.ready]
    refine ⟨x, hx, ?_⟩
    rw [hexpiry]
    show (s.expiry timer).val ≤ s.now.val
    omega
  obtain ⟨s', hs', hqueue, hcompleted⟩ := runReactor_spec s
  refine ⟨s', ?_, ?_, ?_⟩
  · simp only [step, hwake]
    rw [if_pos ⟨hsoon, hopen⟩, hs']
  · rw [hqueue, hus.queues, if_pos hmem]
  · intro op hop
    rw [hcompleted, hout, List.nil_append]
    exact List.mem_append_right _ (List.mem_flatMap.mpr ⟨timer, hmem, List.mem_map_of_mem hop⟩)

theorem woken_run {p : Pool ι} {s t : State ι} {ls : List (Label ι)} (hwoken : Woken s)
    (hp : Refines p s) (hclock : 0 < s.now.val) (h : Run step Any s ls t) :
    (∃ q, Refines q t) ∧ 0 < t.now.val ∧ Woken t := by
  refine h.invariant (I := fun s => (∃ p, Refines p s) ∧ 0 < s.now.val ∧ Woken s)
    ⟨⟨p, hp⟩, hclock, hwoken⟩ ?_
  rintro s l s' ⟨⟨p, hp⟩, hnow, hwoken⟩ _ hs
  obtain ⟨p', -, hp'⟩ := refines_step hp l hs
  exact ⟨⟨p', hp'⟩, Woken.step hp hnow hwoken l hs⟩

/-- **In time.** Until the reactor is shut down, when the expiry of a timer with waits has been over
for a microsecond, the timer descriptor is ready, so that the reactor runs, and all waits on the
timer complete without an error. -/
theorem woken_in_time {now : Ticks} {ls : List (Label ι)} {s : State ι} {timer : ι}
    (hclock : 0 < now.val) (h : Run step Any (initial now) ls s) (hopen : s.shutdown = false)
    (hwaits : s.queue.opQueue timer ≠ []) (hover : (s.expiry timer).val + 1000 ≤ s.now.val) :
    ∃ s', step s .run = some s' ∧ s'.queue.opQueue timer = [] ∧
      ∀ op ∈ s.queue.opQueue timer, op.expired ∈ s'.completed := by
  obtain ⟨⟨p, hp⟩, -, hwoken⟩ := woken_run (woken_initial now) (refines_initial now) hclock h
  exact exists_run hwoken hp hopen hwaits hover

/-- The wait on the timer that has been moved completes. -/
theorem woken_in_time_someRun :
    let s := reached step Any (initial ⟨1, by decide⟩) someRun
    ∃ s', step s .run = some s' ∧ s'.queue.opQueue 2 = [] ∧
      ∀ op ∈ s.queue.opQueue 2, op.expired ∈ s'.completed :=
  woken_in_time (by decide +kernel) (run_reached (by decide +kernel))
    (by decide +kernel) (by decide +kernel) (by decide +kernel)

end AsioLearn.Detail.DeadlineTimer
