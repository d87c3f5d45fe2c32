import AsioLearn.Timer.PrinterRuns

/-!
# The printers come to their end

* `finishes`: wherever a program is, its last handler can return, and the counter is at its limit
  then, unless the clock ends before.
-/

namespace AsioLearn.Timer

open Lts Detail Proactor
open DeadlineTimer (Pool Woken Refines onTimer refines_step refines_asyncWait woken_run
  woken_initial refines_initial)

variable {ι : Type*} {P : Printer ι} {start : Ticks} {p : Pool ι} {s s' t : State ι} {id : ℕ}
  {timer : ι} {b : ℤ}

/-! ## How far a run can go -/

/-- How many handlers have yet to be called. -/
def remaining (P : Printer ι) (s : State ι) : ℕ := P.limit - s.count + s.handlers.length

/-- Nothing is later than `b`. -/
structure Within (P : Printer ι) (b : ℤ) (p : Pool ι) : Prop where
  now : p.now.val ≤ b
  expiry : ∀ timer ∈ P.timers, (p.expiry timer).val ≤ b

theorem Within.mono {b' : ℤ} (h : Within P b p) (hle : b ≤ b') : Within P b' p :=
  ⟨h.now.trans hle, fun timer hmem => (h.expiry timer hmem).trans hle⟩

variable [DecidableEq ι]

/-! ## The timers in a run of the program -/

theorem io_step {l : Label} (h : step P s l = some s') :
    ∃ ls, Run DeadlineTimer.step Any s.io ls s'.io := by
  cases l with
  | main =>
    simp only [step] at h
    split at h
    · obtain ⟨io, hio, rfl⟩ := Option.map_eq_some_iff.mp h
      exact ⟨_, Run.single trivial hio⟩
    · obtain ⟨io, hio, rfl⟩ := Option.map_eq_some_iff.mp h
      exact ⟨_, Run.single trivial hio⟩
    · exact absurd h (by simp)
  | tick now =>
    obtain ⟨io, hio, rfl⟩ := Option.map_eq_some_iff.mp h
    exact ⟨_, Run.single trivial hio⟩
  | reactor | staleReactor =>
    simp only [step] at h
    split_ifs at h
    obtain ⟨io, hio, rfl⟩ := Option.map_eq_some_iff.mp h
    exact ⟨_, Run.single trivial hio⟩
  | handle id =>
    obtain ⟨-, -, hhandled⟩ := handle_cases h
    cases hhandled with
    | last => exact ⟨[], .nil _⟩
    | again timer hmem hcount l io io' hset hl hwait =>
      exact ⟨_, .cons trivial hset (Run.single trivial hwait)⟩

theorem io_run {ls : List Label} (h : Run (step P) Any s ls t) :
    ∃ ls', Run DeadlineTimer.step Any s.io ls' t.io := by
  obtain ⟨ls', io, hrun, rfl⟩ := h.follow (R := fun io s => s.io = io) (by
    rintro io s l s' rfl _ hs
    obtain ⟨ls', hrun⟩ := io_step hs
    exact ⟨ls', _, hrun, rfl⟩) rfl
  exact ⟨ls', hrun⟩

/-! ## Until a wait is over -/

/-- The program is in `run`, and the reactor will be woken up. -/
structure Going (P : Printer ι) (start : Ticks) (p : Pool ι) (s : State ι) : Prop where
  inv : Inv P start p s
  waits : s.toWait = []
  clock : 0 < s.io.now.val
  woken : Woken s.io

theorem Going.run {ls : List Label} {q : Pool ι} (h : Going P start p s)
    (hrun : Run (Timer.step P) Any s ls t) (hinv : Inv P start q t) (hwaits : t.toWait = []) :
    Going P start q t := by
  obtain ⟨ls', hio⟩ := io_run hrun
  obtain ⟨-, hclock, hwoken⟩ := woken_run h.woken h.inv.refines h.clock hio
  exact ⟨hinv, hwaits, hclock, hwoken⟩

/-- The clock goes on until a timer expired a microsecond ago. -/
theorem exists_later (h : Going P start p s) (hb : Within P b p) (htimer : timer ∈ P.timers)
    (hroom : b + 1000 ≤ maxTicks) :
    ∃ t q, step P s (.tick t.io.now) = some t ∧ Inv P start q t ∧ Within P (b + 1000) q ∧
      (t.io.expiry timer).val + 1000 ≤ t.io.now.val ∧ t.toWait = [] ∧
      t.handlers = s.handlers ∧ t.count = s.count ∧ t.io.queue = s.io.queue ∧ q.ops = p.ops := by
  have hrefines := h.inv.refines
  have hfits := p.now.fits
  have hnow := hb.now
  have hexpiry := hb.expiry timer htimer
  let later : Ticks := ⟨max p.now.val ((p.expiry timer).val + 1000), by omega⟩
  have hlater : p.now ≤ later := Ticks.le_iff.mpr (le_max_left _ _)
  have htick : DeadlineTimer.step s.io (.tick later) = some { s.io with now := later } := by
    simp only [DeadlineTimer.step]
    rw [← hrefines.now, if_pos hlater]
  obtain ⟨q, hq, hr⟩ := refines_step hrefines _ htick
  simp only [Pool.step] at hq
  rw [if_pos hlater] at hq
  obtain rfl := Option.some.inj hq
  refine ⟨withIo s { s.io with now := later }, { p with now := later }, ?_, ?_, ⟨?_, ?_⟩, ?_,
    h.waits, rfl, rfl, rfl, rfl⟩
  · show (DeadlineTimer.step s.io (.tick later)).map (withIo s) = _
    rw [htick]
    rfl
  · exact h.inv.passes hr rfl rfl hlater
      ⟨fun _ => false, (abort_eq_self _ _ fun _ _ _ => rfl).symm, by simp⟩
  · show max p.now.val _ ≤ b + 1000
    omega
  · intro u hu
    exact (hb.mono (by omega)).expiry u hu
  · show (s.io.expiry timer).val + 1000 ≤ max p.now.val _
    rw [← hrefines.expiry]
    exact le_max_right _ _

/-- The wait of a handler is over, or it will be when the clock has gone on and the reactor has
run. -/
theorem exists_over (h : Going P start p s) (hb : Within P b p) (hmem : (id, timer) ∈ s.handlers)
    (hroom : b + 1000 ≤ maxTicks) :
    ∃ ls t q, Run (step P) Any s ls t ∧ Going P start q t ∧ Within P (b + 1000) q ∧
      id ∈ t.io.completed.map TimerQueue.WaitOp.id ∧ t.handlers = s.handlers ∧
      t.count = s.count := by
  obtain ⟨op, hop, hid, htimer, -⟩ := h.inv.timed.armed _ hmem
  rcases h.inv.timed.outcomes op hop with hnone | ⟨hexpired, -⟩
  · obtain ⟨u, q, htick, hinv, hwithin, hover, hwait, hhandlers, hcount, hqueue, hops⟩ :=
      exists_later h hb (h.inv.books.mem timer (mem_chains hmem)) hroom
    have hgoing := h.run (Run.single trivial htick) hinv hwait
    have hpending : op.task.op ∈ u.io.queue.opQueue timer := by
      rw [hinv.refines.queues, hops]
      refine List.mem_map_of_mem (mem_waiting.mpr ⟨?_, decide_eq_true htimer⟩)
      rwa [← hnone]
    have hopen : u.io.shutdown = false := hinv.refines.shutdown ▸ hinv.timed.running
    obtain ⟨io, hio, -, hcompleted⟩ := DeadlineTimer.exists_run hgoing.woken hinv.refines hopen
      (List.ne_nil_of_mem hpending) hover
    obtain ⟨q', hq', hr⟩ := refines_step hinv.refines _ hio
    obtain rfl := Option.some.inj hq'
    have hinv' := hinv.passes hr rfl rfl (le_refl _)
      ⟨DeadlineTimer.isOver q.now, rfl, fun k hk => of_decide_eq_true hk⟩
    have hreactor : step P u .reactor = some (withIo u io) := by
      simp only [step]
      rw [if_pos hwait, hio]
      rfl
    have hrun : Run (step P) Any s [.tick u.io.now, .reactor] (withIo u io) :=
      .cons trivial htick (Run.single trivial hreactor)
    exact ⟨_, _, _, hrun, h.run hrun hinv' hwait, ⟨hwithin.now, hwithin.expiry⟩,
      List.mem_map.mpr ⟨_, hcompleted _ hpending, hid⟩, hhandlers, hcount⟩
  · refine ⟨[], s, p, .nil s, h, hb.mono (by omega), ?_, rfl, rfl⟩
    refine List.mem_map.mpr ⟨op.task.op, ?_, hid⟩
    rw [h.inv.refines.completed.mem_iff]
    exact List.mem_filterMap.mpr ⟨op, hop, by rw [hexpired]; rfl⟩

/-! ## The call of a handler -/

theorem exists_setTimer (hroom : (s.io.expiry timer).val + P.period.val ≤ maxTicks) :
    ∃ s', setTimer P timer s = some s' := by
  unfold setTimer
  split_ifs
  · simp only [DeadlineTimer.step, DeadlineTimer.expiresAfter, add_eq, Option.map_some]
    exact ⟨_, rfl⟩
  · have hpos := P.period_pos
    have hfits := (s.io.expiry timer).fits
    refine ⟨withIo s (DeadlineTimer.expiresAt timer ⟨_, by omega, hroom⟩ s.io).2, ?_⟩
    unfold Ticks.ofInt
    rw [dif_pos ⟨by omega, hroom⟩]
    rfl

theorem exists_print (h : Refines p s.io)
    (hroom : (s.io.expiry timer).val + P.period.val ≤ maxTicks) :
    ∃ s', print P timer s = some s' := by
  unfold print
  split_ifs
  · obtain ⟨u, hu⟩ : ∃ u, setTimer P timer { s with
        lines := s.lines ++ [⟨timer, s.count, s.io.now⟩], count := s.count + 1 } = some u :=
      exists_setTimer hroom
    obtain ⟨l, io, hio, rfl, -⟩ := setTimer_cases hu
    obtain ⟨p', -, hr⟩ := refines_step h l hio
    obtain ⟨io', hio', -⟩ := refines_asyncWait hr timer 0
    rw [hu]
    refine ⟨_, Option.map_eq_some_iff.mpr ⟨io', hio', rfl⟩⟩
  · exact ⟨s, rfl⟩

theorem exists_handle (h : Going P start p s) (hb : Within P b p) (hmem : (id, timer) ∈ s.handlers)
    (hdone : id ∈ s.io.completed.map TimerQueue.WaitOp.id)
    (hroom : b + P.period.val ≤ maxTicks) : ∃ s', step P s (.handle id) = some s' := by
  have hfound : (s.handlers.find? fun h => h.1 = id).isSome :=
    List.find?_isSome.mpr ⟨_, hmem, decide_eq_true rfl⟩
  obtain ⟨⟨id', u⟩, hu⟩ := Option.isSome_iff_exists.mp hfound
  have hin := h.inv.books.mem u (mem_chains (List.mem_of_find?_eq_some hu))
  have hexpiry := hb.expiry u hin
  obtain ⟨s', hs'⟩ : ∃ s', print P u { s with
      handlers := s.handlers.filter fun h => h.1 ≠ id } = some s' := by
    refine exists_print h.inv.refines ?_
    rw [← h.inv.refines.expiry]
    omega
  refine ⟨s', ?_⟩
  simp only [step, takeHandler]
  rw [if_pos ⟨h.waits, hdone⟩, hu]
  exact hs'

/-- Every call of a handler is one that has no longer to come. -/
theorem Handled.remaining (hids : (s.handlers.map Prod.fst).Nodup)
    (h : Handled P id s s') : Timer.remaining P s' + 1 = Timer.remaining P s := by
  unfold Timer.remaining
  cases h with
  | last timer hmem hlimit =>
    obtain ⟨l, r, hsplit, hfilter⟩ := split_handlers hids hmem
    rw [hfilter, hsplit, List.length_append, List.length_append, List.length_cons]
    dsimp only
    omega
  | again timer hmem hlimit =>
    obtain ⟨l, r, hsplit, hfilter⟩ := split_handlers hids hmem
    rw [hfilter, hsplit]
    simp only [List.length_append, List.length_cons, List.length_nil]
    omega

theorem Handled.toWait (h : Handled P id s s') : s'.toWait = s.toWait := by
  cases h <;> rfl

/-! ## The end -/

theorem exists_end (n : ℕ) (h : Going P start p s) (hb : Within P b p)
    (hn : remaining P s = n) (hroom : b + n * (P.period.val + 1000) ≤ maxTicks) :
    Possible (step P) Any (fun t => t.toWait = [] ∧ t.handlers = [] ∧ t.count = P.limit) s := by
  induction n generalizing p s b with
  | zero =>
    have hnone : s.handlers = [] := by
      unfold remaining at hn
      exact List.length_eq_zero_iff.mp (by omega)
    exact possible_of_now ⟨h.waits, hnone, h.inv.books.limit h.waits hnone⟩
  | succ n ih =>
    rcases hhandlers : s.handlers with _ | ⟨⟨id, timer⟩, rest⟩
    · exact possible_of_now ⟨h.waits, hhandlers, h.inv.books.limit h.waits hhandlers⟩
    have hmem : (id, timer) ∈ s.handlers := hhandlers ▸ List.mem_cons_self
    have hpos := P.period_pos
    have hstep : ((n + 1 : ℕ) : ℤ) * (P.period.val + 1000) =
        (P.period.val + 1000) + n * (P.period.val + 1000) := by
      push_cast
      ring
    have hrest : 0 ≤ (n : ℤ) * (P.period.val + 1000) := by positivity
    rw [hstep] at hroom
    obtain ⟨ls, u, q, hrun, hgoing, hwithin, hdone, hsame, hcount⟩ :=
      exists_over h hb hmem (by omega)
    rw [← hsame] at hmem
    obtain ⟨t, ht⟩ := exists_handle hgoing hwithin hmem hdone (by omega)
    obtain ⟨-, -, hhandled⟩ := handle_cases ht
    obtain ⟨q', hinv, hnow, hexpiries⟩ := hgoing.inv.handled hgoing.waits hdone hhandled
    have hlater : Within P (b + (P.period.val + 1000)) q' := by
      refine ⟨by rw [hnow]; have := hwithin.now; omega, ?_⟩
      intro timer htimer
      have := hexpiries _ hwithin.now hwithin.expiry timer htimer
      omega
    have hless : remaining P t = n := by
      have hone := hhandled.remaining hgoing.inv.books.ids
      unfold remaining at hone hn ⊢
      rw [hsame, hcount] at hone
      omega
    have hthen := ih (hgoing.run (Run.single trivial ht) hinv (hhandled.toWait.trans hgoing.waits))
      hlater hless (by omega)
    obtain ⟨ls', v, hv, hend⟩ := hthen
    exact ⟨_, v, hrun.append (.cons trivial ht hv), hend⟩

/-- **To its end.** In `run` there is always a way on until the last handler has returned, and the
counter is at its limit then. It is no longer than a period and a microsecond for each handler that
has yet to be called, which the clock must have room for. -/
theorem finishes {now : Ticks} {ls : List Label} {b : ℤ} (hclock : 0 < now.val)
    (h : Run (step P) Any (initial P now) ls s) (hwait : s.toWait = []) (hnow : s.io.now.val ≤ b)
    (hexpiry : ∀ timer ∈ P.timers, (s.io.expiry timer).val ≤ b)
    (hroom : b + remaining P s * (P.period.val + 1000) ≤ maxTicks) :
    Possible (step P) Any (fun t => t.toWait = [] ∧ t.handlers = [] ∧ t.count = P.limit) s := by
  obtain ⟨p, hp⟩ := inv_of_run h
  obtain ⟨ls', hio⟩ := io_run h
  obtain ⟨-, hlater, hwoken⟩ := woken_run (woken_initial now) (refines_initial now) hclock hio
  refine exists_end _ ⟨hp, hwait, hlater, hwoken⟩ ⟨?_, ?_⟩ rfl hroom
  · rw [hp.refines.now]
    exact hnow
  · rw [hp.refines.expiry]
    exact hexpiry

/-- Both timers have begun to wait. -/
theorem finishes_turns :
    Possible (step timer5) Any (fun t => t.toWait = [] ∧ t.handlers = [] ∧ t.count = timer5.limit)
      (reached (step timer5) Any (initial timer5 ⟨1, by decide⟩) turns) :=
  finishes (b := 3000001500) (by decide) (run_reached (by decide +kernel)) (by decide +kernel)
    (by decide +kernel) (by decide +kernel) (by decide +kernel)

end AsioLearn.Timer
