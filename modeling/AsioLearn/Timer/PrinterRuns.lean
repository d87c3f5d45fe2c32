import AsioLearn.Timer.Printer

/-!
# What the printers print, and when

* `counts_up`: the numbers are printed in order, each of them once, and when there is nothing left
  to do the counter is at its limit.
* `on_time`: no wait is cancelled, and a timer does not print its next line before another period is
  over.
-/

namespace AsioLearn.Timer

open Lts Detail Proactor
open DeadlineTimer (Pool Outcome Refines onTimer refines_step)

variable {ι : Type*}

/-! ## Due times -/

theorem val_clamp (z : ℤ) : (Ticks.clamp z).val = max minTicks (min z maxTicks) := by
  unfold Ticks.clamp
  split_ifs with hlow hhigh
  · show minTicks = _
    unfold minTicks maxTicks at *
    omega
  · show maxTicks = _
    unfold minTicks maxTicks at *
    omega
  · show z = _
    omega

/-- When a timer may print its line number `n`. -/
def due (P : Printer ι) (start : Ticks) (n : ℕ) : Ticks :=
  Ticks.clamp (start.val + n * P.period.val)

/-- How many of the lines are of this timer. -/
def printed [DecidableEq ι] (timer : ι) (lines : List (Line ι)) : ℕ :=
  lines.countP fun line => line.timer = timer

section

variable {P : Printer ι} {start t : Ticks} {n : ℕ}

theorem due_succ (hdue : due P start n ≤ t) {time : Ticks}
    (htime : t.val + P.period.val ≤ time.val ∨ time = Ticks.clamp (t.val + P.period.val)) :
    due P start (n + 1) ≤ time := by
  have hpos := P.period_pos
  have hfits := t.fits
  have hfits' := time.fits
  rw [Ticks.le_iff] at hdue ⊢
  unfold due at hdue ⊢
  rw [val_clamp] at hdue ⊢
  have hnext : (start.val + ((n + 1 : ℕ) : ℤ) * P.period.val) =
      start.val + n * P.period.val + P.period.val := by
    push_cast
    ring
  rw [hnext]
  generalize start.val + (n : ℤ) * P.period.val = z at hdue
  rcases htime with hle | rfl
  · unfold minTicks maxTicks at *
    omega
  · rw [val_clamp] at hfits' ⊢
    unfold minTicks maxTicks at *
    omega

/-- The first expiry of a timer is a period after its construction. -/
theorem due_one (hbegun : start ≤ t) :
    due P start (0 + 1) ≤ Ticks.clamp (t.val + P.period.val) := by
  refine due_succ ?_ (Or.inr rfl)
  rw [Ticks.le_iff] at hbegun ⊢
  unfold due
  rw [val_clamp]
  have hfits := t.fits
  have hfits' := start.fits
  push_cast
  omega

theorem printed_snoc [DecidableEq ι] (timer : ι) (lines : List (Line ι)) (line : Line ι) :
    printed timer (lines ++ [line]) =
      printed timer lines + if line.timer = timer then 1 else 0 := by
  unfold printed
  rw [List.countP_append, List.countP_singleton]
  simp

end

/-! ## Waits and lines -/

/-- The timers whose chain of waits has not come to its end. -/
def State.chains (s : State ι) : List ι := s.toWait ++ s.handlers.map Prod.snd

theorem mem_chains {s : State ι} {id : ℕ} {timer : ι}
    (hmem : (id, timer) ∈ s.handlers) : timer ∈ s.chains :=
  List.mem_append_right _ (List.mem_map.mpr ⟨_, hmem, rfl⟩)

/-- A handler is called once. -/
theorem split_handlers {id : ℕ} {timer : ι} {handlers : List (ℕ × ι)}
    (hids : (handlers.map Prod.fst).Nodup) (hmem : (id, timer) ∈ handlers) :
    ∃ l r, handlers = l ++ (id, timer) :: r ∧ (handlers.filter fun h => h.1 ≠ id) = l ++ r := by
  obtain ⟨l, r, rfl⟩ := List.append_of_mem hmem
  refine ⟨l, r, rfl, ?_⟩
  rw [List.map_append, List.map_cons, List.nodup_append] at hids
  obtain ⟨-, hright, hdisjoint⟩ := hids
  have hl : (l.filter fun h => h.1 ≠ id) = l := by
    rw [List.filter_eq_self]
    intro h hh
    have hne := hdisjoint h.1 (List.mem_map_of_mem hh) id List.mem_cons_self
    simpa using hne
  have hr : (r.filter fun h => h.1 ≠ id) = r := by
    rw [List.filter_eq_self]
    intro h hh
    have hnot := (List.nodup_cons.mp hright).1
    simp only [ne_eq, decide_not, Bool.not_eq_eq_eq_not, Bool.not_true, decide_eq_false_iff_not]
    intro heq
    exact hnot (List.mem_map.mpr ⟨h, hh, heq⟩)
  rw [List.filter_append, List.filter_cons, hl, hr]
  simp

/-- A line is the new one, or an old one. -/
theorem snoc_eq_split {α : Type*} {xs before after : List α} {x y : α}
    (h : xs ++ [x] = before ++ y :: after) :
    (before = xs ∧ y = x) ∨ ∃ after', xs = before ++ y :: after' := by
  rcases List.eq_nil_or_concat after with rfl | ⟨after', z, rfl⟩
  · obtain ⟨rfl, heq⟩ := List.append_inj' h rfl
    exact Or.inl ⟨rfl, (List.singleton_inj.mp heq).symm⟩
  · refine Or.inr ⟨after', ?_⟩
    rw [List.concat_eq_append, ← List.cons_append, ← List.append_assoc] at h
    exact (List.append_inj' h rfl).1

/-- Who waits, and which number comes next. -/
structure Books (P : Printer ι) (p : Pool ι) (s : State ι) : Prop where
  lines : s.lines.map Line.count = List.range s.count
  count : s.count ≤ P.limit
  mem : ∀ timer ∈ s.chains, timer ∈ P.timers
  once : s.chains.Nodup
  chains : s.count = P.limit ∨ ∀ timer ∈ P.timers, timer ∈ s.chains
  ids : (s.handlers.map Prod.fst).Nodup
  fresh : ∀ h ∈ s.handlers, h.1 < p.ops.length
  started : p.ops.length + s.toWait.length = s.count + P.timers.length

/-- With no handler left the counter is at its limit. -/
theorem Books.limit {P : Printer ι} {p : Pool ι} {s : State ι} (h : Books P p s)
    (hwait : s.toWait = []) (hhandlers : s.handlers = []) : s.count = P.limit := by
  refine h.chains.resolve_right ?_
  intro hall
  obtain ⟨timer, hmem⟩ := List.exists_mem_of_ne_nil _ P.nonempty
  have hin := hall timer hmem
  unfold State.chains at hin
  rw [hwait, hhandlers] at hin
  exact absurd hin List.not_mem_nil

variable [DecidableEq ι]

/-! ## The pool behind the timers -/

section

variable {P : Printer ι} {p p' : Pool ι} {io io' : DeadlineTimer.State ι} {timer : ι}

theorem length_ops (h : Refines p io) : p.ops.length = io.nextId := by
  have hlength := congrArg List.length h.ids
  rwa [List.length_map, List.length_range] at hlength

/-- Where no wait on the timer is outstanding, it gets another expiry and nothing else happens. -/
theorem pool_setTimer {l : DeadlineTimer.Label ι}
    (hl : (P.fromNow = true ∧ l = .expiresAfter timer P.period) ∨
      ∃ time, time.val = (p.expiry timer).val + P.period.val ∧ l = .expiresAt timer time)
    (hnone : ∀ op ∈ p.ops, op.result = none → op.task.timer ≠ timer)
    (h : p.step l = some p') :
    ∃ time, p' = p.setExpiry timer time ∧
      (∀ start n, due P start n ≤ p.expiry timer → due P start n ≤ p.now →
        due P start (n + 1) ≤ time) ∧
      time.val ≤ max (p.expiry timer).val p.now.val + P.period.val := by
  have hsame : abort (fun k => onTimer timer k && true) Outcome.aborted p.ops = p.ops := by
    refine abort_eq_self _ _ ?_
    intro op hop hresult
    simp [onTimer, hnone op hop hresult]
  rcases hl with ⟨-, rfl⟩ | ⟨time, htime, rfl⟩
  · simp only [Pool.step, Pool.abortOn, hsame] at h
    obtain rfl := Option.some.inj h
    refine ⟨_, rfl, fun start n _ hnow => due_succ hnow (Or.inr rfl), ?_⟩
    have hfits := p.now.fits
    have hpos := P.period_pos
    rw [val_clamp]
    omega
  · simp only [Pool.step, Pool.abortOn, hsame] at h
    obtain rfl := Option.some.inj h
    refine ⟨_, rfl, fun start n hexpiry _ => due_succ hexpiry (Or.inl htime.ge), ?_⟩
    omega

end

/-! ## Invariants -/

/-- The waits and the expiries are as the lines say. -/
structure Timed (P : Printer ι) (start : Ticks) (p : Pool ι) (s : State ι) : Prop where
  running : p.shutdown = false
  begun : start ≤ p.now
  outcomes : ∀ op ∈ p.ops, op.result = none ∨
    op.result = some .expired ∧ op.task.deadline ≤ p.now
  pending : ∀ op ∈ p.ops, op.result = none → (op.task.id, op.task.timer) ∈ s.handlers
  armed : ∀ h ∈ s.handlers, ∃ op ∈ p.ops, op.task.id = h.1 ∧ op.task.timer = h.2 ∧
    op.task.deadline = p.expiry h.2
  constructing : s.toConstruct ≠ [] → s.toWait = P.timers ∧ s.handlers = [] ∧ p.ops = []
  expiry : ∀ timer ∈ P.timers, timer ∉ s.toConstruct →
    due P start (printed timer s.lines + 1) ≤ p.expiry timer
  times : ∀ before line after, s.lines = before ++ line :: after →
    due P start (printed line.timer before + 1) ≤ line.time

structure Inv (P : Printer ι) (start : Ticks) (p : Pool ι) (s : State ι) : Prop where
  refines : Refines p s.io
  books : Books P p s
  timed : Timed P start p s

theorem inv_initial (P : Printer ι) (now : Ticks) :
    Inv P now (Pool.initial now) (initial P now) where
  refines := DeadlineTimer.refines_initial now
  books := {
    lines := rfl
    count := Nat.zero_le _
    mem := by simp [initial, State.chains]
    once := by simpa [initial, State.chains] using P.nodup
    chains := Or.inr (by simp [initial, State.chains])
    ids := List.nodup_nil
    fresh := by simp [initial]
    started := by simp [initial, Pool.initial] }
  timed := {
    running := rfl
    begun := le_refl _
    outcomes := by simp [Pool.initial]
    pending := by simp [Pool.initial]
    armed := by simp [initial]
    constructing := fun _ => ⟨rfl, rfl, rfl⟩
    expiry := fun timer hmem hnot => absurd hmem hnot
    times := by simp [initial] }

section

variable {P : Printer ι} {start : Ticks} {p : Pool ι} {s s' : State ι}

/-! ### Calling a handler -/

/-- When a handler is called, its wait is over, and no other one on its timer is outstanding. -/
theorem Inv.overdue (h : Inv P start p s) {id : ℕ} {timer : ι}
    (hdone : id ∈ s.io.completed.map TimerQueue.WaitOp.id) (hmem : (id, timer) ∈ s.handlers) :
    p.expiry timer ≤ p.now ∧
      ∀ op ∈ p.ops, op.result = none → op.task.timer ≠ timer ∧ op.task.id ≠ id := by
  have hnodup : (p.ops.map fun op => op.task.id).Nodup := by
    rw [h.refines.ids]
    exact List.nodup_range
  have hunique : ∀ op ∈ p.ops, ∀ op' ∈ p.ops, op.task.id = op'.task.id → op = op' :=
    fun op hop op' hop' heq => List.inj_on_of_nodup_map hnodup hop hop' heq
  obtain ⟨op, hop, hid, htimer, hdeadline⟩ := h.timed.armed _ hmem
  have hover : op.result = some .expired ∧ op.task.deadline ≤ p.now := by
    rcases h.timed.outcomes op hop with hnone | hover
    · -- the wait would not have been handed over
      obtain ⟨wait, hwait, rfl⟩ := List.mem_map.mp hdone
      rw [h.refines.completed.mem_iff] at hwait
      obtain ⟨op', hop', hresult⟩ := List.mem_filterMap.mp hwait
      obtain ⟨r, hr, hcompletion⟩ := Option.bind_eq_some_iff.mp hresult
      have hid' : op'.task.id = wait.id := by
        cases r <;> simp only [DeadlineTimer.completion, Option.some.injEq, reduceCtorEq]
          at hcompletion <;> rw [← hcompletion] <;> rfl
      rw [hunique op hop op' hop' (hid.trans hid'.symm)] at hnone
      exact absurd (hnone.symm.trans hr) (by simp)
    · exact hover
  refine ⟨?_, ?_⟩
  · dsimp only at hdeadline
    rw [← hdeadline]
    exact hover.2
  · intro op' hop' hnone
    have hne : op'.task.id ≠ id := by
      intro heq
      rw [hunique op' hop' op hop (heq.trans hid.symm)] at hnone
      exact absurd (hnone.symm.trans hover.1) (by simp)
    refine ⟨?_, hne⟩
    intro heq
    have hother := h.timed.pending op' hop' hnone
    have hsnd : (s.handlers.map Prod.snd).Nodup := (List.nodup_append.mp h.books.once).2.1
    have hsame := List.inj_on_of_nodup_map hsnd hother hmem heq
    exact hne (congrArg Prod.fst hsame)

theorem not_constructing (h : Timed P start p s) {timer : ι} (hbooks : Books P p s)
    (hwait : s.toWait = []) (hmem : timer ∈ s.chains) : s.toConstruct = [] := by
  by_contra hne
  have htimers := (h.constructing hne).1
  have hin := hbooks.mem timer hmem
  rw [← htimers, hwait] at hin
  exact absurd hin List.not_mem_nil

/-- The handler prints no line, as the counter has reached its limit. -/
theorem Inv.last (h : Inv P start p s) {id : ℕ} {timer : ι} (hwait : s.toWait = [])
    (hdone : id ∈ s.io.completed.map TimerQueue.WaitOp.id) (hmem : (id, timer) ∈ s.handlers)
    (hcount : P.limit ≤ s.count) :
    Inv P start p { s with handlers := s.handlers.filter fun h => h.1 ≠ id } := by
  obtain ⟨-, hothers⟩ := h.overdue hdone hmem
  have hnot := not_constructing h.timed h.books hwait (mem_chains hmem)
  have hsub : (s.handlers.filter fun h => h.1 ≠ id).Sublist s.handlers := List.filter_sublist
  have hchains : (s.toWait ++ (s.handlers.filter fun h => h.1 ≠ id).map Prod.snd).Sublist
      s.chains := (hsub.map _).append_left _
  refine ⟨h.refines, ?_, ?_⟩
  · exact {
      lines := h.books.lines
      count := h.books.count
      mem := fun u hu => h.books.mem u (hchains.subset hu)
      once := h.books.once.sublist hchains
      chains := Or.inl (le_antisymm h.books.count hcount)
      ids := h.books.ids.sublist (hsub.map _)
      fresh := fun k hk => h.books.fresh k (hsub.subset hk)
      started := h.books.started }
  · exact {
      running := h.timed.running
      begun := h.timed.begun
      outcomes := h.timed.outcomes
      pending := by
        intro op hop hnone
        refine List.mem_filter.mpr ⟨h.timed.pending op hop hnone, ?_⟩
        simpa using (hothers op hop hnone).2
      armed := fun k hk => h.timed.armed k (hsub.subset hk)
      constructing := fun hne => absurd hnot hne
      expiry := h.timed.expiry
      times := h.timed.times }

end

/-- The pool after another wait has been started on a timer with a new expiry. -/
def rearmed (timer : ι) (time : Ticks) (p : Pool ι) : Pool ι :=
  { p with
    expiry := Function.update p.expiry timer time
    ops := p.ops ++ [⟨⟨p.ops.length, timer, time, 0⟩, none⟩] }

/-- What the handler has changed, when it has printed a line and waits again. -/
def again (id : ℕ) (timer : ι) (newId : ℕ) (io : DeadlineTimer.State ι) (s : State ι) : State ι :=
  { s with
    io := io
    handlers := (s.handlers.filter fun h => h.1 ≠ id) ++ [(newId, timer)]
    count := s.count + 1
    lines := s.lines ++ [⟨timer, s.count, s.io.now⟩] }

section

variable {P : Printer ι} {start : Ticks} {p : Pool ι} {s : State ι} {id : ℕ} {timer : ι}
  {time : Ticks} {io : DeadlineTimer.State ι}

theorem Books.again (h : Books P p s) (hmem : (id, timer) ∈ s.handlers)
    (hcount : s.count < P.limit) :
    Books P (rearmed timer time p) (again id timer p.ops.length io s) := by
  obtain ⟨l, r, hsplit, hfilter⟩ := split_handlers h.ids hmem
  have hsub : (s.handlers.filter fun h => h.1 ≠ id).Sublist s.handlers := List.filter_sublist
  have hchains : (Timer.again id timer p.ops.length io s).chains.Perm s.chains := by
    unfold State.chains Timer.again
    dsimp only
    rw [hfilter, hsplit]
    refine List.Perm.append_left _ ?_
    simp only [List.map_append, List.map_cons, List.map_nil, List.append_assoc]
    exact (List.perm_append_singleton _ _).append_left _
  have hlength : (rearmed timer time p).ops.length = p.ops.length + 1 := List.length_append
  exact {
    lines := by
      show (s.lines ++ [_]).map Line.count = List.range (s.count + 1)
      rw [List.map_append, h.lines, List.range_succ]
      rfl
    count := hcount
    mem := fun u hu => h.mem u (hchains.subset hu)
    once := hchains.nodup_iff.mpr h.once
    chains := by
      rcases h.chains with hlimit | hall
      · omega
      · exact Or.inr fun u hu => hchains.mem_iff.mpr (hall u hu)
    ids := by
      show ((s.handlers.filter fun h => h.1 ≠ id) ++ [(p.ops.length, timer)]).map Prod.fst |>.Nodup
      rw [List.map_append]
      refine List.nodup_append.mpr ⟨h.ids.sublist (hsub.map _), List.nodup_singleton _, ?_⟩
      intro a ha b hb
      obtain ⟨k, hk, rfl⟩ := List.mem_map.mp ha
      rw [List.mem_singleton.mp hb]
      exact (h.fresh k (hsub.subset hk)).ne
    fresh := by
      intro k hk
      rw [hlength]
      rcases List.mem_append.mp hk with hk | hk
      · exact (h.fresh k (hsub.subset hk)).trans (Nat.lt_succ_self _)
      · rw [List.mem_singleton.mp hk]
        exact Nat.lt_succ_self _
    started := by
      have hstarted := h.started
      rw [hlength]
      show p.ops.length + 1 + s.toWait.length = s.count + 1 + P.timers.length
      omega }

theorem Timed.again (h : Timed P start p s) (hbooks : Books P p s) (hnow : p.now = s.io.now)
    (hnot : s.toConstruct = []) (hmem : (id, timer) ∈ s.handlers) (hover : p.expiry timer ≤ p.now)
    (hothers : ∀ op ∈ p.ops, op.result = none → op.task.id ≠ id)
    (htime : ∀ n, due P start n ≤ p.expiry timer → due P start n ≤ p.now →
      due P start (n + 1) ≤ time) :
    Timed P start (rearmed timer time p) (again id timer p.ops.length io s) := by
  have hdue := h.expiry timer (hbooks.mem timer (mem_chains hmem))
    (by rw [hnot]; exact List.not_mem_nil)
  have hsub : (s.handlers.filter fun h => h.1 ≠ id).Sublist s.handlers := List.filter_sublist
  -- the other timers' handlers are those that are left
  have hrest : ∀ k ∈ s.handlers.filter fun h => h.1 ≠ id, k.2 ≠ timer := by
    intro k hk heq
    have hsnd : (s.handlers.map Prod.snd).Nodup := (List.nodup_append.mp hbooks.once).2.1
    have hsame := List.inj_on_of_nodup_map hsnd (hsub.subset hk) hmem heq
    exact absurd (congrArg Prod.fst hsame) (by simpa using (List.mem_filter.mp hk).2)
  exact {
    running := h.running
    begun := h.begun
    outcomes := by
      intro op hop
      rcases List.mem_append.mp hop with hop | hop
      · exact h.outcomes op hop
      · rw [List.mem_singleton.mp hop]
        exact Or.inl rfl
    pending := by
      intro op hop hnone
      rcases List.mem_append.mp hop with hop | hop
      · refine List.mem_append_left _ (List.mem_filter.mpr ⟨h.pending op hop hnone, ?_⟩)
        simpa using hothers op hop hnone
      · rw [List.mem_singleton.mp hop]
        exact List.mem_append_right _ (List.mem_singleton_self _)
    armed := by
      intro k hk
      rcases List.mem_append.mp hk with hk | hk
      · obtain ⟨op, hop, hid, htimer, hdeadline⟩ := h.armed k (hsub.subset hk)
        refine ⟨op, List.mem_append_left _ hop, hid, htimer, hdeadline.trans ?_⟩
        exact (Function.update_of_ne (hrest k hk) _ _).symm
      · rw [List.mem_singleton.mp hk]
        refine ⟨_, List.mem_append_right _ (List.mem_singleton_self _), rfl, rfl, ?_⟩
        exact (Function.update_self timer time p.expiry).symm
    constructing := fun hne => absurd hnot hne
    expiry := by
      intro u hu hconstructed
      have hlines : printed u (Timer.again id timer p.ops.length io s).lines =
          printed u s.lines + if timer = u then 1 else 0 :=
        printed_snoc u s.lines ⟨timer, s.count, s.io.now⟩
      rw [hlines]
      show _ ≤ Function.update p.expiry timer time u
      by_cases heq : timer = u
      · subst heq
        rw [Function.update_self, if_pos rfl]
        exact htime _ hdue (le_trans hdue hover)
      · rw [Function.update_of_ne (Ne.symm heq), if_neg heq]
        exact h.expiry u hu hconstructed
    times := by
      intro before line after hlines
      rcases snoc_eq_split hlines with ⟨rfl, rfl⟩ | ⟨after', hbefore⟩
      · show due P start (printed timer s.lines + 1) ≤ s.io.now
        rw [← hnow]
        exact le_trans hdue hover
      · exact h.times before line after' hbefore }

/-! ### The other steps -/

/-- What `async_wait` does to the pool. -/
theorem pool_wait {p' : Pool ι} (hrunning : p.shutdown = false)
    (h : (p.setExpiry timer time).step (.asyncWait timer 0) = some p') :
    p' = rearmed timer time p := by
  obtain rfl := Option.some.inj h
  unfold rearmed Pool.setExpiry
  dsimp only
  rw [hrunning, Function.update_self]
  rfl

theorem setExpiry_self (timer : ι) (p : Pool ι) : p.setExpiry timer (p.expiry timer) = p := by
  unfold Pool.setExpiry
  rw [Function.update_eq_self]

/-- The first wait on a timer. -/
theorem Inv.firstWait {rest : List ι} (h : Inv P start p s) (hnot : s.toConstruct = [])
    (hwait : s.toWait = timer :: rest) (hrefines : Refines (rearmed timer (p.expiry timer) p) io) :
    Inv P start (rearmed timer (p.expiry timer) p)
      { s with
        io := io
        toWait := rest
        handlers := s.handlers ++ [(p.ops.length, timer)] } := by
  have hchains : State.chains { s with
      io := io
      toWait := rest
      handlers := s.handlers ++ [(p.ops.length, timer)] } |>.Perm s.chains := by
    unfold State.chains
    dsimp only
    rw [hwait, List.map_append, ← List.append_assoc]
    exact (List.perm_append_singleton _ _).trans (List.Perm.of_eq (List.cons_append ..).symm)
  have hlength : (rearmed timer (p.expiry timer) p).ops.length = p.ops.length + 1 :=
    List.length_append
  have hexpiry : (rearmed timer (p.expiry timer) p).expiry = p.expiry :=
    Function.update_eq_self timer p.expiry
  refine ⟨hrefines, ?_, ?_⟩
  · exact {
      lines := h.books.lines
      count := h.books.count
      mem := fun u hu => h.books.mem u (hchains.subset hu)
      once := hchains.nodup_iff.mpr h.books.once
      chains := h.books.chains.imp_right fun hall u hu => hchains.mem_iff.mpr (hall u hu)
      ids := by
        show ((s.handlers ++ [(p.ops.length, timer)]).map Prod.fst).Nodup
        rw [List.map_append]
        refine List.nodup_append.mpr ⟨h.books.ids, List.nodup_singleton _, ?_⟩
        intro a ha b hb
        obtain ⟨k, hk, rfl⟩ := List.mem_map.mp ha
        rw [List.mem_singleton.mp hb]
        exact (h.books.fresh k hk).ne
      fresh := by
        intro k hk
        rw [hlength]
        rcases List.mem_append.mp hk with hk | hk
        · exact (h.books.fresh k hk).trans (Nat.lt_succ_self _)
        · rw [List.mem_singleton.mp hk]
          exact Nat.lt_succ_self _
      started := by
        have hstarted := h.books.started
        rw [hwait, List.length_cons] at hstarted
        rw [hlength]
        show p.ops.length + 1 + rest.length = s.count + P.timers.length
        omega }
  · exact {
      running := h.timed.running
      begun := h.timed.begun
      outcomes := by
        intro op hop
        rcases List.mem_append.mp hop with hop | hop
        · exact h.timed.outcomes op hop
        · rw [List.mem_singleton.mp hop]
          exact Or.inl rfl
      pending := by
        intro op hop hnone
        rcases List.mem_append.mp hop with hop | hop
        · exact List.mem_append_left _ (h.timed.pending op hop hnone)
        · rw [List.mem_singleton.mp hop]
          exact List.mem_append_right _ (List.mem_singleton_self _)
      armed := by
        rw [hexpiry]
        intro k hk
        rcases List.mem_append.mp hk with hk | hk
        · obtain ⟨op, hop, hmatch⟩ := h.timed.armed k hk
          exact ⟨op, List.mem_append_left _ hop, hmatch⟩
        · rw [List.mem_singleton.mp hk]
          exact ⟨_, List.mem_append_right _ (List.mem_singleton_self _), rfl, rfl, rfl⟩
      constructing := fun hne => absurd hnot hne
      expiry := by
        rw [hexpiry]
        exact h.timed.expiry
      times := h.timed.times }

/-- A timer is constructed before any wait is started. -/
theorem Inv.construct {rest : List ι} (h : Inv P start p s) (hmain : s.toConstruct = timer :: rest)
    (htime : due P start 1 ≤ time) (hrefines : Refines (p.setExpiry timer time) io) :
    Inv P start (p.setExpiry timer time) { s with io := io, toConstruct := rest } := by
  obtain ⟨hwait, hhandlers, hops⟩ := h.timed.constructing (by rw [hmain]; simp)
  have hlines : s.lines = [] := by
    have hstarted := h.books.started
    rw [hops, hwait, List.length_nil] at hstarted
    have hcount := h.books.lines
    rw [show s.count = 0 by omega] at hcount
    exact List.map_eq_nil_iff.mp hcount
  refine ⟨hrefines, ⟨h.books.lines, h.books.count, h.books.mem, h.books.once, h.books.chains,
    h.books.ids, h.books.fresh, h.books.started⟩, ?_⟩
  exact {
    running := h.timed.running
    begun := h.timed.begun
    outcomes := h.timed.outcomes
    pending := h.timed.pending
    armed := by
      intro k hk
      rw [show s.handlers = [] from hhandlers] at hk
      exact absurd hk List.not_mem_nil
    constructing := fun _ => ⟨hwait, hhandlers, hops⟩
    expiry := by
      intro u hu hconstructed
      show due P start (printed u s.lines + 1) ≤ Function.update p.expiry timer time u
      by_cases heq : u = timer
      · subst heq
        rw [Function.update_self, hlines]
        exact htime
      · rw [Function.update_of_ne heq]
        refine h.timed.expiry u hu ?_
        rw [hmain]
        intro hmem
        rcases List.mem_cons.mp hmem with hmem | hmem
        · exact heq hmem
        · exact hconstructed hmem
    times := h.timed.times }

/-- Time goes on, or the reactor completes what is over. -/
theorem Inv.passes {p' : Pool ι} (h : Inv P start p s) (hrefines : Refines p' io)
    (hshutdown : p'.shutdown = p.shutdown) (hexpiry : p'.expiry = p.expiry) (hnow : p.now ≤ p'.now)
    (hops : ∃ c : DeadlineTimer.Wait ι → Bool, p'.ops = abort c .expired p.ops ∧
      ∀ k, c k = true → k.deadline ≤ p'.now) : Inv P start p' (withIo s io) := by
  obtain ⟨c, hops, hover⟩ := hops
  have hlength : p'.ops.length = p.ops.length := by
    rw [hops, abort, List.length_map]
  refine ⟨hrefines, ⟨h.books.lines, h.books.count, h.books.mem, h.books.once, h.books.chains,
    h.books.ids, hlength ▸ h.books.fresh, hlength ▸ h.books.started⟩, ?_⟩
  exact {
    running := hshutdown.trans h.timed.running
    begun := le_trans h.timed.begun hnow
    outcomes := by
      rw [hops]
      refine forall_abort c _ (fun op hop => ?_) fun k hk _ => Or.inr ⟨rfl, hover k hk⟩
      exact (h.timed.outcomes op hop).imp_right fun hdone => ⟨hdone.1, le_trans hdone.2 hnow⟩
    pending := by
      rw [hops]
      refine forall_abort c _ h.timed.pending fun k _ _ habsurd => ?_
      exact absurd habsurd (by simp)
    armed := by
      intro k hk
      obtain ⟨op, hop, hmatch⟩ := h.timed.armed k hk
      rw [hops, hexpiry]
      refine exists_abort c _ ⟨op, hop, ?_⟩ fun _ _ hbefore => hbefore
      exact hmatch
    constructing := by
      intro hne
      obtain ⟨hwait, hhandlers, hnone⟩ := h.timed.constructing hne
      refine ⟨hwait, hhandlers, ?_⟩
      rw [hops, hnone]
      rfl
    expiry := by
      rw [hexpiry]
      exact h.timed.expiry
    times := h.timed.times }

/-- The handler of a wait that is over has been called. The clock stands still, and no expiry is
more than a period later than before. -/
theorem Inv.handled {s' : State ι} (h : Inv P start p s) (hwait : s.toWait = [])
    (hdone : id ∈ s.io.completed.map TimerQueue.WaitOp.id) (hs : Handled P id s s') :
    ∃ p', Inv P start p' s' ∧ p'.now = p.now ∧
      ∀ b, p.now.val ≤ b → (∀ u ∈ P.timers, (p.expiry u).val ≤ b) →
        ∀ u ∈ P.timers, (p'.expiry u).val ≤ b + P.period.val := by
  have hpos := P.period_pos
  cases hs with
  | last timer hmem hcount =>
    refine ⟨p, h.last hwait hdone hmem hcount, rfl, ?_⟩
    intro b _ hall u hu
    have := hall u hu
    omega
  | again timer hmem hcount l io io' hset hl hnext =>
    obtain ⟨hover, hothers⟩ := h.overdue hdone hmem
    have hnot := not_constructing h.timed h.books hwait (mem_chains hmem)
    rw [← h.refines.expiry] at hl
    obtain ⟨p₁, hp₁, hr₁⟩ := refines_step h.refines l hset
    obtain ⟨time, rfl, htime, hsoon⟩ :=
      pool_setTimer hl (fun op hop hnone => (hothers op hop hnone).1) hp₁
    obtain ⟨p₂, hp₂, hr₂⟩ := refines_step hr₁ _ hnext
    obtain rfl := pool_wait h.timed.running hp₂
    rw [← length_ops hr₁]
    refine ⟨_, ⟨hr₂, h.books.again hmem hcount, h.timed.again h.books h.refines.now hnot hmem hover
      (fun op hop hnone => (hothers op hop hnone).2) fun n => htime start n⟩, rfl, ?_⟩
    intro b hnow hall u hu
    show (Function.update p.expiry timer time u).val ≤ _
    have hbefore := hall u hu
    by_cases heq : u = timer
    · subst heq
      rw [Function.update_self]
      omega
    · rw [Function.update_of_ne heq]
      omega

theorem Inv.step {s' : State ι} (h : Inv P start p s) {l : Label} (hs : step P s l = some s') :
    ∃ p', Inv P start p' s' := by
  cases l with
  | main =>
    simp only [Timer.step] at hs
    split at hs
    · rename_i _ timer rest hmain
      obtain ⟨io, hio, rfl⟩ := Option.map_eq_some_iff.mp hs
      obtain ⟨hwait, hhandlers, hops⟩ := h.timed.constructing (by rw [hmain]; simp)
      obtain ⟨p', hp', hr⟩ := refines_step h.refines _ hio
      have hset : p' = p.setExpiry timer (Ticks.clamp (p.now.val + P.period.val)) := by
        simp only [Pool.step, Pool.abortOn, hops] at hp'
        obtain rfl := Option.some.inj hp'
        unfold Pool.setExpiry
        rw [hops]
        rfl
      subst hset
      exact ⟨_, h.construct hmain (due_one h.timed.begun) hr⟩
    · rename_i timer rest hmain hwait
      obtain ⟨io, hio, rfl⟩ := Option.map_eq_some_iff.mp hs
      obtain ⟨p', hp', hr⟩ := refines_step h.refines _ hio
      rw [← setExpiry_self timer p] at hp'
      obtain rfl := pool_wait h.timed.running hp'
      dsimp only
      rw [← length_ops h.refines]
      exact ⟨_, h.firstWait hmain hwait hr⟩
    · exact absurd hs (by simp)
  | tick now =>
    obtain ⟨io, hio, rfl⟩ := Option.map_eq_some_iff.mp hs
    obtain ⟨p', hp', hr⟩ := refines_step h.refines _ hio
    simp only [Pool.step] at hp'
    split_ifs at hp' with hle
    obtain rfl := Option.some.inj hp'
    refine ⟨_, h.passes hr rfl rfl hle ⟨fun _ => false, ?_, by simp⟩⟩
    exact (abort_eq_self _ _ fun _ _ _ => rfl).symm
  | reactor | staleReactor =>
    simp only [Timer.step] at hs
    split_ifs at hs
    obtain ⟨io, hio, rfl⟩ := Option.map_eq_some_iff.mp hs
    obtain ⟨p', hp', hr⟩ := refines_step h.refines _ hio
    obtain rfl := Option.some.inj hp'
    exact ⟨_, h.passes hr rfl rfl (le_refl _)
      ⟨DeadlineTimer.isOver p.now, rfl, fun k hk => of_decide_eq_true hk⟩⟩
  | handle id =>
    obtain ⟨hwait, hdone, hhandled⟩ := handle_cases hs
    obtain ⟨p', hp', -⟩ := h.handled hwait hdone hhandled
    exact ⟨p', hp'⟩

end

theorem inv_of_run {P : Printer ι} {now : Ticks} {ls : List Label} {s : State ι}
    (h : Run (step P) Any (initial P now) ls s) : ∃ p, Inv P now p s :=
  h.invariant (I := fun s => ∃ p, Inv P now p s) ⟨_, inv_initial P now⟩
    fun _ _ _ ⟨_, hp⟩ _ hs => hp.step hs

/-! ## Counting up -/

/-- **Every number once.** Whichever timer is first, the numbers are printed in order, and no number
twice; each timer has at most one wait, and as many are started as there are lines and timers. When
`run` has nothing left to do, the counter is at its limit. -/
theorem counts_up {P : Printer ι} {now : Ticks} {ls : List Label} {s : State ι}
    (h : Run (step P) Any (initial P now) ls s) :
    s.lines.map Line.count = List.range s.count ∧ s.count ≤ P.limit ∧
      (s.handlers.map Prod.snd).Nodup ∧
      s.io.nextId + s.toWait.length = s.count + P.timers.length ∧
      (s.toWait = [] → s.handlers = [] → s.count = P.limit) := by
  obtain ⟨p, hp⟩ := inv_of_run h
  refine ⟨hp.books.lines, hp.books.count, (List.nodup_append.mp hp.books.once).2.1, ?_, ?_⟩
  · rw [← length_ops hp.refines]
    exact hp.books.started
  · exact hp.books.limit

/-- Two timers take turns. -/
def turns : List Label :=
  [.main, .tick ⟨5, by decide⟩, .main, .main, .main, .tick ⟨1000000500, by decide⟩, .reactor,
    .handle 1, .handle 0, .tick ⟨2000001500, by decide⟩, .reactor, .handle 2]

theorem counts_up_turns :
    let s := reached (step timer5) Any (initial timer5 ⟨1, by decide⟩) turns
    s.lines.map Line.count = List.range s.count ∧ s.count ≤ timer5.limit ∧
      (s.handlers.map Prod.snd).Nodup ∧
      s.io.nextId + s.toWait.length = s.count + timer5.timers.length ∧
      (s.toWait = [] → s.handlers = [] → s.count = timer5.limit) :=
  counts_up (run_reached (by decide +kernel))

/-! ## In time -/

/-- **No line too early.** No wait is cancelled, and the line number `n` of a timer is not printed
until `n` periods are over since the start of the program. -/
theorem on_time {P : Printer ι} {now : Ticks} {ls : List Label} {s : State ι}
    (h : Run (step P) Any (initial P now) ls s) :
    (∀ op ∈ s.io.completed, op.ec = none) ∧
      ∀ before line after, s.lines = before ++ line :: after →
        due P now (printed line.timer before + 1) ≤ line.time := by
  obtain ⟨p, hp⟩ := inv_of_run h
  refine ⟨?_, hp.timed.times⟩
  intro op hop
  rw [hp.refines.completed.mem_iff] at hop
  obtain ⟨op', hop', hresult⟩ := List.mem_filterMap.mp hop
  obtain ⟨r, hr, hcompletion⟩ := Option.bind_eq_some_iff.mp hresult
  rcases hp.timed.outcomes op' hop' with hnone | ⟨hexpired, -⟩
  · exact absurd (hnone.symm.trans hr) (by simp)
  · obtain rfl := Option.some.inj (hexpired.symm.trans hr)
    obtain rfl := Option.some.inj hcompletion
    rfl

theorem on_time_turns :
    let s := reached (step timer5) Any (initial timer5 ⟨1, by decide⟩) turns
    (∀ op ∈ s.io.completed, op.ec = none) ∧
      ∀ before line after, s.lines = before ++ line :: after →
        due timer5 ⟨1, by decide⟩ (printed line.timer before + 1) ≤ line.time :=
  on_time (run_reached (by decide +kernel))

end AsioLearn.Timer
