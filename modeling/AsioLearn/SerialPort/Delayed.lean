import AsioLearn.SerialPort.Batches
import AsioLearn.SerialPort.Deadlock
import AsioLearn.SerialPort.Released

/-!
# `io_.stop()` after the batch

What the io thread has taken does not notice `io_.stop()`. A run of the session with the batches of
`strand_` is therefore one without, in which the calls of `io_.stop()` that come meanwhile are made
when the io thread is through: their callers wait for it anyhow.

* `not_stopIo_of_run`: the io thread itself does not come to `io_.stop()`.
* `exists_delayed`: the run without batches.
* `exists_run_of_not_busy`: the states in which nothing is delayed.
-/

namespace AsioLearn.SerialPort

open Proactor Lts

/-! ## The io thread does not stop `io_` -/

/-- The call waits for the promise of `stop()` or has its value. -/
def Pc.awaits : Pc → Bool
  | .stopWait | .stopIo | .stopJoin => true
  | _ => false

/-- The io thread has posted no closure of `stop()`. -/
structure Unasked (s : State) : Prop where
  done : .io ∉ s.done
  strand : .stop .io ∉ s.strand
  frame : ∀ f, s.ioThread = .handling f → f.after ≠ .setValue .io ∧ f.pc.awaits = false

section

variable {s s' : State}

theorem Unasked.congr (h : Unasked s) (hdone : s'.done = s.done) (hstrand : s'.strand = s.strand)
    (hio : s'.ioThread = s.ioThread) : Unasked s' :=
  ⟨by rw [hdone]; exact h.done, by rw [hstrand]; exact h.strand, by rw [hio]; exact h.frame⟩

theorem unasked_startOp (h : Unasked s) (t : Task) : Unasked (startOp t s) := h.congr rfl rfl rfl

theorem unasked_writeSome (h : Unasked s) (msg : Bytes) (sent : ℕ) :
    Unasked (writeSome msg sent s) := by
  unfold writeSome
  split_ifs
  · exact h.congr rfl rfl rfl
  · exact unasked_startOp h _
  · exact h.congr rfl rfl rfl

theorem unasked_afterRun (h : Unasked s) {a : After} (ha : a ≠ .setValue .io) :
    Unasked (a.run s) := by
  cases a with
  | nothing => exact h
  | startRead => exact unasked_startOp h .read
  | setValue caller =>
    refine ⟨?_, h.strand, h.frame⟩
    show .io ∉ s.done ++ [caller]
    rw [List.mem_append, List.mem_singleton]
    rintro (hmem | rfl)
    · exact h.done hmem
    · exact ha rfl

theorem unasked_invoke (h : Unasked s) (env : Env) (set : Bool) (e : Event) {a : After}
    (ha : a ≠ .setValue .io) : Unasked (invoke env set e a s) := by
  unfold invoke
  split_ifs
  · refine ⟨h.done, h.strand, ?_⟩
    intro f hf
    obtain rfl := IoThread.handling.inj hf
    exact ⟨ha, rfl⟩
  · exact unasked_afterRun h ha

theorem unasked_run (h : Unasked s) (env : Env) {item : Item} (hitem : item ≠ .stop .io) :
    Unasked (item.run env s) := by
  cases item with
  | send msg =>
    unfold Item.run
    dsimp only
    split_ifs
    · exact unasked_writeSome h msg 0
    · exact h
  | stop caller =>
    have hcaller : After.setValue caller ≠ .setValue .io := by
      intro heq
      obtain rfl := After.setValue.inj heq
      exact hitem rfl
    unfold Item.run
    dsimp only
    split_ifs
    · exact unasked_invoke (s := closePort s) (h.congr rfl rfl rfl) env _ _ hcaller
    · exact unasked_afterRun h hcaller
  | completed t r =>
    cases t with
    | read =>
      show Unasked (readHandler env r s)
      unfold readHandler
      split
      · exact unasked_invoke h env _ _ (by simp)
      · split_ifs
        · exact h
        · exact unasked_invoke h env _ _ (by simp)
    | write msg sent =>
      show Unasked (writeResume env msg sent r s)
      unfold writeResume writeHandler
      split_ifs
      · split
        · exact h
        · split_ifs
          · exact h
          · exact unasked_invoke h env _ _ (by simp)
      · exact unasked_writeSome h _ _

/-- A call going on posts such a closure only as the io thread itself. -/
theorem unasked_advance (h : Unasked s) {env : Env} {caller : Caller} {pc pc' : Pc} {u : State}
    (hadv : advance env caller s pc = some (pc', u)) (hpost : pc = .stopPost → caller ≠ .io) :
    Unasked u := by
  cases advances_of_advance hadv with
  | stopPost =>
    refine ⟨h.done, ?_, h.frame⟩
    show .stop .io ∉ s.strand ++ [.stop caller]
    rw [List.mem_append, List.mem_singleton]
    rintro (hmem | heq)
    · exact h.strand hmem
    · exact hpost rfl (Item.stop.inj heq).symm
  | sendPost msg =>
    refine ⟨h.done, ?_, h.frame⟩
    show .stop .io ∉ s.strand ++ [.send msg]
    simpa using h.strand
  | stopWait => exact ⟨fun hmem => h.done (List.mem_of_mem_erase hmem), h.strand, h.frame⟩
  | join | spawn => exact ⟨h.done, h.strand, by simp⟩
  | _ => exact h.congr rfl rfl rfl

theorem unasked_or_blocked_of_moves (h : Unasked s) {l : Label} (hm : Moves s l s') :
    Unasked s' ∨ Blocked s' := by
  cases hm with
  | call thread c hidle =>
    obtain ⟨es, -, hs⟩ := begin_snd c s
    rw [hs]
    exact Or.inl (h.congr rfl rfl rfl)
  | advance thread env pc u hadv =>
    exact Or.inl ((unasked_advance h hadv (by simp)).congr rfl rfl rfl)
  | setReceiveCallback set | setErrorCallback set | ioThrow => exact Or.inl (h.congr rfl rfl rfl)
  | complete i out before after t res hp =>
    obtain ⟨buffer, es, -, hs⟩ :=
      deliver_eq out t { s with ops := before ++ ⟨t, some res⟩ :: after }
    rw [hs]
    exact Or.inl (h.congr rfl rfl rfl)
  | dispatch i before after t res =>
    refine Or.inl ⟨h.done, ?_, h.frame⟩
    show .stop .io ∉ s.strand ++ [.completed t res]
    simpa using h.strand
  | runStrand env item rest hio hstop hstrand =>
    have hmem : ∀ item' ∈ rest, item' ∈ s.strand := by
      intro item' hitem
      rw [hstrand]
      exact List.mem_cons_of_mem _ hitem
    refine Or.inl (unasked_run (s := { s with strand := rest })
      ⟨h.done, fun hrest => h.strand (hmem _ hrest), h.frame⟩ env ?_)
    rintro rfl
    exact h.strand (hstrand ▸ List.mem_cons_self)
  | ioCall env f c calls hf =>
    obtain ⟨es, -, hs⟩ := begin_snd c s
    refine Or.inl ⟨?_, ?_, ?_⟩
    · rw [hs]
      exact h.done
    · rw [hs]
      exact h.strand
    · intro f' hf'
      obtain rfl := IoThread.handling.inj hf'
      refine ⟨(h.frame f hf).1, ?_⟩
      cases c with
      | start | stop | send msg =>
        unfold Call.begin
        split_ifs <;> rfl
  | ioReturn env f hf =>
    exact Or.inl (unasked_afterRun (s := { s with ioThread := .running })
      ⟨h.done, h.strand, by simp⟩ (h.frame f hf).1)
  | ioGo env f pc u hf hpc hadv =>
    obtain ⟨hafter, hawaits⟩ := h.frame f hf
    by_cases hpost : f.pc = .stopPost
    · rw [hpost] at hadv
      obtain ⟨rfl, rfl⟩ := Prod.mk.inj (Option.some.inj hadv)
      exact Or.inr ⟨h.done, _, rfl, rfl⟩
    · have hu := unasked_advance h hadv fun hno => absurd hno hpost
      refine Or.inl ⟨hu.done, hu.strand, ?_⟩
      intro f' hf'
      obtain rfl := IoThread.handling.inj hf'
      refine ⟨hafter, ?_⟩
      have hgo := advances_of_advance hadv
      generalize f.pc = at' at hgo hawaits hpost
      cases hgo with
      | stopPost => exact absurd rfl hpost
      | stopWait | stopIo => exact absurd hawaits (by simp [Pc.awaits])
      | _ => rfl
  | ioExit => exact Or.inl ⟨h.done, h.strand, by simp⟩

/-- A `stop()` of the io thread waits for good. -/
theorem not_stopIo_of_run {ls : List Label} (h : Run step Any init ls s) :
    pcOf s .io ≠ .stopIo := by
  have hcases := h.invariant (I := fun s => Unasked s ∨ Blocked s)
    (Or.inl ⟨by simp [init], by simp [init], by simp [init]⟩) (by
      rintro s l s' (hI | hI) _ hs
      · exact unasked_or_blocked_of_moves hI (moves_of_step hs)
      · exact Or.inr (blocked_step hI hs))
  intro hat
  cases hio : s.ioThread with
  | handling f =>
    rw [pcOf_io_handling hio] at hat
    rcases hcases with hno | ⟨-, f', hf', hwait⟩
    · exact absurd (hno.frame f hio).2 (by simp [hat, Pc.awaits])
    · obtain rfl := IoThread.handling.inj (hio.symm.trans hf')
      exact absurd (hat.symm.trans hwait) (by simp)
  | none | running | exited => simp [pcOf, hio] at hat

end

/-! ## Another view of the queue and of the calls of `io_.stop()` -/

/-- The queue begins with `ready`, and the threads of `delayed` are still to call `io_.stop()`. -/
def view (ready : List Item) (stopped : Bool) (delayed : List ℕ) (s : State) : State :=
  { s with
    strand := ready ++ s.strand
    ioStopped := stopped
    threads := fun thread => if thread ∈ delayed then .stopIo else s.threads thread }

section

variable {ready : List Item} {stopped : Bool} {delayed : List ℕ} {s : State}

theorem view_begin (c : Call) : c.begin (view ready stopped delayed s) =
    ((c.begin s).1, view ready stopped delayed (c.begin s).2) := by
  cases c with
  | start | stop => rfl
  | send msg =>
    cases hrunning : s.running with
    | true => simp [Call.begin, view, hrunning]
    | false =>
      cases herror : s.errorCallback <;> simp [Call.begin, view, hrunning, report, emit, herror]

theorem view_openPort (env : Env) : openPort env (view ready stopped delayed s) =
    ((openPort env s).1, view ready stopped delayed (openPort env s).2) := by
  unfold openPort
  cases hopen : s.portOpen <;> cases hopening : env.opening <;> cases herror : s.errorCallback <;>
    simp [view, hopen, report, emit, herror, startAsyncRead, startOp]

/-- A call other than that of `io_.stop()`. -/
theorem view_advance {env : Env} {caller : Caller} {pc pc' : Pc} {u : State}
    (hadv : advance env caller s pc = some (pc', u)) (hpc : pc ≠ .stopIo) :
    advance env caller (view ready stopped delayed s) pc =
      some (pc', view ready stopped delayed u) := by
  cases pc with
  | stopIo => exact absurd rfl hpc
  | startOpen =>
    rw [advance_startOpen] at hadv ⊢
    obtain ⟨rfl, rfl⟩ := Prod.mk.inj (Option.some.inj hadv)
    rw [view_openPort]
  | idle => exact absurd hadv (by simp [advance])
  | stopClear | startSet =>
    obtain ⟨rfl, rfl⟩ := Prod.mk.inj (Option.some.inj hadv)
    rfl
  | stopPost | sendPost msg =>
    obtain ⟨rfl, rfl⟩ := Prod.mk.inj (Option.some.inj hadv)
    simp [advance, view, emit]
  | stopWait =>
    simp only [advance] at hadv ⊢
    split_ifs at hadv with hdone
    obtain ⟨rfl, rfl⟩ := Prod.mk.inj (Option.some.inj hadv)
    exact if_pos hdone
  | stopJoin | startSpawn =>
    cases hio : s.ioThread <;> cases caller <;>
      simp only [advance, hio, Option.some.injEq, Prod.mk.injEq, reduceCtorEq] at hadv <;>
      obtain ⟨rfl, rfl⟩ := hadv <;> simp [advance, view, hio]

theorem view_deliver (out : Outcome) (t : Task) : out.deliver t (view ready stopped delayed s) =
    view ready stopped delayed (out.deliver t s) := by
  cases out <;> cases t <;> rfl

theorem view_writeSome (msg : Bytes) (sent : ℕ) :
    writeSome msg sent (view ready stopped delayed s) =
      view ready stopped delayed (writeSome msg sent s) := by
  unfold writeSome
  cases hopen : s.portOpen <;> split_ifs <;> simp_all [view, startOp, emit]

theorem view_afterRun (a : After) : a.run (view ready stopped delayed s) =
    view ready stopped delayed (a.run s) := by
  cases a <;> rfl

theorem view_invoke (env : Env) (set : Bool) (e : Event) (a : After) :
    invoke env set e a (view ready stopped delayed s) =
      view ready stopped delayed (invoke env set e a s) := by
  unfold invoke
  split_ifs
  · rfl
  · exact view_afterRun a

theorem view_run (env : Env) (item : Item) : item.run env (view ready stopped delayed s) =
    view ready stopped delayed (item.run env s) := by
  cases item with
  | send msg =>
    by_cases hopen : s.portOpen = true
    · have hview : (view ready stopped delayed s).portOpen = true := hopen
      simp only [Item.run, if_pos hopen, if_pos hview]
      exact view_writeSome msg 0
    · have hview : ¬ (view ready stopped delayed s).portOpen = true := hopen
      simp only [Item.run, if_neg hopen, if_neg hview]
  | stop caller =>
    by_cases hopen : s.portOpen = true
    · have hview : (view ready stopped delayed s).portOpen = true := hopen
      simp only [Item.run, if_pos hopen, if_pos hview]
      exact view_invoke (s := closePort s) env s.errorCallback _ _
    · have hview : ¬ (view ready stopped delayed s).portOpen = true := hopen
      simp only [Item.run, if_neg hopen, if_neg hview]
      exact view_afterRun _
  | completed t r =>
    cases t with
    | read =>
      simp only [Item.run, readHandler]
      split
      · exact view_invoke env s.receiveCallback _ _
      · split_ifs
        · rfl
        · exact view_invoke env s.errorCallback _ _
    | write msg sent =>
      simp only [Item.run, writeResume, writeHandler]
      split_ifs
      · split
        · rfl
        · split_ifs
          · rfl
          · exact view_invoke env s.errorCallback _ _
      · exact view_writeSome _ _

theorem view_update {thread : ℕ} (h : thread ∉ delayed) (pc : Pc) :
    view ready stopped delayed { s with threads := Function.update s.threads thread pc } =
      { view ready stopped delayed s with
        threads := Function.update (view ready stopped delayed s).threads thread pc } := by
  have hthreads :
      (fun n => if n ∈ delayed then .stopIo else Function.update s.threads thread pc n) =
        Function.update (fun n => if n ∈ delayed then .stopIo else s.threads n) thread pc := by
    funext n
    by_cases hn : n = thread
    · rw [hn, Function.update_self, Function.update_self, if_neg h]
    · rw [Function.update_of_ne hn, Function.update_of_ne hn]
  unfold view
  rw [← hthreads]

/-- A thread that waits for the io thread takes no step. -/
theorem not_mem_of_advance {env : Env} {thread : ℕ} {pc : Pc} {u : State}
    (hthreads : ∀ n ∈ delayed, s.threads n = .stopJoin)
    (hrun : delayed ≠ [] → s.ioThread.inRun = true)
    (hadv : advance env (.user thread) s (s.threads thread) = some (pc, u)) : thread ∉ delayed := by
  intro hmem
  have hin := hrun (List.ne_nil_of_mem hmem)
  rw [hthreads thread hmem] at hadv
  cases advances_of_advance hadv with
  | notJoinable hio | join _ _ hio => exact absurd hin (by simp [hio, IoThread.inRun])
  | joinSelf hself => exact absurd hself (by simp)

theorem view_step (ready : List Item) (stopped : Bool) {l : Label} {u : State}
    (hs : step s l = some u) (hl : Batches.isTaken l = false)
    (hthreads : ∀ n ∈ delayed, s.threads n = .stopJoin)
    (hrun : delayed ≠ [] → s.ioThread.inRun = true)
    (hat : ∀ c env, actor? l = some (c, env) → pcOf s c ≠ .stopIo) :
    step (view ready stopped delayed s) l = some (view ready stopped delayed u) := by
  have hterm : s.terminated = false := terminated_of_step hs
  refine step_of_moves (s := view ready stopped delayed s) hterm ?_
  cases moves_of_step hs with
  | call thread c hidle =>
    have hnot : thread ∉ delayed := fun hmem =>
      absurd (hidle.symm.trans (hthreads thread hmem)) (by simp)
    have hmoves := Moves.call (s := view ready stopped delayed s) thread c
      ((if_neg hnot).trans hidle)
    rw [view_begin] at hmoves
    rw [view_update hnot]
    exact hmoves
  | advance thread env pc u hadv =>
    have hnot := not_mem_of_advance hthreads hrun hadv
    have hpc : (view ready stopped delayed s).threads thread = s.threads thread := if_neg hnot
    rw [view_update hnot]
    refine .advance thread env pc (view ready stopped delayed u) ?_
    rw [hpc]
    exact view_advance hadv (hat _ _ rfl)
  | setReceiveCallback set => exact .setReceiveCallback set
  | setErrorCallback set => exact .setErrorCallback set
  | complete i out before after t res hp hwait hres =>
    rw [← view_deliver]
    exact .complete i out before after t res hp hwait hres
  | ioCall env f c calls hf hpc hcalls =>
    have hmoves := Moves.ioCall (s := view ready stopped delayed s) env f c calls hf hpc hcalls
    rw [view_begin] at hmoves
    exact hmoves
  | ioThrow env f hf hpc hcalls hthrows => exact .ioThrow env f hf hpc hcalls hthrows
  | ioReturn env f hf hpc hcalls hthrows =>
    rw [← view_afterRun]
    exact .ioReturn env f hf hpc hcalls hthrows
  | ioGo env f pc u hf hpc hadv =>
    refine .ioGo env f pc (view ready stopped delayed u) hf hpc (view_advance hadv ?_)
    rw [← pcOf_io_handling hf]
    exact hat _ _ rfl
  | dispatch | runStrand | ioExit => exact absurd hl (by simp [Batches.isTaken])

/-- The calls of `io_.stop()` that are still to be made. -/
theorem run_delayed (ready : List Item) (stopped : Bool) (hnodup : delayed.Nodup)
    (hthreads : ∀ n ∈ delayed, s.threads n = .stopJoin) (hterm : s.terminated = false) :
    Run step Any (view ready stopped delayed s) (delayed.map fun n => .advance n {})
      (view ready (stopped || !delayed.isEmpty) [] s) := by
  induction delayed generalizing stopped with
  | nil =>
    rw [List.isEmpty_nil, Bool.not_true, Bool.or_false]
    exact .nil _
  | cons n rest ih =>
    obtain ⟨hnot, hrest⟩ := List.nodup_cons.mp hnodup
    have hthen := ih true hrest fun m hm => hthreads m (List.mem_cons_of_mem _ hm)
    have hpc : (view ready stopped (n :: rest) s).threads n = .stopIo := if_pos List.mem_cons_self
    have hcall : Moves (view ready stopped (n :: rest) s) (.advance n {})
        (view ready true rest s) := by
      have hthreads' : (view ready true rest s).threads =
          Function.update (view ready stopped (n :: rest) s).threads n .stopJoin := by
        funext m
        by_cases hm : m = n
        · rw [hm, Function.update_self]
          exact (if_neg hnot).trans (hthreads n List.mem_cons_self)
        · rw [Function.update_of_ne hm]
          simp [view, hm]
      have hmoves := Moves.advance (s := view ready stopped (n :: rest) s) n {} .stopJoin
        { view ready stopped (n :: rest) s with ioStopped := true } (by rw [hpc]; rfl)
      rw [← hthreads'] at hmoves
      exact hmoves
    rw [Bool.true_or] at hthen
    rw [List.isEmpty_cons, Bool.not_false, Bool.or_true]
    exact .cons trivial (step_of_moves hterm hcall) hthen

/-- A call of `io_.stop()` that has been made is still to be made. -/
theorem view_cons {thread : ℕ} {u : State} (hpc : s.threads thread = .stopIo)
    (hnot : thread ∉ delayed)
    (hu : u = { s with
      ioStopped := true
      threads := Function.update s.threads thread .stopJoin }) :
    view ready stopped (thread :: delayed) u = view ready stopped delayed s := by
  have hthreads : (fun n => if n ∈ thread :: delayed then .stopIo else u.threads n) =
      fun n => if n ∈ delayed then .stopIo else s.threads n := by
    funext n
    rw [hu]
    by_cases hn : n = thread
    · rw [hn, if_pos List.mem_cons_self, if_neg hnot, hpc]
    · simp [List.mem_cons, hn]
  unfold view
  rw [hthreads, hu]

/-- A thread that waits for the io thread goes on waiting. -/
theorem threads_of_waiting {l : Label} {u : State} {thread : ℕ} (hs : step s l = some u)
    (hpc : s.threads thread = .stopJoin) (hrun : s.ioThread.inRun = true) :
    u.threads thread = .stopJoin := by
  cases moves_of_step hs with
  | call n c hidle =>
    have hne : thread ≠ n := by
      rintro rfl
      exact absurd (hidle.symm.trans hpc) (by simp)
    obtain ⟨es, -, hbegin⟩ := begin_snd c s
    rw [hbegin]
    exact (Function.update_of_ne hne ..).trans hpc
  | advance n env pc u hadv =>
    have hnot : n ∉ [thread] := not_mem_of_advance (by simpa using hpc) (fun _ => hrun) hadv
    have hne : thread ≠ n := fun heq => hnot (by simp [heq])
    refine (Function.update_of_ne hne ..).trans ?_
    rw [threads_advance hadv, hpc]
  | setReceiveCallback set | setErrorCallback set | dispatch | ioThrow | ioExit => exact hpc
  | complete i out before after t res =>
    obtain ⟨buffer, es, -, hs⟩ :=
      deliver_eq out t { s with ops := before ++ ⟨t, some res⟩ :: after }
    rw [hs]
    exact hpc
  | runStrand env item rest =>
    rw [(handled_run env { s with strand := rest } item).threads]
    exact hpc
  | ioCall env f c calls =>
    obtain ⟨es, -, hbegin⟩ := begin_snd c s
    rw [hbegin]
    exact hpc
  | ioReturn env f =>
    rw [(handled_afterRun env { s with ioThread := .running } f.after).threads]
    exact hpc
  | ioGo env f pc u hf hfpc hadv =>
    show u.threads thread = .stopJoin
    rw [threads_advance hadv, hpc]

end

/-! ## The run without batches -/

namespace Batches

variable {s s' : State} {delayed : List ℕ}

/-- The io thread has taken something. -/
def Busy (s : State) : Prop := s.inBatch = true ∨ s.hand ≠ none

/-- The session with one queue, in which the threads of `delayed` are still to call `io_.stop()`. -/
def shown (delayed : List ℕ) (s : State) : SerialPort.State :=
  view s.ready (s.ioStopped && delayed.isEmpty) delayed s.toState

/-- These threads have called `io_.stop()` since the io thread has taken something. -/
structure Delays (delayed : List ℕ) (s : State) : Prop where
  nodup : delayed.Nodup
  threads : ∀ n ∈ delayed, s.threads n = .stopJoin
  busy : delayed ≠ [] → Busy s
  stopped : Busy s → s.ioStopped = !delayed.isEmpty

theorem Delays.schedule (h : Delays delayed s) : Delays delayed (schedule s) := by
  unfold Batches.schedule
  split_ifs
  · exact h
  · exact ⟨h.nodup, h.threads, h.busy, h.stopped⟩

theorem shown_schedule : shown delayed (schedule s) = shown delayed s := by
  unfold schedule
  split_ifs with hlocked
  · rfl
  · have hready := (unlocked_iff.mp (Bool.eq_false_iff.mpr hlocked)).2
    simp [shown, view, hready]

theorem Sound.inRun_of_busy (h : Sound s) (hbusy : Busy s) : s.ioThread.inRun = true := by
  rcases hbusy with hbatch | hhand
  · exact h.inBatch hbatch
  · obtain ⟨i, hi⟩ := Option.ne_none_iff_exists'.mp hhand
    exact (h.hand i hi).2.2

theorem not_busy_of_looks (h : Looks s) : ¬ Busy s := by
  rintro (hbatch | hhand)
  · exact absurd (h.2.1.symm.trans hbatch) (by simp)
  · exact hhand h.2.2

theorem Delays.eq_nil (h : Delays delayed s) (hno : ¬ Busy s) : delayed = [] := by
  by_contra hne
  exact hno (h.busy hne)

/-- While the io thread is busy, `io_` is not yet stopped. -/
theorem Delays.shown_of_busy (h : Delays delayed s) (hbusy : Busy s) :
    shown delayed s = view s.ready false delayed s.toState := by
  unfold shown
  rw [h.stopped hbusy, Bool.not_and_self]

/-- When the io thread is through, the calls are made. -/
theorem Delays.settle (h : Delays delayed s) (hbusy : Busy s) (hterm : s.terminated = false) :
    ∃ ls, Run SerialPort.step Any (shown delayed s) ls (view s.ready s.ioStopped [] s.toState) := by
  have hrun := run_delayed s.ready false h.nodup h.threads hterm
  rw [Bool.false_or, ← h.stopped hbusy] at hrun
  rw [h.shown_of_busy hbusy]
  exact ⟨_, hrun⟩

theorem delays_nil (hno : ¬ Busy s) : Delays [] s :=
  ⟨List.nodup_nil, by simp, by simp, fun hbusy => absurd hbusy hno⟩

/-- A thread calls `io_.stop()`. -/
theorem delays_stopIo (h : Delays delayed s) {thread : ℕ} {u : SerialPort.State}
    (hterm : s.terminated = false) (hpc : s.threads thread = .stopIo)
    (hu : u = { s.toState with
      ioStopped := true
      threads := Function.update s.threads thread .stopJoin }) :
    ∃ ls delayed', Run SerialPort.step Any (shown delayed s) ls
        (shown delayed' { s with toState := u }) ∧ Delays delayed' { s with toState := u } := by
  have hnot : thread ∉ delayed := by
    intro hmem
    exact absurd (hpc.symm.trans (h.threads thread hmem)) (by simp)
  have hstopped : u.ioStopped = true := by rw [hu]
  have hself : u.threads thread = .stopJoin := by
    rw [hu]
    exact Function.update_self ..
  by_cases hbusy : Busy s
  · refine ⟨[], thread :: delayed, ?_, List.nodup_cons.mpr ⟨hnot, h.nodup⟩, ?_, fun _ => hbusy,
      fun _ => hstopped⟩
    · have hsame : shown (thread :: delayed) { s with toState := u } = shown delayed s := by
        rw [h.shown_of_busy hbusy]
        show view s.ready (u.ioStopped && false) (thread :: delayed) u = _
        rw [Bool.and_false]
        exact view_cons hpc hnot hu
      rw [hsame]
      exact .nil _
    · intro n hn
      rcases List.mem_cons.mp hn with rfl | hn
      · exact hself
      · have hne : n ≠ thread := fun heq => hnot (heq ▸ hn)
        rw [hu]
        exact (Function.update_of_ne hne ..).trans (h.threads n hn)
  · obtain rfl := h.eq_nil hbusy
    have honly : ∀ n ∈ [thread], u.threads n = .stopJoin := by simpa using hself
    have hrun := run_delayed s.ready s.ioStopped (by simp) honly (by rw [hu]; exact hterm)
    rw [view_cons hpc hnot hu] at hrun
    refine ⟨[.advance thread {}], [], ?_, delays_nil hbusy⟩
    simpa [shown, hstopped] using hrun

theorem delays_session (hsound : Sound s) (h : Delays delayed s)
    (hio : pcOf s.toState .io ≠ .stopIo) {l : SerialPort.Label} {u : SerialPort.State}
    (hl : isTaken l = false) (hs : SerialPort.step s.toState l = some u) :
    ∃ ls delayed', Run SerialPort.step Any (shown delayed s) ls
        (shown delayed' { s with toState := u }) ∧ Delays delayed' { s with toState := u } := by
  have hrun : delayed ≠ [] → s.ioThread.inRun = true := fun hne => hsound.inRun_of_busy (h.busy hne)
  by_cases hat : SerialPort.stopsIo s.toState l = true
  · cases moves_of_step hs with
    | advance thread env pc u hadv =>
      have hpc : s.threads thread = .stopIo := by simpa [SerialPort.stopsIo, actor?, pcOf] using hat
      rw [hpc] at hadv
      obtain ⟨rfl, rfl⟩ := Prod.mk.inj (Option.some.inj hadv)
      exact delays_stopIo h (terminated_of_step hs) hpc rfl
    | ioCall env f | ioThrow env f | ioReturn env f | ioGo env f =>
      exact absurd (by simpa [SerialPort.stopsIo, actor?] using hat) hio
    | _ => exact absurd hat (by simp [SerialPort.stopsIo, actor?])
  · have hstopped : u.ioStopped = s.ioStopped := by
      rw [ioStopped_of_moves (moves_of_step hs), Bool.eq_false_iff.mpr hat, Bool.or_false]
    refine ⟨[l], delayed, Run.single trivial ?_, h.nodup, ?_, h.busy, ?_⟩
    · have hview := view_step s.ready (s.ioStopped && delayed.isEmpty) hs hl h.threads hrun
        fun c env hact hpc => hat (by simp [SerialPort.stopsIo, hact, hpc])
      unfold shown
      rw [show ({ s with toState := u } : State).ioStopped = s.ioStopped from hstopped]
      exact hview
    · intro n hn
      exact threads_of_waiting hs (h.threads n hn) (hrun (List.ne_nil_of_mem hn))
    · intro hbusy
      exact hstopped.trans (h.stopped hbusy)

/-- The io thread takes something. -/
theorem delays_takes (h : Delays delayed s) (hlooks : Looks s) (hstop : s.ioStopped = false)
    (hshown : shown [] s' = shown [] s) (hsame : s'.ioStopped = s.ioStopped) :
    ∃ ls delayed', Run SerialPort.step Any (shown delayed s) ls (shown delayed' s') ∧
      Delays delayed' s' := by
  obtain rfl := h.eq_nil (not_busy_of_looks hlooks)
  refine ⟨[], [], ?_, List.nodup_nil, by simp, by simp, fun _ => hsame.trans hstop⟩
  rw [hshown]
  exact .nil _

/-- The io thread is through. -/
theorem delays_through (h : Delays delayed s) (hbusy : Busy s) (hterm : s.terminated = false)
    (hno : ¬ Busy s') (hshown : shown [] s' = view s.ready s.ioStopped [] s.toState) :
    ∃ ls delayed', Run SerialPort.step Any (shown delayed s) ls (shown delayed' s') ∧
      Delays delayed' s' := by
  obtain ⟨ls, hrun⟩ := h.settle hbusy hterm
  refine ⟨ls, [], ?_, delays_nil hno⟩
  rw [hshown]
  exact hrun

theorem delays_handOver (hsound : Sound s) (h : Delays delayed s) (hterm : s.terminated = false)
    {i : ℕ} {before after : List (Op Task Result)} {t : Task} {res : Result} (hi : s.hand = some i)
    (hp : pick s.ops i = some (before, ⟨t, some res⟩, after)) :
    let s' := execute (.completed t res) { s with ops := before ++ after, hand := none }
    ∃ ls delayed', Run SerialPort.step Any (shown delayed s) ls (shown delayed' s') ∧
      Delays delayed' s' := by
  intro s'
  have hbusy : Busy s := Or.inr (by simp [hi])
  have hbatch := (hsound.hand i hi).2.1
  -- the handler is given to the strand, still without a stopped `io_`
  have hmoves : SerialPort.step (shown delayed s) (.dispatch i) = some
      (view s.ready false delayed
        { s.toState with ops := before ++ after, strand := s.strand ++ [.completed t res] }) := by
    rw [h.shown_of_busy hbusy]
    have hmoves := Moves.dispatch (s := view s.ready false delayed s.toState) i before after t res
      (hsound.ioThread_of_hand hi) rfl hp
    have happend : (s.ready ++ s.strand) ++ [.completed t res] =
      s.ready ++ (s.strand ++ [.completed t res]) := List.append_assoc ..
    unfold view at hmoves ⊢
    rw [happend] at hmoves
    exact step_of_moves hterm hmoves
  by_cases hlocked : s.locked = true
  · have hs' : s' = { s with
        ops := before ++ after
        hand := none
        strand := s.strand ++ [.completed t res] } := if_pos hlocked
    have hthen : Delays delayed { s with
        ops := before ++ after, strand := s.strand ++ [.completed t res] } :=
      ⟨h.nodup, h.threads, h.busy, h.stopped⟩
    obtain ⟨ls, hrun⟩ := hthen.settle hbusy hterm
    have hno : ¬ Busy s' := by
      rw [hs']
      rintro (hyes | hsome)
      · exact absurd (hbatch.symm.trans hyes) (by simp)
      · exact hsome rfl
    refine ⟨.dispatch i :: ls, [], .cons trivial hmoves ?_, delays_nil hno⟩
    rw [hthen.shown_of_busy hbusy] at hrun
    have hshown : shown [] s' = view s.ready s.ioStopped []
        { s.toState with ops := before ++ after, strand := s.strand ++ [.completed t res] } := by
      rw [hs']
      simp [shown]
    rw [hshown]
    exact hrun
  · have hs' : s' = { s with
        ops := before ++ after
        hand := none
        ready := [.completed t res]
        inBatch := true } := if_neg hlocked
    have hunlocked : s.locked = false := Bool.eq_false_iff.mpr hlocked
    have hready := (unlocked_iff.mp hunlocked).2
    have hthen : Delays delayed s' := by
      rw [hs']
      exact ⟨h.nodup, h.threads, fun _ => Or.inl rfl, fun _ => h.stopped hbusy⟩
    refine ⟨[.dispatch i], delayed, Run.single trivial ?_, hthen⟩
    rw [hmoves, hthen.shown_of_busy (by rw [hs']; exact Or.inl rfl), hs']
    simp [view, hready, hsound.unlocked hunlocked]

theorem delays_step (hsound : Sound s) (h : Delays delayed s)
    (hio : pcOf s.toState .io ≠ .stopIo) {l : Label} (hs : step s l = some s') :
    ∃ ls delayed', Run SerialPort.step Any (shown delayed s) ls (shown delayed' s') ∧
      Delays delayed' s' := by
  have hterm : s.terminated = false := by
    cases hterm : s.terminated with
    | false => rfl
    | true => exact absurd hs (by simp [step, hterm])
  cases goes_of_step hs with
  | session l u hl hu =>
    obtain ⟨ls, delayed', hrun, hthen⟩ := delays_session hsound h hio hl hu
    refine ⟨ls, delayed', ?_, hthen.schedule⟩
    rw [shown_schedule]
    exact hrun
  | take i hlooks hstop hlt => exact delays_takes h hlooks hstop rfl rfl
  | invoke hlooks hstop hready => exact delays_takes h hlooks hstop rfl rfl
  | putBack i before after t hi hp =>
    have hbatch := (hsound.hand i hi).2.1
    refine delays_through h (Or.inr (by simp [hi])) hterm ?_ (by simp [shown])
    rintro (hyes | hsome)
    · exact absurd (hbatch.symm.trans hyes) (by simp)
    · exact hsome rfl
  | handOver i before after t res hi hp => exact delays_handOver hsound h hterm hi hp
  | runReady env item rest hio hbatch hready =>
    have hrun := handled_run env s.toState item
    have hbusy : Busy s := Or.inl hbatch
    have hthen : Delays delayed { s with toState := item.run env s.toState, ready := rest } :=
      ⟨h.nodup, fun n hn => (congrFun hrun.threads n).trans (h.threads n hn),
        fun _ => Or.inl hbatch, fun _ => hrun.ioStopped.trans (h.stopped hbusy)⟩
    refine ⟨[.runStrand env], delayed, Run.single trivial ?_, hthen⟩
    rw [h.shown_of_busy hbusy, hthen.shown_of_busy (Or.inl hbatch)]
    have hmoves := Moves.runStrand (s := view s.ready false delayed s.toState) env item
      (rest ++ s.strand) hio rfl (by simp [view, hready])
    have hview : ({ view s.ready false delayed s.toState with strand := rest ++ s.strand } :
        SerialPort.State) = view rest false delayed s.toState := rfl
    rw [hview, view_run] at hmoves
    exact step_of_moves hterm hmoves
  | leave hio hbatch hready =>
    refine delays_through h (Or.inl hbatch) hterm ?_ (by simp [shown, view, hready])
    rintro (hyes | hsome)
    · exact absurd hyes (by simp)
    · exact hsome (hsound.hand_eq_none hbatch)
  | ioExit hlooks hstop =>
    have hno : ¬ Busy s := not_busy_of_looks hlooks
    obtain rfl := h.eq_nil hno
    refine ⟨[.ioExit], [], Run.single trivial ?_,
      delays_nil (s := { s with ioThread := .exited }) hno⟩
    have hmoves := Moves.ioExit (s := shown [] s) hlooks.1 (by simp [shown, view, hstop])
    exact step_of_moves hterm hmoves

/-- **Batches.** Every run of the session with the batches of `strand_` is one without, which is in
the same state but that the queue is not parted, and that the threads which have called
`io_.stop()` since the io thread has taken something are still to do so. -/
theorem exists_delayed {ls : List Label} (h : Run step Any init ls s) :
    ∃ ls' delayed, Run SerialPort.step Any SerialPort.init ls' (shown delayed s) ∧
      Delays delayed s := by
  refine (h.invariant (I := fun s => Sound s ∧ ∃ ls' delayed,
    Run SerialPort.step Any SerialPort.init ls' (shown delayed s) ∧ Delays delayed s)
    ⟨sound_init, [], [], .nil _, delays_nil (by simp [Busy, init])⟩ ?_).2
  rintro s l s' ⟨hsound, ls', delayed, hrun, hdelays⟩ _ hs
  have hio := not_stopIo_of_run hrun
  obtain ⟨ls'', delayed', hthen, hdelays'⟩ := delays_step hsound hdelays hio hs
  exact ⟨step_sound hsound hs, _, delayed', hrun.append hthen, hdelays'⟩

/-- Whenever the io thread has taken nothing, the session is in a state that it reaches without
batches, if its two queues are taken for one. -/
theorem exists_run_of_not_busy {ls : List Label} (h : Run step Any init ls s) (hno : ¬ Busy s) :
    ∃ ls', Run SerialPort.step Any SerialPort.init ls'
      { s.toState with strand := s.ready ++ s.strand } := by
  obtain ⟨ls', delayed, hrun, hdelays⟩ := exists_delayed h
  obtain rfl := hdelays.eq_nil hno
  exact ⟨ls', by simpa [shown, view] using hrun⟩

end Batches

end AsioLearn.SerialPort
