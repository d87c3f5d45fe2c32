import AsioLearn.SerialPort.Control

/-!
# Starting again

One thread calls `start()`, `send()` and `stop()` one after another, and callbacks call nothing.
While `running_` is set, `io_` should not be stopped and its thread should be in `io_.run()`, so
that what is posted is run and the next `stop()` returns. `stop()` leaves `io_` stopped and
nothing calls `io_.restart()`: this holds for as long as no `start()` sets `running_` while `io_`
is stopped, and no longer.

* `restartable_iff_fresh`: the exact condition.
-/

namespace AsioLearn.SerialPort

open Lts

/-- Calls are made by thread `0`, outside callbacks. -/
def OneThread (_ : State) : Label → Prop
  | .call thread _ => thread = 0
  | .runStrand env => env.calls = []
  | _ => True

instance (s : State) : ∀ l : Label, Decidable (OneThread s l)
  | .call thread _ => inferInstanceAs (Decidable (thread = 0))
  | .runStrand env => inferInstanceAs (Decidable (env.calls = []))
  | .advance _ _ | .setReceiveCallback _ | .setErrorCallback _ | .complete _ _ | .dispatch _
  | .ioAdvance _ | .ioExit => isTrue trivial

/-- The session is in order: what is posted is run, and a call of `stop()` returns, unless a user
callback ends the program by throwing. -/
structure Restartable (s : State) : Prop where
  serves : s.running = true → Serves s
  runs : s.running = true → Dying s ∨ Possible step OneThread (fun t => t.strand = []) s
  returns : (s.threads 0).inStop = true →
    Dying s ∨ Possible step OneThread (fun t => t.threads 0 = .idle) s

/-- If `start()` is about to set `running_`, `io_` is not stopped. -/
def StartsFresh (s : State) (l : Label) : Prop :=
  match l with
  | .advance thread _ => s.threads thread = .startSet → s.ioStopped = false
  | _ => True

instance (s : State) : ∀ l : Label, Decidable (StartsFresh s l)
  | .advance thread _ =>
    inferInstanceAs (Decidable (s.threads thread = .startSet → s.ioStopped = false))
  | .call _ _ | .setReceiveCallback _ | .setErrorCallback _ | .complete _ _ | .dispatch _
  | .runStrand _ | .ioAdvance _ | .ioExit => isTrue trivial

/-! ## Where the one thread is -/

/-- What holds while thread `0` is at a point of its calls. -/
def PointAt (s : State) : Pc → Prop
  | .idle => s.running = false → s.ioThread = .none
  | .startOpen | .startSpawn => s.running = false ∧ s.ioThread = .none
  | .startSet => s.running = false ∧ (s.ioStopped = false → Serves s)
  | .sendPost _ => s.running = true
  | pc => StopAt (.user 0) s pc

structure Cycle (s : State) : Prop where
  others : ∀ thread, thread ≠ 0 → s.threads thread = .idle
  frame : ∀ f, s.ioThread = .handling f → f.pc = .idle ∧ f.calls = []
  serves : s.running = true → Serves s
  point : PointAt s (s.threads 0)

section

variable {s s' : State}

theorem PointAt.mono {pc : Pc} (h : PointAt s pc) (hn : Undisturbed s s')
    (hp : Promised (.user 0) s → Promised (.user 0) s') : PointAt s' pc := by
  cases pc with
  | idle => exact fun hr => hn.none (h (hn.running.symm.trans hr))
  | startOpen | startSpawn => exact ⟨hn.running.trans h.1, hn.none h.2⟩
  | startSet =>
    exact ⟨hn.running.trans h.1, fun hst => hn.serves (h.2 (hn.ioStopped.symm.trans hst))⟩
  | sendPost msg => exact hn.running.trans h
  | stopClear => exact StopAt.mono .stopClear h hn hp
  | stopPost => exact StopAt.mono .stopPost h hn hp
  | stopWait => exact StopAt.mono .stopWait h hn hp
  | stopIo => exact StopAt.mono .stopIo h hn hp
  | stopJoin => exact StopAt.mono .stopJoin h hn hp

theorem pointAt_goOn {thread : ℕ} {pc pc' : Pc} (h : PointAt s pc') :
    PointAt (goOn thread pc s) pc' := by
  cases pc' <;> exact h

/-- The control is undisturbed, and thread `0` may have gone on. -/
theorem Cycle.next (h : Cycle s) (hn : Undisturbed s s')
    (hothers : ∀ thread, thread ≠ 0 → s'.threads thread = s.threads thread)
    (hframe : ∀ f, s'.ioThread = .handling f → f.pc = .idle ∧ f.calls = [])
    (hpoint : PointAt s' (s'.threads 0)) : Cycle s' :=
  ⟨fun thread hne => (hothers thread hne).trans (h.others thread hne), hframe,
    fun hr => hn.serves (h.serves (hn.running.symm.trans hr)), hpoint⟩

theorem pcOf_io_of_frame (h : ∀ f, s.ioThread = .handling f → f.pc = .idle ∧ f.calls = []) :
    pcOf s .io = .idle := by
  by_cases hio : ∃ f, s.ioThread = .handling f
  · obtain ⟨f, hf⟩ := hio
    rw [pcOf_io_handling hf]
    exact (h f hf).1
  · exact pcOf_io_of_ne fun f hf => hio ⟨f, hf⟩

/-- The io thread makes no call. -/
theorem frame_of_moves {l : Label} (h : Moves s l s') (hl : l.isUser = false)
    (hok : OneThread s l) (hframe : ∀ f, s.ioThread = .handling f → f.pc = .idle ∧ f.calls = []) :
    ∀ f, s'.ioThread = .handling f → f.pc = .idle ∧ f.calls = [] := by
  intro f hf
  cases h with
  | call thread c hidle => exact absurd hl (by simp [Label.isUser])
  | advance thread env pc u hadv => exact absurd hl (by simp [Label.isUser])
  | setReceiveCallback set | setErrorCallback set => exact hframe f hf
  | complete i out before after t res hp hwait hres =>
    obtain ⟨buffer, es, -, hs⟩ :=
      deliver_eq out t { s with ops := before ++ ⟨t, some res⟩ :: after }
    rw [hs] at hf
    exact hframe f hf
  | dispatch i before after t res hio hstop hp => exact hframe f hf
  | runStrand env item rest hio hstop hstrand =>
    rcases (handled_run env { s with strand := rest } item).ioThread with he | ⟨after, he⟩
    · exact absurd ((hio.symm.trans he.symm).trans hf) (by simp)
    · obtain rfl := IoThread.handling.inj (he.symm.trans hf)
      exact ⟨rfl, hok⟩
  | ioCall env f' c calls hf' hpc hcalls =>
    exact absurd hcalls (by simp [(hframe f' hf').2])
  | ioThrow env f' hf' hpc hcalls hthrows => exact hframe f hf
  | ioReturn env f' hf' hpc hcalls hthrows =>
    have hio : (f'.after.run { s with ioThread := .running }).ioThread = .running := by
      cases f'.after <;> rfl
    exact absurd (hio.symm.trans hf) (by simp)
  | ioGo env f' pc u hf' hpc hadv => exact absurd (hframe f' hf').1 hpc
  | ioExit hio hstop => exact absurd hf (by simp)

theorem cycle_io (h : Cycle s) {l : Label} (hm : Moves s l s') (hl : l.isUser = false)
    (hok : OneThread s l) : Cycle s' := by
  have hidle := pcOf_io_of_frame h.frame
  obtain ⟨hn, hthreads, -⟩ := undisturbed_of_moves hm hl (by rw [hidle]; rfl)
    (fun env _ hopen => absurd (hidle.symm.trans hopen) (by simp)) (fun c hc => by
      cases l with
      | ioAdvance env =>
        simp only [begun?] at hc
        split at hc
        · rename_i hf
          exact absurd (h.frame _ hf).2 (by simp)
        · exact absurd hc (by simp)
      | call thread c' => exact absurd hl (by simp [Label.isUser])
      | advance _ _ | setReceiveCallback _ | setErrorCallback _ | complete _ _ | dispatch _
      | runStrand _ | ioExit => exact absurd hc (by simp [begun?]))
  refine h.next hn (fun thread _ => congrFun hthreads thread)
    (frame_of_moves hm hl hok h.frame) ?_
  rw [hthreads]
  refine h.point.mono hn fun hp => promised_of_moves hm hp ?_
  intro env hact
  cases l <;> simp_all [actor?, Label.isUser]

/-- Thread `0` begins a call. -/
theorem cycle_call (h : Cycle s) (c : Call) (hidle : s.threads 0 = .idle) :
    Cycle (goOn 0 (c.begin s).1 (c.begin s).2) := by
  have hn := undisturbed_begin c s
  obtain ⟨es, -, hs⟩ := begin_snd c s
  have hpoint : PointAt s .idle := hidle ▸ h.point
  have hpc : PointAt (c.begin s).2 (c.begin s).1 := by
    cases c with
    | start =>
      unfold Call.begin
      split_ifs with hr
      · exact hpoint
      · have hstopped : s.running = false := by simpa using hr
        exact ⟨hstopped, hpoint hstopped⟩
    | stop =>
      unfold Call.begin
      split_ifs with hr
      · exact ⟨hr, h.serves hr⟩
      · exact hpoint
    | send msg =>
      unfold Call.begin
      split_ifs with hr
      · exact hr
      · rw [report_eq]
        exact hpoint
  have hgo : Undisturbed s (goOn 0 (c.begin s).1 (c.begin s).2) :=
    ⟨hn.running, hn.ioStopped, hn.serves, hn.none, hn.opened⟩
  refine h.next hgo ?_ ?_ ?_
  · intro thread hne
    show Function.update (c.begin s).2.threads 0 (c.begin s).1 thread = s.threads thread
    rw [Function.update_of_ne hne, hs]
  · intro f hf
    refine h.frame f ?_
    have : (c.begin s).2.ioThread = s.ioThread := by rw [hs]
    exact this.symm.trans hf
  · rw [goOn_threads]
    exact pointAt_goOn hpc

/-- Thread `0` goes on, and its point is right again. -/
theorem Cycle.goOn (h : Cycle s) {pc : Pc} {u : State} (hthreads : u.threads = s.threads)
    (hio : ∀ f, u.ioThread = .handling f → s.ioThread = .handling f)
    (hserves : u.running = true → Serves u) (hpoint : PointAt u pc) :
    Cycle (SerialPort.goOn 0 pc u) := by
  refine ⟨?_, fun f hf => h.frame f (hio f hf), hserves, ?_⟩
  · intro thread hne
    show Function.update u.threads 0 pc thread = .idle
    rw [Function.update_of_ne hne, hthreads]
    exact h.others thread hne
  · rw [goOn_threads]
    exact pointAt_goOn hpoint

/-- Thread `0` takes its call further; only `start()` setting `running_` may go wrong. -/
theorem cycle_advance (h : Cycle s) {env : Env} {pc : Pc} {u : State}
    (hok : s.threads 0 = .startSet → s.ioStopped = false)
    (hadv : advance env (.user 0) s (s.threads 0) = some (pc, u)) :
    Cycle (SerialPort.goOn 0 pc u) := by
  have hpoint := h.point
  have hgo := advances_of_advance hadv
  generalize s.threads 0 = at' at hgo hpoint hok
  cases hgo with
  | opened es =>
    obtain ⟨hstopped, hnone⟩ := hpoint
    exact h.goOn rfl (fun _ hf => hf)
      (fun hr => absurd hr (by simp [startAsyncRead, startOp, hstopped])) ⟨hstopped, hnone⟩
  | notOpened es =>
    obtain ⟨hstopped, hnone⟩ := hpoint
    exact h.goOn rfl (fun _ hf => hf) (fun hr => absurd hr (by simp [hstopped])) fun _ => hnone
  | spawn =>
    exact h.goOn rfl (fun _ hf => absurd hf (by simp)) (fun hr => absurd hr (by simp [hpoint.1]))
      ⟨hpoint.1, fun hst => ⟨hst, rfl⟩⟩
  | respawn hio => exact absurd hpoint.2 hio
  | startSet =>
    have hserves := hpoint.2 (hok rfl)
    exact h.goOn rfl (fun _ hf => hf) (fun _ => hserves) fun hr => absurd hr (by simp)
  | sendPost msg =>
    have hr : s.running = true := hpoint
    exact h.goOn rfl (fun _ hf => hf) (fun _ => h.serves hr)
      fun hno => absurd (hr.symm.trans hno) (by simp)
  | stopClear => exact h.goOn rfl (fun _ hf => hf) (fun hr => absurd hr (by simp)) ⟨rfl, hpoint.2⟩
  | stopPost =>
    refine h.goOn rfl (fun _ hf => hf) (fun _ => hpoint.2) ⟨hpoint.1, hpoint.2, ?_⟩
    exact Or.inr (Or.inl (List.mem_append_right _ (List.mem_singleton.mpr rfl)))
  | stopWait =>
    exact h.goOn rfl (fun _ hf => hf) (fun _ => hpoint.2.1) ⟨hpoint.1, hpoint.2.1⟩
  | stopIo =>
    exact h.goOn rfl (fun _ hf => hf) (fun hr => absurd hr (by simp [hpoint.1])) ⟨hpoint.1, rfl⟩
  | notJoinable hio =>
    exact h.goOn rfl (fun _ hf => hf) (fun hr => absurd hr (by simp [hpoint.1])) fun _ => hio
  | join =>
    exact h.goOn rfl (fun _ hf => absurd hf (by simp)) (fun hr => absurd hr (by simp [hpoint.1]))
      fun _ => rfl
  | joinSelf hself => exact absurd hself (by simp)

theorem step_cycle (h : Cycle s) {l : Label} (hbase : OneThread s l) (hok : StartsFresh s l)
    (hs : step s l = some s') : Cycle s' := by
  have hm := moves_of_step hs
  by_cases hl : l.isUser = true
  · cases hm with
    | call thread c hidle =>
      obtain rfl : thread = 0 := hbase
      exact cycle_call h c hidle
    | advance thread env pc u hadv =>
      by_cases hne : thread = 0
      · subst hne
        exact cycle_advance h hok hadv
      · rw [h.others thread hne] at hadv
        exact absurd hadv (by simp [advance])
    | _ => exact absurd hl (by simp [Label.isUser])
  · exact cycle_io h hm (by simpa using hl) hbase

end

theorem cycle_init : Cycle init :=
  ⟨fun _ _ => rfl, fun f h => absurd h (by simp [init]), fun h => absurd h (by simp [init]),
    fun _ => rfl⟩

/-! ## The session in order -/

theorem oneThread_of_calm {s : State} {l : Label} (h : Calm s l) : OneThread s l := by
  rcases h with rfl | rfl | rfl | ⟨thread, rfl⟩ <;> trivial

theorem restartable_of_cycle {s : State} (h : Cycle s) : Restartable s := by
  by_cases hdying : Dying s
  · exact ⟨h.serves, fun _ => Or.inl hdying, fun _ => Or.inl hdying⟩
  · have hu : Unhindered s :=
      unhindered_of_not_dying hdying (by rw [pcOf_io_of_frame h.frame]; rfl)
    refine ⟨h.serves, fun hr => Or.inr ?_, fun hstop => Or.inr ?_⟩
    · exact (possible_settle hu (h.serves hr) fun _ f hf => (h.frame f hf).2).mono
        (fun _ _ => oneThread_of_calm) fun t ht => ht.2.2.1
    · have hat : StopAt (.user 0) s (s.threads 0) := by
        have hpoint := h.point
        cases hpc : s.threads 0 with
        | stopClear | stopPost | stopWait | stopIo | stopJoin =>
          rw [hpc] at hpoint
          exact hpoint
        | idle | startOpen | startSpawn | startSet | sendPost _ =>
          exact absurd hstop (by simp [hpc, Pc.inStop])
      exact (possible_stop_return hu hat).mono (fun _ _ => oneThread_of_calm) fun _ ht => ht

/-- `running_` set while `io_` is stopped: nothing posted will be run. -/
theorem not_restartable_of_stale {s s' : State} {l : Label} (hno : ¬ StartsFresh s l)
    (hs : step s l = some s') : ¬ Restartable s' := by
  intro h
  cases moves_of_step hs with
  | advance thread env pc u hadv =>
    simp only [StartsFresh, Classical.not_imp, Bool.not_eq_false] at hno
    obtain ⟨hat, hst⟩ := hno
    rw [hat] at hadv
    obtain ⟨rfl, rfl⟩ := Prod.mk.inj (Option.some.inj hadv)
    have hserves := (h.serves rfl).1
    exact absurd (hst.symm.trans hserves) (by simp)
  | _ => exact hno trivial

/-- **Starting again.** A session driven by one thread is in order throughout a run exactly when
no `start()` sets `running_` while `io_` is stopped. -/
theorem restartable_iff_fresh (ls : List Label) (s : State) (h : Run step OneThread init ls s) :
    Throughout step Restartable init ls ↔ EachStep step StartsFresh init ls :=
  throughout_iff_eachStep (fun _ => restartable_of_cycle)
    (fun _ _ _ hI hbase hok hs => step_cycle hI hbase hok hs)
    (fun _ _ _ _ _ hno hs => not_restartable_of_stale hno hs) h cycle_init

/-- One cycle: started, a message sent, stopped and joined. -/
def oneCycle : List Label :=
  [.call 0 .start, .advance 0 {}, .advance 0 {}, .advance 0 {}, .call 0 (.send [97]),
    .advance 0 {}, .runStrand {}, .call 0 .stop, .advance 0 {}, .advance 0 {}, .runStrand {},
    .advance 0 {}, .advance 0 {}, .ioExit, .advance 0 {}]

theorem restartable_iff_fresh_oneCycle : Throughout step Restartable init oneCycle :=
  (restartable_iff_fresh oneCycle _ (run_reached (by decide))).mpr (by decide)

/-- Started again after that. -/
def secondCycle : List Label :=
  oneCycle ++ [.call 0 .start, .advance 0 {}, .advance 0 {}, .advance 0 {}]

theorem not_restartable :
    ¬ ∀ (ls : List Label) (s : State), Run step OneThread init ls s → Restartable s := by
  intro h
  have hs := h secondCycle _ (run_reached (by decide))
  have hr : (reached step OneThread init secondCycle).running = true := by decide
  have hst : (reached step OneThread init secondCycle).ioStopped = true := by decide
  exact absurd (hst.symm.trans (hs.serves hr).1) (by simp)

end AsioLearn.SerialPort
