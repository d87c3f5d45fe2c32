import AsioLearn.SerialPort.Model

/-!
# The steps, one by one

`Moves s l s'` says what each step does, with its guards; `step_iff` reads `step` that way. A
call goes on by `Call.begin` and `advance` whoever makes it, so the two functions are described
once, for a caller at a point `pcOf` of its call.
-/

namespace AsioLearn.SerialPort

open Proactor

/-! ## Callers -/

/-- The points of a call of `stop()` after `running_` has been found set. -/
def Pc.inStop : Pc → Bool
  | .stopClear | .stopPost | .stopWait | .stopIo | .stopJoin => true
  | _ => false

/-- The points of a call at which others depend on what it does next: after `open()` in `start()`,
and in `stop()`. -/
def Pc.isActive : Pc → Bool
  | .startSpawn | .startSet => true
  | pc => pc.inStop

theorem Pc.isActive_of_inStop {pc : Pc} (h : pc.inStop = true) : pc.isActive = true := by
  cases pc <;> first | exact h | rfl

/-- Where a caller is. -/
def pcOf (s : State) : Caller → Pc
  | .user thread => s.threads thread
  | .io =>
    match s.ioThread with
    | .handling f => f.pc
    | _ => .idle

/-- The call a step begins, and who makes it. -/
def begun? (s : State) : Label → Option (Caller × Call)
  | .call thread c => some (.user thread, c)
  | .ioAdvance _ =>
    match s.ioThread with
    | .handling ⟨.idle, c :: _, _, _⟩ => some (.io, c)
    | _ => none
  | _ => none

/-- The caller whose call a step may take further. -/
def actor? : Label → Option (Caller × Env)
  | .advance thread env => some (.user thread, env)
  | .ioAdvance env => some (.io, env)
  | _ => none

theorem pcOf_user (s : State) (thread : ℕ) : pcOf s (.user thread) = s.threads thread := rfl

theorem pcOf_io_handling {s : State} {f : Frame} (h : s.ioThread = .handling f) :
    pcOf s .io = f.pc := by
  unfold pcOf
  rw [h]

theorem pcOf_io_of_ne {s : State} (h : ∀ f, s.ioThread ≠ .handling f) : pcOf s .io = .idle := by
  cases hio : s.ioThread with
  | handling f => exact absurd hio (h f)
  | none | running | exited => simp only [pcOf, hio]

theorem begun?_ioAdvance {s : State} {env : Env} {f : Frame} {c : Call} {calls : List Call}
    (hf : s.ioThread = .handling f) (hpc : f.pc = .idle) (hcalls : f.calls = c :: calls) :
    begun? s (.ioAdvance env) = some (.io, c) := by
  obtain ⟨pc, fcalls, throws, after⟩ := f
  obtain rfl : pc = .idle := hpc
  obtain rfl : fcalls = c :: calls := hcalls
  simp only [begun?, hf]

/-! ## What a step does -/

/-- The steps from a state, each with its guards and the state after it. -/
inductive Moves (s : State) : Label → State → Prop
  | call (thread : ℕ) (c : Call) : s.threads thread = .idle →
      Moves s (.call thread c)
        { (c.begin s).2 with
          threads := Function.update (c.begin s).2.threads thread (c.begin s).1 }
  | advance (thread : ℕ) (env : Env) (pc : Pc) (u : State) :
      advance env (.user thread) s (s.threads thread) = some (pc, u) →
      Moves s (.advance thread env) { u with threads := Function.update u.threads thread pc }
  | setReceiveCallback (set : Bool) :
      Moves s (.setReceiveCallback set) { s with receiveCallback := set }
  | setErrorCallback (set : Bool) :
      Moves s (.setErrorCallback set) { s with errorCallback := set }
  | complete (i : ℕ) (out : Outcome) (before after : List (Op Task Result)) (t : Task)
      (res : Result) : pick s.ops i = some (before, ⟨t, none⟩, after) →
      before.any (waits t) = false → out.result? t = some res →
      Moves s (.complete i out) (out.deliver t { s with ops := before ++ ⟨t, some res⟩ :: after })
  | dispatch (i : ℕ) (before after : List (Op Task Result)) (t : Task) (res : Result) :
      s.ioThread = .running → s.ioStopped = false →
      pick s.ops i = some (before, ⟨t, some res⟩, after) →
      Moves s (.dispatch i)
        { s with ops := before ++ after, strand := s.strand ++ [.completed t res] }
  | runStrand (env : Env) (item : Item) (rest : List Item) :
      s.ioThread = .running → s.ioStopped = false → s.strand = item :: rest →
      Moves s (.runStrand env) (item.run env { s with strand := rest })
  | ioCall (env : Env) (f : Frame) (c : Call) (calls : List Call) :
      s.ioThread = .handling f → f.pc = .idle → f.calls = c :: calls →
      Moves s (.ioAdvance env)
        { (c.begin s).2 with
          ioThread := .handling { f with pc := (c.begin s).1, calls := calls } }
  | ioThrow (env : Env) (f : Frame) : s.ioThread = .handling f → f.pc = .idle → f.calls = [] →
      f.throws = true → Moves s (.ioAdvance env) { s with terminated := true }
  | ioReturn (env : Env) (f : Frame) : s.ioThread = .handling f → f.pc = .idle → f.calls = [] →
      f.throws = false → Moves s (.ioAdvance env) (f.after.run { s with ioThread := .running })
  | ioGo (env : Env) (f : Frame) (pc : Pc) (u : State) : s.ioThread = .handling f →
      f.pc ≠ .idle → SerialPort.advance env .io s f.pc = some (pc, u) →
      Moves s (.ioAdvance env) { u with ioThread := .handling { f with pc := pc } }
  | ioExit : s.ioThread = .running → s.ioStopped = true →
      Moves s .ioExit { s with ioThread := .exited }

theorem moves_frame {env : Env} {f : Frame} {s s' : State} (hf : s.ioThread = .handling f)
    (h : f.step env s = some s') : Moves s (.ioAdvance env) s' := by
  unfold Frame.step at h
  split at h
  · rename_i c calls hpc hcalls
    obtain rfl := Option.some.inj h
    exact .ioCall env f c calls hf hpc hcalls
  · rename_i hpc hcalls
    split at h
    · rename_i hthrows
      obtain rfl := Option.some.inj h
      exact .ioThrow env f hf hpc hcalls hthrows
    · rename_i hthrows
      obtain rfl := Option.some.inj h
      exact .ioReturn env f hf hpc hcalls (by simpa using hthrows)
  · rename_i hcons hnil
    split at h
    · rename_i pc u hadv
      obtain rfl := Option.some.inj h
      refine .ioGo env f pc u hf ?_ hadv
      intro hpc
      cases hc : f.calls with
      | nil => exact hnil hpc hc
      | cons c calls => exact hcons c calls hpc hc
    · exact absurd h (by simp)

/-- A step that was made is one of these. -/
theorem moves_of_step {s s' : State} {l : Label} (h : step s l = some s') : Moves s l s' := by
  unfold step at h
  split at h
  · exact absurd h (by simp)
  cases l with
  | call thread c =>
    simp only at h
    split_ifs at h with hidle
    obtain rfl := Option.some.inj h
    exact .call thread c hidle
  | advance thread env =>
    simp only at h
    split at h
    · rename_i pc u hadv
      obtain rfl := Option.some.inj h
      exact .advance thread env pc u hadv
    · exact absurd h (by simp)
  | setReceiveCallback set =>
    obtain rfl := Option.some.inj h
    exact .setReceiveCallback set
  | setErrorCallback set =>
    obtain rfl := Option.some.inj h
    exact .setErrorCallback set
  | complete i out =>
    simp only at h
    split at h
    · rename_i before t after hp
      split_ifs at h with hwait
      split at h
      · rename_i res hres
        obtain rfl := Option.some.inj h
        exact .complete i out before after t res hp (by simpa using hwait) hres
      · exact absurd h (by simp)
    · exact absurd h (by simp)
  | dispatch i =>
    simp only at h
    split at h
    · rename_i before t res after hio hp
      split_ifs at h with hstop
      obtain rfl := Option.some.inj h
      exact .dispatch i before after t res hio (by simpa using hstop) hp
    · exact absurd h (by simp)
  | runStrand env =>
    simp only at h
    split at h
    · rename_i item rest hio hstrand
      split_ifs at h with hstop
      obtain rfl := Option.some.inj h
      exact .runStrand env item rest hio (by simpa using hstop) hstrand
    · exact absurd h (by simp)
  | ioAdvance env =>
    simp only at h
    split at h
    · rename_i f hf
      exact moves_frame hf h
    · exact absurd h (by simp)
  | ioExit =>
    simp only at h
    split at h
    · rename_i hio
      split_ifs at h with hstop
      obtain rfl := Option.some.inj h
      exact .ioExit hio hstop
    · exact absurd h (by simp)

/-- No step is made after the program has been terminated. -/
theorem terminated_of_step {s s' : State} {l : Label} (h : step s l = some s') :
    s.terminated = false := by
  unfold step at h
  split at h
  · exact absurd h (by simp)
  · rename_i hterm
    simpa using hterm

/-- Unless the program has been terminated, each of them can be made. -/
theorem step_of_moves {s s' : State} {l : Label} (ht : s.terminated = false)
    (h : Moves s l s') : step s l = some s' := by
  unfold step
  rw [if_neg (by simp [ht])]
  cases h with
  | call thread c hidle => simp only [if_pos hidle]
  | advance thread env pc u hadv => simp only [hadv]
  | setReceiveCallback set => rfl
  | setErrorCallback set => rfl
  | complete i out before after t res hp hwait hres => simp [hp, hwait, hres]
  | dispatch i before after t res hio hstop hp => simp [hio, hp, hstop]
  | runStrand env item rest hio hstop hstrand => simp [hio, hstrand, hstop]
  | ioCall env f c calls hf hpc hcalls => simp only [hf, Frame.step, hpc, hcalls]
  | ioThrow env f hf hpc hcalls hthrows => simp [hf, Frame.step, hpc, hcalls, hthrows]
  | ioReturn env f hf hpc hcalls hthrows => simp [hf, Frame.step, hpc, hcalls, hthrows]
  | ioGo env f pc u hf hpc hadv =>
    simp only [hf]
    unfold Frame.step
    split
    · exact absurd ‹f.pc = .idle› hpc
    · exact absurd ‹f.pc = .idle› hpc
    · simp only [hadv]
  | ioExit hio hstop => simp [hio, hstop]

theorem step_iff {s s' : State} {l : Label} :
    step s l = some s' ↔ s.terminated = false ∧ Moves s l s' :=
  ⟨fun h => ⟨terminated_of_step h, moves_of_step h⟩, fun h => step_of_moves h.1 h.2⟩

/-! ## What a call does to the rest of the state -/

/-- A report to the error callback that is not about a failed write. -/
def Event.isNotice : Event → Bool
  | .onError (.sendError _) => false
  | .onError _ => true
  | _ => false

/-- The event a report adds. -/
def reported (r : Report) (s : State) : List Event := if s.errorCallback then [.onError r] else []

theorem report_eq (r : Report) (s : State) :
    report r s = { s with log := s.log ++ reported r s } := by
  unfold report reported emit
  split_ifs
  · rfl
  · simp

theorem isNotice_of_mem_reported {r : Report} {s : State} (hr : ∀ ec, r ≠ .sendError ec)
    {e : Event} (he : e ∈ reported r s) : e.isNotice = true := by
  unfold reported at he
  split_ifs at he
  · rw [List.mem_singleton.mp he]
    cases r with
    | sendError ec => exact absurd rfl (hr ec)
    | opened | closed | openFailed _ | notOpen | readError _ => rfl
  · exact absurd he (by simp)

/-- The first step of a call can only add a report. -/
theorem begin_snd (c : Call) (s : State) :
    ∃ es, (∀ e ∈ es, e.isNotice = true) ∧ (c.begin s).2 = { s with log := s.log ++ es } := by
  have hsame : ∃ es : List Event, (∀ e ∈ es, e.isNotice = true) ∧
      s = { s with log := s.log ++ es } := ⟨[], by simp, by simp⟩
  cases c with
  | start | stop => exact hsame
  | send msg =>
    unfold Call.begin
    split_ifs
    · exact hsame
    · exact ⟨reported .notOpen s, fun e => isNotice_of_mem_reported (by simp), report_eq _ _⟩

/-- The completion of an operation moves bytes: it changes `read_buffer_` and the log. -/
theorem deliver_eq (out : Outcome) (t : Task) (s : State) :
    ∃ buffer es, .portOpened ∉ es ∧
      out.deliver t s = { s with readBuffer := buffer, log := s.log ++ es } := by
  unfold Outcome.deliver
  split
  · exact ⟨_, [_], by simp, rfl⟩
  · exact ⟨_, [_], by simp, rfl⟩
  · exact ⟨_, [_], by simp, rfl⟩
  · exact ⟨s.readBuffer, [], by simp, by rw [List.append_nil]⟩

/-- `open()` succeeds once the port was closed, and starts a read; otherwise it reports, and may
leave the port open. -/
theorem openPort_cases (env : Env) (s : State) :
    ∃ es, (∀ e ∈ es, e.isNotice = true) ∧
      (((openPort env s).1 = true ∧ s.portOpen = false ∧ (openPort env s).2 =
          startAsyncRead { s with portOpen := true, log := s.log ++ .portOpened :: es }) ∨
        ((openPort env s).1 = false ∧ ∃ isOpen, (s.portOpen = true → isOpen = true) ∧
          (openPort env s).2 = { s with portOpen := isOpen, log := s.log ++ es })) := by
  have hnotice : ∀ r : Report, (∀ ec, r ≠ .sendError ec) → ∀ e ∈ reported r s,
      e.isNotice = true := fun r hr e => isNotice_of_mem_reported hr
  unfold openPort
  by_cases hopen : s.portOpen = true
  · rw [if_pos hopen]
    refine ⟨reported (.openFailed "open: Already open") s, hnotice _ (by simp),
      Or.inr ⟨rfl, true, fun _ => rfl, ?_⟩⟩
    rw [report_eq, ← hopen]
  · rw [if_neg hopen]
    have hclosed : s.portOpen = false := by simpa using hopen
    cases env.opening with
    | cannotOpen what =>
      exact ⟨reported (.openFailed what) s, hnotice _ (by simp),
        Or.inr ⟨rfl, s.portOpen, fun h => h, report_eq _ _⟩⟩
    | optionFails what =>
      exact ⟨reported (.openFailed what) s, hnotice _ (by simp),
        Or.inr ⟨rfl, true, fun _ => rfl, report_eq _ _⟩⟩
    | succeeds =>
      refine ⟨reported .opened s, hnotice _ (by simp), Or.inl ⟨rfl, hclosed, ?_⟩⟩
      simp [report_eq, emit, reported]
    | infoThrows what =>
      by_cases hcb : s.errorCallback = true
      · refine ⟨[.onError .opened, .onError (.openFailed what)], by simp [Event.isNotice],
          Or.inr ⟨?_, true, fun _ => rfl, ?_⟩⟩
        · simp only [if_pos hcb]
        · simp [hcb, report_eq, reported]
      · refine ⟨[], by simp, Or.inl ⟨?_, hclosed, ?_⟩⟩
        · simp only [if_neg hcb]
        · simp only [if_neg hcb, emit]

/-- `start()` goes on only if `open()` has succeeded. -/
theorem advance_startOpen (env : Env) (caller : Caller) (s : State) :
    advance env caller s .startOpen =
      some (if (openPort env s).1 then .startSpawn else .idle, (openPort env s).2) := by
  simp only [advance]
  split
  · rename_i v hv
    rw [hv]
    rfl
  · rename_i v hv
    rw [hv]
    rfl

/-! ## How a call goes on -/

/-- The next step of a call from each point, with its guard, the point and the state after it. -/
inductive Advances (env : Env) (caller : Caller) (s : State) : Pc → Pc → State → Prop
  | stopClear : Advances env caller s .stopClear .stopPost { s with running := false }
  | stopPost :
      Advances env caller s .stopPost .stopWait { s with strand := s.strand ++ [.stop caller] }
  | stopWait : caller ∈ s.done →
      Advances env caller s .stopWait .stopIo { s with done := s.done.erase caller }
  | stopIo : Advances env caller s .stopIo .stopJoin { s with ioStopped := true }
  | notJoinable : s.ioThread = .none → Advances env caller s .stopJoin .idle s
  | join (thread : ℕ) : caller = .user thread → s.ioThread = .exited →
      Advances env caller s .stopJoin .idle { s with ioThread := .none }
  | joinSelf : caller = .io → Advances env caller s .stopJoin .idle { s with terminated := true }
  | opened (es : List Event) : (∀ e ∈ es, e.isNotice = true) → (openPort env s).1 = true →
      s.portOpen = false → Advances env caller s .startOpen .startSpawn
        (startAsyncRead { s with portOpen := true, log := s.log ++ .portOpened :: es })
  | notOpened (es : List Event) (isOpen : Bool) : (∀ e ∈ es, e.isNotice = true) →
      (openPort env s).1 = false → (s.portOpen = true → isOpen = true) →
      Advances env caller s .startOpen .idle { s with portOpen := isOpen, log := s.log ++ es }
  | spawn : s.ioThread = .none →
      Advances env caller s .startSpawn .startSet { s with ioThread := .running }
  | respawn : s.ioThread ≠ .none →
      Advances env caller s .startSpawn .idle { s with terminated := true }
  | startSet : Advances env caller s .startSet .idle { s with running := true }
  | sendPost (msg : Bytes) : Advances env caller s (.sendPost msg) .idle
      (emit (.posted msg) { s with strand := s.strand ++ [.send msg] })

theorem advances_startOpen (env : Env) (caller : Caller) (s : State) :
    Advances env caller s .startOpen (if (openPort env s).1 then .startSpawn else .idle)
      (openPort env s).2 := by
  obtain ⟨es, hes, ⟨hyes, hclosed, hs⟩ | ⟨hno, isOpen, hopen, hs⟩⟩ := openPort_cases env s
  · rw [if_pos hyes, hs]
    exact .opened es hes hyes hclosed
  · rw [if_neg (by simp [hno]), hs]
    exact .notOpened es isOpen hes hno hopen

theorem advances_of_advance {env : Env} {caller : Caller} {s u : State} {pc pc' : Pc}
    (h : advance env caller s pc = some (pc', u)) : Advances env caller s pc pc' u := by
  cases pc with
  | idle => exact absurd h (by simp [advance])
  | stopClear =>
    obtain ⟨rfl, rfl⟩ := Prod.mk.inj (Option.some.inj h)
    exact .stopClear
  | stopPost =>
    obtain ⟨rfl, rfl⟩ := Prod.mk.inj (Option.some.inj h)
    exact .stopPost
  | stopWait =>
    simp only [advance] at h
    split_ifs at h with hdone
    obtain ⟨rfl, rfl⟩ := Prod.mk.inj (Option.some.inj h)
    exact .stopWait hdone
  | stopIo =>
    obtain ⟨rfl, rfl⟩ := Prod.mk.inj (Option.some.inj h)
    exact .stopIo
  | stopJoin =>
    simp only [advance] at h
    split at h
    · rename_i hio
      obtain ⟨rfl, rfl⟩ := Prod.mk.inj (Option.some.inj h)
      exact .notJoinable hio
    · rename_i thread hio
      obtain ⟨rfl, rfl⟩ := Prod.mk.inj (Option.some.inj h)
      exact .join thread rfl hio
    · obtain ⟨rfl, rfl⟩ := Prod.mk.inj (Option.some.inj h)
      exact .joinSelf rfl
    · exact absurd h (by simp)
  | startOpen =>
    rw [advance_startOpen] at h
    obtain ⟨rfl, rfl⟩ := Prod.mk.inj (Option.some.inj h)
    exact advances_startOpen env caller s
  | startSpawn =>
    simp only [advance] at h
    split at h
    · rename_i hio
      obtain ⟨rfl, rfl⟩ := Prod.mk.inj (Option.some.inj h)
      exact .spawn hio
    · rename_i hio
      obtain ⟨rfl, rfl⟩ := Prod.mk.inj (Option.some.inj h)
      exact .respawn hio
  | startSet =>
    obtain ⟨rfl, rfl⟩ := Prod.mk.inj (Option.some.inj h)
    exact .startSet
  | sendPost msg =>
    obtain ⟨rfl, rfl⟩ := Prod.mk.inj (Option.some.inj h)
    exact .sendPost msg

/-! ## What a handler does to the rest of the state -/

/-- What a handler leaves alone: the control of the session, and the strand. It may begin a user
callback, and it may give a promise its value. -/
structure Handled (env : Env) (s s' : State) : Prop where
  running : s'.running = s.running
  ioStopped : s'.ioStopped = s.ioStopped
  threads : s'.threads = s.threads
  strand : s'.strand = s.strand
  terminated : s'.terminated = s.terminated
  ioThread : s'.ioThread = s.ioThread ∨ ∃ after,
    s'.ioThread = .handling { calls := env.calls, throws := env.throws, after := after }
  log : ∃ es, .portOpened ∉ es ∧ s'.log = s.log ++ es
  done : ∀ c ∈ s.done, c ∈ s'.done

section

variable (env : Env) (s : State)

theorem handled_of_eq (es : List Event) {s' : State} (hrunning : s'.running = s.running)
    (hstopped : s'.ioStopped = s.ioStopped) (hthreads : s'.threads = s.threads)
    (hstrand : s'.strand = s.strand) (hterm : s'.terminated = s.terminated)
    (hio : s'.ioThread = s.ioThread) (hes : .portOpened ∉ es)
    (hlog : s'.log = s.log ++ es) (hdone : ∀ c ∈ s.done, c ∈ s'.done) : Handled env s s' :=
  ⟨hrunning, hstopped, hthreads, hstrand, hterm, Or.inl hio, ⟨es, hes, hlog⟩, hdone⟩

theorem handled_rfl : Handled env s s :=
  handled_of_eq env s [] rfl rfl rfl rfl rfl rfl (by simp) (by simp) fun _ h => h

theorem handled_startOp (t : Task) : Handled env s (startOp t s) :=
  handled_of_eq env s [] rfl rfl rfl rfl rfl rfl (by simp) (by simp [startOp])
    fun _ h => h

theorem handled_writeSome (msg : Bytes) (sent : ℕ) : Handled env s (writeSome msg sent s) := by
  unfold writeSome
  split_ifs
  · exact handled_of_eq env s [] rfl rfl rfl rfl rfl rfl (by simp) (by simp) fun _ h => h
  · exact handled_startOp env s _
  · exact handled_of_eq env s [.writeFailed .badDescriptor] rfl rfl rfl rfl rfl rfl (by simp) rfl
      fun _ h => h

theorem handled_afterRun (a : After) : Handled env s (a.run s) := by
  cases a with
  | nothing => exact handled_rfl env s
  | startRead => exact handled_startOp env s .read
  | setValue caller =>
    exact handled_of_eq env s [] rfl rfl rfl rfl rfl rfl (by simp)
      (by simp [After.run]) fun c h => List.mem_append_left _ h

theorem handled_invoke (set : Bool) {e : Event} (he : e ≠ .portOpened) (a : After) :
    Handled env s (invoke env set e a s) := by
  unfold invoke
  split_ifs
  · exact ⟨rfl, rfl, rfl, rfl, rfl, Or.inr ⟨a, rfl⟩, ⟨[e], by simpa using he.symm, rfl⟩,
      fun _ h => h⟩
  · exact handled_afterRun env s a

theorem handled_closePort {s' : State} (h : Handled env (closePort s) s') : Handled env s s' :=
  ⟨h.running, h.ioStopped, h.threads, h.strand, h.terminated, h.ioThread, h.log, h.done⟩

/-- Every entry of `strand_` is such a handler. -/
theorem handled_run (item : Item) : Handled env s (item.run env s) := by
  cases item with
  | send msg =>
    unfold Item.run
    dsimp only
    split_ifs
    · exact handled_writeSome env s msg 0
    · exact handled_rfl env s
  | stop caller =>
    unfold Item.run
    dsimp only
    split_ifs
    · exact handled_closePort env s (handled_invoke env (closePort s) _ (by simp) _)
    · exact handled_afterRun env s _
  | completed t r =>
    cases t with
    | read =>
      show Handled env s (readHandler env r s)
      unfold readHandler
      split
      · exact handled_invoke env s _ (by simp) _
      · split_ifs
        · exact handled_rfl env s
        · exact handled_invoke env s _ (by simp) _
    | write msg sent =>
      show Handled env s (writeResume env msg sent r s)
      unfold writeResume writeHandler
      split_ifs
      · split
        · exact handled_rfl env s
        · split_ifs
          · exact handled_rfl env s
          · exact handled_invoke env s _ (by simp) _
      · exact handled_writeSome env s _ _

end

/-- A handler begun by a thread that is in no callback takes no call further. -/
theorem pcOf_handled {env : Env} {s s' : State} (h : Handled env s s')
    (hio : pcOf s .io = .idle) : pcOf s' = pcOf s := by
  funext c
  cases c with
  | user thread => exact congrFun h.threads thread
  | io =>
    rw [hio]
    rcases h.ioThread with he | ⟨after, he⟩
    · rw [← hio]
      simp only [pcOf, he]
    · rw [pcOf_io_handling he]

end AsioLearn.SerialPort
