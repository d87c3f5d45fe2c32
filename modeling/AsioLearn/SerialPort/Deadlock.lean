import AsioLearn.SerialPort.Control
import AsioLearn.SerialPort.Unstopped

/-!
# Whether `stop()` returns

In a session whose port is opened once, `stop()` is called by any thread at any time. It waits
for a closure that only the io thread can run, and then stops `io_` and joins that thread. It can
always return if it is not called by a callback of the io thread while `running_` is set, and if
no two threads find `running_` set before either of them has cleared it. Such a session goes
through the phases of `Phase`, in each of which at most one caller is at an active point.

* `no_deadlock_unless_reentered`: no call of `stop()` is blocked for good.
-/

namespace AsioLearn.SerialPort

open Lts

/-- `open()` does not succeed a second time. -/
def OneStart (s : State) (l : Label) : Prop :=
  match actor? l with
  | some (c, env) => pcOf s c = .startOpen → (openPort env s).1 = true → .portOpened ∉ s.log
  | none => True

instance (s : State) (l : Label) : Decidable (OneStart s l) :=
  match h : actor? l with
  | some (c, env) => decidable_of_iff
      (pcOf s c = .startOpen → (openPort env s).1 = true → .portOpened ∉ s.log)
      (by simp only [OneStart, h])
  | none => isTrue (by simp only [OneStart, h])

/-- A call of `stop()` that finds `running_` set is made by a user thread, and no other one that
found it set has still to clear it. -/
def OneStop (s : State) (l : Label) : Prop :=
  match begun? s l with
  | some (.io, .stop) => s.running = false
  | some (.user _, .stop) => s.running = true → ∀ thread, s.threads thread ≠ .stopClear
  | _ => True

/-- The io thread does not join itself, and every call of `stop()` can return, unless a user
callback ends the program by throwing. -/
structure NoDeadlock (s : State) : Prop where
  noSelfJoin : pcOf s .io ≠ .stopJoin
  returns : ∀ c, (pcOf s c).inStop = true →
    Dying s ∨ Possible step OneStart (fun t => pcOf t c = .idle) s

/-! ## The phases of a session -/

inductive Phase
  | fresh
  | spawning (thread : ℕ)
  | setting (thread : ℕ)
  | up
  | stopping (thread : ℕ)
  | down
  deriving DecidableEq, Repr

/-- The thread at an active point. -/
def Phase.thread? : Phase → Option ℕ
  | spawning thread | setting thread | stopping thread => some thread
  | fresh | up | down => none

/-- What holds of the control in a phase. -/
def Phase.Holds (s : State) : Phase → Prop
  | fresh => .portOpened ∉ s.log ∧ s.running = false ∧ s.ioStopped = false ∧ s.ioThread = .none
  | spawning thread => .portOpened ∈ s.log ∧ s.running = false ∧ s.ioStopped = false ∧
      s.ioThread = .none ∧ s.threads thread = .startSpawn
  | setting thread => .portOpened ∈ s.log ∧ s.running = false ∧ Serves s ∧
      s.threads thread = .startSet
  | up => .portOpened ∈ s.log ∧ s.running = true ∧ Serves s
  | stopping thread => .portOpened ∈ s.log ∧ StopAt (.user thread) s (s.threads thread)
  | down => .portOpened ∈ s.log ∧ s.running = false

/-- The session is in a phase, and no other caller is at an active point. -/
structure Stage (s : State) (p : Phase) : Prop where
  holds : p.Holds s
  io : (pcOf s .io).isActive = false
  others : ∀ thread, p.thread? ≠ some thread → (s.threads thread).isActive = false

section

variable {s s' : State} {p : Phase}

/-- The port has been opened in every phase but the first, in which there is no io thread. -/
theorem opened_of_io (h : p.Holds s) (hio : s.ioThread ≠ .none) : .portOpened ∈ s.log := by
  cases p with
  | fresh => exact absurd h.2.2.2 hio
  | spawning _ | setting _ | up | stopping _ | down => exact h.1

theorem fresh_of_not_opened (h : p.Holds s) (hno : .portOpened ∉ s.log) : p = .fresh := by
  cases p with
  | fresh => rfl
  | spawning _ | setting _ | up | stopping _ | down => exact absurd h.1 hno

/-- A phase goes on while the control is undisturbed and its thread stands where it stood. -/
theorem holds_mono (h : p.Holds s) (hn : Undisturbed s s')
    (hthread : ∀ thread, p.thread? = some thread → s'.threads thread = s.threads thread)
    (hp : ∀ c, Promised c s → Promised c s') : p.Holds s' := by
  cases p with
  | fresh =>
    exact ⟨fun hmem => h.1 (hn.opened.mp hmem), hn.running.trans h.2.1,
      hn.ioStopped.trans h.2.2.1, hn.none h.2.2.2⟩
  | spawning thread =>
    obtain ⟨hopened, hrunning, hstop, hio, hat⟩ := h
    exact ⟨hn.opened.mpr hopened, hn.running.trans hrunning, hn.ioStopped.trans hstop,
      hn.none hio, (hthread thread rfl).trans hat⟩
  | setting thread =>
    obtain ⟨hopened, hrunning, hserves, hat⟩ := h
    exact ⟨hn.opened.mpr hopened, hn.running.trans hrunning, hn.serves hserves,
      (hthread thread rfl).trans hat⟩
  | up => exact ⟨hn.opened.mpr h.1, hn.running.trans h.2.1, hn.serves h.2.2⟩
  | stopping thread =>
    refine ⟨hn.opened.mpr h.1, ?_⟩
    rw [hthread thread rfl]
    exact StopAt.mono _ h.2 hn (hp _)
  | down => exact ⟨hn.opened.mpr h.1, hn.running.trans h.2⟩

/-- A thread that is not at an active point goes on to another such point. -/
theorem Stage.goOn (h : Stage s p) {thread : ℕ} {pc : Pc} {u : State}
    (hpc : pc.isActive = false) (hn : Undisturbed s u) (hthreads : u.threads = s.threads)
    (hio : u.ioThread = s.ioThread)
    (hactor : p.thread? ≠ some thread) (hp : ∀ c, Promised c s → Promised c u) :
    Stage (SerialPort.goOn thread pc u) p := by
  have hother : ∀ t, t ≠ thread → (SerialPort.goOn thread pc u).threads t = s.threads t := by
    intro t hne
    show Function.update u.threads thread pc t = s.threads t
    rw [Function.update_of_ne hne, hthreads]
  refine ⟨?_, ?_, ?_⟩
  · have hgo : Undisturbed s (SerialPort.goOn thread pc u) :=
      ⟨hn.running, hn.ioStopped, hn.serves, hn.none, hn.opened⟩
    refine holds_mono h.holds hgo (fun t ht => hother t ?_) ?_
    · rintro rfl
      exact hactor ht
    · intro c hc
      exact hp c hc
  · have : pcOf (SerialPort.goOn thread pc u) .io = pcOf s .io := by
      show pcOf u .io = pcOf s .io
      simp only [pcOf, hio]
    rw [this]
    exact h.io
  · intro t ht
    by_cases ht' : t = thread
    · rw [ht', goOn_threads]
      exact hpc
    · rw [hother t ht']
      exact h.others t ht

/-- The thread of a phase is at an active point. -/
theorem isActive_of_thread (h : p.Holds s) {thread : ℕ} (ht : p.thread? = some thread) :
    (s.threads thread).isActive = true := by
  cases p with
  | fresh | up | down => exact absurd ht (by simp [Phase.thread?])
  | spawning t =>
    obtain rfl := Option.some.inj ht
    rw [h.2.2.2.2]
    rfl
  | setting t =>
    obtain rfl := Option.some.inj ht
    rw [h.2.2.2]
    rfl
  | stopping t =>
    obtain rfl := Option.some.inj ht
    have hat := h.2
    cases hpc : s.threads t with
    | stopClear | stopPost | stopWait | stopIo | stopJoin => rfl
    | idle | startOpen | startSpawn | startSet | sendPost _ =>
      rw [hpc] at hat
      exact hat.elim

theorem thread_ne_of_inactive (h : p.Holds s) {thread : ℕ}
    (hpc : (s.threads thread).isActive = false) : p.thread? ≠ some thread := by
  intro ht
  exact absurd (isActive_of_thread h ht) (by simp [hpc])

/-- Everything that no user thread does leaves the phase as it is. -/
theorem stage_io (h : Stage s p) {l : Label} (hm : Moves s l s') (hl : l.isUser = false)
    (hstart : OneStart s l) (hstop : OneStop s l) : Stage s' p := by
  have hopen : ∀ env, actor? l = some (.io, env) → pcOf s .io = .startOpen →
      (openPort env s).1 = false := by
    intro env hact hat
    by_contra hyes
    simp only [OneStart, hact] at hstart
    refine hstart hat (by simpa using hyes) (opened_of_io h.holds ?_)
    intro hno
    exact absurd (hat.symm.trans (pcOf_io_of_ne fun f hf => by simp [hno] at hf)) (by simp)
  have hcall : ∀ c, begun? s l = some (.io, c) → (c.begin s).1.isActive = false := by
    intro c hc
    cases c with
    | start =>
      unfold Call.begin
      split_ifs <;> rfl
    | stop =>
      simp only [OneStop, hc] at hstop
      simp [Call.begin, hstop, Pc.isActive, Pc.inStop]
    | send msg =>
      unfold Call.begin
      split_ifs <;> rfl
  obtain ⟨hn, hthreads, hio⟩ := undisturbed_of_moves hm hl h.io hopen hcall
  refine ⟨holds_mono h.holds hn (fun t _ => congrFun hthreads t) ?_, hio,
    fun t ht => by rw [hthreads]; exact h.others t ht⟩
  intro c hc
  apply promised_of_moves hm hc
  intro env hact hwait
  cases c with
  | io => exact absurd h.io (by rw [hwait]; simp [Pc.isActive, Pc.inStop])
  | user t => cases l <;> simp_all [actor?, Label.isUser]

/-- A user thread begins a call: only a `stop()` that finds `running_` set changes the phase. -/
theorem stage_call (h : Stage s p) {thread : ℕ} {c : Call} (hidle : s.threads thread = .idle)
    (hstop : OneStop s (.call thread c)) :
    ∃ p', Stage (goOn thread (c.begin s).1 (c.begin s).2) p' := by
  have hn := undisturbed_begin c s
  obtain ⟨es, -, hs⟩ := begin_snd c s
  have hne : p.thread? ≠ some thread := thread_ne_of_inactive h.holds (by rw [hidle]; rfl)
  have hsame : (c.begin s).1.isActive = false →
      ∃ p', Stage (goOn thread (c.begin s).1 (c.begin s).2) p' := fun hpc =>
    ⟨p, h.goOn hpc hn (by rw [hs]) (by rw [hs]) hne fun c' hc' => by rw [hs]; exact hc'⟩
  cases c with
  | start =>
    refine hsame ?_
    unfold Call.begin
    split_ifs <;> rfl
  | send msg =>
    refine hsame ?_
    unfold Call.begin
    split_ifs <;> rfl
  | stop =>
    by_cases hr : s.running = true
    · have hbegin : Call.stop.begin s = (.stopClear, s) := by
        simp only [Call.begin, if_pos hr]
      rw [hbegin]
      have hclear : ∀ t, s.threads t ≠ .stopClear := hstop hr
      -- the phase is that of a session that is up
      cases p with
      | fresh => exact absurd hr (by simp [h.holds.2.1])
      | spawning t => exact absurd hr (by simp [h.holds.2.1])
      | setting t => exact absurd hr (by simp [h.holds.2.1])
      | down => exact absurd hr (by simp [h.holds.2])
      | stopping t =>
        have hat := h.holds.2
        cases hpc : s.threads t with
        | stopClear => exact absurd hpc (hclear t)
        | stopPost | stopWait | stopIo | stopJoin =>
          rw [hpc] at hat
          exact absurd hr (by simp [hat.1])
        | idle | startOpen | startSpawn | startSet | sendPost _ =>
          rw [hpc] at hat
          exact hat.elim
      | up =>
        obtain ⟨hopened, -, hserves⟩ := h.holds
        refine ⟨.stopping thread, ⟨hopened, ?_⟩, h.io, ?_⟩
        · rw [goOn_threads]
          exact ⟨hr, hserves⟩
        · intro t ht
          have hne' : t ≠ thread := fun he => ht (congrArg some he.symm)
          show (Function.update s.threads thread .stopClear t).isActive = false
          rw [Function.update_of_ne hne']
          exact h.others t (by simp [Phase.thread?])
    · refine hsame ?_
      simp [Call.begin, hr, Pc.isActive, Pc.inStop]

/-- The thread of the phase goes on to the point of the next phase. -/
theorem Stage.advance (h : Stage s p) {p' : Phase} {thread : ℕ} {pc : Pc} {u : State}
    (hp : p.thread? = some thread ∨ p.thread? = none)
    (hthreads : u.threads = s.threads) (hio : (pcOf u .io).isActive = false)
    (hp' : p'.thread? = some thread ∨ (p'.thread? = none ∧ pc.isActive = false))
    (hholds : p'.Holds (SerialPort.goOn thread pc u)) :
    Stage (SerialPort.goOn thread pc u) p' := by
  refine ⟨hholds, hio, ?_⟩
  intro t ht
  show (Function.update u.threads thread pc t).isActive = false
  by_cases ht' : t = thread
  · subst ht'
    rw [Function.update_self]
    rcases hp' with hp' | ⟨-, hpc⟩
    · exact absurd hp' ht
    · exact hpc
  · rw [Function.update_of_ne ht', hthreads]
    refine h.others t ?_
    rcases hp with hp | hp
    · rw [hp]
      exact fun he => ht' (Option.some.inj he).symm
    · rw [hp]
      simp

/-- The thread that is stopping the session goes on. -/
theorem stage_stopping {thread : ℕ} (h : Stage s (.stopping thread)) {env : Env} {pc : Pc}
    {u : State} (hadv : advance env (.user thread) s (s.threads thread) = some (pc, u)) :
    ∃ p', Stage (goOn thread pc u) p' := by
  obtain ⟨hopened, hat⟩ := h.holds
  have hstay : ∀ {pc u}, u.threads = s.threads → (pcOf u .io).isActive = false →
      .portOpened ∈ u.log → StopAt (.user thread) (goOn thread pc u) pc →
      ∃ p', Stage (goOn thread pc u) p' := by
    intro pc u hthreads hio hlog hpc
    refine ⟨.stopping thread, h.advance (Or.inl rfl) hthreads hio (Or.inl rfl) ⟨hlog, ?_⟩⟩
    rw [goOn_threads]
    exact hpc
  have hdown : ∀ {u}, u.threads = s.threads → (pcOf u .io).isActive = false →
      .portOpened ∈ u.log → u.running = false → ∃ p', Stage (goOn thread .idle u) p' :=
    fun hthreads hio hlog hr =>
      ⟨.down, h.advance (Or.inl rfl) hthreads hio (Or.inr ⟨rfl, rfl⟩) ⟨hlog, hr⟩⟩
  have hgo := advances_of_advance hadv
  generalize s.threads thread = at' at hgo hat
  cases hgo with
  | opened | notOpened | spawn | respawn | startSet | sendPost _ => exact hat.elim
  | stopClear => exact hstay rfl h.io hopened ⟨rfl, hat.2⟩
  | stopPost =>
    refine hstay rfl h.io hopened ⟨hat.1, hat.2, ?_⟩
    exact Or.inr (Or.inl (List.mem_append_right _ (List.mem_singleton.mpr rfl)))
  | stopWait => exact hstay rfl h.io hopened ⟨hat.1, hat.2.1⟩
  | stopIo => exact hstay rfl h.io hopened ⟨hat.1, rfl⟩
  | notJoinable => exact hdown rfl h.io hopened hat.1
  | join => exact hdown rfl rfl hopened hat.1
  | joinSelf hself => exact absurd hself (by simp)

/-- A user thread takes its call further. -/
theorem stage_advance (h : Stage s p) {thread : ℕ} {env : Env} {pc : Pc} {u : State}
    (hstart : OneStart s (.advance thread env))
    (hadv : advance env (.user thread) s (s.threads thread) = some (pc, u)) :
    ∃ p', Stage (goOn thread pc u) p' := by
  have hgo := advances_of_advance hadv
  by_cases hact : (s.threads thread).isActive = false
  · have hne := thread_ne_of_inactive h.holds hact
    by_cases hopens : s.threads thread = .startOpen ∧ (openPort env s).1 = true
    · -- the port is opened, for the first time
      obtain ⟨hat, hyes⟩ := hopens
      obtain rfl := fresh_of_not_opened h.holds (hstart hat hyes)
      obtain ⟨-, hrunning, hstop, hio⟩ := h.holds
      rw [hat] at hgo
      cases hgo with
      | opened es =>
        refine ⟨.spawning thread, h.advance (Or.inr rfl) rfl h.io (Or.inl rfl)
          ⟨?_, hrunning, hstop, hio, goOn_threads thread _ _⟩⟩
        exact List.mem_append_right _ List.mem_cons_self
      | notOpened es isOpen _ hno => exact absurd hyes (by simp [hno])
    · obtain ⟨hn, rfl, hthreads, hio⟩ := undisturbed_advance hadv hact fun hat => by
        by_contra hyes
        exact hopens ⟨hat, by simpa using hyes⟩
      refine ⟨p, h.goOn rfl hn hthreads hio hne fun c hc => promised_advance hadv hc ?_⟩
      apply Or.inr
      intro hwait
      rw [hwait] at hact
      exact absurd hact (by simp [Pc.isActive, Pc.inStop])
  · -- it is the thread of the phase
    have hactor : p.thread? = some thread := by
      by_contra hne
      exact hact (h.others thread hne)
    cases p with
    | fresh | up | down => exact absurd hactor (by simp [Phase.thread?])
    | spawning t =>
      obtain rfl := Option.some.inj hactor
      obtain ⟨hopened, hrunning, hstop, hio, hat⟩ := h.holds
      rw [hat] at hgo
      cases hgo with
      | spawn =>
        exact ⟨.setting t, h.advance (Or.inl rfl) rfl rfl (Or.inl rfl)
          ⟨hopened, hrunning, ⟨hstop, rfl⟩, goOn_threads t _ _⟩⟩
      | respawn hno => exact absurd hio hno
    | setting t =>
      obtain rfl := Option.some.inj hactor
      obtain ⟨hopened, hrunning, hserves, hat⟩ := h.holds
      rw [hat] at hgo
      cases hgo with
      | startSet =>
        exact ⟨.up, h.advance (Or.inl rfl) rfl h.io (Or.inr ⟨rfl, rfl⟩) ⟨hopened, rfl, hserves⟩⟩
    | stopping t =>
      obtain rfl := Option.some.inj hactor
      exact stage_stopping h hadv

theorem step_stage (h : Stage s p) {l : Label} (hstart : OneStart s l) (hstop : OneStop s l)
    (hs : step s l = some s') : ∃ p', Stage s' p' := by
  have hm := moves_of_step hs
  by_cases hl : l.isUser = true
  · cases hm with
    | call thread c hidle => exact stage_call h hidle hstop
    | advance thread env pc u hadv => exact stage_advance h hstart hadv
    | _ => exact absurd hl (by simp [Label.isUser])
  · exact ⟨p, stage_io h hm (by simpa using hl) hstart hstop⟩

end

theorem stage_init : Stage init .fresh :=
  ⟨⟨by simp [init], rfl, rfl, rfl⟩, rfl, fun _ _ => rfl⟩

/-! ## Every call can return -/

theorem oneStart_of_calm {s : State} {l : Label} (h : Calm s l) : OneStart s l := by
  have hno : (openPort calmEnv s).1 = false := by
    obtain ⟨isOpen, es, hopen⟩ := openPort_calm s
    rw [hopen]
  rcases h with rfl | rfl | rfl | ⟨thread, rfl⟩
  · trivial
  · exact fun _ hyes => absurd hyes (by simp [hno])
  · trivial
  · exact fun _ hyes => absurd hyes (by simp [hno])

/-- A thread in `stop()` is that of a session being stopped. -/
theorem stopAt_of_inStop {s : State} {p : Phase} (h : Stage s p) {thread : ℕ}
    (hstop : (s.threads thread).inStop = true) : StopAt (.user thread) s (s.threads thread) := by
  have hactor : p.thread? = some thread := by
    by_contra hne
    have := h.others thread hne
    rw [Pc.isActive_of_inStop hstop] at this
    exact absurd this (by simp)
  cases p with
  | fresh | up | down => exact absurd hactor (by simp [Phase.thread?])
  | spawning t =>
    obtain rfl := Option.some.inj hactor
    rw [h.holds.2.2.2.2] at hstop
    exact absurd hstop (by simp [Pc.inStop])
  | setting t =>
    obtain rfl := Option.some.inj hactor
    rw [h.holds.2.2.2] at hstop
    exact absurd hstop (by simp [Pc.inStop])
  | stopping t =>
    obtain rfl := Option.some.inj hactor
    exact h.holds.2

theorem noDeadlock_of_stage {s : State} {p : Phase} (h : Stage s p) : NoDeadlock s := by
  constructor
  · intro hjoin
    exact absurd h.io (by rw [hjoin]; simp [Pc.isActive, Pc.inStop])
  · intro c hstop
    cases c with
    | io =>
      exact absurd h.io (by simp [Pc.isActive_of_inStop hstop])
    | user thread =>
      by_cases hdying : Dying s
      · exact Or.inl hdying
      · have hu := unhindered_of_not_dying hdying h.io
        exact Or.inr ((possible_stop_return hu (stopAt_of_inStop h hstop)).mono
          (fun _ _ => oneStart_of_calm) fun _ ht => ht)

/-- **`stop()` returns.** In a session started once, in which no callback of the io thread calls
`stop()` while `running_` is set, and no two calls find it set before one of them has cleared it,
every call of `stop()` can return in every state reached. -/
theorem no_deadlock_unless_reentered (ls : List Label) (s : State)
    (h : Run step (fun s l => OneStart s l ∧ OneStop s l) init ls s) : NoDeadlock s := by
  obtain ⟨p, hp⟩ : ∃ p, Stage s p := by
    apply h.invariant (I := fun s => ∃ p, Stage s p) ⟨_, stage_init⟩
    rintro s l s' ⟨p, hp⟩ hok hs
    exact step_stage hp hok.1 hok.2 hs
  exact noDeadlock_of_stage hp

/-- The error callback is set and the session started. -/
def startup : List Label :=
  [.setErrorCallback true, .call 0 .start, .advance 0 {}, .advance 0 {}, .advance 0 {}]

def beforeStop : State := reached step (fun s l => OneStart s l ∧ NoStop s l) init startup

/-- `stop()` has posted its closure, which has been run up to the report. -/
def duringStop : State :=
  reached step (fun s l => OneStart s l ∧ NoStop s l)
    (goOn 0 (Call.stop.begin beforeStop).1 (Call.stop.begin beforeStop).2)
    [.advance 0 {}, .advance 0 {}, .runStrand {}]

theorem oneStop_of_noStop {s : State} {l : Label} (h : NoStop s l) : OneStop s l := by
  unfold OneStop
  split
  · rename_i hb
    exact absurd (by rw [hb]; rfl) h
  · rename_i hb
    exact absurd (by rw [hb]; rfl) h
  · trivial

theorem run_duringStop : ∃ ls,
    Run step (fun s l => OneStart s l ∧ OneStop s l) init ls duringStop := by
  have hmono : ∀ s l, OneStart s l ∧ NoStop s l → OneStart s l ∧ OneStop s l :=
    fun _ _ h => ⟨h.1, oneStop_of_noStop h.2⟩
  have hup : Run step (fun s l => OneStart s l ∧ NoStop s l) init startup beforeStop :=
    run_reached (by decide)
  have hidle : ∀ thread, beforeStop.threads thread ≠ .stopClear := by
    intro thread
    cases thread with
    | zero => decide
    | succ thread => exact fun h => Pc.noConfusion h
  have hok : OneStart beforeStop (.call 0 .stop) ∧ OneStop beforeStop (.call 0 .stop) :=
    ⟨trivial, fun _ => hidle⟩
  have hcall : step beforeStop (.call 0 .stop) = some _ :=
    step_of_moves (by decide) (.call 0 .stop (by decide))
  have hdown : Run step (fun s l => OneStart s l ∧ NoStop s l) _ _ duringStop :=
    run_reached (by decide)
  exact ⟨_, ((hup.mono hmono).snoc hok hcall).append (hdown.mono hmono)⟩

theorem no_deadlock_unless_reentered_duringStop :
    duringStop.threads 0 = .stopWait ∧ NoDeadlock duringStop := by
  obtain ⟨ls, hrun⟩ := run_duringStop
  exact ⟨by decide, no_deadlock_unless_reentered ls _ hrun⟩

/-! ## A call from the error callback -/

/-- The io thread waits for a closure that only the io thread can run. -/
def Blocked (s : State) : Prop :=
  .io ∉ s.done ∧ ∃ f, s.ioThread = .handling f ∧ f.pc = .stopWait

theorem blocked_step {s s' : State} {l : Label} (h : Blocked s) (hs : step s l = some s') :
    Blocked s' := by
  obtain ⟨hdone, f, hf, hpc⟩ := h
  cases moves_of_step hs with
  | call thread c hidle =>
    obtain ⟨es, -, hbegin⟩ := begin_snd c s
    rw [hbegin]
    exact ⟨hdone, f, hf, hpc⟩
  | advance thread env pc u hadv =>
    obtain ⟨hdone', -, hio⟩ := advance_leaves hadv
    refine ⟨fun hmem => hdone ?_, f, hio f hf, hpc⟩
    rcases hdone' with hsame | ⟨-, herase⟩
    · exact hsame ▸ hmem
    · exact List.mem_of_mem_erase (herase ▸ hmem)
  | setReceiveCallback set | setErrorCallback set => exact ⟨hdone, f, hf, hpc⟩
  | complete i out before after t res hp hwait hres =>
    obtain ⟨buffer, es, -, hs⟩ :=
      deliver_eq out t { s with ops := before ++ ⟨t, some res⟩ :: after }
    rw [hs]
    exact ⟨hdone, f, hf, hpc⟩
  | dispatch i before after t res hio => exact absurd (hio.symm.trans hf) (by simp)
  | runStrand env item rest hio => exact absurd (hio.symm.trans hf) (by simp)
  | ioCall env f' c calls hf' hpc' =>
    obtain rfl := IoThread.handling.inj (hf.symm.trans hf')
    exact absurd (hpc.symm.trans hpc') (by simp)
  | ioThrow env f' hf' hpc' =>
    obtain rfl := IoThread.handling.inj (hf.symm.trans hf')
    exact absurd (hpc.symm.trans hpc') (by simp)
  | ioReturn env f' hf' hpc' =>
    obtain rfl := IoThread.handling.inj (hf.symm.trans hf')
    exact absurd (hpc.symm.trans hpc') (by simp)
  | ioGo env f' pc u hf' hpc' hadv =>
    obtain rfl := IoThread.handling.inj (hf.symm.trans hf')
    rw [hpc] at hadv
    simp only [advance, if_neg hdone] at hadv
    exact absurd hadv (by simp)
  | ioExit hio => exact absurd (hio.symm.trans hf) (by simp)

/-- A blocked `stop()` never returns. -/
theorem not_possible_of_blocked {s : State} (h : Blocked s) :
    ¬ Possible step OneStart (fun t => pcOf t .io = .idle) s := by
  apply not_possible_of_invariant h (fun s l s' hI _ hs => blocked_step hI hs)
  rintro t ⟨-, f, hf, hpc⟩ hidle
  rw [pcOf_io_handling hf, hpc] at hidle
  exact absurd hidle (by simp)

/-- The port fails, and the error callback calls `stop()`. -/
def stopInCallback : List Label :=
  startup ++ [.complete 0 (.failed .eof), .dispatch 0, .runStrand { calls := [.stop] },
    .ioAdvance {}, .ioAdvance {}, .ioAdvance {}]

theorem not_no_deadlock :
    ¬ ∀ (ls : List Label) (s : State), Run step OneStart init ls s → NoDeadlock s := by
  intro h
  have hs := h stopInCallback _ (run_reached (by decide))
  have hio : (reached step OneStart init stopInCallback).ioThread =
      .handling { pc := .stopWait } := by decide
  have hdone : .io ∉ (reached step OneStart init stopInCallback).done := by decide
  have hterm : (reached step OneStart init stopInCallback).terminated = false := by decide
  rcases hs.returns .io (by rw [pcOf_io_handling hio]; rfl) with hdying | hposs
  · rcases hdying with ht | ⟨f, hf, hthrows⟩
    · exact absurd (hterm.symm.trans ht) (by simp)
    · obtain rfl := IoThread.handling.inj (hio.symm.trans hf)
      exact absurd hthrows (by simp)
  · exact not_possible_of_blocked ⟨hdone, _, hio, rfl⟩ hposs

end AsioLearn.SerialPort
