import AsioLearn.Detail.Strand
import AsioLearn.SerialPort.Progress

/-!
# The session with the batches of `strand_`

`SerialPort.step` runs the entries of `strand_` one by one, and none of them once `io_` is stopped.
The io thread looks at `stopped_` only in `do_run_one`, though: what it has taken there, the invoker
of `strand_` or an operation, it brings to an end. Here `strand_` has its two queues, and taking an
operation and giving its handler to `strand_` are two steps.

* `Sound`: what the io thread has taken, and what an unlocked strand holds.
* `exists_strand`: every run is one of `strand_executor_service`, with the same queues.
-/

namespace AsioLearn.SerialPort.Batches

open Detail Proactor Lts

/-! ## Data -/

/-- The session, whose `strand` is `waiting_queue_` here. -/
structure State extends SerialPort.State where
  /-- `ready_queue_`. -/
  ready : List Item := []
  /-- The io thread is in the invoker. -/
  inBatch : Bool := false
  /-- The operation that the io thread has taken: a completed one, or one that it performs, as its
  descriptor is ready. -/
  hand : Option ℕ := none

def init : State := {}

inductive Label
  | session (l : SerialPort.Label)
  /-- `do_run_one` takes the operation, or the descriptor that it waits for. -/
  | take (i : ℕ)
  /-- The operation would block. -/
  | putBack
  /-- The operation is complete. -/
  | handOver
  /-- The invoker is taken. -/
  | invoke
  | runReady (env : Env)
  /-- `on_invoker_exit`. -/
  | leave
  | ioExit
  deriving DecidableEq, Repr

/-- `locked_`: the invoker is running or scheduled. -/
def State.locked (s : State) : Bool := s.inBatch || !s.ready.isEmpty

/-- The io thread is in `do_run_one` and has taken nothing. -/
abbrev Looks (s : State) : Prop := s.ioThread = .running ∧ s.inBatch = false ∧ s.hand = none

/-- The steps of the session that are made in another way here. -/
def isTaken : SerialPort.Label → Bool
  | .dispatch _ | .runStrand _ | .ioExit => true
  | _ => false

/-! ## Steps -/

/-- The rest of `post`: on an unlocked strand, what has been posted is ready. -/
def schedule (s : State) : State :=
  if s.locked then s else { s with ready := s.strand, strand := [] }

/-- The handler of an operation, whose executor is `strand_`, is executed by the io thread. -/
def execute (item : Item) (s : State) : State :=
  if s.locked then { s with strand := s.strand ++ [item] }
  else { s with ready := [item], inBatch := true }

def step (s : State) (l : Label) : Option State :=
  if s.terminated then none
  else
    match l with
    | .session l =>
      if isTaken l then none
      else (SerialPort.step s.toState l).map fun u => schedule { s with toState := u }
    | .take i =>
      if Looks s ∧ s.ioStopped = false ∧ i < s.ops.length then some { s with hand := some i }
      else none
    | .putBack =>
      match s.hand.bind (pick s.ops) with
      | some (_, ⟨_, none⟩, _) => some { s with hand := none }
      | _ => none
    | .handOver =>
      match s.hand.bind (pick s.ops) with
      | some (before, ⟨t, some res⟩, after) =>
        some (execute (.completed t res) { s with ops := before ++ after, hand := none })
      | _ => none
    | .invoke =>
      if Looks s ∧ s.ioStopped = false ∧ s.ready ≠ [] then some { s with inBatch := true } else none
    | .runReady env =>
      match s.ioThread, s.inBatch, s.ready with
      | .running, true, item :: rest =>
        some { s with toState := item.run env s.toState, ready := rest }
      | _, _, _ => none
    | .leave =>
      if s.ioThread = .running ∧ s.inBatch = true ∧ s.ready = [] then
        some { s with ready := s.strand, strand := [], inBatch := false }
      else none
    | .ioExit =>
      if Looks s ∧ s.ioStopped = true then some { s with ioThread := .exited } else none

/-- What each step does, with its guards. -/
inductive Goes (s : State) : Label → State → Prop
  | session (l : SerialPort.Label) (u : SerialPort.State) : isTaken l = false →
      SerialPort.step s.toState l = some u → Goes s (.session l) (schedule { s with toState := u })
  | take (i : ℕ) : Looks s → s.ioStopped = false → i < s.ops.length →
      Goes s (.take i) { s with hand := some i }
  | putBack (i : ℕ) (before after : List (Op Task Result)) (t : Task) : s.hand = some i →
      pick s.ops i = some (before, ⟨t, none⟩, after) → Goes s .putBack { s with hand := none }
  | handOver (i : ℕ) (before after : List (Op Task Result)) (t : Task) (res : Result) :
      s.hand = some i → pick s.ops i = some (before, ⟨t, some res⟩, after) →
      Goes s .handOver
        (execute (.completed t res) { s with ops := before ++ after, hand := none })
  | invoke : Looks s → s.ioStopped = false → s.ready ≠ [] →
      Goes s .invoke { s with inBatch := true }
  | runReady (env : Env) (item : Item) (rest : List Item) : s.ioThread = .running →
      s.inBatch = true → s.ready = item :: rest →
      Goes s (.runReady env) { s with toState := item.run env s.toState, ready := rest }
  | leave : s.ioThread = .running → s.inBatch = true → s.ready = [] →
      Goes s .leave { s with ready := s.strand, strand := [], inBatch := false }
  | ioExit : Looks s → s.ioStopped = true → Goes s .ioExit { s with ioThread := .exited }

section

variable {s s' : State}

theorem goes_of_step {l : Label} (h : step s l = some s') : Goes s l s' := by
  unfold step at h
  split at h
  · exact absurd h (by simp)
  cases l with
  | session l =>
    simp only at h
    split_ifs at h with htaken
    obtain ⟨u, hu, rfl⟩ := Option.map_eq_some_iff.mp h
    exact .session l u (by simpa using htaken) hu
  | take i =>
    simp only at h
    split_ifs at h with hgo
    obtain rfl := Option.some.inj h
    exact .take i hgo.1 hgo.2.1 hgo.2.2
  | putBack =>
    simp only at h
    split at h
    · rename_i before t after hbind
      obtain rfl := Option.some.inj h
      obtain ⟨i, hi, hpick⟩ := Option.bind_eq_some_iff.mp hbind
      exact .putBack i before after t hi hpick
    · exact absurd h (by simp)
  | handOver =>
    simp only at h
    split at h
    · rename_i before t res after hbind
      obtain rfl := Option.some.inj h
      obtain ⟨i, hi, hpick⟩ := Option.bind_eq_some_iff.mp hbind
      exact .handOver i before after t res hi hpick
    · exact absurd h (by simp)
  | invoke =>
    simp only at h
    split_ifs at h with hgo
    obtain rfl := Option.some.inj h
    exact .invoke hgo.1 hgo.2.1 hgo.2.2
  | runReady env =>
    simp only at h
    split at h
    · rename_i item rest hio hbatch hready
      obtain rfl := Option.some.inj h
      exact .runReady env item rest hio hbatch hready
    · exact absurd h (by simp)
  | leave =>
    simp only at h
    split_ifs at h with hgo
    obtain rfl := Option.some.inj h
    exact .leave hgo.1 hgo.2.1 hgo.2.2
  | ioExit =>
    simp only at h
    split_ifs at h with hgo
    obtain rfl := Option.some.inj h
    exact .ioExit hgo.1 hgo.2

/-! ## What the io thread has taken -/

/-- What a step of the session, other than those, does to the queues and to the io thread. -/
structure Grows (s u : SerialPort.State) : Prop where
  ops : s.ops.length ≤ u.ops.length
  strand : u.strand = s.strand ∨ ∃ item, u.strand = s.strand ++ [item]
  inRun : s.ioThread.inRun = true → u.ioThread.inRun = true
  handling : ∀ f, u.ioThread = .handling f → ∃ f', s.ioThread = .handling f'

theorem grows_advance {env : Env} {caller : Caller} {t u : SerialPort.State} {pc pc' : Pc}
    (hadv : advance env caller t pc = some (pc', u)) : Grows t u := by
  cases advances_of_advance hadv with
  | stopPost => exact ⟨Nat.le_refl _, Or.inr ⟨_, rfl⟩, fun h => h, fun f hf => ⟨f, hf⟩⟩
  | sendPost msg => exact ⟨Nat.le_refl _, Or.inr ⟨_, rfl⟩, fun h => h, fun f hf => ⟨f, hf⟩⟩
  | opened es =>
    exact ⟨by simp [startAsyncRead, startOp], Or.inl rfl, fun h => h, fun f hf => ⟨f, hf⟩⟩
  | join thread hcaller hio =>
    exact ⟨Nat.le_refl _, Or.inl rfl, fun h => absurd h (by simp [hio, IoThread.inRun]), by simp⟩
  | spawn hio => exact ⟨Nat.le_refl _, Or.inl rfl, fun _ => rfl, by simp⟩
  | _ => exact ⟨Nat.le_refl _, Or.inl rfl, fun h => h, fun f hf => ⟨f, hf⟩⟩

theorem grows_of_step {t u : SerialPort.State} {l : SerialPort.Label} (hl : isTaken l = false)
    (h : SerialPort.step t l = some u) : Grows t u := by
  cases moves_of_step h with
  | call thread c hidle =>
    obtain ⟨es, -, hs⟩ := begin_snd c t
    rw [hs]
    exact ⟨Nat.le_refl _, Or.inl rfl, fun h => h, fun f hf => ⟨f, hf⟩⟩
  | advance thread env pc u hadv =>
    have hgrows := grows_advance hadv
    exact ⟨hgrows.ops, hgrows.strand, hgrows.inRun, hgrows.handling⟩
  | setReceiveCallback set | setErrorCallback set | ioThrow =>
    exact ⟨Nat.le_refl _, Or.inl rfl, fun h => h, fun f hf => ⟨f, hf⟩⟩
  | complete i out before after t' res hp =>
    obtain ⟨buffer, es, -, hs⟩ :=
      deliver_eq out t' { t with ops := before ++ ⟨t', some res⟩ :: after }
    rw [hs]
    exact ⟨by simp [pick_eq_some hp], Or.inl rfl, fun h => h, fun f hf => ⟨f, hf⟩⟩
  | ioCall env f c calls hf =>
    obtain ⟨es, -, hs⟩ := begin_snd c t
    rw [hs]
    exact ⟨Nat.le_refl _, Or.inl rfl, fun _ => rfl, fun _ _ => ⟨f, hf⟩⟩
  | ioReturn env f hf =>
    cases hafter : f.after with
    | startRead =>
      exact ⟨by simp [After.run, startAsyncRead, startOp], Or.inl rfl, fun _ => rfl,
        fun _ _ => ⟨f, hf⟩⟩
    | nothing | setValue caller =>
      exact ⟨Nat.le_refl _, Or.inl rfl, fun _ => rfl, fun _ _ => ⟨f, hf⟩⟩
  | ioGo env f pc u hf hpc hadv =>
    have hgrows := grows_advance hadv
    exact ⟨hgrows.ops, hgrows.strand, fun _ => rfl, fun _ _ => ⟨f, hf⟩⟩
  | dispatch | runStrand | ioExit => exact absurd hl (by simp [isTaken])

/-- The io thread has taken an operation, or it is in the invoker; only there it runs handlers. An
unlocked strand is empty. -/
structure Sound (s : State) : Prop where
  hand : ∀ i, s.hand = some i → i < s.ops.length ∧ s.inBatch = false ∧ s.ioThread.inRun = true
  inBatch : s.inBatch = true → s.ioThread.inRun = true
  handling : ∀ f, s.ioThread = .handling f → s.inBatch = true
  unlocked : s.locked = false → s.strand = []

theorem sound_init : Sound init := ⟨by simp [init], by simp [init], by simp [init], fun _ => rfl⟩

theorem Sound.hand_eq_none (h : Sound s) (hbatch : s.inBatch = true) : s.hand = none := by
  by_contra hsome
  obtain ⟨i, hi⟩ := Option.ne_none_iff_exists'.mp hsome
  exact absurd (hbatch.symm.trans (h.hand i hi).2.1) (by simp)

theorem Sound.ioThread_of_hand (h : Sound s) {i : ℕ} (hi : s.hand = some i) :
    s.ioThread = .running := by
  obtain ⟨-, hbatch, hrun⟩ := h.hand i hi
  cases hio : s.ioThread with
  | running => rfl
  | handling f => exact absurd (hbatch.symm.trans (h.handling f hio)) (by simp)
  | none | exited => exact absurd hrun (by simp [hio, IoThread.inRun])

theorem Sound.schedule {u : SerialPort.State} (h : Sound s) (hgrows : Grows s.toState u) :
    Sound (schedule { s with toState := u }) := by
  have hhand : ∀ i, s.hand = some i → i < u.ops.length ∧ s.inBatch = false ∧
      u.ioThread.inRun = true := by
    intro i hi
    obtain ⟨hlt, hbatch, hrun⟩ := h.hand i hi
    exact ⟨Nat.lt_of_lt_of_le hlt hgrows.ops, hbatch, hgrows.inRun hrun⟩
  have hhandling : ∀ f, u.ioThread = .handling f → s.inBatch = true := by
    intro f hf
    obtain ⟨f', hf'⟩ := hgrows.handling f hf
    exact h.handling f' hf'
  unfold Batches.schedule
  split_ifs with hlocked
  · exact ⟨hhand, fun hb => hgrows.inRun (h.inBatch hb), hhandling,
      fun hno => absurd hlocked (by simp [hno])⟩
  · exact ⟨hhand, fun hb => hgrows.inRun (h.inBatch hb), hhandling, fun _ => rfl⟩

theorem step_sound (h : Sound s) {l : Label} (hs : step s l = some s') : Sound s' := by
  cases goes_of_step hs with
  | session l u hl hu => exact h.schedule (grows_of_step hl hu)
  | take i hlooks hstop hlt =>
    obtain ⟨hio, hbatch, -⟩ := hlooks
    refine ⟨?_, h.inBatch, h.handling, h.unlocked⟩
    intro j hj
    obtain rfl := Option.some.inj hj
    exact ⟨hlt, hbatch, by rw [hio]; rfl⟩
  | putBack => exact ⟨by simp, h.inBatch, h.handling, h.unlocked⟩
  | handOver i before after t res hi hp =>
    obtain ⟨-, hbatch, hrun⟩ := h.hand i hi
    unfold execute
    split_ifs with hlocked
    · exact ⟨by simp, h.inBatch, h.handling,
        fun hno => absurd (hno.symm.trans hlocked) (by simp)⟩
    · exact ⟨by simp, fun _ => hrun, fun _ _ => rfl, fun hno => absurd hno (by simp [State.locked])⟩
  | invoke hlooks hstop hready =>
    obtain ⟨hio, -, hhand⟩ := hlooks
    refine ⟨?_, fun _ => by rw [hio]; rfl, fun _ _ => rfl,
      fun hno => absurd hno (by simp [State.locked])⟩
    intro j hj
    exact absurd (hhand.symm.trans hj) (by simp)
  | runReady env item rest hio hbatch hready =>
    refine ⟨?_, ?_, fun _ _ => hbatch, ?_⟩
    · intro j hj
      exact absurd ((h.hand_eq_none hbatch).symm.trans hj) (by simp)
    · intro _
      rcases (handled_run env s.toState item).ioThread with heq | ⟨after, heq⟩
      · show (item.run env s.toState).ioThread.inRun = true
        rw [heq, hio]
        rfl
      · show (item.run env s.toState).ioThread.inRun = true
        rw [heq]
        rfl
    · intro hno
      exact absurd hno (by simp [State.locked, hbatch])
  | leave hio hbatch hready =>
    refine ⟨?_, by simp, ?_, fun _ => rfl⟩
    · intro i hi
      exact absurd ((h.hand_eq_none hbatch).symm.trans hi) (by simp)
    · intro f hf
      exact absurd (hio.symm.trans hf) (by simp)
  | ioExit hlooks hstop =>
    obtain ⟨-, hbatch, hhand⟩ := hlooks
    refine ⟨?_, ?_, by simp, h.unlocked⟩
    · intro i hi
      exact absurd (hhand.symm.trans hi) (by simp)
    · intro hb
      exact absurd (hbatch.symm.trans hb) (by simp)

theorem sound_of_run {ls : List Label} (h : Run step Any init ls s) : Sound s :=
  h.invariant sound_init fun _ _ _ hI _ hs => step_sound hI hs

/-! ## The strand -/

/-- The calls of the strand that the io thread is in. -/
inductive Calls (s : State) : List (Strand.Frame Item) → Prop
  | outside : s.inBatch = false → Calls s []
  | invoker : s.inBatch = true → (∀ f, s.ioThread ≠ .handling f) → Calls s [.running]
  | handler (item : Item) (f : Frame) : s.inBatch = true → s.ioThread = .handling f →
      Calls s [.handler item, .running]

theorem Calls.congr {stack : List (Strand.Frame Item)} (h : Calls s stack)
    (hbatch : s'.inBatch = s.inBatch) (hio : s'.ioThread = s.ioThread) : Calls s' stack := by
  cases h with
  | outside hno => exact .outside (hbatch.trans hno)
  | invoker hyes hnone => exact .invoker (hbatch.trans hyes) (by rwa [hio])
  | handler item f hyes hf => exact .handler item f (hbatch.trans hyes) (hio.trans hf)

/-- The strand, used by two threads: the io thread, and one that makes all the posts. -/
structure Strands (m : Strand.State Item) (s : State) : Prop where
  locked : m.locked = s.locked
  shutdown : m.shutdown = false
  waitingQueue : m.waitingQueue = s.strand
  readyQueue : m.readyQueue = s.ready
  scheduled : m.scheduled = if s.inBatch = false ∧ s.ready ≠ [] then 1 else 0
  threads : ∃ stack, m.threads = [stack, []] ∧ Calls s stack

variable {m : Strand.State Item}

theorem strands_init : Strands (Strand.initial 2) init :=
  ⟨rfl, rfl, rfl, rfl, rfl, [], rfl, .outside rfl⟩

theorem Strands.eq (h : Strands m s) : ∃ stack scheduled enqueued started destroyed,
    Calls s stack ∧ (scheduled = if s.inBatch = false ∧ s.ready ≠ [] then 1 else 0) ∧
      m = ⟨s.locked, false, s.strand, s.ready, scheduled, [stack, []], enqueued, started,
        destroyed⟩ := by
  obtain ⟨locked, shutdown, waiting, ready, scheduled, threads, enqueued, started, destroyed⟩ := m
  obtain ⟨hlocked, hshutdown, hwaiting, hready, hscheduled, stack, hthreads, hcalls⟩ := h
  simp only at hlocked hshutdown hwaiting hready hscheduled hthreads
  subst hlocked hshutdown hwaiting hready hthreads
  exact ⟨stack, scheduled, enqueued, started, destroyed, hcalls, hscheduled, rfl⟩

theorem Strands.congr (h : Strands m s) (hbatch : s'.inBatch = s.inBatch)
    (hready : s'.ready = s.ready) (hstrand : s'.strand = s.strand)
    (hio : s'.ioThread = s.ioThread) : Strands m s' := by
  obtain ⟨stack, hthreads, hcalls⟩ := h.threads
  have hlocked : s'.locked = s.locked := by
    unfold State.locked
    rw [hbatch, hready]
  refine ⟨h.locked.trans hlocked.symm, h.shutdown, h.waitingQueue.trans hstrand.symm,
    h.readyQueue.trans hready.symm, ?_, stack, hthreads, hcalls.congr hbatch hio⟩
  rw [hbatch, hready]
  exact h.scheduled

theorem unlocked_iff : s.locked = false ↔ s.inBatch = false ∧ s.ready = [] := by
  simp [State.locked]

theorem schedule_of_unlocked (h : s.locked = false → s.strand = []) : schedule s = s := by
  unfold schedule
  split_ifs with hlocked
  · rfl
  · have hno : s.locked = false := by simpa using hlocked
    rw [h hno]
    have hready := (unlocked_iff.mp hno).2
    have hstrand := h hno
    obtain ⟨t, ready, inBatch, hand⟩ := s
    obtain rfl : ready = [] := hready
    obtain ⟨running, portOpen, readBuffer, receiveCallback, errorCallback, ops, strand, rest⟩ := t
    obtain rfl : strand = [] := hstrand
    rfl

/-- The other thread posts. -/
theorem strands_post (h : Strands m s) (hunlocked : s.locked = false → s.strand = [])
    (item : Item) : ∃ ls m', Run Strand.step Any m ls m' ∧
      Strands m' (schedule { s with strand := s.strand ++ [item] }) := by
  obtain ⟨stack, scheduled, enqueued, started, destroyed, hcalls, hscheduled, rfl⟩ := h.eq
  unfold schedule
  split_ifs with hlocked
  · have hyes : s.locked = true := hlocked
    rw [hyes]
    exact ⟨_, _, Run.single (l := .post 1 item) trivial rfl,
      hyes.symm, rfl, rfl, rfl, hscheduled, stack, rfl, hcalls.congr rfl rfl⟩
  · have hno : s.locked = false := Bool.eq_false_iff.mpr hlocked
    obtain ⟨hbatch, hready⟩ := unlocked_iff.mp hno
    rw [if_neg (by simp [hready])] at hscheduled
    rw [hno, hready, hscheduled, hunlocked hno]
    refine ⟨_, _, .cons (l := .post 1 item) trivial rfl (.cons (l := .push 1) trivial rfl
      (Run.single (l := .schedule 1) trivial rfl)), ?_, rfl, rfl, rfl, ?_, stack, rfl,
      hcalls.congr rfl rfl⟩
    · exact (Bool.or_true _).symm
    · exact (if_pos ⟨hbatch, List.cons_ne_nil _ _⟩).symm

/-- The handler that the io thread is in goes on or returns. -/
theorem strands_goOn (h : Strands m s) {u : SerialPort.State}
    (hu : ∀ f, u.ioThread = .handling f → ∃ f', s.ioThread = .handling f') :
    ∃ ls m', Run Strand.step Any m ls m' ∧
      Strands m' { s with toState := { u with strand := s.strand } } := by
  obtain ⟨stack, scheduled, enqueued, started, destroyed, hcalls, hscheduled, rfl⟩ := h.eq
  cases hcalls with
  | outside hbatch =>
    exact ⟨[], _, .nil _, rfl, rfl, rfl, rfl, hscheduled, [], rfl, .outside hbatch⟩
  | invoker hbatch hio =>
    refine ⟨[], _, .nil _, rfl, rfl, rfl, rfl, hscheduled, _, rfl, .invoker hbatch ?_⟩
    intro f hf
    obtain ⟨f', hf'⟩ := hu f hf
    exact hio f' hf'
  | handler item f hbatch hio =>
    by_cases hin : ∃ f', u.ioThread = .handling f'
    · obtain ⟨f', hf'⟩ := hin
      exact ⟨[], _, .nil _, rfl, rfl, rfl, rfl, hscheduled, _, rfl, .handler item f' hbatch hf'⟩
    · exact ⟨_, _, Run.single (l := .finish 0) trivial rfl,
        rfl, rfl, rfl, rfl, hscheduled, _, rfl, .invoker hbatch (not_exists.mp hin)⟩

theorem strands_session (hsound : Sound s) (h : Strands m s) {u : SerialPort.State}
    (hgrows : Grows s.toState u) : ∃ ls m', Run Strand.step Any m ls m' ∧
      Strands m' (schedule { s with toState := u }) := by
  obtain ⟨ls, m', hrun, h'⟩ := strands_goOn h hgrows.handling
  rcases hgrows.strand with hsame | ⟨item, hmore⟩
  · rw [← hsame] at h'
    refine ⟨ls, m', hrun, ?_⟩
    rw [schedule_of_unlocked (s := { s with toState := u })
      fun hno => hsame.trans (hsound.unlocked hno)]
    exact h'
  · obtain ⟨ls', m'', hrun', h''⟩ := strands_post h' hsound.unlocked item
    refine ⟨ls ++ ls', m'', hrun.append hrun', ?_⟩
    have hu : u = { u with strand := s.strand ++ [item] } := by rw [← hmore]
    rw [hu]
    exact h''

/-- The io thread executes the handler of an operation. -/
theorem strands_execute (h : Strands m s) (hio : ∀ f, s.ioThread ≠ .handling f)
    (hbatch : s.inBatch = false) (item : Item) :
    ∃ ls m', Run Strand.step Any m ls m' ∧ Strands m' (execute item s) := by
  obtain ⟨stack, scheduled, enqueued, started, destroyed, hcalls, hscheduled, rfl⟩ := h.eq
  obtain rfl : stack = [] := by
    cases hcalls with
    | outside => rfl
    | invoker hyes | handler item f hyes => exact absurd (hbatch.symm.trans hyes) (by simp)
  unfold execute
  split_ifs with hlocked
  · rw [hlocked]
    exact ⟨_, _, Run.single (l := .dispatch 0 item) trivial rfl,
      hlocked.symm, rfl, rfl, rfl, hscheduled, [], rfl, .outside hbatch⟩
  · have hno : s.locked = false := Bool.eq_false_iff.mpr hlocked
    rw [if_neg (by simp [(unlocked_iff.mp hno).2])] at hscheduled
    rw [hno, (unlocked_iff.mp hno).2, hscheduled]
    exact ⟨_, _, .cons (l := .dispatch 0 item) trivial rfl (.cons (l := .push 0) trivial rfl
      (Run.single (l := .runHere 0) trivial rfl)),
      rfl, rfl, rfl, rfl, rfl, _, rfl, .invoker rfl hio⟩

theorem strands_invoke (h : Strands m s) (hlooks : Looks s) (hready : s.ready ≠ []) :
    ∃ ls m', Run Strand.step Any m ls m' ∧ Strands m' { s with inBatch := true } := by
  obtain ⟨hio, hbatch, -⟩ := hlooks
  obtain ⟨stack, scheduled, enqueued, started, destroyed, hcalls, hscheduled, rfl⟩ := h.eq
  rw [if_pos ⟨hbatch, hready⟩] at hscheduled
  subst hscheduled
  cases hcalls with
  | outside =>
    refine ⟨_, _, Run.single (l := .take 0) trivial rfl, ?_, rfl, rfl, rfl, ?_, _, rfl,
      .invoker rfl ?_⟩
    · simp [State.locked, hready]
    · rw [if_neg (by simp)]
      rfl
    · intro f hf
      exact absurd (hio.symm.trans hf) (by simp)
  | invoker hyes | handler item f hyes => exact absurd (hbatch.symm.trans hyes) (by simp)

theorem strands_runReady (h : Strands m s) (hio : s.ioThread = .running) (hbatch : s.inBatch = true)
    {item : Item} {rest : List Item} (hready : s.ready = item :: rest) (env : Env) :
    ∃ ls m', Run Strand.step Any m ls m' ∧
      Strands m' { s with toState := item.run env s.toState, ready := rest } := by
  obtain ⟨stack, scheduled, enqueued, started, destroyed, hcalls, hscheduled, rfl⟩ := h.eq
  have hstrand := (handled_run env s.toState item).strand
  have hlocked : s.locked = true := by simp [State.locked, hbatch]
  rw [if_neg (by simp [hbatch])] at hscheduled
  rw [hlocked, hready, hscheduled]
  cases hcalls with
  | outside hno => exact absurd (hbatch.symm.trans hno) (by simp)
  | handler item f hyes hf => exact absurd (hio.symm.trans hf) (by simp)
  | invoker =>
    by_cases hin : ∃ f, (item.run env s.toState).ioThread = .handling f
    · obtain ⟨f, hf⟩ := hin
      refine ⟨_, _, Run.single (l := .start 0) trivial rfl, ?_, rfl, hstrand.symm, rfl, ?_, _, rfl,
        .handler item f hbatch hf⟩
      · simp [State.locked, hbatch]
      · rw [if_neg (by simp [hbatch])]
    · refine ⟨_, _, .cons (l := .start 0) trivial rfl (Run.single (l := .finish 0) trivial rfl),
        ?_, rfl, hstrand.symm, rfl, ?_, _, rfl, .invoker hbatch (not_exists.mp hin)⟩
      · simp [State.locked, hbatch]
      · rw [if_neg (by simp [hbatch])]

theorem strands_leave (h : Strands m s) (hio : s.ioThread = .running) (hbatch : s.inBatch = true)
    (hready : s.ready = []) : ∃ ls m', Run Strand.step Any m ls m' ∧
      Strands m' { s with ready := s.strand, strand := [], inBatch := false } := by
  obtain ⟨stack, scheduled, enqueued, started, destroyed, hcalls, hscheduled, rfl⟩ := h.eq
  rw [if_neg (by simp [hbatch])] at hscheduled
  rw [hready, hscheduled]
  cases hcalls with
  | outside hno => exact absurd (hbatch.symm.trans hno) (by simp)
  | handler item f hyes hf => exact absurd (hio.symm.trans hf) (by simp)
  | invoker =>
    cases s.strand with
    | nil =>
      exact ⟨_, _, .cons (l := .done 0) trivial rfl (Run.single (l := .exit 0) trivial rfl), rfl,
        rfl, rfl, rfl, rfl, _, rfl, .outside rfl⟩
    | cons item rest =>
      exact ⟨_, _, .cons (l := .done 0) trivial rfl (.cons (l := .exit 0) trivial rfl
        (Run.single (l := .reschedule 0) trivial rfl)), rfl, rfl, rfl, rfl, rfl, _, rfl,
        .outside rfl⟩

theorem strands_step (hsound : Sound s) (h : Strands m s) {l : Label} (hs : step s l = some s') :
    ∃ ls m', Run Strand.step Any m ls m' ∧ Strands m' s' := by
  cases goes_of_step hs with
  | session l u hl hu => exact strands_session hsound h (grows_of_step hl hu)
  | take i | putBack => exact ⟨[], m, .nil m, h.congr rfl rfl rfl rfl⟩
  | handOver i before after t res hi =>
    refine strands_execute (s := { s with ops := before ++ after, hand := none })
      (h.congr rfl rfl rfl rfl) ?_ (hsound.hand i hi).2.1 _
    intro f hf
    exact absurd ((hsound.ioThread_of_hand hi).symm.trans hf) (by simp)
  | invoke hlooks hstop hready => exact strands_invoke h hlooks hready
  | runReady env item rest hio hbatch hready => exact strands_runReady h hio hbatch hready env
  | leave hio hbatch hready => exact strands_leave h hio hbatch hready
  | ioExit hlooks hstop =>
    obtain ⟨hio, hbatch, -⟩ := hlooks
    obtain ⟨stack, hthreads, hcalls⟩ := h.threads
    refine ⟨[], m, .nil m, h.locked, h.shutdown, h.waitingQueue, h.readyQueue, h.scheduled, stack,
      hthreads, ?_⟩
    cases hcalls with
    | outside hno => exact .outside hno
    | invoker hyes | handler item f hyes => exact absurd (hbatch.symm.trans hyes) (by simp)

/-- **The strand.** Whatever the session and its io thread do, `strand_executor_service` can have
done, with the same functions in its two queues. -/
theorem exists_strand {ls : List Label} (h : Run step Any init ls s) :
    ∃ ls' m, Run Strand.step Any (Strand.initial 2) ls' m ∧ Strands m s := by
  obtain ⟨ls', m, hrun, -, hm⟩ := h.follow (R := fun m s => Sound s ∧ Strands m s) (by
    rintro m s l s' ⟨hsound, hm⟩ _ hs
    obtain ⟨ls', m', hrun, hm'⟩ := strands_step hsound hm hs
    exact ⟨ls', m', hrun, step_sound hsound hs, hm'⟩) ⟨sound_init, strands_init⟩
  exact ⟨ls', m, hrun, hm⟩

end

end AsioLearn.SerialPort.Batches
