import AsioLearn.SerialPort.Deadlock

/-!
# Whether a running session reads

`open()` starts a read, and the handler of a read that has succeeded starts the next one; the
handler of a read that has failed only reports it, and a callback that throws ends the program.
`running_` is told neither way.

* `readers_of_moves`: what each step does to the number of reads that are outstanding, queued or
  about to be started again.
* `running_reads_iff`: a session that is not stopped reads while `running_` is set, exactly as
  long as no read has failed and no callback has thrown.
-/

namespace AsioLearn.SerialPort

open Proactor Lts

/-! ## Counting reads -/

def isRead (t : Task) : Bool := !t.isWrite

def Item.isRead : Item → Bool
  | .completed t _ => SerialPort.isRead t
  | _ => false

/-- The reads on the port that are outstanding or whose completion is queued. -/
def reading (s : State) : ℕ :=
  s.ops.countP (fun op => isRead op.task) + s.strand.countP Item.isRead

/-- The handler under way starts a read when its callback has returned. -/
def IoThread.rearms : IoThread → Bool
  | .handling f => f.after == .startRead
  | _ => false

/-- The reads that are outstanding, queued, or about to be started by the handler under way. -/
def readers (s : State) : ℕ := reading s + s.ioThread.rearms.toNat

/-- The step runs the handler of a read that has failed. -/
def endsReading (s : State) : Label → Bool
  | .runStrand _ =>
    match s.strand with
    | .completed .read r :: _ => r.ec.isSome
    | _ => false
  | _ => false

/-- The user callback that the io thread is in throws in this step. -/
def throwsNow (s : State) : Label → Bool
  | .ioAdvance _ =>
    match s.ioThread with
    | .handling f => f.pc == .idle && (f.calls.isEmpty && f.throws)
    | _ => false
  | _ => false

/-- No handler is under way: the io thread is in none, or the program has been terminated. -/
def betweenHandlers (s : State) : Bool :=
  s.terminated ||
    match s.ioThread with
    | .handling _ => false
    | _ => true

/-- Between handlers a running session has one read outstanding or queued, and its io thread is
in `io_.run()`. -/
def RunningReads (s : State) : Prop :=
  s.running = true → betweenHandlers s = true →
    reading s = 1 ∧ s.ioThread = .running ∧ s.terminated = false

instance : DecidablePred RunningReads := fun s => by unfold RunningReads; infer_instance

/-- The step runs no handler of a failed read, and no user callback throws. -/
def ReadsOn (s : State) (l : Label) : Prop := endsReading s l = false ∧ throwsNow s l = false

instance (s : State) (l : Label) : Decidable (ReadsOn s l) := by
  unfold ReadsOn
  infer_instance

/-! ## What a step does to the reads -/

section

variable {s s' : State}

/-- The reads of the two states are the same ones. -/
structure SameReads (s s' : State) : Prop where
  ops : s'.ops.countP (fun op => isRead op.task) = s.ops.countP (fun op => isRead op.task)
  strand : s'.strand.countP Item.isRead = s.strand.countP Item.isRead
  rearms : s'.ioThread.rearms = s.ioThread.rearms

theorem SameReads.readers (h : SameReads s s') : readers s' = readers s := by
  unfold SerialPort.readers reading
  rw [h.ops, h.strand, h.rearms]

/-- A read is added to the operations. -/
theorem readers_startAsyncRead (s : State) : readers (startAsyncRead s) = readers s + 1 := by
  simp only [readers, reading, startAsyncRead, startOp, List.countP_append, List.countP_singleton]
  simp [isRead, Task.isWrite]
  omega

theorem sameReads_startWrite (msg : Bytes) (sent : ℕ) (s : State) :
    SameReads s (startOp (.write msg sent) s) :=
  ⟨by simp [startOp, isRead, Task.isWrite], rfl, rfl⟩

theorem sameReads_writeSome (msg : Bytes) (sent : ℕ) (s : State) :
    SameReads s (writeSome msg sent s) := by
  unfold writeSome
  split_ifs
  · exact ⟨by simp [isRead, Task.isWrite], rfl, rfl⟩
  · exact sameReads_startWrite msg sent s
  · have h := sameReads_startWrite msg sent (emit (.writeFailed .badDescriptor) s)
    exact ⟨h.ops, h.strand, h.rearms⟩

/-- The rest of a handler, once it has left its callback. -/
theorem readers_afterRun (a : After) (s : State) :
    readers (a.run s) = readers s + (a == .startRead).toNat := by
  cases a with
  | nothing => rfl
  | startRead => exact readers_startAsyncRead s
  | setValue caller => rfl

/-- A callback, with the rest of the handler after it. -/
theorem readers_invoke (env : Env) (set : Bool) (e : Event) (a : After)
    (hio : s.ioThread.rearms = false) :
    readers (invoke env set e a s) = readers s + (a == .startRead).toNat := by
  unfold invoke
  split_ifs
  · show reading s + (a == .startRead).toNat = reading s + s.ioThread.rearms.toNat + _
    rw [hio]
    rfl
  · exact readers_afterRun a s

theorem readers_closePort (s : State) : readers (closePort s) = readers s := by
  have hcount : ∀ ops : List (Op Task Result),
      ops.countP (fun op => isRead op.task) = (ops.map Op.task).countP isRead := by
    intro ops
    rw [List.countP_map]
    rfl
  refine SameReads.readers ⟨?_, rfl, rfl⟩
  rw [hcount, hcount]
  show ((abort (fun _ => true) Result.aborted s.ops).map Op.task).countP isRead = _
  rw [map_task_abort]

/-- The entry is the handler of a read that has failed. -/
def Item.endsReading : Item → Bool
  | .completed .read r => r.ec.isSome
  | _ => false

/-- The handler of a read starts the next one, unless the read failed. -/
theorem readers_readHandler (env : Env) (r : Result) (hio : s.ioThread.rearms = false) :
    readers (readHandler env r s) + r.ec.isSome.toNat = readers s + 1 := by
  unfold readHandler
  cases r.ec with
  | none =>
    dsimp only
    rw [readers_invoke env _ _ .startRead hio]
    rfl
  | some ec =>
    dsimp only
    split_ifs
    · rfl
    · rw [readers_invoke env _ _ .nothing hio]
      rfl

theorem readers_writeResume (env : Env) (msg : Bytes) (sent : ℕ) (r : Result)
    (hio : s.ioThread.rearms = false) : readers (writeResume env msg sent r s) = readers s := by
  unfold writeResume writeHandler
  split_ifs
  · split
    · rfl
    · split_ifs
      · rfl
      · exact readers_invoke env _ _ .nothing hio
  · exact (sameReads_writeSome msg _ s).readers

/-- An entry of `strand_`: only the handler of a failed read ends the reading. -/
theorem readers_run (env : Env) (item : Item) (hio : s.ioThread = .running) :
    readers (item.run env s) + item.endsReading.toNat = readers s + item.isRead.toNat := by
  have hnone : s.ioThread.rearms = false := by rw [hio]; rfl
  cases item with
  | send msg =>
    unfold Item.run
    dsimp only
    split_ifs
    · rw [(sameReads_writeSome msg 0 s).readers]
      rfl
    · rfl
  | stop caller =>
    unfold Item.run
    dsimp only
    split_ifs
    · rw [readers_invoke env _ _ (.setValue caller) (s := closePort s) hnone, readers_closePort]
      rfl
    · rw [readers_afterRun]
      rfl
  | completed t r =>
    cases t with
    | read => exact readers_readHandler env r hnone
    | write msg sent =>
      show readers (writeResume env msg sent r s) + 0 = readers s + 0
      rw [readers_writeResume env msg sent r hnone]

/-- The number of times the port has been opened. -/
def openings (s : State) : ℕ := s.log.count .portOpened

theorem openings_append {es : List Event} (hlog : s'.log = s.log ++ es) (hes : .portOpened ∉ es) :
    openings s' = openings s := by
  unfold openings
  rw [hlog, List.count_append, List.count_eq_zero_of_not_mem hes, Nat.add_zero]

/-- A read begins with each opening of the port, and ends with the handler of a failed read; the
port stays as it is unless it is opened or closed. -/
structure Counted (lost : ℕ) (s s' : State) : Prop where
  reads : readers s' + lost + openings s = readers s + openings s'
  opened : openings s' = openings s ∨
    (lost = 0 ∧ openings s' = openings s + 1 ∧ s.portOpen = false ∧ s'.portOpen = true)

theorem counted_of_same (hr : SameReads s s') {es : List Event} (hlog : s'.log = s.log ++ es)
    (hes : .portOpened ∉ es) : Counted 0 s s' := by
  have ho := openings_append hlog hes
  exact ⟨by rw [hr.readers, ho, Nat.add_zero], Or.inl ho⟩

theorem counted_advance {env : Env} {caller : Caller} {pc pc' : Pc} {u : State}
    (hadv : advance env caller s pc = some (pc', u)) : Counted 0 s u := by
  cases advances_of_advance hadv with
  | stopClear | stopIo | respawn | startSet | joinSelf | stopWait | notJoinable =>
    exact counted_of_same ⟨rfl, rfl, rfl⟩ (List.append_nil _).symm (by simp)
  | stopPost =>
    exact counted_of_same ⟨rfl, by simp [Item.isRead], rfl⟩ (List.append_nil _).symm (by simp)
  | join thread hcaller hio | spawn hio =>
    exact counted_of_same ⟨rfl, rfl, by rw [hio]; rfl⟩ (List.append_nil _).symm (by simp)
  | opened es hes hyes hclosed =>
    have ho : openings (startAsyncRead { s with
        portOpen := true, log := s.log ++ .portOpened :: es }) = openings s + 1 := by
      have hno := not_mem_of_notices hes
      simp [openings, startAsyncRead, startOp, List.count_eq_zero_of_not_mem hno]
    refine ⟨?_, Or.inr ⟨rfl, ho, hclosed, rfl⟩⟩
    rw [readers_startAsyncRead, ho]
    show readers s + 1 + 0 + openings s = _
    omega
  | notOpened es isOpen hes =>
    exact counted_of_same ⟨rfl, rfl, rfl⟩ rfl (not_mem_of_notices hes)
  | sendPost msg =>
    exact counted_of_same ⟨rfl, by simp [emit, Item.isRead], rfl⟩ rfl (by simp)

/-- An entry of `strand_` leaves it and runs. -/
theorem counted_runStrand (env : Env) {item : Item} {rest : List Item}
    (hio : s.ioThread = .running) (hstrand : s.strand = item :: rest) :
    Counted (endsReading s (.runStrand env)).toNat s (item.run env { s with strand := rest }) := by
  have hrun := readers_run (s := { s with strand := rest }) env item hio
  obtain ⟨es, hes, hlog⟩ := (handled_run env { s with strand := rest } item).log
  have ho : openings (item.run env { s with strand := rest }) = openings s :=
    openings_append hlog hes
  have hends : endsReading s (.runStrand env) = item.endsReading := by
    simp only [endsReading, hstrand, Item.endsReading]
    cases item with
    | completed t r => cases t <;> rfl
    | send msg | stop caller => rfl
  have hrest : readers { s with strand := rest } + item.isRead.toNat = readers s := by
    simp only [readers, reading, hstrand, List.countP_cons]
    cases item.isRead with
    | true =>
      simp only [if_true, Bool.toNat_true]
      omega
    | false => rfl
  exact ⟨by rw [hends, ho]; omega, Or.inl ho⟩

/-- A call made in a callback goes on: the callback stays the one it is. -/
theorem counted_ioGo {env : Env} {f : Frame} {pc : Pc} {u : State} (hf : s.ioThread = .handling f)
    (hadv : advance env .io s f.pc = some (pc, u)) :
    Counted 0 s { u with ioThread := .handling { f with pc := pc } } := by
  have h := counted_advance hadv
  have hgo := advances_of_advance hadv
  have hio : u.ioThread = s.ioThread := by
    generalize f.pc = at' at hgo
    cases hgo with
    | spawn hno | notJoinable hno => exact absurd (hf.symm.trans hno) (by simp)
    | join thread hcaller => exact absurd hcaller (by simp)
    | _ => rfl
  have hreads : readers { u with ioThread := .handling { f with pc := pc } } = readers u := by
    show reading u + _ = reading u + u.ioThread.rearms.toNat
    rw [hio, hf]
    rfl
  refine ⟨?_, h.opened⟩
  rw [hreads]
  exact h.reads

theorem readers_of_moves {l : Label} (hm : Moves s l s') :
    Counted (endsReading s l).toNat s s' := by
  cases hm with
  | call thread c hidle =>
    obtain ⟨es, hes, hs⟩ := begin_snd c s
    rw [hs]
    exact counted_of_same ⟨rfl, rfl, rfl⟩ rfl (not_mem_of_notices hes)
  | advance thread env pc u hadv =>
    have h := counted_advance hadv
    exact ⟨h.reads, h.opened⟩
  | setReceiveCallback set | setErrorCallback set =>
    exact counted_of_same ⟨rfl, rfl, rfl⟩ (List.append_nil _).symm (by simp)
  | complete i out before after t res hp hwait hres =>
    have hset : SameReads s { s with ops := before ++ ⟨t, some res⟩ :: after } :=
      ⟨by simp [pick_eq_some hp, List.countP_cons], rfl, rfl⟩
    obtain ⟨buffer, es, hes, hs⟩ :=
      deliver_eq out t { s with ops := before ++ ⟨t, some res⟩ :: after }
    rw [hs]
    exact counted_of_same ⟨hset.ops, rfl, rfl⟩ rfl hes
  | dispatch i before after t res hio hstop hp =>
    refine ⟨?_, Or.inl rfl⟩
    simp only [readers, reading, pick_eq_some hp, List.countP_append, List.countP_cons,
      List.countP_nil, Item.isRead, endsReading, openings, Bool.toNat_false]
    rcases Bool.eq_false_or_eq_true (isRead t) with h | h <;>
      simp only [h, Bool.false_eq_true, if_false, if_true] <;> omega
  | runStrand env item rest hio hstop hstrand => exact counted_runStrand env hio hstrand
  | ioCall env f c calls hf hpc hcalls =>
    obtain ⟨es, hes, hs⟩ := begin_snd c s
    rw [hs]
    exact counted_of_same ⟨rfl, rfl, by rw [hf]; rfl⟩ rfl (not_mem_of_notices hes)
  | ioThrow env f hf hpc hcalls hthrows =>
    exact counted_of_same ⟨rfl, rfl, rfl⟩ (List.append_nil _).symm (by simp)
  | ioReturn env f hf hpc hcalls hthrows =>
    have hrun := readers_afterRun f.after { s with ioThread := .running }
    obtain ⟨es, hes, hlog⟩ := (handled_afterRun env { s with ioThread := .running } f.after).log
    have ho : openings (f.after.run { s with ioThread := .running }) = openings s :=
      openings_append hlog hes
    refine ⟨?_, Or.inl ho⟩
    rw [hrun, ho]
    show reading s + 0 + _ + 0 + _ = reading s + s.ioThread.rearms.toNat + _
    rw [hf]
    rfl
  | ioGo env f pc u hf hpc hadv => exact counted_ioGo hf hadv
  | ioExit hio hstop =>
    exact counted_of_same ⟨rfl, rfl, by rw [hio]; rfl⟩ (List.append_nil _).symm (by simp)

/-! ## Sessions that are not stopped -/

/-- Without a `stop()` the port stays open. -/
theorem portOpen_of_moves (h : Unstopped s) {l : Label} (hm : Moves s l s')
    (hopen : s.portOpen = true) : s'.portOpen = true := by
  have hadv : ∀ {env caller pc pc' u}, advance env caller s pc = some (pc', u) →
      u.portOpen = true := by
    intro env caller pc pc' u hadv
    cases advances_of_advance hadv with
    | opened => rfl
    | notOpened es isOpen _ _ hkeep => exact hkeep hopen
    | _ => exact hopen
  cases hm with
  | call thread c hidle | ioCall env f c calls =>
    obtain ⟨es, -, hs⟩ := begin_snd c s
    rw [hs]
    exact hopen
  | advance thread env pc u h | ioGo env f pc u hf hpc h =>
    have hu : u.portOpen = true := hadv h
    exact hu
  | setReceiveCallback set | setErrorCallback set | dispatch | ioThrow | ioExit => exact hopen
  | complete i out before after t res =>
    obtain ⟨buffer, es, -, hs⟩ :=
      deliver_eq out t { s with ops := before ++ ⟨t, some res⟩ :: after }
    rw [hs]
    exact hopen
  | runStrand env item rest hio hstop hstrand =>
    have hrun : Started { s with strand := rest } (item.run env { s with strand := rest }) :=
      started_run (h.items item (by rw [hstrand]; exact List.mem_cons_self))
    exact hrun.portOpen.trans hopen
  | ioReturn env f =>
    have hrun : Started { s with ioThread := .running }
        (f.after.run { s with ioThread := .running }) := started_afterRun f.after
    exact hrun.portOpen.trans hopen

/-- What holds of a session that nobody stops: its port has been opened once at most, and is
open since then. -/
structure Session (s : State) : Prop where
  unstopped : Unstopped s
  stage : ∃ p, Stage s p
  opened : .portOpened ∈ s.log → s.portOpen = true
  once : openings s ≤ 1

theorem session_init : Session init :=
  ⟨unstopped_init, ⟨_, stage_init⟩, fun h => absurd h (by simp [init]), by decide⟩

theorem Session.oneStart (h : Session s) (l : Label) : OneStart s l := by
  unfold OneStart
  split
  · rename_i c env hact
    intro _ hyes hmem
    obtain ⟨es, -, ⟨-, hclosed, -⟩ | ⟨hno, -⟩⟩ := openPort_cases env s
    · exact absurd (h.opened hmem) (by simp [hclosed])
    · exact absurd hyes (by simp [hno])
  · trivial

theorem step_session (h : Session s) {l : Label} (hok : NoStop s l) (hs : step s l = some s') :
    Session s' := by
  have hm := moves_of_step hs
  obtain ⟨p, hp⟩ := h.stage
  have hcount := (readers_of_moves hm).opened
  have hiff : ∀ t : State, .portOpened ∈ t.log ↔ 0 < openings t := fun t => List.count_pos_iff.symm
  refine ⟨step_unstopped h.unstopped hok hs,
    step_stage hp (h.oneStart l) (oneStop_of_noStop hok) hs, ?_, ?_⟩
  · intro hmem
    rcases hcount with he | ⟨-, -, -, hopen⟩
    · rw [hiff, he, ← hiff] at hmem
      exact portOpen_of_moves h.unstopped hm (h.opened hmem)
    · exact hopen
  · have hle := h.once
    rcases hcount with he | ⟨-, he, hclosed, -⟩
    · omega
    · have hzero : ¬ 0 < openings s := fun hpos =>
        absurd (h.opened ((hiff s).mpr hpos)) (by simp [hclosed])
      omega

/-! ## Reading on, or not -/

/-- Reading goes on: a read for each time the port has been opened. -/
structure Listening (s : State) : Prop extends Session s where
  reads : readers s = openings s
  terminated : s.terminated = false

/-- Reading has ended, or the program has. -/
structure Deaf (s : State) : Prop extends Session s where
  lost : s.terminated = true ∨ (readers s = 0 ∧ 0 < openings s)

/-- A thread is spawned while there is none. -/
theorem ioThread_of_startSpawn {p : Phase} (hp : Stage s p) {thread : ℕ}
    (hpc : s.threads thread = .startSpawn) : s.ioThread = .none := by
  have hactor : p.thread? = some thread := by
    by_contra hne
    exact absurd (hp.others thread hne) (by simp [hpc, Pc.isActive])
  have hholds := hp.holds
  cases p with
  | fresh | up | down => exact absurd hactor (by simp [Phase.thread?])
  | spawning t => exact hholds.2.2.2.1
  | setting t =>
    obtain rfl := Option.some.inj hactor
    exact absurd (hpc.symm.trans hholds.2.2.2) (by simp)
  | stopping t =>
    obtain rfl := Option.some.inj hactor
    have hat := hholds.2
    rw [hpc] at hat
    exact hat.elim

/-- A user callback that throws is the only thing that ends the program. -/
theorem terminated_of_moves (h : Session s) {l : Label} (hm : Moves s l s')
    (hno : throwsNow s l = false) : s'.terminated = s.terminated := by
  obtain ⟨p, hp⟩ := h.stage
  cases hm with
  | call thread c hidle | ioCall env f c calls =>
    obtain ⟨es, -, hs⟩ := begin_snd c s
    rw [hs]
  | advance thread env pc u hadv =>
    show u.terminated = s.terminated
    have hgo := advances_of_advance hadv
    have hspawn : s.threads thread = .startSpawn → s.ioThread = .none :=
      ioThread_of_startSpawn hp
    generalize s.threads thread = at' at hgo hspawn
    cases hgo with
    | joinSelf hself => exact absurd hself (by simp)
    | respawn hio => exact absurd (hspawn rfl) hio
    | _ => rfl
  | setReceiveCallback set | setErrorCallback set | dispatch | ioExit => rfl
  | complete i out before after t res =>
    obtain ⟨buffer, es, -, hs⟩ :=
      deliver_eq out t { s with ops := before ++ ⟨t, some res⟩ :: after }
    rw [hs]
  | runStrand env item rest => exact (handled_run env { s with strand := rest } item).terminated
  | ioThrow env f hf hpc hcalls hthrows =>
    exact absurd hno (by simp [throwsNow, hf, hpc, hcalls, hthrows])
  | ioReturn env f =>
    exact (handled_afterRun env { s with ioThread := .running } f.after).terminated
  | ioGo env f pc u hf hpc hadv =>
    show u.terminated = s.terminated
    have hinactive := hp.io
    rw [pcOf_io_handling hf] at hinactive
    have hgo := advances_of_advance hadv
    generalize f.pc = at' at hgo hinactive
    cases hgo with
    | joinSelf | respawn => exact absurd hinactive (by simp [Pc.isActive, Pc.inStop])
    | _ => rfl

theorem step_listening (h : Listening s) {l : Label} (hn : NoStop s l) (hok : ReadsOn s l)
    (hs : step s l = some s') : Listening s' := by
  have hm := moves_of_step hs
  have hcount := (readers_of_moves hm).reads
  have hreads := h.reads
  rw [hok.1, Bool.toNat_false] at hcount
  refine ⟨step_session h.toSession hn hs, by omega, ?_⟩
  rw [terminated_of_moves h.toSession hm hok.2, h.terminated]

/-- A failed read or a callback that throws ends it. -/
theorem deaf_of_not_readsOn (h : Listening s) {l : Label} (hn : NoStop s l)
    (hno : ¬ ReadsOn s l) (hs : step s l = some s') : Deaf s' := by
  have hm := moves_of_step hs
  refine ⟨step_session h.toSession hn hs, ?_⟩
  rcases Bool.eq_false_or_eq_true (throwsNow s l) with hthrow | hthrow
  · left
    cases hm with
    | ioThrow => rfl
    | ioCall env f c calls hf hpc hcalls => simp [throwsNow, hf, hcalls] at hthrow
    | ioReturn env f hf hpc hcalls hthrows => simp [throwsNow, hf, hthrows] at hthrow
    | ioGo env f pc u hf hpc => simp [throwsNow, hf, hpc] at hthrow
    | _ => simp [throwsNow] at hthrow
  · right
    have hends : endsReading s l = true := by
      by_contra hne
      exact hno ⟨by simpa using hne, hthrow⟩
    have hcount := readers_of_moves hm
    have hreads := hcount.reads
    have hopened := hcount.opened
    have hbefore := h.reads
    have hle := h.once
    have hopen : openings s' = openings s := by
      rcases hopened with he | ⟨hnone, -⟩
      · exact he
      · exact absurd hnone (by simp [hends])
    rw [hends, Bool.toNat_true] at hreads
    omega

theorem step_deaf (h : Deaf s) {l : Label} (hn : NoStop s l) (hs : step s l = some s') :
    Deaf s' := by
  have hm := moves_of_step hs
  have hcount := readers_of_moves hm
  refine ⟨step_session h.toSession hn hs, ?_⟩
  rcases h.lost with hterm | ⟨hzero, hpos⟩
  · exact absurd hterm (by simp [terminated_of_step hs])
  · right
    have hreads := hcount.reads
    rcases hcount.opened with he | ⟨-, -, hclosed, -⟩
    · omega
    · exact absurd (h.opened (List.count_pos_iff.mp hpos)) (by simp [hclosed])

/-! ## Runs -/

/-- While `running_` is set the port has been opened and its io thread serves. -/
theorem serves_of_running (h : Session s) (hrun : s.running = true) :
    .portOpened ∈ s.log ∧ Serves s := by
  obtain ⟨p, hp⟩ := h.stage
  have hholds := hp.holds
  cases p with
  | fresh | spawning t | setting t => exact absurd hrun (by simp [hholds.2.1])
  | up => exact ⟨hholds.1, hholds.2.2⟩
  | down => exact absurd hrun (by simp [hholds.2])
  | stopping t =>
    have hcalls := (h.unstopped.calls (.user t)).1
    rw [pcOf_user] at hcalls
    have hat := hholds.2
    cases hpc : s.threads t <;> simp_all [StopAt, Pc.inStop]

theorem runningReads_of_listening (h : Listening s) : RunningReads s := by
  intro hrun hbetween
  have hhandling : ∀ f, s.ioThread ≠ .handling f := by
    intro f hf
    simp [betweenHandlers, h.terminated, hf] at hbetween
  obtain ⟨hopened, -, hin⟩ := serves_of_running h.toSession hrun
  have hio : s.ioThread = .running := by
    cases hio : s.ioThread with
    | running => rfl
    | handling f => exact absurd hio (hhandling f)
    | none | exited => simp [hio, IoThread.inRun] at hin
  refine ⟨?_, hio, h.terminated⟩
  have hreads := h.reads
  have hpos : 0 < openings s := List.count_pos_iff.mpr hopened
  have hle := h.once
  simp only [readers, hio, IoThread.rearms, Bool.toNat_false] at hreads
  omega

theorem not_reading_of_deaf (h : Deaf s) (hrun : s.running = true)
    (hbetween : betweenHandlers s = true) : ¬ RunningReads s := by
  intro hreads
  obtain ⟨hone, -, hterm⟩ := hreads hrun hbetween
  rcases h.lost with hyes | ⟨hzero, -⟩
  · exact absurd hyes (by simp [hterm])
  · unfold readers at hzero
    omega

end

/-- **A running session reads**, in a state that a run without `stop()` has led to, exactly if
`running_` is not set there, or a handler is under way, or until then no handler of a failed read
has been run and no user callback has thrown. -/
theorem running_reads_iff (ls : List Label) (s : State) (h : Run step NoStop init ls s) :
    RunningReads s ↔ (s.running = true → betweenHandlers s = true →
      EachStep step ReadsOn init ls) := by
  have hinit : Listening init := ⟨session_init, by decide, rfl⟩
  rcases h.eachStep_cases (I := Listening) (J := Deaf)
      (fun s l s' hI hn hok hs => step_listening hI hn hok hs)
      (fun s l s' hI hn hno hs => deaf_of_not_readsOn hI hn hno hs)
      (fun s l s' hJ hn hs => step_deaf hJ hn hs) hinit with ⟨heach, hgood⟩ | ⟨hno, hbad⟩
  · exact ⟨fun _ _ _ => heach, fun _ => runningReads_of_listening hgood⟩
  · constructor
    · intro hreads hrun hbetween
      exact absurd hreads (not_reading_of_deaf hbad hrun hbetween)
    · intro himp hrun hbetween
      exact absurd (himp hrun hbetween) hno

/-- The session is started, and receives twice. -/
def receivesTwice : List Label :=
  [.setReceiveCallback true, .call 0 .start, .advance 0 {}, .advance 0 {}, .advance 0 {},
    .complete 0 (.received [97]), .dispatch 0, .runStrand {}, .ioAdvance {},
    .complete 0 (.received [98]), .dispatch 0, .runStrand {}, .ioAdvance {}]

theorem running_reads_iff_receivesTwice :
    RunningReads (reached step NoStop init receivesTwice) :=
  (running_reads_iff _ _ (run_reached (by decide))).mpr fun _ _ => by decide

/-- The device is unplugged: the session stays `running_` and reads no more. -/
theorem not_running_reads :
    ¬ ∀ (ls : List Label) (s : State), Run step NoStop init ls s → RunningReads s := by
  intro h
  have hrun := h [.call 0 .start, .advance 0 {}, .advance 0 {}, .advance 0 {},
    .complete 0 (.failed .eof), .dispatch 0, .runStrand {}] _ (run_reached (by decide))
  exact absurd hrun (by decide)

end AsioLearn.SerialPort
