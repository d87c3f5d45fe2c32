import AsioLearn.SerialPort.Batches

/-!
# What keeps the session when `stop()` has returned

A handler or closure that is stored in `io_` or `strand_` holds `self`, and the session owns
`io_`. `stop()` waits for its own closure only: what the closing of the port aborts is stored like
any other completion, and once `io_.stop()` has been called the io thread takes nothing more from
the queues. It only brings to an end what it has taken before.

* `stored_of_moves`: a stopped `io_` never gives back what is stored in it.
* `left_of_goes`: the same with the batches of `strand_`, but for the batch that is being run.
* `released_iff_drained`: a `stop()` leaves nothing behind exactly if nothing else was stored at
  `io_.stop()`, and nothing after it.
-/

namespace AsioLearn.SerialPort

open Proactor Lts

/-! ## References to the session -/

/-- The handlers and closures stored in `io_` and in `strand_`. -/
def stored (s : State) : ℕ := s.ops.length + s.strand.length

/-- The io thread is inside a handler. -/
def IoThread.inHandler : IoThread → Bool
  | .handling _ => true
  | _ => false

/-- The handlers and closures that hold `self`. -/
def holders (s : State) : ℕ := stored s + s.ioThread.inHandler.toNat

/-- A call of `stop()` that has shut the session down returns in this step. -/
def returnsFromStop (s : State) : Label → Bool
  | .advance thread _ => s.threads thread == .stopJoin
  | _ => false

/-- The step calls `io_.stop()`. -/
def stopsIo (s : State) (l : Label) : Bool :=
  match actor? l with
  | some (c, _) => pcOf s c == .stopIo
  | none => false

/-- The next step of a call stores a closure, or starts the first read. -/
def Pc.stores (env : Env) (s : State) : Pc → Bool
  | .stopPost | .sendPost _ => true
  | .startOpen => (openPort env s).1
  | _ => false

/-- The handler returns from its callback in its next step, and then starts a read. -/
def Frame.readsOn (f : Frame) : Bool :=
  f.pc == .idle && (f.calls.isEmpty && (!f.throws && f.after == .startRead))

/-- The step of a call or of a callback stores a handler or a closure. -/
def stores (s : State) : Label → Bool
  | .advance thread env => (s.threads thread).stores env s
  | .ioAdvance env =>
    match s.ioThread with
    | .handling f => f.pc.stores env s || f.readsOn
    | _ => false
  | _ => false

/-- A closure or a handler starts an operation, as it is run. -/
def Item.stores (s : State) : Item → Bool
  | .send _ => s.portOpen
  | .stop _ => false
  | .completed .read r => r.ec.isNone && !s.receiveCallback
  | .completed (.write msg sent) r => !r.endsWrite msg sent

section

variable {s s' : State}

/-! ## What a step does to a stopped `io_` -/

theorem stored_advance {env : Env} {caller : Caller} {pc pc' : Pc} {u : State}
    (hadv : advance env caller s pc = some (pc', u)) :
    stored u = stored s + (pc.stores env s).toNat := by
  have hgo := advances_of_advance hadv
  cases hgo with
  | stopPost | sendPost msg =>
    simp [stored, emit, Pc.stores]
    omega
  | opened es hes hyes =>
    simp [stored, startAsyncRead, startOp, Pc.stores, hyes]
    omega
  | notOpened es isOpen hes hno => simp [stored, Pc.stores, hno]
  | _ => rfl

theorem ioStopped_advance {env : Env} {caller : Caller} {pc pc' : Pc} {u : State}
    (hadv : advance env caller s pc = some (pc', u)) :
    u.ioStopped = (s.ioStopped || pc == .stopIo) := by
  cases advances_of_advance hadv with
  | stopIo => exact (Bool.or_true _).symm
  | _ => exact (Bool.or_false _).symm

theorem threads_advance {env : Env} {caller : Caller} {pc pc' : Pc} {u : State}
    (hadv : advance env caller s pc = some (pc', u)) : u.threads = s.threads := by
  cases advances_of_advance hadv <;> rfl

/-- The rest of a handler. -/
theorem stored_afterRun (a : After) (s : State) :
    stored (a.run s) = stored s + (a == .startRead).toNat := by
  cases a with
  | startRead =>
    simp [stored, After.run, startAsyncRead, startOp]
    omega
  | nothing | setValue caller => rfl

/-- Nothing is taken from a stopped `io_`. -/
theorem stored_of_moves {l : Label} (hm : Moves s l s') (hstop : s.ioStopped = true) :
    stored s' = stored s + (stores s l).toNat := by
  cases hm with
  | call thread c hidle =>
    obtain ⟨es, -, hs⟩ := begin_snd c s
    rw [hs]
    rfl
  | advance thread env pc u hadv =>
    have hu := stored_advance hadv
    exact hu
  | setReceiveCallback set | setErrorCallback set | ioExit => rfl
  | complete i out before after t res hp =>
    have hset : stored { s with ops := before ++ ⟨t, some res⟩ :: after } = stored s := by
      simp [stored, pick_eq_some hp]
    obtain ⟨buffer, es, -, hs⟩ :=
      deliver_eq out t { s with ops := before ++ ⟨t, some res⟩ :: after }
    rw [hs]
    exact hset
  | dispatch i before after t res hio hno | runStrand env item rest hio hno =>
    exact absurd hstop (by simp [hno])
  | ioCall env f c calls hf hpc hcalls =>
    obtain ⟨es, -, hs⟩ := begin_snd c s
    rw [hs]
    simp [stored, stores, hf, hpc, hcalls, Pc.stores, Frame.readsOn]
  | ioThrow env f hf hpc hcalls hthrows =>
    simp [stored, stores, hf, hpc, hthrows, Pc.stores, Frame.readsOn]
  | ioReturn env f hf hpc hcalls hthrows =>
    have hreads : stores s (.ioAdvance env) = (f.after == .startRead) := by
      simp [stores, hf, hpc, hcalls, hthrows, Pc.stores, Frame.readsOn]
    rw [hreads]
    exact stored_afterRun f.after { s with ioThread := .running }
  | ioGo env f pc u hf hpc hadv =>
    have hstores : stores s (.ioAdvance env) = f.pc.stores env s := by
      simp [stores, hf, hpc, Frame.readsOn]
    have hu := stored_advance hadv
    rw [hstores]
    exact hu

/-- `io_` is stopped by `io_.stop()`, and stays stopped. -/
theorem ioStopped_of_moves {l : Label} (hm : Moves s l s') :
    s'.ioStopped = (s.ioStopped || stopsIo s l) := by
  have hsame : s.ioStopped = (s.ioStopped || false) := (Bool.or_false _).symm
  cases hm with
  | call thread c hidle =>
    obtain ⟨es, -, hs⟩ := begin_snd c s
    rw [hs]
    exact hsame
  | advance thread env pc u hadv =>
    have hu := ioStopped_advance hadv
    exact hu
  | setReceiveCallback set | setErrorCallback set | dispatch | ioExit => exact hsame
  | complete i out before after t res hp =>
    obtain ⟨buffer, es, -, hs⟩ :=
      deliver_eq out t { s with ops := before ++ ⟨t, some res⟩ :: after }
    rw [hs]
    exact hsame
  | runStrand env item rest hio hno =>
    exact (handled_run env { s with strand := rest } item).ioStopped.trans hsame
  | ioCall env f c calls hf hpc hcalls =>
    obtain ⟨es, -, hs⟩ := begin_snd c s
    rw [hs]
    have hat : stopsIo s (.ioAdvance env) = false := by
      simp [stopsIo, actor?, pcOf_io_handling hf, hpc]
    rw [hat]
    exact hsame
  | ioThrow env f hf hpc hcalls hthrows =>
    have hat : stopsIo s (.ioAdvance env) = false := by
      simp [stopsIo, actor?, pcOf_io_handling hf, hpc]
    rw [hat]
    exact hsame
  | ioReturn env f hf hpc hcalls hthrows =>
    have hat : stopsIo s (.ioAdvance env) = false := by
      simp [stopsIo, actor?, pcOf_io_handling hf, hpc]
    rw [hat]
    exact (handled_afterRun env { s with ioThread := .running } f.after).ioStopped.trans hsame
  | ioGo env f pc u hf hpc hadv =>
    have hat : stopsIo s (.ioAdvance env) = (f.pc == .stopIo) := by
      simp [stopsIo, actor?, pcOf_io_handling hf]
    have hu := ioStopped_advance hadv
    rw [hat]
    exact hu

/-- What the step that calls `io_.stop()` finds stored, it leaves there. -/
theorem stored_of_stopsIo {l : Label} (hm : Moves s l s') (hl : stopsIo s l = true) :
    stored s' = stored s := by
  cases hm with
  | advance thread env pc u hadv =>
    have hpc : s.threads thread = .stopIo := by simpa [stopsIo, actor?, pcOf] using hl
    have hu := stored_advance hadv
    rw [hpc] at hu
    exact hu
  | ioGo env f pc u hf hpc hadv =>
    have hpc : f.pc = .stopIo := by simpa [stopsIo, actor?, pcOf_io_handling hf] using hl
    have hu := stored_advance hadv
    rw [hpc] at hu
    exact hu
  | ioCall env f c calls hf hpc | ioThrow env f hf hpc | ioReturn env f hf hpc =>
    simp [stopsIo, actor?, pcOf_io_handling hf, hpc] at hl
  | _ => simp [stopsIo, actor?] at hl

/-! ## Stopping -/

/-- A thread that joins the io thread has called `io_.stop()`. -/
def Joining (s : State) : Prop := ∀ thread, s.threads thread = .stopJoin → s.ioStopped = true

theorem step_joining (h : Joining s) {l : Label} (hs : step s l = some s') : Joining s' := by
  intro thread hat
  have hm := moves_of_step hs
  rw [ioStopped_of_moves hm, Bool.or_eq_true]
  by_cases hsame : s'.threads thread = s.threads thread
  · exact Or.inl (h thread (hsame ▸ hat))
  cases hm with
  | call t c hidle =>
    exfalso
    have hbegin : (c.begin s).1 ≠ .stopJoin := by
      cases c with
      | start | stop | send msg =>
        unfold Call.begin
        split_ifs <;> simp
    obtain ⟨es, -, hs⟩ := begin_snd c s
    by_cases ht : thread = t
    · subst ht
      exact hbegin (by simpa using hat)
    · exact hsame (by simp [Function.update_of_ne ht, hs])
  | advance t env pc u hadv =>
    have hthreads := threads_advance hadv
    by_cases ht : thread = t
    · subst ht
      right
      have hpc : pc = .stopJoin := by simpa using hat
      have hgo := advances_of_advance hadv
      simp only [stopsIo, actor?, pcOf_user]
      generalize s.threads thread = at' at hgo
      subst hpc
      cases hgo
      rfl
    · exact absurd (by simp [Function.update_of_ne ht, hthreads]) hsame
  | setReceiveCallback set | setErrorCallback set | dispatch | ioThrow | ioExit =>
    exact absurd rfl hsame
  | complete i out before after t res hp =>
    obtain ⟨buffer, es, -, hs⟩ :=
      deliver_eq out t { s with ops := before ++ ⟨t, some res⟩ :: after }
    exact absurd (by rw [hs]) hsame
  | runStrand env item rest =>
    exact absurd (congrFun (handled_run env { s with strand := rest } item).threads thread) hsame
  | ioReturn env f =>
    exact absurd (congrFun (handled_afterRun env { s with ioThread := .running } f.after).threads
      thread) hsame
  | ioCall env f c calls =>
    obtain ⟨es, -, hs⟩ := begin_snd c s
    exact absurd (by rw [hs]) hsame
  | ioGo env f pc u hf hpc hadv =>
    have hthreads := threads_advance hadv
    exact absurd (congrFun hthreads thread) hsame

/-- A return stores nothing, and leaves no io thread. -/
theorem stored_of_return {l : Label} (hl : returnsFromStop s l = true)
    (hs : step s l = some s') : s'.ioThread = .none ∧ stored s' = stored s := by
  cases moves_of_step hs with
  | advance thread env pc u hadv =>
    have hpc : s.threads thread = .stopJoin := by simpa [returnsFromStop] using hl
    rw [hpc] at hadv
    have hstored := stored_advance hadv
    refine ⟨?_, hstored⟩
    cases advances_of_advance hadv with
    | notJoinable hio => exact hio
    | join => rfl
    | joinSelf hself => exact absurd hself (by simp)
  | _ => simp [returnsFromStop] at hl

/-! ## What a closure or a handler does -/

theorem length_ops_afterRun (a : After) :
    (a.run s).ops.length = s.ops.length + (a == .startRead).toNat := by
  cases a with
  | startRead => exact List.length_append
  | nothing | setValue caller => rfl

theorem length_ops_invoke (env : Env) (set : Bool) (e : Event) (a : After) :
    (invoke env set e a s).ops.length = s.ops.length + (!set && a == .startRead).toNat := by
  unfold invoke
  cases set with
  | true => rfl
  | false => exact length_ops_afterRun a

theorem length_ops_writeSome (msg : Bytes) (sent : ℕ) :
    (writeSome msg sent s).ops.length = s.ops.length + 1 := by
  unfold writeSome startOp
  split_ifs <;> exact List.length_append

theorem length_ops_run (env : Env) (item : Item) :
    (item.run env s).ops.length = s.ops.length + (item.stores s).toNat := by
  cases item with
  | send msg =>
    cases hopen : s.portOpen with
    | true =>
      simp only [Item.run, Item.stores, hopen, if_true]
      exact length_ops_writeSome msg 0
    | false => simp [Item.run, Item.stores, hopen]
  | stop caller =>
    cases hopen : s.portOpen with
    | true =>
      simp only [Item.run, Item.stores, hopen, if_true]
      rw [length_ops_invoke]
      simp [closePort, abort]
    | false =>
      simp only [Item.run, Item.stores, hopen, Bool.false_eq_true, if_false]
      exact length_ops_afterRun _
  | completed t r =>
    cases t with
    | read =>
      cases hec : r.ec with
      | none =>
        simp only [Item.run, Item.stores, readHandler, hec]
        rw [length_ops_invoke]
        simp
      | some ec =>
        simp only [Item.run, Item.stores, readHandler, hec]
        split_ifs
        · rfl
        · rw [length_ops_invoke]
          simp
    | write msg sent =>
      cases hends : r.endsWrite msg sent with
      | false =>
        simp only [Item.run, Item.stores, writeResume, hends]
        exact length_ops_writeSome _ _
      | true =>
        simp only [Item.run, Item.stores, writeResume, writeHandler, hends]
        cases r.ec with
        | none => rfl
        | some ec =>
          by_cases haborted : ec = .operationAborted
          · simp [haborted]
          · simp [haborted, length_ops_invoke]

end

/-! ## With the batches of `strand_` -/

namespace Batches

/-- The handlers and closures that hold `self`. -/
def holders (s : State) : ℕ := SerialPort.holders s.toState + s.ready.length

/-- Those stored that the io thread has not taken: neither in its hands nor in the batch that it
runs. -/
def left (s : State) : ℕ :=
  s.ops.length - s.hand.isSome.toNat + s.strand.length + if s.inBatch then 0 else s.ready.length

/-- A call of `stop()` that has shut the session down returns in this step. -/
def returnsFromStop (s : State) : Label → Bool
  | .session l => SerialPort.returnsFromStop s.toState l
  | _ => false

/-- The step calls `io_.stop()`. -/
def stopsIo (s : State) : Label → Bool
  | .session l => SerialPort.stopsIo s.toState l
  | _ => false

/-- The step stores a handler or a closure, or puts one back. -/
def stores (s : State) : Label → Bool
  | .session l => SerialPort.stores s.toState l
  | .putBack => true
  | .handOver => s.locked
  | .runReady _ =>
    match s.ready with
    | item :: _ => item.stores s.toState
    | [] => false
  | _ => false

/-- `io_.stop()` is called when nothing is stored but what the io thread has taken, and a stopped
`io_` is given nothing. -/
def Drained (s : State) (l : Label) : Prop :=
  (s.ioStopped = false → stopsIo s l = true → left s = 0) ∧
    (s.ioStopped = true → stores s l = false)

instance (s : State) (l : Label) : Decidable (Drained s l) := by
  unfold Drained
  infer_instance

section

variable {s s' : State}

theorem left_schedule (s : State) : left (schedule s) = left s := by
  unfold schedule
  split_ifs with hlocked
  · rfl
  · obtain ⟨hbatch, hready⟩ := unlocked_iff.mp (Bool.eq_false_iff.mpr hlocked)
    simp [left, hbatch, hready]

theorem holders_schedule (s : State) : holders (schedule s) = holders s := by
  unfold schedule
  split_ifs with hlocked
  · rfl
  · have hready := (unlocked_iff.mp (Bool.eq_false_iff.mpr hlocked)).2
    simp only [holders, SerialPort.holders, stored, hready, List.length_nil]
    omega

theorem toNat_hand_le (h : Sound s) : s.hand.isSome.toNat ≤ s.ops.length := by
  cases hhand : s.hand with
  | none => exact Nat.zero_le _
  | some i => exact Nat.lt_of_le_of_lt (Nat.zero_le i) (h.hand i hhand).1

/-- What the session adds to what is stored, the io thread has not taken. -/
theorem left_of_stored (h : Sound s) {u : SerialPort.State} (hops : s.ops.length ≤ u.ops.length)
    {n : ℕ} (hstored : stored u = stored s.toState + n) :
    left { s with toState := u } = left s + n := by
  have hhand := toNat_hand_le h
  unfold stored at hstored
  unfold left
  dsimp only
  omega

theorem left_execute (item : Item) (hbatch : s.inBatch = false) :
    left (execute item s) = left s + s.locked.toNat := by
  unfold execute
  split_ifs with hlocked
  · simp only [left, hlocked, Bool.toNat_true, List.length_append, List.length_singleton]
    omega
  · have hno : s.locked = false := Bool.eq_false_iff.mpr hlocked
    simp [left, hno, hbatch, (unlocked_iff.mp hno).2]

/-- Nothing is taken from a stopped `io_`. -/
theorem left_of_goes (h : Sound s) {l : Label} (hgo : Goes s l s') (hstop : s.ioStopped = true) :
    left s' = left s + (stores s l).toNat := by
  cases hgo with
  | session l u hl hu =>
    rw [left_schedule]
    exact left_of_stored h (grows_of_step hl hu).ops (stored_of_moves (moves_of_step hu) hstop)
  | take i hlooks hno | invoke hlooks hno => exact absurd (hno.symm.trans hstop) (by simp)
  | putBack i before after t hi hp =>
    have hlength := congrArg List.length (pick_eq_some hp)
    simp only [List.length_append, List.length_cons] at hlength
    simp only [left, stores, hi, Option.isSome_some, Option.isSome_none, Bool.toNat_true,
      Bool.toNat_false]
    omega
  | handOver i before after t res hi hp =>
    have hlength := congrArg List.length (pick_eq_some hp)
    simp only [List.length_append, List.length_cons] at hlength
    have htaken : left { s with ops := before ++ after, hand := none } = left s := by
      simp only [left, hi, Option.isSome_some, Option.isSome_none, Bool.toNat_true,
        Bool.toNat_false, List.length_append]
      omega
    have hexec := left_execute (s := { s with ops := before ++ after, hand := none })
      (.completed t res) (h.hand i hi).2.1
    rw [htaken] at hexec
    exact hexec
  | runReady env item rest hio hbatch hready =>
    have hops := length_ops_run (s := s.toState) env item
    have hstrand := (handled_run env s.toState item).strand
    simp only [left, stores, hready, hbatch, h.hand_eq_none hbatch, hops, hstrand, if_true,
      Option.isSome_none, Bool.toNat_false]
    omega
  | leave hio hbatch hready =>
    simp [left, stores, hbatch]
  | ioExit => rfl

/-- `io_` is stopped by `io_.stop()`, and stays stopped. -/
theorem ioStopped_of_goes {l : Label} (hgo : Goes s l s') :
    s'.ioStopped = (s.ioStopped || stopsIo s l) := by
  have hsame : s.ioStopped = (s.ioStopped || false) := (Bool.or_false _).symm
  cases hgo with
  | session l u hl hu =>
    have hstopped := ioStopped_of_moves (moves_of_step hu)
    unfold schedule
    split_ifs <;> exact hstopped
  | handOver =>
    unfold execute
    split_ifs <;> exact hsame
  | runReady env item => exact (handled_run env s.toState item).ioStopped.trans hsame
  | _ => exact hsame

theorem left_of_stopsIo (h : Sound s) {l : Label} (hgo : Goes s l s') (hl : stopsIo s l = true) :
    left s' = left s := by
  cases hgo with
  | session l u htaken hu =>
    rw [left_schedule]
    exact left_of_stored (n := 0) h (grows_of_step htaken hu).ops
      (stored_of_stopsIo (moves_of_step hu) hl)
  | _ => exact absurd hl (by simp [stopsIo])

theorem joining_of_goes (h : Joining s.toState) {l : Label} (hgo : Goes s l s') :
    Joining s'.toState := by
  cases hgo with
  | session l u hl hu =>
    have hu' := step_joining h hu
    unfold schedule
    split_ifs <;> exact hu'
  | handOver =>
    unfold execute
    split_ifs <;> exact h
  | runReady env item =>
    have hrun := handled_run env s.toState item
    intro thread hat
    exact hrun.ioStopped.trans (h thread ((congrFun hrun.threads thread).symm.trans hat))
  | _ => exact h

/-- After a return, the session is held by what the io thread had left. -/
theorem holders_of_return (h : Sound s) {l : Label} (hl : returnsFromStop s l = true)
    (hs : step s l = some s') : holders s' = left s := by
  cases goes_of_step hs with
  | session l u htaken hu =>
    obtain ⟨hio, hstored⟩ := stored_of_return hl hu
    have hidle : s.ioThread.inRun = false := by
      by_contra hrun
      have hin := (grows_of_step htaken hu).inRun (by simpa using hrun)
      rw [hio] at hin
      exact absurd hin (by decide)
    have hbatch : s.inBatch = false := by
      by_contra hyes
      exact absurd (h.inBatch (by simpa using hyes)) (by simp [hidle])
    have hhand : s.hand = none := by
      by_contra hsome
      obtain ⟨i, hi⟩ := Option.ne_none_iff_exists'.mp hsome
      exact absurd (h.hand i hi).2.2 (by simp [hidle])
    rw [holders_schedule]
    unfold holders SerialPort.holders
    rw [hstored, hio]
    simp [left, stored, hbatch, hhand, IoThread.inHandler]
  | _ => exact absurd hl (by simp [returnsFromStop])

/-- Nothing is left in an `io_` that is stopped. -/
def Emptied (s : State) : Prop := Sound s ∧ (s.ioStopped = true → left s = 0)

/-- `io_` is stopped, and something is left. -/
structure Stuck (s : State) : Prop where
  sound : Sound s
  ioStopped : s.ioStopped = true
  left : 0 < left s

theorem step_emptied (h : Emptied s) {l : Label} (hok : Drained s l) (hs : step s l = some s') :
    Emptied s' := by
  obtain ⟨hsound, hempty⟩ := h
  have hgo := goes_of_step hs
  refine ⟨step_sound hsound hs, fun hstop => ?_⟩
  rcases Bool.eq_false_or_eq_true s.ioStopped with hyes | hno
  · rw [left_of_goes hsound hgo hyes, hok.2 hyes, hempty hyes]
    rfl
  · have hl : stopsIo s l = true := by simpa [ioStopped_of_goes hgo, hno] using hstop
    rw [left_of_stopsIo hsound hgo hl, hok.1 hno hl]

theorem stuck_of_not_drained (h : Sound s) {l : Label} (hno : ¬ Drained s l)
    (hs : step s l = some s') : Stuck s' := by
  have hgo := goes_of_step hs
  have hstop := ioStopped_of_goes hgo
  rcases Bool.eq_false_or_eq_true s.ioStopped with hyes | hrun
  · have hstores : stores s l = true := by
      by_contra hne
      exact hno ⟨fun hrun => absurd hyes (by simp [hrun]), fun _ => by simpa using hne⟩
    have hleft := left_of_goes h hgo hyes
    rw [hstores, Bool.toNat_true] at hleft
    exact ⟨step_sound h hs, by rw [hstop, hyes, Bool.true_or], by omega⟩
  · obtain ⟨hl, hpos⟩ : stopsIo s l = true ∧ left s ≠ 0 := by
      by_contra hne
      refine hno ⟨?_, fun hyes => absurd hyes (by simp [hrun])⟩
      intro _ hl
      by_contra hpos
      exact hne ⟨hl, hpos⟩
    have hleft := left_of_stopsIo h hgo hl
    exact ⟨step_sound h hs, by rw [hstop, hl, Bool.or_true], by omega⟩

theorem step_stuck (h : Stuck s) {l : Label} (hs : step s l = some s') : Stuck s' := by
  have hgo := goes_of_step hs
  have hleft := left_of_goes h.sound hgo h.ioStopped
  have hpos := h.left
  exact ⟨step_sound h.sound hs, by rw [ioStopped_of_goes hgo, h.ioStopped, Bool.true_or], by omega⟩

end

/-- **After `stop()`** only the user holds the session, exactly if in the run that has led there
every call of `io_.stop()` came when nothing was stored in `io_` and `strand_` but what the io
thread had taken, and nothing was stored in them after it. -/
theorem released_iff_drained (ls : List Label) (s s' : State) (l : Label)
    (h : Run step Any init ls s) (hret : returnsFromStop s l = true) (hs : step s l = some s') :
    holders s' = 0 ↔ EachStep step Drained init ls := by
  have hstopped : s.ioStopped = true := by
    have hjoin : Joining s.toState := h.invariant (I := fun s => Joining s.toState)
      (fun thread hat => absurd hat (by simp [init]))
      fun s l s' hI _ hst => joining_of_goes hI (goes_of_step hst)
    cases l with
    | session l =>
      cases l with
      | advance thread env =>
        exact hjoin thread (by simpa [returnsFromStop, SerialPort.returnsFromStop] using hret)
      | _ => simp [returnsFromStop, SerialPort.returnsFromStop] at hret
    | _ => simp [returnsFromStop] at hret
  have hinit : Emptied init := ⟨sound_init, fun hstop => absurd hstop (by simp [init])⟩
  rw [holders_of_return (sound_of_run h) hret hs]
  rcases h.eachStep_cases (I := Emptied) (J := Stuck)
      (fun s l s' hI _ hok hst => step_emptied hI hok hst)
      (fun s l s' hI _ hno hst => stuck_of_not_drained hI.1 hno hst)
      (fun s l s' hJ _ hst => step_stuck hJ hst) hinit with ⟨heach, hgood⟩ | ⟨hno, hbad⟩
  · exact ⟨fun _ => heach, fun _ => hgood.2 hstopped⟩
  · exact ⟨fun hzero => absurd hbad.left (by omega), fun heach => absurd heach hno⟩

/-- Threads 0 and 1 call `stop()` and `send()` while the io thread runs the handler of a failed
read. Their closures are one batch, and `io_.stop()` is called between the two. -/
def stopsInBatch : List Label :=
  [.session (.call 0 .start), .session (.advance 0 {}), .session (.advance 0 {}),
    .session (.advance 0 {}), .session (.complete 0 (.failed .eof)), .take 0, .handOver,
    .session (.call 1 (.send [1])), .session (.call 0 .stop), .session (.advance 0 {}),
    .session (.advance 0 {}), .session (.advance 1 {}), .runReady {}, .leave, .invoke, .runReady {},
    .session (.advance 0 {}), .session (.advance 0 {}), .runReady {}, .leave, .ioExit]

theorem released_iff_drained_stopsInBatch :
    let s := reached step Any init stopsInBatch
    holders (reached step Any s [.session (.advance 0 {})]) = 0 :=
  (released_iff_drained stopsInBatch (reached step Any init stopsInBatch) _ _
    (run_reached (by decide +kernel)) (by decide +kernel)
    (run_reached (by decide +kernel)).step_eq).mpr (by decide +kernel)

/-- The io thread closes the port, and `io_.stop()` is called before it runs the handler of the read
that this aborts. -/
def stopsEarly : List Label :=
  [.session (.call 0 .start), .session (.advance 0 {}), .session (.advance 0 {}),
    .session (.advance 0 {}), .session (.call 0 .stop), .session (.advance 0 {}),
    .session (.advance 0 {}), .invoke, .runReady {}, .session (.advance 0 {}),
    .session (.advance 0 {}), .leave, .ioExit]

/-- The read that `stop()` aborts holds the session for good. -/
theorem not_released : ¬ ∀ (ls : List Label) (s s' : State) (l : Label), Run step Any init ls s →
    returnsFromStop s l = true → step s l = some s' → holders s' = 0 := by
  intro h
  have hzero := h stopsEarly (reached step Any init stopsEarly)
    (reached step Any (reached step Any init stopsEarly) [.session (.advance 0 {})])
    (.session (.advance 0 {})) (run_reached (by decide +kernel)) (by decide +kernel)
    (run_reached (by decide +kernel)).step_eq
  exact absurd hzero (by decide +kernel)

end Batches

end AsioLearn.SerialPort
