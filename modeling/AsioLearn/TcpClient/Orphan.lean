import AsioLearn.TcpClient.Connection

/-!
# A running client is driven on

While `stopped_` is not set, something must be outstanding or queued that goes on: a connect, a
read on the current `socket_`, or an unaborted wait. Every handler of such an operation starts
another one, with a single gap: `do_connect` lets the exception of `resolve` through.

* `not_orphaned_iff_resolves`: the client is driven on, and no exception leaves `start()` or a
  handler, in every state of a run exactly when no name resolution of the run throws.
-/

namespace AsioLearn.TcpClient

open Proactor Lts

/-- A connect, a read on the socket object that `socket_` holds, or an unaborted wait. -/
def keepsGoing (sock : Socket) (op : Op Task Result) : Bool :=
  op.task.kind.isConnect ||
    (op.task.kind.isRead && op.task.sock.inst == sock.inst || armedWait op)

def HasDriver (s : State) : Prop := ∃ op ∈ s.ops, keepsGoing s.socket op = true

instance : DecidablePred HasDriver := fun s => by unfold HasDriver; infer_instance

/-- No exception has left `start()` or a handler, and a running client has a driver. -/
def NotOrphaned (s : State) : Prop :=
  .escaped ∉ s.log ∧ (s.stopped = false → HasDriver s)

instance : DecidablePred NotOrphaned := fun s => by unfold NotOrphaned; infer_instance

/-- If the step gets as far as resolving the name, in `start()` or for a reconnection, then the
resolution does not throw. -/
def Resolves (s : State) : Label → Prop
  | .start env => env.resolved ≠ .throws
  | .runOp i env =>
    match ran? s (.runOp i env) with
    | some (t, r) => t.kind.isWait = true → r.ec = none → s.stopped = false →
        env.resolved ≠ .throws
    | none => True
  | _ => True

instance (s : State) : ∀ l : Label, Decidable (Resolves s l)
  | .start env => inferInstanceAs (Decidable (env.resolved ≠ .throws))
  | .runOp i env =>
    match h : ran? s (.runOp i env) with
    | some (t, r) => decidable_of_iff
        (t.kind.isWait = true → r.ec = none → s.stopped = false → env.resolved ≠ .throws)
        (by simp only [Resolves, h])
    | none => isTrue (by simp only [Resolves, h])
  | .stop | .send _ _ | .setMessageCallback _ | .setStatusCallback _ | .complete _ _
  | .runPosted _ => isTrue trivial

/-! ## Drivers are started -/

section Start

variable {s s' : State} {ops : List (Op Task Result)}

theorem hasDriver_of_new {op : Op Task Result} (hops : s.ops = ops ++ [op])
    (hk : keepsGoing s.socket op = true) : HasDriver s :=
  ⟨op, by rw [hops]; simp, hk⟩

theorem hasDriver_rangeConnect (env : Env) (rest : List Endpoint) (session : ℕ) (s : State) :
    HasDriver (rangeConnect env rest session s) := by
  obtain ⟨res, hops⟩ := rangeConnect_ops env rest session s
  exact hasDriver_of_new hops (by simp [keepsGoing, Kind.isConnect])

theorem hasDriver_doConnect {env : Env} (hs : s.stopped = false) (hr : env.resolved ≠ .throws) :
    (doConnect env s).1 = .returned ∧ HasDriver (doConnect env s).2 := by
  rcases doConnect_of_running env s hs with ⟨hthrows, -⟩ | ⟨first, rest, -, hd⟩
  · exact absurd hthrows hr
  · rw [hd]
    exact ⟨rfl, hasDriver_rangeConnect ..⟩

theorem hasDriver_doRead (hs : (doRead s).stopped = false) : HasDriver (doRead s) := by
  rw [doRead_stopped] at hs
  obtain ⟨res, hops⟩ : ∃ res, (doRead s).ops = s.ops ++ [⟨⟨.read, s.socket, s.session⟩, res⟩] := by
    rw [doRead_of_running hs]
    exact ⟨_, rfl⟩
  refine hasDriver_of_new hops ?_
  rw [doRead_socket]
  simp [keepsGoing, Kind.isRead]

theorem hasDriver_scheduleReconnect {cb : Callback}
    (hs : (scheduleReconnect cb s).stopped = false) : HasDriver (scheduleReconnect cb s) := by
  rcases Bool.eq_false_or_eq_true s.stopped with h | h
  · rw [scheduleReconnect_of_stopped h] at hs
    exact absurd hs (by simp [h])
  · exact hasDriver_of_new (scheduleReconnect_ops h)
      (by simp [keepsGoing, armedWait, alive, Kind.isWait])

theorem hasDriver_connectHandler {env : Env} {sock : Socket} {ec : Option ErrorCode} :
    (connectHandler env sock ec s).stopped = false → HasDriver (connectHandler env sock ec s) := by
  unfold connectHandler
  split
  · rename_i h
    intro hs
    exact absurd hs (by simp [h])
  · split
    · exact hasDriver_doRead
    · exact hasDriver_scheduleReconnect

theorem hasDriver_connectResume {env : Env} {t : Task} {rest : List Endpoint}
    {ec : Option ErrorCode} : (connectResume env t rest ec s).stopped = false →
      HasDriver (connectResume env t rest ec s) := by
  unfold connectResume
  split
  · split
    · exact hasDriver_connectHandler
    · exact hasDriver_connectHandler
    · exact fun _ => hasDriver_rangeConnect ..
  · exact hasDriver_connectHandler

theorem hasDriver_readHandler {env : Env} {r : Result} :
    (readHandler env r s).stopped = false → HasDriver (readHandler env r s) := by
  unfold readHandler
  split
  · rename_i h
    intro hs
    exact absurd hs (by simp [h])
  · split
    · exact hasDriver_doRead
    · exact hasDriver_scheduleReconnect

/-- The handler of a write that has failed. -/
theorem hasDriver_writeHandler {env : Env} {ec : ErrorCode} :
    (writeHandler env (some ec) s).stopped = false → HasDriver (writeHandler env (some ec) s) := by
  unfold writeHandler
  split
  · rename_i h
    intro hs
    exact absurd hs (by simp [h])
  · exact hasDriver_scheduleReconnect

/-- An expired wait, if the name resolution it leads to does not throw. -/
theorem hasDriver_waitHandler {env : Env} (hs : s.stopped = false) (hr : env.resolved ≠ .throws) :
    (waitHandler env none s).1 = .returned ∧ HasDriver (waitHandler env none s).2 := by
  obtain ⟨hret, hd⟩ := hasDriver_doConnect (s := replaceSocket s) hs hr
  unfold waitHandler
  rw [if_pos (by simp [hs])]
  split
  · rename_i heq
    rw [heq] at hd
    exact ⟨rfl, hd⟩
  · rename_i heq
    rw [heq] at hret
    exact absurd hret (by simp)

/-! ## Drivers are kept -/

theorem HasDriver.writes (h : HasDriver s) (hw : OnlyWrites s s') : HasDriver s' := by
  obtain ⟨q, ws, es, rfl, -⟩ := hw
  obtain ⟨op, hop, hk⟩ := h
  exact ⟨op, List.mem_append_left _ hop, hk⟩

/-- Closing a socket aborts connects and reads, but their handlers are still to run. -/
theorem HasDriver.closeSocket (h : HasDriver s) : HasDriver (closeSocket s) := by
  apply exists_abort (·.on s.socket) .aborted h
  intro t ht hk
  have hw : t.kind.isWait = false := by
    simp only [Task.on, Bool.and_eq_true, Bool.not_eq_true'] at ht
    exact ht.1.2
  simpa [keepsGoing, armedWait, hw] using hk

/-- An operation that is no driver leaves the pool. -/
theorem HasDriver.remove (h : HasDriver s) {before after : List (Op Task Result)}
    {op : Op Task Result} (hops : s.ops = before ++ op :: after)
    (hk : keepsGoing s.socket op = false) : HasDriver { s with ops := before ++ after } := by
  obtain ⟨op', hop', hk'⟩ := h
  rw [hops] at hop'
  rcases List.mem_append.mp hop' with hop' | hop'
  · exact ⟨op', List.mem_append_left _ hop', hk'⟩
  · rcases List.mem_cons.mp hop' with rfl | hop'
    · exact absurd hk' (by simp [hk])
    · exact ⟨op', List.mem_append_right _ hop', hk'⟩

/-- A wait completes by expiring, so a driver that completes is still one. -/
theorem HasDriver.complete (h : HasDriver s) {i : ℕ} {out : Outcome}
    (hs : step s (.complete i out) = some s') : HasDriver s' := by
  obtain ⟨before, t, after, res, hops, hres, rfl⟩ := step_complete hs
  obtain ⟨op, hop, hk⟩ := h
  unfold HasDriver
  rw [deliver_ops, deliver_socket]
  rw [hops] at hop
  rcases List.mem_append.mp hop with hop | hop
  · exact ⟨op, List.mem_append_left _ hop, hk⟩
  · rcases List.mem_cons.mp hop with rfl | hop
    · refine ⟨⟨t, some res⟩, by simp, ?_⟩
      obtain ⟨kind, sock, session⟩ := t
      cases kind with
      | connect rest => simp [keepsGoing, Kind.isConnect]
      | read => simpa [keepsGoing, armedWait, Kind.isConnect, Kind.isRead, Kind.isWait] using hk
      | write msg sent =>
        exact absurd hk (by simp [keepsGoing, armedWait, Kind.isConnect, Kind.isRead, Kind.isWait])
      | wait =>
        cases out <;> simp [Outcome.result?] at hres
        subst hres
        simp [keepsGoing, armedWait, alive, Kind.isWait, Result.ok]
    · exact ⟨op, by simp [hop], hk⟩

end Start

/-! ## Steps -/

theorem conclude_of_returned {r : Exit × State} (h : r.1 = .returned) : conclude r = r.2 := by
  obtain ⟨exit, s⟩ := r
  obtain rfl : exit = .returned := h
  rfl

theorem escaped_mem_deliver (out : Outcome) (t : Task) (s : State) :
    Event.escaped ∈ (out.deliver t s).log ↔ Event.escaped ∈ s.log := by
  unfold Outcome.deliver
  split <;> simp [emit]

theorem escaped_mem_runHandler (env : Env) (t : Task) (r : Result) (s : State) :
    Event.escaped ∈ (runHandler env t r s).2.log ↔ Event.escaped ∈ s.log :=
  (adds_runHandler env s t r).mem_iff rfl

section Step

variable {s s' : State}

theorem hasDriver_start {env : Env} (hr : env.resolved ≠ .throws) :
    (start env s).1 = .returned ∧ HasDriver (start env s).2 :=
  hasDriver_doConnect rfl hr

/-- What the handler of a completed operation leaves on a client that still runs. -/
theorem hasDriver_runHandler {env : Env} {t : Task} {r : Result}
    (hw : t.kind.isWait = true → r.ec = none → s.stopped = false → env.resolved ≠ .throws)
    (h : t.kind.isWrite = true ∨ t.kind.isWait = true ∧ r.ec ≠ none →
      s.stopped = false → HasDriver s) :
    (runHandler env t r s).1 = .returned ∧
      ((runHandler env t r s).2.stopped = false → HasDriver (runHandler env t r s).2) := by
  obtain ⟨kind, sock, session⟩ := t
  cases kind with
  | connect rest => exact ⟨rfl, hasDriver_connectResume⟩
  | read => exact ⟨rfl, hasDriver_readHandler⟩
  | write msg sent =>
    refine ⟨rfl, ?_⟩
    intro hs
    simp only [runHandler] at hs ⊢
    cases hr : r.ec with
    | none =>
      have hwrites := onlyWrites_writeResume env ⟨.write msg sent, sock, session⟩ msg sent hr s
      have hstopped : s.stopped = false := by
        obtain ⟨q, ws, es, heq, -⟩ := hwrites
        rwa [heq] at hs
      exact (h (Or.inl rfl) hstopped).writes hwrites
    | some ec =>
      simp only [writeResume, hr] at hs ⊢
      exact hasDriver_writeHandler hs
  | wait =>
    simp only [runHandler]
    cases hr : r.ec with
    | none =>
      rcases Bool.eq_false_or_eq_true s.stopped with hs | hs
      · have heq : waitHandler env none s = (.returned, s) := if_neg (by simp [hs])
        rw [heq]
        exact ⟨rfl, fun hno => absurd hno (by simp [hs])⟩
      · obtain ⟨hret, hd⟩ := hasDriver_waitHandler hs (hw rfl hr hs)
        exact ⟨hret, fun _ => hd⟩
    | some ec => exact ⟨rfl, h (Or.inr ⟨rfl, by simp [hr]⟩)⟩

theorem notOrphaned_runPosted (h : NotOrphaned s) {env : Env}
    (hs : step s (.runPosted env) = some s') : NotOrphaned s' := by
  obtain ⟨c, rest, -, rfl⟩ := step_runPosted hs
  refine ⟨fun hmem => h.1 ?_, ?_⟩
  · exact ((routine_runPosted env { s with posted := rest } c).mem_iff rfl).mp hmem
  · intro hrun
    cases c with
    | send thread msg =>
      have hw := onlyWrites_send env thread msg { s with posted := rest }
      have hstopped : s.stopped = false := by
        obtain ⟨q, ws, es, heq, -⟩ := hw
        rwa [heq] at hrun
      have hd : HasDriver { s with posted := rest } := h.2 hstopped
      exact hd.writes hw
    | close session =>
      have heq : runPosted env (.close session) { s with posted := rest } =
          if s.socket.isOpen then setStatus .disconnected .clientClosed env.onStatus
            (closeSocket { s with posted := rest }) else { s with posted := rest } := rfl
      rw [heq] at hrun ⊢
      split at hrun
      · rename_i hopen
        rw [if_pos hopen]
        rw [setStatus_stopped, Bool.or_eq_false_iff] at hrun
        have hd : HasDriver { s with posted := rest } := h.2 hrun.1
        have hd' := hd.closeSocket
        unfold HasDriver at hd' ⊢
        rwa [setStatus_ops, setStatus_socket]
      · rename_i hopen
        rw [if_neg hopen]
        exact h.2 hrun

theorem notOrphaned_runOp (h : NotOrphaned s) {i : ℕ} {env : Env}
    (hok : Resolves s (.runOp i env)) (hs : step s (.runOp i env) = some s') :
    NotOrphaned s' := by
  obtain ⟨before, t, res, after, hp, rfl⟩ := step_runOp hs
  simp only [Resolves, ran?_runOp hp] at hok
  have hkeep : t.kind.isWrite = true ∨ t.kind.isWait = true ∧ res.ec ≠ none →
      s.stopped = false → HasDriver { s with ops := before ++ after } := by
    intro hk hrun
    refine (h.2 hrun).remove (pick_eq_some hp) ?_
    obtain ⟨kind, sock, session⟩ := t
    rcases hk with hk | ⟨hk, hec⟩
    · cases kind <;> simp_all [keepsGoing, armedWait, Kind.isConnect, Kind.isRead, Kind.isWait,
        Kind.isWrite]
    · have herr : res.ec.isNone = false := by
        cases hres : res.ec with
        | none => exact absurd hres hec
        | some ec => rfl
      cases kind <;> simp_all [keepsGoing, armedWait, alive, Kind.isConnect, Kind.isRead,
        Kind.isWait]
  obtain ⟨hret, hd⟩ := hasDriver_runHandler (s := { s with ops := before ++ after }) hok hkeep
  rw [conclude_of_returned hret]
  refine ⟨fun hmem => h.1 ?_, hd⟩
  exact (escaped_mem_runHandler env t res { s with ops := before ++ after }).mp hmem

theorem step_notOrphaned (h : NotOrphaned s) {l : Label} (hok : Resolves s l)
    (hs : step s l = some s') : NotOrphaned s' := by
  cases l with
  | start env =>
    obtain rfl := Option.some.inj hs
    obtain ⟨hret, hd⟩ := hasDriver_start (s := s) hok
    rw [conclude_of_returned hret]
    exact ⟨fun hmem => h.1 (((routine_start env s).mem_iff rfl).mp hmem), fun _ => hd⟩
  | stop =>
    obtain rfl := Option.some.inj hs
    exact ⟨h.1, fun hrun => absurd hrun (by simp [stop, close, post])⟩
  | send thread msg =>
    obtain rfl := Option.some.inj hs
    have hlog : Routine s (send thread msg s) := adds_emit rfl (post (.send thread msg) s)
    exact ⟨fun hmem => h.1 ((hlog.mem_iff rfl).mp hmem), h.2⟩
  | setMessageCallback set | setStatusCallback set =>
    obtain rfl := Option.some.inj hs
    exact h
  | complete i out =>
    obtain ⟨before, t, after, res, hops, -, heq⟩ := step_complete hs
    refine ⟨fun hmem => h.1 ?_, fun hrun => (h.2 ?_).complete hs⟩
    · rw [heq] at hmem
      exact (escaped_mem_deliver out t { s with ops := before ++ ⟨t, some res⟩ :: after }).mp hmem
    · rw [heq, deliver_stopped] at hrun
      exact hrun
  | runPosted env => exact notOrphaned_runPosted h hs
  | runOp i env => exact notOrphaned_runOp h hok hs

/-- An exception that leaves `start()` or a handler is recorded. -/
theorem escaped_mem_conclude {r : Exit × State} (h : r.1 = .threw) :
    Event.escaped ∈ (conclude r).log := by
  obtain ⟨exit, s⟩ := r
  obtain rfl : exit = .threw := h
  simp [conclude, emit]

theorem doConnect_throws {env : Env} (hs : s.stopped = false) (hr : env.resolved = .throws) :
    doConnect env s = (.threw, s) := by
  rcases doConnect_of_running env s hs with ⟨-, hd⟩ | ⟨first, rest, hres, -⟩
  · exact hd
  · exact absurd (hr.symm.trans hres) (by simp)

theorem waitHandler_throws {env : Env} (hs : s.stopped = false) (hr : env.resolved = .throws) :
    (waitHandler env none s).1 = .threw := by
  have hs' : (replaceSocket s).stopped = false := hs
  unfold waitHandler
  rw [if_pos (by simp [hs]), doConnect_throws hs' hr]

/-- A name resolution that throws lets its exception out of the step. -/
theorem not_notOrphaned_of_throws {l : Label} (hno : ¬ Resolves s l)
    (hs : step s l = some s') : ¬ NotOrphaned s' := by
  refine fun h => h.1 ?_
  cases l with
  | start env =>
    obtain rfl := Option.some.inj hs
    have hthrows : env.resolved = .throws := not_not.mp hno
    refine escaped_mem_conclude ?_
    unfold start
    rw [doConnect_throws rfl hthrows]
  | runOp i env =>
    obtain ⟨before, t, res, after, hp, rfl⟩ := step_runOp hs
    simp only [Resolves, ran?_runOp hp] at hno
    push Not at hno
    obtain ⟨hwait, hec, hrun, hthrows⟩ := hno
    obtain ⟨kind, sock, session⟩ := t
    cases kind with
    | connect rest | read | write msg sent => exact absurd hwait (by simp [Kind.isWait])
    | wait =>
      refine escaped_mem_conclude ?_
      simp only [runHandler, hec]
      exact waitHandler_throws hrun hthrows
  | stop | send thread msg | setMessageCallback set | setStatusCallback set | complete i out
  | runPosted env => exact absurd trivial hno

end Step

/-- **Never orphaned.** Along every run the client has a driver whenever it is not stopped, and
no exception leaves `start()` or a handler, exactly when no name resolution that a step comes to
throws. -/
theorem not_orphaned_iff_resolves (ls : List Label) (s : State) (h : Run step Any init ls s) :
    Throughout step NotOrphaned init ls ↔ EachStep step Resolves init ls := by
  refine throughout_iff_eachStep (I := NotOrphaned) (fun _ h => h) ?_ ?_ h (by decide)
  · intro s l s' h _ hok hs
    exact step_notOrphaned h hok hs
  · intro s l s' _ _ hno hs
    exact not_notOrphaned_of_throws hno hs

theorem not_orphaned_iff_resolves_stopStart : Throughout step NotOrphaned init
    [.start {}, .complete 0 (.failed .connectionReset), .runOp 0 {}, .stop, .start {},
      .runPosted {}, .complete 0 .expired, .runOp 1 {}] :=
  (not_orphaned_iff_resolves _ _ (run_reached (by decide))).mpr (by decide)

/-- The first name resolution fails: the exception leaves `start()`, and nothing is started. -/
theorem not_never_orphaned :
    ¬ ∀ (ls : List Label) (s : State), Run step Any init ls s → NotOrphaned s := by
  intro h
  exact absurd (h [.start { resolved := .throws }] _ (run_reached (by decide))) (by decide)

end AsioLearn.TcpClient
