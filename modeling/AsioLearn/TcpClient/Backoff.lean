import Mathlib
import AsioLearn.TcpClient.Orphan

/-!
# The back-off of reconnections

`reconnect_delay_` is read when a wait is armed, doubled when its handler has retried, and set
back when a connect succeeds, in three different handlers. Whatever the order of failures, it is
determined by the number of retries since the last success.

* `backoff_law`: the delay, what each wait is given, and what has been announced just before.
-/

namespace AsioLearn.TcpClient

open Proactor Lts

/-! ## Counting retries -/

/-- The step runs the handler of an expired wait, which replaces the socket and retries. -/
def retriesAt (s : State) (l : Label) : Bool :=
  match ran? s l with
  | some (t, r) => t.kind.isWait && (r.ec.isNone && !s.stopped)
  | none => false

/-- The step runs the handler of a connect, which takes it for a success. -/
def succeedsAt (s : State) (l : Label) : Bool :=
  match ran? s l with
  | some (t, r) => t.kind.isConnect && (r.ec.isNone && (s.socket.isOpen && !s.stopped))
  | none => false

/-- The number of retries since the last success, after a step. -/
def countRetry (s : State) (l : Label) (k : ℕ) : ℕ :=
  if succeedsAt s l then 0 else if retriesAt s l then k + 1 else k

/-- The number of retries since the last success in a run of the client. -/
def retries (ls : List Label) : ℕ := tally step countRetry init ls 0

/-- The delay after `k` retries. -/
def backoff (k : ℕ) : ℕ := min (2 ^ k) 30

theorem backoff_succ (k : ℕ) : backoff (k + 1) = min (backoff k * 2) 30 := by
  unfold backoff
  rw [Nat.pow_succ]
  omega

theorem backoff_pos (k : ℕ) : 0 < backoff k := by
  have := Nat.two_pow_pos k
  unfold backoff
  omega

/-! ## What is recorded of waits -/

def Event.isWaitArmed : Event → Bool
  | .waitArmed _ => true
  | _ => false

/-- An event recorded while `on_status_` is told of a retry. -/
def Event.isNotice (seconds : ℕ) : Event → Bool
  | .onStatus .reconnecting info => info == .retryIn seconds
  | .sendPosted _ _ => true
  | _ => false

/-- The step arms no wait, or it arms one of the given delay, which it has announced in the
`Reconnecting` status just before. -/
def Announced (seconds : ℕ) (s s' : State) : Prop :=
  Adds (!·.isWaitArmed) s s' ∨ ∃ before notice,
    s'.log = s.log ++ (before ++ .status .reconnecting (.retryIn seconds) ::
      (notice ++ [.waitArmed seconds])) ∧
    (∀ e ∈ before, e.isWaitArmed = false) ∧ ∀ e ∈ notice, e.isNotice seconds = true

/-- Nothing concerns the timer. -/
structure Untimed (s s' : State) : Prop where
  delay : s'.reconnectDelay = s.reconnectDelay
  adds : Adds (!·.isWaitArmed) s s'

section

variable {s t u : State}

theorem untimed_of_eq (hd : t.reconnectDelay = s.reconnectDelay) (hlog : t.log = s.log) :
    Untimed s t := ⟨hd, adds_of_log_eq hlog⟩

theorem Untimed.refl (s : State) : Untimed s s := untimed_of_eq rfl rfl

theorem Untimed.trans (h : Untimed s t) (h' : Untimed t u) : Untimed s u :=
  ⟨h'.delay.trans h.delay, h.adds.trans h'.adds⟩

theorem untimed_emit {e : Event} (he : e.isWaitArmed = false) (s : State) :
    Untimed s (emit e s) :=
  ⟨rfl, adds_emit (by simp [he]) s⟩

/-- The delay is kept, and a wait that is armed has been announced. -/
def Paced (s s' : State) : Prop :=
  s'.reconnectDelay = s.reconnectDelay ∧ Announced s.reconnectDelay s s'

theorem Untimed.paced (h : Untimed s t) : Paced s t := ⟨h.delay, Or.inl h.adds⟩

theorem Paced.after (h : Untimed s t) (h' : Paced t u) : Paced s u := by
  obtain ⟨hd, hann⟩ := h'
  refine ⟨hd.trans h.delay, ?_⟩
  rw [h.delay] at hann
  rcases hann with hadds | ⟨before, notice, hlog, hbefore, hnotice⟩
  · exact Or.inl (h.adds.trans hadds)
  · obtain ⟨es, hes, hno⟩ := h.adds
    refine Or.inr ⟨es ++ before, notice, by rw [hlog, hes]; simp, ?_, hnotice⟩
    intro e he
    rcases List.mem_append.mp he with he | he
    · simpa using hno e he
    · exact hbefore e he

/-! ## What each function does -/

theorem untimed_invoke (cb : Callback) (s : State) : Untimed s (catchAll (cb.invoke s)) := by
  rw [catchAll_invoke]
  refine ⟨rfl, _, rfl, ?_⟩
  intro e he
  obtain ⟨c, -, hc⟩ := List.mem_filterMap.mp he
  cases c with
  | stop => exact absurd hc (by simp [Call.event?])
  | send thread msg =>
    obtain rfl : Event.sendPosted thread msg = e := Option.some.inj hc
    rfl

theorem untimed_setStatus (st : Status) (info : Info) (cb : Callback) (s : State) :
    Untimed s (setStatus st info cb s) := by
  have hset : Untimed s { s with currentStatus := st } := untimed_of_eq rfl rfl
  have h : Untimed s (emit (.status st info) { s with currentStatus := st }) :=
    hset.trans (untimed_emit rfl _)
  rw [setStatus_cases]
  split
  · exact (h.trans (untimed_emit rfl _)).trans (untimed_invoke cb _)
  · exact h

theorem untimed_rangeConnect (env : Env) (rest : List Endpoint) (session : ℕ) (s : State) :
    Untimed s (rangeConnect env rest session s) := by
  refine untimed_of_eq ?_ (rangeConnect_log ..)
  rcases rangeConnect_cases env rest session s with ⟨-, h⟩ | ⟨ec, -, h⟩ <;> rw [h]

theorem untimed_doConnect (env : Env) (s : State) : Untimed s (doConnect env s).2 := by
  unfold doConnect
  split
  · exact .refl s
  · split
    · exact .refl s
    · exact (untimed_emit rfl s).trans (untimed_rangeConnect ..)

theorem untimed_doRead (s : State) : Untimed s (doRead s) := by
  unfold doRead
  split
  · exact .refl s
  · exact (untimed_emit rfl s).trans (untimed_of_eq rfl rfl)

theorem untimed_doWrite (s : State) : Untimed s (doWrite s) := by
  rcases doWrite_cases s with h | ⟨msg, rest, -, h⟩
  · rw [h]
    exact .refl s
  · rw [h]
    exact (untimed_emit rfl s).trans (untimed_of_eq rfl rfl)

theorem paced_scheduleReconnect (cb : Callback) (s : State) : Paced s (scheduleReconnect cb s) := by
  rcases Bool.eq_false_or_eq_true s.stopped with hs | hs
  · rw [scheduleReconnect_of_stopped hs]
    exact (Untimed.refl s).paced
  · rw [scheduleReconnect_of_running hs, setStatus_eq]
    refine ⟨rfl, Or.inr ⟨[], (if s.onStatus then
      [.onStatus .reconnecting (.retryIn s.reconnectDelay)] else []) ++
        (cb.ifSet s.onStatus).calls.filterMap Call.event?, ?_, by simp, ?_⟩⟩
    · simp [asyncWait, addOp, emit, expiresAfter]
    · intro e he
      rcases List.mem_append.mp he with he | he
      · split at he
        · rw [List.mem_singleton.mp he]
          simp [Event.isNotice]
        · exact absurd he List.not_mem_nil
      · obtain ⟨c, -, hc⟩ := List.mem_filterMap.mp he
        cases c with
        | stop => exact absurd hc (by simp [Call.event?])
        | send thread msg =>
          obtain rfl : Event.sendPosted thread msg = e := Option.some.inj hc
          rfl

/-- A failure is reported and the reconnection scheduled. -/
theorem paced_report (env : Env) (st : Status) (info : Info) (s : State) :
    Paced s (scheduleReconnect env.onStatus2 (setStatus st info env.onStatus s)) :=
  (paced_scheduleReconnect _ _).after (untimed_setStatus st info env.onStatus s)

/-! ## The handlers -/

/-- A success sets the delay back. -/
theorem connectHandler_success (env : Env) (sock : Socket) (hs : s.stopped = false) :
    (connectHandler env sock none s).reconnectDelay = 1 ∧
      Adds (!·.isWaitArmed) s (connectHandler env sock none s) := by
  have heq : connectHandler env sock none s = doRead (setStatus .connected .connectedToServer
      env.onStatus (emit (.connectHandled sock) { s with reconnectDelay := 1 })) :=
    if_neg (by simp [hs])
  have hadds : Adds (!·.isWaitArmed) s
      (emit (.connectHandled sock) { s with reconnectDelay := 1 }) :=
    adds_emit rfl { s with reconnectDelay := 1 }
  have h := (untimed_setStatus .connected .connectedToServer env.onStatus
    (emit (.connectHandled sock) { s with reconnectDelay := 1 })).trans (untimed_doRead _)
  rw [heq]
  exact ⟨h.delay, hadds.trans h.adds⟩

theorem paced_connectHandler (env : Env) (sock : Socket) {ec : Option ErrorCode} (s : State)
    (hno : ec = none → s.stopped = true) : Paced s (connectHandler env sock ec s) := by
  unfold connectHandler
  split
  · exact (Untimed.refl s).paced
  · rename_i hs
    cases ec with
    | none => exact absurd (hno rfl) hs
    | some ec => exact paced_report env .error (.connectFailed ec) s

theorem paced_connectResume (env : Env) (t : Task) (rest : List Endpoint)
    {ec : Option ErrorCode} (s : State)
    (hno : ec = none → s.socket.isOpen = true → s.stopped = true) :
    Paced s (connectResume env t rest ec s) := by
  unfold connectResume
  split
  · rename_i hopen
    split
    · exact paced_connectHandler env t.sock s fun _ => hno rfl hopen
    · exact paced_connectHandler env t.sock s fun h => absurd h (by simp)
    · exact (untimed_rangeConnect ..).paced
  · exact paced_connectHandler env t.sock s fun h => absurd h (by simp)

theorem paced_readHandler (env : Env) (r : Result) (s : State) :
    Paced s (readHandler env r s) := by
  unfold readHandler
  split
  · exact (Untimed.refl s).paced
  · split
    · refine Untimed.paced (Untimed.trans ?_ (untimed_doRead _))
      split
      · exact (untimed_emit rfl s).trans (untimed_invoke env.onMessage _)
      · exact .refl s
    · split
      · exact paced_report env .disconnected .serverClosed s
      · exact paced_report env .error _ s

theorem paced_writeHandler (env : Env) (ec : Option ErrorCode) (s : State) :
    Paced s (writeHandler env ec s) := by
  rcases Bool.eq_false_or_eq_true s.stopped with hs | hs
  · have heq : writeHandler env ec s = s := if_pos hs
    rw [heq]
    exact (Untimed.refl s).paced
  · cases ec with
    | none =>
      have hpop : Untimed s { s with writeMsgs := s.writeMsgs.tail } := untimed_of_eq rfl rfl
      rw [writeHandler_ok env hs]
      exact (hpop.trans (untimed_doWrite _)).paced
    | some ec =>
      have heq : writeHandler env (some ec) s = scheduleReconnect env.onStatus2
          (setStatus .error (.writeError ec) env.onStatus s) := if_neg (by simp [hs])
      rw [heq]
      exact paced_report env .error (.writeError ec) s

theorem paced_writeResume (env : Env) (t : Task) (msg : Bytes) (sent : ℕ) (r : Result)
    (s : State) : Paced s (writeResume env t msg sent r s) := by
  unfold writeResume
  split
  · exact paced_writeHandler env _ s
  · split
    · exact paced_writeHandler env none s
    · exact (untimed_of_eq rfl rfl : Untimed s _).paced

/-- A retry doubles the delay, once the next connect has been started. -/
theorem waitHandler_retry {env : Env} (hs : s.stopped = false) (hr : env.resolved ≠ .throws) :
    (waitHandler env none s).1 = .returned ∧
      (waitHandler env none s).2.reconnectDelay = min (s.reconnectDelay * 2) 30 ∧
      Adds (!·.isWaitArmed) s (waitHandler env none s).2 := by
  have hreplace : Untimed s (replaceSocket s) := untimed_of_eq rfl rfl
  have h := hreplace.trans (untimed_doConnect env (replaceSocket s))
  have hret : (doConnect env (replaceSocket s)).1 = .returned :=
    (hasDriver_doConnect (s := replaceSocket s) hs hr).1
  unfold waitHandler
  rw [if_pos (by simp [hs])]
  split
  · rename_i heq
    rw [heq] at h
    exact ⟨rfl, congrArg (fun d => min (d * 2) 30) h.delay, h.adds⟩
  · rename_i heq
    rw [heq] at hret
    exact absurd hret (by simp)

theorem waitHandler_idle {env : Env} {ec : Option ErrorCode}
    (hno : ec = none → s.stopped = true) : waitHandler env ec s = (.returned, s) := by
  refine if_neg ?_
  cases ec with
  | none => simp [hno rfl]
  | some ec => simp

/-! ## Steps -/

theorem paced_runPosted (env : Env) (c : Posted) (s : State) : Paced s (runPosted env c s) := by
  cases c with
  | send thread msg =>
    unfold runPosted
    dsimp only
    split
    · exact (Untimed.refl s).paced
    · have hpush : Untimed s { s with writeMsgs := s.writeMsgs ++ [msg] } := untimed_of_eq rfl rfl
      have h := hpush.trans (untimed_emit (e := .accepted thread msg) rfl _)
      split
      · exact h.paced
      · exact (h.trans (untimed_doWrite _)).paced
  | close session =>
    unfold runPosted
    dsimp only
    split
    · have hclose : Untimed s (closeSocket s) := untimed_of_eq rfl rfl
      exact (hclose.trans (untimed_setStatus ..)).paced
    · exact (Untimed.refl s).paced

theorem untimed_deliver (out : Outcome) (t : Task) (s : State) : Untimed s (out.deliver t s) := by
  unfold Outcome.deliver
  split
  · exact ⟨rfl, adds_emit rfl { s with readBuf := s.readBuf.fill _ }⟩
  · exact untimed_emit rfl s
  · exact .refl s

/-- The handler of an operation, if it neither takes a connect for a success nor retries. -/
theorem paced_runHandler {env : Env} {t : Task} {r : Result} (s : State)
    (hno : (t.kind.isConnect && (r.ec.isNone && (s.socket.isOpen && !s.stopped))) = false)
    (hno' : (t.kind.isWait && (r.ec.isNone && !s.stopped)) = false) :
    Paced s (conclude (runHandler env t r s)) := by
  obtain ⟨kind, sock, session⟩ := t
  cases kind with
  | connect rest =>
    apply paced_connectResume env _ rest s
    intro hec hopen
    simpa [Kind.isConnect, hec, hopen] using hno
  | read => exact paced_readHandler env r s
  | write msg sent => exact paced_writeResume env _ msg sent r s
  | wait =>
    have hidle : waitHandler env r.ec s = (.returned, s) :=
      waitHandler_idle fun hec => by simpa [Kind.isWait, hec] using hno'
    simp only [runHandler, hidle, conclude]
    exact (Untimed.refl s).paced

/-- Every other step leaves the delay alone. -/
theorem paced_step {l : Label} {s' : State} (hok : Resolves s l) (hs : step s l = some s')
    (hno : succeedsAt s l = false) (hno' : retriesAt s l = false) : Paced s s' := by
  cases l with
  | start env =>
    obtain rfl := Option.some.inj hs
    have hstart : Untimed s { s with stopped := false, session := s.session + 1 } :=
      untimed_of_eq rfl rfl
    rw [conclude_of_returned (hasDriver_start hok).1]
    exact (hstart.trans (untimed_doConnect env _)).paced
  | stop | setMessageCallback set | setStatusCallback set =>
    obtain rfl := Option.some.inj hs
    exact (untimed_of_eq rfl rfl : Untimed s _).paced
  | send thread msg =>
    obtain rfl := Option.some.inj hs
    have hpost : Untimed s (post (.send thread msg) s) := untimed_of_eq rfl rfl
    exact (hpost.trans (untimed_emit rfl _)).paced
  | complete i out =>
    obtain ⟨before, t, after, res, -, -, rfl⟩ := step_complete hs
    have hops : Untimed s { s with ops := before ++ ⟨t, some res⟩ :: after } :=
      untimed_of_eq rfl rfl
    exact (hops.trans (untimed_deliver out t _)).paced
  | runPosted env =>
    obtain ⟨c, rest, -, rfl⟩ := step_runPosted hs
    have hposted : Untimed s { s with posted := rest } := untimed_of_eq rfl rfl
    exact (paced_runPosted env c _).after hposted
  | runOp i env =>
    obtain ⟨before, t, res, after, hp, rfl⟩ := step_runOp hs
    simp only [succeedsAt, retriesAt, ran?_runOp hp] at hno hno'
    have hops : Untimed s { s with ops := before ++ after } := untimed_of_eq rfl rfl
    exact (paced_runHandler { s with ops := before ++ after } hno hno').after hops

/-- A step that takes a connect for a success. -/
theorem step_success {l : Label} {s' : State} (hs : step s l = some s')
    (hyes : succeedsAt s l = true) : s'.reconnectDelay = 1 ∧ Adds (!·.isWaitArmed) s s' := by
  cases l with
  | runOp i env =>
    obtain ⟨before, t, res, after, hp, rfl⟩ := step_runOp hs
    simp only [succeedsAt, ran?_runOp hp, Bool.and_eq_true, Bool.not_eq_true',
      Option.isNone_iff_eq_none] at hyes
    obtain ⟨hkind, hec, hopen, hrun⟩ := hyes
    obtain ⟨kind, sock, session⟩ := t
    cases kind with
    | read | write msg sent | wait => exact absurd hkind (by simp [Kind.isConnect])
    | connect rest =>
      have heq : conclude (runHandler env ⟨.connect rest, sock, session⟩ res
          { s with ops := before ++ after }) =
            connectHandler env sock none { s with ops := before ++ after } := by
        simp only [runHandler, conclude, connectResume, hec]
        exact if_pos hopen
      rw [heq]
      exact connectHandler_success (s := { s with ops := before ++ after }) env sock hrun
  | start env | stop | send thread msg | setMessageCallback set | setStatusCallback set
  | complete i out | runPosted env => exact absurd hyes (by simp [succeedsAt, ran?])

/-- A step that retries. -/
theorem step_retry {l : Label} {s' : State} (hok : Resolves s l) (hs : step s l = some s')
    (hyes : retriesAt s l = true) :
    s'.reconnectDelay = min (s.reconnectDelay * 2) 30 ∧ Adds (!·.isWaitArmed) s s' := by
  cases l with
  | runOp i env =>
    obtain ⟨before, t, res, after, hp, rfl⟩ := step_runOp hs
    simp only [Resolves, ran?_runOp hp] at hok
    simp only [retriesAt, ran?_runOp hp, Bool.and_eq_true, Bool.not_eq_true',
      Option.isNone_iff_eq_none] at hyes
    obtain ⟨hkind, hec, hrun⟩ := hyes
    obtain ⟨kind, sock, session⟩ := t
    cases kind with
    | connect rest | read | write msg sent => exact absurd hkind (by simp [Kind.isWait])
    | wait =>
      obtain ⟨hret, hthen⟩ := waitHandler_retry (s := { s with ops := before ++ after }) hrun
        (hok rfl hec hrun)
      simp only [runHandler, hec]
      rw [conclude_of_returned hret]
      exact hthen
  | start env | stop | send thread msg | setMessageCallback set | setStatusCallback set
  | complete i out | runPosted env => exact absurd hyes (by simp [retriesAt, ran?])

theorem step_backoff {l : Label} {s' : State} {k : ℕ} (hk : s.reconnectDelay = backoff k)
    (hok : Resolves s l) (hs : step s l = some s') :
    s'.reconnectDelay = backoff (countRetry s l k) := by
  unfold countRetry
  split
  · rename_i hyes
    exact (step_success hs hyes).1
  · rename_i hno
    split
    · rename_i hyes
      rw [(step_retry hok hs hyes).1, hk, backoff_succ]
    · rename_i hno'
      rw [(paced_step hok hs (Bool.eq_false_iff.mpr hno) (Bool.eq_false_iff.mpr hno')).1, hk]

theorem step_announced {l : Label} {s' : State} (hok : Resolves s l) (hs : step s l = some s') :
    Announced s.reconnectDelay s s' := by
  rcases Bool.eq_false_or_eq_true (succeedsAt s l) with hyes | hno
  · exact Or.inl (step_success hs hyes).2
  · rcases Bool.eq_false_or_eq_true (retriesAt s l) with hyes | hno'
    · exact Or.inl (step_retry hok hs hyes).2
    · exact (paced_step hok hs hno hno').2

end

/-- **The back-off law.** In every reachable state the delay is `min (2 ^ k) 30`, `k` being the
number of retries since the last success. A wait that the next step arms is given just that
number of seconds, the one it has announced; only a success makes the delay smaller; and
doubling it gives 60 at most. -/
theorem backoff_law (ls : List Label) (s : State) (h : Run step Resolves init ls s) :
    s.reconnectDelay = backoff (retries ls) ∧
      (1 ≤ s.reconnectDelay ∧ s.reconnectDelay ≤ 30) ∧ s.reconnectDelay * 2 ≤ 60 ∧
      ∀ l s', Resolves s l → step s l = some s' →
        Announced (backoff (retries ls)) s s' ∧
          (succeedsAt s l = false → s.reconnectDelay ≤ s'.reconnectDelay) := by
  have hk : s.reconnectDelay = backoff (retries ls) :=
    h.invariant_tally (I := fun s k => s.reconnectDelay = backoff k) (by decide)
      fun s k l s' hk hok hs => step_backoff hk hok hs
  have hpos := backoff_pos (retries ls)
  have hle : backoff (retries ls) ≤ 30 := Nat.min_le_right _ _
  refine ⟨hk, by omega, by omega, fun l s' hok hs => ⟨hk ▸ step_announced hok hs, ?_⟩⟩
  intro hno
  rcases Bool.eq_false_or_eq_true (retriesAt s l) with hyes | hno'
  · rw [(step_retry hok hs hyes).1]
    omega
  · exact Nat.le_of_eq (paced_step hok hs hno hno').1.symm

/-- The server is away for a while, then accepts the third attempt. -/
def serverAway : List Label :=
  [.start {}, .complete 0 (.failed .connectionReset), .runOp 0 {}, .complete 0 .expired,
    .runOp 0 {}, .complete 0 (.failed .connectionReset), .runOp 0 {}, .complete 0 .expired,
    .runOp 0 {}]

theorem backoff_law_serverAway : retries serverAway = 2 ∧
    (reached step Resolves init serverAway).reconnectDelay = 4 := by
  obtain ⟨hk, -⟩ := backoff_law serverAway _ (run_reached (by decide))
  have hretries : retries serverAway = 2 := by decide
  rw [hretries] at hk
  exact ⟨hretries, hk⟩

end AsioLearn.TcpClient
