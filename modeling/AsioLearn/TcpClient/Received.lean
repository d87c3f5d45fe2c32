import AsioLearn.TcpClient.SingleDriver

/-!
# The received stream

All reads of the client share one buffer, and a read chain belongs to the connection it was
started on only as long as `socket_` stays the same: the handler of a read or connect that had
succeeded before `socket_` was replaced starts the next read on the new connection, beside the
chain of its own. The bytes of a read that waits for its handler can then be overwritten.

* `stream_intact_unless_stale`: one read at a time, and each connection's bytes handed over in
  order, in every run in which no such handler runs and no unhandled bytes are overwritten.
-/

namespace AsioLearn.TcpClient

open Proactor Lts

/-! ## What is read and what is handed over -/

def Event.received? : Event → Option (Socket × Bytes)
  | .received sock bytes => some (sock, bytes)
  | _ => none

def Event.message? : Event → Option Bytes
  | .onMessage msg _ => some msg
  | _ => none

/-- The strings that `on_message_` has been invoked with. -/
def messages (s : State) : List Bytes := s.log.filterMap Event.message?

/-- Of parts that belong to connections, those of one connection put together. -/
def carried (fd : ℕ) (parts : List (Socket × Bytes)) : Bytes :=
  ((parts.filter (·.1.fd == some fd)).map Prod.snd).flatten

/-- The bytes that reads have taken from a connection. -/
def arrivedOn (fd : ℕ) (s : State) : Bytes := carried fd (s.log.filterMap Event.received?)

/-- The strings handed over, each with the socket its read was made on: the handler of a read
that has succeeded adds one, if the client runs and `on_message_` is set. -/
def handOver (s : State) (l : Label) (d : List (Socket × Bytes)) : List (Socket × Bytes) :=
  match ran? s l with
  | some (t, r) =>
    if t.kind.isRead && (r.ec.isNone && (!s.stopped && s.onMessage)) then
      d ++ [(t.sock, s.readBuf.bytes.take r.length)]
    else d
  | none => d

/-- The strings handed over in a run of the client. -/
def handedOver (ls : List Label) : List (Socket × Bytes) := tally step handOver init ls []

/-- The operation is a read on the connection that the socket has open. -/
def readOn (k : Socket) (op : Op Task Result) : Bool :=
  k.isOpen && (op.task.kind.isRead && op.task.sock.fd == k.fd)

/-- At most one read is outstanding or waits for its handler on an open socket, and what has been
handed over of a connection, by the invocations of `on_message_` that the parts stand for, is a
prefix of what has arrived on it. -/
structure StreamIntact (d : List (Socket × Bytes)) (s : State) : Prop where
  oneRead : s.ops.countP (readOn s.socket) ≤ 1
  messages : messages s = d.map Prod.snd
  inOrder : ∀ fd, carried fd d <+: arrivedOn fd s

/-! ## The steps considered -/

/-- The steps of a run with one `start()` and no `stop()`, `on_message_` being set before the
start. -/
def OneReader (s : State) (l : Label) : Prop :=
  OneSession s l ∧
    match l with
    | .setMessageCallback _ => s.session = 0
    | _ => True

instance (s : State) : ∀ l : Label, Decidable (OneReader s l)
  | .setMessageCallback _ => inferInstanceAs (Decidable (OneSession _ _ ∧ s.session = 0))
  | .start _ | .stop | .send _ _ | .setStatusCallback _ | .complete _ _ | .runPosted _
  | .runOp _ _ => inferInstanceAs (Decidable (OneSession _ _ ∧ True))

/-- A read that has succeeded and whose handler has not run. -/
def readDone (op : Op Task Result) : Bool :=
  op.task.kind.isRead && op.result.any (·.ec.isNone)

/-- The handler of a connect or read that has succeeded finds `socket_` as it was, or not open;
and no bytes are read while others wait to be copied. -/
def NotStale (s : State) : Label → Prop
  | .runOp i env =>
    match ran? s (.runOp i env) with
    | some (t, r) => (t.kind.isConnect || t.kind.isRead) = true → r.ec = none →
        t.sock = s.socket ∨ s.socket.isOpen = false
    | none => True
  | .complete _ (.received _) => s.ops.any readDone = false
  | _ => True

instance (s : State) : ∀ l : Label, Decidable (NotStale s l)
  | .runOp i env => decidable_of_iff
      (∀ p ∈ ran? s (.runOp i env), (p.1.kind.isConnect || p.1.kind.isRead) = true →
        p.2.ec = none → p.1.sock = s.socket ∨ s.socket.isOpen = false)
      (by cases h : ran? s (.runOp i env) <;> simp [NotStale, h])
  | .complete _ (.received _) => inferInstanceAs (Decidable (s.ops.any readDone = false))
  | .complete _ (.failed _) | .complete _ .connected | .complete _ (.wrote _)
  | .complete _ .expired => isTrue trivial
  | .start _ | .stop | .send _ _ | .setMessageCallback _ | .setStatusCallback _
  | .runPosted _ => isTrue trivial

/-! ## Steps that concern no read -/

def Event.concernsRead : Event → Bool
  | .received _ _ | .onMessage _ _ => true
  | _ => false

/-- The operation belongs to the read chain of a connection: its connect, or a read on it. -/
def inChain (fd : ℕ) (op : Op Task Result) : Bool :=
  (op.task.kind.isConnect || op.task.kind.isRead) && op.task.sock.fd == some fd

/-- A descriptor that has been opened in between. -/
def opened (s s' : State) (fd : ℕ) : ℕ := if s.nextFd ≤ fd ∧ fd < s'.nextFd then 1 else 0

/-- No read is started, completed or handled; a connect may be started on a new descriptor. -/
structure NoRead (s s' : State) : Prop where
  readBuf : s'.readBuf = s.readBuf
  onMessage : s'.onMessage = s.onMessage
  adds : Adds (!·.concernsRead) s s'
  done : s'.ops.filter readDone = s.ops.filter readDone
  nextFd : s.nextFd ≤ s'.nextFd
  chains : ∀ fd, s'.ops.countP (inChain fd) ≤ s.ops.countP (inChain fd) + opened s s' fd

section NoRead

variable {s t u : State}

theorem NoRead.of_eq (hbuf : t.readBuf = s.readBuf) (hcb : t.onMessage = s.onMessage)
    (hlog : t.log = s.log) (hops : t.ops = s.ops) (hfd : t.nextFd = s.nextFd) : NoRead s t :=
  ⟨hbuf, hcb, adds_of_log_eq hlog, by rw [hops], Nat.le_of_eq hfd.symm,
    fun fd => by rw [hops]; omega⟩

theorem NoRead.refl (s : State) : NoRead s s := .of_eq rfl rfl rfl rfl rfl

theorem NoRead.trans (h : NoRead s t) (h' : NoRead t u) : NoRead s u := by
  refine ⟨h'.readBuf.trans h.readBuf, h'.onMessage.trans h.onMessage, h.adds.trans h'.adds,
    h'.done.trans h.done, Nat.le_trans h.nextFd h'.nextFd, ?_⟩
  intro fd
  have h1 := h.chains fd
  have h2 := h'.chains fd
  have hle := h.nextFd
  have hle' := h'.nextFd
  unfold opened at h1 h2 ⊢
  split at h1 <;> split at h2 <;> split <;> omega

theorem noRead_emit {e : Event} (he : e.concernsRead = false) (s : State) :
    NoRead s (emit e s) :=
  ⟨rfl, rfl, adds_emit (by simp [he]) s, rfl, Nat.le_refl _, fun fd => Nat.le_add_right _ _⟩

/-- Starting an operation that is neither a connect nor a read. -/
theorem noRead_addOp {op : Op Task Result} (hc : op.task.kind.isConnect = false)
    (hr : op.task.kind.isRead = false) (s : State) : NoRead s (addOp op s) := by
  refine ⟨rfl, rfl, adds_of_log_eq rfl, ?_, Nat.le_refl _, ?_⟩
  · simp [addOp, readDone, hr]
  · intro fd
    simp [addOp, inChain, hc, hr]

theorem countP_inChain_abort (p : Task → Bool) (fd : ℕ) (ops : List (Op Task Result)) :
    (abort p .aborted ops).countP (inChain fd) ≤ ops.countP (inChain fd) :=
  countP_abort_le (q := inChain fd) p .aborted (fun _ _ h => h) ops

/-- Operations that lose their chance to succeed. -/
theorem noRead_abort (p : Task → Bool) (s : State) (sock : Socket) (inst : ℕ) :
    NoRead s { s with ops := abort p .aborted s.ops, socket := sock, nextInst := inst } := by
  refine ⟨rfl, rfl, adds_of_log_eq rfl, ?_, Nat.le_refl _, ?_⟩
  · exact filter_abort (q := readDone) p .aborted
      (fun k _ => by simp [readDone, Result.aborted, Result.error]) s.ops
  · intro fd
    exact Nat.le_trans (countP_inChain_abort p fd s.ops) (Nat.le_add_right _ _)

theorem noRead_closeSocket (s : State) : NoRead s (closeSocket s) :=
  noRead_abort (·.on s.socket) s _ s.nextInst

theorem noRead_replaceSocket (s : State) : NoRead s (replaceSocket s) :=
  noRead_abort (·.on s.socket) s _ _

theorem noRead_expiresAfter (s : State) : NoRead s (expiresAfter s) :=
  noRead_abort (·.kind.isWait) s s.socket s.nextInst

/-- A turn of `range_connect_op` starts the chain of the descriptor it opens. -/
theorem noRead_rangeConnect (env : Env) (rest : List Endpoint) (session : ℕ) (s : State) :
    NoRead s (rangeConnect env rest session s) := by
  have h := noRead_closeSocket s
  rcases rangeConnect_cases env rest session s with ⟨-, heq⟩ | ⟨ec, -, heq⟩ <;> rw [heq]
  · refine ⟨h.readBuf, h.onMessage, adds_of_log_eq rfl, ?_, Nat.le_succ _, ?_⟩
    · rw [List.filter_append, ← h.done]
      simp [readDone, Kind.isRead, closeSocket]
    · intro fd
      have hle := countP_inChain_abort (·.on s.socket) fd s.ops
      simp only [opened, List.countP_append, List.countP_singleton, inChain, Kind.isConnect,
        Bool.true_or, Bool.true_and, beq_iff_eq, Option.some.injEq]
      split <;> split <;> omega
  · refine ⟨h.readBuf, h.onMessage, adds_of_log_eq rfl, ?_, Nat.le_refl _, ?_⟩
    · rw [List.filter_append, ← h.done]
      simp [readDone, Kind.isRead, closeSocket]
    · intro fd
      have hle := countP_inChain_abort (·.on s.socket) fd s.ops
      have hnone : inChain fd
          ⟨⟨.connect rest, ⟨s.socket.inst, none⟩, session⟩, some (.error ec)⟩ = false := by
        simp [inChain]
      rw [List.countP_append, List.countP_singleton, hnone]
      exact Nat.le_trans hle (Nat.le_add_right _ _)

theorem noRead_invoke (cb : Callback) (s : State) : NoRead s (catchAll (cb.invoke s)) := by
  rw [catchAll_invoke]
  refine ⟨rfl, rfl, ⟨_, rfl, ?_⟩, rfl, Nat.le_refl _, fun fd => Nat.le_add_right _ _⟩
  intro e he
  obtain ⟨c, -, hc⟩ := List.mem_filterMap.mp he
  cases c with
  | stop => exact absurd hc (by simp [Call.event?])
  | send thread msg =>
    obtain rfl : Event.sendPosted thread msg = e := Option.some.inj hc
    rfl

theorem noRead_setStatus (st : Status) (info : Info) (cb : Callback) (s : State) :
    NoRead s (setStatus st info cb s) := by
  have hset : NoRead s { s with currentStatus := st } := .of_eq rfl rfl rfl rfl rfl
  have h : NoRead s (emit (.status st info) { s with currentStatus := st }) :=
    hset.trans (noRead_emit rfl _)
  rw [setStatus_cases]
  split
  · exact (h.trans (noRead_emit rfl _)).trans (noRead_invoke cb _)
  · exact h

theorem noRead_doConnect (env : Env) (s : State) : NoRead s (doConnect env s).2 := by
  unfold doConnect
  split
  · exact .refl s
  · split
    · exact .refl s
    · exact (noRead_emit rfl s).trans (noRead_rangeConnect env _ _ _)

theorem noRead_scheduleReconnect (cb : Callback) (s : State) :
    NoRead s (scheduleReconnect cb s) := by
  unfold scheduleReconnect
  split
  · exact .refl s
  · exact (((noRead_setStatus _ _ cb s).trans (noRead_expiresAfter _)).trans
      (noRead_emit rfl _)).trans (noRead_addOp rfl rfl _)

/-- Reporting a failure and scheduling the reconnection. -/
theorem noRead_report (st : Status) (info : Info) (env : Env) (s : State) :
    NoRead s (scheduleReconnect env.onStatus2 (setStatus st info env.onStatus s)) :=
  (noRead_setStatus st info _ s).trans (noRead_scheduleReconnect _ _)

theorem noRead_start (env : Env) (s : State) : NoRead s (start env s).2 := by
  have h : NoRead s { s with stopped := false, session := s.session + 1 } :=
    .of_eq rfl rfl rfl rfl rfl
  exact h.trans (noRead_doConnect env _)

theorem noRead_waitHandler (env : Env) (ec : Option ErrorCode) (s : State) :
    NoRead s (waitHandler env ec s).2 := by
  unfold waitHandler
  split
  · have h := (noRead_replaceSocket s).trans (noRead_doConnect env (replaceSocket s))
    split
    · rename_i s' heq
      rw [heq] at h
      have hdelay : NoRead s' { s' with reconnectDelay := min (s'.reconnectDelay * 2) 30 } :=
        .of_eq rfl rfl rfl rfl rfl
      exact h.trans hdelay
    · rename_i heq
      rw [heq] at h
      exact h
  · exact .refl s

theorem noRead_conclude (r : Exit × State) : NoRead r.2 (conclude r) := by
  obtain ⟨exit, s⟩ := r
  cases exit with
  | returned => exact .refl s
  | threw => exact noRead_emit rfl s

/-- Writing concerns no read. -/
theorem noRead_of_onlyWrites (h : OnlyWrites s t) : NoRead s t := by
  obtain ⟨q, ws, es, rfl, hws, hes⟩ := h
  have hother : ∀ op ∈ ws, op.task.kind.isConnect = false ∧ op.task.kind.isRead = false := by
    intro op hop
    have hw := hws op hop
    obtain ⟨⟨kind, sock, session⟩, res⟩ := op
    cases kind with
    | write msg sent => exact ⟨rfl, rfl⟩
    | connect rest | read | wait => exact absurd hw (by simp [Kind.isWrite])
  refine ⟨rfl, rfl, ⟨es, rfl, ?_⟩, ?_, Nat.le_refl _, ?_⟩
  · intro e he
    have := hes e he
    cases e <;> first | rfl | exact absurd this (by simp [Event.isRoutine, Event.byHandler])
  · have hnone : ws.filter readDone = [] :=
      List.filter_eq_nil_iff.mpr fun op hop => by simp [readDone, (hother op hop).2]
    rw [List.filter_append, hnone, List.append_nil]
  · intro fd
    have hnone : ws.countP (inChain fd) = 0 := by
      apply List.countP_eq_zero.mpr
      intro op hop
      simp [inChain, (hother op hop).1, (hother op hop).2]
    rw [List.countP_append, hnone]
    exact Nat.le_add_right _ _

/-- An operation that is not a read with bytes to hand over leaves the pool. -/
theorem noRead_remove {before after : List (Op Task Result)} {op : Op Task Result}
    (hops : s.ops = before ++ op :: after) (hop : readDone op = false) :
    NoRead s { s with ops := before ++ after } := by
  refine ⟨rfl, rfl, adds_of_log_eq rfl, ?_, Nat.le_refl _, ?_⟩
  · simp [hops, List.filter_append, hop]
  · intro fd
    simp only [hops, List.countP_append, List.countP_cons]
    omega

theorem noRead_connectFailed (env : Env) (sock : Socket) (ec : ErrorCode) (s : State) :
    NoRead s (connectHandler env sock (some ec) s) := by
  unfold connectHandler
  split
  · exact .refl s
  · exact noRead_report _ _ env s

/-- The handler of a connect that has failed, or finds the socket closed. -/
theorem noRead_connectResume (env : Env) (t : Task) (rest : List Endpoint)
    {ec : Option ErrorCode} (s : State) (hno : ec = none → s.socket.isOpen = false) :
    NoRead s (connectResume env t rest ec s) := by
  unfold connectResume
  split
  · rename_i hopen
    split
    · exact absurd hopen (by simp [hno rfl])
    · exact noRead_connectFailed env t.sock _ s
    · exact noRead_rangeConnect env _ _ s
  · exact noRead_connectFailed env t.sock _ s

theorem noRead_readFailed (env : Env) {r : Result} (hr : r.ec ≠ none) (s : State) :
    NoRead s (readHandler env r s) := by
  unfold readHandler
  split
  · exact .refl s
  · split
    · rename_i hec
      exact absurd hec hr
    · split
      · exact noRead_report _ _ env s
      · exact noRead_report _ _ env s

theorem noRead_writeResume (env : Env) (t : Task) (msg : Bytes) (sent : ℕ) (r : Result)
    (s : State) : NoRead s (writeResume env t msg sent r s) := by
  cases hr : r.ec with
  | none => exact noRead_of_onlyWrites (onlyWrites_writeResume env t msg sent hr s)
  | some ec =>
    simp only [writeResume, hr, writeHandler]
    split
    · exact .refl s
    · exact noRead_report _ _ env s

end NoRead

/-! ## The session goes on -/

section Session

variable {s : State} (h : InSession s) {env : Env} (henv : env.neverStops = true)

include h henv

theorem InSession.connectHandler (sock : Socket) (ec : Option ErrorCode) :
    InSession (TcpClient.connectHandler env sock ec s) := by
  obtain ⟨-, hst, -⟩ := env.neverStops_iff.mp henv
  have h' : InSession (emit (.connectHandled sock) { s with reconnectDelay := 1 }) :=
    h.of_eq rfl rfl rfl
  unfold TcpClient.connectHandler
  rw [if_neg (by simp [h.running])]
  split
  · exact (h'.setStatus _ _ hst).doRead
  · exact (rearmed_report h henv _ _).inSession

theorem InSession.connectResume (t : Task) (rest : List Endpoint) (ec : Option ErrorCode) :
    InSession (TcpClient.connectResume env t rest ec s) := by
  unfold TcpClient.connectResume
  split
  · split
    · exact h.connectHandler henv _ _
    · exact h.connectHandler henv _ _
    · exact h.rangeConnect env _ _
  · exact h.connectHandler henv _ _

theorem InSession.readHandler {r : Result} (hr : r.ec = none) :
    InSession (TcpClient.readHandler env r s) := by
  obtain ⟨hmsg, -, -⟩ := env.neverStops_iff.mp henv
  unfold TcpClient.readHandler
  rw [if_neg (by simp [h.running]), hr]
  refine InSession.doRead ?_
  split
  · have h' : InSession (emit (.onMessage (s.readBuf.bytes.take r.length) s.currentStatus) s) :=
      h.of_eq rfl rfl rfl
    exact h'.invoke hmsg
  · exact h

omit henv in
theorem InSession.writes {s' : State} (hw : OnlyWrites s s') : InSession s' := by
  obtain ⟨q, ws, es, rfl, -⟩ := hw
  exact h.of_eq rfl rfl rfl

theorem InSession.runHandler (t : Task) (r : Result) :
    InSession (conclude (TcpClient.runHandler env t r s)) := by
  cases hec : r.ec with
  | some ec =>
    obtain ⟨kind, sock, session⟩ := t
    cases kind with
    | connect rest => exact h.connectResume henv _ _ _
    | read => exact (rearmed_runFailed h henv (Or.inl rfl) (by simp [hec])).inSession
    | write msg sent => exact (rearmed_runFailed h henv (Or.inr rfl) (by simp [hec])).inSession
    | wait =>
      simp only [TcpClient.runHandler, hec]
      exact h
  | none =>
    obtain ⟨kind, sock, session⟩ := t
    cases kind with
    | connect rest => exact h.connectResume henv _ _ _
    | read => exact h.readHandler henv hec
    | write msg sent => exact h.writes (onlyWrites_writeResume env _ msg sent hec s)
    | wait =>
      simp only [TcpClient.runHandler, hec]
      exact (connects_waitHandler h env).conclude.inSession

end Session

/-! ## The invariant -/

theorem carried_append (fd : ℕ) (xs ys : List (Socket × Bytes)) :
    carried fd (xs ++ ys) = carried fd xs ++ carried fd ys := by
  simp [carried]

theorem carried_singleton (fd : ℕ) (sock : Socket) (bytes : Bytes) :
    carried fd [(sock, bytes)] = if sock.fd = some fd then bytes else [] := by
  unfold carried
  by_cases h : sock.fd = some fd <;> simp [h]

/-- The bytes of a completed read that are still in the buffer. -/
def bytesOf (buf : ReadBuf) (op : Op Task Result) : Socket × Bytes :=
  (op.task.sock, match op.result with
    | some r => buf.bytes.take r.length
    | none => [])

/-- What has been read and waits for its handler. -/
def queued (s : State) : List (Socket × Bytes) :=
  (s.ops.filter readDone).map (bytesOf s.readBuf)

/-- The session is under way, the connections are read one chain each, and what has arrived is
what has been handed over and what waits for its handler. -/
structure Reading (d : List (Socket × Bytes)) (s : State) : Prop extends InSession s where
  chains : ∀ fd, s.ops.countP (inChain fd) ≤ if fd < s.nextFd then 1 else 0
  messages : messages s = d.map Prod.snd
  arrived : s.onMessage = true → ∀ fd, carried fd d ++ carried fd (queued s) = arrivedOn fd s
  silent : s.onMessage = false → d = []

section Reading

variable {s s' : State} {d : List (Socket × Bytes)}

theorem arrivedOn_of_adds (h : Adds (!·.concernsRead) s s') (fd : ℕ) :
    arrivedOn fd s' = arrivedOn fd s := by
  have heq : s'.log.filterMap Event.received? = s.log.filterMap Event.received? :=
    h.filterMap fun e he => by
      cases e <;> first | rfl | exact absurd he (by simp [Event.concernsRead])
  unfold arrivedOn
  rw [heq]

theorem messages_of_adds (h : Adds (!·.concernsRead) s s') :
    TcpClient.messages s' = TcpClient.messages s :=
  h.filterMap fun e he => by
    cases e <;> first | rfl | exact absurd he (by simp [Event.concernsRead])

theorem queued_noRead (h : NoRead s s') : queued s' = queued s := by
  unfold queued
  rw [h.done, h.readBuf]

/-- What concerns no read keeps the invariant. -/
theorem Reading.noRead (h : Reading d s) (hn : NoRead s s') (hin : InSession s') :
    Reading d s' := by
  refine ⟨hin, ?_, (messages_of_adds hn.adds).trans h.messages, ?_,
    fun hcb => h.silent (hn.onMessage ▸ hcb)⟩
  · intro fd
    have hle := h.chains fd
    have hle' := hn.chains fd
    have hfd := hn.nextFd
    unfold opened at hle'
    split at hle <;> split at hle' <;> split <;> omega
  · intro hcb fd
    rw [queued_noRead hn, arrivedOn_of_adds hn.adds]
    exact h.arrived (hn.onMessage ▸ hcb) fd

/-! ## Reading on -/

/-- There is room for a read on the current socket. -/
def Room (s : State) : Prop :=
  ∀ fd, s.socket.fd = some fd → s.ops.countP (inChain fd) = 0 ∧ fd < s.nextFd

/-- The operation whose handler runs makes room for the next read of its chain, if `socket_` is
what it was. -/
theorem Reading.room (h : Reading d s) {before after : List (Op Task Result)}
    {op : Op Task Result} (hops : s.ops = before ++ op :: after)
    (hkind : (op.task.kind.isConnect || op.task.kind.isRead) = true)
    (hstays : op.task.sock = s.socket ∨ s.socket.isOpen = false) :
    Room { s with ops := before ++ after } := by
  intro fd hfd
  have hfd : s.socket.fd = some fd := hfd
  rcases hstays with hsock | hclosed
  · have hin : inChain fd op = true := by simp [inChain, hkind, hsock, hfd]
    have hle := h.chains fd
    simp only [hops, List.countP_append, List.countP_cons, hin, if_true] at hle
    show (before ++ after).countP (inChain fd) = 0 ∧ fd < s.nextFd
    rw [List.countP_append]
    split at hle <;> omega
  · exact absurd hclosed (by simp [Socket.isOpen, hfd])

/-- What `do_read` adds to the pool: a read that cannot have bytes to hand over yet. -/
theorem doRead_ops (h : s.stopped = false) : ∃ op : Op Task Result,
    (TcpClient.doRead s).ops = s.ops ++ [op] ∧ op.task = ⟨.read, s.socket, s.session⟩ ∧
      readDone op = false := by
  rw [doRead_of_running h]
  refine ⟨_, rfl, rfl, ?_⟩
  show (true && (if s.socket.isOpen then none
    else some (Result.error .badDescriptor)).any (·.ec.isNone)) = false
  split <;> rfl

theorem Reading.doRead (h : Reading d s) (hroom : Room s) : Reading d (doRead s) := by
  have hin := h.toInSession.doRead
  obtain ⟨op, hops, htask, hdone⟩ := doRead_ops h.running
  have hsame : (TcpClient.doRead s).readBuf = s.readBuf ∧
      (TcpClient.doRead s).onMessage = s.onMessage ∧ (TcpClient.doRead s).nextFd = s.nextFd ∧
        Adds (!·.concernsRead) s (TcpClient.doRead s) := by
    rw [doRead_of_running h.running]
    exact ⟨rfl, rfl, rfl, adds_emit rfl s⟩
  obtain ⟨hbuf, hcb, hfd, hadds⟩ := hsame
  refine ⟨hin, ?_, (messages_of_adds hadds).trans h.messages, ?_, fun hset => h.silent (hcb ▸ hset)⟩
  · intro fd
    have hle := h.chains fd
    rw [hops, hfd, List.countP_append, List.countP_singleton]
    split
    · rename_i hchain
      obtain ⟨hzero, hlt⟩ := hroom fd (by simpa [inChain, htask, Kind.isRead] using hchain)
      rw [if_pos hlt]
      omega
    · exact hle
  · intro hset fd
    have hq : queued (TcpClient.doRead s) = queued s := by
      unfold queued
      rw [hops, hbuf, List.filter_append]
      simp [hdone]
    rw [hq, arrivedOn_of_adds hadds]
    exact h.arrived (hcb ▸ hset) fd

/-- Nothing else of a connection waits for its handler, beside one operation of its chain. -/
theorem carried_rest {before after : List (Op Task Result)} {op : Op Task Result} {fd : ℕ}
    (hle : (before ++ op :: after).countP (inChain fd) ≤ 1) (hin : inChain fd op = true)
    (buf : ReadBuf) :
    carried fd (((before ++ after).filter readDone).map (bytesOf buf)) = [] := by
  have hzero : (before ++ after).countP (inChain fd) = 0 := by
    simp only [List.countP_append, List.countP_cons, hin, if_true] at hle ⊢
    omega
  have hnone : (((before ++ after).filter readDone).map (bytesOf buf)).filter
      (·.1.fd == some fd) = [] := by
    apply List.filter_eq_nil_iff.mpr
    intro part hpart
    obtain ⟨op', hop', rfl⟩ := List.mem_map.mp hpart
    obtain ⟨hmem, hdone⟩ := List.mem_filter.mp hop'
    have hread : op'.task.kind.isRead = true := ((Bool.and_eq_true ..).mp hdone).1
    have hno := List.countP_eq_zero.mp hzero op' hmem
    simpa [inChain, hread, bytesOf] using hno
  unfold carried
  rw [hnone]
  rfl

/-- The handler of a read copies its bytes. -/
theorem Reading.copy (h : Reading d s) {before after : List (Op Task Result)} {sock : Socket}
    {session : ℕ} {r : Result} (hops : s.ops = before ++ ⟨⟨.read, sock, session⟩, some r⟩ :: after)
    (hr : r.ec = none) (hcb : s.onMessage = true) (st : Status) :
    Reading (d ++ [(sock, s.readBuf.bytes.take r.length)])
      (emit (.onMessage (s.readBuf.bytes.take r.length) st)
        { s with ops := before ++ after }) := by
  have hdone : readDone ⟨⟨.read, sock, session⟩, some r⟩ = true := by
    simp [readDone, Kind.isRead, hr]
  refine ⟨h.toInSession.of_eq rfl rfl rfl, ?_, ?_, ?_,
    fun hno => absurd hcb (by simpa [emit] using hno)⟩
  · intro fd
    refine Nat.le_trans ?_ (h.chains fd)
    show (before ++ after).countP (inChain fd) ≤ _
    simp only [hops, List.countP_append, List.countP_cons]
    omega
  · have hm := h.messages
    unfold TcpClient.messages at hm ⊢
    simp [emit, Event.message?, hm]
  · intro _ fd
    have harr := h.arrived hcb fd
    have hlog : arrivedOn fd (emit (.onMessage (s.readBuf.bytes.take r.length) st)
        { s with ops := before ++ after }) = arrivedOn fd s := by
      simp [arrivedOn, emit, Event.received?, List.filterMap_cons]
    have hqueued : queued s = (before.filter readDone).map (bytesOf s.readBuf) ++
        (sock, s.readBuf.bytes.take r.length) ::
          (after.filter readDone).map (bytesOf s.readBuf) := by
      unfold queued
      rw [hops, List.filter_append, List.filter_cons_of_pos hdone, List.map_append,
        List.map_cons]
      rfl
    have hrest : queued (emit (.onMessage (s.readBuf.bytes.take r.length) st)
        { s with ops := before ++ after }) =
          (before.filter readDone).map (bytesOf s.readBuf) ++
            (after.filter readDone).map (bytesOf s.readBuf) := by
      simp [queued, emit]
    rw [hlog, ← harr, hqueued, carried_append, carried_singleton]
    by_cases hfd : sock.fd = some fd
    · have hle := h.chains fd
      have hle' :
          (before ++ ⟨⟨.read, sock, session⟩, some r⟩ :: after).countP (inChain fd) ≤ 1 := by
        rw [← hops]
        split at hle <;> omega
      have hnil := carried_rest hle' (by simp [inChain, Kind.isRead, hfd]) s.readBuf
      rw [List.filter_append, List.map_append, carried_append, List.append_eq_nil_iff] at hnil
      rw [hrest, carried_append, carried_append, ← List.singleton_append, carried_append,
        carried_singleton, if_pos hfd, hnil.1, hnil.2]
      simp
    · rw [hrest, carried_append, carried_append, ← List.singleton_append, carried_append,
        carried_singleton, if_neg hfd]
      simp

/-! ## Steps -/

/-- The handler of a connect. -/
theorem reading_connectResume (h : Reading d s) {env : Env} (henv : env.neverStops = true)
    {t : Task} {rest : List Endpoint} {ec : Option ErrorCode}
    (hroom : ec = none → Room s) : Reading d (connectResume env t rest ec s) := by
  by_cases hok : ec = none ∧ s.socket.isOpen = true
  · obtain ⟨rfl, hopen⟩ := hok
    obtain ⟨-, hst, -⟩ := env.neverStops_iff.mp henv
    have heq : connectResume env t rest none s =
        TcpClient.doRead (setStatus .connected .connectedToServer env.onStatus
          (emit (.connectHandled t.sock) { s with reconnectDelay := 1 })) := by
      simp [connectResume, connectHandler, hopen, h.running]
    have hdelay : NoRead s { s with reconnectDelay := 1 } := .of_eq rfl rfl rfl rfl rfl
    have hin : InSession (emit (.connectHandled t.sock) { s with reconnectDelay := 1 }) :=
      h.toInSession.of_eq rfl rfl rfl
    have hn := (hdelay.trans (noRead_emit (e := .connectHandled t.sock) rfl _)).trans
      (noRead_setStatus .connected .connectedToServer env.onStatus _)
    rw [heq]
    apply (h.noRead hn (hin.setStatus _ _ hst)).doRead
    intro fd hfd
    rw [setStatus_ops, setStatus_nextFd]
    exact hroom rfl fd (by simpa [emit] using hfd)
  · refine h.noRead (noRead_connectResume env t rest s ?_)
      (h.toInSession.connectResume henv t rest ec)
    intro hec
    cases hopen : s.socket.isOpen with
    | false => rfl
    | true => exact absurd ⟨hec, hopen⟩ hok

/-- The handler of a read that has succeeded. -/
theorem reading_readHandler (h : Reading d s) {before after : List (Op Task Result)}
    {sock : Socket} {session : ℕ} {r : Result}
    (hops : s.ops = before ++ ⟨⟨.read, sock, session⟩, some r⟩ :: after) (hr : r.ec = none)
    {env : Env} (henv : env.neverStops = true)
    (hroom : Room { s with ops := before ++ after }) :
    Reading (if s.onMessage then d ++ [(sock, s.readBuf.bytes.take r.length)] else d)
      (readHandler env r { s with ops := before ++ after }) := by
  obtain ⟨hmsg, -, -⟩ := env.neverStops_iff.mp henv
  have hrun : ¬ ({ s with ops := before ++ after } : State).stopped = true := by simp [h.running]
  unfold readHandler
  rw [if_neg hrun, hr]
  dsimp only
  split
  · rename_i hcb
    have hcopy := h.copy hops hr hcb s.currentStatus
    have hn := noRead_invoke env.onMessage (emit (.onMessage (s.readBuf.bytes.take r.length)
      s.currentStatus) { s with ops := before ++ after })
    apply (hcopy.noRead hn (hcopy.toInSession.invoke hmsg)).doRead
    intro fd hfd
    rw [catchAll_invoke] at hfd ⊢
    exact hroom fd hfd
  · rename_i hcb
    have hcb : s.onMessage = false := by simpa using hcb
    have hnil := h.silent hcb
    subst hnil
    have hmessages : TcpClient.messages { s with ops := before ++ after } = [] := h.messages
    have h' : Reading [] { s with ops := before ++ after } := by
      refine ⟨h.toInSession.of_eq rfl rfl rfl, fun fd => Nat.le_trans ?_ (h.chains fd), hmessages,
        fun hset => absurd hset (by simp [hcb]), fun _ => rfl⟩
      simp only [hops, List.countP_append, List.countP_cons]
      omega
    exact h'.doRead hroom

theorem reading_runOp (h : Reading d s) {i : ℕ} {env : Env} (henv : env.neverStops = true)
    (hok : NotStale s (.runOp i env)) (hs : step s (.runOp i env) = some s') :
    Reading (handOver s (.runOp i env) d) s' := by
  obtain ⟨before, t, res, after, hp, rfl⟩ := step_runOp hs
  have hops := pick_eq_some hp
  simp only [NotStale, handOver, ran?_runOp hp] at hok ⊢
  have hin : InSession { s with ops := before ++ after } := h.toInSession.of_eq rfl rfl rfl
  have hrest : readDone ⟨t, some res⟩ = false → Reading d { s with ops := before ++ after } :=
    fun hno => h.noRead (noRead_remove hops hno) hin
  have hin' := hin.runHandler henv t res
  obtain ⟨kind, sock, session⟩ := t
  cases kind with
  | connect rest =>
    apply reading_connectResume (hrest rfl) henv
    intro hec
    exact h.room hops rfl (hok rfl hec)
  | read =>
    cases hec : res.ec with
    | none =>
      have hset : (Kind.read.isRead && ((none : Option ErrorCode).isNone &&
          (!s.stopped && s.onMessage))) = s.onMessage := by
        simp [Kind.isRead, h.running]
      simp only [hset]
      exact reading_readHandler h hops hec henv (h.room hops rfl (hok rfl hec))
    | some ec =>
      simp only [Option.isNone_some, Bool.false_and, Bool.and_false, Bool.false_eq_true, if_false]
      refine (hrest (by simp [readDone, hec])).noRead ?_ hin'
      exact noRead_readFailed env (by simp [hec]) _
  | write msg sent =>
    exact (hrest rfl).noRead (noRead_writeResume env _ msg sent res _) hin'
  | wait =>
    exact (hrest rfl).noRead ((noRead_waitHandler env _ _).trans (noRead_conclude _)) hin'

theorem take_fill {b : ReadBuf} {data : Bytes} (h : data.length ≤ 1024) :
    (b.fill data).bytes.take data.length = data := by
  show ((data ++ b.bytes.drop data.length).take 1024).take data.length = data
  rw [List.take_take, Nat.min_eq_left h, List.take_left']
  rfl

/-- Bytes arrive for a read while no others wait to be copied. -/
theorem Reading.receive (h : Reading d s) {before after : List (Op Task Result)} {sock : Socket}
    {session : ℕ} {data : Bytes} (hlen : data.length ≤ 1024)
    (hops : s.ops = before ++ ⟨⟨.read, sock, session⟩, none⟩ :: after)
    (hdone : s.ops.any readDone = false) :
    Reading d (emit (.received sock data) { s with
      ops := before ++ ⟨⟨.read, sock, session⟩, some (.ok data.length)⟩ :: after
      readBuf := s.readBuf.fill data }) := by
  have hnone : ∀ op ∈ s.ops, ¬ readDone op = true := by simpa using hdone
  have hbefore : before.filter readDone = [] :=
    List.filter_eq_nil_iff.mpr fun op hop => hnone op (by simp [hops, hop])
  have hafter : after.filter readDone = [] :=
    List.filter_eq_nil_iff.mpr fun op hop => hnone op (by simp [hops, hop])
  have hempty : queued s = [] := by
    unfold queued
    rw [List.filter_eq_nil_iff.mpr hnone]
    rfl
  refine ⟨h.toInSession.of_eq rfl rfl rfl, ?_, ?_, ?_, h.silent⟩
  · intro fd
    have hle := h.chains fd
    rw [hops, List.countP_append, List.countP_cons] at hle
    show (before ++ _ :: after).countP (inChain fd) ≤ if fd < s.nextFd then 1 else 0
    rw [List.countP_append, List.countP_cons]
    exact hle
  · have hm := h.messages
    unfold TcpClient.messages at hm ⊢
    simp [emit, Event.message?, hm, List.filterMap_cons]
  · intro hcb fd
    have harr := h.arrived hcb fd
    rw [hempty] at harr
    have hqueued : queued (emit (.received sock data) { s with
        ops := before ++ ⟨⟨.read, sock, session⟩, some (.ok data.length)⟩ :: after
        readBuf := s.readBuf.fill data }) = [(sock, data)] := by
      have hself : readDone ⟨⟨.read, sock, session⟩, some (.ok data.length)⟩ = true := rfl
      unfold queued
      simp only [emit]
      rw [List.filter_append, List.filter_cons_of_pos hself, hbefore, hafter]
      simp only [List.nil_append, List.map_cons, List.map_nil, bytesOf, Result.ok]
      rw [take_fill hlen]
    have hlog : arrivedOn fd (emit (.received sock data) { s with
        ops := before ++ ⟨⟨.read, sock, session⟩, some (.ok data.length)⟩ :: after
        readBuf := s.readBuf.fill data }) = arrivedOn fd s ++ carried fd [(sock, data)] := by
      unfold arrivedOn
      simp only [emit]
      rw [List.filterMap_append, carried_append]
      rfl
    rw [hqueued, hlog, ← harr]
    simp [carried]

/-- Other completions leave the bytes as they are. -/
theorem noRead_complete {i : ℕ} {out : Outcome} (hout : ∀ data, out ≠ .received data)
    (hs : step s (.complete i out) = some s') : NoRead s s' := by
  obtain ⟨before, t, after, res, hops, hres, rfl⟩ := step_complete hs
  have hdone : readDone ⟨t, some res⟩ = false := by
    obtain ⟨kind, sock, session⟩ := t
    cases kind with
    | connect rest | write msg sent | wait => rfl
    | read =>
      cases out with
      | received data => exact absurd rfl (hout data)
      | failed ec =>
        obtain rfl := Option.some.inj hres
        rfl
      | connected | wrote n | expired => exact absurd hres (by simp [Outcome.result?])
  have hset : NoRead s { s with ops := before ++ ⟨t, some res⟩ :: after } := by
    refine ⟨rfl, rfl, adds_of_log_eq rfl, ?_, Nat.le_refl _, ?_⟩
    · have hnone : readDone ⟨t, none⟩ = false := by simp [readDone]
      simp [hops, hdone, hnone]
    · intro fd
      have heq : inChain fd ⟨t, some res⟩ = inChain fd ⟨t, none⟩ := rfl
      simp only [hops, List.countP_append, List.countP_cons, heq]
      exact Nat.le_add_right _ _
  refine hset.trans ?_
  unfold Outcome.deliver
  split
  · exact absurd rfl (hout _)
  · exact noRead_emit rfl _
  · exact .refl _

theorem reading_complete (h : Reading d s) {i : ℕ} {out : Outcome}
    (hok : NotStale s (.complete i out)) (hs : step s (.complete i out) = some s') :
    Reading d s' := by
  by_cases hout : ∃ data, out = .received data
  · obtain ⟨data, rfl⟩ := hout
    obtain ⟨before, t, after, res, hops, hres, rfl⟩ := step_complete hs
    obtain ⟨kind, sock, session⟩ := t
    cases kind with
    | connect rest | write msg sent | wait => exact absurd hres (by simp [Outcome.result?])
    | read =>
      have hlen : data.length ≤ 1024 := by
        by_contra hno
        simp [Outcome.result?, hno] at hres
      obtain rfl : .ok data.length = res := by simpa [Outcome.result?, hlen] using hres
      exact h.receive hlen hops hok
  · have hin : InSession s' := by
      obtain ⟨before, t, after, res, hops, hres, rfl⟩ := step_complete hs
      exact h.toInSession.of_eq (by simp) (by simp) (by simp)
    exact h.noRead (noRead_complete (fun data heq => hout ⟨data, heq⟩) hs) hin

/-- Every step of the session keeps the invariant, if it is not stale. -/
theorem step_reading (h : Reading d s) {l : Label} (hb : OneReader s l) (hok : NotStale s l)
    (hs : step s l = some s') : Reading (handOver s l d) s' := by
  obtain ⟨hb, hset⟩ := hb
  cases l with
  | start env => exact absurd hb h.started
  | stop => exact hb.elim
  | setMessageCallback set => exact absurd hset h.started
  | send thread msg =>
    obtain rfl := Option.some.inj hs
    have hpost : NoRead s (post (.send thread msg) s) := .of_eq rfl rfl rfl rfl rfl
    exact h.noRead (hpost.trans (noRead_emit rfl _)) (h.toInSession.send thread msg)
  | setStatusCallback set =>
    obtain rfl := Option.some.inj hs
    exact h.noRead (.of_eq rfl rfl rfl rfl rfl) (h.toInSession.of_eq rfl rfl rfl)
  | complete i out => exact reading_complete h hok hs
  | runPosted env =>
    obtain ⟨c, rest, hposted, rfl⟩ := step_runPosted hs
    obtain ⟨⟨thread, msg, rfl⟩, hin⟩ := h.toInSession.next hposted
    have hrest : NoRead s { s with posted := rest } := .of_eq rfl rfl rfl rfl rfl
    have hw := onlyWrites_send env thread msg { s with posted := rest }
    exact h.noRead (hrest.trans (noRead_of_onlyWrites hw)) (hin.writes hw)
  | runOp i env => exact reading_runOp h hb hok hs

end Reading

/-! ## Runs -/

/-- The client before its start, with nothing received, or a session that reads. -/
def ReadingInv (d : List (Socket × Bytes)) (s : State) : Prop :=
  (BeforeStart s ∧ d = [] ∧ s.log.all (!·.concernsRead) = true) ∨ Reading d s

theorem reading_start {s : State} (h : BeforeStart s)
    (hlog : s.log.all (!·.concernsRead) = true) (env : Env) :
    Reading [] (conclude (start env s)) := by
  have hin : InSession { s with stopped := false, session := s.session + 1 } :=
    ⟨rfl, Nat.succ_ne_zero _, h.posted⟩
  have hn := (noRead_start env s).trans (noRead_conclude _)
  have hadds : Adds (!·.concernsRead) init s := ⟨s.log, rfl, by simpa using hlog⟩
  refine ⟨(connects_doConnect hin env).conclude.inSession, ?_, ?_, ?_, fun _ => rfl⟩
  · intro fd
    have hle := hn.chains fd
    rw [h.ops, List.countP_nil] at hle
    unfold opened at hle
    split at hle <;> split <;> omega
  · exact (messages_of_adds hn.adds).trans (messages_of_adds hadds)
  · intro _ fd
    have hdone : (conclude (start env s)).ops.filter readDone = [] := by rw [hn.done, h.ops]; rfl
    rw [arrivedOn_of_adds hn.adds, arrivedOn_of_adds hadds]
    unfold queued
    rw [hdone]
    rfl

theorem step_readingInv {s s' : State} {l : Label} {d : List (Socket × Bytes)}
    (h : ReadingInv d s) (hb : OneReader s l) (hok : NotStale s l) (hs : step s l = some s') :
    ReadingInv (handOver s l d) s' := by
  rcases h with ⟨h, rfl, hlog⟩ | h
  · have hno : handOver s l [] = [] := by
      unfold handOver
      split
      · rename_i t r hran
        split
        · rename_i hc
          simp [h.stopped] at hc
        · rfl
      · rfl
    rw [hno]
    rcases step_beforeStart h hb.1 hs with ⟨env, -, rfl⟩ | ⟨h', -, es, hes, hroutine⟩
    · exact Or.inr (reading_start h hlog env)
    · refine Or.inl ⟨h', rfl, ?_⟩
      rw [hes, List.all_append, hlog, Bool.true_and]
      apply List.all_eq_true.mpr
      intro e he
      have := hroutine e he
      cases e <;> first | rfl | exact absurd this (by simp [Event.isRoutine, Event.byHandler])
  · exact Or.inr (step_reading h hb hok hs)

theorem streamIntact_of_inv {s : State} {d : List (Socket × Bytes)} (h : ReadingInv d s) :
    StreamIntact d s := by
  rcases h with ⟨h, rfl, hlog⟩ | h
  · have hadds : Adds (!·.concernsRead) init s := ⟨s.log, rfl, by simpa using hlog⟩
    refine ⟨by rw [h.ops]; simp, messages_of_adds hadds, ?_⟩
    intro fd
    exact List.nil_prefix
  · refine ⟨?_, h.messages, fun fd => ?_⟩
    · cases hfd : s.socket.fd with
      | none =>
        have hnone : s.ops.countP (readOn s.socket) = 0 :=
          List.countP_eq_zero.mpr fun op _ => by simp [readOn, Socket.isOpen, hfd]
        omega
      | some fd =>
        have hle := h.chains fd
        have hmono : s.ops.countP (readOn s.socket) ≤ s.ops.countP (inChain fd) := by
          apply List.countP_mono_left
          intro op _ hop
          simp only [readOn, hfd, Bool.and_eq_true] at hop
          simp [inChain, hop.2.1, hop.2.2]
        split at hle <;> omega
    · cases hcb : s.onMessage with
      | true =>
        rw [← h.arrived hcb fd]
        exact List.prefix_append _ _
      | false =>
        rw [h.silent hcb]
        exact List.nil_prefix

/-- **The received stream.** In every run of one session in which no handler of a read or connect
is stale and no unhandled bytes are overwritten, at most one read is outstanding or unhandled on
the open socket, and what `on_message_` has been given of each connection is a prefix of what has
arrived on it. -/
theorem stream_intact_unless_stale (ls : List Label) (s : State)
    (h : Run step (fun s l => OneReader s l ∧ NotStale s l) init ls s) :
    StreamIntact (handedOver ls) s := by
  have hinit : ReadingInv [] init := Or.inl ⟨beforeStart_init, rfl, rfl⟩
  exact streamIntact_of_inv (h.invariant_tally (I := fun s d => ReadingInv d s) hinit
    fun s d l s' hI hok hs => step_readingInv hI hok.1 hok.2 hs)

/-- A connection that is read until the server closes it, and a second one. -/
def readsTwo : List Label :=
  [.setMessageCallback true, .start {}, .complete 0 .connected, .runOp 0 {},
    .complete 0 (.received [97, 98]), .runOp 0 {}, .complete 0 (.received [99]), .runOp 0 {},
    .complete 0 (.failed .eof), .runOp 0 {}, .complete 0 .expired, .runOp 0 {},
    .complete 0 .connected, .runOp 0 {}, .complete 0 (.received [100]), .runOp 0 {}]

theorem stream_intact_unless_stale_readsTwo :
    handedOver readsTwo = [(⟨0, some 0⟩, [97, 98]), (⟨0, some 0⟩, [99]), (⟨1, some 1⟩, [100])] ∧
      StreamIntact [(⟨0, some 0⟩, [97, 98]), (⟨0, some 0⟩, [99]), (⟨1, some 1⟩, [100])]
        (reached step (fun s l => OneReader s l ∧ NotStale s l) init readsTwo) := by
  have hparts : handedOver readsTwo =
      [(⟨0, some 0⟩, [97, 98]), (⟨0, some 0⟩, [99]), (⟨1, some 1⟩, [100])] := by decide
  refine ⟨hparts, ?_⟩
  rw [← hparts]
  exact stream_intact_unless_stale readsTwo _ (run_reached (by decide))

/-- A write fails while the read on the same connection has succeeded: the wait it arms expires
and replaces `socket_`, and only then the read is handled. -/
def readsAcross : List Label :=
  [.setMessageCallback true, .start {}, .complete 0 .connected, .runOp 0 {}, .send 0 [120],
    .runPosted {}, .complete 1 (.failed .connectionReset), .runOp 1 {},
    .complete 0 (.received [97]), .complete 1 .expired, .runOp 1 {}, .complete 1 .connected,
    .runOp 0 {}, .runOp 0 {}]

/-- Two reads are outstanding on the new connection. -/
theorem not_stream_intact : ¬ ∀ (ls : List Label) (s : State), Run step OneReader init ls s →
    StreamIntact (handedOver ls) s := by
  intro h
  have hrun : Run step OneReader init readsAcross (reached step OneReader init readsAcross) :=
    run_reached (by decide)
  exact absurd (h _ _ hrun).oneRead (by decide)

end AsioLearn.TcpClient
