import AsioLearn.TcpClient.Frames

/-!
# Steps that concern no write

`SameQueue` says that a step leaves `write_msgs_` and the writes in progress alone; `NoWrite`
says moreover that it writes nothing, and what it may do to `socket_` under a write that is
outstanding: closing the descriptor aborts it. All of the client but `do_write`, the write
handlers and the completion of writes is of this kind.
-/

namespace AsioLearn.TcpClient

open Proactor

/-! ## What the log says about the queue -/

def Event.accepted? : Event → Option (ℕ × Bytes)
  | .accepted thread msg => some (thread, msg)
  | _ => none

def Event.writeStarted? : Event → Option Bytes
  | .writeStarted msg => some msg
  | _ => none

def Event.wrote? : Event → Option (Socket × Bytes)
  | .wrote sock bytes => some (sock, bytes)
  | _ => none

def Event.sendPosted? : Event → Option (ℕ × Bytes)
  | .sendPosted thread msg => some (thread, msg)
  | _ => none

def Kind.writes? : Kind → Option Bytes
  | .write msg _ => some msg
  | _ => none

def Posted.send? : Posted → Option (ℕ × Bytes)
  | .send thread msg => some (thread, msg)
  | .close _ => none

/-- The messages accepted, each with the thread that sent it. -/
def accepted (s : State) : List (ℕ × Bytes) := s.log.filterMap Event.accepted?

/-- The messages for which `async_write` has been called. -/
def started (s : State) : List Bytes := s.log.filterMap Event.writeStarted?

/-- The messages `send()` was called with, in posting order. -/
def sendsPosted (s : State) : List (ℕ × Bytes) := s.log.filterMap Event.sendPosted?

/-- The messages whose closures have not run yet. -/
def pendingSends (s : State) : List (ℕ × Bytes) := s.posted.filterMap Posted.send?

/-- The messages of the `async_write`s that are outstanding or whose handler has not run. -/
def writers (s : State) : List Bytes := (s.ops.map Op.task).filterMap (·.kind.writes?)

/-- What has been written, each part with the socket it went to. -/
def wrotes (s : State) : List (Socket × Bytes) := s.log.filterMap Event.wrote?

/-! ## What leaves the queue alone -/

/-- The two states have the same queue, writes, and history of both; the messages sent in
between wait in posting order. -/
structure SameQueue (s s' : State) : Prop where
  writers : writers s' = writers s
  writeMsgs : s'.writeMsgs = s.writeMsgs
  accepted : accepted s' = accepted s
  started : started s' = started s
  posts : ∃ sent, pendingSends s' = pendingSends s ++ sent ∧ sendsPosted s' = sendsPosted s ++ sent

theorem SameQueue.refl (s : State) : SameQueue s s :=
  ⟨rfl, rfl, rfl, rfl, [], (List.append_nil _).symm, (List.append_nil _).symm⟩

theorem SameQueue.trans {s t u : State} (h : SameQueue s t) (h' : SameQueue t u) :
    SameQueue s u := by
  obtain ⟨sent, hp, hs⟩ := h.posts
  obtain ⟨sent', hp', hs'⟩ := h'.posts
  refine ⟨h'.writers.trans h.writers, h'.writeMsgs.trans h.writeMsgs,
    h'.accepted.trans h.accepted, h'.started.trans h.started, sent ++ sent', ?_, ?_⟩
  · rw [hp', hp, List.append_assoc]
  · rw [hs', hs, List.append_assoc]

theorem sameQueue_of_eq {s s' : State} (hops : s'.ops.map Op.task = s.ops.map Op.task)
    (hq : s'.writeMsgs = s.writeMsgs) (hlog : s'.log = s.log) (hposted : s'.posted = s.posted) :
    SameQueue s s' := by
  refine ⟨?_, hq, ?_, ?_, [], ?_, ?_⟩
  · unfold writers; rw [hops]
  · unfold accepted; rw [hlog]
  · unfold started; rw [hlog]
  · unfold pendingSends; rw [hposted, List.append_nil]
  · unfold sendsPosted; rw [hlog, List.append_nil]

/-- Recording an event that is neither a send, nor an acceptance, nor the start of a write. -/
theorem sameQueue_emit {e : Event} (ha : e.accepted? = none) (hw : e.writeStarted? = none)
    (hp : e.sendPosted? = none) (s : State) : SameQueue s (emit e s) := by
  refine ⟨rfl, rfl, ?_, ?_, [], (List.append_nil _).symm, ?_⟩
  · simp [accepted, emit, ha]
  · simp [started, emit, hw]
  · simp [sendsPosted, emit, hp]

theorem sameQueue_deliver (out : Outcome) (t : Task) (s : State) :
    SameQueue s (out.deliver t s) := by
  unfold Outcome.deliver
  split
  · rename_i data _
    have h : SameQueue s { s with readBuf := s.readBuf.fill data } :=
      sameQueue_of_eq rfl rfl rfl rfl
    exact h.trans (sameQueue_emit rfl rfl rfl _)
  · exact sameQueue_emit rfl rfl rfl s
  · exact .refl s

/-- The completion of an operation, a write or another one. -/
theorem sameQueue_complete {s s' : State} {i : ℕ} {out : Outcome}
    (h : step s (.complete i out) = some s') : SameQueue s s' := by
  obtain ⟨l, t, r, res, hops, -, rfl⟩ := step_complete h
  have hset : SameQueue s { s with ops := l ++ ⟨t, some res⟩ :: r } :=
    sameQueue_of_eq (by simp [hops]) rfl rfl rfl
  exact hset.trans (sameQueue_deliver out t _)

/-! ## What leaves the wire alone -/

/-- `socket_` holds the same object and descriptor, or ones never used before. -/
structure SocketMoved (s s' : State) : Prop where
  nextInst : s.nextInst ≤ s'.nextInst
  nextFd : s.nextFd ≤ s'.nextFd
  inst : s'.socket.inst = s.socket.inst ∨
    (s.nextInst ≤ s'.socket.inst ∧ s'.socket.inst < s'.nextInst)
  fd : s'.socket.fd = s.socket.fd ∨
    ∀ fd, s'.socket.fd = some fd → s.nextFd ≤ fd ∧ fd < s'.nextFd

theorem SocketMoved.of_eq {s s' : State} (hsock : s'.socket = s.socket)
    (hinst : s'.nextInst = s.nextInst) (hfd : s'.nextFd = s.nextFd) : SocketMoved s s' :=
  ⟨by omega, by omega, Or.inl (by rw [hsock]), Or.inl (by rw [hsock])⟩

theorem SocketMoved.refl (s : State) : SocketMoved s s := .of_eq rfl rfl rfl

theorem SocketMoved.trans {s t u : State} (h : SocketMoved s t) (h' : SocketMoved t u) :
    SocketMoved s u := by
  have hinst := h.nextInst
  have hinst' := h'.nextInst
  have hfd := h.nextFd
  have hfd' := h'.nextFd
  refine ⟨by omega, by omega, ?_, ?_⟩
  · rcases h'.inst with he | ⟨hle, hlt⟩
    · rcases h.inst with he' | ⟨hle, hlt⟩
      · exact Or.inl (he.trans he')
      · exact Or.inr (by omega)
    · exact Or.inr (by omega)
  · rcases h'.fd with he | hnew
    · rcases h.fd with he' | hnew
      · exact Or.inl (he.trans he')
      · apply Or.inr
        intro fd hs
        have := hnew fd (he.symm.trans hs)
        omega
    · apply Or.inr
      intro fd hs
      have := hnew fd hs
      omega

/-- The operation has completed with an error. -/
def hasFailed (op : Op Task Result) : Bool := op.result.any (·.ec.isSome)

/-- Nothing is begun or written, and a write that has not completed loses its socket only by
failing. -/
structure SameWire (s s' : State) : Prop where
  started : started s' = started s
  wrotes : wrotes s' = wrotes s
  moved : SocketMoved s s'
  writes : ∀ op ∈ s'.ops, op.task.kind.isWrite = true → hasFailed op = true ∨
    (op ∈ s.ops ∧ (op.result = none → op.task.on s.socket = true → s'.socket = s.socket))

theorem sameWire_of_eq {s s' : State} (hops : ∀ op ∈ s'.ops, op ∈ s.ops)
    (hs : TcpClient.started s' = TcpClient.started s)
    (hw : TcpClient.wrotes s' = TcpClient.wrotes s) (hsock : s'.socket = s.socket)
    (hinst : s'.nextInst = s.nextInst) (hfd : s'.nextFd = s.nextFd) : SameWire s s' :=
  ⟨hs, hw, .of_eq hsock hinst hfd, fun op hop _ => Or.inr ⟨hops op hop, fun _ _ => hsock⟩⟩

/-- The queue and the wire are left alone. -/
structure NoWrite (s s' : State) : Prop extends SameQueue s s', SameWire s s'

theorem NoWrite.refl (s : State) : NoWrite s s :=
  ⟨.refl s, rfl, .refl s, fun _ hop _ => Or.inr ⟨hop, fun _ _ => rfl⟩⟩

theorem NoWrite.trans {s t u : State} (h : NoWrite s t) (h' : NoWrite t u) : NoWrite s u := by
  refine ⟨h.toSameQueue.trans h'.toSameQueue, h'.wrotes.trans h.wrotes, h.moved.trans h'.moved, ?_⟩
  intro op hop hw
  rcases h'.writes op hop hw with hr | ⟨hop', hsame'⟩
  · exact Or.inl hr
  · rcases h.writes op hop' hw with hr | ⟨hop'', hsame⟩
    · exact Or.inl hr
    · refine Or.inr ⟨hop'', ?_⟩
      intro hr hon
      have hts := hsame hr hon
      exact (hsame' hr (hts ▸ hon)).trans hts

/-- Fields that are about neither operations nor the socket. -/
theorem noWrite_fields (s : State) (st : Status) (delay session : ℕ) (stopped : Bool) :
    NoWrite s { s with
      currentStatus := st, reconnectDelay := delay, session := session, stopped := stopped } :=
  ⟨sameQueue_of_eq rfl rfl rfl rfl, rfl, .of_eq rfl rfl rfl,
    fun _ hop _ => Or.inr ⟨hop, fun _ _ => rfl⟩⟩

theorem noWrite_emit {e : Event} (ha : e.accepted? = none) (hw : e.writeStarted? = none)
    (hp : e.sendPosted? = none) (hb : e.wrote? = none) (s : State) : NoWrite s (emit e s) :=
  ⟨sameQueue_emit ha hw hp s, by simp [TcpClient.wrotes, emit, hb], .of_eq rfl rfl rfl,
    fun _ hop _ => Or.inr ⟨hop, fun _ _ => rfl⟩⟩

theorem Kind.writes?_eq_none {k : Kind} (h : k.writes? = none) : k.isWrite = false := by
  cases k with
  | write msg sent => exact absurd h (by simp [Kind.writes?])
  | connect rest | read | wait => rfl

/-- Starting an operation that is not a write. -/
theorem noWrite_addOp {op : Op Task Result} (h : op.task.kind.writes? = none) (s : State) :
    NoWrite s (addOp op s) := by
  have hqueue : SameQueue s (addOp op s) :=
    ⟨by simp [writers, addOp, h], rfl, rfl, rfl, (SameQueue.refl s).posts⟩
  refine ⟨hqueue, rfl, .of_eq rfl rfl rfl, ?_⟩
  intro op' hop hw
  rcases List.mem_append.mp hop with hop | hop
  · exact Or.inr ⟨hop, fun _ _ => rfl⟩
  · rw [List.mem_singleton.mp hop] at hw
    exact absurd hw (by simp [Kind.writes?_eq_none h])

/-- Client methods called by a callback. -/
theorem noWrite_calls (calls : List Call) (s : State) :
    NoWrite s (calls.foldl (fun s c => c.run s) s) := by
  induction calls generalizing s with
  | nil => exact .refl s
  | cons c calls ih =>
    refine NoWrite.trans ?_ (ih (c.run s))
    cases c with
    | stop =>
      refine ⟨⟨rfl, rfl, rfl, rfl, [], ?_, (List.append_nil _).symm⟩, rfl, .of_eq rfl rfl rfl,
        fun op hop _ => Or.inr ⟨hop, fun _ _ => rfl⟩⟩
      simp [pendingSends, Call.run, TcpClient.stop, close, post, Posted.send?]
    | send thread msg =>
      refine ⟨⟨rfl, rfl, ?_, ?_, [(thread, msg)], ?_, ?_⟩, ?_, .of_eq rfl rfl rfl,
        fun op hop _ => Or.inr ⟨hop, fun _ _ => rfl⟩⟩
      · simp [accepted, Call.run, TcpClient.send, emit, post, Event.accepted?]
      · simp [started, Call.run, TcpClient.send, emit, post, Event.writeStarted?]
      · simp [pendingSends, Call.run, TcpClient.send, emit, post, Posted.send?]
      · simp [sendsPosted, Call.run, TcpClient.send, emit, post, Event.sendPosted?]
      · simp [wrotes, Call.run, TcpClient.send, emit, post, Event.wrote?]

theorem noWrite_startOp {kind : Kind} (h : kind.writes? = none) (session : ℕ) (s : State) :
    NoWrite s (startOp kind session s) :=
  noWrite_addOp h s

/-- An abort of the operations on the descriptor that `socket_` has open. -/
theorem writes_abort_on (s : State) : ∀ op ∈ abort (·.on s.socket) .aborted s.ops,
    hasFailed op = true ∨
      (op ∈ s.ops ∧ (op.result = none → op.task.on s.socket = false)) := by
  intro op hop
  rcases mem_abort (fun t : Task => t.on s.socket) Result.aborted hop with
    ⟨hmem, hsome⟩ | ⟨-, hr, -⟩
  · refine Or.inr ⟨hmem, ?_⟩
    intro hr
    rw [← Bool.not_eq_true]
    intro hon
    exact absurd (hsome hon) (by simp [hr])
  · exact Or.inl (by rw [hasFailed, hr]; rfl)

theorem noWrite_closeSocket (s : State) : NoWrite s (closeSocket s) := by
  refine ⟨sameQueue_of_eq (map_task_abort _ _ _) rfl rfl rfl, rfl, ?_, ?_⟩
  · exact ⟨Nat.le_refl _, Nat.le_refl _, Or.inl rfl,
      Or.inr fun fd h => absurd h (by simp [closeSocket])⟩
  · intro op hop _
    rcases writes_abort_on s op hop with hr | ⟨hmem, hoff⟩
    · exact Or.inl hr
    · exact Or.inr ⟨hmem, fun hr hon => absurd hon (by simp [hoff hr])⟩

theorem noWrite_replaceSocket (s : State) : NoWrite s (replaceSocket s) := by
  refine ⟨sameQueue_of_eq (map_task_abort _ _ _) rfl rfl rfl, rfl, ?_, ?_⟩
  · exact ⟨Nat.le_succ _, Nat.le_refl _, Or.inr ⟨Nat.le_refl _, Nat.lt_succ_self _⟩,
      Or.inr fun fd h => absurd h (by simp [replaceSocket])⟩
  · intro op hop _
    rcases writes_abort_on s op hop with hr | ⟨hmem, hoff⟩
    · exact Or.inl hr
    · exact Or.inr ⟨hmem, fun hr hon => absurd hon (by simp [hoff hr])⟩

theorem noWrite_openSocket {s : State} (h : s.socket.isOpen = false) :
    NoWrite s (openSocket s) := by
  refine ⟨sameQueue_of_eq rfl rfl rfl rfl, rfl, ?_, fun op hop _ => Or.inr ⟨hop, fun _ hon => ?_⟩⟩
  · refine ⟨Nat.le_refl _, Nat.le_succ _, Or.inl rfl, Or.inr ?_⟩
    intro fd hfd
    obtain rfl : s.nextFd = fd := Option.some.inj hfd
    exact ⟨Nat.le_refl _, Nat.lt_succ_self _⟩
  · exact absurd hon (by simp [Task.on, h])

theorem noWrite_expiresAfter (s : State) : NoWrite s (expiresAfter s) := by
  refine ⟨sameQueue_of_eq (by simp [expiresAfter]) rfl rfl rfl, rfl, .of_eq rfl rfl rfl, ?_⟩
  intro op hop _
  rcases mem_abort (fun t : Task => t.kind.isWait) Result.aborted hop with ⟨hmem, -⟩ | ⟨-, hr, -⟩
  · exact Or.inr ⟨hmem, fun _ _ => rfl⟩
  · exact Or.inl (by rw [hasFailed, hr]; rfl)

theorem noWrite_asyncConnect (env : Env) (rest : List Endpoint) (session : ℕ) (s : State) :
    NoWrite s (asyncConnect env rest session s) := by
  unfold asyncConnect
  split
  · exact noWrite_addOp rfl s
  · rename_i hopen
    split
    · exact noWrite_addOp rfl s
    · exact (noWrite_openSocket (by simpa using hopen)).trans (noWrite_addOp rfl _)

theorem noWrite_rangeConnect (env : Env) (rest : List Endpoint) (session : ℕ) (s : State) :
    NoWrite s (rangeConnect env rest session s) :=
  (noWrite_closeSocket s).trans (noWrite_asyncConnect env rest session _)

theorem noWrite_invoke (cb : Callback) (s : State) : NoWrite s (catchAll (cb.invoke s)) :=
  noWrite_calls cb.calls s

theorem noWrite_setStatus (st : Status) (info : Info) (cb : Callback) (s : State) :
    NoWrite s (setStatus st info cb s) := by
  have h : NoWrite s { s with currentStatus := st } := noWrite_fields s st _ _ _
  have h' : NoWrite s (emit (.status st info) { s with currentStatus := st }) :=
    h.trans (noWrite_emit rfl rfl rfl rfl _)
  rw [setStatus_cases]
  split
  · exact (h'.trans (noWrite_emit rfl rfl rfl rfl _)).trans (noWrite_invoke cb _)
  · exact h'

theorem noWrite_doConnect (env : Env) (s : State) : NoWrite s (doConnect env s).2 := by
  unfold doConnect
  split
  · exact .refl s
  · split
    · exact .refl s
    · exact (noWrite_emit rfl rfl rfl rfl s).trans (noWrite_rangeConnect env _ _ _)

theorem noWrite_scheduleReconnect (cb : Callback) (s : State) :
    NoWrite s (scheduleReconnect cb s) := by
  unfold scheduleReconnect
  split
  · exact .refl s
  · exact (((noWrite_setStatus _ _ cb s).trans (noWrite_expiresAfter _)).trans
      (noWrite_emit rfl rfl rfl rfl _)).trans (noWrite_addOp rfl _)

/-- Reporting a failure and scheduling the reconnection. -/
theorem noWrite_report (st : Status) (info : Info) (env : Env) (s : State) :
    NoWrite s (scheduleReconnect env.onStatus2 (setStatus st info env.onStatus s)) :=
  (noWrite_setStatus st info _ s).trans (noWrite_scheduleReconnect _ _)

theorem noWrite_doRead (s : State) : NoWrite s (doRead s) := by
  unfold doRead
  split
  · exact .refl s
  · exact (noWrite_emit rfl rfl rfl rfl s).trans (noWrite_startOp rfl _ _)

theorem noWrite_start (env : Env) (s : State) : NoWrite s (start env s).2 := by
  have h : NoWrite s { s with stopped := false, session := s.session + 1 } :=
    noWrite_fields s _ _ _ _
  exact h.trans (noWrite_doConnect env _)

theorem noWrite_connectHandler (env : Env) (sock : Socket) (ec : Option ErrorCode)
    (s : State) : NoWrite s (connectHandler env sock ec s) := by
  unfold connectHandler
  split
  · exact .refl s
  · split
    · have h : NoWrite s { s with reconnectDelay := 1 } := noWrite_fields s _ 1 _ _
      exact ((h.trans (noWrite_emit rfl rfl rfl rfl _)).trans (noWrite_setStatus _ _ _ _)).trans
        (noWrite_doRead _)
    · exact noWrite_report _ _ env s

theorem noWrite_connectResume (env : Env) (t : Task) (rest : List Endpoint)
    (ec : Option ErrorCode) (s : State) : NoWrite s (connectResume env t rest ec s) := by
  unfold connectResume
  split
  · split
    · exact noWrite_connectHandler env _ _ s
    · exact noWrite_connectHandler env _ _ s
    · exact noWrite_rangeConnect env _ _ s
  · exact noWrite_connectHandler env _ _ s

theorem noWrite_readHandler (env : Env) (r : Result) (s : State) :
    NoWrite s (readHandler env r s) := by
  unfold readHandler
  split
  · exact .refl s
  · split
    · refine NoWrite.trans ?_ (noWrite_doRead _)
      split
      · exact (noWrite_emit rfl rfl rfl rfl s).trans (noWrite_invoke _ _)
      · exact .refl s
    · split
      · exact noWrite_report _ _ env s
      · exact noWrite_report _ _ env s

theorem noWrite_waitHandler (env : Env) (ec : Option ErrorCode) (s : State) :
    NoWrite s (waitHandler env ec s).2 := by
  unfold waitHandler
  split
  · have h := (noWrite_replaceSocket s).trans (noWrite_doConnect env (replaceSocket s))
    split
    · rename_i heq
      rw [heq] at h
      exact h.trans (noWrite_fields _ _ _ _ _)
    · rename_i heq
      rw [heq] at h
      exact h
  · exact .refl s

theorem noWrite_conclude (r : Exit × State) : NoWrite r.2 (conclude r) := by
  obtain ⟨exit, s⟩ := r
  cases exit with
  | returned => exact .refl s
  | threw => exact noWrite_emit rfl rfl rfl rfl s

/-- The pool without an operation that is not a write. -/
theorem noWrite_remove {s : State} {l r : List (Op Task Result)} {op : Op Task Result}
    (hops : s.ops = l ++ op :: r) (hk : op.task.kind.writes? = none) :
    NoWrite s { s with ops := l ++ r } := by
  refine ⟨⟨?_, rfl, rfl, rfl, (SameQueue.refl s).posts⟩, rfl, .of_eq rfl rfl rfl, ?_⟩
  · simp [writers, hops, hk]
  · intro op hop _
    exact Or.inr ⟨by rw [hops]; exact mem_of_mem_rest hop, fun _ _ => rfl⟩

/-- The handler of an operation that is not a write. -/
theorem noWrite_runHandler (env : Env) {t : Task} (hk : t.kind.writes? = none) (res : Result)
    (s : State) : NoWrite s (runHandler env t res s).2 := by
  unfold runHandler
  split
  · exact noWrite_connectResume env t _ _ s
  · exact noWrite_readHandler env res s
  · rename_i hkind
    rw [hkind] at hk
    exact absurd hk (by simp [Kind.writes?])
  · exact noWrite_waitHandler env _ s

theorem noWrite_runClose (env : Env) (session : ℕ) (s : State) :
    NoWrite s (runPosted env (.close session) s) := by
  show NoWrite s (if s.socket.isOpen then
    setStatus .disconnected .clientClosed env.onStatus (closeSocket s) else s)
  split
  · exact (noWrite_closeSocket s).trans (noWrite_setStatus _ _ _ _)
  · exact .refl s

/-- The completion of an operation without bytes written. -/
theorem noWrite_complete {s s' : State} {i : ℕ} {out : Outcome} (hout : ∀ n, out ≠ .wrote n)
    (h : step s (.complete i out) = some s') : NoWrite s s' := by
  have hq := sameQueue_complete h
  obtain ⟨l, t, r, res, hops, hres, rfl⟩ := step_complete h
  refine ⟨hq, ?_, ?_, ?_⟩
  · unfold Outcome.deliver
    split
    · simp [wrotes, emit, Event.wrote?]
    · exact absurd rfl (hout _)
    · rfl
  · obtain ⟨buf, es, heq⟩ := deliver_eq out t { s with ops := l ++ ⟨t, some res⟩ :: r }
    rw [heq]
    exact .of_eq rfl rfl rfl
  · intro op hop hw
    rw [deliver_ops] at hop
    rw [deliver_socket]
    have hrest : op ∈ l ++ r → op ∈ s.ops := fun hmem => by rw [hops]; exact mem_of_mem_rest hmem
    rcases List.mem_append.mp hop with hop | hop
    · exact Or.inr ⟨hrest (List.mem_append_left _ hop), fun _ _ => rfl⟩
    · rcases List.mem_cons.mp hop with rfl | hop
      · left
        obtain ⟨kind, sock, session⟩ := t
        cases kind with
        | connect rest | read | wait => exact absurd hw (by simp [Kind.isWrite])
        | write msg sent =>
          cases out with
          | failed ec =>
            obtain rfl := Option.some.inj hres
            rfl
          | wrote n => exact absurd rfl (hout n)
          | connected | received data | expired => exact absurd hres (by simp [Outcome.result?])
      · exact Or.inr ⟨hrest (List.mem_append_right _ hop), fun _ _ => rfl⟩

end AsioLearn.TcpClient
