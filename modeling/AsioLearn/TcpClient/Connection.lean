import AsioLearn.TcpClient.Frames

/-!
# The functions that make and lose the connection

What `do_connect`, `do_read` and `schedule_reconnect` do to the operations and to `socket_`, and
which functions record routine events only. The results about the connection are proved from these
equations.
-/

namespace AsioLearn.TcpClient

open Proactor

/-! ## What is recorded -/

/-- The log only grows, by events of the kind `p`. -/
def Adds (p : Event → Bool) (s s' : State) : Prop :=
  ∃ es, s'.log = s.log ++ es ∧ ∀ e ∈ es, p e = true

section Adds

variable {p q : Event → Bool} {s t u : State}

theorem adds_of_log_eq (h : t.log = s.log) : Adds p s t :=
  ⟨[], by rw [h, List.append_nil], fun _ h => absurd h List.not_mem_nil⟩

theorem Adds.refl (s : State) : Adds p s s := adds_of_log_eq rfl

theorem Adds.trans (h : Adds p s t) (h' : Adds p t u) : Adds p s u := by
  obtain ⟨es, hes, hq⟩ := h
  obtain ⟨es', hes', hq'⟩ := h'
  refine ⟨es ++ es', by rw [hes', hes, List.append_assoc], ?_⟩
  intro e he
  rcases List.mem_append.mp he with he | he
  · exact hq e he
  · exact hq' e he

theorem Adds.mono (hpq : ∀ e, p e = true → q e = true) (h : Adds p s t) : Adds q s t := by
  obtain ⟨es, hes, hp⟩ := h
  exact ⟨es, hes, fun e he => hpq e (hp e he)⟩

theorem Adds.grows (h : Adds p s t) : s.log <+: t.log := by
  obtain ⟨es, hes, -⟩ := h
  exact ⟨es, hes.symm⟩

theorem adds_emit {e : Event} (he : p e = true) (s : State) : Adds p s (emit e s) :=
  ⟨[e], rfl, fun e' he' => by rw [List.mem_singleton.mp he']; exact he⟩

/-- A reader of other events sees no difference. -/
theorem Adds.filterMap {β : Type} {f : Event → Option β} (hf : ∀ e, p e = true → f e = none)
    (h : Adds p s t) : t.log.filterMap f = s.log.filterMap f := by
  obtain ⟨es, hes, hp⟩ := h
  have hnil : es.filterMap f = [] := List.filterMap_eq_nil_iff.mpr fun e he => hf e (hp e he)
  rw [hes, List.filterMap_append, hnil, List.append_nil]

/-- Events of another kind are not added. -/
theorem Adds.mem_iff {e : Event} (he : p e = false) (h : Adds p s t) : e ∈ t.log ↔ e ∈ s.log := by
  obtain ⟨es, hes, hp⟩ := h
  rw [hes, List.mem_append, or_iff_left]
  exact fun hmem => absurd (hp e hmem) (by simp [he])

/-- A connection established and handled stays so while `socket_` does not change. -/
theorem linked_of_grows (h : linked s = true) (hlog : s.log <+: t.log)
    (hsock : t.socket = s.socket) : linked t = true := by
  unfold linked at h ⊢
  simp only [Bool.and_eq_true, List.contains_iff_mem] at h ⊢
  rw [hsock]
  exact ⟨h.1, hlog.subset h.2⟩

end Adds

/-- An event that a handler may record. -/
def Event.byHandler : Event → Bool
  | .wrote _ _ | .received _ _ | .escaped => false
  | _ => true

/-- An event that a handler may record without handing a message to the user. -/
def Event.isRoutine (e : Event) : Bool :=
  match e with
  | .onMessage _ _ => false
  | _ => e.byHandler

abbrev Routine : State → State → Prop := Adds Event.isRoutine

theorem Event.byHandler_of_isRoutine (e : Event) (h : e.isRoutine = true) :
    e.byHandler = true := by
  cases e <;> first | rfl | exact h

theorem routine_invoke (cb : Callback) (s : State) : Routine s (catchAll (cb.invoke s)) := by
  refine ⟨cb.calls.filterMap Call.event?, by rw [catchAll_invoke], ?_⟩
  intro e he
  obtain ⟨c, -, hc⟩ := List.mem_filterMap.mp he
  cases c with
  | stop => exact absurd hc (by simp [Call.event?])
  | send thread msg =>
    obtain rfl : Event.sendPosted thread msg = e := Option.some.inj hc
    rfl

theorem routine_setStatus (st : Status) (info : Info) (cb : Callback) (s : State) :
    Routine s (setStatus st info cb s) := by
  have h : Routine s (emit (.status st info) { s with currentStatus := st }) :=
    adds_emit rfl { s with currentStatus := st }
  rw [setStatus_cases]
  split
  · exact (h.trans (adds_emit rfl _)).trans (routine_invoke cb _)
  · exact h

/-! ## `do_connect` -/

section Connect

variable (env : Env) (rest : List Endpoint) (session : ℕ) (s : State)

/-- A turn of `range_connect_op` closes the descriptor, opens the next one and starts a connect
on it, or lets the connect complete with the error of the opening. -/
theorem rangeConnect_cases :
    (env.openError = none ∧ rangeConnect env rest session s =
      { s with
        ops := abort (·.on s.socket) .aborted s.ops ++
          [⟨⟨.connect rest, ⟨s.socket.inst, some s.nextFd⟩, session⟩, none⟩]
        socket := ⟨s.socket.inst, some s.nextFd⟩
        nextFd := s.nextFd + 1 }) ∨
    (∃ ec, env.openError = some ec ∧ rangeConnect env rest session s =
      { s with
        ops := abort (·.on s.socket) .aborted s.ops ++
          [⟨⟨.connect rest, ⟨s.socket.inst, none⟩, session⟩, some (.error ec)⟩]
        socket := ⟨s.socket.inst, none⟩ }) := by
  cases hopen : env.openError with
  | none => exact Or.inl ⟨rfl, by simp [rangeConnect, asyncConnect, closeSocket, openSocket, addOp,
      Socket.isOpen, hopen]⟩
  | some ec => exact Or.inr ⟨ec, rfl, by simp [rangeConnect, asyncConnect, closeSocket, addOp,
      Socket.isOpen, hopen]⟩

/-- The connect is on the socket it leaves behind. -/
theorem rangeConnect_ops : ∃ res, (rangeConnect env rest session s).ops =
    abort (·.on s.socket) .aborted s.ops ++
      [⟨⟨.connect rest, (rangeConnect env rest session s).socket, session⟩, res⟩] := by
  rcases rangeConnect_cases env rest session s with ⟨-, h⟩ | ⟨ec, -, h⟩ <;> rw [h] <;>
    exact ⟨_, rfl⟩

@[simp] theorem rangeConnect_stopped : (rangeConnect env rest session s).stopped = s.stopped := by
  rcases rangeConnect_cases env rest session s with ⟨-, h⟩ | ⟨ec, -, h⟩ <;> rw [h]

@[simp] theorem rangeConnect_currentStatus :
    (rangeConnect env rest session s).currentStatus = s.currentStatus := by
  rcases rangeConnect_cases env rest session s with ⟨-, h⟩ | ⟨ec, -, h⟩ <;> rw [h]

@[simp] theorem rangeConnect_posted : (rangeConnect env rest session s).posted = s.posted := by
  rcases rangeConnect_cases env rest session s with ⟨-, h⟩ | ⟨ec, -, h⟩ <;> rw [h]

@[simp] theorem rangeConnect_log : (rangeConnect env rest session s).log = s.log := by
  rcases rangeConnect_cases env rest session s with ⟨-, h⟩ | ⟨ec, -, h⟩ <;> rw [h]

@[simp] theorem rangeConnect_session :
    (rangeConnect env rest session s).session = s.session := by
  rcases rangeConnect_cases env rest session s with ⟨-, h⟩ | ⟨ec, -, h⟩ <;> rw [h]

theorem doConnect_of_running (hs : s.stopped = false) :
    (env.resolved = .throws ∧ doConnect env s = (.threw, s)) ∨
    (∃ first rest, env.resolved = .endpoints first rest ∧
      doConnect env s = (.returned, rangeConnect env rest s.session (emit .connectStarted s))) := by
  unfold doConnect
  rw [if_neg (by simp [hs])]
  cases hres : env.resolved with
  | throws => exact Or.inl ⟨rfl, rfl⟩
  | endpoints first rest => exact Or.inr ⟨first, rest, rfl, rfl⟩

theorem routine_doConnect : Routine s (doConnect env s).2 := by
  unfold doConnect
  split
  · exact .refl s
  · split
    · exact .refl s
    · exact (adds_emit rfl s).trans (adds_of_log_eq (rangeConnect_log ..))

theorem routine_start : Routine s (start env s).2 := by
  have h : Routine s { s with stopped := false, session := s.session + 1 } :=
    adds_of_log_eq rfl
  exact h.trans (routine_doConnect env _)

end Connect

/-! ## `do_read`, `do_write` and `schedule_reconnect` -/

theorem doRead_of_running {s : State} (hs : s.stopped = false) :
    doRead s = startOp .read s.session (emit .readStarted s) := by
  unfold doRead
  rw [if_neg (by simp [hs])]

theorem routine_doRead (s : State) : Routine s (doRead s) := by
  unfold doRead
  split
  · exact .refl s
  · exact (adds_emit rfl s).trans (adds_of_log_eq rfl)

@[simp] theorem doRead_stopped (s : State) : (doRead s).stopped = s.stopped := by
  unfold doRead; split <;> rfl

@[simp] theorem doRead_socket (s : State) : (doRead s).socket = s.socket := by
  unfold doRead; split <;> rfl

@[simp] theorem doRead_currentStatus (s : State) : (doRead s).currentStatus = s.currentStatus := by
  unfold doRead; split <;> rfl

@[simp] theorem doRead_posted (s : State) : (doRead s).posted = s.posted := by
  unfold doRead; split <;> rfl

/-- `do_write` at most starts a write of the front message. -/
theorem doWrite_cases (s : State) :
    doWrite s = s ∨ ∃ msg rest, s.writeMsgs = msg :: rest ∧
      doWrite s = startOp (.write msg 0) s.session (emit (.writeStarted msg) s) := by
  unfold doWrite
  split
  · exact Or.inl rfl
  · split
    · exact Or.inl rfl
    · rename_i msg rest hq
      exact Or.inr ⟨msg, rest, hq, rfl⟩

/-- The handler of a finished write that has succeeded goes on with the rest of the queue. -/
theorem writeHandler_ok (env : Env) {s : State} (hs : s.stopped = false) :
    writeHandler env none s = doWrite { s with writeMsgs := s.writeMsgs.tail } := by
  unfold writeHandler
  rw [if_neg (by simp [hs])]
  dsimp only
  split
  · rename_i hempty
    rcases doWrite_cases { s with writeMsgs := s.writeMsgs.tail } with hd | ⟨msg, rest, hq, -⟩
    · exact hd.symm
    · have hq' : s.writeMsgs.tail = msg :: rest := hq
      rw [hq'] at hempty
      exact absurd hempty (by simp)
  · rfl

/-! ## The queue functions and the connection -/

/-- Nothing changes but the queue; writes may be started. -/
def OnlyWrites (s s' : State) : Prop :=
  ∃ q ws es, s' = { s with writeMsgs := q, ops := s.ops ++ ws, log := s.log ++ es } ∧
    (∀ op ∈ ws, op.task.kind.isWrite = true) ∧ ∀ e ∈ es, e.isRoutine = true

theorem onlyWrites_queue (q : List Bytes) (s : State) : OnlyWrites s { s with writeMsgs := q } :=
  ⟨q, [], [], by simp, by simp, by simp⟩

theorem OnlyWrites.refl (s : State) : OnlyWrites s s := onlyWrites_queue s.writeMsgs s

theorem OnlyWrites.trans {s t u : State} (h : OnlyWrites s t) (h' : OnlyWrites t u) :
    OnlyWrites s u := by
  obtain ⟨q, ws, es, rfl, hw, he⟩ := h
  obtain ⟨q', ws', es', rfl, hw', he'⟩ := h'
  refine ⟨q', ws ++ ws', es ++ es', by simp [List.append_assoc], ?_, ?_⟩
  · intro op hop
    rcases List.mem_append.mp hop with hop | hop
    · exact hw op hop
    · exact hw' op hop
  · intro e hmem
    rcases List.mem_append.mp hmem with hmem | hmem
    · exact he e hmem
    · exact he' e hmem

theorem onlyWrites_emit {e : Event} (he : e.isRoutine = true) (s : State) :
    OnlyWrites s (emit e s) :=
  ⟨s.writeMsgs, [], [e], by simp [emit], by simp, by simp [he]⟩

theorem onlyWrites_startOp (msg : Bytes) (sent session : ℕ) (s : State) :
    OnlyWrites s (startOp (.write msg sent) session s) := by
  refine ⟨s.writeMsgs, [⟨⟨.write msg sent, s.socket, session⟩,
    if s.socket.isOpen then none else some (.error .badDescriptor)⟩], [], ?_, ?_, ?_⟩
  · simp [startOp, addOp]
  · simp [Kind.isWrite]
  · simp

theorem onlyWrites_doWrite (s : State) : OnlyWrites s (doWrite s) := by
  rcases doWrite_cases s with h | ⟨msg, rest, -, h⟩
  · rw [h]
    exact .refl s
  · rw [h]
    exact (onlyWrites_emit rfl s).trans (onlyWrites_startOp msg 0 s.session _)

/-- The closure of a `send()`. -/
theorem onlyWrites_send (env : Env) (thread : ℕ) (msg : Bytes) (s : State) :
    OnlyWrites s (runPosted env (.send thread msg) s) := by
  unfold runPosted
  dsimp only
  split
  · exact .refl s
  · have h := (onlyWrites_queue (s.writeMsgs ++ [msg]) s).trans
      (onlyWrites_emit (e := .accepted thread msg) rfl _)
    split
    · exact h
    · exact h.trans (onlyWrites_doWrite _)

/-- The handler of a write step that has not failed. -/
theorem onlyWrites_writeResume (env : Env) (t : Task) (msg : Bytes) (sent : ℕ) {r : Result}
    (hr : r.ec = none) (s : State) : OnlyWrites s (writeResume env t msg sent r s) := by
  unfold writeResume
  rw [hr]
  dsimp only
  split
  · rcases Bool.eq_false_or_eq_true s.stopped with hs | hs
    · have heq : writeHandler env none s = s := if_pos hs
      rw [heq]
      exact .refl s
    · rw [writeHandler_ok env hs]
      exact (onlyWrites_queue s.writeMsgs.tail s).trans (onlyWrites_doWrite _)
  · exact onlyWrites_startOp msg _ t.session s

section Reconnect

variable {cb : Callback} {s : State}

theorem scheduleReconnect_of_stopped (hs : s.stopped = true) : scheduleReconnect cb s = s := by
  unfold scheduleReconnect
  rw [if_pos hs]

theorem scheduleReconnect_of_running (hs : s.stopped = false) :
    scheduleReconnect cb s =
      asyncWait (emit (.waitArmed s.reconnectDelay) (expiresAfter
        (setStatus .reconnecting (.retryIn s.reconnectDelay) cb s))) := by
  unfold scheduleReconnect
  rw [if_neg (by simp [hs])]
  simp only [setStatus_reconnectDelay]

theorem routine_scheduleReconnect (cb : Callback) (s : State) :
    Routine s (scheduleReconnect cb s) := by
  rcases Bool.eq_false_or_eq_true s.stopped with hs | hs
  · rw [scheduleReconnect_of_stopped hs]
    exact .refl s
  · rw [scheduleReconnect_of_running hs]
    refine (routine_setStatus .reconnecting (.retryIn s.reconnectDelay) cb s).trans ?_
    exact adds_emit rfl (expiresAfter _)

/-- A running client that schedules a reconnection has its timer armed once. -/
theorem scheduleReconnect_ops (hs : s.stopped = false) : (scheduleReconnect cb s).ops =
    abort (·.kind.isWait) .aborted s.ops ++ [⟨⟨.wait, s.socket, s.session⟩, none⟩] := by
  rw [scheduleReconnect_of_running hs]
  simp [asyncWait, addOp, emit, expiresAfter]

theorem scheduleReconnect_currentStatus (hs : s.stopped = false) :
    (scheduleReconnect cb s).currentStatus = .reconnecting := by
  rw [scheduleReconnect_of_running hs]
  simp [asyncWait, addOp, emit, expiresAfter]

@[simp] theorem scheduleReconnect_socket : (scheduleReconnect cb s).socket = s.socket := by
  rcases Bool.eq_false_or_eq_true s.stopped with hs | hs
  · rw [scheduleReconnect_of_stopped hs]
  · rw [scheduleReconnect_of_running hs]
    simp [asyncWait, addOp, emit, expiresAfter]

end Reconnect

/-! ## What the handlers record -/

section Handlers

variable (env : Env) (s : State)

theorem routine_report (st : Status) (info : Info) :
    Routine s (scheduleReconnect env.onStatus2 (setStatus st info env.onStatus s)) :=
  (routine_setStatus st info env.onStatus s).trans (routine_scheduleReconnect _ _)

theorem routine_connectHandler (sock : Socket) (ec : Option ErrorCode) :
    Routine s (connectHandler env sock ec s) := by
  unfold connectHandler
  split
  · exact .refl s
  · split
    · have h : Routine s (emit (.connectHandled sock) { s with reconnectDelay := 1 }) :=
        adds_emit rfl { s with reconnectDelay := 1 }
      exact (h.trans (routine_setStatus _ _ _ _)).trans (routine_doRead _)
    · exact routine_report env s _ _

theorem routine_connectResume (t : Task) (rest : List Endpoint) (ec : Option ErrorCode) :
    Routine s (connectResume env t rest ec s) := by
  unfold connectResume
  split
  · split
    · exact routine_connectHandler env s _ _
    · exact routine_connectHandler env s _ _
    · exact adds_of_log_eq (rangeConnect_log ..)
  · exact routine_connectHandler env s _ _

theorem routine_writeResume (t : Task) (msg : Bytes) (sent : ℕ) (r : Result) :
    Routine s (writeResume env t msg sent r s) := by
  cases hr : r.ec with
  | none =>
    obtain ⟨q, ws, es, h, -, he⟩ := onlyWrites_writeResume env t msg sent hr s
    rw [h]
    exact ⟨es, rfl, he⟩
  | some ec =>
    simp only [writeResume, hr, writeHandler]
    split
    · exact .refl s
    · exact routine_report env s _ _

theorem routine_waitHandler (ec : Option ErrorCode) : Routine s (waitHandler env ec s).2 := by
  unfold waitHandler
  split
  · have h : Routine s (doConnect env (replaceSocket s)).2 :=
      routine_doConnect env (replaceSocket s)
    split
    · rename_i heq
      rw [heq] at h
      exact h
    · rename_i heq
      rw [heq] at h
      exact h
  · exact .refl s

/-- Only the handler of a read hands a message to the user. -/
theorem adds_readHandler (r : Result) : Adds Event.byHandler s (readHandler env r s) := by
  have hmono := Event.byHandler_of_isRoutine
  unfold readHandler
  split
  · exact .refl s
  · split
    · refine Adds.trans ?_ ((routine_doRead _).mono hmono)
      split
      · exact (adds_emit rfl s).trans ((routine_invoke env.onMessage _).mono hmono)
      · exact .refl s
    · split
      · exact (routine_report env s _ _).mono hmono
      · exact (routine_report env s _ _).mono hmono

theorem adds_runHandler (t : Task) (r : Result) :
    Adds Event.byHandler s (runHandler env t r s).2 := by
  unfold runHandler
  split
  · exact (routine_connectResume env s t _ r.ec).mono Event.byHandler_of_isRoutine
  · exact adds_readHandler env s r
  · exact (routine_writeResume env s t _ _ r).mono Event.byHandler_of_isRoutine
  · exact (routine_waitHandler env s r.ec).mono Event.byHandler_of_isRoutine

theorem routine_runPosted (c : Posted) : Routine s (runPosted env c s) := by
  cases c with
  | send thread msg =>
    obtain ⟨q, ws, es, h, -, he⟩ := onlyWrites_send env thread msg s
    rw [h]
    exact ⟨es, rfl, he⟩
  | close session =>
    show Routine s (if s.socket.isOpen then
      setStatus .disconnected .clientClosed env.onStatus (closeSocket s) else s)
    split
    · exact routine_setStatus _ _ _ (closeSocket s)
    · exact .refl s

end Handlers

end AsioLearn.TcpClient
