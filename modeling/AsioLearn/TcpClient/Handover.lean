import AsioLearn.TcpClient.Connection

/-!
# How the connection is handed on

In a run with one `start()` and no `stop()` the handler of a connect, a read, a wait or a failed
write ends in one of three ways: it has started the next read, armed the reconnect timer, or gone
on to a new connection. `Reads`, `Rearmed` and `Connects` say what each of them does.
-/

namespace AsioLearn.TcpClient

open Proactor Lts

/-! ## One session -/

/-- No user callback calls `stop()`. -/
def Env.neverStops (env : Env) : Bool :=
  !env.onMessage.stops && (!env.onStatus.stops && !env.onStatus2.stops)

/-- The steps of a run with one `start()` and no `stop()`. -/
def OneSession (s : State) : Label → Prop
  | .start _ => s.session = 0
  | .stop => False
  | .runPosted env | .runOp _ env => env.neverStops = true
  | _ => True

instance (s : State) : ∀ l : Label, Decidable (OneSession s l)
  | .start _ => inferInstanceAs (Decidable (s.session = 0))
  | .stop => isFalse id
  | .runPosted env | .runOp _ env => inferInstanceAs (Decidable (env.neverStops = true))
  | .send _ _ | .setMessageCallback _ | .setStatusCallback _ | .complete _ _ => isTrue trivial

theorem Env.neverStops_iff (env : Env) : env.neverStops = true ↔
    env.onMessage.stops = false ∧ env.onStatus.stops = false ∧ env.onStatus2.stops = false := by
  simp [Env.neverStops]

/-- Between the start and a stop: the client runs and nothing is going to close its socket. -/
structure InSession (s : State) : Prop where
  running : s.stopped = false
  started : s.session ≠ 0
  posted : ∀ c ∈ s.posted, c.isClose = false

theorem InSession.of_eq {s s' : State} (h : InSession s) (hs : s'.stopped = s.stopped)
    (hn : s'.session = s.session) (hp : s'.posted = s.posted) : InSession s' :=
  ⟨hs.trans h.running, hn ▸ h.started, hp ▸ h.posted⟩

theorem posts_isClose {calls : List Call} (h : calls.any Call.isStop = false) (session : ℕ) :
    ∀ c ∈ calls.map (Call.posts session), c.isClose = false := by
  intro c hc
  obtain ⟨call, hcall, rfl⟩ := List.mem_map.mp hc
  have hno : call.isStop = false := by
    simpa using List.any_eq_false.mp h call hcall
  cases call with
  | stop => exact absurd hno (by simp [Call.isStop])
  | send thread msg => rfl

theorem InSession.invoke {s : State} (h : InSession s) {cb : Callback} (hcb : cb.stops = false) :
    InSession (catchAll (cb.invoke s)) := by
  rw [catchAll_invoke]
  refine ⟨by simp [h.running, hcb], h.started, ?_⟩
  intro c hc
  rcases List.mem_append.mp hc with hc | hc
  · exact h.posted c hc
  · exact posts_isClose hcb _ c hc

theorem InSession.setStatus {s : State} (h : InSession s) (st : Status) (info : Info)
    {cb : Callback} (hcb : cb.stops = false) : InSession (setStatus st info cb s) := by
  have h' : InSession (emit (.status st info) { s with currentStatus := st }) :=
    h.of_eq rfl rfl rfl
  rw [setStatus_cases]
  split
  · have h'' : InSession (emit (.onStatus st info)
        (emit (.status st info) { s with currentStatus := st })) := h.of_eq rfl rfl rfl
    exact h''.invoke hcb
  · exact h'

theorem InSession.scheduleReconnect {s : State} (h : InSession s) {cb : Callback}
    (hcb : cb.stops = false) : InSession (scheduleReconnect cb s) := by
  rw [scheduleReconnect_of_running h.running]
  exact (h.setStatus .reconnecting (.retryIn s.reconnectDelay) hcb).of_eq rfl rfl rfl

theorem InSession.rangeConnect {s : State} (h : InSession s) (env : Env) (rest : List Endpoint)
    (session : ℕ) : InSession (rangeConnect env rest session s) :=
  h.of_eq (by simp) (by simp) (by simp)

theorem InSession.doRead {s : State} (h : InSession s) : InSession (doRead s) := by
  rw [doRead_of_running h.running]
  exact h.of_eq rfl rfl rfl

theorem InSession.doWrite {s : State} (h : InSession s) : InSession (doWrite s) := by
  rcases doWrite_cases s with hd | ⟨msg, rest, -, hd⟩
  · rwa [hd]
  · rw [hd]
    exact h.of_eq rfl rfl rfl

theorem InSession.send {s : State} (h : InSession s) (thread : ℕ) (msg : Bytes) :
    InSession (send thread msg s) := by
  refine ⟨h.running, h.started, ?_⟩
  intro c hc
  rcases List.mem_append.mp hc with hc | hc
  · exact h.posted c hc
  · rw [List.mem_singleton.mp hc]
    rfl

/-- The closures of the session are those of sends. -/
theorem InSession.next {s : State} (h : InSession s) {c : Posted} {rest : List Posted}
    (hposted : s.posted = c :: rest) :
    (∃ thread msg, c = .send thread msg) ∧ InSession { s with posted := rest } := by
  have hc : c.isClose = false := h.posted c (by simp [hposted])
  refine ⟨?_, h.running, h.started, fun c hc => h.posted c (by simp [hposted, hc])⟩
  cases c with
  | close session => exact absurd hc (by simp [Posted.isClose])
  | send thread msg => exact ⟨thread, msg, rfl⟩

/-! ## The three ways -/

/-- The statuses reported by `get_status()` while `on_message_` was invoked. -/
def Event.reported? : Event → Option Status
  | .onMessage _ reported => some reported
  | _ => none

def reported (s : State) : List Status := s.log.filterMap Event.reported?

theorem Adds.reported {s s' : State} (h : Routine s s') : reported s' = reported s := by
  apply h.filterMap
  intro e he
  cases e <;> first | rfl | exact absurd he (by simp [Event.isRoutine])

/-- A read has been started on the connection that `socket_` has established. -/
structure Reads (s s' : State) : Prop where
  inSession : InSession s'
  ops : ∃ res, s'.ops = s.ops ++ [⟨⟨.read, s.socket, s.session⟩, res⟩]
  socket : s'.socket = s.socket
  linked : linked s' = true

/-- A failure has been reported and the timer armed: other waits are aborted, the connection is
left as it is. -/
structure Rearmed (s s' : State) : Prop where
  inSession : InSession s'
  ops : s'.ops = abort (·.kind.isWait) .aborted s.ops ++ [⟨⟨.wait, s.socket, s.session⟩, none⟩]
  socket : s'.socket = s.socket
  currentStatus : s'.currentStatus = .reconnecting
  log : Routine s s'

theorem rearmed_report {s : State} (h : InSession s) {env : Env} (henv : env.neverStops = true)
    (st : Status) (info : Info) :
    Rearmed s (scheduleReconnect env.onStatus2 (setStatus st info env.onStatus s)) := by
  obtain ⟨-, hst, hst2⟩ := env.neverStops_iff.mp henv
  have h' := h.setStatus st info hst
  refine ⟨h'.scheduleReconnect hst2, ?_, by simp, scheduleReconnect_currentStatus h'.running, ?_⟩
  · rw [scheduleReconnect_ops h'.running, setStatus_ops, setStatus_socket, setStatus_session]
  · exact (routine_setStatus st info _ s).trans (routine_scheduleReconnect _ _)

/-- The handler of a read or write that has failed arms a wait. -/
theorem rearmed_runFailed {s : State} (h : InSession s) {env : Env}
    (henv : env.neverStops = true) {t : Task} {r : Result}
    (hkind : t.kind.isRead = true ∨ t.kind.isWrite = true) (hec : r.ec.isSome = true) :
    Rearmed s (conclude (runHandler env t r s)) := by
  obtain ⟨ec, hec⟩ := Option.isSome_iff_exists.mp hec
  obtain ⟨kind, sock, session⟩ := t
  cases kind with
  | connect rest | wait => exact absurd hkind (by simp [Kind.isRead, Kind.isWrite])
  | read =>
    simp only [runHandler, conclude, readHandler, h.running, hec, Bool.false_eq_true, if_false]
    split
    · exact rearmed_report h henv _ _
    · exact rearmed_report h henv _ _
  | write msg sent =>
    simp only [runHandler, conclude, writeResume, writeHandler, h.running, hec,
      Bool.false_eq_true, if_false]
    exact rearmed_report h henv _ _

/-- A new connection has been begun, if the name resolution did not throw: at most a connect has
been added, on the current socket, and no operation has come to life. -/
structure Connects (s s' : State) : Prop where
  inSession : InSession s'
  ops : ∃ p new, s'.ops = abort p .aborted s.ops ++ new ∧ new.length ≤ 1 ∧
    ∀ op ∈ new, op.task.kind.isConnect = true ∧ op.task.sock = s'.socket
  currentStatus : s'.currentStatus = s.currentStatus
  reported : reported s' = reported s

section Handlers

variable {s : State} (h : InSession s) {env : Env}
include h

theorem connects_rangeConnect (env : Env) (rest : List Endpoint) (session : ℕ) :
    Connects s (rangeConnect env rest session s) := by
  obtain ⟨res, hops⟩ := rangeConnect_ops env rest session s
  refine ⟨h.rangeConnect env rest session, ⟨_, _, hops, Nat.le_refl _, ?_⟩,
    rangeConnect_currentStatus .., (adds_of_log_eq (rangeConnect_log ..)).reported⟩
  intro op hop
  rw [List.mem_singleton.mp hop]
  exact ⟨rfl, rfl⟩

theorem connects_doConnect (env : Env) : Connects s (doConnect env s).2 := by
  rcases doConnect_of_running env s h.running with ⟨-, hd⟩ | ⟨first, rest, -, hd⟩
  · rw [hd]
    exact ⟨h, ⟨fun _ => false, [], by simp [abort], Nat.zero_le _, by simp⟩, rfl, rfl⟩
  · rw [hd]
    have h' : InSession (emit .connectStarted s) := h.of_eq rfl rfl rfl
    obtain ⟨hin, hops, hst, hrep⟩ := connects_rangeConnect h' env rest s.session
    exact ⟨hin, hops, hst, hrep.trans (adds_emit rfl s).reported⟩

omit h in
theorem Connects.conclude {r : Exit × State} (hc : Connects s r.2) : Connects s (conclude r) := by
  obtain ⟨exit, s'⟩ := r
  cases exit with
  | returned => exact hc
  | threw =>
    refine ⟨hc.inSession.of_eq rfl rfl rfl, hc.ops, hc.currentStatus, ?_⟩
    simpa [TcpClient.reported, TcpClient.conclude, emit, List.filterMap_cons, Event.reported?]
      using hc.reported

/-- An expired wait replaces `socket_` and connects anew. -/
theorem connects_waitHandler (env : Env) : Connects s (waitHandler env none s).2 := by
  have h' : InSession (replaceSocket s) := h.of_eq rfl rfl rfl
  obtain ⟨hin, ⟨p, new, hops, hlen, hnew⟩, hst, hrep⟩ := connects_doConnect h' env
  have hops' : (doConnect env (replaceSocket s)).2.ops =
      abort (fun t => t.on s.socket || p t) .aborted s.ops ++ new := by
    rw [hops]
    show abort p .aborted (abort (·.on s.socket) .aborted s.ops) ++ new = _
    rw [abort_abort]
  unfold waitHandler
  rw [if_pos (by simp [h.running])]
  split
  · rename_i s' heq
    rw [heq] at hin hops' hst hrep hnew
    exact ⟨hin.of_eq rfl rfl rfl, ⟨_, new, hops', hlen, hnew⟩, hst, hrep⟩
  · rename_i s' heq
    rw [heq] at hin hops' hst hrep hnew
    exact ⟨hin, ⟨_, new, hops', hlen, hnew⟩, hst, hrep⟩

theorem reads_doRead {s₀ : State} (hops : s.ops = s₀.ops) (hsock : s.socket = s₀.socket)
    (hsession : s.session = s₀.session) (hl : linked s = true) : Reads s₀ (doRead s) := by
  refine ⟨h.doRead, ?_, (doRead_socket s).trans hsock, ?_⟩
  · rw [doRead_of_running h.running, ← hops, ← hsock, ← hsession]
    exact ⟨_, rfl⟩
  · exact linked_of_grows hl (routine_doRead s).grows (doRead_socket s)

/-- The connection is established: the status says so, and its read chain begins. -/
theorem reads_connectHandler (henv : env.neverStops = true) (hopen : s.socket.isOpen = true) :
    Reads s (connectHandler env s.socket none s) ∧
      (connectHandler env s.socket none s).currentStatus = .connected ∧
      Routine s (connectHandler env s.socket none s) := by
  obtain ⟨-, hst, -⟩ := env.neverStops_iff.mp henv
  have h' : InSession (emit (.connectHandled s.socket) { s with reconnectDelay := 1 }) :=
    h.of_eq rfl rfl rfl
  have hlog := routine_setStatus .connected .connectedToServer env.onStatus
    (emit (.connectHandled s.socket) { s with reconnectDelay := 1 })
  have heq : connectHandler env s.socket none s =
      doRead (setStatus .connected .connectedToServer env.onStatus
        (emit (.connectHandled s.socket) { s with reconnectDelay := 1 })) :=
    if_neg (by simp [h.running])
  rw [heq]
  refine ⟨?_, by simp, ?_⟩
  · refine reads_doRead (h'.setStatus _ _ hst) (by simp [emit]) (by simp [emit]) (by simp [emit]) ?_
    exact linked_of_grows (by simp [linked, emit, hopen]) hlog.grows (setStatus_socket ..)
  · have hfirst : Routine s (emit (.connectHandled s.socket) { s with reconnectDelay := 1 }) :=
      adds_emit rfl { s with reconnectDelay := 1 }
    exact (hfirst.trans hlog).trans (routine_doRead _)

theorem rearmed_connectHandler (henv : env.neverStops = true) (sock : Socket) (ec : ErrorCode) :
    Rearmed s (connectHandler env sock (some ec) s) := by
  unfold connectHandler
  rw [if_neg (by simp [h.running])]
  exact rearmed_report h henv _ _

/-- A step of `async_connect` has completed: the connection is established, the next endpoint is
tried, or the timer is armed. -/
theorem connectResume_cases (henv : env.neverStops = true) {t : Task} (hsock : t.sock = s.socket)
    (rest : List Endpoint) (ec : Option ErrorCode) :
    (Reads s (connectResume env t rest ec s) ∧
        (connectResume env t rest ec s).currentStatus = .connected ∧
        Routine s (connectResume env t rest ec s)) ∨
      Rearmed s (connectResume env t rest ec s) ∨ Connects s (connectResume env t rest ec s) := by
  unfold connectResume
  split
  · rename_i hopen
    split
    · rw [hsock]
      exact Or.inl (reads_connectHandler h henv hopen)
    · exact Or.inr (Or.inl (rearmed_connectHandler h henv t.sock _))
    · exact Or.inr (Or.inr (connects_rangeConnect h env _ t.session))
  · exact Or.inr (Or.inl (rearmed_connectHandler h henv t.sock _))

/-- A message is handed to the user under the current status, and the next read started. -/
theorem reads_readHandler (henv : env.neverStops = true) {r : Result} (hr : r.ec = none)
    (hl : linked s = true) :
    Reads s (readHandler env r s) ∧ (readHandler env r s).currentStatus = s.currentStatus ∧
      ∀ st ∈ reported (readHandler env r s), st ∈ reported s ∨ st = s.currentStatus := by
  obtain ⟨hmsg, -, -⟩ := env.neverStops_iff.mp henv
  have hlog : ∀ s' : State, Routine s' (doRead s') := routine_doRead
  unfold readHandler
  rw [if_neg (by simp [h.running]), hr]
  dsimp only
  split
  · have h' : InSession (emit (.onMessage (s.readBuf.bytes.take r.length) s.currentStatus) s) :=
      h.of_eq rfl rfl rfl
    have hgrows := routine_invoke env.onMessage
      (emit (.onMessage (s.readBuf.bytes.take r.length) s.currentStatus) s)
    refine ⟨reads_doRead (h'.invoke hmsg) ?_ ?_ ?_ ?_, ?_, ?_⟩
    · rw [catchAll_invoke]; rfl
    · rw [catchAll_invoke]; rfl
    · rw [catchAll_invoke]; rfl
    · refine linked_of_grows hl ?_ (by rw [catchAll_invoke]; rfl)
      exact List.IsPrefix.trans (List.prefix_append s.log _) hgrows.grows
    · rw [doRead_currentStatus, catchAll_invoke]; rfl
    · intro st hst
      rw [(hlog _).reported, hgrows.reported] at hst
      simpa [reported, emit, Event.reported?] using hst
  · refine ⟨reads_doRead h rfl rfl rfl hl, by simp [catchAll], ?_⟩
    intro st hst
    rw [(hlog _).reported] at hst
    exact Or.inl hst

end Handlers

end AsioLearn.TcpClient
