import AsioLearn.TcpClient.Model

/-!
# What each member function leaves unchanged

A user callback can only set `stopped_` and post closures, so `set_status` changes nothing else
but the status and the log. The functions built on it are described by what they do to the
operations, the socket and the queue.
-/

namespace AsioLearn.TcpClient

open Proactor

/-! ## Callbacks -/

def Call.isStop : Call → Bool
  | .stop => true
  | .send _ _ => false

/-- The callback calls `stop()`. -/
def Callback.stops (cb : Callback) : Bool := cb.calls.any Call.isStop

/-- The closure a client method called by a callback posts. -/
def Call.posts (session : ℕ) : Call → Posted
  | .stop => .close session
  | .send thread msg => .send thread msg

/-- The event a client method called by a callback records. -/
def Call.event? : Call → Option Event
  | .stop => none
  | .send thread msg => some (.sendPosted thread msg)

theorem foldl_run (calls : List Call) (s : State) :
    calls.foldl (fun s c => c.run s) s =
      { s with
        stopped := s.stopped || calls.any Call.isStop
        posted := s.posted ++ calls.map (Call.posts s.session)
        log := s.log ++ calls.filterMap Call.event? } := by
  induction calls generalizing s with
  | nil => simp
  | cons c calls ih =>
    rw [List.foldl_cons, ih]
    cases c with
    | stop =>
      simp [Call.run, TcpClient.stop, close, post, Call.posts, Call.event?, Call.isStop,
        List.filterMap_cons]
    | send thread msg =>
      simp [Call.run, TcpClient.send, emit, post, Call.posts, Call.event?, Call.isStop]

/-- What an invocation of a callback does to the client, whether it returns or throws. -/
theorem catchAll_invoke (cb : Callback) (s : State) :
    catchAll (cb.invoke s) =
      { s with
        stopped := s.stopped || cb.stops
        posted := s.posted ++ cb.calls.map (Call.posts s.session)
        log := s.log ++ cb.calls.filterMap Call.event? } :=
  foldl_run cb.calls s

/-- The callback that runs when the member holding it may be empty. -/
def Callback.ifSet (cb : Callback) (set : Bool) : Callback := if set then cb else {}

theorem setStatus_cases (st : Status) (info : Info) (cb : Callback) (s : State) :
    setStatus st info cb s =
      if s.onStatus then
        catchAll (cb.invoke (emit (.onStatus st info)
          (emit (.status st info) { s with currentStatus := st })))
      else emit (.status st info) { s with currentStatus := st } := by
  cases hs : s.onStatus <;> simp [setStatus, emit, hs, catchAll]

/-- `set_status` in one equation. -/
theorem setStatus_eq (st : Status) (info : Info) (cb : Callback) (s : State) :
    setStatus st info cb s =
      { s with
        currentStatus := st
        stopped := s.stopped || (cb.ifSet s.onStatus).stops
        posted := s.posted ++ (cb.ifSet s.onStatus).calls.map (Call.posts s.session)
        log := s.log ++ .status st info ::
          ((if s.onStatus then [.onStatus st info] else []) ++
            (cb.ifSet s.onStatus).calls.filterMap Call.event?) } := by
  unfold setStatus Callback.ifSet
  cases hon : s.onStatus with
  | false => simp [emit, catchAll, Callback.stops]
  | true =>
    simp only [emit, if_true, catchAll_invoke]
    simp

section SetStatus

variable (st : Status) (info : Info) (cb : Callback) (s : State)

@[simp] theorem setStatus_currentStatus : (setStatus st info cb s).currentStatus = st := by
  rw [setStatus_eq]

@[simp] theorem setStatus_ops : (setStatus st info cb s).ops = s.ops := by rw [setStatus_eq]

@[simp] theorem setStatus_socket : (setStatus st info cb s).socket = s.socket := by
  rw [setStatus_eq]

@[simp] theorem setStatus_writeMsgs : (setStatus st info cb s).writeMsgs = s.writeMsgs := by
  rw [setStatus_eq]

@[simp] theorem setStatus_reconnectDelay :
    (setStatus st info cb s).reconnectDelay = s.reconnectDelay := by rw [setStatus_eq]

@[simp] theorem setStatus_session : (setStatus st info cb s).session = s.session := by
  rw [setStatus_eq]

@[simp] theorem setStatus_nextInst : (setStatus st info cb s).nextInst = s.nextInst := by
  rw [setStatus_eq]

@[simp] theorem setStatus_nextFd : (setStatus st info cb s).nextFd = s.nextFd := by
  rw [setStatus_eq]

@[simp] theorem setStatus_stopped :
    (setStatus st info cb s).stopped = (s.stopped || (cb.ifSet s.onStatus).stops) := by
  rw [setStatus_eq]

end SetStatus

/-! ## Readings of the state -/

def Posted.isClose : Posted → Bool
  | .send _ _ => false
  | .close _ => true

/-- The operation is outstanding or has completed with success. -/
def alive (op : Op Task Result) : Bool :=
  match op.result with
  | none => true
  | some r => r.ec.isNone

/-- A reconnect wait that has not been aborted. -/
def armedWait (op : Op Task Result) : Bool := op.task.kind.isWait && alive op

/-- A reconnect wait is armed: it is pending, or has expired and its handler has not run. -/
def waitArmed (s : State) : Bool := s.ops.any armedWait

/-- The connection `socket_` has open was established by an `async_connect` whose success has
been handled. -/
def linked (s : State) : Bool := s.socket.isOpen && s.log.contains (.connectHandled s.socket)

/-! ## What a step can be -/

theorem step_complete {s s' : State} {i : ℕ} {out : Outcome}
    (h : step s (.complete i out) = some s') :
    ∃ l t r res, s.ops = l ++ ⟨t, none⟩ :: r ∧ out.result? t.kind = some res ∧
      s' = out.deliver t { s with ops := l ++ ⟨t, some res⟩ :: r } := by
  simp only [step] at h
  split at h
  · rename_i l t r hp
    split at h
    · rename_i res hres
      exact ⟨l, t, r, res, pick_eq_some hp, hres, (Option.some.inj h).symm⟩
    · exact absurd h (by simp)
  · exact absurd h (by simp)

theorem step_runPosted {s s' : State} {env : Env} (h : step s (.runPosted env) = some s') :
    ∃ c rest, s.posted = c :: rest ∧ s' = runPosted env c { s with posted := rest } := by
  simp only [step] at h
  split at h
  · exact absurd h (by simp)
  · rename_i c rest hposted
    exact ⟨c, rest, hposted, (Option.some.inj h).symm⟩

theorem step_runOp {s s' : State} {i : ℕ} {env : Env} (h : step s (.runOp i env) = some s') :
    ∃ l t res r, pick s.ops i = some (l, ⟨t, some res⟩, r) ∧
      s' = conclude (runHandler env t res { s with ops := l ++ r }) := by
  simp only [step] at h
  split at h
  · rename_i l t res r hp
    exact ⟨l, t, res, r, hp, (Option.some.inj h).symm⟩
  · exact absurd h (by simp)

section Deliver

variable (out : Outcome) (t : Task) (s : State)

/-- Delivering bytes changes the read buffer and the log. -/
theorem deliver_eq : ∃ buf es, out.deliver t s = { s with readBuf := buf, log := s.log ++ es } := by
  unfold Outcome.deliver
  split
  · exact ⟨_, _, rfl⟩
  · exact ⟨_, _, rfl⟩
  · exact ⟨s.readBuf, [], by rw [List.append_nil]⟩

@[simp] theorem deliver_ops : (out.deliver t s).ops = s.ops := by
  obtain ⟨buf, es, h⟩ := deliver_eq out t s; rw [h]

@[simp] theorem deliver_socket : (out.deliver t s).socket = s.socket := by
  obtain ⟨buf, es, h⟩ := deliver_eq out t s; rw [h]

@[simp] theorem deliver_stopped : (out.deliver t s).stopped = s.stopped := by
  obtain ⟨buf, es, h⟩ := deliver_eq out t s; rw [h]

@[simp] theorem deliver_currentStatus : (out.deliver t s).currentStatus = s.currentStatus := by
  obtain ⟨buf, es, h⟩ := deliver_eq out t s; rw [h]

@[simp] theorem deliver_posted : (out.deliver t s).posted = s.posted := by
  obtain ⟨buf, es, h⟩ := deliver_eq out t s; rw [h]

@[simp] theorem deliver_session : (out.deliver t s).session = s.session := by
  obtain ⟨buf, es, h⟩ := deliver_eq out t s; rw [h]

theorem deliver_log : s.log <+: (out.deliver t s).log := by
  obtain ⟨buf, es, h⟩ := deliver_eq out t s
  rw [h]
  exact List.prefix_append _ _

end Deliver

/-- The completed operation whose handler the step runs. -/
def ran? (s : State) : Label → Option (Task × Result)
  | .runOp i _ =>
    match pick s.ops i with
    | some (_, ⟨t, some r⟩, _) => some (t, r)
    | _ => none
  | _ => none

theorem ran?_runOp {s : State} {i : ℕ} {l r : List (Op Task Result)} {t : Task} {res : Result}
    (hp : pick s.ops i = some (l, ⟨t, some res⟩, r)) (env : Env) :
    ran? s (.runOp i env) = some (t, res) := by
  simp only [ran?, hp]

end AsioLearn.TcpClient
