import AsioLearn.Asio
import AsioLearn.Lib.Lts
import AsioLearn.Lib.Proactor
import Mathlib.Data.List.Basic

/-!
# `TcpClient` on a single-threaded `io_context`

The members of `TcpClient` and the part of the `io_context` that serves it: the asynchronous
operations that have been started (`ops`) and the closures that have been posted (`posted`).
`step` is one step of the system: a call of the API, the completion of an operation, or one
handler run by the io thread.

* An operation completes at any time and with any outcome its kind allows; its handler runs at
  any time after that. Posted closures run in posting order.
* `async_connect` and `async_write` are the composed operations `range_connect_op` and
  `write_op`: they keep a reference to the member `socket_`, and each intermediate completion
  goes on with whatever `socket_` then is.
* A user callback may call `stop()` and `send()` and may throw.
-/

namespace AsioLearn.TcpClient

open Proactor

/-! ## Data -/

/-- `TcpClient::Status`. -/
inductive Status
  | connected
  | disconnected
  | error
  | reconnecting
  deriving DecidableEq, Repr

/-- The text that goes with a status change. -/
inductive Info
  | connectedToServer
  | connectFailed (ec : ErrorCode)
  | retryIn (seconds : ℕ)
  | serverClosed
  | readError (ec : ErrorCode)
  | writeError (ec : ErrorCode)
  | clientClosed
  deriving DecidableEq, Repr

def Info.text : Info → String
  | connectedToServer => "Connected to server"
  | connectFailed ec => "Connect failed: " ++ ec.message
  | retryIn seconds => "Retry in " ++ toString seconds ++ "s"
  | serverClosed => "Server closed"
  | readError ec => "Read error: " ++ ec.message
  | writeError ec => "Write error: " ++ ec.message
  | clientClosed => "Client closed"

structure Endpoint where
  address : String
  port : ℕ
  deriving DecidableEq, Repr

/-- What `resolver.resolve(host_, port_)` does: a non-empty endpoint list, or an exception. -/
inductive Resolved
  | endpoints (first : Endpoint) (rest : List Endpoint)
  | throws
  deriving DecidableEq, Repr

/-- `socket_`: which `tcp::socket` object it holds, counting the assignments to it, and the
descriptor that object has open. -/
structure Socket where
  inst : ℕ
  fd : Option ℕ
  deriving DecidableEq, Repr

def Socket.isOpen (k : Socket) : Bool := k.fd.isSome

/-- The operations the client starts. A connect carries the endpoints it has not tried yet, a
write its message and the number of bytes consumed so far. -/
inductive Kind
  | connect (rest : List Endpoint)
  | read
  | write (msg : Bytes) (sent : ℕ)
  | wait
  deriving DecidableEq, Repr

def Kind.isConnect : Kind → Bool
  | connect _ => true
  | _ => false

def Kind.isRead : Kind → Bool
  | read => true
  | _ => false

def Kind.isWrite : Kind → Bool
  | write _ _ => true
  | _ => false

def Kind.isWait : Kind → Bool
  | wait => true
  | _ => false

/-- A started operation: `sock` is `socket_` when its current step was started on it (a wait
does not use it), `session` the session it was started in. -/
structure Task where
  kind : Kind
  sock : Socket
  session : ℕ
  deriving DecidableEq, Repr

/-- A closure posted to `io_`: the one of a `send()`, by the thread that called it, or the one
of `close()`, by the session whose `stop()` called it. -/
inductive Posted
  | send (thread : ℕ) (msg : Bytes)
  | close (session : ℕ)
  deriving DecidableEq, Repr

/-- What the client does and what reaches it, in order. -/
inductive Event
  | sendPosted (thread : ℕ) (msg : Bytes)
  | accepted (thread : ℕ) (msg : Bytes)
  | connectStarted
  | connectHandled (sock : Socket)
  | readStarted
  | writeStarted (msg : Bytes)
  | waitArmed (seconds : ℕ)
  | status (s : Status) (info : Info)
  | onStatus (s : Status) (info : Info)
  | onMessage (msg : Bytes) (reported : Status)
  | wrote (sock : Socket) (bytes : Bytes)
  | received (sock : Socket) (bytes : Bytes)
  | escaped
  deriving DecidableEq, Repr

structure State where
  stopped : Bool := true
  currentStatus : Status := .disconnected
  reconnectDelay : ℕ := 1
  writeMsgs : List Bytes := []
  readBuf : ReadBuf := .empty
  socket : Socket := ⟨0, none⟩
  /-- Whether `on_message_` and `on_status_` are set. -/
  onMessage : Bool := false
  onStatus : Bool := false
  ops : List (Op Task Result) := []
  posted : List Posted := []
  nextInst : ℕ := 1
  nextFd : ℕ := 0
  /-- The number of `start()` calls so far. -/
  session : ℕ := 0
  log : List Event := []
  deriving DecidableEq

/-- `TcpClient::TcpClient`. -/
def init : State := {}

/-- A client method called by a user callback. -/
inductive Call
  | stop
  | send (thread : ℕ) (msg : Bytes)
  deriving DecidableEq, Repr

/-- What one invocation of a user callback does. -/
structure Callback where
  calls : List Call := []
  throws : Bool := false
  deriving DecidableEq, Repr

/-- What the surroundings decide while one handler or API call runs: the name resolution, the
opening of a descriptor, and the callbacks (`onStatus2` is the second invocation of
`on_status_` in one handler). -/
structure Env where
  resolved : Resolved := .endpoints ⟨"127.0.0.1", 8080⟩ []
  openError : Option ErrorCode := none
  onMessage : Callback := {}
  onStatus : Callback := {}
  onStatus2 : Callback := {}
  deriving DecidableEq, Repr

/-- How a function is left. -/
inductive Exit
  | returned
  | threw
  deriving DecidableEq, Repr

/-! ## `io_context`, socket and timer -/

def emit (e : Event) (s : State) : State := { s with log := s.log ++ [e] }

/-- `asio::post(io_, c)`. -/
def post (c : Posted) (s : State) : State := { s with posted := s.posted ++ [c] }

def addOp (op : Op Task Result) (s : State) : State := { s with ops := s.ops ++ [op] }

/-- An operation started on `socket_`; on a socket that is not open it completes at once. -/
def startOp (kind : Kind) (session : ℕ) (s : State) : State :=
  addOp ⟨⟨kind, s.socket, session⟩,
    if s.socket.isOpen then none else some (.error .badDescriptor)⟩ s

/-- The operation is in progress on the descriptor that `k` has open. -/
def Task.on (k : Socket) (t : Task) : Bool :=
  k.isOpen && !t.kind.isWait && t.sock.fd == k.fd

/-- `socket_.close(ec)`: what is outstanding on the descriptor is aborted. -/
def closeSocket (s : State) : State :=
  { s with
    ops := abort (·.on s.socket) .aborted s.ops
    socket := { s.socket with fd := none } }

/-- `socket_ = tcp::socket(io_)`. -/
def replaceSocket (s : State) : State :=
  let s := closeSocket s
  { s with socket := ⟨s.nextInst, none⟩, nextInst := s.nextInst + 1 }

def openSocket (s : State) : State :=
  { s with socket := { s.socket with fd := some s.nextFd }, nextFd := s.nextFd + 1 }

/-- `basic_socket::async_connect` to one endpoint, `rest` being what `range_connect_op` has left:
a socket that is not open is opened first, and if that fails the operation completes with the
error. -/
def asyncConnect (env : Env) (rest : List Endpoint) (session : ℕ) (s : State) : State :=
  if s.socket.isOpen then
    addOp ⟨⟨.connect rest, s.socket, session⟩, none⟩ s
  else
    match env.openError with
    | some ec => addOp ⟨⟨.connect rest, s.socket, session⟩, some (.error ec)⟩ s
    | none =>
      let s := openSocket s
      addOp ⟨⟨.connect rest, s.socket, session⟩, none⟩ s

/-- One turn of the loop of `range_connect_op`: close the socket and try the next endpoint. -/
def rangeConnect (env : Env) (rest : List Endpoint) (session : ℕ) (s : State) : State :=
  asyncConnect env rest session (closeSocket s)

/-- `timer_.expires_after(..)`: a wait that has not expired is aborted. -/
def expiresAfter (s : State) : State :=
  { s with ops := abort (·.kind.isWait) .aborted s.ops }

/-- `timer_.async_wait(..)`. -/
def asyncWait (s : State) : State := addOp ⟨⟨.wait, s.socket, s.session⟩, none⟩ s

/-! ## The members of `TcpClient` -/

/-- `TcpClient::send`. -/
def send (thread : ℕ) (msg : Bytes) (s : State) : State :=
  emit (.sendPosted thread msg) (post (.send thread msg) s)

/-- `TcpClient::close`, up to the closure it posts. -/
def close (s : State) : State := post (.close s.session) s

/-- `TcpClient::stop`. -/
def stop (s : State) : State := close { s with stopped := true }

def Call.run : Call → State → State
  | .stop => TcpClient.stop
  | .send thread msg => TcpClient.send thread msg

/-- Invoke a user callback. -/
def Callback.invoke (cb : Callback) (s : State) : Exit × State :=
  (if cb.throws then .threw else .returned, cb.calls.foldl (fun s c => c.run s) s)

/-- `try { .. } catch (...) {}`. -/
def catchAll (r : Exit × State) : State := r.2

/-- `TcpClient::set_status`. -/
def setStatus (st : Status) (info : Info) (cb : Callback) (s : State) : State :=
  let s := emit (.status st info) { s with currentStatus := st }
  catchAll (if s.onStatus then cb.invoke (emit (.onStatus st info) s) else (.returned, s))

/-- `TcpClient::do_connect`. -/
def doConnect (env : Env) (s : State) : Exit × State :=
  if s.stopped then (.returned, s)
  else
    match env.resolved with
    | .throws => (.threw, s)
    | .endpoints _ rest => (.returned, rangeConnect env rest s.session (emit .connectStarted s))

/-- `TcpClient::schedule_reconnect`. -/
def scheduleReconnect (cb : Callback) (s : State) : State :=
  if s.stopped then s
  else
    let s := setStatus .reconnecting (.retryIn s.reconnectDelay) cb s
    asyncWait (emit (.waitArmed s.reconnectDelay) (expiresAfter s))

/-- `TcpClient::do_read`. -/
def doRead (s : State) : State :=
  if s.stopped then s else startOp .read s.session (emit .readStarted s)

/-- `TcpClient::do_write`. Its callers have just seen that `write_msgs_` is not empty. -/
def doWrite (s : State) : State :=
  if s.stopped then s
  else
    match s.writeMsgs with
    | [] => s
    | msg :: _ => startOp (.write msg 0) s.session (emit (.writeStarted msg) s)

/-- `TcpClient::start`. -/
def start (env : Env) (s : State) : Exit × State :=
  doConnect env { s with stopped := false, session := s.session + 1 }

/-! ## Handlers -/

/-- The completion handler given to `async_connect`. -/
def connectHandler (env : Env) (sock : Socket) (ec : Option ErrorCode) (s : State) : State :=
  if s.stopped then s
  else
    match ec with
    | none =>
      doRead (setStatus .connected .connectedToServer env.onStatus
        (emit (.connectHandled sock) { s with reconnectDelay := 1 }))
    | some ec =>
      scheduleReconnect env.onStatus2 (setStatus .error (.connectFailed ec) env.onStatus s)

/-- `range_connect_op::process` after the attempt on one endpoint has completed. -/
def connectResume (env : Env) (t : Task) (rest : List Endpoint) (ec : Option ErrorCode)
    (s : State) : State :=
  if s.socket.isOpen then
    match ec, rest with
    | none, _ => connectHandler env t.sock none s
    | some ec, [] => connectHandler env t.sock (some ec) s
    | some _, _ :: rest => rangeConnect env rest t.session s
  else connectHandler env t.sock (some .operationAborted) s

/-- The completion handler given to `async_read_some`. -/
def readHandler (env : Env) (r : Result) (s : State) : State :=
  if s.stopped then s
  else
    match r.ec with
    | none =>
      let msg := s.readBuf.bytes.take r.length
      doRead (catchAll (if s.onMessage then
        env.onMessage.invoke (emit (.onMessage msg s.currentStatus) s) else (.returned, s)))
    | some ec =>
      scheduleReconnect env.onStatus2
        (if ec = .eof ∨ ec = .connectionReset then
          setStatus .disconnected .serverClosed env.onStatus s
        else setStatus .error (.readError ec) env.onStatus s)

/-- The completion handler given to `async_write`. -/
def writeHandler (env : Env) (ec : Option ErrorCode) (s : State) : State :=
  if s.stopped then s
  else
    match ec with
    | none =>
      let s := { s with writeMsgs := s.writeMsgs.tail }
      if s.writeMsgs.isEmpty then s else doWrite s
    | some ec => scheduleReconnect env.onStatus2 (setStatus .error (.writeError ec) env.onStatus s)

/-- `write_op::operator()` after one `async_write_some` has completed: it goes on with the rest
of the message while there is any, no error, and some progress. -/
def writeResume (env : Env) (t : Task) (msg : Bytes) (sent : ℕ) (r : Result) (s : State) :
    State :=
  match r.ec with
  | some ec => writeHandler env (some ec) s
  | none =>
    if r.length = 0 ∨ msg.length ≤ sent + r.length then writeHandler env none s
    else startOp (.write msg (sent + r.length)) t.session s

/-- The handler given to `timer_.async_wait`. -/
def waitHandler (env : Env) (ec : Option ErrorCode) (s : State) : Exit × State :=
  if ec.isNone && !s.stopped then
    match doConnect env (replaceSocket s) with
    | (.returned, s) => (.returned, { s with reconnectDelay := min (s.reconnectDelay * 2) 30 })
    | (.threw, s) => (.threw, s)
  else (.returned, s)

/-- Run the handler of a completed operation. -/
def runHandler (env : Env) (t : Task) (r : Result) (s : State) : Exit × State :=
  match t.kind with
  | .connect rest => (.returned, connectResume env t rest r.ec s)
  | .read => (.returned, readHandler env r s)
  | .write msg sent => (.returned, writeResume env t msg sent r s)
  | .wait => waitHandler env r.ec s

/-- Run a posted closure. -/
def runPosted (env : Env) (c : Posted) (s : State) : State :=
  match c with
  | .send thread msg =>
    if s.stopped then s
    else
      let writing := !s.writeMsgs.isEmpty
      let s := emit (.accepted thread msg) { s with writeMsgs := s.writeMsgs ++ [msg] }
      if writing then s else doWrite s
  | .close _ =>
    if s.socket.isOpen then
      setStatus .disconnected .clientClosed env.onStatus (closeSocket s)
    else s

/-! ## Steps -/

/-- How the surroundings complete an outstanding operation. -/
inductive Outcome
  | failed (ec : ErrorCode)
  | connected
  | received (data : Bytes)
  | wrote (n : ℕ)
  | expired
  deriving DecidableEq, Repr

/-- The result an outcome gives an operation, if the operation can complete so. A read places
at most the buffer's 1024 bytes; a write step writes a non-empty part of what it is given,
unless there is nothing to write; a wait ends by expiring. -/
def Outcome.result? : Outcome → Kind → Option Result
  | .connected, .connect _ => some (.ok 0)
  | .received data, .read => if data.length ≤ 1024 then some (.ok data.length) else none
  | .wrote n, .write msg sent =>
    if (0 < n ∧ n ≤ min (msg.length - sent) maxTransfer) ∨ (msg.length ≤ sent ∧ n = 0) then
      some (.ok n)
    else none
  | .expired, .wait => some (.ok 0)
  | .failed ec, .connect _ | .failed ec, .read | .failed ec, .write _ _ => some (.error ec)
  | _, _ => none

/-- The bytes an outcome moves: received ones into `read_buf_`, written ones onto the
connection. -/
def Outcome.deliver (out : Outcome) (t : Task) (s : State) : State :=
  match out, t.kind with
  | .received data, .read =>
    emit (.received t.sock data) { s with readBuf := s.readBuf.fill data }
  | .wrote n, .write msg sent => emit (.wrote t.sock ((msg.drop sent).take n)) s
  | _, _ => s

inductive Label
  | start (env : Env)
  | stop
  | send (thread : ℕ) (msg : Bytes)
  | setMessageCallback (set : Bool)
  | setStatusCallback (set : Bool)
  | complete (i : ℕ) (out : Outcome)
  | runPosted (env : Env)
  | runOp (i : ℕ) (env : Env)
  deriving DecidableEq, Repr

/-- Record an exception that has left `start()` or a handler. -/
def conclude : Exit × State → State
  | (.returned, s) => s
  | (.threw, s) => emit .escaped s

/-- One step. -/
def step (s : State) : Label → Option State
  | .start env => some (conclude (start env s))
  | .stop => some (stop s)
  | .send thread msg => some (send thread msg s)
  | .setMessageCallback set => some { s with onMessage := set }
  | .setStatusCallback set => some { s with onStatus := set }
  | .complete i out =>
    match pick s.ops i with
    | some (l, ⟨t, none⟩, r) =>
      match out.result? t.kind with
      | some res => some (out.deliver t { s with ops := l ++ ⟨t, some res⟩ :: r })
      | none => none
    | _ => none
  | .runPosted env =>
    match s.posted with
    | [] => none
    | c :: rest => some (runPosted env c { s with posted := rest })
  | .runOp i env =>
    match pick s.ops i with
    | some (l, ⟨t, some res⟩, r) => some (conclude (runHandler env t res { s with ops := l ++ r }))
    | _ => none

end AsioLearn.TcpClient
