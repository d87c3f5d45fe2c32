import AsioLearn.Asio
import AsioLearn.Lib.Lts
import AsioLearn.Lib.Proactor
import Mathlib.Logic.Function.Basic

/-!
# `SerialPortSession` and its io thread

The members of `SerialPortSession`, the user threads that call it, and its own thread, which runs
`io_`. A step is one atomic action of one thread or the completion of an operation by the port.

* A call of `start()`, `stop()` or `send()` is a sequence of steps: the first reads `running_`,
  the later ones are given by `Pc`. User threads interleave freely.
* The io thread moves the handlers of completed operations to `strand_`, whose entries run one at
  a time in the order they were posted. A user callback runs on it as a list of calls, after which
  it may throw; an exception that leaves `io_.run()` terminates the program.
* Operations on the port are served first in, first out, reads and writes apart, as the reactor
  does. A user callback invoked on a user thread calls no method here: such a call is one of
  another user thread.
* After `io_.stop()` the io thread begins no handler. A call of it while the io thread runs a batch
  of `strand_`, or has taken an operation, is one that comes after that: `Batches.step` has the
  batches, and `Batches.exists_delayed` shows its runs to be runs of `step`. Nothing calls
  `io_.restart()`.
-/

namespace AsioLearn.SerialPort

open Proactor

/-! ## Data -/

/-- The operations on `serial_`: `async_read_some`, or a step of `async_write` with the number of
bytes consumed so far. -/
inductive Task
  | read
  | write (msg : Bytes) (sent : ℕ)
  deriving DecidableEq, Repr

def Task.isWrite : Task → Bool
  | .read => false
  | .write _ _ => true

/-- Who makes a call. -/
inductive Caller
  | user (thread : ℕ)
  | io
  deriving DecidableEq, Repr

/-- An entry of `strand_`: the closure of a `send()` or of a `stop()`, or the handler of a
completed operation. -/
inductive Item
  | send (msg : Bytes)
  | stop (caller : Caller)
  | completed (t : Task) (r : Result)
  deriving DecidableEq, Repr

inductive Call
  | start
  | stop
  | send (msg : Bytes)
  deriving DecidableEq, Repr

/-- Where a call is: what it does next. `stopWait` is `fut.wait()`. -/
inductive Pc
  | idle
  | stopClear
  | stopPost
  | stopWait
  | stopIo
  | stopJoin
  | startOpen
  | startSpawn
  | startSet
  | sendPost (msg : Bytes)
  deriving DecidableEq, Repr

/-- What a handler does after the user callback has returned. -/
inductive After
  | nothing
  | startRead
  | setValue (caller : Caller)
  deriving DecidableEq, Repr

/-- A handler in the middle of a user callback: the call it is in, those it is still to make,
and whether it ends by throwing. -/
structure Frame where
  pc : Pc := .idle
  calls : List Call := []
  throws : Bool := false
  after : After := .nothing
  deriving DecidableEq, Repr

/-- `io_thread_`: not joinable, in `io_.run()` between handlers, inside one, or with `io_.run()`
returned and not yet joined. -/
inductive IoThread
  | none
  | running
  | handling (f : Frame)
  | exited
  deriving DecidableEq, Repr

/-- What `report_info` and `report_error` are called with. -/
inductive Report
  | opened
  | closed
  | openFailed (what : String)
  | notOpen
  | sendError (ec : ErrorCode)
  | readError (ec : ErrorCode)
  deriving DecidableEq, Repr

/-- The string `error_callback_` is given. -/
def Report.text (portName : String) : Report → String
  | opened => "[SerialPort INFO] Serial port opened: " ++ portName
  | closed => "[SerialPort INFO] Serial port closed."
  | openFailed what =>
    "[SerialPort ERROR] Failed to open serial port: " ++ portName ++ ", " ++ what
  | notOpen => "[SerialPort ERROR] Send error: Serial port is not open."
  | sendError ec => "[SerialPort ERROR] Send error: " ++ ec.message
  | readError ec => "[SerialPort ERROR] Read error: " ++ ec.message

/-- What happens, in order. `writeFailed` is the failure of a step of an `async_write`. -/
inductive Event
  | posted (msg : Bytes)
  | wrote (bytes : Bytes)
  | writeFailed (ec : ErrorCode)
  | received (bytes : Bytes)
  | onReceive (bytes : Bytes)
  | onError (r : Report)
  | portOpened
  deriving DecidableEq, Repr

structure State where
  running : Bool := false
  /-- `serial_.is_open()`. -/
  portOpen : Bool := false
  readBuffer : ReadBuf := .empty
  /-- Whether `receive_callback_` and `error_callback_` are set. -/
  receiveCallback : Bool := false
  errorCallback : Bool := false
  ops : List (Op Task Result) := []
  strand : List Item := []
  ioStopped : Bool := false
  ioThread : IoThread := .none
  /-- The callers whose promise has been given its value. -/
  done : List Caller := []
  threads : ℕ → Pc := fun _ => .idle
  terminated : Bool := false
  log : List Event := []

/-- `SerialPortSession::create`. -/
def init : State := {}

/-- How the body of `open()` goes: the port cannot be opened, one of the five options cannot be
set, or the callback of `report_info` throws. -/
inductive Opening
  | succeeds
  | cannotOpen (what : String)
  | optionFails (what : String)
  | infoThrows (what : String)
  deriving DecidableEq, Repr

/-- What the surroundings decide while a step is made: the opening of the port, and what a user
callback invoked by a handler does. -/
structure Env where
  opening : Opening := .succeeds
  calls : List Call := []
  throws : Bool := false
  deriving DecidableEq, Repr

/-! ## Port and reports -/

def emit (e : Event) (s : State) : State := { s with log := s.log ++ [e] }

/-- `report_info` and `report_error`, up to what the callback itself does. -/
def report (r : Report) (s : State) : State := if s.errorCallback then emit (.onError r) s else s

/-- An operation started on `serial_`; on a closed port it completes at once. -/
def startOp (t : Task) (s : State) : State :=
  { s with ops := s.ops ++ [⟨t, if s.portOpen then none else some (.error .badDescriptor)⟩] }

/-- `SerialPortSession::start_async_read`. -/
def startAsyncRead (s : State) : State := startOp .read s

/-- `async_write_some` of an `async_write`; a request to write nothing completes at once. -/
def writeSome (msg : Bytes) (sent : ℕ) (s : State) : State :=
  if msg.length ≤ sent then { s with ops := s.ops ++ [⟨.write msg sent, some (.ok 0)⟩] }
  else startOp (.write msg sent) (if s.portOpen then s else emit (.writeFailed .badDescriptor) s)

/-- `serial_.cancel(ec)` and `serial_.close(ec)`: what is outstanding is aborted. -/
def closePort (s : State) : State :=
  { s with portOpen := false, ops := abort (fun _ => true) .aborted s.ops }

/-- `SerialPortSession::open`. -/
def openPort (env : Env) (s : State) : Bool × State :=
  if s.portOpen then (false, report (.openFailed "open: Already open") s)
  else
    match env.opening with
    | .cannotOpen what => (false, report (.openFailed what) s)
    | .optionFails what => (false, report (.openFailed what) { s with portOpen := true })
    | .infoThrows what =>
      if s.errorCallback then
        (false, report (.openFailed what) (report .opened { s with portOpen := true }))
      else (true, startAsyncRead (emit .portOpened { s with portOpen := true }))
    | .succeeds =>
      (true, startAsyncRead (report .opened (emit .portOpened { s with portOpen := true })))

/-! ## Calls -/

/-- The first step of a call: each method begins by reading `running_`. -/
def Call.begin (c : Call) (s : State) : Pc × State :=
  match c with
  | .start => (if s.running then .idle else .startOpen, s)
  | .stop => (if s.running then .stopClear else .idle, s)
  | .send msg => if s.running then (.sendPost msg, s) else (.idle, report .notOpen s)

/-- The next step of a call, if it can be made. A waiting `stop()` needs its promise to have its
value, and a join the other thread to have ended; a thread that joins itself gets an exception.
Assigning to a joinable `io_thread_` terminates the program. -/
def advance (env : Env) (caller : Caller) (s : State) : Pc → Option (Pc × State)
  | .idle => none
  | .stopClear => some (.stopPost, { s with running := false })
  | .stopPost => some (.stopWait, { s with strand := s.strand ++ [.stop caller] })
  | .stopWait =>
    if caller ∈ s.done then some (.stopIo, { s with done := s.done.erase caller }) else none
  | .stopIo => some (.stopJoin, { s with ioStopped := true })
  | .stopJoin =>
    match s.ioThread, caller with
    | .none, _ => some (.idle, s)
    | .exited, .user _ => some (.idle, { s with ioThread := .none })
    | _, .io => some (.idle, { s with terminated := true })
    | _, .user _ => none
  | .startOpen =>
    match openPort env s with
    | (true, s) => some (.startSpawn, s)
    | (false, s) => some (.idle, s)
  | .startSpawn =>
    match s.ioThread with
    | .none => some (.startSet, { s with ioThread := .running })
    | _ => some (.idle, { s with terminated := true })
  | .startSet => some (.idle, { s with running := true })
  | .sendPost msg => some (.idle, emit (.posted msg) { s with strand := s.strand ++ [.send msg] })

/-! ## Handlers -/

/-- The rest of a handler. -/
def After.run (a : After) (s : State) : State :=
  match a with
  | .nothing => s
  | .startRead => startAsyncRead s
  | .setValue caller => { s with done := s.done ++ [caller] }

/-- The user callback, if it is set, is invoked, and then the rest of the handler is run. -/
def invoke (env : Env) (set : Bool) (e : Event) (after : After) (s : State) : State :=
  if set then
    { emit e s with
      ioThread := .handling { calls := env.calls, throws := env.throws, after := after } }
  else after.run s

/-- The completion handler given to `async_read_some`. -/
def readHandler (env : Env) (r : Result) (s : State) : State :=
  match r.ec with
  | none =>
    invoke env s.receiveCallback (.onReceive (s.readBuffer.bytes.take r.length)) .startRead s
  | some ec =>
    if ec = .operationAborted then s
    else invoke env s.errorCallback (.onError (.readError ec)) .nothing s

/-- The completion handler given to `async_write`. -/
def writeHandler (env : Env) (ec : Option ErrorCode) (s : State) : State :=
  match ec with
  | none => s
  | some ec =>
    if ec = .operationAborted then s
    else invoke env s.errorCallback (.onError (.sendError ec)) .nothing s

/-- `write_op::operator()` after one `async_write_some` has completed. -/
def writeResume (env : Env) (msg : Bytes) (sent : ℕ) (r : Result) (s : State) : State :=
  if r.endsWrite msg sent then writeHandler env r.ec s else writeSome msg (sent + r.length) s

/-- Run an entry of `strand_`. -/
def Item.run (env : Env) (item : Item) (s : State) : State :=
  match item with
  | .send msg => if s.portOpen then writeSome msg 0 s else s
  | .stop caller =>
    if s.portOpen then
      invoke env s.errorCallback (.onError .closed) (.setValue caller) (closePort s)
    else (After.setValue caller).run s
  | .completed .read r => readHandler env r s
  | .completed (.write msg sent) r => writeResume env msg sent r s

/-- The io thread goes on with the user callback it is in: with the call it is making, with the
next one, or with the rest of the handler. -/
def Frame.step (env : Env) (f : Frame) (s : State) : Option State :=
  match f.pc, f.calls with
  | .idle, c :: calls =>
    let (pc, s) := c.begin s
    some { s with ioThread := .handling { f with pc := pc, calls := calls } }
  | .idle, [] =>
    if f.throws then some { s with terminated := true }
    else some (f.after.run { s with ioThread := .running })
  | pc, _ =>
    match advance env .io s pc with
    | some (pc, s) => some { s with ioThread := .handling { f with pc := pc } }
    | none => none

/-! ## Steps -/

/-- How the port completes an operation. Only closing it aborts one. -/
inductive Outcome
  | failed (ec : ErrorCode)
  | received (data : Bytes)
  | wrote (n : ℕ)
  deriving DecidableEq, Repr

/-- The result an outcome gives an operation, if the operation can complete so. -/
def Outcome.result? : Outcome → Task → Option Result
  | .received data, .read => if data.length ≤ 1024 then some (.ok data.length) else none
  | .wrote n, .write msg sent =>
    if 0 < n ∧ n ≤ min (msg.length - sent) maxTransfer then some (.ok n) else none
  | .failed ec, _ => if ec = .operationAborted then none else some (.error ec)
  | _, _ => none

/-- The bytes an outcome moves, and the failure of a write. -/
def Outcome.deliver (out : Outcome) (t : Task) (s : State) : State :=
  match out, t with
  | .received data, .read =>
    emit (.received data) { s with readBuffer := s.readBuffer.fill data }
  | .wrote n, .write msg sent => emit (.wrote ((msg.drop sent).take n)) s
  | .failed ec, .write _ _ => emit (.writeFailed ec) s
  | _, _ => s

inductive Label
  | call (thread : ℕ) (c : Call)
  | advance (thread : ℕ) (env : Env)
  | setReceiveCallback (set : Bool)
  | setErrorCallback (set : Bool)
  | complete (i : ℕ) (out : Outcome)
  | dispatch (i : ℕ)
  | runStrand (env : Env)
  | ioAdvance (env : Env)
  | ioExit
  deriving DecidableEq, Repr

/-- The operation waits behind `t` in the reactor: it is outstanding in the same direction. -/
def waits (t : Task) (op : Op Task Result) : Bool :=
  op.result.isNone && op.task.isWrite == t.isWrite

/-- One step. -/
def step (s : State) (l : Label) : Option State :=
  if s.terminated then none
  else
    match l with
    | .call thread c =>
      if s.threads thread = .idle then
        let (pc, s) := c.begin s
        some { s with threads := Function.update s.threads thread pc }
      else none
    | .advance thread env =>
      match advance env (.user thread) s (s.threads thread) with
      | some (pc, s) => some { s with threads := Function.update s.threads thread pc }
      | none => none
    | .setReceiveCallback set => some { s with receiveCallback := set }
    | .setErrorCallback set => some { s with errorCallback := set }
    | .complete i out =>
      match pick s.ops i with
      | some (before, ⟨t, none⟩, after) =>
        if before.any (waits t) then none
        else
          match out.result? t with
          | some res => some (out.deliver t { s with ops := before ++ ⟨t, some res⟩ :: after })
          | none => none
      | _ => none
    | .dispatch i =>
      match s.ioThread, pick s.ops i with
      | .running, some (before, ⟨t, some res⟩, after) =>
        if s.ioStopped then none
        else some { s with ops := before ++ after, strand := s.strand ++ [.completed t res] }
      | _, _ => none
    | .runStrand env =>
      match s.ioThread, s.strand with
      | .running, item :: rest =>
        if s.ioStopped then none else some (item.run env { s with strand := rest })
      | _, _ => none
    | .ioAdvance env =>
      match s.ioThread with
      | .handling f => f.step env s
      | _ => none
    | .ioExit =>
      match s.ioThread with
      | .running => if s.ioStopped then some { s with ioThread := .exited } else none
      | _ => none

end AsioLearn.SerialPort
