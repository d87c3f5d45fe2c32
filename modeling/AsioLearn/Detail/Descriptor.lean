import AsioLearn.Asio
import AsioLearn.Lib.Lts
import Mathlib

/-!
# `epoll_reactor` and one descriptor

The operations of a socket that wait in its `descriptor_state`, what `epoll` has been asked for and
has yet to report, and the events on their way from `epoll_wait` to `perform_io`. Every function of
the reactor holds the mutex of the descriptor state, so each is one step.

The object comes from a pool. When the socket has been closed the object is used again, and events
of its last use may still be on their way.
-/

namespace AsioLearn.Detail.Descriptor

open Lts

/-! ## Data -/

/-- `op_types`; `connect_op` is `write_op`. -/
inductive OpType
  | read
  | write
  | except
  deriving DecidableEq, Repr

instance : Fintype OpType := ⟨{.read, .write, .except}, fun j => by cases j <;> decide⟩

/-- `reactor_op::status`. -/
inductive Status
  | notDone
  | done
  | doneAndExhausted
  deriving DecidableEq, Repr

/-- The bits of `events` of an `epoll_event` that the reactor sets or looks at. -/
structure Events where
  epollIn : Bool := false
  epollOut : Bool := false
  epollPri : Bool := false
  epollErr : Bool := false
  epollHup : Bool := false
  epollEt : Bool := false
  deriving DecidableEq, Repr

/-- The bit `flag[j]` of `perform_io`. -/
def Events.has (events : Events) : OpType → Bool
  | .read => events.epollIn
  | .write => events.epollOut
  | .except => events.epollPri

/-- `events & (flag[j] | EPOLLERR | EPOLLHUP)`. -/
def Events.concern (events : Events) (j : OpType) : Bool :=
  events.has j || events.epollErr || events.epollHup

/-- The members of a `reactor_op`, and the number of operations started before it. -/
structure ReactorOp where
  id : ℕ
  cancellationKey : ℕ := 0
  ec : Option ErrorCode := none
  deriving DecidableEq, Repr

/-- What `perform` comes to: its status, the error code it sets, and whether the descriptor is still
ready for operations of this type. -/
structure Attempt where
  status : Status
  ec : Option ErrorCode := none
  ready : Bool := false
  deriving DecidableEq, Repr

/-- An operation that has been handed to the scheduler. -/
structure Ended where
  type : OpType
  op : ReactorOp
  aborted : Bool := false
  deriving DecidableEq, Repr

/-- The socket, its descriptor state, what the kernel and the scheduler hold of it, and a record of
the operations. -/
structure State where
  /-- The socket has a descriptor state. -/
  attached : Bool := false
  /-- The descriptor state is in `registered_descriptors_`, and not in the list of free ones. -/
  live : Bool := false
  shutdown : Bool := false
  registeredEvents : Events := {}
  opQueue : OpType → List ReactorOp := fun _ => []
  trySpeculative : OpType → Bool := fun _ => false
  /-- `deregister_descriptor` has returned, and `cleanup_descriptor_data` is yet to be called. -/
  closing : Bool := false
  reactorShutdown : Bool := false
  /-- `epoll` has the descriptor. -/
  inEpoll : Bool := false
  ready : OpType → Bool := fun _ => false
  /-- It has become ready, or been asked for when it was, since `epoll_wait` last reported it. -/
  edge : OpType → Bool := fun _ => false
  /-- `task_result_`, while the descriptor state is in the queue of the scheduler. -/
  returned : Option Events := none
  /-- What the threads that are about to call `perform_io` have read of it. -/
  performing : List Events := []
  completed : List Ended := []
  abandoned : List ReactorOp := []
  nextId : ℕ := 0

inductive Label
  /-- `register_descriptor`; `epoll` does not support every descriptor. -/
  | register (ready : OpType → Bool) (supported : Bool)
  /-- `start_op`, with what `perform` and `epoll_ctl` come to if they are called. -/
  | startOp (type : OpType) (cancellationKey : ℕ) (allowSpeculative : Bool) (attempt : Attempt)
      (ctl : Option ErrorCode)
  | cancelOps
  | cancelOpsByKey (type : OpType) (cancellationKey : ℕ)
  | deregister (closing : Bool)
  | cleanup
  | shutdown
  /-- The kernel reports events. -/
  | arrive (events : Events)
  /-- The descriptor is no longer ready. -/
  | lapse (type : OpType)
  | epollWait (events : Events)
  /-- A thread takes the descriptor state from the queue of the scheduler. -/
  | dequeue
  | performIo (i : ℕ) (attempts : OpType → List Attempt)

/-- What every descriptor is registered for. -/
def baseEvents : Events :=
  { epollIn := true, epollErr := true, epollHup := true, epollPri := true, epollEt := true }

def notSupported : ErrorCode := .other 95 "Operation not supported"

/-! ## Starting -/

/-- `on_immediate`. -/
def complete (type : OpType) (op : ReactorOp) (s : State) : State :=
  { s with completed := s.completed ++ [{ type := type, op := op }] }

def enqueue (type : OpType) (op : ReactorOp) (s : State) : State :=
  { s with opQueue := Function.update s.opQueue type (s.opQueue type ++ [op]) }

/-- `EPOLL_CTL_MOD`: what is ready is reported again. -/
def rearm (s : State) : State :=
  { s with edge := fun j => s.edge j || (s.ready j && s.registeredEvents.has j) }

def setOut (s : State) : State :=
  { s with registeredEvents := { s.registeredEvents with epollOut := true } }

def setReady (type : OpType) (ready : Bool) (s : State) : State :=
  { s with ready := Function.update s.ready type ready }

def setSpeculative (type : OpType) (b : Bool) (s : State) : State :=
  { s with trySpeculative := Function.update s.trySpeculative type b }

/-- `start_op`, from where the operation has not been performed. -/
def startPending (type : OpType) (ctl : Option ErrorCode) (op : ReactorOp) (s : State) : State :=
  if s.registeredEvents = {} then complete type { op with ec := some notSupported } s
  else if type = .write ∧ s.registeredEvents.epollOut = false then
    match ctl with
    | none => enqueue type op (rearm (setOut s))
    | some ec => complete type { op with ec := some ec } s
  else enqueue type op s

def startOp (type : OpType) (allowSpeculative : Bool) (attempt : Attempt)
    (ctl : Option ErrorCode) (op : ReactorOp) (s : State) : State :=
  if !s.attached then complete type { op with ec := some .badDescriptor } s
  else if s.shutdown then complete type op s
  else if s.opQueue type = [] then
    if allowSpeculative = true ∧ (type ≠ .read ∨ s.opQueue .except = []) then
      if s.trySpeculative type then
        let s := setReady type (s.ready type && attempt.ready) s
        match attempt.status with
        | .notDone => startPending type ctl op s
        | .done => complete type { op with ec := attempt.ec } s
        | .doneAndExhausted =>
          complete type { op with ec := attempt.ec }
            (if s.registeredEvents = {} then s else setSpeculative type false s)
      else startPending type ctl op s
    else if s.registeredEvents = {} then complete type { op with ec := some notSupported } s
    else
      let s := if type = .write then setOut s else s
      -- the result of `epoll_ctl` is not looked at
      enqueue type op (if ctl = none then rearm s else s)
  else enqueue type op s

/-! ## Performing -/

/-- What the inner loop of `perform_io` comes to. -/
structure Performed where
  finished : List ReactorOp := []
  left : List ReactorOp
  exhausted : Bool := false
  ready : Bool

/-- The inner loop of `perform_io`. -/
def performOps : List ReactorOp → List Attempt → Bool → Option Performed
  | [], _, ready => some { left := [], ready := ready }
  | _ :: _, [], _ => none
  | op :: ops, a :: attempts, ready =>
    match a.status with
    | .notDone => some { left := op :: ops, ready := ready && a.ready }
    | .done => (performOps ops attempts (ready && a.ready)).map fun p =>
        { p with finished := { op with ec := a.ec } :: p.finished }
    | .doneAndExhausted =>
      some { finished := [{ op with ec := a.ec }], left := ops, exhausted := true,
             ready := ready && a.ready }

/-- One turn of the outer loop. -/
def performType (events : Events) (attempts : OpType → List Attempt) (type : OpType) (s : State) :
    Option State :=
  if events.concern type then
    (performOps (s.opQueue type) (attempts type) (s.ready type)).map fun p =>
      { s with
        opQueue := Function.update s.opQueue type p.left
        trySpeculative := Function.update s.trySpeculative type (!p.exhausted)
        ready := Function.update s.ready type p.ready
        completed := s.completed ++ p.finished.map fun op => { type := type, op := op } }
  else some s

/-- `perform_io`. The first operation is completed by the caller, the others are posted. -/
def performIo (events : Events) (attempts : OpType → List Attempt) (s : State) : Option State :=
  (performType events attempts .except s).bind fun s =>
    (performType events attempts .write s).bind (performType events attempts .read)

/-! ## Cancelling -/

def abort (type : OpType) (ops : List ReactorOp) : List Ended :=
  ops.map fun op =>
    { type := type, op := { op with ec := some .operationAborted }, aborted := true }

/-- All operations leave their queues with `operation_aborted`. -/
def abortAll (s : State) : State :=
  { s with
    opQueue := fun _ => []
    completed := s.completed ++ (abort .read (s.opQueue .read) ++
      (abort .write (s.opQueue .write) ++ abort .except (s.opQueue .except))) }

def cancelOps (s : State) : State := if s.attached then abortAll s else s

def cancelOpsByKey (type : OpType) (cancellationKey : ℕ) (s : State) : State :=
  if s.attached then
    { s with
      opQueue := Function.update s.opQueue type
        ((s.opQueue type).filter fun op => op.cancellationKey ≠ cancellationKey)
      completed := s.completed ++ abort type
        ((s.opQueue type).filter fun op => op.cancellationKey = cancellationKey) }
  else s

/-- `deregister_descriptor`. A descriptor that is going to be closed stays in `epoll` until then. -/
def deregister (closing : Bool) (s : State) : State :=
  if !s.attached then s
  else if s.shutdown then { s with attached := false }
  else { abortAll s with shutdown := true, closing := true, inEpoll := s.inEpoll && closing }

/-- `cleanup_descriptor_data`, after the descriptor has been closed. -/
def cleanup (s : State) : State :=
  { s with attached := false, live := false, closing := false, inEpoll := false }

/-- `epoll_reactor::shutdown`. -/
def shutdownReactor (s : State) : State :=
  if s.live then
    { s with
      reactorShutdown := true
      opQueue := fun _ => []
      abandoned := s.abandoned ++
        (s.opQueue .read ++ (s.opQueue .write ++ s.opQueue .except))
      shutdown := true
      live := false }
  else { s with reactorShutdown := true }

/-! ## Steps -/

def register (ready : OpType → Bool) (supported : Bool) (s : State) : State :=
  { s with
    attached := true
    live := true
    shutdown := false
    trySpeculative := fun _ => true
    registeredEvents := if supported then baseEvents else {}
    inEpoll := supported
    ready := ready
    edge := fun j => supported && ready j && baseEvents.has j }

def step (s : State) : Label → Option State
  | .register ready supported =>
    if s.attached ∨ s.reactorShutdown then none else some (register ready supported s)
  | .startOp type cancellationKey allowSpeculative attempt ctl =>
    if s.closing then none
    else
      let op : ReactorOp := { id := s.nextId, cancellationKey := cancellationKey }
      some { startOp type allowSpeculative attempt ctl op s with nextId := s.nextId + 1 }
  | .cancelOps => if s.closing then none else some (cancelOps s)
  | .cancelOpsByKey type cancellationKey =>
    if s.closing then none else some (cancelOpsByKey type cancellationKey s)
  | .deregister closing => if s.closing then none else some (deregister closing s)
  | .cleanup => if s.closing then some (cleanup s) else none
  | .shutdown => if s.closing ∨ s.reactorShutdown then none else some (shutdownReactor s)
  | .arrive events => some { s with
      ready := fun j => s.ready j || events.concern j
      edge := fun j => s.edge j || (s.inEpoll && events.concern j &&
        (s.registeredEvents.has j || events.epollErr || events.epollHup)) }
  | .lapse type => some (setReady type false s)
  -- when the task runs, what it has returned before has been dequeued
  | .epollWait events =>
    if s.inEpoll ∧ ¬ s.reactorShutdown ∧ s.returned = none ∧
        ∀ j, s.edge j → s.ready j → events.concern j then
      some { s with edge := fun _ => false, returned := some events }
    else none
  | .dequeue =>
    match s.returned with
    | some events => some { s with returned := none, performing := s.performing ++ [events] }
    | none => none
  | .performIo i attempts =>
    match s.performing[i]? with
    | some events => performIo events attempts { s with performing := s.performing.eraseIdx i }
    | none => none

def initial : State := {}

end AsioLearn.Detail.Descriptor
