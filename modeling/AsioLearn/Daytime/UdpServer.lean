import AsioLearn.Asio
import AsioLearn.Lib.Lts
import AsioLearn.Lib.Proactor
import AsioLearn.Lib.Shared

/-!
# `udp_server`

The UDP half of the combined daytime server, which is the server of `udp_server_async.cpp` too. A
step is the completion of an operation, or one handler from its begin to its end.

* The message of a reply lives behind a `shared_ptr` that the handler of `async_send_to` holds.
* The server is captured as `this`; it lives in `main`.
* Operations complete in any order, with any error. A receive that is outstanding may write to
  `remote_endpoint_` at any time. The receive buffer is never read, so it is left out.
* `receives_of_moves`: a receive is started again by the handler of one that has succeeded only.
* `step_routed`: the replies go to the senders of the datagrams, in order.
-/

namespace AsioLearn.Daytime.UdpServer

open Proactor Shared

/-! ## Data -/

/-- `udp::endpoint`. -/
structure Endpoint where
  address : ℕ
  port : UInt16
  deriving DecidableEq, Repr

/-- `async_receive_from`, or `async_send_to` with its message and its copy of the destination. -/
inductive Task
  | receive
  | send (message : ℕ) (destination : Endpoint)
  deriving DecidableEq, Repr

def Task.isReceive : Task → Bool
  | .receive => true
  | .send _ _ => false

/-- What happens, in order: a datagram is received, and `async_send_to` is called. -/
inductive Event
  | received (sender : Endpoint)
  | asyncSendTo (message : ℕ) (text : Bytes) (destination : Endpoint)
  deriving DecidableEq, Repr

structure State where
  messages : Heap Bytes := {}
  remoteEndpoint : Endpoint := ⟨0, 0⟩
  ops : List (Op Task Result) := []
  log : List Event := []

def emit (e : Event) (s : State) : State := { s with log := s.log ++ [e] }

def startOp (t : Task) (s : State) : State := { s with ops := s.ops ++ [⟨t, none⟩] }

/-! ## Handlers -/

/-- `udp_server::start_receive`. -/
def startReceive (s : State) : State := startOp .receive s

/-- `socket_.async_send_to`: the handler captures `message`, and the operation copies the
destination. -/
def asyncSendTo (message : ℕ) (text : Bytes) (s : State) : State :=
  let s := { s with messages := s.messages.retain message }
  startOp (.send message s.remoteEndpoint) (emit (.asyncSendTo message text s.remoteEndpoint) s)

/-- `udp_server::handle_receive`; `now` is what `make_daytime_string` returns. -/
def handleReceive (error : Option ErrorCode) (now : Bytes) (s : State) : State :=
  match error with
  | none =>
    let (message, messages) := s.messages.make now
    let s := startReceive (asyncSendTo message now { s with messages := messages })
    { s with messages := s.messages.release message }
  | some _ => s

/-- Run the handler of a completed operation. The parameter `message` of `handle_send`, which does
nothing, is a copy of what the handler holds; both are dropped in the end. -/
def runHandler (now : Bytes) (t : Task) (r : Result) (s : State) : State :=
  match t with
  | .receive => handleReceive r.ec now s
  | .send message _ =>
    let s := { s with messages := s.messages.retain message }
    { s with messages := (s.messages.release message).release message }

/-! ## Steps -/

/-- How an operation completes. -/
inductive Outcome
  | failed (ec : ErrorCode)
  | received (sender : Endpoint) (n : ℕ)
  | sentTo (n : ℕ)
  deriving DecidableEq, Repr

/-- The result an outcome gives an operation, if the operation can complete so. -/
def Outcome.result? : Outcome → Task → Option Result
  | .failed ec, _ => some (.error ec)
  | .received _ n, .receive => if n ≤ 1 then some (.ok n) else none
  | .sentTo n, .send _ _ => some (.ok n)
  | _, _ => none

/-- The sender of a datagram is placed in `remote_endpoint_`. -/
def Outcome.deliver (out : Outcome) (t : Task) (s : State) : State :=
  match out, t with
  | .received sender _, .receive => emit (.received sender) { s with remoteEndpoint := sender }
  | _, _ => s

inductive Label
  | complete (i : ℕ) (out : Outcome)
  | overwrite (endpoint : Endpoint)
  | run (i : ℕ) (now : Bytes)
  deriving DecidableEq, Repr

/-- One step. -/
def step (s : State) : Label → Option State
  | .complete i out =>
    match pick s.ops i with
    | some (before, ⟨t, none⟩, after) =>
      match out.result? t with
      | some res => some (out.deliver t { s with ops := before ++ ⟨t, some res⟩ :: after })
      | none => none
    | _ => none
  | .overwrite endpoint =>
    if ⟨.receive, none⟩ ∈ s.ops then some { s with remoteEndpoint := endpoint } else none
  | .run i now =>
    match pick s.ops i with
    | some (before, ⟨t, some r⟩, after) =>
      some (runHandler now t r { s with ops := before ++ after })
    | _ => none

/-- `udp_server::udp_server`. -/
def init : State := startReceive {}

/-- The steps from a state, each with its guards and the state after it. -/
inductive Moves (s : State) : Label → State → Prop
  | complete (i : ℕ) (out : Outcome) (before after : List (Op Task Result)) (t : Task)
      (res : Result) : pick s.ops i = some (before, ⟨t, none⟩, after) →
      out.result? t = some res →
      Moves s (.complete i out) (out.deliver t { s with ops := before ++ ⟨t, some res⟩ :: after })
  | overwrite (endpoint : Endpoint) : ⟨.receive, none⟩ ∈ s.ops →
      Moves s (.overwrite endpoint) { s with remoteEndpoint := endpoint }
  | run (i : ℕ) (now : Bytes) (before after : List (Op Task Result)) (t : Task) (r : Result) :
      pick s.ops i = some (before, ⟨t, some r⟩, after) →
      Moves s (.run i now) (runHandler now t r { s with ops := before ++ after })

theorem moves_of_step {s s' : State} {l : Label} (h : step s l = some s') : Moves s l s' := by
  cases l with
  | complete i out =>
    simp only [step] at h
    split at h
    · rename_i before t after hp
      split at h
      · rename_i res hres
        obtain rfl := Option.some.inj h
        exact .complete i out before after t res hp hres
      · exact absurd h (by simp)
    · exact absurd h (by simp)
  | overwrite endpoint =>
    simp only [step] at h
    split_ifs at h with hmem
    obtain rfl := Option.some.inj h
    exact .overwrite endpoint hmem
  | run i now =>
    simp only [step] at h
    split at h
    · rename_i before t r after hp
      obtain rfl := Option.some.inj h
      exact .run i now before after t r hp
    · exact absurd h (by simp)

/-! ## What is observed of the server -/

/-- The receives that are outstanding or queued. -/
def receives (s : State) : ℕ := s.ops.countP fun op => op.task.isReceive

/-- The sender of a datagram that has been received. -/
def Event.sender? : Event → Option Endpoint
  | .received sender => some sender
  | .asyncSendTo _ _ _ => none

/-- What `async_send_to` is called with: the message, its text and the destination. -/
structure Reply where
  message : ℕ
  text : Bytes
  destination : Endpoint
  deriving DecidableEq, Repr

def Event.reply? : Event → Option Reply
  | .received _ => none
  | .asyncSendTo message text destination => some ⟨message, text, destination⟩

def senders (s : State) : List Endpoint := s.log.filterMap Event.sender?

/-- The replies that have been started. -/
def replies (s : State) : List Reply := s.log.filterMap Event.reply?

def destinations (s : State) : List Endpoint := (replies s).map Reply.destination

/-- A receive that has succeeded and whose handler has not run. -/
def isReceived (op : Op Task Result) : Bool :=
  op.task.isReceive && op.result.any fun r => r.ec.isNone

/-- The datagrams that have been received and are not answered yet. -/
def unanswered (s : State) : ℕ := s.ops.countP isReceived

section

variable (message : ℕ) (text : Bytes) (s : State)

@[simp] theorem senders_asyncSendTo : senders (asyncSendTo message text s) = senders s := by
  simp [senders, asyncSendTo, startOp, emit, Event.sender?]

@[simp] theorem replies_asyncSendTo :
    replies (asyncSendTo message text s) = replies s ++ [⟨message, text, s.remoteEndpoint⟩] := by
  simp [replies, asyncSendTo, startOp, emit, Event.reply?]

@[simp] theorem receives_asyncSendTo : receives (asyncSendTo message text s) = receives s := by
  simp [receives, asyncSendTo, startOp, emit, Task.isReceive]

@[simp] theorem unanswered_asyncSendTo :
    unanswered (asyncSendTo message text s) = unanswered s := by
  simp [unanswered, asyncSendTo, startOp, emit, isReceived]

@[simp] theorem receives_startReceive : receives (startReceive s) = receives s + 1 := by
  simp [receives, startReceive, startOp, Task.isReceive]

@[simp] theorem unanswered_startReceive : unanswered (startReceive s) = unanswered s := by
  simp [unanswered, startReceive, startOp, isReceived]

/-- The completion of an operation may place a sender in `remote_endpoint_`. -/
theorem deliver_eq (out : Outcome) (t : Task) : ∃ endpoint es, (∀ e ∈ es, e.reply? = none) ∧
    out.deliver t s = { s with remoteEndpoint := endpoint, log := s.log ++ es } := by
  unfold Outcome.deliver
  split
  · rename_i sender n
    exact ⟨sender, [.received sender], by simp [Event.reply?], rfl⟩
  · exact ⟨s.remoteEndpoint, [], by simp, by rw [List.append_nil]⟩

@[simp] theorem replies_deliver (out : Outcome) (t : Task) :
    replies (out.deliver t s) = replies s := by
  obtain ⟨endpoint, es, hes, hs⟩ := deliver_eq s out t
  rw [hs]
  simp only [replies, List.filterMap_append, List.filterMap_eq_nil_iff.mpr hes, List.append_nil]

end

/-! ## Receiving -/

/-- The step runs the handler of a receive that has failed. -/
def endsReceiving (s : State) : Label → Bool
  | .run i _ =>
    match pick s.ops i with
    | some (_, ⟨.receive, some r⟩, _) => r.ec.isSome
    | _ => false
  | _ => false

/-- A receive that has failed is not started again, and every other one is. -/
theorem receives_of_moves {s s' : State} {l : Label} (hm : Moves s l s') :
    receives s' + (endsReceiving s l).toNat = receives s := by
  cases hm with
  | complete i out before after t res hp =>
    obtain ⟨endpoint, es, -, hs⟩ :=
      deliver_eq { s with ops := before ++ ⟨t, some res⟩ :: after } out t
    rw [hs]
    simp [receives, endsReceiving, pick_eq_some hp, List.countP_cons]
  | overwrite endpoint => rfl
  | run i now before after t r hp =>
    cases t with
    | send message destination =>
      have hends : endsReceiving s (.run i now) = false := by simp only [endsReceiving, hp]
      rw [hends]
      simp [receives, runHandler, pick_eq_some hp, Task.isReceive]
    | receive =>
      have hbefore : receives s = receives { s with ops := before ++ after } + 1 := by
        simp [receives, pick_eq_some hp, Task.isReceive]
        omega
      have hends : endsReceiving s (.run i now) = r.ec.isSome := by
        simp [endsReceiving, hp]
      rw [hends, hbefore]
      show receives (handleReceive r.ec now _) + _ = _
      unfold handleReceive
      cases r.ec with
      | none =>
        show receives (startReceive (asyncSendTo _ now _)) + 0 = _
        rw [receives_startReceive, receives_asyncSendTo]
        rfl
      | some ec => rfl

/-! ## Routing -/

/-- Every reply goes to the sender of its datagram, in order, and `remote_endpoint_` is the sender
of the one that is not answered yet. -/
structure Routed (s : State) : Prop where
  one : receives s ≤ 1
  senders : senders s = destinations s ++ List.replicate (unanswered s) s.remoteEndpoint

section

variable {s s' : State}

theorem countP_isReceived_le (ops : List (Op Task Result)) :
    ops.countP isReceived ≤ ops.countP fun op => op.task.isReceive := by
  apply List.countP_mono_left
  intro op _ h
  exact ((Bool.and_eq_true ..).mp h).1

theorem unanswered_le_receives (s : State) : unanswered s ≤ receives s :=
  countP_isReceived_le s.ops

/-- Beside one receive there is no other. -/
theorem countP_isReceived_eq_zero {before after : List (Op Task Result)} {res : Option Result}
    (hone : receives s ≤ 1) (hops : s.ops = before ++ ⟨.receive, res⟩ :: after) :
    (before ++ after).countP isReceived = 0 := by
  have hle := countP_isReceived_le (before ++ after)
  unfold receives at hone
  rw [hops, countP_besides] at hone
  have hnone : (before ++ after).countP (fun op => op.task.isReceive) = 0 :=
    Nat.le_zero.mp (Nat.le_of_succ_le_succ hone)
  omega

/-- While a receive is outstanding every datagram is answered. -/
theorem unanswered_eq_zero (hone : receives s ≤ 1) (h : ⟨.receive, none⟩ ∈ s.ops) :
    unanswered s = 0 := by
  obtain ⟨before, after, hops⟩ := List.append_of_mem h
  unfold unanswered
  rw [hops, countP_besides, countP_isReceived_eq_zero hone hops]
  rfl

/-- An operation completes. -/
theorem routed_complete (h : Routed s) {before after : List (Op Task Result)} {t : Task}
    {out : Outcome} {res : Result} (hops : s.ops = before ++ ⟨t, none⟩ :: after)
    (hres : out.result? t = some res)
    (hone : receives (out.deliver t { s with ops := before ++ ⟨t, some res⟩ :: after }) ≤ 1) :
    Routed (out.deliver t { s with ops := before ++ ⟨t, some res⟩ :: after }) := by
  refine ⟨hone, ?_⟩
  have hbefore : unanswered s =
      (before ++ after).countP isReceived + (isReceived ⟨t, none⟩).toNat := by
    unfold unanswered
    rw [hops, countP_besides]
  have hafter := countP_besides isReceived before after ⟨t, some res⟩
  have hnone : isReceived ⟨t, none⟩ = false := Bool.and_false _
  -- unless a datagram arrives, as many wait for their replies as before
  have hquiet : isReceived ⟨t, some res⟩ = false → senders s = destinations s ++
      List.replicate ((before ++ ⟨t, some res⟩ :: after).countP isReceived) s.remoteEndpoint := by
    intro hno
    rw [hafter, hno, ← hnone, ← hbefore]
    exact h.senders
  cases out with
  | failed ec =>
    obtain rfl : .error ec = res := Option.some.inj hres
    exact hquiet (Bool.and_false _)
  | sentTo n =>
    cases t with
    | receive => exact absurd hres (by simp [Outcome.result?])
    | send message destination => exact hquiet rfl
  | received sender n =>
    cases t with
    | send message destination => exact absurd hres (by simp [Outcome.result?])
    | receive =>
      simp only [Outcome.result?] at hres
      split_ifs at hres
      obtain rfl : .ok n = res := Option.some.inj hres
      have hrest := countP_isReceived_eq_zero h.one hops
      have hsenders := h.senders
      rw [hbefore, hrest, hnone] at hsenders
      rw [hrest] at hafter
      show (s.log ++ [Event.received sender]).filterMap Event.sender? =
        ((s.log ++ [Event.received sender]).filterMap Event.reply?).map Reply.destination ++
          List.replicate (List.countP isReceived (before ++ ⟨.receive, some (.ok n)⟩ :: after))
            sender
      rw [hafter, List.filterMap_append, List.filterMap_append]
      show senders s ++ [sender] = (replies s ++ []).map Reply.destination ++ [sender]
      rw [hsenders]
      simp [destinations]

/-- A handler runs. -/
theorem routed_run (h : Routed s) {before after : List (Op Task Result)} {t : Task} {r : Result}
    (hops : s.ops = before ++ ⟨t, some r⟩ :: after) (now : Bytes)
    (hone : receives (runHandler now t r { s with ops := before ++ after }) ≤ 1) :
    Routed (runHandler now t r { s with ops := before ++ after }) := by
  refine ⟨hone, ?_⟩
  have hsenders := h.senders
  unfold unanswered at hsenders
  rw [hops, countP_besides] at hsenders
  cases t with
  | send message destination => exact hsenders
  | receive =>
    have hrest := countP_isReceived_eq_zero h.one hops
    rw [hrest] at hsenders
    show senders (handleReceive r.ec now _) =
      destinations (handleReceive r.ec now _) ++
        List.replicate (unanswered (handleReceive r.ec now _))
          (handleReceive r.ec now _).remoteEndpoint
    cases hec : r.ec with
    | some ec =>
      have hfailed : isReceived ⟨.receive, some r⟩ = false := by
        simp [isReceived, hec]
      rw [hfailed] at hsenders
      show senders s = destinations s ++
        List.replicate ((before ++ after).countP isReceived) s.remoteEndpoint
      rw [hrest]
      exact hsenders
    | none =>
      have hreceived : isReceived ⟨.receive, some r⟩ = true := by
        simp [isReceived, Task.isReceive, hec]
      rw [hreceived] at hsenders
      set u : State := { s with
        messages := (s.messages.make now).2
        ops := before ++ after } with hu
      have hrestu : unanswered u = 0 := hrest
      show senders (asyncSendTo s.messages.next now u) =
        destinations (asyncSendTo s.messages.next now u) ++ List.replicate
          (unanswered (startReceive (asyncSendTo s.messages.next now u))) s.remoteEndpoint
      unfold destinations
      rw [senders_asyncSendTo, replies_asyncSendTo, unanswered_startReceive,
        unanswered_asyncSendTo, hrestu, List.map_append, List.replicate_zero, List.append_nil]
      exact hsenders

/-- Every step keeps the routing. -/
theorem step_routed (h : Routed s) {l : Label} (hs : step s l = some s') : Routed s' := by
  have hm := moves_of_step hs
  have hone : receives s' ≤ 1 := by
    have hcount := receives_of_moves hm
    have hold := h.one
    omega
  cases hm with
  | complete i out before after t res hp hres =>
    exact routed_complete h (pick_eq_some hp) hres hone
  | overwrite endpoint hmem =>
    have hsenders := h.senders
    rw [unanswered_eq_zero h.one hmem] at hsenders
    refine ⟨hone, ?_⟩
    show senders s = destinations s ++ List.replicate (unanswered s) endpoint
    rw [unanswered_eq_zero h.one hmem]
    exact hsenders
  | run i now before after t r hp => exact routed_run h (pick_eq_some hp) now hone

theorem routed_init : Routed init := ⟨by decide, rfl⟩

end

end AsioLearn.Daytime.UdpServer
