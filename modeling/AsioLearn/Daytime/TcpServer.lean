import AsioLearn.Asio
import AsioLearn.Lib.Lts
import AsioLearn.Lib.Proactor
import AsioLearn.Lib.Shared

/-!
# `tcp_server` and `tcp_connection`

The TCP half of the combined daytime server. A step is the completion of an operation, or one
handler from its begin to its end.

* A `tcp_connection` lives behind a `shared_ptr`. The handler that an operation stores holds a
  reference; the functions below copy and drop references where the code does.
* The server is captured as `this`; it lives in `main`.
* Operations complete in any order, with any error.
* `Invariant`: an accept is always there, and a connection that is written to is alive.
-/

namespace AsioLearn.Daytime.TcpServer

open Proactor Shared Lts

/-! ## Data -/

/-- `tcp_connection`. -/
structure Connection where
  message : Bytes := []
  deriving DecidableEq, Repr

/-- `async_accept` into a connection, or a step of its `async_write` with the size of the buffer
and the number of bytes consumed so far. -/
inductive Task
  | accept (conn : ℕ)
  | write (conn size sent : ℕ)
  deriving DecidableEq, Repr

def Task.isAccept : Task → Bool
  | .accept _ => true
  | .write _ _ _ => false

/-- The connection that the handler of an operation holds. -/
def Task.conn : Task → ℕ
  | .accept conn | .write conn _ _ => conn

/-- What happens, in order: a connection is accepted, and `async_write` is called on one. -/
inductive Event
  | accepted (conn : ℕ)
  | asyncWrite (conn : ℕ) (message : Bytes)
  deriving DecidableEq, Repr

structure State where
  connections : Heap Connection := {}
  ops : List (Op Task Result) := []
  log : List Event := []

def emit (e : Event) (s : State) : State := { s with log := s.log ++ [e] }

/-! ## Handlers -/

/-- After this result the `write_op` of a buffer of this size is over and calls its handler. -/
def endsWrite (size sent : ℕ) (r : Result) : Bool :=
  r.ec.isSome || (r.length == 0 || decide (size ≤ sent + r.length))

/-- `async_write_some` of an `async_write`; a request to write nothing completes at once. -/
def writeSome (conn size sent : ℕ) (s : State) : State :=
  { s with ops := s.ops ++ [⟨.write conn size sent, if size ≤ sent then some (.ok 0) else none⟩] }

/-- `tcp_connection::start`; `now` is what `make_daytime_string` returns. -/
def start (conn : ℕ) (now : Bytes) (s : State) : State :=
  let s := { s with connections := s.connections.modify conn fun _ => ⟨now⟩ }
  -- `shared_from_this()` is captured by the handler
  let s := { s with connections := s.connections.retain conn }
  writeSome conn now.length 0 (emit (.asyncWrite conn now) s)

/-- `tcp_server::start_accept`. -/
def startAccept (s : State) : State :=
  let (newConnection, connections) := s.connections.make {}
  -- `new_connection` is captured by the handler, and then goes out of scope
  { s with
    connections := (connections.retain newConnection).release newConnection
    ops := s.ops ++ [⟨.accept newConnection, none⟩] }

/-- `tcp_server::handle_accept`. -/
def handleAccept (newConnection : ℕ) (error : Option ErrorCode) (now : Bytes) (s : State) : State :=
  match error with
  | none => startAccept (start newConnection now s)
  | some _ => startAccept s

/-- Run the handler of a completed operation. The parameter `new_connection` is a copy of what the
handler holds; both are dropped in the end. `handle_write` does nothing. -/
def runHandler (now : Bytes) (t : Task) (r : Result) (s : State) : State :=
  match t with
  | .accept conn =>
    let s := handleAccept conn r.ec now { s with connections := s.connections.retain conn }
    { s with connections := (s.connections.release conn).release conn }
  | .write conn size sent =>
    if endsWrite size sent r then { s with connections := s.connections.release conn }
    else writeSome conn size (sent + r.length) s

/-! ## Steps -/

/-- How an operation completes. -/
inductive Outcome
  | failed (ec : ErrorCode)
  | accepted
  | wrote (n : ℕ)
  deriving DecidableEq, Repr

/-- The result an outcome gives an operation, if the operation can complete so. -/
def Outcome.result? : Outcome → Task → Option Result
  | .failed ec, _ => some (.error ec)
  | .accepted, .accept _ => some (.ok 0)
  | .wrote n, .write _ size sent =>
    if 0 < n ∧ n ≤ min (size - sent) maxTransfer then some (.ok n) else none
  | _, _ => none

def Outcome.deliver (out : Outcome) (t : Task) (s : State) : State :=
  match out, t with
  | .accepted, .accept conn => emit (.accepted conn) s
  | _, _ => s

inductive Label
  | complete (i : ℕ) (out : Outcome)
  | run (i : ℕ) (now : Bytes)
  deriving DecidableEq, Repr

/-- One step. -/
def step (s : State) : Label → Option State
  | .complete i out =>
    match pick s.ops i with
    | some (before, ⟨t, none⟩, after) =>
      match out.result? t with
      | some res => some (out.deliver t { s with ops := before ++ ⟨t, some res⟩ :: after })
      | none => none
    | _ => none
  | .run i now =>
    match pick s.ops i with
    | some (before, ⟨t, some r⟩, after) =>
      some (runHandler now t r { s with ops := before ++ after })
    | _ => none

/-- `tcp_server::tcp_server`. -/
def init : State := startAccept {}

/-- The steps from a state, each with its guards and the state after it. -/
inductive Moves (s : State) : Label → State → Prop
  | complete (i : ℕ) (out : Outcome) (before after : List (Op Task Result)) (t : Task)
      (res : Result) : pick s.ops i = some (before, ⟨t, none⟩, after) →
      out.result? t = some res →
      Moves s (.complete i out) (out.deliver t { s with ops := before ++ ⟨t, some res⟩ :: after })
  | run (i : ℕ) (now : Bytes) (before after : List (Op Task Result)) (t : Task) (r : Result) :
      pick s.ops i = some (before, ⟨t, some r⟩, after) →
      Moves s (.run i now) (runHandler now t r { s with ops := before ++ after })

theorem moves_of_step {s s' : State} {l : Label} (h : step s l = some s') : Moves s l s' := by
  cases l with
  | complete i out =>
    simp only [step] at h
    split at h
    · rename_i before t after hp
      split at h
      · rename_i res hres
        obtain rfl := Option.some.inj h
        exact .complete i out before after t res hp hres
      · exact absurd h (by simp)
    · exact absurd h (by simp)
  | run i now =>
    simp only [step] at h
    split at h
    · rename_i before t r after hp
      obtain rfl := Option.some.inj h
      exact .run i now before after t r hp
    · exact absurd h (by simp)

/-! ## What the server keeps up -/

/-- The connections that the handlers of the operations hold. -/
def held (ops : List (Op Task Result)) : List ℕ := ops.map fun op => op.task.conn

/-- How often `async_write` has been called on a connection. -/
def writesOn (conn : ℕ) (log : List Event) : ℕ :=
  log.countP fun
    | .asyncWrite c _ => c == conn
    | .accepted _ => false

/-- Whether the connection has been accepted, and its handler is still to run. -/
def isQueued (conn : ℕ) (op : Op Task Result) : Bool :=
  op.task == .accept conn && op.result.any fun r => r.ec.isNone

/-- One accept is outstanding or queued; `async_write` is called once on every connection that has
been accepted, when its handler runs; a connection that is written to is alive, with the message
that `async_write` was given. -/
structure Serving (s : State) : Prop where
  accept : s.ops.countP (fun op => op.task.isAccept) = 1
  writes : ∀ conn, writesOn conn s.log + s.ops.countP (isQueued conn) =
    if .accepted conn ∈ s.log then 1 else 0
  alive : ∀ op ∈ s.ops, ∀ conn size sent, op.task = .write conn size sent →
    ∃ c, s.connections.get conn = some c ∧ .asyncWrite conn c.message ∈ s.log

/-- What every step keeps. -/
structure Invariant (s : State) : Prop extends Serving s where
  counts : Counts (held s.ops) s.connections
  nodup : (held s.ops).Nodup
  pending : ∀ op ∈ s.ops, ∀ conn, op.task = .accept conn → op.result = none →
    .accepted conn ∉ s.log
  fresh : ∀ conn, .accepted conn ∈ s.log → conn < s.connections.next

section

variable {s s' : State} {refs : List ℕ}

/-! ## References -/

theorem counts_startAccept (h : Counts refs s.connections) :
    Counts (s.connections.next :: refs) (startAccept s).connections :=
  counts_release (counts_retain (counts_make h {}) List.mem_cons_self)

theorem get_startAccept (h : Counts refs s.connections) {conn : ℕ} (hconn : conn ∈ refs) :
    (startAccept s).connections.get conn = s.connections.get conn := by
  have hmade := counts_retain (counts_make h {}) List.mem_cons_self
  have hthere : conn ∈ s.connections.next :: refs := List.mem_cons_of_mem _ hconn
  show ((((s.connections.make {}).2.retain s.connections.next)).release s.connections.next).get
    conn = _
  rw [hmade.get_release hthere, Heap.get_retain, h.get_make {} hconn]

theorem counts_start {conn : ℕ} (h : Counts refs s.connections) (hconn : conn ∈ refs)
    (now : Bytes) : Counts (conn :: refs) (start conn now s).connections :=
  counts_retain (counts_modify h conn fun _ => ⟨now⟩) hconn

theorem get_start_self {conn : ℕ} (h : Counts refs s.connections) (hconn : conn ∈ refs)
    (now : Bytes) : (start conn now s).connections.get conn = some ⟨now⟩ := by
  obtain ⟨c, hc⟩ := h.get_of_mem hconn
  show ((s.connections.modify conn fun _ => (⟨now⟩ : Connection)).retain conn).get conn = _
  rw [Heap.get_retain, Heap.get_modify_self, hc]
  rfl

theorem get_start_of_ne {conn other : ℕ} (hne : other ≠ conn) (now : Bytes) :
    (start conn now s).connections.get other = s.connections.get other := by
  show ((s.connections.modify conn fun _ => (⟨now⟩ : Connection)).retain conn).get other = _
  rw [Heap.get_retain, Heap.get_modify_of_ne _ _ hne]

/-! ## The handler of an accept -/

/-- What the handler of an accept leaves, with the operations `rest` besides its own. -/
structure Accepted (s s' : State) (rest new : List (Op Task Result)) : Prop where
  ops : s'.ops = rest ++ (new ++ [⟨.accept s.connections.next, none⟩])
  counts : Counts (held s'.ops) s'.connections
  get : ∀ conn ∈ held rest, s'.connections.get conn = s.connections.get conn
  next : s'.connections.next = s.connections.next + 1

/-- The two references that are dropped in the end. -/
theorem counts_held (rest new : List (Op Task Result)) {conn next : ℕ} {h : Heap Connection}
    (hcounts : Counts (next :: conn :: conn :: (held new ++ held rest)) h) :
    Counts (held (rest ++ (new ++ [⟨.accept next, none⟩]))) ((h.release conn).release conn) ∧
      ∀ p ∈ held new ++ held rest, ((h.release conn).release conn).get p = h.get p := by
  have hfirst : Counts (conn :: conn :: next :: (held new ++ held rest)) h := by
    apply hcounts.congr
    intro p
    simp only [List.count_cons]
    omega
  have hsecond := counts_release hfirst
  refine ⟨(counts_release hsecond).congr ?_, ?_⟩
  · intro p
    simp only [held, List.map_append, List.count_append, List.count_cons, List.map_cons,
      List.map_nil, List.count_nil, Task.conn]
    omega
  · intro p hp
    have hthere : p ∈ next :: (held new ++ held rest) := List.mem_cons_of_mem _ hp
    rw [hsecond.get_release hthere, hfirst.get_release (List.mem_cons_of_mem _ hthere)]

/-- A failed accept: a new connection is made for the next one. -/
theorem accepted_failed {conn : ℕ} {r : Result} (now : Bytes) {ec : ErrorCode}
    (hr : r.ec = some ec) (h : Counts (conn :: held s.ops) s.connections) :
    Accepted s (runHandler now (.accept conn) r s) s.ops [] ∧
      (runHandler now (.accept conn) r s).log = s.log := by
  set u : State := { s with connections := s.connections.retain conn } with hu
  have hretain : Counts (conn :: conn :: held s.ops) u.connections :=
    counts_retain h List.mem_cons_self
  obtain ⟨hcounts, hget⟩ := counts_held s.ops [] (counts_startAccept hretain)
  have hrun : runHandler now (.accept conn) r s = { startAccept u with
      connections := ((startAccept u).connections.release conn).release conn } := by
    simp only [runHandler, handleAccept, hr, hu]
  rw [hrun]
  refine ⟨⟨rfl, hcounts, ?_, rfl⟩, rfl⟩
  intro p hp
  have hthere : p ∈ conn :: conn :: held s.ops := by simp [hp]
  show (((startAccept u).connections.release conn).release conn).get p = _
  rw [hget p hp, get_startAccept hretain hthere, hu, Heap.get_retain]

/-- A connection that has been accepted: `async_write` is called on it as well. -/
theorem accepted_ok {conn : ℕ} {r : Result} (now : Bytes) (hr : r.ec = none)
    (h : Counts (conn :: held s.ops) s.connections) (hnodup : (conn :: held s.ops).Nodup) :
    (∃ res, Accepted s (runHandler now (.accept conn) r s) s.ops
        [⟨.write conn now.length 0, res⟩]) ∧
      (runHandler now (.accept conn) r s).connections.get conn = some ⟨now⟩ ∧
      (runHandler now (.accept conn) r s).log = s.log ++ [.asyncWrite conn now] := by
  set u : State := { s with connections := s.connections.retain conn } with hu
  have hretain : Counts (conn :: conn :: held s.ops) u.connections :=
    counts_retain h List.mem_cons_self
  have hstart := counts_start hretain List.mem_cons_self now
  set res : Option Result := if now.length ≤ 0 then some (.ok 0) else none with hres
  have hshared : Counts (s.connections.next :: conn :: conn ::
      (held [⟨.write conn now.length 0, res⟩] ++ held s.ops))
      (startAccept (start conn now u)).connections := counts_startAccept hstart
  obtain ⟨hcounts, hget⟩ := counts_held s.ops [⟨.write conn now.length 0, res⟩] hshared
  have hrun : runHandler now (.accept conn) r s = { startAccept (start conn now u) with
      connections :=
        ((startAccept (start conn now u)).connections.release conn).release conn } := by
    simp only [runHandler, handleAccept, hr, hu]
  rw [hrun]
  refine ⟨⟨res, ?_, ?_, ?_, rfl⟩, ?_, rfl⟩
  · show s.ops ++ [_] ++ [_] = _
    rw [List.append_assoc]
    rfl
  · show Counts (held (s.ops ++ [_] ++ [_])) _
    rw [List.append_assoc]
    exact hcounts
  · intro p hp
    have hne : p ≠ conn := by
      rintro rfl
      exact (List.nodup_cons.mp hnodup).1 hp
    have hthere : p ∈ conn :: conn :: conn :: held s.ops := by simp [hp]
    show (((startAccept (start conn now u)).connections.release conn).release conn).get p = _
    rw [hget p (List.mem_append_right _ hp), get_startAccept hstart hthere,
      get_start_of_ne hne, hu, Heap.get_retain]
  · have hthere : conn ∈ held [⟨.write conn now.length 0, res⟩] ++ held s.ops :=
      List.mem_append_left _ List.mem_cons_self
    show (((startAccept (start conn now u)).connections.release conn).release conn).get conn = _
    rw [hget conn hthere, get_startAccept hstart List.mem_cons_self,
      get_start_self hretain List.mem_cons_self]

/-! ## Every step -/

/-- What holds of the operations besides one that has been singled out. -/
structure Besides (s : State) (op : Op Task Result) (rest : List (Op Task Result)) : Prop where
  accept : rest.countP (fun o => o.task.isAccept) + op.task.isAccept.toNat = 1
  counts : Counts (op.task.conn :: held rest) s.connections
  nodup : (op.task.conn :: held rest).Nodup
  writes : ∀ conn, writesOn conn s.log + (rest.countP (isQueued conn) + (isQueued conn op).toNat) =
    if .accepted conn ∈ s.log then 1 else 0
  mem : ∀ o ∈ rest, o ∈ s.ops

theorem Invariant.besides (h : Invariant s) {before after : List (Op Task Result)}
    {op : Op Task Result} (hops : s.ops = before ++ op :: after) :
    Besides s op (before ++ after) := by
  have hheld : held s.ops = held before ++ op.task.conn :: held after := by
    rw [hops]
    simp [held]
  have hrest : held (before ++ after) = held before ++ held after := List.map_append
  have hcounts := h.counts
  have hnodup := h.nodup
  rw [hheld] at hcounts hnodup
  refine ⟨?_, hcounts.congr ?_, ?_, ?_, ?_⟩
  · have haccept := h.accept
    rwa [hops, countP_besides] at haccept
  · intro p
    rw [hrest, List.count_cons, List.count_append, List.count_append, List.count_cons]
    omega
  · rw [hrest]
    exact (List.perm_middle.nodup_iff).mp hnodup
  · intro conn
    have hwrites := h.writes conn
    rwa [hops, countP_besides] at hwrites
  · intro o ho
    rw [hops]
    exact mem_of_mem_rest ho

theorem mem_held {rest : List (Op Task Result)} {op : Op Task Result} (hop : op ∈ rest) :
    op.task.conn ∈ held rest := List.mem_map.mpr ⟨op, hop, rfl⟩

/-- An operation that is given its result. -/
theorem mem_completed {before after : List (Op Task Result)} {t : Task} {res : Result}
    (hops : s.ops = before ++ ⟨t, none⟩ :: after) {op : Op Task Result}
    (hop : op ∈ before ++ ⟨t, some res⟩ :: after) :
    (op.result = some res ∧ op.task = t ∧ ⟨t, none⟩ ∈ s.ops) ∨ op ∈ before ++ after := by
  rcases List.mem_append.mp hop with hop | hop
  · exact Or.inr (List.mem_append_left _ hop)
  · rcases List.mem_cons.mp hop with rfl | hop
    · exact Or.inl ⟨rfl, rfl, by rw [hops]; simp⟩
    · exact Or.inr (List.mem_append_right _ hop)

/-- What the completion of an operation leaves as it was. -/
theorem invariant_complete_of_writes (h : Invariant s) {before after : List (Op Task Result)}
    {t : Task} (hops : s.ops = before ++ ⟨t, none⟩ :: after) {res : Result} {es : List Event}
    (hwrites : ∀ conn, writesOn conn (s.log ++ es) +
      (before ++ ⟨t, some res⟩ :: after).countP (isQueued conn) =
        if .accepted conn ∈ s.log ++ es then 1 else 0)
    (hes : ∀ conn, .accepted conn ∈ es → t.conn = conn) :
    Invariant { s with ops := before ++ ⟨t, some res⟩ :: after, log := s.log ++ es } := by
  have hb := h.besides hops
  have hheld : held (before ++ ⟨t, some res⟩ :: after) = held s.ops := by
    rw [hops]
    simp [held]
  refine ⟨⟨?_, hwrites, ?_⟩, by rw [hheld]; exact h.counts, by rw [hheld]; exact h.nodup, ?_, ?_⟩
  · rw [countP_besides]
    exact hb.accept
  · intro op hop conn size sent ht
    obtain ⟨c, hget, hmem⟩ : ∃ c, s.connections.get conn = some c ∧
        .asyncWrite conn c.message ∈ s.log := by
      rcases mem_completed hops hop with ⟨-, htask, hthere⟩ | hop
      · exact h.alive _ hthere conn size sent (htask.symm.trans ht)
      · exact h.alive op (hb.mem op hop) conn size sent ht
    exact ⟨c, hget, List.mem_append_left _ hmem⟩
  · intro op hop conn ht hnone hmem
    rcases mem_completed hops hop with ⟨hsome, -⟩ | hop
    · exact absurd (hsome.symm.trans hnone) (by simp)
    · rcases List.mem_append.mp hmem with hmem | hmem
      · exact h.pending op (hb.mem op hop) conn ht hnone hmem
      · have hconn := mem_held hop
        rw [ht] at hconn
        exact (List.nodup_cons.mp hb.nodup).1 (hes conn hmem ▸ hconn)
  · intro conn hmem
    rcases List.mem_append.mp hmem with hmem | hmem
    · exact h.fresh conn hmem
    · refine h.counts.fresh conn ?_
      have hthere := mem_held (show (⟨t, none⟩ : Op Task Result) ∈ s.ops by rw [hops]; simp)
      exact hes conn hmem ▸ hthere

/-- Of the connections only the one accepted has a handler queued that it had not before. -/
theorem writes_accept {before after : List (Op Task Result)} {conn : ℕ}
    (hb : Besides s ⟨.accept conn, none⟩ (before ++ after)) (hnew : .accepted conn ∉ s.log)
    (c : ℕ) : writesOn c (s.log ++ [.accepted conn]) +
      (before ++ ⟨.accept conn, some (.ok 0)⟩ :: after).countP (isQueued c) =
        if .accepted c ∈ s.log ++ [.accepted conn] then 1 else 0 := by
  have hw := hb.writes c
  have hnone : isQueued c ⟨.accept conn, none⟩ = false := Bool.and_false _
  rw [hnone, Bool.toNat_false, Nat.add_zero] at hw
  have hlog : writesOn c (s.log ++ [.accepted conn]) = writesOn c s.log := by simp [writesOn]
  rw [countP_besides, hlog, ← Nat.add_assoc, hw]
  by_cases hc : c = conn
  · subst hc
    rw [if_neg hnew, if_pos (by simp)]
    simp [isQueued, Result.ok]
  · have hother : isQueued c ⟨.accept conn, some (.ok 0)⟩ = false := by
      simp [isQueued, Ne.symm hc]
    have hmem : .accepted c ∈ s.log ++ [.accepted conn] ↔ .accepted c ∈ s.log := by simp [hc]
    rw [hother, Bool.toNat_false, Nat.add_zero]
    simp only [hmem]

/-- An operation completes. -/
theorem invariant_complete (h : Invariant s) {before after : List (Op Task Result)} {t : Task}
    (hops : s.ops = before ++ ⟨t, none⟩ :: after) {out : Outcome} {res : Result}
    (hres : out.result? t = some res) :
    Invariant (out.deliver t { s with ops := before ++ ⟨t, some res⟩ :: after }) := by
  have hb := h.besides hops
  -- unless a connection has been accepted, no other handler is queued
  have hquiet : (∀ conn, isQueued conn ⟨t, some res⟩ = false) →
      Invariant { s with ops := before ++ ⟨t, some res⟩ :: after } := by
    intro hno
    have hset : Invariant { s with
        ops := before ++ ⟨t, some res⟩ :: after, log := s.log ++ [] } :=
      invariant_complete_of_writes h hops (fun conn => ?_) (by simp)
    · rwa [List.append_nil] at hset
    · have hw := hb.writes conn
      have hnone : isQueued conn ⟨t, none⟩ = false := Bool.and_false _
      rw [List.append_nil, countP_besides, hno conn]
      rwa [hnone] at hw
  cases out with
  | failed ec =>
    obtain rfl : .error ec = res := Option.some.inj hres
    have hset := hquiet fun conn => Bool.and_false _
    unfold Outcome.deliver
    exact hset
  | wrote n =>
    cases t with
    | accept conn => exact absurd hres (by simp [Outcome.result?])
    | write conn size sent => exact hquiet fun _ => rfl
  | accepted =>
    cases t with
    | write conn size sent => exact absurd hres (by simp [Outcome.result?])
    | accept conn =>
      obtain rfl : .ok 0 = res := Option.some.inj hres
      have hnew : .accepted conn ∉ s.log :=
        h.pending ⟨.accept conn, none⟩ (by rw [hops]; simp) conn rfl rfl
      apply invariant_complete_of_writes h hops (writes_accept hb hnew)
      intro c hc
      exact (Event.accepted.inj (List.mem_singleton.mp hc)).symm

/-- The connection made for the next accept is new, and each operation has its own. -/
theorem nodup_accepted {conn : ℕ} {r : Result} {rest new : List (Op Task Result)}
    (hb : Besides s ⟨.accept conn, some r⟩ rest)
    (hacc : Accepted { s with ops := rest } s' rest new)
    (hnew : ∀ op ∈ new, ∃ size, op.task = .write conn size 0)
    (hnodup : (held new ++ held rest).Nodup) : (held s'.ops).Nodup := by
  have hfresh : s.connections.next ∉ held new ++ held rest := by
    intro hin
    have hno := hb.counts.not_mem_next
    rcases List.mem_append.mp hin with hin | hin
    · obtain ⟨op, hop, hconn⟩ := List.mem_map.mp hin
      obtain ⟨size, ht⟩ := hnew op hop
      rw [ht] at hconn
      exact hno (hconn ▸ List.mem_cons_self)
    · exact hno (List.mem_cons_of_mem _ hin)
  have hperm : (held s'.ops).Perm (s.connections.next :: (held new ++ held rest)) := by
    rw [List.perm_iff_count]
    intro p
    rw [hacc.ops]
    simp only [held, List.map_append, List.count_append, List.count_cons, List.map_cons,
      List.map_nil, List.count_nil, Task.conn]
    omega
  exact hperm.nodup_iff.mpr (List.nodup_cons.mpr ⟨hfresh, hnodup⟩)

/-- With the operations `new` the handler of an accept has started, if any. -/
theorem invariant_of_accepted (h : Invariant s) {conn : ℕ} {r : Result}
    {rest new : List (Op Task Result)} {es : List Event}
    (hb : Besides s ⟨.accept conn, some r⟩ rest)
    (hacc : Accepted { s with ops := rest } s' rest new) (hlog : s'.log = s.log ++ es)
    (hes : ∀ c, .accepted c ∉ es ∧ writesOn c es = (isQueued c ⟨.accept conn, some r⟩).toNat)
    (hnew : ∀ op ∈ new, ∃ size, op.task = .write conn size 0)
    (hnodup : (held new ++ held rest).Nodup)
    (halive : ∀ op ∈ new, ∃ c, s'.connections.get conn = some c ∧
      .asyncWrite conn c.message ∈ s'.log) : Invariant s' := by
  have hmem : ∀ c, .accepted c ∈ s'.log ↔ .accepted c ∈ s.log := by
    intro c
    rw [hlog, List.mem_append]
    exact or_iff_left (hes c).1
  have hzero : new.countP (fun op => op.task.isAccept) = 0 :=
    List.countP_eq_zero.mpr fun op hop => by
      obtain ⟨size, ht⟩ := hnew op hop
      simp [ht, Task.isAccept]
  have hquiet : ∀ c, new.countP (isQueued c) = 0 := fun c =>
    List.countP_eq_zero.mpr fun op hop => by
      obtain ⟨size, ht⟩ := hnew op hop
      simp [isQueued, ht]
  refine ⟨⟨?_, ?_, ?_⟩, hacc.counts, nodup_accepted hb hacc hnew hnodup, ?_, ?_⟩
  · have haccept := hb.accept
    rw [hacc.ops, List.countP_append, List.countP_append, hzero]
    exact haccept
  · intro c
    have hw := hb.writes c
    have hwrites : writesOn c s'.log = writesOn c s.log + writesOn c es := by
      rw [hlog]
      exact List.countP_append
    have hlast : isQueued c ⟨.accept s.connections.next, none⟩ = false := Bool.and_false _
    rw [hacc.ops, List.countP_append, List.countP_append, hquiet, hwrites, (hes c).2]
    simp only [hmem, List.countP_cons, List.countP_nil, hlast, Bool.false_eq_true, if_false]
    omega
  · intro op hop c size sent ht
    rw [hacc.ops] at hop
    rcases List.mem_append.mp hop with hop | hop
    · obtain ⟨c', hget, hin⟩ := h.alive op (hb.mem op hop) c size sent ht
      have hheld := mem_held hop
      rw [ht] at hheld
      exact ⟨c', (hacc.get c hheld).trans hget, by rw [hlog]; exact List.mem_append_left _ hin⟩
    · rcases List.mem_append.mp hop with hop | hop
      · obtain ⟨size', ht'⟩ := hnew op hop
        obtain ⟨rfl, -, -⟩ := Task.write.inj (ht'.symm.trans ht)
        exact halive op hop
      · rw [List.mem_singleton.mp hop] at ht
        exact absurd ht (by simp)
  · intro op hop c ht hnone hin
    rw [hacc.ops] at hop
    rcases List.mem_append.mp hop with hop | hop
    · exact h.pending op (hb.mem op hop) c ht hnone ((hmem c).mp hin)
    · rcases List.mem_append.mp hop with hop | hop
      · obtain ⟨size, ht'⟩ := hnew op hop
        exact absurd (ht'.symm.trans ht) (by simp)
      · rw [List.mem_singleton.mp hop] at ht
        obtain rfl := Task.accept.inj ht
        exact absurd (h.fresh _ ((hmem _).mp hin)) (Nat.lt_irrefl _)
  · intro c hin
    rw [hacc.next]
    exact Nat.lt_succ_of_lt (h.fresh c ((hmem c).mp hin))

/-- The handler of an accept runs. -/
theorem invariant_accepted (h : Invariant s) {before after : List (Op Task Result)} {conn : ℕ}
    {r : Result} (hops : s.ops = before ++ ⟨.accept conn, some r⟩ :: after) (now : Bytes) :
    Invariant (runHandler now (.accept conn) r { s with ops := before ++ after }) := by
  have hb := h.besides hops
  have hcounts : Counts (conn :: held (before ++ after)) s.connections := hb.counts
  have hnodup : (conn :: held (before ++ after)).Nodup := hb.nodup
  cases hr : r.ec with
  | some ec =>
    obtain ⟨hacc, hlog⟩ :=
      accepted_failed (s := { s with ops := before ++ after }) now hr hcounts
    refine invariant_of_accepted h hb hacc (hlog.trans (List.append_nil _).symm)
      (fun c => ⟨by simp, ?_⟩) (by simp) (List.nodup_cons.mp hnodup).2 (by simp)
    simp [isQueued, hr, writesOn]
  | none =>
    obtain ⟨⟨res, hacc⟩, hget, hlog⟩ :=
      accepted_ok (s := { s with ops := before ++ after }) now hr hcounts hnodup
    refine invariant_of_accepted h hb hacc hlog (fun c => ⟨by simp, ?_⟩) ?_ hnodup
      fun op _ => ⟨_, hget, by rw [hlog]; simp⟩
    · have hqueued : isQueued c ⟨.accept conn, some r⟩ = (conn == c) := by
        simp [isQueued, hr]
      rw [hqueued]
      rcases Bool.eq_false_or_eq_true (conn == c) with hc | hc <;> simp [writesOn, hc]
    · intro op hop
      rw [List.mem_singleton.mp hop]
      exact ⟨_, rfl⟩

/-- The `write_op` of a connection goes on, or ends with its handler. -/
theorem invariant_written (h : Invariant s) {before after : List (Op Task Result)}
    {conn size sent : ℕ} {r : Result}
    (hops : s.ops = before ++ ⟨.write conn size sent, some r⟩ :: after) (now : Bytes) :
    Invariant (runHandler now (.write conn size sent) r { s with ops := before ++ after }) := by
  have hb := h.besides hops
  have hqueued : ∀ c, isQueued c ⟨.write conn size sent, some r⟩ = false := fun c => rfl
  have hwrites : ∀ c, writesOn c s.log + (before ++ after).countP (isQueued c) =
      if .accepted c ∈ s.log then 1 else 0 := fun c => by
    have hw := hb.writes c
    rwa [hqueued, Bool.toNat_false, Nat.add_zero] at hw
  unfold runHandler
  dsimp only
  split_ifs with hends
  · refine ⟨⟨hb.accept, hwrites, ?_⟩, counts_release hb.counts,
      (List.nodup_cons.mp hb.nodup).2, fun op hop => h.pending op (hb.mem op hop), h.fresh⟩
    intro op hop c size' sent' ht
    obtain ⟨c', hget, hmem⟩ := h.alive op (hb.mem op hop) c size' sent' ht
    refine ⟨c', ?_, hmem⟩
    have hheld : c ∈ held (before ++ after) := by
      have := mem_held hop
      rwa [ht] at this
    exact (hb.counts.get_release hheld).trans hget
  · have hthere : (⟨.write conn size sent, some r⟩ : Op Task Result) ∈ s.ops := by
      rw [hops]
      simp
    refine ⟨⟨?_, ?_, ?_⟩, hb.counts.congr ?_, ?_, ?_, h.fresh⟩
    · simpa [writeSome, Task.isAccept] using hb.accept
    · intro c
      have hw := hwrites c
      simpa [writeSome, isQueued] using hw
    · intro op hop c size' sent' ht
      rcases List.mem_append.mp hop with hop | hop
      · exact h.alive op (hb.mem op hop) c size' sent' ht
      · obtain rfl := List.mem_singleton.mp hop
        obtain ⟨rfl, -, -⟩ := Task.write.inj ht
        exact h.alive _ hthere _ size sent rfl
    · intro p
      simp only [writeSome, held, List.map_append, List.map_cons, List.map_nil, List.count_append,
        List.count_cons, List.count_nil, Task.conn]
      omega
    · have hnodup := hb.nodup
      simp only [writeSome, held, List.map_append, List.map_cons, List.map_nil] at hnodup ⊢
      exact (List.perm_append_singleton _ _).nodup_iff.mpr hnodup
    · intro op hop c ht hnone
      rcases List.mem_append.mp hop with hop | hop
      · exact h.pending op (hb.mem op hop) c ht hnone
      · obtain rfl := List.mem_singleton.mp hop
        exact absurd ht (by simp)

theorem step_invariant (h : Invariant s) {l : Label} (hs : step s l = some s') : Invariant s' := by
  cases moves_of_step hs with
  | complete i out before after t res hp hres => exact invariant_complete h (pick_eq_some hp) hres
  | run i now before after t r hp =>
    cases t with
    | accept conn => exact invariant_accepted h (pick_eq_some hp) now
    | write conn size sent => exact invariant_written h (pick_eq_some hp) now

theorem invariant_init : Invariant init := by
  have hcounts : Counts (held init.ops) init.connections :=
    counts_startAccept (s := {}) counts_empty
  have hwrites : ∀ conn, writesOn conn init.log + init.ops.countP (isQueued conn) =
      if .accepted conn ∈ init.log then 1 else 0 := fun conn => by
    simp [init, startAccept, writesOn, isQueued]
  refine ⟨⟨rfl, hwrites, ?_⟩, hcounts, by simp [held, init, startAccept],
    fun op hop conn ht hnone hmem => absurd hmem (by simp [init, startAccept]),
    fun conn hmem => absurd hmem (by simp [init, startAccept])⟩
  intro op hop conn size sent ht
  obtain rfl := List.mem_singleton.mp (show op ∈ [⟨.accept 0, none⟩] from hop)
  exact absurd ht (by simp)

end

end AsioLearn.Daytime.TcpServer
