import AsioLearn.Daytime.UdpServer

/-!
# `udp_server`, statement by statement

The handlers of `udp_server` once more, a step being one statement that touches what an operation
or another handler uses. Between two statements operations complete, and a receive that has been
started may overwrite `remote_endpoint_` before the handler that started it has returned.

* `finish`: the state in which the handler under way has run to its end.
* `run_finish`: what the statements do to it is what whole handlers do, so the handlers can be
  taken for atomic steps.
-/

namespace AsioLearn.Daytime.UdpHandlers

open Proactor Shared Lts UdpServer

/-! ## Data -/

/-- Where the io thread is: in `io_context.run()`, or before a statement of a handler. -/
inductive Pc
  | idle
  | asyncSendTo (message : ℕ) (text : Bytes)
  | startReceive (message : ℕ)
  | endOfReceive (message : ℕ)
  | handleSend (message : ℕ)
  | endOfSend (message : ℕ)
  deriving DecidableEq, Repr

/-- The server, the point the io thread has reached, and the messages of the replies whose handler
has run. -/
structure State extends UdpServer.State where
  pc : Pc := .idle
  sent : List ℕ := []

inductive Label
  | complete (i : ℕ) (out : Outcome)
  | overwrite (endpoint : Endpoint)
  | run (i : ℕ) (now : Bytes)
  | goOn
  deriving DecidableEq, Repr

/-- The step of `UdpServer` that begins with this one, if any. -/
def Label.atomic? : Label → Option UdpServer.Label
  | .complete i out => some (.complete i out)
  | .overwrite endpoint => some (.overwrite endpoint)
  | .run i now => some (.run i now)
  | .goOn => none

/-! ## Steps -/

/-- A handler is entered. `handle_receive` makes its message, which nobody else knows of; the
parameter of `handle_send` is a copy of what the handler holds. -/
def enter (now : Bytes) (t : Task) (r : Result) (s : State) : State :=
  match t with
  | .receive =>
    match r.ec with
    | none =>
      let (message, messages) := s.messages.make now
      { s with messages := messages, pc := .asyncSendTo message now }
    | some _ => s
  | .send message _ =>
    { s with messages := s.messages.retain message, pc := .handleSend message }

/-- The next statement of the handler under way. -/
def goOn (s : State) : Option State :=
  match s.pc with
  | .idle => none
  | .asyncSendTo message text =>
    some { s with toState := asyncSendTo message text s.toState, pc := .startReceive message }
  | .startReceive message =>
    some { s with toState := startReceive s.toState, pc := .endOfReceive message }
  | .endOfReceive message =>
    -- `message` goes out of scope
    some { s with messages := s.messages.release message, pc := .idle }
  | .handleSend message =>
    -- the body is empty, and the parameter is destroyed
    some { s with messages := s.messages.release message, pc := .endOfSend message }
  | .endOfSend message =>
    -- the handler is destroyed, with its copy
    some { s with
      messages := s.messages.release message
      pc := .idle
      sent := s.sent ++ [message] }

/-- One step. -/
def step (s : State) : Label → Option State
  | .complete i out =>
    (UdpServer.step s.toState (.complete i out)).map fun u => { s with toState := u }
  | .overwrite endpoint =>
    (UdpServer.step s.toState (.overwrite endpoint)).map fun u => { s with toState := u }
  | .run i now =>
    match s.pc, pick s.ops i with
    | .idle, some (before, ⟨t, some r⟩, after) =>
      some (enter now t r { s with ops := before ++ after })
    | _, _ => none
  | .goOn => goOn s

def init : State := { UdpServer.init with }

/-- The steps from a state, each with its guards and the state after it. -/
inductive Moves (s : State) : Label → State → Prop
  | complete (i : ℕ) (out : Outcome) (before after : List (Op Task Result)) (t : Task)
      (res : Result) : pick s.ops i = some (before, ⟨t, none⟩, after) →
      out.result? t = some res →
      Moves s (.complete i out) { s with
        toState := out.deliver t { s.toState with ops := before ++ ⟨t, some res⟩ :: after } }
  | overwrite (endpoint : Endpoint) : ⟨.receive, none⟩ ∈ s.ops →
      Moves s (.overwrite endpoint) { s with remoteEndpoint := endpoint }
  | run (i : ℕ) (now : Bytes) (before after : List (Op Task Result)) (t : Task) (r : Result) :
      s.pc = .idle → pick s.ops i = some (before, ⟨t, some r⟩, after) →
      Moves s (.run i now) (enter now t r { s with ops := before ++ after })
  | asyncSendTo (message : ℕ) (text : Bytes) : s.pc = .asyncSendTo message text →
      Moves s .goOn { s with
        toState := UdpServer.asyncSendTo message text s.toState, pc := .startReceive message }
  | startReceive (message : ℕ) : s.pc = .startReceive message →
      Moves s .goOn { s with
        toState := UdpServer.startReceive s.toState, pc := .endOfReceive message }
  | endOfReceive (message : ℕ) : s.pc = .endOfReceive message →
      Moves s .goOn { s with messages := s.messages.release message, pc := .idle }
  | handleSend (message : ℕ) : s.pc = .handleSend message →
      Moves s .goOn { s with messages := s.messages.release message, pc := .endOfSend message }
  | endOfSend (message : ℕ) : s.pc = .endOfSend message →
      Moves s .goOn { s with
        messages := s.messages.release message, pc := .idle, sent := s.sent ++ [message] }

theorem moves_of_step {s s' : State} {l : Label} (h : step s l = some s') : Moves s l s' := by
  cases l with
  | complete i out =>
    obtain ⟨u, hu, rfl⟩ := Option.map_eq_some_iff.mp h
    cases UdpServer.moves_of_step hu with
    | complete i out before after t res hp hres => exact .complete i out before after t res hp hres
  | overwrite endpoint =>
    obtain ⟨u, hu, rfl⟩ := Option.map_eq_some_iff.mp h
    cases UdpServer.moves_of_step hu with
    | overwrite endpoint hmem => exact .overwrite endpoint hmem
  | run i now =>
    simp only [step] at h
    split at h
    · rename_i before t r after hpc hp
      obtain rfl := Option.some.inj h
      exact .run i now before after t r hpc hp
    · exact absurd h (by simp)
  | goOn =>
    simp only [step, goOn] at h
    cases hpc : s.pc with
    | idle => exact absurd h (by simp [hpc])
    | asyncSendTo message text =>
      rw [hpc] at h
      obtain rfl := Option.some.inj h
      exact .asyncSendTo message text hpc
    | startReceive message =>
      rw [hpc] at h
      obtain rfl := Option.some.inj h
      exact .startReceive message hpc
    | endOfReceive message =>
      rw [hpc] at h
      obtain rfl := Option.some.inj h
      exact .endOfReceive message hpc
    | handleSend message =>
      rw [hpc] at h
      obtain rfl := Option.some.inj h
      exact .handleSend message hpc
    | endOfSend message =>
      rw [hpc] at h
      obtain rfl := Option.some.inj h
      exact .endOfSend message hpc

/-! ## Handlers as atomic steps -/

/-- The server after the handler under way, if any. -/
def finish (s : State) : UdpServer.State :=
  match s.pc with
  | .idle => s.toState
  | .asyncSendTo message text =>
    let u := UdpServer.startReceive (UdpServer.asyncSendTo message text s.toState)
    { u with messages := u.messages.release message }
  | .startReceive message =>
    let u := UdpServer.startReceive s.toState
    { u with messages := u.messages.release message }
  | .endOfReceive message => { s.toState with messages := s.messages.release message }
  | .handleSend message =>
    { s.toState with messages := (s.messages.release message).release message }
  | .endOfSend message => { s.toState with messages := s.messages.release message }

/-- The handler under way is still to start a receive. -/
def Pc.starts : Pc → Bool
  | .asyncSendTo _ _ | .startReceive _ => true
  | _ => false

/-- The operations that the handler under way is still to start. -/
def toStart (s : State) : List (Op Task Result) :=
  match s.pc with
  | .asyncSendTo message _ => [⟨.send message s.remoteEndpoint, none⟩, ⟨.receive, none⟩]
  | .startReceive _ => [⟨.receive, none⟩]
  | _ => []

section

variable {s s' : State}

theorem finish_idle (hpc : s.pc = .idle) : finish s = s.toState := by
  unfold finish
  rw [hpc]

theorem finish_ops (s : State) : (finish s).ops = s.ops ++ toStart s := by
  unfold finish toStart
  cases s.pc <;> simp [UdpServer.startReceive, UdpServer.asyncSendTo, startOp, emit]

/-- What is left of the handler only adds to the operations. -/
theorem finish_setOps (s : State) (ops : List (Op Task Result)) :
    finish { s with ops := ops } = { finish s with ops := ops ++ toStart s } := by
  unfold finish toStart
  cases s.pc <;> simp [UdpServer.startReceive, UdpServer.asyncSendTo, startOp, emit]

/-- While a receive is outstanding or queued, no handler is to start one. -/
theorem not_starts (hone : receives (finish s) ≤ 1) (h : ∃ op ∈ s.ops, op.task = .receive) :
    s.pc.starts = false := by
  obtain ⟨op, hop, ht⟩ := h
  have hpos : 0 < s.ops.countP fun op => op.task.isReceive :=
    List.countP_pos_iff.mpr ⟨op, hop, by rw [ht]; rfl⟩
  unfold receives at hone
  rw [finish_ops, List.countP_append] at hone
  have hnone : (toStart s).countP (fun op => op.task.isReceive) = 0 := by omega
  cases hpc : s.pc with
  | asyncSendTo message text => simp [toStart, hpc, Task.isReceive] at hnone
  | startReceive message => simp [toStart, hpc, Task.isReceive] at hnone
  | idle | endOfReceive | handleSend | endOfSend => rfl

/-- With nothing to start, the rest of the handler only drops references. -/
theorem finish_setRemote (hno : s.pc.starts = false) (endpoint : Endpoint) :
    finish { s with remoteEndpoint := endpoint } =
      { finish s with remoteEndpoint := endpoint } := by
  unfold finish
  cases hpc : s.pc with
  | asyncSendTo | startReceive => exact absurd hno (by simp [hpc, Pc.starts])
  | idle | endOfReceive | handleSend | endOfSend => rfl

theorem finish_emit (hno : s.pc.starts = false) (e : Event) :
    finish { s with toState := emit e s.toState } = emit e (finish s) := by
  unfold finish
  cases hpc : s.pc with
  | asyncSendTo | startReceive => exact absurd hno (by simp [hpc, Pc.starts])
  | idle | endOfReceive | handleSend | endOfSend => rfl

/-- What an operation delivers does not disturb the rest of the handler. -/
theorem finish_deliver (out : Outcome) {t : Task} (hno : t = .receive → s.pc.starts = false) :
    finish { s with toState := out.deliver t s.toState } = out.deliver t (finish s) := by
  unfold Outcome.deliver
  split
  · rename_i sender n
    have hset := finish_setRemote (hno rfl) sender
    have hemit := finish_emit (s := { s with remoteEndpoint := sender }) (hno rfl)
      (.received sender)
    rw [hset] at hemit
    exact hemit
  · rfl

theorem step_finish_complete (hone : receives (finish s) ≤ 1) {i : ℕ} {out : Outcome}
    {before after : List (Op Task Result)} {t : Task} {res : Result}
    (hp : pick s.ops i = some (before, ⟨t, none⟩, after)) (hres : out.result? t = some res) :
    UdpServer.step (finish s) (.complete i out) = some (finish { s with
      toState := out.deliver t { s.toState with ops := before ++ ⟨t, some res⟩ :: after } }) := by
  have hpick : pick (finish s).ops i = some (before, ⟨t, none⟩, after ++ toStart s) := by
    rw [finish_ops]
    exact pick_append hp _
  have hno : t = .receive → s.pc.starts = false := by
    rintro rfl
    exact not_starts hone ⟨⟨.receive, none⟩, by rw [pick_eq_some hp]; simp, rfl⟩
  have hset := finish_setOps s (before ++ ⟨t, some res⟩ :: after)
  have hdone := finish_deliver (s := { s with ops := before ++ ⟨t, some res⟩ :: after }) out hno
  rw [hset, List.append_assoc, List.cons_append] at hdone
  simp only [UdpServer.step, hpick, hres]
  exact congrArg some hdone.symm

theorem step_finish_overwrite (hone : receives (finish s) ≤ 1) {endpoint : Endpoint}
    (hmem : ⟨.receive, none⟩ ∈ s.ops) :
    UdpServer.step (finish s) (.overwrite endpoint) =
      some (finish { s with remoteEndpoint := endpoint }) := by
  have hthere : (⟨.receive, none⟩ : Op Task Result) ∈ (finish s).ops := by
    rw [finish_ops]
    exact List.mem_append_left _ hmem
  rw [finish_setRemote (not_starts hone ⟨_, hmem, rfl⟩) endpoint]
  exact if_pos hthere

/-- A handler that is entered and not interrupted is the atomic one. -/
theorem finish_enter (hpc : s.pc = .idle) (now : Bytes) (t : Task) (r : Result) :
    finish (enter now t r s) = runHandler now t r s.toState := by
  cases t with
  | receive =>
    unfold enter runHandler handleReceive
    dsimp only
    cases r.ec with
    | none => rfl
    | some ec => exact finish_idle hpc
  | send message destination => rfl

theorem step_finish_run {i : ℕ} {now : Bytes} {before after : List (Op Task Result)} {t : Task}
    {r : Result} (hpc : s.pc = .idle) (hp : pick s.ops i = some (before, ⟨t, some r⟩, after)) :
    UdpServer.step (finish s) (.run i now) =
      some (finish (enter now t r { s with ops := before ++ after })) := by
  rw [finish_idle hpc, finish_enter (s := { s with ops := before ++ after }) hpc]
  simp only [UdpServer.step, hp]

/-- A statement of a handler is not seen. -/
theorem finish_goOn (hs : step s .goOn = some s') : finish s' = finish s := by
  cases moves_of_step hs with
  | asyncSendTo message text hpc => simp only [finish, hpc]
  | startReceive message hpc => simp only [finish, hpc]
  | endOfReceive message hpc => simp only [finish, hpc]
  | handleSend message hpc => simp only [finish, hpc]
  | endOfSend message hpc => simp only [finish, hpc]

/-- Every other step is one of the server with atomic handlers. -/
theorem step_finish (hone : receives (finish s) ≤ 1) {l : Label} {l' : UdpServer.Label}
    (hs : step s l = some s') (hl : l.atomic? = some l') :
    UdpServer.step (finish s) l' = some (finish s') := by
  cases moves_of_step hs with
  | complete i out before after t res hp hres =>
    obtain rfl := Option.some.inj hl
    exact step_finish_complete hone hp hres
  | overwrite endpoint hmem =>
    obtain rfl := Option.some.inj hl
    exact step_finish_overwrite hone hmem
  | run i now before after t r hpc hp =>
    obtain rfl := Option.some.inj hl
    exact step_finish_run hpc hp
  | asyncSendTo | startReceive | endOfReceive | handleSend | endOfSend =>
    exact absurd hl (by simp [Label.atomic?])

/-- **Atomic handlers.** Whatever happens between the statements of the handlers, the server is
where it would be had each handler run in one step. -/
theorem run_finish {ls : List Label} (h : Run step Any init ls s) :
    Run UdpServer.step Any UdpServer.init (ls.filterMap Label.atomic?) (finish s) := by
  refine h.simulate (f := finish) (I := fun u => receives u ≤ 1) ?_ ?_ ?_ (by decide)
  · intro u l u' hone hs
    have hcount := receives_of_moves (UdpServer.moves_of_step hs)
    omega
  · intro s l s' _ hs hl
    cases l with
    | goOn => exact finish_goOn hs
    | complete | overwrite | run => exact absurd hl (by simp [Label.atomic?])
  · intro s l s' l' hone hs hl
    exact step_finish hone hs hl

end

end AsioLearn.Daytime.UdpHandlers
