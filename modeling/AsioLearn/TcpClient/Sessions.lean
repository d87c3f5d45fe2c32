import AsioLearn.TcpClient.Connection

/-!
# Sessions and what they leave behind

A session is the part of a run from one `start()` to the next `stop()`. `stop()` sets `stopped_`
and posts a closure that closes the socket; what the session has started goes on, and the next
`start()` makes its handlers believe that they are its own. They are told apart here by the
session recorded with each operation and each close closure.

* `sessions_isolated_of_quietStart`: if every `start()` finds nothing of earlier sessions but
  aborted waits, no handler of an earlier session changes anything in a later one.
-/

namespace AsioLearn.TcpClient

open Proactor Lts

/-- `start()` and `stop()` alternate. -/
def Alternates (s : State) : Label → Prop
  | .start _ => s.stopped = true
  | .stop => s.stopped = false
  | _ => True

instance (s : State) : ∀ l : Label, Decidable (Alternates s l)
  | .start _ => inferInstanceAs (Decidable (s.stopped = true))
  | .stop => inferInstanceAs (Decidable (s.stopped = false))
  | .send _ _ | .setMessageCallback _ | .setStatusCallback _ | .complete _ _ | .runPosted _
  | .runOp _ _ => isTrue trivial

/-- The session to which the handler or the close closure that the step runs belongs. -/
def belongsTo? (s : State) : Label → Option ℕ
  | .runOp i env => (ran? s (.runOp i env)).map (·.1.session)
  | .runPosted _ =>
    match s.posted with
    | .close session :: _ => some session
    | _ => none
  | _ => none

/-- The state without the operation or the closure that the step runs, and no other change. -/
def removed (s : State) : Label → State
  | .runOp i _ =>
    match pick s.ops i with
    | some (before, _, after) => { s with ops := before ++ after }
    | none => s
  | .runPosted _ => { s with posted := s.posted.tail }
  | _ => s

/-- In a running session, a handler or close closure of an earlier one does nothing. -/
def Isolated (s : State) (l : Label) : Prop :=
  match belongsTo? s l with
  | some session =>
    session < s.session → s.stopped = false → step s l = some (removed s l)
  | none => True

instance (s : State) (l : Label) : Decidable (Isolated s l) :=
  match h : belongsTo? s l with
  | some session => decidable_of_iff
      (session < s.session → s.stopped = false → step s l = some (removed s l))
      (by simp only [Isolated, h])
  | none => isTrue (by simp only [Isolated, h])

/-- A wait that has been aborted: its handler does nothing. -/
def inert (op : Op Task Result) : Bool := op.task.kind.isWait && op.result.any (·.ec.isSome)

/-- A `start()` finds no operation but aborted waits, and no close closure. -/
def QuietStart (s : State) : Label → Prop
  | .start _ => s.ops.all inert = true ∧ s.posted.all (!·.isClose) = true
  | _ => True

instance (s : State) : ∀ l : Label, Decidable (QuietStart s l)
  | .start _ => inferInstanceAs (Decidable (_ ∧ _))
  | .stop | .send _ _ | .setMessageCallback _ | .setStatusCallback _ | .complete _ _
  | .runPosted _ | .runOp _ _ => isTrue trivial

/-! ## Everything is the session's own -/

def ownOp (n : ℕ) (op : Op Task Result) : Prop := op.task.session = n ∨ inert op = true

def Posted.own (n : ℕ) : Posted → Prop
  | .send _ _ => True
  | .close session => session = n

/-- Nothing of an earlier session than the `n`th is left but aborted waits. -/
structure Own (n : ℕ) (s : State) : Prop where
  session : s.session = n
  ops : ∀ op ∈ s.ops, ownOp n op
  posted : ∀ c ∈ s.posted, c.own n

section Own

variable {n : ℕ} {s : State}

theorem Own.of_eq {s' : State} (h : Own n s) (hs : s'.session = s.session) (hops : s'.ops = s.ops)
    (hp : s'.posted = s.posted) : Own n s' :=
  ⟨hs.trans h.session, hops ▸ h.ops, hp ▸ h.posted⟩

theorem Own.emit (h : Own n s) (e : Event) : Own n (emit e s) := h.of_eq rfl rfl rfl

theorem Own.addOp (h : Own n s) {op : Op Task Result} (hop : op.task.session = n) :
    Own n (addOp op s) := by
  refine ⟨h.session, ?_, h.posted⟩
  intro op' hmem
  rcases List.mem_append.mp hmem with hmem | hmem
  · exact h.ops op' hmem
  · rw [List.mem_singleton.mp hmem]
    exact Or.inl hop

theorem Own.post (h : Own n s) {c : Posted} (hc : c.own n) : Own n (post c s) := by
  refine ⟨h.session, h.ops, ?_⟩
  intro c' hmem
  rcases List.mem_append.mp hmem with hmem | hmem
  · exact h.posted c' hmem
  · rw [List.mem_singleton.mp hmem]
    exact hc

theorem Own.call (h : Own n s) (c : Call) : Own n (c.run s) := by
  cases c with
  | stop =>
    have h' : Own n { s with stopped := true } := h.of_eq rfl rfl rfl
    exact h'.post h.session
  | send thread msg =>
    have h' : Own n (TcpClient.post (.send thread msg) s) := h.post trivial
    exact h'.emit (.sendPosted thread msg)

theorem Own.invoke (h : Own n s) (cb : Callback) : Own n (catchAll (cb.invoke s)) := by
  show Own n (cb.calls.foldl (fun s c => c.run s) s)
  induction cb.calls generalizing s with
  | nil => exact h
  | cons c calls ih => exact ih (h.call c)

/-- Aborting leaves an operation its session, and an aborted wait as it is. -/
theorem ownOp_abort (p : Task → Bool) {ops : List (Op Task Result)} (h : ∀ op ∈ ops, ownOp n op) :
    ∀ op ∈ abort p .aborted ops, ownOp n op := by
  apply forall_abort p .aborted h
  intro t _ ht
  rcases ht with ht | ht
  · exact Or.inl ht
  · exact absurd ht (by simp [inert])

theorem Own.closeSocket (h : Own n s) : Own n (closeSocket s) :=
  ⟨h.session, ownOp_abort _ h.ops, h.posted⟩

theorem Own.replaceSocket (h : Own n s) : Own n (replaceSocket s) :=
  ⟨h.session, ownOp_abort _ h.ops, h.posted⟩

theorem Own.expiresAfter (h : Own n s) : Own n (expiresAfter s) :=
  ⟨h.session, ownOp_abort (·.kind.isWait) h.ops, h.posted⟩

theorem Own.rangeConnect (h : Own n s) (env : Env) (rest : List Endpoint) {session : ℕ}
    (hn : session = n) : Own n (rangeConnect env rest session s) := by
  have h' := h.closeSocket
  unfold TcpClient.rangeConnect asyncConnect
  split
  · exact h'.addOp hn
  · split
    · exact h'.addOp hn
    · have h'' : Own n (openSocket (TcpClient.closeSocket s)) := h'.of_eq rfl rfl rfl
      exact h''.addOp hn

theorem Own.setStatus (h : Own n s) (st : Status) (info : Info) (cb : Callback) :
    Own n (setStatus st info cb s) := by
  have h' : Own n (TcpClient.emit (.status st info) { s with currentStatus := st }) :=
    h.of_eq rfl rfl rfl
  rw [setStatus_cases]
  split
  · exact (h'.emit (.onStatus st info)).invoke cb
  · exact h'

theorem Own.doConnect (h : Own n s) (env : Env) : Own n (doConnect env s).2 := by
  unfold TcpClient.doConnect
  split
  · exact h
  · split
    · exact h
    · exact (h.emit .connectStarted).rangeConnect env _ h.session

theorem Own.scheduleReconnect (h : Own n s) (cb : Callback) : Own n (scheduleReconnect cb s) := by
  rcases Bool.eq_false_or_eq_true s.stopped with hs | hs
  · rwa [scheduleReconnect_of_stopped hs]
  · have h' := (h.setStatus .reconnecting (.retryIn s.reconnectDelay) cb).expiresAfter
    have h'' := h'.emit (.waitArmed s.reconnectDelay)
    rw [scheduleReconnect_of_running hs]
    exact h''.addOp h''.session

theorem Own.report (h : Own n s) (st : Status) (info : Info) (env : Env) :
    Own n (TcpClient.scheduleReconnect env.onStatus2
      (TcpClient.setStatus st info env.onStatus s)) :=
  (h.setStatus st info env.onStatus).scheduleReconnect env.onStatus2

theorem Own.doRead (h : Own n s) : Own n (doRead s) := by
  unfold TcpClient.doRead
  split
  · exact h
  · exact (h.emit .readStarted).addOp h.session

theorem Own.doWrite (h : Own n s) : Own n (doWrite s) := by
  unfold TcpClient.doWrite
  split
  · exact h
  · split
    · exact h
    · rename_i msg rest _
      exact (h.emit (.writeStarted msg)).addOp h.session

theorem Own.connectHandler (h : Own n s) (env : Env) (sock : Socket) (ec : Option ErrorCode) :
    Own n (connectHandler env sock ec s) := by
  unfold TcpClient.connectHandler
  split
  · exact h
  · split
    · have h' : Own n (TcpClient.emit (.connectHandled sock) { s with reconnectDelay := 1 }) :=
        h.of_eq rfl rfl rfl
      exact (h'.setStatus .connected .connectedToServer env.onStatus).doRead
    · exact h.report _ _ env

theorem Own.readHandler (h : Own n s) (env : Env) (r : Result) : Own n (readHandler env r s) := by
  unfold TcpClient.readHandler
  split
  · exact h
  · split
    · refine Own.doRead ?_
      split
      · exact (h.emit _).invoke env.onMessage
      · exact h
    · split
      · exact h.report _ _ env
      · exact h.report _ _ env

theorem Own.writeHandler (h : Own n s) (env : Env) (ec : Option ErrorCode) :
    Own n (writeHandler env ec s) := by
  unfold TcpClient.writeHandler
  split
  · exact h
  · split
    · have h' : Own n { s with writeMsgs := s.writeMsgs.tail } := h.of_eq rfl rfl rfl
      dsimp only
      split
      · exact h'
      · exact h'.doWrite
    · exact h.report _ _ env

theorem Own.waitHandler (h : Own n s) (env : Env) (ec : Option ErrorCode) :
    Own n (waitHandler env ec s).2 := by
  unfold TcpClient.waitHandler
  split
  · have hd := h.replaceSocket.doConnect env
    split
    · rename_i heq
      rw [heq] at hd
      exact hd.of_eq rfl rfl rfl
    · rename_i heq
      rw [heq] at hd
      exact hd
  · exact h

/-- The handler of an operation of the session. -/
theorem Own.runHandler (h : Own n s) (env : Env) {t : Task} (ht : t.session = n) (r : Result) :
    Own n (runHandler env t r s).2 := by
  unfold TcpClient.runHandler
  split
  · show Own n (connectResume env t _ r.ec s)
    unfold connectResume
    split
    · split
      · exact h.connectHandler env _ _
      · exact h.connectHandler env _ _
      · exact h.rangeConnect env _ ht
    · exact h.connectHandler env _ _
  · exact h.readHandler env r
  · show Own n (writeResume env t _ _ r s)
    unfold writeResume
    split
    · exact h.writeHandler env _
    · split
      · exact h.writeHandler env _
      · exact h.addOp ht
  · exact h.waitHandler env r.ec

theorem Own.conclude {r : Exit × State} (h : Own n r.2) : Own n (conclude r) := by
  obtain ⟨exit, s⟩ := r
  cases exit with
  | returned => exact h
  | threw => exact h.emit .escaped

theorem Own.runPosted (h : Own n s) (env : Env) (c : Posted) : Own n (runPosted env c s) := by
  cases c with
  | send thread msg =>
    unfold TcpClient.runPosted
    dsimp only
    split
    · exact h
    · have h' : Own n (TcpClient.emit (.accepted thread msg)
          { s with writeMsgs := s.writeMsgs ++ [msg] }) := h.of_eq rfl rfl rfl
      split
      · exact h'
      · exact h'.doWrite
  | close session =>
    show Own n (if s.socket.isOpen then TcpClient.setStatus .disconnected .clientClosed env.onStatus
      (TcpClient.closeSocket s) else s)
    split
    · exact h.closeSocket.setStatus _ _ _
    · exact h

end Own

/-! ## Steps -/

/-- The handler of an aborted wait. -/
theorem runHandler_inert {env : Env} {t : Task} {r : Result} (h : inert ⟨t, some r⟩ = true)
    (s : State) : runHandler env t r s = (.returned, s) := by
  obtain ⟨kind, sock, session⟩ := t
  obtain ⟨hw, hr⟩ := (Bool.and_eq_true ..).mp h
  cases kind with
  | connect rest | read | write msg sent => exact absurd hw (by simp [Kind.isWait])
  | wait =>
    obtain ⟨ec, hec⟩ := Option.isSome_iff_exists.mp (show r.ec.isSome = true from hr)
    simp [runHandler, waitHandler, hec]

theorem step_own {s s' : State} {l : Label} (h : Own s.session s) (hok : QuietStart s l)
    (hs : step s l = some s') : Own s'.session s' := by
  cases l with
  | start env =>
    obtain ⟨hops, hposted⟩ := hok
    obtain rfl := Option.some.inj hs
    have h' : Own (s.session + 1) { s with stopped := false, session := s.session + 1 } := by
      refine ⟨rfl, fun op hop => Or.inr (List.all_eq_true.mp hops op hop), ?_⟩
      intro c hc
      have := List.all_eq_true.mp hposted c hc
      cases c with
      | send thread msg => trivial
      | close session => exact absurd this (by simp [Posted.isClose])
    have h'' := (h'.doConnect env).conclude
    exact h''.session ▸ h''
  | stop =>
    obtain rfl := Option.some.inj hs
    exact h.call .stop
  | send thread msg =>
    obtain rfl := Option.some.inj hs
    exact h.call (.send thread msg)
  | setMessageCallback set | setStatusCallback set =>
    obtain rfl := Option.some.inj hs
    exact h.of_eq rfl rfl rfl
  | complete i out =>
    obtain ⟨before, t, after, res, hops, -, rfl⟩ := step_complete hs
    refine ⟨rfl, ?_, by simpa using h.posted⟩
    intro op hop
    rw [deliver_ops] at hop
    rw [deliver_session]
    rcases List.mem_append.mp hop with hop | hop
    · exact h.ops op (by rw [hops]; exact List.mem_append_left _ hop)
    · rcases List.mem_cons.mp hop with rfl | hop
      · rcases h.ops ⟨t, none⟩ (by rw [hops]; simp) with hown | hno
        · exact Or.inl hown
        · exact absurd hno (by simp [inert])
      · exact h.ops op (by rw [hops]; simp [hop])
  | runPosted env =>
    obtain ⟨c, rest, hposted, rfl⟩ := step_runPosted hs
    have h' : Own s.session { s with posted := rest } :=
      ⟨rfl, h.ops, fun c hc => h.posted c (by simp [hposted, hc])⟩
    have h'' := h'.runPosted env c
    exact h''.session.symm ▸ h''
  | runOp i env =>
    obtain ⟨before, t, res, after, hp, rfl⟩ := step_runOp hs
    have hops := pick_eq_some hp
    have h' : Own s.session { s with ops := before ++ after } :=
      ⟨rfl, fun op hop => h.ops op (by rw [hops]; exact mem_of_mem_rest hop), h.posted⟩
    rcases h.ops ⟨t, some res⟩ (by rw [hops]; simp) with hown | hinert
    · have h'' := (h'.runHandler env hown res).conclude
      exact h''.session.symm ▸ h''
    · rw [runHandler_inert hinert]
      exact h'

/-- A handler of an earlier session is that of an aborted wait, and there is no close closure of
one. -/
theorem isolated_of_own {s : State} (h : Own s.session s) (l : Label) : Isolated s l := by
  unfold Isolated
  split
  · rename_i session hb
    intro hlt _
    cases l with
    | start env | stop | send thread msg | setMessageCallback set | setStatusCallback set
    | complete i out => exact absurd hb (by simp [belongsTo?])
    | runPosted env =>
      cases hposted : s.posted with
      | nil => exact absurd hb (by simp [belongsTo?, hposted])
      | cons c rest =>
        cases c with
        | send thread msg => exact absurd hb (by simp [belongsTo?, hposted])
        | close k =>
          have hk : k = s.session := h.posted (.close k) (by simp [hposted])
          obtain rfl : k = session := by simpa [belongsTo?, hposted] using hb
          omega
    | runOp i env =>
      obtain ⟨⟨t, res⟩, hran, rfl⟩ := Option.map_eq_some_iff.mp hb
      simp only [ran?] at hran
      split at hran
      · rename_i before t' res' after hp
        obtain ⟨rfl, rfl⟩ := Prod.mk.inj (Option.some.inj hran)
        rcases h.ops ⟨t', some res'⟩ (by rw [pick_eq_some hp]; simp) with hown | hinert
        · have : t'.session = s.session := hown
          dsimp only at hlt
          omega
        · simp only [step, hp, removed, runHandler_inert hinert, conclude]
      · exact absurd hran (by simp)
  · trivial

theorem own_init : Own init.session init :=
  ⟨rfl, fun op hop => absurd hop (by simp [init]), fun c hc => absurd hc (by simp [init])⟩

/-- **Sessions are isolated.** In a run in which every `start()` finds no operation but aborted
waits and no close closure, no handler of an earlier session changes anything in a running one. -/
theorem sessions_isolated_of_quietStart (ls : List Label) (s : State)
    (h : Run step QuietStart init ls s) : ∀ l, Isolated s l :=
  isolated_of_own (h.invariant (I := fun s => Own s.session s) own_init fun _ _ _ h hok hs =>
    step_own h hok hs)

/-- The second session begins with an aborted wait of the first one in the pool. -/
def quietRestart : List Label :=
  [.start {}, .complete 0 .connected, .runOp 0 {}, .send 0 [97], .runPosted {},
    .complete 0 (.failed .connectionReset), .complete 1 (.failed .connectionReset), .runOp 0 {},
    .runOp 0 {}, .stop, .runPosted {}, .complete 1 .expired, .runOp 1 {}, .start {}]

theorem sessions_isolated_of_quietStart_quietRestart :
    belongsTo? (reached step QuietStart init quietRestart) (.runOp 0 {}) = some 1 ∧
      (reached step QuietStart init quietRestart).session = 2 ∧
        Isolated (reached step QuietStart init quietRestart) (.runOp 0 {}) :=
  ⟨by decide, by decide, sessions_isolated_of_quietStart quietRestart _ (run_reached (by decide)) _⟩

/-- `start()` right after `stop()`: the close closure of the first session closes the socket of
the second. -/
theorem not_sessions_isolated :
    ¬ ∀ (ls : List Label) (s : State), Run step Alternates init ls s → ∀ l, Isolated s l := by
  intro h
  have hiso := h [.start {}, .stop, .start {}] _ (run_reached (by decide)) (.runPosted {})
  have hstep := (show 1 < 2 → false = false → _ from hiso) (by decide) rfl
  exact absurd (congrArg (Option.map (·.socket.fd)) hstep) (by decide)

end AsioLearn.TcpClient
