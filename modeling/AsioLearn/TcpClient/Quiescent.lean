import AsioLearn.TcpClient.Connection

/-!
# After `stop()`

`stop()` sets a flag and posts a closure; what is outstanding or queued then goes on. Each
handler looks at the flag first, so a stopped client starts nothing and invokes no callback,
until the closure closes the socket and reports it; the steps of a connect that has more
endpoints to try end there too. A callback may call `stop()` in the middle of a handler: the
functions that the handler goes on with look at the flag again.

* `stop_quiescent`: what a client still does after a `stop()`, wherever it was called.
-/

namespace AsioLearn.TcpClient

open Proactor Lts

/-! ## What must not happen any more -/

/-- A callback is invoked. -/
def Event.isInvocation : Event → Bool
  | .onMessage _ _ | .onStatus _ _ => true
  | _ => false

def Event.isOnStatus : Event → Bool
  | .onStatus _ _ => true
  | _ => false

def Event.isStatus : Event → Bool
  | .status _ _ => true
  | _ => false

/-- An operation is started, the status changed or a callback invoked. -/
def Event.isActive (e : Event) : Bool :=
  match e with
  | .connectStarted | .readStarted | .writeStarted _ => true
  | _ => e.isStatus || e.isInvocation

/-- The report of `close()`. -/
def Event.isClosing : Event → Bool
  | .status .disconnected .clientClosed | .onStatus .disconnected .clientClosed => true
  | _ => false

/-- The callback that an event recorded in a handler invokes, `before` being what the handler
has recorded before. -/
def Env.invoked (env : Env) (before : List Event) : Event → Callback
  | .onMessage _ _ => env.onMessage
  | .onStatus _ _ => if before.any Event.isOnStatus then env.onStatus2 else env.onStatus
  | _ => {}

/-- The steps of a run without `start()`. -/
def NoStart (_ : State) : Label → Prop
  | .start _ => False
  | _ => True

instance (s : State) : ∀ l : Label, Decidable (NoStart s l)
  | .start _ => isFalse id
  | .stop | .send _ _ | .setMessageCallback _ | .setStatusCallback _ | .complete _ _
  | .runPosted _ | .runOp _ _ => isTrue trivial

def Label.isRunPosted : Label → Bool
  | .runPosted _ => true
  | _ => false

/-- The number of closures that the steps run. -/
def closuresRun (ls : List Label) : ℕ := ls.countP Label.isRunPosted

/-- In every run from `s` without `start()` nothing is started and no message handed over, the
status changes once at most, and then in `close()`; once a closure of `close()` that is queued
in `s` has been run, the socket is not open. -/
structure Quiescent (s : State) : Prop where
  quiet : ∀ ls t, Run step NoStart s ls t → ∃ es, t.log = s.log ++ es ∧
    (∀ e ∈ es, e.isActive = true → e.isClosing = true) ∧ es.countP Event.isStatus ≤ 1
  closed : ∀ ls t j n, Run step NoStart s ls t → s.posted[j]? = some (.close n) →
    j < closuresRun ls → t.socket.isOpen = false

theorem Event.isActive_of_isStatus {e : Event} (h : e.isStatus = true) : e.isActive = true := by
  cases e <;> first | rfl | exact absurd h (by simp [Event.isStatus])

theorem Event.not_isInvocation {e : Event} (h : (!e.isActive) = true) :
    (!e.isInvocation) = true := by
  cases e <;> first | rfl | exact h

/-! ## A stopped client -/

section Stopped

variable {s t u : State}

/-- The client is stopped and stays so; it does nothing that is `isActive`, and does not open a
socket that is closed. -/
structure Idle (s t : State) : Prop where
  stopped : t.stopped = true
  adds : Adds (!·.isActive) s t
  posted : s.posted <+: t.posted
  closed : s.socket.isOpen = false → t.socket.isOpen = false

theorem Idle.refl (hs : s.stopped = true) : Idle s s := ⟨hs, .refl s, List.prefix_rfl, id⟩

theorem Idle.trans (h : Idle s t) (h' : Idle t u) : Idle s u :=
  ⟨h'.stopped, h.adds.trans h'.adds, h.posted.trans h'.posted, fun hs => h'.closed (h.closed hs)⟩

/-- Of the handlers only the one of a connect does something: it tries the next endpoint, unless
the socket has been closed. -/
theorem idle_connectResume (env : Env) (t : Task) (rest : List Endpoint) (ec : Option ErrorCode)
    (hs : s.stopped = true) : Idle s (connectResume env t rest ec s) := by
  have hgone : ∀ ec, connectHandler env t.sock ec s = s := fun _ => if_pos hs
  unfold connectResume
  split
  · rename_i hopen
    split
    · rw [hgone]
      exact .refl hs
    · rw [hgone]
      exact .refl hs
    · exact ⟨by simpa using hs, adds_of_log_eq (rangeConnect_log ..), by simp,
        fun hclosed => absurd hopen (by simp [hclosed])⟩
  · rw [hgone]
    exact .refl hs

theorem idle_writeResume (env : Env) (t : Task) (msg : Bytes) (sent : ℕ) (r : Result)
    (hs : s.stopped = true) : Idle s (writeResume env t msg sent r s) := by
  have hgone : ∀ ec, writeHandler env ec s = s := fun _ => if_pos hs
  unfold writeResume
  split
  · rw [hgone]
    exact .refl hs
  · split
    · rw [hgone]
      exact .refl hs
    · exact ⟨hs, adds_of_log_eq rfl, List.prefix_rfl, id⟩

theorem idle_runHandler (env : Env) (t : Task) (r : Result) (hs : s.stopped = true) :
    Idle s (conclude (runHandler env t r s)) := by
  unfold runHandler
  split
  · exact idle_connectResume env t _ _ hs
  · have hgone : readHandler env r s = s := if_pos hs
    rw [hgone]
    exact .refl hs
  · exact idle_writeResume env t _ _ r hs
  · have hgone : waitHandler env r.ec s = (.returned, s) := if_neg (by simp [hs])
    rw [hgone]
    exact .refl hs

theorem idle_deliver (out : Outcome) (task : Task) (hs : s.stopped = true) :
    Idle s (out.deliver task s) := by
  refine ⟨by simpa using hs, ?_, by simp, by simp⟩
  unfold Outcome.deliver
  split
  · exact adds_emit rfl { s with readBuf := s.readBuf.fill _ }
  · exact adds_emit rfl s
  · exact .refl s

/-- The closure of `close()` finds the socket open: it closes it and reports that. -/
structure Closes (s t : State) : Prop where
  stopped : t.stopped = true
  adds : ∃ es, t.log = s.log ++ es ∧
    (∀ e ∈ es, e.isActive = true → e.isClosing = true) ∧ es.countP Event.isStatus = 1
  posted : s.posted <+: t.posted
  wasOpen : s.socket.isOpen = true
  closed : t.socket.isOpen = false

theorem not_isActive_of_event? {c : Call} {e : Event} (h : c.event? = some e) :
    e.isActive = false := by
  cases c with
  | stop => exact absurd h (by simp [Call.event?])
  | send thread msg =>
    obtain rfl : Event.sendPosted thread msg = e := Option.some.inj h
    rfl

theorem closes_runClose (env : Env) (session : ℕ) (hs : s.stopped = true)
    (hopen : s.socket.isOpen = true) : Closes s (runPosted env (.close session) s) := by
  have heq : runPosted env (.close session) s =
      setStatus .disconnected .clientClosed env.onStatus (closeSocket s) := if_pos hopen
  have hcalls : ∀ e ∈ (env.onStatus.ifSet (closeSocket s).onStatus).calls.filterMap Call.event?,
      e.isActive = false := by
    intro e he
    obtain ⟨c, -, hc⟩ := List.mem_filterMap.mp he
    exact not_isActive_of_event? hc
  rw [heq, setStatus_eq]
  refine ⟨by simp [closeSocket, hs], ⟨_, rfl, ?_, ?_⟩, List.prefix_append _ _, hopen, rfl⟩
  · intro e he hact
    rcases List.mem_cons.mp he with rfl | he
    · rfl
    · rcases List.mem_append.mp he with he | he
      · split at he
        · rw [List.mem_singleton.mp he]
          rfl
        · exact absurd he List.not_mem_nil
      · exact absurd hact (by simp [hcalls e he])
  · have hnone : ((env.onStatus.ifSet (closeSocket s).onStatus).calls.filterMap
        Call.event?).countP Event.isStatus = 0 := by
      apply List.countP_eq_zero.mpr
      intro e he hst
      exact absurd (Event.isActive_of_isStatus hst) (by simp [hcalls e he])
    have htold : (if (closeSocket s).onStatus then
        [Event.onStatus .disconnected .clientClosed] else []).countP Event.isStatus = 0 := by
      split <;> rfl
    rw [List.countP_cons, List.countP_append, htold, hnone]
    rfl

/-- A step of a stopped client, up to the closure that it takes from the queue. -/
theorem step_stopped {l : Label} (hs : s.stopped = true) (hok : NoStart s l)
    (hst : step s l = some t) : l.isRunPosted = false ∧ Idle s t ∨ ∃ env c rest,
      l = .runPosted env ∧
      s.posted = c :: rest ∧ (Idle { s with posted := rest } t ∧
        (c.isClose = true → s.socket.isOpen = false) ∨ Closes { s with posted := rest } t) := by
  cases l with
  | start env => exact hok.elim
  | stop =>
    obtain rfl := Option.some.inj hst
    exact Or.inl ⟨rfl, rfl, adds_of_log_eq rfl, List.prefix_append _ _, id⟩
  | send thread msg =>
    obtain rfl := Option.some.inj hst
    exact Or.inl ⟨rfl, hs, adds_emit rfl (post _ s), List.prefix_append _ _, id⟩
  | setMessageCallback set | setStatusCallback set =>
    obtain rfl := Option.some.inj hst
    exact Or.inl ⟨rfl, hs, adds_of_log_eq rfl, List.prefix_rfl, id⟩
  | complete i out =>
    obtain ⟨before, task, after, res, -, -, rfl⟩ := step_complete hst
    have hops : Idle s { s with ops := before ++ ⟨task, some res⟩ :: after } :=
      ⟨hs, adds_of_log_eq rfl, List.prefix_rfl, id⟩
    exact Or.inl ⟨rfl, hops.trans (idle_deliver out task hs)⟩
  | runPosted env =>
    obtain ⟨c, rest, hposted, rfl⟩ := step_runPosted hst
    refine Or.inr ⟨env, c, rest, rfl, hposted, ?_⟩
    cases c with
    | send thread msg =>
      have heq : runPosted env (.send thread msg) { s with posted := rest } =
          { s with posted := rest } := if_pos hs
      rw [heq]
      exact Or.inl ⟨.refl hs, fun h => absurd h (by simp [Posted.isClose])⟩
    | close session =>
      rcases Bool.eq_false_or_eq_true s.socket.isOpen with hopen | hclosed
      · exact Or.inr (closes_runClose env session hs hopen)
      · have heq : runPosted env (.close session) { s with posted := rest } =
            { s with posted := rest } := if_neg (by simp [hclosed])
        rw [heq]
        exact Or.inl ⟨.refl hs, fun _ => hclosed⟩
  | runOp i env =>
    obtain ⟨before, task, res, after, -, rfl⟩ := step_runOp hst
    have hops : Idle s { s with ops := before ++ after } :=
      ⟨hs, adds_of_log_eq rfl, List.prefix_rfl, id⟩
    exact Or.inl ⟨rfl, hops.trans (idle_runHandler env task res hs)⟩

/-! ## Runs of a stopped client -/

/-- A closed socket is never opened again. -/
theorem run_closed {ls : List Label} (h : Run step NoStart s ls t) (hs : s.stopped = true)
    (hclosed : s.socket.isOpen = false) : t.socket.isOpen = false := by
  have hboth : t.stopped = true ∧ t.socket.isOpen = false := by
    apply h.invariant (I := fun s => s.stopped = true ∧ s.socket.isOpen = false) ⟨hs, hclosed⟩
    intro s l s' hI hok hst
    obtain ⟨hs, hclosed⟩ := hI
    rcases step_stopped hs hok hst with ⟨-, hidle⟩ | ⟨_, _, _, -, -, ⟨hidle, -⟩ | hcloses⟩
    · exact ⟨hidle.stopped, hidle.closed hclosed⟩
    · exact ⟨hidle.stopped, hidle.closed hclosed⟩
    · exact ⟨hcloses.stopped, hcloses.closed⟩
  exact hboth.2

/-- Since `s` the client has done nothing but report, at most once, that it has closed its
socket. -/
structure QuietSince (s t : State) : Prop where
  stopped : t.stopped = true
  adds : ∃ es, t.log = s.log ++ es ∧ (∀ e ∈ es, e.isActive = true → e.isClosing = true) ∧
    (es.countP Event.isStatus = 0 ∨ es.countP Event.isStatus = 1 ∧ t.socket.isOpen = false)

theorem QuietSince.idle (h : QuietSince s t) (h' : Idle t u) : QuietSince s u := by
  obtain ⟨es, hes, hact, hcount⟩ := h.adds
  obtain ⟨es', hes', hno⟩ := h'.adds
  have hnone : es'.countP Event.isStatus = 0 := by
    apply List.countP_eq_zero.mpr
    intro e he hst
    exact absurd (Event.isActive_of_isStatus hst) (by simpa using hno e he)
  refine ⟨h'.stopped, es ++ es', by rw [hes', hes, List.append_assoc], ?_, ?_⟩
  · intro e he hact'
    rcases List.mem_append.mp he with he | he
    · exact hact e he hact'
    · exact absurd hact' (by simpa using hno e he)
  · rw [List.countP_append, hnone, Nat.add_zero]
    exact hcount.imp_right (And.imp_right h'.closed)

theorem QuietSince.closes (h : QuietSince s t) (h' : Closes t u) : QuietSince s u := by
  obtain ⟨es, hes, hact, hcount⟩ := h.adds
  obtain ⟨es', hes', hact', hcount'⟩ := h'.adds
  have hzero : es.countP Event.isStatus = 0 := by
    rcases hcount with hzero | ⟨-, hclosed⟩
    · exact hzero
    · exact absurd h'.wasOpen (by simp [hclosed])
  refine ⟨h'.stopped, es ++ es', by rw [hes', hes, List.append_assoc], ?_,
    Or.inr ⟨by rw [List.countP_append, hzero, hcount'], h'.closed⟩⟩
  intro e he
  rcases List.mem_append.mp he with he | he
  · exact hact e he
  · exact hact' e he

theorem run_quietSince {ls : List Label} (h : Run step NoStart s ls t) (hs : s.stopped = true) :
    QuietSince s t := by
  have hstart : QuietSince s s := ⟨hs, [], by simp, by simp, Or.inl rfl⟩
  apply h.invariant (I := QuietSince s) hstart
  intro t l u ht hok hst
  rcases step_stopped ht.stopped hok hst with ⟨-, hidle⟩ | ⟨_, c, rest, -, -, hrun⟩
  · exact ht.idle hidle
  · have hrest : QuietSince s { t with posted := rest } := ⟨ht.stopped, ht.adds⟩
    rcases hrun with ⟨hidle, -⟩ | hcloses
    · exact hrest.idle hidle
    · exact hrest.closes hcloses

theorem getElem?_of_isPrefix {xs ys : List Posted} (h : xs <+: ys) {j : ℕ} {c : Posted}
    (hj : xs[j]? = some c) : ys[j]? = some c := by
  obtain ⟨zs, rfl⟩ := h
  rw [List.getElem?_append_left (List.getElem?_eq_some_iff.mp hj).1, hj]

/-- The closures run in the order they were posted in, and that of `close()` leaves the socket
closed. -/
theorem run_closure {ls : List Label} (h : Run step NoStart s ls t) (hs : s.stopped = true)
    {j n : ℕ} (hj : s.posted[j]? = some (.close n)) (hrun : j < closuresRun ls) :
    t.socket.isOpen = false := by
  induction h generalizing j with
  | nil => exact absurd hrun (Nat.not_lt_zero j)
  | @cons s s' t l ls hok hst hthen ih =>
    rcases step_stopped hs hok hst with ⟨hl, hidle⟩ | ⟨env, c, rest, rfl, hposted, hclosure⟩
    · have hcount : closuresRun (l :: ls) = closuresRun ls := by simp [closuresRun, hl]
      exact ih hidle.stopped (getElem?_of_isPrefix hidle.posted hj) (hcount ▸ hrun)
    · have hcount : closuresRun (.runPosted env :: ls) = closuresRun ls + 1 :=
        List.countP_cons_of_pos rfl
      rw [hcount] at hrun
      rw [hposted] at hj
      cases j with
      | zero =>
        obtain rfl : c = .close n := Option.some.inj hj
        rcases hclosure with ⟨hidle, hclosed⟩ | hcloses
        · exact run_closed hthen hidle.stopped (hidle.closed (hclosed rfl))
        · exact run_closed hthen hcloses.stopped hcloses.closed
      | succ j =>
        have hj' : rest[j]? = some (.close n) := hj
        rcases hclosure with ⟨hidle, -⟩ | hcloses
        · exact ih hidle.stopped (getElem?_of_isPrefix hidle.posted hj') (by omega)
        · exact ih hcloses.stopped (getElem?_of_isPrefix hcloses.posted hj') (by omega)

theorem quiescent_of_stopped (hs : s.stopped = true) : Quiescent s := by
  refine ⟨?_, fun ls t j n h hj hrun => run_closure h hs hj hrun⟩
  intro ls t h
  obtain ⟨es, hes, hact, hcount⟩ := (run_quietSince h hs).adds
  exact ⟨es, hes, hact, by omega⟩

end Stopped

/-! ## A callback that stops the client -/

/-- `stop()` has been called since `s`. -/
structure Stops (s t : State) : Prop where
  stopped : t.stopped = true
  posted : ∃ j, s.posted.length ≤ j ∧ t.posted[j]? = some (.close s.session)

/-- After the invocation of a callback that calls `stop()` the handler that has led from `s` to
`t` does nothing that is `isActive`. -/
def Heeds (env : Env) (s t : State) : Prop :=
  ∃ es, t.log = s.log ++ es ∧ ∀ a e b, es = a ++ e :: b → (env.invoked a e).stops = true →
    Stops s t ∧ ∀ x ∈ b, x.isActive = false

section Heeds

variable {env : Env} {s t u : State}

theorem not_stops_of_not_isInvocation {a : List Event} {e : Event}
    (h : (!e.isInvocation) = true) : (env.invoked a e).stops = false := by
  cases e <;> first | rfl | exact absurd h (by simp [Event.isInvocation])

theorem heeds_of_adds (h : Adds (!·.isInvocation) s t) : Heeds env s t := by
  obtain ⟨es, hes, hno⟩ := h
  refine ⟨es, hes, ?_⟩
  intro a e b heq hstops
  have he := hno e (by simp [heq])
  exact absurd hstops (by simp [not_stops_of_not_isInvocation he])

/-- Where an element of two lists lies, one after the other. -/
theorem append_eq_append_cons {xs ys a b : List Event} {e : Event}
    (h : xs ++ ys = a ++ e :: b) :
    (∃ b', xs = a ++ e :: b' ∧ b = b' ++ ys) ∨ ∃ a', ys = a' ++ e :: b ∧ a = xs ++ a' := by
  rcases List.append_eq_append_iff.mp h with ⟨a', ha, hys⟩ | ⟨c, hxs, hc⟩
  · exact Or.inr ⟨a', hys, ha⟩
  · cases c with
    | nil => exact Or.inr ⟨[], by simpa using hc.symm, by simpa using hxs.symm⟩
    | cons e' c =>
      obtain ⟨rfl, rfl⟩ := List.cons.inj hc
      exact Or.inl ⟨c, hxs, rfl⟩

/-- A handler goes on after what has stopped nothing. -/
theorem Heeds.then_adds (h : Heeds env s t) (hrun : t.stopped = false)
    (hadds : Adds (!·.isInvocation) t u) : Heeds env s u := by
  obtain ⟨es, hes, hheed⟩ := h
  obtain ⟨es', hes', hno⟩ := hadds
  refine ⟨es ++ es', by rw [hes', hes, List.append_assoc], ?_⟩
  intro a e b heq hstops
  rcases append_eq_append_cons heq with ⟨b', heq, -⟩ | ⟨a', heq, -⟩
  · have hstopped := (hheed a e b' heq hstops).1.stopped
    exact absurd hstopped (by simp [hrun])
  · have he := hno e (by simp [heq])
    exact absurd hstops (by simp [not_stops_of_not_isInvocation he])

/-- A handler may also finish what does not look at the flag, if it is not `isActive`. -/
theorem Heeds.then_idle (h : Heeds env s t) (hadds : Adds (!·.isActive) t u)
    (hstops : Stops s t → Stops s u) : Heeds env s u := by
  obtain ⟨es, hes, hheed⟩ := h
  obtain ⟨es', hes', hno⟩ := hadds
  refine ⟨es ++ es', by rw [hes', hes, List.append_assoc], ?_⟩
  intro a e b heq hst
  rcases append_eq_append_cons heq with ⟨b', hes, rfl⟩ | ⟨a', heq, -⟩
  · obtain ⟨hthen, hb⟩ := hheed a e b' hes hst
    refine ⟨hstops hthen, ?_⟩
    intro x hx
    rcases List.mem_append.mp hx with hx | hx
    · exact hb x hx
    · simpa using hno x hx
  · have he := Event.not_isInvocation (hno e (by simp [heq]))
    exact absurd hst (by simp [not_stops_of_not_isInvocation he])

/-- The closure of a `stop()` made in a callback is in the queue. -/
theorem exists_posted_of_stops {cb : Callback} (hcb : cb.stops = true) (session : ℕ) :
    ∃ j : ℕ, (cb.calls.map (Call.posts session))[j]? = some (.close session) := by
  obtain ⟨c, hc, hstop⟩ := List.any_eq_true.mp hcb
  have hmem : Posted.close session ∈ cb.calls.map (Call.posts session) := by
    refine List.mem_map.mpr ⟨c, hc, ?_⟩
    cases c with
    | stop => rfl
    | send thread msg => exact absurd hstop (by simp [Call.isStop])
  exact List.mem_iff_getElem?.mp hmem

/-- An invocation of a callback, after others that have stopped nothing: the calls it makes are
the last that the handler records. -/
theorem heeds_invoke {e : Event} (pre : List Event) (hlog : u.log = s.log ++ pre)
    (hno : ∀ a x b, pre = a ++ x :: b → (env.invoked a x).stops = false)
    (hposted : s.posted.length ≤ u.posted.length) (hsession : u.session = s.session) :
    Heeds env s (catchAll ((env.invoked pre e).invoke (emit e u))) := by
  rw [catchAll_invoke]
  refine ⟨pre ++ e :: (env.invoked pre e).calls.filterMap Call.event?, ?_, ?_⟩
  · simp [emit, hlog]
  · intro a x b heq hstops
    rcases append_eq_append_cons heq with ⟨b', hpre, -⟩ | ⟨a', hrest, rfl⟩
    · exact absurd hstops (by simp [hno a x b' hpre])
    · rcases List.cons_eq_append_iff.mp hrest with ⟨rfl, hx⟩ | ⟨a'', rfl, hcalls⟩
      · obtain ⟨rfl, rfl⟩ := List.cons.inj hx
        rw [List.append_nil] at hstops
        obtain ⟨j, hj⟩ := exists_posted_of_stops hstops u.session
        refine ⟨⟨by simp [hstops], u.posted.length + j, by omega, ?_⟩, ?_⟩
        · show (u.posted ++ (env.invoked pre x).calls.map (Call.posts u.session))[_]? = _
          rw [List.getElem?_append_right (Nat.le_add_right ..), Nat.add_sub_cancel_left,
            ← hsession]
          exact hj
        · intro y hy
          obtain ⟨c, -, hc⟩ := List.mem_filterMap.mp hy
          exact not_isActive_of_event? hc
      · have hmem : x ∈ (env.invoked pre e).calls.filterMap Call.event? := by
          rw [hcalls]
          simp
        obtain ⟨c, -, hc⟩ := List.mem_filterMap.mp hmem
        have hquiet : (!x.isInvocation) = true :=
          Event.not_isInvocation (by simp [not_isActive_of_event? hc])
        exact absurd hstops (by simp [not_stops_of_not_isInvocation hquiet])

/-- A status change, after invocations that have stopped nothing; if the callback is set, it is
given the one meant for this invocation. -/
theorem heeds_setStatus {cb : Callback} {pre : List Event} (st : Status) (info : Info)
    (hlog : u.log = s.log ++ pre)
    (hno : ∀ a x b, pre = a ++ x :: b → (env.invoked a x).stops = false)
    (hposted : s.posted.length ≤ u.posted.length) (hsession : u.session = s.session)
    (hcb : u.onStatus = true → env.invoked (pre ++ [.status st info]) (.onStatus st info) = cb) :
    Heeds env s (setStatus st info cb u) := by
  have hno' : ∀ a x b, pre ++ [.status st info] = a ++ x :: b →
      (env.invoked a x).stops = false := by
    intro a x b heq
    rcases append_eq_append_cons heq with ⟨b', hpre, -⟩ | ⟨a', hrest, -⟩
    · exact hno a x b' hpre
    · have hx : x ∈ [Event.status st info] := by rw [hrest]; simp
      rw [List.mem_singleton.mp hx]
      exact not_stops_of_not_isInvocation rfl
  have hlog' : (emit (.status st info) { u with currentStatus := st }).log =
      s.log ++ (pre ++ [.status st info]) := by simp [emit, hlog]
  rw [setStatus_cases]
  split
  · rename_i hset
    rw [← hcb hset]
    exact heeds_invoke _ hlog' hno' hposted hsession
  · exact ⟨_, hlog', fun a x b heq hstops => absurd hstops (by simp [hno' a x b heq])⟩

/-- The first status change of a handler. -/
theorem heeds_setStatus_first (st : Status) (info : Info) (pre : List Event)
    (hlog : u.log = s.log ++ pre) (hno : ∀ x ∈ pre, x.isInvocation = false)
    (hposted : u.posted = s.posted) (hsession : u.session = s.session) :
    Heeds env s (setStatus st info env.onStatus u) := by
  refine heeds_setStatus st info hlog ?_ (hposted ▸ Nat.le_refl _) hsession ?_
  · intro a x b heq
    exact not_stops_of_not_isInvocation (by simp [hno x (by simp [heq])])
  · intro _
    have hnone : (pre ++ [Event.status st info]).any Event.isOnStatus = false := by
      apply List.any_eq_false.mpr
      intro x hx
      rcases List.mem_append.mp hx with hx | hx
      · have := hno x hx
        cases x <;> simp_all [Event.isOnStatus, Event.isInvocation]
      · rw [List.mem_singleton.mp hx]
        simp [Event.isOnStatus]
    simp [Env.invoked, hnone]

/-- A failure is reported, and the reconnection scheduled unless that has stopped the client. -/
theorem heeds_report (st : Status) (info : Info) (env : Env) (s : State) :
    Heeds env s (scheduleReconnect env.onStatus2 (setStatus st info env.onStatus s)) := by
  have hfirst : Heeds env s (setStatus st info env.onStatus s) :=
    heeds_setStatus_first st info [] (by simp) (by simp) rfl rfl
  rcases Bool.eq_false_or_eq_true (setStatus st info env.onStatus s).stopped with hs | hrun
  · rwa [scheduleReconnect_of_stopped hs]
  · obtain ⟨es, hes, hheed⟩ := hfirst
    have hno : ∀ a x b, es = a ++ x :: b → (env.invoked a x).stops = false := by
      intro a x b heq
      apply Bool.eq_false_iff.mpr
      intro hstops
      exact absurd (hheed a x b heq hstops).1.stopped (Bool.eq_false_iff.mp hrun)
    have htold : s.onStatus = true → es.any Event.isOnStatus = true := by
      intro hset
      rw [setStatus_eq] at hes
      have hes' := List.append_cancel_left hes
      simp [← hes', hset, Event.isOnStatus]
    have hsecond : Heeds env s (setStatus .reconnecting (.retryIn s.reconnectDelay)
        env.onStatus2 (setStatus st info env.onStatus s)) := by
      refine heeds_setStatus .reconnecting _ hes hno ?_ (by simp) ?_
      · rw [setStatus_eq]
        simp
      · intro hset
        have hset' : s.onStatus = true := by
          rw [setStatus_eq] at hset
          exact hset
        simp [Env.invoked, htold hset']
    rw [scheduleReconnect_of_running hrun, setStatus_reconnectDelay]
    refine hsecond.then_idle ?_ fun h => ⟨h.stopped, h.posted⟩
    exact adds_emit rfl (expiresAfter _)

theorem Heeds.then_doRead (h : Heeds env s t) : Heeds env s (doRead t) := by
  rcases Bool.eq_false_or_eq_true t.stopped with hs | hrun
  · have hgone : doRead t = t := if_pos hs
    rwa [hgone]
  · rw [doRead_of_running hrun]
    exact h.then_adds hrun (adds_emit rfl t)

theorem adds_doWrite (s : State) : Adds (!·.isInvocation) s (doWrite s) := by
  rcases doWrite_cases s with h | ⟨msg, rest, -, h⟩
  · rw [h]
    exact .refl s
  · rw [h]
    exact adds_emit rfl s

theorem heeds_connectHandler (env : Env) (sock : Socket) (ec : Option ErrorCode) (s : State) :
    Heeds env s (connectHandler env sock ec s) := by
  unfold connectHandler
  split
  · exact heeds_of_adds (.refl s)
  · split
    · refine Heeds.then_doRead ?_
      exact heeds_setStatus_first _ _ [.connectHandled sock] rfl
        (by simp [Event.isInvocation]) rfl rfl
    · exact heeds_report _ _ env s

theorem heeds_connectResume (env : Env) (t : Task) (rest : List Endpoint)
    (ec : Option ErrorCode) (s : State) : Heeds env s (connectResume env t rest ec s) := by
  unfold connectResume
  split
  · split
    · exact heeds_connectHandler env t.sock none s
    · exact heeds_connectHandler env t.sock _ s
    · exact heeds_of_adds (adds_of_log_eq (rangeConnect_log ..))
  · exact heeds_connectHandler env t.sock _ s

theorem heeds_readHandler (env : Env) (r : Result) (s : State) :
    Heeds env s (readHandler env r s) := by
  unfold readHandler
  split
  · exact heeds_of_adds (.refl s)
  · split
    · refine Heeds.then_doRead ?_
      split
      · exact heeds_invoke (e := .onMessage _ s.currentStatus) [] (by simp) (by simp)
          (Nat.le_refl _) rfl
      · exact heeds_of_adds (.refl s)
    · split
      · exact heeds_report _ _ env s
      · exact heeds_report _ _ env s

theorem heeds_writeResume (env : Env) (t : Task) (msg : Bytes) (sent : ℕ) (r : Result)
    (s : State) : Heeds env s (writeResume env t msg sent r s) := by
  have hhandler : ∀ ec, Heeds env s (writeHandler env ec s) := by
    intro ec
    rcases Bool.eq_false_or_eq_true s.stopped with hs | hrun
    · have hgone : writeHandler env ec s = s := if_pos hs
      rw [hgone]
      exact heeds_of_adds (.refl s)
    · cases ec with
      | none =>
        rw [writeHandler_ok env hrun]
        exact heeds_of_adds (adds_doWrite { s with writeMsgs := s.writeMsgs.tail })
      | some ec =>
        have heq : writeHandler env (some ec) s = scheduleReconnect env.onStatus2
            (setStatus .error (.writeError ec) env.onStatus s) := if_neg (by simp [hrun])
        rw [heq]
        exact heeds_report _ _ env s
  unfold writeResume
  split
  · exact hhandler _
  · split
    · exact hhandler none
    · exact heeds_of_adds (adds_of_log_eq rfl)

theorem adds_doConnect (env : Env) (s : State) : Adds (!·.isInvocation) s (doConnect env s).2 := by
  unfold doConnect
  split
  · exact .refl s
  · split
    · exact .refl s
    · exact (adds_emit rfl s).trans (adds_of_log_eq (rangeConnect_log ..))

theorem adds_conclude (r : Exit × State) : Adds (!·.isActive) r.2 (conclude r) := by
  obtain ⟨exit, s⟩ := r
  cases exit with
  | returned => exact .refl s
  | threw => exact adds_emit rfl s

theorem adds_waitHandler (env : Env) (ec : Option ErrorCode) (s : State) :
    Adds (!·.isInvocation) s (conclude (waitHandler env ec s)) := by
  have h : Adds (!·.isInvocation) s (waitHandler env ec s).2 := by
    unfold waitHandler
    split
    · have hconnect : Adds (!·.isInvocation) s (doConnect env (replaceSocket s)).2 :=
        adds_doConnect env (replaceSocket s)
      split
      · rename_i heq
        rw [heq] at hconnect
        exact hconnect
      · rename_i heq
        rw [heq] at hconnect
        exact hconnect
    · exact .refl s
  exact h.trans ((adds_conclude _).mono fun _ => Event.not_isInvocation)

theorem heeds_runHandler (env : Env) (t : Task) (r : Result) (s : State) :
    Heeds env s (conclude (runHandler env t r s)) := by
  unfold runHandler
  split
  · exact heeds_connectResume env t _ _ s
  · exact heeds_readHandler env r s
  · exact heeds_writeResume env t _ _ r s
  · exact heeds_of_adds (adds_waitHandler env r.ec s)

theorem heeds_runPosted (env : Env) (c : Posted) (s : State) :
    Heeds env s (runPosted env c s) := by
  cases c with
  | send thread msg =>
    unfold runPosted
    dsimp only
    split
    · exact heeds_of_adds (.refl s)
    · have h : Adds (!·.isInvocation) s (emit (.accepted thread msg)
          { s with writeMsgs := s.writeMsgs ++ [msg] }) :=
        adds_emit rfl { s with writeMsgs := s.writeMsgs ++ [msg] }
      split
      · exact heeds_of_adds h
      · exact heeds_of_adds (h.trans (adds_doWrite _))
  | close session =>
    unfold runPosted
    dsimp only
    split
    · exact heeds_setStatus_first _ _ [] (by simp [closeSocket]) (by simp) rfl rfl
    · exact heeds_of_adds (.refl s)

end Heeds

/-! ## Steps -/

/-- What the surroundings decide in a step that runs a handler or a closure. -/
def Label.env? : Label → Option Env
  | .runPosted env | .runOp _ env => some env
  | _ => none

/-- A step in which a callback stops the client: its closure is in the queue, and what is left
of the handler does nothing that is `isActive`. -/
theorem step_heeds {s s' : State} {l : Label} {env : Env} (hl : l.env? = some env)
    (hst : step s l = some s') {a b : List Event} {e : Event}
    (hlog : s'.log = s.log ++ (a ++ e :: b)) (hstops : (env.invoked a e).stops = true) :
    s'.stopped = true ∧ (∃ j, s.posted.length ≤ j + 1 ∧
      s'.posted[j]? = some (.close s.session)) ∧ ∀ x ∈ b, x.isActive = false := by
  cases l with
  | runPosted env' =>
    obtain rfl : env' = env := Option.some.inj hl
    obtain ⟨c, rest, hposted, rfl⟩ := step_runPosted hst
    obtain ⟨es, hes, hheed⟩ := heeds_runPosted env' c { s with posted := rest }
    obtain ⟨⟨hstopped, j, hj, hclose⟩, hb⟩ :=
      hheed a e b (List.append_cancel_left (hes.symm.trans hlog)) hstops
    have hlen : s.posted.length = rest.length + 1 := by rw [hposted]; rfl
    exact ⟨hstopped, ⟨j, by rw [hlen]; exact Nat.succ_le_succ hj, hclose⟩, hb⟩
  | runOp i env' =>
    obtain rfl : env' = env := Option.some.inj hl
    obtain ⟨before, t, res, after, -, rfl⟩ := step_runOp hst
    obtain ⟨es, hes, hheed⟩ := heeds_runHandler env' t res { s with ops := before ++ after }
    obtain ⟨⟨hstopped, j, hj, hclose⟩, hb⟩ :=
      hheed a e b (List.append_cancel_left (hes.symm.trans hlog)) hstops
    exact ⟨hstopped, ⟨j, Nat.le_succ_of_le hj, hclose⟩, hb⟩
  | start env' | stop | send thread msg | setMessageCallback set | setStatusCallback set
  | complete i out => exact absurd hl (by simp [Label.env?])

/-- **`stop()` is quiescent**, in whatever state it is called, between handlers or by a callback
in the middle of one: the closure it posts is in the queue, what is left of the handler starts
nothing and invokes nothing, and every later run without `start()` is quiescent. -/
theorem stop_quiescent (s : State) :
    (∀ s', step s .stop = some s' →
      s'.posted[s.posted.length]? = some (.close s.session) ∧ s'.log = s.log ∧ Quiescent s') ∧
    ∀ l env s' a e b, l.env? = some env → step s l = some s' →
      s'.log = s.log ++ (a ++ e :: b) → (env.invoked a e).stops = true →
        (∃ j, s.posted.length ≤ j + 1 ∧ s'.posted[j]? = some (.close s.session)) ∧
          (∀ x ∈ b, x.isActive = false) ∧ Quiescent s' := by
  constructor
  · intro s' hst
    obtain rfl := Option.some.inj hst
    exact ⟨by simp [stop, close, post], rfl, quiescent_of_stopped rfl⟩
  · intro l env s' a e b hl hst hlog hstops
    obtain ⟨hstopped, hclose, hb⟩ := step_heeds hl hst hlog hstops
    exact ⟨hclose, hb, quiescent_of_stopped hstopped⟩

/-- The callback for messages stops the client; the one of the connect before is not set. -/
def stopOnMessage : Env := { onMessage := { calls := [.stop] } }

/-- A message has arrived on the connection. -/
def arrived : List Label :=
  [.setMessageCallback true, .start {}, .complete 0 .connected, .runOp 0 {},
    .complete 0 (.received [97])]

/-- The read that `do_read` would start next is not started. -/
theorem stop_quiescent_stopOnMessage :
    Quiescent (reached step Any init (arrived ++ [.runOp 0 stopOnMessage])) := by
  have h := (stop_quiescent (reached step Any init arrived)).2 (.runOp 0 stopOnMessage)
    stopOnMessage (reached step Any init (arrived ++ [.runOp 0 stopOnMessage])) []
    (.onMessage [97] .connected) [] rfl rfl rfl rfl
  exact h.2.2

end AsioLearn.TcpClient
