import AsioLearn.TcpClient.SingleDriver

/-!
# What the reported status says

In a run with one `start()` and no `stop()` the status should be `Connected` exactly while the
read chain of the current connection lives, its last handler included. The handler of a failed
write reports `Error` and `Reconnecting` without looking at that chain.

* `status_faithful_unless_write_fails`: the status is faithful while failed writes are handled
  only with the timer pending and nothing else under way.
-/

namespace AsioLearn.TcpClient

open Proactor Lts

/-- A read of the connection that `socket_` has established, outstanding or with its handler
queued. -/
def readChain (s : State) : Bool :=
  s.ops.any fun op => op.task.kind.isRead && (op.task.sock == s.socket && linked s)

/-- `is_connected()` says whether the read chain of the current connection lives, and messages
are handed to the user only while it does. -/
def StatusFaithful (s : State) : Prop :=
  (s.currentStatus = .connected ↔ readChain s = true) ∧ ∀ st ∈ reported s, st = .connected

instance : DecidablePred StatusFaithful := fun s => by unfold StatusFaithful; infer_instance

/-- A connect, a read, or a wait that has expired. -/
def underWay (op : Op Task Result) : Bool :=
  op.task.kind.isConnect || (op.task.kind.isRead || (armedWait op && op.result.isSome))

/-- If the step runs the handler of a failed write, no connect, read or expired wait is under
way. -/
def WriteFailsIdle (s : State) (l : Label) : Prop :=
  match ran? s l with
  | some (t, r) => t.kind.isWrite = true → r.ec.isSome = true → s.ops.any underWay = false
  | none => True

instance (s : State) (l : Label) : Decidable (WriteFailsIdle s l) :=
  match h : ran? s l with
  | some (t, r) => decidable_of_iff
      (t.kind.isWrite = true → r.ec.isSome = true → s.ops.any underWay = false)
      (by simp only [WriteFailsIdle, h])
  | none => isTrue (by simp only [WriteFailsIdle, h])

/-- A single driver, and a status that says whether it is a read chain. -/
structure Faithful (s : State) : Prop extends SingleDriver true s where
  status : s.currentStatus = .connected ↔ ∃ op ∈ s.ops, op.task.kind.isRead = true
  reported : ∀ st ∈ reported s, st = .connected

theorem drives_of_isRead {op : Op Task Result} (h : op.task.kind.isRead = true) :
    drives true op = true := by
  simp [drives, h]

theorem no_read_of_countP {ops : List (Op Task Result)} (h0 : ops.countP (drives true) = 0) :
    ¬ ∃ op ∈ ops, op.task.kind.isRead = true := by
  rintro ⟨op, hop, hr⟩
  exact List.countP_eq_zero.mp h0 op hop (drives_of_isRead hr)

theorem statusFaithful_of_faithful {s : State} (h : Faithful s) : StatusFaithful s := by
  refine ⟨h.status.trans ?_, h.reported⟩
  unfold readChain
  rw [List.any_eq_true]
  constructor
  · rintro ⟨op, hop, hr⟩
    obtain ⟨hsock, hl⟩ := h.reads op hop hr (drives_of_isRead hr)
    exact ⟨op, hop, by simp [hr, hsock, hl]⟩
  · rintro ⟨op, hop, hr⟩
    exact ⟨op, hop, ((Bool.and_eq_true ..).mp hr).1⟩

/-- A failed read is the driver itself, and a failed write finds at most a pending wait. -/
theorem handledAlone_of_writeFailsIdle {s : State} {l : Label} (h : SingleDriver true s)
    (hok : WriteFailsIdle s l) : HandledAlone true s l := by
  cases l with
  | runOp i env =>
    intro before t r after hp hkind hec
    have hops := pick_eq_some hp
    unfold WriteFailsIdle at hok
    rw [ran?_runOp hp] at hok
    rcases hkind with hread | hwrite
    · have h0 := h.rest hops (drives_of_isRead hread)
      have hle := countP_abort_drives true (·.kind.isWait) (before ++ after)
      omega
    · have hno := List.any_eq_false.mp (hok hwrite hec)
      apply countP_abort_waits
      intro op hop hd
      have hunder := hno op (by rw [hops]; exact mem_of_mem_rest hop)
      simp only [drives, underWay, Bool.or_eq_true, Bool.and_eq_true] at hd hunder
      rcases hd with hc | ⟨hread, -⟩ | hw
      · exact absurd (Or.inl hc) hunder
      · exact absurd (Or.inr (Or.inl hread)) hunder
      · refine ⟨((Bool.and_eq_true ..).mp hw).1, ?_⟩
        cases hres : op.result with
        | none => rfl
        | some res => exact absurd (Or.inr (Or.inr ⟨hw, by simp [hres]⟩)) hunder
  | start env | stop | send thread msg | setMessageCallback set | setStatusCallback set
  | complete i out | runPosted env => trivial

/-! ## Steps -/

section

variable {s s' : State}

/-- The three ways of handing the connection on, and the status they leave. -/
theorem Reads.faithful (h : Reads s s') (h0 : s.ops.countP (drives true) = 0)
    (hst : s'.currentStatus = .connected) (hrep : ∀ st ∈ TcpClient.reported s', st = .connected) :
    Faithful s' := by
  refine ⟨h.single h0, ⟨?_, fun _ => hst⟩, hrep⟩
  intro _
  obtain ⟨res, hops⟩ := h.ops
  exact ⟨⟨⟨.read, s.socket, s.session⟩, res⟩, by rw [hops]; simp, rfl⟩

theorem Rearmed.faithful (h : Rearmed s s')
    (h0 : (abort (·.kind.isWait) .aborted s.ops).countP (drives true) = 0)
    (hrep : ∀ st ∈ TcpClient.reported s, st = .connected) : Faithful s' := by
  refine ⟨h.single h0, ⟨?_, ?_⟩, by rw [h.log.reported]; exact hrep⟩
  · intro hst
    exact absurd hst (by simp [h.currentStatus])
  · rintro ⟨op, hop, hr⟩
    rw [h.ops] at hop
    rcases List.mem_append.mp hop with hop | hop
    · exact absurd ⟨op, hop, hr⟩ (no_read_of_countP h0)
    · rw [List.mem_singleton.mp hop] at hr
      exact absurd hr (by simp [Kind.isRead])

theorem Connects.faithful (h : Connects s s') (h0 : s.ops.countP (drives true) = 0)
    (hst : s.currentStatus ≠ .connected) (hrep : ∀ st ∈ TcpClient.reported s, st = .connected) :
    Faithful s' := by
  refine ⟨h.single h0, ⟨?_, ?_⟩, by rw [h.reported]; exact hrep⟩
  · intro hc
    exact absurd (h.currentStatus.symm.trans hc) hst
  · obtain ⟨p, new, hops, -, hnew⟩ := h.ops
    have hle := countP_abort_drives true p s.ops
    rintro ⟨op, hop, hr⟩
    rw [hops] at hop
    rcases List.mem_append.mp hop with hop | hop
    · exact absurd ⟨op, hop, hr⟩ (no_read_of_countP (by omega))
    · have hc := (hnew op hop).1
      cases hk : op.task.kind <;> simp_all [Kind.isConnect, Kind.isRead]

/-- Steps that add no read and leave the status alone. -/
theorem Faithful.keep (h : Faithful s) (h' : SingleDriver true s')
    (hst : s'.currentStatus = s.currentStatus)
    (hreads : (s'.ops.map Op.task).filter (·.kind.isRead) =
      (s.ops.map Op.task).filter (·.kind.isRead))
    (hrep : TcpClient.reported s' = TcpClient.reported s) : Faithful s' := by
  refine ⟨h', ?_, by rw [hrep]; exact h.reported⟩
  have hiff : ∀ ops : List (Op Task Result), (∃ op ∈ ops, op.task.kind.isRead = true) ↔
      (ops.map Op.task).filter (·.kind.isRead) ≠ [] := by
    intro ops
    rw [Ne, List.filter_eq_nil_iff]
    simp
  rw [hst, h.status, hiff, hiff, hreads]

theorem Faithful.writes (h : Faithful s) (hw : OnlyWrites s s') : Faithful s' := by
  have hs := h.toSingleDriver.writes hw
  obtain ⟨q, ws, es, rfl, hw, he⟩ := hw
  refine h.keep hs rfl ?_ (Adds.reported ⟨es, rfl, he⟩)
  have hnil : (ws.map Op.task).filter (·.kind.isRead) = [] := by
    rw [List.filter_eq_nil_iff]
    intro t ht
    obtain ⟨op, hop, rfl⟩ := List.mem_map.mp ht
    have := hw op hop
    cases hk : op.task.kind <;> simp_all [Kind.isWrite, Kind.isRead]
  rw [List.map_append, List.filter_append, hnil, List.append_nil]

/-- An operation that is not a read leaves the pool. -/
theorem Faithful.remove (h : Faithful s) {before after : List (Op Task Result)}
    {op : Op Task Result} (hops : s.ops = before ++ op :: after)
    (hr : op.task.kind.isRead = false) : Faithful { s with ops := before ++ after } := by
  have hsub : (before ++ after).Sublist s.ops := by
    rw [hops]
    exact (List.Sublist.refl before).append (List.sublist_cons_self _ _)
  exact h.keep (h.toSingleDriver.remove hsub) rfl (by simp [hops, hr]) rfl

theorem reported_deliver (out : Outcome) (t : Task) (s : State) :
    reported (out.deliver t s) = reported s := by
  unfold Outcome.deliver
  split <;> simp [reported, emit, Event.reported?]

/-- No read is in a pool whose driver is another operation. -/
theorem Faithful.not_connected (h : Faithful s) {before after : List (Op Task Result)}
    {op : Op Task Result} (hops : s.ops = before ++ op :: after) (hd : drives true op = true)
    (hr : op.task.kind.isRead = false) : s.currentStatus ≠ .connected := by
  intro hst
  obtain ⟨op', hop', hr'⟩ := h.status.mp hst
  have hnone := no_read_of_countP (h.rest hops hd)
  rw [hops] at hop'
  rcases List.mem_append.mp hop' with hop' | hop'
  · exact hnone ⟨op', List.mem_append_left _ hop', hr'⟩
  · rcases List.mem_cons.mp hop' with rfl | hop'
    · exact absurd hr' (by simp [hr])
    · exact hnone ⟨op', List.mem_append_right _ hop', hr'⟩

theorem faithful_runOp (h : Faithful s) {i : ℕ} {env : Env} (henv : env.neverStops = true)
    (hok : HandledAlone true s (.runOp i env)) (hs : step s (.runOp i env) = some s') :
    Faithful s' := by
  obtain ⟨before, t, res, after, hp, rfl⟩ := step_runOp hs
  have hops := pick_eq_some hp
  have hin : InSession { s with ops := before ++ after } := h.toInSession.of_eq rfl rfl rfl
  have hfail := hok before t res after hp
  have hmem : (⟨t, some res⟩ : Op Task Result) ∈ s.ops := by rw [hops]; simp
  have hle := countP_abort_drives true (·.kind.isWait) (before ++ after)
  obtain ⟨kind, sock, session⟩ := t
  cases kind with
  | connect rest =>
    have h0 := h.rest hops (drives_of_isConnect rfl)
    rcases connectResume_cases hin henv (h.connects _ hmem rfl) rest res.ec with
      ⟨hr, hst, hlog⟩ | hr | hr
    · exact hr.faithful h0 hst (by rw [hlog.reported]; exact h.reported)
    · exact hr.faithful (by show (abort _ _ (before ++ after)).countP _ = 0; omega) h.reported
    · exact hr.faithful h0 (h.not_connected hops (drives_of_isConnect rfl) rfl) h.reported
  | read =>
    have h0 := h.rest hops (drives_of_isRead rfl)
    cases hec : res.ec with
    | none =>
      have hst := h.status.mpr ⟨_, hmem, rfl⟩
      have hl := (h.reads _ hmem rfl (drives_of_isRead rfl)).2
      obtain ⟨hr, hsame, hrep⟩ := reads_readHandler hin henv hec hl
      apply hr.faithful h0 (hsame.trans hst)
      intro st hmem
      rcases hrep st hmem with hmem | rfl
      · exact h.reported st hmem
      · exact hst
    | some ec =>
      have herr : res.ec.isSome = true := by simp [hec]
      exact (rearmed_runFailed hin henv (Or.inl rfl) herr).faithful (hfail (Or.inl rfl) herr)
        h.reported
  | write msg sent =>
    cases hec : res.ec with
    | none => exact (h.remove hops rfl).writes (onlyWrites_writeResume env _ msg sent hec _)
    | some ec =>
      have herr : res.ec.isSome = true := by simp [hec]
      exact (rearmed_runFailed hin henv (Or.inr rfl) herr).faithful (hfail (Or.inr rfl) herr)
        h.reported
  | wait =>
    cases hec : res.ec with
    | none =>
      have hd : drives true ⟨⟨.wait, sock, session⟩, some res⟩ = true := by
        simp [drives, armedWait, alive, hec, Kind.isWait]
      simp only [runHandler, hec]
      exact (connects_waitHandler hin env).conclude.faithful (h.rest hops hd)
        (h.not_connected hops hd rfl) h.reported
    | some ec =>
      simp only [runHandler, hec]
      exact h.remove hops rfl

theorem step_faithful (h : Faithful s) {l : Label} (hb : OneSession s l)
    (hok : HandledAlone true s l) (hs : step s l = some s') : Faithful s' := by
  have hsingle := step_single h.toSingleDriver hb hok hs
  cases l with
  | start env => exact absurd hb h.started
  | stop => exact hb.elim
  | send thread msg =>
    obtain rfl := Option.some.inj hs
    have hlog : Routine s (send thread msg s) := adds_emit rfl (post (.send thread msg) s)
    exact h.keep hsingle rfl rfl hlog.reported
  | setMessageCallback set | setStatusCallback set =>
    obtain rfl := Option.some.inj hs
    exact h.keep hsingle rfl rfl rfl
  | complete i out =>
    obtain ⟨before, t, after, res, hops, -, rfl⟩ := step_complete hs
    exact h.keep hsingle (by simp) (by simp [hops]) (reported_deliver out t _)
  | runPosted env =>
    obtain ⟨c, rest, hposted, rfl⟩ := step_runPosted hs
    obtain ⟨⟨thread, msg, rfl⟩, hin⟩ := h.toInSession.next hposted
    have h' : Faithful { s with posted := rest } :=
      ⟨⟨hin, h.count, h.reads, h.connects⟩, h.status, h.reported⟩
    exact h'.writes (onlyWrites_send env thread msg _)
  | runOp i env => exact faithful_runOp h hb hok hs

end

/-! ## Runs -/

/-- The client before its start, or with a faithful status. -/
def StatusInv (s : State) : Prop :=
  (BeforeStart s ∧ s.currentStatus = .disconnected ∧ reported s = []) ∨ Faithful s

theorem step_statusInv {s s' : State} {l : Label} (h : StatusInv s) (hb : OneSession s l)
    (hok : WriteFailsIdle s l) (hs : step s l = some s') : StatusInv s' := by
  rcases h with ⟨h, hst, hrep⟩ | h
  · rcases step_beforeStart h hb hs with ⟨env, -, rfl⟩ | ⟨h', hsame, hlog⟩
    · have hin : InSession { s with stopped := false, session := s.session + 1 } :=
        ⟨rfl, Nat.succ_ne_zero _, h.posted⟩
      refine Or.inr ((connects_doConnect hin env).conclude.faithful ?_ ?_ ?_)
      · show s.ops.countP (drives true) = 0
        rw [h.ops]
        rfl
      · show s.currentStatus ≠ .connected
        rw [hst]
        decide
      · show ∀ st ∈ reported s, st = .connected
        rw [hrep]
        exact fun _ hmem => absurd hmem List.not_mem_nil
    · exact Or.inl ⟨h', hsame.trans hst, hlog.reported.trans hrep⟩
  · exact Or.inr (step_faithful h hb (handledAlone_of_writeFailsIdle h.toSingleDriver hok) hs)

theorem statusFaithful_of_inv {s : State} (h : StatusInv s) : StatusFaithful s := by
  rcases h with ⟨h, hst, hrep⟩ | h
  · refine ⟨⟨fun hc => absurd (hst.symm.trans hc) (by decide), ?_⟩, ?_⟩
    · intro hc
      unfold readChain at hc
      rw [h.ops] at hc
      exact absurd hc (by simp)
    · rw [hrep]
      exact fun _ hmem => absurd hmem List.not_mem_nil
  · exact statusFaithful_of_faithful h

/-- **The status is faithful until a failed write is handled.** In a run with one `start()` and
no `stop()` in which the handler of a failed write runs only while no connect, no read and no
expired wait is under way, the client reports `Connected` exactly while the read chain of its
current connection lives, and hands messages to the user only then. -/
theorem status_faithful_unless_write_fails (ls : List Label) (s : State)
    (h : Run step (fun s l => OneSession s l ∧ WriteFailsIdle s l) init ls s) :
    StatusFaithful s := by
  refine statusFaithful_of_inv
    (h.invariant (I := StatusInv) (Or.inl ⟨beforeStart_init, rfl, rfl⟩) ?_)
  rintro s l s' h ⟨hb, hok⟩ hs
  exact step_statusInv h hb hok hs

theorem status_faithful_unless_write_fails_serverCloses :
    (reached step (fun s l => OneSession s l ∧ WriteFailsIdle s l) init serverCloses).currentStatus
      = .connected ∧
    StatusFaithful
      (reached step (fun s l => OneSession s l ∧ WriteFailsIdle s l) init serverCloses) :=
  ⟨by decide, status_faithful_unless_write_fails serverCloses _ (run_reached (by decide))⟩

/-- A write fails while the read of its connection is outstanding: the client reports
`Reconnecting` with its connection alive. -/
theorem not_status_faithful :
    ¬ ∀ (ls : List Label) (s : State), Run step OneSession init ls s → StatusFaithful s := by
  intro h
  exact absurd (h writeFailsFirst _ (run_reached (by decide))) (by decide)

end AsioLearn.TcpClient
