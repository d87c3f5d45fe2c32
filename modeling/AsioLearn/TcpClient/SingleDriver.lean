import AsioLearn.TcpClient.Handover

/-!
# One driver at a time

A client that is started once and never stopped is driven on by a connect in progress, by the
read chain of its connection, or by an armed reconnect wait. `SingleDriver` says that at most one
of these exists and that it belongs to the current `socket_`. Every handler hands the driver on,
except that of a failed read or write, which arms a wait whatever else is under way.

* `step_single`: the invariant, with a failed read whose handler is queued counted as a driver or
  not.
* `one_driver_iff_failsAlone`: at most one driver in every state of a run exactly when failed
  reads and writes are handled alone.
-/

namespace AsioLearn.TcpClient

open Proactor Lts

/-! ## Drivers -/

/-- The operation drives the client on: a connect, a read whose chain lives, or an unaborted
wait. `failed` says whether a read that has failed counts until its handler runs. -/
def drives (failed : Bool) (op : Op Task Result) : Bool :=
  op.task.kind.isConnect || (op.task.kind.isRead && (failed || alive op) || armedWait op)

/-- At most one operation drives the client; a read chain is that of the established connection,
and a connect is on the current socket. -/
structure SingleDriver (failed : Bool) (s : State) : Prop extends InSession s where
  count : s.ops.countP (drives failed) ≤ 1
  reads : ∀ op ∈ s.ops, op.task.kind.isRead = true → drives failed op = true →
    op.task.sock = s.socket ∧ linked s = true
  connects : ∀ op ∈ s.ops, op.task.kind.isConnect = true → op.task.sock = s.socket

theorem drives_of_isConnect {failed : Bool} {op : Op Task Result}
    (h : op.task.kind.isConnect = true) : drives failed op = true := by
  simp [drives, h]

/-- A write is never a driver. -/
theorem drives_write {failed : Bool} {op : Op Task Result} (h : op.task.kind.isWrite = true) :
    drives failed op = false := by
  obtain ⟨⟨kind, sock, session⟩, res⟩ := op
  cases kind <;> simp_all [drives, armedWait, Kind.isConnect, Kind.isRead, Kind.isWait,
    Kind.isWrite]

/-- An operation that drives after its completion did so before. -/
theorem drives_of_completed {failed : Bool} {t : Task} {r : Result}
    (h : drives failed ⟨t, some r⟩ = true) : drives failed ⟨t, none⟩ = true := by
  simp only [drives, alive, armedWait, Bool.or_eq_true, Bool.and_eq_true] at h ⊢
  rcases h with h | ⟨h, -⟩ | ⟨h, -⟩
  · exact Or.inl h
  · exact Or.inr (Or.inl ⟨h, Or.inr trivial⟩)
  · exact Or.inr (Or.inr ⟨h, trivial⟩)

section Single

variable {failed : Bool} {s : State} {ops : List (Op Task Result)}

/-- A pool without drivers but for one new operation on the current socket. -/
theorem SingleDriver.of_only {new : List (Op Task Result)} (h : InSession s)
    (hops : s.ops = ops ++ new) (h0 : ops.countP (drives failed) = 0) (hlen : new.length ≤ 1)
    (hr : ∀ op ∈ new, op.task.kind.isRead = true → op.task.sock = s.socket ∧ linked s = true)
    (hc : ∀ op ∈ new, op.task.kind.isConnect = true → op.task.sock = s.socket) :
    SingleDriver failed s := by
  have hno : ∀ op ∈ ops, ¬ drives failed op = true := List.countP_eq_zero.mp h0
  refine ⟨h, ?_, ?_, ?_⟩
  · rw [hops, List.countP_append, h0, Nat.zero_add]
    exact Nat.le_trans List.countP_le_length hlen
  · intro op hop hread hd
    rw [hops] at hop
    rcases List.mem_append.mp hop with hop | hop
    · exact absurd hd (hno op hop)
    · exact hr op hop hread
  · intro op hop hconn
    rw [hops] at hop
    rcases List.mem_append.mp hop with hop | hop
    · exact absurd (drives_of_isConnect hconn) (hno op hop)
    · exact hc op hop hconn

theorem countP_abort_drives (failed : Bool) (p : Task → Bool) (ops : List (Op Task Result)) :
    (abort p .aborted ops).countP (drives failed) ≤ ops.countP (drives failed) :=
  countP_abort_le p .aborted (fun _ _ h => drives_of_completed h) ops

/-- Aborting the waits leaves no driver, if every driver is a pending wait. -/
theorem countP_abort_waits
    (h : ∀ op ∈ ops, drives failed op = true → op.task.kind.isWait = true ∧ op.result = none) :
    (abort (·.kind.isWait) .aborted ops).countP (drives failed) = 0 := by
  rw [List.countP_eq_zero]
  intro op hop hd
  rcases mem_abort (fun t : Task => t.kind.isWait) Result.aborted hop with
    ⟨hmem, hwait⟩ | ⟨hw, hr, -⟩
  · obtain ⟨hw, hnone⟩ := h op hmem hd
    have := hwait hw
    rw [hnone] at this
    exact absurd this (by simp)
  · obtain ⟨⟨kind, sock, session⟩, res⟩ := op
    obtain rfl : res = some .aborted := hr
    cases kind <;> simp_all [drives, armedWait, alive, Kind.isConnect, Kind.isRead, Kind.isWait,
      Result.aborted, Result.error]

/-- The three ways of handing the connection on, from a pool whose driver has just been
removed. -/
theorem Reads.single {s' : State} (h : Reads s s') (h0 : s.ops.countP (drives failed) = 0) :
    SingleDriver failed s' := by
  obtain ⟨res, hops⟩ := h.ops
  refine .of_only h.inSession hops h0 (Nat.le_refl _) ?_ ?_
  · intro op hop _
    rw [List.mem_singleton.mp hop]
    exact ⟨h.socket.symm, h.linked⟩
  · intro op hop hc
    rw [List.mem_singleton.mp hop] at hc
    exact absurd hc (by simp [Kind.isConnect])

theorem Rearmed.single {s' : State} (h : Rearmed s s')
    (h0 : (abort (·.kind.isWait) .aborted s.ops).countP (drives failed) = 0) :
    SingleDriver failed s' := by
  refine .of_only h.inSession h.ops h0 (Nat.le_refl _) ?_ ?_
  · intro op hop hr
    rw [List.mem_singleton.mp hop] at hr
    exact absurd hr (by simp [Kind.isRead])
  · intro op hop hc
    rw [List.mem_singleton.mp hop] at hc
    exact absurd hc (by simp [Kind.isConnect])

theorem Connects.single {s' : State} (h : Connects s s')
    (h0 : s.ops.countP (drives failed) = 0) : SingleDriver failed s' := by
  obtain ⟨p, new, hops, hlen, hnew⟩ := h.ops
  have hle := countP_abort_drives failed p s.ops
  refine .of_only h.inSession hops (by omega) hlen ?_ fun op hop _ => (hnew op hop).2
  intro op hop hr
  have hc := (hnew op hop).1
  cases hk : op.task.kind <;> simp_all [Kind.isConnect, Kind.isRead]

/-- What changes no driver and leaves `socket_` alone keeps the invariant. -/
theorem SingleDriver.keep {s' : State} (h : SingleDriver failed s) (h' : InSession s')
    (hcount : s'.ops.countP (drives failed) ≤ s.ops.countP (drives failed))
    (hops : ∀ op ∈ s'.ops, drives failed op = true →
      ∃ op' ∈ s.ops, op'.task = op.task ∧ drives failed op' = true)
    (hsock : s'.socket = s.socket) (hlog : s.log <+: s'.log) : SingleDriver failed s' := by
  refine ⟨h', Nat.le_trans hcount h.count, ?_, ?_⟩
  · intro op hop hread hd
    obtain ⟨op', hop', htask, hd'⟩ := hops op hop hd
    rw [← htask] at hread ⊢
    obtain ⟨hs, hl⟩ := h.reads op' hop' hread hd'
    exact ⟨hs.trans hsock.symm, linked_of_grows hl hlog hsock⟩
  · intro op hop hc
    obtain ⟨op', hop', htask, -⟩ := hops op hop (drives_of_isConnect hc)
    rw [← htask] at hc ⊢
    exact (h.connects op' hop' hc).trans hsock.symm

/-- Starting writes on a pool from which operations have been removed. -/
theorem SingleDriver.writes {s' : State} (h : SingleDriver failed s) (hw : OnlyWrites s s') :
    SingleDriver failed s' := by
  obtain ⟨q, ws, es, rfl, hw, -⟩ := hw
  have hnone : ∀ op ∈ ws, drives failed op = false := fun op hop => drives_write (hw op hop)
  have hin : InSession { s with writeMsgs := q, ops := s.ops ++ ws, log := s.log ++ es } :=
    h.toInSession.of_eq rfl rfl rfl
  refine h.keep hin ?_ ?_ rfl (List.prefix_append _ _)
  · have h0 : ws.countP (drives failed) = 0 :=
      List.countP_eq_zero.mpr fun op hop => by simp [hnone op hop]
    exact Nat.le_of_eq (by rw [List.countP_append, h0, Nat.add_zero])
  · intro op hop hd
    rcases List.mem_append.mp hop with hop | hop
    · exact ⟨op, hop, rfl, hd⟩
    · exact absurd hd (by simp [hnone op hop])

/-- An operation leaves the pool. -/
theorem SingleDriver.remove (h : SingleDriver failed s) (hops : ops.Sublist s.ops) :
    SingleDriver failed { s with ops := ops } :=
  h.keep (h.toInSession.of_eq rfl rfl rfl) hops.countP_le
    (fun op hop hd => ⟨op, hops.subset hop, rfl, hd⟩) rfl List.prefix_rfl

end Single

/-! ## Steps -/

section Step

variable {failed : Bool} {s s' : State}

/-- The pool without its driver has none. -/
theorem SingleDriver.rest (h : SingleDriver failed s) {before after : List (Op Task Result)}
    {op : Op Task Result} (hops : s.ops = before ++ op :: after) (hd : drives failed op = true) :
    (before ++ after).countP (drives failed) = 0 := by
  have hcount := h.count
  rw [hops, List.countP_append, List.countP_cons_of_pos hd] at hcount
  rw [List.countP_append]
  omega

theorem single_complete (h : SingleDriver failed s) {i : ℕ} {out : Outcome}
    (hs : step s (.complete i out) = some s') : SingleDriver failed s' := by
  obtain ⟨before, t, after, res, hops, -, rfl⟩ := step_complete hs
  have hlog := deliver_log out t { s with ops := before ++ ⟨t, some res⟩ :: after }
  have hdc : drives failed ⟨t, some res⟩ = true → drives failed ⟨t, none⟩ = true :=
    drives_of_completed
  refine h.keep (h.toInSession.of_eq (by simp) (by simp) (by simp)) ?_ ?_ (by simp) hlog
  · rw [deliver_ops, hops]
    simp only [List.countP_append, List.countP_cons]
    split_ifs <;> simp_all
  · intro op hop hd
    rw [deliver_ops] at hop
    rcases List.mem_append.mp hop with hop | hop
    · exact ⟨op, by rw [hops]; exact List.mem_append_left _ hop, rfl, hd⟩
    · rcases List.mem_cons.mp hop with rfl | hop
      · exact ⟨⟨t, none⟩, by rw [hops]; simp, rfl, hdc hd⟩
      · exact ⟨op, by rw [hops]; simp [hop], rfl, hd⟩

theorem single_runPosted (h : SingleDriver failed s) {env : Env}
    (hs : step s (.runPosted env) = some s') : SingleDriver failed s' := by
  obtain ⟨c, rest, hposted, rfl⟩ := step_runPosted hs
  obtain ⟨⟨thread, msg, rfl⟩, hin⟩ := h.toInSession.next hposted
  have h' : SingleDriver failed { s with posted := rest } := ⟨hin, h.count, h.reads, h.connects⟩
  exact h'.writes (onlyWrites_send env thread msg _)

/-- The handler of a read or write that has failed leaves no driver but waits to abort. -/
def HandledAlone (failed : Bool) (s : State) : Label → Prop
  | .runOp i _ => ∀ before t r after, pick s.ops i = some (before, ⟨t, some r⟩, after) →
      (t.kind.isRead = true ∨ t.kind.isWrite = true) → r.ec.isSome = true →
        (abort (·.kind.isWait) .aborted (before ++ after)).countP (drives failed) = 0
  | _ => True

theorem single_runOp (h : SingleDriver failed s) {i : ℕ} {env : Env}
    (henv : env.neverStops = true) (hok : HandledAlone failed s (.runOp i env))
    (hs : step s (.runOp i env) = some s') : SingleDriver failed s' := by
  obtain ⟨before, t, res, after, hp, rfl⟩ := step_runOp hs
  have hops := pick_eq_some hp
  have hsub : (before ++ after).Sublist s.ops := by
    rw [hops]
    exact (List.Sublist.refl before).append (List.sublist_cons_self _ _)
  have h' : SingleDriver failed { s with ops := before ++ after } := h.remove hsub
  have hin := h'.toInSession
  have hfail := hok before t res after hp
  have hmem : (⟨t, some res⟩ : Op Task Result) ∈ s.ops := by rw [hops]; simp
  have hle := countP_abort_drives failed (·.kind.isWait) (before ++ after)
  obtain ⟨kind, sock, session⟩ := t
  cases kind with
  | connect rest =>
    have h0 := h.rest hops (drives_of_isConnect rfl)
    rcases connectResume_cases hin henv (h.connects _ hmem rfl) rest res.ec with
      ⟨hr, -⟩ | hr | hr
    · exact hr.single h0
    · exact hr.single (by show (abort _ _ (before ++ after)).countP _ = 0; omega)
    · exact hr.single h0
  | read =>
    cases hec : res.ec with
    | none =>
      have hd : drives failed ⟨⟨.read, sock, session⟩, some res⟩ = true := by
        simp [drives, alive, hec, Kind.isRead]
      have hl := (h.reads _ hmem rfl hd).2
      exact (reads_readHandler hin henv hec hl).1.single (h.rest hops hd)
    | some ec =>
      have herr : res.ec.isSome = true := by simp [hec]
      exact (rearmed_runFailed hin henv (Or.inl rfl) herr).single (hfail (Or.inl rfl) herr)
  | write msg sent =>
    cases hec : res.ec with
    | none => exact h'.writes (onlyWrites_writeResume env _ msg sent hec _)
    | some ec =>
      have herr : res.ec.isSome = true := by simp [hec]
      exact (rearmed_runFailed hin henv (Or.inr rfl) herr).single (hfail (Or.inr rfl) herr)
  | wait =>
    cases hec : res.ec with
    | none =>
      have h0 := h.rest hops (by simp [drives, armedWait, alive, hec, Kind.isWait])
      simp only [runHandler, hec]
      exact (connects_waitHandler hin env).conclude.single h0
    | some ec =>
      simp only [runHandler, hec]
      exact h'

/-- Every step of the session keeps the invariant, if failed reads and writes are handled
alone. -/
theorem step_single (h : SingleDriver failed s) {l : Label} (hb : OneSession s l)
    (hok : HandledAlone failed s l) (hs : step s l = some s') : SingleDriver failed s' := by
  cases l with
  | start env => exact absurd hb h.started
  | stop => exact hb.elim
  | send thread msg =>
    obtain rfl := Option.some.inj hs
    exact h.keep (h.toInSession.send thread msg) (Nat.le_refl _)
      (fun op hop hd => ⟨op, hop, rfl, hd⟩) rfl (List.prefix_append _ _)
  | setMessageCallback set | setStatusCallback set =>
    obtain rfl := Option.some.inj hs
    exact ⟨h.toInSession.of_eq rfl rfl rfl, h.count, h.reads, h.connects⟩
  | complete i out => exact single_complete h hs
  | runPosted env => exact single_runPosted h hs
  | runOp i env => exact single_runOp h hb hok hs

/-! ## Before the start -/

/-- `start()` has not been called, and only sends have been posted. -/
structure BeforeStart (s : State) : Prop where
  stopped : s.stopped = true
  session : s.session = 0
  ops : s.ops = []
  posted : ∀ c ∈ s.posted, c.isClose = false

theorem beforeStart_init : BeforeStart init :=
  ⟨rfl, rfl, rfl, fun _ hc => absurd hc (List.not_mem_nil)⟩

/-- `start()` leaves a connect as the only driver, or none if the name resolution throws. -/
theorem single_start (h : BeforeStart s) (env : Env) :
    SingleDriver failed (conclude (start env s)) := by
  have hin : InSession { s with stopped := false, session := s.session + 1 } :=
    ⟨rfl, Nat.succ_ne_zero _, h.posted⟩
  refine (connects_doConnect hin env).conclude.single ?_
  show s.ops.countP (drives failed) = 0
  rw [h.ops]
  rfl

/-- A step before the start is the start, or changes neither the connection nor the status. -/
theorem step_beforeStart (h : BeforeStart s) {l : Label} (hb : OneSession s l)
    (hs : step s l = some s') :
    (∃ env, l = .start env ∧ s' = conclude (start env s)) ∨
      (BeforeStart s' ∧ s'.currentStatus = s.currentStatus ∧ Routine s s') := by
  cases l with
  | start env => exact Or.inl ⟨env, rfl, (Option.some.inj hs).symm⟩
  | stop => exact hb.elim
  | send thread msg =>
    obtain rfl := Option.some.inj hs
    refine Or.inr ⟨⟨h.stopped, h.session, h.ops, ?_⟩, rfl, ?_⟩
    · intro c hc
      rcases List.mem_append.mp hc with hc | hc
      · exact h.posted c hc
      · rw [List.mem_singleton.mp hc]
        rfl
    · exact adds_emit rfl (post (.send thread msg) s)
  | setMessageCallback set | setStatusCallback set =>
    obtain rfl := Option.some.inj hs
    exact Or.inr ⟨⟨h.stopped, h.session, h.ops, h.posted⟩, rfl, .refl _⟩
  | complete i out =>
    obtain ⟨before, t, after, res, hops, -⟩ := step_complete hs
    exact absurd hops (by simp [h.ops])
  | runPosted env =>
    obtain ⟨c, rest, hposted, rfl⟩ := step_runPosted hs
    have hc : c.isClose = false := h.posted c (by simp [hposted])
    cases c with
    | close session => exact absurd hc (by simp [Posted.isClose])
    | send thread msg =>
      have hdrop : runPosted env (.send thread msg) { s with posted := rest } =
          { s with posted := rest } := if_pos h.stopped
      rw [hdrop]
      exact Or.inr ⟨⟨h.stopped, h.session, h.ops, fun c hc => h.posted c (by simp [hposted, hc])⟩,
        rfl, adds_of_log_eq rfl⟩
  | runOp i env =>
    obtain ⟨before, t, res, after, hp, -⟩ := step_runOp hs
    exact absurd (pick_eq_some hp) (by simp [h.ops])

end Step

/-! ## At most one driver -/

/-- The operation is a live read of the connection that `socket_` has established: outstanding,
or completed with success. -/
def liveRead (s : State) (op : Op Task Result) : Bool :=
  op.task.kind.isRead && (alive op && (op.task.sock == s.socket && linked s))

/-- A connect in progress, a live read chain on the current connection, or an unaborted wait. -/
def isDriver (s : State) (op : Op Task Result) : Bool :=
  op.task.kind.isConnect || (liveRead s op || armedWait op)

def OneDriver (s : State) : Prop := s.ops.countP (isDriver s) ≤ 1

instance : DecidablePred OneDriver := fun s => by unfold OneDriver; infer_instance

/-- A connect in progress, a live read chain, or a wait that has already expired: what arming
another wait does not abort. -/
def standsBeside (s : State) (op : Op Task Result) : Bool :=
  op.task.kind.isConnect || (liveRead s op || (armedWait op && op.result.isSome))

/-- If the step runs the handler of a failed read or write, there is nothing that would stand
beside the wait it arms. -/
def FailsAlone (s : State) (l : Label) : Prop :=
  match ran? s l with
  | some (t, r) =>
    (t.kind.isRead || t.kind.isWrite) = true → r.ec.isSome = true →
      s.ops.any (standsBeside s) = false
  | none => True

instance (s : State) (l : Label) : Decidable (FailsAlone s l) :=
  match h : ran? s l with
  | some (t, r) => decidable_of_iff
      ((t.kind.isRead || t.kind.isWrite) = true → r.ec.isSome = true →
        s.ops.any (standsBeside s) = false)
      (by simp only [FailsAlone, h])
  | none => isTrue (by simp only [FailsAlone, h])

theorem isDriver_of_standsBeside {s : State} {op : Op Task Result}
    (h : standsBeside s op = true) : isDriver s op = true := by
  simp only [standsBeside, isDriver, Bool.or_eq_true, Bool.and_eq_true] at h ⊢
  rcases h with h | h | ⟨h, -⟩
  · exact Or.inl h
  · exact Or.inr (Or.inl h)
  · exact Or.inr (Or.inr h)

theorem oneDriver_of_single {s : State} (h : SingleDriver false s) : OneDriver s := by
  refine Nat.le_trans (List.countP_mono_left ?_) h.count
  intro op _ hop
  simp only [isDriver, liveRead, drives, Bool.or_eq_true, Bool.and_eq_true] at hop ⊢
  rcases hop with hop | ⟨hop, ha, -⟩ | hop
  · exact Or.inl hop
  · exact Or.inr (Or.inl ⟨hop, Or.inr ha⟩)
  · exact Or.inr (Or.inr hop)

/-- The condition on the whole pool gives the one on what the handler leaves. -/
theorem handledAlone_of_failsAlone {s : State} {l : Label} (h : SingleDriver false s)
    (hok : FailsAlone s l) : HandledAlone false s l := by
  cases l with
  | runOp i env =>
    intro before t r after hp hkind hec
    unfold FailsAlone at hok
    rw [ran?_runOp hp] at hok
    have hno := List.any_eq_false.mp (hok (by simpa using hkind) hec)
    apply countP_abort_waits
    intro op hop hd
    have hmem : op ∈ s.ops := by
      rw [pick_eq_some hp]
      exact mem_of_mem_rest hop
    have hstands := hno op hmem
    simp only [standsBeside, liveRead, Bool.or_eq_true, Bool.and_eq_true, beq_iff_eq] at hstands
    have hd' := hd
    simp only [drives, Bool.or_eq_true, Bool.and_eq_true, Bool.false_eq_true, false_or] at hd'
    rcases hd' with hc | ⟨hread, ha⟩ | hw
    · exact absurd (Or.inl hc) hstands
    · exact absurd (Or.inr (Or.inl ⟨hread, ha, h.reads op hmem hread hd⟩)) hstands
    · refine ⟨((Bool.and_eq_true ..).mp hw).1, ?_⟩
      cases hres : op.result with
      | none => rfl
      | some res => exact absurd (Or.inr (Or.inr ⟨hw, by simp [hres]⟩)) hstands
  | start env | stop | send thread msg | setMessageCallback set | setStatusCallback set
  | complete i out | runPosted env => trivial

/-- A wait that stands beside another has expired. -/
theorem isSome_of_standsBeside {s : State} {op : Op Task Result} (h : standsBeside s op = true)
    (hw : op.task.kind.isWait = true) : op.result.isSome = true := by
  obtain ⟨⟨kind, sock, session⟩, res⟩ := op
  cases kind <;> simp_all [standsBeside, liveRead, Kind.isConnect, Kind.isRead, Kind.isWait]

/-- A failed read or write does not stand beside the wait its own handler arms. -/
theorem not_standsBeside_failed {s : State} {t : Task} {r : Result}
    (hkind : t.kind.isRead = true ∨ t.kind.isWrite = true) (hec : r.ec.isSome = true) :
    standsBeside s ⟨t, some r⟩ = false := by
  obtain ⟨kind, sock, session⟩ := t
  obtain ⟨ec, hec⟩ := Option.isSome_iff_exists.mp hec
  cases kind <;> simp_all [standsBeside, liveRead, armedWait, alive, Kind.isConnect, Kind.isRead,
    Kind.isWait, Kind.isWrite]

/-- A driver that survives the arming of a wait makes two. -/
theorem Rearmed.not_oneDriver {s s' : State} (h : Rearmed s s') {op : Op Task Result}
    (hmem : op ∈ abort (·.kind.isWait) .aborted s.ops) (hd : isDriver s' op = true) :
    ¬ OneDriver s' := by
  have hpos := List.countP_pos_iff.mpr ⟨op, hmem, hd⟩
  have hwait : isDriver s' ⟨⟨.wait, s.socket, s.session⟩, none⟩ = true := by
    simp [isDriver, armedWait, alive, Kind.isWait]
  unfold OneDriver
  rw [h.ops, List.countP_append, List.countP_singleton, if_pos hwait]
  omega

/-- A failed read or write handled beside another driver arms a second one. -/
theorem not_oneDriver_of_not_failsAlone {s s' : State} {l : Label} (h : SingleDriver false s)
    (hb : OneSession s l) (hno : ¬ FailsAlone s l) (hs : step s l = some s') : ¬ OneDriver s' := by
  cases l with
  | start env | stop | send thread msg | setMessageCallback set | setStatusCallback set
  | complete i out | runPosted env => exact absurd trivial hno
  | runOp i env =>
    obtain ⟨before, t, res, after, hp, rfl⟩ := step_runOp hs
    unfold FailsAlone at hno
    rw [ran?_runOp hp] at hno
    push Not at hno
    obtain ⟨hkind, hec, hany⟩ := hno
    have hkind' : t.kind.isRead = true ∨ t.kind.isWrite = true := by simpa using hkind
    obtain ⟨op, hop, hstands⟩ := List.any_eq_true.mp (by simpa using hany)
    have hin : InSession { s with ops := before ++ after } := h.toInSession.of_eq rfl rfl rfl
    have hre := rearmed_runFailed hin hb hkind' hec
    -- the other driver is still in the pool, next to the new wait
    have hrest : op ∈ before ++ after := by
      rw [pick_eq_some hp] at hop
      rcases List.mem_append.mp hop with hop | hop
      · exact List.mem_append_left _ hop
      · rcases List.mem_cons.mp hop with rfl | hop
        · exact absurd hstands (by simp [not_standsBeside_failed hkind' hec])
        · exact List.mem_append_right _ hop
    have hmem := mem_abort_of_mem (fun t : Task => t.kind.isWait) Result.aborted hrest
      (isSome_of_standsBeside hstands)
    refine hre.not_oneDriver hmem (isDriver_of_standsBeside ?_)
    simp only [standsBeside, liveRead, Bool.or_eq_true, Bool.and_eq_true] at hstands ⊢
    rw [hre.socket]
    rcases hstands with hc | ⟨hread, ha, hsock, hl⟩ | hw
    · exact Or.inl hc
    · exact Or.inr (Or.inl ⟨hread, ha, hsock, linked_of_grows hl hre.log.grows hre.socket⟩)
    · exact Or.inr (Or.inr hw)

/-- The run is before its start, or has a single driver. -/
def Driven (failed : Bool) (s : State) : Prop := BeforeStart s ∨ SingleDriver failed s

theorem step_driven {failed : Bool} {s s' : State} {l : Label} (h : Driven failed s)
    (hb : OneSession s l) (hok : SingleDriver failed s → HandledAlone failed s l)
    (hs : step s l = some s') : Driven failed s' := by
  rcases h with h | h
  · rcases step_beforeStart h hb hs with ⟨env, -, rfl⟩ | ⟨h', -⟩
    · exact Or.inr (single_start h env)
    · exact Or.inl h'
  · exact Or.inr (step_single h hb (hok h) hs)

/-- **At most one driver.** In a run with one `start()` and no `stop()` there is at most one
driver in every state exactly when, whenever the handler of a failed read or write runs, there is
no connect in progress, no live read chain on the current connection and no expired wait. -/
theorem one_driver_iff_failsAlone (ls : List Label) (s : State)
    (h : Run step OneSession init ls s) :
    Throughout step OneDriver init ls ↔ EachStep step FailsAlone init ls := by
  refine throughout_iff_eachStep (I := Driven false) ?_ ?_ ?_ h (Or.inl beforeStart_init)
  · rintro s (h | h)
    · unfold OneDriver
      rw [h.ops]
      exact Nat.zero_le _
    · exact oneDriver_of_single h
  · intro s l s' h hb hok hs
    exact step_driven h hb (fun h => handledAlone_of_failsAlone h hok) hs
  · rintro s l s' (h | h) hb hno hs
    · have hnone : ran? s l = none := by
        cases l <;> simp [ran?, h.ops, pick]
      exact absurd (by unfold FailsAlone; rw [hnone]; trivial) hno
    · exact not_oneDriver_of_not_failsAlone h hb hno hs

/-- The peer closes the connection, and the client reconnects. -/
def serverCloses : List Label :=
  [.start {}, .complete 0 .connected, .runOp 0 {}, .complete 0 (.received [97]), .runOp 0 {},
    .complete 0 (.failed .eof), .runOp 0 {}, .complete 0 .expired, .runOp 0 {},
    .complete 0 .connected, .runOp 0 {}]

theorem one_driver_iff_failsAlone_serverCloses : Throughout step OneDriver init serverCloses :=
  (one_driver_iff_failsAlone serverCloses _ (run_reached (by decide))).mpr (by decide)

/-- A write fails while the read of the same connection is still outstanding. -/
def writeFailsFirst : List Label :=
  [.start {}, .complete 0 .connected, .runOp 0 {}, .send 0 [97], .runPosted {},
    .complete 1 (.failed .connectionReset), .runOp 1 {}]

theorem not_one_driver :
    ¬ ∀ (ls : List Label) (s : State), Run step OneSession init ls s → OneDriver s := by
  intro h
  exact absurd (h writeFailsFirst _ (run_reached (by decide))) (by decide)

/-- With a single driver, a wait that is about to replace `socket_` finds neither a connect in
progress nor a live read chain on it. -/
theorem OneDriver.replaces {s : State} (h : OneDriver s) {before after : List (Op Task Result)}
    {op : Op Task Result} (hops : s.ops = before ++ op :: after) (hw : armedWait op = true) :
    ∀ op' ∈ before ++ after, op'.task.kind.isConnect = false ∧ liveRead s op' = false := by
  have hd : isDriver s op = true := by simp [isDriver, hw]
  have h0 : (before ++ after).countP (isDriver s) = 0 := by
    unfold OneDriver at h
    rw [hops, List.countP_append, List.countP_cons_of_pos hd] at h
    rw [List.countP_append]
    omega
  intro op' hop'
  have hno := List.countP_eq_zero.mp h0 op' hop'
  simp only [isDriver, Bool.or_eq_true, not_or, Bool.not_eq_true] at hno
  exact ⟨hno.1, hno.2.1⟩

end AsioLearn.TcpClient
