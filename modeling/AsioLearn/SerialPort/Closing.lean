import AsioLearn.SerialPort.Steps

/-!
# What follows the closing of the port

The closure of `stop()` closes the port, which aborts the operations that are outstanding; those
that have completed keep their results, and their handlers are still to run. The handlers ignore
`operation_aborted` only: that of a read that has succeeded hands over the bytes and reads on, that
of a partly written message writes on, and what they start on the closed port fails and is
reported.

* `stop_clean_of_harmless`: nothing of the kind follows a closing if every operation that has
  completed until then is harmless.
-/

namespace AsioLearn.SerialPort

open Proactor Lts

/-! ## What must not follow -/

/-- Received bytes are handed over, or a failure of the port is reported. -/
def Event.isTrouble : Event → Bool
  | .onReceive _ | .onError (.readError _) | .onError (.sendError _) => true
  | _ => false

/-- The step runs the closure of a `stop()` that closes the port. -/
def closesPort (s : State) : Label → Bool
  | .runStrand _ =>
    match s.strand with
    | .stop _ :: _ => s.portOpen
    | _ => false
  | _ => false

/-- No `open()` is attempted in the step. -/
def NoOpening (s : State) (l : Label) : Prop :=
  ∀ c env, actor? l = some (c, env) → pcOf s c ≠ .startOpen

instance (s : State) (l : Label) : Decidable (NoOpening s l) :=
  match h : actor? l with
  | none => isTrue fun c env hact => absurd (h.symm.trans hact) (by simp)
  | some (c, env) => decidable_of_iff (pcOf s c ≠ .startOpen)
      ⟨fun hpc c' env' hact => by
        obtain ⟨rfl, -⟩ := Prod.mk.inj (Option.some.inj (h.symm.trans hact))
        exact hpc,
      fun hall => hall c env h⟩

/-- Until `open()` is attempted again no received bytes are handed over and no failure of the
port is reported, and every step leaves only operations that were there before it. -/
def StopsCleanly (s : State) : Prop :=
  ∀ ls t, Run step NoOpening s ls t →
    (∃ es, t.log = s.log ++ es ∧ ∀ e ∈ es, e.isTrouble = false) ∧
      ∀ l u, NoOpening t l → step t l = some u → (u.ops.map Op.task).Sublist (t.ops.map Op.task)

/-! ## Completions that do no harm -/

/-- The handler of an operation with this result does nothing: it was aborted, or is a write that
has come to its end. -/
def harmless : Task → Result → Bool
  | .read, r => r.ec == some .operationAborted
  | .write msg sent, r =>
    r.ec == some .operationAborted || (r.ec.isNone && r.endsWrite msg sent)

def Item.harmless : Item → Bool
  | .completed t r => SerialPort.harmless t r
  | _ => true

/-- Every operation that has completed and whose handler has not run is harmless. -/
def NothingPending (s : State) : Prop :=
  (∀ op ∈ s.ops, op.result.all (harmless op.task) = true) ∧ ∀ item ∈ s.strand, item.harmless = true

instance : DecidablePred NothingPending := fun s => by unfold NothingPending; infer_instance

/-- The port is closed, and what is left does nothing. -/
structure Closed (s : State) : Prop where
  portOpen : s.portOpen = false
  ops : ∀ op ∈ s.ops, ∃ r, op.result = some r ∧ harmless op.task r = true
  strand : ∀ item ∈ s.strand, item.harmless = true
  after : ∀ f, s.ioThread = .handling f → f.after ≠ .startRead

section

variable {s s' : State}

/-- What a step on a closed port does: it starts nothing and reports no trouble. -/
structure Idles (s s' : State) : Prop where
  closed : Closed s'
  ops : (s'.ops.map Op.task).Sublist (s.ops.map Op.task)
  log : ∃ es, s'.log = s.log ++ es ∧ ∀ e ∈ es, e.isTrouble = false

theorem isTrouble_of_mem_reported {r : Report} (hr : (Event.onError r).isTrouble = false) :
    ∀ e ∈ reported r s, e.isTrouble = false := by
  intro e he
  unfold reported at he
  split_ifs at he
  · rw [List.mem_singleton.mp he]
    exact hr
  · exact absurd he List.not_mem_nil

/-- The handler of a harmless completion does nothing, and a closure finds the port closed. -/
theorem idles_run (h : Closed s) (env : Env) {item : Item} (hitem : item.harmless = true) :
    (item.run env s = s ∨ ∃ caller, item.run env s = (After.setValue caller).run s) := by
  have hopen : ¬ s.portOpen = true := by simp [h.portOpen]
  cases item with
  | send msg => exact Or.inl (if_neg hopen)
  | stop caller => exact Or.inr ⟨caller, if_neg hopen⟩
  | completed t r =>
    left
    cases t with
    | read =>
      have hec : r.ec = some .operationAborted := by simpa [Item.harmless, harmless] using hitem
      show readHandler env r s = s
      unfold readHandler
      rw [hec]
      exact if_pos rfl
    | write msg sent =>
      have hends : r.endsWrite msg sent = true := by
        simp only [Item.harmless, harmless, Bool.or_eq_true, Bool.and_eq_true, beq_iff_eq] at hitem
        rcases hitem with hec | ⟨-, hends⟩
        · simp [Result.endsWrite, hec]
        · exact hends
      have hec : r.ec = none ∨ r.ec = some .operationAborted := by
        simp only [Item.harmless, harmless, Bool.or_eq_true, Bool.and_eq_true, beq_iff_eq,
          Option.isNone_iff_eq_none] at hitem
        exact hitem.symm.imp And.left id
      show writeResume env msg sent r s = s
      unfold writeResume writeHandler
      rw [if_pos hends]
      rcases hec with hec | hec <;> rw [hec]
      exact if_pos rfl

/-- Nothing is posted or started, and no handler that reads on is begun. -/
theorem idles_of_same (es : List Event) (h : Closed s) (hopen : s'.portOpen = s.portOpen)
    (hops : s'.ops = s.ops) (hstrand : ∀ item ∈ s'.strand, item ∈ s.strand ∨ item.harmless = true)
    (hafter : ∀ f, s'.ioThread = .handling f → f.after ≠ .startRead)
    (hlog : s'.log = s.log ++ es) (hes : ∀ e ∈ es, e.isTrouble = false) : Idles s s' := by
  refine ⟨⟨hopen.trans h.portOpen, hops ▸ h.ops, ?_, hafter⟩, ?_, es, hlog, hes⟩
  · intro item hitem
    rcases hstrand item hitem with hmem | hnew
    · exact h.strand item hmem
    · exact hnew
  · rw [hops]

theorem idles_begin (h : Closed s) (c : Call) : Idles s (c.begin s).2 := by
  have hsame : Idles s s := idles_of_same [] h rfl rfl (fun _ => Or.inl) h.after
    (List.append_nil _).symm (by simp)
  cases c with
  | start | stop => exact hsame
  | send msg =>
    unfold Call.begin
    split_ifs
    · exact hsame
    · show Idles s (report .notOpen s)
      rw [report_eq]
      exact idles_of_same _ h rfl rfl (fun _ => Or.inl) h.after rfl (isTrouble_of_mem_reported rfl)

theorem idles_advance (h : Closed s) {env : Env} {caller : Caller} {pc pc' : Pc} {u : State}
    (hadv : advance env caller s pc = some (pc', u)) (hpc : pc ≠ .startOpen) : Idles s u := by
  have hnil : s.log = s.log ++ [] := (List.append_nil _).symm
  cases advances_of_advance hadv with
  | opened | notOpened => exact absurd rfl hpc
  | stopPost =>
    refine idles_of_same [] h rfl rfl ?_ h.after hnil (by simp)
    intro item hitem
    rcases List.mem_append.mp hitem with hmem | hnew
    · exact Or.inl hmem
    · rw [List.mem_singleton.mp hnew]
      exact Or.inr rfl
  | sendPost msg =>
    refine idles_of_same [.posted msg] h rfl rfl ?_ h.after rfl (by simp [Event.isTrouble])
    intro item hitem
    rcases List.mem_append.mp hitem with hmem | hnew
    · exact Or.inl hmem
    · rw [List.mem_singleton.mp hnew]
      exact Or.inr rfl
  | join | spawn =>
    exact idles_of_same [] h rfl rfl (fun _ => Or.inl) (fun f hf => absurd hf (by simp))
      hnil (by simp)
  | stopClear | stopWait | stopIo | notJoinable | joinSelf | respawn | startSet =>
    exact idles_of_same [] h rfl rfl (fun _ => Or.inl) h.after hnil (by simp)

/-- The rest of a handler that does not read on. -/
theorem idles_afterRun (h : Closed s) {a : After} (ha : a ≠ .startRead) : Idles s (a.run s) := by
  have hnil : s.log = s.log ++ [] := (List.append_nil _).symm
  cases a with
  | startRead => exact absurd rfl ha
  | nothing | setValue caller =>
    exact idles_of_same [] h rfl rfl (fun _ => Or.inl) h.after hnil (by simp)

/-- Every step on a closed port on which nothing is pending leaves it so. -/
theorem step_idles (h : Closed s) {l : Label} (hok : NoOpening s l) (hs : step s l = some s') :
    Idles s s' := by
  have hnil : s.log = s.log ++ [] := (List.append_nil _).symm
  cases moves_of_step hs with
  | call thread c hidle =>
    have hb := idles_begin h c
    exact ⟨⟨hb.closed.portOpen, hb.closed.ops, hb.closed.strand, hb.closed.after⟩, hb.ops, hb.log⟩
  | advance thread env pc u hadv =>
    have hu := idles_advance h hadv (hok (.user thread) env rfl)
    exact ⟨⟨hu.closed.portOpen, hu.closed.ops, hu.closed.strand, hu.closed.after⟩, hu.ops, hu.log⟩
  | setReceiveCallback set | setErrorCallback set =>
    exact idles_of_same [] h rfl rfl (fun _ => Or.inl) h.after hnil (by simp)
  | complete i out before after t res hp =>
    obtain ⟨r, hr, -⟩ := h.ops ⟨t, none⟩ (by rw [pick_eq_some hp]; simp)
    exact absurd hr (by simp)
  | dispatch i before after t res hio hstop hp =>
    have hops := pick_eq_some hp
    refine ⟨⟨h.portOpen, ?_, ?_, h.after⟩, ?_, [], hnil, by simp⟩
    · intro op hop
      exact h.ops op (by rw [hops]; exact mem_of_mem_rest hop)
    · intro item hitem
      rcases List.mem_append.mp hitem with hmem | hnew
      · exact h.strand item hmem
      · rw [List.mem_singleton.mp hnew]
        obtain ⟨r, hr, hharm⟩ := h.ops ⟨t, some res⟩ (by rw [hops]; simp)
        obtain rfl : res = r := Option.some.inj hr
        exact hharm
    · rw [hops]
      exact ((List.Sublist.refl before).append (List.sublist_cons_self _ _)).map _
  | runStrand env item rest hio hstop hstrand =>
    have h' : Closed { s with strand := rest } :=
      ⟨h.portOpen, h.ops, fun item hitem => h.strand item (by rw [hstrand]; simp [hitem]), h.after⟩
    have hitem : item.harmless = true := h.strand item (by rw [hstrand]; simp)
    have hrest : Idles { s with strand := rest } { s with strand := rest } :=
      idles_of_same [] h' rfl rfl (fun _ => Or.inl) h'.after hnil (by simp)
    rcases idles_run h' env hitem with he | ⟨caller, he⟩ <;> rw [he]
    · exact ⟨h', hrest.ops, hrest.log⟩
    · have hset := idles_afterRun h' (a := .setValue caller) (by simp)
      exact ⟨hset.closed, hset.ops, hset.log⟩
  | ioCall env f c calls hf hpc hcalls =>
    have hb := idles_begin h c
    refine ⟨⟨hb.closed.portOpen, hb.closed.ops, hb.closed.strand, ?_⟩, hb.ops, hb.log⟩
    intro f' hf'
    obtain rfl := IoThread.handling.inj hf'
    exact h.after f hf
  | ioThrow env f hf =>
    exact idles_of_same [] h rfl rfl (fun _ => Or.inl) h.after hnil (by simp)
  | ioReturn env f hf hpc hcalls hthrows =>
    have h' : Closed { s with ioThread := .running } :=
      ⟨h.portOpen, h.ops, h.strand, fun f hf => absurd hf (by simp)⟩
    have hrun := idles_afterRun h' (h.after f hf)
    exact ⟨hrun.closed, hrun.ops, hrun.log⟩
  | ioGo env f pc u hf hpc hadv =>
    have hat := hok .io env rfl
    rw [pcOf_io_handling hf] at hat
    have hu := idles_advance h hadv hat
    refine ⟨⟨hu.closed.portOpen, hu.closed.ops, hu.closed.strand, ?_⟩, hu.ops, hu.log⟩
    intro f' hf'
    obtain rfl := IoThread.handling.inj hf'
    exact h.after f hf
  | ioExit hio hstop =>
    exact idles_of_same [] h rfl rfl (fun _ => Or.inl) (fun f hf => absurd hf (by simp))
      hnil (by simp)

theorem stopsCleanly_of_closed (h : Closed s) : StopsCleanly s := by
  intro ls t hrun
  have hend : Closed t ∧ ∃ es, t.log = s.log ++ es ∧ ∀ e ∈ es, e.isTrouble = false := by
    refine hrun.invariant (I := fun t => Closed t ∧
      ∃ es, t.log = s.log ++ es ∧ ∀ e ∈ es, e.isTrouble = false)
      ⟨h, [], (List.append_nil _).symm, by simp⟩ ?_
    intro t l u ht hok hst
    obtain ⟨hclosed, es, hes, hno⟩ := ht
    obtain ⟨hclosed', -, es', hes', hno'⟩ := step_idles hclosed hok hst
    refine ⟨hclosed', es ++ es', by rw [hes', hes, List.append_assoc], ?_⟩
    intro e he
    rcases List.mem_append.mp he with he | he
    · exact hno e he
    · exact hno' e he
  exact ⟨hend.2, fun l u hok hst => (step_idles hend.1 hok hst).ops⟩

/-! ## The closing -/

/-- What the closure of `stop()` leaves, if nothing was pending. -/
theorem closed_of_closing (h : NothingPending s) {l : Label} (hl : closesPort s l = true)
    (hs : step s l = some s') : Closed s' := by
  cases moves_of_step hs with
  | runStrand env item rest hio hstop hstrand =>
    simp only [closesPort, hstrand] at hl
    cases item with
    | send msg | completed t r => exact absurd hl (by simp)
    | stop caller =>
      have hopen : s.portOpen = true := hl
      have heq : (Item.stop caller).run env { s with strand := rest } =
          invoke env s.errorCallback (.onError .closed) (.setValue caller)
            (closePort { s with strand := rest }) := if_pos hopen
      have hclosed : Closed (closePort { s with strand := rest }) := by
        refine ⟨rfl, ?_, ?_, fun f hf => absurd (hio.symm.trans hf) (by simp)⟩
        · intro op hop
          rcases mem_abort (fun _ : Task => true) Result.aborted hop with
            ⟨hmem, hsome⟩ | ⟨-, hres, -⟩
          · obtain ⟨r, hr⟩ := Option.isSome_iff_exists.mp (hsome rfl)
            have hall := h.1 op hmem
            rw [hr] at hall
            exact ⟨r, hr, hall⟩
          · refine ⟨_, hres, ?_⟩
            cases op.task <;> rfl
        · intro item hitem
          have hmem : item ∈ rest := hitem
          exact h.2 item (by rw [hstrand]; exact List.mem_cons_of_mem _ hmem)
      rw [heq]
      unfold invoke
      split_ifs
      · refine ⟨hclosed.portOpen, hclosed.ops, hclosed.strand, ?_⟩
        intro f hf
        obtain rfl := IoThread.handling.inj hf
        simp
      · exact (idles_afterRun hclosed (by simp)).closed
  | _ => exact absurd hl (by simp [closesPort])

end

/-- A message has been sent when `stop()` is called, and another one is posted behind it. -/
def sendAndStop : List Label :=
  [.call 0 .start, .advance 0 {}, .advance 0 {}, .advance 0 {}, .call 0 (.send [97]),
    .advance 0 {}, .runStrand {}, .complete 1 (.wrote 1), .call 1 (.send [98]), .call 0 .stop,
    .advance 0 {}, .advance 0 {}, .advance 1 {}]

/-- A read has succeeded when the port is closed, and its handler is behind the closure. -/
def receiveAndStop : List Label :=
  [.setReceiveCallback true, .setErrorCallback true, .call 0 .start, .advance 0 {}, .advance 0 {},
    .advance 0 {}, .complete 0 (.received [97]), .call 0 .stop, .advance 0 {}, .advance 0 {},
    .dispatch 0]

end AsioLearn.SerialPort
