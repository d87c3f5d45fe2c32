import AsioLearn.SerialPort.Unstopped

/-!
# What a step does to the stream of messages

The messages posted, the bytes the port has taken, the writes that have failed and their reports
are read off the log; what is still to come is in the operations and in `strand_`. `Streams`
says what a step of a session nobody stops does to them.
-/

namespace AsioLearn.SerialPort

open Proactor

/-! ## The stream -/

def Event.wrote? : Event → Option Bytes
  | .wrote bytes => some bytes
  | _ => none

def Event.posted? : Event → Option Bytes
  | .posted msg => some msg
  | _ => none

def Event.isWriteFailed : Event → Bool
  | .writeFailed _ => true
  | _ => false

/-- The events of the stream. -/
def Event.isStream : Event → Bool
  | .posted _ | .wrote _ | .writeFailed _ | .onError (.sendError _) => true
  | _ => false

/-- The messages posted to `strand_`, in order. -/
def posted (s : State) : List Bytes := s.log.filterMap Event.posted?

/-- The bytes in some events. -/
def bytesOf (es : List Event) : Bytes := (es.filterMap Event.wrote?).flatten

/-- The bytes the port has been given. -/
def wire (s : State) : Bytes := bytesOf s.log

/-- The bytes the port had been given when a write first failed. -/
def wireUntilFailure (s : State) : Bytes := bytesOf (s.log.takeWhile fun e => !e.isWriteFailed)

def failed (s : State) : Bool := s.log.any Event.isWriteFailed

/-- What the port still has to take of an outstanding write. -/
def outstanding? : Op Task Result → Option Bytes
  | ⟨.write msg sent, none⟩ => some (msg.drop sent)
  | _ => none

/-- What a step of a write leaves to the next one. -/
def left? : Task → Result → Option Bytes
  | .write msg sent, r => if r.endsWrite msg sent then none else some (msg.drop (sent + r.length))
  | .read, _ => none

def Item.left? : Item → Option Bytes
  | .completed t r => SerialPort.left? t r
  | _ => none

def Item.send? : Item → Option Bytes
  | .send msg => some msg
  | _ => none

/-- The task is a write that failed with `ec`, which is to be reported. -/
def failsWith (ec : ErrorCode) (t : Task) (r : Result) : Bool :=
  t.isWrite && (r.ec == some ec && ec != .operationAborted)

def Item.failsWith (ec : ErrorCode) : Item → Bool
  | .completed t r => SerialPort.failsWith ec t r
  | _ => false

/-- What the outstanding writes have still to give to the port. -/
def outstanding (ops : List (Op Task Result)) : List Bytes := ops.filterMap outstanding?

/-- What the completed steps of writes have left. -/
def leftOver (ops : List (Op Task Result)) : List Bytes :=
  ops.filterMap fun op => op.result.bind (left? op.task)

@[simp] theorem outstanding_append (ops ops' : List (Op Task Result)) :
    outstanding (ops ++ ops') = outstanding ops ++ outstanding ops' := List.filterMap_append ..

@[simp] theorem leftOver_append (ops ops' : List (Op Task Result)) :
    leftOver (ops ++ ops') = leftOver ops ++ leftOver ops' := List.filterMap_append ..

theorem leftOver_cons (t : Task) (r : Result) (ops : List (Op Task Result)) :
    leftOver (⟨t, some r⟩ :: ops) = (left? t r).toList ++ leftOver ops := by
  cases h : left? t r with
  | none => exact List.filterMap_cons_none h
  | some x => exact List.filterMap_cons_some h

/-- The writes before one that the port can complete have nothing outstanding. -/
theorem outstanding_eq_nil_of_waits {ops : List (Op Task Result)} {msg : Bytes} {sent : ℕ}
    (h : ops.any (waits (.write msg sent)) = false) : outstanding ops = [] := by
  unfold outstanding
  rw [List.filterMap_eq_nil_iff]
  intro op hop
  rw [List.any_eq_false] at h
  obtain ⟨t, r⟩ := op
  cases t with
  | read => rfl
  | write m k =>
    cases r with
    | some r => rfl
    | none => exact absurd (h _ hop) (by simp [waits, Task.isWrite])

/-- The rests of the messages whose next step has not been started. -/
def suspended (s : State) : List Bytes := leftOver s.ops ++ s.strand.filterMap Item.left?

/-- The messages whose closures have not been run. -/
def sends (s : State) : List Bytes := s.strand.filterMap Item.send?

/-- The failed writes whose handlers have not been run. -/
def pendingFailures (ec : ErrorCode) (s : State) : ℕ :=
  s.ops.countP (fun op => op.result.any (failsWith ec op.task)) +
    s.strand.countP (Item.failsWith ec)

/-! ## Steps of no interest to the stream -/

structure Quiet (s s' : State) : Prop where
  outstanding : outstanding s'.ops = outstanding s.ops
  suspended : suspended s' = suspended s
  sends : sends s' = sends s
  failures : ∀ ec, pendingFailures ec s' = pendingFailures ec s
  log : ∃ es, (∀ e ∈ es, e.isStream = false) ∧ s'.log = s.log ++ es

/-- Nothing is started but a read, and nothing is posted or taken but what is of no interest. -/
theorem quiet_of_eq {s s' : State} {before : List Item} (items items' : List Item)
    (reads : List (Op Task Result)) (es : List Event)
    (hops : s'.ops = s.ops ++ reads) (hreads : ∀ op ∈ reads, op.task = .read)
    (hstrand : s.strand = items ++ before) (hstrand' : s'.strand = before ++ items')
    (hitems : ∀ item ∈ items ++ items', item.left? = none ∧ item.send? = none ∧
      ∀ ec, item.failsWith ec = false)
    (hlog : s'.log = s.log ++ es) (hes : ∀ e ∈ es, e.isStream = false) : Quiet s s' := by
  have hread : ∀ op ∈ reads, outstanding? op = none ∧
      op.result.bind (left? op.task) = none ∧
      ∀ ec, op.result.any (failsWith ec op.task) = false := by
    intro op hop
    obtain ⟨t, r⟩ := op
    obtain rfl : t = .read := hreads _ hop
    cases r with
    | none => exact ⟨rfl, rfl, fun _ => rfl⟩
    | some r => exact ⟨rfl, rfl, fun _ => rfl⟩
  have hleft : ∀ l : List Item, (∀ item ∈ l, item ∈ items ++ items') →
      l.filterMap Item.left? = [] ∧ l.filterMap Item.send? = [] ∧
        ∀ ec, l.countP (Item.failsWith ec) = 0 := by
    intro l hl
    refine ⟨List.filterMap_eq_nil_iff.mpr fun i hi => (hitems i (hl i hi)).1,
      List.filterMap_eq_nil_iff.mpr fun i hi => (hitems i (hl i hi)).2.1, ?_⟩
    intro ec
    exact List.countP_eq_zero.mpr fun i hi => by simp [(hitems i (hl i hi)).2.2 ec]
  obtain ⟨hl, hsend, hfail⟩ := hleft items fun i hi => List.mem_append_left _ hi
  obtain ⟨hl', hsend', hfail'⟩ := hleft items' fun i hi => List.mem_append_right _ hi
  have hout : outstanding reads = [] :=
    List.filterMap_eq_nil_iff.mpr fun op hop => (hread op hop).1
  have hover : leftOver reads = [] :=
    List.filterMap_eq_nil_iff.mpr fun op hop => (hread op hop).2.1
  have hcount : ∀ ec, reads.countP (fun op => op.result.any (failsWith ec op.task)) = 0 :=
    fun ec => List.countP_eq_zero.mpr fun op hop => by simp [(hread op hop).2.2 ec]
  refine ⟨?_, ?_, ?_, ?_, es, hes, hlog⟩
  · rw [hops]
    unfold outstanding at hout ⊢
    rw [List.filterMap_append, hout, List.append_nil]
  · unfold suspended leftOver at *
    rw [hops, hstrand, hstrand', List.filterMap_append, hover, List.append_nil,
      List.filterMap_append, List.filterMap_append, hl, hl', List.append_nil, List.nil_append]
  · unfold sends
    rw [hstrand, hstrand', List.filterMap_append, List.filterMap_append, hsend, hsend',
      List.append_nil, List.nil_append]
  · intro ec
    unfold pendingFailures
    rw [hops, hstrand, hstrand', List.countP_append, hcount ec, List.countP_append,
      List.countP_append, hfail ec, hfail' ec]
    omega

section

variable {s s' : State}

/-- Only the log is added to. -/
theorem quiet_of_log (es : List Event) (hops : s'.ops = s.ops) (hstrand : s'.strand = s.strand)
    (hlog : s'.log = s.log ++ es) (hes : ∀ e ∈ es, e.isStream = false) : Quiet s s' :=
  quiet_of_eq [] [] [] es (by rw [hops, List.append_nil])
    (by simp) rfl (by rw [hstrand, List.append_nil]) (by simp) hlog hes

theorem quiet_of_same (hops : s'.ops = s.ops) (hstrand : s'.strand = s.strand)
    (hlog : s'.log = s.log) : Quiet s s' :=
  quiet_of_log [] hops hstrand (by rw [hlog, List.append_nil]) (by simp)

theorem Quiet.trans {s'' : State} (h : Quiet s s') (h' : Quiet s' s'') : Quiet s s'' := by
  obtain ⟨es, hes, hlog⟩ := h.log
  obtain ⟨es', hes', hlog'⟩ := h'.log
  refine ⟨h'.outstanding.trans h.outstanding, h'.suspended.trans h.suspended,
    h'.sends.trans h.sends, fun ec => (h'.failures ec).trans (h.failures ec), es ++ es', ?_, ?_⟩
  · intro e he
    rcases List.mem_append.mp he with he | he
    · exact hes e he
    · exact hes' e he
  · rw [hlog', hlog, List.append_assoc]

end

theorem isStream_of_isNotice {e : Event} (h : e.isNotice = true) : e.isStream = false := by
  cases e with
  | onError r =>
    cases r with
    | sendError ec => exact absurd h (by simp [Event.isNotice])
    | opened | closed | openFailed _ | notOpen | readError _ => rfl
  | posted _ | wrote _ | writeFailed _ | received _ | onReceive _ | portOpened =>
    exact absurd h (by simp [Event.isNotice])

theorem quiet_startAsyncRead (s : State) : Quiet s (startAsyncRead s) :=
  quiet_of_eq [] [] _ [] rfl (by simp) rfl
    (by simp [startAsyncRead, startOp]) (by simp) (by simp [startAsyncRead, startOp]) (by simp)

theorem quiet_afterRun (a : After) (s : State) : Quiet s (a.run s) := by
  cases a with
  | nothing => exact quiet_of_same rfl rfl rfl
  | startRead => exact quiet_startAsyncRead s
  | setValue caller => exact quiet_of_same rfl rfl rfl

theorem quiet_invoke (env : Env) (set : Bool) {e : Event} (he : e.isStream = false) (a : After)
    (s : State) : Quiet s (invoke env set e a s) := by
  unfold invoke
  split_ifs
  · exact quiet_of_log _ rfl rfl rfl (by simpa using he)
  · exact quiet_afterRun a s

theorem quiet_readHandler (env : Env) (r : Result) (s : State) :
    Quiet s (readHandler env r s) := by
  unfold readHandler
  split
  · exact quiet_invoke env _ rfl _ s
  · split_ifs
    · exact quiet_of_same rfl rfl rfl
    · exact quiet_invoke env _ rfl _ s

theorem quiet_begin (c : Call) (s : State) : Quiet s (c.begin s).2 := by
  obtain ⟨es, hes, hs⟩ := begin_snd c s
  rw [hs]
  exact quiet_of_log _ rfl rfl rfl fun e he => isStream_of_isNotice (hes e he)

/-- A call adds to the stream only where `send()` posts its closure. -/
theorem quiet_advance {env : Env} {caller : Caller} {s u : State} {pc pc' : Pc}
    (h : advance env caller s pc = some (pc', u)) :
    Quiet s u ∨ ∃ msg, u = emit (.posted msg) { s with strand := s.strand ++ [.send msg] } := by
  cases advances_of_advance h with
  | stopClear | stopWait | stopIo | notJoinable | join | joinSelf | spawn | respawn | startSet =>
    exact Or.inl (quiet_of_same rfl rfl rfl)
  | stopPost =>
    exact Or.inl (quiet_of_eq [] _ [] [] (by simp) (by simp) rfl rfl
      (by simp [Item.left?, Item.send?, Item.failsWith]) (by simp) (by simp))
  | opened es hes =>
    have hlog : Quiet s { s with portOpen := true, log := s.log ++ .portOpened :: es } := by
      refine quiet_of_log _ rfl rfl rfl ?_
      intro e he
      rcases List.mem_cons.mp he with rfl | he
      · rfl
      · exact isStream_of_isNotice (hes e he)
    exact Or.inl (hlog.trans (quiet_startAsyncRead _))
  | notOpened es isOpen hes =>
    exact Or.inl (quiet_of_log _ rfl rfl rfl fun e he => isStream_of_isNotice (hes e he))
  | sendPost msg => exact Or.inr ⟨msg, rfl⟩

/-! ## Steps -/

/-- What a step does to the stream, in a session nobody stops. -/
inductive Streams (s : State) : Label → State → Prop
  | quiet {l : Label} {s' : State} : Quiet s s' → Streams s l s'
  | post {l : Label} {s' : State} (msg : Bytes) : s'.ops = s.ops →
      s'.strand = s.strand ++ [.send msg] → s'.log = s.log ++ [.posted msg] → Streams s l s'
  | take {s' : State} (i : ℕ) (before after : List (Op Task Result)) (msg : Bytes) (sent n : ℕ) :
      pick s.ops i = some (before, ⟨.write msg sent, none⟩, after) →
      before.any (waits (.write msg sent)) = false →
      0 < n → n ≤ msg.length - sent →
      s'.ops = before ++ ⟨.write msg sent, some (.ok n)⟩ :: after → s'.strand = s.strand →
      s'.log = s.log ++ [.wrote ((msg.drop sent).take n)] → Streams s (.complete i (.wrote n)) s'
  | fail {s' : State} (i : ℕ) (before after : List (Op Task Result)) (msg : Bytes) (sent : ℕ)
      (ec : ErrorCode) : pick s.ops i = some (before, ⟨.write msg sent, none⟩, after) →
      ec ≠ .operationAborted →
      s'.ops = before ++ ⟨.write msg sent, some (.error ec)⟩ :: after →
      s'.strand = s.strand → s'.log = s.log ++ [.writeFailed ec] →
      Streams s (.complete i (.failed ec)) s'
  | dispatch {s' : State} (i : ℕ) (before after : List (Op Task Result)) (t : Task)
      (res : Result) : s.ops = before ++ ⟨t, some res⟩ :: after → s'.ops = before ++ after →
      s'.strand = s.strand ++ [.completed t res] → s'.log = s.log → Streams s (.dispatch i) s'
  | start {s' : State} (env : Env) (msg : Bytes) (res : Option Result) :
      s.strand = .send msg :: s'.strand → res = none ∨ (msg = [] ∧ res = some (.ok 0)) →
      s'.ops = s.ops ++ [⟨.write msg 0, res⟩] → s'.log = s.log → Streams s (.runStrand env) s'
  | goOn {s' : State} (env : Env) (msg : Bytes) (sent : ℕ) (r : Result) :
      s.strand = .completed (.write msg sent) r :: s'.strand → r.endsWrite msg sent = false →
      s'.ops = s.ops ++ [⟨.write msg (sent + r.length), none⟩] → s'.log = s.log →
      Streams s (.runStrand env) s'
  | report {s' : State} (env : Env) (msg : Bytes) (sent : ℕ) (r : Result) (ec : ErrorCode) :
      s.strand = .completed (.write msg sent) r :: s'.strand → r.ec = some ec →
      ec ≠ .operationAborted → s'.ops = s.ops →
      s'.log = s.log ++ (if s.errorCallback then [.onError (.sendError ec)] else []) →
      Streams s (.runStrand env) s'

section

variable {s s' : State}

/-- The caller goes on, which changes neither operations, strand nor log. -/
theorem streams_advance {env : Env} {caller : Caller} {u : State} {pc pc' : Pc} {l : Label}
    (h : advance env caller s pc = some (pc', u)) (hops : s'.ops = u.ops)
    (hstrand : s'.strand = u.strand) (hlog : s'.log = u.log) : Streams s l s' := by
  rcases quiet_advance h with hq | ⟨msg, rfl⟩
  · exact .quiet (hq.trans (quiet_of_same hops hstrand hlog))
  · exact .post msg hops hstrand hlog

theorem streams_complete {i : ℕ} {out : Outcome} {before after : List (Op Task Result)} {t : Task}
    {res : Result} (hp : pick s.ops i = some (before, ⟨t, none⟩, after))
    (hwait : before.any (waits t) = false) (hres : out.result? t = some res) :
    Streams s (.complete i out)
      (out.deliver t { s with ops := before ++ ⟨t, some res⟩ :: after }) := by
  have hops := pick_eq_some hp
  cases t with
  | read =>
    have hq : Quiet s { s with ops := before ++ ⟨.read, some res⟩ :: after } := by
      refine ⟨?_, ?_, rfl, ?_, [], by simp, by simp⟩
      · rw [hops]
        simp [outstanding, outstanding?, List.filterMap_cons]
      · unfold suspended leftOver
        rw [hops]
        simp [left?, List.filterMap_cons]
      · intro ec
        unfold pendingFailures
        rw [hops]
        simp [failsWith, Task.isWrite]
    refine .quiet (hq.trans ?_)
    cases out with
    | received data => exact quiet_of_log _ rfl rfl rfl (by simp [Event.isStream])
    | wrote n | failed ec => exact quiet_of_same rfl rfl rfl
  | write msg sent =>
    cases out with
    | received data => exact absurd hres (by simp [Outcome.result?])
    | wrote n =>
      simp only [Outcome.result?] at hres
      split_ifs at hres with hn
      obtain rfl := Option.some.inj hres
      exact .take i before after msg sent n hp hwait hn.1
        (Nat.le_trans hn.2 (Nat.min_le_left _ _)) rfl rfl rfl
    | failed ec =>
      simp only [Outcome.result?] at hres
      split_ifs at hres with hec
      obtain rfl := Option.some.inj hres
      exact .fail i before after msg sent ec hp hec rfl rfl rfl

theorem streams_run {env : Env} {item : Item} {rest : List Item}
    (hstrand : s.strand = item :: rest) (hitem : item.Allowed s.portOpen) :
    Streams s (.runStrand env) (item.run env { s with strand := rest }) := by
  have hpop : item.left? = none → item.send? = none → (∀ ec, item.failsWith ec = false) →
      Quiet s { s with strand := rest } := fun hl hsend hf =>
    quiet_of_eq [item] [] [] [] (by simp) (by simp)
      hstrand (by simp) (by simpa using ⟨hl, hsend, hf⟩) (by simp) (by simp)
  cases item with
  | stop c => exact hitem.elim
  | send msg =>
    have ho : s.portOpen = true := hitem
    have hrun : (Item.send msg).run env { s with strand := rest } =
        writeSome msg 0 { s with strand := rest } := if_pos ho
    rw [hrun]
    unfold writeSome
    split_ifs with hnil
    · have hmsg : msg = [] := List.eq_nil_of_length_eq_zero (Nat.le_zero.mp hnil)
      exact .start env msg _ hstrand (Or.inr ⟨hmsg, rfl⟩) rfl rfl
    · exact .start env msg none hstrand (Or.inl rfl) (by simp [startOp, ho]) rfl
  | completed t r =>
    cases t with
    | read =>
      exact .quiet ((hpop rfl rfl fun _ => rfl).trans (quiet_readHandler env r _))
    | write msg sent =>
      have ho : s.portOpen = true := hitem rfl
      show Streams s (.runStrand env) (writeResume env msg sent r { s with strand := rest })
      unfold writeResume
      by_cases hend : r.endsWrite msg sent = true
      · rw [if_pos hend]
        have hleft : (Item.completed (.write msg sent) r).left? = none := by
          simp [Item.left?, left?, hend]
        cases hec : r.ec with
        | none =>
          exact .quiet (hpop hleft rfl fun ec => by simp [Item.failsWith, failsWith, hec])
        | some ec =>
          unfold writeHandler
          dsimp only
          by_cases hab : ec = .operationAborted
          · rw [if_pos hab]
            refine .quiet (hpop hleft rfl ?_)
            intro ec'
            rw [hab] at hec
            by_cases hec' : ec' = .operationAborted
            · simp [Item.failsWith, failsWith, hec']
            · simp [Item.failsWith, failsWith, hec, Ne.symm hec']
          · rw [if_neg hab]
            rcases Bool.eq_false_or_eq_true s.errorCallback with hcb | hcb
            · exact .report env msg sent r ec (by simp [invoke, hcb, emit, hstrand]) hec hab
                (by simp [invoke, hcb, emit]) (by simp [invoke, hcb, emit])
            · exact .report env msg sent r ec (by simp [invoke, hcb, After.run, hstrand]) hec hab
                (by simp [invoke, hcb, After.run]) (by simp [invoke, hcb, After.run])
      · rw [if_neg hend]
        have hmore : ¬ msg.length ≤ sent + r.length := by
          intro hle
          exact hend (by simp [Result.endsWrite, hle])
        have hrun : writeSome msg (sent + r.length) { s with strand := rest } =
            startOp (.write msg (sent + r.length)) { s with strand := rest } := by
          simp only [writeSome, if_neg hmore, if_pos ho]
        rw [hrun]
        exact .goOn env msg sent r hstrand (by simpa using hend) (by simp [startOp, ho]) rfl

theorem streams_of_step (h : Unstopped s) {l : Label} (hs : step s l = some s') :
    Streams s l s' := by
  cases moves_of_step hs with
  | call thread c hidle =>
    exact .quiet ((quiet_begin c s).trans (quiet_of_same rfl rfl rfl))
  | advance thread env pc u hadv => exact streams_advance hadv rfl rfl rfl
  | setReceiveCallback set | setErrorCallback set => exact .quiet (quiet_of_same rfl rfl rfl)
  | complete i out before after t res hp hwait hres => exact streams_complete hp hwait hres
  | dispatch i before after t res hio hstop hp =>
    exact .dispatch i before after t res (pick_eq_some hp) rfl rfl rfl
  | runStrand env item rest hio hstop hstrand =>
    exact streams_run hstrand (h.items item (by rw [hstrand]; exact List.mem_cons_self))
  | ioCall env f c calls hf hpc hcalls =>
    exact .quiet ((quiet_begin c s).trans (quiet_of_same rfl rfl rfl))
  | ioThrow env f hf hpc hcalls hthrows => exact .quiet (quiet_of_same rfl rfl rfl)
  | ioReturn env f hf hpc hcalls hthrows =>
    have hsame : Quiet s { s with ioThread := .running } := quiet_of_same rfl rfl rfl
    exact .quiet (hsame.trans (quiet_afterRun f.after _))
  | ioGo env f pc u hf hpc hadv => exact streams_advance hadv rfl rfl rfl
  | ioExit hio hstop => exact .quiet (quiet_of_same rfl rfl rfl)

end

end AsioLearn.SerialPort
