import AsioLearn.TcpClient.Handover
import AsioLearn.TcpClient.WriteQueue

/-!
# What each connection carries

The bytes that go to one `tcp::socket` object, or to one connection of it, should be whole
messages from the first one on, up to a point. They are while a write stays where it was begun:
`write_op` goes on with whatever `socket_` is when its step is handled, so a step that had
completed before `socket_` was replaced sends the tail of its message to the new connection.

* `whole_messages_unless_moved`: whole messages on every carrier of a run in which no write goes
  on elsewhere.
-/

namespace AsioLearn.TcpClient

open Proactor Lts

/-- What bytes are submitted to: a `tcp::socket` object, or one connection of it. -/
inductive Carrier
  | object (inst : ℕ)
  | connection (fd : ℕ)
  deriving DecidableEq, Repr

def Carrier.has : Carrier → Socket → Bool
  | .object inst, k => k.inst == inst
  | .connection fd, k => k.fd == some fd

/-- The bytes written to a carrier. -/
def written (c : Carrier) (s : State) : Bytes :=
  (((wrotes s).filter (c.has ·.1)).map Prod.snd).flatten

/-- Every carrier has been given the messages accepted from some point on, up to another. -/
def WholeMessages (s : State) : Prop :=
  ∀ c : Carrier, ∃ i, written c s <+: (((accepted s).map Prod.snd).drop i).flatten

/-- If the step continues a write, then on the socket its last step was on, or on one that is
not open. -/
def TailStays (s : State) (l : Label) : Prop :=
  match ran? s l with
  | some (⟨.write msg sent, sock, _⟩, r) =>
    r.endsWrite msg sent = false → sock = s.socket ∨ s.socket.isOpen = false
  | _ => True

instance (s : State) (l : Label) : Decidable (TailStays s l) :=
  match h : ran? s l with
  | some (⟨.write msg sent, sock, _⟩, r) => decidable_of_iff
      (r.endsWrite msg sent = false → sock = s.socket ∨ s.socket.isOpen = false)
      (by simp only [TailStays, h])
  | some (⟨.connect _, _, _⟩, _) | some (⟨.read, _, _⟩, _) | some (⟨.wait, _, _⟩, _) | none =>
    isTrue (by simp only [TailStays, h])

/-! ## Positions in the stream -/

/-- With `rest` written to it as well, the carrier has the messages begun from some point on. -/
def At (c : Carrier) (s : State) (rest : Bytes) : Prop :=
  ∃ i ≤ (started s).length, written c s ++ rest = ((started s).drop i).flatten

/-- A carrier that has been given nothing can begin with any message. -/
theorem at_of_nil {c : Carrier} {s : State} (h : written c s = []) : At c s [] :=
  ⟨_, Nat.le_refl _, by rw [h, List.drop_length]; rfl⟩

theorem At.bounded {c : Carrier} {s : State} {rest : Bytes} (h : At c s rest) :
    ∃ i, written c s <+: ((started s).drop i).flatten := by
  obtain ⟨i, -, hi⟩ := h
  exact ⟨i, rest, hi⟩

theorem At.congr {c : Carrier} {s s' : State} {rest : Bytes} (h : At c s rest)
    (hw : written c s' = written c s) (hs : started s' = started s) : At c s' rest := by
  unfold At
  rw [hw, hs]
  exact h

/-- The next message is begun at the end of the last one. -/
theorem At.begin {c : Carrier} {s s' : State} {msg : Bytes} (h : At c s [])
    (hw : written c s' = written c s) (hs : started s' = started s ++ [msg]) : At c s' msg := by
  obtain ⟨i, hle, hi⟩ := h
  refine ⟨i, by rw [hs, List.length_append]; omega, ?_⟩
  rw [hw, hs, List.drop_append_of_le_length hle, List.flatten_append, ← hi]
  simp

/-- A part of what was missing has been written. -/
theorem At.advance {c : Carrier} {s s' : State} {msg : Bytes} {sent n : ℕ}
    (h : At c s (msg.drop sent)) (hw : written c s' = written c s ++ (msg.drop sent).take n)
    (hs : started s' = started s) : At c s' (msg.drop (sent + n)) := by
  obtain ⟨i, hle, hi⟩ := h
  refine ⟨i, by rwa [hs], ?_⟩
  rw [hw, hs, ← hi, List.append_assoc, ← List.drop_drop, List.take_append_drop]

theorem written_of_wrotes {c : Carrier} {s s' : State} (h : wrotes s' = wrotes s) :
    written c s' = written c s := by
  unfold written
  rw [h]

/-! ## Carriers are used once -/

/-- Every socket object and descriptor used so far lies below the next fresh ones. -/
structure Fresh (s : State) : Prop where
  inst : s.socket.inst < s.nextInst
  fd : ∀ fd, s.socket.fd = some fd → fd < s.nextFd
  used : ∀ w ∈ wrotes s, w.1.inst < s.nextInst ∧ ∀ fd, w.1.fd = some fd → fd < s.nextFd

theorem Fresh.sameWire {s s' : State} (h : Fresh s) (hn : SameWire s s') : Fresh s' := by
  have hinst := h.inst
  have hle := hn.moved.nextInst
  have hle' := hn.moved.nextFd
  refine ⟨?_, ?_, ?_⟩
  · rcases hn.moved.inst with he | he <;> omega
  · intro fd hfd
    rcases hn.moved.fd with he | hnew
    · have := h.fd fd (he.symm.trans hfd)
      omega
    · exact (hnew fd hfd).2
  · intro w hw
    rw [hn.wrotes] at hw
    obtain ⟨hi, hf⟩ := h.used w hw
    exact ⟨by omega, fun fd hfd => by have := hf fd hfd; omega⟩

/-- What `socket_` may have become has been given nothing, unless it is what it was. -/
theorem Fresh.rekey {s s' : State} (h : Fresh s) (hn : SameWire s s') {c : Carrier}
    (hc : c.has s'.socket = true) : c.has s.socket = true ∨ written c s' = [] := by
  have hnil : (∀ w ∈ wrotes s, c.has w.1 = false) → written c s' = [] := by
    intro hno
    rw [written_of_wrotes hn.wrotes]
    unfold written
    rw [List.filter_eq_nil_iff.mpr fun w hw => by simp [hno w hw]]
    rfl
  cases c with
  | object inst =>
    have hinst : s'.socket.inst = inst := by simpa [Carrier.has] using hc
    rcases hn.moved.inst with he | ⟨hle, -⟩
    · exact Or.inl (by simp [Carrier.has, ← he, hinst])
    · refine Or.inr (hnil ?_)
      intro w hw
      have := (h.used w hw).1
      simp only [Carrier.has, beq_eq_false_iff_ne]
      omega
  | connection fd =>
    have hfd : s'.socket.fd = some fd := by simpa [Carrier.has] using hc
    rcases hn.moved.fd with he | hnew
    · exact Or.inl (by simp [Carrier.has, ← he, hfd])
    · refine Or.inr (hnil ?_)
      intro w hw
      have hle := (hnew fd hfd).1
      simp only [Carrier.has, beq_eq_false_iff_ne]
      intro hw'
      have := (h.used w hw).2 fd hw'
      omega

/-! ## The write in progress -/

/-- Where the carriers stand while a write is in progress. An outstanding step is on the current
socket; a step that has completed knows how far its own carrier is, and `socket_` may have moved
on to carriers that have been given nothing. -/
def WriteAt (s : State) (op : Op Task Result) : Prop :=
  match op.task.kind, op.result with
  | .write msg sent, none =>
    op.task.sock = s.socket ∧ s.socket.isOpen = true ∧
      ∀ c : Carrier, c.has s.socket = true → At c s (msg.drop sent)
  | .write msg sent, some r =>
    r.ec = none → (r.length = 0 → msg.length ≤ sent) ∧ ∀ c : Carrier,
      (c.has op.task.sock = true → At c s (msg.drop (sent + r.length))) ∧
        (c.has s.socket = true → c.has op.task.sock = true ∨ written c s = [])
  | _, _ => True

/-- No carrier has been given anything but messages from some point on. -/
structure InStream (s : State) : Prop where
  fresh : Fresh s
  bounded : ∀ c : Carrier, ∃ i, written c s <+: ((started s).drop i).flatten
  writes : ∀ op ∈ s.ops, WriteAt s op

/-- And while nothing is queued, the current carriers stand at the end of a message. -/
structure InOrder (s : State) : Prop extends InStream s where
  idle : s.writeMsgs = [] → ∀ c : Carrier, c.has s.socket = true → At c s []

theorem writeAt_of_not_isWrite {s : State} {op : Op Task Result}
    (h : op.task.kind.isWrite = false) : WriteAt s op := by
  obtain ⟨⟨kind, sock, session⟩, res⟩ := op
  cases kind with
  | write msg sent => exact absurd h (by simp [Kind.isWrite])
  | connect rest | read | wait => trivial

theorem writeAt_of_hasFailed {s : State} {op : Op Task Result} (h : hasFailed op = true) :
    WriteAt s op := by
  obtain ⟨⟨kind, sock, session⟩, res⟩ := op
  cases res with
  | none => exact absurd h (by simp [hasFailed])
  | some r =>
    have hec : r.ec.isSome = true := by simpa [hasFailed] using h
    cases kind with
    | write msg sent => exact fun hno => absurd hec (by simp [hno])
    | connect rest | read | wait => trivial

section

variable {s s' : State}

theorem writeAt_sameWire (h : InStream s) (hn : SameWire s s') {op : Op Task Result}
    (hop : op ∈ s'.ops) : WriteAt s' op := by
  cases hw : op.task.kind.isWrite with
  | false => exact writeAt_of_not_isWrite hw
  | true =>
    have hwritten : ∀ c : Carrier, written c s' = written c s :=
      fun c => written_of_wrotes hn.wrotes
    rcases hn.writes op hop hw with hr | ⟨hmem, hsame⟩
    · exact writeAt_of_hasFailed hr
    · have hat := h.writes op hmem
      obtain ⟨⟨kind, sock, session⟩, res⟩ := op
      cases kind with
      | connect rest | read | wait => trivial
      | write msg sent =>
        cases res with
        | none =>
          obtain ⟨rfl, hopen, hpos⟩ := hat
          have hsock : s'.socket = s.socket := hsame rfl (by simp [Task.on, hopen, Kind.isWait])
          unfold WriteAt
          dsimp only
          rw [hsock]
          exact ⟨rfl, hopen, fun c hc => (hpos c hc).congr (hwritten c) hn.started⟩
        | some r =>
          intro hec
          obtain ⟨hlen, hpos⟩ := hat hec
          refine ⟨hlen, fun c => ⟨fun hc => ((hpos c).1 hc).congr (hwritten c) hn.started, ?_⟩⟩
          intro hc
          rcases h.fresh.rekey hn hc with hc | hnil
          · rw [hwritten c]
            exact (hpos c).2 hc
          · exact Or.inr hnil

theorem InStream.sameWire (h : InStream s) (hn : SameWire s s') : InStream s' := by
  refine ⟨h.fresh.sameWire hn, ?_, fun op hop => writeAt_sameWire h hn hop⟩
  intro c
  rw [written_of_wrotes hn.wrotes, hn.started]
  exact h.bounded c

theorem InOrder.noWrite (h : InOrder s) (hn : NoWrite s s') : InOrder s' := by
  refine ⟨h.toInStream.sameWire hn.toSameWire, ?_⟩
  intro hq c hc
  rw [hn.writeMsgs] at hq
  rcases h.fresh.rekey hn.toSameWire hc with hc | hnil
  · exact (h.idle hq c hc).congr (written_of_wrotes hn.wrotes) hn.started
  · exact at_of_nil hnil

/-! ## Writing -/

theorem isWrite_of_writers_nil (hw : writers s = []) :
    ∀ op ∈ s.ops, op.task.kind.isWrite = false := by
  intro op hop
  have hno := List.filterMap_eq_nil_iff.mp hw op.task (List.mem_map_of_mem hop)
  exact Kind.writes?_eq_none hno

/-- A write step begins where the current carriers stand. -/
theorem InStream.startOp (h : InStream s) {msg : Bytes} {sent : ℕ} (session : ℕ)
    (hq : s.writeMsgs ≠ []) (hat : s.socket.isOpen = true →
      ∀ c : Carrier, c.has s.socket = true → At c s (msg.drop sent)) :
    InOrder (startOp (.write msg sent) session s) := by
  refine ⟨⟨⟨h.fresh.inst, h.fresh.fd, h.fresh.used⟩, h.bounded, ?_⟩, fun hno => absurd hno hq⟩
  intro op hop
  rcases List.mem_append.mp hop with hop | hop
  · exact h.writes op hop
  · rw [List.mem_singleton.mp hop]
    cases hopen : s.socket.isOpen with
    | true => exact ⟨rfl, hopen, hat hopen⟩
    | false => exact fun hno => absurd hno (by simp [Result.error])

/-- Beginning a message when no write is in progress. -/
theorem InStream.begun (h : InStream s) (hw : writers s = []) (msg : Bytes) :
    InStream (emit (.writeStarted msg) s) := by
  have hwrotes : wrotes (emit (.writeStarted msg) s) = wrotes s := by
    simp [wrotes, emit, Event.wrote?]
  have hstarted : started (emit (.writeStarted msg) s) = started s ++ [msg] := by
    simp [started, emit, Event.writeStarted?]
  refine ⟨⟨h.fresh.inst, h.fresh.fd, by rw [hwrotes]; exact h.fresh.used⟩, ?_,
    fun op hop => writeAt_of_not_isWrite (isWrite_of_writers_nil hw op hop)⟩
  intro c
  obtain ⟨i, hi⟩ := h.bounded c
  refine ⟨i, ?_⟩
  rw [written_of_wrotes hwrotes, hstarted, List.drop_append, List.flatten_append]
  exact hi.trans (List.prefix_append _ _)

theorem inOrder_doWrite (h : InStream s) (hw : writers s = [])
    (hat : ∀ c : Carrier, c.has s.socket = true → At c s []) : InOrder (doWrite s) := by
  rcases doWrite_cases s with hd | ⟨msg, rest, hq, hd⟩
  · rw [hd]
    exact ⟨h, fun _ => hat⟩
  · rw [hd]
    apply (h.begun hw msg).startOp s.session (by rw [emit]; simp [hq])
    intro _ c hc
    refine At.begin (hat c hc) (written_of_wrotes ?_) ?_
    · simp [wrotes, emit, Event.wrote?]
    · simp [started, emit, Event.writeStarted?]

/-- The closure of a `send()`. -/
theorem inOrder_accept (h : InOrder s) {o : Outbox Bytes} (ht : Tracks o s) (env : Env)
    (thread : ℕ) (msg : Bytes) : InOrder (runPosted env (.send thread msg) s) := by
  have hacc : SameWire s (emit (.accepted thread msg)
      { s with writeMsgs := s.writeMsgs ++ [msg] }) :=
    sameWire_of_eq (fun _ hop => hop) (by simp [started, emit, Event.writeStarted?])
      (by simp [wrotes, emit, Event.wrote?]) rfl rfl rfl
  have h' := h.toInStream.sameWire hacc
  unfold runPosted
  dsimp only
  split
  · exact h
  · split
    · exact ⟨h', fun hno => absurd hno (by simp [emit])⟩
    · rename_i hidle
      have hq : s.writeMsgs = [] := by simpa using hidle
      have hw : writers s = [] := by
        rw [ht.writers]
        cases o with
        | idle => rfl
        | busy | stuck => exact absurd (ht.queue.symm.trans hq) (by simp [Outbox.queue])
      apply inOrder_doWrite h' hw
      intro c hc
      exact (h.idle hq c hc).congr (written_of_wrotes hacc.wrotes) hacc.started

/-- A step of a write has put bytes on the wire. -/
theorem inOrder_wrote (h : InOrder s) {o : Outbox Bytes} (ht : Tracks o s)
    {before after : List (Op Task Result)} {sock : Socket} {session : ℕ} {msg : Bytes}
    {sent n : ℕ} (hops : s.ops = before ++ ⟨⟨.write msg sent, sock, session⟩, none⟩ :: after)
    (hn : n = 0 → msg.length ≤ sent) :
    InOrder (emit (.wrote sock ((msg.drop sent).take n))
      { s with ops := before ++ ⟨⟨.write msg sent, sock, session⟩, some (.ok n)⟩ :: after }) := by
  obtain ⟨done, rest, rfl, hnone⟩ := tracks_busy ht hops rfl
  have hq : s.writeMsgs ≠ [] := by rw [ht.queue]; exact List.cons_ne_nil _ _
  obtain ⟨rfl, hopen, hpos⟩ : WriteAt s ⟨⟨.write msg sent, sock, session⟩, none⟩ :=
    h.writes _ (by rw [hops]; simp)
  let s' := emit (.wrote s.socket ((msg.drop sent).take n))
    { s with ops := before ++ ⟨⟨.write msg sent, s.socket, session⟩, some (.ok n)⟩ :: after }
  have hwrotes : wrotes s' = wrotes s ++ [(s.socket, (msg.drop sent).take n)] := by
    simp [s', wrotes, emit, Event.wrote?]
  have hstarted : started s' = started s := by simp [s', started, emit, Event.writeStarted?]
  have hin : ∀ c : Carrier, c.has s.socket = true →
      written c s' = written c s ++ (msg.drop sent).take n := by
    intro c hc
    simp [written, hwrotes, hc]
  have hout : ∀ c : Carrier, c.has s.socket = false → written c s' = written c s := by
    intro c hc
    simp [written, hwrotes, hc]
  have hadvance : ∀ c : Carrier, c.has s.socket = true → At c s' (msg.drop (sent + n)) :=
    fun c hc => (hpos c hc).advance (hin c hc) hstarted
  refine ⟨⟨⟨h.fresh.inst, h.fresh.fd, ?_⟩, ?_, ?_⟩, fun hno => absurd hno hq⟩
  · intro w hw
    rw [hwrotes] at hw
    rcases List.mem_append.mp hw with hw | hw
    · exact h.fresh.used w hw
    · rw [List.mem_singleton.mp hw]
      exact ⟨h.fresh.inst, h.fresh.fd⟩
  · intro c
    cases hc : c.has s.socket with
    | true => exact (hadvance c hc).bounded
    | false =>
      rw [hout c hc, hstarted]
      exact h.bounded c
  · intro op hop
    rcases List.mem_append.mp hop with hop | hop
    · exact writeAt_of_not_isWrite
        (isWrite_of_writers_nil hnone op (List.mem_append_left _ hop))
    · rcases List.mem_cons.mp hop with rfl | hop
      · exact fun _ => ⟨hn, fun c => ⟨hadvance c, fun hc => Or.inl hc⟩⟩
      · exact writeAt_of_not_isWrite
          (isWrite_of_writers_nil hnone op (List.mem_append_right _ hop))

theorem inOrder_complete (h : InOrder s) {o : Outbox Bytes} (ht : Tracks o s) {i : ℕ}
    {out : Outcome} (hs : step s (.complete i out) = some s') : InOrder s' := by
  by_cases hout : ∀ n, out ≠ .wrote n
  · exact h.noWrite (noWrite_complete hout hs)
  · push Not at hout
    obtain ⟨n, rfl⟩ := hout
    obtain ⟨before, ⟨kind, sock, session⟩, after, res, hops, hres, rfl⟩ := step_complete hs
    cases kind with
    | connect rest | read | wait => exact absurd hres (by simp [Outcome.result?])
    | write msg sent =>
      simp only [Outcome.result?] at hres
      split_ifs at hres with hn
      obtain rfl := Option.some.inj hres
      exact inOrder_wrote h ht hops (by omega)

/-- The handler of a step of a write. -/
theorem inOrder_runWrite (h : InOrder s) {o : Outbox Bytes} (ht : Tracks o s)
    {before after : List (Op Task Result)} {sock : Socket} {session : ℕ} {msg : Bytes}
    {sent : ℕ} {res : Result}
    (hops : s.ops = before ++ ⟨⟨.write msg sent, sock, session⟩, some res⟩ :: after)
    (hstay : res.endsWrite msg sent = false → sock = s.socket ∨ s.socket.isOpen = false)
    (env : Env) :
    InOrder (writeResume env ⟨.write msg sent, sock, session⟩ msg sent res
      { s with ops := before ++ after }) := by
  obtain ⟨done, rest, rfl, hnone⟩ := tracks_busy ht hops rfl
  have hq : s.writeMsgs ≠ [] := by rw [ht.queue]; exact List.cons_ne_nil _ _
  have hat : WriteAt s ⟨⟨.write msg sent, sock, session⟩, some res⟩ :=
    h.writes _ (by rw [hops]; simp)
  have hin : InStream { s with ops := before ++ after } :=
    h.toInStream.sameWire (sameWire_of_eq (fun op hop => by rw [hops]; exact mem_of_mem_rest hop)
      rfl rfl rfl rfl rfl)
  have hleft : InOrder { s with ops := before ++ after } := ⟨hin, fun hno => absurd hno hq⟩
  cases hec : res.ec with
  | some ec =>
    simp only [writeResume, hec, writeHandler]
    split
    · exact hleft
    · exact hleft.noWrite (noWrite_report _ _ env _)
  | none =>
    obtain ⟨hlen, hpos⟩ := hat hec
    by_cases hend : res.length = 0 ∨ msg.length ≤ sent + res.length
    · -- the message is complete, so the current carriers stand at its end
      have hdone : msg.drop (sent + res.length) = [] := by
        rw [List.drop_eq_nil_iff]
        omega
      have hboundary : ∀ c : Carrier, c.has s.socket = true → At c s [] := by
        intro c hc
        rcases (hpos c).2 hc with hsock | hnil
        · rw [← hdone]
          exact (hpos c).1 hsock
        · exact at_of_nil hnil
      simp only [writeResume, hec, if_pos hend]
      rcases Bool.eq_false_or_eq_true s.stopped with hs | hs
      · have heq : writeHandler env none { s with ops := before ++ after } =
            { s with ops := before ++ after } := if_pos hs
        rw [heq]
        exact hleft
      · have hin' : InStream { s with ops := before ++ after, writeMsgs := s.writeMsgs.tail } :=
          hin.sameWire (sameWire_of_eq (fun _ hop => hop) rfl rfl rfl rfl rfl)
        rw [writeHandler_ok env (s := { s with ops := before ++ after }) hs]
        exact inOrder_doWrite hin' hnone hboundary
    · -- the rest of the message goes to whatever `socket_` is now
      have hends : res.endsWrite msg sent = false := by
        simpa [Result.endsWrite, hec] using hend
      simp only [writeResume, hec, if_neg hend]
      apply hin.startOp session hq
      intro hopen c hc
      rcases hstay hends with rfl | hclosed
      · exact (hpos c).1 hc
      · exact absurd hopen (by simp [hclosed])

theorem step_inOrder (h : InOrder s) {o : Outbox Bytes} (ht : Tracks o s) {l : Label}
    (hok : TailStays s l) (hs : step s l = some s') : InOrder s' := by
  cases l with
  | start env =>
    obtain rfl := Option.some.inj hs
    exact h.noWrite ((noWrite_start env s).trans (noWrite_conclude _))
  | stop =>
    obtain rfl := Option.some.inj hs
    exact h.noWrite (noWrite_calls [.stop] s)
  | send thread msg =>
    obtain rfl := Option.some.inj hs
    exact h.noWrite (noWrite_calls [.send thread msg] s)
  | setMessageCallback set | setStatusCallback set =>
    obtain rfl := Option.some.inj hs
    exact ⟨h.toInStream.sameWire (sameWire_of_eq (fun _ hop => hop) rfl rfl rfl rfl rfl), h.idle⟩
  | complete i out => exact inOrder_complete h ht hs
  | runPosted env =>
    obtain ⟨c, rest, -, rfl⟩ := step_runPosted hs
    have h' : InOrder { s with posted := rest } :=
      ⟨h.toInStream.sameWire (sameWire_of_eq (fun _ hop => hop) rfl rfl rfl rfl rfl), h.idle⟩
    cases c with
    | send thread msg =>
      exact inOrder_accept h' ⟨ht.writers, ht.queue, ht.accepted, ht.started⟩ env thread msg
    | close session => exact h'.noWrite (noWrite_runClose env session _)
  | runOp i env =>
    obtain ⟨before, ⟨kind, sock, session⟩, res, after, hp, rfl⟩ := step_runOp hs
    have hops := pick_eq_some hp
    cases hk : kind.writes? with
    | none =>
      exact h.noWrite ((noWrite_remove hops hk).trans
        ((noWrite_runHandler env (t := ⟨kind, sock, session⟩) hk res _).trans
          (noWrite_conclude _)))
    | some msg' =>
      cases kind with
      | connect rest | read | wait => exact absurd hk (by simp [Kind.writes?])
      | write msg sent =>
        simp only [TailStays, ran?_runOp hp] at hok
        exact inOrder_runWrite h ht hops hok env

end

theorem inOrder_init : InOrder init := by
  refine ⟨⟨⟨by decide, ?_, ?_⟩, fun c => ⟨0, List.prefix_rfl⟩, ?_⟩, fun _ c _ => at_of_nil rfl⟩
  · intro fd h
    exact absurd h (by simp [init])
  · intro w hw
    exact absurd hw (by simp [wrotes, init])
  · intro op hop
    exact absurd hop (by simp [init])

/-- **Whole messages on every connection.** In a run in which no partly written message is
continued on another open socket than the one its last part went to, every socket object and
every connection has been given the accepted messages from some first one on, up to a point. -/
theorem whole_messages_unless_moved (ls : List Label) (s : State)
    (h : Run step TailStays init ls s) : WholeMessages s := by
  obtain ⟨⟨o, ht⟩, hin⟩ : (∃ o, Tracks o s) ∧ InOrder s := by
    refine h.invariant (I := fun s => (∃ o, Tracks o s) ∧ InOrder s)
      ⟨⟨_, tracks_init⟩, inOrder_init⟩ ?_
    rintro s l s' ⟨⟨o, ht⟩, hin⟩ hok hs
    obtain ⟨o', ht', -⟩ := step_tracks ht hs
    exact ⟨⟨o', ht'⟩, step_inOrder hin ht hok hs⟩
  intro c
  obtain ⟨i, hi⟩ := hin.bounded c
  refine ⟨i, hi.trans ?_⟩
  have hle : started s <+: (accepted s).map Prod.snd := by
    rw [ht.started, ht.accepted]
    exact o.started_isPrefix
  obtain ⟨rest, hrest⟩ := hle
  rw [← hrest, List.drop_append, List.flatten_append]
  exact List.prefix_append _ _

/-- A message split over two steps of one connection, and a second one. -/
def splitWrite : List Label :=
  [.start {}, .complete 0 .connected, .runOp 0 {}, .send 0 [97, 98], .send 0 [99], .runPosted {},
    .runPosted {}, .complete 1 (.wrote 1), .runOp 1 {}, .complete 1 (.wrote 1), .runOp 1 {},
    .complete 1 (.wrote 1)]

theorem whole_messages_unless_moved_splitWrite :
    written (.connection 0) (reached step TailStays init splitWrite) = [97, 98, 99] ∧
      WholeMessages (reached step TailStays init splitWrite) :=
  ⟨by decide, whole_messages_unless_moved splitWrite _ (run_reached (by decide))⟩

/-- The first half of a message has been written when the peer closes the connection. The
reconnect wait expires before the handler of that write step runs, and the second half opens the
next connection. -/
def splitOver : List Label :=
  [.start {}, .complete 0 .connected, .runOp 0 {}, .send 0 [97, 98], .runPosted {},
    .complete 0 (.failed .eof), .runOp 0 {}, .complete 1 .expired, .complete 0 (.wrote 1),
    .runOp 1 {}, .runOp 0 {}, .complete 0 .connected, .complete 1 (.wrote 1)]

theorem not_whole_messages :
    ¬ ∀ (ls : List Label) (s : State), Run step OneSession init ls s → WholeMessages s := by
  intro h
  obtain ⟨i, hi⟩ := h splitOver _ (run_reached (by decide)) (.object 1)
  have hw : written (.object 1) (reached step OneSession init splitOver) = [98] := by decide
  have ha : (accepted (reached step OneSession init splitOver)).map Prod.snd = [[97, 98]] := by
    decide
  rw [hw, ha] at hi
  cases i with
  | zero => exact absurd hi (by decide)
  | succ i => exact absurd hi (by simp)

end AsioLearn.TcpClient
