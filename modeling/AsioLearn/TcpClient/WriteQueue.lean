import AsioLearn.Lib.Outbox
import AsioLearn.TcpClient.NoWrite

/-!
# The queue of outgoing messages

`write_msgs_` with its `async_write` refines an `Outbox`: the messages accepted by the closures
of `send()`, and the one being written. A step either leaves the outbox alone, pushes a message,
finishes the front message, or drops its write; only the handler of that write finishes or
drops it.

* `write_queue_fifo`: one write at a time, of the front message, in the order of acceptance.
* `queue_served_unless_dropped`: the queue is served on a live connection in every run that drops
  no write, and after a write has been dropped nothing is ever written again.
-/

namespace AsioLearn.TcpClient

open Proactor Lts

/-! ## The outbox behind the queue -/

/-- The client's queue is the outbox's: same messages accepted, begun, waiting and being
written. -/
structure Tracks (o : Outbox Bytes) (s : State) : Prop where
  writers : writers s = o.writers
  queue : s.writeMsgs = o.queue
  accepted : (accepted s).map Prod.snd = o.accepted
  started : started s = o.started

theorem Tracks.same {o : Outbox Bytes} {s s' : State} (h : Tracks o s) (hs : SameQueue s s') :
    Tracks o s' :=
  ⟨hs.writers.trans h.writers, hs.writeMsgs.trans h.queue, by rw [hs.accepted, h.accepted],
    hs.started.trans h.started⟩

/-- The step runs the handler of a finished write, with success and on a running client. -/
def writeSucceeds (s : State) (l : Label) : Bool :=
  match ran? s l with
  | some (⟨.write msg sent, _, _⟩, r) => r.endsWrite msg sent && (r.ec.isNone && !s.stopped)
  | _ => false

/-- The step runs the handler of a finished write that has failed, or finds `stopped_` set. -/
def dropsWrite (s : State) (l : Label) : Bool :=
  match ran? s l with
  | some (⟨.write msg sent, _, _⟩, r) => r.endsWrite msg sent && (r.ec.isSome || s.stopped)
  | _ => false

theorem tracks_init : Tracks (.idle []) init := ⟨rfl, rfl, rfl, rfl⟩

/-- Accepting a message while nothing is queued begins to write it. -/
theorem tracks_doWrite {sent : List Bytes} {s : State} {msg : Bytes} {rest : List Bytes}
    (hw : writers s = []) (hq : s.writeMsgs = msg :: rest)
    (ha : (accepted s).map Prod.snd = sent ++ msg :: rest) (hb : started s = sent)
    (hs : s.stopped = false) : Tracks (.busy sent msg rest) (doWrite s) := by
  have hdo : doWrite s = startOp (.write msg 0) s.session (emit (.writeStarted msg) s) := by
    unfold doWrite
    rw [if_neg (by simp [hs]), hq]
  rw [hdo]
  refine ⟨?_, hq, ?_, ?_⟩
  · have : writers (startOp (.write msg 0) s.session (emit (.writeStarted msg) s)) =
        writers s ++ [msg] := by simp [writers, startOp, addOp, emit, Kind.writes?]
    rw [this, hw]
    rfl
  · have : accepted (startOp (.write msg 0) s.session (emit (.writeStarted msg) s)) =
        accepted s := by simp [accepted, startOp, addOp, emit, Event.accepted?]
    rw [this, ha]
    rfl
  · have : started (startOp (.write msg 0) s.session (emit (.writeStarted msg) s)) =
        started s ++ [msg] := by simp [started, startOp, addOp, emit, Event.writeStarted?]
    rw [this, hb]
    rfl

/-- The closure of a `send()`. -/
theorem tracks_accept {o : Outbox Bytes} {s : State} (h : Tracks o s) (env : Env) (thread : ℕ)
    (msg : Bytes) :
    ∃ o', Tracks o' (runPosted env (.send thread msg) s) ∧ (o' = o ∨ o' = o.push msg) := by
  cases hs : s.stopped with
  | true =>
    refine ⟨o, ?_, Or.inl rfl⟩
    simpa [runPosted, hs] using h
  | false =>
    have hacc : ∀ s' : State, s'.log = s.log ++ [.accepted thread msg] →
        (accepted s').map Prod.snd = o.accepted ++ [msg] := by
      intro s' hlog
      rw [← h.accepted]
      simp [accepted, hlog, Event.accepted?]
    have hbegun : ∀ s' : State, s'.log = s.log ++ [.accepted thread msg] →
        started s' = o.started := by
      intro s' hlog
      rw [← h.started]
      simp [started, hlog, Event.writeStarted?]
    refine ⟨o.push msg, ?_, Or.inr rfl⟩
    cases o with
    | idle sent =>
      have hq : s.writeMsgs = [] := h.queue
      simp only [runPosted, hs, hq, List.isEmpty_nil, Bool.not_true, Bool.false_eq_true, if_false]
      exact tracks_doWrite h.writers (by simp [emit]) (hacc _ rfl) (hbegun _ rfl) rfl
    | busy sent front rest =>
      have hq : s.writeMsgs = front :: rest := h.queue
      simp only [runPosted, hs, hq, List.isEmpty_cons, Bool.not_false, Bool.false_eq_true,
        if_false, if_true]
      refine ⟨h.writers, by simp [emit, Outbox.queue, Outbox.push], ?_, hbegun _ rfl⟩
      rw [hacc _ rfl]
      simp [Outbox.accepted, Outbox.push]
    | stuck sent front rest =>
      have hq : s.writeMsgs = front :: rest := h.queue
      simp only [runPosted, hs, hq, List.isEmpty_cons, Bool.not_false, Bool.false_eq_true,
        if_false, if_true]
      refine ⟨h.writers, by simp [emit, Outbox.queue, Outbox.push], ?_, hbegun _ rfl⟩
      rw [hacc _ rfl]
      simp [Outbox.accepted, Outbox.push]

/-- A write in the pool is the only one, and of the front message. -/
theorem tracks_busy {o : Outbox Bytes} {s : State} (h : Tracks o s)
    {l r : List (Op Task Result)} {t : Task} {res : Option Result} {msg : Bytes}
    (hops : s.ops = l ++ ⟨t, res⟩ :: r) (hk : t.kind.writes? = some msg) :
    ∃ sent rest, o = .busy sent msg rest ∧ writers { s with ops := l ++ r } = [] := by
  have hw : o.writers = (l.map Op.task).filterMap (·.kind.writes?) ++
      msg :: (r.map Op.task).filterMap (·.kind.writes?) := by
    rw [← h.writers]
    simp [writers, hops, hk]
  cases o with
  | idle => exact absurd hw (by simp [Outbox.writers])
  | stuck => exact absurd hw (by simp [Outbox.writers])
  | busy sent front rest =>
    obtain ⟨hl, hfront, hr⟩ : (l.map Op.task).filterMap (·.kind.writes?) = [] ∧ front = msg ∧
        (r.map Op.task).filterMap (·.kind.writes?) = [] := by
      have := List.append_eq_singleton_iff.mp hw.symm
      rcases this with ⟨hl, hm⟩ | ⟨-, hm⟩
      · obtain ⟨hm, hr⟩ := List.cons_eq_cons.mp hm
        exact ⟨hl, hm.symm, hr⟩
      · exact absurd hm (by simp)
    subst hfront
    exact ⟨sent, rest, rfl, by simp only [writers, List.map_append, List.filterMap_append, hl, hr,
      List.append_nil]⟩

/-- The client once the front message's write has left the pool. -/
theorem tracks_removed {sent rest : List Bytes} {msg : Bytes} {s s' : State}
    (h : Tracks (.busy sent msg rest) s) (hw : writers s' = [])
    (hq : s'.writeMsgs = s.writeMsgs) (hlog : s'.log = s.log) :
    Tracks (.stuck sent msg rest) s' := by
  have ha : accepted s' = accepted s := by unfold accepted; rw [hlog]
  have hb : started s' = started s := by unfold started; rw [hlog]
  exact ⟨hw, hq.trans h.queue, by rw [ha, h.accepted]; rfl, by rw [hb, h.started]; rfl⟩

/-- The handler of a finished write that has succeeded on a running client. -/
theorem tracks_writeHandler {sent rest : List Bytes} {msg : Bytes} {s : State}
    (h : Tracks (.stuck sent msg rest) s) (env : Env) (hs : s.stopped = false) :
    Tracks (Outbox.busy sent msg rest).finish (writeHandler env none s) := by
  unfold writeHandler
  rw [if_neg (by simp [hs])]
  have hq : s.writeMsgs = msg :: rest := h.queue
  have ha : (accepted s).map Prod.snd = (sent ++ [msg]) ++ rest := by
    rw [h.accepted]
    simp [Outbox.accepted]
  cases rest with
  | nil =>
    simp only [hq, List.tail_cons, List.isEmpty_nil, if_true]
    rw [List.append_nil] at ha
    exact ⟨h.writers, rfl, ha, h.started⟩
  | cons next rest =>
    simp only [hq, List.tail_cons, List.isEmpty_cons, Bool.false_eq_true, if_false]
    exact tracks_doWrite h.writers rfl ha h.started hs

/-- What one step does to the outbox. -/
inductive Moves (s : State) (l : Label) (o : Outbox Bytes) : Outbox Bytes → Prop
  | stay : writeSucceeds s l = false → dropsWrite s l = false → Moves s l o o
  | push (msg : Bytes) : writeSucceeds s l = false → dropsWrite s l = false →
      Moves s l o (o.push msg)
  | finish : writeSucceeds s l = true → dropsWrite s l = false → Moves s l o o.finish
  | drop : writeSucceeds s l = false → dropsWrite s l = true → Moves s l o o.drop

/-- The handler run of a `write_op` after one of its steps has completed. -/
theorem tracks_runWrite {o : Outbox Bytes} {s : State} (h : Tracks o s) {i : ℕ} {env : Env}
    {l r : List (Op Task Result)} {msg : Bytes} {sent : ℕ} {sock : Socket} {session : ℕ}
    {res : Result} (hp : pick s.ops i = some (l, ⟨⟨.write msg sent, sock, session⟩, some res⟩, r)) :
    ∃ o', Tracks o' (writeResume env ⟨.write msg sent, sock, session⟩ msg sent res
        { s with ops := l ++ r }) ∧ Moves s (.runOp i env) o o' := by
  obtain ⟨done, rest, rfl, hnone⟩ := tracks_busy h (pick_eq_some hp) rfl
  have hleft : Tracks (.stuck done msg rest) { s with ops := l ++ r } :=
    tracks_removed h hnone rfl rfl
  have hran := ran?_runOp hp env
  cases hec : res.ec with
  | some ec =>
    -- the write has failed
    refine ⟨.stuck done msg rest, ?_, .drop ?_ ?_⟩
    · simp only [writeResume, hec]
      unfold writeHandler
      split
      · exact hleft
      · exact hleft.same (noWrite_report _ _ env _).toSameQueue
    · simp [writeSucceeds, hran, hec]
    · simp [dropsWrite, hran, hec, Result.endsWrite]
  | none =>
    by_cases hend : res.length = 0 ∨ msg.length ≤ sent + res.length
    · have hends : res.endsWrite msg sent = true := by
        simpa [Result.endsWrite, hec] using hend
      simp only [writeResume, hec, if_pos hend]
      rcases Bool.eq_false_or_eq_true s.stopped with hs | hs
      · refine ⟨.stuck done msg rest, ?_, .drop ?_ ?_⟩
        · unfold writeHandler
          rw [if_pos hs]
          exact hleft
        · simp [writeSucceeds, hran, hs]
        · simp [dropsWrite, hran, hends, hs]
      · refine ⟨_, tracks_writeHandler hleft env hs, .finish ?_ ?_⟩
        · simp [writeSucceeds, hran, hec, hs, hends]
        · simp [dropsWrite, hran, hec, hs]
    · -- a part of the message is written: `write_op` starts the next step
      have hends : res.endsWrite msg sent = false := by
        simpa [Result.endsWrite, hec] using hend
      simp only [writeResume, hec, if_neg hend]
      refine ⟨.busy done msg rest, ?_, .stay ?_ ?_⟩
      · refine ⟨?_, h.queue, h.accepted, h.started⟩
        have : writers (startOp (.write msg (sent + res.length)) session
            { s with ops := l ++ r }) = writers { s with ops := l ++ r } ++ [msg] := by
          simp [writers, startOp, addOp, Kind.writes?]
        rw [this, hnone]
        rfl
      · simp [writeSucceeds, hran, hends]
      · simp [dropsWrite, hran, hends]

/-- Every step moves the outbox behind the queue. -/
theorem step_tracks {o : Outbox Bytes} {s s' : State} {l : Label} (h : Tracks o s)
    (hs : step s l = some s') : ∃ o', Tracks o' s' ∧ Moves s l o o' := by
  have hstay : ∀ l : Label, ran? s l = none → Moves s l o o := fun l hran =>
    .stay (by simp [writeSucceeds, hran]) (by simp [dropsWrite, hran])
  cases l with
  | start env =>
    obtain rfl := Option.some.inj hs
    exact ⟨o, h.same ((noWrite_start env s).trans (noWrite_conclude _)).toSameQueue, hstay _ rfl⟩
  | stop =>
    obtain rfl := Option.some.inj hs
    exact ⟨o, h.same (noWrite_calls [.stop] s).toSameQueue, hstay _ rfl⟩
  | send thread msg =>
    obtain rfl := Option.some.inj hs
    exact ⟨o, h.same (noWrite_calls [.send thread msg] s).toSameQueue, hstay _ rfl⟩
  | setMessageCallback set | setStatusCallback set =>
    obtain rfl := Option.some.inj hs
    exact ⟨o, h.same (sameQueue_of_eq rfl rfl rfl rfl), hstay _ rfl⟩
  | complete i out => exact ⟨o, h.same (sameQueue_complete hs), hstay _ rfl⟩
  | runPosted env =>
    obtain ⟨c, rest, -, rfl⟩ := step_runPosted hs
    have h' : Tracks o { s with posted := rest } := ⟨h.writers, h.queue, h.accepted, h.started⟩
    cases c with
    | send thread msg =>
      obtain ⟨o', ht, ho⟩ := tracks_accept h' env thread msg
      refine ⟨o', ht, ?_⟩
      rcases ho with rfl | rfl
      · exact hstay _ rfl
      · exact .push msg (by simp [writeSucceeds, ran?]) (by simp [dropsWrite, ran?])
    | close session => exact ⟨o, h'.same (noWrite_runClose env session _).toSameQueue, hstay _ rfl⟩
  | runOp i env =>
    obtain ⟨l, t, res, r, hp, rfl⟩ := step_runOp hs
    obtain ⟨kind, sock, session⟩ := t
    cases hk : kind.writes? with
    | some msg' =>
      cases kind with
      | write msg sent => exact tracks_runWrite h hp
      | connect rest | read | wait => exact absurd hk (by simp [Kind.writes?])
    | none =>
      have hrun := (noWrite_remove (pick_eq_some hp) hk).trans
        ((noWrite_runHandler env (t := ⟨kind, sock, session⟩) hk res _).trans
          (noWrite_conclude _))
      have hran := ran?_runOp hp env
      refine ⟨o, h.same hrun.toSameQueue, .stay ?_ ?_⟩
      · cases kind <;> simp_all [writeSucceeds, Kind.writes?]
      · cases kind <;> simp_all [dropsWrite, Kind.writes?]

theorem run_tracks {ok : State → Label → Prop} {ls : List Label} {s : State}
    (h : Run step ok init ls s) : ∃ o, Tracks o s := by
  apply h.invariant (I := fun s => ∃ o, Tracks o s) ⟨_, tracks_init⟩
  rintro s l s' ⟨o, ht⟩ - hs
  obtain ⟨o', ht', -⟩ := step_tracks ht hs
  exact ⟨o', ht'⟩

/-! ## The order of acceptance -/

/-- The messages accepted, followed by those still waiting in `io_`, are messages sent, in the
order of posting. -/
def Ordered (s : State) : Prop := (accepted s ++ pendingSends s).Sublist (sendsPosted s)

theorem Ordered.same {s s' : State} (h : Ordered s) (ha : accepted s' = accepted s)
    (hp : ∃ sent, pendingSends s' = pendingSends s ++ sent ∧
      sendsPosted s' = sendsPosted s ++ sent) : Ordered s' := by
  obtain ⟨sent, hp, hs⟩ := hp
  unfold Ordered
  rw [ha, hp, hs, ← List.append_assoc]
  exact h.append (List.Sublist.refl sent)

/-- `do_write` neither accepts nor posts. -/
theorem doWrite_log (s : State) : accepted (doWrite s) = accepted s ∧
    pendingSends (doWrite s) = pendingSends s ∧ sendsPosted (doWrite s) = sendsPosted s := by
  unfold doWrite
  split
  · exact ⟨rfl, rfl, rfl⟩
  · split
    · exact ⟨rfl, rfl, rfl⟩
    · refine ⟨?_, rfl, ?_⟩
      · simp [accepted, startOp, addOp, emit, Event.accepted?]
      · simp [sendsPosted, startOp, addOp, emit, Event.sendPosted?]

theorem Ordered.doWrite {s : State} (h : Ordered s) : Ordered (doWrite s) := by
  obtain ⟨ha, hp, hs⟩ := doWrite_log s
  exact h.same ha ⟨[], by rw [hp, List.append_nil], by rw [hs, List.append_nil]⟩

theorem Ordered.writeResume {s : State} (h : Ordered s) (env : Env) (t : Task) (msg : Bytes)
    (sent : ℕ) (r : Result) : Ordered (writeResume env t msg sent r s) := by
  have hhandler : ∀ ec, Ordered (writeHandler env ec s) := by
    intro ec
    unfold writeHandler
    split
    · exact h
    · split
      · have h' : Ordered { s with writeMsgs := s.writeMsgs.tail } := h
        dsimp only
        split
        · exact h'
        · exact h'.doWrite
      · rename_i ec
        have hq := noWrite_report .error (.writeError ec) env s
        exact h.same hq.accepted hq.posts
  unfold TcpClient.writeResume
  split
  · exact hhandler _
  · split
    · exact hhandler _
    · exact h

theorem ordered_runPosted {s : State} {c : Posted} {rest : List Posted} (h : Ordered s)
    (hposted : s.posted = c :: rest) (env : Env) :
    Ordered (runPosted env c { s with posted := rest }) := by
  cases c with
  | send thread msg =>
    have hpending : pendingSends s = (thread, msg) :: rest.filterMap Posted.send? := by
      simp [pendingSends, hposted, Posted.send?]
    unfold Ordered at h
    rw [hpending] at h
    simp only [runPosted]
    split
    · exact ((List.sublist_cons_self _ _).append_left (accepted s)).trans h
    · have h' : Ordered (emit (.accepted thread msg)
          { s with posted := rest, writeMsgs := s.writeMsgs ++ [msg] }) := by
        unfold Ordered
        simpa [accepted, sendsPosted, pendingSends, emit, Event.accepted?, Event.sendPosted?,
          List.filterMap_cons] using h
      split
      · exact h'
      · exact h'.doWrite
  | close session =>
    have hpending : pendingSends s = rest.filterMap Posted.send? := by
      simp [pendingSends, hposted, Posted.send?, List.filterMap_cons]
    have h' : Ordered { s with posted := rest } := by
      unfold Ordered at h
      rwa [hpending] at h
    have hq := noWrite_runClose env session { s with posted := rest }
    exact h'.same hq.accepted hq.posts

theorem step_ordered {s s' : State} {l : Label} (h : Ordered s) (hs : step s l = some s') :
    Ordered s' := by
  have hsame : ∀ {t : State}, SameQueue s t → Ordered t := fun hq => h.same hq.accepted hq.posts
  cases l with
  | start env =>
    obtain rfl := Option.some.inj hs
    exact hsame ((noWrite_start env s).trans (noWrite_conclude _)).toSameQueue
  | stop =>
    obtain rfl := Option.some.inj hs
    exact hsame (noWrite_calls [.stop] s).toSameQueue
  | send thread msg =>
    obtain rfl := Option.some.inj hs
    exact hsame (noWrite_calls [.send thread msg] s).toSameQueue
  | setMessageCallback set | setStatusCallback set =>
    obtain rfl := Option.some.inj hs
    exact h
  | complete i out => exact hsame (sameQueue_complete hs)
  | runPosted env =>
    obtain ⟨c, rest, hposted, rfl⟩ := step_runPosted hs
    exact ordered_runPosted h hposted env
  | runOp i env =>
    obtain ⟨l, t, res, r, -, rfl⟩ := step_runOp hs
    have h' : Ordered { s with ops := l ++ r } := h
    cases hk : t.kind.writes? with
    | some msg =>
      unfold runHandler
      split <;> simp_all only [Kind.writes?, reduceCtorEq]
      exact h'.writeResume env t _ _ res
    | none =>
      have hq := (noWrite_runHandler env hk res { s with ops := l ++ r }).trans
        (noWrite_conclude _)
      exact h'.same hq.accepted hq.posts

theorem run_ordered {ok : State → Label → Prop} {ls : List Label} {s : State}
    (h : Run step ok init ls s) : Ordered s :=
  h.invariant (List.Sublist.refl _) fun _ _ _ h _ hs => step_ordered h hs

/-! ## First in, first out -/

/-- One write at a time, of the front message; the messages written are the first accepted, in
that order, and those of one thread are in the order that thread sent them. -/
structure FifoQueue (s : State) : Prop where
  single : (writers s).length ≤ 1
  front : ∀ msg ∈ writers s, s.writeMsgs.head? = some msg
  order : started s <+: (accepted s).map Prod.snd
  threads : ∀ thread : ℕ,
    (((accepted s).take (started s).length).filter (·.1 == thread)).Sublist
      ((sendsPosted s).filter (·.1 == thread))

theorem fifoQueue_of_tracks {o : Outbox Bytes} {s : State} (h : Tracks o s) (ho : Ordered s) :
    FifoQueue s := by
  refine ⟨?_, ?_, ?_, ?_⟩
  · rw [h.writers]
    exact o.writers_length_le
  · intro msg hmsg
    rw [h.writers] at hmsg
    rw [h.queue]
    exact Outbox.head?_queue hmsg
  · rw [h.started, h.accepted]
    exact o.started_isPrefix
  · intro thread
    have hacc : (accepted s).Sublist (sendsPosted s) :=
      (List.sublist_append_left _ _).trans ho
    exact ((List.take_sublist _ _).trans hacc).filter _

/-- The front message leaves the queue only when its own write has succeeded. -/
theorem Moves.writeMsgs {o o' : Outbox Bytes} {s s' : State} {l : Label} (h : Tracks o s)
    (h' : Tracks o' s') (hm : Moves s l o o') :
    s.writeMsgs <+: s'.writeMsgs ∨
      (writeSucceeds s l = true ∧ s'.writeMsgs = s.writeMsgs.tail) := by
  rw [h.queue, h'.queue]
  cases hm with
  | stay => exact Or.inl List.prefix_rfl
  | push msg =>
    left
    cases o <;> simp [Outbox.push, Outbox.queue]
  | finish hok =>
    cases o with
    | busy sent front rest =>
      right
      cases rest <;> exact ⟨hok, rfl⟩
    | idle | stuck => exact Or.inl List.prefix_rfl
  | drop =>
    left
    cases o <;> exact List.prefix_rfl

/-- **First in, first out.** In every reachable state the queue has a single writer, of its
front message, and the messages are written in the order of acceptance; a step removes the front
message only by running the handler of its own successful write. -/
theorem write_queue_fifo (ls : List Label) (s : State) (h : Run step Any init ls s) :
    FifoQueue s ∧ ∀ l s', step s l = some s' →
      s.writeMsgs <+: s'.writeMsgs ∨
        (writeSucceeds s l = true ∧ s'.writeMsgs = s.writeMsgs.tail) := by
  obtain ⟨o, ht⟩ := run_tracks h
  refine ⟨fifoQueue_of_tracks ht (run_ordered h), ?_⟩
  intro l s' hs
  obtain ⟨o', ht', hm⟩ := step_tracks ht hs
  exact hm.writeMsgs ht ht'

/-- Two threads send; the first message has been written and the second is half written. -/
def twoSends : List Label :=
  [.start {}, .send 0 [97], .send 1 [98, 99], .complete 0 .connected, .runOp 0 {}, .runPosted {},
    .runPosted {}, .complete 1 (.wrote 1), .runOp 1 {}, .complete 1 (.wrote 1), .runOp 1 {}]

theorem write_queue_fifo_twoSends :
    writers (reached step Any init twoSends) = [[98, 99]] ∧
      FifoQueue (reached step Any init twoSends) :=
  ⟨by decide, (write_queue_fifo twoSends _ (run_reached (by decide))).1⟩

/-! ## Whether the queue is served -/

/-- On a live connection, with no reconnection under way, a message waits only behind the one
that is being written. -/
def QueueServed (s : State) : Prop :=
  s.stopped = false → linked s = true → waitArmed s = false → s.writeMsgs ≠ [] →
    writers s = s.writeMsgs.head?.toList

instance : DecidablePred QueueServed := fun s => by unfold QueueServed; infer_instance

theorem queueServed_of_tracks {o : Outbox Bytes} {s : State} (h : Tracks o s) (ho : ¬ o.IsStuck) :
    QueueServed s := by
  intro _ _ _ hq
  rw [h.queue] at hq
  rw [h.writers, h.queue]
  exact Outbox.writers_of_queue ho hq

theorem Moves.isStuck {o o' : Outbox Bytes} {s : State} {l : Label} (hm : Moves s l o o')
    (ho : o.IsStuck) : o'.IsStuck := by
  cases hm with
  | stay => exact ho
  | push msg => exact ho.push msg
  | finish => exact Outbox.isStuck_finish.mpr ho
  | drop =>
    cases o with
    | stuck => trivial
    | idle | busy => exact ho.elim

theorem Moves.not_isStuck {o o' : Outbox Bytes} {s : State} {l : Label} (hm : Moves s l o o')
    (hd : dropsWrite s l = false) (ho : ¬ o.IsStuck) : ¬ o'.IsStuck := by
  cases hm with
  | stay => exact ho
  | push msg => rwa [Outbox.isStuck_push]
  | finish => rwa [Outbox.isStuck_finish]
  | drop _ hdrop => exact absurd hd (by simp [hdrop])

/-- A step that drops a write leaves a message in the queue with nobody to write it. -/
theorem isStuck_of_dropsWrite {o o' : Outbox Bytes} {s s' : State} {l : Label}
    (h : Tracks o s) (hm : Moves s l o o') (hd : dropsWrite s l = true) (hs : step s l = some s') :
    o'.IsStuck := by
  cases hm with
  | stay _ hno => exact absurd hd (by simp [hno])
  | push _ _ hno => exact absurd hd (by simp [hno])
  | finish _ hno => exact absurd hd (by simp [hno])
  | drop =>
    cases l with
    | runOp i env =>
      obtain ⟨l, t, res, r, hp, -⟩ := step_runOp hs
      unfold dropsWrite at hd
      rw [ran?_runOp hp] at hd
      obtain ⟨kind, sock, session⟩ := t
      cases kind with
      | write msg sent =>
        obtain ⟨done, rest, rfl, -⟩ := tracks_busy h (pick_eq_some hp) rfl
        trivial
      | connect rest | read | wait => exact absurd hd (by simp)
    | start env | stop | send thread msg | setMessageCallback set | setStatusCallback set
    | complete i out | runPosted env => exact absurd hd (by simp [dropsWrite, ran?])

theorem run_isStuck {ok : State → Label → Prop} {ls : List Label} {s t : State}
    (h : Run step ok s ls t) (hs : ∃ o, Tracks o s ∧ o.IsStuck) : ∃ o, Tracks o t ∧ o.IsStuck := by
  apply h.invariant (I := fun s => ∃ o, Tracks o s ∧ o.IsStuck) hs
  rintro s l s' ⟨o, ht, ho⟩ - hst
  obtain ⟨o', ht', hm⟩ := step_tracks ht hst
  exact ⟨o', ht', hm.isStuck ho⟩

theorem run_not_isStuck {ls : List Label} {s : State}
    (h : Run step (fun s l => dropsWrite s l = false) init ls s) :
    ∃ o, Tracks o s ∧ ¬ o.IsStuck := by
  apply h.invariant (I := fun s => ∃ o, Tracks o s ∧ ¬ o.IsStuck) ⟨_, tracks_init, id⟩
  rintro s l s' ⟨o, ht, ho⟩ hd hst
  obtain ⟨o', ht', hm⟩ := step_tracks ht hst
  exact ⟨o', ht', hm.not_isStuck hd ho⟩

/-- **The queue is served until a write is dropped.** While no step runs the handler of a write
that has failed, or of any finished write with `stopped_` set, the queue is served. After the
first such step, whatever happens, the queue is never empty again and is never written from. -/
theorem queue_served_unless_dropped (ls : List Label) (s : State)
    (h : Run step (fun s l => dropsWrite s l = false) init ls s) :
    QueueServed s ∧
      ∀ l s', dropsWrite s l = true → step s l = some s' →
        ∀ ls' t, Run step Any s' ls' t → t.writeMsgs ≠ [] ∧ writers t = [] := by
  obtain ⟨o, ht, ho⟩ := run_not_isStuck h
  refine ⟨queueServed_of_tracks ht ho, ?_⟩
  intro l s' hd hst ls' t hrun
  obtain ⟨o', ht', hm⟩ := step_tracks ht hst
  obtain ⟨u, hu, hstuck⟩ := run_isStuck hrun ⟨o', ht', isStuck_of_dropsWrite ht hm hd hst⟩
  rw [hu.queue, hu.writers]
  exact u.isStuck_iff.mp hstuck

/-- A message is queued behind the one being written on a live connection. -/
theorem queue_served_unless_dropped_twoQueued :
    writers (reached step (fun s l => dropsWrite s l = false) init
      [.start {}, .complete 0 .connected, .runOp 0 {}, .send 0 [97], .send 0 [98],
        .runPosted {}, .runPosted {}]) = [[97]] :=
  (queue_served_unless_dropped _ _ (run_reached (by decide))).1
    (by decide) (by decide) (by decide) (by decide)

/-- The write of a message fails together with the read of its connection; after the
reconnection the message is still queued, and no one writes it. -/
def writeFails : List Label :=
  [.start {}, .complete 0 .connected, .runOp 0 {}, .send 0 [97], .runPosted {},
    .complete 0 (.failed .connectionReset), .complete 1 (.failed .connectionReset),
    .runOp 0 {}, .runOp 0 {}, .runOp 0 {}, .complete 0 .expired, .runOp 0 {},
    .complete 0 .connected, .runOp 0 {}]

theorem not_queue_served :
    ¬ ∀ (ls : List Label) (s : State), Run step Any init ls s → QueueServed s := by
  intro h
  exact absurd (h writeFails _ (run_reached (by decide))) (by decide)

end AsioLearn.TcpClient
