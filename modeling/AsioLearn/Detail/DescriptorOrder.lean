import AsioLearn.Detail.Descriptor

/-!
# Operations on a descriptor come to one end, in order

* `waits_only_open`: an operation waits only while its socket is open; what the pool gets back has
  no operations.
* `ended_in_order`: an operation that has been started waits, or it has been completed or abandoned,
  and that once. The operations of one type that are not aborted are completed in the order in which
  they were started.
-/

namespace AsioLearn.Detail.Descriptor

open Lts

/-! ## What the functions do -/

section

variable {type : OpType} {allowSpeculative : Bool} {attempt : Attempt} {ctl : Option ErrorCode}
  {op : ReactorOp} {s s' : State}

/-- The operation has not been performed, or `perform` says that it is not done. -/
inductive Tried (type : OpType) (attempt : Attempt) (s : State) : State → Prop
  | not (hspec : s.trySpeculative type = false) : Tried type attempt s s
  | again (hstatus : attempt.status = .notDone) :
      Tried type attempt s (setReady type (s.ready type && attempt.ready) s)

/-- What `start_op` does. -/
inductive Started (type : OpType) (allowSpeculative : Bool) (attempt : Attempt)
    (ctl : Option ErrorCode) (op : ReactorOp) (s : State) : State → Prop
  | detached (hdetached : s.attached = false) : Started type allowSpeculative attempt ctl op s
      (complete type { op with ec := some .badDescriptor } s)
  | shutdown (hattached : s.attached = true) (hshutdown : s.shutdown = true) :
      Started type allowSpeculative attempt ctl op s (complete type op s)
  | done (hempty : s.opQueue type = []) (hspec : s.trySpeculative type = true)
      (hstatus : attempt.status = .done) : Started type allowSpeculative attempt ctl op s
      (complete type { op with ec := attempt.ec }
        (setReady type (s.ready type && attempt.ready) s))
  | exhausted (hempty : s.opQueue type = []) (hstatus : attempt.status = .doneAndExhausted) :
      Started type allowSpeculative attempt ctl op s
      (complete type { op with ec := attempt.ec }
        (if s.registeredEvents = {} then setReady type (s.ready type && attempt.ready) s
        else setSpeculative type false (setReady type (s.ready type && attempt.ready) s)))
  | refused (ec : ErrorCode) {t : State} (ht : t = s ∨ Tried type attempt s t)
      (hempty : s.opQueue type = []) :
      Started type allowSpeculative attempt ctl op s (complete type { op with ec := some ec } t)
  | armed {t : State} (ht : Tried type attempt s t) (hattached : s.attached = true)
      (hopen : s.shutdown = false) (hsupported : s.registeredEvents ≠ {}) (hwrite : type = .write) :
      Started type allowSpeculative attempt ctl op s (enqueue type op (rearm (setOut t)))
  | waits {t : State} (ht : Tried type attempt s t) (hattached : s.attached = true)
      (hopen : s.shutdown = false) (hsupported : s.registeredEvents ≠ {})
      (hout : type = .write → s.registeredEvents.epollOut = true) :
      Started type allowSpeculative attempt ctl op s (enqueue type op t)
  | unasked {t : State} (ht : t = if type = .write then setOut s else s)
      (hno : ¬ (allowSpeculative = true ∧ (type ≠ .read ∨ s.opQueue .except = [])))
      (hattached : s.attached = true) (hopen : s.shutdown = false)
      (hsupported : s.registeredEvents ≠ {}) : Started type allowSpeculative attempt ctl op s
      (enqueue type op (if ctl = none then rearm t else t))
  | behind (hqueue : s.opQueue type ≠ []) :
      Started type allowSpeculative attempt ctl op s (enqueue type op s)

theorem started_pending {t : State} (ht : Tried type attempt s t) (hattached : s.attached = true)
    (hopen : s.shutdown = false) (hempty : s.opQueue type = []) :
    Started type allowSpeculative attempt ctl op s (startPending type ctl op t) := by
  have hevents : t.registeredEvents = s.registeredEvents := by cases ht <;> rfl
  unfold startPending
  rw [hevents]
  split_ifs with hnone hwrite
  · exact .refused _ (Or.inr ht) hempty
  · cases ctl with
    | none => exact .armed ht hattached hopen hnone hwrite.1
    | some ec => exact .refused ec (Or.inr ht) hempty
  · refine .waits ht hattached hopen hnone ?_
    intro htype
    by_contra hout
    exact hwrite ⟨htype, by simpa using hout⟩

theorem startOp_cases : Started type allowSpeculative attempt ctl op s
    (startOp type allowSpeculative attempt ctl op s) := by
  unfold startOp
  by_cases hdetached : s.attached = false
  · rw [if_pos (by simp [hdetached])]
    exact .detached hdetached
  have hattached : s.attached = true := by simpa using hdetached
  rw [if_neg (by simp [hattached])]
  by_cases hshutdown : s.shutdown = true
  · rw [if_pos hshutdown]
    exact .shutdown hattached hshutdown
  have hopen : s.shutdown = false := by simpa using hshutdown
  rw [if_neg hshutdown]
  by_cases hempty : s.opQueue type = []
  · rw [if_pos hempty]
    by_cases hallowed : allowSpeculative = true ∧ (type ≠ .read ∨ s.opQueue .except = [])
    · rw [if_pos hallowed]
      split_ifs with hspec
      · dsimp only
        split
        · rename_i hstatus
          exact started_pending (.again hstatus) hattached hopen hempty
        · rename_i hstatus
          exact .done hempty hspec hstatus
        · rename_i hstatus
          exact .exhausted hempty hstatus
      · exact started_pending (.not (by simpa using hspec)) hattached hopen hempty
    · rw [if_neg hallowed]
      by_cases hnone : s.registeredEvents = {}
      · rw [if_pos hnone]
        exact .refused _ (Or.inl rfl) hempty
      · rw [if_neg hnone]
        exact .unasked rfl hallowed hattached hopen hnone
  · rw [if_neg hempty]
    exact .behind hempty

/-- The operations that are finished are the first ones of the queue. -/
theorem performOps_spec {ops : List ReactorOp} {attempts : List Attempt} {ready : Bool}
    {p : Performed} (h : performOps ops attempts ready = some p) :
    ∃ taken, ops = taken ++ p.left ∧ p.finished.map ReactorOp.id = taken.map ReactorOp.id := by
  induction ops, attempts, ready using performOps.induct generalizing p with
  | case1 attempts ready =>
    obtain rfl := Option.some.inj h
    exact ⟨[], rfl, rfl⟩
  | case2 op ops ready => exact absurd h (by simp [performOps])
  | case3 op ops a attempts ready hstatus =>
    simp only [performOps, hstatus, Option.some.injEq] at h
    obtain rfl := h
    exact ⟨[], rfl, rfl⟩
  | case4 op ops a attempts ready hstatus ih =>
    simp only [performOps, hstatus, Option.map_eq_some_iff] at h
    obtain ⟨p', hp', rfl⟩ := h
    obtain ⟨taken, hops, hids⟩ := ih hp'
    refine ⟨op :: taken, ?_, ?_⟩
    · rw [hops]
      rfl
    · rw [List.map_cons, List.map_cons, hids]
  | case5 op ops a attempts ready hstatus =>
    simp only [performOps, hstatus, Option.some.injEq] at h
    obtain rfl := h
    exact ⟨[op], rfl, rfl⟩

/-- What holds before and is kept by each turn of the outer loop holds after `perform_io`. -/
theorem performIo_induct {I : State → Prop} {events : Events} {attempts : OpType → List Attempt}
    (h : performIo events attempts s = some s') (hs : I s)
    (hturn : ∀ j t t', I t → performType events attempts j t = some t' → I t') : I s' := by
  unfold performIo at h
  obtain ⟨t, ht, h⟩ := Option.bind_eq_some_iff.mp h
  obtain ⟨u, hu, h⟩ := Option.bind_eq_some_iff.mp h
  exact hturn _ _ _ (hturn _ _ _ (hturn _ _ _ hs ht) hu) h

end

/-! ## Waiting only while the socket is open -/

/-- What holds of the descriptor state in every state reached. -/
structure Open (s : State) : Prop where
  /-- An operation waits only here. -/
  waits : ∀ j, s.opQueue j ≠ [] → s.attached = true ∧ s.shutdown = false
  asked : ∀ j, s.opQueue j ≠ [] → s.registeredEvents.has j = true
  attached : s.attached = true → s.shutdown = false → s.live = true
  /-- The socket owns what it is going to give back, and nothing else is owned. -/
  closing : s.closing = true → s.live = true ∧ s.shutdown = true
  closed : s.live = true → s.shutdown = true → s.closing = true
  live : s.live = true → s.attached = true
  given : s.attached = true → s.live = false → s.reactorShutdown = true
  down : s.reactorShutdown = true → s.live = false
  registered : s.attached = true → s.shutdown = false →
    (s.inEpoll = true ∧ s.registeredEvents.epollIn = true ∧ s.registeredEvents.epollPri = true) ∨
      s.registeredEvents = {}

theorem open_initial : Open initial where
  waits := fun _ h => absurd rfl h
  asked := fun _ h => absurd rfl h
  attached := by simp [initial]
  closing := by simp [initial]
  closed := by simp [initial]
  live := by simp [initial]
  given := by simp [initial]
  down := by simp [initial]
  registered := by simp [initial]

section

variable {type : OpType} {allowSpeculative : Bool} {attempt : Attempt} {ctl : Option ErrorCode}
  {op : ReactorOp} {s s' : State}

/-- No other operation waits, and the descriptor state is as it was. -/
theorem Open.less (h : Open s) (hattached : s'.attached = s.attached) (hlive : s'.live = s.live)
    (hshutdown : s'.shutdown = s.shutdown) (hclosing : s'.closing = s.closing)
    (hreactor : s'.reactorShutdown = s.reactorShutdown) (hepoll : s'.inEpoll = s.inEpoll)
    (hevents : s'.registeredEvents = s.registeredEvents)
    (hqueue : ∀ j, s'.opQueue j ≠ [] → s.opQueue j ≠ []) : Open s' where
  waits := by
    rw [hattached, hshutdown]
    exact fun j hj => h.waits j (hqueue j hj)
  asked := by
    rw [hevents]
    exact fun j hj => h.asked j (hqueue j hj)
  attached := by
    rw [hattached, hshutdown, hlive]
    exact h.attached
  closing := by
    rw [hclosing, hlive, hshutdown]
    exact h.closing
  closed := by
    rw [hclosing, hlive, hshutdown]
    exact h.closed
  live := by
    rw [hattached, hlive]
    exact h.live
  given := by
    rw [hattached, hlive, hreactor]
    exact h.given
  down := by
    rw [hreactor, hlive]
    exact h.down
  registered := by
    rw [hattached, hshutdown, hepoll, hevents]
    exact h.registered

theorem Open.tried {t : State} (h : Open s) (ht : Tried type attempt s t) : Open t := by
  cases ht with
  | not _ => exact h
  | again _ => exact h.less rfl rfl rfl rfl rfl rfl rfl fun _ => id

theorem Open.asks (h : Open s) (hattached : s.attached = true) (hopen : s.shutdown = false)
    (hsupported : s.registeredEvents ≠ {})
    (hout : type = .write → s.registeredEvents.epollOut = true) :
    s.registeredEvents.has type = true := by
  rcases h.registered hattached hopen with ⟨-, hin, hpri⟩ | hnone
  · cases type with
    | read => exact hin
    | write => exact hout rfl
    | except => exact hpri
  · exact absurd hnone hsupported

theorem Open.setOut (h : Open s) (hattached : s.attached = true) (hopen : s.shutdown = false)
    (hsupported : s.registeredEvents ≠ {}) : Open (setOut s) where
  waits := h.waits
  asked := by
    intro j hj
    have hasked := h.asked j hj
    cases j with
    | write => rfl
    | _ => exact hasked
  attached := h.attached
  closing := h.closing
  closed := h.closed
  live := h.live
  given := h.given
  down := h.down
  registered := by
    intro _ _
    rcases h.registered hattached hopen with hin | hnone
    · exact Or.inl hin
    · exact absurd hnone hsupported

theorem Open.enqueue (h : Open s) (hattached : s.attached = true) (hopen : s.shutdown = false)
    (hasked : s.registeredEvents.has type = true) : Open (enqueue type op s) where
  waits := fun _ _ => ⟨hattached, hopen⟩
  asked := by
    intro j hj
    by_cases htype : j = type
    · rw [htype]
      exact hasked
    · refine h.asked j ?_
      rwa [show (Descriptor.enqueue type op s).opQueue j = s.opQueue j from
        Function.update_of_ne htype _ _] at hj
  attached := h.attached
  closing := h.closing
  closed := h.closed
  live := h.live
  given := h.given
  down := h.down
  registered := h.registered

theorem Open.complete (h : Open s) : Open (complete type op s) :=
  h.less rfl rfl rfl rfl rfl rfl rfl fun _ => id

theorem Open.started (h : Open s) (hs : Started type allowSpeculative attempt ctl op s s') :
    Open s' := by
  have hready : ∀ ready, Open (setReady type ready s) :=
    fun _ => h.less rfl rfl rfl rfl rfl rfl rfl fun _ => id
  cases hs with
  | detached hdetached => exact h.complete
  | shutdown hattached hshutdown => exact h.complete
  | done hempty hspec hstatus => exact (hready _).complete
  | exhausted hempty hstatus =>
    split_ifs
    · exact (hready _).complete
    · exact Open.complete (h.less rfl rfl rfl rfl rfl rfl rfl fun _ => id)
  | refused ec ht hempty =>
    rcases ht with rfl | ht
    · exact h.complete
    · exact (h.tried ht).complete
  | armed ht hattached hopen hsupported hwrite =>
    have htried := h.tried ht
    cases ht with
    | not _ =>
      refine Open.enqueue ((htried.setOut hattached hopen hsupported).less rfl rfl rfl rfl rfl rfl
        rfl fun _ => id) hattached hopen ?_
      rw [hwrite]
      rfl
    | again _ =>
      refine Open.enqueue ((htried.setOut hattached hopen hsupported).less rfl rfl rfl rfl rfl rfl
        rfl fun _ => id) hattached hopen ?_
      rw [hwrite]
      rfl
  | waits ht hattached hopen hsupported hout =>
    have htried := h.tried ht
    have hasked := h.asks hattached hopen hsupported hout
    cases ht with
    | not _ => exact htried.enqueue hattached hopen hasked
    | again _ => exact htried.enqueue hattached hopen hasked
  | unasked ht hno hattached hopen hsupported =>
    subst ht
    by_cases htype : type = .write
    · rw [if_pos htype]
      have hset := h.setOut hattached hopen hsupported
      have hasked : (Descriptor.setOut s).registeredEvents.has type = true := by
        rw [htype]
        rfl
      split_ifs
      · exact Open.enqueue (hset.less rfl rfl rfl rfl rfl rfl rfl fun _ => id) hattached hopen
          hasked
      · exact hset.enqueue hattached hopen hasked
    · rw [if_neg htype]
      have hasked := h.asks hattached hopen hsupported fun hwrite => absurd hwrite htype
      split_ifs
      · exact Open.enqueue (h.less rfl rfl rfl rfl rfl rfl rfl fun _ => id) hattached hopen hasked
      · exact h.enqueue hattached hopen hasked
  | behind hqueue =>
    obtain ⟨hattached, hopen⟩ := h.waits _ hqueue
    exact h.enqueue hattached hopen (h.asked _ hqueue)

/-- One turn of the outer loop of `perform_io`. -/
theorem performType_cases {events : Events} {attempts : OpType → List Attempt}
    (h : performType events attempts type s = some s') : (events.concern type = false ∧ s' = s) ∨
    (events.concern type = true ∧
      ∃ p, performOps (s.opQueue type) (attempts type) (s.ready type) = some p ∧
        s' = { s with
          opQueue := Function.update s.opQueue type p.left
          trySpeculative := Function.update s.trySpeculative type (!p.exhausted)
          ready := Function.update s.ready type p.ready
          completed := s.completed ++ p.finished.map fun op => { type := type, op := op } }) := by
  unfold performType at h
  split_ifs at h with hconcern
  · obtain ⟨p, hp, rfl⟩ := Option.map_eq_some_iff.mp h
    exact Or.inr ⟨hconcern, p, hp, rfl⟩
  · obtain rfl := Option.some.inj h
    exact Or.inl ⟨by simpa using hconcern, rfl⟩

theorem Open.performType {events : Events} {attempts : OpType → List Attempt} (h : Open s)
    (hs : performType events attempts type s = some s') : Open s' := by
  rcases performType_cases hs with ⟨-, rfl⟩ | ⟨-, p, hp, rfl⟩
  · exact h
  · obtain ⟨taken, hqueue, -⟩ := performOps_spec hp
    refine h.less rfl rfl rfl rfl rfl rfl rfl ?_
    intro j hj
    dsimp only at hj
    by_cases htype : j = type
    · subst htype
      rw [Function.update_self] at hj
      rw [hqueue]
      simp [hj]
    · rwa [Function.update_of_ne htype] at hj

theorem Open.abortAll (h : Open s) : Open (abortAll s) :=
  h.less rfl rfl rfl rfl rfl rfl rfl fun _ hj => absurd rfl hj

theorem Open.step (h : Open s) {l : Label} (hs : step s l = some s') : Open s' := by
  cases l with
  | register ready supported =>
    simp only [Descriptor.step] at hs
    split_ifs at hs with hno
    obtain rfl := Option.some.inj hs
    have hdetached : s.attached = false := by
      by_contra hattached
      exact hno (Or.inl (by simpa using hattached))
    have hnone : ∀ j, s.opQueue j = [] := by
      intro j
      by_contra hj
      exact absurd ((h.waits j hj).1.symm.trans hdetached) (by simp)
    refine ⟨fun j hj => absurd (hnone j) hj, fun j hj => absurd (hnone j) hj, fun _ _ => rfl, ?_,
      fun _ => by simp [register], fun _ => rfl, fun _ => by simp [register], ?_, ?_⟩
    · intro hclosing
      exact absurd ((h.live (h.closing hclosing).1).symm.trans hdetached) (by simp)
    · intro hdown
      exact absurd (Or.inr hdown) hno
    · intro _ _
      cases supported with
      | true => exact Or.inl ⟨rfl, rfl, rfl⟩
      | false => exact Or.inr rfl
  | startOp type key allow attempt ctl =>
    simp only [Descriptor.step] at hs
    split_ifs at hs
    obtain rfl := Option.some.inj hs
    exact Open.less (h.started startOp_cases) rfl rfl rfl rfl rfl rfl rfl fun _ => id
  | cancelOps =>
    simp only [Descriptor.step, cancelOps] at hs
    split_ifs at hs
    · obtain rfl := Option.some.inj hs
      exact h.abortAll
    · obtain rfl := Option.some.inj hs
      exact h
  | cancelOpsByKey type key =>
    simp only [Descriptor.step, cancelOpsByKey] at hs
    split_ifs at hs
    · obtain rfl := Option.some.inj hs
      refine h.less rfl rfl rfl rfl rfl rfl rfl ?_
      intro j hj
      dsimp only at hj
      by_cases htype : j = type
      · subst htype
        rw [Function.update_self] at hj
        intro hnil
        rw [hnil] at hj
        exact hj rfl
      · rwa [Function.update_of_ne htype] at hj
    · obtain rfl := Option.some.inj hs
      exact h
  | deregister closing =>
    simp only [Descriptor.step, deregister] at hs
    split_ifs at hs with hnot hdetached hshutdown
    · obtain rfl := Option.some.inj hs
      exact h
    · obtain rfl := Option.some.inj hs
      have hlive : s.live = false := by
        by_contra hlive
        exact hnot (h.closed (by simpa using hlive) hshutdown)
      refine ⟨fun j hj => ?_, h.asked, by simp, h.closing, h.closed, ?_, by simp, h.down,
        by simp⟩
      · exact absurd ((h.waits j hj).2.symm.trans hshutdown) (by simp)
      · intro habsurd
        exact absurd (hlive.symm.trans habsurd) (by simp)
    · obtain rfl := Option.some.inj hs
      have hattached : s.attached = true := by simpa using hdetached
      have hopen : s.shutdown = false := by simpa using hshutdown
      have hlive := h.attached hattached hopen
      exact ⟨fun _ hj => absurd rfl hj, fun _ hj => absurd rfl hj, by simp, fun _ => ⟨hlive, rfl⟩,
        fun _ _ => rfl, fun _ => hattached, h.given, h.down, by simp⟩
  | cleanup =>
    simp only [Descriptor.step] at hs
    split_ifs at hs with hclosing
    obtain rfl := Option.some.inj hs
    have hshutdown := (h.closing hclosing).2
    refine ⟨fun j hj => ?_, h.asked, by simp [cleanup], by simp [cleanup], by simp [cleanup],
      by simp [cleanup], by simp [cleanup], fun _ => rfl, by simp [cleanup]⟩
    exact absurd ((h.waits j hj).2.symm.trans hshutdown) (by simp)
  | shutdown =>
    simp only [Descriptor.step, shutdownReactor] at hs
    split_ifs at hs with hnot hlive
    · obtain rfl := Option.some.inj hs
      refine ⟨fun _ hj => absurd rfl hj, fun _ hj => absurd rfl hj, by simp, ?_, by simp, by simp,
        fun _ _ => rfl, fun _ => rfl, by simp⟩
      intro hclosing
      exact absurd (Or.inl hclosing) hnot
    · obtain rfl := Option.some.inj hs
      exact ⟨h.waits, h.asked, h.attached, h.closing, h.closed, h.live, fun _ _ => rfl,
        fun _ => by simpa using hlive, h.registered⟩
  | epollWait events =>
    simp only [Descriptor.step] at hs
    split_ifs at hs
    obtain rfl := Option.some.inj hs
    exact h.less rfl rfl rfl rfl rfl rfl rfl fun _ => id
  | dequeue =>
    simp only [Descriptor.step] at hs
    split at hs
    · obtain rfl := Option.some.inj hs
      exact h.less rfl rfl rfl rfl rfl rfl rfl fun _ => id
    · exact absurd hs (by simp)
  | performIo i attempts =>
    simp only [Descriptor.step] at hs
    split at hs
    · refine performIo_induct hs ?_ fun j t t' ht hturn => ht.performType hturn
      exact h.less rfl rfl rfl rfl rfl rfl rfl fun _ => id
    · exact absurd hs (by simp)
  | _ =>
    obtain rfl := Option.some.inj hs
    exact h.less rfl rfl rfl rfl rfl rfl rfl fun _ => id

end

/-- `epoll` has what it has been asked for. -/
theorem Open.inEpoll {j : OpType} {s : State} (h : Open s) (hattached : s.attached = true)
    (hopen : s.shutdown = false) (hasked : s.registeredEvents.has j = true) :
    s.inEpoll = true := by
  rcases h.registered hattached hopen with ⟨hepoll, -⟩ | hnone
  · exact hepoll
  · rw [hnone] at hasked
    cases j <;> exact absurd hasked (by simp [Events.has])

theorem open_of_run {ls : List Label} {s : State} (h : Run step Any initial ls s) : Open s :=
  h.invariant open_initial fun _ _ _ hI _ hs => hI.step hs

/-- **Open sockets.** An operation waits only on a socket that has not been deregistered, in the
queue of a type that `epoll` has been asked for. What `cleanup_descriptor_data` gives back to the
pool is not in it, and until the reactor is shut down every descriptor state in use is that of a
socket, and that of a socket is in use. -/
theorem waits_only_open {ls : List Label} {s : State} (h : Run step Any initial ls s) :
    (∀ j, s.opQueue j ≠ [] → s.attached = true ∧ s.shutdown = false ∧ s.inEpoll = true ∧
      s.registeredEvents.has j = true) ∧
    (s.closing = true → s.live = true) ∧
    (s.reactorShutdown = false → (s.live = true ↔ s.attached = true)) := by
  have hopen := open_of_run h
  refine ⟨?_, fun hclosing => (hopen.closing hclosing).1, ?_⟩
  · intro j hj
    obtain ⟨hattached, hshutdown⟩ := hopen.waits j hj
    have hasked := hopen.asked j hj
    exact ⟨hattached, hshutdown, hopen.inEpoll hattached hshutdown hasked, hasked⟩
  · intro hreactor
    refine ⟨hopen.live, ?_⟩
    intro hattached
    by_contra hlive
    exact absurd ((hopen.given hattached (by simpa using hlive)).symm.trans hreactor) (by simp)

/-- Two reads wait, and one of them is completed; the socket is closed, and its descriptor state is
used again while events are still on their way. -/
def someRun : List Label :=
  let nothing : Attempt := { status := .notDone }
  let finished : Attempt := { status := .done, ready := true }
  [.register (fun j => j = .write) true, .startOp .read 0 true nothing none,
    .startOp .read 7 true nothing none, .startOp .write 0 true finished none,
    .arrive { epollIn := true }, .epollWait { epollIn := true, epollOut := true }, .dequeue,
    .performIo 0 fun _ => [finished, nothing], .arrive { epollIn := true },
    .epollWait { epollIn := true }, .deregister true, .cleanup, .register (fun _ => false) true,
    .startOp .read 0 true nothing none, .dequeue, .performIo 0 fun _ => [nothing]]

theorem waits_only_open_someRun :
    let s := reached step Any initial someRun
    (∀ j, s.opQueue j ≠ [] → s.attached = true ∧ s.shutdown = false ∧ s.inEpoll = true ∧
      s.registeredEvents.has j = true) ∧
    (s.closing = true → s.live = true) ∧
    (s.reactorShutdown = false → (s.live = true ↔ s.attached = true)) :=
  waits_only_open (run_reached (by decide +kernel))

/-! ## Once, and in order -/

def ids (ops : List ReactorOp) : List ℕ := ops.map ReactorOp.id

/-- The operations that have come to their end. -/
def ended (s : State) : List ℕ := s.completed.map (fun e => e.op.id) ++ ids s.abandoned

/-- The operations of a type that have been completed and not aborted. -/
def passed (j : OpType) (s : State) : List ℕ :=
  (s.completed.filter fun e => e.type = j && !e.aborted).map fun e => e.op.id

/-- Every operation is at one place, and those of a type have not overtaken each other. -/
structure Ledger (s : State) : Prop where
  once : ∀ id, (ended s).count id + ∑ j, (ids (s.opQueue j)).count id =
    if id < s.nextId then 1 else 0
  order : ∀ j, (passed j s ++ ids (s.opQueue j)).Pairwise (· < ·)

theorem ledger_initial : Ledger initial where
  once := by simp [ended, ids, initial]
  order := by simp [passed, ids, initial]

theorem sum_opType (f : OpType → ℕ) : ∑ j, f j = f .read + (f .write + f .except) := by
  rw [show (Finset.univ : Finset OpType) = {.read, .write, .except} from rfl]
  simp

/-- A sum over the queues, when one of them is another one. -/
theorem sum_update (f : List ReactorOp → ℕ) (q : OpType → List ReactorOp) (type : OpType)
    (ops : List ReactorOp) :
    ∑ j, f (Function.update q type ops j) + f (q type) = ∑ j, f (q j) + f ops := by
  rw [sum_opType, sum_opType]
  cases type <;> simp [Function.update] <;> omega

section

variable {type : OpType} {allowSpeculative : Bool} {attempt : Attempt} {ctl : Option ErrorCode}
  {op : ReactorOp} {s s' : State}

/-- Nothing has happened to the operations. -/
structure SameOps (s s' : State) : Prop where
  queue : s'.opQueue = s.opQueue
  completed : s'.completed = s.completed
  abandoned : s'.abandoned = s.abandoned
  next : s'.nextId = s.nextId

theorem Ledger.same (h : Ledger s) (hs : SameOps s s') : Ledger s' := by
  obtain ⟨hqueue, hcompleted, habandoned, hnext⟩ := hs
  refine ⟨?_, ?_⟩
  · unfold ended
    rw [hqueue, hcompleted, habandoned, hnext]
    exact h.once
  · unfold passed
    rw [hqueue, hcompleted]
    exact h.order

theorem Ledger.lt (h : Ledger s) {id : ℕ} (hid : id ∈ ended s ∨ ∃ j, id ∈ ids (s.opQueue j)) :
    id < s.nextId := by
  have hpos : 0 < (ended s).count id + ∑ j, (ids (s.opQueue j)).count id := by
    rcases hid with hid | ⟨j, hid⟩
    · have := List.count_pos_iff.mpr hid
      omega
    · have := List.count_pos_iff.mpr hid
      have := Finset.single_le_sum (fun j _ => Nat.zero_le ((ids (s.opQueue j)).count id))
        (Finset.mem_univ j)
      omega
  rw [h.once] at hpos
  by_contra hnot
  rw [if_neg hnot] at hpos
  exact absurd hpos (by simp)

theorem mem_ended_of_passed {id : ℕ} {j : OpType} (h : id ∈ passed j s) : id ∈ ended s := by
  obtain ⟨e, he, rfl⟩ := List.mem_map.mp h
  exact List.mem_append_left _ (List.mem_map_of_mem (List.mem_of_mem_filter he))

/-- An operation has been started and completed at once. -/
theorem Ledger.complete (h : Ledger s) (hempty : s.opQueue type = []) (hid : op.id = s.nextId) :
    Ledger { complete type op s with nextId := s.nextId + 1 } where
  once := by
    intro id
    have honce := h.once id
    have hended : ended { Descriptor.complete type op s with nextId := s.nextId + 1 } =
        s.completed.map (fun e => e.op.id) ++ [s.nextId] ++ ids s.abandoned := by
      unfold ended Descriptor.complete
      simp [hid]
    rw [hended]
    unfold ended at honce
    rw [List.count_append] at honce
    rw [List.count_append, List.count_append, List.count_singleton]
    show _ + _ + _ + ∑ j, (ids (s.opQueue j)).count id = _
    grind
  order := by
    intro j
    have horder := h.order j
    by_cases htype : type = j
    · subst htype
      have hpassed : passed type { Descriptor.complete type op s with nextId := s.nextId + 1 } =
          passed type s ++ [s.nextId] := by
        unfold passed Descriptor.complete
        simp [hid]
      show (_ ++ ids (s.opQueue type)).Pairwise (· < ·)
      rw [hpassed, hempty]
      rw [hempty] at horder
      simp only [ids, List.map_nil, List.append_nil] at horder ⊢
      refine List.pairwise_append.mpr ⟨horder, List.pairwise_singleton _ _, ?_⟩
      intro id hmem id' hmem'
      rw [List.mem_singleton.mp hmem']
      exact h.lt (Or.inl (mem_ended_of_passed hmem))
    · have hpassed : passed j { Descriptor.complete type op s with nextId := s.nextId + 1 } =
          passed j s := by
        unfold passed Descriptor.complete
        simp [htype]
      rw [hpassed]
      exact horder

/-- An operation has been started and waits. -/
theorem Ledger.enqueue (h : Ledger s) (hid : op.id = s.nextId) :
    Ledger { enqueue type op s with nextId := s.nextId + 1 } where
  once := by
    intro id
    have honce := h.once id
    have hsum := sum_update (fun ops => (ids ops).count id) s.opQueue type
      (s.opQueue type ++ [op])
    have hcount : (ids (s.opQueue type ++ [op])).count id =
        (ids (s.opQueue type)).count id + if s.nextId = id then 1 else 0 := by
      unfold ids
      rw [List.map_append, List.count_append, List.map_singleton, hid, List.count_singleton]
      simp
    rw [hcount] at hsum
    show (ended s).count id + ∑ j, (ids (Function.update s.opQueue type _ j)).count id = _
    grind
  order := by
    intro j
    have horder := h.order j
    show (passed j s ++ ids (Function.update s.opQueue type _ j)).Pairwise (· < ·)
    by_cases htype : j = type
    · subst htype
      rw [Function.update_self]
      unfold ids at horder ⊢
      rw [List.map_append, ← List.append_assoc]
      refine List.pairwise_append.mpr ⟨horder, List.pairwise_singleton _ _, ?_⟩
      intro id hmem id' hmem'
      rw [List.mem_singleton.mp hmem', hid]
      rcases List.mem_append.mp hmem with hmem | hmem
      · exact h.lt (Or.inl (mem_ended_of_passed hmem))
      · exact h.lt (Or.inr ⟨j, hmem⟩)
    · rw [Function.update_of_ne htype]
      exact horder

/-- Operations have left their queues, and those that are not aborted did so from the front. -/
theorem Ledger.leave (h : Ledger s) {es : List Ended} {ops : List ReactorOp}
    (hcompleted : s'.completed = s.completed ++ es) (habandoned : s'.abandoned = s.abandoned ++ ops)
    (hnext : s'.nextId = s.nextId)
    (hcount : ∀ id, (es.map fun e => e.op.id).count id + (ids ops).count id +
      ∑ j, (ids (s'.opQueue j)).count id = ∑ j, (ids (s.opQueue j)).count id)
    (hsublist : ∀ j, (passed j s' ++ ids (s'.opQueue j)).Sublist
      (passed j s ++ ids (s.opQueue j))) : Ledger s' where
  once := by
    intro id
    have honce := h.once id
    have hleft := hcount id
    unfold ended at honce ⊢
    unfold ids at honce hleft ⊢
    rw [hcompleted, habandoned, hnext]
    simp only [List.map_append, List.count_append] at honce ⊢
    omega
  order := fun j => (h.order j).sublist (hsublist j)

theorem ids_abort (ops : List ReactorOp) :
    (abort type ops).map (fun e => e.op.id) = ids ops := by
  unfold abort ids
  rw [List.map_map]
  rfl

theorem filter_abort (j : OpType) (ops : List ReactorOp) :
    (abort type ops).filter (fun e => e.type = j && !e.aborted) = [] := by
  refine List.filter_eq_nil_iff.mpr ?_
  intro e he
  obtain ⟨op, -, rfl⟩ := List.mem_map.mp he
  simp

theorem Ledger.abortAll (h : Ledger s) : Ledger (abortAll s) := by
  refine h.leave rfl (List.append_nil _).symm rfl ?_ ?_
  · intro id
    rw [sum_opType fun j => (ids (s.opQueue j)).count id]
    simp only [List.map_append, ids_abort, List.count_append]
    simp [Descriptor.abortAll, ids]
  · intro j
    have hpassed : passed j (Descriptor.abortAll s) = passed j s := by
      unfold passed Descriptor.abortAll
      simp [filter_abort]
    rw [hpassed]
    exact (List.nil_sublist _).append_left _

theorem Ledger.cancelOpsByKey (key : ℕ) (h : Ledger s) : Ledger (cancelOpsByKey type key s) := by
  unfold Descriptor.cancelOpsByKey
  split_ifs
  · refine h.leave rfl (List.append_nil _).symm rfl ?_ ?_
    · intro id
      have hsum := sum_update (fun ops => (ids ops).count id) s.opQueue type
        ((s.opQueue type).filter fun op => op.cancellationKey ≠ key)
      have hboth : ∀ ops : List ReactorOp, (ids ops).count id =
          (ids (ops.filter fun op => op.cancellationKey = key)).count id +
            (ids (ops.filter fun op => op.cancellationKey ≠ key)).count id := by
        intro ops
        unfold ids
        induction ops with
        | nil => rfl
        | cons op ops ih =>
          by_cases hkey : op.cancellationKey = key <;> simp [hkey, ih, List.count_cons] <;> omega
      have hqueue := hboth (s.opQueue type)
      rw [ids_abort]
      show _ + (ids []).count id + ∑ j, (ids (Function.update s.opQueue type _ j)).count id = _
      rw [show (ids []).count id = 0 from rfl]
      omega
    · intro j
      have hpassed : passed j { s with
          opQueue := Function.update s.opQueue type
            ((s.opQueue type).filter fun op => op.cancellationKey ≠ key)
          completed := s.completed ++ abort type
            ((s.opQueue type).filter fun op => op.cancellationKey = key) } = passed j s := by
        unfold passed
        rw [List.filter_append, filter_abort, List.append_nil]
      rw [hpassed]
      refine List.Sublist.append_left ?_ _
      dsimp only
      by_cases htype : j = type
      · subst htype
        rw [Function.update_self]
        exact List.filter_sublist.map _
      · rw [Function.update_of_ne htype]
  · exact h

theorem Ledger.performType {events : Events} {attempts : OpType → List Attempt} (h : Ledger s)
    (hs : performType events attempts type s = some s') : Ledger s' := by
  rcases performType_cases hs with ⟨-, rfl⟩ | ⟨-, p, hp, rfl⟩
  · exact h
  · obtain ⟨taken, hqueue, hids⟩ := performOps_spec hp
    have hfinished : (p.finished.map fun op => ({ type := type, op := op } : Ended)).map
        (fun e => e.op.id) = ids taken := by
      rw [List.map_map]
      exact hids
    refine h.leave rfl (List.append_nil _).symm rfl ?_ ?_
    · intro id
      have hsum := sum_update (fun ops => (ids ops).count id) s.opQueue type p.left
      have htaken : (ids (s.opQueue type)).count id =
          (ids taken).count id + (ids p.left).count id := by
        rw [hqueue]
        unfold ids
        rw [List.map_append, List.count_append]
      rw [hfinished]
      show _ + (ids []).count id + ∑ j, (ids (Function.update s.opQueue type _ j)).count id = _
      rw [show (ids []).count id = 0 from rfl]
      omega
    · intro j
      unfold passed
      dsimp only
      rw [List.filter_append, List.map_append]
      by_cases htype : j = type
      · subst htype
        have hall : (p.finished.map fun op => ({ type := j, op := op } : Ended)).filter
            (fun e => e.type = j && !e.aborted) = p.finished.map fun op => { type := j, op := op } :=
          List.filter_eq_self.mpr (by simp)
        rw [hall, hfinished, Function.update_self, List.append_assoc]
        refine List.Sublist.append_left ?_ _
        rw [hqueue]
        unfold ids
        rw [List.map_append]
      · have hnone : (p.finished.map fun op => ({ type := type, op := op } : Ended)).filter
            (fun e => e.type = j && !e.aborted) = [] :=
          List.filter_eq_nil_iff.mpr (by simp [Ne.symm htype])
        rw [hnone, Function.update_of_ne htype]
        simp

theorem Ledger.started (h : Ledger s) (hopen : Open s) (hid : op.id = s.nextId)
    (hs : Started type allowSpeculative attempt ctl op s s') :
    Ledger { s' with nextId := s.nextId + 1 } := by
  have htried : ∀ {t : State}, Tried type attempt s t → SameOps s t := by
    rintro t (_ | _)
    · exact ⟨rfl, rfl, rfl, rfl⟩
    · exact ⟨rfl, rfl, rfl, rfl⟩
  -- where nothing can wait, the queue is empty
  have hnone : s.attached = false ∨ s.shutdown = true → s.opQueue type = [] := by
    intro hclosed
    by_contra hqueue
    obtain ⟨hattached, hshutdown⟩ := hopen.waits type hqueue
    rcases hclosed with hdetached | hshut
    · exact absurd (hattached.symm.trans hdetached) (by simp)
    · exact absurd (hshutdown.symm.trans hshut) (by simp)
  have hends : ∀ {t : State} (ec : Option ErrorCode), SameOps s t → s.opQueue type = [] →
      Ledger { Descriptor.complete type { op with ec := ec } t with nextId := s.nextId + 1 } := by
    intro t ec ht hempty
    rw [← ht.next] at hid ⊢
    exact (h.same ht).complete (ht.queue ▸ hempty) hid
  have hwaits : ∀ {t : State}, SameOps s t →
      Ledger { Descriptor.enqueue type op t with nextId := s.nextId + 1 } := by
    intro t ht
    rw [← ht.next] at hid ⊢
    exact (h.same ht).enqueue hid
  cases hs with
  | detached hdetached => exact hends _ ⟨rfl, rfl, rfl, rfl⟩ (hnone (Or.inl hdetached))
  | shutdown hattached hshutdown => exact h.complete (hnone (Or.inr hshutdown)) hid
  | done hempty hspec hstatus => exact hends _ ⟨rfl, rfl, rfl, rfl⟩ hempty
  | exhausted hempty hstatus =>
    refine hends _ ?_ hempty
    split_ifs
    · exact ⟨rfl, rfl, rfl, rfl⟩
    · exact ⟨rfl, rfl, rfl, rfl⟩
  | refused ec ht hempty =>
    rcases ht with rfl | ht
    · exact hends _ ⟨rfl, rfl, rfl, rfl⟩ hempty
    · exact hends _ (htried ht) hempty
  | armed ht hattached hopen hsupported hwrite =>
    obtain ⟨hqueue, hcompleted, habandoned, hnext⟩ := htried ht
    exact hwaits ⟨hqueue, hcompleted, habandoned, hnext⟩
  | waits ht hattached hopen hsupported hout => exact hwaits (htried ht)
  | unasked ht hno hattached hopen hsupported =>
    subst ht
    refine hwaits ?_
    split_ifs
    · exact ⟨rfl, rfl, rfl, rfl⟩
    · exact ⟨rfl, rfl, rfl, rfl⟩
    · exact ⟨rfl, rfl, rfl, rfl⟩
    · exact ⟨rfl, rfl, rfl, rfl⟩
  | behind hqueue => exact hwaits ⟨rfl, rfl, rfl, rfl⟩

theorem Ledger.step (h : Ledger s) (hopen : Open s) {l : Label} (hs : step s l = some s') :
    Ledger s' := by
  cases l with
  | register ready supported =>
    simp only [Descriptor.step] at hs
    split_ifs at hs
    obtain rfl := Option.some.inj hs
    exact h.same ⟨rfl, rfl, rfl, rfl⟩
  | startOp type key allow attempt ctl =>
    simp only [Descriptor.step] at hs
    split_ifs at hs
    obtain rfl := Option.some.inj hs
    exact h.started hopen rfl startOp_cases
  | cancelOps =>
    simp only [Descriptor.step, cancelOps] at hs
    split_ifs at hs
    · obtain rfl := Option.some.inj hs
      exact h.abortAll
    · obtain rfl := Option.some.inj hs
      exact h
  | cancelOpsByKey type key =>
    simp only [Descriptor.step] at hs
    split_ifs at hs
    obtain rfl := Option.some.inj hs
    exact h.cancelOpsByKey key
  | deregister closing =>
    simp only [Descriptor.step, deregister] at hs
    split_ifs at hs
    · obtain rfl := Option.some.inj hs
      exact h
    · obtain rfl := Option.some.inj hs
      exact h.same ⟨rfl, rfl, rfl, rfl⟩
    · obtain rfl := Option.some.inj hs
      exact h.abortAll.same ⟨rfl, rfl, rfl, rfl⟩
  | cleanup =>
    simp only [Descriptor.step] at hs
    split_ifs at hs
    obtain rfl := Option.some.inj hs
    exact h.same ⟨rfl, rfl, rfl, rfl⟩
  | shutdown =>
    simp only [Descriptor.step, shutdownReactor] at hs
    split_ifs at hs
    · obtain rfl := Option.some.inj hs
      refine h.leave (List.append_nil _).symm rfl rfl ?_ fun j => (List.nil_sublist _).append_left _
      intro id
      rw [sum_opType fun j => (ids (s.opQueue j)).count id]
      unfold ids
      simp only [List.map_append, List.count_append]
      simp
    · obtain rfl := Option.some.inj hs
      exact h.same ⟨rfl, rfl, rfl, rfl⟩
  | epollWait events =>
    simp only [Descriptor.step] at hs
    split_ifs at hs
    obtain rfl := Option.some.inj hs
    exact h.same ⟨rfl, rfl, rfl, rfl⟩
  | dequeue =>
    simp only [Descriptor.step] at hs
    split at hs
    · obtain rfl := Option.some.inj hs
      exact h.same ⟨rfl, rfl, rfl, rfl⟩
    · exact absurd hs (by simp)
  | performIo i attempts =>
    simp only [Descriptor.step] at hs
    split at hs
    · refine performIo_induct hs ?_ fun j t t' ht hturn => ht.performType hturn
      exact h.same ⟨rfl, rfl, rfl, rfl⟩
    · exact absurd hs (by simp)
  | _ =>
    obtain rfl := Option.some.inj hs
    exact h.same ⟨rfl, rfl, rfl, rfl⟩

end

/-- **Once, and in order.** An operation that has been started waits in one queue, or it has been
completed or abandoned, and that once. The operations of one type that `perform` or `start_op` has
completed were started in this order, and before those that wait. -/
theorem ended_in_order {ls : List Label} {s : State} (h : Run step Any initial ls s) :
    (∀ id, (ended s).count id + ∑ j, (ids (s.opQueue j)).count id =
      if id < s.nextId then 1 else 0) ∧
    ∀ j, (passed j s ++ ids (s.opQueue j)).Pairwise (· < ·) := by
  obtain ⟨-, hledger⟩ := h.invariant (I := fun s => Open s ∧ Ledger s)
    ⟨open_initial, ledger_initial⟩ fun _ _ _ hI _ hs => ⟨hI.1.step hs, hI.2.step hI.1 hs⟩
  exact ⟨hledger.once, hledger.order⟩

/-- The second read has been aborted, and the one after it waits. -/
theorem ended_in_order_someRun :
    let s := reached step Any initial someRun
    (∀ id, (ended s).count id + ∑ j, (ids (s.opQueue j)).count id =
      if id < s.nextId then 1 else 0) ∧
    ∀ j, (passed j s ++ ids (s.opQueue j)).Pairwise (· < ·) :=
  ended_in_order (run_reached (by decide +kernel))

example : ((reached step Any initial someRun).completed.map fun e => (e.op.id, e.aborted)) =
    [(2, false), (0, false), (1, true)] := by decide +kernel

end AsioLearn.Detail.Descriptor
