import AsioLearn.Detail.DescriptorOrder

/-!
# No operation on a descriptor is forgotten

The reactor registers descriptors with `EPOLLET`, so that it is told once that one has become ready,
and it does not perform an operation at its start if the last one has exhausted the descriptor.

* `not_forgotten`: an operation that waits although its descriptor is ready will be looked at.
-/

namespace AsioLearn.Detail.Descriptor

open Lts

/-! ## What the reactor relies on -/

/-- A descriptor that `perform` could not use, or has exhausted, is not ready. -/
def Attempt.Truthful (a : Attempt) : Prop := a.status = .done ∨ a.ready = false

instance : DecidablePred Attempt.Truthful :=
  fun a => inferInstanceAs (Decidable (a.status = .done ∨ a.ready = false))

/-- `perform` is right about the descriptor, and `epoll_ctl` succeeds where nobody looks at its
result. -/
def Truthful (s : State) : Label → Prop
  | .startOp type _ allowSpeculative attempt ctl => attempt.Truthful ∧
      (ctl = none ∨ allowSpeculative = true ∧ (type ≠ .read ∨ s.opQueue .except = []))
  | .performIo _ attempts => ∀ j, ∀ a ∈ attempts j, a.Truthful
  | _ => True

instance : ∀ s l, Decidable (Truthful s l)
  | s, .startOp type _ allowSpeculative attempt ctl =>
    inferInstanceAs (Decidable (attempt.Truthful ∧
      (ctl = none ∨ allowSpeculative = true ∧ (type ≠ .read ∨ s.opQueue .except = []))))
  | _, .performIo _ attempts =>
    inferInstanceAs (Decidable (∀ j, ∀ a ∈ attempts j, a.Truthful))
  | _, .register _ _ | _, .cancelOps | _, .cancelOpsByKey _ _ | _, .deregister _ | _, .cleanup
  | _, .shutdown | _, .arrive _ | _, .lapse _ | _, .epollWait _ | _, .dequeue => isTrue trivial

/-! ## Events on their way -/

/-- `perform_io` is going to perform the operations of this type. -/
def OnWay (s : State) (j : OpType) : Prop :=
  s.edge j = true ∨ (∃ e, s.returned = some e ∧ e.concern j = true) ∨
    ∃ e ∈ s.performing, e.concern j = true

/-- If the descriptor is ready and an operation waits, or the next one will not be performed at its
start, then events are on their way. -/
structure Heard (j : OpType) (s : State) : Prop where
  waits : s.opQueue j ≠ [] → s.ready j = true → OnWay s j
  speculative : s.trySpeculative j = false → s.attached = true → s.shutdown = false →
    s.registeredEvents.has j = true → s.ready j = true → OnWay s j

section

variable {j type : OpType} {allowSpeculative : Bool} {attempt : Attempt} {ctl : Option ErrorCode}
  {op : ReactorOp} {s s' : State}

theorem Heard.less (h : Heard j s) (hqueue : s'.opQueue j ≠ [] → s.opQueue j ≠ [])
    (hspec : s'.trySpeculative j = s.trySpeculative j) (hattached : s'.attached = s.attached)
    (hshutdown : s'.shutdown = s.shutdown) (hevents : s'.registeredEvents = s.registeredEvents)
    (hready : s'.ready j = true → s.ready j = true)
    (hway : s'.ready j = true → OnWay s j → OnWay s' j) : Heard j s' where
  waits := fun hwaits hj => hway hj (h.waits (hqueue hwaits) (hready hj))
  speculative := by
    rw [hspec, hattached, hshutdown, hevents]
    exact fun hspec hattached hopen hhas hj =>
      hway hj (h.speculative hspec hattached hopen hhas (hready hj))

theorem Heard.setReady (h : Heard j s) (type : OpType) (ready : Bool) :
    Heard j (setReady type (s.ready type && ready) s) := by
  refine h.less id rfl rfl rfl rfl ?_ fun _ => id
  show Function.update s.ready type (s.ready type && ready) j = true → _
  by_cases htype : j = type
  · subst htype
    rw [Function.update_self, Bool.and_eq_true]
    exact And.left
  · rw [Function.update_of_ne htype]
    exact id

theorem Heard.tried {t : State} (h : Heard j s) (ht : Tried type attempt s t) : Heard j t := by
  cases ht with
  | not _ => exact h
  | again _ => exact h.setReady type _

/-- After `EPOLL_CTL_MOD`, everything that is ready and asked for is on its way. -/
theorem heard_rearm (hasked : s.opQueue j ≠ [] → s.registeredEvents.has j = true) :
    Heard j (rearm s) := by
  have hedge : s.registeredEvents.has j = true → s.ready j = true → OnWay (rearm s) j := by
    intro hhas hready
    refine Or.inl ?_
    show (s.edge j || (s.ready j && s.registeredEvents.has j)) = true
    simp [hhas, hready]
  exact ⟨fun hwaits hready => hedge (hasked hwaits) hready,
    fun _ _ _ hhas hready => hedge hhas hready⟩

/-- An operation may wait behind others, or where events are on their way if there are any. -/
theorem Heard.enqueue (h : Heard j s)
    (hnew : j = type → s.ready j = true → OnWay s j) : Heard j (enqueue type op s) where
  waits := by
    intro hwaits hready
    by_cases htype : j = type
    · exact hnew htype hready
    · refine h.waits ?_ hready
      rwa [show (Descriptor.enqueue type op s).opQueue j = s.opQueue j from
        Function.update_of_ne htype _ _] at hwaits
  speculative := h.speculative

theorem heard_enqueue_rearm {t : State} (ht : Open (enqueue type op (rearm t))) :
    Heard j (enqueue type op (rearm t)) := by
  have hrearm := heard_rearm (j := j) (s := Descriptor.enqueue type op t) fun hwaits =>
    ht.asked j hwaits
  exact ⟨hrearm.waits, hrearm.speculative⟩

theorem Heard.started (hopen : Open s) (h : Heard j s) (htruth : attempt.Truthful)
    (hctl : ctl = none ∨ allowSpeculative = true ∧ (type ≠ .read ∨ s.opQueue .except = []))
    (hs : Started type allowSpeculative attempt ctl op s s') : Heard j s' := by
  have hafter := hopen.started hs
  -- an operation that is not done leaves the descriptor unready
  have hunready : attempt.status ≠ .done → (Descriptor.setReady type
      (s.ready type && attempt.ready) s).ready type = false := by
    intro hstatus
    show Function.update s.ready type _ type = false
    rw [Function.update_self, htruth.resolve_left hstatus, Bool.and_false]
  cases hs with
  | detached hdetached => exact ⟨h.waits, h.speculative⟩
  | shutdown hattached hshutdown => exact ⟨h.waits, h.speculative⟩
  | done hempty hspec hstatus =>
    have hset := h.setReady type attempt.ready
    exact ⟨hset.waits, hset.speculative⟩
  | exhausted hempty hstatus =>
    have hset := h.setReady type attempt.ready
    split_ifs with hnone
    · exact ⟨hset.waits, hset.speculative⟩
    · refine ⟨hset.waits, ?_⟩
      intro hspec hattached hshutdown hhas hready
      by_cases htype : j = type
      · subst htype
        exact absurd ((hunready (by rw [hstatus]; simp)).symm.trans hready) (by simp)
      · refine hset.speculative ?_ hattached hshutdown hhas hready
        exact (Function.update_of_ne htype _ _).symm.trans hspec
  | refused ec ht hempty =>
    rcases ht with rfl | ht
    · exact ⟨h.waits, h.speculative⟩
    · have htried := h.tried ht
      exact ⟨htried.waits, htried.speculative⟩
  | armed ht hattached hshutdown hsupported hwrite => exact heard_enqueue_rearm hafter
  | waits ht hattached hshutdown hsupported hout =>
    refine (h.tried ht).enqueue ?_
    rintro rfl hready
    cases ht with
    | not hspec =>
      exact h.speculative hspec hattached hshutdown
        (hopen.asks hattached hshutdown hsupported hout) hready
    | again hstatus =>
      exact absurd ((hunready (by rw [hstatus]; simp)).symm.trans hready) (by simp)
  | unasked ht hno hattached hshutdown hsupported =>
    have hnone := hctl.resolve_right hno
    rw [if_pos hnone] at hafter ⊢
    exact heard_enqueue_rearm hafter
  | behind hqueue =>
    refine h.enqueue ?_
    rintro rfl hready
    exact h.waits hqueue hready

/-- Where the inner loop of `perform_io` stops. -/
theorem performOps_stops {ops : List ReactorOp} {attempts : List Attempt} {ready : Bool}
    {p : Performed} (htruth : ∀ a ∈ attempts, a.Truthful)
    (h : performOps ops attempts ready = some p) :
    (p.left = [] ∧ p.exhausted = false) ∨ p.ready = false := by
  induction ops, attempts, ready using performOps.induct generalizing p with
  | case1 attempts ready =>
    obtain rfl := Option.some.inj h
    exact Or.inl ⟨rfl, rfl⟩
  | case2 op ops ready => exact absurd h (by simp [performOps])
  | case3 op ops a attempts ready hstatus =>
    simp only [performOps, hstatus, Option.some.injEq] at h
    obtain rfl := h
    have hunready := (htruth a List.mem_cons_self).resolve_left (by rw [hstatus]; simp)
    exact Or.inr (by rw [hunready, Bool.and_false])
  | case4 op ops a attempts ready hstatus ih =>
    simp only [performOps, hstatus, Option.map_eq_some_iff] at h
    obtain ⟨p', hp', rfl⟩ := h
    have hstops := ih (fun b hb => htruth b (List.mem_cons_of_mem _ hb)) hp'
    exact hstops
  | case5 op ops a attempts ready hstatus =>
    simp only [performOps, hstatus, Option.some.injEq] at h
    obtain rfl := h
    have hunready := (htruth a List.mem_cons_self).resolve_left (by rw [hstatus]; simp)
    exact Or.inr (by rw [hunready, Bool.and_false])

/-- After the turn for its type, no operation waits although the descriptor is ready. -/
theorem heard_performType {events : Events} {attempts : OpType → List Attempt}
    (htruth : ∀ a ∈ attempts j, a.Truthful) (h : events.concern j = false → Heard j s)
    (hs : performType events attempts j s = some s') : Heard j s' := by
  rcases performType_cases hs with ⟨hconcern, rfl⟩ | ⟨-, p, hp, rfl⟩
  · exact h hconcern
  · rcases performOps_stops htruth hp with ⟨hleft, hexhausted⟩ | hunready
    · refine ⟨?_, ?_⟩
      · intro hwaits
        refine absurd ?_ hwaits
        show Function.update s.opQueue j p.left j = []
        rw [Function.update_self, hleft]
      · intro hspec
        have htried : Function.update s.trySpeculative j (!p.exhausted) j = false := hspec
        rw [Function.update_self, hexhausted] at htried
        exact absurd htried (by simp)
    · have hready : Function.update s.ready j p.ready j = false := by
        rw [Function.update_self, hunready]
      exact ⟨fun _ hj => absurd (hready.symm.trans hj) (by simp),
        fun _ _ _ _ hj => absurd (hready.symm.trans hj) (by simp)⟩

/-- The turns for the other types do not touch the operations of this one. -/
theorem Heard.performType {events : Events} {attempts : OpType → List Attempt} (h : Heard j s)
    (hne : j ≠ type) (hs : performType events attempts type s = some s') : Heard j s' := by
  rcases performType_cases hs with ⟨-, rfl⟩ | ⟨-, p, -, rfl⟩
  · exact h
  · refine h.less ?_ (Function.update_of_ne hne _ _) rfl rfl rfl ?_ fun _ => id
    · show Function.update s.opQueue type p.left j ≠ [] → _
      rw [Function.update_of_ne hne]
      exact id
    · show Function.update s.ready type p.ready j = true → _
      rw [Function.update_of_ne hne]
      exact id

theorem heard_performIo {events : Events} {attempts : OpType → List Attempt}
    (htruth : ∀ a ∈ attempts j, a.Truthful) (h : events.concern j = false → Heard j s)
    (hs : performIo events attempts s = some s') : Heard j s' := by
  unfold performIo at hs
  obtain ⟨t, ht, hs⟩ := Option.bind_eq_some_iff.mp hs
  obtain ⟨u, hu, hs⟩ := Option.bind_eq_some_iff.mp hs
  cases j with
  | except =>
    exact ((heard_performType htruth h ht).performType (by simp) hu).performType (by simp) hs
  | write =>
    refine (heard_performType htruth ?_ hu).performType (by simp) hs
    exact fun hconcern => (h hconcern).performType (by simp) ht
  | read =>
    refine heard_performType htruth ?_ hs
    exact fun hconcern => ((h hconcern).performType (by simp) ht).performType (by simp) hu

theorem mem_eraseIdx_or {es : List Events} {i : ℕ} {e e' : Events} (hi : es[i]? = some e)
    (h : e' ∈ es) : e' = e ∨ e' ∈ es.eraseIdx i := by
  obtain ⟨k, hk, rfl⟩ := List.getElem_of_mem h
  by_cases heq : k = i
  · subst heq
    exact Or.inl (Option.some.inj ((List.getElem?_eq_getElem hk).symm.trans hi))
  · exact Or.inr (List.mem_eraseIdx_iff_getElem.mpr ⟨k, hk, heq, rfl⟩)

theorem Heard.step (hopen : Open s) (h : Heard j s) {l : Label} (hl : Truthful s l)
    (hs : step s l = some s') : Heard j s' := by
  cases l with
  | register ready supported =>
    simp only [Descriptor.step] at hs
    split_ifs at hs with hno
    obtain rfl := Option.some.inj hs
    refine ⟨?_, fun hspec => absurd hspec (by simp [register])⟩
    intro hwaits
    exact absurd (Or.inl (hopen.waits j hwaits).1) hno
  | startOp type key allow attempt ctl =>
    simp only [Descriptor.step] at hs
    split_ifs at hs
    obtain rfl := Option.some.inj hs
    have hcases : Started type allow attempt ctl { id := s.nextId, cancellationKey := key } s _ :=
      startOp_cases
    have hstarted := h.started hopen hl.1 hl.2 hcases
    exact ⟨hstarted.waits, hstarted.speculative⟩
  | cancelOps =>
    simp only [Descriptor.step, cancelOps] at hs
    split_ifs at hs
    · obtain rfl := Option.some.inj hs
      exact h.less (fun hwaits => absurd rfl hwaits) rfl rfl rfl rfl id fun _ => id
    · obtain rfl := Option.some.inj hs
      exact h
  | cancelOpsByKey type key =>
    simp only [Descriptor.step, cancelOpsByKey] at hs
    split_ifs at hs
    · obtain rfl := Option.some.inj hs
      refine h.less ?_ rfl rfl rfl rfl id fun _ => id
      intro hwaits
      dsimp only at hwaits
      by_cases htype : j = type
      · subst htype
        rw [Function.update_self] at hwaits
        intro hnil
        rw [hnil] at hwaits
        exact hwaits rfl
      · rwa [Function.update_of_ne htype] at hwaits
    · obtain rfl := Option.some.inj hs
      exact h
  | deregister closing =>
    simp only [Descriptor.step, deregister] at hs
    split_ifs at hs with hnot hdetached hshutdown
    · obtain rfl := Option.some.inj hs
      exact h
    · obtain rfl := Option.some.inj hs
      exact ⟨h.waits, fun _ hattached => absurd hattached (by simp)⟩
    · obtain rfl := Option.some.inj hs
      exact ⟨fun hwaits => absurd rfl hwaits, fun _ _ hopen => absurd hopen (by simp)⟩
  | cleanup =>
    simp only [Descriptor.step] at hs
    split_ifs at hs with hclosing
    obtain rfl := Option.some.inj hs
    exact ⟨h.waits, fun _ hattached => absurd hattached (by simp [cleanup])⟩
  | shutdown =>
    simp only [Descriptor.step, shutdownReactor] at hs
    split_ifs at hs
    · obtain rfl := Option.some.inj hs
      exact ⟨fun hwaits => absurd rfl hwaits, fun _ _ hopen => absurd hopen (by simp)⟩
    · obtain rfl := Option.some.inj hs
      exact ⟨h.waits, h.speculative⟩
  | arrive events =>
    obtain rfl := Option.some.inj hs
    have hmore : s.inEpoll = true → s.registeredEvents.has j = true →
        (s.ready j = true → OnWay s j) → (s.ready j || events.concern j) = true →
        OnWay { s with
          ready := fun j => s.ready j || events.concern j
          edge := fun j => s.edge j || (s.inEpoll && events.concern j &&
            (s.registeredEvents.has j || events.epollErr || events.epollHup)) } j := by
      intro hepoll hhas hbefore hready
      rcases (Bool.or_eq_true ..).mp hready with hready | hconcern
      · rcases hbefore hready with hedge | hlater
        · exact Or.inl (by simp [hedge])
        · exact Or.inr hlater
      · exact Or.inl (by simp [hepoll, hhas, hconcern])
    refine ⟨?_, ?_⟩
    · intro hwaits
      obtain ⟨hattached, hshutdown⟩ := hopen.waits j hwaits
      have hasked := hopen.asked j hwaits
      exact hmore (hopen.inEpoll hattached hshutdown hasked) hasked (h.waits hwaits)
    · intro hspec hattached hshutdown hhas
      exact hmore (hopen.inEpoll hattached hshutdown hhas) hhas
        (h.speculative hspec hattached hshutdown hhas)
  | lapse type =>
    obtain rfl := Option.some.inj hs
    refine h.less id rfl rfl rfl rfl ?_ fun _ => id
    show Function.update s.ready type false j = true → _
    by_cases htype : j = type
    · subst htype
      rw [Function.update_self]
      exact fun habsurd => absurd habsurd (by simp)
    · rw [Function.update_of_ne htype]
      exact id
  | epollWait events =>
    simp only [Descriptor.step] at hs
    split_ifs at hs with hgo
    obtain rfl := Option.some.inj hs
    obtain ⟨-, -, hnone, hreports⟩ := hgo
    refine h.less id rfl rfl rfl rfl id ?_
    rintro hready (hedge | ⟨e, he, -⟩ | hperforming)
    · exact Or.inr (Or.inl ⟨events, rfl, hreports j hedge hready⟩)
    · exact absurd (hnone.symm.trans he) (by simp)
    · exact Or.inr (Or.inr hperforming)
  | dequeue =>
    simp only [Descriptor.step] at hs
    split at hs
    · rename_i events hreturned
      obtain rfl := Option.some.inj hs
      refine h.less id rfl rfl rfl rfl id ?_
      rintro - (hedge | ⟨e, he, hconcern⟩ | ⟨e, he, hconcern⟩)
      · exact Or.inl hedge
      · obtain rfl := Option.some.inj (hreturned.symm.trans he)
        exact Or.inr (Or.inr ⟨events, by simp, hconcern⟩)
      · exact Or.inr (Or.inr ⟨e, List.mem_append_left _ he, hconcern⟩)
    · exact absurd hs (by simp)
  | performIo i attempts =>
    simp only [Descriptor.step] at hs
    split at hs
    · rename_i events hi
      refine heard_performIo (hl j) ?_ hs
      intro hconcern
      refine h.less id rfl rfl rfl rfl id ?_
      rintro - (hedge | hreturned | ⟨e, he, hcovers⟩)
      · exact Or.inl hedge
      · exact Or.inr (Or.inl hreturned)
      · refine Or.inr (Or.inr ⟨e, ?_, hcovers⟩)
        rcases mem_eraseIdx_or hi he with rfl | hrest
        · exact absurd (hconcern.symm.trans hcovers) (by simp)
        · exact hrest
    · exact absurd hs (by simp)

end

/-! ## The reactor gets to it -/

/-- The reactor does this by itself, when it runs. -/
def Label.byReactor : Label → Bool
  | .epollWait _ | .dequeue | .performIo _ _ => true
  | _ => false

/-- A step of the reactor. -/
def Reacts (s : State) (l : Label) : Prop := Truthful s l ∧ l.byReactor = true

section

variable {j : OpType} {s : State}

/-- The operation succeeds. -/
def success : Attempt := { status := .done, ready := true }

theorem performOps_success (ops : List ReactorOp) (ready : Bool) :
    ∃ p, performOps ops (ops.map fun _ => success) ready = some p ∧ p.left = [] := by
  induction ops generalizing ready with
  | nil => exact ⟨_, rfl, rfl⟩
  | cons op ops ih =>
    obtain ⟨p, hp, hleft⟩ := ih (ready && success.ready)
    refine ⟨{ p with finished := { op with ec := success.ec } :: p.finished }, ?_, hleft⟩
    show (performOps ops (ops.map fun _ => success) (ready && success.ready)).map _ = _
    rw [hp]
    rfl

theorem exists_performType (events : Events) {q : OpType → List ReactorOp} (type : OpType)
    (hsame : s.opQueue type = q type) :
    ∃ t, performType events (fun k => (q k).map fun _ => success) type s = some t ∧
      (events.concern type = true → t.opQueue type = []) ∧
      ∀ k ≠ type, t.opQueue k = s.opQueue k := by
  unfold performType
  split_ifs with hconcern
  · obtain ⟨p, hp, hleft⟩ := performOps_success (q type) (s.ready type)
    rw [hsame, hp]
    refine ⟨_, rfl, fun _ => ?_, fun k hk => Function.update_of_ne hk _ _⟩
    exact (Function.update_self ..).trans hleft
  · exact ⟨s, rfl, fun habsurd => absurd habsurd hconcern, fun _ _ => rfl⟩

theorem exists_performIo {events : Events} (hconcern : events.concern j = true) :
    ∃ t, performIo events (fun k => (s.opQueue k).map fun _ => success) s = some t ∧
      t.opQueue j = [] := by
  obtain ⟨t, ht, htdone, htkeep⟩ := exists_performType events (q := s.opQueue) .except rfl
  obtain ⟨u, hu, hudone, hukeep⟩ := exists_performType (s := t) events (q := s.opQueue) .write
    (htkeep _ (by simp))
  obtain ⟨v, hv, hvdone, hvkeep⟩ := exists_performType (s := u) events (q := s.opQueue) .read
    ((hukeep _ (by simp)).trans (htkeep _ (by simp)))
  refine ⟨v, ?_, ?_⟩
  · unfold performIo
    rw [ht, Option.bind_some, hu, Option.bind_some, hv]
  · cases j with
    | except => exact (hvkeep _ (by simp)).trans ((hukeep _ (by simp)).trans (htdone hconcern))
    | write => exact (hvkeep _ (by simp)).trans (hudone hconcern)
    | read => exact hvdone hconcern

theorem possible_perform {events : Events} (hperforming : events ∈ s.performing)
    (hconcern : events.concern j = true) : Possible step Reacts (fun t => t.opQueue j = []) s := by
  obtain ⟨i, hi, rfl⟩ := List.getElem_of_mem hperforming
  obtain ⟨t, ht, hdone⟩ := exists_performIo (j := j)
    (s := { s with performing := s.performing.eraseIdx i }) hconcern
  refine possible_of_step (l := .performIo i fun k => (s.opQueue k).map fun _ => success)
    ⟨?_, rfl⟩ ?_ (possible_of_now hdone)
  · intro k a ha
    obtain ⟨-, -, rfl⟩ := List.mem_map.mp ha
    exact Or.inl rfl
  · simp only [step, List.getElem?_eq_getElem hi]
    exact ht

theorem possible_returned {events : Events} (hreturned : s.returned = some events)
    (hconcern : events.concern j = true) : Possible step Reacts (fun t => t.opQueue j = []) s := by
  refine possible_of_step (l := .dequeue)
    (t := { s with returned := none, performing := s.performing ++ [events] }) ⟨trivial, rfl⟩ ?_ ?_
  · simp only [step, hreturned]
  · exact possible_perform (List.mem_append_right _ (List.mem_singleton_self events)) hconcern

/-- `epoll_wait` reports what has become ready and still is. -/
theorem possible_wait (hepoll : s.inEpoll = true) (hreactor : s.reactorShutdown = false)
    (hreturned : s.returned = none) (hedge : s.edge j = true) (hready : s.ready j = true) :
    Possible step Reacts (fun t => t.opQueue j = []) s := by
  let events : Events := {
    epollIn := s.edge .read && s.ready .read
    epollOut := s.edge .write && s.ready .write
    epollPri := s.edge .except && s.ready .except }
  have hall : ∀ k, s.edge k = true → s.ready k = true → events.concern k = true := by
    intro k hk hk'
    cases k <;> simp [events, Events.concern, Events.has, hk, hk']
  refine possible_of_step (l := .epollWait events)
    (t := { s with edge := fun _ => false, returned := some events }) ⟨trivial, rfl⟩ ?_
    (possible_returned rfl (hall j hedge hready))
  simp only [step]
  rw [if_pos ⟨hepoll, by simp [hreactor], hreturned, hall⟩]

end

/-- **Not forgotten.** In every run in which `perform` is right about the descriptor: if an operation
waits and the descriptor is ready for it, then the events are on their way to `perform_io`, and the
reactor can go on by itself to where it has completed the operation. -/
theorem not_forgotten {ls : List Label} {s : State} {j : OpType}
    (h : Run step Truthful initial ls s) (hwaits : s.opQueue j ≠ []) (hready : s.ready j = true) :
    OnWay s j ∧ Possible step Reacts (fun t => t.opQueue j = []) s := by
  obtain ⟨hopen, hheard⟩ := h.invariant (I := fun s => Open s ∧ ∀ j, Heard j s)
    ⟨open_initial, fun _ => ⟨fun hwaits => absurd rfl hwaits, by simp [initial]⟩⟩
    fun _ _ _ hI hl hs => ⟨hI.1.step hs, fun j => (hI.2 j).step hI.1 hl hs⟩
  have hway := (hheard j).waits hwaits hready
  refine ⟨hway, ?_⟩
  obtain ⟨hattached, hshutdown⟩ := hopen.waits j hwaits
  have hepoll := hopen.inEpoll hattached hshutdown (hopen.asked j hwaits)
  have hreactor : s.reactorShutdown = false := by
    by_contra hdown
    have hlive := hopen.down (by simpa using hdown)
    exact absurd ((hopen.attached hattached hshutdown).symm.trans hlive) (by simp)
  rcases hway with hedge | ⟨events, hreturned, hconcern⟩ | ⟨events, hperforming, hconcern⟩
  · cases hreturned : s.returned with
    | none => exact possible_wait hepoll hreactor hreturned hedge hready
    | some events =>
      -- what has been returned before is dequeued first
      refine possible_of_step (l := .dequeue)
        (t := { s with returned := none, performing := s.performing ++ [events] })
        ⟨trivial, rfl⟩ ?_ (possible_wait hepoll hreactor rfl hedge hready)
      simp only [step, hreturned]
  · exact possible_returned hreturned hconcern
  · exact possible_perform hperforming hconcern

/-- A read has exhausted the descriptor, and the next one is not performed at its start; then more
arrives. -/
def laterRun : List Label :=
  [.register (fun j => j = .read) true, .startOp .read 0 true { status := .doneAndExhausted } none,
    .startOp .read 0 true { status := .done } none, .epollWait { epollIn := true },
    .arrive { epollIn := true }]

theorem not_forgotten_laterRun :
    let s := reached step Truthful initial laterRun
    OnWay s .read ∧ Possible step Reacts (fun t => t.opQueue .read = []) s :=
  not_forgotten (run_reached (by decide +kernel)) (by decide +kernel) (by decide +kernel)

/-- At the end of a stream the descriptor stays ready, but a read that finds it says that it has
exhausted the descriptor: the next one waits, and nothing is on its way. -/
example :
    let s := reached step Any initial [.register (fun j => j = .read) true, .epollWait {
      epollIn := true }, .dequeue, .performIo 0 fun _ => [],
      .startOp .read 0 true { status := .doneAndExhausted, ec := some .eof, ready := true } none,
      .startOp .read 0 true { status := .done } none]
    s.opQueue .read ≠ [] ∧ s.ready .read = true ∧ s.edge .read = false ∧ s.returned = none ∧
      s.performing = [] := by
  decide +kernel

end AsioLearn.Detail.Descriptor
