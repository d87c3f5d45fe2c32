import AsioLearn.SerialPort.Draining

/-!
# The life of a session

A `SerialPortSession` lives in a `shared_ptr`. The user holds references, and so does every handler
and closure that has captured `self`: while it is stored, also one whose operation is outstanding,
and while it runs. When the last reference is dropped the destructor calls `stop()`, in which
`shared_from_this()` throws, and an exception that leaves a destructor ends the program.

* `closes_iff_dying`: a started session whose last user reference is dropped without `stop()`
  never closes itself; only the end of the program prevents that from showing.
-/

namespace AsioLearn.SerialPort

open Proactor Lts

/-- What has become of the session: it exists, it has been destroyed, an exception has left its
destructor, or its `io_thread_` was destroyed while joinable. -/
inductive Fate
  | alive
  | destroyed
  | threw
  | aborted
  deriving DecidableEq, Repr

/-- A session with the number of references the user holds to it. -/
structure Owned where
  session : State := init
  users : ℕ := 1
  fate : Fate := .alive

/-- `~SerialPortSession`, which calls `stop()`, and then the destructors of the members. -/
def destroy (o : Owned) : Owned :=
  if o.session.running then
    { o with session := { o.session with running := false, terminated := true }, fate := .threw }
  else
    match o.session.ioThread with
    | .none => { o with session := { o.session with portOpen := false }, fate := .destroyed }
    | _ => { o with session := { o.session with terminated := true }, fate := .aborted }

/-- The destructor runs when nothing holds the session. -/
def settle (o : Owned) : Owned :=
  if o.users = 0 ∧ holders o.session = 0 then destroy o else o

/-- A step of the session, or what the user does with a reference. -/
inductive Move
  | session (l : Label)
  | copy
  | drop
  deriving DecidableEq, Repr

/-- One step. The user calls the session only while holding a reference to it. -/
def own (o : Owned) (m : Move) : Option Owned :=
  if o.fate ≠ .alive ∨ o.session.terminated = true then none
  else
    match m with
    | .session l =>
      if l.byUser = true ∧ o.users = 0 then none
      else
        match step o.session l with
        | some s => some (settle { o with session := s })
        | none => none
    | .copy => if o.users = 0 then none else some { o with users := o.users + 1 }
    | .drop => if o.users = 0 then none else some (settle { o with users := o.users - 1 })

/-- Neither the user nor a callback calls `stop()`. -/
def Unstopping (_ : Owned) : Move → Prop
  | .session l => l.callsStop = false
  | .copy | .drop => True

instance (o : Owned) : ∀ m : Move, Decidable (Unstopping o m)
  | .session l => inferInstanceAs (Decidable (l.callsStop = false))
  | .copy | .drop => isTrue trivial

/-- The session closes itself when it is released: with no user left and no handler queued or
under way the port is not open, no exception leaves the destructor, and after it the port is
closed and the io thread has ended. -/
structure Closes (o : Owned) : Prop where
  notLeft : o.users = 0 → AtRest o.session → o.session.portOpen = false
  noThrow : o.fate ≠ .threw
  after : o.fate = .destroyed → o.session.portOpen = false ∧ o.session.ioThread.inRun = false

section

variable {o o' : Owned}

/-! ## The destructor -/

theorem fate_destroy (o : Owned) : (destroy o).fate ≠ .alive := by
  unfold destroy
  split_ifs
  · simp
  · split <;> simp

/-- Nothing happens while something holds the session. -/
theorem settle_of_alive (h : (settle o).fate = .alive) : settle o = o := by
  unfold settle at h ⊢
  split_ifs at h ⊢
  · exact absurd h (fate_destroy o)
  · rfl

theorem settle_of_held (h : 0 < holders o.session) : settle o = o :=
  if_neg fun hzero => absurd hzero.2 (Nat.ne_of_gt h)

/-- A running session cannot be destroyed. -/
theorem settle_of_running (h : o.session.running = true) :
    (settle o).fate = .threw ∨ settle o = o := by
  unfold settle destroy
  split_ifs
  · exact Or.inl rfl
  · exact Or.inr rfl

theorem own_session {s : State} {l : Label} (hfate : o.fate = .alive) (hl : l.byUser = false)
    (hs : step o.session l = some s) :
    own o (.session l) = some (settle { o with session := s }) := by
  simp [own, hfate, hl, hs, terminated_of_step hs]

theorem alive_of_own {m : Move} (h : own o m = some o') :
    o.fate = .alive ∧ o.session.terminated = false := by
  unfold own at h
  split at h
  · exact absurd h (by simp)
  · rename_i hno
    simp only [not_or, not_not, Bool.not_eq_true] at hno
    exact hno

/-- What a move does, before the destructor may run. -/
inductive Moved (o : Owned) : Move → Owned → Prop
  | session (l : Label) (s : State) : (l.byUser = true → o.users ≠ 0) →
      step o.session l = some s → Moved o (.session l) (settle { o with session := s })
  | copy : Moved o .copy { o with users := o.users + 1 }
  | drop : o.users ≠ 0 → Moved o .drop (settle { o with users := o.users - 1 })

theorem moved_of_own {m : Move} (h : own o m = some o') : Moved o m o' := by
  unfold own at h
  split at h
  · exact absurd h (by simp)
  cases m with
  | session l =>
    simp only at h
    split_ifs at h with hno
    split at h
    · rename_i s hs
      obtain rfl := Option.some.inj h
      exact .session l s (fun hl hzero => hno ⟨hl, hzero⟩) hs
    · exact absurd h (by simp)
  | copy =>
    simp only at h
    split_ifs at h
    obtain rfl := Option.some.inj h
    exact .copy
  | drop =>
    simp only at h
    split_ifs at h with hzero
    obtain rfl := Option.some.inj h
    exact .drop hzero

/-! ## Sessions that are not stopped -/

/-- While it is alive the session is one that nobody stops. -/
def Unended (o : Owned) : Prop := o.fate = .alive → Session o.session ∧ NeverStops o.session

theorem unended_settle (h : Session o.session ∧ NeverStops o.session) : Unended (settle o) := by
  intro hfate
  rw [settle_of_alive hfate]
  exact h

theorem own_unended (h : Unended o) {m : Move} (hok : Unstopping o m) (hs : own o m = some o') :
    Unended o' := by
  obtain ⟨hsession, hnever⟩ := h (alive_of_own hs).1
  cases moved_of_own hs with
  | session l s hl hst =>
    have hstop := noStop_of_callsStop hnever hok
    exact unended_settle ⟨step_session hsession hstop hst, step_neverStops hnever hok hst⟩
  | copy => exact fun _ => ⟨hsession, hnever⟩
  | drop hpos => exact unended_settle ⟨hsession, hnever⟩

/-! ## After the last reference of the user -/

/-- A run of the session left alone is one of the session that its user has dropped, unless the
destructor throws before its end. -/
theorem possible_own {s t : State} {ls : List Label} (hrun : Run step Alone s ls t)
    (hleft : Left s) (hsession : o.session = s) (husers : o.users = 0) (hfate : o.fate = .alive) :
    Possible own Unstopping
      (fun u => u.fate = .threw ∨ (u.session = t ∧ u.users = 0)) o := by
  induction hrun generalizing o with
  | nil => exact possible_of_now (Or.inr ⟨hsession, husers⟩)
  | @cons s s' t l ls hok hst hrest ih =>
    subst hsession
    have hleft' := step_left hleft hok hst
    refine possible_of_step (l := .session l) hok.2 (own_session hfate hok.1 hst) ?_
    rcases settle_of_running (o := { o with session := s' }) hleft'.running with hthrew | hsame
    · exact possible_of_now (Or.inl hthrew)
    · rw [hsame]
      exact ih hleft' rfl husers hfate

/-- A session that its user has dropped is not closed, whatever happens, but by the end of the
program. -/
theorem not_closes_of_left (hleft : Left o.session) (husers : o.users = 0) (hfate : o.fate = .alive)
    (hlives : ¬ Dying o.session) : Possible own Unstopping (fun u => ¬ Closes u) o := by
  obtain ⟨ls, t, hrun, hrest⟩ := possible_rest hleft hlives
  obtain ⟨hleft', -, hrest⟩ := hrest
  apply (possible_own hrun hleft rfl husers hfate).mono (fun _ _ h => h)
  intro u hu hcloses
  rcases hu with hthrew | ⟨rfl, hzero⟩
  · exact hcloses.noThrow hthrew
  · have hopen := hleft'.unstopped.running hleft'.running
    exact absurd (hcloses.notLeft hzero hrest) (by simp [hopen])

/-! ## A callback that ends the program -/

/-- The io thread is in a callback that is to throw. -/
def Throwing (s : State) : Prop := ∃ f, s.ioThread = .handling f ∧ f.throws = true

theorem holders_of_throwing {s : State} (h : Throwing s) : 0 < holders s := by
  obtain ⟨f, hf, -⟩ := h
  unfold holders
  rw [hf]
  exact Nat.succ_pos _

theorem step_throwing {s s' : State} (h : Throwing s) {l : Label} (hs : step s l = some s') :
    Throwing s' := by
  obtain ⟨f, hf, hthrows⟩ := h
  cases moves_of_step hs with
  | call thread c hidle =>
    obtain ⟨es, -, hs⟩ := begin_snd c s
    rw [hs]
    exact ⟨f, hf, hthrows⟩
  | advance thread env pc u hadv => exact ⟨f, (advance_leaves hadv).2.2 f hf, hthrows⟩
  | setReceiveCallback set | setErrorCallback set | ioThrow => exact ⟨f, hf, hthrows⟩
  | complete i out before after t res hp =>
    obtain ⟨buffer, es, -, hs⟩ :=
      deliver_eq out t { s with ops := before ++ ⟨t, some res⟩ :: after }
    rw [hs]
    exact ⟨f, hf, hthrows⟩
  | dispatch i before after t res hio | runStrand env item rest hio | ioExit hio =>
    exact absurd (hio.symm.trans hf) (by simp)
  | ioCall env f' c calls hf' =>
    obtain rfl := IoThread.handling.inj (hf.symm.trans hf')
    exact ⟨_, rfl, hthrows⟩
  | ioReturn env f' hf' hpc hcalls hno =>
    obtain rfl := IoThread.handling.inj (hf.symm.trans hf')
    exact absurd hthrows (by simp [hno])
  | ioGo env f' pc u hf' =>
    obtain rfl := IoThread.handling.inj (hf.symm.trans hf')
    exact ⟨_, rfl, hthrows⟩

/-- And the session is alive. -/
structure Ending (o : Owned) : Prop where
  fate : o.fate = .alive
  throwing : Throwing o.session

theorem own_ending (h : Ending o) {m : Move} (hs : own o m = some o') : Ending o' := by
  cases moved_of_own hs with
  | session l s hl hst =>
    have hthrowing := step_throwing h.throwing hst
    rw [settle_of_held (holders_of_throwing hthrowing)]
    exact ⟨h.fate, hthrowing⟩
  | copy => exact ⟨h.fate, h.throwing⟩
  | drop hpos =>
    rw [settle_of_held (o := { o with users := o.users - 1 }) (holders_of_throwing h.throwing)]
    exact ⟨h.fate, h.throwing⟩

theorem closes_of_ending (h : Ending o) : Closes o := by
  obtain ⟨f, hf, -⟩ := h.throwing
  refine ⟨?_, by simp [h.fate], fun hd => absurd hd (by simp [h.fate])⟩
  intro _ hrest
  have hin := hrest.2.2
  rw [hf] at hin
  exact absurd hin (by simp [IoThread.inHandler])

end

/-- **Released, it does not close itself.** When the user drops the last reference to a running
session that nobody stops, it closes itself as a released session should, in whatever way the run
goes on, exactly if the io thread is then in a callback that ends the program by throwing. -/
theorem closes_iff_dying (ms : List Move) (o o' : Owned) (h : Run own Unstopping {} ms o)
    (hstarted : o.session.running = true) (hlast : o.users = 1)
    (hdrop : own o .drop = some o') :
    (∀ ms' t, Run own Unstopping o' ms' t → Closes t) ↔ Dying o.session := by
  have hinit : Unended {} := fun _ => ⟨session_init, fun f hf => absurd hf (by simp [init])⟩
  have hunended : Unended o := h.invariant hinit fun s l s' hI hok hst => own_unended hI hok hst
  obtain ⟨hfate, hterm⟩ := alive_of_own hdrop
  obtain ⟨hsession, hnever⟩ := hunended hfate
  have hleft : Left o.session :=
    ⟨hsession, hstarted, (serves_of_running hsession hstarted).2, hnever⟩
  constructor
  · intro hcloses
    by_contra hlives
    cases moved_of_own hdrop with
    | drop hpos =>
      rcases settle_of_running (o := { o with users := o.users - 1 }) hstarted with hthrew | hsame
      · exact (hcloses [] _ (.nil _)).noThrow hthrew
      · rw [hsame] at hcloses
        obtain ⟨ms', t, hrun, hno⟩ := not_closes_of_left (o := { o with users := o.users - 1 })
          hleft (by simp [hlast]) hfate hlives
        exact hno (hcloses ms' t hrun)
  · rintro (hyes | hthrowing) ms' t hrun
    · exact absurd hyes (by simp [hterm])
    · have hending : Ending o' := own_ending ⟨hfate, hthrowing⟩ hdrop
      exact closes_of_ending (hrun.invariant hending fun s l s' hI _ hst => own_ending hI hst)

/-- The session is started, and its receive callback is about to throw. -/
def throwsLater : List Move :=
  [.session (.setReceiveCallback true), .session (.call 0 .start), .session (.advance 0 {}),
    .session (.advance 0 {}), .session (.advance 0 {}), .session (.complete 0 (.received [97])),
    .session (.dispatch 0), .session (.runStrand { throws := true })]

theorem closes_iff_dying_throwsLater :
    Closes (reached own Unstopping {} (throwsLater ++ [.drop, .session (.ioAdvance {})])) :=
  (closes_iff_dying throwsLater (reached own Unstopping {} throwsLater) _ (run_reached (by decide))
    (by decide) (by decide) rfl).mpr (Or.inr ⟨_, rfl, rfl⟩) [.session (.ioAdvance {})] _
      (.single rfl rfl)

/-- The session is started, and dropped while it reads. -/
def dropsStarted : List Move :=
  [.session (.call 0 .start), .session (.advance 0 {}), .session (.advance 0 {}),
    .session (.advance 0 {})]

/-- The read that is outstanding keeps the session, and its port open. -/
theorem not_closes : ¬ ∀ (ms : List Move) (o o' : Owned), Run own Unstopping {} ms o →
    o.session.running = true → o.users = 1 → own o .drop = some o' →
      ∀ ms' t, Run own Unstopping o' ms' t → Closes t := by
  intro h
  have hcloses := h dropsStarted _ (reached own Unstopping {} (dropsStarted ++ [.drop]))
    (run_reached (by decide)) (by decide) (by decide) rfl [] _ (.nil _)
  have hrest : AtRest (reached own Unstopping {} (dropsStarted ++ [.drop])).session :=
    ⟨by decide, by decide, by decide⟩
  exact absurd (hcloses.notLeft (by decide) hrest) (by decide)

end AsioLearn.SerialPort
