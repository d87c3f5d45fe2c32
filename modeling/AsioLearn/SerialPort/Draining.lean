import Mathlib
import AsioLearn.SerialPort.Reading
import AsioLearn.SerialPort.Released

/-!
# A running session that is left alone

Nobody calls its methods but its own callbacks, and these do not stop it. The io thread runs what
is queued; on an open port each handler leaves less to run than it found, so the session comes to
a point at which nothing is queued, unless a callback ends the program.

* `step_left`: such a session goes on running, with its port open.
* `possible_rest`: it can come to rest.
-/

namespace AsioLearn.SerialPort

open Proactor Lts

/-! ## The session left alone -/

/-- The step is the user's: a call, a step of a call, or the setting of a callback. -/
def Label.byUser : Label → Bool
  | .call _ _ | .advance _ _ | .setReceiveCallback _ | .setErrorCallback _ => true
  | _ => false

/-- A call of `stop()` is made, or will be made by the callback the step begins. -/
def Label.callsStop : Label → Bool
  | .call _ c => c == .stop
  | .runStrand env => env.calls.contains .stop
  | _ => false

/-- The user does nothing, and no callback is to call `stop()`. -/
def Alone (_ : State) (l : Label) : Prop := l.byUser = false ∧ l.callsStop = false

/-- No callback under way will call `stop()`. -/
def NeverStops (s : State) : Prop := ∀ f, s.ioThread = .handling f → .stop ∉ f.calls

/-- Nothing is queued and no handler is under way. -/
def AtRest (s : State) : Prop :=
  (∀ op ∈ s.ops, op.result = none) ∧ s.strand = [] ∧ s.ioThread.inHandler = false

/-- A session that was started and is not stopped. -/
structure Left (s : State) : Prop extends Session s where
  running : s.running = true
  serves : Serves s
  never : NeverStops s

section

variable {s s' : State}

theorem noStop_of_callsStop (h : NeverStops s) {l : Label} (hl : l.callsStop = false) :
    NoStop s l := by
  unfold NoStop
  cases l with
  | call thread c =>
    intro hc
    obtain rfl : c = .stop := Option.some.inj hc
    exact absurd hl (by simp [Label.callsStop])
  | ioAdvance env =>
    intro hc
    obtain ⟨⟨caller, c⟩, hb, rfl⟩ := Option.map_eq_some_iff.mp hc
    simp only [begun?] at hb
    split at hb
    · rename_i hf
      obtain ⟨-, hstop⟩ := Prod.mk.inj (Option.some.inj hb)
      exact h _ hf (by simp [hstop])
    · exact absurd hb (by simp)
  | _ => simp [begun?]

theorem handling_of_advance {env : Env} {caller : Caller} {pc pc' : Pc} {u : State} {f : Frame}
    (hadv : advance env caller s pc = some (pc', u)) (hf : u.ioThread = .handling f) :
    s.ioThread = .handling f := by
  cases advances_of_advance hadv with
  | join | spawn => exact absurd hf (by simp)
  | _ => exact hf

/-- A callback under way after a step was so before it, or is begun by it. -/
theorem frame_of_step {l : Label} (hm : Moves s l s') {f' : Frame}
    (hf' : s'.ioThread = .handling f') :
    (∃ f, s.ioThread = .handling f ∧ f'.throws = f.throws ∧ f'.calls ⊆ f.calls) ∨
      ∃ env, l = .runStrand env ∧ f'.calls = env.calls := by
  have hsame : s.ioThread = .handling f' →
      ∃ f, s.ioThread = .handling f ∧ f'.throws = f.throws ∧ f'.calls ⊆ f.calls :=
    fun hf => ⟨f', hf, rfl, fun _ hc => hc⟩
  cases hm with
  | call thread c hidle =>
    obtain ⟨es, -, hs⟩ := begin_snd c s
    rw [hs] at hf'
    exact Or.inl (hsame hf')
  | advance thread env pc u hadv => exact Or.inl (hsame (handling_of_advance hadv hf'))
  | setReceiveCallback set | setErrorCallback set | dispatch | ioThrow =>
    exact Or.inl (hsame hf')
  | complete i out before after t res hp =>
    obtain ⟨buffer, es, -, hs⟩ :=
      deliver_eq out t { s with ops := before ++ ⟨t, some res⟩ :: after }
    rw [hs] at hf'
    exact Or.inl (hsame hf')
  | runStrand env item rest hio =>
    right
    rcases (handled_run env { s with strand := rest } item).ioThread with he | ⟨after, he⟩
    · exact absurd ((hio.symm.trans he.symm).trans hf') (by simp)
    · obtain rfl := IoThread.handling.inj (he.symm.trans hf')
      exact ⟨env, rfl, rfl⟩
  | ioCall env f c calls hf hpc hcalls =>
    obtain rfl := IoThread.handling.inj hf'
    exact Or.inl ⟨f, hf, rfl, by rw [hcalls]; exact List.subset_cons_self c calls⟩
  | ioReturn env f =>
    have hio : (f.after.run { s with ioThread := .running }).ioThread = .running := by
      cases f.after <;> rfl
    exact absurd (hio.symm.trans hf') (by simp)
  | ioGo env f pc u hf hpc hadv =>
    obtain rfl := IoThread.handling.inj hf'
    exact Or.inl ⟨f, hf, rfl, fun _ hc => hc⟩
  | ioExit => exact absurd hf' (by simp)

theorem step_neverStops (h : NeverStops s) {l : Label} (hl : l.callsStop = false)
    (hs : step s l = some s') : NeverStops s' := by
  intro f' hf'
  rcases frame_of_step (moves_of_step hs) hf' with ⟨f, hf, -, hsub⟩ | ⟨env, rfl, hcalls⟩
  · exact fun hmem => h f hf (hsub hmem)
  · rw [hcalls]
    simpa [Label.callsStop] using hl

/-- Left alone, a session that runs goes on running. -/
theorem step_left (h : Left s) {l : Label} (hok : Alone s l) (hs : step s l = some s') :
    Left s' := by
  have hstop := noStop_of_callsStop h.never hok.2
  have hm := moves_of_step hs
  obtain ⟨p, hp⟩ := h.stage
  have hopen := h.unstopped.running h.running
  have hund := undisturbed_of_moves hm (by cases l <;> simp_all [Alone, Label.byUser, Label.isUser])
    hp.io (fun env _ _ => by simp [openPort, hopen]) fun c hb => by
      cases c with
      | start | send msg =>
        unfold Call.begin
        split_ifs <;> rfl
      | stop => exact absurd (by rw [hb]; rfl) hstop
  exact ⟨step_session h.toSession hstop hs, hund.1.running.trans h.running,
    hund.1.serves h.serves, step_neverStops h.never hok.2 hs⟩

/-! ## Coming to rest -/

/-- How many completions an entry of `strand_` may still lead to, and itself. -/
def Item.weight : Item → ℕ
  | .send _ => 3
  | .stop _ => 0
  | .completed _ _ => 1

/-- What is queued: an operation that has completed has still to pass through `strand_`. -/
def pending (s : State) : ℕ :=
  (s.strand.map Item.weight).sum + 2 * s.ops.countP fun op => op.result.isSome

/-- On an open port an operation is outstanding once started. -/
theorem pending_startOp (hopen : s.portOpen = true) (t : Task) :
    pending (startOp t s) = pending s := by
  simp [pending, startOp, hopen]

theorem pending_afterRun (hopen : s.portOpen = true) (a : After) :
    pending (a.run s) = pending s := by
  cases a with
  | nothing | setValue caller => rfl
  | startRead => exact pending_startOp hopen .read

theorem pending_invoke (hopen : s.portOpen = true) (env : Env) (set : Bool) (e : Event)
    (a : After) : pending (invoke env set e a s) = pending s := by
  unfold invoke
  split_ifs
  · rfl
  · exact pending_afterRun hopen a

theorem pending_writeSome (hopen : s.portOpen = true) (msg : Bytes) (sent : ℕ) :
    pending (writeSome msg sent s) ≤ pending s + 2 := by
  unfold writeSome
  split_ifs
  · simp [pending]
    omega
  · rw [pending_startOp hopen]
    exact Nat.le_add_right _ _

/-- A handler on an open port leaves less than there was with it. -/
theorem pending_run (hopen : s.portOpen = true) (env : Env) {item : Item}
    (hitem : item.Allowed s.portOpen) : pending (item.run env s) < pending s + item.weight := by
  cases item with
  | stop c => exact hitem.elim
  | send msg =>
    have hrun : (Item.send msg).run env s = writeSome msg 0 s := if_pos hopen
    have hle := pending_writeSome hopen msg 0
    rw [hrun]
    simp only [Item.weight]
    omega
  | completed t r =>
    cases t with
    | read =>
      show pending (readHandler env r s) < pending s + 1
      unfold readHandler
      split
      · rw [pending_invoke hopen]
        exact Nat.lt_succ_self _
      · split_ifs
        · exact Nat.lt_succ_self _
        · rw [pending_invoke hopen]
          exact Nat.lt_succ_self _
    | write msg sent =>
      show pending (writeResume env msg sent r s) < pending s + 1
      unfold writeResume writeHandler
      split_ifs with hends
      · split
        · exact Nat.lt_succ_self _
        · split_ifs
          · exact Nat.lt_succ_self _
          · rw [pending_invoke hopen]
            exact Nat.lt_succ_self _
      · have hmore : ¬ msg.length ≤ sent + r.length := by
          intro hle
          exact hends (by simp [Result.endsWrite, hle])
        unfold writeSome
        rw [if_neg hmore, if_pos hopen, pending_startOp hopen]
        exact Nat.lt_succ_self _

/-- The first entry of `strand_` is run, to the end of its handler. -/
theorem possible_runStrand (h : Left s) (hterm : s.terminated = false)
    (hio : s.ioThread = .running) {item : Item} {rest : List Item}
    (hstrand : s.strand = item :: rest) :
    Possible step Alone (fun t => Left t ∧ t.terminated = false ∧ t.ioThread = .running ∧
      pending t < pending s) s := by
  have hopen := h.unstopped.running h.running
  have hitem := h.unstopped.items item (by rw [hstrand]; exact List.mem_cons_self)
  have hless := pending_run (s := { s with strand := rest }) hopen calmEnv hitem
  have hsum : pending { s with strand := rest } + item.weight = pending s := by
    simp only [pending, hstrand, List.map_cons, List.sum_cons]
    omega
  have hrun := handled_run calmEnv { s with strand := rest } item
  have hst := step_of_moves hterm (.runStrand calmEnv item rest hio h.serves.1 hstrand)
  have hok : Alone s (.runStrand calmEnv) := ⟨rfl, rfl⟩
  have hleft := step_left h hok hst
  have hterm' := hrun.terminated.trans hterm
  have hopen' := hleft.unstopped.running hleft.running
  generalize item.run calmEnv { s with strand := rest } = u at hrun hst hleft hless hterm' hopen'
  refine possible_of_step hok hst ?_
  rcases hrun.ioThread with he | ⟨after, he⟩
  · exact possible_of_now ⟨hleft, hterm', he.trans hio, by omega⟩
  · -- the callback does nothing, so the handler returns at once
    have hret := step_of_moves hterm'
      (.ioReturn calmEnv { calls := calmEnv.calls, throws := calmEnv.throws, after := after } he
        rfl rfl rfl)
    have hafter := handled_afterRun calmEnv { u with ioThread := .running } after
    have hsame := pending_afterRun (s := { u with ioThread := .running }) hopen' after
    refine possible_of_step ⟨rfl, rfl⟩ hret (possible_of_now
      ⟨step_left hleft ⟨rfl, rfl⟩ hret, hafter.terminated.trans hterm', ?_, ?_⟩)
    · cases after <;> rfl
    · rw [hsame]
      show pending u < pending s
      omega

/-- Between handlers: everything queued is run, and what comes of it. -/
theorem possible_rest_running (h : Left s) (hterm : s.terminated = false)
    (hio : s.ioThread = .running) :
    Possible step Alone (fun t => Left t ∧ t.terminated = false ∧ AtRest t) s := by
  induction hn : pending s using Nat.strongRecOn generalizing s with
  | ind n ih =>
    cases hstrand : s.strand with
    | cons item rest =>
      apply (possible_runStrand h hterm hio hstrand).bind
      intro t hreach
      obtain ⟨hleft, hterm', hio', hless⟩ := hreach
      exact ih (pending t) (hn ▸ hless) hleft hterm' hio' rfl
    | nil =>
      by_cases hdone : ∀ op ∈ s.ops, op.result = none
      · exact possible_of_now ⟨h, hterm, hdone, hstrand, by rw [hio]; rfl⟩
      · simp only [not_forall] at hdone
        obtain ⟨⟨t, res⟩, hop, hres⟩ := hdone
        obtain ⟨r, rfl⟩ := Option.ne_none_iff_exists'.mp hres
        obtain ⟨i, before, after, hp⟩ := exists_pick hop
        have hst := step_of_moves hterm (.dispatch i before after t r hio h.serves.1 hp)
        have hleft := step_left h ⟨rfl, rfl⟩ hst
        refine possible_of_step ⟨rfl, rfl⟩ hst (ih _ ?_ hleft hterm hio rfl)
        rw [← hn]
        simp only [pending, pick_eq_some hp, List.countP_append, List.countP_cons, List.map_append,
          List.sum_append, List.map_cons, List.map_nil, List.sum_cons, List.sum_nil, Item.weight,
          Option.isSome_some, if_true]
        omega

/-- **A session left alone comes to rest**: unless it is in a callback that is to throw, it can
come to a state in which nothing is queued, still running and with its port open. -/
theorem possible_rest (h : Left s) (hlives : ¬ Dying s) :
    Possible step Alone (fun t => Left t ∧ t.terminated = false ∧ AtRest t) s := by
  obtain ⟨p, hp⟩ := h.stage
  obtain ⟨hterm, hframe⟩ := unhindered_of_not_dying hlives hp.io
  cases hio : s.ioThread with
  | none | exited => exact absurd h.serves.2 (by simp [hio, IoThread.inRun])
  | running => exact possible_rest_running h hterm hio
  | handling f =>
    obtain ⟨hthrows, hpc⟩ := hframe f hio
    obtain ⟨ls, t, hrun, hpass, hio', -⟩ :=
      possible_return hterm hio hthrows hpc fun _ => h.never f hio
    have hrun' : Run step Alone s ls t := hrun.mono fun s l hl => by
      rw [show l = .ioAdvance calmEnv from hl]
      exact ⟨rfl, rfl⟩
    have hleft : Left t := hrun'.invariant h fun s l s' hI hok hst => step_left hI hok hst
    obtain ⟨ls', u, hrest, hu⟩ :=
      possible_rest_running hleft (hpass.terminated.trans hterm) hio'
    exact ⟨ls ++ ls', u, hrun'.append hrest, hu⟩

end

end AsioLearn.SerialPort
