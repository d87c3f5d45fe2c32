import AsioLearn.SerialPort.Steps

/-!
# What the io thread can still do

While `io_` has not been stopped and its thread is in `io_.run()`, the handler it is in can
return, everything in `strand_` can be run, and each `stop()` that has posted its closure can go
on to its end. The runs that show this are `Calm`: no thread begins a call, an `open()` fails,
and a user callback does nothing more.
-/

namespace AsioLearn.SerialPort

open Lts

/-! ## The session at work -/

/-- `io_thread_` is in `io_.run()` or about to enter it. -/
def IoThread.inRun : IoThread → Bool
  | .running | .handling _ => true
  | .none | .exited => false

/-- What is posted to `strand_` will be run. -/
def Serves (s : State) : Prop := s.ioStopped = false ∧ s.ioThread.inRun = true

/-- The promise of a waiting `stop()` has its value, or is to be given it: its closure is posted,
or is the handler now run. -/
def Promised (c : Caller) (s : State) : Prop :=
  c ∈ s.done ∨ .stop c ∈ s.strand ∨ ∃ f, s.ioThread = .handling f ∧ f.after = .setValue c

/-- What holds while a caller is at a point of `stop()` and no other call interferes. -/
def StopAt (c : Caller) (s : State) : Pc → Prop
  | .stopClear => s.running = true ∧ Serves s
  | .stopPost | .stopIo => s.running = false ∧ Serves s
  | .stopWait => s.running = false ∧ Serves s ∧ Promised c s
  | .stopJoin => s.running = false ∧ s.ioStopped = true
  | _ => False

/-- The user callback the io thread is in ends by throwing, or the program has been terminated. -/
def Dying (s : State) : Prop :=
  s.terminated = true ∨ ∃ f, s.ioThread = .handling f ∧ f.throws = true

/-- The io thread is in no callback, or in one that returns by itself. -/
def Unhindered (s : State) : Prop :=
  s.terminated = false ∧
    ∀ f, s.ioThread = .handling f → f.throws = false ∧ f.pc.isActive = false

theorem unhindered_of_not_dying {s : State} (h : ¬ Dying s) (hpc : (pcOf s .io).isActive = false) :
    Unhindered s := by
  refine ⟨?_, fun f hf => ⟨?_, ?_⟩⟩
  · by_contra ht
    exact h (Or.inl (by simpa using ht))
  · by_contra hthrows
    exact h (Or.inr ⟨f, hf, by simpa using hthrows⟩)
  · rwa [pcOf_io_handling hf] at hpc

/-! ## Calm runs -/

def calmEnv : Env := { opening := .cannotOpen "" }

def Calm (_ : State) (l : Label) : Prop :=
  l = .ioExit ∨ l = .ioAdvance calmEnv ∨ l = .runStrand calmEnv ∨
    ∃ thread, l = .advance thread calmEnv

/-- The io thread goes on with the callback it is in. -/
def GoesOn (_ : State) (l : Label) : Prop := l = .ioAdvance calmEnv

theorem calm_of_goesOn {s : State} {l : Label} (h : GoesOn s l) : Calm s l := Or.inr (Or.inl h)

/-- What such steps of the io thread leave as it is. -/
structure Kept (s t : State) : Prop where
  running : t.running = s.running
  ioStopped : t.ioStopped = s.ioStopped
  threads : t.threads = s.threads
  terminated : t.terminated = s.terminated
  done : ∀ c ∈ s.done, c ∈ t.done

/-- And nothing has been taken from `strand_`. -/
structure Passed (s t : State) : Prop extends Kept s t where
  strand : ∃ items, t.strand = s.strand ++ items

section

variable {s t u : State}

theorem kept_rfl (s : State) : Kept s s := ⟨rfl, rfl, rfl, rfl, fun _ h => h⟩

theorem Kept.trans (h : Kept s t) (h' : Kept t u) : Kept s u :=
  ⟨h'.running.trans h.running, h'.ioStopped.trans h.ioStopped, h'.threads.trans h.threads,
    h'.terminated.trans h.terminated, fun c hc => h'.done c (h.done c hc)⟩

theorem Passed.trans (h : Passed s t) (h' : Passed t u) : Passed s u := by
  obtain ⟨items, hi⟩ := h.strand
  obtain ⟨items', hi'⟩ := h'.strand
  exact ⟨h.toKept.trans h'.toKept, items ++ items', by rw [hi', hi, List.append_assoc]⟩

theorem passed_of_eq (hrunning : t.running = s.running) (hstopped : t.ioStopped = s.ioStopped)
    (hthreads : t.threads = s.threads) (hterm : t.terminated = s.terminated)
    (hdone : t.done = s.done) {items : List Item} (hstrand : t.strand = s.strand ++ items) :
    Passed s t :=
  ⟨⟨hrunning, hstopped, hthreads, hterm, fun _ h => hdone ▸ h⟩, items, hstrand⟩

theorem passed_rfl (s : State) : Passed s s :=
  ⟨kept_rfl s, [], (List.append_nil _).symm⟩

theorem passed_handled {env : Env} (h : Handled env s t) : Passed s t :=
  ⟨⟨h.running, h.ioStopped, h.threads, h.terminated, h.done⟩, [],
    h.strand.trans (List.append_nil _).symm⟩

/-- The value of a promise is given at the end of the handler, or at once. -/
theorem done_setValue (c : Caller) (s : State) : c ∈ ((After.setValue c).run s).done :=
  List.mem_append_right _ (List.mem_singleton.mpr rfl)

/-! ## Handlers return -/

theorem openPort_calm (s : State) : ∃ isOpen es, openPort calmEnv s =
    (false, { s with portOpen := isOpen, log := s.log ++ es }) := by
  have hno : (openPort calmEnv s).1 = false := by
    unfold openPort
    split_ifs <;> rfl
  obtain ⟨es, -, ⟨hyes, -⟩ | ⟨-, isOpen, -, hs⟩⟩ := openPort_cases calmEnv s
  · exact absurd hyes (by simp [hno])
  · exact ⟨isOpen, es, Prod.ext hno hs⟩

/-- The call a callback is in comes to its end. -/
theorem possible_endCall {f : Frame} (ht : s.terminated = false) (hf : s.ioThread = .handling f)
    (hpc : f.pc.isActive = false) :
    Possible step GoesOn
      (fun t => Passed s t ∧ t.ioThread = .handling { f with pc := .idle }) s := by
  have hgo : ∀ u, advance calmEnv .io s f.pc = some (.idle, u) → f.pc ≠ .idle → Passed s u →
      Possible step GoesOn
        (fun t => Passed s t ∧ t.ioThread = .handling { f with pc := .idle }) s := by
    intro u hadv hne hu
    refine possible_of_step rfl
      (step_of_moves ht (.ioGo calmEnv f .idle u hf hne hadv)) (possible_of_now ⟨?_, rfl⟩)
    exact hu.trans (passed_of_eq rfl rfl rfl rfl rfl (List.append_nil _).symm)
  cases hat : f.pc with
  | idle =>
    refine possible_of_now ⟨passed_rfl s, ?_⟩
    rw [hf, ← hat]
  | startOpen =>
    obtain ⟨isOpen, es, hopen⟩ := openPort_calm s
    refine hgo { s with portOpen := isOpen, log := s.log ++ es } ?_ (by simp [hat])
      (passed_of_eq rfl rfl rfl rfl rfl (List.append_nil _).symm)
    simp only [hat, advance, hopen]
  | sendPost msg =>
    refine hgo (emit (.posted msg) { s with strand := s.strand ++ [.send msg] }) ?_
      (by simp [hat]) (passed_of_eq rfl rfl rfl rfl rfl rfl)
    simp only [hat, advance]
  | startSpawn | startSet | stopClear | stopPost | stopWait | stopIo | stopJoin =>
    exact absurd hpc (by simp [hat, Pc.isActive, Pc.inStop])

/-- The handler returns, and gives the promise its value if that is what is left to do. -/
theorem possible_return {f : Frame} (ht : s.terminated = false) (hf : s.ioThread = .handling f)
    (hthrows : f.throws = false) (hpc : f.pc.isActive = false)
    (hcalls : s.running = true → .stop ∉ f.calls) :
    Possible step GoesOn (fun t => Passed s t ∧ t.ioThread = .running ∧
      ∀ c, f.after = .setValue c → c ∈ t.done) s := by
  obtain ⟨pc, calls, throws, after⟩ := f
  induction calls generalizing s pc with
  | nil =>
    apply (possible_endCall ht hf hpc).bind
    intro t hreach
    obtain ⟨hpass, hio⟩ := hreach
    have hret := step_of_moves (hpass.terminated.trans ht)
      (.ioReturn calmEnv ⟨.idle, [], throws, after⟩ hio rfl rfl hthrows)
    have hrun := passed_handled (handled_afterRun calmEnv { t with ioThread := .running } after)
    refine possible_of_step rfl hret (possible_of_now ⟨?_, ?_, ?_⟩)
    · exact hpass.trans ⟨⟨hrun.running, hrun.ioStopped, hrun.threads, hrun.terminated, hrun.done⟩,
        hrun.strand⟩
    · cases after <;> rfl
    · intro c hc
      obtain rfl : after = .setValue c := hc
      exact done_setValue c _
  | cons c calls ih =>
    apply (possible_endCall ht hf hpc).bind
    intro t hreach
    obtain ⟨hpass, hio⟩ := hreach
    have hcall := step_of_moves (hpass.terminated.trans ht)
      (.ioCall calmEnv ⟨.idle, c :: calls, throws, after⟩ c calls hio rfl rfl)
    have hpc' : (c.begin t).1.isActive = false := by
      unfold Call.begin
      cases c with
      | start | send msg => split_ifs <;> rfl
      | stop =>
        have hrt : t.running = false := by
          by_contra hr
          rw [hpass.running] at hr
          exact hcalls (by simpa using hr) List.mem_cons_self
        simp only [hrt, Bool.false_eq_true, if_false]
        rfl
    obtain ⟨es, -, hbegin⟩ := begin_snd c t
    rw [hbegin] at hcall
    refine possible_of_step rfl hcall ?_
    refine (ih (s := { t with
      log := t.log ++ es
      ioThread := .handling ⟨(c.begin t).1, calls, throws, after⟩ })
      (hpass.terminated.trans ht) (c.begin t).1 rfl hthrows hpc'
      (fun hr hmem => hcalls (hpass.running.symm.trans hr) (List.mem_cons_of_mem _ hmem))).mono
      (fun _ _ h => h) fun u hu => ⟨?_, hu.2⟩
    have hlog : Passed t { t with
        log := t.log ++ es
        ioThread := .handling ⟨(c.begin t).1, calls, throws, after⟩ } :=
      passed_of_eq rfl rfl rfl rfl rfl (List.append_nil _).symm
    exact hpass.trans (hlog.trans hu.1)

/-! ## The strand is run -/

/-- After the closure of a `stop()` the value of its promise is given or about to be. -/
theorem promised_run (env : Env) (c : Caller) (s : State) :
    c ∈ ((Item.stop c).run env s).done ∨
      ∃ f, ((Item.stop c).run env s).ioThread = .handling f ∧ f.after = .setValue c := by
  unfold Item.run invoke
  dsimp only
  split_ifs
  · exact Or.inr ⟨_, rfl, rfl⟩
  · exact Or.inl (done_setValue c _)
  · exact Or.inl (done_setValue c s)

/-- The first entry is run to its end. -/
theorem possible_item {item : Item} {rest : List Item} (ht : s.terminated = false)
    (hio : s.ioThread = .running) (hstop : s.ioStopped = false) (hs : s.strand = item :: rest) :
    Possible step Calm (fun t => Kept s t ∧ t.ioThread = .running ∧ t.strand = rest ∧
      ∀ c, item = .stop c → c ∈ t.done) s := by
  have hrun := handled_run calmEnv { s with strand := rest } item
  have hstep := step_of_moves ht (.runStrand calmEnv item rest hio hstop hs)
  generalize hu : item.run calmEnv { s with strand := rest } = u at hrun hstep
  have hkept : Kept s u :=
    ⟨hrun.running, hrun.ioStopped, hrun.threads, hrun.terminated, hrun.done⟩
  refine possible_of_step (Or.inr (Or.inr (Or.inl rfl))) hstep ?_
  rcases hrun.ioThread with he | ⟨after, he⟩
  · have hrunning : u.ioThread = .running := he.trans hio
    refine possible_of_now ⟨hkept, hrunning, hrun.strand, ?_⟩
    intro c hc
    subst hc
    rcases promised_run calmEnv c { s with strand := rest } with hdone | ⟨f, hf, -⟩
    · rwa [hu] at hdone
    · rw [hu, hrunning] at hf
      exact absurd hf (by simp)
  · -- the callback makes no call, so the handler returns at once
    have hret := step_of_moves (hkept.terminated.trans ht)
      (.ioReturn calmEnv { after := after } he rfl rfl rfl)
    have hafter := handled_afterRun calmEnv { u with ioThread := .running } after
    refine possible_of_step (Or.inr (Or.inl rfl)) hret
      (possible_of_now ⟨?_, ?_, hafter.strand.trans hrun.strand, ?_⟩)
    · exact hkept.trans
        ⟨hafter.running, hafter.ioStopped, hafter.threads, hafter.terminated, hafter.done⟩
    · cases after <;> rfl
    · intro c hc
      subst hc
      rcases promised_run calmEnv c { s with strand := rest } with hdone | ⟨f, hf, hset⟩
      · rw [hu] at hdone
        exact hafter.done c hdone
      · rw [hu, he] at hf
        obtain rfl := IoThread.handling.inj hf
        obtain rfl : after = .setValue c := hset
        exact done_setValue c _

/-- Everything in `strand_` is run, and each `stop()` whose closure was there has its value. -/
theorem possible_drain (ht : s.terminated = false) (hio : s.ioThread = .running)
    (hstop : s.ioStopped = false) :
    Possible step Calm (fun t => Kept s t ∧ t.ioThread = .running ∧ t.strand = [] ∧
      ∀ c, .stop c ∈ s.strand → c ∈ t.done) s := by
  generalize hs : s.strand = items
  induction items generalizing s with
  | nil => exact possible_of_now ⟨kept_rfl s, hio, hs, fun c hc => absurd hc (by simp)⟩
  | cons item rest ih =>
    apply (possible_item ht hio hstop hs).bind
    intro t hreach
    obtain ⟨hkept, hio', hrest, hdone⟩ := hreach
    refine (ih (hkept.terminated.trans ht) hio' (hkept.ioStopped.trans hstop) hrest).mono
      (fun _ _ h => h) ?_
    intro u hreach'
    obtain ⟨hkept', hio'', hnil, hdone'⟩ := hreach'
    refine ⟨hkept.trans hkept', hio'', hnil, ?_⟩
    intro c hc
    rcases List.mem_cons.mp hc with hc | hc
    · exact hkept'.done c (hdone c hc.symm)
    · exact hdone' c hc

/-- Everything posted so far is run, and every promise has its value. -/
theorem possible_settle (hu : Unhindered s) (hserves : Serves s)
    (hcalls : s.running = true → ∀ f, s.ioThread = .handling f → f.calls = []) :
    Possible step Calm (fun t => Kept s t ∧ t.ioThread = .running ∧ t.strand = [] ∧
      ∀ c, Promised c s → c ∈ t.done) s := by
  obtain ⟨ht, hframe⟩ := hu
  obtain ⟨hstop, hin⟩ := hserves
  cases hio : s.ioThread with
  | none | exited => exact absurd hin (by simp [hio, IoThread.inRun])
  | running =>
    apply (possible_drain ht hio hstop).mono (fun _ _ h => h)
    intro t hreach
    obtain ⟨hkept, hio', hnil, hdone⟩ := hreach
    refine ⟨hkept, hio', hnil, ?_⟩
    intro c hc
    rcases hc with hc | hc | ⟨f, hf, -⟩
    · exact hkept.done c hc
    · exact hdone c hc
    · exact absurd (hio.symm.trans hf) (by simp)
  | handling f =>
    obtain ⟨hthrows, hpc⟩ := hframe f hio
    have hreturn := possible_return ht hio hthrows hpc fun hr => by simp [hcalls hr f hio]
    apply (hreturn.mono (fun _ _ => calm_of_goesOn) fun _ h => h).bind
    intro t hreach
    obtain ⟨hpass, hio', hafter⟩ := hreach
    refine (possible_drain (hpass.terminated.trans ht) hio' (hpass.ioStopped.trans hstop)).mono
      (fun _ _ h => h) ?_
    intro u hreach'
    obtain ⟨hkept, hio'', hnil, hdone⟩ := hreach'
    refine ⟨hpass.toKept.trans hkept, hio'', hnil, ?_⟩
    intro c hc
    rcases hc with hc | hc | ⟨f', hf', hset⟩
    · exact hkept.done c (hpass.done c hc)
    · obtain ⟨items, hitems⟩ := hpass.strand
      exact hdone c (by rw [hitems]; exact List.mem_append_left _ hc)
    · obtain rfl : f = f' := IoThread.handling.inj (hio.symm.trans hf')
      exact hkept.done c (hafter c hset)

/-! ## A call of `stop()` returns -/

/-- A user thread has gone on to a point of its call. -/
def goOn (thread : ℕ) (pc : Pc) (s : State) : State :=
  { s with threads := Function.update s.threads thread pc }

theorem goOn_threads (thread : ℕ) (pc : Pc) (s : State) :
    (goOn thread pc s).threads thread = pc := Function.update_self ..

variable {thread : ℕ}

theorem possible_advance {P : State → Prop} {pc pc' : Pc} {v : State} (ht : s.terminated = false)
    (hpc : s.threads thread = pc)
    (hadv : advance calmEnv (.user thread) s pc = some (pc', v))
    (h : Possible step Calm P (goOn thread pc' v)) : Possible step Calm P s := by
  subst hpc
  exact possible_of_step (Or.inr (Or.inr (Or.inr ⟨thread, rfl⟩)))
    (step_of_moves ht (.advance thread calmEnv pc' v hadv)) h

/-- The io thread leaves `io_.run()`, and the join returns. -/
theorem possible_join (hu : Unhindered s) (hpc : s.threads thread = .stopJoin)
    (hrunning : s.running = false) (hstop : s.ioStopped = true) :
    Possible step Calm (fun t => t.threads thread = .idle) s := by
  have hfree : ∀ u : State, u.terminated = false → u.threads thread = .stopJoin →
      u.ioThread = .exited → Possible step Calm (fun t => t.threads thread = .idle) u := by
    intro u ht hat hio
    refine possible_advance ht hat (by simp only [advance, hio]; rfl) (possible_of_now ?_)
    exact goOn_threads thread .idle _
  have hexit : ∀ u : State, u.terminated = false → u.threads thread = .stopJoin →
      u.ioStopped = true → u.ioThread = .running →
      Possible step Calm (fun t => t.threads thread = .idle) u := by
    intro u ht hat hst hio
    refine possible_of_step (Or.inl rfl) (step_of_moves ht (.ioExit hio hst)) ?_
    exact hfree _ ht hat rfl
  obtain ⟨ht, hframe⟩ := hu
  cases hio : s.ioThread with
  | none =>
    refine possible_advance ht hpc (by simp only [advance, hio]; rfl) (possible_of_now ?_)
    exact goOn_threads thread .idle _
  | exited => exact hfree s ht hpc hio
  | running => exact hexit s ht hpc hstop hio
  | handling f =>
    obtain ⟨hthrows, hfpc⟩ := hframe f hio
    have hreturn := possible_return ht hio hthrows hfpc fun hr => absurd hr (by simp [hrunning])
    apply (hreturn.mono (fun _ _ => calm_of_goesOn) fun _ h => h).bind
    intro t hreach
    obtain ⟨hpass, hio', -⟩ := hreach
    refine hexit t (hpass.terminated.trans ht) ?_ (hpass.ioStopped.trans hstop) hio'
    rw [hpass.threads, hpc]

theorem possible_stopIo (hu : Unhindered s) (hpc : s.threads thread = .stopIo)
    (hrunning : s.running = false) :
    Possible step Calm (fun t => t.threads thread = .idle) s :=
  possible_advance hu.1 hpc rfl
    (possible_join hu (goOn_threads thread .stopJoin _) hrunning rfl)

/-- The closure is run, so the wait ends. -/
theorem possible_stopWait (hu : Unhindered s) (hpc : s.threads thread = .stopWait)
    (hrunning : s.running = false) (hserves : Serves s) (hp : Promised (.user thread) s) :
    Possible step Calm (fun t => t.threads thread = .idle) s := by
  apply (possible_settle hu hserves fun hr => absurd hr (by simp [hrunning])).bind
  intro t hreach
  obtain ⟨hkept, hio, -, hdone⟩ := hreach
  have hadv : advance calmEnv (.user thread) t .stopWait =
      some (.stopIo, { t with done := t.done.erase (.user thread) }) := if_pos (hdone _ hp)
  refine possible_advance (hkept.terminated.trans hu.1) (by rw [hkept.threads, hpc]) hadv ?_
  refine possible_stopIo ⟨hkept.terminated.trans hu.1, ?_⟩
    (goOn_threads thread .stopIo _) (hkept.running.trans hrunning)
  intro f hf
  exact absurd (hio.symm.trans hf) (by simp)

theorem possible_stopPost (hu : Unhindered s) (hpc : s.threads thread = .stopPost)
    (hrunning : s.running = false) (hserves : Serves s) :
    Possible step Calm (fun t => t.threads thread = .idle) s := by
  refine possible_advance hu.1 hpc rfl
    (possible_stopWait hu (goOn_threads thread .stopWait _) hrunning hserves ?_)
  exact Or.inr (Or.inl (List.mem_append_right _ (List.mem_singleton.mpr rfl)))

/-- Wherever in `stop()` a user thread is, it can return. -/
theorem possible_stop_return (hu : Unhindered s)
    (hat : StopAt (.user thread) s (s.threads thread)) :
    Possible step Calm (fun t => t.threads thread = .idle) s := by
  cases hpc : s.threads thread with
  | stopClear =>
    rw [hpc] at hat
    refine possible_advance hu.1 hpc rfl ?_
    exact possible_stopPost hu (goOn_threads thread .stopPost _) rfl hat.2
  | stopPost =>
    rw [hpc] at hat
    exact possible_stopPost hu hpc hat.1 hat.2
  | stopWait =>
    rw [hpc] at hat
    exact possible_stopWait hu hpc hat.1 hat.2.1 hat.2.2
  | stopIo =>
    rw [hpc] at hat
    exact possible_stopIo hu hpc hat.1
  | stopJoin =>
    rw [hpc] at hat
    exact possible_join hu hpc hat.1 hat.2
  | idle | startOpen | startSpawn | startSet | sendPost _ =>
    rw [hpc] at hat
    exact hat.elim

end

end AsioLearn.SerialPort
