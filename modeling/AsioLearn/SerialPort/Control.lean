import AsioLearn.SerialPort.Progress

/-!
# What a step does to the control of the session

`running_`, the stopped flag of `io_`, the io thread and the promises are changed by callers at
an active point of `start()` or `stop()` only; every other step leaves the control `Undisturbed`.
-/

namespace AsioLearn.SerialPort

open Proactor

structure Undisturbed (s s' : State) : Prop where
  running : s'.running = s.running
  ioStopped : s'.ioStopped = s.ioStopped
  serves : Serves s → Serves s'
  none : s.ioThread = .none → s'.ioThread = .none
  opened : .portOpened ∈ s'.log ↔ .portOpened ∈ s.log

section

variable {s s' : State}

theorem undisturbed_of_eq (es : List Event) (hrunning : s'.running = s.running)
    (hstopped : s'.ioStopped = s.ioStopped) (hio : s'.ioThread = s.ioThread)
    (hlog : s'.log = s.log ++ es) (hes : .portOpened ∉ es) : Undisturbed s s' := by
  refine ⟨hrunning, hstopped, ?_, fun h => hio.trans h, ?_⟩
  · intro h
    unfold Serves at h ⊢
    rwa [hstopped, hio]
  · rw [hlog, List.mem_append]
    exact or_iff_left hes

theorem not_mem_of_notices {es : List Event} (h : ∀ e ∈ es, e.isNotice = true) :
    .portOpened ∉ es := fun hmem => absurd (h _ hmem) (by simp [Event.isNotice])

theorem undisturbed_begin (c : Call) (s : State) : Undisturbed s (c.begin s).2 := by
  obtain ⟨es, hes, hs⟩ := begin_snd c s
  rw [hs]
  exact undisturbed_of_eq _ rfl rfl rfl rfl (not_mem_of_notices hes)

/-- A caller at a point that is not active goes on. -/
theorem undisturbed_advance {env : Env} {caller : Caller} {pc pc' : Pc} {u : State}
    (hadv : advance env caller s pc = some (pc', u)) (hpc : pc.isActive = false)
    (hopen : pc = .startOpen → (openPort env s).1 = false) :
    Undisturbed s u ∧ pc' = .idle ∧ u.threads = s.threads ∧ u.ioThread = s.ioThread := by
  cases advances_of_advance hadv with
  | stopClear | stopPost | stopWait | stopIo | notJoinable | join | joinSelf | spawn | respawn
  | startSet => exact absurd hpc (by simp [Pc.isActive, Pc.inStop])
  | opened es hes hyes => exact absurd hyes (by simp [hopen rfl])
  | notOpened es isOpen hes =>
    exact ⟨undisturbed_of_eq _ rfl rfl rfl rfl (not_mem_of_notices hes), rfl, rfl, rfl⟩
  | sendPost msg => exact ⟨undisturbed_of_eq [.posted msg] rfl rfl rfl rfl (by simp), rfl, rfl, rfl⟩

/-- A handler, run by a thread that is in none. -/
theorem undisturbed_handled {env : Env} (h : Handled env s s') (hio : s.ioThread = .running) :
    Undisturbed s s' := by
  obtain ⟨es, hes, hlog⟩ := h.log
  refine ⟨h.running, h.ioStopped, fun hserves => ⟨h.ioStopped.trans hserves.1, ?_⟩,
    fun hno => absurd (hio.symm.trans hno) (by simp), ?_⟩
  · rcases h.ioThread with he | ⟨after, he⟩
    · rw [he, hio]
      rfl
    · rw [he]
      rfl
  · rw [hlog, List.mem_append]
    exact or_iff_left hes

/-- The labels of steps that no user thread takes. -/
def Label.isUser : Label → Bool
  | .call _ _ | .advance _ _ => true
  | _ => false

theorem undisturbed_of_moves {l : Label} (h : Moves s l s') (hl : l.isUser = false)
    (hpc : (pcOf s .io).isActive = false)
    (hopen : ∀ env, actor? l = some (.io, env) → pcOf s .io = .startOpen →
      (openPort env s).1 = false)
    (hcall : ∀ c, begun? s l = some (.io, c) → (c.begin s).1.isActive = false) :
    Undisturbed s s' ∧ s'.threads = s.threads ∧ (pcOf s' .io).isActive = false := by
  cases h with
  | call thread c hidle => exact absurd hl (by simp [Label.isUser])
  | advance thread env pc u hadv => exact absurd hl (by simp [Label.isUser])
  | setReceiveCallback set | setErrorCallback set =>
    exact ⟨undisturbed_of_eq _ rfl rfl rfl (List.append_nil _).symm (by simp), rfl, hpc⟩
  | complete i out before after t res hp hwait hres =>
    obtain ⟨buffer, es, hes, hs⟩ :=
      deliver_eq out t { s with ops := before ++ ⟨t, some res⟩ :: after }
    rw [hs]
    exact ⟨undisturbed_of_eq es rfl rfl rfl rfl hes, rfl, hpc⟩
  | dispatch i before after t res hio hstop hp =>
    exact ⟨undisturbed_of_eq _ rfl rfl rfl (List.append_nil _).symm (by simp), rfl, hpc⟩
  | runStrand env item rest hio hstop hstrand =>
    have hrun := handled_run env { s with strand := rest } item
    have hidle : pcOf { s with strand := rest } .io = .idle := by simp only [pcOf, hio]
    have hpop : Undisturbed s { s with strand := rest } :=
      undisturbed_of_eq _ rfl rfl rfl (List.append_nil _).symm (by simp)
    have hund := undisturbed_handled hrun hio
    refine ⟨⟨hund.running, hund.ioStopped, fun h => hund.serves (hpop.serves h), hund.none,
      hund.opened⟩, hrun.threads, ?_⟩
    rw [pcOf_handled hrun hidle, hidle]
    rfl
  | ioCall env f c calls hf hfpc hcalls =>
    have hbegun : begun? s (.ioAdvance env) = some (.io, c) := begun?_ioAdvance hf hfpc hcalls
    have hund := undisturbed_begin c s
    obtain ⟨es, -, hs⟩ := begin_snd c s
    refine ⟨⟨hund.running, hund.ioStopped, fun h => ⟨(hund.serves h).1, rfl⟩,
      fun hno => absurd (hf.symm.trans hno) (by simp), hund.opened⟩, ?_, hcall c hbegun⟩
    show (c.begin s).2.threads = s.threads
    rw [hs]
  | ioThrow env f hf hfpc hcalls hthrows =>
    exact ⟨undisturbed_of_eq _ rfl rfl rfl (List.append_nil _).symm (by simp), rfl, hpc⟩
  | ioReturn env f hf hfpc hcalls hthrows =>
    have hrun := handled_afterRun env { s with ioThread := .running } f.after
    have hund := undisturbed_handled hrun rfl
    refine ⟨⟨hund.running, hund.ioStopped, fun h => hund.serves ⟨h.1, rfl⟩,
      fun hno => absurd (hf.symm.trans hno) (by simp), hund.opened⟩, hrun.threads, ?_⟩
    rw [pcOf_handled hrun rfl]
    rfl
  | ioGo env f pc u hf hfpc hadv =>
    rw [pcOf_io_handling hf] at hpc hopen
    obtain ⟨hund, rfl, hthreads, -⟩ := undisturbed_advance hadv hpc (hopen env rfl)
    exact ⟨⟨hund.running, hund.ioStopped, fun h => ⟨(hund.serves h).1, rfl⟩,
      fun hno => absurd (hf.symm.trans hno) (by simp), hund.opened⟩, hthreads, rfl⟩
  | ioExit hio hstop =>
    refine ⟨⟨rfl, rfl, fun h => absurd h.1 (by simp [hstop]),
      fun hno => absurd (hio.symm.trans hno) (by simp), Iff.rfl⟩, rfl, rfl⟩

/-! ## Promises -/

theorem Promised.mono {c : Caller} (h : Promised c s) (hdone : c ∈ s.done → c ∈ s'.done)
    (hstrand : ∀ item ∈ s.strand, item ∈ s'.strand)
    (hio : ∀ f, s.ioThread = .handling f →
      ∃ f', s'.ioThread = .handling f' ∧ f'.after = f.after) : Promised c s' := by
  rcases h with h | h | ⟨f, hf, hset⟩
  · exact Or.inl (hdone h)
  · exact Or.inr (Or.inl (hstrand _ h))
  · obtain ⟨f', hf', hsame⟩ := hio f hf
    exact Or.inr (Or.inr ⟨f', hf', hsame.trans hset⟩)

theorem StopAt.mono {c : Caller} (pc : Pc) (h : StopAt c s pc) (hn : Undisturbed s s')
    (hp : Promised c s → Promised c s') : StopAt c s' pc := by
  cases pc with
  | stopClear => exact ⟨hn.running.trans h.1, hn.serves h.2⟩
  | stopPost | stopIo => exact ⟨hn.running.trans h.1, hn.serves h.2⟩
  | stopWait => exact ⟨hn.running.trans h.1, hn.serves h.2.1, hp h.2.2⟩
  | stopJoin => exact ⟨hn.running.trans h.1, hn.ioStopped.trans h.2⟩
  | idle | startOpen | startSpawn | startSet | sendPost _ => exact h.elim

/-- A call going on takes nothing from `strand_`, no promise but its own, and no handler. -/
theorem advance_leaves {env : Env} {caller : Caller} {pc pc' : Pc} {u : State}
    (hadv : advance env caller s pc = some (pc', u)) :
    (u.done = s.done ∨ (pc = .stopWait ∧ u.done = s.done.erase caller)) ∧
      (∃ items, u.strand = s.strand ++ items) ∧
        ∀ f, s.ioThread = .handling f → u.ioThread = .handling f := by
  have hnil : ∃ items, s.strand = s.strand ++ items := ⟨[], (List.append_nil _).symm⟩
  cases advances_of_advance hadv with
  | stopClear | stopIo | startSet | notJoinable | joinSelf | respawn | opened | notOpened =>
    exact ⟨Or.inl rfl, hnil, fun _ hf => hf⟩
  | stopPost | sendPost _ => exact ⟨Or.inl rfl, ⟨_, rfl⟩, fun _ hf => hf⟩
  | stopWait => exact ⟨Or.inr ⟨rfl, rfl⟩, hnil, fun _ hf => hf⟩
  | join thread _ hio | spawn hio =>
    exact ⟨Or.inl rfl, hnil, fun _ hf => absurd (hio.symm.trans hf) (by simp)⟩

theorem promised_advance {env : Env} {caller : Caller} {pc pc' : Pc} {u : State}
    (hadv : advance env caller s pc = some (pc', u)) {c : Caller} (h : Promised c s)
    (hne : caller ≠ c ∨ pc ≠ .stopWait) : Promised c u := by
  obtain ⟨hdone, ⟨items, hstrand⟩, hio⟩ := advance_leaves hadv
  refine h.mono ?_ ?_ fun f hf => ⟨f, hio f hf, rfl⟩
  · intro hc
    rcases hdone with hsame | ⟨hpc, herase⟩
    · rwa [hsame]
    · rw [herase, List.mem_erase_of_ne]
      · exact hc
      · rcases hne with hne | hne
        · exact hne.symm
        · exact absurd hpc hne
  · intro item hitem
    rw [hstrand]
    exact List.mem_append_left _ hitem

/-- A promise is kept until its own caller takes the value. -/
theorem promised_of_moves {l : Label} (h : Moves s l s') {c : Caller} (hp : Promised c s)
    (hl : ∀ env, actor? l = some (c, env) → pcOf s c ≠ .stopWait) : Promised c s' := by
  cases h with
  | call thread c' hidle =>
    obtain ⟨es, -, hs⟩ := begin_snd c' s
    rw [hs]
    exact hp.mono (fun h => h) (fun _ h => h) fun f hf => ⟨f, hf, rfl⟩
  | advance thread env pc u hadv =>
    have hne : Caller.user thread ≠ c ∨ s.threads thread ≠ .stopWait := by
      by_cases hc : Caller.user thread = c
      · subst hc
        exact Or.inr (hl env rfl)
      · exact Or.inl hc
    exact (promised_advance hadv hp hne).mono (fun h => h) (fun _ h => h)
      fun f hf => ⟨f, hf, rfl⟩
  | setReceiveCallback set | setErrorCallback set =>
    exact hp.mono (fun h => h) (fun _ h => h) fun f hf => ⟨f, hf, rfl⟩
  | complete i out before after t res hpick hwait hres =>
    obtain ⟨buffer, es, -, hs⟩ :=
      deliver_eq out t { s with ops := before ++ ⟨t, some res⟩ :: after }
    rw [hs]
    exact hp.mono (fun h => h) (fun _ h => h) fun f hf => ⟨f, hf, rfl⟩
  | dispatch i before after t res hio hstop hpick =>
    exact hp.mono (fun h => h) (fun _ h => List.mem_append_left _ h) fun f hf => ⟨f, hf, rfl⟩
  | runStrand env item rest hio hstop hstrand =>
    have hrun := handled_run env { s with strand := rest } item
    rcases hp with hdone | hposted | ⟨f, hf, -⟩
    · exact Or.inl (hrun.done c hdone)
    · rw [hstrand] at hposted
      rcases List.mem_cons.mp hposted with hfirst | hrest
      · subst hfirst
        rcases promised_run env c { s with strand := rest } with hdone | hset
        · exact Or.inl hdone
        · exact Or.inr (Or.inr hset)
      · exact Or.inr (Or.inl (by rw [hrun.strand]; exact hrest))
    · exact absurd (hio.symm.trans hf) (by simp)
  | ioCall env f c' calls hf hfpc hcalls =>
    obtain ⟨es, -, hs⟩ := begin_snd c' s
    rw [hs]
    refine hp.mono (fun h => h) (fun _ h => h) fun f' hf' => ⟨_, rfl, ?_⟩
    obtain rfl : f = f' := IoThread.handling.inj (hf.symm.trans hf')
    rfl
  | ioThrow env f hf hfpc hcalls hthrows =>
    exact hp.mono (fun h => h) (fun _ h => h) fun f hf => ⟨f, hf, rfl⟩
  | ioReturn env f hf hfpc hcalls hthrows =>
    have hrun := handled_afterRun env { s with ioThread := .running } f.after
    rcases hp with hdone | hposted | ⟨f', hf', hset⟩
    · exact Or.inl (hrun.done c hdone)
    · exact Or.inr (Or.inl (by rw [hrun.strand]; exact hposted))
    · obtain rfl : f = f' := IoThread.handling.inj (hf.symm.trans hf')
      rw [hset]
      exact Or.inl (done_setValue c _)
  | ioGo env f pc u hf hfpc hadv =>
    have hne : Caller.io ≠ c ∨ f.pc ≠ .stopWait := by
      by_cases hc : Caller.io = c
      · subst hc
        rw [← pcOf_io_handling hf]
        exact Or.inr (hl env rfl)
      · exact Or.inl hc
    have hu := (advance_leaves hadv).2.2 f hf
    refine (promised_advance hadv hp hne).mono (fun h => h) (fun _ h => h)
      fun f' hf' => ⟨_, rfl, ?_⟩
    obtain rfl : f = f' := IoThread.handling.inj (hu.symm.trans hf')
    rfl
  | ioExit hio hstop =>
    exact hp.mono (fun h => h) (fun _ h => h) fun f hf => absurd (hio.symm.trans hf) (by simp)

end

end AsioLearn.SerialPort
