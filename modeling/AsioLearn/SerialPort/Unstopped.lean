import AsioLearn.SerialPort.Steps

/-!
# Sessions nobody stops

Without a call of `stop()` the port is never closed: it is open whenever `running_` is set, and
whenever a closure of `send()` runs.
-/

namespace AsioLearn.SerialPort

open Proactor

/-- The step begins no call of `stop()`. -/
def NoStop (s : State) (l : Label) : Prop := (begun? s l).map Prod.snd ≠ some .stop

instance (s : State) (l : Label) : Decidable (NoStop s l) := by
  unfold NoStop
  infer_instance

/-- The points of a call at which the port has been opened. -/
def Pc.onPort : Pc → Bool
  | .startSpawn | .startSet | .sendPost _ => true
  | _ => false

/-- Where a caller may be in such a session. -/
def Pc.Allowed (isOpen : Bool) (pc : Pc) : Prop :=
  pc.inStop = false ∧ (pc.onPort = true → isOpen = true)

/-- What may be in `strand_` in such a session. -/
def Item.Allowed (isOpen : Bool) : Item → Prop
  | .send _ => isOpen = true
  | .stop _ => False
  | .completed t _ => t.isWrite = true → isOpen = true

structure Unstopped (s : State) : Prop where
  calls : ∀ c, (pcOf s c).Allowed s.portOpen
  items : ∀ item ∈ s.strand, item.Allowed s.portOpen
  writes : ∀ op ∈ s.ops, op.task.isWrite = true → s.portOpen = true
  running : s.running = true → s.portOpen = true

theorem Pc.allowed_idle (isOpen : Bool) : Pc.idle.Allowed isOpen :=
  ⟨rfl, fun h => absurd h (by simp [Pc.onPort])⟩

theorem Pc.Allowed.mono {b b' : Bool} {pc : Pc} (h : pc.Allowed b) (hb : b = true → b' = true) :
    pc.Allowed b' := ⟨h.1, fun hp => hb (h.2 hp)⟩

theorem Item.Allowed.mono {b b' : Bool} {item : Item} (h : item.Allowed b)
    (hb : b = true → b' = true) : item.Allowed b' := by
  cases item with
  | send msg => exact hb h
  | stop c => exact h
  | completed t r => exact fun ht => hb (h ht)

section

variable {s s' : State}

/-- The port stays open, no caller moves to another point of a call, and what is posted may be. -/
theorem Unstopped.mono (h : Unstopped s) (hcalls : ∀ c, pcOf s' c = pcOf s c ∨ pcOf s' c = .idle)
    (hopen : s.portOpen = true → s'.portOpen = true)
    (hitems : ∀ item ∈ s'.strand, item ∈ s.strand ∨ item.Allowed s'.portOpen)
    (hops : ∀ op ∈ s'.ops, op.task.isWrite = true →
      (∃ o ∈ s.ops, o.task.isWrite = true) ∨ s'.portOpen = true)
    (hrunning : s'.running = s.running) : Unstopped s' := by
  refine ⟨?_, ?_, ?_, fun hr => hopen (h.running (hrunning ▸ hr))⟩
  · intro c
    rcases hcalls c with hc | hc
    · rw [hc]
      exact (h.calls c).mono hopen
    · rw [hc]
      exact Pc.allowed_idle _
  · intro item hitem
    rcases hitems item hitem with hmem | hallowed
    · exact (h.items item hmem).mono hopen
    · exact hallowed
  · intro op hop hw
    rcases hops op hop hw with ⟨o, ho, hwo⟩ | hopen'
    · exact hopen (h.writes o ho hwo)
    · exact hopen'

/-- Nothing is posted and nothing is started. -/
theorem Unstopped.same (h : Unstopped s) (hcalls : ∀ c, pcOf s' c = pcOf s c ∨ pcOf s' c = .idle)
    (hopen : s.portOpen = true → s'.portOpen = true) (hstrand : s'.strand = s.strand)
    (hops : s'.ops = s.ops) (hrunning : s'.running = s.running) : Unstopped s' :=
  h.mono hcalls hopen (fun _ hitem => Or.inl (hstrand ▸ hitem))
    (fun op hop hw => Or.inl ⟨op, hops ▸ hop, hw⟩) hrunning

/-- A user thread goes on to another point. -/
theorem Unstopped.user (h : Unstopped s) {pc : Pc} (hpc : pc.Allowed s.portOpen) (thread : ℕ) :
    Unstopped { s with threads := Function.update s.threads thread pc } := by
  refine ⟨?_, h.items, h.writes, h.running⟩
  intro c
  cases c with
  | io => exact h.calls .io
  | user t =>
    by_cases ht : t = thread
    · subst ht
      show (Function.update s.threads t pc t).Allowed s.portOpen
      rwa [Function.update_self]
    · show (Function.update s.threads thread pc t).Allowed s.portOpen
      rw [Function.update_of_ne ht]
      exact h.calls (.user t)

/-- The io thread goes on to another point. -/
theorem Unstopped.frame (h : Unstopped s) {f : Frame} (hpc : f.pc.Allowed s.portOpen) :
    Unstopped { s with ioThread := .handling f } := by
  refine ⟨?_, h.items, h.writes, h.running⟩
  intro c
  cases c with
  | io => exact hpc
  | user t => exact h.calls (.user t)

theorem Unstopped.log (h : Unstopped s) (es : List Event) :
    Unstopped { s with log := s.log ++ es } :=
  h.same (fun _ => Or.inl rfl) (fun h => h) rfl rfl rfl

theorem unstopped_begin (h : Unstopped s) {c : Call} (hc : c ≠ .stop) :
    Unstopped (c.begin s).2 ∧ (c.begin s).1.Allowed (c.begin s).2.portOpen := by
  obtain ⟨es, -, hs⟩ := begin_snd c s
  rw [hs]
  refine ⟨h.log es, ?_⟩
  cases c with
  | stop => exact absurd rfl hc
  | start =>
    unfold Call.begin
    split_ifs
    · exact Pc.allowed_idle _
    · exact ⟨rfl, fun hp => absurd hp (by simp [Pc.onPort])⟩
  | send msg =>
    unfold Call.begin
    split_ifs with hr
    · exact ⟨rfl, fun _ => h.running hr⟩
    · exact Pc.allowed_idle _

/-- A caller takes its call further. -/
theorem unstopped_advance (h : Unstopped s) {env : Env} {caller : Caller} {pc : Pc} {u : State}
    (hadv : advance env caller s (pcOf s caller) = some (pc, u)) :
    Unstopped u ∧ pc.Allowed u.portOpen := by
  have hat := h.calls caller
  have hgo := advances_of_advance hadv
  generalize pcOf s caller = at' at hgo hat
  cases hgo with
  | stopClear | stopPost | stopWait | stopIo | notJoinable | join | joinSelf =>
    exact absurd hat.1 (by simp [Pc.inStop])
  | opened es =>
    exact ⟨h.mono (fun _ => Or.inl rfl) (fun _ => rfl) (fun _ h => Or.inl h)
      (fun _ _ _ => Or.inr rfl) rfl, rfl, fun _ => rfl⟩
  | notOpened es isOpen _ _ hopen =>
    exact ⟨h.same (fun _ => Or.inl rfl) hopen rfl rfl rfl, Pc.allowed_idle _⟩
  | spawn =>
    have hopen := hat.2 rfl
    refine ⟨h.same ?_ (fun h => h) rfl rfl rfl, rfl, fun _ => hopen⟩
    intro c
    cases c with
    | io => exact Or.inr rfl
    | user t => exact Or.inl rfl
  | respawn =>
    exact ⟨h.same (fun _ => Or.inl rfl) (fun h => h) rfl rfl rfl, Pc.allowed_idle _⟩
  | startSet => exact ⟨⟨h.calls, h.items, h.writes, fun _ => hat.2 rfl⟩, Pc.allowed_idle _⟩
  | sendPost msg =>
    refine ⟨h.mono (fun _ => Or.inl rfl) (fun h => h) ?_
      (fun op hop hw => Or.inl ⟨op, hop, hw⟩) rfl, Pc.allowed_idle _⟩
    intro item hitem
    rcases List.mem_append.mp hitem with hmem | hnew
    · exact Or.inl hmem
    · rw [List.mem_singleton.mp hnew]
      exact Or.inr (hat.2 rfl)

/-- What is started, on a port that stays as it is. -/
structure Started (s s' : State) : Prop where
  portOpen : s'.portOpen = s.portOpen
  ops : ∃ new, s'.ops = s.ops ++ new ∧
    ∀ op ∈ new, op.task.isWrite = true → s.portOpen = true

theorem started_of_same (hopen : s'.portOpen = s.portOpen) (hops : s'.ops = s.ops) :
    Started s s' :=
  ⟨hopen, [], by rw [hops, List.append_nil], by simp⟩

theorem started_startOp {t : Task} (ht : t.isWrite = true → s.portOpen = true) :
    Started s (startOp t s) :=
  ⟨rfl, _, rfl, by simpa using ht⟩

theorem started_writeSome (hopen : s.portOpen = true) (msg : Bytes) (sent : ℕ) :
    Started s (writeSome msg sent s) := by
  unfold writeSome
  split_ifs
  · exact ⟨rfl, _, rfl, fun _ _ _ => hopen⟩
  · exact started_startOp fun _ => hopen

theorem started_afterRun (a : After) : Started s (a.run s) := by
  cases a with
  | startRead => exact started_startOp fun h => absurd h (by simp [Task.isWrite])
  | nothing | setValue _ => exact started_of_same rfl rfl

theorem started_invoke (env : Env) (set : Bool) (e : Event) (a : After) :
    Started s (invoke env set e a s) := by
  unfold invoke
  split_ifs
  · exact started_of_same rfl rfl
  · exact started_afterRun a

/-- Without a closure of `stop()` no handler closes the port. -/
theorem started_run {env : Env} {item : Item} (hitem : item.Allowed s.portOpen) :
    Started s (item.run env s) := by
  cases item with
  | stop c => exact hitem.elim
  | send msg =>
    have hrun : (Item.send msg).run env s = writeSome msg 0 s := if_pos hitem
    rw [hrun]
    exact started_writeSome hitem msg 0
  | completed t r =>
    cases t with
    | read =>
      show Started s (readHandler env r s)
      unfold readHandler
      split
      · exact started_invoke env _ _ _
      · split_ifs
        · exact started_of_same rfl rfl
        · exact started_invoke env _ _ _
    | write msg sent =>
      show Started s (writeResume env msg sent r s)
      unfold writeResume writeHandler
      split_ifs
      · split
        · exact started_of_same rfl rfl
        · split_ifs
          · exact started_of_same rfl rfl
          · exact started_invoke env _ _ _
      · exact started_writeSome (hitem rfl) _ _

theorem Unstopped.started (h : Unstopped s) (hn : Started s s')
    (hcalls : ∀ c, pcOf s' c = pcOf s c ∨ pcOf s' c = .idle)
    (hstrand : ∀ item ∈ s'.strand, item ∈ s.strand) (hrunning : s'.running = s.running) :
    Unstopped s' := by
  obtain ⟨new, hops, hnew⟩ := hn.ops
  refine h.mono hcalls (fun ho => hn.portOpen.trans ho)
    (fun item hitem => Or.inl (hstrand item hitem)) ?_ hrunning
  intro op hop hw
  rw [hops] at hop
  rcases List.mem_append.mp hop with hop | hop
  · exact Or.inl ⟨op, hop, hw⟩
  · exact Or.inr (hn.portOpen.trans (hnew op hop hw))

/-- The port completes an operation. -/
theorem Unstopped.complete (h : Unstopped s) {before after : List (Op Task Result)} {t : Task}
    (hops : s.ops = before ++ ⟨t, none⟩ :: after) (res : Result) :
    Unstopped { s with ops := before ++ ⟨t, some res⟩ :: after } := by
  refine h.mono (fun _ => Or.inl rfl) (fun h => h) (fun _ h => Or.inl h)
    (fun op hop hw => Or.inl ?_) rfl
  rw [hops]
  rcases List.mem_append.mp hop with hop | hop
  · exact ⟨op, List.mem_append_left _ hop, hw⟩
  · rcases List.mem_cons.mp hop with rfl | hop
    · exact ⟨⟨t, none⟩, by simp, hw⟩
    · exact ⟨op, List.mem_append_right _ (List.mem_cons_of_mem _ hop), hw⟩

theorem step_unstopped (h : Unstopped s) {l : Label} (hok : NoStop s l)
    (hs : step s l = some s') : Unstopped s' := by
  cases moves_of_step hs with
  | call thread c hidle =>
    have hc : c ≠ .stop := by
      rintro rfl
      exact hok rfl
    obtain ⟨hu, hpc⟩ := unstopped_begin h hc
    exact hu.user hpc thread
  | advance thread env pc u hadv =>
    rw [← pcOf_user] at hadv
    obtain ⟨hu, hpc⟩ := unstopped_advance h hadv
    exact hu.user hpc thread
  | setReceiveCallback set | setErrorCallback set =>
    exact h.same (fun _ => Or.inl rfl) (fun h => h) rfl rfl rfl
  | complete i out before after t res hp =>
    have hdone := h.complete (pick_eq_some hp) res
    obtain ⟨buffer, es, -, hs⟩ :=
      deliver_eq out t { s with ops := before ++ ⟨t, some res⟩ :: after }
    rw [hs]
    exact hdone.same (fun _ => Or.inl rfl) (fun h => h) rfl rfl rfl
  | dispatch i before after t res hio hstop hp =>
    have hops := pick_eq_some hp
    refine h.mono (fun _ => Or.inl rfl) (fun h => h) ?_
      (fun op hop hw => Or.inl ⟨op, by rw [hops]; exact mem_of_mem_rest hop, hw⟩) rfl
    intro item hitem
    rcases List.mem_append.mp hitem with hmem | hnew
    · exact Or.inl hmem
    · rw [List.mem_singleton.mp hnew]
      exact Or.inr fun hw => h.writes ⟨t, some res⟩ (by rw [hops]; simp) hw
  | runStrand env item rest hio hstop hstrand =>
    have hrun := handled_run env { s with strand := rest } item
    have hidle : pcOf { s with strand := rest } .io = .idle := by simp only [pcOf, hio]
    obtain ⟨hopen, hops⟩ :
        Started { s with strand := rest } (item.run env { s with strand := rest }) :=
      started_run (h.items item (by rw [hstrand]; exact List.mem_cons_self))
    refine Unstopped.started h ⟨hopen, hops⟩ (fun c => Or.inl ?_) ?_ hrun.running
    · rw [pcOf_handled hrun hidle]
      rfl
    · intro item' hitem
      rw [hrun.strand] at hitem
      rw [hstrand]
      exact List.mem_cons_of_mem _ hitem
  | ioCall env f c calls hf hpc hcalls =>
    have hc : c ≠ .stop := by
      rintro rfl
      exact hok (by rw [begun?_ioAdvance hf hpc hcalls]; rfl)
    obtain ⟨hu, hpc'⟩ := unstopped_begin h hc
    exact hu.frame hpc'
  | ioThrow env f hf hpc hcalls hthrows =>
    exact h.same (fun _ => Or.inl rfl) (fun h => h) rfl rfl rfl
  | ioReturn env f hf hpc hcalls hthrows =>
    have hrun := handled_afterRun env { s with ioThread := .running } f.after
    obtain ⟨hopen, hops⟩ : Started { s with ioThread := .running }
        (f.after.run { s with ioThread := .running }) := started_afterRun f.after
    refine Unstopped.started h ⟨hopen, hops⟩ ?_ ?_ hrun.running
    · intro c
      rw [pcOf_handled hrun rfl]
      cases c with
      | io => exact Or.inr rfl
      | user t => exact Or.inl rfl
    · intro item hitem
      rwa [hrun.strand] at hitem
  | ioGo env f pc u hf hpc hadv =>
    rw [← pcOf_io_handling hf] at hadv
    obtain ⟨hu, hpc'⟩ := unstopped_advance h hadv
    exact hu.frame hpc'
  | ioExit hio hstop =>
    refine h.same ?_ (fun h => h) rfl rfl rfl
    intro c
    cases c with
    | io => exact Or.inr rfl
    | user t => exact Or.inl rfl

end

theorem unstopped_init : Unstopped init :=
  ⟨fun c => by cases c <;> exact Pc.allowed_idle _, fun item h => absurd h (by simp [init]),
    fun op h => absurd h (by simp [init]), fun h => absurd h (by simp [init])⟩

end AsioLearn.SerialPort
