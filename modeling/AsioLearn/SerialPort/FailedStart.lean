import AsioLearn.SerialPort.Progress

/-!
# What a failed `start()` leaves

The body of `open()` opens the port, sets five options, reports, and starts a read; any of these
calls but the last can throw, and the handler around them reports the failure and returns false.
It does not close the port again.

* `run_start`: a `start()` that is not interrupted, as a run of the session.
* `failed_start_iff`: failed starts leave a stopped session as it was, and it can be started after
  them, exactly if every one of them failed in `serial_.open()`.
-/

namespace AsioLearn.SerialPort

open Proactor Lts

/-! ## A start, taken to its end -/

/-- How the calls in the body of `open()` go: the text of the exception, for one that fails. -/
structure Attempt where
  openFails : Option String := none
  baudRate : Option String := none
  characterSize : Option String := none
  parity : Option String := none
  stopBits : Option String := none
  flowControl : Option String := none
  reportInfo : Option String := none
  deriving DecidableEq, Repr

/-- The five calls of `set_option`, in their order. -/
def Attempt.options (a : Attempt) : List (Option String) :=
  [a.baudRate, a.characterSize, a.parity, a.stopBits, a.flowControl]

/-- The first call that fails ends the body. -/
def Attempt.opening (a : Attempt) : Opening :=
  match a.openFails, a.options.findSome? id, a.reportInfo with
  | some what, _, _ => .cannotOpen what
  | none, some what, _ => .optionFails what
  | none, none, some what => .infoThrows what
  | none, none, none => .succeeds

def Attempt.env (a : Attempt) : Env := { opening := a.opening }

/-- `SerialPortSession::start`, made by one thread without interruption; it does not return if a
thread is assigned to the joinable `io_thread_`. -/
def start (a : Attempt) (s : State) : Option Bool × State :=
  if s.running then (some true, s)
  else
    match openPort a.env s with
    | (false, s) => (some false, s)
    | (true, s) =>
      match s.ioThread with
      | .none => (some true, { s with ioThread := .running, running := true })
      | _ => (none, { s with terminated := true })

/-- What a user does to a session that does not start. -/
inductive Request
  | setErrorCallback (set : Bool)
  | start (a : Attempt)
  deriving DecidableEq, Repr

/-- A start that fails, or a change of the callback before it. -/
def attempt (s : State) : Request → Option State
  | .setErrorCallback set => some { s with errorCallback := set }
  | .start a =>
    if (SerialPort.start a s).1 = some false then some (SerialPort.start a s).2 else none

/-- A session that is not started. -/
structure Stopped (s : State) : Prop where
  portOpen : s.portOpen = false
  running : s.running = false
  reads : ∀ op ∈ s.ops, op.task = .read → op.result.isSome = true
  ioThread : s.ioThread = .none

/-- If the request is a start, it is `serial_.open()` that fails. -/
def CannotOpen (_ : State) : Request → Prop
  | .setErrorCallback _ => True
  | .start a => a.openFails.isSome = true

instance (s : State) : ∀ r : Request, Decidable (CannotOpen s r)
  | .setErrorCallback _ => isTrue trivial
  | .start a => inferInstanceAs (Decidable (a.openFails.isSome = true))

theorem stopped_init : Stopped init :=
  ⟨rfl, rfl, fun _ h => absurd h List.not_mem_nil, rfl⟩

section

variable {s s' : State}

/-! ## The start as a run -/

theorem goOn_goOn (thread : ℕ) (pc pc' : Pc) (s : State) :
    goOn thread pc' (goOn thread pc s) = goOn thread pc' s := by
  unfold goOn
  rw [Function.update_idem]

theorem goOn_idle {thread : ℕ} (hidle : s.threads thread = .idle) : goOn thread .idle s = s := by
  unfold goOn
  rw [← hidle, Function.update_eq_self]

/-- The thread makes a call of `start()`, or takes its call further. -/
def Starting (thread : ℕ) (_ : State) (l : Label) : Prop :=
  l = .call thread .start ∨ ∃ env, l = .advance thread env

/-- A thread takes its call further. -/
theorem run_goOn {thread : ℕ} {env : Env} {pc pc' : Pc} {u : State} (hterm : s.terminated = false)
    (hadv : advance env (.user thread) (goOn thread pc s) pc = some (pc', goOn thread pc u)) :
    Run step (Starting thread) (goOn thread pc s) [.advance thread env] (goOn thread pc' u) := by
  refine .single (Or.inr ⟨env, rfl⟩) (step_of_moves hterm ?_)
  have hm : Moves (goOn thread pc s) (.advance thread env) (goOn thread pc' (goOn thread pc u)) :=
    .advance thread env pc' (goOn thread pc u) (by rw [goOn_threads]; exact hadv)
  rwa [goOn_goOn] at hm

/-- `open()` has nothing to do with the points of the threads. -/
theorem openPort_goOn (env : Env) (thread : ℕ) (pc : Pc) (s : State) :
    openPort env (goOn thread pc s) = ((openPort env s).1, goOn thread pc (openPort env s).2) := by
  cases hopen : s.portOpen with
  | true => simp [openPort, report_eq, reported, goOn, hopen]
  | false =>
    cases hcb : s.errorCallback <;> cases hhow : env.opening <;>
      simp [openPort, report_eq, reported, goOn, emit, startAsyncRead, startOp, hopen, hcb, hhow]

theorem openPort_control (env : Env) (s : State) :
    (openPort env s).2.threads = s.threads ∧ (openPort env s).2.terminated = s.terminated := by
  obtain ⟨es, -, ⟨-, -, hu⟩ | ⟨-, isOpen, -, hu⟩⟩ := openPort_cases env s <;> rw [hu]
  · exact ⟨rfl, rfl⟩
  · exact ⟨rfl, rfl⟩

/-- What a thread that starts the session and is not interrupted goes through. -/
theorem run_start (a : Attempt) {thread : ℕ} (hterm : s.terminated = false)
    (hidle : s.threads thread = .idle) :
    ∃ ls, Run step (Starting thread) s ls (start a s).2 := by
  have hcall : Run step (Starting thread) s [.call thread .start]
      (goOn thread (Call.start.begin s).1 (Call.start.begin s).2) :=
    .single (Or.inl rfl) (step_of_moves hterm (.call thread .start hidle))
  unfold Call.begin at hcall
  unfold start
  split_ifs at hcall ⊢ with hrunning
  · rw [goOn_idle hidle] at hcall
    exact ⟨_, hcall⟩
  · have hopen := advance_startOpen a.env (.user thread) (goOn thread .startOpen s)
    rw [openPort_goOn] at hopen
    have hbody := hcall.append (run_goOn hterm hopen)
    obtain ⟨hthreads, hterm'⟩ := openPort_control a.env s
    generalize openPort a.env s = opened at hbody hthreads hterm' ⊢
    obtain ⟨ok, u⟩ := opened
    have hat : u.threads thread = .idle := (congrFun hthreads thread).trans hidle
    have hgoes : u.terminated = false := hterm'.trans hterm
    cases ok with
    | false =>
      have hend : goOn thread .idle u = u := goOn_idle hat
      exact ⟨_, hend ▸ hbody⟩
    | true =>
      dsimp only
      split
      · rename_i hio
        have hspawn : Run step (Starting thread) (goOn thread .startSpawn u)
            [.advance thread {}] (goOn thread .startSet { u with ioThread := .running }) :=
          run_goOn hgoes (by simp [advance, goOn, hio])
        have hset : Run step (Starting thread)
            (goOn thread .startSet { u with ioThread := .running }) [.advance thread {}]
            (goOn thread .idle { u with ioThread := .running, running := true }) :=
          run_goOn hgoes rfl
        rw [goOn_idle (s := { u with ioThread := .running, running := true }) hat] at hset
        exact ⟨_, (hbody.append hspawn).append hset⟩
      · rename_i hio
        have hspawn : Run step (Starting thread) (goOn thread .startSpawn u)
            [.advance thread {}] (goOn thread .idle { u with terminated := true }) := by
          refine run_goOn hgoes ?_
          cases hat' : u.ioThread with
          | none => exact absurd hat' hio
          | running | handling f | exited => simp [advance, goOn, hat']
        rw [goOn_idle (s := { u with terminated := true }) hat] at hspawn
        exact ⟨_, hbody.append hspawn⟩

/-! ## Failed starts -/

/-- What a failed start has left open, and no later start can open. -/
structure LeftOpen (s : State) : Prop where
  portOpen : s.portOpen = true
  running : s.running = false

/-- A start fails in `open()`, and only if `running_` is not set. -/
theorem openPort_of_failed {a : Attempt} (h : attempt s (.start a) = some s') :
    s.running = false ∧ openPort a.env s = (false, s') := by
  simp only [attempt] at h
  split_ifs at h with hfails
  obtain rfl := Option.some.inj h
  unfold start at hfails ⊢
  split_ifs at hfails ⊢ with hrunning
  · exact absurd hfails (by simp)
  · refine ⟨by simpa using hrunning, ?_⟩
    generalize openPort a.env s = opened at hfails ⊢
    obtain ⟨ok, u⟩ := opened
    cases ok with
    | false => rfl
    | true =>
      dsimp only at hfails
      split at hfails <;> exact absurd hfails (by simp)

/-- Before any failure `open()` finds the port closed. -/
theorem opening_of_openFails {a : Attempt} :
    a.openFails.isSome = true ↔ ∃ what, a.opening = .cannotOpen what := by
  unfold Attempt.opening
  cases a.openFails with
  | some what => simp
  | none => cases a.options.findSome? id <;> cases a.reportInfo <;> simp

theorem stopped_report (h : Stopped s) (r : Report) : Stopped (report r s) := by
  rw [report_eq]
  exact ⟨h.portOpen, h.running, h.reads, h.ioThread⟩

theorem stopped_of_cannotOpen (h : Stopped s) {r : Request} (hr : CannotOpen s r)
    (hs : attempt s r = some s') : Stopped s' := by
  cases r with
  | setErrorCallback set =>
    obtain rfl := Option.some.inj hs
    exact ⟨h.portOpen, h.running, h.reads, h.ioThread⟩
  | start a =>
    obtain ⟨-, hopen⟩ := openPort_of_failed hs
    obtain ⟨what, hwhat⟩ := opening_of_openFails.mp hr
    have hbody : openPort a.env s = (false, report (.openFailed what) s) := by
      simp [openPort, h.portOpen, Attempt.env, hwhat]
    obtain ⟨-, rfl⟩ := Prod.mk.inj (hbody.symm.trans hopen)
    exact stopped_report h _

/-- A failure after `serial_.open()` leaves the port open. -/
theorem leftOpen_of_not_cannotOpen (h : Stopped s) {r : Request} (hr : ¬ CannotOpen s r)
    (hs : attempt s r = some s') : LeftOpen s' := by
  cases r with
  | setErrorCallback set => exact absurd trivial hr
  | start a =>
    obtain ⟨hrunning, hopen⟩ := openPort_of_failed hs
    simp only [CannotOpen, opening_of_openFails] at hr
    cases hhow : a.opening with
    | cannotOpen what => exact absurd ⟨what, hhow⟩ hr
    | succeeds => simp [openPort, h.portOpen, Attempt.env, hhow] at hopen
    | optionFails what =>
      simp only [openPort, h.portOpen, Attempt.env, hhow, Bool.false_eq_true, if_false,
        Prod.mk.injEq, true_and] at hopen
      rw [← hopen, report_eq]
      exact ⟨rfl, hrunning⟩
    | infoThrows what =>
      simp only [openPort, h.portOpen, Attempt.env, hhow, Bool.false_eq_true, if_false] at hopen
      split_ifs at hopen with hcb
      · rw [← (Prod.mk.inj hopen).2, report_eq, report_eq]
        exact ⟨rfl, hrunning⟩
      · exact absurd (Prod.mk.inj hopen).1 (by simp)

theorem step_leftOpen (h : LeftOpen s) {r : Request} (hs : attempt s r = some s') :
    LeftOpen s' := by
  cases r with
  | setErrorCallback set =>
    obtain rfl := Option.some.inj hs
    exact ⟨h.portOpen, h.running⟩
  | start a =>
    obtain ⟨hrunning, hopen⟩ := openPort_of_failed hs
    have hbody : openPort a.env s = (false, report (.openFailed "open: Already open") s) := by
      simp [openPort, h.portOpen]
    obtain ⟨-, rfl⟩ := Prod.mk.inj (hbody.symm.trans hopen)
    rw [report_eq]
    exact ⟨h.portOpen, hrunning⟩

/-! ## A later start -/

theorem start_of_stopped (h : Stopped s) {a : Attempt} (ha : a.opening = .succeeds) :
    (start a s).1 = some true := by
  simp [start, openPort, h.portOpen, h.running, h.ioThread, Attempt.env, ha, report_eq, emit,
    startAsyncRead, startOp]

theorem start_of_leftOpen (h : LeftOpen s) (a : Attempt) : (start a s).1 = some false := by
  simp [start, openPort, h.portOpen, h.running]

end

/-- **Failed starts.** After any number of starts of a stopped session that all return false, with
the error callback set or not before each, the session is still as it was after each of them,
exactly if each failed in `serial_.open()`; and a later start with which nothing goes wrong
returns true exactly in that case. -/
theorem failed_start_iff (s t : State) (rs : List Request) (hstopped : Stopped s)
    (h : Run attempt Any s rs t) :
    (Throughout attempt Stopped s rs ↔ EachStep attempt CannotOpen s rs) ∧
      ∀ a : Attempt, a.opening = .succeeds →
        ((start a t).1 = some true ↔ EachStep attempt CannotOpen s rs) := by
  refine ⟨throughout_iff_eachStep (I := Stopped) (fun _ hI => hI)
    (fun s r s' hI _ hr hs => stopped_of_cannotOpen hI hr hs) ?_ h hstopped, ?_⟩
  · intro s r s' hI _ hr hs hI'
    have hopen := (leftOpen_of_not_cannotOpen hI hr hs).portOpen
    exact absurd hI'.portOpen (by simp [hopen])
  · intro a ha
    rcases h.eachStep_cases (I := Stopped) (J := LeftOpen)
        (fun s r s' hI _ hr hs => stopped_of_cannotOpen hI hr hs)
        (fun s r s' hI _ hr hs => leftOpen_of_not_cannotOpen hI hr hs)
        (fun s r s' hJ _ hs => step_leftOpen hJ hs) hstopped with ⟨heach, hgood⟩ | ⟨hno, hbad⟩
    · exact ⟨fun _ => heach, fun _ => start_of_stopped hgood ha⟩
    · refine ⟨?_, fun heach => absurd heach hno⟩
      intro hyes
      exact absurd ((start_of_leftOpen hbad a).symm.trans hyes) (by simp)

/-- The device is missing twice, and is then plugged in. -/
def missingTwice : List Request :=
  [.start { openFails := some "open: No such file or directory" }, .setErrorCallback true,
    .start { openFails := some "open: Permission denied" }]

theorem failed_start_iff_missingTwice :
    (start {} (reached attempt Any init missingTwice)).1 = some true :=
  ((failed_start_iff init _ missingTwice stopped_init (run_reached (by decide))).2 {} rfl).mpr
    (by decide)

/-- The baud rate is refused once: the port stays open, and no later start succeeds. -/
theorem not_failed_start : ¬ ∀ (s t : State) (rs : List Request), Stopped s →
    Run attempt Any s rs t → Throughout attempt Stopped s rs ∧
      ∀ a : Attempt, a.opening = .succeeds → (start a t).1 = some true := by
  intro h
  obtain ⟨hkept, -⟩ := h init _ [.start { baudRate := some "set_option: Invalid argument" }]
    stopped_init (run_reached (by decide))
  have hport : Stopped (reached attempt Any init
      [.start { baudRate := some "set_option: Invalid argument" }]) := hkept.2 _ rfl
  exact absurd hport.portOpen (by decide)

end AsioLearn.SerialPort
