import AsioLearn.TcpClient.Frames
import Mathlib.Data.List.Forall2

/-!
# Callbacks that throw

Every user callback is invoked under a `catch (...)` that does nothing, so whether it returns or
throws makes no difference to the client: not to its state, not to what it starts, not to what
the callbacks are invoked with afterwards. Two steps are `Alike` when they differ in nothing else.

* `throws_undisturbed`: runs whose steps are alike go through the same states.
-/

namespace AsioLearn.TcpClient

open Proactor Lts

/-! ## The same but for exceptions -/

/-- Both callbacks make the same calls; one may throw where the other returns. -/
def Callback.Alike (cb cb' : Callback) : Prop := cb.calls = cb'.calls

structure Env.Alike (env env' : Env) : Prop where
  resolved : env.resolved = env'.resolved
  openError : env.openError = env'.openError
  onMessage : env.onMessage.Alike env'.onMessage
  onStatus : env.onStatus.Alike env'.onStatus
  onStatus2 : env.onStatus2.Alike env'.onStatus2

inductive Label.Alike : Label → Label → Prop
  | refl (l : Label) : Alike l l
  | start {env env' : Env} : env.Alike env' → Alike (.start env) (.start env')
  | runPosted {env env' : Env} : env.Alike env' → Alike (.runPosted env) (.runPosted env')
  | runOp (i : ℕ) {env env' : Env} : env.Alike env' → Alike (.runOp i env) (.runOp i env')

theorem Env.Alike.symm {env env' : Env} (h : env.Alike env') : env'.Alike env :=
  ⟨h.resolved.symm, h.openError.symm, Eq.symm h.onMessage, Eq.symm h.onStatus,
    Eq.symm h.onStatus2⟩

theorem Label.Alike.symm {l l' : Label} (h : l.Alike l') : l'.Alike l := by
  cases h with
  | refl => exact .refl _
  | start h => exact .start h.symm
  | runPosted h => exact .runPosted h.symm
  | runOp i h => exact .runOp i h.symm

/-! ## The functions that invoke callbacks -/

section Callbacks

variable {cb cb' : Callback} (h : cb.Alike cb') (s : State)

include h

theorem Callback.Alike.invoke : catchAll (cb.invoke s) = catchAll (cb'.invoke s) := by
  unfold Callback.Alike at h
  show cb.calls.foldl (fun s c => c.run s) s = cb'.calls.foldl (fun s c => c.run s) s
  rw [h]

theorem Callback.Alike.setStatus (st : Status) (info : Info) :
    TcpClient.setStatus st info cb s = TcpClient.setStatus st info cb' s := by
  rw [setStatus_cases, setStatus_cases, h.invoke]

theorem Callback.Alike.scheduleReconnect :
    TcpClient.scheduleReconnect cb s = TcpClient.scheduleReconnect cb' s := by
  unfold TcpClient.scheduleReconnect
  rw [h.setStatus]

end Callbacks

/-! ## The handlers -/

section Handlers

variable {env env' : Env} (h : env.Alike env') (s : State)

include h

theorem Env.Alike.rangeConnect (rest : List Endpoint) (session : ℕ) :
    TcpClient.rangeConnect env rest session s = TcpClient.rangeConnect env' rest session s := by
  unfold TcpClient.rangeConnect asyncConnect
  rw [h.openError]

theorem Env.Alike.doConnect : TcpClient.doConnect env s = TcpClient.doConnect env' s := by
  unfold TcpClient.doConnect
  rw [h.resolved]
  split
  · rfl
  · split
    · rfl
    · rw [h.rangeConnect]

theorem Env.Alike.report (st : Status) (info : Info) :
    TcpClient.scheduleReconnect env.onStatus2 (TcpClient.setStatus st info env.onStatus s) =
      TcpClient.scheduleReconnect env'.onStatus2
        (TcpClient.setStatus st info env'.onStatus s) := by
  rw [h.onStatus.setStatus, h.onStatus2.scheduleReconnect]

theorem Env.Alike.connectHandler (sock : Socket) (ec : Option ErrorCode) :
    TcpClient.connectHandler env sock ec s = TcpClient.connectHandler env' sock ec s := by
  unfold TcpClient.connectHandler
  split
  · rfl
  · split
    · rw [h.onStatus.setStatus]
    · rw [h.report]

theorem Env.Alike.connectResume (t : Task) (rest : List Endpoint) (ec : Option ErrorCode) :
    TcpClient.connectResume env t rest ec s = TcpClient.connectResume env' t rest ec s := by
  unfold TcpClient.connectResume
  split
  · split
    · rw [h.connectHandler]
    · rw [h.connectHandler]
    · rw [h.rangeConnect]
  · rw [h.connectHandler]

theorem Env.Alike.readHandler (r : Result) :
    TcpClient.readHandler env r s = TcpClient.readHandler env' r s := by
  unfold TcpClient.readHandler
  split
  · rfl
  · split
    · simp only [h.onMessage.invoke, apply_ite catchAll]
    · simp only [h.onStatus.setStatus, h.onStatus2.scheduleReconnect]

theorem Env.Alike.writeHandler (ec : Option ErrorCode) :
    TcpClient.writeHandler env ec s = TcpClient.writeHandler env' ec s := by
  unfold TcpClient.writeHandler
  split
  · rfl
  · split
    · rfl
    · rw [h.report]

theorem Env.Alike.writeResume (t : Task) (msg : Bytes) (sent : ℕ) (r : Result) :
    TcpClient.writeResume env t msg sent r s = TcpClient.writeResume env' t msg sent r s := by
  unfold TcpClient.writeResume
  split
  · rw [h.writeHandler]
  · rw [h.writeHandler]

theorem Env.Alike.waitHandler (ec : Option ErrorCode) :
    TcpClient.waitHandler env ec s = TcpClient.waitHandler env' ec s := by
  unfold TcpClient.waitHandler
  rw [h.doConnect]

theorem Env.Alike.runHandler (t : Task) (r : Result) :
    TcpClient.runHandler env t r s = TcpClient.runHandler env' t r s := by
  unfold TcpClient.runHandler
  split
  · rw [h.connectResume]
  · rw [h.readHandler]
  · rw [h.writeResume]
  · rw [h.waitHandler]

theorem Env.Alike.runPosted (c : Posted) :
    TcpClient.runPosted env c s = TcpClient.runPosted env' c s := by
  cases c with
  | send thread msg => rfl
  | close session =>
    simp only [TcpClient.runPosted, h.onStatus.setStatus]

end Handlers

/-! ## Runs -/

/-- Alike steps lead to the same state. -/
theorem step_alike (s : State) (l l' : Label) (h : l.Alike l') : step s l = step s l' := by
  cases h with
  | refl => rfl
  | start h => simp only [step, start, h.doConnect]
  | runPosted h => simp only [step, h.runPosted]
  | runOp i h => simp only [step, h.runHandler]

/-- **Throwing callbacks change nothing.** Of two sequences of steps that differ only in which
invocations of `on_message_` and `on_status_` throw, both are runs or neither is, and each step
leads to the same state: the same members, the same operations, and the same history of
operations started and callbacks invoked. -/
theorem throws_undisturbed (ls ls' : List Label) (h : List.Forall₂ Label.Alike ls ls') :
    trace step init ls = trace step init ls' ∧
      ∀ s, Run step Any init ls s ↔ Run step Any init ls' s := by
  have hback : List.Forall₂ Label.Alike ls' ls := h.flip.imp fun _ _ hl => hl.symm
  exact ⟨trace_congr step_alike h init, fun s =>
    ⟨fun hrun => hrun.congr step_alike h, fun hrun => hrun.congr step_alike hback⟩⟩

/-- The callbacks return, or they throw. -/
def callbacks (throws : Bool) : Env :=
  { onMessage := ⟨[], throws⟩, onStatus := ⟨[], throws⟩, onStatus2 := ⟨[], throws⟩ }

/-- A message is received and the connection lost. -/
def receivesAndLoses (throws : Bool) : List Label :=
  [.setMessageCallback true, .setStatusCallback true, .start (callbacks throws),
    .complete 0 .connected, .runOp 0 (callbacks throws), .complete 0 (.received [97]),
    .runOp 0 (callbacks throws), .complete 0 (.failed .eof), .runOp 0 (callbacks throws)]

theorem alike_receivesAndLoses :
    List.Forall₂ Label.Alike (receivesAndLoses false) (receivesAndLoses true) := by
  have henv : (callbacks false).Alike (callbacks true) := ⟨rfl, rfl, rfl, rfl, rfl⟩
  exact .cons (.refl _) (.cons (.refl _) (.cons (.start henv) (.cons (.refl _)
    (.cons (.runOp 0 henv) (.cons (.refl _) (.cons (.runOp 0 henv) (.cons (.refl _)
      (.cons (.runOp 0 henv) .nil))))))))

theorem throws_undisturbed_receivesAndLoses :
    trace step init (receivesAndLoses false) = trace step init (receivesAndLoses true) ∧
      Run step Any init (receivesAndLoses true)
        (reached step Any init (receivesAndLoses false)) := by
  obtain ⟨htrace, hrun⟩ := throws_undisturbed _ _ alike_receivesAndLoses
  exact ⟨htrace, (hrun _).mp (run_reached (by decide))⟩

end AsioLearn.TcpClient
