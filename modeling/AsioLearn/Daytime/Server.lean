import AsioLearn.Daytime.TcpServer
import AsioLearn.Daytime.UdpServer

/-!
# The combined daytime server

`main` makes a `tcp_server` and a `udp_server` on one `io_context` and runs it on one thread. They
share nothing else, so a run of the two is an interleaving of their steps. The handler of an accept
starts the next one whether or not it has failed; that of a receive only if it has not.

* `serving_iff`: the combined server serves exactly as long as no receive fails.
-/

namespace AsioLearn.Daytime

open Proactor Lts

abbrev State := TcpServer.State × UdpServer.State

abbrev Label := TcpServer.Label ⊕ UdpServer.Label

def step : State → Label → Option State := par TcpServer.step UdpServer.step

/-- The servers of `main`, before `io_context.run()`. -/
def init : State := (TcpServer.init, UdpServer.init)

/-- The TCP half serves, and one receive is outstanding or queued. -/
structure Serving (s : State) : Prop where
  tcp : TcpServer.Serving s.1
  receive : UdpServer.receives s.2 = 1

/-- The step runs no handler of a receive that has failed. -/
def KeepsReceiving (s : State) : Label → Prop
  | .inl _ => True
  | .inr l => UdpServer.endsReceiving s.2 l = false

instance (s : State) : ∀ l : Label, Decidable (KeepsReceiving s l)
  | .inl _ => isTrue trivial
  | .inr l => inferInstanceAs (Decidable (UdpServer.endsReceiving s.2 l = false))

/-- What every step keeps that runs no such handler. -/
structure Invariant (s : State) : Prop where
  tcp : TcpServer.Invariant s.1
  receive : UdpServer.receives s.2 = 1

theorem invariant_init : Invariant init := ⟨TcpServer.invariant_init, rfl⟩

/-- The TCP half serves whatever becomes of the UDP half. -/
theorem step_tcp {s s' : State} (h : TcpServer.Invariant s.1) {l : Label}
    (hs : step s l = some s') : TcpServer.Invariant s'.1 := by
  cases l with
  | inl l => exact TcpServer.step_invariant h (par_inl hs).1
  | inr l =>
    rw [(par_inr hs).1]
    exact h

theorem step_invariant {s s' : State} (h : Invariant s) {l : Label} (hok : KeepsReceiving s l)
    (hs : step s l = some s') : Invariant s' := by
  refine ⟨step_tcp h.tcp hs, ?_⟩
  cases l with
  | inl l =>
    rw [(par_inl hs).2]
    exact h.receive
  | inr l =>
    have hcount := UdpServer.receives_of_moves (UdpServer.moves_of_step (par_inr hs).2)
    rw [show UdpServer.endsReceiving s.2 l = false from hok, h.receive] at hcount
    exact hcount

/-- After a failed receive nobody receives. -/
theorem not_serving_of_failed {s s' : State} (h : Invariant s) {l : Label}
    (hno : ¬ KeepsReceiving s l) (hs : step s l = some s') : ¬ Serving s' := by
  cases l with
  | inl l => exact absurd trivial hno
  | inr l =>
    intro hserving
    have hcount := UdpServer.receives_of_moves (UdpServer.moves_of_step (par_inr hs).2)
    have hends : UdpServer.endsReceiving s.2 l = true := by
      by_contra hne
      exact hno (by simpa [KeepsReceiving] using hne)
    rw [hends, h.receive, hserving.receive] at hcount
    exact absurd hcount (by simp)

/-- **Serving.** Along every run of the combined server one accept and one receive are outstanding
or queued, every accepted connection is written to once, and it is alive while it is, exactly if
the run has run no handler of a receive that has failed. -/
theorem serving_iff (ls : List Label) (s : State) (h : Run step Any init ls s) :
    Throughout step Serving init ls ↔ EachStep step KeepsReceiving init ls :=
  throughout_iff_eachStep (I := Invariant) (fun _ hI => ⟨hI.tcp.toServing, hI.receive⟩)
    (fun _ _ _ hI _ hok hs => step_invariant hI hok hs)
    (fun _ _ _ hI _ hno hs => not_serving_of_failed hI hno hs) h invariant_init

/-- A failed accept, a client of either protocol, and a failed send. -/
def servesBoth : List Label :=
  [.inl (.complete 0 (.failed .connectionReset)), .inl (.run 0 [49]),
    .inl (.complete 0 .accepted), .inr (.complete 0 (.received ⟨1, 2⟩ 1)), .inl (.run 0 [50]),
    .inr (.run 0 [51]), .inr (.complete 0 (.failed .connectionReset)),
    .inl (.complete 0 (.wrote 1)), .inl (.run 0 []), .inr (.run 0 [])]

theorem serving_iff_servesBoth : Throughout step Serving init servesBoth :=
  (serving_iff servesBoth _ (run_reached (by decide))).mpr (by decide)

/-- A receive fails once, and the UDP half serves no more. -/
theorem not_serving : ¬ ∀ (ls : List Label) (s : State),
    Run step Any init ls s → Throughout step Serving init ls := by
  intro h
  have hserving := h [.inr (.complete 0 (.failed .connectionReset)), .inr (.run 0 [])] _
    (run_reached (by decide))
  have hlast := ((hserving.2 _ rfl).2 _ rfl).receive
  exact absurd hlast (by decide)

end AsioLearn.Daytime
