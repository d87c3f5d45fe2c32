import Mathlib.Data.List.Basic
import Mathlib.Tactic.Common

/-!
# A queue with a single writer

What a message queue in front of a stream is for: messages are accepted in order, and each is
written once, in that order, one at a time. The front message is being written (`busy`), nothing
is queued (`idle`), or the front message has been started and nobody writes any more (`stuck`).
A state cannot be built in which two messages are being written, or one that is not the front.
-/

/-- The messages written so far, and the queue with what is happening to its front. -/
inductive Outbox (μ : Type*)
  | idle (sent : List μ)
  | busy (sent : List μ) (front : μ) (rest : List μ)
  | stuck (sent : List μ) (front : μ) (rest : List μ)

namespace Outbox

variable {μ : Type*}

/-- The messages accepted and not yet written. -/
def queue : Outbox μ → List μ
  | idle _ => []
  | busy _ front rest | stuck _ front rest => front :: rest

/-- Every message accepted. -/
def accepted : Outbox μ → List μ
  | idle sent => sent
  | busy sent front rest | stuck sent front rest => sent ++ front :: rest

/-- Every message whose writing was begun. -/
def started : Outbox μ → List μ
  | idle sent => sent
  | busy sent front _ | stuck sent front _ => sent ++ [front]

/-- The messages being written. -/
def writers : Outbox μ → List μ
  | busy _ front _ => [front]
  | idle _ | stuck _ _ _ => []

/-- Accept a message; a queue that was empty begins to write it. -/
def push (m : μ) : Outbox μ → Outbox μ
  | idle sent => busy sent m []
  | busy sent front rest => busy sent front (rest ++ [m])
  | stuck sent front rest => stuck sent front (rest ++ [m])

/-- The front message has been written; the next one, if any, is begun. -/
def finish : Outbox μ → Outbox μ
  | busy sent front [] => idle (sent ++ [front])
  | busy sent front (next :: rest) => busy (sent ++ [front]) next rest
  | o => o

/-- The writing of the front message has ended without success. -/
def drop : Outbox μ → Outbox μ
  | busy sent front rest => stuck sent front rest
  | o => o

def IsStuck : Outbox μ → Prop
  | stuck _ _ _ => True
  | _ => False

theorem writers_length_le (o : Outbox μ) : o.writers.length ≤ 1 := by
  cases o <;> simp [writers]

theorem head?_queue {o : Outbox μ} {m : μ} (h : m ∈ o.writers) : o.queue.head? = some m := by
  cases o with
  | idle => exact absurd h (by simp [writers])
  | busy sent front rest => rw [List.mem_singleton.mp h]; rfl
  | stuck => exact absurd h (by simp [writers])

theorem started_isPrefix (o : Outbox μ) : o.started <+: o.accepted := by
  cases o with
  | idle => exact List.prefix_rfl
  | busy sent front rest => exact ⟨rest, by simp [started, accepted]⟩
  | stuck sent front rest => exact ⟨rest, by simp [started, accepted]⟩

/-- Outside a stuck queue a message waits only behind one that is being written. -/
theorem writers_of_queue {o : Outbox μ} (h : ¬ o.IsStuck) (hq : o.queue ≠ []) :
    o.writers = o.queue.head?.toList := by
  cases o with
  | idle => exact absurd rfl hq
  | busy => rfl
  | stuck => exact absurd trivial h

theorem isStuck_iff (o : Outbox μ) : o.IsStuck ↔ o.queue ≠ [] ∧ o.writers = [] := by
  cases o <;> simp [IsStuck, queue, writers]

theorem IsStuck.push {o : Outbox μ} (h : o.IsStuck) (m : μ) : (o.push m).IsStuck := by
  cases o with
  | stuck => trivial
  | idle => exact h.elim
  | busy => exact h.elim

theorem isStuck_push {o : Outbox μ} {m : μ} : (o.push m).IsStuck ↔ o.IsStuck := by
  cases o <;> simp [Outbox.push, IsStuck]

theorem isStuck_finish {o : Outbox μ} : o.finish.IsStuck ↔ o.IsStuck := by
  cases o with
  | busy sent front rest => cases rest <;> simp [finish, IsStuck]
  | idle => simp [finish, IsStuck]
  | stuck => simp [finish, IsStuck]

end Outbox
