import Mathlib.Data.List.Basic
import Mathlib.Tactic.Common

/-!
# Messages on a wire

What a stream of messages is for: what has been put on the wire is the messages accepted, in the
order they were accepted, up to a point. The rest is still to be put. A state in which anything
else is on the wire cannot be built.
-/

/-- The messages accepted, what is on the wire, and what is left. -/
structure Line (α : Type*) where
  accepted : List (List α)
  wire : List α
  rest : List α
  whole : wire ++ rest = accepted.flatten

namespace Line

variable {α : Type*}

def empty : Line α := ⟨[], [], [], rfl⟩

/-- Accept a message, behind everything accepted so far. -/
def push (m : List α) (l : Line α) : Line α where
  accepted := l.accepted ++ [m]
  wire := l.wire
  rest := l.rest ++ m
  whole := by rw [← List.append_assoc, l.whole]; simp

/-- Put the next `n` elements on the wire. -/
def put (n : ℕ) (l : Line α) : Line α where
  accepted := l.accepted
  wire := l.wire ++ l.rest.take n
  rest := l.rest.drop n
  whole := by rw [List.append_assoc, List.take_append_drop, l.whole]

theorem wire_isPrefix (l : Line α) : l.wire <+: l.accepted.flatten := ⟨l.rest, l.whole⟩

end Line
