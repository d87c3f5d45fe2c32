import Mathlib.Data.List.Basic
import Mathlib.Tactic.Common

/-!
# What the programs use of `asio`

Error codes, the results that completion handlers are given, the decision of `write_op` whether
it goes on, and the fixed read buffer of both clients.
-/

namespace AsioLearn

abbrev Bytes := List UInt8

/-- A non-zero `std::error_code`. -/
inductive ErrorCode
  | eof
  | connectionReset
  | operationAborted
  | badDescriptor
  | other (value : ℕ) (text : String)
  deriving DecidableEq, Repr

/-- `ec.message()`. -/
def ErrorCode.message : ErrorCode → String
  | eof => "End of file"
  | connectionReset => "Connection reset by peer"
  | operationAborted => "Operation aborted."
  | badDescriptor => "Bad file descriptor"
  | other _ text => text

/-- What a completion handler is given: an error code and a number of bytes. -/
structure Result where
  ec : Option ErrorCode
  length : ℕ := 0
  deriving DecidableEq, Repr

def Result.ok (length : ℕ) : Result := ⟨none, length⟩

def Result.error (ec : ErrorCode) : Result := ⟨some ec, 0⟩

def Result.aborted : Result := .error .operationAborted

/-- After this result the `write_op` is over and calls its handler. -/
def Result.endsWrite (msg : Bytes) (sent : ℕ) (r : Result) : Bool :=
  r.ec.isSome || (r.length == 0 || decide (msg.length ≤ sent + r.length))

theorem Result.endsWrite_ok {msg : Bytes} {sent n : ℕ} :
    (Result.ok n).endsWrite msg sent = true ↔ n = 0 ∨ msg.length ≤ sent + n := by
  show (false || (n == 0 || decide (msg.length ≤ sent + n))) = true ↔ _
  simp

/-- `default_max_transfer_size` of `completion_condition.hpp`: the most one `async_write_some`
of a `write_op` is given. -/
def maxTransfer : ℕ := 65536

/-- A read buffer, `std::array<char, 1024>`. -/
structure ReadBuf where
  bytes : Bytes
  size : bytes.length = 1024
  deriving DecidableEq

def ReadBuf.empty : ReadBuf := ⟨List.replicate 1024 0, List.length_replicate⟩

/-- The buffer after a read has placed `data` at its start. -/
def ReadBuf.fill (b : ReadBuf) (data : Bytes) : ReadBuf :=
  ⟨(data ++ b.bytes.drop data.length).take 1024, by
    rw [List.length_take, List.length_append, List.length_drop, b.size]; omega⟩

end AsioLearn
