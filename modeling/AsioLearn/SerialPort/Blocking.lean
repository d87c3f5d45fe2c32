import AsioLearn.Asio

/-!
# The blocking write

`send()` of `serial_port_async.cpp` posts a closure that calls `asio::write`, which returns only
when the whole message has been written. Whatever the port takes at a time, closures run one
after another give it one message after another.
-/

namespace AsioLearn.SerialPort

/-- The loop of `asio::write` from byte `sent` on, given the numbers of bytes the port takes at
each `write_some`: the bytes written and the numbers left over, once it returns. -/
def blockingWrite (msg : Bytes) (sent : ℕ) : List ℕ → Option (Bytes × List ℕ)
  | [] => if msg.length ≤ sent then some ([], []) else none
  | n :: answers =>
    if msg.length ≤ sent then some ([], n :: answers)
    else
      let k := min n (min (msg.length - sent) maxTransfer)
      match blockingWrite msg (sent + k) answers with
      | some (bytes, answers) => some ((msg.drop sent).take k ++ bytes, answers)
      | none => none

/-- The closures of `send()` in `serial_port_async.cpp`, run one after another. -/
def blockingSends (answers : List ℕ) : List Bytes → Option Bytes
  | [] => some []
  | msg :: msgs =>
    match blockingWrite msg 0 answers with
    | some (bytes, answers) =>
      match blockingSends answers msgs with
      | some rest => some (bytes ++ rest)
      | none => none
    | none => none

theorem blockingWrite_eq {msg bytes : Bytes} {sent : ℕ} {answers rest : List ℕ}
    (h : blockingWrite msg sent answers = some (bytes, rest)) : bytes = msg.drop sent := by
  induction answers generalizing sent bytes with
  | nil =>
    unfold blockingWrite at h
    split_ifs at h with hle
    obtain ⟨rfl, -⟩ := Prod.mk.inj (Option.some.inj h)
    exact (List.drop_eq_nil_of_le hle).symm
  | cons n answers ih =>
    unfold blockingWrite at h
    split_ifs at h with hle
    · obtain ⟨rfl, -⟩ := Prod.mk.inj (Option.some.inj h)
      exact (List.drop_eq_nil_of_le hle).symm
    · dsimp only at h
      split at h
      · rename_i bytes' answers' hrec
        obtain ⟨rfl, rfl⟩ := Prod.mk.inj (Option.some.inj h)
        rw [ih hrec, ← List.drop_drop, List.take_append_drop]
      · exact absurd h (by simp)

/-- Whatever the port takes at a time, the blocking writes give it the messages one by one. -/
theorem blockingSends_eq {answers : List ℕ} {msgs : List Bytes} {bytes : Bytes}
    (h : blockingSends answers msgs = some bytes) : bytes = msgs.flatten := by
  induction msgs generalizing answers bytes with
  | nil => exact (Option.some.inj h).symm
  | cons msg msgs ih =>
    unfold blockingSends at h
    split at h
    · rename_i bytes' answers' hw
      split at h
      · rename_i rest hrest
        obtain rfl := Option.some.inj h
        rw [blockingWrite_eq hw, ih hrest]
        rfl
      · exact absurd h (by simp)
    · exact absurd h (by simp)

theorem blockingWrite_ones (msg : Bytes) (sent : ℕ) (answers : List ℕ) :
    blockingWrite msg sent (List.replicate (msg.length - sent) 1 ++ answers) =
      some (msg.drop sent, answers) := by
  generalize hk : msg.length - sent = k
  induction k generalizing sent with
  | zero =>
    have hle : msg.length ≤ sent := by omega
    rw [List.drop_eq_nil_of_le hle]
    cases answers with
    | nil => exact if_pos hle
    | cons n answers => exact if_pos hle
  | succ k ih =>
    have hlt : ¬ msg.length ≤ sent := by omega
    have hone : min 1 (min (msg.length - sent) maxTransfer) = 1 := by
      rw [hk, maxTransfer]
      omega
    rw [List.replicate_succ, List.cons_append]
    unfold blockingWrite
    rw [if_neg hlt, hone]
    dsimp only
    rw [ih (sent + 1) (by omega)]
    dsimp only
    rw [← List.drop_drop, List.take_append_drop]

/-- A port that takes a byte at a time lets every blocking write return. -/
theorem exists_blockingSends (msgs : List Bytes) :
    ∃ answers, blockingSends answers msgs = some msgs.flatten := by
  suffices h : ∃ answers bytes, blockingSends answers msgs = some bytes by
    obtain ⟨answers, bytes, h⟩ := h
    exact ⟨answers, h.trans (by rw [blockingSends_eq h])⟩
  induction msgs with
  | nil => exact ⟨[], [], rfl⟩
  | cons msg msgs ih =>
    obtain ⟨answers, bytes, h⟩ := ih
    refine ⟨List.replicate (msg.length - 0) 1 ++ answers, msg.drop 0 ++ bytes, ?_⟩
    unfold blockingSends
    rw [blockingWrite_ones]
    dsimp only
    rw [h]

end AsioLearn.SerialPort
