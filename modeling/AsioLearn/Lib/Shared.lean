import Mathlib.Data.List.Count
import Mathlib.Logic.Function.Basic
import Mathlib.Tactic.Common
import Mathlib.Tactic.SplitIfs

/-!
# Shared objects

A heap of objects that are destroyed with their last reference, as behind `std::shared_ptr`. An
object is named by an address that is never given out twice. `Counts held h` says that `held` lists
the references there are, each as often as it is held: what is held exists, and what is not held
does not.

* `counts_make`, `counts_retain`, `counts_release`: what the operations do to the references.
* `Counts.get_of_mem`: an object that is held is alive.
-/

namespace Shared

variable {α : Type*}

/-- An object, and the number of references to it. -/
structure Cell (α : Type*) where
  value : α
  refs : ℕ
  deriving DecidableEq, Repr

/-- The objects that exist, and the next address. -/
structure Heap (α : Type*) where
  cells : ℕ → Option (Cell α) := fun _ => none
  next : ℕ := 0

namespace Heap

/-- The object at an address. -/
def get (h : Heap α) (p : ℕ) : Option α := (h.cells p).map Cell.value

/-- The number of references to an address. -/
def refs (h : Heap α) (p : ℕ) : ℕ := (h.cells p).elim 0 Cell.refs

/-- A new object, with one reference. -/
def make (a : α) (h : Heap α) : ℕ × Heap α :=
  (h.next, { cells := Function.update h.cells h.next (some ⟨a, 1⟩), next := h.next + 1 })

/-- A reference is copied. -/
def retain (p : ℕ) (h : Heap α) : Heap α :=
  { h with
    cells := Function.update h.cells p ((h.cells p).map fun c => { c with refs := c.refs + 1 }) }

/-- A reference is dropped, and with the last one the object. -/
def release (p : ℕ) (h : Heap α) : Heap α :=
  { h with
    cells := Function.update h.cells p
      ((h.cells p).bind fun c => if c.refs ≤ 1 then none else some { c with refs := c.refs - 1 }) }

/-- The object is changed. -/
def modify (p : ℕ) (f : α → α) (h : Heap α) : Heap α :=
  { h with
    cells := Function.update h.cells p ((h.cells p).map fun c => { c with value := f c.value }) }

section

variable (h : Heap α) {p q : ℕ}

theorem get_make_of_ne (a : α) (hne : q ≠ h.next) : (h.make a).2.get q = h.get q := by
  simp only [get, make, Function.update_of_ne hne]

theorem get_make_self (a : α) : (h.make a).2.get h.next = some a := by
  simp only [get, make, Function.update_self]
  rfl

@[simp] theorem get_retain (p q : ℕ) : (h.retain p).get q = h.get q := by
  by_cases hq : q = p
  · subst hq
    simp only [get, retain, Function.update_self, Option.map_map]
    rfl
  · simp only [get, retain, Function.update_of_ne hq]

theorem get_release_of_ne (hne : q ≠ p) : (h.release p).get q = h.get q := by
  simp only [get, release, Function.update_of_ne hne]

/-- An object is there while there is another reference to it. -/
theorem get_release_of_refs (hrefs : 1 < h.refs p) : (h.release p).get p = h.get p := by
  simp only [refs] at hrefs
  simp only [get, release, Function.update_self]
  cases hc : h.cells p with
  | none => rfl
  | some c =>
    rw [hc] at hrefs
    have hmore : ¬ c.refs ≤ 1 := Nat.not_le.mpr hrefs
    simp [hmore]

theorem get_modify_self (f : α → α) : (h.modify p f).get p = (h.get p).map f := by
  simp only [get, modify, Function.update_self, Option.map_map]
  rfl

theorem get_modify_of_ne (f : α → α) (hne : q ≠ p) : (h.modify p f).get q = h.get q := by
  simp only [get, modify, Function.update_of_ne hne]

end

end Heap

/-! ## Counting references -/

/-- The references there are, each as often as it is held. -/
structure Counts (held : List ℕ) (h : Heap α) : Prop where
  refs : ∀ p, h.refs p = held.count p
  live : ∀ p c, h.cells p = some c → 0 < c.refs
  fresh : ∀ p ∈ held, p < h.next

section

variable {h : Heap α} {held held' : List ℕ} {p : ℕ}

theorem counts_empty : Counts [] ({} : Heap α) :=
  ⟨fun _ => rfl, fun _ _ hc => absurd hc (by simp), fun _ hp => absurd hp List.not_mem_nil⟩

/-- Only how often a reference is held matters. -/
theorem Counts.congr (hh : Counts held h) (hcount : ∀ p, held'.count p = held.count p) :
    Counts held' h := by
  refine ⟨fun p => (hh.refs p).trans (hcount p).symm, hh.live, fun p hp => hh.fresh p ?_⟩
  rwa [← List.count_pos_iff, ← hcount, List.count_pos_iff]

/-- What is held is alive. -/
theorem Counts.get_of_mem (hh : Counts held h) (hp : p ∈ held) : ∃ a, h.get p = some a := by
  have hrefs := hh.refs p
  have hpos : 0 < held.count p := List.count_pos_iff.mpr hp
  cases hc : h.cells p with
  | none => simp [Heap.refs, hc] at hrefs; omega
  | some c => exact ⟨c.value, by simp [Heap.get, hc]⟩

theorem Counts.not_mem_next (hh : Counts held h) : h.next ∉ held :=
  fun hp => absurd (hh.fresh _ hp) (Nat.lt_irrefl _)

theorem counts_make (hh : Counts held h) (a : α) : Counts (h.next :: held) (h.make a).2 := by
  refine ⟨?_, ?_, ?_⟩
  · intro p
    by_cases hp : p = h.next
    · subst hp
      rw [List.count_cons_self, List.count_eq_zero_of_not_mem hh.not_mem_next]
      simp [Heap.refs, Heap.make]
    · rw [List.count_cons_of_ne (Ne.symm hp), ← hh.refs p]
      simp only [Heap.refs, Heap.make, Function.update_of_ne hp]
  · intro p c hc
    by_cases hp : p = h.next
    · subst hp
      simp only [Heap.make, Function.update_self, Option.some.injEq] at hc
      rw [← hc]
      exact Nat.one_pos
    · simp only [Heap.make, Function.update_of_ne hp] at hc
      exact hh.live p c hc
  · intro p hp
    show p < h.next + 1
    rcases List.mem_cons.mp hp with rfl | hp
    · exact Nat.lt_succ_self _
    · exact Nat.lt_succ_of_lt (hh.fresh p hp)

theorem counts_retain (hh : Counts held h) (hp : p ∈ held) : Counts (p :: held) (h.retain p) := by
  refine ⟨?_, ?_, ?_⟩
  · intro q
    have hrefs := hh.refs q
    by_cases hq : q = p
    · subst hq
      have hpos : 0 < held.count q := List.count_pos_iff.mpr hp
      rw [List.count_cons_self, ← hrefs]
      simp only [Heap.refs, Heap.retain, Function.update_self]
      cases hc : h.cells q with
      | none => simp [Heap.refs, hc] at hrefs; omega
      | some c => rfl
    · rw [List.count_cons_of_ne (Ne.symm hq), ← hrefs]
      simp only [Heap.refs, Heap.retain, Function.update_of_ne hq]
  · intro q c hc
    by_cases hq : q = p
    · subst hq
      simp only [Heap.retain, Function.update_self, Option.map_eq_some_iff] at hc
      obtain ⟨c', -, rfl⟩ := hc
      exact Nat.succ_pos _
    · simp only [Heap.retain, Function.update_of_ne hq] at hc
      exact hh.live q c hc
  · intro q hq
    rcases List.mem_cons.mp hq with rfl | hq
    · exact hh.fresh q hp
    · exact hh.fresh q hq

theorem counts_release (hh : Counts (p :: held) h) : Counts held (h.release p) := by
  refine ⟨?_, ?_, fun q hq => hh.fresh q (List.mem_cons_of_mem _ hq)⟩
  · intro q
    have hrefs := hh.refs q
    by_cases hq : q = p
    · subst hq
      rw [List.count_cons_self] at hrefs
      simp only [Heap.refs, Heap.release, Function.update_self] at hrefs ⊢
      cases hc : h.cells q with
      | none => simp [hc] at hrefs
      | some c =>
        simp only [hc, Option.elim_some] at hrefs
        by_cases hone : c.refs ≤ 1
        · simp [hone]
          omega
        · simp [hone]
          omega
    · rw [List.count_cons_of_ne (Ne.symm hq)] at hrefs
      rw [← hrefs]
      simp only [Heap.refs, Heap.release, Function.update_of_ne hq]
  · intro q c hc
    by_cases hq : q = p
    · subst hq
      simp only [Heap.release, Function.update_self, Option.bind_eq_some_iff] at hc
      obtain ⟨c', -, hc'⟩ := hc
      split_ifs at hc' with hone
      rw [← Option.some.inj hc']
      show 0 < c'.refs - 1
      omega
    · simp only [Heap.release, Function.update_of_ne hq] at hc
      exact hh.live q c hc

theorem counts_modify (hh : Counts held h) (p : ℕ) (f : α → α) :
    Counts held (h.modify p f) := by
  refine ⟨?_, ?_, hh.fresh⟩
  · intro q
    rw [← hh.refs q]
    by_cases hq : q = p
    · subst hq
      simp only [Heap.refs, Heap.modify, Function.update_self]
      cases h.cells q <;> rfl
    · simp only [Heap.refs, Heap.modify, Function.update_of_ne hq]
  · intro q c hc
    by_cases hq : q = p
    · subst hq
      simp only [Heap.modify, Function.update_self, Option.map_eq_some_iff] at hc
      obtain ⟨c', hc', rfl⟩ := hc
      exact hh.live q c' hc'
    · simp only [Heap.modify, Function.update_of_ne hq] at hc
      exact hh.live q c hc

/-- What is held besides survives the dropping of a reference, and is unchanged. -/
theorem Counts.get_release {q : ℕ} (hh : Counts (p :: held) h) (hq : q ∈ held) :
    (h.release p).get q = h.get q := by
  by_cases hne : q = p
  · subst hne
    refine h.get_release_of_refs ?_
    have hpos : 0 < held.count q := List.count_pos_iff.mpr hq
    rw [hh.refs, List.count_cons_self]
    omega
  · exact h.get_release_of_ne hne

theorem Counts.get_make {q : ℕ} (hh : Counts held h) (a : α) (hq : q ∈ held) :
    (h.make a).2.get q = h.get q :=
  h.get_make_of_ne a fun he => hh.not_mem_next (he ▸ hq)

end

end Shared
