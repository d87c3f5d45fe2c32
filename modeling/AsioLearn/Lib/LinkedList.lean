import Mathlib.Data.List.Basic
import Mathlib.Data.List.Nodup
import Mathlib.Logic.Function.Basic
import Mathlib.Tactic.Common
import Mathlib.Tactic.SplitIfs

/-!
# Doubly linked lists

Nodes that carry the pointers to their neighbours, and a pointer to the first node. A node that is
in no list has null pointers. `Represents` says which list the pointers make up.

* `Represents.mem_iff`: a node is in the list if it is the first one or has a neighbour before it.
* `represents_pushFront`, `represents_remove`, `represents_replace`: what the operations do.
-/

namespace LinkedList

variable {ι : Type*}

/-- The pointers; `none` is null. -/
structure Links (ι : Type*) where
  head : Option ι := none
  next : ι → Option ι := fun _ => none
  prev : ι → Option ι := fun _ => none

/-- The nodes of `l` are linked, between a node before them and one after them. -/
def Segment (k : Links ι) : Option ι → List ι → Option ι → Prop
  | _, [], _ => True
  | before, x :: xs, after =>
    k.prev x = before ∧ k.next x = xs.head?.or after ∧ Segment k (some x) xs after

structure Represents (k : Links ι) (l : List ι) : Prop where
  head : k.head = l.head?
  nodup : l.Nodup
  segment : Segment k none l none
  outside : ∀ x, x ∉ l → k.next x = none ∧ k.prev x = none

section

variable {k k' : Links ι} {before after : Option ι} {l l' : List ι}

theorem segment_append : Segment k before (l ++ l') after ↔
    Segment k before l (l'.head?.or after) ∧ Segment k (l.getLast?.or before) l' after := by
  induction l generalizing before with
  | nil => simp [Segment]
  | cons x xs ih =>
    have hhead : (xs ++ l').head?.or after = xs.head?.or (l'.head?.or after) := by
      rw [List.head?_append, Option.or_assoc]
    have hlast : (x :: xs).getLast?.or before = xs.getLast?.or (some x) := by
      cases xs with
      | nil => rfl
      | cons y ys =>
        rw [List.getLast?_cons_cons, List.getLast?_eq_some_getLast (by simp)]
        rfl
    rw [List.cons_append, Segment, Segment, ih, hhead, hlast, and_assoc, and_assoc]

theorem Segment.congr (h : Segment k before l after)
    (hsame : ∀ x ∈ l, k'.next x = k.next x ∧ k'.prev x = k.prev x) :
    Segment k' before l after := by
  induction l generalizing before with
  | nil => trivial
  | cons x xs ih =>
    obtain ⟨hprev, hnext, hrest⟩ := h
    obtain ⟨hn, hp⟩ := hsame x List.mem_cons_self
    exact ⟨hp.trans hprev, hn.trans hnext, ih hrest fun y hy => hsame y (List.mem_cons_of_mem _ hy)⟩

/-- The node after a segment is changed in its last node only. -/
theorem Segment.setAfter {p : ι} {after' : Option ι} (h : Segment k before (l ++ [p]) after)
    (hnext : k'.next p = after') (hprev : k'.prev p = k.prev p)
    (hsame : ∀ x ∈ l, k'.next x = k.next x ∧ k'.prev x = k.prev x) :
    Segment k' before (l ++ [p]) after' := by
  rw [segment_append] at h ⊢
  refine ⟨h.1.congr hsame, hprev.trans h.2.1, ?_, trivial⟩
  rw [hnext]
  rfl

/-- The node before a segment is changed in its first node only. -/
theorem Segment.setBefore {n : ι} {before' : Option ι} (h : Segment k before (n :: l) after)
    (hprev : k'.prev n = before') (hnext : k'.next n = k.next n)
    (hsame : ∀ x ∈ l, k'.next x = k.next x ∧ k'.prev x = k.prev x) :
    Segment k' before' (n :: l) after :=
  ⟨hprev, hnext.trans h.2.1, h.2.2.congr hsame⟩

/-- What is known of a node between others. -/
theorem Represents.at_node {a b : List ι} {x : ι} (h : Represents k (a ++ x :: b)) :
    k.prev x = a.getLast? ∧ k.next x = b.head? ∧ Segment k none a (some x) ∧
      Segment k (some x) b none := by
  obtain ⟨hbefore, hprev, hnext, hafter⟩ := segment_append.mp h.segment
  rw [Option.or_none] at hprev hnext
  exact ⟨hprev, hnext, hbefore, hafter⟩

/-- What comes before a node and what comes after it are linked to each other, if the ends are and
nothing else is changed. -/
theorem segment_join {a b : List ι} {x : ι} (h : Represents k (a ++ x :: b))
    (hnext : ∀ p, a.getLast? = some p → k'.next p = after)
    (hprev : ∀ n, b.head? = some n → k'.prev n = before)
    (hnext' : ∀ y ∈ a ++ b, a.getLast? ≠ some y → k'.next y = k.next y)
    (hprev' : ∀ y ∈ a ++ b, b.head? ≠ some y → k'.prev y = k.prev y) :
    Segment k' none a after ∧ Segment k' before b none := by
  obtain ⟨-, -, hbefore, hafter⟩ := h.at_node
  have hnd := h.nodup
  constructor
  · rcases List.eq_nil_or_concat' a with rfl | ⟨a, p, rfl⟩
    · trivial
    · have hp : p ∉ b ∧ p ∉ a ∧ ∀ y ∈ a, y ∉ b := by grind
      apply hbefore.setAfter (hnext p (by simp))
      · apply hprev' p (by simp)
        exact fun heq => hp.1 (List.mem_of_mem_head? heq)
      · intro y hy
        have hyp : y ≠ p := fun heq => hp.2.1 (heq ▸ hy)
        refine ⟨hnext' y (by simp [hy]) (by simpa using hyp.symm), hprev' y (by simp [hy]) ?_⟩
        exact fun heq => hp.2.2 y hy (List.mem_of_mem_head? heq)
  · cases b with
    | nil => trivial
    | cons n b =>
      have hn : n ∉ a ∧ n ∉ b ∧ ∀ y ∈ b, y ∉ a := by grind
      apply hafter.setBefore (hprev n rfl)
      · apply hnext' n (by simp)
        exact fun heq => hn.1 (List.mem_of_getLast? heq)
      · intro y hy
        have hyn : n ≠ y := fun heq => hn.2.1 (heq ▸ hy)
        refine ⟨hnext' y (by simp [hy]) ?_, hprev' y (by simp [hy]) (by simpa using hyn)⟩
        exact fun heq => hn.2.2 y hy (List.mem_of_getLast? heq)

/-- A node is in the list if it is the first one or there is one before it. -/
theorem Represents.mem_iff (h : Represents k l) {x : ι} :
    x ∈ l ↔ k.prev x ≠ none ∨ k.head = some x := by
  constructor
  · intro hx
    obtain ⟨a, b, rfl⟩ := List.append_of_mem hx
    rcases List.eq_nil_or_concat a with rfl | ⟨a, p, rfl⟩
    · exact Or.inr h.head
    · left
      rw [h.at_node.1]
      simp
  · rintro (hprev | hhead)
    · by_contra hx
      exact hprev (h.outside x hx).2
    · rw [h.head] at hhead
      exact List.mem_of_mem_head? hhead

theorem represents_nil : Represents ({} : Links ι) [] :=
  ⟨rfl, List.nodup_nil, trivial, fun _ _ => ⟨rfl, rfl⟩⟩

/-- The nodes of `l`, followed from the head on; what is before them does not matter. -/
structure Follows (k : Links ι) (l : List ι) : Prop where
  head : k.head = l.head?
  nodup : l.Nodup
  next : ∀ a x b, l = a ++ x :: b → k.next x = b.head?
  outside : ∀ x, x ∉ l → k.next x = none ∧ k.prev x = none

theorem Represents.follows (h : Represents k l) : Follows k l where
  head := h.head
  nodup := h.nodup
  next := by
    rintro a x b rfl
    exact h.at_node.2.1
  outside := h.outside

theorem Follows.eq_empty (h : Follows k []) : k = {} := by
  obtain ⟨head, next, prev⟩ := k
  have hhead : head = none := h.head
  have hnext : next = fun _ => none := funext fun x => (h.outside x List.not_mem_nil).1
  have hprev : prev = fun _ => none := funext fun x => (h.outside x List.not_mem_nil).2
  rw [hhead, hnext, hprev]

end

/-! ## Operations -/

section

variable [DecidableEq ι] {k : Links ι} {l : List ι}

def setNext (x : ι) (p : Option ι) (k : Links ι) : Links ι :=
  { k with next := Function.update k.next x p }

def setPrev (x : ι) (p : Option ι) (k : Links ι) : Links ι :=
  { k with prev := Function.update k.prev x p }

/-- The node before, if there is one, gets another neighbour. -/
def setNextOf : Option ι → Option ι → Links ι → Links ι
  | some x, p, k => setNext x p k
  | none, _, k => k

def setPrevOf : Option ι → Option ι → Links ι → Links ι
  | some x, p, k => setPrev x p k
  | none, _, k => k

/-- Put a node in front. -/
def pushFront (x : ι) (k : Links ι) : Links ι :=
  let head := k.head
  let k := setPrevOf head (some x) (setPrev x none (setNext x head k))
  { k with head := some x }

/-- Take out the first node, `x`; the next one is still linked to it. -/
def takeFirst (x : ι) (k : Links ι) : Links ι :=
  let k := { k with head := k.next x }
  setPrev x none (setNext x none k)

/-- Take a node out. -/
def remove (x : ι) (k : Links ι) : Links ι :=
  let next := k.next x
  let prev := k.prev x
  let k := if k.head = some x then { k with head := next } else k
  setPrev x none (setNext x none (setPrevOf next prev (setNextOf prev next k)))

/-- Put a node where another one is. -/
def replace (x y : ι) (k : Links ι) : Links ι :=
  let next := k.next x
  let prev := k.prev x
  let k := if k.head = some x then { k with head := some y } else k
  let k := setPrevOf next (some y) (setNextOf prev (some y) k)
  setPrev x none (setNext x none (setPrev y prev (setNext y next k)))

theorem next_setNext (x y : ι) (p : Option ι) (k : Links ι) :
    (setNext x p k).next y = if y = x then p else k.next y := Function.update_apply ..

theorem prev_setPrev (x y : ι) (p : Option ι) (k : Links ι) :
    (setPrev x p k).prev y = if y = x then p else k.prev y := Function.update_apply ..

@[simp] theorem prev_setNext (x : ι) (p : Option ι) (k : Links ι) :
    (setNext x p k).prev = k.prev := rfl

@[simp] theorem next_setPrev (x : ι) (p : Option ι) (k : Links ι) :
    (setPrev x p k).next = k.next := rfl

theorem next_setNextOf (o : Option ι) (y : ι) (p : Option ι) (k : Links ι) :
    (setNextOf o p k).next y = if o = some y then p else k.next y := by
  cases o with
  | none => rfl
  | some x =>
    rw [setNextOf, next_setNext]
    simp only [Option.some.injEq, eq_comm]

theorem prev_setPrevOf (o : Option ι) (y : ι) (p : Option ι) (k : Links ι) :
    (setPrevOf o p k).prev y = if o = some y then p else k.prev y := by
  cases o with
  | none => rfl
  | some x =>
    rw [setPrevOf, prev_setPrev]
    simp only [Option.some.injEq, eq_comm]

@[simp] theorem prev_setNextOf (o p : Option ι) (k : Links ι) :
    (setNextOf o p k).prev = k.prev := by cases o <;> rfl

@[simp] theorem next_setPrevOf (o p : Option ι) (k : Links ι) :
    (setPrevOf o p k).next = k.next := by cases o <;> rfl

@[simp] theorem head_setNextOf (o p : Option ι) (k : Links ι) :
    (setNextOf o p k).head = k.head := by cases o <;> rfl

@[simp] theorem head_setPrevOf (o p : Option ι) (k : Links ι) :
    (setPrevOf o p k).head = k.head := by cases o <;> rfl

section

variable (x y z : ι) (k : Links ι)

theorem next_pushFront :
    (pushFront x k).next z = if z = x then k.head else k.next z := by
  simp only [pushFront, next_setPrevOf, next_setPrev, next_setNext]

theorem prev_pushFront : (pushFront x k).prev z =
    if k.head = some z then some x else if z = x then none else k.prev z := by
  simp only [pushFront, prev_setPrevOf, prev_setPrev, prev_setNext]

theorem head_remove :
    (remove x k).head = if k.head = some x then k.next x else k.head := by
  show (setPrevOf _ _ (setNextOf _ _ _)).head = _
  rw [head_setPrevOf, head_setNextOf]
  split_ifs <;> rfl

theorem next_remove : (remove x k).next z =
    if z = x then none else if k.prev x = some z then k.next x else k.next z := by
  simp only [remove, next_setPrev, next_setNext, next_setPrevOf, next_setNextOf]
  split_ifs <;> rfl

theorem prev_remove : (remove x k).prev z =
    if z = x then none else if k.next x = some z then k.prev x else k.prev z := by
  simp only [remove, prev_setPrev, prev_setNext, prev_setPrevOf, prev_setNextOf]
  split_ifs <;> rfl

theorem head_replace :
    (replace x y k).head = if k.head = some x then some y else k.head := by
  show (setPrevOf _ _ (setNextOf _ _ _)).head = _
  rw [head_setPrevOf, head_setNextOf]
  split_ifs <;> rfl

theorem next_replace : (replace x y k).next z = if z = x then none else if z = y then k.next x else
    if k.prev x = some z then some y else k.next z := by
  simp only [replace, next_setPrev, next_setNext, next_setPrevOf, next_setNextOf]
  split_ifs <;> rfl

theorem prev_replace : (replace x y k).prev z = if z = x then none else if z = y then k.prev x else
    if k.next x = some z then some y else k.prev z := by
  simp only [replace, prev_setPrev, prev_setNext, prev_setPrevOf, prev_setNextOf]
  split_ifs <;> rfl

end

theorem represents_pushFront (h : Represents k l) {x : ι} (hx : x ∉ l) :
    Represents (pushFront x k) (x :: l) := by
  have hhead := h.head
  refine ⟨rfl, List.nodup_cons.mpr ⟨hx, h.nodup⟩, ⟨?_, ?_, ?_⟩, ?_⟩
  · rw [prev_pushFront, if_neg, if_pos rfl]
    intro heq
    exact hx (List.mem_of_mem_head? (hhead.symm.trans heq))
  · rw [next_pushFront, if_pos rfl, hhead, Option.or_none]
  · cases l with
    | nil => trivial
    | cons n b =>
      have hnd := List.nodup_cons.mp h.nodup
      have hnx : n ≠ x := fun heq => hx (heq ▸ List.mem_cons_self)
      apply h.segment.setBefore
      · have hfirst : k.head = some n := hhead
        rw [prev_pushFront, if_pos hfirst]
      · rw [next_pushFront, if_neg hnx]
      · intro y hy
        have hyx : y ≠ x := fun heq => hx (heq ▸ List.mem_cons_of_mem _ hy)
        have hyn : k.head ≠ some y := by
          intro heq
          obtain rfl : n = y := Option.some.inj (hhead.symm.trans heq)
          exact hnd.1 hy
        rw [next_pushFront, if_neg hyx, prev_pushFront, if_neg hyn, if_neg hyx]
        exact ⟨rfl, rfl⟩
  · intro y hy
    obtain ⟨hyx, hyl⟩ := not_or.mp (List.mem_cons.not.mp hy)
    have hyn : k.head ≠ some y := fun heq => hyl (List.mem_of_mem_head? (hhead.symm.trans heq))
    rw [next_pushFront, if_neg hyx, prev_pushFront, if_neg hyn, if_neg hyx]
    exact h.outside y hyl

theorem represents_remove {a b : List ι} {x : ι} (h : Represents k (a ++ x :: b)) :
    Represents (remove x k) (a ++ b) := by
  obtain ⟨hprev, hnext, -, -⟩ := h.at_node
  have hnd := h.nodup
  have hx : x ∉ a ++ b ∧ (a ++ b).Nodup := by grind
  have hne : ∀ y ∈ a ++ b, y ≠ x := fun y hy heq => hx.1 (heq ▸ hy)
  obtain ⟨hbefore, hafter⟩ : Segment (remove x k) none a b.head? ∧
      Segment (remove x k) a.getLast? b none := segment_join h
    (by
      intro p hp
      rw [next_remove, if_neg, if_pos (hprev.trans hp), hnext]
      rintro rfl
      exact hx.1 (List.mem_append_left _ (List.mem_of_getLast? hp)))
    (by
      intro n hn
      rw [prev_remove, if_neg, if_pos (hnext.trans hn), hprev]
      rintro rfl
      exact hx.1 (List.mem_append_right _ (List.mem_of_mem_head? hn)))
    (by
      intro y hy hlast
      rw [next_remove, if_neg (hne y hy), if_neg (by rwa [hprev])])
    (by
      intro y hy hhead
      rw [prev_remove, if_neg (hne y hy), if_neg (by rwa [hnext])])
  refine ⟨?_, hx.2, ?_, ?_⟩
  · rw [head_remove, h.head, hnext]
    cases a with
    | nil => exact if_pos rfl
    | cons p a =>
      rw [if_neg]
      · rfl
      · intro heq
        obtain rfl := Option.some.inj heq
        exact hx.1 (by simp)
  · rw [segment_append, Option.or_none, Option.or_none]
    exact ⟨hbefore, hafter⟩
  · intro y hy
    rw [next_remove, prev_remove]
    by_cases hyx : y = x
    · simp [hyx]
    · have hout := h.outside y (by grind)
      have hp : k.prev x ≠ some y := by
        rw [hprev]
        exact fun heq => hy (List.mem_append_left _ (List.mem_of_getLast? heq))
      have hn : k.next x ≠ some y := by
        rw [hnext]
        exact fun heq => hy (List.mem_append_right _ (List.mem_of_mem_head? heq))
      rw [if_neg hyx, if_neg hyx, if_neg hp, if_neg hn]
      exact hout

theorem represents_replace {a b : List ι} {x y : ι} (h : Represents k (a ++ x :: b))
    (hy : y ∉ a ++ x :: b) : Represents (replace x y k) (a ++ y :: b) := by
  obtain ⟨hprev, hnext, -, -⟩ := h.at_node
  have hnd := h.nodup
  have hx : x ∉ a ++ b ∧ y ∉ a ++ b ∧ y ≠ x ∧ (a ++ y :: b).Nodup := by grind
  obtain ⟨hxab, hyab, hyx, hnd'⟩ := hx
  have hne : ∀ z ∈ a ++ b, z ≠ x ∧ z ≠ y := by grind
  obtain ⟨hbefore, hafter⟩ : Segment (replace x y k) none a (some y) ∧
      Segment (replace x y k) (some y) b none := segment_join h
    (by
      intro p hp
      obtain ⟨hpx, hpy⟩ := hne p (List.mem_append_left _ (List.mem_of_getLast? hp))
      rw [next_replace, if_neg hpx, if_neg hpy, if_pos (hprev.trans hp)])
    (by
      intro n hn
      obtain ⟨hnx, hny⟩ := hne n (List.mem_append_right _ (List.mem_of_mem_head? hn))
      rw [prev_replace, if_neg hnx, if_neg hny, if_pos (hnext.trans hn)])
    (by
      intro z hz hlast
      obtain ⟨hzx, hzy⟩ := hne z hz
      rw [next_replace, if_neg hzx, if_neg hzy, if_neg (by rwa [hprev])])
    (by
      intro z hz hhead
      obtain ⟨hzx, hzy⟩ := hne z hz
      rw [prev_replace, if_neg hzx, if_neg hzy, if_neg (by rwa [hnext])])
  refine ⟨?_, hnd', ?_, ?_⟩
  · rw [head_replace, h.head]
    cases a with
    | nil => exact if_pos rfl
    | cons p a =>
      rw [if_neg]
      · rfl
      · intro heq
        obtain rfl := Option.some.inj heq
        exact hxab (by simp)
  · rw [segment_append, Option.or_none]
    refine ⟨hbefore, ?_, ?_, hafter⟩
    · rw [prev_replace, if_neg hyx, if_pos rfl, hprev, Option.or_none]
    · rw [next_replace, if_neg hyx, if_pos rfl, hnext, Option.or_none]
  · intro z hz
    rw [next_replace, prev_replace]
    by_cases hzx : z = x
    · simp [hzx]
    · have hzy : z ≠ y := by grind
      have hout := h.outside z (by grind)
      have hp : k.prev x ≠ some z := by
        rw [hprev]
        intro heq
        have := List.mem_of_getLast? heq
        grind
      have hn : k.next x ≠ some z := by
        rw [hnext]
        intro heq
        have := List.mem_of_mem_head? heq
        grind
      rw [if_neg hzx, if_neg hzx, if_neg hzy, if_neg hzy, if_neg hp, if_neg hn]
      exact hout

/-- Replacing a node that is not in the list changes nothing. -/
theorem represents_replace_of_not_mem (h : Represents k l) {x y : ι} (hx : x ∉ l) (hy : y ∉ l) :
    Represents (replace x y k) l := by
  obtain ⟨hnext, hprev⟩ := h.outside x hx
  obtain ⟨hnext', hprev'⟩ := h.outside y hy
  have hsame : ∀ z, (replace x y k).next z = k.next z ∧ (replace x y k).prev z = k.prev z := by
    intro z
    have hno : (none : Option ι) ≠ some z := by simp
    rw [next_replace, prev_replace, hnext, hprev, if_neg hno, if_neg hno]
    refine ⟨?_, ?_⟩
    · split_ifs with hzx hzy
      · rw [hzx, hnext]
      · rw [hzy, hnext']
      · rfl
    · split_ifs with hzx hzy
      · rw [hzx, hprev]
      · rw [hzy, hprev']
      · rfl
  refine ⟨?_, h.nodup, h.segment.congr fun z _ => hsame z, ?_⟩
  · rw [head_replace, if_neg, h.head]
    intro heq
    exact hx (List.mem_of_mem_head? (h.head.symm.trans heq))
  · intro z hz
    rw [(hsame z).1, (hsame z).2]
    exact h.outside z hz

theorem follows_takeFirst {x : ι} (h : Follows k (x :: l)) : Follows (takeFirst x k) l := by
  obtain ⟨hx, hnodup⟩ := List.nodup_cons.mp h.nodup
  have hnext : ∀ z, (takeFirst x k).next z = if z = x then none else k.next z :=
    fun _ => next_setNext ..
  have hprev : ∀ z, (takeFirst x k).prev z = if z = x then none else k.prev z :=
    fun _ => prev_setPrev ..
  refine ⟨h.next [] x l rfl, hnodup, ?_, ?_⟩
  · intro a z b hl
    have hz : z ≠ x := by
      rintro rfl
      exact hx (hl ▸ List.mem_append_right a List.mem_cons_self)
    rw [hnext, if_neg hz]
    exact h.next (x :: a) z b (congrArg (x :: ·) hl)
  · intro z hz
    rw [hnext, hprev]
    split_ifs with hzx
    · exact ⟨rfl, rfl⟩
    · exact h.outside z (List.not_mem_cons_of_ne_of_not_mem hzx hz)

end

end LinkedList
