import Mathlib

/-!
# Binary heaps in a list

Elements ordered by a key, the smallest at the front. The children of position `i` are at
`2 * i + 1` and `2 * i + 2`. An element that may be out of place is swapped along one path, up or
down, until it is not.

* `HoleOrder`: every parent and child are in order, but for the pairs that one position is in.
* `ordered_upHeap`, `ordered_downHeap`: what either sift needs to end in a heap.
* `perm_upHeap`, `perm_downHeap`: the elements stay the same.
-/

namespace BinaryHeap

variable {α κ : Type*}

/-! ## Swapping -/

/-- Swap the elements at two positions, if there are such. -/
def swap (i j : ℕ) (h : List α) : List α :=
  match h[i]?, h[j]? with
  | some x, some y => (h.set i y).set j x
  | _, _ => h

theorem swap_eq {h : List α} {i j : ℕ} {x y : α} (hi : h[i]? = some x) (hj : h[j]? = some y) :
    swap i j h = (h.set i y).set j x := by
  simp only [swap, hi, hj]

@[simp] theorem length_swap (i j : ℕ) (h : List α) : (swap i j h).length = h.length := by
  unfold swap
  split <;> simp

theorem lt_length_of_getElem? {h : List α} {i : ℕ} {x : α} (hi : h[i]? = some x) :
    i < h.length := (List.getElem?_eq_some_iff.mp hi).1

theorem getElem?_swap {h : List α} {i j : ℕ} {x y : α} (hi : h[i]? = some x)
    (hj : h[j]? = some y) (k : ℕ) :
    (swap i j h)[k]? = if k = j then some x else if k = i then some y else h[k]? := by
  have hil := lt_length_of_getElem? hi
  have hjl := lt_length_of_getElem? hj
  rw [swap_eq hi hj]
  by_cases hkj : k = j
  · subst hkj
    simp [hjl]
  · by_cases hki : k = i
    · subst hki
      simp [hkj, hil, Ne.symm hkj]
    · simp [hkj, hki, Ne.symm hkj, Ne.symm hki]

theorem perm_swap (i j : ℕ) (h : List α) : (swap i j h).Perm h := by
  unfold swap
  split
  · rename_i x y hi hj
    obtain ⟨hil, rfl⟩ := List.getElem?_eq_some_iff.mp hi
    obtain ⟨hjl, rfl⟩ := List.getElem?_eq_some_iff.mp hj
    exact List.set_set_perm hil hjl
  · exact List.Perm.refl h

/-! ## The order -/

section Order

variable [LinearOrder κ] (key : α → κ)

def parent (i : ℕ) : ℕ := (i - 1) / 2

theorem parent_lt {i : ℕ} (hi : 0 < i) : parent i < i := by
  unfold parent
  omega

theorem parent_eq_iff {i j : ℕ} (hj : 0 < j) : parent j = i ↔ j = 2 * i + 1 ∨ j = 2 * i + 2 := by
  unfold parent
  omega

/-- The key at position `i` is less than the one at position `j`. -/
def before (h : List α) (i j : ℕ) : Bool :=
  match h[i]?, h[j]? with
  | some x, some y => decide (key x < key y)
  | _, _ => false

/-- The key at position `i` is at most the one at position `j`, as far as there are such. -/
def Le (h : List α) (i j : ℕ) : Prop := ∀ x y, h[i]? = some x → h[j]? = some y → key x ≤ key y

variable {key} {h : List α} {i j k : ℕ}

theorem before_eq {x y : α} (hi : h[i]? = some x) (hj : h[j]? = some y) :
    before key h i j = decide (key x < key y) := by
  simp only [before, hi, hj]

theorem exists_of_before (hb : before key h i j = true) :
    ∃ x y, h[i]? = some x ∧ h[j]? = some y ∧ key x < key y := by
  unfold before at hb
  split at hb
  · rename_i x y hi hj
    exact ⟨x, y, hi, hj, of_decide_eq_true hb⟩
  · exact absurd hb (by simp)

theorem le_of_not_before (hb : before key h i j = false) : Le key h j i := by
  intro y x hj hi
  rw [before_eq hi hj, decide_eq_false_iff_not] at hb
  exact le_of_not_gt hb

theorem le_of_before (hb : before key h i j = true) : Le key h i j := by
  intro x y hi hj
  rw [before_eq hi hj, decide_eq_true_eq] at hb
  exact le_of_lt hb

theorem Le.trans (hij : Le key h i j) (hjk : Le key h j k) (hj : j < h.length) : Le key h i k := by
  intro x z hi hk
  have hy : h[j]? = some h[j] := List.getElem?_eq_getElem hj
  exact le_trans (hij x _ hi hy) (hjk _ z hy hk)

variable (key) in
/-- Every parent and child are in order. -/
def Ordered (h : List α) : Prop := ∀ i, 0 < i → Le key h (parent i) i

variable (key) in
/-- Every parent and child are in order that are not at position `i`, and the children of `i` are
in order with its parent. -/
structure HoleOrder (h : List α) (i : ℕ) : Prop where
  others : ∀ j, 0 < j → j ≠ i → parent j ≠ i → Le key h (parent j) j
  grand : 0 < i → ∀ j, 0 < j → parent j = i → Le key h (parent i) j

/-- The front of a heap is the smallest. -/
theorem Ordered.front_le (ho : Ordered key h) (i : ℕ) : Le key h 0 i := by
  induction i using Nat.strongRecOn with
  | ind i ih =>
    rcases Nat.eq_zero_or_pos i with rfl | hi
    · intro x y hx hy
      rw [Option.some.inj (hx.symm.trans hy)]
    · intro x y hx hy
      have hp := parent_lt hi
      exact (ih _ hp).trans (ho i hi) (Nat.lt_trans hp (lt_length_of_getElem? hy)) x y hx hy

/-! ## Up -/

variable (key) in
/-- Swap the element upwards while it is less than its parent. -/
def upHeap (h : List α) (i : ℕ) : List α :=
  if hi : 0 < i then
    if before key h i (parent i) then
      have := parent_lt hi
      upHeap (swap i (parent i) h) (parent i)
    else h
  else h
termination_by i

theorem perm_upHeap (h : List α) (i : ℕ) : (upHeap key h i).Perm h := by
  fun_induction upHeap key h i with
  | case1 h i hi hb _ ih => exact ih.trans (perm_swap _ _ _)
  | case2 => exact List.Perm.refl _
  | case3 => exact List.Perm.refl _

/-- A swap with the parent leaves a hole there. -/
theorem HoleOrder.up (hh : HoleOrder key h i) (hi : 0 < i)
    (hb : before key h i (parent i) = true) :
    HoleOrder key (swap i (parent i) h) (parent i) ∧
      ∀ j, 0 < j → parent j = parent i → Le key (swap i (parent i) h) (parent i) j := by
  obtain ⟨x, p, hx, hp, hlt⟩ := exists_of_before hb
  have hpi := parent_lt hi
  have hplen := lt_length_of_getElem? hp
  have hat := getElem?_swap hx hp
  refine ⟨⟨?_, ?_⟩, ?_⟩
  · intro j hj hjp hpp y z hy hz
    have hji : j ≠ i := fun heq => hpp (by rw [heq])
    have hpj := parent_lt hj
    rw [hat, if_neg hpp] at hy
    rw [hat, if_neg hjp, if_neg hji] at hz
    by_cases hchild : parent j = i
    · rw [if_pos hchild] at hy
      rw [← Option.some.inj hy]
      exact hh.grand hi j hj hchild p z hp hz
    · rw [if_neg hchild] at hy
      exact hh.others j hj hji hchild y z hy hz
  · intro hppos j hj hchild y z hy hz
    have hpp := parent_lt hppos
    have habove := hh.others (parent i) hppos (by omega) (by omega)
    rw [hat, if_neg (by omega), if_neg (by omega)] at hy
    rw [hat, if_neg (by have := parent_lt hj; omega)] at hz
    by_cases hji : j = i
    · rw [if_pos hji] at hz
      rw [← Option.some.inj hz]
      exact habove y p hy hp
    · rw [if_neg hji] at hz
      have hnext := hh.others j hj hji (by omega)
      rw [hchild] at hnext
      exact habove.trans hnext hplen y z hy hz
  · intro j hj hchild y z hy hz
    rw [hat, if_pos rfl] at hy
    rw [← Option.some.inj hy]
    rw [hat, if_neg (by have := parent_lt hj; omega)] at hz
    by_cases hji : j = i
    · rw [if_pos hji] at hz
      rw [← Option.some.inj hz]
      exact le_of_lt hlt
    · rw [if_neg hji] at hz
      have hnext := hh.others j hj hji (by omega)
      rw [hchild] at hnext
      exact le_trans (le_of_lt hlt) (hnext p z hp hz)

theorem ordered_upHeap (hh : HoleOrder key h i)
    (hbelow : ∀ j, 0 < j → parent j = i → Le key h i j) : Ordered key (upHeap key h i) := by
  fun_induction upHeap key h i with
  | case1 h i hi hb _ ih =>
    obtain ⟨hup, hbelow'⟩ := hh.up hi hb
    exact ih hup hbelow'
  | case2 h i hi hb =>
    intro j hj
    by_cases hji : j = i
    · rw [hji]
      exact le_of_not_before (Bool.eq_false_iff.mpr hb)
    · by_cases hchild : parent j = i
      · rw [hchild]
        exact hbelow j hj hchild
      · exact hh.others j hj hji hchild
  | case3 h i hi =>
    intro j hj
    by_cases hchild : parent j = i
    · rw [hchild]
      exact hbelow j hj hchild
    · exact hh.others j hj (by omega) hchild

/-! ## Down -/

variable (key) in
/-- The smaller of the children of `i`, the second one if they are equal. -/
def minChild (h : List α) (i : ℕ) : ℕ :=
  if 2 * i + 1 + 1 = h.length ∨ before key h (2 * i + 1) (2 * i + 1 + 1) = true then 2 * i + 1
  else 2 * i + 1 + 1

variable (key) in
theorem minChild_cases (hlen : 2 * i + 1 < h.length) :
    (minChild key h i = 2 * i + 1 ∨ minChild key h i = 2 * i + 2) ∧
      minChild key h i < h.length := by
  unfold minChild
  split_ifs with hc
  · exact ⟨Or.inl rfl, hlen⟩
  · refine ⟨Or.inr rfl, ?_⟩
    have := (not_or.mp hc).1
    omega

/-- No child is less. -/
theorem minChild_le (hj : 0 < j) (hchild : parent j = i) : Le key h (minChild key h i) j := by
  intro x y hx hy
  have hjlen := lt_length_of_getElem? hy
  have hrefl : minChild key h i = j → key x ≤ key y := by
    rintro rfl
    rw [Option.some.inj (hx.symm.trans hy)]
  unfold minChild at hx hrefl
  split_ifs at hx hrefl with hc
  · rcases (parent_eq_iff hj).mp hchild with rfl | rfl
    · exact hrefl rfl
    · rcases hc with hend | hb
      · omega
      · exact le_of_before hb x y hx hy
  · rcases (parent_eq_iff hj).mp hchild with rfl | rfl
    · exact le_of_not_before (Bool.eq_false_iff.mpr (not_or.mp hc).2) x y hx hy
    · exact hrefl rfl

variable (key) in
/-- Swap the element downwards until it is less than both its children. -/
def downHeap (h : List α) (i : ℕ) : List α :=
  if hlen : 2 * i + 1 < h.length then
    if before key h i (minChild key h i) then h
    else
      have := minChild_cases key hlen
      downHeap (swap i (minChild key h i) h) (minChild key h i)
  else h
termination_by h.length - i
decreasing_by
  rw [length_swap]
  omega

theorem perm_downHeap (h : List α) (i : ℕ) : (downHeap key h i).Perm h := by
  fun_induction downHeap key h i with
  | case1 => exact List.Perm.refl _
  | case2 h i _ _ _ ih => exact ih.trans (perm_swap _ _ _)
  | case3 => exact List.Perm.refl _

/-- A swap with the smaller child leaves a hole there. -/
theorem HoleOrder.down (hh : HoleOrder key h i) (habove : 0 < i → Le key h (parent i) i)
    (hlen : 2 * i + 1 < h.length) (hb : before key h i (minChild key h i) = false) :
    HoleOrder key (swap i (minChild key h i) h) (minChild key h i) ∧
      Le key (swap i (minChild key h i) h) (parent (minChild key h i)) (minChild key h i) := by
  obtain ⟨hcases, hclen⟩ := minChild_cases key hlen
  have hmin : ∀ j, 0 < j → parent j = i → Le key h (minChild key h i) j := fun j => minChild_le
  have hle : Le key h (minChild key h i) i := le_of_not_before hb
  generalize minChild key h i = c at hcases hclen hmin hle ⊢
  have hcpos : 0 < c := by omega
  have hpc : parent c = i := (parent_eq_iff hcpos).mpr hcases
  obtain ⟨x, hx⟩ : ∃ x, h[i]? = some x := ⟨_, List.getElem?_eq_getElem (by omega)⟩
  obtain ⟨y, hy⟩ : ∃ y, h[c]? = some y := ⟨_, List.getElem?_eq_getElem hclen⟩
  have hat := getElem?_swap hx hy
  refine ⟨⟨?_, ?_⟩, ?_⟩
  · intro j hj hjc hpjc u v hu hv
    rw [hat, if_neg hpjc] at hu
    rw [hat, if_neg hjc] at hv
    by_cases hji : j = i
    · subst hji
      rw [if_neg (by have := parent_lt hj; omega)] at hu
      rw [if_pos rfl] at hv
      rw [← Option.some.inj hv]
      exact hh.grand hj c hcpos hpc u y hu hy
    · rw [if_neg hji] at hv
      by_cases hchild : parent j = i
      · rw [if_pos hchild] at hu
        rw [← Option.some.inj hu]
        exact hmin j hj hchild y v hy hv
      · rw [if_neg hchild] at hu
        exact hh.others j hj hji hchild u v hu hv
  · intro _ j hj hchild u v hu hv
    have hjc := parent_lt hj
    rw [hpc, hat, if_neg (by omega), if_pos rfl] at hu
    rw [hat, if_neg (by omega), if_neg (by omega)] at hv
    rw [← Option.some.inj hu]
    have hnext := hh.others j hj (by omega) (by omega)
    rw [hchild] at hnext
    exact hnext y v hy hv
  · intro u v hu hv
    rw [hpc, hat, if_neg (by omega), if_pos rfl] at hu
    rw [hat, if_pos rfl] at hv
    rw [← Option.some.inj hu, ← Option.some.inj hv]
    exact hle y x hy hx

theorem ordered_downHeap (hh : HoleOrder key h i) (habove : 0 < i → Le key h (parent i) i) :
    Ordered key (downHeap key h i) := by
  fun_induction downHeap key h i with
  | case1 h i hlen hb =>
    intro j hj
    by_cases hji : j = i
    · rw [hji]
      exact habove (by omega)
    · by_cases hchild : parent j = i
      · rw [hchild]
        exact (le_of_before hb).trans (minChild_le hj hchild) (minChild_cases key hlen).2
      · exact hh.others j hj hji hchild
  | case2 h i hlen hb _ ih =>
    obtain ⟨hdown, habove'⟩ := hh.down habove hlen (Bool.eq_false_iff.mpr hb)
    exact ih hdown fun _ => habove'
  | case3 h i hlen =>
    intro j hj
    by_cases hji : j = i
    · rw [hji]
      exact habove (by omega)
    · by_cases hchild : parent j = i
      · intro x y _ hy
        have hjlen := lt_length_of_getElem? hy
        rcases (parent_eq_iff hj).mp hchild with rfl | rfl <;> omega
      · exact hh.others j hj hji hchild

/-! ## Adding and removing -/

theorem Ordered.nil : Ordered key ([] : List α) := by
  intro i _ x y hx
  exact absurd hx (by simp)

/-- A new element at the end is the only one that may be out of place. -/
theorem Ordered.push (ho : Ordered key h) (x : α) :
    Ordered key (upHeap key (h ++ [x]) h.length) := by
  have hsame : ∀ j, j ≠ h.length → ∀ y, (h ++ [x])[j]? = some y → h[j]? = some y := by
    intro j hj y hy
    have hlen := lt_length_of_getElem? hy
    rw [List.length_append, List.length_singleton] at hlen
    rwa [List.getElem?_append_left (by omega)] at hy
  have hchildless : ∀ j, 0 < j → parent j = h.length → ∀ y, (h ++ [x])[j]? ≠ some y := by
    intro j hj hchild y hy
    have hlen := lt_length_of_getElem? hy
    have hlt := parent_lt hj
    rw [List.length_append, List.length_singleton] at hlen
    omega
  apply ordered_upHeap
  · refine ⟨?_, ?_⟩
    · intro j hj hjn hpn u v hu hv
      exact ho j hj u v (hsame _ hpn u hu) (hsame _ hjn v hv)
    · intro _ j hj hchild u v _ hv
      exact absurd hv (hchildless j hj hchild v)
  · intro j hj hchild u v _ hv
    exact absurd hv (hchildless j hj hchild v)

variable (key) in
/-- Move the element at `i`, up if it is less than its parent, else down. -/
def sift (h : List α) (i : ℕ) : List α :=
  if 0 < i ∧ before key h i (parent i) = true then upHeap key h i else downHeap key h i

theorem perm_sift (h : List α) (i : ℕ) : (sift key h i).Perm h := by
  unfold sift
  split_ifs
  · exact perm_upHeap h i
  · exact perm_downHeap h i

theorem ordered_sift (hh : HoleOrder key h i) (hi : i < h.length) : Ordered key (sift key h i) := by
  unfold sift
  split_ifs with hup
  · obtain ⟨hpos, hb⟩ := hup
    apply ordered_upHeap hh
    intro j hj hchild
    exact (le_of_before hb).trans (hh.grand hpos j hj hchild) (Nat.lt_trans (parent_lt hpos) hi)
  · apply ordered_downHeap hh
    intro hpos
    exact le_of_not_before (Bool.eq_false_iff.mpr fun hb => hup ⟨hpos, hb⟩)

variable (key) in
/-- Remove the element at `i`: the last one takes its place. -/
def removeAt (h : List α) (i : ℕ) : List α :=
  if i = h.length - 1 then h.dropLast
  else sift key (swap i (h.length - 1) h).dropLast i

theorem getElem?_dropLast_eq_some {k : ℕ} {y : α} (hk : h.dropLast[k]? = some y) :
    h[k]? = some y ∧ k < h.length - 1 := by
  have hlen := lt_length_of_getElem? hk
  rw [List.length_dropLast] at hlen
  rw [List.getElem?_dropLast, if_pos hlen] at hk
  exact ⟨hk, hlen⟩

theorem Ordered.dropLast (ho : Ordered key h) : Ordered key h.dropLast := by
  intro i hi x y hx hy
  exact ho i hi x y (getElem?_dropLast_eq_some hx).1 (getElem?_dropLast_eq_some hy).1

/-- The last element in another place leaves a hole there. -/
theorem Ordered.swapLast (ho : Ordered key h) (hi : i < h.length - 1) :
    HoleOrder key (swap i (h.length - 1) h).dropLast i := by
  obtain ⟨x, hx⟩ : ∃ x, h[i]? = some x := ⟨_, List.getElem?_eq_getElem (by omega)⟩
  obtain ⟨y, hy⟩ : ∃ y, h[h.length - 1]? = some y := ⟨_, List.getElem?_eq_getElem (by omega)⟩
  have hsame : ∀ j, j ≠ i → ∀ z, (swap i (h.length - 1) h).dropLast[j]? = some z →
      h[j]? = some z := by
    intro j hj z hz
    obtain ⟨hz, hlen⟩ := getElem?_dropLast_eq_some hz
    rw [length_swap] at hlen
    rwa [getElem?_swap hx hy, if_neg (by omega), if_neg hj] at hz
  refine ⟨?_, ?_⟩
  · intro j hj hji hpi u v hu hv
    exact ho j hj u v (hsame _ hpi u hu) (hsame _ hji v hv)
  · intro hpos j hj hchild u v hu hv
    have hpi := parent_lt hpos
    have hij := parent_lt hj
    have hnext := ho j hj
    rw [hchild] at hnext
    exact ((ho i hpos).trans hnext (by omega)) u v (hsame _ (by omega) u hu)
      (hsame _ (by omega) v hv)

theorem Ordered.removeAt (ho : Ordered key h) (hi : i < h.length) :
    Ordered key (removeAt key h i) := by
  unfold BinaryHeap.removeAt
  split_ifs with hlast
  · exact ho.dropLast
  · apply ordered_sift (ho.swapLast (by omega))
    rw [List.length_dropLast, length_swap]
    omega

/-- Every element but the one at `i` stays. -/
theorem perm_removeAt {x : α} (hi : h[i]? = some x) : (x :: removeAt key h i).Perm h := by
  have hil := lt_length_of_getElem? hi
  have hdrop : ∀ {l : List α} {y : α}, l[l.length - 1]? = some y → (y :: l.dropLast).Perm l := by
    intro l y hy
    have hne : l ≠ [] := by
      rintro rfl
      exact absurd hy (by simp)
    rw [← List.getLast?_eq_getElem?, List.getLast?_eq_some_getLast hne] at hy
    obtain rfl := Option.some.inj hy
    have hperm := (List.perm_append_singleton (l.getLast hne) l.dropLast).symm
    rwa [List.dropLast_append_getLast hne] at hperm
  unfold BinaryHeap.removeAt
  split_ifs with hlast
  · rw [hlast] at hi
    exact hdrop hi
  · obtain ⟨y, hy⟩ : ∃ y, h[h.length - 1]? = some y := ⟨_, List.getElem?_eq_getElem (by omega)⟩
    have hat := getElem?_swap hi hy (h.length - 1)
    rw [if_pos rfl] at hat
    have hswap : (x :: (swap i (h.length - 1) h).dropLast).Perm h :=
      (hdrop (by rw [length_swap]; exact hat)).trans (perm_swap _ _ _)
    exact ((perm_sift _ _).cons x).trans hswap

end Order

end BinaryHeap
