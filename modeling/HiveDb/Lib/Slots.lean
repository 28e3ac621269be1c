import Mathlib.Data.List.Basic
import Mathlib.Data.List.Flatten
import Mathlib.Data.List.Nodup
import Mathlib.Data.List.Perm.Basic
import Mathlib.Data.List.Range
import Mathlib.Order.Defs.PartialOrder
import Mathlib.Tactic.Common

/-!
# Sequences in the first slots of an array

An array is a function of its slot number; its live part is the list of the
first `n` slots.  The lemmas describe the live part of an array after a slot
has been overwritten, after an element has been put between two slots, and the
cut of a live part in two.
-/

namespace HiveDb.Lib.Slots

variable {α β : Type}

/-- The contents of the slots `0..n-1`. -/
def live (f : Nat → α) (n : Nat) : List α := (List.range n).map f

/-- The array with `x` put at slot `w` and everything from `w` on moved up by one. -/
def insertSlot (f : Nat → α) (w : Nat) (x : α) : Nat → α := fun i =>
  if i < w then f i else if i = w then x else f (i - 1)

/-- The array with slot `w` overwritten. -/
def setSlot (f : Nat → α) (w : Nat) (x : α) : Nat → α := fun i => if i = w then x else f i

/-- Slots `w..i-1` of the array moved up by one. -/
def shifted (w i : Nat) (f : Nat → α) : Nat → α := fun j =>
  if w < j ∧ j ≤ i then f (j - 1) else f j

/-- The array `g` with the slots `first..last-1` of `f` copied to its start. -/
def copied (f : Nat → α) (first last : Nat) (g : Nat → α) : Nat → α := fun i =>
  if i < last - first then f (first + i) else g i

/-- The array with `x` in the slots `first..last-1`. -/
def filled (first last : Nat) (x : α) (f : Nat → α) : Nat → α := fun i =>
  if first ≤ i ∧ i < last then x else f i

/-- The array from slot `a` on. -/
def shift (f : Nat → α) (a : Nat) : Nat → α := fun i => f (a + i)

@[simp] theorem live_zero (f : Nat → α) : live f 0 = [] := rfl

theorem live_succ (f : Nat → α) (n : Nat) : live f (n + 1) = live f n ++ [f n] := by
  simp [live, List.range_succ]

@[simp] theorem mem_live {f : Nat → α} {n : Nat} {x : α} :
    x ∈ live f n ↔ ∃ i, i < n ∧ f i = x := by
  simp [live]

theorem live_congr {f g : Nat → α} {n : Nat} (h : ∀ i, i < n → f i = g i) :
    live f n = live g n := by
  unfold live
  exact List.map_congr_left fun i hi => h i (List.mem_range.mp hi)

/-- A relation between all slots of a live part and those behind them. -/
theorem pairwise_live {r : α → α → Prop} {f : Nat → α} {n : Nat}
    (h : ∀ i j, i < j → j < n → r (f i) (f j)) : (live f n).Pairwise r := by
  refine List.pairwise_map.mpr (List.pairwise_lt_range.imp_of_mem ?_)
  intro i j _ hj hij
  exact h i j hij (List.mem_range.mp hj)

theorem map_live (g : α → β) (f : Nat → α) (n : Nat) :
    (live f n).map g = live (fun i => g (f i)) n := by
  simp [live]

/-- Slots of a live part without repetition are different. -/
theorem live_ne_of_nodup {f : Nat → α} {n i j : Nat} (h : (live f n).Nodup) (hi : i < n)
    (hj : j < n) (hij : i ≠ j) : f i ≠ f j := by
  intro heq
  exact hij (List.inj_on_of_nodup_map h (List.mem_range.mpr hi) (List.mem_range.mpr hj) heq)

theorem live_add (f : Nat → α) (a b : Nat) : live f (a + b) = live f a ++ live (shift f a) b := by
  induction b with
  | zero => simp
  | succ b ih =>
      rw [← Nat.add_assoc, live_succ, ih, live_succ, List.append_assoc]
      rfl

/-- The live part around one of its slots. -/
theorem live_eq_append_cons (f : Nat → α) {w n : Nat} (h : w < n) :
    live f n = live f w ++ f w :: live (shift f (w + 1)) (n - (w + 1)) := by
  have hn : n = (w + 1) + (n - (w + 1)) := by omega
  calc
    live f n = live f ((w + 1) + (n - (w + 1))) := by rw [← hn]
    _ = live f (w + 1) ++ live (shift f (w + 1)) (n - (w + 1)) := live_add f _ _
    _ = live f w ++ f w :: live (shift f (w + 1)) (n - (w + 1)) := by
        rw [live_succ, List.append_assoc, List.singleton_append]

theorem live_setSlot (f : Nat → α) {w n : Nat} (x : α) (h : w < n) :
    live (setSlot f w x) n = live f w ++ x :: live (shift f (w + 1)) (n - (w + 1)) := by
  rw [live_eq_append_cons (setSlot f w x) h]
  congr 1
  · exact live_congr fun i hi => if_neg (by omega)
  · congr 1
    · exact if_pos rfl
    · exact live_congr fun i _ => if_neg (by omega)

/-- Insertion puts the new element between the slots before and from `w`. -/
theorem live_insertSlot (f : Nat → α) {w n : Nat} (x : α) (h : w ≤ n) :
    live (insertSlot f w x) (n + 1) = live f w ++ x :: live (shift f w) (n - w) := by
  rw [live_eq_append_cons (insertSlot f w x) (show w < n + 1 by omega)]
  congr 1
  · exact live_congr fun i hi => if_pos hi
  · congr 1
    · simp [insertSlot]
    · have hn : n + 1 - (w + 1) = n - w := by omega
      rw [hn]
      refine live_congr fun i _ => ?_
      have h1 : ¬ w + 1 + i < w := by omega
      have h2 : ¬ w + 1 + i = w := by omega
      have h3 : w + 1 + i - 1 = w + i := by omega
      simp [insertSlot, shift, h1, h2, h3]

/-- The live part cut before a slot. -/
theorem live_split (f : Nat → α) {w n : Nat} (h : w ≤ n) :
    live f n = live f w ++ live (shift f w) (n - w) := by
  have hn : n = w + (n - w) := by omega
  calc
    live f n = live f (w + (n - w)) := by rw [← hn]
    _ = live f w ++ live (shift f w) (n - w) := live_add f _ _

@[simp] theorem length_live (f : Nat → α) (n : Nat) : (live f n).length = n := by
  simp [live]

theorem take_live (f : Nat → α) {w n : Nat} (h : w ≤ n) : (live f n).take w = live f w := by
  rw [live_split f h]
  exact List.take_left' (length_live f w)

theorem drop_live (f : Nat → α) {w n : Nat} (h : w ≤ n) :
    (live f n).drop w = live (shift f w) (n - w) := by
  rw [live_split f h]
  exact List.drop_left' (length_live f w)

/-- Insertion cuts the live part and puts the new element in between. -/
theorem live_insertSlot_eq (f : Nat → α) {w n : Nat} (x : α) (h : w ≤ n) :
    live (insertSlot f w x) (n + 1) = (live f n).take w ++ x :: (live f n).drop w := by
  rw [live_insertSlot _ _ h, take_live _ h, drop_live _ h]

/-- The live slots with a property, where it holds up to a slot and from there on no more. -/
theorem countP_live {p : α → Bool} {f : Nat → α} {w n : Nat} (hle : w ≤ n)
    (hbefore : ∀ i, i < w → p (f i)) (hfrom : ∀ i, w ≤ i → i < n → ¬ p (f i)) :
    (live f n).countP p = w := by
  have hfirst : (live f w).countP p = (live f w).length := by
    refine List.countP_eq_length.mpr fun x hx => ?_
    obtain ⟨i, hi, rfl⟩ := mem_live.mp hx
    exact hbefore i hi
  have hrest : (live (shift f w) (n - w)).countP p = 0 := by
    refine List.countP_eq_zero.mpr fun x hx => ?_
    obtain ⟨i, hi, rfl⟩ := mem_live.mp hx
    exact hfrom (w + i) (by omega) (by omega)
  rw [live_split f hle, List.countP_append, hfirst, hrest, length_live, Nat.add_zero]

section InsertSlot

variable (f : Nat → α) {w i : Nat} (x : α)

@[simp] theorem insertSlot_self : insertSlot f w x w = x := by simp [insertSlot]

theorem insertSlot_of_lt (h : i < w) : insertSlot f w x i = f i := if_pos h

theorem insertSlot_succ_of_le (h : w ≤ i) : insertSlot f w x (i + 1) = f i := by
  have h1 : ¬ i + 1 < w := by omega
  have h2 : ¬ i + 1 = w := by omega
  simp [insertSlot, h1, h2]

theorem shifted_of_not {j : Nat} (h : ¬ (w < j ∧ j ≤ i)) : shifted w i f j = f j := if_neg h

theorem shifted_of_le {j : Nat} (h : w < j) (h' : j ≤ i) : shifted w i f j = f (j - 1) :=
  if_pos ⟨h, h'⟩

/-- One round of a shifting loop: slot `i + 1` takes slot `i`, then the rest is moved. -/
theorem shifted_succ (h : w < i + 1) :
    shifted w i (setSlot f (i + 1) (f i)) = shifted w (i + 1) f := by
  funext j
  by_cases hj : j = i + 1
  · subst hj
    rw [shifted_of_not _ (by omega), shifted_of_le _ h (Nat.le_refl _)]
    exact if_pos rfl
  · by_cases hin : w < j ∧ j ≤ i
    · rw [shifted_of_le _ hin.1 hin.2, shifted_of_le _ hin.1 (by omega)]
      exact if_neg (by omega)
    · rw [shifted_of_not _ hin, shifted_of_not _ (by omega)]
      exact if_neg hj

/-- Nothing moves when the loop starts at or below the insertion slot. -/
theorem shifted_of_ge (h : i ≤ w) : shifted w i f = f := by
  funext j
  exact if_neg (by omega)

/-- Shifting and then overwriting slot `w` is insertion, as far as the live slots go. -/
theorem setSlot_shifted {n : Nat} (hi : i ≤ n) :
    setSlot (shifted w n f) w x i = insertSlot f w x i := by
  unfold setSlot shifted insertSlot
  by_cases heq : i = w
  · simp [heq]
  · rw [if_neg heq, if_neg heq]
    by_cases hlt : i < w
    · rw [if_pos hlt, if_neg (by omega)]
    · rw [if_neg hlt, if_pos (by omega)]

@[simp] theorem setSlot_self : setSlot f w x w = x := if_pos rfl

@[simp] theorem setSlot_setSlot (y : α) : setSlot (setSlot f w x) w y = setSlot f w y := by
  funext i
  unfold setSlot
  split <;> rfl

theorem setSlot_of_ne (h : i ≠ w) : setSlot f w x i = f i := if_neg h

/-- Insertion at the end of the live slots is an overwriting. -/
theorem setSlot_eq_insertSlot (h : i ≤ w) : setSlot f w x i = insertSlot f w x i := by
  rcases Nat.eq_or_lt_of_le h with heq | hlt
  · rw [heq, setSlot_self, insertSlot_self]
  · rw [setSlot_of_ne _ _ (by omega), insertSlot_of_lt _ _ hlt]

/-- Copying all but the last slot and then the last one copies the whole upper half. -/
theorem setSlot_copied (g : Nat → α) {first last : Nat} (hfirst : first ≤ last)
    (hi : i < last + 1 - first) :
    setSlot (copied f first last g) (last - first) (f last) i = f (first + i) := by
  by_cases heq : i = last - first
  · subst heq
    rw [setSlot_self]
    congr 1
    omega
  · rw [setSlot_of_ne _ _ heq]
    exact if_pos (by omega)

/-- Insertion where the element belongs keeps the live slots in order. -/
theorem sorted_insertSlot [Preorder α] {n : Nat} (hle : w ≤ n)
    (hsorted : ∀ i j, i ≤ j → j < n → f i ≤ f j) (hbefore : ∀ i, i < w → f i ≤ x)
    (hfrom : ∀ i, w ≤ i → i < n → x ≤ f i) :
    ∀ i j, i ≤ j → j < n + 1 → insertSlot f w x i ≤ insertSlot f w x j := by
  intro i j hij hj
  rcases Nat.lt_trichotomy i w with hi | rfl | hi
  · rw [insertSlot_of_lt _ _ hi]
    rcases Nat.lt_trichotomy j w with hjw | rfl | hjw
    · rw [insertSlot_of_lt _ _ hjw]
      exact hsorted i j hij (by omega)
    · rw [insertSlot_self]
      exact hbefore i hi
    · obtain ⟨k, rfl⟩ : ∃ k, j = k + 1 := ⟨j - 1, by omega⟩
      rw [insertSlot_succ_of_le _ _ (by omega)]
      exact hsorted i k (by omega) (by omega)
  · rw [insertSlot_self]
    rcases Nat.eq_or_lt_of_le hij with rfl | hlt
    · rw [insertSlot_self]
    · obtain ⟨k, rfl⟩ : ∃ k, j = k + 1 := ⟨j - 1, by omega⟩
      rw [insertSlot_succ_of_le _ _ (by omega)]
      exact hfrom k (by omega) (by omega)
  · obtain ⟨k, rfl⟩ : ∃ k, i = k + 1 := ⟨i - 1, by omega⟩
    obtain ⟨l, rfl⟩ : ∃ l, j = l + 1 := ⟨j - 1, by omega⟩
    rw [insertSlot_succ_of_le _ _ (by omega), insertSlot_succ_of_le _ _ (by omega)]
    exact hsorted k l (by omega) (by omega)

/-- Overwriting commutes with reading a field of every slot. -/
theorem apply_setSlot (g : α → β) : g (setSlot f w x i) = setSlot (fun j => g (f j)) w (g x) i := by
  unfold setSlot
  split <;> rfl

/-- Insertion commutes with reading a field of every slot. -/
theorem apply_insertSlot (g : α → β) :
    g (insertSlot f w x i) = insertSlot (fun j => g (f j)) w (g x) i := by
  unfold insertSlot
  split
  · rfl
  · split <;> rfl

end InsertSlot

/-! ## Concatenated live parts -/

/-- The concatenation of the lists in the first `n` slots. -/
def flat (f : Nat → List α) (n : Nat) : List α := (live f n).flatten

@[simp] theorem flat_zero (f : Nat → List α) : flat f 0 = [] := rfl

theorem flat_succ (f : Nat → List α) (n : Nat) : flat f (n + 1) = flat f n ++ f n := by
  simp [flat, live_succ]

theorem flat_two (f : Nat → List α) : flat f 2 = f 0 ++ f 1 := by
  rw [flat_succ, flat_succ, flat_zero, List.nil_append]

@[simp] theorem mem_flat {f : Nat → List α} {n : Nat} {x : α} :
    x ∈ flat f n ↔ ∃ i, i < n ∧ x ∈ f i := by
  simp [flat]

theorem flatMap_flat (g : α → List β) (f : Nat → List α) (n : Nat) :
    (flat f n).flatMap g = flat (fun i => (f i).flatMap g) n := by
  induction n with
  | zero => rfl
  | succ n ih => rw [flat_succ, flat_succ, List.flatMap_append, ih]

theorem filter_flat (p : α → Bool) (f : Nat → List α) (n : Nat) :
    (flat f n).filter p = flat (fun i => (f i).filter p) n := by
  induction n with
  | zero => rfl
  | succ n ih => rw [flat_succ, flat_succ, List.filter_append, ih]

/-- A relation within the lists and between each list and those behind it. -/
theorem pairwise_flat {r : α → α → Prop} {f : Nat → List α} {n : Nat}
    (hwithin : ∀ i, i < n → (f i).Pairwise r)
    (hbetween : ∀ i j, i < j → j < n → ∀ x ∈ f i, ∀ y ∈ f j, r x y) : (flat f n).Pairwise r := by
  refine List.pairwise_flatten.mpr ⟨?_, pairwise_live hbetween⟩
  intro list hlist
  obtain ⟨i, hi, rfl⟩ := mem_live.mp hlist
  exact hwithin i hi

theorem map_flat (g : α → β) (f : Nat → List α) (n : Nat) :
    (flat f n).map g = flat (fun i => (f i).map g) n := by
  rw [flat, List.map_flatten, map_live]
  rfl

theorem flat_congr {f g : Nat → List α} {n : Nat} (h : ∀ i, i < n → f i = g i) :
    flat f n = flat g n := by
  rw [flat, flat, live_congr h]

theorem flat_perm {f g : Nat → List α} {n : Nat} (h : ∀ i, i < n → (f i).Perm (g i)) :
    (flat f n).Perm (flat g n) := by
  rw [flat, flat, live, live, ← List.flatMap_def, ← List.flatMap_def]
  exact List.Perm.flatMap_left _ fun i hi => h i (List.mem_range.mp hi)

theorem flatMap_live (g : α → List β) (f : Nat → α) (n : Nat) :
    (live f n).flatMap g = flat (fun i => g (f i)) n := by
  rw [List.flatMap_def, map_live]
  rfl

/-- Lists with no fewer than `m` elements each. -/
theorem le_length_flatMap {f : α → List β} {list : List α} {m : Nat}
    (h : ∀ x ∈ list, m ≤ (f x).length) : list.length * m ≤ (list.flatMap f).length := by
  induction list with
  | nil => simp
  | cons x rest ih =>
      have hfirst := h x List.mem_cons_self
      have hrest := ih fun y hy => h y (List.mem_cons_of_mem _ hy)
      rw [List.flatMap_cons, List.length_append, List.length_cons, Nat.succ_mul]
      omega

/-- Lists with no more than `m` elements each. -/
theorem length_flatMap_le {f : α → List β} {list : List α} {m : Nat}
    (h : ∀ x ∈ list, (f x).length ≤ m) : (list.flatMap f).length ≤ list.length * m := by
  induction list with
  | nil => simp
  | cons x rest ih =>
      have hfirst := h x List.mem_cons_self
      have hrest := ih fun y hy => h y (List.mem_cons_of_mem _ hy)
      rw [List.flatMap_cons, List.length_append, List.length_cons, Nat.succ_mul]
      omega

theorem flat_eq_flatMap (f : Nat → List α) (n : Nat) : flat f n = (List.range n).flatMap f :=
  (List.flatMap_def ..).symm

theorem le_length_flat {f : Nat → List α} {n m : Nat} (h : ∀ i, i < n → m ≤ (f i).length) :
    n * m ≤ (flat f n).length := by
  have hle := le_length_flatMap fun (i : Nat) (hi : i ∈ List.range n) => h i (List.mem_range.mp hi)
  rwa [List.length_range, ← flat_eq_flatMap] at hle

theorem length_flat_le {f : Nat → List α} {n m : Nat} (h : ∀ i, i < n → (f i).length ≤ m) :
    (flat f n).length ≤ n * m := by
  have hle := length_flatMap_le fun (i : Nat) (hi : i ∈ List.range n) => h i (List.mem_range.mp hi)
  rwa [List.length_range, ← flat_eq_flatMap] at hle

theorem flat_add (f : Nat → List α) (a b : Nat) :
    flat f (a + b) = flat f a ++ flat (shift f a) b := by
  rw [flat, live_add, List.flatten_append]
  rfl

/-- The concatenation around one of its slots. -/
theorem flat_eq_append (f : Nat → List α) {w n : Nat} (h : w < n) :
    flat f n = flat f w ++ f w ++ flat (shift f (w + 1)) (n - (w + 1)) := by
  rw [flat, live_eq_append_cons f h, List.flatten_append, List.flatten_cons, List.append_assoc]
  rfl

/-- Different slots of a concatenation without repetition have nothing in common. -/
theorem not_mem_of_nodup_flat {f : Nat → List α} {n i j : Nat} {x : α} (h : (flat f n).Nodup)
    (hi : i < n) (hj : j < n) (hij : i ≠ j) (hx : x ∈ f i) : x ∉ f j := by
  intro hxj
  rw [flat_eq_append f hi, List.nodup_append, List.nodup_append] at h
  obtain ⟨⟨_, _, hbefore⟩, _, hafter⟩ := h
  rcases Nat.lt_or_gt_of_ne hij with hlt | hgt
  · have hmem : x ∈ flat (shift f (i + 1)) (n - (i + 1)) := by
      refine mem_flat.mpr ⟨j - (i + 1), by omega, ?_⟩
      have heq : i + 1 + (j - (i + 1)) = j := by omega
      rwa [shift, heq]
    exact hafter x (List.mem_append_right _ hx) x hmem rfl
  · exact hbefore x (mem_flat.mpr ⟨j, hgt, hxj⟩) x hx rfl

theorem flat_setSlot (f : Nat → List α) {w n : Nat} (x : List α) (h : w < n) :
    flat (setSlot f w x) n = flat f w ++ x ++ flat (shift f (w + 1)) (n - (w + 1)) := by
  rw [flat, live_setSlot f x h, List.flatten_append, List.flatten_cons, List.append_assoc]
  rfl

theorem flat_insertSlot (f : Nat → List α) {w n : Nat} (x : List α) (h : w ≤ n) :
    flat (insertSlot f w x) (n + 1) = flat f w ++ x ++ flat (shift f w) (n - w) := by
  rw [flat, live_insertSlot f x h, List.flatten_append, List.flatten_cons, List.append_assoc]
  rfl

end HiveDb.Lib.Slots
