import HiveDb.BPlusTree.Subtree

/-!
# Local updates of a subtree

The four structural changes an insertion makes are stated here on pages, without
the program around them: a pair put into a leaf, a full leaf cut in two, a leaf
registered in an inner node, and a full inner node cut in two.
-/

namespace HiveDb.BPlusTree

open HiveDb.Lib
open HiveDb.Lib.Slots

variable {K V : Type}

/-! ## Leaves -/

theorem Page.mem_pairs {page : Page K V} {x : K × V} :
    x ∈ page.pairs ↔ ∃ i, i < page.currentSize ∧ (page.keys i, page.values i) = x :=
  mem_live

namespace IsLeaf

variable [Index K] {cap : Nat} {page : Page K V}

/-- Insertion at a position of the key keeps the keys in order. -/
theorem sorted_insert {page' : Page K V} {w : Nat} {key : K} {value : V}
    (hsorted : SortedKeys page page.currentSize)
    (hposition : Node.IsPosition page page.currentSize key w)
    (hinsert : LeafNode.Inserted page page' w key value) :
    SortedKeys page' page'.currentSize := by
  intro i j hij hj
  rw [hinsert.currentSize_eq] at hj
  rw [hinsert.keys_eq i (by omega), hinsert.keys_eq j (by omega)]
  exact sorted_insertSlot _ _ hposition.le hsorted hposition.before hposition.from_position
    i j hij hj

omit [Index K] in
/-- An insertion puts the pair between the old ones, which stay in their order. -/
theorem pairs_of_inserted {page' : Page K V} {w : Nat} {key : K} {value : V}
    (hle : w ≤ page.currentSize) (hinsert : LeafNode.Inserted page page' w key value) :
    page'.pairs = page.pairs.take w ++ (key, value) :: page.pairs.drop w := by
  have hlive : page'.pairs =
      live (insertSlot (fun i => (page.keys i, page.values i)) w (key, value))
        (page.currentSize + 1) := by
    unfold Page.pairs
    rw [hinsert.currentSize_eq]
    refine live_congr fun i hi => ?_
    rw [hinsert.keys_eq i (by omega), hinsert.values_eq i (by omega)]
    unfold insertSlot
    split
    · rfl
    · split <;> rfl
  rw [hlive, live_insertSlot_eq _ _ hle, Page.pairs]

omit [Index K] in
theorem pairs_insert {page' : Page K V} {w : Nat} {key : K} {value : V}
    (hle : w ≤ page.currentSize) (hinsert : LeafNode.Inserted page page' w key value) :
    page'.pairs.Perm ((key, value) :: page.pairs) := by
  have hold : (page.pairs.take w ++ page.pairs.drop w).Perm page.pairs :=
    .of_eq (List.take_append_drop w page.pairs)
  rw [pairs_of_inserted hle hinsert]
  exact List.perm_middle.trans (hold.cons _)

/-- A leaf with room stays a leaf when a pair is put at a position of its key. -/
theorem insert {page' : Page K V} {w : Nat} {key : K} {value : V} (h : IsLeaf cap page)
    (hroom : page.currentSize < cap) (hposition : Node.IsPosition page page.currentSize key w)
    (hinsert : LeafNode.Inserted page page' w key value) : IsLeaf cap page' where
  type_eq := hinsert.type_eq.trans h.type_eq
  maxSize_eq := hinsert.maxSize_eq.trans h.maxSize_eq
  pos := by
    rw [hinsert.currentSize_eq]
    omega
  le := by
    rw [hinsert.currentSize_eq]
    omega
  sorted := sorted_insert h.sorted hposition hinsert

section Split

variable {newPageId : PageId} {newPage page' newPage' : Page K V}

theorem split_left (hcap : 2 ≤ cap) (h : IsLeaf cap page) (hfull : page.currentSize = cap)
    (hsplit : LeafNode.Split cap newPageId page newPage page' newPage') : IsLeaf cap page' where
  type_eq := hsplit.type_eq.trans h.type_eq
  maxSize_eq := hsplit.maxSize_eq.trans h.maxSize_eq
  pos := by
    rw [hsplit.currentSize_eq]
    omega
  le := by
    rw [hsplit.currentSize_eq]
    omega
  sorted := by
    intro i j hij hj
    rw [hsplit.currentSize_eq] at hj
    rw [hsplit.keys_eq i (by omega), hsplit.keys_eq j hj]
    exact h.sorted i j hij (by omega)

theorem split_right (hcap : 2 ≤ cap) (h : IsLeaf cap page) (hfull : page.currentSize = cap)
    (hsplit : LeafNode.Split cap newPageId page newPage page' newPage') :
    IsLeaf cap newPage' where
  type_eq := hsplit.new_type_eq
  maxSize_eq := hsplit.new_maxSize_eq
  pos := by
    rw [hsplit.new_currentSize_eq]
    omega
  le := by
    rw [hsplit.new_currentSize_eq]
    omega
  sorted := by
    intro i j hij hj
    rw [hsplit.new_currentSize_eq] at hj
    rw [hsplit.new_keys_eq i (by omega), hsplit.new_keys_eq j hj]
    exact h.sorted _ _ (by omega) (by omega)

omit [Index K] in
/-- A split neither loses nor reorders a pair. -/
theorem pairs_split (hfull : page.currentSize = cap)
    (hsplit : LeafNode.Split cap newPageId page newPage page' newPage') :
    page.pairs = page'.pairs ++ newPage'.pairs := by
  have hsizes : cap = cap / 2 + (cap - cap / 2) := by omega
  unfold Page.pairs
  rw [hfull, hsplit.currentSize_eq, hsplit.new_currentSize_eq]
  nth_rewrite 1 [hsizes]
  rw [live_add]
  congr 1
  · refine live_congr fun i hi => ?_
    rw [hsplit.keys_eq i hi, hsplit.values_eq i hi]
  · refine live_congr fun i hi => ?_
    rw [hsplit.new_keys_eq i hi, hsplit.new_values_eq i hi]
    rfl

/-- The first key of the upper half is at least every key of the lower half. -/
theorem le_new_first (h : IsLeaf cap page) (hfull : page.currentSize = cap)
    (hsplit : LeafNode.Split cap newPageId page newPage page' newPage') {x : K × V}
    (hx : x ∈ page'.pairs) (hcap : 2 ≤ cap) : x.1 ≤ newPage'.keys 0 := by
  obtain ⟨i, hi, rfl⟩ := Page.mem_pairs.mp hx
  rw [hsplit.currentSize_eq] at hi
  rw [hsplit.keys_eq i hi, hsplit.new_keys_eq 0 (by omega)]
  exact h.sorted _ _ (by omega) (by omega)

end Split

/-- The first key of a leaf is at most its other keys. -/
theorem first_le (h : IsLeaf cap page) {x : K × V} (hx : x ∈ page.pairs) : page.keys 0 ≤ x.1 := by
  obtain ⟨i, hi, rfl⟩ := Page.mem_pairs.mp hx
  exact h.sorted 0 i (Nat.zero_le i) hi

/-- The first key of a leaf belongs to one of its pairs. -/
theorem first_mem (h : IsLeaf cap page) : ∃ x ∈ page.pairs, x.1 = page.keys 0 :=
  ⟨_, Page.mem_pairs.mpr ⟨0, h.pos, rfl⟩, rfl⟩

end IsLeaf

/-! ## Inner nodes -/

/-- All pairs of `entries` are kept, and whatever is added has the given key. -/
structure Grows (key : K) (entries entries' : List (K × V)) : Prop where
  kept : ∀ x ∈ entries, x ∈ entries'
  added : ∀ x ∈ entries', x ∈ entries ∨ x.1 = key

theorem Grows.of_perm {key : K} {value : V} {entries entries' : List (K × V)}
    (h : entries'.Perm ((key, value) :: entries)) : Grows key entries entries' where
  kept x hx := h.mem_iff.mpr (List.mem_cons_of_mem _ hx)
  added x hx := by
    rcases List.mem_cons.mp (h.mem_iff.mp hx) with heq | hold
    · exact .inr (heq ▸ rfl)
    · exact .inl hold

/-- Growth of a part is growth of the whole. -/
theorem Grows.append {key : K} {entries entries' before after : List (K × V)}
    (h : Grows key entries entries') :
    Grows key (before ++ entries ++ after) (before ++ entries' ++ after) where
  kept x hx := by
    rcases List.mem_append.mp hx with hleft | hafter
    · rcases List.mem_append.mp hleft with hbefore | hmid
      · simp [hbefore]
      · simp [h.kept x hmid]
    · simp [hafter]
  added x hx := by
    rcases List.mem_append.mp hx with hleft | hafter
    · rcases List.mem_append.mp hleft with hbefore | hmid
      · simp [hbefore]
      · rcases h.added x hmid with hold | hkey
        · simp [hold]
        · exact .inr hkey
    · simp [hafter]

namespace IsInner

variable {cap : Nat} {page : Page K V} {children : Nat → Branch K V}

theorem mem_setSlot {j m : Nat} {child : Branch K V} {x : K × V}
    (hx : x ∈ (setSlot children j child m).entries) :
    (m = j ∧ x ∈ child.entries) ∨ x ∈ (children m).entries := by
  by_cases hm : m = j
  · subst hm
    rw [setSlot_self] at hx
    exact .inl ⟨rfl, hx⟩
  · rw [setSlot_of_ne _ _ hm] at hx
    exact .inr hx

/-- The separators survive when the child a key belongs to takes that key in. -/
theorem replace [Index K] [Value V] {key : K} {j : Nat} (h : IsInner cap page children)
    (child : Branch K V) (hroute : Routes page key j) (hroot : child.root = (children j).root)
    (hgrows : Grows key (children j).entries child.entries) :
    IsInner cap page (setSlot children j child) where
  type_eq := h.type_eq
  maxSize_eq := h.maxSize_eq
  two_le := h.two_le
  le := h.le
  child_eq := by
    intro i hi
    rw [h.child_eq i hi]
    by_cases hij : i = j
    · rw [hij, setSlot_self, hroot]
    · rw [setSlot_of_ne _ _ hij]
  separates := by
    intro i hi
    have hold := h.separates i hi
    have hcase : ∀ m, ∀ x ∈ (setSlot children j child m).entries,
        x ∈ (children m).entries ∨ (m = j ∧ x.1 = key) := by
      intro m x hx
      rcases mem_setSlot hx with ⟨rfl, hnew⟩ | hold
      · rcases hgrows.added x hnew with hold | hkey
        · exact .inl hold
        · exact .inr ⟨rfl, hkey⟩
      · exact .inl hold
    refine ⟨?_, ?_, ?_⟩
    · intro m hm x hx
      rcases hcase m x hx with hx | ⟨rfl, hkey⟩
      · exact hold.left m hm x hx
      · rw [hkey]
        exact le_of_lt (hroute.after i hm hi)
    · intro m hm hn x hx
      rcases hcase m x hx with hx | ⟨rfl, hkey⟩
      · exact hold.right m hm hn x hx
      · rw [hkey]
        exact hroute.before i hm
    · rcases hold.found with hstrict | ⟨x, hx, hkey⟩
      · refine .inl fun m hm x hx => ?_
        rcases hcase m x hx with hx | ⟨rfl, hkey⟩
        · exact hstrict m hm x hx
        · rw [hkey]
          exact hroute.after i hm hi
      · refine .inr ⟨x, ?_, hkey⟩
        by_cases hij : i + 1 = j
        · rw [hij, setSlot_self]
          exact hgrows.kept x (hij ▸ hx)
        · rw [setSlot_of_ne _ _ hij]
          exact hx

/-- Child `j` cut in two at a key that the right half starts with. -/
structure Cut [Index K] (child left right : Branch K V) (key : K) : Prop where
  root_eq : left.root = child.root
  entries_eq : child.entries = left.entries ++ right.entries
  left_ne_nil : ∃ x, x ∈ left.entries
  left_le : ∀ x ∈ left.entries, x.1 ≤ key
  le_right : ∀ x ∈ right.entries, key ≤ x.1
  right_first : ∃ x ∈ right.entries, x.1 = key

/-- The children after child `j` has been replaced by its two halves. -/
def cutChildren (children : Nat → Branch K V) (j : Nat) (left right : Branch K V) :
    Nat → Branch K V :=
  insertSlot (setSlot children j left) (j + 1) right

section CutChildren

variable {j m : Nat} {left right : Branch K V}

@[simp] theorem cutChildren_setSlot (child : Branch K V) :
    cutChildren (setSlot children j child) j left right = cutChildren children j left right := by
  rw [cutChildren, setSlot_setSlot, cutChildren]

theorem cutChildren_of_lt (h : m < j) : cutChildren children j left right m = children m := by
  rw [cutChildren, insertSlot_of_lt _ _ (by omega), setSlot_of_ne _ _ (by omega)]

theorem cutChildren_left : cutChildren children j left right j = left := by
  rw [cutChildren, insertSlot_of_lt _ _ (by omega), setSlot_self]

theorem cutChildren_right : cutChildren children j left right (j + 1) = right := by
  rw [cutChildren, insertSlot_self]

theorem cutChildren_succ_of_gt (h : j < m) :
    cutChildren children j left right (m + 1) = children m := by
  rw [cutChildren, insertSlot_succ_of_le _ _ (by omega), setSlot_of_ne _ _ (by omega)]

/-- The old child a new child comes from. -/
theorem mem_cutChildren [Index K] {key : K} (hcut : Cut (children j) left right key) {x : K × V}
    (hx : x ∈ (cutChildren children j left right m).entries) :
    x ∈ (children (if m ≤ j then m else m - 1)).entries := by
  rcases Nat.lt_trichotomy m j with hlt | rfl | hgt
  · rw [cutChildren_of_lt hlt] at hx
    rwa [if_pos (Nat.le_of_lt hlt)]
  · rw [cutChildren_left] at hx
    rw [if_pos (Nat.le_refl m), hcut.entries_eq]
    exact List.mem_append_left _ hx
  · obtain ⟨k, rfl⟩ : ∃ k, m = k + 1 := ⟨m - 1, by omega⟩
    rw [if_neg (by omega), Nat.add_sub_cancel]
    rcases Nat.eq_or_lt_of_le (Nat.le_of_lt_succ hgt) with rfl | hlt
    · rw [cutChildren_right] at hx
      rw [hcut.entries_eq]
      exact List.mem_append_right _ hx
    · rwa [cutChildren_succ_of_gt hlt] at hx

/-- The concatenation of what a cut child holds is unchanged. -/
theorem flat_cutChildren {α : Type} (f : Branch K V → List α) {n : Nat} (hj : j < n) :
    flat (fun i => f (cutChildren children j left right i)) (n + 1) =
      flat (fun i => f (children i)) j ++ (f left ++ f right) ++
        flat (shift (fun i => f (children i)) (j + 1)) (n - (j + 1)) := by
  have hslots : (fun i => f (cutChildren children j left right i)) =
      insertSlot (setSlot (fun i => f (children i)) j (f left)) (j + 1) (f right) := by
    funext i
    rw [cutChildren, apply_insertSlot (setSlot children j left) right f]
    congr 1
    funext k
    exact apply_setSlot children left f
  rw [hslots, flat_insertSlot _ _ (by omega), flat_succ, setSlot_self, List.append_assoc
    (flat _ j)]
  congr 1
  · congr 1
    exact flat_congr fun i hi => setSlot_of_ne _ _ (by omega)
  · refine flat_congr fun i hi => ?_
    exact setSlot_of_ne _ _ (by omega)

end CutChildren

variable [Index K] [Value V]

/-- Children hold their pairs in key order. -/
theorem entries_le (h : IsInner cap page children) {m k : Nat} (hmk : m < k)
    (hk : k < page.currentSize) {x y : K × V} (hx : x ∈ (children m).entries)
    (hy : y ∈ (children k).entries) : x.1 ≤ y.1 := by
  have hseparates := h.separates m (by omega)
  exact le_trans (hseparates.left m (Nat.le_refl _) x hx) (hseparates.right k hmk hk y hy)

section Register

variable {page' : Page K V} {j : Nat} {left right : Branch K V} {key : K} {value : V}

theorem separates_before (h : IsInner cap page children) (hj : j < page.currentSize)
    (hcut : Cut (children j) left right key) {i : Nat} (hi : i < j) :
    Separates (cutChildren children j left right) (page.currentSize + 1) i (page.keys i) := by
  have hold := h.separates i (by omega)
  have hleft : ∀ m, m ≤ i → ∀ x ∈ (cutChildren children j left right m).entries,
      x ∈ (children m).entries := by
    intro m hm x hx
    rwa [cutChildren_of_lt (by omega)] at hx
  refine ⟨fun m hm x hx => hold.left m hm x (hleft m hm x hx), ?_, ?_⟩
  · intro m hm hn x hx
    have hmem := mem_cutChildren hcut hx
    split at hmem
    · exact hold.right m hm (by omega) x hmem
    · exact hold.right (m - 1) (by omega) (by omega) x hmem
  · rcases hold.found with hstrict | ⟨x, hx, hkey⟩
    · exact .inl fun m hm x hx => hstrict m hm x (hleft m hm x hx)
    · refine .inr ?_
      rcases Nat.eq_or_lt_of_le (Nat.succ_le_of_lt hi) with hnext | hlt
      · -- the first child behind the separator is the one that is cut
        rw [Nat.succ_eq_add_one] at hnext
        rw [hnext, cutChildren_left]
        rw [hnext, hcut.entries_eq] at hx
        rcases List.mem_append.mp hx with hx | hx
        · exact ⟨x, hx, hkey⟩
        · obtain ⟨z, hz⟩ := hcut.left_ne_nil
          have hzold : z ∈ (children j).entries :=
            hcut.entries_eq ▸ List.mem_append_left _ hz
          refine ⟨z, hz, le_antisymm ?_ (hold.right j hi hj z hzold)⟩
          exact le_trans (hcut.left_le z hz) (hkey ▸ hcut.le_right x hx)
      · rw [cutChildren_of_lt hlt]
        exact ⟨x, hx, hkey⟩

theorem separates_cut (h : IsInner cap page children) (hj : j < page.currentSize)
    (hcut : Cut (children j) left right key) :
    Separates (cutChildren children j left right) (page.currentSize + 1) j key := by
  obtain ⟨y, hy, hkey⟩ := hcut.right_first
  have hyold : y ∈ (children j).entries := hcut.entries_eq ▸ List.mem_append_right _ hy
  refine ⟨?_, ?_, .inr ⟨y, by rwa [cutChildren_right], hkey⟩⟩
  · intro m hm x hx
    rcases Nat.eq_or_lt_of_le hm with rfl | hlt
    · rw [cutChildren_left] at hx
      exact hcut.left_le x hx
    · rw [cutChildren_of_lt hlt] at hx
      exact hkey ▸ h.entries_le hlt hj hx hyold
  · intro m hm hn x hx
    obtain ⟨k, rfl⟩ : ∃ k, m = k + 1 := ⟨m - 1, by omega⟩
    rcases Nat.eq_or_lt_of_le (Nat.le_of_lt_succ hm) with rfl | hlt
    · rw [cutChildren_right] at hx
      exact hcut.le_right x hx
    · rw [cutChildren_succ_of_gt hlt] at hx
      exact hkey ▸ h.entries_le hlt (by omega) hyold hx

/-- The separators behind the cut child move up by one. -/
theorem separates_after (h : IsInner cap page children)
    (hcut : Cut (children j) left right key) {i : Nat} (hji : j ≤ i)
    (hi : i + 1 < page.currentSize) :
    Separates (cutChildren children j left right) (page.currentSize + 1) (i + 1)
      (page.keys i) := by
  have hold := h.separates i hi
  have hleft : ∀ m, m ≤ i + 1 → ∀ x ∈ (cutChildren children j left right m).entries,
      ∃ k, k ≤ i ∧ x ∈ (children k).entries := by
    intro m hm x hx
    have hmem := mem_cutChildren hcut hx
    split at hmem
    · exact ⟨m, by omega, hmem⟩
    · exact ⟨m - 1, by omega, hmem⟩
  refine ⟨?_, ?_, ?_⟩
  · intro m hm x hx
    obtain ⟨k, hk, hmem⟩ := hleft m hm x hx
    exact hold.left k hk x hmem
  · intro m hm hn x hx
    obtain ⟨k, rfl⟩ : ∃ k, m = k + 1 := ⟨m - 1, by omega⟩
    rw [cutChildren_succ_of_gt (by omega)] at hx
    exact hold.right k (by omega) (by omega) x hx
  · rcases hold.found with hstrict | ⟨x, hx, hkey⟩
    · refine .inl fun m hm x hx => ?_
      obtain ⟨k, hk, hmem⟩ := hleft m hm x hx
      exact hstrict k hk x hmem
    · exact .inr ⟨x, by rwa [cutChildren_succ_of_gt (by omega)], hkey⟩

/-- Registering the right half of a child right of its left half. -/
theorem register (h : IsInner cap page children) (hroom : page.currentSize < cap)
    (hj : j < page.currentSize) (hcut : Cut (children j) left right key)
    (hvalue : Value.key value = right.root)
    (hregistered : InnerNode.Registered page page' j key value) :
    IsInner cap page' (cutChildren children j left right) where
  type_eq := hregistered.type_eq.trans h.type_eq
  maxSize_eq := hregistered.maxSize_eq.trans h.maxSize_eq
  two_le := by
    have htwo := h.two_le
    rw [hregistered.currentSize_eq]
    omega
  le := by
    rw [hregistered.currentSize_eq]
    omega
  child_eq := by
    intro i hi
    rw [hregistered.currentSize_eq] at hi
    rw [hregistered.values_eq i (by omega)]
    rcases Nat.lt_trichotomy i (j + 1) with hlt | rfl | hgt
    · rw [insertSlot_of_lt _ _ hlt, h.child_eq i (by omega)]
      rcases Nat.eq_or_lt_of_le (Nat.le_of_lt_succ hlt) with rfl | hlt'
      · rw [cutChildren_left, hcut.root_eq]
      · rw [cutChildren_of_lt hlt']
    · rw [insertSlot_self, cutChildren_right, hvalue]
    · obtain ⟨k, rfl⟩ : ∃ k, i = k + 1 := ⟨i - 1, by omega⟩
      rw [insertSlot_succ_of_le _ _ (by omega), h.child_eq k (by omega),
        cutChildren_succ_of_gt (by omega)]
  separates := by
    intro i hi
    rw [hregistered.currentSize_eq] at hi ⊢
    rw [hregistered.keys_eq i (by omega)]
    rcases Nat.lt_trichotomy i j with hlt | rfl | hgt
    · rw [insertSlot_of_lt _ _ hlt]
      exact h.separates_before hj hcut hlt
    · rw [insertSlot_self]
      exact h.separates_cut hj hcut
    · obtain ⟨k, rfl⟩ : ∃ k, i = k + 1 := ⟨i - 1, by omega⟩
      rw [insertSlot_succ_of_le _ _ (by omega)]
      exact h.separates_after hcut (by omega) (by omega)

end Register

section Split

variable {previousPage : PageId} {page' newPage' : Page K V}

/-- The lower part of a full inner node, with the separator to promote in its last slot. -/
theorem split_left (hcap : 3 ≤ cap) (h : IsInner cap page children)
    (hfull : page.currentSize = cap)
    (hsplit : InnerNode.Split cap previousPage page page' newPage') :
    IsInner cap page' children where
  type_eq := hsplit.type_eq.trans h.type_eq
  maxSize_eq := hsplit.maxSize_eq.trans h.maxSize_eq
  two_le := by
    rw [hsplit.currentSize_eq]
    omega
  le := by
    rw [hsplit.currentSize_eq]
    omega
  child_eq := by
    intro i hi
    rw [hsplit.currentSize_eq] at hi
    rw [hsplit.values_eq i (by omega)]
    exact h.child_eq i (by omega)
  separates := by
    intro i hi
    rw [hsplit.currentSize_eq] at hi ⊢
    rw [hsplit.keys_eq i (by omega)]
    have hold := h.separates i (by omega)
    exact ⟨hold.left, fun m hm hn => hold.right m hm (by omega), hold.found⟩

theorem split_right (hcap : 5 ≤ cap) (h : IsInner cap page children)
    (hfull : page.currentSize = cap)
    (hsplit : InnerNode.Split cap previousPage page page' newPage') :
    IsInner cap newPage' (shift children (cap / 2 + 1)) where
  type_eq := hsplit.new_type_eq
  maxSize_eq := hsplit.new_maxSize_eq
  two_le := by
    rw [hsplit.new_currentSize_eq]
    omega
  le := by
    rw [hsplit.new_currentSize_eq]
    omega
  child_eq := by
    intro i hi
    rw [hsplit.new_currentSize_eq] at hi
    rw [hsplit.new_values_eq i hi]
    exact h.child_eq _ (by omega)
  separates := by
    intro i hi
    rw [hsplit.new_currentSize_eq] at hi ⊢
    rw [hsplit.new_keys_eq i (by omega)]
    have hold := h.separates (cap / 2 + 1 + i) (by omega)
    refine ⟨?_, ?_, ?_⟩
    · intro m hm x hx
      exact hold.left _ (by omega) x hx
    · intro m hm hn x hx
      exact hold.right _ (by omega) (by omega) x hx
    · rcases hold.found with hstrict | hfirst
      · exact .inl fun m hm x hx => hstrict _ (by omega) x hx
      · exact .inr hfirst

end Split

end IsInner

end HiveDb.BPlusTree
