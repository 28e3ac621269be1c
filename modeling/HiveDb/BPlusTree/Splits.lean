import HiveDb.BPlusTree.IdealEval

/-!
# Splits of full nodes

A full node is cut into two that together hold what it held.  A leaf can be cut
from two pairs on.  An inner node keeps one child more than half of its
children, and promotes the separator behind the last one it keeps: with fewer
than five children the other half is left with a single child, which
`find_index` cannot search.
-/

namespace HiveDb.BPlusTree

open HiveDb.Lib
open HiveDb.Lib.Slots

variable {K V : Type} [Index K] [Value V]

/-- The live keys of a leaf are in increasing order. -/
def StrictKeys (page : Page K V) (count : Nat) : Prop :=
  ∀ i j, i < j → j < count → page.keys i < page.keys j

omit [Value V] in
theorem StrictKeys.sorted {page : Page K V} {count : Nat} (h : StrictKeys page count) :
    SortedKeys page count := by
  intro i j hij hj
  rcases Nat.eq_or_lt_of_le hij with rfl | hlt
  · exact le_refl _
  · exact (h i j hlt hj).le

/-- The children of an inner node, in their order. -/
def Page.children (page : Page K V) : List V := live page.values page.currentSize

/-- The separators of an inner node; the last key slot is not one. -/
def Page.separators (page : Page K V) : List K := live page.keys (page.currentSize - 1)

/-! ## Leaves -/

namespace LeafNode

variable {cap : Nat} {page : Page K V}

/-- A full leaf with at least two pairs is cut into two that have room. -/
theorem splitNode_partitions (hcap : 2 ≤ cap) (hmax : page.maxSize = cap)
    (hfull : page.currentSize = cap) (hkeys : StrictKeys page page.currentSize)
    (newPageId : PageId) (newPage : Page K V) :
    ∃ left right, splitNode cap newPageId (Node.ofBuffer page) (Node.ofBuffer newPage) =
        .ok (Node.ofBuffer left, Node.ofBuffer right) ∧
      left.pairs ++ right.pairs = page.pairs ∧
      (0 < left.currentSize ∧ left.currentSize < left.maxSize) ∧
      (0 < right.currentSize ∧ right.currentSize < right.maxSize) ∧
      left.currentSize + right.currentSize = cap ∧
      (∀ x ∈ left.pairs, x.1 < right.keys 0) := by
  obtain ⟨left, right, hrun, hsplit⟩ := splitNode_spec newPageId newPage hcap hmax hfull
  refine ⟨left, right, hrun, (IsLeaf.pairs_split hfull hsplit).symm, ?_, ?_, ?_, ?_⟩
  · rw [hsplit.currentSize_eq, hsplit.maxSize_eq, hmax]
    omega
  · rw [hsplit.new_currentSize_eq, hsplit.new_maxSize_eq]
    omega
  · rw [hsplit.currentSize_eq, hsplit.new_currentSize_eq]
    omega
  · intro x hx
    obtain ⟨i, hi, rfl⟩ := Page.mem_pairs.mp hx
    rw [hsplit.currentSize_eq] at hi
    rw [hsplit.keys_eq i hi, hsplit.new_keys_eq 0 (by omega)]
    exact hkeys i (cap / 2 + 0) (by omega) (by omega)

end LeafNode

/-! ## Inner nodes -/

namespace InnerNode

/-- `split_node`, then the promotion of the last key of the left half to a new root. -/
def splitAndPromote (cap : Nat) (previousPage victimPageId rhsPageId : PageId)
    (node newNode newRootNode : Node K V) : Except Failure (Node K V × Node K V × Node K V) := do
  let halves ← splitNode cap previousPage node newNode
  let roots ← promoteLastKey victimPageId rhsPageId (newRootHeader cap newRootNode) halves.1
  return (roots.2, halves.2, roots.1)

section Halves

variable {cap : Nat} {page left right page' : Page K V} {previousPage : PageId}

omit [Index K] [Value V] in
theorem Split.children_eq (hsplit : Split cap previousPage page left right) (hcap : 3 ≤ cap)
    (hfull : page.currentSize = cap) : left.children ++ right.children = page.children := by
  have hleft : live left.values (cap / 2 + 1) = live page.values (cap / 2 + 1) :=
    live_congr fun i hi => hsplit.values_eq i (by omega)
  have hright : live right.values (cap - (cap / 2 + 1)) =
      live (shift page.values (cap / 2 + 1)) (cap - (cap / 2 + 1)) :=
    live_congr hsplit.new_values_eq
  have hsizes : cap / 2 + 1 ≤ cap := by omega
  unfold Page.children
  rw [hfull, hsplit.currentSize_eq, hsplit.new_currentSize_eq, hleft, hright,
    ← live_split page.values hsizes]

omit [Index K] [Value V] in
/-- The separators around the one behind the last child that stays. -/
theorem Split.separators_eq (hsplit : Split cap previousPage page left right) (hcap : 3 ≤ cap)
    (hfull : page.currentSize = cap) :
    left.separators ++ left.keys (left.currentSize - 1) :: right.separators =
      page.separators := by
  have hmiddle : cap / 2 < cap - 1 := by omega
  have hrest : cap - 1 - (cap / 2 + 1) = cap - (cap / 2 + 1) - 1 := by omega
  have hleft : live left.keys (cap / 2) = live page.keys (cap / 2) :=
    live_congr fun i hi => hsplit.keys_eq i hi.le
  have hright : live right.keys (cap - (cap / 2 + 1) - 1) =
      live (shift page.keys (cap / 2 + 1)) (cap - (cap / 2 + 1) - 1) :=
    live_congr fun i hi => hsplit.new_keys_eq i (by omega)
  unfold Page.separators
  rw [hfull, hsplit.currentSize_eq, hsplit.new_currentSize_eq, Nat.add_sub_cancel,
    live_eq_append_cons page.keys hmiddle, hsplit.keys_eq _ (Nat.le_refl _), hrest, hleft,
    hright]

omit [Index K] [Value V] in
theorem children_of_promoted (hpromoted : IdealTree.Promoted page page') :
    page'.children = page.children := by
  rw [Page.children, hpromoted.currentSize_eq, hpromoted.values_eq, Page.children]

omit [Index K] [Value V] in
theorem separators_of_promoted (hpromoted : IdealTree.Promoted page page') :
    page'.separators = page.separators := by
  rw [Page.separators, hpromoted.currentSize_eq, Page.separators]
  exact live_congr fun i hi => hpromoted.keys_eq i (by omega)

/--
A full inner node is cut in two without losing a child or a separator; both parts
have two children exactly when the node has five.
-/
theorem splitAndPromote_keeps (hcap : 3 ≤ cap) (hmax : page.maxSize = cap)
    (hfull : page.currentSize = cap) (previousPage victimPageId rhsPageId : PageId)
    (newPage rootPage : Page K V) :
    ∃ left right root, splitAndPromote cap previousPage victimPageId rhsPageId
        (Node.ofBuffer page) (Node.ofBuffer newPage) (Node.ofBuffer rootPage) =
          .ok (Node.ofBuffer left, Node.ofBuffer right, Node.ofBuffer root) ∧
      left.children ++ right.children = page.children ∧
      left.separators ++ root.keys 0 :: right.separators = page.separators ∧
      (2 ≤ left.currentSize ∧ 2 ≤ right.currentSize ↔ 5 ≤ cap) := by
  obtain ⟨mid, right, hrun, hsplit⟩ := splitNode_spec previousPage newPage hcap hmax hfull
  have hsize := hsplit.currentSize_eq
  obtain ⟨root, left, hpromote, hroot, hpromoted⟩ := IdealTree.promoteLastKey_eq rootPage
    victimPageId rhsPageId (show 2 ≤ cap by omega) (hsplit.maxSize_eq.trans hmax)
    (show 0 < mid.currentSize by omega) (by omega)
  refine ⟨left, right, root, ?_, ?_, ?_, ?_⟩
  · rw [splitAndPromote, hrun, ok_bind, hpromote, ok_bind]
    rfl
  · rw [children_of_promoted hpromoted]
    exact hsplit.children_eq hcap hfull
  · rw [separators_of_promoted hpromoted, hroot.key_eq]
    exact hsplit.separators_eq hcap hfull
  · rw [hpromoted.currentSize_eq, hsize, hsplit.new_currentSize_eq]
    omega

omit [Value V] in
/-- A node with one child cannot be searched. -/
theorem findIndex_of_one {key : K} (hone : page.currentSize = 1) :
    findIndex (Node.ofBuffer page) key = .error .assertion := by
  have hpos : (Node.ofBuffer page).currentSize > 0 := by
    rw [Node.ofBuffer_currentSize, hone]
    exact Nat.one_pos
  have hslot : ((Node.ofBuffer page).currentSize : Int) - 2 = -1 := by
    rw [Node.ofBuffer_currentSize, hone]
    rfl
  have hcheck : (Node.ofBuffer page).checkSlot (-1) = .error .assertion :=
    assertThat_of_not fun h => absurd h.1 (by decide)
  unfold findIndex findIndexThrough
  dsimp only
  rw [assertThat_of hpos, ok_bind, hslot, Node.indexes, hcheck]
  rfl

end Halves

end InnerNode

/-! ## Nodes of numbers -/

/-- A page with the numbers from zero on in its key and value slots. -/
def countedPage (type : NodeType) (maxSize currentSize : Nat) : Page Int Int :=
  ⟨type, maxSize, currentSize, invalidPageId, fun i => i, fun i => i⟩

theorem countedPage_strict (type : NodeType) (maxSize currentSize count : Nat) :
    StrictKeys (countedPage type maxSize currentSize) count :=
  fun _ _ hij _ => Int.ofNat_lt.mpr hij

/-- A leaf of three pairs. -/
theorem three_pairs_partitioned :
    ∃ left right, LeafNode.splitNode 3 1 (Node.ofBuffer (countedPage .leafNode 3 3))
        (Node.ofBuffer (countedPage .leafNode 0 0)) =
          .ok (Node.ofBuffer left, Node.ofBuffer right) ∧
      left.pairs ++ right.pairs = [(0, 0), (1, 1), (2, 2)] ∧
      left.currentSize + right.currentSize = 3 ∧ (∀ x ∈ left.pairs, x.1 < right.keys 0) := by
  obtain ⟨left, right, hrun, hpairs, _, _, hsizes, hkeys⟩ :=
    LeafNode.splitNode_partitions (by decide)
      (show (countedPage .leafNode 3 3).maxSize = 3 from rfl) rfl
      (countedPage_strict .leafNode 3 3 3) 1 (countedPage .leafNode 0 0)
  exact ⟨left, right, hrun, hpairs, hsizes, hkeys⟩

/-- Of an inner node with five children three stay. -/
theorem five_children_kept :
    ∃ left right root, InnerNode.splitAndPromote 5 0 0 1
        (Node.ofBuffer (countedPage .innerNode 5 5)) (Node.ofBuffer (countedPage .innerNode 0 0))
        (Node.ofBuffer (countedPage .innerNode 0 0)) =
          .ok (Node.ofBuffer left, Node.ofBuffer right, Node.ofBuffer root) ∧
      left.children ++ right.children = [0, 1, 2, 3, 4] ∧
      left.separators ++ root.keys 0 :: right.separators = [0, 1, 2, 3] ∧
      2 ≤ left.currentSize ∧ 2 ≤ right.currentSize := by
  obtain ⟨left, right, root, hrun, hchildren, hseparators, hsizes⟩ :=
    InnerNode.splitAndPromote_keeps (by decide)
      (show (countedPage .innerNode 5 5).maxSize = 5 from rfl) rfl 0 0 1
      (countedPage .innerNode 0 0) (countedPage .innerNode 0 0)
  exact ⟨left, right, root, hrun, hchildren, hseparators, hsizes.mpr (by decide)⟩

/-- Of an inner node with four children one goes to the right half. -/
theorem four_children_single :
    ¬ ∀ (cap : Nat) (page newPage rootPage : Page Int Int)
        (previousPage victimPageId rhsPageId : PageId),
      3 ≤ cap → page.maxSize = cap → page.currentSize = cap →
      ∃ left right root, InnerNode.splitAndPromote cap previousPage victimPageId rhsPageId
          (Node.ofBuffer page) (Node.ofBuffer newPage) (Node.ofBuffer rootPage) =
            .ok (Node.ofBuffer left, Node.ofBuffer right, Node.ofBuffer root) ∧
        2 ≤ left.currentSize ∧ 2 ≤ right.currentSize := by
  intro hall
  have hfour : (InnerNode.splitAndPromote 4 0 0 1 (Node.ofBuffer (countedPage .innerNode 4 4))
      (Node.ofBuffer (countedPage .innerNode 0 0))
      (Node.ofBuffer (countedPage .innerNode 0 0))).map (fun nodes => nodes.2.1.currentSize) =
        .ok 1 := rfl
  obtain ⟨_, right, _, hrun, _, htwo⟩ := hall 4 (countedPage .innerNode 4 4)
    (countedPage .innerNode 0 0) (countedPage .innerNode 0 0) 0 0 1 (by decide) rfl rfl
  rw [hrun] at hfour
  have hone : right.currentSize = 1 := Except.ok.inj hfour
  omega

end HiveDb.BPlusTree
