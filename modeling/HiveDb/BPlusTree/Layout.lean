import HiveDb.BPlusTree.Splits

/-!
# The layout of nodes

A node keeps its header in the first 32 bytes of its page, its key slots behind
it and its value slots behind as many key slots as its type has room for.  The
slots up to `max_size` lie apart and inside the page when `max_size` is that
number, which depends on the sizes of the key and value types of the node.  The
root over the first two leaves is an inner node, but gets the number of an inner
node that would store the values of leaves.
-/

namespace HiveDb.BPlusTree

open HiveDb.Lib
open HiveDb.Lib.Slots

/-! ## Ranges of bytes -/

/-- A range of bytes in a page. -/
structure Extent where
  start : Nat
  length : Nat

namespace Extent

def stop (extent : Extent) : Nat := extent.start + extent.length

def Disjoint (first second : Extent) : Prop :=
  first.stop ≤ second.start ∨ second.stop ≤ first.start

/-- Element `i` of an array of elements of one size. -/
def slot (base size i : Nat) : Extent := ⟨base + i * size, size⟩

variable {base size i j n : Nat}

theorem Disjoint.symm {first second : Extent} (h : first.Disjoint second) :
    second.Disjoint first := Or.symm h

theorem stop_slot : (slot base size i).stop = base + (i + 1) * size := by
  rw [stop, slot, Nat.succ_mul, Nat.add_assoc]

theorem stop_slot_le (hi : i < n) : (slot base size i).stop ≤ base + n * size := by
  rw [stop_slot]
  exact Nat.add_le_add_left (Nat.mul_le_mul_right size hi) base

theorem slot_disjoint_of_lt (hij : i < j) : (slot base size i).Disjoint (slot base size j) :=
  .inl (stop_slot_le hij)

theorem slot_disjoint (hne : i ≠ j) : (slot base size i).Disjoint (slot base size j) := by
  rcases Nat.lt_or_gt_of_ne hne with hlt | hgt
  · exact slot_disjoint_of_lt hlt
  · exact (slot_disjoint_of_lt hgt).symm

end Extent

/-! ## Where the fields of a node lie -/

/-- `sizeof(std::int64_t) * 4` -/
def headerSize : Nat := 8 * 4

/-- `MAX_NUMBER_OF_ELEMENTS` of a node with keys and values of the given sizes. -/
def maxNumberOfElements (keySize valueSize : Nat) : Nat :=
  (pageSize - headerSize) / (keySize + valueSize)

/-- The parts of a node: its header, `indexes(i)`, and `records(i)` or `page_ids(i)`. -/
inductive Field where
  | header
  | key (index : Nat)
  | value (index : Nat)
  deriving DecidableEq, Repr

/-- The bytes the accessors of a node use for a field. -/
def extentOf (keySize valueSize : Nat) : Field → Extent
  | .header => ⟨0, headerSize⟩
  | .key index => .slot headerSize keySize index
  | .value index =>
      .slot (headerSize + maxNumberOfElements keySize valueSize * keySize) valueSize index

/-- The header, and the slots below `max_size`. -/
def Field.Below (maxSize : Nat) : Field → Prop
  | .header => True
  | .key index => index < maxSize
  | .value index => index < maxSize

/-- The node holds as many pairs as its accessors leave room for, and its fields lie apart. -/
structure LaidOut (keySize valueSize maxSize : Nat) : Prop where
  maxSize_eq : maxSize = maxNumberOfElements keySize valueSize
  inside : ∀ field : Field, field.Below maxSize →
    (extentOf keySize valueSize field).stop ≤ pageSize
  disjoint : ∀ field other : Field, field.Below maxSize → other.Below maxSize → field ≠ other →
    (extentOf keySize valueSize field).Disjoint (extentOf keySize valueSize other)

section Fields

variable {keySize valueSize maxSize : Nat}

/-- Both arrays end before the page does. -/
theorem arrays_le (keySize valueSize : Nat) :
    headerSize + maxNumberOfElements keySize valueSize * keySize +
      maxNumberOfElements keySize valueSize * valueSize ≤ pageSize := by
  have hpairs : maxNumberOfElements keySize valueSize * (keySize + valueSize) ≤
      pageSize - headerSize := Nat.div_mul_le_self _ _
  have hheader : headerSize ≤ pageSize := by decide
  rw [Nat.mul_add] at hpairs
  omega

theorem stop_key_le {index : Nat} (hlt : index < maxNumberOfElements keySize valueSize) :
    (extentOf keySize valueSize (.key index)).stop ≤
      headerSize + maxNumberOfElements keySize valueSize * keySize :=
  Extent.stop_slot_le hlt

theorem stop_value_le {index : Nat} (hlt : index < maxNumberOfElements keySize valueSize) :
    (extentOf keySize valueSize (.value index)).stop ≤ pageSize :=
  Nat.le_trans (Extent.stop_slot_le hlt) (arrays_le keySize valueSize)

theorem header_disjoint_key (index : Nat) :
    (extentOf keySize valueSize .header).Disjoint (extentOf keySize valueSize (.key index)) :=
  .inl (by
    show 0 + headerSize ≤ headerSize + index * keySize
    omega)

theorem header_disjoint_value (index : Nat) :
    (extentOf keySize valueSize .header).Disjoint (extentOf keySize valueSize (.value index)) :=
  .inl (by
    show 0 + headerSize ≤
      headerSize + maxNumberOfElements keySize valueSize * keySize + index * valueSize
    omega)

theorem key_disjoint_value {index other : Nat}
    (hlt : index < maxNumberOfElements keySize valueSize) :
    (extentOf keySize valueSize (.key index)).Disjoint
      (extentOf keySize valueSize (.value other)) :=
  .inl (Nat.le_trans (stop_key_le hlt) (Nat.le_add_right _ _))

/-- A node is laid out well when its `max_size` is what its accessors are compiled for. -/
theorem laidOut_iff : LaidOut keySize valueSize maxSize ↔
    maxSize = maxNumberOfElements keySize valueSize := by
  constructor
  · exact LaidOut.maxSize_eq
  · rintro rfl
    refine ⟨rfl, ?_, ?_⟩
    · rintro (_ | index | index) hlive
      · show 0 + headerSize ≤ pageSize
        decide
      · have hkey := stop_key_le hlive
        have harrays := arrays_le keySize valueSize
        omega
      · exact stop_value_le hlive
    · rintro (_ | index | index) (_ | other | other) hlive hother hne
      · exact absurd rfl hne
      · exact header_disjoint_key other
      · exact header_disjoint_value other
      · exact (header_disjoint_key index).symm
      · exact Extent.slot_disjoint fun heq => hne (heq ▸ rfl)
      · exact key_disjoint_value hlive
      · exact (header_disjoint_value index).symm
      · exact (key_disjoint_value hother).symm
      · exact Extent.slot_disjoint fun heq => hne (heq ▸ rfl)

end Fields

/-! ## The nodes of a tree -/

/-- `sizeof(K)`, `sizeof(V)` and `sizeof(V_leaf)` -/
structure TypeSizes where
  key : Nat
  value : Nat
  leafValue : Nat
  deriving DecidableEq, Repr

namespace TypeSizes

/-- `b_plus_tree_leaf_node<K, V_leaf>::MAX_NUMBER_OF_ELEMENTS` -/
def leafCapacity (sizes : TypeSizes) : Nat := maxNumberOfElements sizes.key sizes.leafValue

/-- `b_plus_tree_inner_node<K, V>::MAX_NUMBER_OF_ELEMENTS` -/
def innerCapacity (sizes : TypeSizes) : Nat := maxNumberOfElements sizes.key sizes.value

/-- `b_plus_tree_inner_node<K, V_leaf>::MAX_NUMBER_OF_ELEMENTS`, which `insert` gives a new root. -/
def rootCapacity (sizes : TypeSizes) : Nat := maxNumberOfElements sizes.key sizes.leafValue

end TypeSizes

variable {K V W : Type} [Index K] [Value V] [Value W]

/-- The pages of leaves: from the first node by insertions and splits. -/
inductive LeafPage (sizes : TypeSizes) : Page K W → Prop where
  | initFirstNode {page : Page K W} {key : K} {value : W} {node : Node K W}
      (run : LeafNode.initFirstNode sizes.leafCapacity key value (Node.ofBuffer page) = .ok node) :
      LeafPage sizes node.buffer
  | trivialInsert {page : Page K W} {key : K} {value : W} {node : Node K W}
      (before : LeafPage sizes page)
      (run : LeafNode.trivialInsert key value (Node.ofBuffer page) = .ok node) :
      LeafPage sizes node.buffer
  | splitOld {page newPage : Page K W} {newPageId : PageId} {nodes : Node K W × Node K W}
      (before : LeafPage sizes page)
      (run : LeafNode.splitNode sizes.leafCapacity newPageId (Node.ofBuffer page)
        (Node.ofBuffer newPage) = .ok nodes) : LeafPage sizes nodes.1.buffer
  | splitNew {page newPage : Page K W} {newPageId : PageId} {nodes : Node K W × Node K W}
      (before : LeafPage sizes page)
      (run : LeafNode.splitNode sizes.leafCapacity newPageId (Node.ofBuffer page)
        (Node.ofBuffer newPage) = .ok nodes) : LeafPage sizes nodes.2.buffer

variable (W) in
/-- The pages of inner nodes: from a root over the halves of a leaf by registrations and splits. -/
inductive InnerPage (sizes : TypeSizes) : Page K V → Prop where
  | rootOverLeaves {leaf newLeaf : Page K W} {rootPage : Page K V} {rootPageId newPageId : PageId}
      {nodes : Node K W × Node K W} {firstKey : K} {node : Node K V}
      (before : LeafPage sizes leaf)
      (split : LeafNode.splitNode sizes.leafCapacity newPageId (Node.ofBuffer leaf)
        (Node.ofBuffer newLeaf) = .ok nodes)
      (first : nodes.2.indexes 0 = .ok firstKey)
      (run : linkLeaves firstKey rootPageId newPageId
        (newRootHeader sizes.rootCapacity (Node.ofBuffer rootPage)) = .ok node) :
      InnerPage sizes node.buffer
  | trivialInsertLeafNode {page : Page K V} {value : V} {newNode node : Node K V}
      (before : InnerPage sizes page)
      (run : InnerNode.trivialInsertLeafNode value newNode (Node.ofBuffer page) = .ok node) :
      InnerPage sizes node.buffer
  | splitOld {page newPage : Page K V} {previousPage : PageId} {nodes : Node K V × Node K V}
      (before : InnerPage sizes page)
      (run : InnerNode.splitNode sizes.innerCapacity previousPage (Node.ofBuffer page)
        (Node.ofBuffer newPage) = .ok nodes) : InnerPage sizes nodes.1.buffer
  | splitNew {page newPage : Page K V} {previousPage : PageId} {nodes : Node K V × Node K V}
      (before : InnerPage sizes page)
      (run : InnerNode.splitNode sizes.innerCapacity previousPage (Node.ofBuffer page)
        (Node.ofBuffer newPage) = .ok nodes) : InnerPage sizes nodes.2.buffer
  | newRoot {page rootPage : Page K V} {victimPageId rhsPageId : PageId}
      {nodes : Node K V × Node K V} (before : InnerPage sizes page)
      (run : promoteLastKey victimPageId rhsPageId
        (newRootHeader sizes.innerCapacity (Node.ofBuffer rootPage)) (Node.ofBuffer page) =
          .ok nodes) : InnerPage sizes nodes.1.buffer
  | promoted {page rootPage : Page K V} {victimPageId rhsPageId : PageId}
      {nodes : Node K V × Node K V} (before : InnerPage sizes page)
      (run : promoteLastKey victimPageId rhsPageId
        (newRootHeader sizes.innerCapacity (Node.ofBuffer rootPage)) (Node.ofBuffer page) =
          .ok nodes) : InnerPage sizes nodes.2.buffer

/-- The page belongs to a node of the capacity that holds something. -/
structure HasCapacity {A : Type} (capacity : Nat) (page : Page K A) : Prop where
  maxSize_eq : page.maxSize = capacity
  pos : 0 < page.currentSize
  le : page.currentSize ≤ capacity

section Capacities

variable {sizes : TypeSizes}

omit [Index K] in
theorem HasCapacity.of_buffer {A : Type} [Value A] {capacity n : Nat} {page : Page K A}
    (hmax : page.maxSize = capacity) (hsize : page.currentSize = n) (hpos : 0 < n)
    (hle : n ≤ capacity) : HasCapacity capacity (Node.ofBuffer page).buffer := by
  rw [Node.ofBuffer_buffer]
  exact ⟨hmax, hsize ▸ hpos, hsize ▸ hle⟩

theorem HasCapacity.splitLeaf {page newPage : Page K W} {newPageId : PageId}
    {nodes : Node K W × Node K W} (hcap : 2 ≤ sizes.leafCapacity)
    (h : HasCapacity sizes.leafCapacity page)
    (run : LeafNode.splitNode sizes.leafCapacity newPageId (Node.ofBuffer page)
      (Node.ofBuffer newPage) = .ok nodes) :
    HasCapacity sizes.leafCapacity nodes.1.buffer ∧
      HasCapacity sizes.leafCapacity nodes.2.buffer := by
  obtain ⟨_, hcheck, _⟩ := except_bind_eq_ok_iff.mp run
  have hfull : page.currentSize = page.maxSize := of_assertThat hcheck
  obtain ⟨page', newPage', hok, hsplit⟩ := LeafNode.splitNode_spec newPageId newPage hcap
    h.maxSize_eq (hfull.trans h.maxSize_eq)
  cases hok.symm.trans run
  exact ⟨.of_buffer (hsplit.maxSize_eq.trans h.maxSize_eq) hsplit.currentSize_eq (by omega)
      (by omega),
    .of_buffer hsplit.new_maxSize_eq hsplit.new_currentSize_eq (by omega) (by omega)⟩

theorem HasCapacity.splitInner {page newPage : Page K V} {previousPage : PageId}
    {nodes : Node K V × Node K V} (hcap : 3 ≤ sizes.innerCapacity)
    (h : HasCapacity sizes.innerCapacity page)
    (run : InnerNode.splitNode sizes.innerCapacity previousPage (Node.ofBuffer page)
      (Node.ofBuffer newPage) = .ok nodes) :
    HasCapacity sizes.innerCapacity nodes.1.buffer ∧
      HasCapacity sizes.innerCapacity nodes.2.buffer := by
  obtain ⟨_, hcheck, _⟩ := except_bind_eq_ok_iff.mp run
  have hfull : page.currentSize = page.maxSize := of_assertThat hcheck
  obtain ⟨page', newPage', hok, hsplit⟩ := InnerNode.splitNode_spec previousPage newPage hcap
    h.maxSize_eq (hfull.trans h.maxSize_eq)
  cases hok.symm.trans run
  exact ⟨.of_buffer (hsplit.maxSize_eq.trans h.maxSize_eq) hsplit.currentSize_eq (by omega)
      (by omega),
    .of_buffer hsplit.new_maxSize_eq hsplit.new_currentSize_eq (by omega) (by omega)⟩

theorem HasCapacity.promote {page rootPage : Page K V} {victimPageId rhsPageId : PageId}
    {nodes : Node K V × Node K V} (hcap : 2 ≤ sizes.innerCapacity)
    (h : HasCapacity sizes.innerCapacity page)
    (run : promoteLastKey victimPageId rhsPageId
      (newRootHeader sizes.innerCapacity (Node.ofBuffer rootPage)) (Node.ofBuffer page) =
        .ok nodes) :
    HasCapacity sizes.innerCapacity nodes.1.buffer ∧
      HasCapacity sizes.innerCapacity nodes.2.buffer := by
  obtain ⟨rootPage', page', hok, hnew, hpromoted⟩ := IdealTree.promoteLastKey_eq rootPage
    victimPageId rhsPageId hcap h.maxSize_eq h.pos h.le
  cases hok.symm.trans run
  exact ⟨.of_buffer hnew.maxSize_eq hnew.currentSize_eq (by omega) hcap,
    .of_buffer (hpromoted.maxSize_eq.trans h.maxSize_eq) hpromoted.currentSize_eq h.pos h.le⟩

/-- Every leaf has the capacity of a leaf. -/
theorem LeafPage.hasCapacity {page : Page K W} (hcap : 2 ≤ sizes.leafCapacity)
    (h : LeafPage sizes page) : HasCapacity sizes.leafCapacity page := by
  induction h with
  | @initFirstNode page key value node run =>
      obtain ⟨page', hok, hfirst⟩ := LeafNode.initFirstNode_spec
        (show 0 < sizes.leafCapacity by omega) page key value
      cases hok.symm.trans run
      exact .of_buffer hfirst.maxSize_eq hfirst.currentSize_eq (by omega) (by omega)
  | trivialInsert before run ih =>
      obtain ⟨w, page', rfl, hroom, hinserted⟩ := LeafNode.inserted_of_trivialInsert run
      have hmax := ih.maxSize_eq
      exact .of_buffer (hinserted.maxSize_eq.trans hmax) hinserted.currentSize_eq (by omega)
        (by omega)
  | splitOld before run ih => exact (ih.splitLeaf hcap run).1
  | splitNew before run ih => exact (ih.splitLeaf hcap run).2

/-- Every inner node has the capacity of an inner node, if every root over leaves has it. -/
theorem InnerPage.hasCapacity {page : Page K V} (hcap : 3 ≤ sizes.innerCapacity)
    (hroot : sizes.rootCapacity = sizes.innerCapacity) (h : InnerPage W sizes page) :
    HasCapacity sizes.innerCapacity page := by
  have htwo : 2 ≤ sizes.innerCapacity := Nat.le_trans (by decide) hcap
  induction h with
  | @rootOverLeaves _ _ rootPage rootPageId newPageId _ firstKey _ _ _ _ run =>
      rw [hroot] at run
      obtain ⟨rootPage', hok, hnew⟩ := IdealTree.linkLeaves_eq rootPage firstKey rootPageId
        newPageId htwo
      cases hok.symm.trans run
      exact .of_buffer hnew.maxSize_eq hnew.currentSize_eq (by omega) htwo
  | trivialInsertLeafNode before run ih =>
      obtain ⟨w, page', rfl, hroom, _, hregistered⟩ :=
        InnerNode.registered_of_trivialInsertLeafNode run
      have hmax := ih.maxSize_eq
      exact .of_buffer (hregistered.maxSize_eq.trans hmax) hregistered.currentSize_eq (by omega)
        (by omega)
  | splitOld before run ih => exact (ih.splitInner hcap run).1
  | splitNew before run ih => exact (ih.splitInner hcap run).2
  | newRoot before run ih => exact (ih.promote htwo run).1
  | promoted before run ih => exact (ih.promote htwo run).2

/-- A leaf fills up, one pair at a time. -/
theorem exists_leafPage (key : K) (value : W) {n : Nat} (hpos : 0 < n)
    (hle : n ≤ sizes.leafCapacity) :
    ∃ page : Page K W, LeafPage sizes page ∧ IsLeaf sizes.leafCapacity page ∧
      page.currentSize = n := by
  induction n with
  | zero => exact absurd hpos (Nat.lt_irrefl 0)
  | succ n ih =>
      rcases Nat.eq_zero_or_pos n with rfl | hn
      · obtain ⟨page', hok, hfirst⟩ := LeafNode.initFirstNode_spec
          (show 0 < sizes.leafCapacity by omega)
          (⟨.leafNode, 0, 0, invalidPageId, fun _ => key, fun _ => value⟩ : Page K W) key value
        have hsize := hfirst.currentSize_eq
        refine ⟨page', .initFirstNode hok, ⟨hfirst.type_eq, hfirst.maxSize_eq, by omega,
          by omega, fun i j hij hj => ?_⟩, hsize⟩
        obtain rfl : i = j := by omega
        exact le_refl _
      · obtain ⟨page, hpage, hleaf, hsize⟩ := ih hn (by omega)
        have hroom : page.currentSize < page.maxSize := by
          rw [hleaf.maxSize_eq]
          omega
        obtain ⟨w, page', hok, hposition, hinserted⟩ :=
          LeafNode.trivialInsert_spec key value hroom hleaf.sorted
        refine ⟨page', .trivialInsert hpage hok, hleaf.insert (by omega) hposition hinserted, ?_⟩
        rw [hinserted.currentSize_eq, hsize]

/-- A tree gets a root over two leaves as soon as its first leaf is full. -/
theorem exists_rootOverLeaves (sizes : TypeSizes) (hcap : 2 ≤ sizes.leafCapacity) :
    ∃ page : Page K V, InnerPage W sizes page ∧ page.maxSize = sizes.rootCapacity := by
  obtain ⟨leaf, hleaf, hshape, hfull⟩ := exists_leafPage (Index.invalidKey : K)
    (Value.invalidKey : W) (show 0 < sizes.leafCapacity by omega) (Nat.le_refl _)
  obtain ⟨left, right, hsplit, hhalves⟩ := LeafNode.splitNode_spec 1 leaf hcap
    hshape.maxSize_eq hfull
  have hfirst : (Node.ofBuffer right).indexes 0 = .ok (right.keys 0) :=
    Node.indexes_of_lt (show 0 < right.maxSize by rw [hhalves.new_maxSize_eq]; omega)
  obtain ⟨root, hroot, hnew⟩ := IdealTree.linkLeaves_eq
    (⟨.innerNode, 0, 0, invalidPageId, fun _ => Index.invalidKey, fun _ => Value.invalidKey⟩ :
      Page K V) (right.keys 0) 0 1 (show 2 ≤ sizes.rootCapacity from hcap)
  exact ⟨root, .rootOverLeaves hleaf hsplit hfirst hroot, hnew.maxSize_eq⟩

variable (K V W) in
/--
For types with room for five pairs in a node, every node is laid out for its `max_size`,
and split by constants for it, exactly when leaves and inner nodes have the same capacity.
-/
theorem nodes_laidOut_iff (sizes : TypeSizes) (hleaf : 5 ≤ sizes.leafCapacity)
    (hinner : 5 ≤ sizes.innerCapacity) :
    ((∀ page : Page K W, LeafPage sizes page → LaidOut sizes.key sizes.leafValue page.maxSize ∧
        LeafNode.somethingToBeRenamed sizes.leafCapacity =
          LeafNode.somethingToBeRenamed page.maxSize) ∧
      ∀ page : Page K V, InnerPage W sizes page → LaidOut sizes.key sizes.value page.maxSize ∧
        InnerNode.somethingToBeRenamed sizes.innerCapacity =
          InnerNode.somethingToBeRenamed page.maxSize) ↔
      sizes.leafCapacity = sizes.innerCapacity := by
  constructor
  · rintro ⟨_, hall⟩
    obtain ⟨root, hroot, hmax⟩ := exists_rootOverLeaves (K := K) (V := V) (W := W) sizes
      (show 2 ≤ sizes.leafCapacity by omega)
    exact hmax.symm.trans (hall root hroot).1.maxSize_eq
  · intro hsame
    refine ⟨fun page hpage => ?_, fun page hpage => ?_⟩
    · have hmax := (hpage.hasCapacity (by omega)).maxSize_eq
      exact ⟨laidOut_iff.mpr hmax, congrArg _ hmax.symm⟩
    · have hthree : 3 ≤ sizes.innerCapacity := Nat.le_trans (by decide) hinner
      have hmax := (hpage.hasCapacity hthree hsame).maxSize_eq
      exact ⟨laidOut_iff.mpr hmax, congrArg _ hmax.symm⟩

end Capacities

/-- Keys and page ids of 8 bytes, and records of 16. -/
def wideRecords : TypeSizes := ⟨8, 8, 16⟩

/-- Keys, page ids and records of 8 bytes, as in the tests. -/
def sameSizes : TypeSizes := ⟨8, 8, 8⟩

theorem sameSizes_laidOut :
    (∀ page : Page Int Int, LeafPage sameSizes page → LaidOut 8 8 page.maxSize) ∧
      ∀ page : Page Int Int, InnerPage Int sameSizes page → LaidOut 8 8 page.maxSize := by
  obtain ⟨hleaves, hinner⟩ :=
    (nodes_laidOut_iff Int Int Int sameSizes (by decide) (by decide)).mpr rfl
  exact ⟨fun page hpage => (hleaves page hpage).1, fun page hpage => (hinner page hpage).1⟩

/-- The root over the first two leaves is meant for 169 children, its accessors for 254. -/
theorem wideRecords_not_laidOut :
    ¬ ∀ sizes : TypeSizes, 5 ≤ sizes.leafCapacity → 5 ≤ sizes.innerCapacity →
      ∀ page : Page Int Int, InnerPage Int sizes page →
        LaidOut sizes.key sizes.value page.maxSize := by
  intro hall
  obtain ⟨root, hroot, hmax⟩ := exists_rootOverLeaves (K := Int) (V := Int) (W := Int)
    wideRecords (by decide)
  have heq := (hall wideRecords (by decide) (by decide) root hroot).maxSize_eq
  exact absurd (hmax.symm.trans heq) (by decide)

end HiveDb.BPlusTree
