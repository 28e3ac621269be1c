import HiveDb.BPlusTree.Node

/-!
# What the node operations do to a page

Each operation is evaluated on a node object freshly read from its page and
described by the live slots of the page it leaves.  No later module unfolds a
node operation.
-/

namespace HiveDb.BPlusTree

open HiveDb.Lib
open HiveDb.Lib.Slots

variable {K V : Type}

namespace Node

section Write

variable (node : Node K V) (keys : Nat → K) (values : Nat → V)

@[simp] theorem writeKeys_keys : (node.writeKeys keys).buffer.keys = keys := rfl
@[simp] theorem writeKeys_values :
    (node.writeKeys keys).buffer.values = node.buffer.values := rfl
@[simp] theorem writeValues_keys :
    (node.writeValues values).buffer.keys = node.buffer.keys := rfl
@[simp] theorem writeValues_values : (node.writeValues values).buffer.values = values := rfl

/-- Views of different pages do not see each other's writes. -/
@[simp] theorem seeing_false (writer : Node K V) : node.seeing false writer = node := rfl

end Write

section OfBuffer

variable (page : Page K V)

@[simp] theorem ofBuffer_type : (ofBuffer page).type = page.type := rfl
@[simp] theorem ofBuffer_maxSize : (ofBuffer page).maxSize = page.maxSize := rfl
@[simp] theorem ofBuffer_currentSize : (ofBuffer page).currentSize = page.currentSize := rfl
@[simp] theorem ofBuffer_buffer : (ofBuffer page).buffer = page := rfl

end OfBuffer

/-- An operation that ends by writing its header back leaves a fresh reading of a page. -/
theorem ok_updateBuffer (node : Node K V) :
    (pure node.updateBufferWithNewValues : Except Failure (Node K V)) =
      .ok (ofBuffer node.updateBufferWithNewValues.buffer) := rfl

theorem ok_updateBuffers (node other : Node K V) :
    (pure (node.updateBufferWithNewValues, other.updateBufferWithNewValues) :
        Except Failure (Node K V × Node K V)) =
      .ok (ofBuffer node.updateBufferWithNewValues.buffer,
        ofBuffer other.updateBufferWithNewValues.buffer) := rfl

/-! ## Slot accesses inside the node -/

section Access

variable {node : Node K V} {i : Nat}

theorem checkSlot_of_lt (h : i < node.maxSize) : node.checkSlot (i : Int) = .ok () :=
  assertThat_of ⟨by omega, by omega⟩

theorem indexes_of_lt (h : i < node.maxSize) :
    node.indexes (i : Int) = .ok (node.buffer.keys i) := by
  simp [indexes, checkSlot_of_lt h]

theorem records_of_lt (h : i < node.maxSize) :
    node.records (i : Int) = .ok (node.buffer.values i) := by
  simp [records, checkSlot_of_lt h]

theorem setIndexes_of_lt (h : i < node.maxSize) (key : K) :
    node.setIndexes (i : Int) key = .ok (node.writeKeys (setSlot node.buffer.keys i key)) := by
  simp [setIndexes, checkSlot_of_lt h]

theorem setRecords_of_lt (h : i < node.maxSize) (value : V) :
    node.setRecords (i : Int) value =
      .ok (node.writeValues (setSlot node.buffer.values i value)) := by
  simp [setRecords, checkSlot_of_lt h]

theorem aboveThrough_of_ok [Index K] {indexes : Int → Except Failure K} {idx : Int} {found key : K}
    (h : indexes idx = .ok found) : aboveThrough indexes key idx = .ok (decide (found > key)) := by
  rw [aboveThrough, h]
  rfl

theorem keyNotBelow_of_lt [Index K] (h : i < node.maxSize) {key : K} :
    node.keyNotBelow key (i : Int) = .ok (decide (node.buffer.keys i ≥ key)) := by
  simp [keyNotBelow, indexes_of_lt h]

end Access

/-- Reading a slot returns for a slot of the node only. -/
theorem slot_of_indexes {node : Node K V} {index : Int} {key : K}
    (h : node.indexes index = .ok key) : 0 ≤ index ∧ index < node.maxSize := by
  obtain ⟨_, hcheck, _⟩ := except_bind_eq_ok_iff.mp h
  exact of_assertThat hcheck

theorem slot_of_records {node : Node K V} {index : Int} {value : V}
    (h : node.records index = .ok value) : 0 ≤ index ∧ index < node.maxSize := by
  obtain ⟨_, hcheck, _⟩ := except_bind_eq_ok_iff.mp h
  exact of_assertThat hcheck

/-- The shifting loop stays inside the node and moves both arrays. -/
theorem shiftUp_eq {w i : Nat} {node : Node K V} (h : i < node.maxSize) :
    node.shiftUp w i = .ok ((node.writeKeys (shifted w i node.buffer.keys)).writeValues
      (shifted w i node.buffer.values)) := by
  induction i generalizing node with
  | zero =>
      rw [shifted_of_ge _ (Nat.zero_le w), shifted_of_ge _ (Nat.zero_le w)]
      rfl
  | succ i ih =>
      unfold shiftUp
      by_cases hw : w < i + 1
      · have hi : i < node.maxSize := by omega
        rw [if_pos hw, indexes_of_lt hi, ok_bind, setIndexes_of_lt h, ok_bind,
          records_of_lt (by exact hi), ok_bind, setRecords_of_lt (by exact h), ok_bind,
          ih (by exact hi)]
        simp only [writeValues_keys, writeValues_values, writeKeys_keys, writeKeys_values,
          shifted_succ _ hw]
        rfl
      · rw [if_neg hw, shifted_of_ge _ (by omega), shifted_of_ge _ (by omega)]
        rfl

end Node

variable [Index K]

/-- The live keys of a page are in non-decreasing order. -/
def SortedKeys (page : Page K V) (count : Nat) : Prop :=
  ∀ i j, i ≤ j → j < count → page.keys i ≤ page.keys j

namespace Node

section Positions

variable {page : Page K V} {count : Nat}

/-- The scan stops at the first larger key. -/
theorem scanPosition_spec (key : K) (hcount : count ≤ page.currentSize)
    (hle : page.currentSize ≤ page.maxSize) (hsorted : SortedKeys page count) :
    ∃ w, (ofBuffer page).scanPosition count key = .ok w ∧
      Search.IsCut (fun i => page.keys i > key) count w := by
  have hprobe : ∀ i : Nat, i < count →
      aboveThrough (ofBuffer page).indexes key i = .ok (decide (page.keys i > key)) :=
    fun i hi => aboveThrough_of_ok (indexes_of_lt (show i < page.maxSize by omega))
  obtain ⟨w, hw, hle, hbefore, hat⟩ := Search.scan_spec .outOfFuel
    (p := fun i => page.keys i > key) hprobe (page.currentSize + 1) 0 (Nat.zero_le _) (by omega)
    (fun i hi => absurd hi (Nat.not_lt_zero i))
  exact ⟨w, hw, hle, hbefore, fun i hwi hi =>
    lt_of_lt_of_le (hat (Nat.lt_of_le_of_lt hwi hi)) (hsorted w i hwi hi)⟩

/-- The bisection stops at the first key that is not smaller. -/
theorem bisectPosition_spec (key : K) (htwo : 2 ≤ count) (hcount : count ≤ page.currentSize)
    (hle : page.currentSize ≤ page.maxSize) (hsorted : SortedKeys page count) :
    ∃ w, (ofBuffer page).bisectPosition count key = .ok w ∧
      Search.IsCut (fun i => page.keys i ≥ key) count w := by
  have hhigh : (count : Int) - 1 = ((count - 1 : Nat) : Int) := by omega
  have hprobe : ∀ i : Nat, i < count →
      (ofBuffer page).keyNotBelow key i = .ok (decide (page.keys i ≥ key)) :=
    fun i hi => keyNotBelow_of_lt (show i < page.maxSize by omega)
  have hmono : ∀ i j, i ≤ j → j < count → page.keys i ≥ key → page.keys j ≥ key :=
    fun i j hij hj hi => le_trans hi (hsorted i j hij hj)
  unfold bisectPosition
  dsimp only
  rw [hhigh, indexes_of_lt (show count - 1 < page.maxSize by omega), ofBuffer_buffer, ok_bind]
  by_cases hlast : key > page.keys (count - 1)
  · refine ⟨count, ?_, .of_last hmono (not_le.mpr hlast)⟩
    rw [if_pos hlast]
    rfl
  · obtain ⟨w, hw, hcut⟩ := Search.bisect_of_last .outOfFuel hprobe hmono (not_lt.mp hlast)
      (by omega) (page.currentSize + 1) (by omega)
    have hbounds : (0 : Int) < ((count - 1 : Nat) : Int) := by omega
    refine ⟨w, ?_, hcut⟩
    rw [if_neg hlast, assertThat_of hbounds, ok_bind, ofBuffer_currentSize, hw, ok_bind,
      assertThat_of (show (w : Int) ≥ 0 by omega), ok_bind]
    rfl

end Positions

/-- An insertion position leaves the keys at most the key before it, the others behind it. -/
structure IsPosition (page : Page K V) (count : Nat) (key : K) (w : Nat) : Prop where
  le : w ≤ count
  before : ∀ i, i < w → page.keys i ≤ key
  from_position : ∀ i, w ≤ i → i < count → key ≤ page.keys i

theorem IsPosition.of_scan {page : Page K V} {count w : Nat} {key : K}
    (hcut : Search.IsCut (fun i => page.keys i > key) count w) : IsPosition page count key w where
  le := hcut.le
  before i hi := not_lt.mp (hcut.before i hi)
  from_position i hwi hi := (hcut.from_cut i hwi hi).le

theorem IsPosition.of_bisect {page : Page K V} {count w : Nat} {key : K}
    (hcut : Search.IsCut (fun i => page.keys i ≥ key) count w) : IsPosition page count key w where
  le := hcut.le
  before i hi := (not_le.mp (hcut.before i hi)).le
  from_position := hcut.from_cut

/-- Both searches of an insertion find a position among the live keys. -/
theorem positionAmong_spec {page : Page K V} {count : Nat} (key : K)
    (hroom : page.currentSize < page.maxSize) (hcount : count ≤ page.currentSize)
    (hlarge : 5 ≤ page.currentSize → 2 ≤ count) (hsorted : SortedKeys page count) :
    ∃ w, (ofBuffer page).positionAmong count key = .ok w ∧ IsPosition page count key w := by
  have hassert : assertThat (ofBuffer page).canInsertTrivially = .ok () := assertThat_of hroom
  rw [positionAmong, hassert, ok_bind, ofBuffer_currentSize]
  split
  · obtain ⟨w, hw, hcut⟩ := scanPosition_spec key hcount hroom.le hsorted
    exact ⟨w, hw, .of_scan hcut⟩
  next hsmall =>
    obtain ⟨w, hw, hcut⟩ :=
      bisectPosition_spec key (hlarge (Nat.not_lt.mp hsmall)) hcount hroom.le hsorted
    exact ⟨w, hw, .of_bisect hcut⟩

end Node

/-! ## Leaf nodes -/

namespace LeafNode

/-- The page of a leaf after a pair has been put at slot `w`. -/
structure Inserted (page page' : Page K V) (w : Nat) (key : K) (value : V) : Prop where
  type_eq : page'.type = page.type
  maxSize_eq : page'.maxSize = page.maxSize
  currentSize_eq : page'.currentSize = page.currentSize + 1
  linkedPageId_eq : page'.linkedPageId = page.linkedPageId
  keys_eq : ∀ i, i ≤ page.currentSize → page'.keys i = insertSlot page.keys w key i
  values_eq : ∀ i, i ≤ page.currentSize → page'.values i = insertSlot page.values w value i

/-- `trivial_insert` into a leaf with room puts the pair at the position the search returns. -/
theorem trivialInsert_at {page : Page K V} {key : K} {w : Nat} (value : V)
    (hroom : page.currentSize < page.maxSize)
    (hsearch : findIndexForInsert (Node.ofBuffer page) key = .ok w) (hle : w ≤ page.currentSize) :
    ∃ page', trivialInsert key value (Node.ofBuffer page) = .ok (Node.ofBuffer page') ∧
      Inserted page page' w key value := by
  have hassert : assertThat (Node.ofBuffer page).canInsertTrivially = .ok () :=
    assertThat_of hroom
  have hinside : w ≤ (Node.ofBuffer page).currentSize := hle
  unfold trivialInsert
  rw [hassert, ok_bind]
  dsimp only
  rw [hsearch, ok_bind, assertThat_of hinside, ok_bind]
  split
  · rename_i hend
    subst hend
    rw [Node.setIndexes_of_lt (by exact hroom), ok_bind,
      Node.setRecords_of_lt (by exact hroom), ok_bind]
    refine ⟨_, Node.ok_updateBuffer _, rfl, rfl, rfl, rfl, ?_, ?_⟩
    · intro i hi
      exact setSlot_eq_insertSlot _ _ hi
    · intro i hi
      exact setSlot_eq_insertSlot _ _ hi
  · have hlt : w < page.maxSize := by omega
    rw [Node.shiftUp_eq (by exact hroom), ok_bind, Node.setIndexes_of_lt (by exact hlt), ok_bind,
      Node.setRecords_of_lt (by exact hlt), ok_bind]
    refine ⟨_, Node.ok_updateBuffer _, rfl, rfl, rfl, rfl, ?_, ?_⟩
    · intro i hi
      exact setSlot_shifted _ _ hi
    · intro i hi
      exact setSlot_shifted _ _ hi

/--
`trivial_insert` into a leaf with room returns, and puts the pair at a position
of its key.
-/
theorem trivialInsert_spec {page : Page K V} (key : K) (value : V)
    (hroom : page.currentSize < page.maxSize) (hsorted : SortedKeys page page.currentSize) :
    ∃ w page', trivialInsert key value (Node.ofBuffer page) = .ok (Node.ofBuffer page') ∧
      Node.IsPosition page page.currentSize key w ∧ Inserted page page' w key value := by
  obtain ⟨w, hw, hposition⟩ := Node.positionAmong_spec key hroom (Nat.le_refl _)
    (by omega) hsorted
  obtain ⟨page', hinsert, hinserted⟩ := trivialInsert_at value hroom hw hposition.le
  exact ⟨w, page', hinsert, hposition, hinserted⟩

/-- `trivial_insert` returns for a leaf with room only, and then inserts the pair somewhere. -/
theorem inserted_of_trivialInsert {page : Page K V} {key : K} {value : V} {node' : Node K V}
    (hrun : trivialInsert key value (Node.ofBuffer page) = .ok node') :
    ∃ w page', node' = Node.ofBuffer page' ∧ page.currentSize < page.maxSize ∧
      Inserted page page' w key value := by
  obtain ⟨_, hcheck, hrest⟩ := except_bind_eq_ok_iff.mp hrun
  obtain ⟨w, hsearch, hrest⟩ := except_bind_eq_ok_iff.mp hrest
  obtain ⟨_, hinside, _⟩ := except_bind_eq_ok_iff.mp hrest
  have hroom : page.currentSize < page.maxSize := of_assertThat hcheck
  obtain ⟨page', hinsert, hinserted⟩ :=
    trivialInsert_at value hroom hsearch (of_assertThat hinside)
  exact ⟨w, page', Except.ok.inj (hrun.symm.trans hinsert), hroom, hinserted⟩

/-- The two pages of a leaf cut at the middle. -/
structure Split (cap : Nat) (newPageId : PageId) (page newPage page' newPage' : Page K V) :
    Prop where
  type_eq : page'.type = page.type
  maxSize_eq : page'.maxSize = page.maxSize
  currentSize_eq : page'.currentSize = cap / 2
  linkedPageId_eq : page'.linkedPageId = newPageId
  keys_eq : ∀ i, i < cap / 2 → page'.keys i = page.keys i
  values_eq : ∀ i, i < cap / 2 → page'.values i = page.values i
  new_type_eq : newPage'.type = .leafNode
  new_maxSize_eq : newPage'.maxSize = cap
  new_currentSize_eq : newPage'.currentSize = cap - cap / 2
  new_linkedPageId_eq : newPage'.linkedPageId = newPage.linkedPageId
  new_keys_eq : ∀ i, i < cap - cap / 2 → newPage'.keys i = page.keys (cap / 2 + i)
  new_values_eq : ∀ i, i < cap - cap / 2 → newPage'.values i = page.values (cap / 2 + i)

end LeafNode

namespace Node

omit [Index K] in
theorem copySlots_of_lt {source target : Node K V} {first last : Nat}
    (hfirst : first < source.maxSize) (hlast : last < source.maxSize) (hle : first ≤ last)
    (htarget : 0 < target.maxSize) :
    source.copySlots first last target = .ok ((target.writeKeys
      (copied source.buffer.keys first last target.buffer.keys)).writeValues
        (copied source.buffer.values first last target.buffer.values)) := by
  have hzero : target.checkSlot 0 = .ok () := checkSlot_of_lt htarget
  unfold copySlots
  rw [checkSlot_of_lt hfirst, ok_bind, checkSlot_of_lt hlast, ok_bind, hzero, ok_bind,
    if_neg (by omega)]
  rfl

theorem invalidateSlots_of_lt [Value V] {node : Node K V} {first last : Nat}
    (hfirst : first < node.maxSize) (hlast : last < node.maxSize) (hle : first ≤ last) :
    node.invalidateSlots first last = .ok ((node.writeKeys
      (filled first last Index.invalidKey node.buffer.keys)).writeValues
        (filled first last Value.invalidKey node.buffer.values)) := by
  unfold invalidateSlots
  rw [checkSlot_of_lt hfirst, ok_bind, checkSlot_of_lt hlast, ok_bind, if_neg (by omega)]
  rfl

end Node

namespace LeafNode

/-- The parity constant makes the last slot land right behind the copied ones. -/
theorem last_slot (cap : Nat) (h : 1 ≤ cap) :
    ((cap / 2 : Nat) : Int) - (somethingToBeRenamed cap : Int) =
      ((cap - 1 - cap / 2 : Nat) : Int) := by
  unfold somethingToBeRenamed
  omega

/-- The other parity expression makes the two sizes add up. -/
theorem new_size (cap : Nat) : cap / 2 + (somethingToBeRenamed cap + 1) % 2 = cap - cap / 2 := by
  unfold somethingToBeRenamed
  omega

/-- `split_node` of a full leaf, for every capacity from 2 on. -/
theorem splitNode_spec [Value V] {cap : Nat} (newPageId : PageId) {page : Page K V}
    (newPage : Page K V)
    (hcap : 2 ≤ cap) (hmax : page.maxSize = cap) (hfull : page.currentSize = cap) :
    ∃ page' newPage', splitNode cap newPageId (Node.ofBuffer page) (Node.ofBuffer newPage) =
        .ok (Node.ofBuffer page', Node.ofBuffer newPage') ∧
      Split cap newPageId page newPage page' newPage' := by
  have hassert : assertThat (Node.ofBuffer page).shouldSplit = .ok () :=
    assertThat_of (by show page.currentSize = page.maxSize; omega)
  unfold splitNode
  simp only [Node.seeing_false]
  rw [hassert, ok_bind]
  simp only [Node.ofBuffer_maxSize, Node.ofBuffer_currentSize]
  rw [Node.copySlots_of_lt (by show _ < page.maxSize; omega) (by show _ < page.maxSize; omega)
    (by omega) (by show 0 < page.currentSize; omega), ok_bind, hmax, last_slot cap (by omega)]
  have hcast : ((cap : Int) - 1) = ((cap - 1 : Nat) : Int) := by omega
  rw [hcast, Node.indexes_of_lt (by show _ < page.maxSize; omega), ok_bind,
    Node.setIndexes_of_lt (by show _ < page.currentSize; omega), ok_bind,
    Node.records_of_lt (by show _ < page.maxSize; omega), ok_bind,
    Node.setRecords_of_lt (by show _ < page.currentSize; omega), ok_bind,
    Node.invalidateSlots_of_lt (by show _ < page.maxSize; omega)
      (by show _ < page.maxSize; omega) (by omega), ok_bind]
  refine ⟨_, _, Node.ok_updateBuffers _ _, rfl, rfl, ?_, rfl, ?_, ?_, rfl, hfull, ?_, rfl, ?_, ?_⟩
  · show page.currentSize / 2 = cap / 2
    rw [hfull]
  · intro i hi
    exact if_neg (by omega)
  · intro i hi
    exact if_neg (by omega)
  · show page.currentSize / 2 + _ = _
    rw [hfull, new_size]
  · intro i hi
    exact setSlot_copied _ _ (by omega) (by omega)
  · intro i hi
    exact setSlot_copied _ _ (by omega) (by omega)

/--
The leaf search ends on the slot of the key, or the key is in no live slot; of
the accessor it asks for the live slots only.
-/
theorem findIndexThrough_spec {keys : Nat → K} {size : Nat} (key : K) (hpos : 0 < size)
    (hsorted : ∀ i j, i ≤ j → j < size → keys i ≤ keys j) {indexes : Int → Except Failure K}
    (hindexes : ∀ i : Nat, i < size → indexes i = .ok (keys i)) :
    ∃ m : Nat, m < size ∧ (keys m = key ∨ ∀ i, i < size → keys i ≠ key) ∧
      findIndexThrough size indexes key = .ok (if keys m = key then some m else none) := by
  have hprobe : ∀ i : Nat, i < size → Node.compareThrough indexes key i =
      .ok (if keys i = key then .eq else if keys i > key then .gt else .lt) := by
    intro i hi
    rw [Node.compareThrough, hindexes i hi]
    rfl
  obtain ⟨m, hm, hlt, hfound⟩ := Search.narrow_spec .outOfFuel hpos hsorted hprobe
    (size + 1) 0 ((size : Int) - 1) (by omega) (by omega)
    { high_lt := by omega
      low_le := by omega
      below := fun i hi => absurd hi (Nat.not_lt_zero i)
      above := fun i hi hib => by omega }
  have hzero : ((0 : Nat) : Int) = 0 := rfl
  rw [hzero] at hm
  refine ⟨m, hlt, hfound, ?_⟩
  unfold findIndexThrough
  dsimp only
  rw [assertThat_of hpos, ok_bind, assertThat_of (by omega), ok_bind, hm, ok_bind,
    hindexes m hlt, ok_bind]
  by_cases hkey : keys m = key
  · rw [if_neg (by simpa using hkey), if_pos hkey, assertThat_of (by omega), ok_bind]
    simp
  · rw [if_pos hkey, if_neg hkey]
    rfl

/-- The leaf search ends on the slot of the key, or the key is in no live slot. -/
theorem findIndex_spec {page : Page K V} (key : K) (hpos : 0 < page.currentSize)
    (hle : page.currentSize ≤ page.maxSize) (hsorted : SortedKeys page page.currentSize) :
    ∃ found, findIndex (Node.ofBuffer page) key = .ok found ∧
      (∀ i, found = some i → i < page.currentSize ∧ page.keys i = key) ∧
      (found = none → ∀ i, i < page.currentSize → page.keys i ≠ key) := by
  have hindexes : ∀ i : Nat, i < page.currentSize →
      (Node.ofBuffer page).indexes i = .ok (page.keys i) :=
    fun i hi => Node.indexes_of_lt (Nat.lt_of_lt_of_le hi hle)
  obtain ⟨m, hlt, hfound, hrun⟩ := findIndexThrough_spec key hpos hsorted hindexes
  refine ⟨_, hrun, ?_, ?_⟩
  · intro i hi
    split at hi
    · cases hi
      exact ⟨hlt, ‹_›⟩
    · cases hi
  · intro hnone
    split at hnone
    · cases hnone
    · exact hfound.resolve_left ‹_›

/-- The page of the first leaf. -/
structure First (cap : Nat) (page' : Page K V) (key : K) (value : V) : Prop where
  type_eq : page'.type = .leafNode
  maxSize_eq : page'.maxSize = cap
  currentSize_eq : page'.currentSize = 1
  linkedPageId_eq : page'.linkedPageId = invalidPageId
  key_eq : page'.keys 0 = key
  value_eq : page'.values 0 = value

omit [Index K] in
theorem initFirstNode_spec {cap : Nat} (hcap : 0 < cap) (page : Page K V) (key : K) (value : V) :
    ∃ page', initFirstNode cap key value (Node.ofBuffer page) = .ok (Node.ofBuffer page') ∧
      First cap page' key value := by
  have hzero : (0 : Int) = ((0 : Nat) : Int) := rfl
  unfold initFirstNode
  dsimp only
  rw [hzero, Node.setIndexes_of_lt (by exact hcap), ok_bind,
    Node.setRecords_of_lt (by exact hcap), ok_bind]
  refine ⟨_, Node.ok_updateBuffer _, rfl, rfl, rfl, rfl, ?_, ?_⟩
  · show setSlot page.keys 0 key 0 = key
    exact setSlot_self _ _
  · show setSlot page.values 0 value 0 = value
    exact setSlot_self _ _

end LeafNode

/-! ## Inner nodes -/

namespace InnerNode

/--
The way down ends on the cut between the separators that are at most the key and
those above it; of the accessor it asks for the separators only.
-/
theorem findIndexThrough_spec {keys : Nat → K} {size : Nat} (key : K) (htwo : 2 ≤ size)
    (hsorted : ∀ i j, i ≤ j → j < size - 1 → keys i ≤ keys j) {indexes : Int → Except Failure K}
    (hindexes : ∀ i : Nat, i < size - 1 → indexes i = .ok (keys i)) :
    ∃ j, findIndexThrough size indexes key = .ok j ∧
      Search.IsCut (fun i => keys i > key) (size - 1) j := by
  have hprobe : ∀ i : Nat, i < size - 1 →
      Node.aboveThrough indexes key i = .ok (decide (keys i > key)) :=
    fun i hi => Node.aboveThrough_of_ok (hindexes i hi)
  have hmono : ∀ i j, i ≤ j → j < size - 1 → keys i > key → keys j > key :=
    fun i j hij hj hi => lt_of_lt_of_le hi (hsorted i j hij hj)
  have hhigh : (size : Int) - 2 = ((size - 1 - 1 : Nat) : Int) := by omega
  unfold findIndexThrough
  dsimp only
  rw [assertThat_of (show size > 0 by omega), ok_bind, hhigh, hindexes (size - 1 - 1) (by omega),
    ok_bind]
  by_cases hlast : key ≥ keys (size - 1 - 1)
  · refine ⟨size - 1, ?_, .of_last hmono (not_lt.mpr hlast)⟩
    rw [if_pos hlast]
    rfl
  · obtain ⟨j, hj, hcut⟩ := Search.bisect_of_last .outOfFuel hprobe hmono (not_le.mp hlast)
      (by omega) (size + 1) (by omega)
    refine ⟨j, ?_, hcut⟩
    rw [if_neg hlast, assertThat_of (show ((size - 1 - 1 : Nat) : Int) ≥ 0 by omega), ok_bind, hj,
      ok_bind, assertThat_of (show (j : Int) ≥ 0 by omega), ok_bind]
    rfl

/--
The child a key is routed to: the number of separators that are at most the
key.  The last key slot is not looked at.
-/
theorem findIndex_spec {page : Page K V} (key : K) (htwo : 2 ≤ page.currentSize)
    (hle : page.currentSize ≤ page.maxSize) (hsorted : SortedKeys page (page.currentSize - 1)) :
    ∃ j, findIndex (Node.ofBuffer page) key = .ok j ∧
      Search.IsCut (fun i => page.keys i > key) (page.currentSize - 1) j := by
  have hindexes : ∀ i : Nat, i < page.currentSize - 1 →
      (Node.ofBuffer page).indexes i = .ok (page.keys i) :=
    fun i hi => Node.indexes_of_lt (show i < page.maxSize by omega)
  exact findIndexThrough_spec key htwo hsorted hindexes

/-- `find_index` returns the index of a child, and for a node with two children only. -/
theorem lt_of_findIndex {page : Page K V} {key : K} {j : Nat}
    (hrun : findIndex (Node.ofBuffer page) key = .ok j) :
    j < page.currentSize ∧ 2 ≤ page.currentSize := by
  obtain ⟨_, _, hrest⟩ := except_bind_eq_ok_iff.mp hrun
  obtain ⟨last, hlast, hrest⟩ := except_bind_eq_ok_iff.mp hrest
  have htwo : 2 ≤ page.currentSize := by
    have hslot : (0 : Int) ≤ (page.currentSize : Int) - 2 := (Node.slot_of_indexes hlast).1
    omega
  refine ⟨?_, htwo⟩
  split at hrest
  next =>
    cases hrest
    show page.currentSize - 1 < page.currentSize
    omega
  next =>
    obtain ⟨_, _, hrest⟩ := except_bind_eq_ok_iff.mp hrest
    obtain ⟨low, hlow, hrest⟩ := except_bind_eq_ok_iff.mp hrest
    obtain ⟨_, _, hrest⟩ := except_bind_eq_ok_iff.mp hrest
    cases hrest
    have hhigh : (0 : Int) ≤ (page.currentSize : Int) - 2 := by omega
    have hrange : 0 ≤ low ∧ low ≤ (page.currentSize : Int) - 2 :=
      Search.bisect_range (Int.le_refl 0) hhigh hlow
    omega

/-- The page of an inner node after a child has been registered right of child `w`. -/
structure Registered (page page' : Page K V) (w : Nat) (key : K) (value : V) : Prop where
  type_eq : page'.type = page.type
  maxSize_eq : page'.maxSize = page.maxSize
  currentSize_eq : page'.currentSize = page.currentSize + 1
  linkedPageId_eq : page'.linkedPageId = page.linkedPageId
  keys_eq : ∀ i, i < page.currentSize → page'.keys i = insertSlot page.keys w key i
  values_eq : ∀ i, i ≤ page.currentSize → page'.values i = insertSlot page.values (w + 1) value i

omit [Index K] in
theorem swapPageIds_of_lt {node : Node K V} {i j : Nat} (hi : i < node.maxSize)
    (hj : j < node.maxSize) :
    swapPageIds node (i : Int) (j : Int) = .ok (node.writeValues
      (setSlot (setSlot node.buffer.values i (node.buffer.values j)) j
        (node.buffer.values i))) := by
  unfold swapPageIds
  rw [Node.records_of_lt hi, ok_bind, Node.records_of_lt hj, ok_bind,
    Node.setRecords_of_lt hi, ok_bind, Node.setRecords_of_lt (by exact hj)]
  rfl

/-- Shifting, overwriting slot `w` and swapping it with the next slot inserts behind `w`. -/
theorem swapped_eq_insertSlot (f : Nat → V) {w n i : Nat} (value : V) (hw : w < n) (hi : i ≤ n) :
    setSlot (setSlot (setSlot (shifted w n f) w value) w (f w)) (w + 1) value i =
      insertSlot f (w + 1) value i := by
  by_cases hnext : i = w + 1
  · subst hnext
    rw [setSlot_self, insertSlot_self]
  · rw [setSlot_of_ne _ _ hnext]
    by_cases hself : i = w
    · subst hself
      rw [setSlot_self, insertSlot_of_lt _ _ (by omega)]
    · rw [setSlot_of_ne _ _ hself, setSlot_of_ne _ _ hself]
      by_cases hlt : i < w
      · rw [shifted_of_not _ (by omega), insertSlot_of_lt _ _ (by omega)]
      · obtain ⟨k, rfl⟩ : ∃ k, i = k + 1 := ⟨i - 1, by omega⟩
        rw [shifted_of_le _ (by omega) hi, insertSlot_succ_of_le _ _ (by omega)]
        rfl

theorem findIndexForInsert_spec {page : Page K V} (htwo : 2 ≤ page.currentSize)
    (hroom : page.currentSize < page.maxSize)
    (hsorted : SortedKeys page (page.currentSize - 1)) (key : K) :
    ∃ w, findIndexForInsert (Node.ofBuffer page) key = .ok w ∧
      Node.IsPosition page (page.currentSize - 1) key w := by
  have hcount : ((Node.ofBuffer page).currentSize : Int) - 1 =
      ((page.currentSize - 1 : Nat) : Int) := by
    rw [Node.ofBuffer_currentSize]
    omega
  unfold findIndexForInsert
  rw [hcount]
  exact Node.positionAmong_spec key hroom (by omega) (by omega) hsorted

/--
`trivial_insert_leaf_node` into an inner node with room makes the first key of the
new leaf a separator at the position the search returns, and the leaf the child
right of it.
-/
theorem trivialInsertLeafNode_at {page : Page K V} {newNode : Node K V} {w : Nat} (value : V)
    (hroom : page.currentSize < page.maxSize) (hnew : 0 < newNode.maxSize)
    (hsearch : findIndexForInsert (Node.ofBuffer page) (newNode.buffer.keys 0) = .ok w)
    (hlt : w < page.currentSize) :
    ∃ page', trivialInsertLeafNode value newNode (Node.ofBuffer page) =
        .ok (Node.ofBuffer page') ∧
      Registered page page' w (newNode.buffer.keys 0) value := by
  have hcount : ((Node.ofBuffer page).currentSize : Int) - 1 =
      ((page.currentSize - 1 : Nat) : Int) := by
    rw [Node.ofBuffer_currentSize]
    omega
  have hassert : assertThat (Node.ofBuffer page).canInsertTrivially = .ok () :=
    assertThat_of hroom
  have hzero : (0 : Int) = ((0 : Nat) : Int) := rfl
  unfold trivialInsertLeafNode
  rw [hassert, ok_bind, hzero, Node.indexes_of_lt hnew, ok_bind, hsearch, ok_bind]
  dsimp only
  rw [hcount]
  by_cases hend : w = page.currentSize - 1
  · -- the leaf that was split is the last child
    have hlast : w < page.maxSize := by omega
    have hsize : page.currentSize = w + 1 := by omega
    rw [if_pos (by rw [hend]), ← hend, Node.indexes_of_lt (by exact hlast), ok_bind,
      Node.setIndexes_of_lt (by exact hroom), ok_bind, Node.records_of_lt (by exact hlast),
      ok_bind, Node.setRecords_of_lt (by exact hroom), ok_bind,
      Node.setIndexes_of_lt (by exact hlast), ok_bind, Node.setRecords_of_lt (by exact hlast),
      ok_bind, swapPageIds_of_lt (by exact hlast) (by exact hroom), ok_bind]
    refine ⟨_, Node.ok_updateBuffer _, rfl, rfl, rfl, rfl, ?_, ?_⟩
    · intro i hi
      show setSlot (setSlot page.keys page.currentSize (page.keys w)) w _ i = _
      rw [hsize] at hi ⊢
      rcases Nat.lt_succ_iff_lt_or_eq.mp hi with hlt | heq
      · rw [setSlot_of_ne _ _ (by omega), setSlot_of_ne _ _ (by omega), insertSlot_of_lt _ _ hlt]
      · rw [heq, setSlot_self, insertSlot_self]
    · intro i hi
      show setSlot (setSlot (setSlot (setSlot page.values page.currentSize (page.values w)) w value)
        w (setSlot (setSlot page.values page.currentSize (page.values w)) w value
          page.currentSize)) page.currentSize
          (setSlot (setSlot page.values page.currentSize (page.values w)) w value w) i = _
      rw [hsize] at hi ⊢
      rw [setSlot_of_ne _ value (show w + 1 ≠ w by omega), setSlot_self, setSlot_self]
      rcases eq_or_lt_of_le hi with heq | hlt
      · rw [heq, setSlot_self, insertSlot_self]
      · rw [setSlot_of_ne _ _ (by omega), insertSlot_of_lt _ _ hlt]
        rcases eq_or_lt_of_le (Nat.lt_succ_iff.mp hlt) with heq | hlt'
        · rw [heq, setSlot_self]
        · rw [setSlot_of_ne _ _ (by omega), setSlot_of_ne _ _ (by omega),
            setSlot_of_ne _ _ (by omega)]
  · -- the leaf that was split has a right neighbour
    have hlt : w < page.maxSize := by omega
    have hnext : w + 1 < page.maxSize := by omega
    have hinside : w + 1 < (Node.ofBuffer page).currentSize := by
      show w + 1 < page.currentSize
      omega
    have hsucc : ((w : Int) + 1) = ((w + 1 : Nat) : Int) := by omega
    rw [if_neg (by omega), Node.shiftUp_eq (by exact hroom), ok_bind,
      Node.setIndexes_of_lt (by exact hlt), ok_bind, Node.setRecords_of_lt (by exact hlt),
      ok_bind, assertThat_of hinside, ok_bind, hsucc,
      swapPageIds_of_lt (by exact hlt) (by exact hnext), ok_bind]
    refine ⟨_, Node.ok_updateBuffer _, rfl, rfl, rfl, rfl, ?_, ?_⟩
    · intro i hi
      exact setSlot_shifted _ _ (Nat.le_of_lt hi)
    · intro i hi
      show setSlot (setSlot (setSlot (shifted w page.currentSize page.values) w value) w
        (setSlot (shifted w page.currentSize page.values) w value (w + 1))) (w + 1)
        (setSlot (shifted w page.currentSize page.values) w value w) i = _
      have hread : setSlot (shifted w page.currentSize page.values) w value (w + 1) =
          page.values w := by
        rw [setSlot_of_ne _ _ (by omega), shifted_of_le _ (by omega) (by omega)]
        rfl
      rw [hread, setSlot_self]
      exact swapped_eq_insertSlot page.values value (by omega) hi

/--
`trivial_insert_leaf_node` into an inner node with room returns; the position
it searches for the first key of the new leaf is where that key becomes a
separator, and the leaf becomes the child right of it.
-/
theorem trivialInsertLeafNode_spec {page : Page K V} (newNode : Node K V) (value : V)
    (htwo : 2 ≤ page.currentSize) (hroom : page.currentSize < page.maxSize)
    (hsorted : SortedKeys page (page.currentSize - 1)) (hnew : 0 < newNode.maxSize) :
    ∃ w page',
      findIndexForInsert (Node.ofBuffer page) (newNode.buffer.keys 0) = .ok w ∧
      trivialInsertLeafNode value newNode (Node.ofBuffer page) = .ok (Node.ofBuffer page') ∧
      Node.IsPosition page (page.currentSize - 1) (newNode.buffer.keys 0) w ∧
      Registered page page' w (newNode.buffer.keys 0) value := by
  obtain ⟨w, hsearch, hposition⟩ := findIndexForInsert_spec htwo hroom hsorted
    (newNode.buffer.keys 0)
  have hle := hposition.le
  obtain ⟨page', hinsert, hregistered⟩ :=
    trivialInsertLeafNode_at value hroom hnew hsearch (by omega)
  exact ⟨w, page', hsearch, hinsert, hposition, hregistered⟩

/--
`trivial_insert_leaf_node` returns for an inner node with room only, and then makes
the leaf one of its children.
-/
theorem registered_of_trivialInsertLeafNode {page : Page K V} {newNode node' : Node K V}
    {value : V} (hrun : trivialInsertLeafNode value newNode (Node.ofBuffer page) = .ok node') :
    ∃ w page', node' = Node.ofBuffer page' ∧ page.currentSize < page.maxSize ∧
      w < page.currentSize ∧ Registered page page' w (newNode.buffer.keys 0) value := by
  obtain ⟨_, hcheck, hrest⟩ := except_bind_eq_ok_iff.mp hrun
  obtain ⟨key, hkey, hrest⟩ := except_bind_eq_ok_iff.mp hrest
  obtain ⟨w, hsearch, hrest⟩ := except_bind_eq_ok_iff.mp hrest
  have hroom : page.currentSize < page.maxSize := of_assertThat hcheck
  have hslot := Node.slot_of_indexes hkey
  have hnew : 0 < newNode.maxSize := Int.natCast_pos.mp (by omega)
  have hzero : newNode.indexes 0 = .ok (newNode.buffer.keys 0) := Node.indexes_of_lt hnew
  cases hzero.symm.trans hkey
  have hlt : w < page.currentSize := by
    dsimp only at hrest
    split at hrest
    next hend =>
      have hend' : (w : Int) = (page.currentSize : Int) - 1 := hend
      omega
    next =>
      obtain ⟨_, _, hrest⟩ := except_bind_eq_ok_iff.mp hrest
      obtain ⟨_, _, hrest⟩ := except_bind_eq_ok_iff.mp hrest
      obtain ⟨_, _, hrest⟩ := except_bind_eq_ok_iff.mp hrest
      obtain ⟨_, hinside, _⟩ := except_bind_eq_ok_iff.mp hrest
      have hinside' : w + 1 < page.currentSize := of_assertThat hinside
      omega
  obtain ⟨page', hinsert, hregistered⟩ := trivialInsertLeafNode_at value hroom hnew hsearch hlt
  exact ⟨w, page', Except.ok.inj (hrun.symm.trans hinsert), hroom, hlt, hregistered⟩

/-- The two pages of an inner node cut behind the middle. -/
structure Split (cap : Nat) (previousPage : PageId) (page page' newPage' : Page K V) : Prop where
  type_eq : page'.type = page.type
  maxSize_eq : page'.maxSize = page.maxSize
  currentSize_eq : page'.currentSize = cap / 2 + 1
  linkedPageId_eq : page'.linkedPageId = page.linkedPageId
  keys_eq : ∀ i, i ≤ cap / 2 → page'.keys i = page.keys i
  values_eq : ∀ i, i ≤ cap / 2 → page'.values i = page.values i
  new_type_eq : newPage'.type = .innerNode
  new_maxSize_eq : newPage'.maxSize = cap
  new_currentSize_eq : newPage'.currentSize = cap - (cap / 2 + 1)
  new_linkedPageId_eq : newPage'.linkedPageId = previousPage
  new_keys_eq : ∀ i, i < cap - (cap / 2 + 1) → newPage'.keys i = page.keys (cap / 2 + 1 + i)
  new_values_eq : ∀ i, i < cap - (cap / 2 + 1) →
    newPage'.values i = page.values (cap / 2 + 1 + i)

/-- The parity constant makes the last slot land right behind the copied ones. -/
theorem last_slot (cap : Nat) (h : 3 ≤ cap) :
    ((cap / 2 : Nat) : Int) - (somethingToBeRenamed cap : Int) =
      ((cap - 1 - (cap / 2 + 1) : Nat) : Int) := by
  unfold somethingToBeRenamed
  split <;> omega

/-- The same constant makes the two sizes add up. -/
theorem new_size (cap : Nat) (h : 3 ≤ cap) :
    cap / 2 + 1 - somethingToBeRenamed cap = cap - (cap / 2 + 1) := by
  unfold somethingToBeRenamed
  split <;> omega

/-- `split_node` of a full inner node, for every capacity from 3 on. -/
theorem splitNode_spec [Value V] {cap : Nat} (previousPage : PageId) {page : Page K V}
    (newPage : Page K V)
    (hcap : 3 ≤ cap) (hmax : page.maxSize = cap) (hfull : page.currentSize = cap) :
    ∃ page' newPage', splitNode cap previousPage (Node.ofBuffer page) (Node.ofBuffer newPage) =
        .ok (Node.ofBuffer page', Node.ofBuffer newPage') ∧
      Split cap previousPage page page' newPage' := by
  have hassert : assertThat (Node.ofBuffer page).shouldSplit = .ok () :=
    assertThat_of (by show page.currentSize = page.maxSize; omega)
  have hcast : ((cap : Int) - 1) = ((cap - 1 : Nat) : Int) := by omega
  unfold splitNode
  simp only [Node.seeing_false]
  rw [hassert, ok_bind]
  rw [Node.ofBuffer_maxSize, Node.ofBuffer_currentSize]
  rw [Node.copySlots_of_lt (by show _ < page.maxSize; omega) (by show _ < page.maxSize; omega)
    (by omega) (by show 0 < page.maxSize; omega), ok_bind, hmax, last_slot cap hcap]
  rw [hcast, Node.indexes_of_lt (by show _ < page.maxSize; omega), ok_bind,
    Node.setIndexes_of_lt (by show _ < cap; omega), ok_bind,
    Node.records_of_lt (by show _ < page.maxSize; omega), ok_bind,
    Node.setRecords_of_lt (by show _ < cap; omega), ok_bind,
    Node.invalidateSlots_of_lt (by show _ < page.maxSize; omega)
      (by show _ < page.maxSize; omega) (by omega), ok_bind]
  refine ⟨_, _, Node.ok_updateBuffers _ _, rfl, rfl, ?_, rfl, ?_, ?_, rfl, rfl, ?_, rfl, ?_, ?_⟩
  · show page.currentSize / 2 + 1 = cap / 2 + 1
    rw [hfull]
  · intro i hi
    exact if_neg (by omega)
  · intro i hi
    exact if_neg (by omega)
  · show page.currentSize / 2 + 1 - _ = _
    rw [hfull, new_size cap hcap]
  · intro i hi
    exact setSlot_copied _ _ (by omega) (by omega)
  · intro i hi
    exact setSlot_copied _ _ (by omega) (by omega)

end InnerNode

end HiveDb.BPlusTree
