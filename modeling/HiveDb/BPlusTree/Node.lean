import HiveDb.Misc.Config
import HiveDb.Lib.Search
import HiveDb.Lib.Slots
import Mathlib.Order.Defs.LinearOrder

/-!
# Nodes of the B+ tree

A page holds a header (type, maximal size, current size and one page id) and
two arrays of slots, keys and values.  A leaf stores its records in the value
slots and `next_page_id` in the header; an inner node stores page ids in the
value slots, its separators in the key slots with one unused (`nil`) key at the
end, and `previous_page_id` in the header.  Keys and values have one layout in
both kinds of node, the value types `V` and `V_leaf` being the same type.

A node object copies the header fields out of the page and keeps a pointer to
it: slot accesses go to the page at once, header fields are written back by
`update_buffer_with_new_values`.
-/

namespace HiveDb.BPlusTree

open HiveDb.Lib

/-- What the tree asks of its keys beyond their order. -/
class Index (K : Type) extends LinearOrder K where
  invalidKey : K

/-- What the tree asks of its values, which also store page ids. -/
class Value (V : Type) where
  invalidKey : V
  ofPageId : PageId → V
  key : V → PageId
  key_ofPageId : ∀ id, key (ofPageId id) = id

attribute [simp] Value.key_ofPageId

/-- `int_key` of the tests as a key. -/
instance : Index Int where
  invalidKey := -99

/-- `int_key` of the tests as a value. -/
instance : Value Int where
  invalidKey := -99
  ofPageId id := id
  key value := value
  key_ofPageId _ := rfl

inductive NodeType where
  | leafNode
  | innerNode
  deriving DecidableEq, Repr

/-- The bytes of a page, field by field. -/
structure Page (K V : Type) where
  type : NodeType
  maxSize : Nat
  currentSize : Nat
  /-- `next_page_id` of a leaf, `previous_page_id` of an inner node. -/
  linkedPageId : PageId
  keys : Nat → K
  values : Nat → V

/-- A node object: a copy of the header next to the page it points to. -/
structure Node (K V : Type) where
  type : NodeType
  maxSize : Nat
  currentSize : Nat
  linkedPageId : PageId
  buffer : Page K V

variable {K V : Type} [Index K] [Value V]

namespace Node

/-- The node constructors read the header from the page. -/
def ofBuffer (page : Page K V) : Node K V :=
  ⟨page.type, page.maxSize, page.currentSize, page.linkedPageId, page⟩

def canInsertTrivially (node : Node K V) : Prop := node.currentSize < node.maxSize

instance (node : Node K V) : Decidable node.canInsertTrivially :=
  inferInstanceAs (Decidable (node.currentSize < node.maxSize))

def shouldSplit (node : Node K V) : Prop := node.currentSize = node.maxSize

instance (node : Node K V) : Decidable node.shouldSplit :=
  inferInstanceAs (Decidable (node.currentSize = node.maxSize))

/-- The assertion of the slot accessors; a negative index wraps to a huge one. -/
def checkSlot (node : Node K V) (index : Int) : Except Failure Unit :=
  assertThat (0 ≤ index ∧ index < node.maxSize)

/-- The node with the key slots of its page replaced. -/
def writeKeys (node : Node K V) (keys : Nat → K) : Node K V :=
  { node with buffer := { node.buffer with keys := keys } }

/-- The node with the value slots of its page replaced. -/
def writeValues (node : Node K V) (values : Nat → V) : Node K V :=
  { node with buffer := { node.buffer with values := values } }

/-- Reading `*indexes(index)`. -/
def indexes (node : Node K V) (index : Int) : Except Failure K := do
  node.checkSlot index
  return node.buffer.keys index.toNat

/-- Writing `*indexes(index)`. -/
def setIndexes (node : Node K V) (index : Int) (key : K) : Except Failure (Node K V) := do
  node.checkSlot index
  return node.writeKeys (Slots.setSlot node.buffer.keys index.toNat key)

/-- Reading `*records(index)` of a leaf, `*page_ids(index)` of an inner node. -/
def records (node : Node K V) (index : Int) : Except Failure V := do
  node.checkSlot index
  return node.buffer.values index.toNat

/-- Writing `*records(index)` of a leaf, `*page_ids(index)` of an inner node. -/
def setRecords (node : Node K V) (index : Int) (value : V) : Except Failure (Node K V) := do
  node.checkSlot index
  return node.writeValues (Slots.setSlot node.buffer.values index.toNat value)

def updateBufferWithNewValues (node : Node K V) : Node K V :=
  { node with
    buffer := { node.buffer with
      type := node.type
      maxSize := node.maxSize
      currentSize := node.currentSize
      linkedPageId := node.linkedPageId } }

/-- A node object whose page is the one that `writer` has written, if they share their frame. -/
def seeing (node : Node K V) (shared : Bool) (writer : Node K V) : Node K V :=
  if shared then { node with buffer := writer.buffer } else node

/-- The shifting loop of both insertions: slots `where..i-1` move up by one. -/
def shiftUp (whereTo : Nat) : Nat → Node K V → Except Failure (Node K V)
  | 0, node => return node
  | i + 1, node =>
      if whereTo < i + 1 then do
        let node ← node.setIndexes (i + 1 : Nat) (← node.indexes i)
        let node ← node.setRecords (i + 1 : Nat) (← node.records i)
        shiftUp whereTo i node
      else
        return node

/-- `*indexes(idx) > key`, read through an accessor. -/
def aboveThrough (indexes : Int → Except Failure K) (key : K) (idx : Int) :
    Except Failure Bool := do
  return decide ((← indexes idx) > key)

/-- `*indexes(idx)`, read through an accessor, compared first by `== key`, then by `> key`. -/
def compareThrough (indexes : Int → Except Failure K) (key : K) (idx : Int) :
    Except Failure Ordering := do
  let found ← indexes idx
  return if found = key then .eq else if found > key then .gt else .lt

/-- `*indexes(idx) >= key` -/
def keyNotBelow (node : Node K V) (key : K) (idx : Int) : Except Failure Bool := do
  return decide ((← node.indexes idx) ≥ key)

/-- The loop of `find_index_for_insert` for small nodes, on the first `count` keys. -/
def scanPosition (node : Node K V) (count : Int) (key : K) : Except Failure Nat :=
  Search.scan .outOfFuel (aboveThrough node.indexes key) count (node.currentSize + 1) 0

/-- What `find_index_for_insert` does in larger nodes, on the first `count` keys. -/
def bisectPosition (node : Node K V) (count : Int) (key : K) : Except Failure Nat := do
  let high : Int := count - 1
  let low : Int := 0
  if key > (← node.indexes high) then return count.toNat
  assertThat (low < high)
  let low ← Search.bisect .outOfFuel (node.keyNotBelow key) (node.currentSize + 1) low high
  assertThat (low ≥ 0)
  return low.toNat

/--
`find_index_for_insert`, where `count` is the number of keys to search: the
current size of a leaf, one less in an inner node.  Small nodes are scanned for
the first larger key, larger ones bisected for the first key not smaller.
-/
def positionAmong (node : Node K V) (count : Int) (key : K) : Except Failure Nat := do
  assertThat node.canInsertTrivially
  if node.currentSize < 5 then node.scanPosition count key else node.bisectPosition count key

/-- `std::copy` of the slots `[first, last)` of both arrays to slot 0 of `target`. -/
def copySlots (source : Node K V) (first last : Nat) (target : Node K V) :
    Except Failure (Node K V) := do
  source.checkSlot first
  source.checkSlot last
  target.checkSlot 0
  if last < first then throw .undefined
  return (target.writeKeys
      (Slots.copied source.buffer.keys first last target.buffer.keys)).writeValues
    (Slots.copied source.buffer.values first last target.buffer.values)

/-- `std::for_each` storing the invalid key in the slots `[first, last)` of both arrays. -/
def invalidateSlots (node : Node K V) (first last : Nat) : Except Failure (Node K V) := do
  node.checkSlot first
  node.checkSlot last
  if last < first then throw .undefined
  return (node.writeKeys (Slots.filled first last Index.invalidKey node.buffer.keys)).writeValues
    (Slots.filled first last Value.invalidKey node.buffer.values)

end Node

/-! ## Leaf nodes -/

namespace LeafNode

/-- `something_to_be_renamed` of a leaf, for `MAX_NUMBER_OF_ELEMENTS = cap`. -/
def somethingToBeRenamed (cap : Nat) : Nat := (cap + 1) % 2

def initFirstNode (cap : Nat) (key : K) (value : V) (node : Node K V) :
    Except Failure (Node K V) := do
  let node := { node with
    maxSize := cap
    currentSize := 1
    linkedPageId := invalidPageId
    type := .leafNode }
  let node ← node.setIndexes 0 key
  let node ← node.setRecords 0 value
  return node.updateBufferWithNewValues

def findIndexForInsert (node : Node K V) (key : K) : Except Failure Nat :=
  node.positionAmong node.currentSize key

/-- `find_index` of a leaf with `size` keys, which it reads through an accessor. -/
def findIndexThrough (size : Nat) (indexes : Int → Except Failure K) (key : K) :
    Except Failure (Option Nat) := do
  assertThat (size > 0)
  let high : Int := size - 1
  let low : Int := 0
  assertThat (high ≥ low)
  let middle ← Search.narrow .outOfFuel (Node.compareThrough indexes key) (size + 1) low high
    ((high + low).tdiv 2)
  if (← indexes middle) ≠ key then return none
  assertThat (middle ≥ 0)
  return some middle.toNat

def findIndex (node : Node K V) (key : K) : Except Failure (Option Nat) :=
  findIndexThrough node.currentSize node.indexes key

def trivialInsert (key : K) (value : V) (node : Node K V) (whereTo : Option Nat := none) :
    Except Failure (Node K V) := do
  assertThat node.canInsertTrivially
  let whereToInsert ←
    match whereTo with
    | some position => pure position
    | none => findIndexForInsert node key
  assertThat (whereToInsert ≤ node.currentSize)
  if whereToInsert = node.currentSize then
    let node ← node.setIndexes whereToInsert key
    let node ← node.setRecords whereToInsert value
    return { node with currentSize := node.currentSize + 1 }.updateBufferWithNewValues
  let node ← node.shiftUp whereToInsert node.currentSize
  let node ← node.setIndexes whereToInsert key
  let node ← node.setRecords whereToInsert value
  return { node with currentSize := node.currentSize + 1 }.updateBufferWithNewValues

/--
`split_node` of the leaf `node` into `newNode`, which gets the page id `newPageId`.
When both objects are `shared` views of one page, each sees what the other writes.
-/
def splitNode (cap : Nat) (newPageId : PageId) (node newNode : Node K V)
    (shared : Bool := false) : Except Failure (Node K V × Node K V) := do
  assertThat node.shouldSplit
  let newNode := { newNode with type := .leafNode, maxSize := node.currentSize }
  let newNode ← node.copySlots (node.maxSize / 2) (node.maxSize - 1) newNode
  let node := node.seeing shared newNode
  let last : Int := (node.maxSize / 2 : Nat) - (somethingToBeRenamed cap : Int)
  let newNode ← newNode.setIndexes last (← node.indexes (node.maxSize - 1 : Int))
  let node := node.seeing shared newNode
  let newNode ← newNode.setRecords last (← node.records (node.maxSize - 1 : Int))
  let node := node.seeing shared newNode
  let node ← node.invalidateSlots (node.maxSize / 2) (node.maxSize - 1)
  let newNode := newNode.seeing shared node
  let node := { node with currentSize := node.currentSize / 2 }
  let newNode := { newNode with
    currentSize := node.currentSize + (somethingToBeRenamed cap + 1) % 2 }
  let node := { node with linkedPageId := newPageId }
  let node := node.updateBufferWithNewValues
  let newNode := (newNode.seeing shared node).updateBufferWithNewValues
  return (node.seeing shared newNode, newNode)

end LeafNode

/-! ## Inner nodes -/

namespace InnerNode

/-- `something_to_be_renamed` of an inner node, for `MAX_NUMBER_OF_ELEMENTS = cap`. -/
def somethingToBeRenamed (cap : Nat) : Nat := if cap % 2 ≠ 0 then 1 else 2

def findIndexForInsert (node : Node K V) (key : K) : Except Failure Nat :=
  node.positionAmong (node.currentSize - 1) key

/-- `find_index` of an inner node with `size` children; it reads the keys through an accessor. -/
def findIndexThrough (size : Nat) (indexes : Int → Except Failure K) (key : K) :
    Except Failure Nat := do
  assertThat (size > 0)
  let high : Int := size - 2
  -- the last key slot is "nil", so the last separator is at `high`
  if key ≥ (← indexes high) then return size - 1
  let low : Int := 0
  assertThat (high ≥ low)
  let low ← Search.bisect .outOfFuel (Node.aboveThrough indexes key) (size + 1) low high
  assertThat (low ≥ 0)
  return low.toNat

/-- The child to descend to: the separators that are at most the key are counted. -/
def findIndex (node : Node K V) (key : K) : Except Failure Nat :=
  findIndexThrough node.currentSize node.indexes key

/-- `std::swap(*page_ids(i), *page_ids(j))`. -/
def swapPageIds (node : Node K V) (i j : Int) : Except Failure (Node K V) := do
  let left ← node.records i
  let right ← node.records j
  let node ← node.setRecords i right
  node.setRecords j left

/-- `trivial_insert_leaf_node`: register the leaf `newNode`, stored in page `value`. -/
def trivialInsertLeafNode (value : V) (newNode node : Node K V) : Except Failure (Node K V) := do
  assertThat node.canInsertTrivially
  let key ← newNode.indexes 0
  let whereToInsert ← findIndexForInsert node key
  let size := node.currentSize
  if (whereToInsert : Int) = size - 1 then
    let node ← node.setIndexes size (← node.indexes (size - 1 : Int))
    let node ← node.setRecords size (← node.records (size - 1 : Int))
    let node ← node.setIndexes (size - 1 : Int) key
    let node ← node.setRecords (size - 1 : Int) value
    let node := { node with currentSize := size + 1 }
    let node ← swapPageIds node (size - 1 : Int) size
    return node.updateBufferWithNewValues
  let node ← node.shiftUp whereToInsert size
  let node ← node.setIndexes whereToInsert key
  let node ← node.setRecords whereToInsert value
  assertThat (whereToInsert + 1 < size)
  let node ← swapPageIds node whereToInsert (whereToInsert + 1 : Int)
  return { node with currentSize := size + 1 }.updateBufferWithNewValues

/--
`split_node` of the inner node `node` into `newNode`; `shared` as in the leaf's.
-/
def splitNode (cap : Nat) (previousPage : PageId) (node newNode : Node K V)
    (shared : Bool := false) : Except Failure (Node K V × Node K V) := do
  assertThat node.shouldSplit
  let newNode := { newNode with type := .innerNode, maxSize := node.maxSize }
  let newNode ← node.copySlots (node.maxSize / 2 + 1) (node.maxSize - 1) newNode
  let node := node.seeing shared newNode
  let last : Int := (node.maxSize / 2 : Nat) - (somethingToBeRenamed cap : Int)
  let newNode ← newNode.setIndexes last (← node.indexes (node.maxSize - 1 : Int))
  let node := node.seeing shared newNode
  let newNode ← newNode.setRecords last (← node.records (node.maxSize - 1 : Int))
  let node := node.seeing shared newNode
  let node ← node.invalidateSlots (node.maxSize / 2 + 1) (node.maxSize - 1)
  let newNode := newNode.seeing shared node
  let node := { node with currentSize := node.currentSize / 2 + 1 }
  let newNode := { newNode with
    currentSize := node.currentSize - somethingToBeRenamed cap
    linkedPageId := previousPage }
  let node := node.updateBufferWithNewValues
  let newNode := (newNode.seeing shared node).updateBufferWithNewValues
  return (node.seeing shared newNode, newNode)

end InnerNode

end HiveDb.BPlusTree
