import HiveDb.BPlusTree.Node

/-!
# The B+ tree over a page store

The tree reaches its pages through the operations of a page store only: it
requests a page, gets a pointer to a frame, and from then on reads and writes
through that pointer.  `σ` is the state of the store, `F` the type of its frame
pointers.  The buffer pool is one such store; the store that keeps every page
at hand is another.

The two unbounded loops of the source, the descents of `find` and of
`find_place_for_new_key_and_insert`, run on a budget of rounds.
-/

namespace HiveDb.BPlusTree

open HiveDb.Lib

/-- What the tree calls on its pool and on the frames it hands out. -/
class PageStore (σ : Type) (F K V : outParam Type) where
  requestPage : PageId → Bool → Prog σ F
  allocateNewPage : Prog σ PageId
  flushPage : PageId → Prog σ Bool
  flushPages : Prog σ Bool
  getData : F → Prog σ (Page K V)
  setData : F → Page K V → Prog σ Unit
  setDirty : F → Prog σ Unit
  decreasePinCount : F → Prog σ Unit
  /-- The two pointers lead to one frame, and so to the same bytes. -/
  sameFrame : F → F → Bool

/-- The tree object; the head of `frameQueue` is the back of `m_frame_queue`. -/
structure Tree (σ F : Type) where
  bp : σ
  rootPageId : PageId
  frameQueue : List F

variable {σ F K V : Type}

/-- An operation of the tree's pool. -/
def onPool (x : Prog σ α) : Prog (Tree σ F) α :=
  onPart Tree.bp (fun bp tree => { tree with bp := bp }) x

section Operations

variable [PageStore σ F K V]

def requestPage (id : PageId) (shouldPin : Bool := true) : Prog (Tree σ F) F :=
  onPool (PageStore.requestPage id shouldPin)

/-- Construct a node object on a frame. -/
def nodeOf (frame : F) : Prog (Tree σ F) (Node K V) := do
  return Node.ofBuffer (← onPool (PageStore.getData frame))

/-- Evaluate a member function of a node object that only reads its page. -/
def readNode (frame : F) (node : Node K V) (op : Node K V → Except Failure α) :
    Prog (Tree σ F) α := do
  let page ← onPool (PageStore.getData frame)
  liftPure (op { node with buffer := page })

/-- Run a member function of a node object on the page behind its frame. -/
def onNode (frame : F) (node : Node K V) (op : Node K V → Except Failure (Node K V)) :
    Prog (Tree σ F) (Node K V) := do
  let page ← onPool (PageStore.getData frame)
  let node ← liftPure (op { node with buffer := page })
  onPool (PageStore.setData frame node.buffer)
  return node

/--
Run a member function that changes the pages of two node objects; it is told
whether both are views of one frame.
-/
def onNodes (frame otherFrame : F) (node other : Node K V)
    (op : Node K V → Node K V → Bool → Except Failure (Node K V × Node K V)) :
    Prog (Tree σ F) (Node K V × Node K V) := do
  let page ← onPool (PageStore.getData frame)
  let otherPage ← onPool (PageStore.getData otherFrame)
  let nodes ← liftPure (op { node with buffer := page } { other with buffer := otherPage }
    (PageStore.sameFrame σ frame otherFrame))
  onPool (PageStore.setData frame nodes.1.buffer)
  onPool (PageStore.setData otherFrame nodes.2.buffer)
  return nodes

end Operations

/-! ## The member functions -/

section Members

variable [Index K] [Value V] [PageStore σ F K V]

/-- The slot writes of `create_root_with_inner_nodes`: promote the last key of `victim`. -/
def promoteLastKey (victimPageId rhsPageId : PageId) (newRootNode victim : Node K V)
    (shared : Bool := false) : Except Failure (Node K V × Node K V) := do
  let newRootNode ← newRootNode.setIndexes 0 (← victim.indexes (victim.currentSize - 1 : Int))
  let newRootNode ← newRootNode.setRecords 0 (Value.ofPageId victimPageId)
  let newRootNode ← newRootNode.setIndexes 1 Index.invalidKey
  let newRootNode ← newRootNode.setRecords 1 (Value.ofPageId rhsPageId)
  let victim := victim.seeing shared newRootNode
  let victim ← victim.setIndexes (victim.currentSize - 1 : Int) Index.invalidKey
  let newRootNode := (newRootNode.seeing shared victim).updateBufferWithNewValues
  let victim := (victim.seeing shared newRootNode).updateBufferWithNewValues
  return (newRootNode.seeing shared victim, victim)

/-- The slot writes of `insert` for a root over two leaves. -/
def linkLeaves (firstKey : K) (rootPageId newPageId : PageId) (newRootNode : Node K V) :
    Except Failure (Node K V) := do
  let newRootNode ← newRootNode.setIndexes 0 firstKey
  let newRootNode ← newRootNode.setRecords 0 (Value.ofPageId rootPageId)
  let newRootNode ← newRootNode.setIndexes 1 Index.invalidKey
  let newRootNode ← newRootNode.setRecords 1 (Value.ofPageId newPageId)
  return newRootNode.updateBufferWithNewValues

/-- The header every new root gets. -/
def newRootHeader (cap : Nat) (node : Node K V) : Node K V :=
  { node with
    maxSize := cap
    currentSize := 2
    type := .innerNode
    linkedPageId := invalidPageId }

def createRootWithInnerNodes (cap : Nat) (victimPageId rhsPageId : PageId) :
    Prog (Tree σ F) Unit := do
  let victimFrame ← requestPage victimPageId
  onPool (PageStore.setDirty victimFrame)
  let victim ← nodeOf victimFrame
  let newRoot ← onPool PageStore.allocateNewPage
  let newRootFrame ← requestPage newRoot
  onPool (PageStore.setDirty newRootFrame)
  let newRootNode ← nodeOf newRootFrame
  let _ ← onNodes newRootFrame victimFrame (newRootHeader cap newRootNode) victim
    fun newRootNode victim shared =>
      promoteLastKey victimPageId rhsPageId newRootNode victim shared
  modify fun tree => { tree with rootPageId := newRoot }

/-- The descent of `find`; the result is what the output parameter `value` holds afterwards. -/
def findLoop (key : K) (value : V) : Nat → PageId → Prog (Tree σ F) V
  | 0, _ => throw .outOfFuel
  | fuel + 1, previousPageId => do
      let currentPage ← requestPage previousPageId
      let node ← nodeOf currentPage
      if node.type = .innerNode then
        let nextPageId ← readNode currentPage node fun innerNode => do
          let nextKeyIndex ← InnerNode.findIndex innerNode key
          innerNode.records nextKeyIndex
        onPool (PageStore.decreasePinCount currentPage)
        findLoop key value fuel (Value.key nextPageId)
      else
        match ← readNode currentPage node (fun leafNode => LeafNode.findIndex leafNode key) with
        | none => return value
        | some idx =>
            let value ← readNode currentPage node (fun leafNode => leafNode.records idx)
            onPool (PageStore.decreasePinCount currentPage)
            return value

def find (fuel : Nat) (key : K) (value : V) : Prog (Tree σ F) V := do
  let tree ← get
  if tree.rootPageId = invalidPageId then
    throw (.invalidArgument "root page doesn't exist!")
  findLoop key value fuel tree.rootPageId

/-- What the descent does once it has reached the leaf behind `currentPage`. -/
def insertIntoLeaf (cap : Nat) (key : K) (value : V) (currentPage : F) (node : Node K V) :
    Prog (Tree σ F) (Option PageId) := do
  onPool (PageStore.setDirty currentPage)
  let leafNode ← onNode currentPage node fun leafNode => LeafNode.trivialInsert key value leafNode
  if ¬ leafNode.shouldSplit then return none
  let newPageId ← onPool PageStore.allocateNewPage
  let newPage ← requestPage newPageId
  onPool (PageStore.setDirty newPage)
  let newLeafNode ← nodeOf newPage
  let _ ← onNodes currentPage newPage leafNode newLeafNode fun leafNode newLeafNode shared =>
    LeafNode.splitNode cap newPageId leafNode newLeafNode shared
  return some newPageId

/-- The descent of `find_place_for_new_key_and_insert`. -/
def findPlaceLoop (cap : Nat) (key : K) (value : V) : Nat → PageId → Prog (Tree σ F) (Option PageId)
  | 0, _ => throw .outOfFuel
  | fuel + 1, previousPageId => do
      let currentPage ← requestPage previousPageId
      let node ← nodeOf currentPage
      if node.type = .innerNode then
        let nextPageId ← readNode currentPage node fun innerNode => do
          let nextKeyIndex ← InnerNode.findIndex innerNode key
          innerNode.records nextKeyIndex
        modify fun tree => { tree with frameQueue := currentPage :: tree.frameQueue }
        findPlaceLoop cap key value fuel (Value.key nextPageId)
      else
        insertIntoLeaf cap key value currentPage node

def findPlaceForNewKeyAndInsert (cap fuel : Nat) (key : K) (value : V) :
    Prog (Tree σ F) (Option PageId) := do
  findPlaceLoop cap key value fuel (← get).rootPageId

/-- The root leaf was split into itself and the leaf in page `newPageId`. -/
def createRootWithLeaves (cap : Nat) (newPageId : PageId) : Prog (Tree σ F) Unit := do
  let newRoot ← onPool PageStore.allocateNewPage
  let newRootFrame ← requestPage newRoot
  onPool (PageStore.setDirty newRootFrame)
  let newRootNode ← nodeOf newRootFrame
  let newFrame ← requestPage newPageId
  let newLeafNode ← nodeOf newFrame
  let firstKey ← readNode newFrame newLeafNode (fun newLeafNode => newLeafNode.indexes 0)
  let rootPageId := (← get).rootPageId
  let _ ← onNode newRootFrame (newRootHeader cap newRootNode)
    (linkLeaves firstKey rootPageId newPageId)
  modify fun tree => { tree with rootPageId := newRoot }

/--
`trivial_insert_inner_node` asserts `false` right after its first check, so
that nothing behind that assertion is ever executed.
-/
def trivialInsertInnerNode (node : Node K V) : Except Failure (Node K V) := do
  assertThat node.canInsertTrivially
  assertThat False
  return node

omit [Index K] [Value V] in
theorem trivialInsertInnerNode_eq_error (node : Node K V) :
    trivialInsertInnerNode node = .error .assertion := by
  unfold trivialInsertInnerNode
  by_cases hroom : node.canInsertTrivially
  · rw [assertThat_of hroom, ok_bind, assertThat_of_not not_false, error_bind]
  · rw [assertThat_of_not hroom, error_bind]

/-- One round of the loop over the queued frames in which a new page is to be registered. -/
def registerNewPage (cap : Nat) (currentFrame : F) (newPageId : PageId) :
    Prog (Tree σ F) (Option PageId) := do
  onPool (PageStore.setDirty currentFrame)
  let innerNode ← nodeOf currentFrame
  let newNodeFrame ← requestPage newPageId false
  let newNode ← nodeOf newNodeFrame
  let innerNode ←
    if newNode.type = .innerNode then
      onNode currentFrame innerNode trivialInsertInnerNode
    else do
      let newLeafPage ← onPool (PageStore.getData newNodeFrame)
      onNode currentFrame innerNode
        (InnerNode.trivialInsertLeafNode (Value.ofPageId newPageId)
          { newNode with buffer := newLeafPage })
  if ¬ innerNode.shouldSplit then
    onPool (PageStore.decreasePinCount newNodeFrame)
    onPool (PageStore.decreasePinCount currentFrame)
    return none
  let previousPageId := newPageId
  let newPageId ← onPool PageStore.allocateNewPage
  let newPage ← requestPage newPageId
  onPool (PageStore.setDirty newPage)
  let newInnerNode ← nodeOf newPage
  let _ ← onNodes currentFrame newPage innerNode newInnerNode fun innerNode newInnerNode shared =>
    InnerNode.splitNode cap previousPageId innerNode newInnerNode shared
  onPool (PageStore.decreasePinCount newNodeFrame)
  onPool (PageStore.decreasePinCount currentFrame)
  return some newPageId

/--
The loop over `m_frame_queue`, which pops one frame a round; `rounds` is the
number of frames queued at its start.
-/
def unwindQueue (cap : Nat) : Nat → Option PageId → Prog (Tree σ F) (Option PageId)
  | 0, newPageId => return newPageId
  | rounds + 1, newPageId => do
      match (← get).frameQueue with
      | [] => return newPageId
      | back :: rest =>
          let newPageId ←
            match newPageId with
            | none => do
                onPool (PageStore.decreasePinCount back)
                pure none
            | some newPageId => registerNewPage cap back newPageId
          modify fun tree => { tree with frameQueue := rest }
          unwindQueue cap rounds newPageId

/-- The first insertion creates the root leaf. -/
def insertFirst (cap : Nat) (key : K) (value : V) : Prog (Tree σ F) Bool := do
  let rootPageId ← onPool PageStore.allocateNewPage
  modify fun tree => { tree with rootPageId := rootPageId }
  let rootNodeFrame ← requestPage rootPageId false
  onPool (PageStore.setDirty rootNodeFrame)
  let newNode ← nodeOf rootNodeFrame
  let _ ← onNode rootNodeFrame newNode (LeafNode.initFirstNode cap key value)
  onPool (PageStore.flushPage rootPageId)

/-- The last branch of `insert`: unwind the queue and promote what is left over to a new root. -/
def registerInQueue (cap rounds : Nat) (newPageId : Option PageId) : Prog (Tree σ F) Bool := do
  match ← unwindQueue cap rounds newPageId with
  | some newPageId => createRootWithInnerNodes cap (← get).rootPageId newPageId
  | none => pure ()
  onPool PageStore.flushPages

def insert (cap fuel : Nat) (key : K) (value : V) : Prog (Tree σ F) Bool := do
  if (← get).rootPageId = invalidPageId then
    insertFirst cap key value
  else do
    let newPageId ← findPlaceForNewKeyAndInsert cap fuel key value
    match newPageId, (← get).frameQueue with
    | some newPageId, [] =>
        createRootWithLeaves cap newPageId
        onPool PageStore.flushPages
    | newPageId, frameQueue => registerInQueue cap frameQueue.length newPageId

/-! ## Logging -/

/-- What the `dump_contents` of a node logs; a leaf logs no page ids. -/
structure NodeDump (K V : Type) where
  type : NodeType
  maxSize : Nat
  currentSize : Nat
  indexes : List K
  pageIds : List V
  deriving DecidableEq

omit [Index K] [Value V] in
/-- `page_ids(0)` up to `page_ids(current_size - 1)` -/
def pageIdsOf (node : Node K V) : Except Failure (List V) :=
  (List.range node.currentSize).mapM fun idx => node.records idx

omit [Index K] [Value V] in
def dumpNode (node : Node K V) : Except Failure (NodeDump K V) := do
  let indexes ← (List.range node.currentSize).mapM fun idx => node.indexes idx
  let pageIds ← if node.type = .innerNode then pageIdsOf node else pure []
  return ⟨node.type, node.maxSize, node.currentSize, indexes, pageIds⟩

/-- The loop of `dump_contents` over the queue `page_ids`; the result is what it logs. -/
def dumpLoop : Nat → List PageId → Prog (Tree σ F) (List (NodeDump K V))
  | _, [] => return []
  | 0, _ :: _ => throw .outOfFuel
  | fuel + 1, front :: pageIds => do
      let currentPage ← requestPage front false
      let node ← nodeOf currentPage
      let dump ← readNode currentPage node dumpNode
      let children ←
        if node.type = .innerNode then readNode currentPage node pageIdsOf else pure []
      return dump :: (← dumpLoop fuel (pageIds ++ children.map Value.key))

def dumpContents (fuel : Nat) : Prog (Tree σ F) (List (NodeDump K V)) := do
  dumpLoop fuel [(← get).rootPageId]

end Members

end HiveDb.BPlusTree
