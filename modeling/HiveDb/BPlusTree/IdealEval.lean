import HiveDb.BPlusTree.IdealStore
import HiveDb.BPlusTree.Descent

/-!
# Evaluation over the ideal store

Each part of `find` and `insert` is evaluated over the ideal store: what it
returns and which pages it has written.  No module but this one and the one on
calls that have returned unfolds the programs.
-/

namespace HiveDb.BPlusTree

open HiveDb.Lib
open HiveDb.Lib.Slots

variable {K V : Type}

namespace IdealTree

def put (tree : IdealTree K V) (id : PageId) (page : Page K V) : IdealTree K V :=
  { tree with bp := tree.bp.write id page }

def allocated (tree : IdealTree K V) : IdealTree K V :=
  { tree with bp := { tree.bp with nextPage := tree.bp.nextPage + 1 } }

def queued (tree : IdealTree K V) (frameQueue : List PageId) : IdealTree K V :=
  { tree with frameQueue := frameQueue }

def rooted (tree : IdealTree K V) (root : PageId) : IdealTree K V :=
  { tree with rootPageId := root }

section Fields

variable (tree : IdealTree K V) (id other : PageId) (page : Page K V) (queue : List PageId)

@[simp] theorem put_pages_self : (tree.put id page).bp.pages id = page := if_pos rfl
theorem put_pages_of_ne {id other : PageId} (h : other ≠ id) :
    (tree.put id page).bp.pages other = tree.bp.pages other := if_neg h
@[simp] theorem put_nextPage : (tree.put id page).bp.nextPage = tree.bp.nextPage := rfl
@[simp] theorem queued_bp : (tree.queued queue).bp = tree.bp := rfl
@[simp] theorem queued_rootPageId : (tree.queued queue).rootPageId = tree.rootPageId := rfl

end Fields

/-! ## Calls of the pool -/

section Calls

variable (tree : IdealTree K V) (id : PageId)

theorem requestPage_apply (pin : Bool) :
    (requestPage id pin : Prog (IdealTree K V) PageId) tree = .ok id tree := rfl

theorem setDirty_apply :
    (onPool (PageStore.setDirty id) : Prog (IdealTree K V) Unit) tree = .ok () tree := rfl

theorem allocateNewPage_apply :
    (onPool PageStore.allocateNewPage : Prog (IdealTree K V) PageId) tree =
      .ok tree.bp.nextPage tree.allocated := rfl

theorem getData_apply :
    (onPool (PageStore.getData id) : Prog (IdealTree K V) (Page K V)) tree =
      .ok (tree.bp.pages id) tree := rfl

theorem nodeOf_apply :
    (nodeOf id : Prog (IdealTree K V) (Node K V)) tree =
      .ok (Node.ofBuffer (tree.bp.pages id)) tree := rfl

variable {tree id}

theorem readNode_of_ok {op : Node K V → Except Failure α} {a : α}
    (h : op (Node.ofBuffer (tree.bp.pages id)) = .ok a) :
    (readNode id (Node.ofBuffer (tree.bp.pages id)) op : Prog (IdealTree K V) α) tree =
      .ok a tree := by
  show (liftPure (op (Node.ofBuffer (tree.bp.pages id))) : Prog (IdealTree K V) α) tree = _
  rw [h]
  rfl

theorem onNode_of_ok {node : Node K V} {op : Node K V → Except Failure (Node K V)}
    {page' : Page K V}
    (h : op { node with buffer := tree.bp.pages id } = .ok (Node.ofBuffer page')) :
    (onNode id node op : Prog (IdealTree K V) (Node K V)) tree =
      .ok (Node.ofBuffer page') (tree.put id page') := by
  show ((liftPure (op { node with buffer := tree.bp.pages id }) : Prog (IdealTree K V) _) >>=
    fun node => onPool (PageStore.setData id node.buffer) >>= fun _ => pure node) tree = _
  rw [h]
  rfl

theorem onNode_of_error {node : Node K V} {op : Node K V → Except Failure (Node K V)}
    {failure : Failure} (h : op { node with buffer := tree.bp.pages id } = .error failure) :
    (onNode id node op : Prog (IdealTree K V) (Node K V)) tree = .error failure tree := by
  show ((liftPure (op { node with buffer := tree.bp.pages id }) : Prog (IdealTree K V) _) >>=
    fun node => onPool (PageStore.setData id node.buffer) >>= fun _ => pure node) tree = _
  rw [h]
  rfl

theorem sameFrame_of_ne {other : PageId} (hne : id ≠ other) :
    PageStore.sameFrame (IdealStore K V) id other = false := beq_false_of_ne hne

theorem onNodes_of_ok {other : PageId} (hne : id ≠ other) {node otherNode : Node K V}
    {op : Node K V → Node K V → Bool → Except Failure (Node K V × Node K V)}
    {page' otherPage' : Page K V}
    (h : op { node with buffer := tree.bp.pages id }
      { otherNode with buffer := tree.bp.pages other } false =
        .ok (Node.ofBuffer page', Node.ofBuffer otherPage')) :
    (onNodes id other node otherNode op : Prog (IdealTree K V) (Node K V × Node K V)) tree =
      .ok (Node.ofBuffer page', Node.ofBuffer otherPage')
        ((tree.put id page').put other otherPage') := by
  rw [onNodes, bind_of_ok (getData_apply tree id), bind_of_ok (getData_apply tree other),
    sameFrame_of_ne hne, h]
  rfl

end Calls

/-! ## What a node is asked first -/

theorem not_innerNode {page : Page K V} (hleaf : page.type = .leafNode) :
    ¬ (Node.ofBuffer page).type = .innerNode := by
  rw [Node.ofBuffer_type, hleaf]
  decide

theorem not_shouldSplit {page : Page K V} (hroom : page.currentSize < page.maxSize) :
    ¬ (Node.ofBuffer page).shouldSplit :=
  Nat.ne_of_lt hroom

theorem shouldSplit {page : Page K V} (hfull : page.currentSize = page.maxSize) :
    ¬ ¬ (Node.ofBuffer page).shouldSplit :=
  not_not.mpr hfull

/-! ## The descents -/

variable [Index K] [Value V]

section Descents

variable {tree : IdealTree K V} {key : K} {value : V} {id target : PageId} {path : List PageId}
  {cap fuel : Nat}

omit [Value V] in
/-- Reading the next page id at an inner node. -/
theorem readNext_of_found {j : Nat}
    (hfound : InnerNode.findIndex (Node.ofBuffer (tree.bp.pages id)) key = .ok j)
    (hinside : j < (tree.bp.pages id).maxSize) :
    (readNode id (Node.ofBuffer (tree.bp.pages id)) (fun innerNode => do
        let nextKeyIndex ← InnerNode.findIndex innerNode key
        innerNode.records nextKeyIndex) : Prog (IdealTree K V) V) tree =
      .ok ((tree.bp.pages id).values j) tree := by
  refine readNode_of_ok ?_
  show (InnerNode.findIndex (Node.ofBuffer (tree.bp.pages id)) key >>= fun nextKeyIndex =>
    (Node.ofBuffer (tree.bp.pages id)).records nextKeyIndex) = _
  rw [hfound, ok_bind, Node.records_of_lt (by exact hinside)]
  rfl

/-- One round of the descent of an insertion at an inner node. -/
theorem findPlaceLoop_inner {j : Nat} (hinner : (tree.bp.pages id).type = .innerNode)
    (hfound : InnerNode.findIndex (Node.ofBuffer (tree.bp.pages id)) key = .ok j)
    (hinside : j < (tree.bp.pages id).maxSize) :
    findPlaceLoop cap key value (fuel + 1) id tree =
      findPlaceLoop cap key value fuel (Value.key ((tree.bp.pages id).values j))
        (tree.queued (id :: tree.frameQueue)) := by
  rw [findPlaceLoop, bind_of_ok (requestPage_apply tree id true), bind_of_ok (nodeOf_apply tree id),
    if_pos (by exact hinner), bind_of_ok (readNext_of_found hfound hinside)]
  rfl

/-- The last round of the descent of an insertion. -/
theorem findPlaceLoop_leaf (hleaf : (tree.bp.pages id).type = .leafNode) :
    findPlaceLoop cap key value (fuel + 1) id tree =
      insertIntoLeaf cap key value id (Node.ofBuffer (tree.bp.pages id)) tree := by
  rw [findPlaceLoop, bind_of_ok (requestPage_apply tree id true), bind_of_ok (nodeOf_apply tree id),
    if_neg (not_innerNode hleaf)]

/-- The descent of an insertion queues the inner nodes it passes. -/
theorem findPlaceLoop_descends (cap : Nat) (value : V)
    (hdescends : Descends tree.bp.pages key id path target) (fuel : Nat) :
    findPlaceLoop cap key value (path.length + fuel) id tree =
      findPlaceLoop cap key value fuel target (tree.queued (path.reverse ++ tree.frameQueue)) := by
  generalize hpages : tree.bp.pages = pages at hdescends
  induction hdescends generalizing tree with
  | here id => rw [List.length_nil, Nat.zero_add]; rfl
  | @down id target path j inner found inside rest ih =>
      subst hpages
      have hfuel : (id :: path).length + fuel = (path.length + fuel) + 1 := by
        rw [List.length_cons]
        omega
      rw [hfuel, findPlaceLoop_inner inner found inside, ih (by rfl)]
      simp [queued]

/-- With too small a budget the descent does not arrive. -/
theorem findPlaceLoop_exhausted (cap : Nat) (value : V)
    (hdescends : Descends tree.bp.pages key id path target) (hfuel : fuel ≤ path.length) :
    ∃ tree', findPlaceLoop cap key value fuel id tree = .error .outOfFuel tree' := by
  generalize hpages : tree.bp.pages = pages at hdescends
  induction hdescends generalizing tree fuel with
  | here id =>
      obtain rfl : fuel = 0 := Nat.le_zero.mp hfuel
      exact ⟨tree, rfl⟩
  | @down id target path j inner found inside rest ih =>
      subst hpages
      cases fuel with
      | zero => exact ⟨tree, rfl⟩
      | succ fuel =>
          rw [findPlaceLoop_inner inner found inside]
          exact ih (Nat.le_of_succ_le_succ hfuel) rfl

/-- One round of the descent of a search at an inner node. -/
theorem findLoop_inner {j : Nat} (hinner : (tree.bp.pages id).type = .innerNode)
    (hfound : InnerNode.findIndex (Node.ofBuffer (tree.bp.pages id)) key = .ok j)
    (hinside : j < (tree.bp.pages id).maxSize) :
    findLoop key value (fuel + 1) id tree =
      findLoop key value fuel (Value.key ((tree.bp.pages id).values j)) tree := by
  rw [findLoop, bind_of_ok (requestPage_apply tree id true), bind_of_ok (nodeOf_apply tree id),
    if_pos (by exact hinner), bind_of_ok (readNext_of_found hfound hinside)]
  rfl

/-- The last round of a search. -/
theorem findLoop_leaf {found : Option Nat} (hleaf : (tree.bp.pages id).type = .leafNode)
    (hfound : LeafNode.findIndex (Node.ofBuffer (tree.bp.pages id)) key = .ok found)
    (hinside : ∀ i, found = some i → i < (tree.bp.pages id).maxSize) :
    findLoop key value (fuel + 1) id tree =
      .ok ((found.map (tree.bp.pages id).values).getD value) tree := by
  rw [findLoop, bind_of_ok (requestPage_apply tree id true), bind_of_ok (nodeOf_apply tree id),
    if_neg (not_innerNode hleaf), bind_of_ok (readNode_of_ok hfound)]
  cases found with
  | none => rfl
  | some i =>
      dsimp only
      rw [bind_of_ok (readNode_of_ok (Node.records_of_lt (by exact hinside i rfl)))]
      rfl

theorem findLoop_descends (value : V) (hdescends : Descends tree.bp.pages key id path target)
    (fuel : Nat) :
    findLoop key value (path.length + fuel) id tree = findLoop key value fuel target tree := by
  generalize hpages : tree.bp.pages = pages at hdescends
  induction hdescends with
  | here id => rw [List.length_nil, Nat.zero_add]
  | @down id target path j inner found inside rest ih =>
      subst hpages
      have hfuel : (id :: path).length + fuel = (path.length + fuel) + 1 := by
        rw [List.length_cons]
        omega
      rw [hfuel, findLoop_inner inner found inside, ih]

end Descents

/-! ## At the leaf -/

section AtLeaf

variable {cap : Nat} (tree : IdealTree K V) (id : PageId) (key : K) (value : V)

/-- Insertion into a leaf that does not fill up. -/
theorem insertIntoLeaf_room (hleaf : IsLeaf cap (tree.bp.pages id))
    (hroom : (tree.bp.pages id).currentSize + 1 < cap) :
    ∃ w page', insertIntoLeaf cap key value id (Node.ofBuffer (tree.bp.pages id)) tree =
        .ok none (tree.put id page') ∧
      Node.IsPosition (tree.bp.pages id) (tree.bp.pages id).currentSize key w ∧
      LeafNode.Inserted (tree.bp.pages id) page' w key value := by
  obtain ⟨w, page', hinsert, hposition, hinserted⟩ :=
    LeafNode.trivialInsert_spec key value
      (by rw [hleaf.maxSize_eq]; omega) hleaf.sorted
  refine ⟨w, page', ?_, hposition, hinserted⟩
  have hroom' : page'.currentSize < page'.maxSize := by
    rw [hinserted.currentSize_eq, hinserted.maxSize_eq, hleaf.maxSize_eq]
    exact hroom
  rw [insertIntoLeaf, bind_of_ok (setDirty_apply tree id), bind_of_ok (onNode_of_ok hinsert),
    if_pos (not_shouldSplit hroom')]
  rfl

/-- Insertion into a leaf that fills up and is cut in two. -/
theorem insertIntoLeaf_full (hcap : 2 ≤ cap) (hleaf : IsLeaf cap (tree.bp.pages id))
    (hfull : (tree.bp.pages id).currentSize + 1 = cap) (hfresh : tree.bp.nextPage ≠ id) :
    ∃ w mid page' newPage',
      insertIntoLeaf cap key value id (Node.ofBuffer (tree.bp.pages id)) tree =
        .ok (some tree.bp.nextPage)
          ((((tree.put id mid).allocated).put id page').put tree.bp.nextPage newPage') ∧
      LeafNode.trivialInsert key value (Node.ofBuffer (tree.bp.pages id)) =
        .ok (Node.ofBuffer mid) ∧
      Node.IsPosition (tree.bp.pages id) (tree.bp.pages id).currentSize key w ∧
      LeafNode.Inserted (tree.bp.pages id) mid w key value ∧
      LeafNode.Split cap tree.bp.nextPage mid (tree.bp.pages tree.bp.nextPage) page' newPage' := by
  obtain ⟨w, mid, hinsert, hposition, hinserted⟩ :=
    LeafNode.trivialInsert_spec key value
      (by rw [hleaf.maxSize_eq]; omega) hleaf.sorted
  have hmax : mid.maxSize = cap := hinserted.maxSize_eq.trans hleaf.maxSize_eq
  have hsize : mid.currentSize = cap := hinserted.currentSize_eq.trans hfull
  obtain ⟨page', newPage', hsplit, hcut⟩ := LeafNode.splitNode_spec tree.bp.nextPage
    (tree.bp.pages tree.bp.nextPage) hcap hmax hsize
  refine ⟨w, mid, page', newPage', ?_, hinsert, hposition, hinserted, hcut⟩
  have hmid : (tree.put id mid).allocated.bp.pages id = mid := put_pages_self tree id mid
  have hnew : (tree.put id mid).allocated.bp.pages tree.bp.nextPage =
      tree.bp.pages tree.bp.nextPage := put_pages_of_ne tree mid hfresh
  rw [insertIntoLeaf, bind_of_ok (setDirty_apply tree id), bind_of_ok (onNode_of_ok hinsert),
    if_neg (shouldSplit (hsize.trans hmax.symm)), bind_of_ok (allocateNewPage_apply _),
    bind_of_ok (requestPage_apply _ _ true), bind_of_ok (setDirty_apply _ _),
    bind_of_ok (nodeOf_apply _ _), put_nextPage,
    bind_of_ok (onNodes_of_ok hfresh.symm (by rw [hmid, hnew]; exact hsplit))]
  rfl

end AtLeaf

/-! ## On the way back -/

section WayBack

variable {cap : Nat} (tree : IdealTree K V) (id newPageId : PageId)

/-- An inner node with room takes a leaf as a child. -/
theorem registers {page leaf : Page K V} {children : Nat → Branch K V}
    (hinner : IsInner cap page children) (hsorted : SortedKeys page (page.currentSize - 1))
    (hleaf : IsLeaf cap leaf) (hroom : page.currentSize < cap) (newPageId : PageId) :
    ∃ w page', InnerNode.findIndexForInsert (Node.ofBuffer page) (leaf.keys 0) = .ok w ∧
      InnerNode.trivialInsertLeafNode (Value.ofPageId newPageId) (Node.ofBuffer leaf)
        (Node.ofBuffer page) = .ok (Node.ofBuffer page') ∧
      InnerNode.Registered page page' w (leaf.keys 0) (Value.ofPageId newPageId) := by
  have hnew : 0 < (Node.ofBuffer leaf).maxSize := by
    rw [Node.ofBuffer_maxSize, hleaf.maxSize_eq]
    exact Nat.lt_of_lt_of_le hleaf.pos hleaf.le
  obtain ⟨w, page', hsearch, hinsert, _, hregistered⟩ := InnerNode.trivialInsertLeafNode_spec
    (Node.ofBuffer leaf) (Value.ofPageId newPageId) hinner.two_le
    (hinner.maxSize_eq.symm ▸ hroom) hsorted hnew
  exact ⟨w, page', hsearch, hinsert, hregistered⟩

/-- Registering a new leaf at an inner node that does not fill up. -/
theorem registerNewPage_room {children : Nat → Branch K V}
    (hinner : IsInner cap (tree.bp.pages id) children)
    (hsorted : SortedKeys (tree.bp.pages id) ((tree.bp.pages id).currentSize - 1))
    (hleaf : IsLeaf cap (tree.bp.pages newPageId))
    (hroom : (tree.bp.pages id).currentSize + 1 < cap) :
    ∃ w page', registerNewPage cap id newPageId tree = .ok none (tree.put id page') ∧
      InnerNode.findIndexForInsert (Node.ofBuffer (tree.bp.pages id))
        ((tree.bp.pages newPageId).keys 0) = .ok w ∧
      InnerNode.Registered (tree.bp.pages id) page' w ((tree.bp.pages newPageId).keys 0)
        (Value.ofPageId newPageId) := by
  obtain ⟨w, page', hsearch, hinsert, hregistered⟩ :=
    registers hinner hsorted hleaf (Nat.lt_of_succ_lt hroom) newPageId
  refine ⟨w, page', ?_, hsearch, hregistered⟩
  have hroom' : page'.currentSize < page'.maxSize := by
    rw [hregistered.currentSize_eq, hregistered.maxSize_eq, hinner.maxSize_eq]
    exact hroom
  rw [registerNewPage, bind_of_ok (setDirty_apply tree id), bind_of_ok (nodeOf_apply tree id),
    bind_of_ok (requestPage_apply tree newPageId false), bind_of_ok (nodeOf_apply tree newPageId),
    if_neg (not_innerNode hleaf.type_eq), bind_of_ok (getData_apply tree newPageId),
    bind_of_ok (onNode_of_ok (by exact hinsert))]
  dsimp only
  rw [if_pos (not_shouldSplit hroom')]
  rfl

/-- The tree after the inner node in page `id` has been cut in two. -/
structure InnerCut (tree tree' : IdealTree K V) (id : PageId) (leftPage rightPage : Page K V) :
    Prop where
  root_eq : tree'.rootPageId = tree.rootPageId
  nextPage_eq : tree'.bp.nextPage = tree.bp.nextPage + 1
  left_eq : tree'.bp.pages id = leftPage
  right_eq : tree'.bp.pages tree.bp.nextPage = rightPage
  other_eq : ∀ other, other ≠ id → other ≠ tree.bp.nextPage →
    tree'.bp.pages other = tree.bp.pages other

omit [Index K] [Value V] in
theorem InnerCut.of_put (mid leftPage rightPage : Page K V) (hfresh : tree.bp.nextPage ≠ id) :
    InnerCut tree ((((tree.put id mid).allocated).put id leftPage).put tree.bp.nextPage rightPage)
      id leftPage rightPage where
  root_eq := rfl
  nextPage_eq := rfl
  left_eq := (put_pages_of_ne _ _ hfresh.symm).trans (put_pages_self _ _ _)
  right_eq := put_pages_self _ _ _
  other_eq _ hid hnew := (put_pages_of_ne _ _ hnew).trans
    ((put_pages_of_ne _ _ hid).trans (put_pages_of_ne _ _ hid))

/-- Registering a new leaf at an inner node that fills up and is cut in two. -/
theorem registerNewPage_full (hcap : 3 ≤ cap) {children : Nat → Branch K V}
    (hinner : IsInner cap (tree.bp.pages id) children)
    (hsorted : SortedKeys (tree.bp.pages id) ((tree.bp.pages id).currentSize - 1))
    (hleaf : IsLeaf cap (tree.bp.pages newPageId))
    (hfull : (tree.bp.pages id).currentSize + 1 = cap) (hfresh : tree.bp.nextPage ≠ id) :
    ∃ (tree' : IdealTree K V) (w : Nat) (mid page' newPage' : Page K V),
      registerNewPage cap id newPageId tree = .ok (some tree.bp.nextPage) tree' ∧
      InnerNode.findIndexForInsert (Node.ofBuffer (tree.bp.pages id))
        ((tree.bp.pages newPageId).keys 0) = .ok w ∧
      InnerNode.Registered (tree.bp.pages id) mid w ((tree.bp.pages newPageId).keys 0)
        (Value.ofPageId newPageId) ∧
      InnerNode.Split cap newPageId mid page' newPage' ∧
      InnerCut tree tree' id page' newPage' := by
  obtain ⟨w, mid, hsearch, hinsert, hregistered⟩ :=
    registers hinner hsorted hleaf (Nat.lt_of_succ_le hfull.le) newPageId
  have hmax : mid.maxSize = cap := hregistered.maxSize_eq.trans hinner.maxSize_eq
  have hsize : mid.currentSize = cap := hregistered.currentSize_eq.trans hfull
  obtain ⟨page', newPage', hsplit, hcut⟩ := InnerNode.splitNode_spec newPageId
    (tree.bp.pages tree.bp.nextPage) hcap hmax hsize
  refine ⟨_, w, mid, page', newPage', ?_, hsearch, hregistered, hcut,
    InnerCut.of_put tree id mid page' newPage' hfresh⟩
  have hmid : (tree.put id mid).allocated.bp.pages id = mid := put_pages_self tree id mid
  have hnew : (tree.put id mid).allocated.bp.pages tree.bp.nextPage =
      tree.bp.pages tree.bp.nextPage := put_pages_of_ne tree mid hfresh
  rw [registerNewPage, bind_of_ok (setDirty_apply tree id), bind_of_ok (nodeOf_apply tree id),
    bind_of_ok (requestPage_apply tree newPageId false), bind_of_ok (nodeOf_apply tree newPageId),
    if_neg (not_innerNode hleaf.type_eq), bind_of_ok (getData_apply tree newPageId),
    bind_of_ok (onNode_of_ok (by exact hinsert))]
  dsimp only
  rw [if_neg (shouldSplit (hsize.trans hmax.symm)), bind_of_ok (allocateNewPage_apply _),
    bind_of_ok (requestPage_apply _ _ true), bind_of_ok (setDirty_apply _ _),
    bind_of_ok (nodeOf_apply _ _), put_nextPage]
  rw [bind_of_ok (onNodes_of_ok hfresh.symm (by rw [hmid, hnew]; exact hsplit))]
  rfl

/-- A new inner node cannot be registered. -/
theorem registerNewPage_inner (cap : Nat) (hinner : (tree.bp.pages newPageId).type = .innerNode) :
    ∃ tree', registerNewPage cap id newPageId tree = .error .assertion tree' := by
  refine ⟨tree, ?_⟩
  rw [registerNewPage, bind_of_ok (setDirty_apply tree id), bind_of_ok (nodeOf_apply tree id),
    bind_of_ok (requestPage_apply tree newPageId false), bind_of_ok (nodeOf_apply tree newPageId),
    if_pos (by exact hinner), bind_of_error (onNode_of_error (trivialInsertInnerNode_eq_error _))]

/-- Without a new page the loop over the queued frames only releases them. -/
theorem unwindQueue_none (frameQueue : List PageId) :
    unwindQueue cap frameQueue.length none (tree.queued frameQueue) =
      .ok none (tree.queued []) := by
  induction frameQueue with
  | nil => rfl
  | cons back rest ih =>
      rw [List.length_cons]
      exact ih

variable {tree id newPageId} in
/-- One round of the loop with a new page to register. -/
theorem unwindQueue_some {rounds : Nat} {rest : List PageId}
    (hqueue : tree.frameQueue = id :: rest) :
    unwindQueue cap (rounds + 1) (some newPageId) tree =
      match registerNewPage cap id newPageId tree with
      | .ok next tree' => unwindQueue cap rounds next (queued tree' rest)
      | .error failure tree' => .error failure tree' := by
  rw [unwindQueue, bind_of_ok (get_apply tree), hqueue]
  dsimp only
  rw [bind_apply]
  cases registerNewPage cap id newPageId tree with
  | ok next tree' => rfl
  | error failure tree' => rfl

end WayBack

/-! ## New roots -/

/-- The page of a new root over two children. -/
structure NewRoot (cap : Nat) (page : Page K V) (key : K) (left right : PageId) : Prop where
  type_eq : page.type = .innerNode
  maxSize_eq : page.maxSize = cap
  currentSize_eq : page.currentSize = 2
  key_eq : page.keys 0 = key
  left_eq : Value.key (page.values 0) = left
  right_eq : Value.key (page.values 1) = right

section NewRoots

variable {cap : Nat} (tree : IdealTree K V)

omit [Index K] [Value V] in
theorem insertFirst_eq (hcap : 0 < cap) (key : K) (value : V) :
    ∃ page', insertFirst cap key value tree =
        .ok true ((tree.allocated.rooted tree.bp.nextPage).put tree.bp.nextPage page') ∧
      LeafNode.First cap page' key value := by
  obtain ⟨page', hinit, hfirst⟩ := LeafNode.initFirstNode_spec hcap
    (tree.bp.pages tree.bp.nextPage) key value
  refine ⟨page', ?_, hfirst⟩
  rw [insertFirst, bind_of_ok (allocateNewPage_apply tree), bind_of_ok (modify_apply _ _),
    bind_of_ok (requestPage_apply _ _ false), bind_of_ok (setDirty_apply _ _),
    bind_of_ok (nodeOf_apply _ _), bind_of_ok (onNode_of_ok (by exact hinit))]
  rfl

omit tree in
/-- The slot writes for a new root over two leaves. -/
theorem linkLeaves_eq (rootPage : Page K V) (firstKey : K) (rootPageId newPageId : PageId)
    (hcap : 2 ≤ cap) :
    ∃ rootPage', linkLeaves firstKey rootPageId newPageId
        (newRootHeader cap (Node.ofBuffer rootPage)) = .ok (Node.ofBuffer rootPage') ∧
      NewRoot cap rootPage' firstKey rootPageId newPageId := by
  have hzero : (0 : Int) = ((0 : Nat) : Int) := rfl
  have hone : (1 : Int) = ((1 : Nat) : Int) := rfl
  unfold linkLeaves
  rw [hzero, hone, Node.setIndexes_of_lt (by show 0 < cap; omega), ok_bind,
    Node.setRecords_of_lt (by show 0 < cap; omega), ok_bind,
    Node.setIndexes_of_lt (by show 1 < cap; omega), ok_bind,
    Node.setRecords_of_lt (by show 1 < cap; omega), ok_bind]
  exact ⟨_, Node.ok_updateBuffer _, rfl, rfl, rfl, rfl, Value.key_ofPageId _,
    Value.key_ofPageId _⟩

/-- A new root over the two halves of the old root leaf. -/
theorem createRootWithLeaves_eq (newPageId : PageId) (hcap : 2 ≤ cap)
    (hmax : (tree.bp.pages newPageId).maxSize = cap) :
    ∃ rootPage, createRootWithLeaves cap newPageId tree =
        .ok () ((tree.allocated.put tree.bp.nextPage rootPage).rooted tree.bp.nextPage) ∧
      NewRoot cap rootPage ((tree.bp.pages newPageId).keys 0) tree.rootPageId newPageId := by
  have hzero : (0 : Int) = ((0 : Nat) : Int) := rfl
  have hfirst : (Node.ofBuffer (tree.bp.pages newPageId)).indexes 0 =
      .ok ((tree.bp.pages newPageId).keys 0) := by
    rw [hzero, Node.indexes_of_lt]
    · rfl
    · rw [Node.ofBuffer_maxSize, hmax]
      omega
  obtain ⟨rootPage, hok, hroot⟩ := linkLeaves_eq (tree.bp.pages tree.bp.nextPage)
    ((tree.bp.pages newPageId).keys 0) tree.rootPageId newPageId hcap
  refine ⟨rootPage, ?_, hroot⟩
  rw [createRootWithLeaves, bind_of_ok (allocateNewPage_apply tree),
    bind_of_ok (requestPage_apply _ _ true), bind_of_ok (setDirty_apply _ _),
    bind_of_ok (nodeOf_apply _ _), bind_of_ok (requestPage_apply _ _ true),
    bind_of_ok (nodeOf_apply _ _), bind_of_ok (readNode_of_ok hfirst),
    bind_of_ok (get_apply _), bind_of_ok (onNode_of_ok (by exact hok))]
  rfl

/-- The lower part of a split root after its last key has been promoted. -/
structure Promoted (page page' : Page K V) : Prop where
  type_eq : page'.type = page.type
  maxSize_eq : page'.maxSize = page.maxSize
  currentSize_eq : page'.currentSize = page.currentSize
  values_eq : page'.values = page.values
  keys_eq : ∀ i, i + 1 < page.currentSize → page'.keys i = page.keys i

/-- The promoted key was in the slot that is not looked at. -/
theorem Promoted.isInner {page page' : Page K V} {children : Nat → Branch K V}
    (hpromoted : Promoted page page') (h : IsInner cap page children) :
    IsInner cap page' children where
  type_eq := hpromoted.type_eq.trans h.type_eq
  maxSize_eq := hpromoted.maxSize_eq.trans h.maxSize_eq
  two_le := hpromoted.currentSize_eq ▸ h.two_le
  le := hpromoted.currentSize_eq ▸ h.le
  child_eq := by
    rw [hpromoted.currentSize_eq, hpromoted.values_eq]
    exact h.child_eq
  separates := by
    rw [hpromoted.currentSize_eq]
    intro i hi
    rw [hpromoted.keys_eq i hi]
    exact h.separates i hi

omit tree in
/-- The slot writes for a new root over the two parts of an inner node. -/
theorem promoteLastKey_eq (rootPage : Page K V) {victim : Page K V}
    (victimPageId rhsPageId : PageId) (hcap : 2 ≤ cap) (hmax : victim.maxSize = cap)
    (hpos : 0 < victim.currentSize) (hle : victim.currentSize ≤ cap) :
    ∃ rootPage' victim', promoteLastKey victimPageId rhsPageId
        (newRootHeader cap (Node.ofBuffer rootPage)) (Node.ofBuffer victim) =
          .ok (Node.ofBuffer rootPage', Node.ofBuffer victim') ∧
      NewRoot cap rootPage' (victim.keys (victim.currentSize - 1)) victimPageId rhsPageId ∧
      Promoted victim victim' := by
  have hzero : (0 : Int) = ((0 : Nat) : Int) := rfl
  have hone : (1 : Int) = ((1 : Nat) : Int) := rfl
  have hlast : (victim.currentSize : Int) - 1 = ((victim.currentSize - 1 : Nat) : Int) := by omega
  unfold promoteLastKey
  simp only [Node.seeing_false]
  rw [Node.ofBuffer_currentSize, hlast, hzero, hone,
    Node.indexes_of_lt (by rw [Node.ofBuffer_maxSize, hmax]; omega), ok_bind,
    Node.setIndexes_of_lt (by show 0 < cap; omega), ok_bind,
    Node.setRecords_of_lt (by show 0 < cap; omega), ok_bind,
    Node.setIndexes_of_lt (by show 1 < cap; omega), ok_bind,
    Node.setRecords_of_lt (by show 1 < cap; omega), ok_bind,
    Node.setIndexes_of_lt (by rw [Node.ofBuffer_maxSize, hmax]; omega), ok_bind]
  refine ⟨_, _, Node.ok_updateBuffers _ _, ⟨rfl, rfl, rfl, rfl, Value.key_ofPageId _,
    Value.key_ofPageId _⟩, rfl, rfl, rfl, rfl, ?_⟩
  intro i hi
  exact setSlot_of_ne _ _ (by omega)

/-- A new root over the two parts of the old inner root. -/
theorem createRootWithInnerNodes_eq (victimPageId newPageId : PageId) (hcap : 2 ≤ cap)
    (hmax : (tree.bp.pages victimPageId).maxSize = cap)
    (hpos : 0 < (tree.bp.pages victimPageId).currentSize)
    (hle : (tree.bp.pages victimPageId).currentSize ≤ cap)
    (hfresh : tree.bp.nextPage ≠ victimPageId) :
    ∃ rootPage page', createRootWithInnerNodes cap victimPageId newPageId tree =
        .ok () (((tree.allocated.put tree.bp.nextPage rootPage).put victimPageId page').rooted
          tree.bp.nextPage) ∧
      NewRoot cap rootPage ((tree.bp.pages victimPageId).keys
        ((tree.bp.pages victimPageId).currentSize - 1)) victimPageId newPageId ∧
      Promoted (tree.bp.pages victimPageId) page' := by
  obtain ⟨rootPage, page', hok, hroot, hpromoted⟩ := promoteLastKey_eq
    (tree.bp.pages tree.bp.nextPage) victimPageId newPageId hcap hmax hpos hle
  refine ⟨rootPage, page', ?_, hroot, hpromoted⟩
  rw [createRootWithInnerNodes, bind_of_ok (requestPage_apply _ _ true),
    bind_of_ok (setDirty_apply _ _), bind_of_ok (nodeOf_apply _ _),
    bind_of_ok (allocateNewPage_apply tree), bind_of_ok (requestPage_apply _ _ true),
    bind_of_ok (setDirty_apply _ _), bind_of_ok (nodeOf_apply _ _),
    bind_of_ok (onNodes_of_ok hfresh (by exact hok))]
  rfl

end NewRoots

/-! ## The whole insertion -/

section Insert

variable {tree tree' : IdealTree K V} {key : K} {value : V} {cap fuel : Nat}

theorem insert_first (hroot : tree.rootPageId = invalidPageId) :
    insert cap fuel key value tree = insertFirst cap key value tree := by
  rw [insert, bind_of_ok (get_apply tree), if_pos hroot]

theorem findPlaceForNewKeyAndInsert_eq :
    findPlaceForNewKeyAndInsert cap fuel key value tree =
      findPlaceLoop cap key value fuel tree.rootPageId tree := rfl

/-- The descent split no leaf. -/
theorem insert_unsplit (hroot : tree.rootPageId ≠ invalidPageId)
    (hplace : findPlaceLoop cap key value fuel tree.rootPageId tree = .ok none tree') :
    insert cap fuel key value tree = .ok true (tree'.queued []) := by
  have hunwind : unwindQueue cap tree'.frameQueue.length none tree' =
      .ok none (queued tree' []) := unwindQueue_none tree' tree'.frameQueue
  rw [insert, bind_of_ok (get_apply tree), if_neg hroot,
    bind_of_ok (findPlaceForNewKeyAndInsert_eq.trans hplace), bind_of_ok (get_apply tree')]
  show registerInQueue cap tree'.frameQueue.length none tree' = _
  rw [registerInQueue, bind_of_ok hunwind]
  rfl

/-- The descent split the root leaf. -/
theorem insert_splitRoot {newPageId : PageId} (hroot : tree.rootPageId ≠ invalidPageId)
    (hplace : findPlaceLoop cap key value fuel tree.rootPageId tree = .ok (some newPageId) tree')
    (hqueue : tree'.frameQueue = []) {tree'' : IdealTree K V}
    (hcreate : createRootWithLeaves cap newPageId tree' = .ok () tree'') :
    insert cap fuel key value tree = .ok true tree'' := by
  rw [insert, bind_of_ok (get_apply tree), if_neg hroot,
    bind_of_ok (findPlaceForNewKeyAndInsert_eq.trans hplace), bind_of_ok (get_apply tree'), hqueue]
  dsimp only
  rw [bind_of_ok hcreate]
  rfl

/-- The descent split a leaf below an inner node. -/
theorem insert_splitLeaf {newPageId parent : PageId} {rest : List PageId}
    (hroot : tree.rootPageId ≠ invalidPageId)
    (hplace : findPlaceLoop cap key value fuel tree.rootPageId tree = .ok (some newPageId) tree')
    (hqueue : tree'.frameQueue = parent :: rest) :
    insert cap fuel key value tree =
      registerInQueue cap (rest.length + 1) (some newPageId) tree' := by
  rw [insert, bind_of_ok (get_apply tree), if_neg hroot,
    bind_of_ok (findPlaceForNewKeyAndInsert_eq.trans hplace), bind_of_ok (get_apply tree'), hqueue]
  rfl

/-- A descent that fails makes the insertion fail. -/
theorem insert_error {failure : Failure} (hroot : tree.rootPageId ≠ invalidPageId)
    (hplace : findPlaceLoop cap key value fuel tree.rootPageId tree = .error failure tree') :
    insert cap fuel key value tree = .error failure tree' := by
  rw [insert, bind_of_ok (get_apply tree), if_neg hroot,
    bind_of_error (findPlaceForNewKeyAndInsert_eq.trans hplace)]

end Insert

end IdealTree

end HiveDb.BPlusTree
