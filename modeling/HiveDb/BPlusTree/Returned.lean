import HiveDb.BPlusTree.IdealEval

/-!
# What calls that return have done

The parts of an insertion over the ideal store, read from their results: nothing
is asked of the pages they meet, which may be any, and the page they allocate may
be one that they hold already.
-/

namespace HiveDb.BPlusTree

open HiveDb.Lib

variable {K V : Type}

namespace IdealTree

/-! ## Nodes -/

section Nodes

variable {tree tree' : IdealTree K V} {id : PageId}

theorem of_readNode {op : Node K V → Except Failure α} {a : α}
    (h : (readNode id (Node.ofBuffer (tree.bp.pages id)) op : Prog (IdealTree K V) α) tree =
      .ok a tree') : op (Node.ofBuffer (tree.bp.pages id)) = .ok a ∧ tree' = tree := by
  rw [readNode, bind_of_ok (getData_apply tree id)] at h
  obtain ⟨hop, rfl⟩ := liftPure_eq_ok_iff.mp h
  exact ⟨hop, rfl⟩

theorem of_onNode {node node' : Node K V} {op : Node K V → Except Failure (Node K V)}
    (h : (onNode id node op : Prog (IdealTree K V) (Node K V)) tree = .ok node' tree') :
    op { node with buffer := tree.bp.pages id } = .ok node' ∧
      tree' = tree.put id node'.buffer := by
  rw [onNode, bind_of_ok (getData_apply tree id)] at h
  obtain ⟨changed, mid, hlift, hrest⟩ := bind_eq_ok_iff.mp h
  obtain ⟨hop, rfl⟩ := liftPure_eq_ok_iff.mp hlift
  cases hrest
  exact ⟨hop, rfl⟩

theorem of_onNodes {other : PageId} {node otherNode : Node K V} {nodes : Node K V × Node K V}
    {op : Node K V → Node K V → Bool → Except Failure (Node K V × Node K V)}
    (h : (onNodes id other node otherNode op : Prog (IdealTree K V) (Node K V × Node K V)) tree =
      .ok nodes tree') :
    op { node with buffer := tree.bp.pages id } { otherNode with buffer := tree.bp.pages other }
        (PageStore.sameFrame (IdealStore K V) id other) = .ok nodes ∧
      tree' = (tree.put id nodes.1.buffer).put other nodes.2.buffer := by
  rw [onNodes, bind_of_ok (getData_apply tree id), bind_of_ok (getData_apply tree other)] at h
  obtain ⟨changed, mid, hlift, hrest⟩ := bind_eq_ok_iff.mp h
  obtain ⟨hop, rfl⟩ := liftPure_eq_ok_iff.mp hlift
  cases hrest
  exact ⟨hop, rfl⟩

end Nodes

/-! ## Pages that are cut when they are full -/

/--
Page `id` is overwritten by `page'` and, if that is full, cut by `split` into
itself and the next page of the counter, which is the result.
-/
inductive PutOrCut (tree : IdealTree K V) (id : PageId) (page' : Page K V)
    (split : Node K V → Node K V → Bool → Except Failure (Node K V × Node K V)) :
    Option PageId → IdealTree K V → Prop where
  | put (room : page'.currentSize ≠ page'.maxSize) :
      PutOrCut tree id page' split none (tree.put id page')
  | cut {left right : Node K V} (full : page'.currentSize = page'.maxSize)
      (halves : split (Node.ofBuffer page')
        (Node.ofBuffer ((tree.put id page').bp.pages tree.bp.nextPage))
        (PageStore.sameFrame (IdealStore K V) id tree.bp.nextPage) = .ok (left, right)) :
      PutOrCut tree id page' split (some tree.bp.nextPage)
        (((tree.put id page').allocated.put id left.buffer).put tree.bp.nextPage right.buffer)

namespace PutOrCut

variable {tree tree' : IdealTree K V} {id : PageId} {page' : Page K V} {result : Option PageId}
  {split : Node K V → Node K V → Bool → Except Failure (Node K V × Node K V)}

/-- A full page that has been overwritten, and then cut with the page just allocated. -/
theorem of_writes {nodes : Node K V × Node K V} (hfull : page'.currentSize = page'.maxSize)
    (hwrites : (onNodes id tree.bp.nextPage (Node.ofBuffer page')
      (Node.ofBuffer ((tree.put id page').bp.pages tree.bp.nextPage)) split :
        Prog (IdealTree K V) (Node K V × Node K V)) (tree.put id page').allocated =
      .ok nodes tree') : PutOrCut tree id page' split (some tree.bp.nextPage) tree' := by
  obtain ⟨hcut, rfl⟩ := of_onNodes hwrites
  have hmid : (tree.put id page').allocated.bp.pages id = page' := put_pages_self tree id page'
  rw [hmid] at hcut
  exact .cut hfull hcut

theorem next_le (h : PutOrCut tree id page' split result tree') :
    tree.bp.nextPage ≤ tree'.bp.nextPage := by
  cases h with
  | put room => exact le_refl _
  | cut full halves => exact Int.le_of_lt (Int.lt_succ _)

/-- A full page takes a page from the counter, be that page in use or not. -/
theorem of_full (h : PutOrCut tree id page' split result tree')
    (hfull : page'.currentSize = page'.maxSize) :
    result = some tree.bp.nextPage ∧ tree'.bp.nextPage = tree.bp.nextPage + 1 := by
  cases h with
  | put room => exact absurd hfull room
  | cut full halves => exact ⟨rfl, rfl⟩

theorem frameQueue_eq (h : PutOrCut tree id page' split result tree') :
    tree'.frameQueue = tree.frameQueue := by
  cases h <;> rfl

theorem other_eq {other : PageId} (h : PutOrCut tree id page' split result tree')
    (hid : other ≠ id) (hnext : other ≠ tree.bp.nextPage) :
    tree'.bp.pages other = tree.bp.pages other := by
  cases h with
  | put room => exact put_pages_of_ne _ _ hid
  | cut full halves =>
      exact (put_pages_of_ne _ _ hnext).trans
        ((put_pages_of_ne _ _ hid).trans (put_pages_of_ne _ _ hid))

end PutOrCut

/-! ## The rounds of an insertion -/

variable [Index K] [Value V]

section Rounds

variable {tree tree' : IdealTree K V} {cap : Nat} {id newPageId : PageId} {key : K} {value : V}
  {result : Option PageId}

/-- An insertion into a leaf has put the pair in, and has cut the leaf if that filled it. -/
theorem of_insertIntoLeaf
    (hrun : insertIntoLeaf cap key value id (Node.ofBuffer (tree.bp.pages id)) tree =
      .ok result tree') :
    ∃ w page', (tree.bp.pages id).currentSize < (tree.bp.pages id).maxSize ∧
      LeafNode.Inserted (tree.bp.pages id) page' w key value ∧
      PutOrCut tree id page' (fun node newNode shared =>
        LeafNode.splitNode cap tree.bp.nextPage node newNode shared) result tree' := by
  rw [insertIntoLeaf, bind_of_ok (setDirty_apply tree id)] at hrun
  obtain ⟨leafNode, mid, hwrite, hrest⟩ := bind_eq_ok_iff.mp hrun
  obtain ⟨hinsert, rfl⟩ := of_onNode hwrite
  obtain ⟨w, page', rfl, hroom, hinserted⟩ := LeafNode.inserted_of_trivialInsert hinsert
  refine ⟨w, page', hroom, hinserted, ?_⟩
  by_cases hsplit : (Node.ofBuffer page').shouldSplit
  · rw [if_neg (not_not.mpr hsplit), bind_of_ok (allocateNewPage_apply _),
      bind_of_ok (requestPage_apply _ _ true), bind_of_ok (setDirty_apply _ _),
      bind_of_ok (nodeOf_apply _ _)] at hrest
    obtain ⟨nodes, cut, hwrites, hreturn⟩ := bind_eq_ok_iff.mp hrest
    cases hreturn
    exact .of_writes hsplit hwrites
  · rw [if_pos hsplit] at hrest
    cases hrest
    exact .put hsplit

/-- A round of the loop has registered a leaf, and has cut the inner node if that filled it. -/
theorem of_registerNewPage
    (hrun : registerNewPage cap id newPageId tree = .ok result tree') :
    ∃ w page', (tree.bp.pages id).currentSize < (tree.bp.pages id).maxSize ∧
      w < (tree.bp.pages id).currentSize ∧
      InnerNode.Registered (tree.bp.pages id) page' w ((tree.bp.pages newPageId).keys 0)
        (Value.ofPageId newPageId) ∧
      PutOrCut tree id page' (fun node newNode shared =>
        InnerNode.splitNode cap newPageId node newNode shared) result tree' := by
  rw [registerNewPage, bind_of_ok (setDirty_apply tree id), bind_of_ok (nodeOf_apply tree id),
    bind_of_ok (requestPage_apply tree newPageId false),
    bind_of_ok (nodeOf_apply tree newPageId)] at hrun
  by_cases hnewType : (Node.ofBuffer (tree.bp.pages newPageId)).type = .innerNode
  · rw [if_pos hnewType] at hrun
    obtain ⟨innerNode, mid, hregister, _⟩ := bind_eq_ok_iff.mp hrun
    obtain ⟨hfails, _⟩ := of_onNode hregister
    cases (trivialInsertInnerNode_eq_error _).symm.trans hfails
  rw [if_neg hnewType, bind_of_ok (getData_apply tree newPageId)] at hrun
  obtain ⟨innerNode, mid, hregister, hrest⟩ := bind_eq_ok_iff.mp hrun
  obtain ⟨hinsert, rfl⟩ := of_onNode hregister
  obtain ⟨w, page', rfl, hroom, hlt, hregistered⟩ :=
    InnerNode.registered_of_trivialInsertLeafNode hinsert
  refine ⟨w, page', hroom, hlt, hregistered, ?_⟩
  dsimp only at hrest
  by_cases hsplit : (Node.ofBuffer page').shouldSplit
  · rw [if_neg (not_not.mpr hsplit), bind_of_ok (allocateNewPage_apply _),
      bind_of_ok (requestPage_apply _ _ true), bind_of_ok (setDirty_apply _ _),
      bind_of_ok (nodeOf_apply _ _)] at hrest
    obtain ⟨nodes, cut, hwrites, hreturn⟩ := bind_eq_ok_iff.mp hrest
    cases hreturn
    exact .of_writes hsplit hwrites
  · rw [if_pos hsplit] at hrest
    cases hrest
    exact .put hsplit

/-- The new root over two leaves is the next page of the counter. -/
theorem of_createRootWithLeaves {returned : Unit}
    (hrun : createRootWithLeaves cap newPageId tree = .ok returned tree') :
    ∃ page, tree' = (tree.allocated.put tree.bp.nextPage page).rooted tree.bp.nextPage := by
  rw [createRootWithLeaves, bind_of_ok (allocateNewPage_apply tree),
    bind_of_ok (requestPage_apply _ _ true), bind_of_ok (setDirty_apply _ _),
    bind_of_ok (nodeOf_apply _ _), bind_of_ok (requestPage_apply _ _ true),
    bind_of_ok (nodeOf_apply _ _)] at hrun
  obtain ⟨firstKey, mid, hread, hrest⟩ := bind_eq_ok_iff.mp hrun
  obtain ⟨_, rfl⟩ := of_readNode hread
  rw [bind_of_ok (get_apply _)] at hrest
  obtain ⟨node, mid, hwrite, hreturn⟩ := bind_eq_ok_iff.mp hrest
  obtain ⟨_, rfl⟩ := of_onNode hwrite
  cases hreturn
  exact ⟨node.buffer, rfl⟩

/-- The new root over two inner nodes is the next page of the counter. -/
theorem of_createRootWithInnerNodes {victimPageId : PageId} {returned : Unit}
    (hrun : createRootWithInnerNodes cap victimPageId newPageId tree = .ok returned tree') :
    ∃ nodes, promoteLastKey victimPageId newPageId
        (newRootHeader cap (Node.ofBuffer (tree.bp.pages tree.bp.nextPage)))
        (Node.ofBuffer (tree.bp.pages victimPageId))
        (PageStore.sameFrame (IdealStore K V) tree.bp.nextPage victimPageId) = .ok nodes ∧
      tree' = ((tree.allocated.put tree.bp.nextPage nodes.1.buffer).put victimPageId
        nodes.2.buffer).rooted tree.bp.nextPage := by
  rw [createRootWithInnerNodes, bind_of_ok (requestPage_apply _ _ true),
    bind_of_ok (setDirty_apply _ _), bind_of_ok (nodeOf_apply _ _),
    bind_of_ok (allocateNewPage_apply tree), bind_of_ok (requestPage_apply _ _ true),
    bind_of_ok (setDirty_apply _ _), bind_of_ok (nodeOf_apply _ _)] at hrun
  obtain ⟨nodes, mid, hwrites, hreturn⟩ := bind_eq_ok_iff.mp hrun
  obtain ⟨hpromote, rfl⟩ := of_onNodes hwrites
  cases hreturn
  exact ⟨nodes, hpromote, rfl⟩

/-- The loop over the queued frames takes pages from the counter, and never gives one back. -/
theorem next_le_of_unwindQueue {rounds : Nat} {newPageId : Option PageId}
    (hrun : unwindQueue cap rounds newPageId tree = .ok result tree') :
    tree.bp.nextPage ≤ tree'.bp.nextPage := by
  induction rounds generalizing tree newPageId with
  | zero =>
      cases hrun
      exact le_refl _
  | succ rounds ih =>
      cases hqueue : tree.frameQueue with
      | nil =>
          rw [unwindQueue, bind_of_ok (get_apply tree), hqueue] at hrun
          cases hrun
          exact le_refl _
      | cons back rest =>
          cases newPageId with
          | none =>
              rw [unwindQueue, bind_of_ok (get_apply tree), hqueue] at hrun
              have hrest : (tree.queued rest).bp.nextPage ≤ tree'.bp.nextPage := ih hrun
              exact hrest
          | some newPageId =>
              rw [unwindQueue_some hqueue] at hrun
              cases hregister : registerNewPage cap back newPageId tree with
              | error failure mid =>
                  rw [hregister] at hrun
                  cases hrun
              | ok next mid =>
                  rw [hregister] at hrun
                  obtain ⟨_, _, _, _, _, hput⟩ := of_registerNewPage hregister
                  have hrest : (queued mid rest).bp.nextPage ≤ tree'.bp.nextPage := ih hrun
                  exact hput.next_le.trans hrest

/-- Registering a leaf at an inner node one short of being full takes a page from the counter. -/
theorem of_unwindQueue_full {rounds : Nat} {rest : List PageId}
    (hqueue : tree.frameQueue = id :: rest)
    (hfull : (tree.bp.pages id).currentSize + 1 = (tree.bp.pages id).maxSize)
    (hrun : unwindQueue cap (rounds + 1) (some newPageId) tree = .ok result tree') :
    ∃ mid, mid.bp.nextPage = tree.bp.nextPage + 1 ∧
      unwindQueue cap rounds (some tree.bp.nextPage) (queued mid rest) = .ok result tree' := by
  rw [unwindQueue_some hqueue] at hrun
  cases hregister : registerNewPage cap id newPageId tree with
  | error failure mid =>
      rw [hregister] at hrun
      cases hrun
  | ok next mid =>
      rw [hregister] at hrun
      obtain ⟨w, page', _, _, hregistered, hput⟩ := of_registerNewPage hregister
      obtain ⟨rfl, hnext⟩ := hput.of_full
        (hregistered.currentSize_eq.trans (hfull.trans hregistered.maxSize_eq.symm))
      exact ⟨mid, hnext, hrun⟩

/-- What is left over after the loop is promoted to a new root, for which a page is taken. -/
theorem of_registerInQueue {rounds : Nat} {newPageId : Option PageId} {returned : Bool}
    (hrun : registerInQueue cap rounds newPageId tree = .ok returned tree') :
    ∃ leftOver mid, unwindQueue cap rounds newPageId tree = .ok leftOver mid ∧
      mid.bp.nextPage ≤ tree'.bp.nextPage ∧
      (leftOver ≠ none → tree'.bp.nextPage = mid.bp.nextPage + 1) := by
  rw [registerInQueue] at hrun
  obtain ⟨leftOver, mid, hunwind, hrest⟩ := bind_eq_ok_iff.mp hrun
  refine ⟨leftOver, mid, hunwind, ?_⟩
  cases leftOver with
  | none =>
      cases hrest
      exact ⟨le_refl _, fun impossible => absurd rfl impossible⟩
  | some id =>
      dsimp only at hrest
      rw [bind_of_ok (get_apply mid)] at hrest
      obtain ⟨_, created, hcreate, hflush⟩ := bind_eq_ok_iff.mp hrest
      obtain ⟨nodes, _, rfl⟩ := of_createRootWithInnerNodes hcreate
      cases hflush
      exact ⟨Int.le_of_lt (Int.lt_succ _), fun _ => rfl⟩

/-- A descent that returns has inserted into the leaf it ends at. -/
theorem of_findPlaceLoop {fuel : Nat} {path : List PageId} {root leaf : PageId}
    (hqueue : tree.frameQueue = []) (hdescends : Descends tree.bp.pages key root path leaf)
    (hleaf : (tree.bp.pages leaf).type = .leafNode)
    (hrun : findPlaceLoop cap key value fuel root tree = .ok result tree') :
    insertIntoLeaf cap key value leaf
      (Node.ofBuffer ((tree.queued path.reverse).bp.pages leaf)) (tree.queued path.reverse) =
        .ok result tree' := by
  rcases Nat.lt_or_ge path.length fuel with hlt | hge
  · obtain ⟨extra, rfl⟩ : ∃ extra, fuel = path.length + (extra + 1) :=
      ⟨fuel - (path.length + 1), by omega⟩
    rw [findPlaceLoop_descends cap value hdescends, hqueue, List.append_nil] at hrun
    have hleaf' : ((tree.queued path.reverse).bp.pages leaf).type = .leafNode := hleaf
    exact (findPlaceLoop_leaf hleaf').symm.trans hrun
  · obtain ⟨stuck, hexhausted⟩ := findPlaceLoop_exhausted cap value hdescends hge
    cases hexhausted.symm.trans hrun

/-- An insertion has gone down to a leaf, and then up again if the leaf was not the root. -/
theorem of_insert {fuel : Nat} {path : List PageId} {leaf : PageId} {returned : Bool}
    (hroot : tree.rootPageId ≠ invalidPageId) (hqueue : tree.frameQueue = [])
    (hdescends : Descends tree.bp.pages key tree.rootPageId path leaf)
    (hleaf : (tree.bp.pages leaf).type = .leafNode)
    (hrun : insert cap fuel key value tree = .ok returned tree') :
    ∃ newPageId placed,
      insertIntoLeaf cap key value leaf
        (Node.ofBuffer ((tree.queued path.reverse).bp.pages leaf)) (tree.queued path.reverse) =
          .ok newPageId placed ∧
      ((path = [] ∧ ∃ id, newPageId = some id ∧
          createRootWithLeaves cap id placed = .ok () tree') ∨
        ((newPageId = none ∨ path ≠ []) ∧
          registerInQueue cap path.length newPageId placed = .ok returned tree')) := by
  rw [insert, bind_of_ok (get_apply tree), if_neg hroot] at hrun
  obtain ⟨newPageId, placed, hplace, hregister⟩ := bind_eq_ok_iff.mp hrun
  rw [findPlaceForNewKeyAndInsert_eq] at hplace
  have hinto := of_findPlaceLoop hqueue hdescends hleaf hplace
  refine ⟨newPageId, placed, hinto, ?_⟩
  obtain ⟨_, _, _, _, hput⟩ := of_insertIntoLeaf hinto
  have hplaced : placed.frameQueue = path.reverse := hput.frameQueue_eq
  have hlength : placed.frameQueue.length = path.length := by rw [hplaced, List.length_reverse]
  rw [bind_of_ok (get_apply placed)] at hregister
  cases newPageId with
  | none =>
      refine .inr ⟨.inl rfl, ?_⟩
      rw [← hlength]
      exact hregister
  | some id =>
      cases hframes : placed.frameQueue with
      | nil =>
          rw [hframes] at hregister
          obtain ⟨_, created, hcreate, hflush⟩ := bind_eq_ok_iff.mp hregister
          cases hflush
          refine .inl ⟨?_, id, rfl, hcreate⟩
          exact List.reverse_eq_nil_iff.mp (hplaced.symm.trans hframes)
      | cons back rest =>
          rw [hframes] at hregister hlength
          refine .inr ⟨.inr fun hnil => ?_, ?_⟩
          · rw [hnil] at hlength
            cases hlength
          · rw [← hlength]
            exact hregister

end Rounds

/-! ## Searches -/

section Searches

variable {tree tree' : IdealTree K V} {key : K} {out result : V} {fuel fuel' : Nat}

/-- The descent of a search does the same on every budget on which it returns. -/
theorem findLoop_of_le {id : PageId} (hle : fuel ≤ fuel')
    (hrun : findLoop key out fuel id tree = .ok result tree') :
    findLoop key out fuel' id tree = .ok result tree' := by
  induction fuel generalizing fuel' id tree with
  | zero => cases hrun
  | succ fuel ih =>
      obtain ⟨larger, rfl⟩ : ∃ larger, fuel' = larger + 1 := ⟨fuel' - 1, by omega⟩
      rw [findLoop, bind_of_ok (requestPage_apply tree id true),
        bind_of_ok (nodeOf_apply tree id)] at hrun ⊢
      by_cases hinner : (Node.ofBuffer (tree.bp.pages id)).type = .innerNode
      · rw [if_pos hinner] at hrun ⊢
        obtain ⟨child, mid, hread, hrest⟩ := bind_eq_ok_iff.mp hrun
        rw [bind_of_ok hread]
        exact ih (Nat.le_of_succ_le_succ hle) hrest
      · rw [if_neg hinner] at hrun ⊢
        exact hrun

theorem find_of_le (hle : fuel ≤ fuel') (hrun : find fuel key out tree = .ok result tree') :
    find fuel' key out tree = .ok result tree' := by
  rw [find, bind_of_ok (get_apply tree)] at hrun ⊢
  by_cases hroot : tree.rootPageId = invalidPageId
  · rw [if_pos hroot] at hrun
    cases hrun
  · rw [if_neg hroot] at hrun ⊢
    exact findLoop_of_le hle hrun

end Searches

end IdealTree

end HiveDb.BPlusTree
