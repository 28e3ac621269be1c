import HiveDb.BPlusTree.PoolStore

/-!
# The tree over the pool and the tree over the ideal store

Each member function of the tree does over the pool, when it returns, what it
does over the ideal store.  The pages a function still works on are pinned, and
each page it has changed has been marked dirty before.
-/

namespace HiveDb.BPlusTree

open HiveDb.Lib

variable {K V : Type}

/-- Two trees whose stores are related, with the pointers queued in the tree over the pool. -/
structure Mirrors (queue : List FramePointer) (R : PoolStore K V → IdealStore K V → Prop)
    (tree : PoolTree K V) (ideal : IdealTree K V) : Prop where
  stores : R tree.bp ideal.bp
  root_eq : ideal.rootPageId = tree.rootPageId
  queue_eq : tree.frameQueue = queue
  idealQueue_eq : ideal.frameQueue = queue.map FramePointer.page

namespace Mirrors

variable {queue live pins marked : List FramePointer} {dirty : FrameId → Prop}
variable {pointer : FramePointer} {α β : Type}
variable {R R' : PoolStore K V → IdealStore K V → Prop}

theorem weaken {tree : PoolTree K V} {ideal : IdealTree K V} (h : Mirrors queue R tree ideal)
    (hR : ∀ store ideal, R store ideal → R' store ideal) : Mirrors queue R' tree ideal :=
  ⟨hR _ _ h.stores, h.root_eq, h.queue_eq, h.idealQueue_eq⟩

/-- Operations of the stores do not touch the rest of the trees. -/
theorem onPoolRel {x : Prog (PoolStore K V) α} {y : Prog (IdealStore K V) β}
    {Post : α → β → PoolStore K V → IdealStore K V → Prop} (h : Simulates R x y Post) :
    Simulates (Mirrors queue R) (BPlusTree.onPool x) (BPlusTree.onPool y)
      fun a b tree ideal => Mirrors queue (Post a b) tree ideal := by
  intro tree ideal hmirrors a tree' hrun
  obtain ⟨store', hx, rfl⟩ := onPart_eq_ok_iff.mp hrun
  obtain ⟨b, ideal', hy, hpost⟩ := h _ _ hmirrors.stores a store' hx
  exact ⟨b, _, onPart_of_ok hy, hpost, hmirrors.root_eq, hmirrors.queue_eq,
    hmirrors.idealQueue_eq⟩

theorem onPool {x : Prog (PoolStore K V) α} {y : Prog (IdealStore K V) β} {image : α → β}
    {R' : α → PoolStore K V → IdealStore K V → Prop}
    (h : Simulates R x y fun a b store ideal => b = image a ∧ R' a store ideal) :
    Simulates (Mirrors queue R) (BPlusTree.onPool x) (BPlusTree.onPool y)
      fun a b tree ideal => b = image a ∧ Mirrors queue (R' a) tree ideal :=
  (onPoolRel h).conseq (fun _ _ h => h) fun _ _ _ _ h =>
    ⟨h.stores.1, h.weaken fun _ _ hstores => hstores.2⟩

/-! ## The rest of the tree object -/

theorem setRootPageId (id : PageId) :
    Simulates (Mirrors queue R)
      (modify fun tree => { tree with rootPageId := id } : Prog (PoolTree K V) Unit)
      (modify fun tree => { tree with rootPageId := id } : Prog (IdealTree K V) Unit)
      fun a b tree ideal => b = a ∧ Mirrors queue R tree ideal :=
  (Simulates.change fun _ _ h => ⟨h.stores, rfl, h.queue_eq, h.idealQueue_eq⟩).conseq
    (fun _ _ h => h) fun _ _ _ _ h => ⟨rfl, h⟩

theorem pushFrame (pointer : FramePointer) :
    Simulates (Mirrors queue R)
      (modify fun tree => { tree with frameQueue := pointer :: tree.frameQueue } :
        Prog (PoolTree K V) Unit)
      (modify fun tree => { tree with frameQueue := pointer.page :: tree.frameQueue } :
        Prog (IdealTree K V) Unit)
      fun a b tree ideal => b = a ∧ Mirrors (pointer :: queue) R tree ideal :=
  (Simulates.change fun _ _ h =>
      ⟨h.stores, h.root_eq, congrArg _ h.queue_eq, congrArg _ h.idealQueue_eq⟩).conseq
    (fun _ _ h => h) fun _ _ _ _ h => ⟨rfl, h⟩

/-! ## Requests -/

variable (pins marked dirty) in
theorem requestPage (hmarked : ∀ p ∈ marked, p ∈ pins) (id : PageId) :
    Simulates (Mirrors queue (Represented live pins marked dirty))
      (requestPage id : Prog (PoolTree K V) FramePointer)
      (BPlusTree.requestPage id : Prog (IdealTree K V) PageId)
      fun pointer page tree ideal => page = pointer.page ∧ pointer.page = id ∧
        Mirrors queue (Represented (pointer :: pins) (pointer :: pins) marked dirty) tree ideal :=
  (onPool (Represented.request hmarked id true)).conseq (fun _ _ h => h) fun _ _ _ _ h =>
    ⟨h.1, h.2.stores.1, h.2.weaken fun _ _ hstores => hstores.2⟩

theorem requestPageUnpinned (hmarked : ∀ p ∈ marked, p ∈ pins) (id : PageId) :
    Simulates (Mirrors queue (Represented live pins marked dirty))
      (BPlusTree.requestPage id false : Prog (PoolTree K V) FramePointer)
      (BPlusTree.requestPage id false : Prog (IdealTree K V) PageId)
      fun pointer page tree ideal => page = pointer.page ∧ pointer.page = id ∧
        Mirrors queue (Represented (pointer :: pins) pins marked dirty) tree ideal :=
  (onPool (Represented.request hmarked id false)).conseq (fun _ _ h => h) fun _ _ _ _ h =>
    ⟨h.1, h.2.stores.1, h.2.weaken fun _ _ hstores => hstores.2⟩

/-! ## Nodes -/

theorem nodeOf (hpointer : pointer ∈ live) :
    Simulates (Mirrors queue (Represented live pins marked dirty))
      (nodeOf pointer : Prog (PoolTree K V) (Node K V))
      (BPlusTree.nodeOf pointer.page : Prog (IdealTree K V) (Node K V))
      fun a b tree ideal => b = a ∧
        Mirrors queue (Represented live pins marked dirty) tree ideal := by
  refine .seqSame (onPool (Represented.getData hpointer)) fun page => ?_
  exact .ret fun _ _ h => ⟨rfl, h⟩

theorem readNode (hpointer : pointer ∈ live) (node : Node K V)
    (op : Node K V → Except Failure α) :
    Simulates (Mirrors queue (Represented live pins marked dirty))
      (readNode pointer node op : Prog (PoolTree K V) α)
      (BPlusTree.readNode pointer.page node op : Prog (IdealTree K V) α)
      fun a b tree ideal => b = a ∧
        Mirrors queue (Represented live pins marked dirty) tree ideal := by
  refine .seqSame (onPool (Represented.getData hpointer)) fun page => ?_
  exact .lift _

theorem onNode (hlive : pointer ∈ live) (hpointer : pointer ∈ marked) (node : Node K V)
    (op : Node K V → Except Failure (Node K V)) :
    Simulates (Mirrors queue (Represented live pins marked dirty))
      (onNode pointer node op : Prog (PoolTree K V) (Node K V))
      (BPlusTree.onNode pointer.page node op : Prog (IdealTree K V) (Node K V))
      fun a b tree ideal => b = a ∧
        Mirrors queue (Represented live pins marked dirty) tree ideal := by
  refine .seqSame (onPool (Represented.getData hlive)) fun page => ?_
  refine .seqSame (.lift _) fun node => ?_
  refine .seqSame (onPool (Represented.setData hpointer _)) fun _ => ?_
  exact .ret fun _ _ h => ⟨rfl, h⟩

theorem onNodes {other : FramePointer} (hlive : pointer ∈ live) (hpointer : pointer ∈ marked)
    (hotherLive : other ∈ live) (hother : other ∈ marked) (node otherNode : Node K V)
    (op : Node K V → Node K V → Bool → Except Failure (Node K V × Node K V)) :
    Simulates (Mirrors queue (Represented live pins marked dirty))
      (onNodes pointer other node otherNode op : Prog (PoolTree K V) (Node K V × Node K V))
      (BPlusTree.onNodes pointer.page other.page node otherNode op : Prog (IdealTree K V) _)
      fun a b tree ideal => b = a ∧
        Mirrors queue (Represented live pins marked dirty) tree ideal := by
  refine .seqSame (onPool (Represented.getData hlive)) fun page => ?_
  refine .seqSame (onPool (Represented.getData hotherLive)) fun otherPage => ?_
  refine .of_pre (fun _ _ h => h.stores.sameFrame_eq hlive hotherLive) fun hsame => ?_
  rw [hsame]
  refine .seqSame (.lift _) fun nodes => ?_
  refine .seqSame (onPool (Represented.setData hpointer _)) fun _ => ?_
  refine .seqSame (onPool (Represented.setData hother _)) fun _ => ?_
  exact .ret fun _ _ h => ⟨rfl, h⟩

/-- Keep the pins of a part of the pointers, and drop the marks. -/
theorem restrict {pins' : List FramePointer} {tree : PoolTree K V} {ideal : IdealTree K V}
    (h : Mirrors queue (Represented live pins marked dirty) tree ideal)
    (hlive : ∀ p ∈ pins', p ∈ live) (hcount : pins'.Subperm pins) :
    Mirrors queue (Represented pins' pins' [] dirty) tree ideal :=
  h.weaken fun _ _ hstores => hstores.weaken hlive (fun _ hp => hp) hcount
    (fun _ hp => nomatch hp) fun _ hdirty => hdirty

/-- Nothing is pinned any more and no pointer is used any more. -/
theorem forget {tree : PoolTree K V} {ideal : IdealTree K V}
    (h : Mirrors queue (Represented live pins marked dirty) tree ideal) :
    Mirrors queue (Represented [] [] [] dirty) tree ideal :=
  h.weaken fun _ _ hstores => hstores.weaken (fun _ hp => nomatch hp) (fun _ hp => nomatch hp)
    List.nil_subperm (fun _ hp => nomatch hp) fun _ hdirty => hdirty

/-! ## Searching -/

section Members

variable [Index K] [Value V]

theorem findLoop (key : K) (value : V) (fuel : Nat) (pageId : PageId) :
    Simulates (Mirrors queue (Represented [] [] [] dirty))
      (findLoop key value fuel pageId : Prog (PoolTree K V) V)
      (BPlusTree.findLoop key value fuel pageId : Prog (IdealTree K V) V)
      fun a b tree ideal => b = a ∧ Mirrors queue (Represented [] [] [] dirty) tree ideal := by
  induction fuel generalizing pageId with
  | zero => exact .fail _
  | succ fuel ih =>
      rw [BPlusTree.findLoop, BPlusTree.findLoop]
      refine .seq FramePointer.page (requestPage [] [] dirty (fun _ hp => hp) pageId) fun page => ?_
      refine .assume fun _ => ?_
      have hlive : page ∈ [page] := List.mem_singleton_self page
      refine .seqSame (nodeOf hlive) fun node => ?_
      by_cases hinner : node.type = .innerNode
      · rw [if_pos hinner, if_pos hinner]
        refine .seqSame (readNode hlive node _) fun nextPageId => ?_
        refine .seqSame (onPool Represented.decreasePinCount) fun _ => ?_
        exact (ih (Value.key nextPageId)).conseq (fun _ _ h => h.forget) fun _ _ _ _ h => h
      · rw [if_neg hinner, if_neg hinner]
        refine .seqSame (readNode hlive node _) fun idx => ?_
        cases idx with
        | none => exact .ret fun _ _ h => ⟨rfl, h.forget⟩
        | some idx =>
            refine .seqSame (readNode hlive node _) fun found => ?_
            refine .seqSame (onPool Represented.decreasePinCount) fun _ => ?_
            exact .ret fun _ _ h => ⟨rfl, h.forget⟩

/-- A search over the pool finds what a search over the ideal store finds. -/
theorem find (fuel : Nat) (key : K) (value : V) :
    Simulates (Mirrors queue (Represented [] [] [] dirty))
      (find fuel key value : Prog (PoolTree K V) V)
      (BPlusTree.find fuel key value : Prog (IdealTree K V) V)
      fun a b tree ideal => b = a ∧ Mirrors queue (Represented [] [] [] dirty) tree ideal := by
  rw [BPlusTree.find, BPlusTree.find]
  refine .inspect fun tree ideal h => ?_
  rw [h.root_eq]
  by_cases hroot : tree.rootPageId = invalidPageId
  · rw [if_pos hroot, if_pos hroot]
    exact .fail _
  · rw [if_neg hroot, if_neg hroot]
    exact findLoop key value fuel tree.rootPageId

/-! ## Inserting -/

/-- Where the descent of an insertion stands: the new page, if there is one, is pinned. -/
def Pending (queue pins : List FramePointer) (newPageId : Option PageId) (tree : PoolTree K V)
    (ideal : IdealTree K V) : Prop :=
  match newPageId with
  | none => Mirrors queue (Represented pins pins [] fun _ => True) tree ideal
  | some id => ∃ pointer, pointer.page = id ∧
      Mirrors queue (Represented (pointer :: pins) (pointer :: pins) [] fun _ => True) tree ideal

theorem insertIntoLeaf (cap : Nat) (key : K) (value : V) (node : Node K V) :
    Simulates (Mirrors queue (Represented (pointer :: pins) (pointer :: pins) [] fun _ => True))
      (insertIntoLeaf cap key value pointer node : Prog (PoolTree K V) (Option PageId))
      (BPlusTree.insertIntoLeaf cap key value pointer.page node : Prog (IdealTree K V) _)
      fun a b tree ideal => b = a ∧ Pending queue pins a tree ideal := by
  have hpointer : ∀ {more : List FramePointer}, pointer ∈ pointer :: more := List.mem_cons_self
  rw [BPlusTree.insertIntoLeaf, BPlusTree.insertIntoLeaf]
  refine .seqSame (onPool (Represented.setDirty hpointer trivial)) fun _ => ?_
  refine .seqSame (onNode hpointer hpointer node _) fun leafNode => ?_
  by_cases hsplit : leafNode.shouldSplit
  · rw [if_neg (not_not.mpr hsplit), if_neg (not_not.mpr hsplit)]
    refine .seqSame (onPool Represented.allocateNewPage) fun newPageId => ?_
    refine .seq FramePointer.page (requestPage (pointer :: pins) [pointer] _ ?_ newPageId)
      fun newPage => ?_
    · intro p hp
      rw [List.mem_singleton.mp hp]
      exact hpointer
    refine .assume fun hpage => ?_
    have hnewPage : newPage ∈ newPage :: pointer :: pins := List.mem_cons_self
    have hold : pointer ∈ newPage :: pointer :: pins := List.mem_cons_of_mem _ hpointer
    have hkept : (newPage :: pins).Sublist (newPage :: pointer :: pins) :=
      (List.sublist_cons_self pointer pins).cons_cons newPage
    refine .seqSame (onPool (Represented.setDirty hnewPage trivial)) fun _ => ?_
    refine .seqSame (nodeOf hnewPage) fun newLeafNode => ?_
    refine .seqSame (onNodes hold (List.mem_cons_of_mem _ hpointer) hnewPage List.mem_cons_self
      leafNode newLeafNode _) fun _ => ?_
    refine .ret fun tree ideal h => ⟨rfl, newPage, hpage, h.restrict ?_ ?_⟩
    · exact fun p hp => hkept.subset hp
    · exact hkept.subperm
  · rw [if_pos hsplit, if_pos hsplit]
    refine .ret fun tree ideal h => ⟨rfl, h.restrict ?_ ?_⟩
    · exact fun p hp => List.mem_cons_of_mem _ hp
    · exact (List.sublist_cons_self pointer pins).subperm

variable (queue) in
theorem findPlaceLoop (cap : Nat) (key : K) (value : V) (fuel : Nat) (pageId : PageId) :
    Simulates (Mirrors queue (Represented queue queue [] fun _ => True))
      (findPlaceLoop cap key value fuel pageId : Prog (PoolTree K V) (Option PageId))
      (BPlusTree.findPlaceLoop cap key value fuel pageId : Prog (IdealTree K V) _)
      fun a b tree ideal => b = a ∧ ∃ frames, Pending frames frames a tree ideal := by
  induction fuel generalizing pageId queue with
  | zero => exact .fail _
  | succ fuel ih =>
      rw [BPlusTree.findPlaceLoop, BPlusTree.findPlaceLoop]
      refine .seq FramePointer.page (requestPage queue [] _ (fun _ hp => nomatch hp) pageId)
        fun page => ?_
      refine .assume fun _ => ?_
      refine .seqSame (nodeOf List.mem_cons_self) fun node => ?_
      by_cases hinner : node.type = .innerNode
      · rw [if_pos hinner, if_pos hinner]
        refine .seqSame (readNode List.mem_cons_self node _) fun nextPageId => ?_
        exact .seqSame (pushFrame page) fun _ => ih (page :: queue) (Value.key nextPageId)
      · rw [if_neg hinner, if_neg hinner]
        exact (insertIntoLeaf cap key value node).conseq (fun _ _ h => h)
          fun _ _ _ _ h => ⟨h.1, queue, h.2⟩

theorem findPlaceForNewKeyAndInsert (cap fuel : Nat) (key : K) (value : V) :
    Simulates (Mirrors [] (Represented [] [] [] fun _ => False))
      (findPlaceForNewKeyAndInsert cap fuel key value : Prog (PoolTree K V) (Option PageId))
      (BPlusTree.findPlaceForNewKeyAndInsert cap fuel key value : Prog (IdealTree K V) _)
      fun a b tree ideal => b = a ∧ ∃ frames, Pending frames frames a tree ideal := by
  rw [BPlusTree.findPlaceForNewKeyAndInsert, BPlusTree.findPlaceForNewKeyAndInsert]
  refine .inspect fun tree ideal h => ?_
  rw [h.root_eq]
  refine (findPlaceLoop [] cap key value fuel tree.rootPageId).conseq ?_ fun _ _ _ _ h => h
  exact fun _ _ h => h.weaken fun _ _ hstores => hstores.weaken (fun _ hp => hp)
    (fun _ hp => hp) (List.Subperm.refl _) (fun _ hp => nomatch hp) fun _ hfalse => hfalse.elim

theorem createRootWithLeaves (cap : Nat) :
    Simulates (Mirrors [] (Represented [pointer] [pointer] [] fun _ => True))
      (createRootWithLeaves cap pointer.page : Prog (PoolTree K V) Unit)
      (BPlusTree.createRootWithLeaves cap pointer.page : Prog (IdealTree K V) Unit)
      fun a b tree ideal => b = a ∧
        Mirrors [] (Represented [] [] [] fun _ => True) tree ideal := by
  rw [BPlusTree.createRootWithLeaves, BPlusTree.createRootWithLeaves]
  refine .seqSame (onPool Represented.allocateNewPage) fun newRoot => ?_
  refine .seq FramePointer.page (requestPage [pointer] [] _ (fun _ hp => nomatch hp) newRoot)
    fun newRootFrame => ?_
  refine .assume fun _ => ?_
  refine .seqSame (onPool (Represented.setDirty List.mem_cons_self trivial)) fun _ => ?_
  refine .seqSame (nodeOf List.mem_cons_self) fun newRootNode => ?_
  refine .seq FramePointer.page (requestPage [newRootFrame, pointer] [newRootFrame] _ ?_
    pointer.page) fun newFrame => ?_
  · intro p hp
    rw [List.mem_singleton.mp hp]
    exact List.mem_cons_self
  refine .assume fun _ => ?_
  have hnewRoot : newRootFrame ∈ [newFrame, newRootFrame, pointer] :=
    List.mem_cons_of_mem _ List.mem_cons_self
  refine .seqSame (nodeOf List.mem_cons_self) fun newLeafNode => ?_
  refine .seqSame (readNode List.mem_cons_self newLeafNode _) fun firstKey => ?_
  refine .inspect fun tree ideal h => ?_
  rw [h.root_eq]
  refine .seqSame (onNode hnewRoot (List.mem_singleton_self _) _ _) fun _ => ?_
  exact (setRootPageId newRoot).conseq (fun _ _ h => h) fun _ _ _ _ h => ⟨h.1, h.2.forget⟩

omit [Index K] [Value V] in
theorem onNode_trivialInsertInnerNode_ne_ok (node node' : Node K V) (tree : PoolTree K V)
    {tree' : PoolTree K V} :
    ¬ BPlusTree.onNode pointer node trivialInsertInnerNode tree = .ok node' tree' := by
  intro hrun
  obtain ⟨page, mid, _, hrest⟩ := bind_eq_ok_iff.mp hrun
  obtain ⟨changed, mid', hfail, _⟩ := bind_eq_ok_iff.mp hrest
  rw [trivialInsertInnerNode_eq_error] at hfail
  cases hfail

omit [Index K] [Value V] in
theorem releaseSecond {other : FramePointer} :
    Simulates (Mirrors queue (Represented live (other :: pointer :: pins) marked dirty))
      (BPlusTree.onPool (PageStore.decreasePinCount pointer) : Prog (PoolTree K V) Unit)
      (BPlusTree.onPool (PageStore.decreasePinCount pointer.page) : Prog (IdealTree K V) Unit)
      fun a b tree ideal => b = a ∧
        Mirrors queue (Represented live (other :: pins) marked dirty) tree ideal := by
  refine (onPool Represented.decreasePinCount).conseq (fun tree ideal h => ?_)
    fun _ _ _ _ h => h
  refine h.weaken fun store ideal hstores => hstores.weaken (fun _ hp => hp) ?_ ?_ ?_
    fun _ hdirty => hdirty
  · intro p hp
    exact hstores.pins_live p ((List.Perm.swap _ _ _).mem_iff.mp hp)
  · exact (List.Perm.swap _ _ _).subperm
  · exact fun p hp => ⟨(hstores.marked_dirty p hp).1, hp⟩

/-- The promoted page was pinned when it was created, so that requesting it returns its frame. -/
theorem registerNewPage {newPage : FramePointer} (cap : Nat) :
    Simulates (Mirrors queue (Represented (newPage :: pointer :: pins) (newPage :: pointer :: pins)
        [] fun _ => True))
      (registerNewPage cap pointer newPage.page : Prog (PoolTree K V) (Option PageId))
      (BPlusTree.registerNewPage cap pointer.page newPage.page : Prog (IdealTree K V) _)
      fun a b tree ideal => b = a ∧ Pending queue pins a tree ideal := by
  have hpointer : pointer ∈ newPage :: pointer :: pins := by simp
  rw [BPlusTree.registerNewPage, BPlusTree.registerNewPage]
  refine .seqSame (onPool (Represented.setDirty hpointer trivial)) fun _ => ?_
  refine .seqSame (nodeOf hpointer) fun innerNode => ?_
  refine .seq FramePointer.page (requestPageUnpinned ?_ newPage.page) fun newNodeFrame => ?_
  · intro p hp
    rw [List.mem_singleton.mp hp]
    exact hpointer
  refine .assume fun hpage => ?_
  refine .of_pre (P := newNodeFrame = newPage) ?_ ?_
  · intro tree ideal h
    exact h.stores.eq_of_page_eq List.mem_cons_self (by simp) hpage
  rintro rfl
  have hpointer' := List.mem_cons_of_mem newNodeFrame hpointer
  refine .seqSame (nodeOf List.mem_cons_self) fun newNode => ?_
  by_cases hinner : newNode.type = .innerNode
  · rw [if_pos hinner, if_pos hinner]
    intro tree ideal _ a tree' hrun
    obtain ⟨_, _, hnode, _⟩ := bind_eq_ok_iff.mp hrun
    exact (onNode_trivialInsertInnerNode_ne_ok _ _ _ hnode).elim
  rw [if_neg hinner, if_neg hinner]
  refine .seqSame (onPool (Represented.getData List.mem_cons_self)) fun newLeafPage => ?_
  refine .seqSame (onNode hpointer' List.mem_cons_self innerNode _) fun innerNode => ?_
  dsimp only
  by_cases hsplit : innerNode.shouldSplit
  · rw [if_neg (not_not.mpr hsplit), if_neg (not_not.mpr hsplit)]
    refine .seqSame (onPool Represented.allocateNewPage) fun newPageId => ?_
    refine .seq FramePointer.page (requestPage _ [pointer] _ ?_ newPageId) fun newPage => ?_
    · intro p hp
      rw [List.mem_singleton.mp hp]
      exact hpointer
    refine .assume fun hpage => ?_
    have hnewPage : newPage ∈ newPage :: newNodeFrame :: pointer :: pins := List.mem_cons_self
    refine .seqSame (onPool (Represented.setDirty hnewPage trivial)) fun _ => ?_
    refine .seqSame (nodeOf hnewPage) fun newInnerNode => ?_
    refine .seqSame (onNodes (List.mem_cons_of_mem _ hpointer) (by simp) hnewPage
      List.mem_cons_self innerNode newInnerNode _) fun _ => ?_
    refine .seqSame releaseSecond fun _ => ?_
    refine .seqSame releaseSecond fun _ => ?_
    refine .ret fun tree ideal h => ⟨rfl, newPage, hpage, h.restrict ?_ (List.Subperm.refl _)⟩
    exact fun p hp => by
      rcases List.mem_cons.mp hp with rfl | hmem
      · exact hnewPage
      · simp [hmem]
  · rw [if_pos hsplit, if_pos hsplit]
    refine .seqSame (onPool Represented.decreasePinCount) fun _ => ?_
    refine .seqSame (onPool Represented.decreasePinCount) fun _ => ?_
    refine .ret fun tree ideal h => ⟨rfl, h.restrict ?_ (List.Subperm.refl _)⟩
    exact fun p hp => by simp [hp]

omit [Index K] [Value V] in
theorem Pending.frameQueues {newPageId : Option PageId} {tree : PoolTree K V}
    {ideal : IdealTree K V} (h : Pending queue pins newPageId tree ideal) :
    tree.frameQueue = queue ∧ ideal.frameQueue = queue.map FramePointer.page := by
  cases newPageId with
  | none => exact ⟨h.queue_eq, h.idealQueue_eq⟩
  | some id =>
      obtain ⟨_, _, hmirrors⟩ := h
      exact ⟨hmirrors.queue_eq, hmirrors.idealQueue_eq⟩

omit [Index K] [Value V] in
theorem Pending.setQueue {queue' : List FramePointer} (newPageId : Option PageId) :
    Simulates (Pending queue pins newPageId)
      (modify fun tree => { tree with frameQueue := queue' } : Prog (PoolTree K V) Unit)
      (modify fun tree => { tree with frameQueue := queue'.map FramePointer.page } :
        Prog (IdealTree K V) Unit)
      fun a b tree ideal => b = a ∧ Pending queue' pins newPageId tree ideal := by
  refine (Simulates.change fun tree ideal h => ?_).conseq (fun _ _ h => h)
    fun _ _ _ _ h => ⟨rfl, h⟩
  cases newPageId with
  | none => exact ⟨h.stores, h.root_eq, rfl, rfl⟩
  | some id =>
      obtain ⟨newPage, hpage, hmirrors⟩ := h
      exact ⟨newPage, hpage, hmirrors.stores, hmirrors.root_eq, rfl, rfl⟩

/-- The loop releases every queued frame. -/
theorem unwindQueue (cap : Nat) (queue : List FramePointer) (newPageId : Option PageId) :
    Simulates (Pending queue queue newPageId)
      (unwindQueue cap queue.length newPageId : Prog (PoolTree K V) (Option PageId))
      (BPlusTree.unwindQueue cap queue.length newPageId : Prog (IdealTree K V) _)
      fun a b tree ideal => b = a ∧ Pending [] [] a tree ideal := by
  induction queue generalizing newPageId with
  | nil => exact .ret fun _ _ h => ⟨rfl, h⟩
  | cons back rest ih =>
      rw [List.length_cons, BPlusTree.unwindQueue, BPlusTree.unwindQueue]
      refine .inspect fun tree ideal h => ?_
      rw [h.frameQueues.1, h.frameQueues.2, List.map_cons]
      dsimp only
      cases newPageId with
      | none =>
          refine .seqSame (onPool Represented.decreasePinCount) fun _ => ?_
          have hreleased : ∀ (tree : PoolTree K V) (ideal : IdealTree K V),
              Mirrors (back :: rest) (Represented (back :: rest) rest [] fun _ => True) tree ideal →
              Pending (back :: rest) rest none tree ideal :=
            fun _ _ h => h.restrict (fun _ hp => List.mem_cons_of_mem _ hp) (List.Subperm.refl _)
          refine .conseq ?_ hreleased fun _ _ _ _ h => h
          rw [pure_bind, pure_bind]
          exact .seqSame (Pending.setQueue none) fun _ => ih none
      | some id =>
          refine .ofExists fun newPage => .assume ?_
          rintro rfl
          refine .seqSame (registerNewPage cap) fun newPageId => ?_
          exact .seqSame (Pending.setQueue newPageId) fun _ => ih newPageId

theorem createRootWithInnerNodes (cap : Nat) (victimPageId rhsPageId : PageId) :
    Simulates (Mirrors [] (Represented [] [] [] fun _ => True))
      (createRootWithInnerNodes cap victimPageId rhsPageId : Prog (PoolTree K V) Unit)
      (BPlusTree.createRootWithInnerNodes cap victimPageId rhsPageId : Prog (IdealTree K V) Unit)
      fun a b tree ideal => b = a ∧
        Mirrors [] (Represented [] [] [] fun _ => True) tree ideal := by
  rw [BPlusTree.createRootWithInnerNodes, BPlusTree.createRootWithInnerNodes]
  refine .seq FramePointer.page (requestPage [] [] _ (fun _ hp => nomatch hp) victimPageId)
    fun victimFrame => ?_
  refine .assume fun _ => ?_
  refine .seqSame (onPool (Represented.setDirty List.mem_cons_self trivial)) fun _ => ?_
  refine .seqSame (nodeOf List.mem_cons_self) fun victim => ?_
  refine .seqSame (onPool Represented.allocateNewPage) fun newRoot => ?_
  refine .seq FramePointer.page (requestPage [victimFrame] [victimFrame] _ (fun _ hp => hp)
    newRoot) fun newRootFrame => ?_
  refine .assume fun _ => ?_
  have hvictim : victimFrame ∈ [newRootFrame, victimFrame] := by simp
  refine .seqSame (onPool (Represented.setDirty List.mem_cons_self trivial)) fun _ => ?_
  refine .seqSame (nodeOf List.mem_cons_self) fun newRootNode => ?_
  refine .seqSame (onNodes List.mem_cons_self List.mem_cons_self hvictim hvictim _ victim _)
    fun _ => ?_
  exact (setRootPageId newRoot).conseq (fun _ _ h => h) fun _ _ _ _ h => ⟨h.1, h.2.forget⟩

omit [Index K] [Value V] in
/-- The first insertion leaves no dirty frame behind: it flushes the only page it has written. -/
theorem insertFirst (cap : Nat) (key : K) (value : V) :
    Simulates (Mirrors [] (Represented [] [] [] fun _ => False))
      (insertFirst cap key value : Prog (PoolTree K V) Bool)
      (BPlusTree.insertFirst cap key value : Prog (IdealTree K V) Bool)
      fun _ _ tree ideal => Mirrors [] (Represented [] [] [] fun _ => False) tree ideal := by
  rw [BPlusTree.insertFirst, BPlusTree.insertFirst]
  refine .seqSame (onPool Represented.allocateNewPage) fun rootPageId => ?_
  refine .seqSame (setRootPageId rootPageId) fun _ => ?_
  refine .seq FramePointer.page (requestPageUnpinned (fun _ hp => hp) rootPageId)
    fun rootNodeFrame => ?_
  refine .assume ?_
  rintro rfl
  have hdirty : ∀ (tree : PoolTree K V) (ideal : IdealTree K V),
      Mirrors [] (Represented [rootNodeFrame] [] [] fun _ => False) tree ideal →
      Mirrors [] (Represented [rootNodeFrame] [] [] fun frame => frame = rootNodeFrame.slot)
        tree ideal :=
    fun _ _ h => h.weaken fun _ _ hstores => hstores.weaken (fun _ hp => hp)
      (fun _ hp => nomatch hp) (List.Subperm.refl _) (fun _ hp => nomatch hp)
      fun _ hfalse => hfalse.elim
  refine .conseq ?_ hdirty fun _ _ _ _ h => h
  refine .seqSame (onPool (Represented.setDirty List.mem_cons_self rfl)) fun _ => ?_
  refine .seqSame (nodeOf List.mem_cons_self) fun newNode => ?_
  refine .seqSame (onNode List.mem_cons_self List.mem_cons_self newNode _) fun _ => ?_
  exact onPoolRel (Represented.flushPage List.mem_cons_self)

/-- An insertion does what it does over the ideal store, and writes every page back. -/
theorem insert (cap fuel : Nat) (key : K) (value : V) :
    Simulates (Mirrors [] (Represented [] [] [] fun _ => False))
      (insert cap fuel key value : Prog (PoolTree K V) Bool)
      (BPlusTree.insert cap fuel key value : Prog (IdealTree K V) Bool)
      fun _ _ tree ideal => Mirrors [] (Represented [] [] [] fun _ => False) tree ideal := by
  rw [BPlusTree.insert, BPlusTree.insert]
  refine .inspect fun tree ideal h => ?_
  rw [h.root_eq]
  by_cases hroot : tree.rootPageId = invalidPageId
  · rw [if_pos hroot, if_pos hroot]
    exact insertFirst cap key value
  rw [if_neg hroot, if_neg hroot]
  refine .seqSame (findPlaceForNewKeyAndInsert cap fuel key value) fun newPageId =>
    .ofExists fun frames => ?_
  refine .inspect fun tree ideal h => ?_
  rw [h.frameQueues.1, h.frameQueues.2]
  have hunwind : ∀ newPageId, Simulates (Pending frames frames newPageId)
      (registerInQueue cap frames.length newPageId : Prog (PoolTree K V) Bool)
      (registerInQueue cap frames.length newPageId : Prog (IdealTree K V) Bool)
      fun _ _ tree ideal => Mirrors [] (Represented [] [] [] fun _ => False) tree ideal := by
    intro newPageId
    rw [registerInQueue, registerInQueue]
    refine .seqSame (unwindQueue cap frames newPageId) fun newPageId => ?_
    cases newPageId with
    | none => exact onPoolRel Represented.flushPages
    | some id =>
        refine .ofExists fun newPage => .assume fun _ => ?_
        refine .inspect fun tree ideal h => ?_
        rw [h.root_eq]
        refine .seqSame ((createRootWithInnerNodes cap tree.rootPageId id).conseq
          (fun _ _ h => h.forget) fun _ _ _ _ h => h) fun _ => ?_
        exact onPoolRel Represented.flushPages
  cases newPageId with
  | none =>
      cases frames with
      | nil => exact hunwind none
      | cons back rest =>
          dsimp only
          rw [List.length_map]
          exact hunwind none
  | some id =>
      cases frames with
      | nil =>
          refine .ofExists fun newPage => .assume ?_
          rintro rfl
          refine .seqSame (createRootWithLeaves cap) fun _ => ?_
          exact onPoolRel Represented.flushPages
      | cons back rest =>
          rw [List.map_cons]
          dsimp only
          rw [List.length_cons, List.length_cons, List.length_map]
          exact hunwind (some id)

/-! ## Logging -/

omit [Index K] in
theorem dumpLoop (fuel : Nat) (pageIds : List PageId) :
    Simulates (Mirrors queue (Represented [] [] [] dirty))
      (dumpLoop fuel pageIds : Prog (PoolTree K V) (List (NodeDump K V)))
      (BPlusTree.dumpLoop fuel pageIds : Prog (IdealTree K V) (List (NodeDump K V)))
      fun a b tree ideal => b = a ∧ Mirrors queue (Represented [] [] [] dirty) tree ideal := by
  induction fuel generalizing pageIds with
  | zero =>
      cases pageIds with
      | nil => exact .ret fun _ _ h => ⟨rfl, h⟩
      | cons front pageIds => exact .fail _
  | succ fuel ih =>
      cases pageIds with
      | nil => exact .ret fun _ _ h => ⟨rfl, h⟩
      | cons front pageIds =>
          rw [BPlusTree.dumpLoop, BPlusTree.dumpLoop]
          refine .seq FramePointer.page (requestPageUnpinned (fun _ hp => hp) front)
            fun currentPage => ?_
          refine .assume fun _ => ?_
          have hlive : currentPage ∈ [currentPage] := List.mem_singleton_self currentPage
          refine .seqSame (nodeOf hlive) fun node => ?_
          refine .seqSame (readNode hlive node _) fun dump => ?_
          by_cases hinner : node.type = .innerNode
          · rw [if_pos hinner, if_pos hinner]
            refine .seqSame (readNode hlive node _) fun children => ?_
            refine .seqSame ((ih _).conseq (fun _ _ h => h.forget) fun _ _ _ _ h => h)
              fun dumps => ?_
            exact .ret fun _ _ h => ⟨rfl, h⟩
          · rw [if_neg hinner, if_neg hinner, pure_bind, pure_bind]
            refine .seqSame ((ih _).conseq (fun _ _ h => h.forget) fun _ _ _ _ h => h)
              fun dumps => ?_
            exact .ret fun _ _ h => ⟨rfl, h⟩

omit [Index K] in
/-- The contents logged over the pool are those logged over the ideal store. -/
theorem dumpContents (fuel : Nat) :
    Simulates (Mirrors queue (Represented [] [] [] dirty))
      (dumpContents fuel : Prog (PoolTree K V) (List (NodeDump K V)))
      (BPlusTree.dumpContents fuel : Prog (IdealTree K V) (List (NodeDump K V)))
      fun a b tree ideal => b = a ∧ Mirrors queue (Represented [] [] [] dirty) tree ideal := by
  rw [BPlusTree.dumpContents, BPlusTree.dumpContents]
  refine .inspect fun tree ideal h => ?_
  rw [h.root_eq]
  exact dumpLoop fuel [tree.rootPageId]

end Members

end Mirrors

end HiveDb.BPlusTree
