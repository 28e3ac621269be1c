import HiveDb.BPlusTree.Returned

/-!
# The sizes of pages

Every page that has been allocated is a leaf or an inner node of the tree's
capacity, no leaf is full, and the children of an inner node have been
allocated.  Insertions that return preserve this for all keys, repeated ones
too: nothing is said about the order of the keys.
-/

namespace HiveDb.BPlusTree

open HiveDb.Lib
open HiveDb.Lib.Slots

variable {K V : Type} [Value V]

/-- The page has been allocated by a store whose counter stands at `next`. -/
def Allocated (next id : PageId) : Prop := 0 ≤ id ∧ id < next

/-- A leaf that is not full, unless the capacity is 1, or an inner node over allocated pages. -/
inductive PageSized (cap : Nat) (next : PageId) (page : Page K V) : Prop where
  | leaf (type_eq : page.type = .leafNode) (maxSize_eq : page.maxSize = cap)
      (pos : 0 < page.currentSize) (le : page.currentSize ≤ cap)
      (room : 2 ≤ cap → page.currentSize < cap)
  | inner (type_eq : page.type = .innerNode) (maxSize_eq : page.maxSize = cap)
      (two_le : 2 ≤ cap)
      (children : ∀ i, i < page.currentSize → Allocated next (Value.key (page.values i)))

/-- A page queued by the descent: an inner node with a separator. -/
structure Queued (next : PageId) (page : Page K V) (id : PageId) : Prop where
  allocated : Allocated next id
  type_eq : page.type = .innerNode
  two_le : 2 ≤ page.currentSize

/-- The pages of a tree, its root and its queued frames. -/
structure Sized (cap : Nat) (tree : IdealTree K V) : Prop where
  next_nonneg : 0 ≤ tree.bp.nextPage
  page : ∀ id, Allocated tree.bp.nextPage id →
    PageSized cap tree.bp.nextPage (tree.bp.pages id)
  root : tree.rootPageId = invalidPageId ∨ Allocated tree.bp.nextPage tree.rootPageId
  queued : ∀ id ∈ tree.frameQueue, Queued tree.bp.nextPage (tree.bp.pages id) id

theorem Allocated.mono {next next' id : PageId} (h : Allocated next id) (hle : next ≤ next') :
    Allocated next' id :=
  ⟨h.1, h.2.trans_le hle⟩

/-- The page the counter stands at has not been allocated. -/
theorem Allocated.ne {next id : PageId} (h : Allocated next id) : id ≠ next := ne_of_lt h.2

theorem allocated_next {next : PageId} (h : 0 ≤ next) : Allocated (next + 1) next :=
  ⟨h, Int.lt_succ next⟩

theorem le_next (next : PageId) : next ≤ next + 1 := Int.le_of_lt (Int.lt_succ next)

theorem PageSized.mono {cap : Nat} {next next' : PageId} {page : Page K V}
    (h : PageSized cap next page) (hle : next ≤ next') : PageSized cap next' page := by
  cases h with
  | leaf type_eq maxSize_eq pos le room => exact .leaf type_eq maxSize_eq pos le room
  | inner type_eq maxSize_eq two_le children =>
      exact .inner type_eq maxSize_eq two_le fun i hi => (children i hi).mono hle

theorem PageSized.maxSize_eq {cap : Nat} {next : PageId} {page : Page K V}
    (h : PageSized cap next page) : page.maxSize = cap := by
  cases h with
  | leaf _ maxSize_eq => exact maxSize_eq
  | inner _ maxSize_eq => exact maxSize_eq

/-! ## Nodes -/

section Nodes

variable {cap : Nat} {next : PageId} {page page' newPage newPage' : Page K V}

/-- A leaf with a pair more is not full, or is to be split. -/
theorem PageSized.inserted {w : Nat} {key : K} {value : V} (h : PageSized cap next page)
    (hleaf : page.type = .leafNode) (hroom : page.currentSize < page.maxSize)
    (hinserted : LeafNode.Inserted page page' w key value)
    (hnotFull : page'.currentSize ≠ page'.maxSize) : PageSized cap next page' := by
  have hmax := hinserted.maxSize_eq.trans h.maxSize_eq
  have hsize := hinserted.currentSize_eq
  have hmaxBefore := h.maxSize_eq
  exact .leaf (hinserted.type_eq.trans hleaf) hmax (by omega) (by omega) fun _ => by omega

/-- The halves of a full leaf are not full. -/
theorem PageSized.leafCut {newPageId : PageId} (hcap : 2 ≤ cap) (hleaf : page.type = .leafNode)
    (hmax : page.maxSize = cap) (h : LeafNode.Split cap newPageId page newPage page' newPage') :
    PageSized cap next page' ∧ PageSized cap next newPage' := by
  have hsize := h.currentSize_eq
  have hnewSize := h.new_currentSize_eq
  constructor
  · exact .leaf (h.type_eq.trans hleaf) (h.maxSize_eq.trans hmax) (by omega) (by omega)
      fun _ => by omega
  · exact .leaf h.new_type_eq h.new_maxSize_eq (by omega) (by omega) fun _ => by omega

/-- The children of an inner node with a child more. -/
theorem PageSized.registered {w : Nat} {key : K} {newPageId : PageId} (h : PageSized cap next page)
    (hinner : page.type = .innerNode) (hnew : Allocated next newPageId)
    (hlt : w < page.currentSize)
    (hregistered : InnerNode.Registered page page' w key (Value.ofPageId newPageId)) :
    PageSized cap next page' := by
  cases h with
  | leaf type_eq => cases type_eq.symm.trans hinner
  | inner type_eq maxSize_eq two_le children =>
      refine .inner (hregistered.type_eq.trans type_eq) (hregistered.maxSize_eq.trans maxSize_eq)
        two_le fun i hi => ?_
      have hsize := hregistered.currentSize_eq
      rw [hregistered.values_eq i (by omega)]
      rcases Nat.lt_trichotomy i (w + 1) with hbefore | rfl | hbehind
      · rw [insertSlot_of_lt _ _ hbefore]
        exact children i (by omega)
      · rw [insertSlot_self, Value.key_ofPageId]
        exact hnew
      · obtain ⟨k, rfl⟩ : ∃ k, i = k + 1 := ⟨i - 1, by omega⟩
        rw [insertSlot_succ_of_le _ _ (by omega)]
        exact children k (by omega)

/-- The children of the two parts of a full inner node. -/
theorem PageSized.innerCut {newPageId : PageId} (h : PageSized cap next page)
    (hinner : page.type = .innerNode) (hfull : page.currentSize = cap)
    (hsplit : InnerNode.Split cap newPageId page page' newPage') :
    PageSized cap next page' ∧ PageSized cap next newPage' := by
  cases h with
  | leaf type_eq => cases type_eq.symm.trans hinner
  | inner type_eq maxSize_eq two_le children =>
      have hsize := hsplit.currentSize_eq
      have hnewSize := hsplit.new_currentSize_eq
      constructor
      · refine .inner (hsplit.type_eq.trans type_eq) (hsplit.maxSize_eq.trans maxSize_eq) two_le
          fun i hi => ?_
        rw [hsplit.values_eq i (by omega)]
        exact children i (by omega)
      · refine .inner hsplit.new_type_eq hsplit.new_maxSize_eq two_le fun i hi => ?_
        rw [hsplit.new_values_eq i (by omega)]
        exact children _ (by omega)

theorem PageSized.newRoot {key : K} {left right : PageId} (hcap : 2 ≤ cap)
    (h : IdealTree.NewRoot cap page key left right) (hleft : Allocated next left)
    (hright : Allocated next right) : PageSized cap next page := by
  refine .inner h.type_eq h.maxSize_eq hcap fun i hi => ?_
  have hsize := h.currentSize_eq
  rcases Nat.lt_or_ge i 1 with hfirst | hsecond
  · obtain rfl : i = 0 := by omega
    rw [h.left_eq]
    exact hleft
  · obtain rfl : i = 1 := by omega
    rw [h.right_eq]
    exact hright

/-- Promoting a key changes no child. -/
theorem PageSized.promoted (h : PageSized cap next page)
    (hpromoted : IdealTree.Promoted page page') : PageSized cap next page' := by
  have hsize := hpromoted.currentSize_eq
  cases h with
  | leaf type_eq maxSize_eq pos le room =>
      rw [← hsize] at pos le room
      exact .leaf (hpromoted.type_eq.trans type_eq) (hpromoted.maxSize_eq.trans maxSize_eq) pos le
        room
  | inner type_eq maxSize_eq two_le children =>
      refine .inner (hpromoted.type_eq.trans type_eq) (hpromoted.maxSize_eq.trans maxSize_eq)
        two_le ?_
      rw [hsize, hpromoted.values_eq]
      exact children

end Nodes

/-! ## Trees -/

namespace Sized

variable {cap : Nat} {tree tree' : IdealTree K V} {id : PageId}

/-- A tree that differs in pages of the right sizes, and has the same or fewer queued frames. -/
theorem step (h : Sized cap tree) (hnext : tree.bp.nextPage ≤ tree'.bp.nextPage)
    (hpages : ∀ id, Allocated tree'.bp.nextPage id →
      PageSized cap tree'.bp.nextPage (tree'.bp.pages id) ∨
        Allocated tree.bp.nextPage id ∧ tree'.bp.pages id = tree.bp.pages id)
    (hroot : tree'.rootPageId = invalidPageId ∨ Allocated tree'.bp.nextPage tree'.rootPageId)
    (hqueue : ∀ id ∈ tree'.frameQueue, id ∈ tree.frameQueue ∧
      (tree'.bp.pages id = tree.bp.pages id ∨
        (tree'.bp.pages id).type = .innerNode ∧ 2 ≤ (tree'.bp.pages id).currentSize)) :
    Sized cap tree' where
  next_nonneg := h.next_nonneg.trans hnext
  page id hid := by
    rcases hpages id hid with hsized | ⟨hbefore, heq⟩
    · exact hsized
    · rw [heq]
      exact (h.page id hbefore).mono hnext
  root := hroot
  queued id hid := by
    obtain ⟨hmem, hpage⟩ := hqueue id hid
    have hbefore := h.queued id hmem
    rcases hpage with heq | ⟨htype, htwo⟩
    · rw [heq]
      exact ⟨hbefore.allocated.mono hnext, hbefore.type_eq, hbefore.two_le⟩
    · exact ⟨hbefore.allocated.mono hnext, htype, htwo⟩

theorem put {page : Page K V} (h : Sized cap tree) (hpage : PageSized cap tree.bp.nextPage page)
    (hqueue : id ∈ tree.frameQueue → page.type = .innerNode ∧ 2 ≤ page.currentSize) :
    Sized cap (tree.put id page) := by
  refine h.step (le_refl _) (fun other hother => ?_) h.root fun other hother => ⟨hother, ?_⟩
  · by_cases heq : other = id
    · subst heq
      rw [IdealTree.put_pages_self]
      exact .inl hpage
    · exact .inr ⟨hother, IdealTree.put_pages_of_ne _ _ heq⟩
  · by_cases heq : other = id
    · subst heq
      rw [IdealTree.put_pages_self]
      exact .inr (hqueue hother)
    · exact .inl (IdealTree.put_pages_of_ne _ _ heq)

/-- Cutting one page in two, the second of which is new. -/
theorem cut {leftPage rightPage : Page K V} (h : Sized cap tree)
    (hcut : IdealTree.InnerCut tree tree' id leftPage rightPage)
    (hqueueEq : tree'.frameQueue = tree.frameQueue)
    (hleft : PageSized cap (tree.bp.nextPage + 1) leftPage)
    (hright : PageSized cap (tree.bp.nextPage + 1) rightPage)
    (hqueue : id ∈ tree.frameQueue → leftPage.type = .innerNode ∧ 2 ≤ leftPage.currentSize) :
    Sized cap tree' := by
  have hle : tree.bp.nextPage ≤ tree'.bp.nextPage := by
    rw [hcut.nextPage_eq]
    exact le_next _
  refine h.step hle (fun other hother => ?_) ?_ fun other hother => ?_
  · rw [hcut.nextPage_eq] at hother ⊢
    by_cases hid : other = id
    · rw [hid, hcut.left_eq]
      exact .inl hleft
    · by_cases hnew : other = tree.bp.nextPage
      · rw [hnew, hcut.right_eq]
        exact .inl hright
      · exact .inr ⟨⟨hother.1, lt_of_le_of_ne (Int.lt_add_one_iff.mp hother.2) hnew⟩,
          hcut.other_eq other hid hnew⟩
  · rw [hcut.root_eq]
    exact h.root.imp_right fun hroot => hroot.mono hle
  · rw [hqueueEq] at hother
    refine ⟨hother, ?_⟩
    by_cases hid : other = id
    · subst hid
      rw [hcut.left_eq]
      exact .inr (hqueue hother)
    · exact .inl (hcut.other_eq other hid (h.queued other hother).allocated.ne)

end Sized

/-! ## Insertions -/

section Insertions

variable [Index K] {cap fuel : Nat} {key : K} {value : V} {tree tree' : IdealTree K V} {id : PageId}

/-- A full page is cut into pages of the right sizes. -/
theorem Sized.insertIntoLeaf {result : Option PageId} (h : Sized cap tree)
    (hid : Allocated tree.bp.nextPage id) (hleaf : (tree.bp.pages id).type = .leafNode)
    (hrun : insertIntoLeaf cap key value id (Node.ofBuffer (tree.bp.pages id)) tree =
      .ok result tree') :
    Sized cap tree' ∧ tree'.rootPageId = tree.rootPageId ∧
      ∀ newPageId, result = some newPageId →
        2 ≤ cap ∧ Allocated tree'.bp.nextPage newPageId := by
  have hsized := h.page id hid
  have hnotQueued : id ∉ tree.frameQueue := fun hmem => by
    cases hleaf.symm.trans (h.queued id hmem).type_eq
  obtain ⟨w, page', hroom, hinserted, hput⟩ := IdealTree.of_insertIntoLeaf hrun
  cases hput with
  | put hnotFull =>
      refine ⟨h.put (hsized.inserted hleaf hroom hinserted hnotFull) fun hmem =>
        absurd hmem hnotQueued, rfl, ?_⟩
      intro newPageId impossible
      cases impossible
  | cut hsplit hcut =>
      have hmax : page'.maxSize = cap := hinserted.maxSize_eq.trans hsized.maxSize_eq
      have hfull : page'.currentSize = cap := hsplit.trans hmax
      have hcap : 2 ≤ cap := by
        have hsize := hinserted.currentSize_eq
        cases hsized with
        | leaf _ _ pos => omega
        | inner type_eq => cases hleaf.symm.trans type_eq
      obtain ⟨left, right, heval, hhalves⟩ := LeafNode.splitNode_spec tree.bp.nextPage
        ((tree.put id page').bp.pages tree.bp.nextPage) hcap hmax hfull
      rw [IdealTree.sameFrame_of_ne hid.ne] at hcut
      cases hcut.symm.trans heval
      have hlegal : PageSized cap (tree.bp.nextPage + 1) left ∧
          PageSized cap (tree.bp.nextPage + 1) right :=
        PageSized.leafCut hcap (hinserted.type_eq.trans hleaf) hmax hhalves
      refine ⟨h.cut (IdealTree.InnerCut.of_put tree id page' left right hid.ne.symm) rfl hlegal.1
        hlegal.2 fun hmem => absurd hmem hnotQueued, rfl, ?_⟩
      intro newPageId heq
      cases heq
      exact ⟨hcap, allocated_next h.next_nonneg⟩

/-- The descent queues inner nodes and ends at a leaf. -/
theorem Sized.findPlaceLoop {result : Option PageId} (h : Sized cap tree)
    (hid : Allocated tree.bp.nextPage id)
    (hrun : findPlaceLoop cap key value fuel id tree = .ok result tree') :
    Sized cap tree' ∧ tree'.rootPageId = tree.rootPageId ∧
      ∀ newPageId, result = some newPageId →
        2 ≤ cap ∧ Allocated tree'.bp.nextPage newPageId := by
  induction fuel generalizing tree id with
  | zero => cases hrun
  | succ fuel ih =>
      have hsized := h.page id hid
      cases htype : (tree.bp.pages id).type with
      | leafNode =>
          rw [IdealTree.findPlaceLoop_leaf htype] at hrun
          exact h.insertIntoLeaf hid htype hrun
      | innerNode =>
          rw [BPlusTree.findPlaceLoop, bind_of_ok (IdealTree.requestPage_apply tree id true),
            bind_of_ok (IdealTree.nodeOf_apply tree id), if_pos (by exact htype)] at hrun
          obtain ⟨child, mid, hread, hrest⟩ := bind_eq_ok_iff.mp hrun
          obtain ⟨hop, rfl⟩ := IdealTree.of_readNode hread
          obtain ⟨j, hfound, hchild⟩ := except_bind_eq_ok_iff.mp hop
          obtain ⟨hlt, htwo⟩ := InnerNode.lt_of_findIndex hfound
          obtain ⟨_, _, hvalue⟩ := except_bind_eq_ok_iff.mp hchild
          cases hvalue
          rw [bind_of_ok (modify_apply _ _)] at hrest
          have hnext : Allocated mid.bp.nextPage (Value.key ((mid.bp.pages id).values j)) := by
            cases hsized with
            | leaf type_eq => cases htype.symm.trans type_eq
            | inner _ _ _ children => exact children j hlt
          have hqueued : Sized cap (IdealTree.queued mid (id :: mid.frameQueue)) :=
            ⟨h.next_nonneg, h.page, h.root, fun other hother => by
              rcases List.mem_cons.mp hother with rfl | hmem
              · exact ⟨hid, htype, htwo⟩
              · exact h.queued other hmem⟩
          have hrest' := ih hqueued hnext hrest
          exact hrest'

/-- A round of the loop over the queued frames. -/
theorem Sized.registerNewPage {newPageId : PageId} {result : Option PageId} (h : Sized cap tree)
    (hid : id ∈ tree.frameQueue) (hnewPage : Allocated tree.bp.nextPage newPageId)
    (hrun : registerNewPage cap id newPageId tree = .ok result tree') :
    Sized cap tree' ∧ tree'.rootPageId = tree.rootPageId ∧ tree'.frameQueue = tree.frameQueue ∧
      tree.bp.nextPage ≤ tree'.bp.nextPage ∧
      ∀ newPageId, result = some newPageId → Allocated tree'.bp.nextPage newPageId := by
  have hqueued := h.queued id hid
  have hsized := h.page id hqueued.allocated
  obtain ⟨w, page', hroom, hlt, hregistered, hput⟩ := IdealTree.of_registerNewPage hrun
  have hinner : page'.type = .innerNode := hregistered.type_eq.trans hqueued.type_eq
  have hpage : PageSized cap tree.bp.nextPage page' :=
    hsized.registered hqueued.type_eq hnewPage hlt hregistered
  have htwo : 2 ≤ page'.currentSize := by
    rw [hregistered.currentSize_eq]
    exact Nat.le_succ_of_le hqueued.two_le
  cases hput with
  | put hnotFull =>
      refine ⟨h.put hpage fun _ => ⟨hinner, htwo⟩, rfl, rfl, le_refl _, ?_⟩
      intro other impossible
      cases impossible
  | cut hsplit hcut =>
      have hmax : page'.maxSize = cap := hpage.maxSize_eq
      have hfull : page'.currentSize = cap := hsplit.trans hmax
      have hcap : 3 ≤ cap := by
        have hsize := hregistered.currentSize_eq
        have htwo := hqueued.two_le
        omega
      obtain ⟨left, right, heval, hparts⟩ := InnerNode.splitNode_spec newPageId
        ((tree.put id page').bp.pages tree.bp.nextPage) hcap hmax hfull
      rw [IdealTree.sameFrame_of_ne hqueued.allocated.ne] at hcut
      cases hcut.symm.trans heval
      have hlegal := (hpage.mono (le_next _)).innerCut hinner hfull hparts
      refine ⟨h.cut (IdealTree.InnerCut.of_put tree id page' left right
        hqueued.allocated.ne.symm) rfl hlegal.1 hlegal.2 fun _ =>
          ⟨hparts.type_eq.trans hinner, ?_⟩, rfl, rfl, le_next _, ?_⟩
      · rw [hparts.currentSize_eq]
        omega
      · intro other heq
        cases heq
        exact allocated_next h.next_nonneg

omit [Index K] in
theorem Sized.popped {rest : List PageId} (h : Sized cap tree)
    (hqueue : tree.frameQueue = id :: rest) : Sized cap (IdealTree.queued tree rest) :=
  ⟨h.next_nonneg, h.page, h.root, fun other hother =>
    h.queued other (hqueue ▸ List.mem_cons_of_mem _ hother)⟩

theorem Sized.unwindQueue {rounds : Nat} {newPageId result : Option PageId} (h : Sized cap tree)
    (hnew : ∀ id, newPageId = some id → Allocated tree.bp.nextPage id)
    (hrounds : tree.frameQueue.length = rounds)
    (hrun : unwindQueue cap rounds newPageId tree = .ok result tree') :
    Sized cap tree' ∧ tree'.rootPageId = tree.rootPageId ∧ tree'.frameQueue = [] ∧
      ∀ id, result = some id → Allocated tree'.bp.nextPage id := by
  induction rounds generalizing tree newPageId with
  | zero =>
      cases hrun
      exact ⟨h, rfl, List.length_eq_zero_iff.mp hrounds, hnew⟩
  | succ rounds ih =>
      obtain ⟨back, rest, hqueue⟩ := List.exists_cons_of_length_eq_add_one hrounds
      have hlength : rest.length = rounds := by
        rw [hqueue, List.length_cons] at hrounds
        exact Nat.succ_inj.mp hrounds
      cases newPageId with
      | none =>
          rw [BPlusTree.unwindQueue, bind_of_ok (get_apply tree), hqueue] at hrun
          have hrest := ih (h.popped hqueue) hnew hlength hrun
          exact hrest
      | some newPageId =>
          rw [IdealTree.unwindQueue_some hqueue] at hrun
          cases hregister : BPlusTree.registerNewPage cap back newPageId tree with
          | error failure mid =>
              rw [hregister] at hrun
              cases hrun
          | ok next mid =>
              rw [hregister] at hrun
              have hmem : back ∈ tree.frameQueue := by
                rw [hqueue]
                exact List.mem_cons_self
              obtain ⟨hsized, hroot, hqueue', _, hnext⟩ :=
                h.registerNewPage hmem (hnew newPageId rfl) hregister
              obtain ⟨hsized', hroot', hempty, hresult⟩ :=
                ih (hsized.popped (hqueue'.trans hqueue)) hnext hlength hrun
              exact ⟨hsized', hroot'.trans hroot, hempty, hresult⟩

omit [Index K] in
/-- A new root over pages that have been allocated. -/
theorem Sized.newRoot {rootPage : Page K V} {key : K} {left right : PageId} (h : Sized cap tree)
    (hcap : 2 ≤ cap) (hpage : IdealTree.NewRoot cap rootPage key left right)
    (hleft : Allocated tree.bp.nextPage left) (hright : Allocated tree.bp.nextPage right) :
    Sized cap ((tree.allocated.put tree.bp.nextPage rootPage).rooted tree.bp.nextPage) := by
  refine h.step (le_next _) (fun id hid => ?_) (.inr (allocated_next h.next_nonneg))
    fun id hid => ⟨hid, .inl (IdealTree.put_pages_of_ne _ _ (h.queued id hid).allocated.ne)⟩
  by_cases hnew : id = tree.bp.nextPage
  · subst hnew
    refine .inl ?_
    show PageSized cap _ ((tree.allocated.put tree.bp.nextPage rootPage).bp.pages _)
    rw [IdealTree.put_pages_self]
    exact .newRoot hcap hpage (hleft.mono (le_next _)) (hright.mono (le_next _))
  · refine .inr ⟨⟨hid.1, lt_of_le_of_ne (Int.lt_add_one_iff.mp hid.2) hnew⟩, ?_⟩
    exact IdealTree.put_pages_of_ne _ _ hnew

theorem Sized.createRootWithLeaves {newPageId : PageId} {result : Unit} (h : Sized cap tree)
    (hcap : 2 ≤ cap) (hroot : Allocated tree.bp.nextPage tree.rootPageId)
    (hnew : Allocated tree.bp.nextPage newPageId)
    (hrun : createRootWithLeaves cap newPageId tree = .ok result tree') :
    Sized cap tree' ∧ Allocated tree'.bp.nextPage tree'.rootPageId := by
  obtain ⟨rootPage, heval, hpage⟩ := IdealTree.createRootWithLeaves_eq tree newPageId hcap
    (h.page newPageId hnew).maxSize_eq
  cases heval.symm.trans hrun
  exact ⟨h.newRoot hcap hpage hroot hnew, allocated_next h.next_nonneg⟩

theorem Sized.createRootWithInnerNodes {newPageId : PageId} {result : Unit} (h : Sized cap tree)
    (hcap : 2 ≤ cap) (hroot : Allocated tree.bp.nextPage tree.rootPageId)
    (hnew : Allocated tree.bp.nextPage newPageId) (hqueue : tree.frameQueue = [])
    (hrun : createRootWithInnerNodes cap tree.rootPageId newPageId tree = .ok result tree') :
    Sized cap tree' ∧ Allocated tree'.bp.nextPage tree'.rootPageId := by
  have hsized := h.page _ hroot
  have hslot : 0 < (tree.bp.pages tree.rootPageId).currentSize ∧
      (tree.bp.pages tree.rootPageId).currentSize ≤ cap := by
    obtain ⟨nodes, hpromote, _⟩ := IdealTree.of_createRootWithInnerNodes hrun
    obtain ⟨last, hlast, _⟩ := except_bind_eq_ok_iff.mp hpromote
    have hinside := Node.slot_of_indexes hlast
    have hmax : (tree.bp.pages tree.rootPageId).maxSize = cap := hsized.maxSize_eq
    change 0 ≤ ((tree.bp.pages tree.rootPageId).currentSize : Int) - 1 ∧
      ((tree.bp.pages tree.rootPageId).currentSize : Int) - 1 <
        (tree.bp.pages tree.rootPageId).maxSize at hinside
    omega
  obtain ⟨rootPage, page', heval, hpage, hpromoted⟩ := IdealTree.createRootWithInnerNodes_eq tree
    tree.rootPageId newPageId hcap hsized.maxSize_eq hslot.1 hslot.2 hroot.ne.symm
  cases heval.symm.trans hrun
  have hsizedRoot := h.newRoot hcap hpage hroot hnew
  have hlegal := (hsized.promoted hpromoted).mono (le_next _)
  refine ⟨hsizedRoot.put hlegal fun hmem => ?_, allocated_next h.next_nonneg⟩
  exact absurd hmem (hqueue ▸ List.not_mem_nil)

omit [Index K] in
theorem Sized.insertFirst {result : Bool} (h : Sized cap tree) (hqueue : tree.frameQueue = [])
    (hrun : insertFirst cap key value tree = .ok result tree') :
    Sized cap tree' ∧ Allocated tree'.bp.nextPage tree'.rootPageId := by
  have hcap : 0 < cap := by
    rw [BPlusTree.insertFirst, bind_of_ok (IdealTree.allocateNewPage_apply tree),
      bind_of_ok (modify_apply _ _), bind_of_ok (IdealTree.requestPage_apply _ _ false),
      bind_of_ok (IdealTree.setDirty_apply _ _), bind_of_ok (IdealTree.nodeOf_apply _ _)] at hrun
    obtain ⟨node, mid, hwrite, _⟩ := bind_eq_ok_iff.mp hrun
    obtain ⟨hinit, _⟩ := IdealTree.of_onNode hwrite
    obtain ⟨_, hset, _⟩ := except_bind_eq_ok_iff.mp hinit
    obtain ⟨_, hcheck, _⟩ := except_bind_eq_ok_iff.mp hset
    have hinside := of_assertThat hcheck
    exact Int.natCast_pos.mp hinside.2
  obtain ⟨page', heval, hfirst⟩ := IdealTree.insertFirst_eq tree hcap key value
  cases heval.symm.trans hrun
  refine ⟨h.step (le_next _) (fun id hid => ?_) (.inr (allocated_next h.next_nonneg))
    fun id hid => absurd hid (hqueue ▸ List.not_mem_nil), allocated_next h.next_nonneg⟩
  by_cases hnew : id = tree.bp.nextPage
  · subst hnew
    rw [IdealTree.put_pages_self]
    have hsize := hfirst.currentSize_eq
    exact .inl (.leaf hfirst.type_eq hfirst.maxSize_eq (by omega) (by omega) fun _ => by omega)
  · refine .inr ⟨⟨hid.1, lt_of_le_of_ne (Int.lt_add_one_iff.mp hid.2) hnew⟩, ?_⟩
    exact IdealTree.put_pages_of_ne _ _ hnew

/-- The end of an insertion: the queued frames are left, and a new root may be made. -/
theorem Sized.registerInQueue {frames : List PageId} {newPageId : Option PageId} {result : Bool}
    (h : Sized cap tree) (hframes : tree.frameQueue = frames)
    (hroot : Allocated tree.bp.nextPage tree.rootPageId)
    (hnew : ∀ id, newPageId = some id → 2 ≤ cap ∧ Allocated tree.bp.nextPage id)
    (hrun : registerInQueue cap frames.length newPageId tree = .ok result tree') :
    Sized cap tree' ∧ Allocated tree'.bp.nextPage tree'.rootPageId := by
  obtain ⟨newPageId', mid, hunwind, hrest⟩ := bind_eq_ok_iff.mp hrun
  obtain ⟨hsized, hrootEq, hqueue, hnew'⟩ := h.unwindQueue (fun id hid => (hnew id hid).2)
    (congrArg List.length hframes) hunwind
  have hroot' : Allocated mid.bp.nextPage mid.rootPageId := by
    rcases hsized.root with hinvalid | hallocated
    · rw [hrootEq] at hinvalid
      exact absurd (hinvalid ▸ hroot.1) (by decide)
    · exact hallocated
  cases newPageId' with
  | none =>
      cases hrest
      exact ⟨hsized, hroot'⟩
  | some id =>
      dsimp only at hrest
      rw [bind_of_ok (get_apply mid)] at hrest
      obtain ⟨_, created, hcreate, hflush⟩ := bind_eq_ok_iff.mp hrest
      cases hflush
      have hcap : 2 ≤ cap := by
        cases newPageId with
        | some id => exact (hnew id rfl).1
        | none =>
            have hnone : BPlusTree.unwindQueue cap tree.frameQueue.length none tree =
                .ok none (IdealTree.queued tree []) :=
              IdealTree.unwindQueue_none tree tree.frameQueue
            rw [hframes] at hnone
            cases hnone.symm.trans hunwind
      exact hsized.createRootWithInnerNodes hcap hroot' (hnew' id rfl) hqueue hcreate

/-- Insertions that return keep the sizes of the pages, and leave a tree with a root. -/
theorem Sized.insert {result : Bool} (h : Sized cap tree) (hqueue : tree.frameQueue = [])
    (hrun : insert cap fuel key value tree = .ok result tree') :
    Sized cap tree' ∧ Allocated tree'.bp.nextPage tree'.rootPageId := by
  rw [BPlusTree.insert, bind_of_ok (get_apply tree)] at hrun
  by_cases hinvalid : tree.rootPageId = invalidPageId
  · rw [if_pos hinvalid] at hrun
    exact h.insertFirst hqueue hrun
  rw [if_neg hinvalid] at hrun
  have hroot := h.root.resolve_left hinvalid
  obtain ⟨newPageId, placed, hplace, hrest⟩ := bind_eq_ok_iff.mp hrun
  rw [findPlaceForNewKeyAndInsert, bind_of_ok (get_apply tree)] at hplace
  obtain ⟨hsized, hrootEq, hnew⟩ := h.findPlaceLoop hroot hplace
  have hroot' : Allocated placed.bp.nextPage placed.rootPageId :=
    hsized.root.resolve_left (hrootEq ▸ hinvalid)
  rw [bind_of_ok (get_apply placed)] at hrest
  cases hpair : newPageId with
  | none =>
      rw [hpair] at hrest hnew
      exact hsized.registerInQueue rfl hroot' hnew hrest
  | some id =>
      rw [hpair] at hrest hnew
      cases hframes : placed.frameQueue with
      | nil =>
          rw [hframes] at hrest
          obtain ⟨_, created, hcreate, hflush⟩ := bind_eq_ok_iff.mp hrest
          cases hflush
          obtain ⟨hcap, hallocated⟩ := hnew id rfl
          exact hsized.createRootWithLeaves hcap hroot' hallocated hcreate
      | cons back rest =>
          rw [hframes] at hrest
          exact hsized.registerInQueue hframes hroot' hnew hrest

omit [Index K] in
theorem Sized.empty (cap : Nat) (pages : PageId → Page K V) : Sized cap (IdealTree.empty pages) :=
  ⟨le_refl _, fun _ hid => absurd (hid.1.trans_lt hid.2) (lt_irrefl _), .inl rfl,
    fun _ hid => nomatch hid⟩

end Insertions

end HiveDb.BPlusTree
