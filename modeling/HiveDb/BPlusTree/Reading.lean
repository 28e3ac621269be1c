import HiveDb.BPlusTree.Refinement

/-!
# Calls that only read the tree

Searching and logging change no page.  Over a pool they leave the ideal tree
that the tree mirrors between two calls as it is, also when they fail on their
way.
-/

namespace HiveDb.BPlusTree

open HiveDb.Lib

variable {K V : Type}

/-- A request that throws changes the state of the pool only. -/
theorem PoolTree.requestPage_eq_error {tree tree' : PoolTree K V} {id : PageId} {shouldPin : Bool}
    {failure : Failure} (h : requestPage id shouldPin tree = .error failure tree') :
    ∃ pool', BufferPool.requestPage id shouldPin tree.bp.pool = .error failure pool' ∧
      tree' = { tree with bp := { tree.bp with pool := pool' } } := by
  have hpool : onPool (PageStore.requestPage id shouldPin) tree = .error failure tree' := h
  obtain ⟨store', hstore, rfl⟩ := onPart_eq_error_iff.mp hpool
  obtain ⟨pool', hthrows, rfl⟩ := PoolStore.requestPage_eq_error hstore
  exact ⟨pool', hthrows, rfl⟩

/-- A page whose id is negative cannot be requested. -/
theorem PoolTree.requestPage_of_negative {tree : PoolTree K V} {id : PageId} (hid : id < 0)
    (shouldPin : Bool) : requestPage id shouldPin tree = .error .assertion tree := by
  have hbuffer : PoolStore.onBuffer (BufferPool.requestPage id shouldPin) tree.bp =
      .error .assertion tree.bp :=
    onPart_eq_error_iff.mpr ⟨_, BufferPool.requestPage_of_negative hid, rfl⟩
  have hstore : PoolStore.requestPage id shouldPin tree.bp = .error .assertion tree.bp :=
    (bind_of_ok (get_apply tree.bp)).trans (bind_of_error hbuffer)
  have hpool : onPool (PageStore.requestPage id shouldPin) tree = .error .assertion tree :=
    onPart_eq_error_iff.mpr ⟨_, hstore, rfl⟩
  exact hpool

namespace Mirrors

variable {live pins : List FramePointer} {pointer : FramePointer} {ideal : IdealTree K V}

/-- The tree mirrors `ideal`, with pages pinned by a call that only reads. -/
abbrev Watched (live pins : List FramePointer) (tree : PoolTree K V) (ideal : IdealTree K V) :
    Prop :=
  Mirrors [] (Represented live pins [] fun _ => False) tree ideal

/-- A call that only reads: it leaves the ideal tree as it is, however it ends. -/
def OnlyReads (ideal : IdealTree K V) (x : Prog (PoolTree K V) α) : Prop :=
  Ensures (fun tree => Watched [] [] tree ideal) x (fun _ tree => Watched [] [] tree ideal)
    fun _ tree => Watched [] [] tree ideal

namespace Watched

variable (pins) in
theorem requestPage (id : PageId) (shouldPin : Bool) :
    Ensures (fun tree => Watched live pins tree ideal)
      (BPlusTree.requestPage id shouldPin : Prog (PoolTree K V) FramePointer)
      (fun page tree =>
        Watched (page :: pins) (if shouldPin then page :: pins else pins) tree ideal)
      fun _ tree => Watched [] [] tree ideal := by
  have hideal : (BPlusTree.requestPage id shouldPin : Prog (IdealTree K V) PageId) ideal =
      .ok id ideal := rfl
  have hmarked : ∀ p ∈ ([] : List FramePointer), p ∈ pins := fun _ hp => nomatch hp
  have hrequest : Simulates (Mirrors [] (Represented live pins [] fun _ => False))
      (BPlusTree.requestPage id shouldPin : Prog (PoolTree K V) FramePointer)
      (BPlusTree.requestPage id shouldPin : Prog (IdealTree K V) PageId)
      fun page id tree ideal => id = page.page ∧
        Watched (page :: pins) (if shouldPin then page :: pins else pins) tree ideal :=
    (onPool (Represented.request hmarked id shouldPin)).conseq (fun _ _ h => h)
      fun _ _ _ _ h => ⟨h.1, h.2.weaken fun _ _ hstores => hstores.2⟩
  refine (hrequest.ensures hideal ?_).conseq (fun _ h => h) (fun _ _ h => h.2) fun _ _ h => h
  intro tree failure tree' h hrun
  obtain ⟨pool', hthrows, rfl⟩ := PoolTree.requestPage_eq_error hrun
  have hstores := h.stores.unserved hthrows
  have hwatched : Mirrors [] (Represented live pins [] fun _ => False)
      { tree with bp := { tree.bp with pool := pool' } } ideal :=
    ⟨hstores, h.root_eq, h.queue_eq, h.idealQueue_eq⟩
  exact hwatched.forget

theorem nodeOf_eq {tree : PoolTree K V} (h : Watched live pins tree ideal)
    (hpointer : pointer ∈ live) : BPlusTree.nodeOf pointer tree =
      .ok (Node.ofBuffer (ideal.bp.pages pointer.page)) tree :=
  bind_of_ok (onPart_of_ok (h.stores.getData_eq hpointer))

theorem readNode_eq {tree : PoolTree K V} (h : Watched live pins tree ideal)
    (hpointer : pointer ∈ live) (node : Node K V) (op : Node K V → Except Failure α) :
    BPlusTree.readNode pointer node op tree =
      (liftPure (op { node with buffer := ideal.bp.pages pointer.page }) :
        Prog (PoolTree K V) α) tree :=
  bind_of_ok (onPart_of_ok (h.stores.getData_eq hpointer))

/-- Reading through a valid pointer does not fail. -/
theorem nodeOf (hpointer : pointer ∈ live) {Fail : Failure → PoolTree K V → Prop} :
    Ensures (fun tree => Watched live pins tree ideal)
      (BPlusTree.nodeOf pointer : Prog (PoolTree K V) (Node K V))
      (fun _ tree => Watched live pins tree ideal) Fail := by
  intro tree h
  rw [nodeOf_eq h hpointer]
  exact Ensures.ret (fun _ h => h) tree h

theorem readNode (hpointer : pointer ∈ live) (node : Node K V)
    (op : Node K V → Except Failure α) :
    Ensures (fun tree => Watched live pins tree ideal)
      (BPlusTree.readNode pointer node op : Prog (PoolTree K V) α)
      (fun _ tree => Watched live pins tree ideal) fun _ tree => Watched [] [] tree ideal := by
  intro tree h
  rw [readNode_eq h hpointer]
  exact Ensures.lift (fun _ _ h _ => h) (fun _ _ h _ => h.forget) tree h

theorem decreasePinCount {Fail : Failure → PoolTree K V → Prop} :
    Ensures (fun tree => Watched live (pointer :: pins) tree ideal)
      (BPlusTree.onPool (PageStore.decreasePinCount pointer) : Prog (PoolTree K V) Unit)
      (fun _ tree => Watched live pins tree ideal) Fail := by
  have hideal : (BPlusTree.onPool (PageStore.decreasePinCount pointer.page) :
      Prog (IdealTree K V) Unit) ideal = .ok () ideal := rfl
  have hrelease :
      Simulates (Mirrors [] (Represented live (pointer :: pins) [] fun _ => False))
        (BPlusTree.onPool (PageStore.decreasePinCount pointer) : Prog (PoolTree K V) Unit)
        (BPlusTree.onPool (PageStore.decreasePinCount pointer.page) : Prog (IdealTree K V) Unit)
        fun a b tree ideal => b = a ∧ Watched live pins tree ideal :=
    onPool Represented.decreasePinCount
  refine (hrelease.ensures hideal ?_).conseq (fun _ h => h) (fun _ _ h => h.2) fun _ _ h => h
  intro tree failure tree' _ impossible
  cases impossible

end Watched

variable [Index K] [Value V]

theorem findLoop_onlyReads (key : K) (value : V) (fuel : Nat) (pageId : PageId) :
    OnlyReads ideal (BPlusTree.findLoop key value fuel pageId : Prog (PoolTree K V) V) := by
  induction fuel generalizing pageId with
  | zero => exact .fail fun _ h => h
  | succ fuel ih =>
      rw [BPlusTree.findLoop]
      refine (Watched.requestPage [] pageId true).seq fun page => ?_
      have hlive : page ∈ [page] := List.mem_singleton_self page
      refine (Watched.nodeOf hlive).seq fun node => ?_
      by_cases hinner : node.type = .innerNode
      · rw [if_pos hinner]
        refine (Watched.readNode hlive node _).seq fun nextPageId => ?_
        refine Watched.decreasePinCount.seq fun _ => ?_
        exact (ih (Value.key nextPageId)).conseq (fun _ h => h.forget) (fun _ _ h => h)
          fun _ _ h => h
      · rw [if_neg hinner]
        refine (Watched.readNode hlive node _).seq fun idx => ?_
        cases idx with
        | none => exact .ret fun _ h => h.forget
        | some idx =>
            refine (Watched.readNode hlive node _).seq fun found => ?_
            refine Watched.decreasePinCount.seq fun _ => ?_
            exact .ret fun _ h => h.forget

/-- A search leaves the pages as they are. -/
theorem find_onlyReads (fuel : Nat) (key : K) (value : V) :
    OnlyReads ideal (BPlusTree.find fuel key value : Prog (PoolTree K V) V) := by
  rw [BPlusTree.find]
  refine .inspect fun tree _ => ?_
  by_cases hroot : tree.rootPageId = invalidPageId
  · rw [if_pos hroot]
    exact .fail fun _ h => h
  · rw [if_neg hroot]
    exact findLoop_onlyReads key value fuel tree.rootPageId

omit [Index K] in
theorem dumpLoop_onlyReads (fuel : Nat) (pageIds : List PageId) :
    OnlyReads ideal
      (BPlusTree.dumpLoop fuel pageIds : Prog (PoolTree K V) (List (NodeDump K V))) := by
  induction fuel generalizing pageIds with
  | zero =>
      cases pageIds with
      | nil => exact .ret fun _ h => h
      | cons front pageIds => exact .fail fun _ h => h
  | succ fuel ih =>
      cases pageIds with
      | nil => exact .ret fun _ h => h
      | cons front pageIds =>
          rw [BPlusTree.dumpLoop]
          refine (Watched.requestPage [] front false).seq fun page => ?_
          have hlive : page ∈ [page] := List.mem_singleton_self page
          refine (Watched.nodeOf hlive).seq fun node => ?_
          refine (Watched.readNode hlive node _).seq fun dump => ?_
          by_cases hinner : node.type = .innerNode
          · rw [if_pos hinner]
            refine (Watched.readNode hlive node _).seq fun children => ?_
            refine ((ih _).conseq (fun _ h => h.forget) (fun _ _ h => h) fun _ _ h => h).seq
              fun dumps => ?_
            exact .ret fun _ h => h
          · rw [if_neg hinner, pure_bind]
            refine ((ih _).conseq (fun _ h => h.forget) (fun _ _ h => h) fun _ _ h => h).seq
              fun dumps => ?_
            exact .ret fun _ h => h

omit [Index K] in
theorem dumpContents_onlyReads (fuel : Nat) :
    OnlyReads ideal
      (BPlusTree.dumpContents fuel : Prog (PoolTree K V) (List (NodeDump K V))) := by
  rw [BPlusTree.dumpContents]
  exact .inspect fun tree _ => dumpLoop_onlyReads fuel [tree.rootPageId]

end Mirrors

end HiveDb.BPlusTree
