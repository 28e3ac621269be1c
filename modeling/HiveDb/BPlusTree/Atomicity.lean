import HiveDb.BPlusTree.PageSizes
import HiveDb.BPlusTree.PinLeaks
import HiveDb.BPlusTree.Reading

/-!
# Insertions that find no frame

An insertion changes its leaf before it requests the pages it needs for a split,
and nothing undoes what it has done when a request throws.  It leaves no trace
only if the request that throws is its first one, for the root page.
-/

namespace HiveDb.BPlusTree

open HiveDb.Lib

variable {K V : Type}

/-! ## What a tree holds -/

/-- A page as the tree sees it: in its frame if it has one, else on the disk. -/
def PoolTree.page (tree : PoolTree K V) (id : PageId) : Page K V :=
  match tree.bp.pool.pageTable.find? id with
  | some frame => (tree.bp.pool.frames frame).data.getD (tree.bp.pool.disk.pages id)
  | none => tree.bp.pool.disk.pages id

section Places

variable [Value V]

/-- The pages reached from a root, each with the slots on the way to it, the last one first. -/
inductive NodeAt (pages : PageId → Page K V) (root : PageId) : List Nat → PageId → Prop where
  | root (valid : root ≠ invalidPageId) : NodeAt pages root [] root
  | child {path : List Nat} {id : PageId} {slot : Nat} (above : NodeAt pages root path id)
      (type_eq : (pages id).type = .innerNode) (lt : slot < (pages id).currentSize) :
      NodeAt pages root (slot :: path) (Value.key ((pages id).values slot))

/-- The leaf at the end of the path holds the pair in the slot. -/
def HoldsAt (pages : PageId → Page K V) (root : PageId) (key : K) (value : V)
    (place : List Nat × Nat) : Prop :=
  ∃ id, NodeAt pages root place.1 id ∧ (pages id).type = .leafNode ∧
    place.2 < (pages id).currentSize ∧ (pages id).keys place.2 = key ∧
    (pages id).values place.2 = value

/--
A failed call has left no trace: each pair is held as many times as before, every
leaf has room for an insertion, no frame is queued, and no page has more pins.
-/
structure Atomic (tree tree' : PoolTree K V) : Prop where
  pairs : ∀ key value,
    Nonempty ({place // HoldsAt tree.page tree.rootPageId key value place} ≃
      {place // HoldsAt tree'.page tree'.rootPageId key value place})
  room : ∀ {path id}, NodeAt tree'.page tree'.rootPageId path id →
    (tree'.page id).type = .leafNode → (tree'.page id).currentSize < (tree'.page id).maxSize
  frameQueue_eq : tree'.frameQueue = []
  pins : ∀ id, tree'.bp.pinsOn id ≤ tree.bp.pinsOn id

end Places

/-- The root page is not in the pool, and the pool can take no frame for it. -/
structure RootUnavailable (tree : PoolTree K V) : Prop where
  valid : tree.rootPageId ≠ invalidPageId
  absent : tree.bp.pool.pageTable.find? tree.rootPageId = none
  full : ¬ tree.bp.pool.CanTake

/-! ## Runs -/

/-- The public member functions. -/
inductive TreeOp (K V : Type) where
  | call (call : Call K V)
  | dumpContents

/--
A call that leaves the process running.  An insertion that throws does so where
the root is unavailable.
-/
inductive Step [Index K] [Value V] (cap : Nat) :
    PoolTree K V → TreeOp K V → PoolTree K V → Prop where
  | inserted {tree tree' : PoolTree K V} {fuel : Nat} {key : K} {value : V} {result : Bool}
      (returns : insert cap fuel key value tree = .ok result tree') :
      Step cap tree (.call (.insert key value)) tree'
  | refused {tree tree' : PoolTree K V} {fuel : Nat} {key : K} {value : V} {failure : Failure}
      (unavailable : RootUnavailable tree)
      (throws : insert cap fuel key value tree = .error failure tree')
      (exception : failure.isException = true) : Step cap tree (.call (.insert key value)) tree'
  | found {tree tree' : PoolTree K V} {fuel : Nat} {key : K} {out : V}
      (leaves : Leaves (find fuel key out) tree tree') : Step cap tree (.call (.find key out)) tree'
  | dumped {tree tree' : PoolTree K V} {fuel : Nat}
      (leaves : Leaves (dumpContents fuel) tree tree') : Step cap tree .dumpContents tree'

namespace Mirrors.Settled

variable {tree tree' : PoolTree K V} {ideal : IdealTree K V}

theorem page_eq (h : Settled tree ideal) : tree.page = ideal.bp.pages := by
  funext id
  rw [PoolTree.page]
  cases hfind : tree.bp.pool.pageTable.find? id with
  | none => exact h.stores.exposes.absent hfind
  | some frame =>
      have hdata : (tree.bp.pool.frames frame).data = some (ideal.bp.pages id) :=
        h.stores.exposes.mapped hfind
      show (tree.bp.pool.frames frame).data.getD (tree.bp.pool.disk.pages id) = _
      rw [hdata, Option.getD_some]

/-- Every pin there is between two calls is counted as one the next call does not own. -/
theorem holding (h : Settled tree ideal) : Holding tree.bp.pinsOn [] [] tree := by
  refine ⟨⟨h.stores.wellFormed, fun _ hp => (nomatch hp), fun {id frame} hmaps => ?_,
    fun id => ?_, fun {id} habsent => ?_⟩, h.queue_eq⟩
  · rw [PoolStore.pinsOn_of_maps hmaps, List.map_nil, List.count_nil]
    exact le_of_eq (Int.add_zero _)
  · cases hfind : tree.bp.pool.pageTable.find? id with
    | none =>
        rw [PoolStore.pinsOn, hfind]
    | some frame =>
        have hmaps : tree.bp.pool.Maps id frame := hfind
        rw [PoolStore.pinsOn_of_maps hmaps]
        exact h.stores.pins_le hfind
  · rw [PoolStore.pinsOn, habsent]

/-- A read of the tree leaves the relation. -/
theorem of_leaves {x : Prog (PoolTree K V) α} (h : Settled tree ideal)
    (hreads : OnlyReads ideal x) (hleaves : Leaves x tree tree') : Settled tree' ideal := by
  rcases hleaves with ⟨a, hreturns⟩ | ⟨failure, _, hthrows⟩
  · exact (hreads tree h).1 a tree' hreturns
  · exact (hreads tree h).2 failure tree' hthrows

/-- A request that throws leaves the relation. -/
theorem unserved {id : PageId} {shouldPin : Bool} {failure : Failure}
    {pool' : BufferPool (IdealDisk (Page K V)) (Page K V)} (h : Settled tree ideal)
    (hthrows : BufferPool.requestPage id shouldPin tree.bp.pool = .error failure pool') :
    Settled { tree with bp := { tree.bp with pool := pool' } } ideal :=
  ⟨h.stores.unserved hthrows, h.root_eq, h.queue_eq, h.idealQueue_eq⟩

/-- The root can be requested, or it is unavailable. -/
theorem served_or_unavailable (h : Settled tree ideal) (hvalid : tree.rootPageId ≠ invalidPageId)
    (hnonneg : 0 ≤ tree.rootPageId) : Served tree.rootPageId tree ∨ RootUnavailable tree := by
  have hserved : Served tree.rootPageId tree ↔ _ :=
    BufferPool.returns_iff h.stores.wellFormed hnonneg true
  by_cases habsent : tree.bp.pool.pageTable.find? tree.rootPageId = none
  · by_cases htake : tree.bp.pool.CanTake
    · exact .inl (hserved.mpr (.inr htake))
    · exact .inr ⟨hvalid, habsent, htake⟩
  · exact .inl (hserved.mpr (.inl habsent))

end Mirrors.Settled

theorem RootUnavailable.not_served {tree : PoolTree K V} (h : RootUnavailable tree)
    (hwf : tree.bp.pool.WellFormed) (hnonneg : 0 ≤ tree.rootPageId) :
    ¬ Served tree.rootPageId tree := by
  intro hserved
  rcases (BufferPool.returns_iff hwf hnonneg true).mp hserved with hfound | htake
  · exact hfound h.absent
  · exact h.full htake

/-! ## The first insertion -/

namespace PinsHeld

variable {base : PageId → Int} {pins : List FramePointer}

/-- A request throws no exception while there is an empty frame. -/
theorem requestFree (id : PageId) (shouldPin : Bool) :
    Ensures (fun store => store.pool.emptyFrames ≠ [] ∧ PinsHeld base pins store)
      (PageStore.requestPage id shouldPin : Prog (PoolStore K V) FramePointer)
      (fun page => PinsHeld base (if shouldPin then page :: pins else pins))
      fun failure _ => failure.isException = false := by
  rintro store ⟨hfree, h⟩
  rcases Int.lt_or_le id 0 with hnegative | hnonneg
  · have heval : BufferPool.requestPage id shouldPin store.pool = .error .assertion store.pool :=
      BufferPool.requestPage_of_negative hnegative
    constructor
    · intro page store' hrun
      obtain ⟨pool', hreturns, _⟩ := PoolStore.requestPage_eq_ok hrun
      cases heval.symm.trans hreturns
    · intro failure store' hrun
      obtain ⟨pool', hthrows, _⟩ := PoolStore.requestPage_eq_error hrun
      cases heval.symm.trans hthrows
      rfl
  · have hreturns := (BufferPool.returns_iff h.wellFormed hnonneg shouldPin).mpr (.inr (.inl hfree))
    constructor
    · intro page store' hrun
      exact ((requestPage pins id shouldPin store ⟨fun _ => hreturns, h⟩).1 page store' hrun).2
    · intro failure store' hrun
      obtain ⟨slot, pool', hok⟩ := hreturns
      obtain ⟨pool'', hthrows, _⟩ := PoolStore.requestPage_eq_error hrun
      cases hok.symm.trans hthrows

/-- Flushing one page may fail an assertion, but throws no exception. -/
theorem flushPage (id : PageId) :
    Ensures (PinsHeld base pins) (PageStore.flushPage id : Prog (PoolStore K V) Bool)
      (fun _ _ => True) fun failure _ => failure.isException = false := by
  intro store h
  refine ⟨fun _ _ _ => trivial, fun failure store' hrun => ?_⟩
  have hbuffer : PoolStore.onBuffer (BufferPool.flushPage id) store = .error failure store' := hrun
  obtain ⟨pool', hthrows, _⟩ := onPart_eq_error_iff.mp hbuffer
  cases hfind : store.pool.pageTable.find? id with
  | none => cases (BufferPool.flushPage_of_absent hfind _).symm.trans hthrows
  | some frame =>
      cases hdirty : (store.pool.frames frame).isDirty with
      | false =>
          cases (BufferPool.flushPage_of_clean h.wellFormed hfind hdirty _).symm.trans hthrows
          rfl
      | true =>
          obtain ⟨data, hdata⟩ := h.wellFormed.data_isSome hfind
          cases (BufferPool.flushPage_of_dirty h.wellFormed hfind hdirty hdata _).symm.trans hthrows

end PinsHeld

namespace Holding

variable {base : PageId → Int} {queue : List FramePointer}

/-- A program of a call without pins that throws no exception. -/
def Quiet (base : PageId → Int) (queue : List FramePointer) (x : Prog (PoolTree K V) α) : Prop :=
  Ensures (Holding base queue []) x (fun _ => Holding base queue [])
    fun failure _ => failure.isException = false

theorem quiet {x : Prog (PoolStore K V) α} (h : PinsHeld.Keeps base [] x) :
    Quiet base queue (BPlusTree.onPool x : Prog (PoolTree K V) α) :=
  (onPool h).conseq (fun _ h => ⟨h.held, h.queue_eq⟩) (fun _ _ h => ⟨h.1, h.2⟩) fun _ _ h => h.2

/-- `init_first_node` fails an assertion when a node cannot hold a pair. -/
theorem initFirstNode_not_exception [Index K] [Value V] {cap : Nat} {key : K} {value : V}
    {node : Node K V} {failure : Failure}
    (h : LeafNode.initFirstNode cap key value node = .error failure) :
    failure.isException = false := by
  have hzero : (0 : Int) = ((0 : Nat) : Int) := rfl
  rcases Nat.eq_zero_or_pos cap with hcap | hcap
  · have hslot : ¬ ((0 : Int) ≤ 0 ∧ (0 : Int) < cap) := by omega
    rw [LeafNode.initFirstNode, Node.setIndexes, Node.checkSlot, assertThat_of_not hslot] at h
    cases h
    rfl
  · unfold LeafNode.initFirstNode at h
    dsimp only at h
    rw [hzero, Node.setIndexes_of_lt (by exact hcap), ok_bind,
      Node.setRecords_of_lt (by exact hcap), ok_bind] at h
    cases h

theorem quiet_nodeOf {frame : FramePointer} :
    Quiet base queue (BPlusTree.nodeOf frame : Prog (PoolTree K V) (Node K V)) :=
  (quiet PinsHeld.getData).seq fun _ => .ret fun _ h => h

theorem quiet_onNode {frame : FramePointer} {node : Node K V}
    {op : Node K V → Except Failure (Node K V)}
    (hop : ∀ node failure, op node = .error failure → failure.isException = false) :
    Quiet base queue (BPlusTree.onNode frame node op : Prog (PoolTree K V) (Node K V)) := by
  refine (quiet PinsHeld.getData).seq fun page => ?_
  have hlift : Quiet base queue
      (Lib.liftPure (op { node with buffer := page }) : Prog (PoolTree K V) (Node K V)) :=
    .lift (fun _ _ h _ => h) fun failure _ _ hfails => hop _ failure hfails
  exact hlift.seq fun _ => (quiet (PinsHeld.setData _)).seq fun _ => .ret fun _ h => h

theorem insertFirst [Index K] [Value V] (cap : Nat) (key : K) (value : V) :
    Ensures (fun tree => tree.bp.pool.emptyFrames ≠ [] ∧ Holding base queue [] tree)
      (insertFirst cap key value : Prog (PoolTree K V) Bool) (fun _ _ => True)
      fun failure _ => failure.isException = false := by
  have hallocate : Ensures
      (fun store => store.pool.emptyFrames ≠ [] ∧ PinsHeld base [] store)
      (PageStore.allocateNewPage : Prog (PoolStore K V) PageId)
      (fun _ store => store.pool.emptyFrames ≠ [] ∧ PinsHeld base [] store)
      fun failure _ => failure.isException = false := by
    rintro store ⟨hfree, h⟩
    refine ⟨fun id store' hrun => ⟨?_, ?_⟩, fun failure store' hrun => ?_⟩
    · cases hrun
      exact hfree
    · exact (PinsHeld.allocateNewPage store h).1 id store' hrun
    · exact ((PinsHeld.allocateNewPage store h).2 failure store' hrun).2
  rw [BPlusTree.insertFirst]
  refine ((onPool hallocate).conseq (fun _ h => ⟨⟨h.1, h.2.held⟩, h.2.queue_eq⟩)
    (fun _ _ h => h) fun _ _ h => h).seq fun rootPageId => ?_
  have hrequest : Ensures
      (fun tree => (tree.bp.pool.emptyFrames ≠ [] ∧ PinsHeld base [] tree.bp) ∧
        tree.frameQueue = queue)
      (BPlusTree.requestPage rootPageId false : Prog (PoolTree K V) FramePointer)
      (fun _ => Holding base queue []) fun failure _ => failure.isException = false :=
    (onPool (PinsHeld.requestFree rootPageId false)).conseq (fun _ h => h)
      (fun _ _ h => ⟨h.1, h.2⟩) fun _ _ h => h
  refine .seq (.change fun _ h => h) fun _ => hrequest.seq fun frame => ?_
  refine (quiet PinsHeld.setDirty).seq fun _ => quiet_nodeOf.seq fun newNode => ?_
  refine (quiet_onNode fun _ _ => initFirstNode_not_exception).seq fun _ => ?_
  exact (onPool (PinsHeld.flushPage rootPageId)).conseq (fun _ h => ⟨h.held, h.queue_eq⟩)
    (fun _ _ _ => trivial) fun _ _ h => h

end Holding

section Insertions

variable [Index K] [Value V] {cap fuel : Nat} {key : K} {value : V}
variable {tree tree' : PoolTree K V} {ideal : IdealTree K V} {failure : Failure}

/-- An insertion that throws where the root is unavailable has only requested the root. -/
theorem RootUnavailable.insert_eq (h : RootUnavailable tree) (hwf : tree.bp.pool.WellFormed)
    (hnonneg : 0 ≤ tree.rootPageId)
    (hthrows : insert cap fuel key value tree = .error failure tree')
    (hexception : failure.isException = true) :
    ∃ pool', BufferPool.requestPage tree.rootPageId true tree.bp.pool = .error failure pool' ∧
      tree' = { tree with bp := { tree.bp with pool := pool' } } := by
  rw [insert, bind_of_ok (get_apply tree), if_neg h.valid] at hthrows
  cases fuel with
  | zero =>
      have hfind : findPlaceForNewKeyAndInsert cap 0 key value tree =
          .error .outOfFuel tree := rfl
      cases (bind_of_error hfind).symm.trans hthrows
      cases hexception
  | succ fuel =>
      cases hrequest : (requestPage tree.rootPageId : Prog (PoolTree K V) FramePointer) tree with
      | ok page mid =>
          have hpool : onPool (PageStore.requestPage tree.rootPageId true) tree =
              .ok page mid := hrequest
          obtain ⟨store', hstore, _⟩ := onPart_eq_ok_iff.mp hpool
          obtain ⟨pool', hreturns, _⟩ := PoolStore.requestPage_eq_ok hstore
          exact absurd ⟨page.slot, pool', hreturns⟩ (h.not_served hwf hnonneg)
      | error other mid =>
          obtain ⟨pool', hrefused, rfl⟩ := PoolTree.requestPage_eq_error hrequest
          have hloop : findPlaceLoop cap key value (fuel + 1) tree.rootPageId tree =
              .error other { tree with bp := { tree.bp with pool := pool' } } :=
            bind_of_error hrequest
          have hfind : findPlaceForNewKeyAndInsert cap (fuel + 1) key value tree =
              .error other { tree with bp := { tree.bp with pool := pool' } } := hloop
          cases (bind_of_error hfind).symm.trans hthrows
          exact ⟨pool', hrefused, rfl⟩

theorem find_of_invalid {out : V} (hinvalid : tree.rootPageId = invalidPageId) :
    find fuel key out tree = .error (.invalidArgument "root page doesn't exist!") tree := by
  rw [find, bind_of_ok (get_apply tree), if_pos hinvalid]
  rfl

omit [Index K] in
/-- Logging a tree without a root fails before it has changed anything. -/
theorem dumpContents_of_invalid (hinvalid : tree.rootPageId = invalidPageId) (fuel : Nat) :
    ∃ failure, dumpContents fuel tree = .error failure tree := by
  rw [dumpContents, bind_of_ok (get_apply tree), hinvalid]
  cases fuel with
  | zero => exact ⟨_, rfl⟩
  | succ fuel =>
      have hnegative : invalidPageId < 0 := by decide
      exact ⟨_, bind_of_error (PoolTree.requestPage_of_negative hnegative false)⟩

/-- What holds of a tree, and of the ideal tree it mirrors, between two calls of a run. -/
structure Rests (cap : Nat) (tree : PoolTree K V) (ideal : IdealTree K V) : Prop where
  settled : Mirrors.Settled tree ideal
  sized : Sized cap ideal
  free : tree.rootPageId = invalidPageId → tree.bp.pool.emptyFrames ≠ []

omit [Index K] in
/-- Every page reached from the root has been allocated. -/
theorem NodeAt.allocated {path : List Nat} {id : PageId} (hsized : Sized cap ideal)
    (h : NodeAt ideal.bp.pages ideal.rootPageId path id) : Allocated ideal.bp.nextPage id := by
  induction h with
  | root valid => exact hsized.root.resolve_left valid
  | child above type_eq lt ih =>
      cases hsized.page _ ih with
      | leaf htype => cases type_eq.symm.trans htype
      | inner _ _ _ children => exact children _ lt

namespace Rests

omit [Index K] in
theorem root_nonneg (h : Rests cap tree ideal) (hvalid : tree.rootPageId ≠ invalidPageId) :
    0 ≤ tree.rootPageId := by
  rw [← h.settled.root_eq] at hvalid ⊢
  exact (h.sized.root.resolve_left hvalid).1

/-- A refused insertion leaves the ideal tree, and the pins, as they are. -/
theorem refused (h : Rests cap tree ideal) (hunavailable : RootUnavailable tree)
    (hthrows : insert cap fuel key value tree = .error failure tree')
    (hexception : failure.isException = true) :
    Rests cap tree' ideal ∧ ∀ id, tree'.bp.pinsOn id = tree.bp.pinsOn id := by
  have hwf := h.settled.stores.wellFormed
  have hnonneg := h.root_nonneg hunavailable.valid
  obtain ⟨pool', hrefused, rfl⟩ :=
    hunavailable.insert_eq hwf hnonneg hthrows hexception
  obtain ⟨_, hrequest⟩ := BufferPool.request_of_throws hwf hrefused hexception
  obtain ⟨_, htable, hframes, _⟩ := hrequest.unchanged
  refine ⟨⟨h.settled.unserved hrefused, h.sized, fun hinvalid => ?_⟩, fun id => ?_⟩
  · exact absurd hinvalid hunavailable.valid
  · rw [PoolStore.pinsOn, PoolStore.pinsOn, htable, hframes]

omit [Index K] in
/-- Calls that only read keep what holds between two calls. -/
theorem reads {x : Prog (PoolTree K V) α} (h : Rests cap tree ideal)
    (hreads : Mirrors.OnlyReads ideal x) (hleaves : Leaves x tree tree')
    (hempty : tree.rootPageId = invalidPageId → tree' = tree) : Rests cap tree' ideal := by
  have hsettled := h.settled.of_leaves hreads hleaves
  refine ⟨hsettled, h.sized, fun hinvalid => ?_⟩
  have hbefore : tree.rootPageId = invalidPageId :=
    (h.settled.root_eq.symm.trans hsettled.root_eq).trans hinvalid
  rw [hempty hbefore]
  exact h.free hbefore

theorem step {op : TreeOp K V} (h : Rests cap tree ideal) (hstep : Step cap tree op tree') :
    ∃ ideal', Rests cap tree' ideal' := by
  cases hstep with
  | inserted returns =>
      obtain ⟨_, ideal', hideal, hsettled⟩ :=
        Mirrors.insert cap _ _ _ tree ideal h.settled _ tree' returns
      obtain ⟨hsized, hroot⟩ := h.sized.insert h.settled.idealQueue_eq hideal
      refine ⟨ideal', hsettled, hsized, fun hinvalid => ?_⟩
      rw [hsettled.root_eq, hinvalid] at hroot
      exact absurd hroot.1 (by decide)
  | refused unavailable throws exception =>
      exact ⟨ideal, (h.refused unavailable throws exception).1⟩
  | found leaves =>
      refine ⟨ideal, h.reads (Mirrors.find_onlyReads _ _ _) leaves fun hinvalid => ?_⟩
      exact (leaves.eq_of_error (find_of_invalid hinvalid)).1
  | dumped leaves =>
      refine ⟨ideal, h.reads (Mirrors.dumpContents_onlyReads _) leaves fun hinvalid => ?_⟩
      obtain ⟨failure, hfails⟩ := dumpContents_of_invalid hinvalid _
      exact (leaves.eq_of_error hfails).1

theorem of_run {pool : BufferPool (IdealDisk (Page K V)) (Page K V)} {maxFrames : FrameId}
    (hframes : 1 ≤ maxFrames) {disk : IdealDisk (Page K V)} {order : IterationOrder PageId FrameId}
    (hnew : BufferPool.new maxFrames disk order = .ok pool) {ops : List (TreeOp K V)}
    (hrun : Run (Step cap) (PoolTree.empty pool) ops tree) : ∃ ideal, Rests cap tree ideal := by
  refine hrun.invariant (fun _ tree => ∃ ideal, Rests cap tree ideal) ?_
    fun _ _ _ _ ⟨_, h⟩ hstep => h.step hstep
  refine ⟨IdealTree.empty disk.pages, Mirrors.settled_empty hnew, Sized.empty cap disk.pages,
    fun _ => ?_⟩
  obtain ⟨n, rfl, rfl⟩ := BufferPool.eq_initial_of_new hnew
  have hpos : 0 < n := Int.natCast_pos.mp hframes
  have hfirst : (0 : FrameId) ∈ slots n := List.mem_map.mpr ⟨0, List.mem_range.mpr hpos, rfl⟩
  exact List.ne_nil_of_mem hfirst

/-- The first insertion throws no exception. -/
theorem valid_of_throws (h : Rests cap tree ideal)
    (hthrows : insert cap fuel key value tree = .error failure tree')
    (hexception : failure.isException = true) : tree.rootPageId ≠ invalidPageId := by
  intro hinvalid
  rw [insert, bind_of_ok (get_apply tree), if_pos hinvalid] at hthrows
  have hquiet := (Holding.insertFirst cap key value tree
    ⟨h.free hinvalid, h.settled.holding⟩).2 failure tree' hthrows
  cases hquiet.symm.trans hexception

/-- An insertion that throws where the root can be requested has left a pin. -/
theorem unavailable_of_atomic (h : Rests cap tree ideal)
    (hthrows : insert cap fuel key value tree = .error failure tree')
    (hexception : failure.isException = true) (hatomic : Atomic tree tree') :
    RootUnavailable tree := by
  have hvalid := h.valid_of_throws hthrows hexception
  refine (h.settled.served_or_unavailable hvalid (h.root_nonneg hvalid)).resolve_left
    fun hserved => ?_
  obtain ⟨id, hleak⟩ := (Holding.insert cap fuel key value tree
    ⟨⟨hvalid, hserved⟩, h.settled.holding⟩).2 failure tree' hthrows hexception
  exact absurd hleak (Int.not_lt.mpr (hatomic.pins id))

omit [Index K] in
/-- The root of a tree whose leaves all have room shows that a node holds two pairs. -/
theorem two_le_of_room (h : Rests cap tree ideal) (hvalid : tree.rootPageId ≠ invalidPageId)
    (hroom : (tree.page tree.rootPageId).type = .leafNode →
      (tree.page tree.rootPageId).currentSize < (tree.page tree.rootPageId).maxSize) :
    2 ≤ cap := by
  rw [h.settled.page_eq, ← h.settled.root_eq] at hroom
  rw [← h.settled.root_eq] at hvalid
  cases h.sized.page _ (h.sized.root.resolve_left hvalid) with
  | leaf htype hmax hpos =>
      have hlt := hroom htype
      omega
  | inner _ _ htwo => exact htwo

omit [Index K] in
/-- A refused insertion leaves no trace. -/
theorem atomic (h : Rests cap tree ideal) (h' : Rests cap tree' ideal) (hcap : 2 ≤ cap)
    (hpins : ∀ id, tree'.bp.pinsOn id = tree.bp.pinsOn id) : Atomic tree tree' := by
  refine ⟨fun key value => ?_, ?_, h'.settled.queue_eq, fun id => le_of_eq (hpins id)⟩
  · rw [h.settled.page_eq, h'.settled.page_eq, ← h.settled.root_eq, ← h'.settled.root_eq]
    exact ⟨Equiv.refl _⟩
  · rw [h'.settled.page_eq, ← h'.settled.root_eq]
    intro path id hnode htype
    cases h.sized.page id (hnode.allocated h.sized) with
    | leaf _ hmax _ _ room =>
        rw [hmax]
        exact room hcap
    | inner hinner => cases htype.symm.trans hinner

end Rests

/--
An insertion that finds no frame leaves no trace exactly when a node can hold two
pairs and the root was unavailable.
-/
theorem insert_atomic_iff {pool : BufferPool (IdealDisk (Page K V)) (Page K V)}
    {maxFrames : FrameId} (hframes : 1 ≤ maxFrames) {disk : IdealDisk (Page K V)}
    {order : IterationOrder PageId FrameId}
    (hnew : BufferPool.new maxFrames disk order = .ok pool) {ops : List (TreeOp K V)}
    (hrun : Run (Step cap) (PoolTree.empty pool) ops tree)
    (hthrows : insert cap fuel key value tree = .error failure tree')
    (hfailure : BufferPool.NoFrame failure) :
    Atomic tree tree' ↔ 2 ≤ cap ∧ RootUnavailable tree := by
  obtain ⟨ideal, h⟩ := Rests.of_run hframes hnew hrun
  have hexception : failure.isException = true := by
    cases hfailure <;> rfl
  constructor
  · intro hatomic
    have hunavailable := h.unavailable_of_atomic hthrows hexception hatomic
    obtain ⟨h', _⟩ := h.refused hunavailable hthrows hexception
    have hvalid : tree'.rootPageId ≠ invalidPageId := by
      rw [← h'.settled.root_eq, h.settled.root_eq]
      exact hunavailable.valid
    exact ⟨h'.two_le_of_room hvalid (hatomic.room (.root hvalid)), hunavailable⟩
  · rintro ⟨hcap, hunavailable⟩
    obtain ⟨h', hpins⟩ := h.refused hunavailable hthrows hexception
    exact h.atomic h' hcap hpins

/-- Calls that return are steps. -/
theorem Step.of_runCall {call : Call K V} {result : Option V}
    (hrun : runCall cap fuel call tree = .ok result tree') :
    Step cap tree (.call call) tree' := by
  cases call with
  | insert key value =>
      obtain ⟨returned, mid, hinsert, hreturn⟩ := bind_eq_ok_iff.mp hrun
      cases hreturn
      exact .inserted hinsert
  | find key out =>
      obtain ⟨found, mid, hfind, hreturn⟩ := bind_eq_ok_iff.mp hrun
      cases hreturn
      exact .found (.inl ⟨found, hfind⟩)

theorem Step.run_of_runCalls {calls : List (Call K V)} {results : List (Option V)}
    (hrun : runCalls cap fuel calls tree = .ok results tree') :
    Run (Step cap) tree (calls.map .call) tree' := by
  induction calls generalizing tree results with
  | nil =>
      cases hrun
      exact .nil
  | cons call calls ih =>
      rw [runCalls] at hrun
      obtain ⟨result, mid, hcall, hrest⟩ := bind_eq_ok_iff.mp hrun
      obtain ⟨others, last, hcalls, hreturn⟩ := bind_eq_ok_iff.mp hrest
      cases hreturn
      exact .cons (.of_runCall hcall) (ih hcalls)

end Insertions

/-- Seven insertions, two of them of keys that have been inserted before. -/
def sevenInsertions : List (Call Int Int) :=
  [12, 20, 22, 4, 20, 4, 0].map fun key => .insert key (10 * key)

/-- A search that finds its key, and one that does not and leaves its leaf pinned. -/
def twoSearches : List (Call Int Int) := [.find 20 0, .find 21 0]

def grownTree : PoolTree Int Int :=
  stateOf (runCalls 4 3 sevenInsertions (PoolTree.empty (blankPool 3)))

def loggedTree : PoolTree Int Int := stateOf (dumpContents 4 grownTree)

def searchedTree : PoolTree Int Int := stateOf (runCalls 4 3 twoSearches loggedTree)

theorem searchedTree_run :
    Run (Step 4) (PoolTree.empty (blankPool 3))
      (sevenInsertions.map .call ++ .dumpContents :: twoSearches.map .call) searchedTree := by
  have hgrown : resultOf (runCalls 4 3 sevenInsertions (PoolTree.empty (blankPool 3))) =
      some (List.replicate 7 none) := by
    decide +kernel
  have hlogged : (resultOf (dumpContents 4 grownTree)).isSome = true := by
    decide +kernel
  have hsearched : resultOf (runCalls 4 3 twoSearches loggedTree) =
      some [some 200, some 0] := by
    decide +kernel
  obtain ⟨dumps, hdumps⟩ := Option.isSome_iff_exists.mp hlogged
  refine (Step.run_of_runCalls (eq_ok_of_resultOf hgrown)).append ?_
  refine .cons (.dumped (.inl ⟨dumps, eq_ok_of_resultOf hdumps⟩)) ?_
  exact Step.run_of_runCalls (eq_ok_of_resultOf hsearched)

/--
Over three frames an insertion is refused the root once a leaf has taken the
root's frame and has been left pinned.
-/
theorem refused_insertion_atomic :
    ∃ tree' : PoolTree Int Int,
      insert 4 3 30 300 searchedTree =
        .error (.runtimeError "VICTIM IS PINNED! maybe this a oom? needs more testing.") tree' ∧
      Atomic searchedTree tree' := by
  have hfails : failureOf (insert 4 3 30 300 searchedTree) =
      some (.runtimeError "VICTIM IS PINNED! maybe this a oom? needs more testing.") := by
    decide +kernel
  have hroot : searchedTree.rootPageId ≠ invalidPageId ∧ 0 ≤ searchedTree.rootPageId := by
    decide +kernel
  have hrequest : resultOf (BufferPool.requestPage searchedTree.rootPageId true
      searchedTree.bp.pool) = none := by
    decide +kernel
  have hthrows := eq_error_of_failureOf hfails
  obtain ⟨ideal, h⟩ := Rests.of_run (by decide) (blankPool_new 3) searchedTree_run
  have hunavailable : RootUnavailable searchedTree := by
    refine (h.settled.served_or_unavailable hroot.1 hroot.2).resolve_left ?_
    rintro ⟨slot, pool', hreturns⟩
    rw [hreturns] at hrequest
    cases hrequest
  exact ⟨_, hthrows, (insert_atomic_iff (by decide) (blankPool_new 3) searchedTree_run hthrows
    .victimPinned).mpr ⟨by decide, hunavailable⟩⟩

/--
Over one frame the insertion that splits the root throws after the full leaf has
been given its fifth pair, and leaves the leaf pinned.
-/
theorem fifth_insertion_not_atomic :
    ∃ tree tree' : PoolTree Int Int,
      Run (Step 5) (PoolTree.empty (blankPool 1)) (fourCalls.map .call) tree ∧
      insert 5 4 4 40 tree =
        .error (.runtimeError "VICTIM IS PINNED! maybe this a oom? needs more testing.") tree' ∧
      ¬ Atomic tree tree' := by
  have heval : resultOf (runCalls 5 4 fourCalls (PoolTree.empty (blankPool 1))) =
      some (List.replicate 4 none) := by
    decide +kernel
  have hfails : failureOf (insert 5 4 4 40
      (stateOf (runCalls 5 4 fourCalls (PoolTree.empty (blankPool 1))))) =
      some (.runtimeError "VICTIM IS PINNED! maybe this a oom? needs more testing.") := by
    decide +kernel
  have hpins : (stateOf (runCalls 5 4 fourCalls (PoolTree.empty (blankPool 1)))).bp.pinsOn 0 <
      (stateOf (insert 5 4 4 40
        (stateOf (runCalls 5 4 fourCalls (PoolTree.empty (blankPool 1)))))).bp.pinsOn 0 := by
    decide +kernel
  refine ⟨_, _, Step.run_of_runCalls (eq_ok_of_resultOf heval), eq_error_of_failureOf hfails,
    fun hatomic => ?_⟩
  exact absurd hpins (Int.not_lt.mpr (hatomic.pins 0))

end HiveDb.BPlusTree
