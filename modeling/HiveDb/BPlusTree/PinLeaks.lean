import HiveDb.BPlusTree.PoolTree

/-!
# Pins that a failing insertion leaves behind

From the moment the root has been pinned, some frame is pinned by the insertion
in progress until it ends: the frames on the path, then the leaf or the page
cut off last.  Nothing releases them when a call fails, so that every failure
from then on leaves a page with more pins than it had before.
-/

namespace HiveDb.BPlusTree

open HiveDb.Lib

variable {K V : Type}

/-- The pins on a page; a page that is not mapped has none. -/
def PoolStore.pinsOn (store : PoolStore K V) (id : PageId) : Int :=
  match store.pool.pageTable.find? id with
  | some frame => (store.pool.frames frame).pinCount
  | none => 0

theorem PoolStore.pinsOn_of_maps {store : PoolStore K V} {id : PageId} {frame : FrameId}
    (hmaps : store.pool.Maps id frame) : store.pinsOn id = (store.pool.frames frame).pinCount := by
  have hfind : store.pool.pageTable.find? id = some frame := hmaps
  rw [PoolStore.pinsOn, hfind]

/-- Some page has more pins than `base` gives it. -/
def Leaks (base : PageId → Int) (store : PoolStore K V) : Prop :=
  ∃ id, base id < store.pinsOn id

/--
Each page has the pins `base` gives it, and one more for each of the pointers
`pins` to it.
-/
structure PinsHeld (base : PageId → Int) (pins : List FramePointer) (store : PoolStore K V) :
    Prop where
  wellFormed : store.pool.WellFormed
  maps : ∀ p ∈ pins, store.pool.Maps p.page p.slot
  le : ∀ {id frame}, store.pool.Maps id frame →
    base id + ((pins.map FramePointer.slot).count frame : Int) ≤
      (store.pool.frames frame).pinCount
  nonneg : ∀ id, 0 ≤ base id
  absent : ∀ {id}, store.pool.pageTable.find? id = none → base id = 0

namespace PinsHeld

variable {base : PageId → Int} {pins : List FramePointer} {store : PoolStore K V}
variable {pointer : FramePointer} {id : PageId} {shouldPin : Bool}

/-- A pointer to a page that is pinned for it is a leak. -/
theorem leaks (h : PinsHeld base (pointer :: pins) store) : Leaks base store := by
  have hmaps := h.maps pointer List.mem_cons_self
  have hle := h.le hmaps
  have hcount : 0 < ((pointer :: pins).map FramePointer.slot).count pointer.slot :=
    FramePointer.count_pos List.mem_cons_self
  refine ⟨pointer.page, ?_⟩
  rw [PoolStore.pinsOn_of_maps hmaps]
  omega

/-- The pins are a collection: their order does not matter. -/
theorem perm {pins' : List FramePointer} (h : PinsHeld base pins store) (hperm : pins.Perm pins') :
    PinsHeld base pins' store where
  wellFormed := h.wellFormed
  maps p hp := h.maps p (hperm.mem_iff.mpr hp)
  le {id frame} hmaps := by
    rw [← (hperm.map FramePointer.slot).count_eq frame]
    exact h.le hmaps
  nonneg := h.nonneg
  absent := h.absent

theorem tail (h : PinsHeld base (pointer :: pins) store) : PinsHeld base pins store where
  wellFormed := h.wellFormed
  maps p hp := h.maps p (List.mem_cons_of_mem _ hp)
  le {id frame} hmaps := by
    have hle := h.le hmaps
    rw [List.map_cons, List.count_cons] at hle
    omega
  nonneg := h.nonneg
  absent := h.absent

/-- A store with the same frames under the same pages. -/
theorem of_frames {store' : PoolStore K V} (h : PinsHeld base pins store)
    (hwf : store'.pool.WellFormed) (htable : store'.pool.pageTable = store.pool.pageTable)
    (hframes : store'.pool.frames = store.pool.frames) : PinsHeld base pins store' where
  wellFormed := hwf
  maps p hp := by
    rw [BufferPool.Maps, htable]
    exact h.maps p hp
  le {id frame} hmaps := by
    rw [BufferPool.Maps, htable] at hmaps
    rw [hframes]
    exact h.le hmaps
  nonneg := h.nonneg
  absent habsent := h.absent (htable ▸ habsent)

/-- A pinned page is pinned in the pool. -/
theorem pinCount_pos (h : PinsHeld base pins store) (hp : pointer ∈ pins) :
    0 < (store.pool.frames pointer.slot).pinCount := by
  have hle := h.le (h.maps pointer hp)
  have hbase := h.nonneg pointer.page
  have hcount : 0 < (pins.map FramePointer.slot).count pointer.slot := FramePointer.count_pos hp
  omega

/-! ## Requests -/

/-- A request keeps the pins of every page, and adds its own. -/
theorem requested {slot : FrameId} {pool' : BufferPool (IdealDisk (Page K V)) (Page K V)}
    {store' : PoolStore K V} (h : PinsHeld base pins store) (hid : 0 ≤ id)
    (hrequest : BufferPool.Request store.pool id shouldPin (.ok slot pool'))
    (hpool : store'.pool = pool') (hpage : pointer.page = id) (hslot : pointer.slot = slot) :
    PinsHeld base (if shouldPin then pointer :: pins else pins) store' := by
  subst hpage hslot
  have hwf : pool'.WellFormed := hrequest.wellFormed h.wellFormed hid
  have hmapped : pool'.Maps pointer.page pointer.slot := hrequest.maps
  have hkept : ∀ p ∈ pins, pool'.Maps p.page p.slot := fun p hp =>
    hrequest.keeps_pinned (h.maps p hp) (h.pinCount_pos hp)
  subst hpool
  refine ⟨hwf, ?_, fun {other frame} hmaps => ?_, h.nonneg, fun {other} habsent => ?_⟩
  · intro p hp
    cases shouldPin with
    | false => exact hkept p hp
    | true =>
        rcases List.mem_cons.mp hp with rfl | hmem
        · exact hmapped
        · exact hkept p hmem
  · rw [FramePointer.count_pinnedIf, ← Int.add_assoc]
    rcases hrequest.pinCount_cases h.wellFormed hid hmaps with ⟨hbefore, hpin⟩ | ⟨habsent, hpin⟩
    · rw [hpin]
      exact Int.add_le_add_right (h.le hbefore) _
    · have hzero : (pins.map FramePointer.slot).count frame = 0 :=
        FramePointer.count_eq_zero fun p hp => hrequest.slot_ne_of_absent h.wellFormed hid habsent
          hmaps (h.maps p hp) (h.pinCount_pos hp)
      rw [hpin, hzero, h.absent habsent]
      exact le_of_eq (Int.zero_add _)
  · cases hfind : store.pool.pageTable.find? other with
    | none => exact h.absent hfind
    | some frame =>
        have hle := h.le hfind
        have hbase := h.nonneg other
        by_contra hne
        have hkept : store'.pool.Maps other frame :=
          hrequest.keeps_pinned hfind (by omega)
        cases habsent.symm.trans hkept

/-- A request that throws leaves the pins as they are. -/
theorem unserved {failure : Failure} {pool' : BufferPool (IdealDisk (Page K V)) (Page K V)}
    (h : PinsHeld base pins store)
    (hrun : BufferPool.requestPage id shouldPin store.pool = .error failure pool') :
    PinsHeld base pins { store with pool := pool' } := by
  rcases Int.lt_or_le id 0 with hnegative | hid
  · cases (BufferPool.requestPage_of_negative hnegative).symm.trans hrun
    exact h
  · have hrequest : BufferPool.Request store.pool id shouldPin (.error failure pool') :=
      hrun ▸ BufferPool.requestPage_spec h.wellFormed hid shouldPin
    obtain ⟨_, htable, hframes, _⟩ := hrequest.unchanged
    exact h.of_frames (hrequest.wellFormed h.wellFormed hid) htable hframes

variable (pins) in
theorem requestPage (id : PageId) (shouldPin : Bool) :
    Ensures
      (fun store => (pins = [] → ∃ slot pool',
        BufferPool.requestPage id shouldPin store.pool = .ok slot pool') ∧
        PinsHeld base pins store)
      (PageStore.requestPage id shouldPin : Prog (PoolStore K V) FramePointer)
      (fun pointer store => (pointer.page = id ∧ store.pool.Maps pointer.page pointer.slot) ∧
        PinsHeld base (if shouldPin then pointer :: pins else pins) store)
      fun _ store => Leaks base store := by
  rintro store ⟨hserved, h⟩
  constructor
  · intro pointer store' hrun
    obtain ⟨pool', hreturns, hpage, _, rfl⟩ := PoolStore.requestPage_eq_ok hrun
    obtain ⟨hid, hrequest⟩ := BufferPool.request_of_returns h.wellFormed hreturns
    have hmaps : pool'.Maps id pointer.slot := hrequest.maps
    exact ⟨⟨hpage, hpage ▸ hmaps⟩, h.requested hid hrequest rfl hpage rfl⟩
  · intro failure store' hrun
    obtain ⟨pool', hthrows, rfl⟩ := PoolStore.requestPage_eq_error hrun
    have hheld := h.unserved hthrows
    cases pins with
    | cons pointer pins => exact hheld.leaks
    | nil =>
        obtain ⟨slot, pool'', hreturns⟩ := hserved rfl
        cases hreturns.symm.trans hthrows

/-! ## Accesses through pointers -/

/-- A program that keeps the pins, however it ends, and throws no exception. -/
def Keeps (base : PageId → Int) (pins : List FramePointer) (x : Prog (PoolStore K V) α) : Prop :=
  Ensures (PinsHeld base pins) x (fun _ => PinsHeld base pins)
    fun failure store => PinsHeld base pins store ∧ failure.isException = false

theorem access : Keeps base pins (PoolStore.access pointer : Prog (PoolStore K V) Unit) :=
  .change fun _ h => h.of_frames h.wellFormed rfl rfl

theorem getData :
    Keeps base pins (PageStore.getData pointer : Prog (PoolStore K V) (Page K V)) := by
  show Ensures _ (PoolStore.access pointer >>= fun _ => get >>= fun store =>
    liftPure (BufferPool.frameData (store.pool.frames pointer.slot))) _ _
  refine access.seq fun _ => .inspect fun store _ => .lift (fun _ _ h _ => h) ?_
  intro failure _ h hfails
  refine ⟨h, ?_⟩
  cases hdata : (store.pool.frames pointer.slot).data with
  | none =>
      rw [BufferPool.frameData, hdata] at hfails
      cases hfails
      rfl
  | some data =>
      rw [BufferPool.frameData, hdata] at hfails
      cases hfails

/-- Changing one frame, but neither its number nor its pins, and not emptying it. -/
theorem changeFrame {change : FrameHeader (Page K V) → FrameHeader (Page K V)}
    (hid : ∀ frame, (change frame).frameId = frame.frameId)
    (hdata : ∀ frame, (∃ data, frame.data = some data) →
      ∃ data, (change frame).data = some data)
    (hpin : ∀ frame, (change frame).pinCount = frame.pinCount) :
    Keeps base pins (PoolStore.changeFrame pointer change) := by
  refine access.seq fun _ store h => ⟨fun _ store' hrun => ?_, fun _ _ impossible =>
    (nomatch impossible)⟩
  cases hrun
  refine ⟨h.wellFormed.setFrame (hid _) (hdata _), h.maps, fun {id frame} hmaps => ?_, h.nonneg,
    h.absent⟩
  have hle := h.le hmaps
  by_cases heq : frame = pointer.slot
  · rw [heq] at hle ⊢
    refine hle.trans (le_of_eq ?_)
    have hself := BufferPool.setFrame_frames_self store.pool pointer.slot
      (change (store.pool.frames pointer.slot))
    exact ((congrArg FrameHeader.pinCount hself).trans (hpin _)).symm
  · refine hle.trans (le_of_eq ?_)
    exact (congrArg FrameHeader.pinCount (BufferPool.setFrame_frames_ne _ heq _)).symm

theorem setDirty :
    Keeps base pins (PageStore.setDirty pointer : Prog (PoolStore K V) Unit) :=
  changeFrame (fun _ => rfl) (fun _ h => h) fun _ => rfl

theorem setData (page : Page K V) :
    Keeps base pins (PageStore.setData pointer page : Prog (PoolStore K V) Unit) :=
  changeFrame (fun _ => rfl) (fun _ _ => ⟨page, rfl⟩) fun _ => rfl

theorem allocateNewPage :
    Keeps base pins (PageStore.allocateNewPage : Prog (PoolStore K V) PageId) := by
  intro store h
  refine ⟨fun id store' hrun => ?_, fun _ _ impossible => (nomatch impossible)⟩
  cases hrun
  have hwf := h.wellFormed
  exact h.of_frames ⟨hwf.partition, hwf.frameId_eq, hwf.data_isSome, hwf.page_nonneg,
    hwf.replacer_size, hwf.replacer_k, hwf.tracked⟩ rfl rfl

/-- Releasing a pin through any pointer to the slot never fails. -/
theorem decreasePinCount {other : FramePointer} (hslot : other.slot = pointer.slot) :
    Ensures (PinsHeld base (pointer :: pins))
      (PageStore.decreasePinCount other : Prog (PoolStore K V) Unit)
      (fun _ => PinsHeld base pins) fun _ _ => False := by
  intro store h
  refine ⟨fun _ store' hrun => ?_, fun _ _ impossible => (nomatch impossible)⟩
  cases hrun
  refine ⟨h.wellFormed.setFrame rfl fun hdata => hdata,
    fun p hp => h.maps p (List.mem_cons_of_mem _ hp), fun {id frame} hmaps => ?_, h.nonneg,
    h.absent⟩
  have hle := h.le hmaps
  rw [List.map_cons, List.count_cons] at hle
  by_cases heq : frame = pointer.slot
  · have hframe : frame = other.slot := heq.trans hslot.symm
    rw [hframe] at hle ⊢
    rw [hslot, if_pos (beq_self_eq_true _)] at hle
    have hpin : ((store.pool.setFrame other.slot
        (store.pool.frames other.slot).decreasePinCount).frames other.slot).pinCount =
        (store.pool.frames other.slot).pinCount - 1 :=
      congrArg FrameHeader.pinCount (BufferPool.setFrame_frames_self _ _ _)
    refine le_trans ?_ (le_of_eq hpin.symm)
    rw [hslot]
    omega
  · have hne : frame ≠ other.slot := fun hframe => heq (hframe.trans hslot)
    refine le_trans ?_ (hle.trans (le_of_eq
      (congrArg FrameHeader.pinCount (BufferPool.setFrame_frames_ne _ hne _)).symm))
    omega

/-- Flushing all pages never fails. -/
theorem flushPages :
    Ensures (PinsHeld base pins) (PageStore.flushPages : Prog (PoolStore K V) Bool)
      (fun _ _ => True) fun _ _ => False := by
  intro store h
  obtain ⟨flag, pool', writes, heval, _⟩ := BufferPool.flushPages_spec h.wellFormed
  refine ⟨fun _ _ _ => trivial, fun failure store' hrun => ?_⟩
  cases (PoolStore.onBuffer_of_ok heval).symm.trans hrun

end PinsHeld

/-! ## The way back of an insertion -/

/--
A condition on the frames still queued and the page still to be registered that
each round of the loop over the queue keeps.
-/
structure KeptByRounds [Index K] [Value V] (cap : Nat)
    (P : List FramePointer → Option PageId → PoolTree K V → Prop)
    (Fail : Failure → PoolTree K V → Prop) : Prop where
  frameQueue : ∀ {queue newPageId tree}, P queue newPageId tree → tree.frameQueue = queue
  release : ∀ back rest, Ensures (P (back :: rest) none)
    (onPool (PageStore.decreasePinCount back) : Prog (PoolTree K V) Unit)
    (fun _ tree => P rest none { tree with frameQueue := rest }) Fail
  register : ∀ back rest id, Ensures (P (back :: rest) (some id))
    (registerNewPage cap back id : Prog (PoolTree K V) (Option PageId))
    (fun newPageId tree => P rest newPageId { tree with frameQueue := rest }) Fail

namespace KeptByRounds

variable [Index K] [Value V] {cap fuel : Nat} {key : K} {value : V}
variable {P : List FramePointer → Option PageId → PoolTree K V → Prop}
variable {Start Done : PoolTree K V → Prop} {Post : Bool → PoolTree K V → Prop}
variable {Fail : Failure → PoolTree K V → Prop}

theorem unwindQueue (h : KeptByRounds cap P Fail) (queue : List FramePointer)
    (newPageId : Option PageId) :
    Ensures (P queue newPageId)
      (unwindQueue cap queue.length newPageId : Prog (PoolTree K V) (Option PageId))
      (P []) Fail := by
  induction queue generalizing newPageId with
  | nil => exact .ret fun _ hP => hP
  | cons back rest ih =>
      rw [List.length_cons, BPlusTree.unwindQueue]
      refine .inspect fun tree hP => ?_
      rw [h.frameQueue hP]
      dsimp only
      cases newPageId with
      | none =>
          refine (h.release back rest).seq fun _ => ?_
          rw [pure_bind]
          exact .seq (.change fun _ hP => hP) fun _ => ih none
      | some id =>
          refine (h.register back rest id).seq fun newPageId => ?_
          exact .seq (.change fun _ hP => hP) fun _ => ih newPageId

/-- An insertion places the pair, registers what was cut off, and flushes. -/
theorem insert (h : KeptByRounds cap P Fail)
    (hfirst : ∀ tree, Start tree → tree.rootPageId = invalidPageId →
      Ensures Start (insertFirst cap key value : Prog (PoolTree K V) Bool) Post Fail)
    (hplace : Ensures Start
      (findPlaceForNewKeyAndInsert cap fuel key value : Prog (PoolTree K V) (Option PageId))
      (fun newPageId tree => ∃ queue, P queue newPageId tree) Fail)
    (hleaves : ∀ id, Ensures (P [] (some id))
      (createRootWithLeaves cap id : Prog (PoolTree K V) Unit) (fun _ => Done) Fail)
    (hinner : ∀ root id, Ensures (P [] (some id))
      (createRootWithInnerNodes cap root id : Prog (PoolTree K V) Unit) (fun _ => Done) Fail)
    (hdone : ∀ tree, P [] none tree → Done tree)
    (hflush : Ensures Done (onPool PageStore.flushPages : Prog (PoolTree K V) Bool) Post Fail) :
    Ensures Start (BPlusTree.insert cap fuel key value : Prog (PoolTree K V) Bool) Post Fail := by
  rw [BPlusTree.insert]
  refine .inspect fun tree hstart => ?_
  by_cases hroot : tree.rootPageId = invalidPageId
  · rw [if_pos hroot]
    exact hfirst tree hstart hroot
  rw [if_neg hroot]
  refine hplace.seq fun newPageId => .ofExists fun queue => .inspect fun tree hP => ?_
  rw [h.frameQueue hP]
  have hunwind : Ensures (P queue newPageId)
      (registerInQueue cap queue.length newPageId : Prog (PoolTree K V) Bool) Post Fail := by
    rw [registerInQueue]
    refine (h.unwindQueue queue newPageId).seq fun newPageId => ?_
    cases newPageId with
    | none => exact hflush.conseq hdone (fun _ _ hpost => hpost) fun _ _ hfail => hfail
    | some id => exact .inspect fun tree _ => (hinner tree.rootPageId id).seq fun _ => hflush
  cases newPageId with
  | none => exact hunwind
  | some id =>
      cases queue with
      | cons back rest => exact hunwind
      | nil => exact (hleaves id).seq fun _ => hflush

end KeptByRounds

/-! ## The member functions -/

/-- The pins of the insertion in progress, and its queued frames. -/
structure Holding (base : PageId → Int) (queue pins : List FramePointer) (tree : PoolTree K V) :
    Prop where
  held : PinsHeld base pins tree.bp
  queue_eq : tree.frameQueue = queue

/-- A call that has thrown an exception leaves a pin behind. -/
def Leaking (base : PageId → Int) (failure : Failure) (tree : PoolTree K V) : Prop :=
  failure.isException = true → Leaks base tree.bp

/-- The page can be requested. -/
def Served (id : PageId) (tree : PoolTree K V) : Prop :=
  ∃ slot pool', BufferPool.requestPage id true tree.bp.pool = .ok slot pool'

/-- A program that keeps the pins, of which there are some. -/
def Guarded (base : PageId → Int) (queue : List FramePointer) (pointer : FramePointer)
    (pins : List FramePointer) (x : Prog (PoolTree K V) α) : Prop :=
  Ensures (Holding base queue (pointer :: pins)) x
    (fun _ => Holding base queue (pointer :: pins)) (Leaking base)

namespace Holding

variable {base : PageId → Int} {queue pins : List FramePointer}
variable {pointer frame other : FramePointer}

theorem weaken {pins' : List FramePointer} {tree : PoolTree K V} (h : Holding base queue pins tree)
    (hpins : PinsHeld base pins tree.bp → PinsHeld base pins' tree.bp) :
    Holding base queue pins' tree :=
  ⟨hpins h.held, h.queue_eq⟩

theorem leaking {tree : PoolTree K V} (failure : Failure)
    (h : Holding base queue (pointer :: pins) tree) : Leaking base failure tree :=
  fun _ => h.held.leaks

/-- Operations of the pool do not touch the queue. -/
theorem onPool {x : Prog (PoolStore K V) α} {R : PoolStore K V → Prop}
    {R' : α → PoolStore K V → Prop} {F : Failure → PoolStore K V → Prop} (h : Ensures R x R' F) :
    Ensures (fun tree => R tree.bp ∧ tree.frameQueue = queue)
      (BPlusTree.onPool x : Prog (PoolTree K V) α)
      (fun a tree => R' a tree.bp ∧ tree.frameQueue = queue) fun e tree => F e tree.bp := by
  rintro tree ⟨hR, hqueue⟩
  have hx := h tree.bp hR
  constructor
  · intro a tree' hrun
    obtain ⟨store', hstore, rfl⟩ := onPart_eq_ok_iff.mp hrun
    exact ⟨hx.1 a store' hstore, hqueue⟩
  · intro e tree' hrun
    obtain ⟨store', hstore, rfl⟩ := onPart_eq_error_iff.mp hrun
    exact hx.2 e store' hstore

theorem keeps {x : Prog (PoolStore K V) α} (h : PinsHeld.Keeps base (pointer :: pins) x) :
    Guarded base queue pointer pins (BPlusTree.onPool x : Prog (PoolTree K V) α) :=
  (onPool h).conseq (fun _ h => ⟨h.held, h.queue_eq⟩) (fun _ _ h => ⟨h.1, h.2⟩)
    fun _ _ h _ => h.1.leaks

variable (pins) in
/-- A request, which may fail only when something is pinned. -/
theorem requestServed (id : PageId) :
    Ensures (fun tree => (pins = [] → Served id tree) ∧ Holding base queue pins tree)
      (requestPage id : Prog (PoolTree K V) FramePointer)
      (fun page tree => page.page = id ∧ Holding base queue (page :: pins) tree) (Leaking base) :=
  (onPool (PinsHeld.requestPage pins id true)).conseq
    (fun _ h => ⟨⟨h.1, h.2.held⟩, h.2.queue_eq⟩) (fun _ _ h => ⟨h.1.1.1, h.1.2, h.2⟩)
    fun _ _ h _ => h

theorem requestPage (id : PageId) :
    Ensures (Holding base queue (pointer :: pins))
      (requestPage id : Prog (PoolTree K V) FramePointer)
      (fun page tree => page.page = id ∧ Holding base queue (page :: pointer :: pins) tree)
      (Leaking base) :=
  (requestServed (pointer :: pins) id).conseq
    (fun _ h => ⟨fun impossible => (nomatch impossible), h⟩)
    (fun _ _ h => h) fun _ _ h => h

/-- A request that does not pin hands out the slot of the page, which a pointer may hold already. -/
theorem requestPageUnpinned (id : PageId) :
    Ensures (Holding base queue (pointer :: pins))
      (BPlusTree.requestPage id false : Prog (PoolTree K V) FramePointer)
      (fun page tree => (∀ p ∈ pointer :: pins, p.page = id → page.slot = p.slot) ∧
        Holding base queue (pointer :: pins) tree)
      (Leaking base) :=
  (onPool (PinsHeld.requestPage (pointer :: pins) id false)).conseq
    (fun _ h => ⟨⟨fun himpossible => (nomatch himpossible), h.held⟩, h.queue_eq⟩)
    (fun page tree h => ⟨fun p hp hpage => by
      have hmaps := h.1.1.2
      rw [h.1.1.1, ← hpage] at hmaps
      exact Option.some.inj (hmaps.symm.trans (h.1.2.maps p hp)), h.1.2, h.2⟩)
    fun _ _ h _ => h

theorem setDirty :
    Guarded base queue pointer pins
      (BPlusTree.onPool (PageStore.setDirty frame) : Prog (PoolTree K V) Unit) :=
  keeps PinsHeld.setDirty

theorem allocateNewPage :
    Guarded base queue pointer pins
      (BPlusTree.onPool PageStore.allocateNewPage : Prog (PoolTree K V) PageId) :=
  keeps PinsHeld.allocateNewPage

theorem getData :
    Guarded base queue pointer pins
      (BPlusTree.onPool (PageStore.getData frame) : Prog (PoolTree K V) (Page K V)) :=
  keeps PinsHeld.getData

theorem nodeOf :
    Guarded base queue pointer pins (nodeOf frame : Prog (PoolTree K V) (Node K V)) :=
  getData.seq fun _ => .ret fun _ h => h

theorem liftPure (x : Except Failure α) :
    Guarded base queue pointer pins (liftPure x : Prog (PoolTree K V) α) :=
  .lift (fun _ _ h _ => h) fun e _ h _ => h.leaking e

theorem readNode (node : Node K V) (op : Node K V → Except Failure α) :
    Guarded base queue pointer pins (readNode frame node op : Prog (PoolTree K V) α) :=
  getData.seq fun _ => liftPure _

theorem onNode (node : Node K V) (op : Node K V → Except Failure (Node K V)) :
    Guarded base queue pointer pins
      (onNode frame node op : Prog (PoolTree K V) (Node K V)) := by
  refine getData.seq fun page => (liftPure _).seq fun node => ?_
  exact (keeps (PinsHeld.setData _)).seq fun _ => .ret fun _ h => h

theorem onNodes (node otherNode : Node K V)
    (op : Node K V → Node K V → Bool → Except Failure (Node K V × Node K V)) :
    Guarded base queue pointer pins
      (onNodes frame other node otherNode op : Prog (PoolTree K V) (Node K V × Node K V)) := by
  refine getData.seq fun page => getData.seq fun otherPage => (liftPure _).seq fun nodes => ?_
  refine (keeps (PinsHeld.setData _)).seq fun _ => (keeps (PinsHeld.setData _)).seq fun _ => ?_
  exact .ret fun _ h => h

/-- Releasing a pin never fails. -/
theorem release {Fail : Failure → PoolTree K V → Prop} (hslot : other.slot = pointer.slot) :
    Ensures (Holding base queue (pointer :: pins))
      (BPlusTree.onPool (PageStore.decreasePinCount other) : Prog (PoolTree K V) Unit)
      (fun _ => Holding base queue pins) Fail :=
  (onPool (PinsHeld.decreasePinCount hslot)).conseq
    (fun _ h => ⟨h.held, h.queue_eq⟩) (fun _ _ h => ⟨h.1, h.2⟩) fun _ _ h => h.elim

theorem flushPages {Fail : Failure → PoolTree K V → Prop} :
    Ensures (Holding base queue pins)
      (BPlusTree.onPool PageStore.flushPages : Prog (PoolTree K V) Bool) (fun _ _ => True) Fail :=
  (onPool PinsHeld.flushPages).conseq
    (fun _ h => ⟨h.held, h.queue_eq⟩) (fun _ _ _ => trivial) fun _ _ h => h.elim

section Members

variable [Index K] [Value V]

/-- Where an insertion stands: the page cut off last, if there is one, is pinned. -/
def Pending (base : PageId → Int) (queue pins : List FramePointer) (newPageId : Option PageId)
    (tree : PoolTree K V) : Prop :=
  match newPageId with
  | none => Holding base queue pins tree
  | some id => ∃ page : FramePointer, page.page = id ∧ Holding base queue (page :: pins) tree

omit [Index K] [Value V] in
theorem Pending.frameQueue {newPageId : Option PageId} {tree : PoolTree K V}
    (h : Pending base queue pins newPageId tree) : tree.frameQueue = queue := by
  cases newPageId with
  | none => exact h.queue_eq
  | some id =>
      obtain ⟨_, _, hholding⟩ := h
      exact hholding.queue_eq

omit [Index K] [Value V] in
theorem Pending.setQueue {newPageId : Option PageId} {tree : PoolTree K V}
    {queue' : List FramePointer} (h : Pending base queue pins newPageId tree) :
    Pending base queue' pins newPageId { tree with frameQueue := queue' } := by
  cases newPageId with
  | none => exact ⟨h.held, rfl⟩
  | some id =>
      obtain ⟨page, hpage, hholding⟩ := h
      exact ⟨page, hpage, hholding.held, rfl⟩

theorem insertIntoLeaf (cap : Nat) (key : K) (value : V) (node : Node K V) :
    Ensures (Holding base queue (pointer :: pins))
      (insertIntoLeaf cap key value pointer node : Prog (PoolTree K V) (Option PageId))
      (Pending base queue pins) (Leaking base) := by
  rw [BPlusTree.insertIntoLeaf]
  refine setDirty.seq fun _ => (onNode node _).seq fun leafNode => ?_
  by_cases hsplit : leafNode.shouldSplit
  · rw [if_neg (not_not.mpr hsplit)]
    refine allocateNewPage.seq fun newPageId => (requestPage newPageId).seq fun newPage => ?_
    refine .assume fun hpage => ?_
    refine setDirty.seq fun _ => nodeOf.seq fun newLeafNode => ?_
    refine (onNodes leafNode newLeafNode _).seq fun _ => .ret fun tree h => ⟨newPage, hpage, ?_⟩
    exact h.weaken fun held => (held.perm (List.Perm.swap _ _ _)).tail
  · rw [if_pos hsplit]
    exact .ret fun tree h => h.weaken PinsHeld.tail

variable (queue) in
/-- The descent from a page that can be requested, or that is not the first one. -/
theorem findPlaceLoop (cap : Nat) (key : K) (value : V) (fuel : Nat) (id : PageId) :
    Ensures (fun tree => (queue = [] → Served id tree) ∧ Holding base queue queue tree)
      (findPlaceLoop cap key value fuel id : Prog (PoolTree K V) (Option PageId))
      (fun a tree => ∃ frames, Pending base frames frames a tree) (Leaking base) := by
  induction fuel generalizing queue id with
  | zero => exact .fail fun _ _ impossible => by cases impossible
  | succ fuel ih =>
      rw [BPlusTree.findPlaceLoop]
      refine (requestServed queue id).seq fun page => .assume fun _ => ?_
      refine nodeOf.seq fun node => ?_
      by_cases hinner : node.type = .innerNode
      · rw [if_pos hinner]
        refine (readNode node _).seq fun nextPageId => ?_
        refine .seq (.change fun tree h => ?_) fun _ => ih (page :: queue) (Value.key nextPageId)
        refine ⟨?_, h.held, congrArg (page :: ·) h.queue_eq⟩
        rintro ⟨⟩
      · rw [if_neg hinner]
        exact (insertIntoLeaf cap key value node).conseq (fun _ h => h) (fun _ _ h => ⟨queue, h⟩)
          fun _ _ h => h

theorem findPlaceForNewKeyAndInsert (cap fuel : Nat) (key : K) (value : V) :
    Ensures (fun tree => Served tree.rootPageId tree ∧ Holding base [] [] tree)
      (findPlaceForNewKeyAndInsert cap fuel key value : Prog (PoolTree K V) (Option PageId))
      (fun a tree => ∃ frames, Pending base frames frames a tree) (Leaking base) := by
  intro tree h
  exact findPlaceLoop [] cap key value fuel tree.rootPageId tree ⟨fun _ => h.1, h.2⟩

theorem createRootWithLeaves (cap : Nat) (newPageId : PageId) :
    Ensures (Holding base queue (pointer :: pins))
      (createRootWithLeaves cap newPageId : Prog (PoolTree K V) Unit)
      (fun _ tree => ∃ pins, Holding base queue pins tree) (Leaking base) := by
  rw [BPlusTree.createRootWithLeaves]
  refine allocateNewPage.seq fun newRoot => (requestPage newRoot).seq fun newRootFrame => ?_
  refine .assume fun _ => setDirty.seq fun _ => nodeOf.seq fun newRootNode => ?_
  refine (requestPage newPageId).seq fun newFrame => .assume fun _ => ?_
  refine nodeOf.seq fun newLeafNode => (readNode newLeafNode _).seq fun firstKey => ?_
  refine .inspect fun tree _ => (onNode _ _).seq fun _ => ?_
  exact .change fun tree h => ⟨_, h.held, h.queue_eq⟩

theorem createRootWithInnerNodes (cap : Nat) (victimPageId rhsPageId : PageId) :
    Ensures (Holding base queue (pointer :: pins))
      (createRootWithInnerNodes cap victimPageId rhsPageId : Prog (PoolTree K V) Unit)
      (fun _ tree => ∃ pins, Holding base queue pins tree) (Leaking base) := by
  rw [BPlusTree.createRootWithInnerNodes]
  refine (requestPage victimPageId).seq fun victimFrame => .assume fun _ => ?_
  refine setDirty.seq fun _ => nodeOf.seq fun victim => allocateNewPage.seq fun newRoot => ?_
  refine (requestPage newRoot).seq fun newRootFrame => .assume fun _ => ?_
  refine setDirty.seq fun _ => nodeOf.seq fun newRootNode => (onNodes _ victim _).seq fun _ => ?_
  exact .change fun tree h => ⟨_, h.held, h.queue_eq⟩

omit [Index K] [Value V] in
/-- Releasing the pin below the one on the page cut off last. -/
theorem releaseSecond {newPage : FramePointer} {Fail : Failure → PoolTree K V → Prop}
    (hslot : other.slot = pointer.slot) :
    Ensures (Holding base queue (newPage :: pointer :: pins))
      (BPlusTree.onPool (PageStore.decreasePinCount other) : Prog (PoolTree K V) Unit)
      (fun _ => Holding base queue (newPage :: pins)) Fail :=
  (release hslot).conseq (fun _ h => h.weaken fun held => held.perm (List.Perm.swap _ _ _))
    (fun _ _ h => h) fun _ _ h => h

omit [Index K] [Value V] in
/-- Registering an inner node never returns. -/
theorem onNode_trivialInsertInnerNode (node : Node K V) :
    Ensures (Holding base queue (pointer :: pins))
      (BPlusTree.onNode frame node trivialInsertInnerNode : Prog (PoolTree K V) (Node K V))
      (fun _ _ => False) (Leaking base) := by
  intro tree h
  refine ⟨fun node' tree' hrun => ?_, (onNode node trivialInsertInnerNode tree h).2⟩
  exact Mirrors.onNode_trivialInsertInnerNode_ne_ok _ _ _ hrun

theorem registerNewPage {newPage : FramePointer} (cap : Nat) :
    Ensures (Holding base queue (newPage :: pointer :: pins))
      (registerNewPage cap pointer newPage.page : Prog (PoolTree K V) (Option PageId))
      (Pending base queue pins) (Leaking base) := by
  rw [BPlusTree.registerNewPage]
  refine setDirty.seq fun _ => nodeOf.seq fun innerNode => ?_
  refine (requestPageUnpinned newPage.page).seq fun newNodeFrame => .assume fun hsame => ?_
  have hslot : newNodeFrame.slot = newPage.slot := hsame newPage List.mem_cons_self rfl
  refine nodeOf.seq fun newNode => ?_
  by_cases hinner : newNode.type = .innerNode
  · rw [if_pos hinner]
    exact (onNode_trivialInsertInnerNode innerNode).seq fun _ _ impossible => impossible.elim
  rw [if_neg hinner]
  refine getData.seq fun newLeafPage => (onNode innerNode _).seq fun innerNode => ?_
  dsimp only
  by_cases hsplit : innerNode.shouldSplit
  · rw [if_neg (not_not.mpr hsplit)]
    refine allocateNewPage.seq fun newPageId => (requestPage newPageId).seq fun cutOff => ?_
    refine .assume fun hpage => setDirty.seq fun _ => nodeOf.seq fun newInnerNode => ?_
    refine (onNodes innerNode newInnerNode _).seq fun _ => ?_
    refine (releaseSecond hslot).seq fun _ => (releaseSecond rfl).seq fun _ => ?_
    exact .ret fun tree h => ⟨cutOff, hpage, h⟩
  · rw [if_pos hsplit]
    refine (release hslot).seq fun _ => (release rfl).seq fun _ => ?_
    exact .ret fun tree h => h

/-- Each round of the way back releases the frame it pops. -/
theorem Pending.keptByRounds (cap : Nat) :
    KeptByRounds cap (fun queue newPageId (tree : PoolTree K V) =>
      Pending base queue queue newPageId tree) (Leaking base) where
  frameQueue h := h.frameQueue
  release back rest := (release rfl).conseq (fun _ h => h) (fun _ _ h => ⟨h.held, rfl⟩)
    fun _ _ h => h
  register back rest id := by
    refine .ofExists fun newPage => .assume ?_
    rintro rfl
    exact (registerNewPage cap).conseq (fun _ h => h) (fun _ _ h => h.setQueue) fun _ _ h => h

/--
An insertion into a tree whose root can be requested, when it throws an exception,
has left a page with more pins than it had.
-/
theorem insert (cap fuel : Nat) (key : K) (value : V) :
    Ensures
      (fun tree => (tree.rootPageId ≠ invalidPageId ∧ Served tree.rootPageId tree) ∧
        Holding base [] [] tree)
      (insert cap fuel key value : Prog (PoolTree K V) Bool) (fun _ _ => True) (Leaking base) := by
  have hflush : Ensures (fun tree => ∃ pins, Holding base [] pins tree)
      (BPlusTree.onPool PageStore.flushPages : Prog (PoolTree K V) Bool) (fun _ _ => True)
      (Leaking base) := .ofExists fun pins => flushPages
  refine (Pending.keptByRounds cap).insert (fun tree h hroot => absurd hroot h.1.1) ?_
    (fun id => ?_) (fun root id => ?_) (fun tree h => ⟨[], h⟩) hflush
  · exact (findPlaceForNewKeyAndInsert cap fuel key value).conseq (fun _ h => ⟨h.1.2, h.2⟩)
      (fun _ _ h => h) fun _ _ h => h
  · exact .ofExists fun newPage => .assume fun _ => createRootWithLeaves cap id
  · exact .ofExists fun newPage => .assume fun _ => createRootWithInnerNodes cap root id

end Members

end Holding

end HiveDb.BPlusTree
