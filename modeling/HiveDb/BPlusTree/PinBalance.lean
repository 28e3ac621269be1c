import HiveDb.BPlusTree.Atomicity
import HiveDb.BufferPool.Session

/-!
# The pins of calls that return

Whatever an insertion pins it releases again, or leaves on dirty frames, which it
evicts at its end.  A search releases every page but the leaf in which it does
not find its key.
-/

namespace HiveDb.BPlusTree

open HiveDb.Lib

variable {K V : Type}

/--
A frame that holds the same page before and after has the same pins, and any
other page in the pool has none.
-/
structure PinsBalanced (store store' : PoolStore K V) : Prop where
  kept : ∀ {id frame}, store.pool.Maps id frame → store'.pool.Maps id frame →
    (store'.pool.frames frame).pinCount = (store.pool.frames frame).pinCount
  fresh : ∀ {id frame}, store'.pool.Maps id frame → ¬ store.pool.Maps id frame →
    (store'.pool.frames frame).pinCount = 0

/--
Since `start` exactly the pointers of `pins` and `marked` have been pinned and not
released, those of `marked` on dirty frames.
-/
structure PinsTaken (start : PoolStore K V) (pins marked : List FramePointer)
    (store : PoolStore K V) : Prop where
  held : PinsHeld start.pinsOn (pins ++ marked) store
  le : ∀ {id frame}, store.pool.Maps id frame → (store.pool.frames frame).pinCount ≤
    start.pinsOn id + (((pins ++ marked).map FramePointer.slot).count frame : Int)
  stays : ∀ {id frame}, start.pool.Maps id frame → 0 < start.pinsOn id →
    store.pool.Maps id frame
  dirty : ∀ p ∈ marked, (store.pool.frames p.slot).isDirty = true

namespace PinsTaken

variable {start store store' : PoolStore K V} {pins marked : List FramePointer}
variable {pointer : FramePointer} {id : PageId} {frame : FrameId} {shouldPin : Bool}

theorem perm {pins' marked' : List FramePointer} (h : PinsTaken start pins marked store)
    (hperm : (pins ++ marked).Perm (pins' ++ marked'))
    (hdirty : ∀ p ∈ marked', (store.pool.frames p.slot).isDirty = true) :
    PinsTaken start pins' marked' store where
  held := h.held.perm hperm
  le {id frame} hmaps := by
    rw [← (hperm.map FramePointer.slot).count_eq frame]
    exact h.le hmaps
  stays := h.stays
  dirty := hdirty

theorem mark (h : PinsTaken start (pointer :: pins) marked store)
    (hdirty : (store.pool.frames pointer.slot).isDirty = true) :
    PinsTaken start pins (pointer :: marked) store :=
  h.perm List.perm_middle.symm (List.forall_mem_cons.mpr ⟨hdirty, h.dirty⟩)

theorem unmark (h : PinsTaken start pins (pointer :: marked) store) :
    PinsTaken start (pointer :: pins) marked store :=
  h.perm List.perm_middle fun p hp => h.dirty p (List.mem_cons_of_mem _ hp)

theorem permMarked {marked' : List FramePointer} (h : PinsTaken start pins marked store)
    (hperm : marked.Perm marked') : PinsTaken start pins marked' store :=
  h.perm (hperm.append_left pins) fun p hp => h.dirty p (hperm.mem_iff.mpr hp)

/-- The pins of a page that no pinned pointer is left for. -/
theorem pinCount_eq (h : PinsTaken start pins marked store) (hmaps : store.pool.Maps id frame)
    (hfree : ∀ p ∈ pins ++ marked, p.slot ≠ frame) :
    (store.pool.frames frame).pinCount = start.pinsOn id := by
  have hzero : ((pins ++ marked).map FramePointer.slot).count frame = 0 :=
    FramePointer.count_eq_zero hfree
  have hle := h.le hmaps
  have hge := h.held.le hmaps
  rw [hzero] at hle hge
  omega

/-- A page in a frame that did not hold it had no pins. -/
theorem pinsOn_of_moved (h : PinsTaken start pins marked store)
    (hmaps : store.pool.Maps id frame) (hmoved : ¬ start.pool.Maps id frame) :
    start.pinsOn id = 0 := by
  cases hfind : start.pool.pageTable.find? id with
  | none => rw [PoolStore.pinsOn, hfind]
  | some slot =>
      by_contra hne
      have hnonneg := h.held.nonneg id
      have hstays : store.pool.Maps id slot := h.stays hfind (by omega)
      cases hstays.symm.trans hmaps
      exact hmoved hfind

/-- The pages left in the pool are unchanged ones for which no pointer is pinned. -/
theorem balanced_of (h : PinsTaken start pins marked store)
    (hpages : ∀ {id frame}, store'.pool.Maps id frame → store.pool.Maps id frame ∧
      (store'.pool.frames frame).pinCount = (store.pool.frames frame).pinCount ∧
      ∀ p ∈ pins ++ marked, p.slot ≠ frame) : PinsBalanced start store' where
  kept {id frame} hbefore hafter := by
    obtain ⟨hmaps, hpin, hfree⟩ := hpages hafter
    rw [hpin, h.pinCount_eq hmaps hfree, PoolStore.pinsOn_of_maps hbefore]
  fresh {id frame} hafter hmoved := by
    obtain ⟨hmaps, hpin, hfree⟩ := hpages hafter
    rw [hpin, h.pinCount_eq hmaps hfree, h.pinsOn_of_moved hmaps hmoved]

theorem balanced (h : PinsTaken start [] [] store) : PinsBalanced start store :=
  h.balanced_of fun hmaps => ⟨hmaps, rfl, fun _ hp => nomatch hp⟩

/-- A pinned pointer that is left shows in the pins of its page. -/
theorem not_balanced (h : PinsTaken start (pointer :: pins) marked store) :
    ¬ PinsBalanced start store := by
  intro hbalanced
  have hmem : pointer ∈ pointer :: pins ++ marked := List.mem_cons_self
  have hmaps := h.held.maps pointer hmem
  have hle := h.held.le hmaps
  have hcount : 0 < ((pointer :: pins ++ marked).map FramePointer.slot).count pointer.slot :=
    FramePointer.count_pos hmem
  have hnonneg := h.held.nonneg pointer.page
  by_cases hbefore : start.pool.Maps pointer.page pointer.slot
  · rw [PoolStore.pinsOn_of_maps hbefore] at hle
    have heq := hbalanced.kept hbefore hmaps
    omega
  · have hzero := hbalanced.fresh hmaps hbefore
    omega

/-! ## Operations of the pool -/

/-- The same pages in the same frames, which differ in their bytes or have become dirty. -/
theorem of_frames (h : PinsTaken start pins marked store)
    (hheld : PinsHeld start.pinsOn (pins ++ marked) store')
    (htable : store'.pool.pageTable = store.pool.pageTable)
    (hpin : ∀ frame, (store'.pool.frames frame).pinCount = (store.pool.frames frame).pinCount)
    (hdirty : ∀ frame, (store.pool.frames frame).isDirty = true →
      (store'.pool.frames frame).isDirty = true) : PinsTaken start pins marked store' where
  held := hheld
  le {id frame} hmaps := by
    rw [BufferPool.Maps, htable] at hmaps
    rw [hpin]
    exact h.le hmaps
  stays hmaps hpos := by
    rw [BufferPool.Maps, htable]
    exact h.stays hmaps hpos
  dirty p hp := hdirty p.slot (h.dirty p hp)

theorem requested {slot : FrameId} {pool' : BufferPool (IdealDisk (Page K V)) (Page K V)}
    (h : PinsTaken start pins marked store) (hid : 0 ≤ id)
    (hrequest : BufferPool.Request store.pool id shouldPin (.ok slot pool'))
    (hpool : store'.pool = pool') (hpage : pointer.page = id) (hslot : pointer.slot = slot) :
    PinsTaken start (if shouldPin then pointer :: pins else pins) marked store' := by
  have hlist : (if shouldPin then pointer :: pins else pins) ++ marked =
      if shouldPin then pointer :: (pins ++ marked) else pins ++ marked := by
    cases shouldPin <;> rfl
  have hheld := h.held.requested hid hrequest hpool hpage hslot
  subst hpool hpage hslot
  refine ⟨hlist ▸ hheld, fun {other frame} hmaps => ?_, fun hmaps hpos => ?_, fun p hp => ?_⟩
  · rw [hlist, FramePointer.count_pinnedIf, ← Int.add_assoc]
    rcases hrequest.pinCount_cases h.held.wellFormed hid hmaps with ⟨hbefore, hpin⟩ | ⟨_, hpin⟩
    · rw [hpin]
      exact Int.add_le_add_right (h.le hbefore) _
    · have hnonneg := h.held.nonneg other
      rw [hpin]
      omega
  · have hbefore := h.stays hmaps hpos
    have hle := h.held.le hbefore
    exact hrequest.keeps_pinned hbefore (by omega)
  · have hmem : p ∈ pins ++ marked := List.mem_append_right _ hp
    have hdirty := hrequest.isDirty_eq_of_pinned h.held.wellFormed (h.held.maps p hmem)
      (h.held.pinCount_pos hmem)
    exact hdirty.trans (h.dirty p hp)

theorem requestPage (id : PageId) (shouldPin : Bool) :
    Ensures (PinsTaken start pins marked)
      (PageStore.requestPage id shouldPin : Prog (PoolStore K V) FramePointer)
      (fun pointer store =>
        (pointer.page = id ∧ ∀ p ∈ pins ++ marked, p.page = id → pointer.slot = p.slot) ∧
        PinsTaken start (if shouldPin then pointer :: pins else pins) marked store)
      fun _ _ => True := by
  intro store h
  refine ⟨fun pointer store' hrun => ?_, fun _ _ _ => trivial⟩
  obtain ⟨pool', hreturns, hpage, _, rfl⟩ := PoolStore.requestPage_eq_ok hrun
  obtain ⟨hid, hrequest⟩ := BufferPool.request_of_returns h.held.wellFormed hreturns
  refine ⟨⟨hpage, fun p hp hsame => ?_⟩, h.requested hid hrequest rfl hpage rfl⟩
  have hbefore := h.held.maps p hp
  have hkept : pool'.Maps p.page p.slot :=
    hrequest.keeps_pinned hbefore (h.held.pinCount_pos hp)
  rw [hsame] at hkept
  exact Option.some.inj (hrequest.maps.symm.trans hkept)

/-- A program that keeps the pins when it returns. -/
abbrev Keeps (start : PoolStore K V) (pins marked : List FramePointer)
    (x : Prog (PoolStore K V) α) : Prop :=
  Ensures (PinsTaken start pins marked) x (fun _ => PinsTaken start pins marked) fun _ _ => True

theorem getData :
    Keeps start pins marked (PageStore.getData pointer : Prog (PoolStore K V) (Page K V)) := by
  intro store h
  refine ⟨fun page store' hrun => ?_, fun _ _ _ => trivial⟩
  have hheld := (PinsHeld.getData store h.held).1 page store' hrun
  obtain ⟨_, mid, haccess, hrest⟩ := bind_eq_ok_iff.mp
    (show (PoolStore.access pointer >>= fun _ => get >>= fun store =>
      liftPure (BufferPool.frameData (store.pool.frames pointer.slot))) store =
        .ok page store' from hrun)
  cases haccess
  rw [bind_of_ok (get_apply _)] at hrest
  obtain ⟨_, rfl⟩ := liftPure_eq_ok_iff.mp hrest
  exact h.of_frames hheld rfl (fun _ => rfl) fun _ hdirty => hdirty

/-- Changing one frame, but not its pins, and not making it clean. -/
theorem changeFrame {change : FrameHeader (Page K V) → FrameHeader (Page K V)}
    (hkeeps : ∀ base pins, PinsHeld.Keeps base pins
      (PoolStore.changeFrame pointer change : Prog (PoolStore K V) Unit))
    (hpin : ∀ frame, (change frame).pinCount = frame.pinCount)
    (hdirty : ∀ frame, frame.isDirty = true → (change frame).isDirty = true) :
    Ensures (PinsTaken start pins marked) (PoolStore.changeFrame pointer change)
      (fun _ store' => PinsTaken start pins marked store' ∧
        ∃ frame, store'.pool.frames pointer.slot = change frame) fun _ _ => True := by
  intro store h
  refine ⟨fun _ store' hrun => ?_, fun _ _ _ => trivial⟩
  have hheld := (hkeeps _ _ store h.held).1 _ store' hrun
  cases hrun
  have hself := BufferPool.setFrame_frames_self store.pool pointer.slot
    (change (store.pool.frames pointer.slot))
  refine ⟨h.of_frames hheld rfl (fun frame => ?_) (fun frame hframe => ?_), _, hself⟩
  · by_cases heq : frame = pointer.slot
    · subst heq
      exact (congrArg FrameHeader.pinCount hself).trans (hpin _)
    · exact congrArg FrameHeader.pinCount (BufferPool.setFrame_frames_ne _ heq _)
  · by_cases heq : frame = pointer.slot
    · subst heq
      exact (congrArg FrameHeader.isDirty hself).trans (hdirty _ hframe)
    · exact (congrArg FrameHeader.isDirty (BufferPool.setFrame_frames_ne _ heq _)).trans hframe

theorem setData (page : Page K V) :
    Keeps start pins marked (PageStore.setData pointer page : Prog (PoolStore K V) Unit) :=
  (changeFrame (fun _ _ => PinsHeld.setData page) (fun _ => rfl) fun _ h => h).conseq
    (fun _ h => h) (fun _ _ h => h.1) fun _ _ h => h

theorem setDirty :
    Ensures (PinsTaken start (pointer :: pins) marked)
      (PageStore.setDirty pointer : Prog (PoolStore K V) Unit)
      (fun _ => PinsTaken start pins (pointer :: marked)) fun _ _ => True :=
  (changeFrame (fun _ _ => PinsHeld.setDirty) (fun _ => rfl) fun _ _ => rfl).conseq
    (fun _ h => h)
    (fun _ store h => by
      obtain ⟨htaken, frame, hframe⟩ := h
      exact htaken.mark (congrArg FrameHeader.isDirty hframe))
    fun _ _ h => h

theorem allocateNewPage :
    Keeps start pins marked (PageStore.allocateNewPage : Prog (PoolStore K V) PageId) := by
  intro store h
  refine ⟨fun id store' hrun => ?_, fun _ _ _ => trivial⟩
  have hheld := (PinsHeld.allocateNewPage store h.held).1 id store' hrun
  cases hrun
  exact h.of_frames hheld rfl (fun _ => rfl) fun _ hdirty => hdirty

/-- Releasing a pin through any pointer to the slot. -/
theorem decreasePinCount {other : FramePointer} (hslot : other.slot = pointer.slot) :
    Ensures (PinsTaken start (pointer :: pins) marked)
      (PageStore.decreasePinCount other : Prog (PoolStore K V) Unit)
      (fun _ => PinsTaken start pins marked) fun _ _ => True := by
  intro store h
  refine ⟨fun _ store' hrun => ?_, fun _ _ _ => trivial⟩
  have hheld := (PinsHeld.decreasePinCount hslot store h.held).1 _ store' hrun
  cases hrun
  have hself := BufferPool.setFrame_frames_self store.pool other.slot
    (store.pool.frames other.slot).decreasePinCount
  refine ⟨hheld, fun {id frame} hmaps => ?_, h.stays, fun p hp => ?_⟩
  · have hle := h.le hmaps
    rw [List.cons_append, List.map_cons, List.count_cons] at hle
    by_cases heq : frame = other.slot
    · subst heq
      rw [hslot, if_pos (beq_self_eq_true _), ← hslot] at hle
      have hpin : ((store.pool.setFrame other.slot
          (store.pool.frames other.slot).decreasePinCount).frames other.slot).pinCount =
          (store.pool.frames other.slot).pinCount - 1 := congrArg FrameHeader.pinCount hself
      refine (le_of_eq hpin).trans ?_
      omega
    · have hne : ¬ (pointer.slot == frame) = true := fun hbeq =>
        heq ((eq_of_beq hbeq).symm.trans hslot.symm)
      rw [if_neg hne] at hle
      refine (le_of_eq (congrArg FrameHeader.pinCount
        (BufferPool.setFrame_frames_ne _ heq _))).trans hle
  · have hdirty := h.dirty p hp
    by_cases heq : p.slot = other.slot
    · rw [heq] at hdirty ⊢
      exact (congrArg FrameHeader.isDirty hself).trans hdirty
    · exact (congrArg FrameHeader.isDirty (BufferPool.setFrame_frames_ne _ heq _)).trans hdirty

/-- Flushing all pages leaves none of the marked frames. -/
theorem flushPages :
    Ensures (PinsTaken start [] marked) (PageStore.flushPages : Prog (PoolStore K V) Bool)
      (fun _ => PinsBalanced start) fun _ _ => True := by
  intro store h
  refine ⟨fun flag store' hrun => ?_, fun _ _ _ => trivial⟩
  obtain ⟨_, pool', writes, heval, hflushed⟩ := BufferPool.flushPages_spec h.held.wellFormed
  cases (PoolStore.onBuffer_of_ok heval).symm.trans hrun
  refine h.balanced_of fun {id frame} hmaps => ?_
  obtain ⟨hbefore, hclean⟩ := (hflushed.maps_iff id frame).mp hmaps
  refine ⟨hbefore, congrArg FrameHeader.pinCount (hflushed.frames_eq id frame hmaps), ?_⟩
  rintro p hp rfl
  rw [h.dirty p hp] at hclean
  cases hclean

theorem flushPage (id : PageId) :
    Ensures (PinsTaken start [] []) (PageStore.flushPage id : Prog (PoolStore K V) Bool)
      (fun _ => PinsBalanced start) fun _ _ => True := by
  intro store h
  refine ⟨fun flag store' hrun => ?_, fun _ _ _ => trivial⟩
  have hwf := h.held.wellFormed
  obtain ⟨pool', hreturns, rfl⟩ := onPart_eq_ok_iff.mp
    (show PoolStore.onBuffer (BufferPool.flushPage id) store = .ok flag store' from hrun)
  rcases BufferPool.flushPage_cases hwf (.inl ⟨flag, hreturns⟩) with
    ⟨_, rfl⟩ | ⟨frame, data, hmaps, _, _, rfl⟩
  · exact h.balanced
  · refine h.balanced_of fun {other slot} hother => ?_
    obtain ⟨hne, hbefore⟩ := BufferPool.evicted_maps_iff.mp hother
    have hslot : slot ≠ frame := by
      rintro rfl
      exact hne (hwf.maps_inj hbefore hmaps)
    refine ⟨hbefore, congrArg FrameHeader.pinCount ?_, fun _ hp => nomatch hp⟩
    refine (BufferPool.evicted_frames (hwf.flushed id frame data) hmaps hother).trans ?_
    exact (BufferPool.flushed_frames _ id frame data slot).trans (if_neg hslot)

end PinsTaken

/-! ## The member functions -/

/-- The pins of a call in progress, and its queued frames. -/
abbrev Carries (start : PoolStore K V) (queue pins marked : List FramePointer)
    (tree : PoolTree K V) : Prop :=
  PinsTaken start pins marked tree.bp ∧ tree.frameQueue = queue

namespace Carries

variable {start : PoolStore K V} {queue pins marked : List FramePointer}
variable {pointer frame other : FramePointer}

/-- A program that keeps the pins when it returns. -/
abbrev Kept (start : PoolStore K V) (queue pins marked : List FramePointer)
    (x : Prog (PoolTree K V) α) : Prop :=
  Ensures (Carries start queue pins marked) x (fun _ => Carries start queue pins marked)
    fun _ _ => True

theorem requestPage (id : PageId) (shouldPin : Bool) :
    Ensures (Carries start queue pins marked)
      (BPlusTree.requestPage id shouldPin : Prog (PoolTree K V) FramePointer)
      (fun page tree => (page.page = id ∧ ∀ p ∈ pins ++ marked, p.page = id → page.slot = p.slot) ∧
        Carries start queue (if shouldPin then page :: pins else pins) marked tree)
      fun _ _ => True :=
  (Holding.onPool (PinsTaken.requestPage id shouldPin)).conseq (fun _ h => h)
    (fun _ _ h => ⟨h.1.1, h.1.2, h.2⟩) fun _ _ h => h

theorem setDirty :
    Ensures (Carries start queue (pointer :: pins) marked)
      (onPool (PageStore.setDirty pointer) : Prog (PoolTree K V) Unit)
      (fun _ => Carries start queue pins (pointer :: marked)) fun _ _ => True :=
  Holding.onPool PinsTaken.setDirty

theorem allocateNewPage :
    Kept start queue pins marked
      (onPool PageStore.allocateNewPage : Prog (PoolTree K V) PageId) :=
  Holding.onPool PinsTaken.allocateNewPage

theorem getData :
    Kept start queue pins marked
      (onPool (PageStore.getData frame) : Prog (PoolTree K V) (Page K V)) :=
  Holding.onPool PinsTaken.getData

theorem setData (page : Page K V) :
    Kept start queue pins marked
      (onPool (PageStore.setData frame page) : Prog (PoolTree K V) Unit) :=
  Holding.onPool (PinsTaken.setData page)

theorem nodeOf :
    Kept start queue pins marked (nodeOf frame : Prog (PoolTree K V) (Node K V)) :=
  getData.seq fun _ => .ret fun _ h => h

theorem liftPure (x : Except Failure α) :
    Kept start queue pins marked (liftPure x : Prog (PoolTree K V) α) :=
  .lift (fun _ _ h _ => h) fun _ _ _ _ => trivial

theorem readNode (node : Node K V) (op : Node K V → Except Failure α) :
    Kept start queue pins marked (readNode frame node op : Prog (PoolTree K V) α) :=
  getData.seq fun _ => liftPure _

theorem onNode (node : Node K V) (op : Node K V → Except Failure (Node K V)) :
    Kept start queue pins marked (onNode frame node op : Prog (PoolTree K V) (Node K V)) := by
  refine getData.seq fun page => (liftPure _).seq fun node => ?_
  exact (setData _).seq fun _ => .ret fun _ h => h

theorem onNodes (node otherNode : Node K V)
    (op : Node K V → Node K V → Bool → Except Failure (Node K V × Node K V)) :
    Kept start queue pins marked
      (onNodes frame other node otherNode op : Prog (PoolTree K V) (Node K V × Node K V)) := by
  refine getData.seq fun page => getData.seq fun otherPage => (liftPure _).seq fun nodes => ?_
  exact (setData _).seq fun _ => (setData _).seq fun _ => .ret fun _ h => h

theorem release (hslot : other.slot = pointer.slot) :
    Ensures (Carries start queue (pointer :: pins) marked)
      (onPool (PageStore.decreasePinCount other) : Prog (PoolTree K V) Unit)
      (fun _ => Carries start queue pins marked) fun _ _ => True :=
  Holding.onPool (PinsTaken.decreasePinCount hslot)

theorem releaseMarked {marked' : List FramePointer} (hslot : other.slot = pointer.slot)
    (hperm : marked.Perm (pointer :: marked')) :
    Ensures (Carries start queue pins marked)
      (onPool (PageStore.decreasePinCount other) : Prog (PoolTree K V) Unit)
      (fun _ => Carries start queue pins marked') fun _ _ => True :=
  (release hslot).conseq (fun _ h => ⟨(h.1.permMarked hperm).unmark, h.2⟩) (fun _ _ h => h)
    fun _ _ h => h

theorem flushPages :
    Ensures (Carries start queue [] marked)
      (onPool PageStore.flushPages : Prog (PoolTree K V) Bool)
      (fun _ tree => PinsBalanced start tree.bp) fun _ _ => True :=
  (Holding.onPool PinsTaken.flushPages).conseq (fun _ h => h) (fun _ _ h => h.1) fun _ _ h => h

section Members

variable [Index K] [Value V]

/--
Where an insertion stands: besides the pins of the queued frames there are pins on
dirty frames only, one of them on the page cut off last.
-/
def Pending (start : PoolStore K V) (queue pins : List FramePointer) (newPageId : Option PageId)
    (tree : PoolTree K V) : Prop :=
  match newPageId with
  | none => ∃ marked, Carries start queue pins marked tree
  | some id => ∃ (page : FramePointer) (marked : List FramePointer), page.page = id ∧
      Carries start queue pins (page :: marked) tree

omit [Index K] [Value V] in
theorem Pending.frameQueue {newPageId : Option PageId} {tree : PoolTree K V}
    (h : Pending start queue pins newPageId tree) : tree.frameQueue = queue := by
  cases newPageId with
  | none =>
      obtain ⟨_, hcarries⟩ := h
      exact hcarries.2
  | some id =>
      obtain ⟨_, _, _, hcarries⟩ := h
      exact hcarries.2

omit [Index K] [Value V] in
theorem Pending.setQueue {newPageId : Option PageId} {tree : PoolTree K V}
    {queue' : List FramePointer} (h : Pending start queue pins newPageId tree) :
    Pending start queue' pins newPageId { tree with frameQueue := queue' } := by
  cases newPageId with
  | none =>
      obtain ⟨marked, hcarries⟩ := h
      exact ⟨marked, hcarries.1, rfl⟩
  | some id =>
      obtain ⟨page, marked, hpage, hcarries⟩ := h
      exact ⟨page, marked, hpage, hcarries.1, rfl⟩

theorem insertIntoLeaf (cap : Nat) (key : K) (value : V) (node : Node K V) :
    Ensures (Carries start queue (pointer :: pins) marked)
      (insertIntoLeaf cap key value pointer node : Prog (PoolTree K V) (Option PageId))
      (Pending start queue pins) fun _ _ => True := by
  rw [BPlusTree.insertIntoLeaf]
  refine setDirty.seq fun _ => (onNode node _).seq fun leafNode => ?_
  by_cases hsplit : leafNode.shouldSplit
  · rw [if_neg (not_not.mpr hsplit)]
    refine allocateNewPage.seq fun newPageId => (requestPage newPageId true).seq fun newPage => ?_
    refine .assume ?_
    rintro ⟨hpage, _⟩
    refine setDirty.seq fun _ => nodeOf.seq fun newLeafNode => ?_
    exact (onNodes leafNode newLeafNode _).seq fun _ => .ret fun tree h =>
      ⟨newPage, _, hpage, h⟩
  · rw [if_pos hsplit]
    exact .ret fun tree h => ⟨_, h⟩

theorem findPlaceLoop (cap : Nat) (key : K) (value : V) (fuel : Nat) (id : PageId) :
    Ensures (Carries start queue queue marked)
      (findPlaceLoop cap key value fuel id : Prog (PoolTree K V) (Option PageId))
      (fun a tree => ∃ frames, Pending start frames frames a tree) fun _ _ => True := by
  induction fuel generalizing queue id with
  | zero => exact .fail fun _ _ => trivial
  | succ fuel ih =>
      rw [BPlusTree.findPlaceLoop]
      refine (requestPage id true).seq fun page => .assume fun _ => nodeOf.seq fun node => ?_
      by_cases hinner : node.type = .innerNode
      · rw [if_pos hinner]
        refine (readNode node _).seq fun nextPageId => ?_
        exact .seq (.change fun tree h => ⟨h.1, congrArg (page :: ·) h.2⟩) fun _ =>
          ih (Value.key nextPageId)
      · rw [if_neg hinner]
        exact (insertIntoLeaf cap key value node).conseq (fun _ h => h) (fun _ _ h => ⟨queue, h⟩)
          fun _ _ h => h

theorem createRootWithLeaves {newPage : FramePointer} (cap : Nat) :
    Ensures (Carries start queue [] (newPage :: marked))
      (createRootWithLeaves cap newPage.page : Prog (PoolTree K V) Unit)
      (fun _ tree => ∃ marked, Carries start queue [] marked tree) fun _ _ => True := by
  rw [BPlusTree.createRootWithLeaves]
  refine allocateNewPage.seq fun newRoot => (requestPage newRoot true).seq fun newRootFrame => ?_
  refine .assume fun _ => setDirty.seq fun _ => nodeOf.seq fun newRootNode => ?_
  refine (requestPage newPage.page true).seq fun newFrame => .assume ?_
  rintro ⟨_, hsame⟩
  have hmem : newPage ∈ newRootFrame :: newPage :: marked :=
    List.mem_cons_of_mem _ List.mem_cons_self
  -- the page cut off is requested again, and its frame is dirty already
  have hslot : newFrame.slot = newPage.slot := hsame newPage hmem rfl
  have hrest : Ensures (Carries start queue [] (newFrame :: newRootFrame :: newPage :: marked))
      (do
        let newLeafNode ← BPlusTree.nodeOf newFrame
        let firstKey ← BPlusTree.readNode newFrame newLeafNode fun node => node.indexes 0
        let rootPageId := (← get).rootPageId
        let _ ← BPlusTree.onNode newRootFrame (newRootHeader cap newRootNode)
          (linkLeaves firstKey rootPageId newPage.page)
        modify fun tree => { tree with rootPageId := newRoot } : Prog (PoolTree K V) Unit)
      (fun _ tree => ∃ marked, Carries start queue [] marked tree) fun _ _ => True := by
    refine nodeOf.seq fun newLeafNode => (readNode newLeafNode _).seq fun firstKey => ?_
    refine .inspect fun tree _ => (onNode _ _).seq fun _ => ?_
    exact .change fun tree h => ⟨_, h⟩
  refine hrest.conseq (fun tree h => ⟨h.1.mark ?_, h.2⟩) (fun _ _ h => h) fun _ _ h => h
  rw [hslot]
  exact h.1.dirty newPage hmem

theorem createRootWithInnerNodes (cap : Nat) (victimPageId rhsPageId : PageId) :
    Ensures (Carries start queue [] marked)
      (createRootWithInnerNodes cap victimPageId rhsPageId : Prog (PoolTree K V) Unit)
      (fun _ tree => ∃ marked, Carries start queue [] marked tree) fun _ _ => True := by
  rw [BPlusTree.createRootWithInnerNodes]
  refine (requestPage victimPageId true).seq fun victimFrame => .assume fun _ => ?_
  refine setDirty.seq fun _ => nodeOf.seq fun victim => allocateNewPage.seq fun newRoot => ?_
  refine (requestPage newRoot true).seq fun newRootFrame => .assume fun _ => ?_
  refine setDirty.seq fun _ => nodeOf.seq fun newRootNode => (onNodes _ victim _).seq fun _ => ?_
  exact .change fun tree h => ⟨_, h⟩

omit [Index K] [Value V] in
/-- Registering an inner node never returns. -/
theorem onNode_trivialInsertInnerNode (node : Node K V) :
    Ensures (Carries start queue pins marked)
      (BPlusTree.onNode frame node trivialInsertInnerNode : Prog (PoolTree K V) (Node K V))
      (fun _ _ => False) fun _ _ => True := fun _ _ =>
  ⟨fun _ _ hrun => Mirrors.onNode_trivialInsertInnerNode_ne_ok _ _ _ hrun, fun _ _ _ => trivial⟩

theorem registerNewPage {newPage : FramePointer} (cap : Nat) :
    Ensures (Carries start queue (pointer :: pins) (newPage :: marked))
      (registerNewPage cap pointer newPage.page : Prog (PoolTree K V) (Option PageId))
      (Pending start queue pins) fun _ _ => True := by
  rw [BPlusTree.registerNewPage]
  refine setDirty.seq fun _ => nodeOf.seq fun innerNode => ?_
  refine (requestPage newPage.page false).seq fun newNodeFrame => .assume ?_
  rintro ⟨_, hsame⟩
  have hslot : newNodeFrame.slot = newPage.slot :=
    hsame newPage (List.mem_append_right _ (List.mem_cons_of_mem _ List.mem_cons_self)) rfl
  refine nodeOf.seq fun newNode => ?_
  by_cases hinner : newNode.type = .innerNode
  · rw [if_pos hinner]
    exact (onNode_trivialInsertInnerNode innerNode).seq fun _ _ impossible => impossible.elim
  rw [if_neg hinner]
  refine getData.seq fun newLeafPage => (onNode innerNode _).seq fun innerNode => ?_
  dsimp only
  by_cases hsplit : innerNode.shouldSplit
  · rw [if_neg (not_not.mpr hsplit)]
    refine allocateNewPage.seq fun newPageId => (requestPage newPageId true).seq fun cutOff => ?_
    refine .assume ?_
    rintro ⟨hpage, _⟩
    refine setDirty.seq fun _ => nodeOf.seq fun newInnerNode => ?_
    refine (onNodes innerNode newInnerNode _).seq fun _ => ?_
    refine (releaseMarked hslot ((List.Perm.swap _ _ _).cons cutOff |>.trans
      (List.Perm.swap _ _ _))).seq fun _ => ?_
    refine (releaseMarked rfl (List.Perm.swap _ _ _)).seq fun _ => ?_
    exact .ret fun tree h => ⟨cutOff, _, hpage, h⟩
  · rw [if_pos hsplit]
    refine (releaseMarked hslot (List.Perm.swap _ _ _)).seq fun _ => ?_
    refine (releaseMarked rfl (.refl _)).seq fun _ => ?_
    exact .ret fun tree h => ⟨_, h⟩

/-- Each round of the way back releases the frame it pops. -/
theorem Pending.keptByRounds (cap : Nat) :
    KeptByRounds cap (fun queue newPageId (tree : PoolTree K V) =>
      Pending start queue queue newPageId tree) fun _ _ => True where
  frameQueue h := h.frameQueue
  release back rest := .ofExists fun marked => (release rfl).conseq (fun _ h => h)
    (fun _ _ h => ⟨marked, h.1, rfl⟩) fun _ _ h => h
  register back rest id := by
    refine .ofExists fun newPage => .ofExists fun marked => .assume ?_
    rintro rfl
    exact (registerNewPage cap).conseq (fun _ h => h) (fun _ _ h => h.setQueue) fun _ _ h => h

omit [Index K] [Value V] in
theorem insertFirst (cap : Nat) (key : K) (value : V) :
    Ensures (Carries start queue [] [])
      (insertFirst cap key value : Prog (PoolTree K V) Bool)
      (fun _ tree => PinsBalanced start tree.bp) fun _ _ => True := by
  rw [BPlusTree.insertFirst]
  refine allocateNewPage.seq fun rootPageId => ?_
  have hroot : Kept start queue [] []
      (modify fun tree => { tree with rootPageId := rootPageId } : Prog (PoolTree K V) PUnit) :=
    .change fun _ h => h
  refine hroot.seq fun _ => (requestPage rootPageId false).seq fun rootNodeFrame => ?_
  refine .assume fun _ => ?_
  have hdirty : Kept start queue [] []
      (onPool (PageStore.setDirty rootNodeFrame) : Prog (PoolTree K V) Unit) :=
    Holding.onPool ((PinsTaken.changeFrame (fun _ _ => PinsHeld.setDirty) (fun _ => rfl)
      fun _ _ => rfl).conseq (fun _ h => h) (fun _ _ h => h.1) fun _ _ h => h)
  refine hdirty.seq fun _ => nodeOf.seq fun newNode => (onNode newNode _).seq fun _ => ?_
  exact (Holding.onPool (PinsTaken.flushPage rootPageId)).conseq (fun _ h => h)
    (fun _ _ h => h.1) fun _ _ h => h

/-- An insertion that returns has balanced its pins. -/
theorem insert (cap fuel : Nat) (key : K) (value : V) :
    Ensures (Carries start [] [] [])
      (insert cap fuel key value : Prog (PoolTree K V) Bool)
      (fun _ tree => PinsBalanced start tree.bp) fun _ _ => True := by
  have hflush : Ensures (fun tree => ∃ marked, Carries start [] [] marked tree)
      (BPlusTree.onPool PageStore.flushPages : Prog (PoolTree K V) Bool)
      (fun _ tree => PinsBalanced start tree.bp) fun _ _ => True :=
    .ofExists fun marked => flushPages
  refine (Pending.keptByRounds cap).insert (fun _ _ _ => insertFirst cap key value)
    (fun tree h => findPlaceLoop cap key value fuel tree.rootPageId tree h) (fun id => ?_)
    (fun root id => ?_) (fun tree h => h) hflush
  · refine .ofExists fun newPage => .ofExists fun marked => .assume ?_
    rintro rfl
    exact createRootWithLeaves cap
  · exact .ofExists fun newPage => .ofExists fun marked => .assume fun _ =>
      createRootWithInnerNodes cap root id

end Members

end Carries

/-! ## Searches -/

section Searches

variable [Index K] [Value V] {pages : PageId → Page K V} {id : PageId} {key : K}

/-- The leaf to which the descent of the key leads holds the key. -/
def Finds (pages : PageId → Page K V) (root : PageId) (key : K) : Prop :=
  ∃ (path : List PageId) (leaf : PageId) (index : Nat), Descends pages key root path leaf ∧
    (pages leaf).type = .leafNode ∧
    LeafNode.findIndex (Node.ofBuffer (pages leaf)) key = .ok (some index)

theorem finds_inner_iff {j : Nat} (hinner : (pages id).type = .innerNode)
    (hfound : InnerNode.findIndex (Node.ofBuffer (pages id)) key = .ok j)
    (hinside : j < (pages id).maxSize) :
    Finds pages id key ↔ Finds pages (Value.key ((pages id).values j)) key := by
  constructor
  · rintro ⟨path, leaf, index, hdescends, htype, hindex⟩
    cases hdescends with
    | here => cases hinner.symm.trans htype
    | down _ found _ rest =>
        cases hfound.symm.trans found
        exact ⟨_, leaf, index, rest, htype, hindex⟩
  · rintro ⟨path, leaf, index, hdescends, htype, hindex⟩
    exact ⟨id :: path, leaf, index, .down hinner hfound hinside hdescends, htype, hindex⟩

theorem finds_leaf_iff (hleaf : (pages id).type = .leafNode) :
    Finds pages id key ↔
      ∃ index, LeafNode.findIndex (Node.ofBuffer (pages id)) key = .ok (some index) := by
  constructor
  · rintro ⟨path, leaf, index, hdescends, _, hindex⟩
    cases hdescends with
    | here => exact ⟨index, hindex⟩
    | down inner => cases hleaf.symm.trans inner
  · rintro ⟨index, hindex⟩
    exact ⟨[], id, index, .here id, hleaf, hindex⟩

variable {start : PoolStore K V} {ideal : IdealTree K V} {page : FramePointer}

/-- What a search leaves pinned: nothing, or the leaf in which it has not found its key. -/
def SearchEnds (start : PoolStore K V) (found : Prop) (tree : PoolTree K V) : Prop :=
  found ∧ Carries start [] [] [] tree ∨ ¬ found ∧ ∃ page, Carries start [] [page] [] tree

omit [Index K] [Value V] in
theorem SearchEnds.balanced_iff {found : Prop} {tree : PoolTree K V}
    (h : SearchEnds start found tree) : PinsBalanced start tree.bp ↔ found := by
  rcases h with ⟨hfound, hcarries⟩ | ⟨hmissing, page, hcarries⟩
  · exact iff_of_true hcarries.1.balanced hfound
  · exact iff_of_false hcarries.1.not_balanced hmissing

/-- A search of the tree `ideal` with some pages pinned. -/
abbrev Searching (start : PoolStore K V) (ideal : IdealTree K V) (live pins : List FramePointer)
    (tree : PoolTree K V) : Prop :=
  Mirrors.Watched live pins tree ideal ∧ Carries start [] pins [] tree

namespace Searching

omit [Index K] [Value V]

theorem requestPage (id : PageId) :
    Ensures (Searching start ideal [] [])
      (BPlusTree.requestPage id : Prog (PoolTree K V) FramePointer)
      (fun page tree => page.page = id ∧ Searching start ideal [page] [page] tree)
      fun _ _ => True :=
  ((Mirrors.Watched.requestPage [] id true).both (Carries.requestPage id true)).conseq
    (fun _ h => h) (fun _ _ h => ⟨h.2.1.1, h.1, h.2.2⟩) fun _ _ _ => trivial

theorem nodeOf :
    Ensures (Searching start ideal [page] [page])
      (BPlusTree.nodeOf page : Prog (PoolTree K V) (Node K V))
      (fun node tree => node = Node.ofBuffer (ideal.bp.pages page.page) ∧
        Searching start ideal [page] [page] tree) fun _ _ => True := by
  intro tree h
  rw [h.1.nodeOf_eq (List.mem_singleton_self page)]
  exact Ensures.ret (fun _ h => ⟨rfl, h⟩) tree h

theorem readNode (node : Node K V) (op : Node K V → Except Failure α) :
    Ensures (Searching start ideal [page] [page])
      (BPlusTree.readNode page node op : Prog (PoolTree K V) α)
      (fun a tree => op { node with buffer := ideal.bp.pages page.page } = .ok a ∧
        Searching start ideal [page] [page] tree) fun _ _ => True := by
  intro tree h
  rw [h.1.readNode_eq (List.mem_singleton_self page)]
  exact Ensures.lift (fun _ _ h hop => ⟨hop, h⟩) (fun _ _ _ _ => trivial) tree h

theorem release :
    Ensures (Searching start ideal [page] [page])
      (onPool (PageStore.decreasePinCount page) : Prog (PoolTree K V) Unit)
      (fun _ => Searching start ideal [] []) fun _ _ => True := by
  have hwatched : Ensures (fun tree => Mirrors.Watched [page] [page] tree ideal)
      (onPool (PageStore.decreasePinCount page) : Prog (PoolTree K V) Unit)
      (fun _ tree => Mirrors.Watched [page] [] tree ideal) fun _ _ => True :=
    Mirrors.Watched.decreasePinCount
  exact (hwatched.both (Carries.release rfl)).conseq (fun _ h => h)
    (fun _ _ h => ⟨h.1.forget, h.2⟩) fun _ _ _ => trivial

end Searching

theorem findLoop_searchEnds (key : K) (value : V) (fuel : Nat) (id : PageId) :
    Ensures (Searching start ideal [] []) (findLoop key value fuel id : Prog (PoolTree K V) V)
      (fun _ => SearchEnds start (Finds ideal.bp.pages id key)) fun _ _ => True := by
  induction fuel generalizing id with
  | zero => exact .fail fun _ _ => trivial
  | succ fuel ih =>
      rw [findLoop]
      refine (Searching.requestPage id).seq fun page => .assume ?_
      rintro rfl
      refine Searching.nodeOf.seq fun node => .assume ?_
      rintro rfl
      cases htype : (ideal.bp.pages page.page).type with
      | innerNode =>
          rw [if_pos (by exact htype)]
          refine (Searching.readNode _ _).seq fun nextPageId => .assume fun hnext => ?_
          obtain ⟨j, hfound, hrecords⟩ := except_bind_eq_ok_iff.mp hnext
          have hinside : j < (ideal.bp.pages page.page).maxSize :=
            Int.ofNat_lt.mp (Node.slot_of_records hrecords).2
          cases (Node.records_of_lt (by exact hinside)).symm.trans hrecords
          refine Searching.release.seq fun _ => ?_
          have hiff := finds_inner_iff htype hfound hinside
          exact (ih _).conseq (fun _ h => h) (fun _ _ h => by rwa [hiff]) fun _ _ h => h
      | leafNode =>
          have hiff : Finds ideal.bp.pages page.page key ↔ _ := finds_leaf_iff htype
          rw [if_neg (by rw [Node.ofBuffer_type, htype]; decide)]
          refine (Searching.readNode _ _).seq fun idx => .assume fun hindex => ?_
          cases idx with
          | none =>
              refine .ret fun tree h => .inr ⟨fun hfinds => ?_, page, h.2⟩
              obtain ⟨index, hsome⟩ := hiff.mp hfinds
              cases hindex.symm.trans hsome
          | some idx =>
              refine (Searching.readNode _ _).seq fun found => .assume fun _ => ?_
              refine Searching.release.seq fun _ => ?_
              exact .ret fun tree h => .inl ⟨hiff.mpr ⟨idx, hindex⟩, h.2⟩

theorem find_searchEnds (fuel : Nat) (key : K) (value : V) :
    Ensures (Searching start ideal [] []) (find fuel key value : Prog (PoolTree K V) V)
      (fun _ => SearchEnds start (Finds ideal.bp.pages ideal.rootPageId key))
      fun _ _ => True := by
  rw [find]
  refine .inspect fun tree h => ?_
  by_cases hroot : tree.rootPageId = invalidPageId
  · rw [if_pos hroot]
    exact .fail fun _ _ => trivial
  · rw [if_neg hroot, ← h.1.root_eq]
    exact findLoop_searchEnds key value fuel ideal.rootPageId

end Searches

/-! ## Calls that return -/

section Calls

variable [Index K] [Value V] {cap fuel : Nat} {tree tree' : PoolTree K V}

/-- A step keeps what every reached tree has in common, however many frames there are. -/
theorem Step.settled {ideal : IdealTree K V} {op : TreeOp K V} (hstep : Step cap tree op tree')
    (h : Mirrors.Settled tree ideal) (hsized : Sized cap ideal) :
    ∃ ideal', Mirrors.Settled tree' ideal' ∧ Sized cap ideal' := by
  cases hstep with
  | inserted returns =>
      obtain ⟨_, ideal', hideal, hsettled⟩ := Mirrors.insert cap _ _ _ tree ideal h _ tree' returns
      exact ⟨ideal', hsettled, (hsized.insert h.idealQueue_eq hideal).1⟩
  | refused unavailable throws exception =>
      have hnonneg : 0 ≤ tree.rootPageId := by
        have hroot := hsized.root
        rw [h.root_eq] at hroot
        exact (hroot.resolve_left unavailable.valid).1
      obtain ⟨pool', hrefused, rfl⟩ :=
        unavailable.insert_eq h.stores.wellFormed hnonneg throws exception
      exact ⟨ideal, h.unserved hrefused, hsized⟩
  | found leaves => exact ⟨ideal, h.of_leaves (Mirrors.find_onlyReads _ _ _) leaves, hsized⟩
  | dumped leaves => exact ⟨ideal, h.of_leaves (Mirrors.dumpContents_onlyReads _) leaves, hsized⟩

/-- The call releases what it pins: an insertion, or a search that finds its key. -/
def Call.Releases (tree : PoolTree K V) : Call K V → Prop
  | .insert _ _ => True
  | .find key _ => Finds tree.page tree.rootPageId key

/-- A call that returns has balanced its pins exactly if it is not a search without a find. -/
theorem call_pins_balanced_iff {pool : BufferPool (IdealDisk (Page K V)) (Page K V)}
    {maxFrames : FrameId} {disk : IdealDisk (Page K V)} {order : IterationOrder PageId FrameId}
    (hnew : BufferPool.new maxFrames disk order = .ok pool) {ops : List (TreeOp K V)}
    (hrun : Run (Step cap) (PoolTree.empty pool) ops tree) {call : Call K V} {result : Option V}
    (hreturns : runCall cap fuel call tree = .ok result tree') :
    PinsBalanced tree.bp tree'.bp ↔ call.Releases tree := by
  obtain ⟨ideal, h, _⟩ : ∃ ideal, Mirrors.Settled tree ideal ∧ Sized cap ideal :=
    hrun.invariant (fun _ tree => ∃ ideal, Mirrors.Settled tree ideal ∧ Sized cap ideal)
      ⟨_, Mirrors.settled_empty hnew, Sized.empty cap disk.pages⟩
      fun _ _ _ _ ⟨_, h, hsized⟩ hstep => hstep.settled h hsized
  have hcarries : Carries tree.bp [] [] [] tree := by
    refine ⟨⟨h.holding.held, fun {id frame} hmaps => ?_, fun hmaps _ => hmaps,
      fun _ hp => nomatch hp⟩, h.queue_eq⟩
    rw [PoolStore.pinsOn_of_maps hmaps]
    exact le_of_eq (Int.add_zero _).symm
  cases call with
  | insert key value =>
      obtain ⟨returned, mid, hinsert, hreturn⟩ := bind_eq_ok_iff.mp hreturns
      cases hreturn
      exact iff_of_true ((Carries.insert cap fuel key value tree hcarries).1 returned tree' hinsert)
        trivial
  | find key out =>
      obtain ⟨found, mid, hfind, hreturn⟩ := bind_eq_ok_iff.mp hreturns
      cases hreturn
      have hends := (find_searchEnds fuel key out tree ⟨h, hcarries⟩).1 found tree' hfind
      rw [h.root_eq, ← h.page_eq] at hends
      exact hends.balanced_iff

end Calls

def fourTree : PoolTree Int Int :=
  stateOf (runCalls 5 4 fourCalls (PoolTree.empty (blankPool 3)))

theorem fourTree_run :
    Run (Step 5) (PoolTree.empty (blankPool 3)) (fourCalls.map .call) fourTree := by
  have heval : resultOf (runCalls 5 4 fourCalls (PoolTree.empty (blankPool 3))) =
      some (List.replicate 4 none) := by
    decide +kernel
  exact Step.run_of_runCalls (eq_ok_of_resultOf heval)

/-- A search for a key of the root leaf leaves no pins. -/
theorem found_search_pins_balanced :
    ∃ tree' : PoolTree Int Int, runCall 5 4 (.find 2 0) fourTree = .ok (some 2) tree' ∧
      PinsBalanced fourTree.bp tree'.bp := by
  have hsearch : resultOf (runCall 5 4 (.find 2 0) fourTree) = some (some 2) := by
    decide +kernel
  have hleaf : (fourTree.page fourTree.rootPageId).type = .leafNode := by
    decide +kernel
  have hindex : LeafNode.findIndex (Node.ofBuffer (fourTree.page fourTree.rootPageId)) 2 =
      .ok (some 2) := by
    decide +kernel
  have hreturns := eq_ok_of_resultOf hsearch
  exact ⟨_, hreturns, (call_pins_balanced_iff (blankPool_new 3) fourTree_run hreturns).mpr
    ((finds_leaf_iff hleaf).mpr ⟨2, hindex⟩)⟩

/-- A search for an absent key has brought the root leaf in and has left it pinned. -/
theorem failed_search_leaves_pin :
    ∃ tree' : PoolTree Int Int,
      Run (Step 5) (PoolTree.empty (blankPool 3)) (fourCalls.map .call) fourTree ∧
      find 4 9 0 fourTree = .ok 0 tree' ∧ ¬ PinsBalanced fourTree.bp tree'.bp := by
  have hsearch : resultOf (find 4 9 0 fourTree) = some 0 := by
    decide +kernel
  have hbefore : fourTree.bp.pool.pageTable.find? 0 = none := by
    decide +kernel
  have hafter : (stateOf (find 4 9 0 fourTree)).bp.pool.Maps 0 1 ∧
      ((stateOf (find 4 9 0 fourTree)).bp.pool.frames 1).pinCount = 1 := by
    decide +kernel
  refine ⟨_, fourTree_run, eq_ok_of_resultOf hsearch, fun hbalanced => ?_⟩
  have hzero := hbalanced.fresh hafter.1 fun hmaps => by
    cases hbefore.symm.trans hmaps
  rw [hafter.2] at hzero
  cases hzero

end HiveDb.BPlusTree
