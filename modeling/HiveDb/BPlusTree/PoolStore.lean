import HiveDb.BPlusTree.IdealStore
import HiveDb.BufferPool.Contents

/-!
# The buffer pool as a page store

The tree over the pool works with pointers to frames and into their bytes.  A
pointer remembers the page it was handed out for and how many pages its slot had
held by then; the store records whether any access went through a pointer whose
slot no longer held that page since.  Neither has an influence on what the
operations do.
-/

namespace HiveDb.BPlusTree

open HiveDb.Lib

/-- A pointer to a frame, with the page and the number of the loading it was handed out for. -/
structure FramePointer where
  slot : FrameId
  page : PageId
  loading : Nat

namespace FramePointer

/-- The pointers into a slot, with the one that a request may pin. -/
theorem count_pinnedIf (pointer : FramePointer) (pins : List FramePointer) (shouldPin : Bool)
    (frame : FrameId) :
    (((if shouldPin then pointer :: pins else pins).map slot).count frame : Int) =
      ((pins.map slot).count frame : Int) +
        if pointer.slot = frame ∧ shouldPin = true then 1 else 0 := by
  cases shouldPin with
  | false => simp
  | true =>
      rw [if_pos rfl, List.map_cons, List.count_cons, Int.natCast_add]
      by_cases heq : pointer.slot = frame <;> simp [heq]

theorem count_eq_zero {pins : List FramePointer} {frame : FrameId}
    (hfree : ∀ p ∈ pins, p.slot ≠ frame) : (pins.map slot).count frame = 0 := by
  refine List.count_eq_zero.mpr fun hmem => ?_
  obtain ⟨p, hp, hslot⟩ := List.mem_map.mp hmem
  exact hfree p hp hslot

theorem count_pos {pointer : FramePointer} {pins : List FramePointer} (hp : pointer ∈ pins) :
    0 < (pins.map slot).count pointer.slot :=
  List.count_pos_iff.mpr (List.mem_map.mpr ⟨pointer, hp, rfl⟩)

end FramePointer

/-- The pool of a tree, with the record of its use. -/
structure PoolStore (K V : Type) where
  pool : BufferPool (IdealDisk (Page K V)) (Page K V)
  /-- How many pages have been loaded into each slot. -/
  loadings : FrameId → Nat
  /-- An access has gone through a pointer to a page that its slot no longer held. -/
  staleAccess : Bool

namespace PoolStore

variable {K V : Type}

/-- The slot still holds the page the pointer was handed out for, never having held another. -/
def Valid (store : PoolStore K V) (pointer : FramePointer) : Prop :=
  store.pool.Maps pointer.page pointer.slot ∧ store.loadings pointer.slot = pointer.loading

instance (store : PoolStore K V) (pointer : FramePointer) : Decidable (store.Valid pointer) :=
  inferInstanceAs (Decidable (_ ∧ _))

/-- An operation of the pool. -/
def onBuffer (x : Prog (BufferPool (IdealDisk (Page K V)) (Page K V)) α) :
    Prog (PoolStore K V) α :=
  onPart PoolStore.pool (fun pool store => { store with pool := pool }) x

/-- Record an access through a pointer. -/
def access (pointer : FramePointer) : Prog (PoolStore K V) Unit :=
  modify fun store =>
    { store with staleAccess := store.staleAccess || ! decide (store.Valid pointer) }

/-- `request_page`, counting the page faults of each slot. -/
def requestPage (id : PageId) (shouldPin : Bool) : Prog (PoolStore K V) FramePointer := do
  let before ← get
  let slot ← onBuffer (BufferPool.requestPage id shouldPin)
  if before.pool.pageTable.find? id = none then
    modify fun store =>
      { store with loadings := Function.update store.loadings slot (store.loadings slot + 1) }
  return ⟨slot, id, (← get).loadings slot⟩

/-- Read the bytes behind `get_data()`. -/
def getData (pointer : FramePointer) : Prog (PoolStore K V) (Page K V) := do
  access pointer
  liftPure (BufferPool.frameData ((← get).pool.frames pointer.slot))

/-- Change the frame behind a pointer. -/
def changeFrame (pointer : FramePointer)
    (change : FrameHeader (Page K V) → FrameHeader (Page K V)) : Prog (PoolStore K V) Unit := do
  access pointer
  onBuffer (BufferPool.modifyFrame pointer.slot change)

end PoolStore

instance (K V : Type) : PageStore (PoolStore K V) FramePointer K V where
  requestPage := PoolStore.requestPage
  allocateNewPage := PoolStore.onBuffer BufferPool.allocateNewPage
  flushPage id := PoolStore.onBuffer (BufferPool.flushPage id)
  flushPages := PoolStore.onBuffer BufferPool.flushPages
  getData := PoolStore.getData
  setData pointer page :=
    PoolStore.changeFrame pointer fun frame => { frame with data := some page }
  setDirty pointer := PoolStore.changeFrame pointer fun frame => { frame with isDirty := true }
  decreasePinCount pointer := PoolStore.changeFrame pointer FrameHeader.decreasePinCount
  sameFrame pointer other := pointer.slot == other.slot

abbrev PoolTree (K V : Type) := Tree (PoolStore K V) FramePointer

/-- `b_plus_tree` constructed with `INVALID_PAGE_ID` over a pool. -/
def PoolTree.empty {K V : Type} (pool : BufferPool (IdealDisk (Page K V)) (Page K V)) :
    PoolTree K V :=
  ⟨⟨pool, fun _ => 0, false⟩, invalidPageId, []⟩

/-! ## The pool store and the ideal store -/

variable {K V : Type}

/--
The relation between the two stores: `live` pointers are valid, each pointer of
`pins` accounts for one pin on its frame, the frames behind `marked` pointers are
dirty, and dirty frames satisfy `dirty`.
-/
structure Represented (live pins marked : List FramePointer) (dirty : FrameId → Prop)
    (store : PoolStore K V) (ideal : IdealStore K V) : Prop where
  wellFormed : store.pool.WellFormed
  exposes : store.pool.Exposes ideal.pages
  nextPage_eq : store.pool.nextPage = ideal.nextPage
  noStaleAccess : store.staleAccess = false
  valid : ∀ pointer ∈ live, store.Valid pointer
  pins_live : ∀ pointer ∈ pins, pointer ∈ live
  pins_le : ∀ {id frame}, store.pool.Maps id frame →
    ((pins.map FramePointer.slot).count frame : Int) ≤ (store.pool.frames frame).pinCount
  marked_dirty : ∀ pointer ∈ marked,
    pointer ∈ live ∧ (store.pool.frames pointer.slot).isDirty = true
  dirty_only : ∀ {id frame}, store.pool.Maps id frame →
    (store.pool.frames frame).isDirty = true → dirty frame

namespace Represented

variable {live pins marked : List FramePointer} {dirty : FrameId → Prop}
variable {store : PoolStore K V} {ideal : IdealStore K V} {pointer : FramePointer}

theorem weaken {live' pins' marked' : List FramePointer} {dirty' : FrameId → Prop}
    (h : Represented live pins marked dirty store ideal) (hlive : ∀ p ∈ live', p ∈ live)
    (hpins : ∀ p ∈ pins', p ∈ live') (hcount : pins'.Subperm pins)
    (hmarked : ∀ p ∈ marked', p ∈ live' ∧ p ∈ marked)
    (hdirty : ∀ frame, dirty frame → dirty' frame) :
    Represented live' pins' marked' dirty' store ideal where
  wellFormed := h.wellFormed
  exposes := h.exposes
  nextPage_eq := h.nextPage_eq
  noStaleAccess := h.noStaleAccess
  valid p hp := h.valid p (hlive p hp)
  pins_live := hpins
  pins_le {id frame} hmaps := by
    obtain ⟨middle, hperm, hsub⟩ := hcount
    have hle := (hsub.map FramePointer.slot).count_le frame
    rw [(hperm.map FramePointer.slot).count_eq frame] at hle
    exact (Int.ofNat_le.mpr hle).trans (h.pins_le hmaps)
  marked_dirty p hp := ⟨(hmarked p hp).1, (h.marked_dirty p (hmarked p hp).2).2⟩
  dirty_only hmaps hframe := hdirty _ (h.dirty_only hmaps hframe)

/-- A pinned page is pinned in the pool. -/
theorem pinCount_pos (h : Represented live pins marked dirty store ideal)
    (hpointer : pointer ∈ pins) : 0 < (store.pool.frames pointer.slot).pinCount := by
  have hvalid := h.valid pointer (h.pins_live pointer hpointer)
  have hcount : 0 < (pins.map FramePointer.slot).count pointer.slot :=
    FramePointer.count_pos hpointer
  exact (Int.natCast_pos.mpr hcount).trans_le (h.pins_le hvalid.1)

/-- The victim of the replacer is clean: a dirty frame without pins is found by the scan. -/
theorem victimSaved (h : Represented live pins marked dirty store ideal) (id : PageId) :
    store.pool.VictimSaved id ideal.pages := by
  intro frame owner hfault hscan hpicked hunpinned hmaps
  refine h.exposes.clean hmaps (Bool.eq_false_iff.mpr fun hdirty => ?_)
  have hnonneg := (Int.natCast_nonneg _).trans (h.pins_le hmaps)
  have hframe := h.wellFormed.hasFrame_of_maps hmaps
  exact BufferPool.dirtyUnpinned?_eq_none_iff.mp hscan frame hframe hdirty
    (le_antisymm hunpinned hnonneg)

/-- Two valid pointers to one page are the same. -/
theorem eq_of_page_eq (h : Represented live pins marked dirty store ideal)
    {other : FramePointer} (hpointer : pointer ∈ live) (hother : other ∈ live)
    (hpage : pointer.page = other.page) : pointer = other := by
  obtain ⟨hmaps, hloading⟩ := h.valid pointer hpointer
  obtain ⟨hmaps', hloading'⟩ := h.valid other hother
  rw [hpage] at hmaps
  have hslot : pointer.slot = other.slot := Option.some.inj (hmaps.symm.trans hmaps')
  rw [hslot] at hloading
  cases pointer
  cases other
  cases hpage
  cases hslot
  cases hloading.symm.trans hloading'
  rfl

/-- Valid pointers lead to one frame when they were handed out for one page, and only then. -/
theorem sameFrame_eq (h : Represented live pins marked dirty store ideal)
    {other : FramePointer} (hpointer : pointer ∈ live) (hother : other ∈ live) :
    PageStore.sameFrame (PoolStore K V) pointer other =
      PageStore.sameFrame (IdealStore K V) pointer.page other.page := by
  have hmaps := (h.valid pointer hpointer).1
  have hmaps' := (h.valid other hother).1
  have hiff : pointer.slot = other.slot ↔ pointer.page = other.page := by
    constructor
    · intro hslot
      rw [hslot] at hmaps
      exact h.wellFormed.maps_inj hmaps hmaps'
    · intro hpage
      rw [h.eq_of_page_eq hpointer hother hpage]
  exact decide_eq_decide.mpr hiff

end Represented

/-! ## Requests -/

namespace PoolStore

theorem requestPage_eq_ok {store store' : PoolStore K V} {pointer : FramePointer} {id : PageId}
    {shouldPin : Bool} (h : requestPage id shouldPin store = .ok pointer store') :
    ∃ pool', BufferPool.requestPage id shouldPin store.pool = .ok pointer.slot pool' ∧
      pointer.page = id ∧ pointer.loading = store'.loadings pointer.slot ∧
      store' = ⟨pool', if store.pool.pageTable.find? id = none then
          Function.update store.loadings pointer.slot (store.loadings pointer.slot + 1)
        else store.loadings, store.staleAccess⟩ := by
  rw [requestPage, bind_of_ok (get_apply store)] at h
  obtain ⟨slot, mid, hpool, hrest⟩ := bind_eq_ok_iff.mp h
  obtain ⟨pool', hrequest, rfl⟩ := onPart_eq_ok_iff.mp hpool
  by_cases hfault : store.pool.pageTable.find? id = none
  · rw [if_pos hfault, bind_of_ok (modify_apply _ _)] at hrest
    cases hrest
    rw [if_pos hfault]
    exact ⟨pool', hrequest, rfl, rfl, rfl⟩
  · rw [if_neg hfault] at hrest
    cases hrest
    rw [if_neg hfault]
    exact ⟨pool', hrequest, rfl, rfl, rfl⟩

theorem requestPage_eq_error {store store' : PoolStore K V} {failure : Failure} {id : PageId}
    {shouldPin : Bool} (h : requestPage id shouldPin store = .error failure store') :
    ∃ pool', BufferPool.requestPage id shouldPin store.pool = .error failure pool' ∧
      store' = { store with pool := pool' } := by
  rw [requestPage, bind_of_ok (get_apply store)] at h
  cases hrun : BufferPool.requestPage id shouldPin store.pool with
  | error other pool' =>
      have heval : onBuffer (BufferPool.requestPage id shouldPin) store =
          .error other { store with pool := pool' } := by
        rw [onBuffer, onPart, hrun]
      cases (bind_of_error heval).symm.trans h
      exact ⟨pool', rfl, rfl⟩
  | ok slot pool' =>
      have heval : onBuffer (BufferPool.requestPage id shouldPin) store =
          .ok slot { store with pool := pool' } := onPart_of_ok hrun
      rw [bind_of_ok heval] at h
      split at h
      · cases h
      · cases h

end PoolStore

namespace Represented

variable {live pins marked : List FramePointer} {dirty : FrameId → Prop}

section Returned

variable {store : PoolStore K V} {ideal : IdealStore K V} {p : FramePointer}
variable {id : PageId} {shouldPin : Bool} {slot : FrameId}
variable {pool' : BufferPool (IdealDisk (Page K V)) (Page K V)}

theorem keeps_pinned (h : Represented live pins marked dirty store ideal)
    (hrequest : BufferPool.Request store.pool id shouldPin (.ok slot pool')) (hp : p ∈ pins) :
    pool'.Maps p.page p.slot :=
  hrequest.keeps_pinned (h.valid p (h.pins_live p hp)).1 (h.pinCount_pos hp)

/-- A page fault does not load into the slot of a pinned page. -/
theorem slot_ne_of_fault (h : Represented live pins marked dirty store ideal) (hid : 0 ≤ id)
    (hrequest : BufferPool.Request store.pool id shouldPin (.ok slot pool'))
    (habsent : store.pool.pageTable.find? id = none) (hp : p ∈ pins) : p.slot ≠ slot := by
  have hmaps := (h.valid p (h.pins_live p hp)).1
  exact hrequest.slot_ne_of_absent h.wellFormed hid habsent hrequest.maps hmaps (h.pinCount_pos hp)

theorem pins_le_of_request (h : Represented live pins marked dirty store ideal) (hid : 0 ≤ id)
    (hrequest : BufferPool.Request store.pool id shouldPin (.ok slot pool')) {other : PageId}
    {frame : FrameId} (hmaps : pool'.Maps other frame) :
    (((pins.map FramePointer.slot).count frame : Int) +
      if slot = frame ∧ shouldPin = true then 1 else 0) ≤ (pool'.frames frame).pinCount := by
  rcases hrequest.pinCount_cases h.wellFormed hid hmaps with ⟨hbefore, hpin⟩ | ⟨habsent, hpin⟩
  · rw [hpin]
    exact Int.add_le_add_right (h.pins_le hbefore) _
  · have hzero : (pins.map FramePointer.slot).count frame = 0 :=
      FramePointer.count_eq_zero fun p hp => hrequest.slot_ne_of_absent h.wellFormed hid habsent
        hmaps (h.valid p (h.pins_live p hp)).1 (h.pinCount_pos hp)
    rw [hpin, hzero]
    exact le_of_eq (Int.zero_add _)

/-- The frame of a marked page that is pinned stays dirty. -/
theorem marked_dirty_of_request (h : Represented live pins marked dirty store ideal)
    (hrequest : BufferPool.Request store.pool id shouldPin (.ok slot pool')) (hp : p ∈ pins)
    (hmarked : p ∈ marked) : (pool'.frames p.slot).isDirty = true := by
  have hmaps := (h.valid p (h.pins_live p hp)).1
  have hkept := hrequest.isDirty_eq_of_pinned h.wellFormed hmaps (h.pinCount_pos hp)
  exact hkept.trans (h.marked_dirty p hmarked).2

theorem dirty_only_of_request (h : Represented live pins marked dirty store ideal)
    (hrequest : BufferPool.Request store.pool id shouldPin (.ok slot pool')) {other : PageId}
    {frame : FrameId} (hmaps : pool'.Maps other frame)
    (hdirty : (pool'.frames frame).isDirty = true) : dirty frame := by
  by_cases heq : other = id
  · subst heq
    obtain rfl : frame = slot := Option.some.inj (hmaps.symm.trans hrequest.maps)
    rcases hrequest.frame_eq with ⟨hbefore, hframe⟩ | ⟨_, hframe⟩
    · refine h.dirty_only hbefore ?_
      rw [hframe, BufferPool.pinnedIf_isDirty] at hdirty
      exact hdirty
    · rw [hframe, BufferPool.pinnedIf_isDirty] at hdirty
      cases hdirty
  · obtain ⟨hbefore, hframe⟩ :
        store.pool.Maps other frame ∧ pool'.frames frame = store.pool.frames frame :=
      hrequest.others h.wellFormed heq hmaps
    rw [hframe] at hdirty
    exact h.dirty_only hbefore hdirty

end Returned

/-- A request keeps the pins and hands out a valid pointer. -/
theorem request (hmarked : ∀ p ∈ marked, p ∈ pins) (id : PageId) (shouldPin : Bool) :
    Simulates (Represented live pins marked dirty)
      (PageStore.requestPage id shouldPin : Prog (PoolStore K V) FramePointer)
      (PageStore.requestPage id shouldPin : Prog (IdealStore K V) PageId)
      fun pointer page store ideal => page = pointer.page ∧ pointer.page = id ∧
        Represented (pointer :: pins) (if shouldPin then pointer :: pins else pins) marked dirty
          store ideal := by
  intro store ideal h pointer store' hrun
  obtain ⟨pool', hreturns, hpage, hloading, rfl⟩ := PoolStore.requestPage_eq_ok hrun
  obtain ⟨hid, hrequest⟩ := BufferPool.request_of_returns h.wellFormed hreturns
  have hwf : pool'.WellFormed := hrequest.wellFormed h.wellFormed hid
  have hnext : pool'.nextPage = store.pool.nextPage := hrequest.nextPage_eq
  refine ⟨id, ideal, rfl, hpage.symm, hpage, hwf,
    hrequest.exposes h.exposes h.wellFormed (h.victimSaved id), hnext.trans h.nextPage_eq,
    h.noStaleAccess, ?_, ?_, ?_, ?_, h.dirty_only_of_request hrequest⟩
  · rintro p (_ | ⟨_, hp⟩)
    · exact ⟨hpage ▸ hrequest.maps, hloading.symm⟩
    · refine ⟨h.keeps_pinned hrequest hp, ?_⟩
      have hvalid := (h.valid p (h.pins_live p hp)).2
      split
      next habsent =>
        have hne := h.slot_ne_of_fault hid hrequest habsent hp
        exact (Function.update_of_ne hne _ _).trans hvalid
      next => exact hvalid
  · intro p hp
    cases shouldPin with
    | false => exact List.mem_cons_of_mem _ hp
    | true => exact hp
  · intro other slot hmaps
    rw [FramePointer.count_pinnedIf]
    exact h.pins_le_of_request hid hrequest hmaps
  · intro p hp
    exact ⟨List.mem_cons_of_mem _ (hmarked p hp),
      h.marked_dirty_of_request hrequest (hmarked p hp) hp⟩

/-- A request that throws changes nothing the relation speaks about. -/
theorem unserved {store : PoolStore K V} {ideal : IdealStore K V} {id : PageId} {shouldPin : Bool}
    {failure : Failure} {pool' : BufferPool (IdealDisk (Page K V)) (Page K V)}
    (h : Represented live pins marked dirty store ideal)
    (hrun : BufferPool.requestPage id shouldPin store.pool = .error failure pool') :
    Represented live pins marked dirty { store with pool := pool' } ideal := by
  rcases Int.lt_or_le id 0 with hnegative | hid
  · cases (BufferPool.requestPage_of_negative hnegative).symm.trans hrun
    exact h
  have hrequest : BufferPool.Request store.pool id shouldPin (.error failure pool') :=
    hrun ▸ BufferPool.requestPage_spec h.wellFormed hid shouldPin
  obtain ⟨_, htable, hframes, _⟩ := hrequest.unchanged
  have hnext : pool'.nextPage = store.pool.nextPage := hrequest.nextPage_eq
  have hmaps : ∀ {id frame}, pool'.Maps id frame ↔ store.pool.Maps id frame := by
    intro id frame
    rw [BufferPool.Maps, htable]
    rfl
  refine ⟨hrequest.wellFormed h.wellFormed hid,
    hrequest.exposes h.exposes h.wellFormed (h.victimSaved id), hnext.trans h.nextPage_eq,
    h.noStaleAccess, fun p hp => ⟨hmaps.mpr (h.valid p hp).1, (h.valid p hp).2⟩, h.pins_live,
    fun hmapped => ?_, fun p hp => ?_, fun hmapped hdirty => ?_⟩
  · rw [hframes]
    exact h.pins_le (hmaps.mp hmapped)
  · rw [hframes]
    exact h.marked_dirty p hp
  · rw [hframes] at hdirty
    exact h.dirty_only (hmaps.mp hmapped) hdirty

end Represented

/-! ## Accesses through pointers -/

namespace PoolStore

variable {store : PoolStore K V} {pointer : FramePointer}

theorem onBuffer_of_ok {x : Prog (BufferPool (IdealDisk (Page K V)) (Page K V)) α} {a : α}
    {pool' : BufferPool (IdealDisk (Page K V)) (Page K V)} (h : x store.pool = .ok a pool') :
    onBuffer x store = .ok a { store with pool := pool' } := onPart_of_ok h

theorem access_of_valid (hvalid : store.Valid pointer) :
    access pointer store = .ok ⟨⟩ store := by
  rw [access, modify_apply, decide_eq_true hvalid, Bool.not_true, Bool.or_false]

theorem changeFrame_of_valid (hvalid : store.Valid pointer)
    (change : FrameHeader (Page K V) → FrameHeader (Page K V)) :
    changeFrame pointer change store = .ok ⟨⟩ { store with
      pool := store.pool.setFrame pointer.slot (change (store.pool.frames pointer.slot)) } := by
  rw [changeFrame, bind_of_ok (access_of_valid hvalid)]
  rfl

end PoolStore

namespace Represented

variable {live pins marked : List FramePointer} {dirty : FrameId → Prop}
variable {store : PoolStore K V} {ideal : IdealStore K V} {pointer : FramePointer}

/-- The change of one frame behind a valid pointer. -/
theorem setFrame {pins' marked' : List FramePointer} {ideal' : IdealStore K V}
    (h : Represented live pins marked dirty store ideal) {header : FrameHeader (Page K V)}
    (hid : header.frameId = (store.pool.frames pointer.slot).frameId)
    (hdata : ∃ data, header.data = some data)
    (hexposes : (store.pool.setFrame pointer.slot header).Exposes ideal'.pages)
    (hnext : ideal'.nextPage = ideal.nextPage)
    (hlive : ∀ p ∈ pins', p ∈ live)
    (hpins : ∀ frame, ((pins'.map FramePointer.slot).count frame : Int) ≤
      (pins.map FramePointer.slot).count frame)
    (hpin : ((pins'.map FramePointer.slot).count pointer.slot : Int) ≤ header.pinCount)
    (hmarked : ∀ p ∈ marked', p ∈ live ∧ if p.slot = pointer.slot then header.isDirty = true
      else (store.pool.frames p.slot).isDirty = true)
    (hdirty : header.isDirty = true → dirty pointer.slot) :
    Represented live pins' marked' dirty
      { store with pool := store.pool.setFrame pointer.slot header } ideal' where
  wellFormed := h.wellFormed.setFrame hid fun _ => hdata
  exposes := hexposes
  nextPage_eq := h.nextPage_eq.trans hnext.symm
  noStaleAccess := h.noStaleAccess
  valid p hp := h.valid p hp
  pins_live := hlive
  pins_le {id frame} hmaps := by
    by_cases heq : frame = pointer.slot
    · rw [heq, BufferPool.setFrame_frames_self]
      exact hpin
    · rw [BufferPool.setFrame_frames_ne _ heq]
      exact (hpins frame).trans (h.pins_le hmaps)
  marked_dirty p hp := by
    obtain ⟨hmem, hframe⟩ := hmarked p hp
    refine ⟨hmem, ?_⟩
    by_cases heq : p.slot = pointer.slot
    · rw [if_pos heq] at hframe
      rw [heq, BufferPool.setFrame_frames_self]
      exact hframe
    · rw [if_neg heq] at hframe
      rw [BufferPool.setFrame_frames_ne _ heq]
      exact hframe
  dirty_only {id frame} hmaps hframe := by
    by_cases heq : frame = pointer.slot
    · rw [heq, BufferPool.setFrame_frames_self] at hframe
      exact heq ▸ hdirty hframe
    · rw [BufferPool.setFrame_frames_ne _ heq] at hframe
      exact h.dirty_only hmaps hframe

theorem getData_eq (h : Represented live pins marked dirty store ideal)
    (hpointer : pointer ∈ live) :
    PoolStore.getData pointer store = .ok (ideal.pages pointer.page) store := by
  have hvalid := h.valid pointer hpointer
  have hdata : BufferPool.frameData (store.pool.frames pointer.slot) =
      .ok (ideal.pages pointer.page) := by
    rw [BufferPool.frameData, h.exposes.mapped hvalid.1]
    rfl
  refine (bind_of_ok (PoolStore.access_of_valid hvalid)).trans ?_
  refine (bind_of_ok (get_apply store)).trans ?_
  rw [hdata]
  rfl

theorem getData (hpointer : pointer ∈ live) :
    Simulates (Represented live pins marked dirty)
      (PageStore.getData pointer : Prog (PoolStore K V) (Page K V))
      (PageStore.getData pointer.page : Prog (IdealStore K V) (Page K V))
      fun page page' store ideal => page' = page ∧
        Represented live pins marked dirty store ideal := by
  intro store ideal h page store' hrun
  cases (h.getData_eq hpointer).symm.trans hrun
  exact ⟨_, ideal, rfl, rfl, h⟩

theorem setDirty (hpointer : pointer ∈ live) (hdirty : dirty pointer.slot) :
    Simulates (Represented live pins marked dirty)
      (PageStore.setDirty pointer : Prog (PoolStore K V) Unit)
      (PageStore.setDirty pointer.page : Prog (IdealStore K V) Unit)
      fun a b store ideal => b = a ∧
        Represented live pins (pointer :: marked) dirty store ideal := by
  intro store ideal h a store' hrun
  have hvalid := h.valid pointer hpointer
  cases (PoolStore.changeFrame_of_valid hvalid _).symm.trans hrun
  refine ⟨⟨⟩, ideal, rfl, rfl, h.setFrame rfl (h.wellFormed.data_isSome hvalid.1)
    (h.exposes.setFrame rfl fun himpossible => nomatch himpossible) rfl h.pins_live
    (fun _ => le_refl _) (h.pins_le hvalid.1) ?_ fun _ => hdirty⟩
  rintro p (_ | ⟨_, hp⟩)
  · exact ⟨hpointer, by rw [if_pos rfl]⟩
  · refine ⟨(h.marked_dirty p hp).1, ?_⟩
    split
    · rfl
    · exact (h.marked_dirty p hp).2

theorem setData (hpointer : pointer ∈ marked) (page : Page K V) :
    Simulates (Represented live pins marked dirty)
      (PageStore.setData pointer page : Prog (PoolStore K V) Unit)
      (PageStore.setData pointer.page page : Prog (IdealStore K V) Unit)
      fun a b store ideal => b = a ∧ Represented live pins marked dirty store ideal := by
  intro store ideal h a store' hrun
  obtain ⟨hlive, hframe⟩ := h.marked_dirty pointer hpointer
  have hvalid := h.valid pointer hlive
  have hpages : (ideal.write pointer.page page).pages =
      Function.update ideal.pages pointer.page page := by
    funext id
    exact (Function.update_apply _ _ _ _).symm
  cases (PoolStore.changeFrame_of_valid hvalid _).symm.trans hrun
  refine ⟨⟨⟩, ideal.write pointer.page page, rfl, rfl, h.setFrame rfl ⟨page, rfl⟩ ?_ rfl
    h.pins_live (fun _ => le_refl _) (h.pins_le hvalid.1) ?_
    fun _ => h.dirty_only hvalid.1 hframe⟩
  · rw [hpages]
    refine h.exposes.write h.wellFormed hvalid.1 ?_ rfl
    exact hframe
  · intro p hp
    refine ⟨(h.marked_dirty p hp).1, ?_⟩
    split
    · exact hframe
    · exact (h.marked_dirty p hp).2

theorem decreasePinCount :
    Simulates (Represented live (pointer :: pins) marked dirty)
      (PageStore.decreasePinCount pointer : Prog (PoolStore K V) Unit)
      (PageStore.decreasePinCount pointer.page : Prog (IdealStore K V) Unit)
      fun a b store ideal => b = a ∧ Represented live pins marked dirty store ideal := by
  intro store ideal h a store' hrun
  have hlive := h.pins_live pointer List.mem_cons_self
  have hvalid := h.valid pointer hlive
  have hcount : ∀ frame, ((pointer :: pins).map FramePointer.slot).count frame =
      (pins.map FramePointer.slot).count frame + if pointer.slot == frame then 1 else 0 :=
    fun frame => List.count_cons
  cases (PoolStore.changeFrame_of_valid hvalid _).symm.trans hrun
  refine ⟨⟨⟩, ideal, rfl, rfl, h.setFrame rfl (h.wellFormed.data_isSome hvalid.1)
    (h.exposes.setFrame rfl id) rfl (fun p hp => h.pins_live p (List.mem_cons_of_mem _ hp)) ?_ ?_
    ?_ (h.dirty_only hvalid.1)⟩
  · intro frame
    rw [hcount]
    omega
  · have hle := h.pins_le hvalid.1
    rw [hcount, if_pos (beq_self_eq_true _)] at hle
    exact Int.le_sub_one_of_lt (Int.lt_of_lt_of_le (Int.ofNat_lt.mpr (Nat.lt_succ_self _)) hle)
  · intro p hp
    obtain ⟨hmem, hframe⟩ := h.marked_dirty p hp
    refine ⟨hmem, ?_⟩
    split
    next heq =>
      rw [heq] at hframe
      exact hframe
    next => exact hframe

/-! ## Allocation and flushing -/

theorem allocateNewPage :
    Simulates (Represented live pins marked dirty)
      (PageStore.allocateNewPage : Prog (PoolStore K V) PageId)
      (PageStore.allocateNewPage : Prog (IdealStore K V) PageId)
      fun id id' store ideal => id' = id ∧ Represented live pins marked dirty store ideal := by
  intro store ideal h id store' hrun
  cases hrun
  refine ⟨_, _, rfl, h.nextPage_eq.symm, ?_⟩
  have hwf := h.wellFormed
  refine ⟨⟨hwf.partition, hwf.frameId_eq, hwf.data_isSome, hwf.page_nonneg, hwf.replacer_size,
    hwf.replacer_k, hwf.tracked⟩, h.exposes.of_frames rfl rfl (fun _ => rfl) (fun _ => id),
    congrArg (· + 1) h.nextPage_eq, h.noStaleAccess, h.valid, h.pins_live, h.pins_le,
    h.marked_dirty, h.dirty_only⟩

/-- After `flush_pages` no frame is dirty, and no pointer is to be used any more. -/
theorem flushPages :
    Simulates (Represented live pins marked dirty)
      (PageStore.flushPages : Prog (PoolStore K V) Bool)
      (PageStore.flushPages : Prog (IdealStore K V) Bool)
      fun _ _ store ideal => Represented [] [] [] (fun _ => False) store ideal := by
  intro store ideal h flag store' hrun
  obtain ⟨flag', pool', writes, heval, hflushed⟩ := BufferPool.flushPages_spec h.wellFormed
  cases (PoolStore.onBuffer_of_ok heval).symm.trans hrun
  refine ⟨true, ideal, rfl, hflushed.wellFormed, (h.exposes.flushedAll hflushed).1,
    hflushed.nextPage_eq.trans h.nextPage_eq, h.noStaleAccess, ?_, ?_, ?_, ?_, ?_⟩
  · intro p hp
    cases hp
  · intro p hp
    cases hp
  · intro id frame hmaps
    rw [hflushed.frames_eq id frame hmaps]
    exact (Int.natCast_nonneg _).trans (h.pins_le ((hflushed.maps_iff id frame).mp hmaps).1)
  · intro p hp
    cases hp
  · intro id frame hmaps hframe
    rw [hflushed.frames_eq id frame hmaps, ((hflushed.maps_iff id frame).mp hmaps).2] at hframe
    cases hframe

/-- Flushing the only page whose frame is dirty. -/
theorem flushPage (hpointer : pointer ∈ marked) :
    Simulates (Represented live pins marked fun frame => frame = pointer.slot)
      (PageStore.flushPage pointer.page : Prog (PoolStore K V) Bool)
      (PageStore.flushPage pointer.page : Prog (IdealStore K V) Bool)
      fun _ _ store ideal => Represented [] [] [] (fun _ => False) store ideal := by
  intro store ideal h flag store' hrun
  obtain ⟨hlive, hframe⟩ := h.marked_dirty pointer hpointer
  obtain ⟨hmaps, _⟩ := h.valid pointer hlive
  have hdata := h.exposes.mapped hmaps
  have heval := BufferPool.flushPage_of_dirty h.wellFormed hmaps hframe hdata true
  have hwf := h.wellFormed.flushed pointer.page pointer.slot (ideal.pages pointer.page)
  have hevicted := (h.exposes.flushed hmaps hframe).evicted hwf hmaps (Function.update_self _ _ _)
  have hothers : ∀ {id frame}, ((store.pool.flushed pointer.page pointer.slot
      (ideal.pages pointer.page)).evicted pointer.page pointer.slot).Maps id frame →
      frame ≠ pointer.slot ∧ store.pool.Maps id frame ∧
        ((store.pool.flushed pointer.page pointer.slot (ideal.pages pointer.page)).evicted
          pointer.page pointer.slot).frames frame = store.pool.frames frame := by
    intro id frame hother
    obtain ⟨hne, hbefore⟩ := BufferPool.evicted_maps_iff.mp hother
    have hslot : frame ≠ pointer.slot := by
      rintro rfl
      exact hne (h.wellFormed.maps_inj hbefore hmaps)
    refine ⟨hslot, hbefore, (BufferPool.evicted_frames hwf hmaps hother).trans ?_⟩
    exact (BufferPool.flushed_frames _ _ _ _ _).trans (if_neg hslot)
  cases (PoolStore.onBuffer_of_ok heval).symm.trans hrun
  refine ⟨true, ideal, rfl, hwf.evicted hmaps, hevicted, h.nextPage_eq, h.noStaleAccess, ?_, ?_,
    ?_, ?_, ?_⟩
  · intro p hp
    cases hp
  · intro p hp
    cases hp
  · intro id frame hother
    obtain ⟨_, hbefore, heq⟩ := hothers hother
    refine ((Int.natCast_nonneg _).trans (h.pins_le hbefore)).trans (le_of_eq ?_)
    exact (congrArg FrameHeader.pinCount heq).symm
  · intro p hp
    cases hp
  · intro id frame hother hdirty
    obtain ⟨hslot, hbefore, heq⟩ := hothers hother
    exact hslot (h.dirty_only hbefore ((congrArg FrameHeader.isDirty heq).symm.trans hdirty))

end Represented

end HiveDb.BPlusTree
