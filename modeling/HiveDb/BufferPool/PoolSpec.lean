import HiveDb.BufferPool.BufferPool
import Mathlib.Data.List.Range

/-!
# What the operations of the pool do

In a well-formed pool the mapped frames and the free list divide the slots
among them.  Evicting, flushing, loading and touching a page are described by
the states they leave behind; these are well-formed again.
-/

namespace HiveDb

open HiveDb.Lib

variable {δ B : Type}

/-! ## The slots -/

theorem mem_slots {maxFrames : Nat} {frame : FrameId} :
    frame ∈ slots maxFrames ↔ 0 ≤ frame ∧ frame < maxFrames := by
  constructor
  · intro hmem
    obtain ⟨i, hi, rfl⟩ := List.mem_map.mp hmem
    exact ⟨Int.natCast_nonneg i, Int.ofNat_lt.mpr (List.mem_range.mp hi)⟩
  · rintro ⟨hnonneg, hlt⟩
    refine List.mem_map.mpr ⟨frame.toNat, List.mem_range.mpr ?_, Int.toNat_of_nonneg hnonneg⟩
    exact (Int.toNat_lt hnonneg).mpr hlt

theorem slots_nodup (maxFrames : Nat) : (slots maxFrames).Nodup :=
  (List.nodup_range).map fun _ _ heq => Int.ofNat.inj heq

@[simp] theorem length_slots (maxFrames : Nat) : (slots maxFrames).length = maxFrames := by
  rw [slots, List.length_map, List.length_range]

namespace BufferPool

/-! ## Well-formed pools -/

/-- The page table maps the page to the slot. -/
def Maps (pool : BufferPool δ B) (id : PageId) (frame : FrameId) : Prop :=
  pool.pageTable.find? id = some frame

instance (pool : BufferPool δ B) (id : PageId) (frame : FrameId) :
    Decidable (pool.Maps id frame) :=
  inferInstanceAs (Decidable (pool.pageTable.find? id = some frame))

structure WellFormed (pool : BufferPool δ B) : Prop where
  /-- Every slot is mapped once or free once. -/
  partition : (pool.pageTable.values ++ pool.emptyFrames).Perm (slots pool.maxFrames)
  frameId_eq : ∀ {id frame}, pool.Maps id frame → (pool.frames frame).frameId = frame
  data_isSome : ∀ {id frame}, pool.Maps id frame → ∃ data, (pool.frames frame).data = some data
  page_nonneg : ∀ {id frame}, pool.Maps id frame → 0 ≤ id
  replacer_size : pool.frameReplacer.size = pool.maxFrames
  replacer_k : pool.frameReplacer.k = 10
  tracked : pool.frameReplacer.InRange

namespace WellFormed

variable {pool : BufferPool δ B} {id other : PageId} {frame : FrameId}

theorem nodup (hwf : pool.WellFormed) : (pool.pageTable.values ++ pool.emptyFrames).Nodup :=
  hwf.partition.nodup_iff.mpr (slots_nodup _)

theorem hasFrame_of_maps (hwf : pool.WellFormed) (hmaps : pool.Maps id frame) :
    pool.hasFrame frame :=
  mem_slots.mp (hwf.partition.subset
    (List.mem_append_left _ (UnorderedMap.mem_values_of_find? hmaps)))

theorem hasFrame_of_empty (hwf : pool.WellFormed) (hempty : frame ∈ pool.emptyFrames) :
    pool.hasFrame frame :=
  mem_slots.mp (hwf.partition.subset (List.mem_append_right _ hempty))

theorem maps_inj (hwf : pool.WellFormed) (hmaps : pool.Maps id frame)
    (hmaps' : pool.Maps other frame) : id = other := by
  have hnodup := (List.nodup_append.mp hwf.nodup).1
  have heq := List.inj_on_of_nodup_map hnodup (UnorderedMap.mem_pairs_iff.mpr hmaps)
    (UnorderedMap.mem_pairs_iff.mpr hmaps') rfl
  exact congrArg Prod.fst heq

theorem not_maps_of_empty (hwf : pool.WellFormed) (hempty : frame ∈ pool.emptyFrames) :
    ¬ pool.Maps id frame := fun hmaps =>
  (List.nodup_append.mp hwf.nodup).2.2 frame (UnorderedMap.mem_values_of_find? hmaps) frame hempty
    rfl

/-- The page of a mapped slot is found by scanning the table. -/
theorem findIf?_eq (hwf : pool.WellFormed) (hmaps : pool.Maps id frame) :
    pool.pageTable.findIf? (fun pair => pair.2 = frame) = some (id, frame) :=
  UnorderedMap.findIf?_value (List.nodup_append.mp hwf.nodup).1 hmaps

theorem size_lt_iff (hwf : pool.WellFormed) :
    pool.pageTable.size < pool.maxFrames ↔ pool.emptyFrames ≠ [] := by
  have hlength := hwf.partition.length_eq
  rw [List.length_append, length_slots] at hlength
  rw [UnorderedMap.size_eq_length_values, ← hlength, ← List.length_pos_iff]
  omega

/-- Without a free slot every slot is mapped. -/
theorem exists_maps_of_full (hwf : pool.WellFormed) (hfull : pool.emptyFrames = [])
    (hframe : pool.hasFrame frame) : ∃ id, pool.Maps id frame := by
  have hmem := hwf.partition.symm.subset (mem_slots.mpr hframe)
  rw [hfull, List.append_nil] at hmem
  obtain ⟨⟨id, frame'⟩, hpair, rfl⟩ := List.mem_map.mp hmem
  exact ⟨id, UnorderedMap.mem_pairs_iff.mp hpair⟩

theorem lt_size (hwf : pool.WellFormed) (hframe : pool.hasFrame frame) :
    frame < pool.frameReplacer.size := by
  rw [hwf.replacer_size]
  exact hframe.2

end WellFormed

/-- A pool as the constructor makes it. -/
def initial (maxFrames : Nat) (disk : δ) (order : IterationOrder PageId FrameId) :
    BufferPool δ B where
  maxFrames := maxFrames
  disk := disk
  frameReplacer := ⟨10, maxFrames, ∅, 0⟩
  nextPage := 0
  pageTable := .empty order
  frames := fun _ => {}
  emptyFrames := slots maxFrames

theorem new_eq (maxFrames : Nat) (disk : δ) (order : IterationOrder PageId FrameId) :
    new (B := B) maxFrames disk order = .ok (initial maxFrames disk order) := by
  have hnonneg : ¬ ((maxFrames : Int) < 0) := Int.not_lt.mpr (Int.natCast_nonneg maxFrames)
  have hk : ¬ (k < 0 ∨ (maxFrames : Int) < 0) := by
    rintro (hneg | hneg)
    · exact absurd hneg (by decide)
    · exact hnonneg hneg
  rw [new, LruK.new, if_neg hk, except_pure, ok_bind, if_neg hnonneg, Int.toNat_natCast]
  rfl

/-- Every pool that is constructed is an initial one. -/
theorem eq_initial_of_new {maxFrames : FrameId} {disk : δ} {order : IterationOrder PageId FrameId}
    {pool : BufferPool δ B} (hnew : new maxFrames disk order = .ok pool) :
    ∃ n : Nat, maxFrames = n ∧ pool = initial n disk order := by
  rcases Int.lt_or_le maxFrames 0 with hneg | hnonneg
  · rw [new, LruK.new, if_pos (.inr hneg)] at hnew
    cases hnew
  · obtain ⟨n, rfl⟩ := Int.eq_ofNat_of_zero_le hnonneg
    cases (new_eq n disk order).symm.trans hnew
    exact ⟨n, rfl, rfl⟩

theorem WellFormed.initial (maxFrames : Nat) (disk : δ) (order : IterationOrder PageId FrameId) :
    (initial maxFrames disk order : BufferPool δ B).WellFormed where
  partition := List.Perm.refl _
  frameId_eq hmaps := nomatch (UnorderedMap.find?_empty order _).symm.trans hmaps
  data_isSome hmaps := nomatch (UnorderedMap.find?_empty order _).symm.trans hmaps
  page_nonneg hmaps := nomatch (UnorderedMap.find?_empty order _).symm.trans hmaps
  replacer_size := rfl
  replacer_k := rfl
  tracked _ _ hnode := nomatch Std.TreeMap.getElem?_emptyc.symm.trans hnode

theorem setFrame_frames_self (pool : BufferPool δ B) (frame : FrameId) (header : FrameHeader B) :
    (pool.setFrame frame header).frames frame = header := Function.update_self _ _ _

theorem setFrame_frames_ne (pool : BufferPool δ B) {frame slot : FrameId} (hne : slot ≠ frame)
    (header : FrameHeader B) : (pool.setFrame frame header).frames slot = pool.frames slot :=
  Function.update_of_ne hne _ _

theorem WellFormed.of_new {maxFrames : FrameId} {disk : δ}
    {order : IterationOrder PageId FrameId} {pool : BufferPool δ B}
    (hnew : new maxFrames disk order = .ok pool) : pool.WellFormed := by
  obtain ⟨n, _, rfl⟩ := eq_initial_of_new hnew
  exact .initial n disk order

theorem WellFormed.setFrame {pool : BufferPool δ B} {frame : FrameId} (hwf : pool.WellFormed)
    {header : FrameHeader B}
    (hid : header.frameId = (pool.frames frame).frameId)
    (hdata : (∃ data, (pool.frames frame).data = some data) → ∃ data, header.data = some data) :
    (pool.setFrame frame header).WellFormed := by
  refine ⟨hwf.partition, fun {id slot} hmaps => ?_, fun {id slot} hmaps => ?_, hwf.page_nonneg,
    hwf.replacer_size, hwf.replacer_k, hwf.tracked⟩
  · by_cases heq : slot = frame
    · rw [heq, setFrame_frames_self, hid]
      exact hwf.frameId_eq (heq ▸ hmaps)
    · rw [setFrame_frames_ne _ heq]
      exact hwf.frameId_eq hmaps
  · by_cases heq : slot = frame
    · rw [heq, setFrame_frames_self]
      exact hdata (hwf.data_isSome (heq ▸ hmaps))
    · rw [setFrame_frames_ne _ heq]
      exact hwf.data_isSome hmaps

/-! ## Evaluation of the parts -/

section Parts

variable {pool : BufferPool δ B} {frame : FrameId}

theorem onReplacer_eq {op : LruK → Except Failure LruK} {replacer : LruK}
    (hop : op pool.frameReplacer = .ok replacer) :
    onReplacer op pool = .ok () { pool with frameReplacer := replacer } := by
  rw [onReplacer, bind_of_ok (get_apply pool), hop]
  rfl

theorem frameAt_eq (hframe : pool.hasFrame frame) :
    frameAt frame pool = .ok (pool.frames frame) pool := by
  rw [frameAt, bind_of_ok (get_apply pool), if_pos hframe]
  rfl

theorem frameOf_eq (hframe : pool.hasFrame frame) :
    frameOf frame pool = .ok (pool.frames frame) pool := by
  rw [frameOf, bind_of_ok (get_apply pool), if_pos hframe]
  rfl

theorem assignFrame_default (hframe : pool.hasFrame frame) :
    assignFrame frame {} pool = .ok () (pool.setFrame frame {}) := by
  rw [assignFrame, bind_of_ok (frameOf_eq hframe)]
  rfl

theorem assignFrame_new (hframe : pool.hasFrame frame) (hlt : frame < pool.frameReplacer.size)
    (buffer : B) :
    assignFrame frame (.new frame buffer) pool =
      .ok () { pool.setFrame frame (.new frame buffer) with
        frameReplacer := pool.frameReplacer.flagged frame true } := by
  rw [assignFrame, bind_of_ok (frameOf_eq hframe), bind_of_ok (modify_apply _ _),
    if_pos (show (FrameHeader.new frame buffer).hasReplacer = true from rfl)]
  exact onReplacer_eq (LruK.setEvictable_of_lt hlt true)

theorem frontEmptyFrame_eq {rest : List FrameId} (hempty : pool.emptyFrames = frame :: rest) :
    frontEmptyFrame pool = .ok frame pool := by
  rw [frontEmptyFrame, bind_of_ok (get_apply pool), hempty]
  rfl

end Parts

/-! ## Evicting a page -/

/-- The pool after a page has been unmapped from its slot. -/
def evicted (pool : BufferPool δ B) (id : PageId) (frame : FrameId) : BufferPool δ B :=
  { pool with
    frameReplacer := pool.frameReplacer.removed frame
    pageTable := pool.pageTable.erase id
    frames := Function.update pool.frames frame {}
    emptyFrames := pool.emptyFrames ++ [frame] }

section Evict

variable {pool : BufferPool δ B} {id other : PageId} {frame slot : FrameId}

theorem evictPage_eq (hwf : pool.WellFormed) (hmaps : pool.Maps id frame) :
    evictPage id pool = .ok frame (pool.evicted id frame) := by
  have hframe := hwf.hasFrame_of_maps hmaps
  have hfind : pool.pageTable.find? id = some frame := hmaps
  rw [evictPage, bind_of_ok (get_apply pool)]
  simp only [hfind]
  refine (bind_of_ok (onReplacer_eq (LruK.remove_of_lt (hwf.lt_size hframe)))).trans ?_
  refine (bind_of_ok (modify_apply _ _)).trans ?_
  refine (bind_of_ok (frameOf_eq (by exact hframe))).trans ?_
  rw [assertThat_of (by exact hwf.frameId_eq hmaps)]
  refine (bind_of_ok (liftPure_ok _ _)).trans ?_
  exact bind_of_ok (assignFrame_default (by exact hframe))

theorem evicted_maps_iff :
    (pool.evicted id frame).Maps other slot ↔ other ≠ id ∧ pool.Maps other slot := by
  constructor
  · intro hmaps
    exact UnorderedMap.find?_of_find?_erase hmaps
  · rintro ⟨hne, hmaps⟩
    exact (UnorderedMap.find?_erase_ne hne).trans hmaps

/-- The other mapped frames stay as they are. -/
theorem evicted_frames (hwf : pool.WellFormed) (hmaps : pool.Maps id frame)
    (hother : (pool.evicted id frame).Maps other slot) :
    (pool.evicted id frame).frames slot = pool.frames slot := by
  obtain ⟨hne, hbefore⟩ := evicted_maps_iff.mp hother
  refine Function.update_of_ne ?_ _ _
  intro heq
  exact hne (hwf.maps_inj (heq ▸ hbefore) hmaps)

theorem WellFormed.evicted (hwf : pool.WellFormed) (hmaps : pool.Maps id frame) :
    (pool.evicted id frame).WellFormed where
  partition := by
    refine List.Perm.trans ?_ hwf.partition
    have hvalues := UnorderedMap.values_erase_perm hmaps
    refine List.Perm.trans ?_ (hvalues.symm.append_right _)
    refine (List.Perm.of_eq (List.append_assoc _ _ _).symm).trans ?_
    exact List.perm_append_singleton frame _
  frameId_eq hother := by
    rw [evicted_frames hwf hmaps hother]
    exact hwf.frameId_eq (evicted_maps_iff.mp hother).2
  data_isSome hother := by
    rw [evicted_frames hwf hmaps hother]
    exact hwf.data_isSome (evicted_maps_iff.mp hother).2
  page_nonneg hother := hwf.page_nonneg (evicted_maps_iff.mp hother).2
  replacer_size := LruK.removed_size.trans hwf.replacer_size
  replacer_k := LruK.removed_k.trans hwf.replacer_k
  tracked := hwf.tracked.removed frame

end Evict

/-! ## Flushing a page -/

section Flush

variable [DiskManagerT δ B] {pool : BufferPool δ B} {id other : PageId} {frame slot : FrameId}
variable {data : B}

/-- The pool after a page has been written back and its frame unpinned once. -/
def flushed (pool : BufferPool δ B) (id : PageId) (frame : FrameId) (data : B) : BufferPool δ B :=
  { pool with
    disk := DiskManagerT.writePage id data pool.disk
    frames := Function.update pool.frames frame (pool.frames frame).decreasePinCount }

/-- Writing a page back changes the pin count of its frame only. -/
theorem flushed_frames (pool : BufferPool δ B) (id : PageId) (frame : FrameId) (data : B)
    (slot : FrameId) :
    (pool.flushed id frame data).frames slot =
      if slot = frame then (pool.frames slot).decreasePinCount else pool.frames slot := by
  by_cases heq : slot = frame
  · rw [if_pos heq, heq]
    exact Function.update_self _ _ _
  · rw [if_neg heq]
    exact Function.update_of_ne heq _ _

@[simp] theorem flushed_isDirty :
    ((pool.flushed id frame data).frames slot).isDirty = (pool.frames slot).isDirty := by
  rw [flushed_frames]
  split <;> rfl

@[simp] theorem flushed_data :
    ((pool.flushed id frame data).frames slot).data = (pool.frames slot).data := by
  rw [flushed_frames]
  split <;> rfl

@[simp] theorem flushed_frameId :
    ((pool.flushed id frame data).frames slot).frameId = (pool.frames slot).frameId := by
  rw [flushed_frames]
  split <;> rfl

theorem WellFormed.flushed (hwf : pool.WellFormed) (id : PageId) (frame : FrameId) (data : B) :
    (pool.flushed id frame data).WellFormed where
  partition := hwf.partition
  frameId_eq hother := flushed_frameId.trans (hwf.frameId_eq hother)
  data_isSome hother := by
    rw [flushed_data]
    exact hwf.data_isSome hother
  page_nonneg hother := hwf.page_nonneg hother
  replacer_size := hwf.replacer_size
  replacer_k := hwf.replacer_k
  tracked := hwf.tracked

theorem flushPage_of_absent (habsent : pool.pageTable.find? id = none) (shouldEvict : Bool) :
    flushPage id shouldEvict pool = .ok false pool := by
  rw [flushPage, bind_of_ok (get_apply pool), habsent]
  rfl

theorem flushPage_of_clean (hwf : pool.WellFormed) (hmaps : pool.Maps id frame)
    (hclean : (pool.frames frame).isDirty = false) (shouldEvict : Bool) :
    flushPage id shouldEvict pool = .error .assertion pool := by
  have hfind : pool.pageTable.find? id = some frame := hmaps
  rw [flushPage, bind_of_ok (get_apply pool)]
  simp only [hfind]
  rw [bind_of_ok (frameAt_eq (hwf.hasFrame_of_maps hmaps)), hclean]
  rfl

theorem flushPage_of_dirty (hwf : pool.WellFormed) (hmaps : pool.Maps id frame)
    (hdirty : (pool.frames frame).isDirty = true) (hdata : (pool.frames frame).data = some data)
    (shouldEvict : Bool) :
    flushPage id shouldEvict pool = .ok true
      (if shouldEvict then (pool.flushed id frame data).evicted id frame
        else pool.flushed id frame data) := by
  have hfind : pool.pageTable.find? id = some frame := hmaps
  have hframeData : frameData (pool.frames frame) = .ok data := by
    rw [frameData, hdata]
    rfl
  have hflushed := hwf.flushed id frame data
  rw [flushPage, bind_of_ok (get_apply pool)]
  simp only [hfind]
  rw [bind_of_ok (frameAt_eq (hwf.hasFrame_of_maps hmaps)), assertThat_of hdirty,
    bind_of_ok (liftPure_ok _ _), hframeData, bind_of_ok (liftPure_ok _ _)]
  refine (bind_of_ok rfl).trans ?_
  cases shouldEvict with
  | false => rfl
  | true =>
      refine (bind_of_ok rfl).trans ?_
      refine (bind_of_ok (evictPage_eq hflushed hmaps)).trans ?_
      rw [assertThat_of (hwf.frameId_eq hmaps)]
      rfl

end Flush

/-! ## Loading and touching a page -/

section Load

variable {pool : BufferPool δ B} {id other : PageId} {frame slot : FrameId}

/-- The pool after a page has been loaded into the first free slot. -/
def loaded (pool : BufferPool δ B) (id : PageId) (frame : FrameId) (buffer : B) (shouldPin : Bool)
    (replacer : LruK) : BufferPool δ B :=
  { pool with
    frameReplacer := replacer
    pageTable := pool.pageTable.assign id frame
    frames := Function.update pool.frames frame ((FrameHeader.new frame buffer).pinnedIf shouldPin)
    emptyFrames := pool.emptyFrames.tail }

/-- The pool after a page that is mapped already has been requested. -/
def touched (pool : BufferPool δ B) (frame : FrameId) (shouldPin : Bool) : BufferPool δ B :=
  { pool with
    frameReplacer := (pool.frameReplacer.accessed frame).flagged frame false
    frames := Function.update pool.frames frame ((pool.frames frame).pinnedIf shouldPin) }

theorem loaded_maps_self (buffer : B) (shouldPin : Bool) (replacer : LruK) :
    (pool.loaded id frame buffer shouldPin replacer).Maps id frame :=
  UnorderedMap.find?_assign_self

theorem loaded_maps_iff (hne : other ≠ id) (buffer : B) (shouldPin : Bool) (replacer : LruK) :
    (pool.loaded id frame buffer shouldPin replacer).Maps other slot ↔ pool.Maps other slot := by
  rw [Maps, Maps]
  exact Eq.congr_left (UnorderedMap.find?_assign_ne hne)

theorem loaded_frames_self (buffer : B) (shouldPin : Bool) (replacer : LruK) :
    (pool.loaded id frame buffer shouldPin replacer).frames frame =
      (FrameHeader.new frame buffer).pinnedIf shouldPin :=
  Function.update_self _ _ _

theorem loaded_frames_ne (hne : slot ≠ frame) (buffer : B) (shouldPin : Bool) (replacer : LruK) :
    (pool.loaded id frame buffer shouldPin replacer).frames slot = pool.frames slot :=
  Function.update_of_ne hne _ _

@[simp] theorem pinnedIf_data (header : FrameHeader B) (shouldPin : Bool) :
    (header.pinnedIf shouldPin).data = header.data := by
  cases shouldPin <;> rfl

theorem pinnedIf_pinCount (header : FrameHeader B) (shouldPin : Bool) :
    (header.pinnedIf shouldPin).pinCount = header.pinCount + if shouldPin then 1 else 0 := by
  cases shouldPin with
  | false => exact (Int.add_zero _).symm
  | true => rfl

@[simp] theorem pinnedIf_isDirty (header : FrameHeader B) (shouldPin : Bool) :
    (header.pinnedIf shouldPin).isDirty = header.isDirty := by
  cases shouldPin <;> rfl

@[simp] theorem pinnedIf_frameId (header : FrameHeader B) (shouldPin : Bool) :
    (header.pinnedIf shouldPin).frameId = header.frameId := by
  cases shouldPin <;> rfl

theorem touched_frames (pool : BufferPool δ B) (frame : FrameId) (shouldPin : Bool)
    (slot : FrameId) :
    (pool.touched frame shouldPin).frames slot =
      if slot = frame then (pool.frames slot).pinnedIf shouldPin else pool.frames slot := by
  by_cases heq : slot = frame
  · rw [if_pos heq, heq]
    exact Function.update_self _ _ _
  · rw [if_neg heq]
    exact Function.update_of_ne heq _ _

@[simp] theorem touched_isDirty (shouldPin : Bool) :
    ((pool.touched frame shouldPin).frames slot).isDirty = (pool.frames slot).isDirty := by
  rw [touched_frames]
  split
  · exact pinnedIf_isDirty _ _
  · rfl

@[simp] theorem touched_data (shouldPin : Bool) :
    ((pool.touched frame shouldPin).frames slot).data = (pool.frames slot).data := by
  rw [touched_frames]
  split
  · exact pinnedIf_data _ _
  · rfl

@[simp] theorem touched_frameId (shouldPin : Bool) :
    ((pool.touched frame shouldPin).frames slot).frameId = (pool.frames slot).frameId := by
  rw [touched_frames]
  split
  · exact pinnedIf_frameId _ _
  · rfl

theorem WellFormed.touched (hwf : pool.WellFormed) (hframe : pool.hasFrame frame)
    (shouldPin : Bool) : (pool.touched frame shouldPin).WellFormed where
  partition := hwf.partition
  frameId_eq hother := (touched_frameId shouldPin).trans (hwf.frameId_eq hother)
  data_isSome hother := by
    rw [touched_data]
    exact hwf.data_isSome hother
  page_nonneg hother := hwf.page_nonneg hother
  replacer_size := by
    refine LruK.flagged_size false |>.trans (LruK.accessed_size.trans ?_)
    exact hwf.replacer_size
  replacer_k := by
    refine LruK.flagged_k false |>.trans (LruK.accessed_k.trans ?_)
    exact hwf.replacer_k
  tracked := (hwf.tracked.accessed ⟨hframe.1, hwf.lt_size hframe⟩).flagged frame false

/-- A page that is not mapped is loaded into the first free slot. -/
theorem WellFormed.loaded (hwf : pool.WellFormed) (hid : 0 ≤ id)
    (habsent : pool.pageTable.find? id = none) {rest : List FrameId}
    (hempty : pool.emptyFrames = frame :: rest) {replacer : LruK}
    (hsize : replacer.size = pool.maxFrames) (hk : replacer.k = 10) (htracked : replacer.InRange)
    (buffer : B) (shouldPin : Bool) :
    (pool.loaded id frame buffer shouldPin replacer).WellFormed := by
  have hfree : frame ∈ pool.emptyFrames := by
    rw [hempty]
    exact List.mem_cons_self
  have hcases : ∀ {other slot}, (pool.loaded id frame buffer shouldPin replacer).Maps other slot →
      (other = id ∧ slot = frame) ∨ (slot ≠ frame ∧ pool.Maps other slot) := by
    intro other slot hmaps
    by_cases heq : other = id
    · rw [heq] at hmaps
      cases hmaps.symm.trans (loaded_maps_self buffer shouldPin replacer)
      exact .inl ⟨heq, rfl⟩
    · have hbefore := (loaded_maps_iff heq buffer shouldPin replacer).mp hmaps
      refine .inr ⟨?_, hbefore⟩
      rintro rfl
      exact hwf.not_maps_of_empty hfree hbefore
  constructor
  · refine List.Perm.trans ?_ hwf.partition
    have hvalues := UnorderedMap.values_assign_perm habsent frame
    refine (hvalues.append_right _).trans ?_
    rw [BufferPool.loaded, hempty]
    exact List.perm_middle.symm
  · intro other slot hmaps
    rcases hcases hmaps with ⟨_, rfl⟩ | ⟨hne, hbefore⟩
    · rw [loaded_frames_self, pinnedIf_frameId]
      rfl
    · rw [loaded_frames_ne hne]
      exact hwf.frameId_eq hbefore
  · intro other slot hmaps
    rcases hcases hmaps with ⟨_, rfl⟩ | ⟨hne, hbefore⟩
    · rw [loaded_frames_self, pinnedIf_data]
      exact ⟨buffer, rfl⟩
    · rw [loaded_frames_ne hne]
      exact hwf.data_isSome hbefore
  · intro other slot hmaps
    rcases hcases hmaps with ⟨rfl, _⟩ | ⟨_, hbefore⟩
    · exact hid
    · exact hwf.page_nonneg hbefore
  · exact hsize
  · exact hk
  · exact htracked

end Load

end BufferPool

end HiveDb
