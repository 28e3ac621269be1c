import HiveDb.BufferPool.PoolSpec

/-!
# Requesting a page

A request finds its page mapped, or loads it into a free slot, or replaces a
dirty page that is not pinned after writing it back, or replaces the victim of
the replacer, which is not written back.
-/

namespace HiveDb

open HiveDb.Lib

namespace BufferPool

variable {δ B : Type}

section Outcomes

variable {pool : BufferPool δ B} {id owner : PageId} {frame : FrameId} {shouldPin : Bool}

/-- The replacer after a page has been loaded into a slot. -/
def replacerAfterLoad (replacer : LruK) (frame : FrameId) : LruK :=
  (replacer.flagged frame true).accessed frame

/-- The pool after the replacer has given up a frame. -/
def withoutVictim (pool : BufferPool δ B) (frame : FrameId) : BufferPool δ B :=
  { pool with frameReplacer := pool.frameReplacer.eraseNode frame }

theorem WellFormed.withoutVictim (hwf : pool.WellFormed) (frame : FrameId) :
    (pool.withoutVictim frame).WellFormed :=
  ⟨hwf.partition, hwf.frameId_eq, hwf.data_isSome, hwf.page_nonneg, hwf.replacer_size,
    hwf.replacer_k, hwf.tracked.eraseNode frame⟩

/-- The page is not mapped and no slot is free. -/
structure FullFault (pool : BufferPool δ B) (id : PageId) : Prop where
  absent : pool.pageTable.find? id = none
  full : pool.emptyFrames = []

/-- What the scan for a dirty page finds. -/
theorem dirtyUnpinned?_eq_some (h : pool.dirtyUnpinned? = some frame) :
    pool.hasFrame frame ∧ (pool.frames frame).isDirty = true ∧
      (pool.frames frame).pinCount = 0 := by
  refine ⟨mem_slots.mp (List.mem_of_find?_eq_some h), ?_⟩
  have hfound : ((pool.frames frame).isDirty && (pool.frames frame).pinCount == 0) = true := by
    simpa using List.find?_some h
  obtain ⟨hdirty, hpin⟩ := Bool.and_eq_true_iff.mp hfound
  exact ⟨hdirty, eq_of_beq hpin⟩

theorem dirtyUnpinned?_eq_none_iff :
    pool.dirtyUnpinned? = none ↔
      ∀ frame, pool.hasFrame frame → (pool.frames frame).isDirty = true →
        (pool.frames frame).pinCount ≠ 0 := by
  rw [dirtyUnpinned?, List.find?_eq_none]
  constructor
  · intro hnone frame hframe hdirty hpin
    exact hnone frame (mem_slots.mpr hframe) (by rw [hdirty, hpin]; rfl)
  · intro hnone frame hmem hfound
    obtain ⟨hdirty, hpin⟩ := Bool.and_eq_true_iff.mp hfound
    exact hnone frame (mem_slots.mp hmem) hdirty (eq_of_beq hpin)

theorem loadIntoEmptyFrame_eq (hwf : pool.WellFormed) (habsent : pool.pageTable.find? id = none)
    {rest : List FrameId} (hfree : pool.emptyFrames = frame :: rest) (buffer : B) :
    loadIntoEmptyFrame id shouldPin buffer pool = .ok frame
      (pool.loaded id frame buffer shouldPin (replacerAfterLoad pool.frameReplacer frame)) := by
  have hframe : pool.hasFrame frame :=
    hwf.hasFrame_of_empty (by rw [hfree]; exact List.mem_cons_self)
  have hlt := hwf.lt_size hframe
  have haccess : LruK.recordAccess frame (pool.frameReplacer.flagged frame true) =
      .ok (replacerAfterLoad pool.frameReplacer frame) :=
    LruK.recordAccess_of_lt (by rw [LruK.flagged_size]; exact hlt)
  rw [loadIntoEmptyFrame, bind_of_ok (get_apply pool),
    assertThat_of (by rw [hfree]; exact List.cons_ne_nil _ _), bind_of_ok (liftPure_ok _ _),
    bind_of_ok (frontEmptyFrame_eq hfree)]
  refine (bind_of_ok rfl).trans ?_
  refine (bind_of_ok (get_apply _)).trans ?_
  rw [assertThat_of (by exact hframe.2)]
  refine (bind_of_ok (liftPure_ok _ _)).trans ?_
  refine (bind_of_ok (assignFrame_new (by exact hframe) (by exact hlt) buffer)).trans ?_
  refine (bind_of_ok (onReplacer_eq haccess)).trans ?_
  refine (bind_of_ok rfl).trans ?_
  simp only [setFrame, Function.update_idem, Function.update_self, pure_apply,
    UnorderedMap.emplace_of_none habsent]
  rfl

/-- The pool after the replacer's victim has been replaced. -/
def victimReplaced (pool : BufferPool δ B) (id owner : PageId) (frame : FrameId) (buffer : B)
    (shouldPin : Bool) : BufferPool δ B :=
  let evictedPool := (pool.withoutVictim frame).evicted owner frame
  evictedPool.loaded id frame buffer shouldPin
    (replacerAfterLoad evictedPool.frameReplacer frame)

theorem replaceVictim_noVictim (hwf : pool.WellFormed)
    (hnone : ∀ frame, ¬ pool.frameReplacer.IsVictim frame) (buffer : B) :
    replaceVictim id shouldPin buffer pool =
      .error (.runtimeError "frame_replacer.evict() failed; got -1 or invalid frame") pool := by
  rcases LruK.evict_spec (hwf.replacer_k ▸ by decide) hwf.tracked with ⟨hevict, _⟩ | ⟨f, hvictim, _⟩
  · have hrun : evictFrame pool = .ok none pool := by
      rw [evictFrame, bind_of_ok (get_apply pool), hevict]
      rfl
    rw [replaceVictim, bind_of_ok hrun]
    rfl
  · exact absurd hvictim (hnone f)

theorem evictFrame_eq (hwf : pool.WellFormed) (hvictim : pool.frameReplacer.IsVictim frame) :
    evictFrame pool = .ok (some frame) (pool.withoutVictim frame) := by
  rcases LruK.evict_spec (hwf.replacer_k ▸ by decide) hwf.tracked with
    ⟨_, hnone⟩ | ⟨f, hpick, hevict⟩
  · exact absurd hvictim (hnone frame)
  · obtain rfl := hvictim.unique hpick
    rw [evictFrame, bind_of_ok (get_apply pool), hevict]
    rfl

theorem hasFrame_of_isVictim (hwf : pool.WellFormed) (hvictim : pool.frameReplacer.IsVictim frame) :
    pool.hasFrame frame := by
  obtain ⟨node, hnode, _⟩ := hvictim.tracked
  have hrange := hwf.tracked frame node hnode
  rw [hwf.replacer_size] at hrange
  exact hrange

theorem replaceVictim_pinned (hwf : pool.WellFormed) (hvictim : pool.frameReplacer.IsVictim frame)
    (hpinned : 0 < (pool.frames frame).pinCount) (buffer : B) :
    replaceVictim id shouldPin buffer pool =
      .error (.runtimeError "VICTIM IS PINNED! maybe this a oom? needs more testing.")
        (pool.withoutVictim frame) := by
  have hframe := hasFrame_of_isVictim hwf hvictim
  have hvalid : frame ≠ invalidFrameId := by
    rintro rfl
    exact absurd hframe.1 (by decide)
  rw [replaceVictim, bind_of_ok (evictFrame_eq hwf hvictim)]
  simp only [if_neg hvalid]
  refine (bind_of_ok (frameAt_eq (by exact hframe))).trans ?_
  exact congrFun (if_pos hpinned) _

theorem replaceVictim_eq (hwf : pool.WellFormed) (hfault : pool.FullFault id)
    (hvictim : pool.frameReplacer.IsVictim frame) (hunpinned : (pool.frames frame).pinCount ≤ 0)
    (hmaps : pool.Maps owner frame) (buffer : B) :
    replaceVictim id shouldPin buffer pool = .ok frame
      (pool.victimReplaced id owner frame buffer shouldPin) := by
  have hframe := hasFrame_of_isVictim hwf hvictim
  have hvalid : frame ≠ invalidFrameId := by
    rintro rfl
    exact absurd hframe.1 (by decide)
  have hwf' := hwf.withoutVictim frame
  have hevicted := hwf'.evicted hmaps
  have hfree : ((pool.withoutVictim frame).evicted owner frame).emptyFrames = [frame] :=
    congrArg (· ++ [frame]) hfault.full
  have habsent : ((pool.withoutVictim frame).evicted owner frame).pageTable.find? id = none := by
    refine (UnorderedMap.find?_erase_ne ?_).trans hfault.absent
    rintro rfl
    cases hfault.absent.symm.trans hmaps
  rw [replaceVictim, bind_of_ok (evictFrame_eq hwf hvictim)]
  simp only [if_neg hvalid]
  refine (bind_of_ok (frameAt_eq (by exact hframe))).trans ?_
  refine (congrFun (if_neg (Int.not_lt.mpr hunpinned)) _).trans ?_
  refine (bind_of_ok (get_apply _)).trans ?_
  rw [hwf'.findIf?_eq hmaps]
  refine (bind_of_ok (evictPage_eq hwf' hmaps)).trans ?_
  generalize heq : (pool.withoutVictim frame).evicted owner frame = evictedPool at *
  have hframe' : evictedPool.hasFrame frame := by
    rw [← heq]
    exact hframe
  have hlt := hevicted.lt_size hframe'
  rw [assertThat_of rfl]
  refine (bind_of_ok (liftPure_ok _ _)).trans ?_
  refine (bind_of_ok (frontEmptyFrame_eq hfree)).trans ?_
  refine (bind_of_ok rfl).trans ?_
  refine (bind_of_ok (get_apply _)).trans ?_
  rw [assertThat_of (by exact hframe'.2)]
  refine (bind_of_ok (liftPure_ok _ _)).trans ?_
  refine (bind_of_ok (assignFrame_new (by exact hframe') (by exact hlt) buffer)).trans ?_
  refine (bind_of_ok rfl).trans ?_
  refine (bind_of_ok (onReplacer_eq (LruK.recordAccess_of_lt ?_))).trans ?_
  · exact (LruK.flagged_size true).symm ▸ hlt
  rw [victimReplaced, heq]
  simp only [setFrame, Function.update_idem, Function.update_self, pure_apply,
    UnorderedMap.emplace_of_none habsent]
  rfl

variable [DiskManagerT δ B]

/-- The bytes a page fault reads. -/
def diskData (pool : BufferPool δ B) (id : PageId) : B := (DiskManagerT.readPage id pool.disk).1

/-- The pool after a page has been read from the disk. -/
def afterRead (pool : BufferPool δ B) (id : PageId) : BufferPool δ B :=
  { pool with disk := (DiskManagerT.readPage id pool.disk).2 }

theorem WellFormed.afterRead (hwf : pool.WellFormed) (id : PageId) :
    (pool.afterRead id).WellFormed :=
  ⟨hwf.partition, hwf.frameId_eq, hwf.data_isSome, hwf.page_nonneg, hwf.replacer_size,
    hwf.replacer_k, hwf.tracked⟩

/-- The pool after the dirty page `owner` has been written back and replaced. -/
def dirtyReplaced (pool : BufferPool δ B) (id owner : PageId) (frame : FrameId) (buffer : B)
    (shouldPin : Bool) (data : B) : BufferPool δ B :=
  let evictedPool := (pool.flushed owner frame data).evicted owner frame
  evictedPool.loaded id frame buffer shouldPin
    (((evictedPool.frameReplacer.accessed frame).flagged frame true).accessed frame)

theorem replaceDirtyFrame_eq (hwf : pool.WellFormed) (hfault : pool.FullFault id)
    (hscan : pool.dirtyUnpinned? = some frame) (hmaps : pool.Maps owner frame) {data : B}
    (hdata : (pool.frames frame).data = some data) (buffer : B) :
    replaceDirtyFrame id shouldPin buffer frame pool = .ok frame
      (pool.dirtyReplaced id owner frame buffer shouldPin data) := by
  obtain ⟨hframe, hdirty, _⟩ := dirtyUnpinned?_eq_some hscan
  have hflush := flushPage_of_dirty hwf hmaps hdirty hdata true
  rw [if_pos rfl] at hflush
  have hevicted := (hwf.flushed owner frame data).evicted hmaps
  have hfree : ((pool.flushed owner frame data).evicted owner frame).emptyFrames = [frame] :=
    congrArg (· ++ [frame]) hfault.full
  have habsent : ((pool.flushed owner frame data).evicted owner frame).pageTable.find? id =
      none := by
    refine (UnorderedMap.find?_erase_ne ?_).trans hfault.absent
    rintro rfl
    cases hfault.absent.symm.trans hmaps
  rw [replaceDirtyFrame, bind_of_ok (get_apply pool), hwf.findIf?_eq hmaps]
  refine (bind_of_ok hflush).trans ?_
  generalize heq : (pool.flushed owner frame data).evicted owner frame = evictedPool at *
  have hframe' : evictedPool.hasFrame frame := by
    rw [← heq]
    exact hframe
  have hlt := hevicted.lt_size hframe'
  refine (bind_of_ok (frontEmptyFrame_eq hfree)).trans ?_
  refine (bind_of_ok rfl).trans ?_
  refine (bind_of_ok (onReplacer_eq (LruK.recordAccess_of_lt (by exact hlt)))).trans ?_
  refine (bind_of_ok (get_apply _)).trans ?_
  rw [assertThat_of (by exact hframe'.2)]
  refine (bind_of_ok (liftPure_ok _ _)).trans ?_
  refine (bind_of_ok (assignFrame_new (by exact hframe') ?_ buffer)).trans ?_
  · exact LruK.accessed_size.symm ▸ hlt
  refine (bind_of_ok rfl).trans ?_
  refine (bind_of_ok (onReplacer_eq (LruK.recordAccess_of_lt ?_))).trans ?_
  · exact (LruK.flagged_size true).symm ▸ LruK.accessed_size.symm ▸ hlt
  rw [dirtyReplaced, heq]
  simp only [setFrame, Function.update_idem, Function.update_self, pure_apply,
    UnorderedMap.emplace_of_none habsent]
  rfl

/-- The outcomes of `request_page`. -/
inductive Request (pool : BufferPool δ B) (id : PageId) (shouldPin : Bool) :
    EStateM.Result Failure (BufferPool δ B) FrameId → Prop where
  | hit {frame : FrameId} (maps : pool.Maps id frame) :
      Request pool id shouldPin (.ok frame (pool.touched frame shouldPin))
  | empty {frame : FrameId} {rest : List FrameId} (absent : pool.pageTable.find? id = none)
      (free : pool.emptyFrames = frame :: rest) :
      Request pool id shouldPin (.ok frame ((pool.afterRead id).loaded id frame
        (pool.diskData id) shouldPin (replacerAfterLoad pool.frameReplacer frame)))
  | dirty {frame : FrameId} {owner : PageId} {data : B} (fault : pool.FullFault id)
      (scan : pool.dirtyUnpinned? = some frame) (maps : pool.Maps owner frame)
      (data_eq : (pool.frames frame).data = some data) :
      Request pool id shouldPin (.ok frame
        ((pool.afterRead id).dirtyReplaced id owner frame (pool.diskData id) shouldPin data))
  | victim {frame : FrameId} {owner : PageId} (fault : pool.FullFault id)
      (scan : pool.dirtyUnpinned? = none) (picked : pool.frameReplacer.IsVictim frame)
      (unpinned : (pool.frames frame).pinCount ≤ 0) (maps : pool.Maps owner frame) :
      Request pool id shouldPin (.ok frame
        ((pool.afterRead id).victimReplaced id owner frame (pool.diskData id) shouldPin))
  | noVictim (fault : pool.FullFault id) (scan : pool.dirtyUnpinned? = none)
      (none : ∀ frame, ¬ pool.frameReplacer.IsVictim frame) :
      Request pool id shouldPin (.error
        (.runtimeError "frame_replacer.evict() failed; got -1 or invalid frame")
        (pool.afterRead id))
  | pinned {frame : FrameId} (fault : pool.FullFault id) (scan : pool.dirtyUnpinned? = none)
      (picked : pool.frameReplacer.IsVictim frame) (pinned : 0 < (pool.frames frame).pinCount) :
      Request pool id shouldPin (.error
        (.runtimeError "VICTIM IS PINNED! maybe this a oom? needs more testing.")
        ((pool.afterRead id).withoutVictim frame))

theorem requestPage_of_negative (hid : id < 0) :
    requestPage id shouldPin pool = .error .assertion pool := by
  have hcheck : ¬ (id > -1) := Int.not_lt.mpr (Int.le_sub_one_of_lt hid)
  rw [requestPage, assertThat_of_not hcheck]
  rfl

theorem requestPage_of_maps (hwf : pool.WellFormed) (hmaps : pool.Maps id frame) :
    requestPage id shouldPin pool = .ok frame (pool.touched frame shouldPin) := by
  have hframe := hwf.hasFrame_of_maps hmaps
  have hlt := hwf.lt_size hframe
  have hlt' : frame < (pool.frameReplacer.accessed frame).size := LruK.accessed_size.symm ▸ hlt
  have hfind : pool.pageTable.find? id = some frame := hmaps
  rw [requestPage, assertThat_of (Int.lt_of_lt_of_le (by decide) (hwf.page_nonneg hmaps)),
    bind_of_ok (liftPure_ok _ _), bind_of_ok (get_apply pool)]
  simp only [hfind]
  refine (bind_of_ok (onReplacer_eq (LruK.recordAccess_of_lt hlt))).trans ?_
  refine (bind_of_ok (onReplacer_eq (LruK.setEvictable_of_lt (by exact hlt') false))).trans ?_
  exact bind_of_ok (frameAt_eq (by exact hframe))

theorem requestPage_of_fault (hid : 0 ≤ id) (habsent : pool.pageTable.find? id = none) :
    requestPage id shouldPin pool =
      if pool.pageTable.size < pool.maxFrames then
        loadIntoEmptyFrame id shouldPin (pool.diskData id) (pool.afterRead id)
      else
        match pool.dirtyUnpinned? with
        | some frame =>
            replaceDirtyFrame id shouldPin (pool.diskData id) frame (pool.afterRead id)
        | none => replaceVictim id shouldPin (pool.diskData id) (pool.afterRead id) := by
  rw [requestPage, assertThat_of (Int.lt_of_lt_of_le (by decide) hid),
    bind_of_ok (liftPure_ok _ _), bind_of_ok (get_apply pool), habsent]
  refine (bind_of_ok (show scheduleRead id pool = .ok (pool.diskData id, true)
    (pool.afterRead id) from rfl)).trans ?_
  refine (bind_of_ok (get_apply _)).trans ?_
  by_cases hsize : pool.pageTable.size < pool.maxFrames
  · rw [if_pos hsize]
    exact congrFun (if_pos (by exact hsize)) _
  · rw [if_neg hsize]
    refine (congrFun (if_neg (by exact hsize)) _).trans ?_
    cases hscan : pool.dirtyUnpinned? with
    | some frame =>
        have hscan' : (pool.afterRead id).dirtyUnpinned? = some frame := hscan
        rw [hscan']
    | none =>
        have hscan' : (pool.afterRead id).dirtyUnpinned? = none := hscan
        rw [hscan']

/-- Every request of a page ends in one of the outcomes. -/
theorem requestPage_spec (hwf : pool.WellFormed) (hid : 0 ≤ id) (shouldPin : Bool) :
    Request pool id shouldPin (requestPage id shouldPin pool) := by
  have hread := hwf.afterRead id
  cases hfind : pool.pageTable.find? id with
  | some frame =>
      rw [requestPage_of_maps hwf hfind]
      exact .hit hfind
  | none =>
      rw [requestPage_of_fault hid hfind]
      cases hfree : pool.emptyFrames with
      | cons frame rest =>
          rw [if_pos (hwf.size_lt_iff.mpr (by rw [hfree]; exact List.cons_ne_nil _ _)),
            loadIntoEmptyFrame_eq hread hfind hfree]
          exact .empty hfind hfree
      | nil =>
          have hfault : pool.FullFault id := ⟨hfind, hfree⟩
          rw [if_neg fun hlt => hwf.size_lt_iff.mp hlt hfree]
          cases hscan : pool.dirtyUnpinned? with
          | some frame =>
              obtain ⟨hframe, _, _⟩ := dirtyUnpinned?_eq_some hscan
              obtain ⟨owner, hmaps⟩ := hwf.exists_maps_of_full hfree hframe
              obtain ⟨data, hdata⟩ := hwf.data_isSome hmaps
              simp only
              rw [replaceDirtyFrame_eq hread ⟨hfind, hfree⟩ hscan hmaps hdata]
              exact .dirty hfault hscan hmaps hdata
          | none =>
              simp only
              by_cases hvictim : ∃ frame, pool.frameReplacer.IsVictim frame
              · obtain ⟨frame, hvictim⟩ := hvictim
                rcases Int.lt_or_le 0 (pool.frames frame).pinCount with hpinned | hunpinned
                · rw [replaceVictim_pinned hread hvictim hpinned]
                  exact .pinned hfault hscan hvictim hpinned
                · obtain ⟨owner, hmaps⟩ :=
                    hwf.exists_maps_of_full hfree (hasFrame_of_isVictim hwf hvictim)
                  rw [replaceVictim_eq hread ⟨hfind, hfree⟩ hvictim hunpinned hmaps]
                  exact .victim hfault hscan hvictim hunpinned hmaps
              · have hnone := not_exists.mp hvictim
                rw [replaceVictim_noVictim hread hnone]
                exact .noVictim hfault hscan hnone

end Outcomes

/-! ## What every request keeps -/

section Keeps

variable {pool pool' : BufferPool δ B} {id owner other : PageId}
variable {frame slot : FrameId} {shouldPin : Bool}
variable {result : EStateM.Result Failure (BufferPool δ B) FrameId}

theorem FullFault.ne_of_maps (hfault : pool.FullFault id) (hmaps : pool.Maps owner frame) :
    id ≠ owner := by
  rintro rfl
  cases hfault.absent.symm.trans hmaps

variable [DiskManagerT δ B]

theorem Request.wellFormed (hrequest : Request pool id shouldPin result) (hwf : pool.WellFormed)
    (hid : 0 ≤ id) : (stateOf result).WellFormed := by
  have hread := hwf.afterRead id
  cases hrequest with
  | hit maps => exact hwf.touched (hwf.hasFrame_of_maps maps) shouldPin
  | @empty frame rest absent free =>
      have hframe := hwf.hasFrame_of_empty (by rw [free]; exact List.mem_cons_self)
      refine hread.loaded hid absent free ?_ ?_ ?_ _ shouldPin
      · exact LruK.accessed_size.trans ((LruK.flagged_size true).trans hwf.replacer_size)
      · exact LruK.accessed_k.trans ((LruK.flagged_k true).trans hwf.replacer_k)
      · refine (hwf.tracked.flagged frame true).accessed ⟨hframe.1, ?_⟩
        rw [LruK.flagged_size]
        exact hwf.lt_size hframe
  | @dirty frame owner data fault scan maps data_eq =>
      have hframe := hwf.hasFrame_of_maps maps
      have hevicted := (hread.flushed owner frame data).evicted maps
      have hlt : frame < (pool.frameReplacer.removed frame).size := hevicted.lt_size hframe
      have hlt' : frame < ((pool.frameReplacer.removed frame).accessed frame).size := by
        rw [LruK.accessed_size]
        exact hlt
      have hfree :
          (((pool.afterRead id).flushed owner frame data).evicted owner frame).emptyFrames =
          [frame] := congrArg (· ++ [frame]) fault.full
      refine hevicted.loaded hid
        ((UnorderedMap.find?_erase_ne (fault.ne_of_maps maps)).trans fault.absent)
        hfree ?_ ?_ ?_ _ shouldPin
      · refine LruK.accessed_size.trans ((LruK.flagged_size true).trans ?_)
        exact LruK.accessed_size.trans hevicted.replacer_size
      · refine LruK.accessed_k.trans ((LruK.flagged_k true).trans ?_)
        exact LruK.accessed_k.trans hevicted.replacer_k
      · refine (((hevicted.tracked.accessed ⟨hframe.1, hlt⟩).flagged frame true)).accessed
          ⟨hframe.1, ?_⟩
        rw [LruK.flagged_size]
        exact hlt'
  | @victim frame owner fault scan picked unpinned maps =>
      have hframe := hwf.hasFrame_of_maps maps
      have hevicted := (hread.withoutVictim frame).evicted maps
      have hfree : (((pool.afterRead id).withoutVictim frame).evicted owner frame).emptyFrames =
          [frame] := congrArg (· ++ [frame]) fault.full
      refine hevicted.loaded hid
        ((UnorderedMap.find?_erase_ne (fault.ne_of_maps maps)).trans fault.absent)
        hfree ?_ ?_ ?_ _ shouldPin
      · exact LruK.accessed_size.trans ((LruK.flagged_size true).trans hevicted.replacer_size)
      · exact LruK.accessed_k.trans ((LruK.flagged_k true).trans hevicted.replacer_k)
      · refine (hevicted.tracked.flagged frame true).accessed ⟨hframe.1, ?_⟩
        rw [LruK.flagged_size]
        exact hevicted.lt_size hframe
  | noVictim => exact hread
  | pinned => exact hread.withoutVictim _

/-- A request that returns has mapped the page to the slot it returns. -/
theorem Request.maps (hrequest : Request pool id shouldPin (.ok frame pool')) :
    pool'.Maps id frame := by
  cases hrequest with
  | hit maps => exact maps
  | empty => exact loaded_maps_self _ _ _
  | dirty => exact loaded_maps_self _ _ _
  | victim => exact loaded_maps_self _ _ _

/-- The frame a request returns: the page's own one, or a new one with the bytes of the disk. -/
theorem Request.frame_eq (hrequest : Request pool id shouldPin (.ok frame pool')) :
    (pool.Maps id frame ∧ pool'.frames frame = (pool.frames frame).pinnedIf shouldPin) ∨
      (pool.pageTable.find? id = none ∧
        pool'.frames frame = (FrameHeader.new frame (pool.diskData id)).pinnedIf shouldPin) := by
  cases hrequest with
  | hit maps =>
      refine .inl ⟨maps, ?_⟩
      rw [touched_frames, if_pos rfl]
  | empty absent => exact .inr ⟨absent, loaded_frames_self _ _ _⟩
  | dirty fault => exact .inr ⟨fault.absent, loaded_frames_self _ _ _⟩
  | victim fault => exact .inr ⟨fault.absent, loaded_frames_self _ _ _⟩

/-- The other pages mapped after a request were mapped before, their frames as they are. -/
theorem Request.others (hrequest : Request pool id shouldPin result) (hwf : pool.WellFormed)
    (hne : other ≠ id) (hmaps : (stateOf result).Maps other slot) :
    pool.Maps other slot ∧ (stateOf result).frames slot = pool.frames slot := by
  cases hrequest with
  | @hit frame maps =>
      refine ⟨hmaps, (touched_frames pool frame shouldPin slot).trans (if_neg ?_)⟩
      rintro rfl
      exact hne (hwf.maps_inj hmaps maps)
  | @empty frame rest absent free =>
      have hbefore := (loaded_maps_iff hne _ _ _).mp hmaps
      refine ⟨hbefore, loaded_frames_ne ?_ _ _ _⟩
      rintro rfl
      exact hwf.not_maps_of_empty (by rw [free]; exact List.mem_cons_self) hbefore
  | @dirty frame owner data fault scan maps data_eq =>
      have hwf' := (hwf.afterRead id).flushed owner frame data
      have hevicted := (loaded_maps_iff hne _ _ _).mp hmaps
      obtain ⟨howner, hbefore⟩ := evicted_maps_iff.mp hevicted
      have hslot : slot ≠ frame := by
        rintro rfl
        exact howner (hwf.maps_inj hbefore maps)
      refine ⟨hbefore, (loaded_frames_ne hslot _ _ _).trans ?_⟩
      refine (evicted_frames hwf' maps hevicted).trans ?_
      exact (flushed_frames _ owner frame data slot).trans (if_neg hslot)
  | @victim frame owner fault scan picked unpinned maps =>
      have hwf' := (hwf.afterRead id).withoutVictim frame
      have hevicted := (loaded_maps_iff hne _ _ _).mp hmaps
      obtain ⟨howner, hbefore⟩ := evicted_maps_iff.mp hevicted
      have hslot : slot ≠ frame := by
        rintro rfl
        exact howner (hwf.maps_inj hbefore maps)
      exact ⟨hbefore, (loaded_frames_ne hslot _ _ _).trans (evicted_frames hwf' maps hevicted)⟩
  | noVictim => exact ⟨hmaps, rfl⟩
  | pinned => exact ⟨hmaps, rfl⟩

theorem Request.nextPage_eq (hrequest : Request pool id shouldPin result) :
    (stateOf result).nextPage = pool.nextPage := by
  cases hrequest <;> rfl

/-- A page whose frame is pinned stays mapped to it. -/
theorem Request.keeps_pinned (hrequest : Request pool id shouldPin result)
    (hmaps : pool.Maps other slot)
    (hpinned : 0 < (pool.frames slot).pinCount) : (stateOf result).Maps other slot := by
  have hne : pool.pageTable.find? id = none → other ≠ id := by
    rintro habsent rfl
    cases habsent.symm.trans hmaps
  cases hrequest with
  | hit => exact hmaps
  | empty absent => exact (loaded_maps_iff (hne absent) _ _ _).mpr hmaps
  | dirty fault scan maps =>
      refine (loaded_maps_iff (hne fault.absent) _ _ _).mpr (evicted_maps_iff.mpr ⟨?_, hmaps⟩)
      rintro rfl
      cases hmaps.symm.trans maps
      obtain ⟨_, _, hpin⟩ := dirtyUnpinned?_eq_some scan
      exact absurd hpin (ne_of_gt hpinned)
  | victim fault scan picked unpinned maps =>
      refine (loaded_maps_iff (hne fault.absent) _ _ _).mpr (evicted_maps_iff.mpr ⟨?_, hmaps⟩)
      rintro rfl
      cases hmaps.symm.trans maps
      exact absurd hpinned (Int.not_lt.mpr unpinned)
  | noVictim => exact hmaps
  | pinned => exact hmaps

/-- Of a pinned frame a request changes the pin count at most. -/
theorem Request.keeps_frame_of_pinned (hrequest : Request pool id shouldPin result)
    (hwf : pool.WellFormed) (hmaps : pool.Maps other slot)
    (hpinned : 0 < (pool.frames slot).pinCount) :
    ((stateOf result).frames slot).data = (pool.frames slot).data ∧
      ((stateOf result).frames slot).isDirty = (pool.frames slot).isDirty := by
  by_cases hne : other = id
  · subst hne
    cases hrequest with
    | hit => exact ⟨touched_data shouldPin, touched_isDirty shouldPin⟩
    | empty absent => cases absent.symm.trans hmaps
    | dirty fault => cases fault.absent.symm.trans hmaps
    | victim fault => cases fault.absent.symm.trans hmaps
    | noVictim => exact ⟨rfl, rfl⟩
    | pinned => exact ⟨rfl, rfl⟩
  · rw [(hrequest.others hwf hne (hrequest.keeps_pinned hmaps hpinned)).2]
    exact ⟨rfl, rfl⟩

/-- The bytes of a page whose frame is pinned stay as they are. -/
theorem Request.data_eq_of_pinned (hrequest : Request pool id shouldPin result)
    (hwf : pool.WellFormed) (hmaps : pool.Maps other slot)
    (hpinned : 0 < (pool.frames slot).pinCount) :
    ((stateOf result).frames slot).data = (pool.frames slot).data :=
  (hrequest.keeps_frame_of_pinned hwf hmaps hpinned).1

/-- A pinned frame that is dirty stays dirty. -/
theorem Request.isDirty_eq_of_pinned (hrequest : Request pool id shouldPin result)
    (hwf : pool.WellFormed) (hmaps : pool.Maps other slot)
    (hpinned : 0 < (pool.frames slot).pinCount) :
    ((stateOf result).frames slot).isDirty = (pool.frames slot).isDirty :=
  (hrequest.keeps_frame_of_pinned hwf hmaps hpinned).2

/-- No page is loaded into the slot of a page that is pinned. -/
theorem Request.slot_ne_of_absent (hrequest : Request pool id shouldPin result)
    (hwf : pool.WellFormed) (hid : 0 ≤ id) (habsent : pool.pageTable.find? other = none)
    (hmaps : (stateOf result).Maps other slot) {page : PageId} {pinned : FrameId}
    (hbefore : pool.Maps page pinned) (hpinned : 0 < (pool.frames pinned).pinCount) :
    pinned ≠ slot := by
  rintro rfl
  have hkept := hrequest.keeps_pinned hbefore hpinned
  have hsame : page = other := (hrequest.wellFormed hwf hid).maps_inj hkept hmaps
  cases habsent.symm.trans (hsame ▸ hbefore)

/-- A page has the pins it had, none if it was absent, and the one that the request takes. -/
theorem Request.pinCount_cases (hrequest : Request pool id shouldPin (.ok frame pool'))
    (hwf : pool.WellFormed) (hid : 0 ≤ id) (hmaps : pool'.Maps other slot) :
    (pool.Maps other slot ∧ (pool'.frames slot).pinCount =
        (pool.frames slot).pinCount + if frame = slot ∧ shouldPin = true then 1 else 0) ∨
      (pool.pageTable.find? other = none ∧
        (pool'.frames slot).pinCount = if frame = slot ∧ shouldPin = true then 1 else 0) := by
  by_cases heq : other = id
  · subst heq
    obtain rfl : frame = slot := Option.some.inj (hrequest.maps.symm.trans hmaps)
    simp only [true_and]
    rcases hrequest.frame_eq with ⟨hbefore, hframe⟩ | ⟨habsent, hframe⟩
    · exact .inl ⟨hbefore, hframe ▸ pinnedIf_pinCount _ _⟩
    · refine .inr ⟨habsent, ?_⟩
      rw [hframe, pinnedIf_pinCount]
      exact Int.zero_add _
  · obtain ⟨hbefore, hframe⟩ := hrequest.others hwf heq hmaps
    have hne : frame ≠ slot := by
      rintro rfl
      exact heq ((hrequest.wellFormed hwf hid).maps_inj hmaps hrequest.maps)
    refine .inl ⟨hbefore, ?_⟩
    rw [if_neg fun hboth => hne hboth.1, Int.add_zero]
    exact congrArg FrameHeader.pinCount hframe

/-! ## Requests that throw -/

/-- What `request_page` throws when it finds no frame for its page. -/
inductive NoFrame : Failure → Prop where
  | noVictim :
      NoFrame (.runtimeError "frame_replacer.evict() failed; got -1 or invalid frame")
  | victimPinned :
      NoFrame (.runtimeError "VICTIM IS PINNED! maybe this a oom? needs more testing.")

/-- A request that throws has found no frame. -/
theorem Request.noFrame {failure : Failure}
    (hrequest : Request pool id shouldPin (.error failure pool')) : NoFrame failure := by
  cases hrequest with
  | noVictim => exact .noVictim
  | pinned => exact .victimPinned

/-- Neither the page table nor a frame is changed by a request that throws. -/
theorem Request.unchanged {failure : Failure}
    (hrequest : Request pool id shouldPin (.error failure pool')) :
    pool.pageTable.find? id = none ∧ pool'.pageTable = pool.pageTable ∧
      pool'.frames = pool.frames ∧ pool'.emptyFrames = pool.emptyFrames := by
  cases hrequest with
  | noVictim fault => exact ⟨fault.absent, rfl, rfl, rfl⟩
  | pinned fault => exact ⟨fault.absent, rfl, rfl, rfl⟩

/-! ## Requests that return -/

/-- Some frame can be taken: an empty one, a dirty one without pins, or the victim. -/
def CanTake (pool : BufferPool δ B) : Prop :=
  pool.emptyFrames ≠ [] ∨
    (∃ frame, pool.hasFrame frame ∧ (pool.frames frame).isDirty = true ∧
      (pool.frames frame).pinCount = 0) ∨
    ∃ frame, pool.frameReplacer.IsVictim frame ∧ (pool.frames frame).pinCount ≤ 0

/-- The request returns the page with the bytes of the disk. -/
def ReturnsFromDisk (pool : BufferPool δ B) (id : PageId) (shouldPin : Bool) : Prop :=
  ∃ frame pool', requestPage id shouldPin pool = .ok frame pool' ∧ pool'.Maps id frame ∧
    (pool'.frames frame).data = some (pool.diskData id)

/-- A page fault that returns has read the page from the disk. -/
theorem returnsFromDisk_of_returns (hwf : pool.WellFormed) (hid : 0 ≤ id)
    (habsent : pool.pageTable.find? id = none)
    (hreturns : requestPage id shouldPin pool = .ok frame pool') :
    pool.ReturnsFromDisk id shouldPin := by
  have hspec := requestPage_spec hwf hid shouldPin
  rw [hreturns] at hspec
  refine ⟨frame, pool', hreturns, hspec.maps, ?_⟩
  rcases hspec.frame_eq with ⟨hmaps, _⟩ | ⟨_, heq⟩
  · cases habsent.symm.trans hmaps
  · rw [heq, pinnedIf_data]
    rfl

/-- A page fault is served exactly when some frame can be taken. -/
theorem returnsFromDisk_iff_canTake (hwf : pool.WellFormed) (hid : 0 ≤ id)
    (habsent : pool.pageTable.find? id = none) (shouldPin : Bool) :
    pool.ReturnsFromDisk id shouldPin ↔ pool.CanTake := by
  have hspec := requestPage_spec hwf hid shouldPin
  constructor
  · rintro ⟨frame, pool', hreturns, _⟩
    rw [hreturns] at hspec
    cases hspec with
    | hit maps => cases habsent.symm.trans maps
    | empty _ free => exact .inl (by rw [free]; exact List.cons_ne_nil _ _)
    | dirty _ scan => exact .inr (.inl ⟨frame, dirtyUnpinned?_eq_some scan⟩)
    | victim _ _ picked unpinned => exact .inr (.inr ⟨frame, picked, unpinned⟩)
  · intro htake
    cases hrun : requestPage id shouldPin pool with
    | ok frame pool' => exact returnsFromDisk_of_returns hwf hid habsent hrun
    | error failure pool' =>
        rw [hrun] at hspec
        rcases htake with hfree | ⟨frame, hframe, hdirty, hpin⟩ | ⟨frame, hvictim, hunpinned⟩
        · cases hspec with
          | noVictim fault => exact absurd fault.full hfree
          | pinned fault => exact absurd fault.full hfree
        · cases hspec with
          | noVictim _ scan =>
              exact absurd hpin (dirtyUnpinned?_eq_none_iff.mp scan frame hframe hdirty)
          | pinned _ scan =>
              exact absurd hpin (dirtyUnpinned?_eq_none_iff.mp scan frame hframe hdirty)
        · cases hspec with
          | noVictim _ _ none => exact absurd hvictim (none frame)
          | pinned _ _ picked pinned =>
              obtain rfl := hvictim.unique picked
              exact absurd pinned (Int.not_lt.mpr hunpinned)

/-- A request returns exactly when its page is in the pool or some frame can be taken. -/
theorem returns_iff (hwf : pool.WellFormed) (hid : 0 ≤ id) (shouldPin : Bool) :
    (∃ frame pool', requestPage id shouldPin pool = .ok frame pool') ↔
      pool.pageTable.find? id ≠ none ∨ pool.CanTake := by
  cases hfind : pool.pageTable.find? id with
  | some frame =>
      exact ⟨fun _ => .inl (Option.some_ne_none frame),
        fun _ => ⟨frame, _, requestPage_of_maps hwf hfind⟩⟩
  | none =>
      have htake := returnsFromDisk_iff_canTake hwf hid hfind shouldPin
      constructor
      · rintro ⟨frame, pool', hreturns⟩
        exact .inr (htake.mp (returnsFromDisk_of_returns hwf hid hfind hreturns))
      · rintro (hne | hcan)
        · exact absurd rfl hne
        · obtain ⟨frame, pool', hreturns, _⟩ := htake.mpr hcan
          exact ⟨frame, pool', hreturns⟩

/-- A call that returns is described by an outcome. -/
theorem request_of_returns (hwf : pool.WellFormed)
    (hreturns : requestPage id shouldPin pool = .ok frame pool') :
    0 ≤ id ∧ Request pool id shouldPin (.ok frame pool') := by
  rcases Int.lt_or_le id 0 with hneg | hnonneg
  · cases (requestPage_of_negative hneg).symm.trans hreturns
  · exact ⟨hnonneg, hreturns ▸ requestPage_spec hwf hnonneg shouldPin⟩

/-- So is a call that throws an exception. -/
theorem request_of_throws (hwf : pool.WellFormed) {failure : Failure}
    (hthrows : requestPage id shouldPin pool = .error failure pool')
    (hexception : failure.isException = true) :
    0 ≤ id ∧ Request pool id shouldPin (.error failure pool') := by
  rcases Int.lt_or_le id 0 with hneg | hnonneg
  · cases (requestPage_of_negative hneg).symm.trans hthrows
    cases hexception
  · exact ⟨hnonneg, hthrows ▸ requestPage_spec hwf hnonneg shouldPin⟩

end Keeps

end BufferPool

end HiveDb
