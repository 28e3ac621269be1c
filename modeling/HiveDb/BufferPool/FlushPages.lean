import HiveDb.BufferPool.PoolSpec

/-!
# Flushing all pages

`flush_pages` writes every dirty page back and unmaps it, whoever has it pinned.
-/

namespace HiveDb

open HiveDb.Lib

namespace BufferPool

variable {δ B : Type} {pool : BufferPool δ B}

theorem evictPages_spec (hwf : pool.WellFormed) {ids : List PageId} (hnodup : ids.Nodup)
    (hmapped : ∀ id ∈ ids, ∃ frame, pool.Maps id frame) :
    ∃ pool', evictPages ids pool = .ok () pool' ∧ pool'.WellFormed ∧
      pool'.maxFrames = pool.maxFrames ∧ pool'.disk = pool.disk ∧
      pool'.nextPage = pool.nextPage ∧
      (∀ id frame, pool'.Maps id frame ↔ id ∉ ids ∧ pool.Maps id frame) ∧
      ∀ id frame, pool'.Maps id frame → pool'.frames frame = pool.frames frame := by
  induction ids generalizing pool with
  | nil =>
      refine ⟨pool, rfl, hwf, rfl, rfl, rfl, fun id frame => ?_, fun _ _ _ => rfl⟩
      exact ⟨fun hmaps => ⟨List.not_mem_nil, hmaps⟩, fun h => h.2⟩
  | cons first rest ih =>
      obtain ⟨hfirst, hnodup⟩ := List.nodup_cons.mp hnodup
      obtain ⟨⟨slot, hmaps⟩, hmapped⟩ := List.forall_mem_cons.mp hmapped
      have hmapped' : ∀ id ∈ rest, ∃ frame, (pool.evicted first slot).Maps id frame := by
        intro id hmem
        obtain ⟨frame, hid⟩ := hmapped id hmem
        refine ⟨frame, evicted_maps_iff.mpr ⟨?_, hid⟩⟩
        rintro rfl
        exact hfirst hmem
      obtain ⟨pool', hrun, hwf', hmax, hdisk, hnext, hiff, hframes⟩ :=
        ih (hwf.evicted hmaps) hnodup hmapped'
      refine ⟨pool', ?_, hwf', hmax, hdisk, hnext, ?_, ?_⟩
      · rw [evictPages, bind_of_ok (evictPage_eq hwf hmaps)]
        exact hrun
      · intro id frame
        rw [hiff, evicted_maps_iff, List.mem_cons, not_or]
        constructor
        · rintro ⟨hrest, hne, hid⟩
          exact ⟨⟨hne, hrest⟩, hid⟩
        · rintro ⟨⟨hne, hrest⟩, hid⟩
          exact ⟨hrest, hne, hid⟩
      · intro id frame hid
        rw [hframes id frame hid]
        exact evicted_frames hwf hmaps ((hiff id frame).mp hid).2

/-- The replacer removes the frames of the listed pages, one after another. -/
theorem evictPages_frameReplacer (hwf : pool.WellFormed) {ids : List PageId} (hnodup : ids.Nodup)
    (hmapped : ∀ id ∈ ids, ∃ frame, pool.Maps id frame) {pool' : BufferPool δ B}
    (hreturns : evictPages ids pool = .ok () pool') :
    ∃ frames : List FrameId,
      pool'.frameReplacer = frames.foldl LruK.removed pool.frameReplacer ∧
      ∀ frame, frame ∈ frames ↔ ∃ id ∈ ids, pool.Maps id frame := by
  induction ids generalizing pool with
  | nil =>
      cases hreturns
      exact ⟨[], rfl, fun frame => by simp⟩
  | cons first rest ih =>
      obtain ⟨hfirst, hnodup⟩ := List.nodup_cons.mp hnodup
      obtain ⟨⟨slot, hmaps⟩, hmapped⟩ := List.forall_mem_cons.mp hmapped
      have hkept : ∀ id ∈ rest, ∀ frame, (pool.evicted first slot).Maps id frame ↔
          pool.Maps id frame := by
        intro id hmem frame
        rw [evicted_maps_iff]
        refine and_iff_right ?_
        rintro rfl
        exact hfirst hmem
      rw [evictPages, bind_of_ok (evictPage_eq hwf hmaps)] at hreturns
      obtain ⟨frames, hreplacer, hframes⟩ := ih (hwf.evicted hmaps) hnodup
        (fun id hmem => (hmapped id hmem).imp fun frame => (hkept id hmem frame).mpr) hreturns
      refine ⟨slot :: frames, hreplacer, fun frame => ?_⟩
      rw [List.mem_cons, hframes, List.exists_mem_cons_iff]
      refine or_congr ⟨?_, fun hid => ?_⟩ (exists_congr fun id => and_congr_right fun hmem =>
        hkept id hmem frame)
      · rintro rfl
        exact hmaps
      · cases hmaps.symm.trans hid
        rfl

variable [DiskManagerT δ B]

/-- Writing a list of pages to the disk. -/
def writeBack (writes : List (PageId × B)) (disk : δ) : δ :=
  writes.foldl (fun disk write => DiskManagerT.writePage write.1 write.2 disk) disk

/-- The first loop writes the dirty pages among the listed ones and unpins their frames. -/
theorem flushDirty_spec (hwf : pool.WellFormed) {pairs : List (PageId × FrameId)}
    (hmapped : ∀ id frame, (id, frame) ∈ pairs → pool.Maps id frame) :
    ∃ (writes : List (PageId × B)) (frames : FrameId → FrameHeader B),
      flushDirty pairs pool = .ok (writes.map Prod.fst)
        { pool with disk := writeBack writes pool.disk, frames := frames } ∧
      (writes.map Prod.fst).Sublist (pairs.map Prod.fst) ∧
      (∀ id data, (id, data) ∈ writes ↔ ∃ frame, (id, frame) ∈ pairs ∧
        (pool.frames frame).isDirty = true ∧ (pool.frames frame).data = some data) ∧
      (∀ frame, ∃ pinCount, frames frame = { pool.frames frame with pinCount := pinCount }) ∧
      ∀ frame, (pool.frames frame).isDirty = false → frames frame = pool.frames frame := by
  induction pairs generalizing pool with
  | nil =>
      refine ⟨[], pool.frames, rfl, List.Sublist.refl _, ?_, fun frame => ⟨_, rfl⟩, fun _ _ => rfl⟩
      intro id data
      constructor
      · intro hmem
        cases hmem
      · rintro ⟨_, hmem, _⟩
        cases hmem
  | cons pair rest ih =>
      obtain ⟨first, slot⟩ := pair
      have hmaps := hmapped first slot List.mem_cons_self
      have hrest : ∀ id frame, (id, frame) ∈ rest → pool.Maps id frame :=
        fun id frame hmem => hmapped id frame (List.mem_cons_of_mem _ hmem)
      have hframe := frameAt_eq (hwf.hasFrame_of_maps hmaps)
      by_cases hdirty : (pool.frames slot).isDirty = true
      · obtain ⟨data, hdata⟩ := hwf.data_isSome hmaps
        have hflush := flushPage_of_dirty hwf hmaps hdirty hdata false
        rw [if_neg Bool.false_ne_true] at hflush
        obtain ⟨writes, frames, hrun, hsub, hwrites, hsame, hclean⟩ :=
          ih (hwf.flushed first slot data) hrest
        simp only [flushed_isDirty, flushed_data] at hwrites hclean
        refine ⟨(first, data) :: writes, frames, ?_, hsub.cons_cons first, ?_, ?_, ?_⟩
        · rw [flushDirty, bind_of_ok hframe, if_pos hdirty, bind_of_ok hflush, bind_of_ok hrun]
          rfl
        · intro id data'
          rw [List.mem_cons, hwrites]
          constructor
          · rintro (heq | ⟨frame, hmem, h⟩)
            · cases heq
              exact ⟨slot, List.mem_cons_self, hdirty, hdata⟩
            · exact ⟨frame, List.mem_cons_of_mem _ hmem, h⟩
          · rintro ⟨frame, hmem, hdirty', hdata'⟩
            rcases List.mem_cons.mp hmem with heq | hmem
            · cases heq
              cases hdata.symm.trans hdata'
              exact .inl rfl
            · exact .inr ⟨frame, hmem, hdirty', hdata'⟩
        · intro frame
          obtain ⟨pinCount, heq⟩ := hsame frame
          refine ⟨pinCount, heq.trans ?_⟩
          rw [flushed_frames]
          split <;> rfl
        · intro frame hnotDirty
          rw [hclean frame hnotDirty, flushed_frames, if_neg]
          rintro rfl
          rw [hdirty] at hnotDirty
          cases hnotDirty
      · obtain ⟨writes, frames, hrun, hsub, hwrites, hsame, hclean⟩ := ih hwf hrest
        refine ⟨writes, frames, ?_, hsub.cons first, ?_, hsame, hclean⟩
        · rw [flushDirty, bind_of_ok hframe, if_neg hdirty]
          exact hrun
        · intro id data
          rw [hwrites]
          constructor
          · rintro ⟨frame, hmem, h⟩
            exact ⟨frame, List.mem_cons_of_mem _ hmem, h⟩
          · rintro ⟨frame, hmem, hdirty', hdata'⟩
            rcases List.mem_cons.mp hmem with heq | hmem
            · cases heq
              exact absurd hdirty' hdirty
            · exact ⟨frame, hmem, hdirty', hdata'⟩

/--
What `flush_pages` does: exactly the clean pages stay mapped, at their slots and
with their frames as they are, and the dirty ones are written.
-/
structure FlushedAll (pool pool' : BufferPool δ B) (writes : List (PageId × B)) : Prop where
  wellFormed : pool'.WellFormed
  maxFrames_eq : pool'.maxFrames = pool.maxFrames
  nextPage_eq : pool'.nextPage = pool.nextPage
  disk_eq : pool'.disk = writeBack writes pool.disk
  writes_nodup : (writes.map Prod.fst).Nodup
  mem_writes_iff : ∀ id data, (id, data) ∈ writes ↔ ∃ frame, pool.Maps id frame ∧
    (pool.frames frame).isDirty = true ∧ (pool.frames frame).data = some data
  maps_iff : ∀ id frame, pool'.Maps id frame ↔
    pool.Maps id frame ∧ (pool.frames frame).isDirty = false
  frames_eq : ∀ id frame, pool'.Maps id frame → pool'.frames frame = pool.frames frame

/-- The first loop over the whole page table. -/
theorem flushDirty_pairs (hwf : pool.WellFormed) :
    ∃ (writes : List (PageId × B)) (frames : FrameId → FrameHeader B),
      flushDirty pool.pageTable.pairs pool = .ok (writes.map Prod.fst)
        { pool with disk := writeBack writes pool.disk, frames := frames } ∧
      ({ pool with disk := writeBack writes pool.disk, frames := frames } :
        BufferPool δ B).WellFormed ∧
      (writes.map Prod.fst).Nodup ∧
      (∀ id data, (id, data) ∈ writes ↔ ∃ frame, pool.Maps id frame ∧
        (pool.frames frame).isDirty = true ∧ (pool.frames frame).data = some data) ∧
      (∀ id, id ∈ writes.map Prod.fst ↔
        ∃ frame, pool.Maps id frame ∧ (pool.frames frame).isDirty = true) ∧
      ∀ frame, (pool.frames frame).isDirty = false → frames frame = pool.frames frame := by
  have hmapped : ∀ id frame, (id, frame) ∈ pool.pageTable.pairs → pool.Maps id frame :=
    fun id frame hmem => UnorderedMap.mem_pairs_iff.mp hmem
  obtain ⟨writes, frames, hrun, hsub, hwrites, hsame, hclean⟩ := flushDirty_spec hwf hmapped
  have hwrites' : ∀ id data, (id, data) ∈ writes ↔ ∃ frame, pool.Maps id frame ∧
      (pool.frames frame).isDirty = true ∧ (pool.frames frame).data = some data := by
    intro id data
    rw [hwrites]
    exact exists_congr fun frame => and_congr_left' UnorderedMap.mem_pairs_iff
  refine ⟨writes, frames, hrun, ?_, hsub.nodup (UnorderedMap.keys_nodup _), hwrites',
    fun id => ⟨fun hmem => ?_, ?_⟩, hclean⟩
  · refine ⟨hwf.partition, fun {id frame} hmaps => ?_, fun {id frame} hmaps => ?_,
      hwf.page_nonneg, hwf.replacer_size, hwf.replacer_k, hwf.tracked⟩
    · obtain ⟨pinCount, heq⟩ := hsame frame
      exact (congrArg FrameHeader.frameId heq).trans (hwf.frameId_eq hmaps)
    · obtain ⟨pinCount, heq⟩ := hsame frame
      obtain ⟨data, hdata⟩ := hwf.data_isSome hmaps
      exact ⟨data, (congrArg FrameHeader.data heq).trans hdata⟩
  · obtain ⟨⟨id', data⟩, hwrite, rfl⟩ := List.mem_map.mp hmem
    obtain ⟨frame, hmaps, hdirty, _⟩ := (hwrites' id' data).mp hwrite
    exact ⟨frame, hmaps, hdirty⟩
  · rintro ⟨frame, hmaps, hdirty⟩
    obtain ⟨data, hdata⟩ := hwf.data_isSome hmaps
    exact List.mem_map.mpr ⟨(id, data), (hwrites' id data).mpr ⟨frame, hmaps, hdirty, hdata⟩, rfl⟩

theorem flushPages_spec (hwf : pool.WellFormed) :
    ∃ (wasAnyPageDirty : Bool) (pool' : BufferPool δ B) (writes : List (PageId × B)),
      flushPages pool = .ok wasAnyPageDirty pool' ∧ FlushedAll pool pool' writes := by
  obtain ⟨writes, frames, hrun, hwfFlushed, hnodup, hwrites, hdirtyPage, hclean⟩ :=
    flushDirty_pairs hwf
  obtain ⟨pool', hevict, hwf', hmax, hdisk, hnext, hiff, hframes⟩ :=
    evictPages_spec hwfFlushed hnodup fun id hmem => by
      obtain ⟨frame, hmaps, _⟩ := (hdirtyPage id).mp hmem
      exact ⟨frame, hmaps⟩
  have hmapsIff : ∀ id frame, pool'.Maps id frame ↔
      pool.Maps id frame ∧ (pool.frames frame).isDirty = false := by
    intro id frame
    rw [hiff, hdirtyPage]
    constructor
    · rintro ⟨hnotDirty, hmaps⟩
      exact ⟨hmaps, Bool.eq_false_iff.mpr fun hdirty => hnotDirty ⟨frame, hmaps, hdirty⟩⟩
    · rintro ⟨hmaps, hnotDirty⟩
      refine ⟨?_, hmaps⟩
      rintro ⟨frame', hmaps', hdirty⟩
      cases hmaps.symm.trans hmaps'
      rw [hnotDirty] at hdirty
      cases hdirty
  refine ⟨! (writes.map Prod.fst).isEmpty, pool', writes, ?_, hwf', hmax, hnext, hdisk, hnodup,
    hwrites, hmapsIff, ?_⟩
  · rw [flushPages, bind_of_ok (get_apply pool), bind_of_ok hrun, bind_of_ok hevict]
    rfl
  · intro id frame hmaps
    rw [hframes id frame hmaps]
    exact hclean frame ((hmapsIff id frame).mp hmaps).2

/-- The replacer after `flush_pages`: the frames of the dirty pages have been removed. -/
theorem flushPages_frameReplacer (hwf : pool.WellFormed) {wasAnyPageDirty : Bool}
    {pool' : BufferPool δ B} (hreturns : flushPages pool = .ok wasAnyPageDirty pool') :
    ∃ frames : List FrameId,
      pool'.frameReplacer = frames.foldl LruK.removed pool.frameReplacer ∧
      ∀ frame, frame ∈ frames ↔
        (∃ id, pool.Maps id frame) ∧ (pool.frames frame).isDirty = true := by
  obtain ⟨writes, frames, hrun, hwfFlushed, hnodup, _, hdirtyPage, _⟩ := flushDirty_pairs hwf
  have hmapped : ∀ id ∈ writes.map Prod.fst, ∃ frame, pool.Maps id frame := by
    intro id hmem
    obtain ⟨frame, hmaps, _⟩ := (hdirtyPage id).mp hmem
    exact ⟨frame, hmaps⟩
  obtain ⟨pool'', hevict, _⟩ := evictPages_spec hwfFlushed hnodup hmapped
  rw [flushPages, bind_of_ok (get_apply pool), bind_of_ok hrun, bind_of_ok hevict] at hreturns
  cases hreturns
  obtain ⟨removed, hreplacer, hmem⟩ := evictPages_frameReplacer hwfFlushed hnodup hmapped hevict
  refine ⟨removed, hreplacer, fun frame => (hmem frame).trans ⟨?_, ?_⟩⟩
  · rintro ⟨id, hwritten, hmaps⟩
    obtain ⟨slot, hslot, hdirty⟩ := (hdirtyPage id).mp hwritten
    cases hslot.symm.trans hmaps
    exact ⟨⟨id, hmaps⟩, hdirty⟩
  · rintro ⟨⟨id, hmaps⟩, hdirty⟩
    exact ⟨id, (hdirtyPage id).mpr ⟨frame, hmaps, hdirty⟩, hmaps⟩

end BufferPool

end HiveDb
