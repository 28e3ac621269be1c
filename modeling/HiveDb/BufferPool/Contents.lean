import HiveDb.BufferPool.Request
import HiveDb.BufferPool.FlushPages

/-!
# The contents of a pool over an ideal disk

The ideal disk is a page map.  A pool over it exposes the contents of all
pages: a mapped page through its frame, any other page from the disk.  The
contents are kept as long as no frame is given up whose bytes the disk lacks.
-/

namespace HiveDb

open HiveDb.Lib

/-- A disk that stores what is written and returns what is stored. -/
structure IdealDisk (B : Type) where
  pages : PageId → B

variable {B : Type}

instance : DiskManagerT (IdealDisk B) B where
  readPage id disk := (disk.pages id, disk)
  writePage id data disk := ⟨Function.update disk.pages id data⟩

namespace BufferPool

variable {disk : IdealDisk B} {pool : BufferPool (IdealDisk B) B} {id owner : PageId}
variable {frame : FrameId} {content : PageId → B}

theorem writeBack_of_notMem {writes : List (PageId × B)} (hnotMem : id ∉ writes.map Prod.fst)
    (disk : IdealDisk B) : (writeBack writes disk).pages id = disk.pages id := by
  induction writes generalizing disk with
  | nil => rfl
  | cons first rest ih =>
      rw [List.map_cons, List.mem_cons, not_or] at hnotMem
      refine (ih hnotMem.2 _).trans ?_
      exact Function.update_of_ne hnotMem.1 _ _

theorem writeBack_of_mem {writes : List (PageId × B)} (hnodup : (writes.map Prod.fst).Nodup)
    {data : B} (hmem : (id, data) ∈ writes) (disk : IdealDisk B) :
    (writeBack writes disk).pages id = data := by
  induction writes generalizing disk with
  | nil => cases hmem
  | cons first rest ih =>
      rw [List.map_cons, List.nodup_cons] at hnodup
      rcases List.mem_cons.mp hmem with heq | hmem
      · cases heq
        refine (writeBack_of_notMem hnodup.1 _).trans ?_
        exact Function.update_self _ _ _
      · exact ih hnodup.2 hmem _

/-- The pool exposes the contents, and has nothing to write for a page that is not dirty. -/
structure Exposes (pool : BufferPool (IdealDisk B) B) (content : PageId → B) : Prop where
  mapped : ∀ {id frame}, pool.Maps id frame → (pool.frames frame).data = some (content id)
  absent : ∀ {id}, pool.pageTable.find? id = none → pool.disk.pages id = content id
  clean : ∀ {id frame}, pool.Maps id frame → (pool.frames frame).isDirty = false →
    pool.disk.pages id = content id

namespace Exposes

theorem initial (maxFrames : Nat) (disk : IdealDisk B) (order : IterationOrder PageId FrameId) :
    (BufferPool.initial maxFrames disk order).Exposes disk.pages where
  mapped hmaps := nomatch (UnorderedMap.find?_empty order _).symm.trans hmaps
  absent _ := rfl
  clean hmaps := nomatch (UnorderedMap.find?_empty order _).symm.trans hmaps

/-- A state that differs in pin counts, in the replacer and in frames marked dirty only. -/
theorem of_frames (h : pool.Exposes content) {pool' : BufferPool (IdealDisk B) B}
    (hdisk : pool'.disk = pool.disk) (htable : pool'.pageTable = pool.pageTable)
    (hdata : ∀ frame, (pool'.frames frame).data = (pool.frames frame).data)
    (hclean : ∀ frame, (pool'.frames frame).isDirty = false →
      (pool.frames frame).isDirty = false) :
    pool'.Exposes content where
  mapped hmaps := by
    rw [Maps, htable] at hmaps
    rw [hdata]
    exact h.mapped hmaps
  absent habsent := by
    rw [hdisk]
    exact h.absent (htable ▸ habsent)
  clean hmaps hframe := by
    rw [Maps, htable] at hmaps
    rw [hdisk]
    exact h.clean hmaps (hclean _ hframe)

/-- Changing the pin count of a frame or marking it dirty. -/
theorem setFrame (h : pool.Exposes content) {header : FrameHeader B}
    (hdata : header.data = (pool.frames frame).data)
    (hclean : header.isDirty = false → (pool.frames frame).isDirty = false) :
    (pool.setFrame frame header).Exposes content := by
  refine h.of_frames rfl rfl (fun slot => ?_) fun slot => ?_
  · by_cases heq : slot = frame
    · rw [heq, setFrame_frames_self, hdata]
    · rw [setFrame_frames_ne _ heq]
  · by_cases heq : slot = frame
    · rw [heq, setFrame_frames_self]
      exact hclean
    · rw [setFrame_frames_ne _ heq]
      exact id

theorem touched (h : pool.Exposes content) (frame : FrameId) (shouldPin : Bool) :
    (pool.touched frame shouldPin).Exposes content :=
  h.of_frames rfl rfl (fun _ => touched_data shouldPin)
    fun _ hclean => (touched_isDirty shouldPin).symm.trans hclean

theorem withoutVictim (h : pool.Exposes content) (frame : FrameId) :
    (pool.withoutVictim frame).Exposes content :=
  h.of_frames rfl rfl (fun _ => rfl) fun _ => id

theorem flushed (h : pool.Exposes content) (hmaps : pool.Maps id frame)
    (hdirty : (pool.frames frame).isDirty = true) :
    (pool.flushed id frame (content id)).Exposes content where
  mapped hother := by
    rw [flushed_data]
    exact h.mapped hother
  absent {other} habsent := by
    refine (Function.update_of_ne ?_ _ _).trans (h.absent habsent)
    rintro rfl
    cases habsent.symm.trans hmaps
  clean {other slot} hother hclean := by
    rw [flushed_isDirty] at hclean
    refine (Function.update_of_ne ?_ _ _).trans (h.clean hother hclean)
    rintro rfl
    cases hmaps.symm.trans hother
    rw [hdirty] at hclean
    cases hclean

/-- Giving up a page whose bytes are on the disk. -/
theorem evicted (h : pool.Exposes content) (hwf : pool.WellFormed) (hmaps : pool.Maps id frame)
    (hsaved : pool.disk.pages id = content id) : (pool.evicted id frame).Exposes content where
  mapped hother := by
    rw [evicted_frames hwf hmaps hother]
    exact h.mapped (evicted_maps_iff.mp hother).2
  absent {other} habsent := by
    by_cases heq : other = id
    · rw [heq]
      exact hsaved
    · exact h.absent ((UnorderedMap.find?_erase_ne heq).symm.trans habsent)
  clean hother hclean := by
    rw [evicted_frames hwf hmaps hother] at hclean
    exact h.clean (evicted_maps_iff.mp hother).2 hclean

theorem loaded (h : pool.Exposes content) (hwf : pool.WellFormed)
    (habsent : pool.pageTable.find? id = none) (hfree : frame ∈ pool.emptyFrames)
    (shouldPin : Bool) (replacer : LruK) :
    (pool.loaded id frame (content id) shouldPin replacer).Exposes content where
  mapped {other slot} hother := by
    by_cases heq : other = id
    · subst heq
      cases hother.symm.trans (loaded_maps_self _ shouldPin replacer)
      rw [loaded_frames_self, pinnedIf_data]
      rfl
    · have hbefore := (loaded_maps_iff heq _ shouldPin replacer).mp hother
      have hne : slot ≠ frame := by
        rintro rfl
        exact hwf.not_maps_of_empty hfree hbefore
      rw [loaded_frames_ne hne]
      exact h.mapped hbefore
  absent {other} hother := by
    refine h.absent ?_
    by_cases heq : other = id
    · rw [heq]
      exact habsent
    · exact (UnorderedMap.find?_assign_ne heq).symm.trans hother
  clean {other slot} hother hclean := by
    by_cases heq : other = id
    · rw [heq]
      exact h.absent habsent
    · have hbefore := (loaded_maps_iff heq _ shouldPin replacer).mp hother
      have hne : slot ≠ frame := by
        rintro rfl
        exact hwf.not_maps_of_empty hfree hbefore
      rw [loaded_frames_ne hne] at hclean
      exact h.clean hbefore hclean

/-- Writing every dirty page back and unmapping it. -/
theorem flushedAll (h : pool.Exposes content) {pool' : BufferPool (IdealDisk B) B}
    {writes : List (PageId × B)} (hflushed : FlushedAll pool pool' writes) :
    pool'.Exposes content ∧ ∀ id, pool'.disk.pages id = content id := by
  have hsaved : ∀ id, pool'.disk.pages id = content id := by
    intro id
    rw [hflushed.disk_eq]
    by_cases hmem : id ∈ writes.map Prod.fst
    · obtain ⟨⟨id', data⟩, hwrite, rfl⟩ := List.mem_map.mp hmem
      obtain ⟨frame, hmaps, _, hdata⟩ := (hflushed.mem_writes_iff id' data).mp hwrite
      rw [writeBack_of_mem hflushed.writes_nodup hwrite]
      exact Option.some.inj (hdata.symm.trans (h.mapped hmaps))
    · rw [writeBack_of_notMem hmem]
      cases hfind : pool.pageTable.find? id with
      | none => exact h.absent hfind
      | some frame =>
          refine h.clean hfind (Bool.eq_false_iff.mpr fun hdirty => hmem ?_)
          exact List.mem_map.mpr ⟨(id, content id),
            (hflushed.mem_writes_iff id _).mpr ⟨frame, hfind, hdirty, h.mapped hfind⟩, rfl⟩
  refine ⟨⟨fun hmaps => ?_, fun _ => hsaved _, fun _ _ => hsaved _⟩, hsaved⟩
  rw [hflushed.frames_eq _ _ hmaps]
  exact h.mapped ((hflushed.maps_iff _ _).mp hmaps).1

theorem write (h : pool.Exposes content) (hwf : pool.WellFormed) (hmaps : pool.Maps id frame)
    {header : FrameHeader B} (hdirty : header.isDirty = true) {data : B}
    (hdata : header.data = some data) :
    (pool.setFrame frame header).Exposes (Function.update content id data) where
  mapped {other slot} hother := by
    by_cases heq : other = id
    · subst heq
      cases hother.symm.trans hmaps
      rw [setFrame_frames_self, Function.update_self]
      exact hdata
    · have hne : slot ≠ frame := by
        rintro rfl
        exact heq (hwf.maps_inj hother hmaps)
      rw [setFrame_frames_ne _ hne, Function.update_of_ne heq]
      exact h.mapped hother
  absent {other} habsent := by
    rw [Function.update_of_ne]
    · exact h.absent habsent
    · rintro rfl
      cases habsent.symm.trans hmaps
  clean {other slot} hother hclean := by
    have hne : slot ≠ frame := by
      rintro rfl
      rw [setFrame_frames_self, hdirty] at hclean
      cases hclean
    rw [setFrame_frames_ne _ hne] at hclean
    rw [Function.update_of_ne]
    · exact h.clean hother hclean
    · rintro rfl
      cases hother.symm.trans hmaps
      exact hne rfl

end Exposes

/-! ## Requests -/

/-- No victim would be given up with bytes the disk lacks. -/
def VictimSaved (pool : BufferPool (IdealDisk B) B) (id : PageId) (content : PageId → B) : Prop :=
  ∀ frame owner, pool.FullFault id → pool.dirtyUnpinned? = none →
    pool.frameReplacer.IsVictim frame → (pool.frames frame).pinCount ≤ 0 →
    pool.Maps owner frame → pool.disk.pages owner = content owner

/-- A request keeps the contents unless it gives up a victim with unsaved bytes. -/
theorem Request.exposes {shouldPin : Bool}
    {result : EStateM.Result Failure (BufferPool (IdealDisk B) B) FrameId}
    (hrequest : Request pool id shouldPin result) (h : pool.Exposes content)
    (hwf : pool.WellFormed) (hsaved : pool.VictimSaved id content) :
    (stateOf result).Exposes content := by
  have hread : ∀ {id}, pool.pageTable.find? id = none → pool.diskData id = content id :=
    fun habsent => h.absent habsent
  cases hrequest with
  | hit maps => exact h.touched _ shouldPin
  | empty absent free =>
      rw [hread absent]
      refine h.loaded hwf absent ?_ shouldPin _
      rw [free]
      exact List.mem_cons_self
  | @dirty frame owner data fault scan maps data_eq =>
      obtain ⟨_, hdirty, _⟩ := dirtyUnpinned?_eq_some scan
      obtain rfl : content owner = data :=
        Option.some.inj ((h.mapped maps).symm.trans data_eq)
      have hne := fault.ne_of_maps maps
      have hwf' := hwf.flushed owner frame (content owner)
      have hevicted := (h.flushed maps hdirty).evicted hwf' maps (Function.update_self _ _ _)
      rw [hread fault.absent]
      exact hevicted.loaded (hwf'.evicted maps)
        ((UnorderedMap.find?_erase_ne hne).trans fault.absent)
        (List.mem_append_right _ (List.mem_singleton_self frame)) shouldPin _
  | @victim frame owner fault scan picked unpinned maps =>
      have hne := fault.ne_of_maps maps
      have hwf' := hwf.withoutVictim frame
      have hevicted := (h.withoutVictim frame).evicted hwf' maps
        (hsaved frame owner fault scan picked unpinned maps)
      rw [hread fault.absent]
      exact hevicted.loaded (hwf'.evicted maps)
        ((UnorderedMap.find?_erase_ne hne).trans fault.absent)
        (List.mem_append_right _ (List.mem_singleton_self frame)) shouldPin _
  | noVictim => exact h
  | pinned => exact h.withoutVictim _

end BufferPool

end HiveDb
