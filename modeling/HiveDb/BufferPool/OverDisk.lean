import HiveDb.BufferPool.Twins
import HiveDb.BufferPool.DiskCalls
import HiveDb.Disk.Slotted
import HiveDb.Disk.DiskScheduler
import HiveDb.Disk.DiskManagerMock

/-!
# The pool over the disk manager

Behind the scheduler a disk manager serves the reads and writes of the pool, and
an exception that it throws ends the process.  Over the real manager this never
happens: the pool reads its pages before it writes them, so it works as over a
row of slots.  There one flush puts all its pages into one slot, and each of them
is read back as the one that was written last.
-/

namespace HiveDb

open HiveDb.Lib BufferPool

/-! ## Behind the scheduler -/

/-- A disk manager and whether an exception of it has ended the process. -/
structure Worker (μ : Type) where
  manager : μ
  terminated : Bool := false

namespace Worker

section Calls

variable {μ : Type} [ThrowingDiskManagerT μ PageBuffer]

/-- The buffer of a fault holds zeros before the page is read into it. -/
def readPage (id : PageId) (worker : Worker μ) : PageBuffer × Worker μ :=
  match ThrowingDiskManagerT.readPage id zeroPage worker.manager with
  | .ok page manager => (page, ⟨manager, worker.terminated⟩)
  | .error _ manager => (zeroPage, ⟨manager, true⟩)

def writePage (id : PageId) (page : PageBuffer) (worker : Worker μ) : Worker μ :=
  match ThrowingDiskManagerT.writePage id page worker.manager with
  | .ok _ manager => ⟨manager, worker.terminated⟩
  | .error _ manager => ⟨manager, true⟩

instance : DiskManagerT (Worker μ) PageBuffer where
  readPage := readPage
  writePage := writePage

variable {worker : Worker μ} {manager : μ} {id : PageId} {page : PageBuffer}

theorem readPage_of_ok
    (h : ThrowingDiskManagerT.readPage id zeroPage worker.manager = .ok page manager) :
    DiskManagerT.readPage id worker = (page, ⟨manager, worker.terminated⟩) := by
  refine Eq.trans (b := readPage id worker) rfl ?_
  rw [readPage, h]

theorem writePage_of_ok
    (h : ThrowingDiskManagerT.writePage id page worker.manager = .ok () manager) :
    DiskManagerT.writePage id page worker = ⟨manager, worker.terminated⟩ := by
  refine Eq.trans (b := writePage id page worker) rfl ?_
  rw [writePage, h]

end Calls

/-! ## The real manager -/

/-- The worker is running, and its manager keeps the row of slots in its file. -/
def FollowsSlots (worker : Worker DiskManager) (disk : SlotDisk PageBuffer) : Prop :=
  worker.terminated = false ∧ worker.manager.Follows disk

/-- The manager has an offset for the page. -/
def KnowsOffset (id : PageId) (worker : Worker DiskManager) : Prop :=
  0 ≤ id ∧ ∃ offset, worker.manager.pages.find? id = some offset

theorem FollowsSlots.knows_iff {worker : Worker DiskManager} {disk : SlotDisk PageBuffer}
    (h : FollowsSlots worker disk) (id : PageId) :
    KnowsOffset id worker ↔ 0 ≤ id ∧ ∃ s, disk.slot id = some s := by
  rw [KnowsOffset, h.2.find_eq]
  refine and_congr_right fun _ => ?_
  constructor
  · rintro ⟨offset, hoffset⟩
    obtain ⟨s, hs, _⟩ := Option.map_eq_some_iff.mp hoffset
    exact ⟨s, hs⟩
  · rintro ⟨s, hs⟩
    exact ⟨s * pageSize, by rw [hs]; rfl⟩

theorem FollowsSlots.read {worker : Worker DiskManager} {disk : SlotDisk PageBuffer} {id : PageId}
    (h : FollowsSlots worker disk) (hid : 0 ≤ id) :
    (DiskManagerT.readPage id worker).1 = (disk.readPage id).1 ∧
      FollowsSlots (DiskManagerT.readPage id worker).2 (disk.readPage id).2 := by
  obtain ⟨manager, hread, hfollows⟩ := h.2.read hid zeroPage
  rw [readPage_of_ok hread]
  exact ⟨rfl, h.1, hfollows⟩

theorem FollowsSlots.write {worker : Worker DiskManager} {disk : SlotDisk PageBuffer} {id : PageId}
    (h : FollowsSlots worker disk) (hknown : KnowsOffset id worker) (page : PageBuffer) :
    FollowsSlots (DiskManagerT.writePage id page worker) (disk.writePage id page) := by
  obtain ⟨hid, s, hslot⟩ := (h.knows_iff id).mp hknown
  obtain ⟨manager, hwrite, hfollows⟩ := h.2.write_known hid hslot page
  rw [writePage_of_ok hwrite]
  exact ⟨h.1, hfollows⟩

/-- The real manager answers as the row of slots, whatever page is read. -/
theorem simulates_slots : DiskSimulation (fun _ _ => True) KnowsOffset FollowsSlots where
  read hid _ h := h.read hid
  write hknown h page := h.write hknown page
  known_read_self hid _ h := ((h.read hid).2.knows_iff _).mpr ⟨hid, SlotDisk.known_readPage_self⟩
  known_read hid _ h hknown :=
    ((h.read hid).2.knows_iff _).mpr (((h.knows_iff _).mp hknown).imp_right SlotDisk.known_readPage)
  known_write hknown h hother page :=
    ((h.write hknown page).knows_iff _).mpr
      (((h.knows_iff _).mp hother).imp_right SlotDisk.known_writePage)

end Worker

namespace Session

variable {s : Session (Worker DiskManager) PageBuffer} {ops : List (PoolOp PageBuffer)}
  {pool : BufferPool (Worker DiskManager) PageBuffer} {maxFrames : FrameId}
  {order : IterationOrder PageId FrameId} {existing : Option File}

/--
A session of the pool over the real disk manager, on any file, is one over the
row of slots of this file: no call of the manager throws, and the pools, the
bytes in their frames and the pins are the same at every moment.
-/
theorem pool_over_disk_manager
    (hnew : new maxFrames (⟨.new existing, false⟩ : Worker DiskManager) order = .ok pool)
    (hrun : Run Step (start pool) ops s) :
    s.pool.disk.terminated = false ∧
      ∃ slotPool, new maxFrames (SlotDisk.unmet (DiskManager.slotsOf existing)) order =
          .ok slotPool ∧
        ∃ t, Run Step (start slotPool) ops t ∧ t.pins = s.pins ∧
          t.pool = s.pool.onDisk t.pool.disk ∧ s.pool.disk.manager.Follows t.pool.disk := by
  obtain ⟨n, rfl, rfl⟩ := eq_initial_of_new hnew
  obtain ⟨t, hrunTwin, hpools, hpins⟩ := run_twin Worker.simulates_slots
    (.start n order ⟨rfl, DiskManager.follows_new existing⟩) hrun fun _ _ _ _ _ _ _ _ _ => trivial
  have hequal := hpools.eq_onDisk
  obtain ⟨hrunning, hfollows⟩ := hpools.disks
  exact ⟨hrunning, _, new_eq n _ order, t, hrunTwin, hpins, hequal, hfollows⟩

/-- A pool of two frames over a new file. -/
def newFilePool : BufferPool (Worker DiskManager) PageBuffer :=
  initial 2 ⟨.new none, false⟩ .newestFirst

/-- Two pages, both written to. -/
def twoPagesOps : List (PoolOp PageBuffer) :=
  [.requestPage 0 0 true, .write 0 0 (DiskSession.filled 1), .requestPage 0 1 true,
    .write 1 1 (DiskSession.filled 2)]

theorem twoPages_run :
    ∃ s, Run Step (start newFilePool) twoPagesOps s ∧
      s.pool.Maps 0 0 ∧ s.pool.Maps 1 1 ∧ (s.pool.frames 0).isDirty = true ∧
      (s.pool.frames 1).isDirty = true := by
  have heval : ((start newFilePool).run? twoPagesOps).any (fun s => s.pool.Maps 0 0 ∧
      s.pool.Maps 1 1 ∧ (s.pool.frames 0).isDirty = true ∧ (s.pool.frames 1).isDirty = true) =
      true := by
    decide +kernel
  obtain ⟨s, hs, hstate⟩ := (Option.any_eq_true _ _).mp heval
  exact ⟨s, run_of_run? hs, of_decide_eq_true hstate⟩

theorem two_pages_over_slots :
    ∃ s t, Run Step (start newFilePool) twoPagesOps s ∧ s.pool.disk.terminated = false ∧
      Run Step (start (initial 2 (SlotDisk.unmet (DiskManager.slotsOf none)) .newestFirst))
        twoPagesOps t ∧ t.pool = s.pool.onDisk t.pool.disk := by
  obtain ⟨s, hrun, _⟩ := twoPages_run
  obtain ⟨hrunning, _, hnew, t, hrunTwin, _, hequal, _⟩ :=
    pool_over_disk_manager (new_eq 2 _ _) hrun
  cases (new_eq 2 _ _).symm.trans hnew
  exact ⟨s, t, hrun, hrunning, hrunTwin, hequal⟩

end Session

/-! ### What a flush leaves -/

/-- A list of writes puts its pages into one slot, which holds the last of them. -/
theorem SlotDisk.writeBack_spec {B : Type} (writes : List (PageId × B)) (disk : SlotDisk B) :
    (writeBack writes disk).count = disk.count ∧
    (∀ id ∈ writes.map Prod.fst, (writeBack writes disk).slot id = some disk.count) ∧
    ∀ last ∈ writes.getLast?, (writeBack writes disk).contents disk.count = last.2 := by
  induction writes using List.reverseRecOn with
  | nil => exact ⟨rfl, by simp, by simp⟩
  | append_singleton writes write ih =>
      obtain ⟨hcount, hslot, _⟩ := ih
      have hwrite : writeBack (writes ++ [write]) disk =
          (writeBack writes disk).writePage write.1 write.2 := List.foldl_append
      rw [hwrite]
      refine ⟨hcount, fun id hmem => ?_, fun last hlast => ?_⟩
      · by_cases heq : id = write.1
        · rw [heq, slot_writePage_self, hcount]
        · rw [slot_writePage_ne heq]
          refine hslot id ?_
          simpa [heq] using hmem
      · obtain rfl : write = last := by simpa using hlast
        rw [← hcount]
        exact contents_writePage_self

namespace BufferPool

variable {δ B : Type} [DiskManagerT δ B] {pool pool' : BufferPool δ B} {id : PageId} {data : B}
  {writes : List (PageId × B)}

/-- The frame of a page that was dirty is empty after `flush_pages`. -/
theorem FlushedAll.room (hflushed : FlushedAll pool pool' writes) (hwf : pool.WellFormed)
    (hdirty : pool.HoldsDirty id data) : pool'.emptyFrames ≠ [] := by
  obtain ⟨frame, hmaps, hisDirty, _⟩ := hdirty
  have hframe : pool'.hasFrame frame := by
    rw [hasFrame, hflushed.maxFrames_eq]
    exact hwf.hasFrame_of_maps hmaps
  intro hfull
  obtain ⟨other, hother⟩ := hflushed.wellFormed.exists_maps_of_full hfull hframe
  have hclean := ((hflushed.maps_iff other frame).mp hother).2
  rw [hisDirty] at hclean
  cases hclean

/-- A page that was dirty is read from the disk again after `flush_pages`. -/
theorem FlushedAll.returnsFromDisk (hflushed : FlushedAll pool pool' writes)
    (hwf : pool.WellFormed) (hdirty : pool.HoldsDirty id data) (shouldPin : Bool) :
    pool'.ReturnsFromDisk id shouldPin := by
  have hroom := hflushed.room hwf hdirty
  obtain ⟨frame, hmaps, hisDirty, _⟩ := hdirty
  have habsent : pool'.pageTable.find? id = none := by
    cases hfind : pool'.pageTable.find? id with
    | none => rfl
    | some slot =>
        obtain ⟨hbefore, hclean⟩ := (hflushed.maps_iff id slot).mp hfind
        cases hmaps.symm.trans hbefore
        rw [hisDirty] at hclean
        cases hclean
  exact (returnsFromDisk_iff_canTake hflushed.wellFormed (hwf.page_nonneg hmaps) habsent
    shouldPin).mpr (.inl hroom)

end BufferPool

namespace Session

variable {s : Session (Worker DiskManager) PageBuffer} {ops : List (PoolOp PageBuffer)}
  {pool pool' : BufferPool (Worker DiskManager) PageBuffer} {maxFrames : FrameId}
  {order : IterationOrder PageId FrameId} {existing : Option File}

/--
Over the real disk manager `flush_pages` keeps the bytes of one page: all pages
it writes read as this one when they are requested again.
-/
theorem flushed_pages_read_alike
    (hnew : new maxFrames (⟨.new existing, false⟩ : Worker DiskManager) order = .ok pool)
    (hrun : Run Step (start pool) ops s) {wasAnyPageDirty : Bool}
    (hflush : flushPages s.pool = .ok wasAnyPageDirty pool') {first : PageId}
    {firstPage : PageBuffer} (hfirst : s.pool.HoldsDirty first firstPage) :
    ∃ last page, s.pool.HoldsDirty last page ∧
      ∀ id data, s.pool.HoldsDirty id data → ∀ shouldPin, ∃ frame pool'',
        requestPage id shouldPin pool' = .ok frame pool'' ∧ pool''.Maps id frame ∧
          (pool''.frames frame).data = some page := by
  have hwf := wellFormed_of_run hnew hrun
  obtain ⟨n, rfl, rfl⟩ := eq_initial_of_new hnew
  obtain ⟨t, hrunTwin, hpools, _⟩ := run_twin Worker.simulates_slots
    (.start n order ⟨rfl, DiskManager.follows_new existing⟩) hrun fun _ _ _ _ _ _ _ _ _ => trivial
  obtain ⟨_, hflushed⟩ := flushPages_cases hwf (.inl ⟨_, hflush⟩)
  obtain ⟨twin, hflushTwin, htwins⟩ :=
    (twinStep_flushPages Worker.simulates_slots).of_ok hpools hflush
  obtain ⟨writes, hflushedTwin⟩ :=
    flushPages_cases (wellFormed_of_run (new_eq n _ order) hrunTwin) (.inl ⟨_, hflushTwin⟩)
  obtain ⟨_, hslot, hcontents⟩ := SlotDisk.writeBack_spec writes t.pool.disk
  rw [← hflushedTwin.disk_eq] at hslot hcontents
  -- the twin has the same dirty pages
  have hwrites : ∀ id data, (id, data) ∈ writes ↔ s.pool.HoldsDirty id data := by
    intro id data
    rw [hflushedTwin.mem_writes_iff, hpools.eq_onDisk]
    rfl
  have hnonempty := List.ne_nil_of_mem ((hwrites first firstPage).mpr hfirst)
  obtain ⟨⟨last, page⟩, hlast⟩ : ∃ write, writes.getLast? = some write :=
    ⟨_, List.getLast?_eq_some_getLast hnonempty⟩
  refine ⟨last, page, (hwrites last page).mp (List.mem_of_getLast? hlast),
    fun id data hdirty shouldPin => ?_⟩
  obtain ⟨frame, pool'', hreturns, hmaps, hdata⟩ := hflushed.returnsFromDisk hwf hdirty shouldPin
  refine ⟨frame, pool'', hreturns, hmaps, hdata.trans (congrArg some ?_)⟩
  have hid : 0 ≤ id := nonneg_of_returns hreturns
  calc pool'.diskData id = (twin.disk.readPage id).1 := (htwins.disks.read hid).1
    _ = twin.disk.contents t.pool.disk.count := by
        have hmem := List.mem_map_of_mem (f := Prod.fst) ((hwrites id data).mpr hdirty)
        rw [SlotDisk.readPage_of_some (hslot id hmem)]
    _ = page := hcontents (last, page) hlast

/-- One of the two pages is lost. -/
theorem two_flushed_pages_alike :
    ∃ s pool' page, Run Step (start newFilePool) twoPagesOps s ∧
      s.pool.HoldsDirty 0 (DiskSession.filled 1) ∧ s.pool.HoldsDirty 1 (DiskSession.filled 2) ∧
      (∃ wasAnyPageDirty, flushPages s.pool = .ok wasAnyPageDirty pool') ∧
      ∀ id ∈ ([0, 1] : List PageId), ∃ frame pool'', requestPage id true pool' = .ok frame pool'' ∧
        (pool''.frames frame).data = some page := by
  obtain ⟨s, hrun, hmaps, hmaps', hdirty, hdirty'⟩ := twoPages_run
  have hnew := new_eq (B := PageBuffer) 2 (⟨.new none, false⟩ : Worker DiskManager) .newestFirst
  have hwf := wellFormed_of_run hnew hrun
  have hholds : ∀ id frame, s.pool.Maps id frame → (s.pool.frames frame).isDirty = true →
      s.pool.HoldsDirty id (lastWritten (fun _ => zeroPage) twoPagesOps id) := by
    intro id frame hmaps hdirty
    obtain ⟨data, hdata⟩ := hwf.data_isSome hmaps
    have hholds : s.pool.HoldsDirty id data := ⟨frame, hmaps, hdirty, hdata⟩
    rwa [(lastWrite_of_dirty hnew hrun hholds).lastWritten_eq]
  obtain ⟨wasAnyPageDirty, pool', _, hflush, _⟩ := flushPages_spec hwf
  obtain ⟨_, page, _, halike⟩ :=
    flushed_pages_read_alike hnew hrun hflush (hholds 0 0 hmaps hdirty)
  refine ⟨s, pool', page, hrun, hholds 0 0 hmaps hdirty, hholds 1 1 hmaps' hdirty',
    ⟨_, hflush⟩, fun id hmem => ?_⟩
  have hid : s.pool.HoldsDirty id (lastWritten (fun _ => zeroPage) twoPagesOps id) := by
    rcases List.mem_cons.mp hmem with rfl | hmem
    · exact hholds 0 0 hmaps hdirty
    · exact List.mem_singleton.mp hmem ▸ hholds 1 1 hmaps' hdirty'
  obtain ⟨frame, pool'', hreturns, _, hdata⟩ := halike id _ hid true
  exact ⟨frame, pool'', hreturns, hdata⟩

end Session

end HiveDb
