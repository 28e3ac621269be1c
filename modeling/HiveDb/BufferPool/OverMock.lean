import HiveDb.BufferPool.OverDisk

/-!
# The pool over the mock

The tests run the pool and the tree over the mock, whose vector grows by six
pages at a time.  The pool over it works as over an ideal disk while its clients
skip no block of six pages, however it replaces its pages.
-/

namespace HiveDb

open HiveDb.Lib BufferPool

instance : ThrowingDiskManagerT DiskManagerMock PageBuffer where
  readPage := DiskManagerMock.readPage
  writePage := DiskManagerMock.writePage

namespace Worker

/-- The worker is running, and the vector of its mock holds the pages of the disk. -/
def FollowsPages (worker : Worker DiskManagerMock) (disk : IdealDisk PageBuffer) : Prop :=
  worker.terminated = false ∧ ∃ blocks, worker.manager.Represents disk.pages blocks

/-- The page is in one of the blocks of the vector. -/
def InVector (id : PageId) (worker : Worker DiskManagerMock) : Prop :=
  0 ≤ id ∧ id.toNat / 6 < worker.manager.mockFile.length / 6

/-- The page is in one of the blocks of the vector or in the next one. -/
def Reaches (id : PageId) (worker : Worker DiskManagerMock) : Prop :=
  id.toNat / 6 ≤ worker.manager.mockFile.length / 6

variable {worker : Worker DiskManagerMock} {disk : IdealDisk PageBuffer} {id other : PageId}

theorem reaches_of_block (hid : 0 ≤ id)
    (hblock : (id : Int) / 6 ≤ (worker.manager.mockFile.length / 6 : Nat)) : Reaches id worker := by
  obtain ⟨n, rfl⟩ := Int.eq_ofNat_of_zero_le hid
  exact Int.ofNat_le.mp hblock

theorem InVector.block_lt (h : InVector id worker) :
    (id : Int) / 6 + 1 ≤ (worker.manager.mockFile.length / 6 : Nat) := by
  obtain ⟨hid, hin⟩ := h
  obtain ⟨n, rfl⟩ := Int.eq_ofNat_of_zero_le hid
  exact Int.ofNat_le.mpr hin

/-- A read within reach returns the page and leaves its block in the vector. -/
theorem FollowsPages.read (h : FollowsPages worker disk) (hid : 0 ≤ id)
    (hreach : Reaches id worker) :
    ∃ worker', DiskManagerT.readPage id worker = (disk.pages id, worker') ∧
      FollowsPages worker' disk ∧ InVector id worker' ∧
      ∀ other, InVector other worker → InVector other worker' := by
  obtain ⟨hrunning, blocks, hrep⟩ := h
  have hlength := hrep.length_eq
  have hblock : id.toNat / 6 ≤ blocks := by
    rw [Reaches, hlength] at hreach
    omega
  have hresized := hrep.resized hblock
  have hlength' := hresized.length_eq
  refine ⟨⟨worker.manager.resized id, worker.terminated⟩,
    readPage_of_ok (hrep.readPage hid hblock zeroPage), ⟨hrunning, _, hresized⟩, ⟨hid, ?_⟩,
    fun other hother => ⟨hother.1, ?_⟩⟩
  · show _ < (worker.manager.resized id).mockFile.length / 6
    omega
  · have := hother.2
    show _ < (worker.manager.resized id).mockFile.length / 6
    omega

theorem FollowsPages.write (h : FollowsPages worker disk) (hknown : InVector id worker)
    (page : PageBuffer) :
    FollowsPages (DiskManagerT.writePage id page worker)
        ⟨Function.update disk.pages id page⟩ ∧
      ∀ other, InVector other worker → InVector other (DiskManagerT.writePage id page worker) := by
  obtain ⟨hrunning, blocks, hrep⟩ := h
  obtain ⟨hid, hin⟩ := hknown
  have hlength := hrep.length_eq
  have hblock : id.toNat / 6 ≤ blocks := by omega
  obtain ⟨manager, hwrite, hrep'⟩ := hrep.writePage hid hblock page
  have hlength' := hrep'.length_eq
  rw [writePage_of_ok hwrite]
  refine ⟨⟨hrunning, _, hrep'⟩, fun other hother => ⟨hother.1, ?_⟩⟩
  have := hother.2
  show _ < manager.mockFile.length / 6
  omega

/-- The mock answers as an ideal disk where the page is within reach. -/
theorem simulates_pages : DiskSimulation Reaches InVector FollowsPages where
  read hid hreach h := by
    obtain ⟨worker', hread, hfollows, _⟩ := h.read hid hreach
    rw [hread]
    exact ⟨rfl, hfollows⟩
  write hknown h page := (h.write hknown page).1
  known_read_self hid hreach h := by
    obtain ⟨worker', hread, _, hin, _⟩ := h.read hid hreach
    rw [hread]
    exact hin
  known_read hid hreach h hother := by
    obtain ⟨worker', hread, _, _, hkeeps⟩ := h.read hid hreach
    rw [hread]
    exact hkeeps _ hother
  known_write hknown h hother page := (h.write hknown page).2 _ hother

end Worker

namespace Session

variable {s : Session (Worker DiskManagerMock) PageBuffer} {ops : List (PoolOp PageBuffer)}
  {pool : BufferPool (Worker DiskManagerMock) PageBuffer} {maxFrames : FrameId}
  {order : IterationOrder PageId FrameId}

theorem requestedIds_split {before after : List (PoolOp PageBuffer)} {client : Client}
    {id : PageId} {shouldPin : Bool} :
    requestedIds (before ++ .requestPage client id shouldPin :: after) =
      requestedIds before ++ id :: requestedIds after := by
  rw [requestedIds, List.flatMap_append, List.flatMap_cons]
  rfl

/--
A session of the pool over the mock whose requests skip no block of six pages is
one over an ideal disk of zeros: no access is behind the end of the vector, and
the pools, the bytes in their frames and the pins are the same at every moment.
-/
theorem pool_over_mock
    (hnew : new maxFrames (⟨{}, false⟩ : Worker DiskManagerMock) order = .ok pool)
    (hrun : Run Step (start pool) ops s) (hsequence : InSequence (requestedIds ops)) :
    s.pool.disk.terminated = false ∧
      ∃ idealPool, new maxFrames (⟨fun _ => zeroPage⟩ : IdealDisk PageBuffer) order =
          .ok idealPool ∧
        ∃ t, Run Step (start idealPool) ops t ∧ t.pins = s.pins ∧
          t.pool = s.pool.onDisk t.pool.disk := by
  obtain ⟨n, rfl, rfl⟩ := eq_initial_of_new hnew
  have hstart : Worker.FollowsPages ⟨{}, false⟩ ⟨fun _ => zeroPage⟩ :=
    ⟨rfl, 0, DiskManagerMock.represents_new⟩
  obtain ⟨t, hrunTwin, hpools, hpins⟩ := run_twin Worker.simulates_pages
    (.start n order hstart) hrun fun before client id shouldPin after heq hid worker hknown => by
      have hfirst := hsequence (requestedIds before) id (requestedIds after)
        (heq ▸ requestedIds_split)
      refine Worker.reaches_of_block hid ?_
      rcases hfirst with hzero | ⟨earlier, hmem, hnext⟩
      · exact hzero.trans_le (Int.natCast_nonneg _)
      · exact hnext.trans (hknown earlier hmem).block_lt
  exact ⟨hpools.disks.1, _, new_eq n _ order, t, hrunTwin, hpins, hpools.eq_onDisk⟩

/-- Two pages of two blocks. -/
def twoBlocksOps : List (PoolOp PageBuffer) := [.requestPage 0 0 true, .requestPage 0 6 true]

theorem two_blocks_over_ideal :
    ∃ s t, Run Step (start (initial 2 (⟨{}, false⟩ : Worker DiskManagerMock) .newestFirst))
        twoBlocksOps s ∧ s.pool.disk.terminated = false ∧
      Run Step (start (initial 2 (⟨fun _ => zeroPage⟩ : IdealDisk PageBuffer) .newestFirst))
        twoBlocksOps t ∧ t.pool = s.pool.onDisk t.pool.disk := by
  have heval : ((start (initial 2 (⟨{}, false⟩ : Worker DiskManagerMock) .newestFirst)).run?
      twoBlocksOps).isSome = true := by
    decide +kernel
  obtain ⟨s, hs⟩ := Option.isSome_iff_exists.mp heval
  have hrun := run_of_run? hs
  obtain ⟨hrunning, _, hnew, t, hrunTwin, _, hequal⟩ :=
    pool_over_mock (new_eq 2 _ _) hrun ((inSequence_iff (by decide)).mpr (by decide))
  cases (new_eq 2 _ _).symm.trans hnew
  exact ⟨s, t, hrun, hrunning, hrunTwin, hequal⟩

end Session

end HiveDb
