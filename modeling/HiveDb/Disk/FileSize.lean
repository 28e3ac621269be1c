import HiveDb.Disk.Offsets

/-!
# The size of the file

The file grows when a page that is met for the first time by a read, or a page
that is written again, finds the file nearly full.  Pages that are written for
the first time are known without having made the file grow, and one allocation
at most doubles it: it is large enough as long as no page is read for the first
time while more than twice as many pages are known as the file is meant for.
-/

namespace HiveDb

open HiveDb.Lib

namespace DiskManager

theorem grown_cases (manager : DiskManager) :
    (manager.pages.size + 1 < manager.currentPages ∧ manager.grown = manager) ∨
      manager.currentPages ≤ manager.pages.size + 1 ∧
        manager.grown.currentPages = manager.currentPages * 2 ∧
        manager.grown.dbFile.file.size = (manager.currentPages * 2 + 1) * pageSize := by
  rw [grown]
  by_cases hfull : manager.pages.size + 1 ≥ manager.currentPages
  · rw [if_pos hfull]
    exact .inr ⟨hfull, rfl, rfl⟩
  · rw [if_neg hfull]
    exact .inl ⟨Nat.not_le.mp hfull, rfl⟩

end DiskManager

namespace DiskSession

open DiskManager

/-! ## Room for every page -/

/-- The page a call is about. -/
def pageOf : DiskOp → PageId
  | .writePage id _ => id
  | .readPage id _ => id

def Returns (manager : DiskManager) : DiskOp → Prop
  | .writePage id buffer => resultOf (DiskManager.writePage id buffer manager) ≠ none
  | .readPage id buffer => resultOf (DiskManager.readPage id buffer manager) ≠ none

/-- The call returns, the page is inside the file at its offset, and the stream has not failed. -/
structure Fits (s : DiskSession) (op : DiskOp) (s' : DiskSession) : Prop where
  returns : Returns s.manager op
  inside : ∃ offset, s'.manager.pages.find? (pageOf op) = some offset ∧
    offset + pageSize ≤ s'.manager.dbFile.file.size
  working : s'.manager.dbFile.failed = false

/-- A page is read for the first time only while not too many pages are known. -/
def ReadsInTime (s : DiskSession) : DiskOp → Prop
  | .writePage _ _ => True
  | .readPage id _ => s.manager.pages.find? id = none →
      s.manager.pages.size ≤ 2 * s.manager.currentPages

def TimelyStep (s : DiskSession) (op : DiskOp) (s' : DiskSession) : Prop :=
  Step s op s' ∧ s.ReadsInTime op

/-- The file has room for every known page, and for as many as it is meant for. -/
structure Roomy (manager : DiskManager) : Prop where
  freeOffsets_eq : manager.freeOffsets = []
  working : manager.dbFile.failed = false
  known : ∀ {id offset}, manager.pages.find? id = some offset →
    offset ≤ manager.pages.size * pageSize ∧ offset + pageSize ≤ manager.dbFile.file.size
  room : (manager.currentPages + 1) * pageSize ≤ manager.dbFile.file.size

namespace Roomy

variable {manager : DiskManager} {id other : PageId} {offset : Offset} {buffer : PageBuffer}

theorem new (existing : Option File) : Roomy (DiskManager.new existing) where
  freeOffsets_eq := rfl
  working := rfl
  known hfind := by
    cases (UnorderedMap.find?_empty _ _).symm.trans hfind
  room := Nat.le_refl _

/-- The size after an allocation, when a page more fits. -/
theorem grown_size (h : Roomy manager) (hfit : manager.pages.size ≤ 2 * manager.currentPages) :
    (manager.pages.size + 1) * pageSize ≤ manager.grown.dbFile.file.size := by
  rcases manager.grown_cases with ⟨hless, hgrown⟩ | ⟨_, _, hsize⟩
  · rw [hgrown]
    exact Nat.le_trans (Nat.mul_le_mul_right pageSize (by omega)) h.room
  · rw [hsize]
    exact Nat.mul_le_mul_right pageSize (by omega)

theorem grown_room (h : Roomy manager) :
    (manager.grown.currentPages + 1) * pageSize ≤ manager.grown.dbFile.file.size := by
  rcases manager.grown_cases with ⟨_, hgrown⟩ | ⟨_, hpages, hsize⟩
  · rw [hgrown]
    exact h.room
  · rw [hsize, hpages]

/-- What choosing an offset for a write leaves. -/
theorem readyToWrite (h : Roomy manager) (id : PageId) :
    (manager.readyToWrite id).freeOffsets = [] ∧
      (manager.readyToWrite id).dbFile.failed = false ∧
      ((manager.readyToWrite id).currentPages + 1) * pageSize ≤
        (manager.readyToWrite id).dbFile.file.size := by
  rw [DiskManager.readyToWrite, afterAllocation_of_nil h.freeOffsets_eq]
  split
  · exact ⟨grown_freeOffsets.trans h.freeOffsets_eq, grown_failed.trans h.working, h.grown_room⟩
  · exact ⟨h.freeOffsets_eq, h.working, h.room⟩

/-- The file after a write reaches behind every page known before it. -/
theorem known_before_write (h : Roomy manager) (hfind : manager.pages.find? other = some offset) :
    offset + pageSize ≤ max (manager.readyToWrite id).dbFile.file.size
      (manager.offsetAtWrite id + pageSize) := by
  rw [DiskManager.readyToWrite, offsetAtWrite, allocated_of_nil h.freeOffsets_eq]
  obtain ⟨hle, hinside⟩ := h.known hfind
  split
  · exact Nat.le_trans (Nat.add_le_add_right hle _) (Nat.le_max_right _ _)
  · exact Nat.le_trans hinside (Nat.le_max_left _ _)

theorem offsetAtWrite_le (h : Roomy manager) (id : PageId) :
    manager.offsetAtWrite id ≤ manager.pages.size * pageSize := by
  rw [offsetAtWrite, allocated_of_nil h.freeOffsets_eq]
  split
  · exact Nat.le_refl _
  · exact Nat.zero_le _

/-- A write leaves room for the page it writes and for the pages before it. -/
theorem write (h : Roomy manager) (id : PageId) (buffer : PageBuffer) :
    Roomy (manager.afterWrite id buffer) := by
  obtain ⟨hfree, hworking, hroom⟩ := h.readyToWrite id
  have hstream : (manager.afterWrite id buffer).dbFile.failed = false ∧
      (manager.afterWrite id buffer).dbFile.file.size =
        max (manager.readyToWrite id).dbFile.file.size (manager.offsetAtWrite id + pageSize) := by
    rw [afterWrite, FileStream.seekg_of_working hworking,
      FileStream.write_of_working (by exact hworking)]
    exact ⟨hworking, rfl⟩
  obtain ⟨hafter, hsize⟩ := hstream
  have hpages := Nat.mul_le_mul_right pageSize
    (size_le_afterWrite manager id buffer)
  refine ⟨hfree, hafter, fun {other offset} hfind => ?_, ?_⟩
  · rw [find?_afterWrite] at hfind
    rw [hsize]
    split at hfind
    · cases hfind
      exact ⟨Nat.le_trans (h.offsetAtWrite_le id) hpages, Nat.le_max_right _ _⟩
    · exact ⟨Nat.le_trans (h.known hfind).1 hpages, h.known_before_write hfind⟩
  · rw [hsize]
    exact Nat.le_trans hroom (Nat.le_max_left _ _)

/-- What choosing an offset for a read in time leaves. -/
theorem readyToRead (h : Roomy manager)
    (htimely : manager.pages.find? id = none → manager.pages.size ≤ 2 * manager.currentPages) :
    (manager.readyToRead id).freeOffsets = [] ∧
      (manager.readyToRead id).dbFile.failed = false ∧
      ((manager.readyToRead id).currentPages + 1) * pageSize ≤
        (manager.readyToRead id).dbFile.file.size ∧
      (∀ {other offset}, manager.pages.find? other = some offset →
        offset + pageSize ≤ (manager.readyToRead id).dbFile.file.size) ∧
      manager.offsetAtRead id ≤ manager.pages.size * pageSize ∧
      manager.offsetAtRead id + pageSize ≤ (manager.readyToRead id).dbFile.file.size := by
  rw [DiskManager.readyToRead, offsetAtRead, allocated_of_nil h.freeOffsets_eq,
    afterAllocation_of_nil h.freeOffsets_eq]
  cases hfind : manager.pages.find? id with
  | some offset =>
      exact ⟨h.freeOffsets_eq, h.working, h.room, fun hother => (h.known hother).2,
        h.known hfind⟩
  | none =>
      have hsize := h.grown_size (htimely hfind)
      rw [Nat.succ_mul] at hsize
      refine ⟨grown_freeOffsets.trans h.freeOffsets_eq, grown_failed.trans h.working,
        h.grown_room, fun hother => ?_, Nat.le_refl _, hsize⟩
      exact Nat.le_trans (Nat.add_le_add_right (h.known hother).1 _) hsize

/-- A read in time returns, and finds a whole page. -/
theorem read (h : Roomy manager)
    (htimely : manager.pages.find? id = none → manager.pages.size ≤ 2 * manager.currentPages) :
    Roomy (manager.afterRead id) := by
  obtain ⟨hfree, hworking, hroom, hknown, hoffset, hinside⟩ := h.readyToRead htimely
  have hafter : (manager.afterRead id).dbFile.failed = false := by
    rw [afterRead, FileStream.seekg_of_working hworking]
    exact FileStream.afterRead_of_inside (by exact hworking) (by exact hinside)
  have hsize : (manager.afterRead id).dbFile.file.size =
      (manager.readyToRead id).dbFile.file.size := by
    rw [afterRead, FileStream.afterRead_file, FileStream.seekg_file]
  have hpages := Nat.mul_le_mul_right pageSize
    (size_le_afterRead manager id)
  refine ⟨hfree, hafter, fun {other offset} hfind => ?_, hsize ▸ hroom⟩
  rw [find?_afterRead] at hfind
  rw [hsize]
  split at hfind
  · cases hfind
    exact ⟨Nat.le_trans hoffset hpages, hinside⟩
  · exact ⟨Nat.le_trans (h.known hfind).1 hpages, hknown hfind⟩

end Roomy

section Room

variable {s s' : DiskSession} {op : DiskOp}

/-- A call in time fits, and leaves room. -/
theorem Roomy.step (h : Roomy s.manager) (hstep : TimelyStep s op s') :
    Fits s op s' ∧ Roomy s'.manager := by
  obtain ⟨hstep, htimely⟩ := hstep
  cases hstep with
  | @writePage id buffer _ nonneg returns =>
      have hok : writePage id buffer s.manager = .ok () _ := writePage_ok nonneg
      cases hok.symm.trans returns
      have hafter := h.write id buffer
      refine ⟨⟨?_, ⟨_, find?_afterWrite_self, ?_⟩, hafter.working⟩, hafter⟩
      · rw [Returns, hok]
        exact Option.some_ne_none _
      · exact (hafter.known find?_afterWrite_self).2
  | @readPage id buffer _ nonneg leaves =>
      obtain ⟨_, _, _, _, _, hinside⟩ := h.readyToRead htimely
      obtain ⟨page, hok⟩ := readPage_ok nonneg
        (Nat.le_trans (Nat.le_add_right _ _) hinside) buffer
      cases leaves.eq_of_ok hok
      have hafter := h.read htimely
      refine ⟨⟨?_, ⟨_, find?_afterRead_self, ?_⟩, hafter.working⟩, hafter⟩
      · rw [Returns, hok]
        exact Option.some_ne_none _
      · exact (hafter.known find?_afterRead_self).2

theorem Roomy.readsInTime (h : Roomy s.manager) (hstep : Step s op s') (hfits : Fits s op s') :
    s.ReadsInTime op := by
  cases hstep with
  | writePage => trivial
  | @readPage id buffer _ nonneg leaves =>
      intro hfind
      by_contra hmany
      have hready : s.manager.readyToRead id = s.manager.grown := by
        rw [DiskManager.readyToRead, hfind, afterAllocation_of_nil h.freeOffsets_eq]
        rfl
      have hoffset : s.manager.offsetAtRead id = s.manager.pages.size * pageSize := by
        rw [offsetAtRead, hfind, allocated_of_nil h.freeOffsets_eq]
        rfl
      have hsize :
          s.manager.grown.dbFile.file.size < s.manager.pages.size * pageSize + pageSize := by
        rw [← Nat.succ_mul]
        rcases s.manager.grown_cases with ⟨hless, _⟩ | ⟨_, _, hsize⟩
        · omega
        · rw [hsize]
          exact Nat.mul_lt_mul_of_pos_right (by omega) (by decide)
      rcases Nat.lt_or_ge (s.manager.readyToRead id).dbFile.file.size
        (s.manager.offsetAtRead id) with hpast | hinside
      · obtain ⟨message, hthrows⟩ := readPage_throws nonneg hpast buffer
        refine hfits.returns ?_
        rw [hthrows]
        rfl
      · obtain ⟨page, hok⟩ := readPage_ok nonneg hinside buffer
        cases leaves.eq_of_ok hok
        obtain ⟨offset, hfind', hwhole⟩ := hfits.inside
        cases find?_afterRead_self.symm.trans hfind'
        rw [afterRead, FileStream.afterRead_file, FileStream.seekg_file, hready, hoffset] at hwhole
        exact absurd hwhole (Nat.not_le.mpr hsize)

theorem Roomy.of_run {existing : Option File} {ops : List DiskOp}
    (hrun : Run TimelyStep (start existing) ops s) : Roomy s.manager :=
  hrun.invariant (fun _ s => Roomy s.manager) (.new existing)
    fun _ _ _ _ h hstep => (h.step hstep).2

/--
In a run in which no page is read too late for the first time every call fits; and a
call after such a run fits exactly when it is no such read.
-/
theorem calls_fit_iff {existing : Option File} {ops : List DiskOp}
    (hrun : Run TimelyStep (start existing) ops s) :
    (∀ before op after, ops = before ++ op :: after → ∃ t t',
      Run TimelyStep (start existing) before t ∧ Step t op t' ∧ Fits t op t') ∧
      ∀ op s', Step s op s' → (Fits s op s' ↔ s.ReadsInTime op) := by
  constructor
  · rintro before op after rfl
    obtain ⟨t, t', hbefore, hstep⟩ := hrun.of_append
    exact ⟨t, t', hbefore, hstep.1, ((Roomy.of_run hbefore).step hstep).1⟩
  · have hroomy := Roomy.of_run hrun
    exact fun op s' hstep => ⟨hroomy.readsInTime hstep, fun h => (hroomy.step ⟨hstep, h⟩).1⟩

end Room

/-! ## Pages met one after another -/

/-- The session in which the first pages have been written once each. -/
def writtenOnce : Nat → DiskSession
  | 0 => start none
  | n + 1 => ⟨(writtenOnce n).manager.afterWrite n (filled 0),
      Function.update (writtenOnce n).written n (some (filled 0))⟩

theorem writtenOnce_run (n : Nat) :
    Run Step (start none) ((List.range n).map fun i : Nat => .writePage i (filled 0))
      (writtenOnce n) := by
  induction n with
  | zero => exact .nil
  | succ n ih =>
      rw [List.range_succ, List.map_append]
      exact ih.snoc (.writePage (Int.natCast_nonneg n) (writePage_ok (Int.natCast_nonneg n)))

/-- After 34 pages have been written for the first time, reading another one throws. -/
theorem late_read_throws :
    ¬ ∀ (existing : Option File) (ops : List DiskOp) (s s' : DiskSession) (op : DiskOp),
      Run Step (start existing) ops s → Step s op s' → Fits s op s' := by
  intro hall
  have hpast : ((writtenOnce 34).manager.readyToRead 34).dbFile.file.size <
      (writtenOnce 34).manager.offsetAtRead 34 := by
    decide +kernel
  obtain ⟨message, hthrows⟩ := readPage_throws (by decide) hpast (filled 0)
  have hstep : Step (writtenOnce 34) (.readPage 34 (filled 0))
      ⟨(writtenOnce 34).manager.readyToRead 34, (writtenOnce 34).written⟩ :=
    .readPage (by decide) (.inr ⟨_, rfl, hthrows⟩)
  have hfits := hall none _ _ _ _ (writtenOnce_run 34) hstep
  refine hfits.returns ?_
  rw [hthrows]
  rfl

/-- A page is read after another one has been written. -/
theorem early_read_fits :
    ∃ s', Step (writtenOnce 1) (.readPage 1 (filled 0)) s' ∧
      Fits (writtenOnce 1) (.readPage 1 (filled 0)) s' := by
  have hinside : (writtenOnce 1).manager.offsetAtRead 1 ≤
      ((writtenOnce 1).manager.readyToRead 1).dbFile.file.size := by
    decide +kernel
  obtain ⟨page, hok⟩ := readPage_ok (by decide) hinside (filled 0)
  have hstep : Step (writtenOnce 1) (.readPage 1 (filled 0))
      ⟨(writtenOnce 1).manager.afterRead 1, (writtenOnce 1).written⟩ :=
    .readPage (by decide) (.inl ⟨page, hok⟩)
  have hrun : Run TimelyStep (start none) [.writePage 0 (filled 0)] (writtenOnce 1) :=
    Run.nil.snoc ⟨.writePage (by decide) (writePage_ok (by decide)), trivial⟩
  have htimely : (writtenOnce 1).ReadsInTime (.readPage 1 (filled 0)) := by
    intro _
    decide +kernel
  exact ⟨_, hstep, ((calls_fit_iff hrun).2 _ _ hstep).mpr htimely⟩

/-! ## Opening the file again -/

/-- A new manager on the file keeps every byte at its place. -/
def KeptByOpening (file : File) : Prop :=
  ∀ position < file.size, position < (DiskManager.new (some file)).dbFile.file.size ∧
    (DiskManager.new (some file)).dbFile.file.bytes position = file.bytes position

theorem keptByOpening_iff (file : File) :
    KeptByOpening file ↔ file.size ≤ (defaultNumberOfPages + 1) * pageSize := by
  have hopened : (DiskManager.new (some file)).dbFile.file =
      file.resize ((defaultNumberOfPages + 1) * pageSize) := rfl
  unfold KeptByOpening
  rw [hopened]
  constructor
  · intro hkept
    by_contra hlarge
    exact absurd (hkept _ (Nat.not_le.mp hlarge)).1 (Nat.lt_irrefl _)
  · intro hle position hlt
    have hinside := Nat.lt_of_lt_of_le hlt hle
    exact ⟨hinside, if_pos hinside⟩

/-- The call takes an offset from the end of the known ones. -/
def Allocates (s : DiskSession) : DiskOp → Prop
  | .writePage id _ => (s.manager.pages.find? id).isSome = true
  | .readPage id _ => s.manager.pages.find? id = none

/-- An offset is allocated only while the file has pages to spare. -/
def StaysSmall (s : DiskSession) (op : DiskOp) : Prop :=
  s.Allocates op → s.manager.pages.size + 1 < defaultNumberOfPages

def SmallStep (s : DiskSession) (op : DiskOp) (s' : DiskSession) : Prop :=
  Step s op s' ∧ s.StaysSmall op

/-- The file has the size it was opened with. -/
structure AsOpened (manager : DiskManager) : Prop where
  freeOffsets_eq : manager.freeOffsets = []
  currentPages_eq : manager.currentPages = defaultNumberOfPages
  size_eq : manager.dbFile.file.size = (defaultNumberOfPages + 1) * pageSize

/-- The file has been extended. -/
structure Enlarged (manager : DiskManager) : Prop where
  freeOffsets_eq : manager.freeOffsets = []
  doubled : 2 * defaultNumberOfPages ≤ manager.currentPages
  size_le : (manager.currentPages + 1) * pageSize ≤ manager.dbFile.file.size

section Opening

variable {s s' : DiskSession} {op : DiskOp} {manager : DiskManager} {id : PageId}
  {buffer : PageBuffer}

theorem AsOpened.grown_eq (h : AsOpened manager)
    (hsmall : manager.pages.size + 1 < defaultNumberOfPages) : manager.grown = manager := by
  rw [grown, h.currentPages_eq, if_neg (Nat.not_le.mpr hsmall)]

theorem AsOpened.grown_enlarged (h : AsOpened manager)
    (hlarge : ¬ manager.pages.size + 1 < defaultNumberOfPages) : Enlarged manager.grown := by
  rcases manager.grown_cases with ⟨hless, _⟩ | ⟨_, hpages, hsize⟩
  · exact absurd (h.currentPages_eq ▸ hless) hlarge
  · refine ⟨grown_freeOffsets.trans h.freeOffsets_eq, ?_, ?_⟩
    · rw [hpages, h.currentPages_eq]
      decide
    · rw [hsize, hpages]

theorem Enlarged.grown (h : Enlarged manager) : Enlarged manager.grown := by
  rcases manager.grown_cases with ⟨_, hgrown⟩ | ⟨_, hpages, hsize⟩
  · rw [hgrown]
    exact h
  · refine ⟨grown_freeOffsets.trans h.freeOffsets_eq, ?_, ?_⟩
    · rw [hpages]
      exact Nat.le_trans h.doubled (Nat.le_mul_of_pos_right _ Nat.two_pos)
    · rw [hsize, hpages]

/-- A write keeps the size of a file that it does not reach behind. -/
theorem size_write_eq {n : Nat} {stream : FileStream} {offset : Nat} {data : Fin n → UInt8}
    (hinside : offset + n ≤ stream.file.size) :
    ((stream.seekg offset).write data).file.size = stream.file.size := by
  cases hfailed : stream.failed with
  | true =>
      have hseek : stream.seekg offset = stream := if_pos hfailed
      rw [hseek, FileStream.write, if_pos hfailed]
  | false =>
      rw [FileStream.seekg_of_working hfailed, FileStream.write_of_working (by exact hfailed)]
      exact Nat.max_eq_left hinside

theorem AsOpened.write (h : AsOpened manager)
    (hready : AsOpened (manager.readyToWrite id))
    (hsmall : (manager.pages.find? id).isSome = true →
      manager.pages.size + 1 < defaultNumberOfPages) :
    AsOpened (manager.afterWrite id buffer) := by
  have hinside : manager.offsetAtWrite id + pageSize ≤
      (manager.readyToWrite id).dbFile.file.size := by
    rw [hready.size_eq, offsetAtWrite, allocated_of_nil h.freeOffsets_eq]
    split
    next hknown =>
      rw [← Nat.succ_mul]
      have hless := hsmall hknown
      exact Nat.mul_le_mul_right pageSize (by omega)
    · decide
  refine ⟨hready.freeOffsets_eq, hready.currentPages_eq, ?_⟩
  rw [afterWrite, size_write_eq hinside]
  exact hready.size_eq

theorem Enlarged.write (hready : Enlarged (manager.readyToWrite id)) :
    Enlarged (manager.afterWrite id buffer) := by
  refine ⟨hready.freeOffsets_eq, hready.doubled, ?_⟩
  refine Nat.le_trans hready.size_le (Nat.le_trans ?_ FileStream.size_le_write)
  rw [FileStream.seekg_file]

/-- What a read leaves, whether it returns or throws, has the file of the manager made ready. -/
theorem read_leaves {manager' : DiskManager} (hid : 0 ≤ id)
    (hleaves : Leaves (DiskManager.readPage id buffer) manager manager') :
    manager'.freeOffsets = (manager.readyToRead id).freeOffsets ∧
      manager'.currentPages = (manager.readyToRead id).currentPages ∧
      manager'.dbFile.file = (manager.readyToRead id).dbFile.file := by
  rcases Nat.lt_or_ge (manager.readyToRead id).dbFile.file.size (manager.offsetAtRead id)
    with hpast | hinside
  · obtain ⟨message, hthrows⟩ := readPage_throws hid hpast buffer
    rw [(hleaves.eq_of_error hthrows).1]
    exact ⟨rfl, rfl, rfl⟩
  · obtain ⟨page, hok⟩ := readPage_ok hid hinside buffer
    rw [hleaves.eq_of_ok hok]
    refine ⟨rfl, rfl, ?_⟩
    rw [afterRead, FileStream.afterRead_file, FileStream.seekg_file]

/-- A call that needs no more pages leaves the file as it was opened. -/
theorem AsOpened.small_step (h : AsOpened s.manager) (hstep : SmallStep s op s') :
    AsOpened s'.manager := by
  obtain ⟨hstep, hsmall⟩ := hstep
  cases hstep with
  | @writePage id buffer _ nonneg returns =>
      cases (writePage_ok nonneg).symm.trans returns
      refine h.write ?_ hsmall
      rw [readyToWrite, afterAllocation_of_nil h.freeOffsets_eq]
      split
      next hknown => exact (h.grown_eq (hsmall hknown)).symm ▸ h
      next => exact ⟨h.freeOffsets_eq, h.currentPages_eq, h.size_eq⟩
  | @readPage id buffer _ nonneg leaves =>
      have hready : AsOpened (s.manager.readyToRead id) := by
        rw [readyToRead, afterAllocation_of_nil h.freeOffsets_eq]
        split
        next => exact ⟨h.freeOffsets_eq, h.currentPages_eq, h.size_eq⟩
        next hunknown =>
          have hnone := Option.not_isSome_iff_eq_none.mp hunknown
          exact (h.grown_eq (hsmall hnone)).symm ▸ h
      obtain ⟨hfree, hpages, hfile⟩ := read_leaves nonneg leaves
      exact ⟨hfree.trans hready.freeOffsets_eq, hpages.trans hready.currentPages_eq,
        (congrArg File.size hfile).trans hready.size_eq⟩

/-- An allocation in a full file extends it. -/
theorem AsOpened.large_step (h : AsOpened s.manager) (hstep : Step s op s')
    (hlarge : ¬ s.StaysSmall op) : Enlarged s'.manager := by
  cases hstep with
  | @writePage id buffer _ nonneg returns =>
      cases (writePage_ok nonneg).symm.trans returns
      obtain ⟨hknown, hfull⟩ : (s.manager.pages.find? id).isSome = true ∧
          ¬ s.manager.pages.size + 1 < defaultNumberOfPages := Classical.not_imp.mp hlarge
      refine Enlarged.write ?_
      rw [readyToWrite, if_pos hknown, afterAllocation_of_nil h.freeOffsets_eq]
      exact h.grown_enlarged hfull
  | @readPage id buffer _ nonneg leaves =>
      obtain ⟨hunknown, hfull⟩ : s.manager.pages.find? id = none ∧
          ¬ s.manager.pages.size + 1 < defaultNumberOfPages := Classical.not_imp.mp hlarge
      have hready : Enlarged (s.manager.readyToRead id) := by
        rw [readyToRead, hunknown, afterAllocation_of_nil h.freeOffsets_eq]
        exact h.grown_enlarged hfull
      obtain ⟨hfree, hpages, hfile⟩ := read_leaves nonneg leaves
      exact ⟨hfree.trans hready.freeOffsets_eq, hpages ▸ hready.doubled,
        hpages ▸ hfile ▸ hready.size_le⟩

theorem Enlarged.step (h : Enlarged s.manager) (hstep : Step s op s') : Enlarged s'.manager := by
  cases hstep with
  | @writePage id buffer _ nonneg returns =>
      cases (writePage_ok nonneg).symm.trans returns
      refine Enlarged.write ?_
      rw [readyToWrite, afterAllocation_of_nil h.freeOffsets_eq]
      split
      · exact h.grown
      · exact ⟨h.freeOffsets_eq, h.doubled, h.size_le⟩
  | @readPage id buffer _ nonneg leaves =>
      have hready : Enlarged (s.manager.readyToRead id) := by
        rw [readyToRead, afterAllocation_of_nil h.freeOffsets_eq]
        split
        · exact ⟨h.freeOffsets_eq, h.doubled, h.size_le⟩
        · exact h.grown
      obtain ⟨hfree, hpages, hfile⟩ := read_leaves nonneg leaves
      exact ⟨hfree.trans hready.freeOffsets_eq, hpages ▸ hready.doubled,
        hpages ▸ hfile ▸ hready.size_le⟩

/--
Opening the file again keeps every byte exactly when no call of the run has
allocated an offset in a full file.
-/
theorem kept_by_opening_iff {existing : Option File} {ops : List DiskOp}
    (hrun : Run Step (start existing) ops s) :
    KeptByOpening s.manager.dbFile.file ↔ Run SmallStep (start existing) ops s := by
  have hopened : ∀ {ops s}, Run SmallStep (start existing) ops s → AsOpened s.manager :=
    fun hsmall => hsmall.invariant (fun _ s => AsOpened s.manager) ⟨rfl, rfl, rfl⟩
      fun _ _ _ _ h hstep => h.small_step hstep
  have hcases : Run SmallStep (start existing) ops s ∨ Enlarged s.manager := by
    refine hrun.invariant
      (fun ops s => Run SmallStep (start existing) ops s ∨ Enlarged s.manager) (.inl .nil) ?_
    rintro ops s op t (hsmall | hlarge) hstep
    · by_cases hstays : s.StaysSmall op
      · exact .inl (hsmall.snoc ⟨hstep, hstays⟩)
      · exact .inr ((hopened hsmall).large_step hstep hstays)
    · exact .inr (hlarge.step hstep)
  rw [keptByOpening_iff]
  constructor
  · intro hle
    refine hcases.resolve_right fun hlarge => ?_
    have hpages := Nat.le_of_mul_le_mul_right (Nat.le_trans hlarge.size_le hle) (by decide)
    have hdoubled := hlarge.doubled
    rw [defaultNumberOfPages] at hpages hdoubled
    omega
  · intro hsmall
    rw [(hopened hsmall).size_eq]

end Opening

/-- The session in which the first pages have been read once each. -/
def readOnce : Nat → DiskSession
  | 0 => start none
  | n + 1 => ⟨(readOnce n).manager.afterRead n, (readOnce n).written⟩

theorem readOnce_run {n : Nat} (hinside : ∀ i < n, (readOnce i).manager.offsetAtRead i ≤
    ((readOnce i).manager.readyToRead i).dbFile.file.size) :
    Run Step (start none) ((List.range n).map fun i : Nat => .readPage i (filled 0))
      (readOnce n) := by
  induction n with
  | zero => exact .nil
  | succ n ih =>
      obtain ⟨page, hok⟩ :=
        readPage_ok (Int.natCast_nonneg n) (hinside n (Nat.lt_succ_self n)) (filled 0)
      rw [List.range_succ, List.map_append]
      exact (ih fun i hi => hinside i (Nat.lt_succ_of_lt hi)).snoc
        (.readPage (Int.natCast_nonneg n) (.inl ⟨page, hok⟩))

/-- After 16 pages have been read the file is opened again at half its size. -/
theorem opening_cuts_off :
    ¬ ∀ (existing : Option File) (ops : List DiskOp) (s : DiskSession),
      Run Step (start existing) ops s → KeptByOpening s.manager.dbFile.file := by
  intro hall
  have hinside : ∀ i < 16, (readOnce i).manager.offsetAtRead i ≤
      ((readOnce i).manager.readyToRead i).dbFile.file.size := by
    decide +kernel
  have hsize : (readOnce 16).manager.dbFile.file.size = 33 * pageSize := by
    decide +kernel
  have hle := (keptByOpening_iff _).mp (hall none _ _ (readOnce_run hinside))
  rw [hsize] at hle
  exact absurd hle (by decide)

/-- Page 0 has been written, and page 1 has been read for the first time. -/
def writtenAndRead : DiskSession :=
  ⟨((start none).manager.afterWrite 0 (filled 7)).afterRead 1,
    Function.update (start none).written 0 (some (filled 7))⟩

/--
A file is kept in which a page has been written and another one has been read,
for which an offset is allocated.
-/
theorem opening_keeps_first_page : KeptByOpening writtenAndRead.manager.dbFile.file ∧
    writtenAndRead.manager.dbFile.file.bytes 0 = 7 := by
  let before : DiskSession := ⟨(start none).manager.afterWrite 0 (filled 7),
    Function.update (start none).written 0 (some (filled 7))⟩
  have hwrite : SmallStep (start none) (.writePage 0 (filled 7)) before :=
    ⟨.writePage (by decide) (writePage_ok (by decide)), fun _ => by decide⟩
  have hinside : before.manager.offsetAtRead 1 ≤
      (before.manager.readyToRead 1).dbFile.file.size := by
    decide +kernel
  obtain ⟨page, hok⟩ := readPage_ok (by decide) hinside (filled 0)
  have hsmall : before.StaysSmall (.readPage 1 (filled 0)) := fun _ => by decide +kernel
  have hread : SmallStep before (.readPage 1 (filled 0)) writtenAndRead :=
    ⟨.readPage (by decide) (.inl ⟨page, hok⟩), hsmall⟩
  have hrun := (Run.nil.snoc hwrite.1).snoc hread.1
  exact ⟨(kept_by_opening_iff hrun).mpr ((Run.nil.snoc hwrite).snoc hread), by decide +kernel⟩

end DiskSession

end HiveDb
