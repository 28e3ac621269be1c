import HiveDb.Disk.Calls
import HiveDb.Lib.Run

/-!
# The disk manager as a page map

Reading a page is to return the bytes last written to it.  It does as long as no
write goes to the offset of another page, no allocation cuts the file off below
a page, and no read finds less than a page.
-/

namespace HiveDb

open HiveDb.Lib

namespace DiskManager

/-! ## Allocation -/

/-- The size of the file after an allocation without free offsets. -/
def allocatedSize (manager : DiskManager) : Nat :=
  if manager.pages.size + 1 ≥ manager.currentPages then
    (manager.currentPages * 2 + 1) * pageSize
  else manager.dbFile.file.size

variable {manager : DiskManager} {id other : PageId} {offset : Offset} {buffer data : PageBuffer}

theorem grown_size : manager.grown.dbFile.file.size = manager.allocatedSize := by
  unfold grown allocatedSize
  split <;> rfl

/-- An allocation keeps a block that it does not cut off. -/
theorem holds_grown (h : manager.dbFile.file.Holds offset data)
    (hsize : offset + pageSize ≤ manager.allocatedSize) :
    manager.grown.dbFile.file.Holds offset data := by
  unfold grown
  unfold allocatedSize at hsize
  split
  next hfull =>
    rw [if_pos hfull] at hsize
    exact h.resize hsize
  next => exact h

/-! ## Where pages are written and read -/

/-- A known page is written behind as many pages as are known, an unknown one to the front. -/
def writeOffset (manager : DiskManager) (id : PageId) : Offset :=
  if (manager.pages.find? id).isSome then manager.pages.size * pageSize else 0

/-- The size of the file when `write_page` writes. -/
def sizeAtWrite (manager : DiskManager) (id : PageId) : Nat :=
  if (manager.pages.find? id).isSome then manager.allocatedSize else manager.dbFile.file.size

/-- An unknown page is read behind as many pages as are known. -/
def readOffset (manager : DiskManager) (id : PageId) : Offset :=
  (manager.pages.find? id).getD (manager.pages.size * pageSize)

/-- The size of the file when `read_page` reads. -/
def sizeAtRead (manager : DiskManager) (id : PageId) : Nat :=
  if (manager.pages.find? id).isSome then manager.dbFile.file.size else manager.allocatedSize

/-- What choosing an offset for a page leaves of the manager. -/
structure Prepared (manager : DiskManager) (size : Nat) (manager' : DiskManager) : Prop where
  freeOffsets_eq : manager'.freeOffsets = []
  failed_eq : manager'.dbFile.failed = manager.dbFile.failed
  size_eq : manager'.dbFile.file.size = size
  keepsOffset : ∀ {id offset}, manager.pages.find? id = some offset →
    manager'.pages.find? id = some offset
  offset_cases : ∀ {id offset}, manager'.pages.find? id = some offset →
    manager.pages.find? id = some offset ∨ offset = 0
  keeps : ∀ {offset} {data : PageBuffer}, manager.dbFile.file.Holds offset data →
    offset + pageSize ≤ size → manager'.dbFile.file.Holds offset data

theorem prepared_grown (hfree : manager.freeOffsets = []) :
    manager.Prepared manager.allocatedSize manager.grown where
  freeOffsets_eq := grown_freeOffsets.trans hfree
  failed_eq := grown_failed
  size_eq := grown_size
  keepsOffset hfind := by rwa [grown_pages]
  offset_cases hfind := .inl (grown_pages ▸ hfind)
  keeps := holds_grown

theorem prepared_withEntry (hfree : manager.freeOffsets = []) (id : PageId) :
    manager.Prepared manager.dbFile.file.size (manager.withEntry id) where
  freeOffsets_eq := hfree
  failed_eq := rfl
  size_eq := rfl
  keepsOffset {other offset} hfind := by
    by_cases heq : other = id
    · subst heq
      exact UnorderedMap.find?_emplace_self.trans (congrArg (fun x => some (x.getD 0)) hfind)
    · exact (UnorderedMap.find?_emplace_ne heq).trans hfind
  offset_cases {other offset} hfind := by
    by_cases heq : other = id
    · subst heq
      have hvalue := Option.some.inj (UnorderedMap.find?_emplace_self.symm.trans hfind)
      cases hbefore : manager.pages.find? other with
      | none => exact .inr (by rw [← hvalue, hbefore, Option.getD_none])
      | some found => exact .inl (by rw [← hvalue, hbefore, Option.getD_some])
    · exact .inl ((UnorderedMap.find?_emplace_ne heq).symm.trans hfind)
  keeps h _ := h

theorem writeAt_eq (hworking : manager.dbFile.failed = false) (id : PageId) (offset : Offset)
    (buffer : PageBuffer) :
    writeAt id offset buffer manager = .ok () { manager with
      pages := manager.pages.assign id offset
      dbFile := ⟨manager.dbFile.file.write offset buffer, offset + pageSize, false⟩ } := by
  have hstream : (manager.dbFile.seekg offset).write buffer =
      ⟨manager.dbFile.file.write offset buffer, offset + pageSize, false⟩ := by
    rw [FileStream.seekg_of_working hworking, FileStream.write_of_working (by exact hworking),
      hworking]
  rw [← hstream]
  rfl

/-- `write_page` is the part behind the choice of the offset, in the manager prepared by it. -/
theorem writePage_eq (hid : 0 ≤ id) (hfree : manager.freeOffsets = []) (buffer : PageBuffer) :
    ∃ mid, manager.Prepared (manager.sizeAtWrite id) mid ∧
      writePage id buffer manager = writeAt id (manager.writeOffset id) buffer mid := by
  have hready : manager.Prepared (manager.sizeAtWrite id) (manager.readyToWrite id) := by
    unfold sizeAtWrite readyToWrite
    split
    · rw [afterAllocation_of_nil hfree]
      exact prepared_grown hfree
    · exact prepared_withEntry hfree id
  have hoffset : manager.offsetAtWrite id = manager.writeOffset id := by
    rw [offsetAtWrite, writeOffset, allocated_of_nil hfree]
  exact ⟨_, hready, hoffset ▸ writePage_ready hid⟩

/-- A write returns, and has written the page at its offset. -/
theorem writePage_spec (hid : 0 ≤ id) (hfree : manager.freeOffsets = [])
    (hworking : manager.dbFile.failed = false) (buffer : PageBuffer) :
    ∃ mid, manager.Prepared (manager.sizeAtWrite id) mid ∧
      writePage id buffer manager = .ok () { mid with
        pages := mid.pages.assign id (manager.writeOffset id)
        dbFile := ⟨mid.dbFile.file.write (manager.writeOffset id) buffer,
          manager.writeOffset id + pageSize, false⟩ } := by
  obtain ⟨mid, hprepared, heval⟩ := writePage_eq hid hfree buffer
  exact ⟨mid, hprepared, heval.trans (writeAt_eq (hprepared.failed_eq.trans hworking) _ _ _)⟩

/-- `read_page` is the part behind the choice of the offset, in the manager prepared by it. -/
theorem readPage_eq (hid : 0 ≤ id) (hfree : manager.freeOffsets = []) (buffer : PageBuffer) :
    ∃ mid, manager.Prepared (manager.sizeAtRead id) mid ∧
      readPage id buffer manager = readAt id (manager.readOffset id) buffer mid := by
  have hready : manager.Prepared (manager.sizeAtRead id) (manager.readyToRead id) := by
    unfold sizeAtRead readyToRead
    split
    · exact prepared_withEntry hfree id
    · rw [afterAllocation_of_nil hfree]
      exact prepared_grown hfree
  have hoffset : manager.offsetAtRead id = manager.readOffset id := by
    rw [offsetAtRead, readOffset, allocated_of_nil hfree]
  exact ⟨_, hready, hoffset ▸ readPage_ready hid⟩

theorem readAt_of_past (hpast : manager.dbFile.file.size < offset) (id : PageId)
    (buffer : PageBuffer) :
    readAt id offset buffer manager = .error (.runtimeError
      ("Offset was bigger (somehow) than file size! offset: " ++ toString offset ++
        " file_size: " ++ toString manager.dbFile.file.size)) manager := by
  rw [readAt, bind_of_ok (show getFileSize manager = .ok _ manager from rfl), if_pos hpast]
  rfl

theorem readAt_of_holds (hworking : manager.dbFile.failed = false)
    (hholds : manager.dbFile.file.Holds offset data) (id : PageId) (buffer : PageBuffer) :
    readAt id offset buffer manager = .ok data { manager with
      pages := manager.pages.assign id offset
      dbFile := FileStream.afterRead { manager.dbFile with position := offset } pageSize } := by
  have hinside : ¬ offset > manager.dbFile.file.size :=
    Nat.not_lt.mpr (Nat.le_trans (Nat.le_add_right _ _) hholds.inside)
  have hdata : (fun i : Fin pageSize =>
      if i < FileStream.readCount { manager.dbFile with position := offset } pageSize then
        FileStream.readInto { manager.dbFile with position := offset } buffer i else 0) = data := by
    funext i
    rw [FileStream.readCount_of_inside (by exact hworking) (by exact hholds.inside),
      if_pos i.isLt, FileStream.readInto_of_holds (by exact hworking) (by exact hholds)]
  rw [readAt, bind_of_ok (show getFileSize manager = .ok _ manager from rfl), if_neg hinside]
  refine Eq.trans ?_ (congrArg (EStateM.Result.ok · _) hdata)
  rw [← FileStream.seekg_of_working hworking offset]
  rfl

theorem readPage_of_holds (hid : 0 ≤ id) (hfree : manager.freeOffsets = [])
    (hworking : manager.dbFile.failed = false) (hfind : manager.pages.find? id = some offset)
    (hholds : manager.dbFile.file.Holds offset data) (buffer : PageBuffer) :
    ∃ manager', readPage id buffer manager = .ok data manager' := by
  obtain ⟨mid, hprepared, heval⟩ := readPage_eq hid hfree buffer
  have hoffset : manager.readOffset id = offset := by
    rw [readOffset, hfind]
    rfl
  have hsize : manager.sizeAtRead id = manager.dbFile.file.size := by
    rw [sizeAtRead, hfind]
    rfl
  have hmid := hprepared.keeps hholds (hsize.symm ▸ hholds.inside)
  rw [heval, hoffset]
  exact ⟨_, readAt_of_holds (hprepared.failed_eq.trans hworking) hmid id buffer⟩

end DiskManager

/-! ## Runs -/

/-- A call on pages; a read carries what its buffer holds before. -/
inductive DiskOp where
  | writePage (id : PageId) (buffer : PageBuffer)
  | readPage (id : PageId) (buffer : PageBuffer)

/-- A disk manager with what has last been written to each page. -/
structure DiskSession where
  manager : DiskManager
  written : PageId → Option PageBuffer

namespace DiskSession

open DiskManager

def start (existing : Option File) : DiskSession := ⟨.new existing, fun _ => none⟩

inductive Step : DiskSession → DiskOp → DiskSession → Prop where
  | writePage {s : DiskSession} {id : PageId} {buffer : PageBuffer} {manager' : DiskManager}
      (nonneg : 0 ≤ id) (returns : DiskManager.writePage id buffer s.manager = .ok () manager') :
      Step s (.writePage id buffer) ⟨manager', Function.update s.written id (some buffer)⟩
  | readPage {s : DiskSession} {id : PageId} {buffer : PageBuffer} {manager' : DiskManager}
      (nonneg : 0 ≤ id) (leaves : Leaves (DiskManager.readPage id buffer) s.manager manager') :
      Step s (.readPage id buffer) ⟨manager', s.written⟩

/-- Each written page that `affects` selects ends within the size. -/
def Within (s : DiskSession) (size : Nat) (affects : PageId → Offset → Prop) : Prop :=
  ∀ {id data offset}, s.written id = some data → s.manager.pages.find? id = some offset →
    affects id offset → offset + pageSize ≤ size

/--
The call loses no page: a write does not go to the offset of another page with
different bytes, the file is not cut off below another page, and a read that does
not throw finds a whole page.
-/
def Harmless (s : DiskSession) : DiskOp → Prop
  | .writePage id buffer =>
      (∀ {other data}, other ≠ id → s.written other = some data →
        s.manager.pages.find? other = some (s.manager.writeOffset id) → data = buffer) ∧
      s.Within (s.manager.sizeAtWrite id) fun other offset =>
        other ≠ id ∧ offset ≠ s.manager.writeOffset id
  | .readPage id _ =>
      s.Within (s.manager.sizeAtRead id) (fun _ _ => True) ∧
      (s.manager.readOffset id ≤ s.manager.sizeAtRead id →
        s.manager.readOffset id + pageSize ≤ s.manager.sizeAtRead id)

def HarmlessStep (s : DiskSession) (op : DiskOp) (s' : DiskSession) : Prop :=
  Step s op s' ∧ s.Harmless op

/-- Every written page is in the file at its offset. -/
structure Intact (s : DiskSession) : Prop where
  freeOffsets_eq : s.manager.freeOffsets = []
  working : s.manager.dbFile.failed = false
  aligned : ∀ {id offset}, s.manager.pages.find? id = some offset → pageSize ∣ offset
  stored : ∀ {id data}, s.written id = some data → ∃ offset,
    s.manager.pages.find? id = some offset ∧ s.manager.dbFile.file.Holds offset data

variable {s s' : DiskSession} {op : DiskOp} {id other : PageId} {buffer data : PageBuffer}

theorem intact_start (existing : Option File) : (start existing).Intact where
  freeOffsets_eq := rfl
  working := rfl
  aligned hfind := nomatch (UnorderedMap.find?_empty _ _).symm.trans hfind
  stored hwritten := nomatch hwritten

/-- Two pages at different offsets do not overlap. -/
theorem disjoint_of_aligned {first second : Offset} (hfirst : pageSize ∣ first)
    (hsecond : pageSize ∣ second) (hne : first ≠ second) :
    first + pageSize ≤ second ∨ second + pageSize ≤ first := by
  obtain ⟨i, rfl⟩ := hfirst
  obtain ⟨j, rfl⟩ := hsecond
  rcases Nat.lt_or_gt_of_ne (fun heq : i = j => hne (congrArg _ heq)) with hlt | hgt
  · exact .inl (Nat.mul_le_mul_left pageSize hlt)
  · exact .inr (Nat.mul_le_mul_left pageSize hgt)

theorem aligned_writeOffset (manager : DiskManager) (id : PageId) :
    pageSize ∣ manager.writeOffset id := by
  unfold writeOffset
  split
  · exact Nat.dvd_mul_left _ _
  · exact Nat.dvd_zero _

namespace Intact

theorem aligned_readOffset (h : s.Intact) (id : PageId) :
    pageSize ∣ s.manager.readOffset id := by
  unfold readOffset
  cases hfind : s.manager.pages.find? id with
  | none => exact Nat.dvd_mul_left _ _
  | some offset => exact h.aligned hfind

theorem aligned_of_prepared (h : s.Intact) {size : Nat} {mid : DiskManager}
    (hprepared : s.manager.Prepared size mid) {offset : Offset}
    (hfind : mid.pages.find? id = some offset) : pageSize ∣ offset := by
  rcases hprepared.offset_cases hfind with hbefore | rfl
  · exact h.aligned hbefore
  · exact Nat.dvd_zero _

/-- Reading a written page returns its bytes. -/
theorem readPage (h : s.Intact) (hid : 0 ≤ id) (hwritten : s.written id = some data)
    (buffer : PageBuffer) :
    ∃ manager', DiskManager.readPage id buffer s.manager = .ok data manager' := by
  obtain ⟨offset, hfind, hholds⟩ := h.stored hwritten
  exact readPage_of_holds hid h.freeOffsets_eq h.working hfind hholds buffer

theorem afterWrite (h : s.Intact) (hid : 0 ≤ id) (hharmless : s.Harmless (.writePage id buffer))
    {manager' : DiskManager} (hreturns : writePage id buffer s.manager = .ok () manager') :
    (DiskSession.mk manager' (Function.update s.written id (some buffer))).Intact := by
  obtain ⟨mid, hprepared, heval⟩ := writePage_spec hid h.freeOffsets_eq h.working buffer
  cases heval.symm.trans hreturns
  refine ⟨hprepared.freeOffsets_eq, rfl, ?_, ?_⟩
  · intro other offset hfind
    by_cases heq : other = id
    · subst heq
      cases UnorderedMap.find?_assign_self.symm.trans hfind
      exact aligned_writeOffset _ _
    · exact h.aligned_of_prepared hprepared ((UnorderedMap.find?_assign_ne heq).symm.trans hfind)
  · intro other data hwritten
    by_cases heq : other = id
    · subst heq
      cases (Function.update_self _ _ _).symm.trans hwritten
      exact ⟨_, UnorderedMap.find?_assign_self, File.holds_write _ _ _⟩
    · have hbefore := (Function.update_of_ne heq _ _).symm.trans hwritten
      obtain ⟨offset, hfind, hholds⟩ := h.stored hbefore
      refine ⟨offset, (UnorderedMap.find?_assign_ne heq).trans (hprepared.keepsOffset hfind), ?_⟩
      by_cases htarget : offset = s.manager.writeOffset id
      · subst htarget
        rw [hharmless.1 heq hbefore hfind]
        exact File.holds_write _ _ _
      · have hinside := hharmless.2 hbefore hfind ⟨heq, htarget⟩
        exact (hprepared.keeps hholds hinside).write_disjoint
          (disjoint_of_aligned (h.aligned hfind) (aligned_writeOffset _ _) htarget)

theorem afterRead (h : s.Intact) (hid : 0 ≤ id) (hharmless : s.Harmless (.readPage id buffer))
    {manager' : DiskManager}
    (hleaves : Leaves (DiskManager.readPage id buffer) s.manager manager') :
    (DiskSession.mk manager' s.written).Intact := by
  obtain ⟨mid, hprepared, heval⟩ := readPage_eq hid h.freeOffsets_eq buffer
  have hworking : mid.dbFile.failed = false := hprepared.failed_eq.trans h.working
  have hkept : ∀ {other data}, s.written other = some data → ∃ offset,
      s.manager.pages.find? other = some offset ∧ mid.pages.find? other = some offset ∧
        mid.dbFile.file.Holds offset data := by
    intro other data hwritten
    obtain ⟨offset, hfind, hholds⟩ := h.stored hwritten
    exact ⟨offset, hfind, hprepared.keepsOffset hfind,
      hprepared.keeps hholds (hharmless.1 hwritten hfind trivial)⟩
  rcases Nat.lt_or_ge (s.manager.sizeAtRead id) (s.manager.readOffset id) with hpast | hinside
  · -- the call throws after it has allocated an offset
    have hthrows := heval.trans (readAt_of_past (hprepared.size_eq.symm ▸ hpast) id buffer)
    obtain ⟨rfl, _⟩ := hleaves.eq_of_error hthrows
    refine ⟨hprepared.freeOffsets_eq, hworking, h.aligned_of_prepared hprepared, ?_⟩
    intro other data hwritten
    obtain ⟨offset, _, hfind, hholds⟩ := hkept hwritten
    exact ⟨offset, hfind, hholds⟩
  · have hwhole : s.manager.readOffset id + pageSize ≤ mid.dbFile.file.size :=
      hprepared.size_eq.symm ▸ hharmless.2 hinside
    have hreturns := heval.trans (readAt_of_holds hworking ⟨hwhole, fun _ => rfl⟩ id buffer)
    cases hleaves.eq_of_ok hreturns
    refine ⟨hprepared.freeOffsets_eq,
      FileStream.afterRead_of_inside (by exact hworking) (by exact hwhole), ?_, ?_⟩
    · intro other offset hfind
      by_cases heq : other = id
      · subst heq
        cases UnorderedMap.find?_assign_self.symm.trans hfind
        exact h.aligned_readOffset _
      · exact h.aligned_of_prepared hprepared ((UnorderedMap.find?_assign_ne heq).symm.trans hfind)
    · intro other data hwritten
      obtain ⟨offset, hbefore, hfind, hholds⟩ := hkept hwritten
      refine ⟨offset, ?_, hholds⟩
      by_cases heq : other = id
      · subst heq
        rw [UnorderedMap.find?_assign_self, readOffset, hbefore]
        rfl
      · exact (UnorderedMap.find?_assign_ne heq).trans hfind

/-- A write to the offset of another page replaces the bytes of that page. -/
theorem read_after_overwrite (h : s.Intact) (hid : 0 ≤ id) (hother : 0 ≤ other)
    (hne : other ≠ id) (hfind : s.manager.pages.find? other = some (s.manager.writeOffset id))
    {manager' : DiskManager} (hreturns : writePage id buffer s.manager = .ok () manager')
    (data : PageBuffer) :
    ∃ manager'', DiskManager.readPage other data manager' = .ok buffer manager'' := by
  obtain ⟨mid, hprepared, heval⟩ := writePage_spec hid h.freeOffsets_eq h.working buffer
  cases heval.symm.trans hreturns
  have hoffset : (mid.pages.assign id (s.manager.writeOffset id)).find? other =
      some (s.manager.writeOffset id) :=
    (UnorderedMap.find?_assign_ne hne).trans (hprepared.keepsOffset hfind)
  exact readPage_of_holds hother (by exact hprepared.freeOffsets_eq) rfl (by exact hoffset)
    (File.holds_write _ _ _) data

theorem step (h : s.Intact) (hstep : HarmlessStep s op s') : s'.Intact := by
  obtain ⟨hstep, hharmless⟩ := hstep
  cases hstep with
  | writePage nonneg returns => exact h.afterWrite nonneg hharmless returns
  | readPage nonneg leaves => exact h.afterRead nonneg hharmless leaves

end Intact

/--
In a run of calls that lose no page, reading a page that has been written returns
the bytes last written to it.
-/
theorem read_returns_last_written {existing : Option File} {ops : List DiskOp}
    (hrun : Run HarmlessStep (start existing) ops s) (hid : 0 ≤ id)
    (hwritten : s.written id = some data) (buffer : PageBuffer) :
    ∃ manager', DiskManager.readPage id buffer s.manager = .ok data manager' :=
  have hintact : s.Intact := hrun.invariant (fun _ s => Intact s) (intact_start existing)
    fun _ _ _ _ h hstep => h.step hstep
  hintact.readPage hid hwritten buffer

/-- A page of equal bytes. -/
def filled (value : UInt8) : PageBuffer := fun _ => value

/-- The session after a page has been filled. -/
def afterFilling (s : DiskSession) (id : PageId) (value : UInt8) : DiskSession :=
  ⟨stateOf (writePage id (filled value) s.manager),
    Function.update s.written id (some (filled value))⟩

/-- Writing the only page there is. -/
theorem harmless_of_only (h : ∀ other, other ≠ id → s.written other = none) :
    s.Harmless (.writePage id buffer) := by
  refine ⟨fun {other data} hne hwritten _ => ?_, fun {other data offset} hwritten _ hother => ?_⟩
  · cases (h other hne).symm.trans hwritten
  · cases (h other hother.1).symm.trans hwritten

theorem step_afterFilling (hid : 0 ≤ id) {value : UInt8}
    (h : resultOf (writePage id (filled value) s.manager) = some ()) :
    Step s (.writePage id (filled value)) (s.afterFilling id value) :=
  .writePage hid (eq_ok_of_resultOf h)

/-- Two pages that have been written once. -/
def twoFilled : DiskSession := ((start none).afterFilling 0 1).afterFilling 1 2

/-- Both have the offset zero, so that the first one reads as the second. -/
theorem first_page_lost :
    ∃ s, Run Step (start none) [.writePage 0 (filled 1), .writePage 1 (filled 2)] s ∧
      s.written 0 = some (filled 1) ∧ ∃ data manager',
        DiskManager.readPage 0 (filled 0) s.manager = .ok data manager' ∧ data ≠ filled 1 := by
  have hfirst : resultOf (writePage 0 (filled 1) (start none).manager) = some () := by
    decide +kernel
  have hsecond : resultOf (writePage 1 (filled 2) ((start none).afterFilling 0 1).manager) =
      some () := by
    decide +kernel
  have hbyte : (resultOf (DiskManager.readPage 0 (filled 0) twoFilled.manager)).any
      (fun page => page ⟨0, by decide⟩ = 2) = true := by
    decide +kernel
  obtain ⟨data, hdata, hvalue⟩ := (Option.any_eq_true _ _).mp hbyte
  have hrun : Run Step (start none) [.writePage 0 (filled 1), .writePage 1 (filled 2)] twoFilled :=
    (Run.nil.snoc (step_afterFilling (by decide) hfirst)).snoc
      (step_afterFilling (by decide) hsecond)
  refine ⟨twoFilled, hrun, rfl, data, _, eq_ok_of_resultOf hdata, ?_⟩
  rintro rfl
  exact absurd (of_decide_eq_true hvalue) (by decide)

/-- The first page has been written twice, which gives it an offset of its own. -/
def rewritten : DiskSession := ((start none).afterFilling 0 1).afterFilling 0 2

/-- The first page is still read after another one has been written. -/
theorem rewritten_page_read :
    ∃ s manager', Run HarmlessStep (start none)
        [.writePage 0 (filled 1), .writePage 0 (filled 2), .writePage 1 (filled 3)] s ∧
      DiskManager.readPage 0 (filled 0) s.manager = .ok (filled 2) manager' := by
  have hfirst : resultOf (writePage 0 (filled 1) (start none).manager) = some () := by
    decide +kernel
  have hsecond : resultOf (writePage 0 (filled 2) ((start none).afterFilling 0 1).manager) =
      some () := by
    decide +kernel
  have hthird : resultOf (writePage 1 (filled 3) rewritten.manager) = some () := by
    decide +kernel
  have hplace : rewritten.manager.pages.find? 0 = some pageSize ∧
      rewritten.manager.writeOffset 1 = 0 ∧
      pageSize + pageSize ≤ rewritten.manager.sizeAtWrite 1 := by
    decide +kernel
  obtain ⟨hoffset, htarget, hsize⟩ := hplace
  -- only page 0 has been written before the last call
  have hnone : ∀ other, other ≠ 0 → rewritten.written other = none := by
    intro other hne
    exact (Function.update_of_ne hne _ _).trans (Function.update_of_ne hne _ _)
  have honly : ∀ other data, rewritten.written other = some data → other = 0 := by
    intro other data hwritten
    by_contra hne
    cases (hnone other hne).symm.trans hwritten
  have hharmless : rewritten.Harmless (.writePage 1 (filled 3)) := by
    refine ⟨fun {other data} _ hwritten hfind => ?_, fun {other data offset} hwritten hfind _ => ?_⟩
    · obtain rfl := honly other data hwritten
      rw [htarget] at hfind
      cases hoffset.symm.trans hfind
    · obtain rfl := honly other data hwritten
      cases hoffset.symm.trans hfind
      exact hsize
  have hrun : Run HarmlessStep (start none)
      [.writePage 0 (filled 1), .writePage 0 (filled 2), .writePage 1 (filled 3)]
      (rewritten.afterFilling 1 3) :=
    ((Run.nil.snoc ⟨step_afterFilling (by decide) hfirst, harmless_of_only fun _ _ => rfl⟩).snoc
      ⟨step_afterFilling (by decide) hsecond,
        harmless_of_only fun _ hne => Function.update_of_ne hne _ _⟩).snoc
      ⟨step_afterFilling (by decide) hthird, hharmless⟩
  obtain ⟨manager', hread⟩ := read_returns_last_written hrun (by decide)
    (show (rewritten.afterFilling 1 3).written 0 = some (filled 2) from rfl) (filled 0)
  exact ⟨_, manager', hrun, hread⟩

end DiskSession

end HiveDb
