import HiveDb.Disk.DiskManager

/-!
# The calls of the disk manager

Every call on a page first chooses an offset, which is allocated or is that of
the page's entry, and then goes on with the manager that this has left.
-/

namespace HiveDb

open HiveDb.Lib

namespace DiskManager

/-- The manager after an allocation without free offsets. -/
def grown (manager : DiskManager) : DiskManager :=
  if manager.pages.size + 1 ≥ manager.currentPages then
    { manager with
      currentPages := manager.currentPages * 2
      dbFile := manager.dbFile.resizeFile ((manager.currentPages * 2 + 1) * pageSize) }
  else manager

/-- The offset `allocate_new_page` returns. -/
def allocated (manager : DiskManager) : Offset :=
  manager.freeOffsets.headD (manager.pages.size * pageSize)

/-- The manager after an allocation. -/
def afterAllocation (manager : DiskManager) : DiskManager :=
  match manager.freeOffsets with
  | _ :: rest => { manager with freeOffsets := rest }
  | [] => manager.grown

/-- The manager with an entry for the page. -/
def withEntry (manager : DiskManager) (id : PageId) : DiskManager :=
  { manager with pages := manager.pages.emplace id 0 }

/-- The offset `write_page` chooses. -/
def offsetAtWrite (manager : DiskManager) (id : PageId) : Offset :=
  if (manager.pages.find? id).isSome then manager.allocated else 0

/-- The offset `read_page` chooses. -/
def offsetAtRead (manager : DiskManager) (id : PageId) : Offset :=
  (manager.pages.find? id).getD manager.allocated

/-- The manager when `write_page` has chosen an offset. -/
def readyToWrite (manager : DiskManager) (id : PageId) : DiskManager :=
  if (manager.pages.find? id).isSome then manager.afterAllocation else manager.withEntry id

/-- The manager when `read_page` has chosen an offset. -/
def readyToRead (manager : DiskManager) (id : PageId) : DiskManager :=
  if (manager.pages.find? id).isSome then manager.withEntry id else manager.afterAllocation

variable {manager : DiskManager} {id : PageId} {offset : Offset} {buffer : PageBuffer}

/-! ## Allocation -/

theorem allocateNewPage_eq (hfree : manager.freeOffsets = []) :
    allocateNewPage manager = .ok (manager.pages.size * pageSize) manager.grown := by
  rw [allocateNewPage, bind_of_ok (get_apply manager), hfree, grown]
  dsimp only
  by_cases hfull : manager.pages.size + 1 ≥ manager.currentPages
  · rw [if_pos hfull, if_pos hfull, hfree]
    rfl
  · rw [if_neg hfull, if_neg hfull]
    rfl

theorem allocateNewPage_ok :
    allocateNewPage manager = .ok manager.allocated manager.afterAllocation := by
  unfold allocated afterAllocation
  cases hfree : manager.freeOffsets with
  | nil => exact allocateNewPage_eq hfree
  | cons offset rest =>
      rw [allocateNewPage, bind_of_ok (get_apply manager), hfree]
      rfl

theorem allocated_of_nil (hfree : manager.freeOffsets = []) :
    manager.allocated = manager.pages.size * pageSize := by
  rw [allocated, hfree]
  rfl

theorem afterAllocation_of_nil (hfree : manager.freeOffsets = []) :
    manager.afterAllocation = manager.grown := by
  rw [afterAllocation, hfree]

@[simp] theorem grown_pages : manager.grown.pages = manager.pages := by
  unfold grown
  split <;> rfl

@[simp] theorem grown_freeOffsets : manager.grown.freeOffsets = manager.freeOffsets := by
  unfold grown
  split <;> rfl

@[simp] theorem grown_failed : manager.grown.dbFile.failed = manager.dbFile.failed := by
  unfold grown
  split <;> rfl

@[simp] theorem afterAllocation_pages : manager.afterAllocation.pages = manager.pages := by
  unfold afterAllocation
  split
  · rfl
  · exact grown_pages

/-! ## The choice of an offset -/

theorem checkId_eq (hid : 0 ≤ id) (manager : DiskManager) :
    checkId id manager = .ok () manager := by
  rw [checkId, if_neg (Int.not_lt.mpr hid)]
  rfl

theorem offsetOf_eq (id : PageId) (manager : DiskManager) :
    offsetOf id manager = .ok (((manager.pages.emplace id 0).find? id).getD 0)
      (manager.withEntry id) := rfl

theorem offsetOf_of_none (hfind : manager.pages.find? id = none) :
    offsetOf id manager = .ok 0 (manager.withEntry id) := by
  rw [offsetOf_eq, UnorderedMap.find?_emplace_self, hfind]
  rfl

theorem offsetOf_of_some (hfind : manager.pages.find? id = some offset) :
    offsetOf id manager = .ok offset (manager.withEntry id) := by
  rw [offsetOf_eq, UnorderedMap.find?_emplace_self, hfind]
  rfl

/-- `write_page` is the part behind the choice of the offset. -/
theorem writePage_ready (hid : 0 ≤ id) :
    writePage id buffer manager =
      writeAt id (manager.offsetAtWrite id) buffer (manager.readyToWrite id) := by
  unfold readyToWrite offsetAtWrite
  rw [writePage, bind_of_ok (checkId_eq hid manager), bind_of_ok (get_apply manager)]
  cases hfind : manager.pages.find? id with
  | none =>
      rw [Option.isSome_none, if_neg Bool.false_ne_true, if_neg Bool.false_ne_true,
        if_neg Bool.false_ne_true, bind_of_ok (offsetOf_of_none hfind)]
  | some offset =>
      rw [Option.isSome_some, if_pos rfl, if_pos rfl, if_pos rfl, bind_of_ok allocateNewPage_ok]

/-- `read_page` is the part behind the choice of the offset. -/
theorem readPage_ready (hid : 0 ≤ id) :
    readPage id buffer manager =
      readAt id (manager.offsetAtRead id) buffer (manager.readyToRead id) := by
  unfold readyToRead offsetAtRead
  rw [readPage, bind_of_ok (checkId_eq hid manager), bind_of_ok (get_apply manager)]
  cases hfind : manager.pages.find? id with
  | none =>
      rw [Option.isNone_none, Option.isSome_none, if_pos rfl, if_neg Bool.false_ne_true,
        bind_of_ok allocateNewPage_ok]
      rfl
  | some offset =>
      rw [Option.isNone_some, Option.isSome_some, if_pos rfl, if_neg Bool.false_ne_true,
        bind_of_ok (offsetOf_of_some hfind)]
      rfl

end DiskManager

end HiveDb
