import HiveDb.Lib.File
import HiveDb.Lib.UnorderedMap
import HiveDb.Misc.Config

/-!
# The disk manager

The disk manager keeps the pages of one file and remembers the offset of each
page it has met.  Reading and writing the file succeed; the only failure of a
stream that is left is that of a read which finds less than a page.
-/

namespace HiveDb

open HiveDb.Lib

/-- The bytes of a page. -/
abbrev PageBuffer := Fin pageSize → UInt8

def defaultNumberOfPages : Nat := 16

/-- The head of `freeOffsets` is the back of `m_free_offsets`; no loop visits `m_pages`. -/
structure DiskManager where
  currentPages : Nat := defaultNumberOfPages
  pages : UnorderedMap PageId Offset := .empty .newestFirst
  freeOffsets : List Offset := []
  dbFile : FileStream

namespace DiskManager

/-- The constructor, on a path where there may be a file already. -/
def new (existing : Option File) : DiskManager :=
  { dbFile := ⟨(existing.getD .empty).resize ((defaultNumberOfPages + 1) * pageSize), 0, false⟩ }

/-- An operation of `m_db_file`. -/
def onStream (op : FileStream → FileStream) : Prog DiskManager Unit :=
  modify fun manager => { manager with dbFile := op manager.dbFile }

/-- `m_pages[id]`, which inserts an offset of zero for an unknown id. -/
def offsetOf (id : PageId) : Prog DiskManager Offset := do
  modify fun manager => { manager with pages := manager.pages.emplace id 0 }
  return ((← get).pages.find? id).getD 0

/-- `m_pages[id] = offset` -/
def setOffset (id : PageId) (offset : Offset) : Prog DiskManager Unit :=
  modify fun manager => { manager with pages := manager.pages.assign id offset }

def allocateNewPage : Prog DiskManager Offset := do
  let manager ← get
  match manager.freeOffsets with
  | offset :: rest => do
      set { manager with freeOffsets := rest }
      return offset
  | [] => do
      if manager.pages.size + 1 ≥ manager.currentPages then
        let currentPages := manager.currentPages * 2
        set { manager with currentPages := currentPages }
        onStream (·.resizeFile ((currentPages + 1) * pageSize))
      return manager.pages.size * pageSize

def getFileSize : Prog DiskManager Nat := return (← get).dbFile.file.size

/-- The check that `write_page` and `read_page` begin with. -/
def checkId (id : PageId) : Prog DiskManager Unit :=
  if id < 0 then throw (.runtimeError s!"Invalid id detected!: {id}") else return ()

/-- The part of `write_page` that follows the choice of the offset. -/
def writeAt (id : PageId) (offset : Offset) (buffer : PageBuffer) : Prog DiskManager Unit := do
  onStream (·.seekg offset)
  onStream (·.write buffer)
  setOffset id offset

def writePage (id : PageId) (buffer : PageBuffer) : Prog DiskManager Unit := do
  checkId id
  let offset ←
    if ((← get).pages.find? id).isSome then allocateNewPage else offsetOf id
  writeAt id offset buffer

/-- The part of `read_page` that follows the choice of the offset. -/
def readAt (id : PageId) (offset : Offset) (buffer : PageBuffer) :
    Prog DiskManager PageBuffer := do
  let fileSize ← getFileSize
  if offset > fileSize then
    throw (.runtimeError
      s!"Offset was bigger (somehow) than file size! offset: {offset} file_size: {fileSize}")
  else do
    setOffset id offset
    onStream (·.seekg offset)
    let stream := (← get).dbFile
    let readCount := stream.readCount pageSize
    let buffer := stream.readInto buffer
    onStream (·.afterRead pageSize)
    -- `memset` of what a short read has left in the buffer
    return fun i => if i < readCount then buffer i else 0

/-- `read_page`; the result is what `buffer` holds afterwards. -/
def readPage (id : PageId) (buffer : PageBuffer) : Prog DiskManager PageBuffer := do
  checkId id
  let offset ←
    if ((← get).pages.find? id).isNone then allocateNewPage else offsetOf id
  readAt id offset buffer

/-- `delete_page` without its write of a page from a null pointer, which is undefined. -/
def deletePage (id : PageId) : Prog DiskManager Unit := do
  checkId id
  if ((← get).pages.find? id).isNone then
    throw (.runtimeError s!"Invalid id detected!: {id}")
  else do
    let offset ← offsetOf id
    onStream (·.seekg offset)
    modify fun manager => { manager with freeOffsets := offset :: manager.freeOffsets }
    modify fun manager => { manager with pages := manager.pages.erase id }

end DiskManager

end HiveDb
