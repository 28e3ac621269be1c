import HiveDb.BufferPool.LruK
import HiveDb.Lib.UnorderedMap
import Mathlib.Logic.Function.Basic

/-!
# The buffer pool

The pool keeps pages of a disk in a fixed number of frames.  A reference to a
frame is the frame's slot: what is done through it is done to whatever page the
slot holds by then.  The bytes of a page are of an arbitrary type `B`; the disk
manager is a type `δ` with its two operations.
-/

namespace HiveDb

open HiveDb.Lib

/--
A disk manager.  Its calls return: an exception in the worker thread of the
scheduler would end the process, and a call that returns completes its request
with `true`.
-/
class DiskManagerT (δ : Type) (B : outParam Type) where
  readPage : PageId → δ → B × δ
  writePage : PageId → B → δ → δ

/-- `frame_header`; an empty `m_data` is `none`. -/
structure FrameHeader (B : Type) where
  frameId : FrameId := invalidFrameId
  isDirty : Bool := false
  pinCount : Int := -99
  data : Option B := none
  hasReplacer : Bool := false

namespace FrameHeader

variable {B : Type}

/-- The constructor. -/
def new (id : FrameId) (data : B) : FrameHeader B :=
  ⟨id, false, 0, some data, true⟩

def increasePinCount (frame : FrameHeader B) : FrameHeader B :=
  { frame with pinCount := frame.pinCount + 1 }

def decreasePinCount (frame : FrameHeader B) : FrameHeader B :=
  { frame with pinCount := frame.pinCount - 1 }

/-- A client has written the bytes and has set `is_dirty`. -/
def overwritten (frame : FrameHeader B) (data : B) : FrameHeader B :=
  { frame with data := some data, isDirty := true }

def pinnedIf (frame : FrameHeader B) (shouldPin : Bool) : FrameHeader B :=
  if shouldPin then frame.increasePinCount else frame

end FrameHeader

structure BufferPool (δ B : Type) where
  maxFrames : Nat
  disk : δ
  frameReplacer : LruK
  nextPage : PageId
  pageTable : UnorderedMap PageId FrameId
  frames : FrameId → FrameHeader B
  emptyFrames : List FrameId

variable {δ B : Type}

/-- The slots of a pool in their order. -/
def slots (maxFrames : Nat) : List FrameId := (List.range maxFrames).map Nat.cast

namespace BufferPool

/-- `m_k` -/
def k : Int := 10

/-- The constructor; the replacer is constructed before `max_frames` is checked. -/
def new (maxFrames : FrameId) (disk : δ) (order : IterationOrder PageId FrameId) :
    Except Failure (BufferPool δ B) := do
  let frameReplacer ← LruK.new k maxFrames
  if maxFrames < 0 then throw (.invalidArgument "max_frames must be >= 0")
  return {
    maxFrames := maxFrames.toNat
    disk := disk
    frameReplacer := frameReplacer
    nextPage := 0
    pageTable := .empty order
    frames := fun _ => {}
    emptyFrames := slots maxFrames.toNat }

def setFrame (pool : BufferPool δ B) (frame : FrameId) (header : FrameHeader B) : BufferPool δ B :=
  { pool with frames := Function.update pool.frames frame header }

def hasFrame (pool : BufferPool δ B) (frame : FrameId) : Prop := 0 ≤ frame ∧ frame < pool.maxFrames

instance (pool : BufferPool δ B) (frame : FrameId) : Decidable (pool.hasFrame frame) :=
  inferInstanceAs (Decidable (0 ≤ frame ∧ frame < pool.maxFrames))

/-- The scan for a dirty frame that is not pinned. -/
def dirtyUnpinned? (pool : BufferPool δ B) : Option FrameId :=
  (slots pool.maxFrames).find? fun frame =>
    (pool.frames frame).isDirty && (pool.frames frame).pinCount == 0

/-! ## Access to the parts of a pool -/

section Access

/-- An operation of the replacer. -/
def onReplacer (op : LruK → Except Failure LruK) : Prog (BufferPool δ B) Unit := do
  let frameReplacer ← liftPure (op (← get).frameReplacer)
  modify fun pool => { pool with frameReplacer := frameReplacer }

/-- `m_frames.at(frame)` -/
def frameAt (frame : FrameId) : Prog (BufferPool δ B) (FrameHeader B) := do
  let pool ← get
  if pool.hasFrame frame then return pool.frames frame else throw .outOfRange

/-- `m_frames[frame]` -/
def frameOf (frame : FrameId) : Prog (BufferPool δ B) (FrameHeader B) := do
  let pool ← get
  if pool.hasFrame frame then return pool.frames frame else throw .undefined

/--
`m_frames[frame] = header` for a temporary `header`, which is destructed after
the assignment and then marks its frame evictable if it knows a replacer.
-/
def assignFrame (frame : FrameId) (header : FrameHeader B) : Prog (BufferPool δ B) Unit := do
  let _ ← frameOf frame
  modify fun pool => pool.setFrame frame header
  if header.hasReplacer then onReplacer (LruK.setEvictable header.frameId true)

/-- A member function of the frame behind a reference. -/
def modifyFrame (frame : FrameId) (change : FrameHeader B → FrameHeader B) :
    Prog (BufferPool δ B) Unit :=
  modify fun pool => pool.setFrame frame (change (pool.frames frame))

/-- `if (should_pin) frame.increase_pin_count()` -/
def pinFrame (frame : FrameId) (shouldPin : Bool) : Prog (BufferPool δ B) Unit :=
  modifyFrame frame fun header => header.pinnedIf shouldPin

/-- The bytes behind `get_data()`. -/
def frameData (header : FrameHeader B) : Except Failure B :=
  match header.data with
  | none => throw .undefined
  | some data => return data

/-- `m_empty_frames.front()` -/
def frontEmptyFrame : Prog (BufferPool δ B) FrameId := do
  match (← get).emptyFrames with
  | [] => throw .undefined
  | frame :: _ => return frame

/-- Map a page to a frame and take the first frame off the free list. -/
def mapPage (id : PageId) (frame : FrameId) : Prog (BufferPool δ B) Unit := do
  modify fun pool => { pool with pageTable := pool.pageTable.emplace id frame }
  modify fun pool => { pool with emptyFrames := pool.emptyFrames.tail }

variable [DiskManagerT δ B]

/-- Schedule a read request and wait for it. -/
def scheduleRead (id : PageId) : Prog (BufferPool δ B) (B × Bool) := do
  let pool ← get
  let (buffer, disk) := DiskManagerT.readPage id pool.disk
  set { pool with disk := disk }
  return (buffer, true)

/-- Schedule a write request and wait for it. -/
def scheduleWrite (id : PageId) (data : B) : Prog (BufferPool δ B) Bool := do
  modify fun pool => { pool with disk := DiskManagerT.writePage id data pool.disk }
  return true

end Access

/-! ## The member functions -/

section Members

def allocateNewPage : Prog (BufferPool δ B) PageId := do
  let pool ← get
  set { pool with nextPage := pool.nextPage + 1 }
  return pool.nextPage

def evictPage (pageId : PageId) : Prog (BufferPool δ B) FrameId := do
  match (← get).pageTable.find? pageId with
  | none => throw .assertion
  | some frameId => do
      onReplacer (LruK.remove frameId)
      modify fun pool => { pool with pageTable := pool.pageTable.erase pageId }
      let frame ← frameOf frameId
      liftPure (assertThat (frame.frameId = frameId))
      assignFrame frameId {}
      modify fun pool => { pool with emptyFrames := pool.emptyFrames ++ [frameId] }
      return frameId

variable [DiskManagerT δ B]

def flushPage (pageId : PageId) (shouldEvict : Bool := true) : Prog (BufferPool δ B) Bool := do
  match (← get).pageTable.find? pageId with
  | none => return false
  | some frameId => do
      let frame ← frameAt frameId
      liftPure (assertThat (frame.isDirty = true))
      let status ← scheduleWrite pageId (← liftPure (frameData frame))
      if ¬ status then throw (.runtimeError "flush_page() failed; tried to write")
      modifyFrame frameId .decreasePinCount
      if shouldEvict then
        let freedFrame ← evictPage pageId
        liftPure (assertThat (frame.frameId = freedFrame))
      return true

/-- The first loop of `flush_pages`; it returns `pages_to_evict`. -/
def flushDirty : List (PageId × FrameId) → Prog (BufferPool δ B) (List PageId)
  | [] => return []
  | (pageId, frameId) :: rest => do
      let frame ← frameAt frameId
      if frame.isDirty then
        let _ ← flushPage pageId false
        return pageId :: (← flushDirty rest)
      else
        flushDirty rest

/-- The second loop of `flush_pages`. -/
def evictPages : List PageId → Prog (BufferPool δ B) Unit
  | [] => return ()
  | pageId :: rest => do
      let _ ← evictPage pageId
      evictPages rest

/-- `was_any_page_dirty` is set when a page is put on the list of pages to evict. -/
def flushPages : Prog (BufferPool δ B) Bool := do
  let pagesToEvict ← flushDirty (← get).pageTable.pairs
  evictPages pagesToEvict
  return ! pagesToEvict.isEmpty

/-- The part of a page fault that finds an empty frame. -/
def loadIntoEmptyFrame (id : PageId) (shouldPin : Bool) (buffer : B) :
    Prog (BufferPool δ B) FrameId := do
  liftPure (assertThat ((← get).emptyFrames ≠ []))
  let frameId ← frontEmptyFrame
  mapPage id frameId
  liftPure (assertThat (frameId < (← get).maxFrames))
  assignFrame frameId (.new frameId buffer)
  onReplacer (LruK.recordAccess frameId)
  pinFrame frameId shouldPin
  return frameId

/-- The part of a page fault that writes back and replaces the dirty frame `frameId`. -/
def replaceDirtyFrame (id : PageId) (shouldPin : Bool) (buffer : B) (frameId : FrameId) :
    Prog (BufferPool δ B) FrameId := do
  match (← get).pageTable.findIf? (fun pair => pair.2 = frameId) with
  | none => throw .assertion
  | some (pageIdToBeFlushed, _) => do
      let status ← flushPage pageIdToBeFlushed
      if ¬ status then throw (.runtimeError "flush_page() failed")
      let frameId ← frontEmptyFrame
      mapPage id frameId
      onReplacer (LruK.recordAccess frameId)
      liftPure (assertThat (frameId < (← get).maxFrames))
      assignFrame frameId (.new frameId buffer)
      pinFrame frameId shouldPin
      onReplacer (LruK.recordAccess frameId)
      return frameId

/-- `m_frame_replacer.evict()` -/
def evictFrame : Prog (BufferPool δ B) (Option FrameId) := do
  let (frame, frameReplacer) ← liftPure (← get).frameReplacer.evict
  modify fun pool => { pool with frameReplacer := frameReplacer }
  return frame

/-- The part of a page fault that replaces the victim of the replacer. -/
def replaceVictim (id : PageId) (shouldPin : Bool) (buffer : B) :
    Prog (BufferPool δ B) FrameId := do
  match ← evictFrame with
  | none => throw (.runtimeError "frame_replacer.evict() failed; got -1 or invalid frame")
  | some frameToEvict => do
      if frameToEvict = invalidFrameId then
        throw (.runtimeError "frame_replacer.evict() failed; got -1 or invalid frame")
      if (← frameAt frameToEvict).pinCount > 0 then
        throw (.runtimeError "VICTIM IS PINNED! maybe this a oom? needs more testing.")
      match (← get).pageTable.findIf? (fun pair => pair.2 = frameToEvict) with
      | none => throw .assertion
      | some (pageIdToBeRemoved, frameToFree) => do
          let freedFrame ← evictPage pageIdToBeRemoved
          liftPure (assertThat (freedFrame = frameToFree))
          let frameToInsert ← frontEmptyFrame
          mapPage id frameToInsert
          liftPure (assertThat (freedFrame < (← get).maxFrames))
          assignFrame freedFrame (.new freedFrame buffer)
          pinFrame freedFrame shouldPin
          onReplacer (LruK.recordAccess frameToEvict)
          return freedFrame

/-- `request_page`; the result is the slot the returned reference points to. -/
def requestPage (id : PageId) (shouldPin : Bool := true) : Prog (BufferPool δ B) FrameId := do
  liftPure (assertThat (id > -1))
  match (← get).pageTable.find? id with
  | some frameId => do
      onReplacer (LruK.recordAccess frameId)
      onReplacer (LruK.setEvictable frameId false)
      let _ ← frameAt frameId
      pinFrame frameId shouldPin
      return frameId
  | none => do
      let (buffer, status) ← scheduleRead id
      if ¬ status then throw (.runtimeError "request_page() failed")
      let pool ← get
      if pool.pageTable.size < pool.maxFrames then
        loadIntoEmptyFrame id shouldPin buffer
      else
        match pool.dirtyUnpinned? with
        | some frameId => replaceDirtyFrame id shouldPin buffer frameId
        | none => replaceVictim id shouldPin buffer

end Members

end BufferPool

end HiveDb
