import HiveDb.Disk.FileSize
import HiveDb.BufferPool.BufferPool

/-!
# Pages that are read before they are written

A client that reads each page before it writes it, as the buffer pool does,
never makes `write_page` take the offset zero of an unknown page.  The disk
manager is then a row of slots: a page met for the first time, and a page that
is written, goes to the slot behind as many as there are known pages.  Until the
next page is met all writes therefore go to one slot, whichever page they are of.
-/

namespace HiveDb

open HiveDb.Lib

/-! ## The row of slots -/

/-- The known pages, the slot each of them has, and what the slots hold. -/
structure SlotDisk (B : Type) where
  count : Nat
  slot : PageId → Option Nat
  contents : Nat → B
  slot_le : ∀ id s, slot id = some s → s ≤ count

namespace SlotDisk

variable {B : Type}

/-- No page is known. -/
def unmet (contents : Nat → B) : SlotDisk B := ⟨0, fun _ => none, contents, fun _ _ => nofun⟩

/-- A page is met for the first time. -/
def met (disk : SlotDisk B) (id : PageId) : SlotDisk B where
  count := disk.count + 1
  slot := Function.update disk.slot id (some disk.count)
  contents := disk.contents
  slot_le := by
    intro other s hslot
    by_cases heq : other = id
    · rw [heq, Function.update_self] at hslot
      exact Option.some.inj hslot ▸ Nat.le_succ _
    · rw [Function.update_of_ne heq] at hslot
      exact Nat.le_succ_of_le (disk.slot_le other s hslot)

def readPage (id : PageId) (disk : SlotDisk B) : B × SlotDisk B :=
  match disk.slot id with
  | some s => (disk.contents s, disk)
  | none => (disk.contents disk.count, disk.met id)

def writePage (id : PageId) (data : B) (disk : SlotDisk B) : SlotDisk B where
  count := disk.count
  slot := Function.update disk.slot id (some disk.count)
  contents := Function.update disk.contents disk.count data
  slot_le := by
    intro other s hslot
    by_cases heq : other = id
    · rw [heq, Function.update_self] at hslot
      exact (Option.some.inj hslot).ge
    · rw [Function.update_of_ne heq] at hslot
      exact disk.slot_le other s hslot

instance : DiskManagerT (SlotDisk B) B where
  readPage := readPage
  writePage := writePage

variable {disk : SlotDisk B} {id other : PageId} {data : B} {s : Nat}

theorem slot_met_self : (disk.met id).slot id = some disk.count := Function.update_self _ _ _

theorem slot_met_ne (hne : other ≠ id) : (disk.met id).slot other = disk.slot other :=
  Function.update_of_ne hne _ _

theorem slot_writePage_self : (disk.writePage id data).slot id = some disk.count :=
  Function.update_self _ _ _

theorem slot_writePage_ne (hne : other ≠ id) :
    (disk.writePage id data).slot other = disk.slot other := Function.update_of_ne hne _ _

theorem contents_writePage_self : (disk.writePage id data).contents disk.count = data :=
  Function.update_self _ _ _

theorem contents_writePage_ne (hne : s ≠ disk.count) :
    (disk.writePage id data).contents s = disk.contents s := Function.update_of_ne hne _ _

theorem readPage_of_some (h : disk.slot id = some s) :
    disk.readPage id = (disk.contents s, disk) := by
  rw [readPage, h]

theorem readPage_of_none (h : disk.slot id = none) :
    disk.readPage id = (disk.contents disk.count, disk.met id) := by
  rw [readPage, h]

/-- A page that has been read is known. -/
theorem known_readPage_self : ∃ s, (disk.readPage id).2.slot id = some s := by
  cases hslot : disk.slot id with
  | some s =>
      rw [readPage_of_some hslot]
      exact ⟨s, hslot⟩
  | none =>
      rw [readPage_of_none hslot]
      exact ⟨disk.count, slot_met_self⟩

theorem known_readPage (h : ∃ s, disk.slot other = some s) :
    ∃ s, (disk.readPage id).2.slot other = some s := by
  by_cases heq : other = id
  · exact heq ▸ known_readPage_self
  · cases hslot : disk.slot id with
    | some s => rwa [readPage_of_some hslot]
    | none => rwa [readPage_of_none hslot, slot_met_ne heq]

theorem known_writePage (h : ∃ s, disk.slot other = some s) :
    ∃ s, (disk.writePage id data).slot other = some s := by
  by_cases heq : other = id
  · exact ⟨disk.count, heq ▸ slot_writePage_self⟩
  · rwa [slot_writePage_ne heq]

end SlotDisk

/-! ## The file as a row of slots -/

/-- A position in one slot is not in another one. -/
theorem not_inside_slot {s t : Nat} (hne : s ≠ t) (i : Fin pageSize) :
    ¬ (t * pageSize ≤ s * pageSize + i ∧ s * pageSize + i - t * pageSize < pageSize) := by
  have hi := i.isLt
  rcases Nat.lt_or_gt_of_ne hne with hlt | hgt
  · have := Nat.mul_le_mul_right pageSize (Nat.succ_le_of_lt hlt)
    rw [Nat.succ_mul] at this
    omega
  · have := Nat.mul_le_mul_right pageSize (Nat.succ_le_of_lt hgt)
    rw [Nat.succ_mul] at this
    omega

namespace DiskManager

/-- The manager keeps the slots one behind the other in its file. -/
structure Follows (manager : DiskManager) (disk : SlotDisk PageBuffer) : Prop where
  freeOffsets_eq : manager.freeOffsets = []
  working : manager.dbFile.failed = false
  size_eq : manager.pages.size = disk.count
  find_eq : ∀ id, manager.pages.find? id = (disk.slot id).map (· * pageSize)
  currentPages_pos : 0 < manager.currentPages
  count_le : disk.count ≤ manager.currentPages
  fileSize_eq : manager.dbFile.file.size = (manager.currentPages + 1) * pageSize
  bytes_eq : ∀ (s : Nat) (i : Fin pageSize),
    manager.dbFile.file.bytes (s * pageSize + i) = disk.contents s i

/-- The slots of a file that is opened. -/
def slotsOf (existing : Option File) : Nat → PageBuffer := fun s i =>
  (new existing).dbFile.file.bytes (s * pageSize + i)

theorem follows_new (existing : Option File) :
    (new existing).Follows (.unmet (slotsOf existing)) where
  freeOffsets_eq := rfl
  working := rfl
  size_eq := rfl
  find_eq _ := UnorderedMap.find?_empty _ _
  currentPages_pos := Nat.succ_pos 15
  count_le := Nat.zero_le _
  fileSize_eq := rfl
  bytes_eq _ _ := rfl

namespace Follows

variable {manager : DiskManager} {disk : SlotDisk PageBuffer} {id : PageId} {s : Nat}

/-- An allocation makes room for one more page. -/
theorem grown (h : manager.Follows disk) :
    manager.grown.Follows disk ∧ disk.count < manager.grown.currentPages := by
  have hcount := h.count_le
  have hpos := h.currentPages_pos
  have hsize := h.size_eq
  unfold DiskManager.grown
  split
  next hfull =>
    refine ⟨⟨h.freeOffsets_eq, h.working, h.size_eq, h.find_eq, ?_, ?_, rfl, fun s i => ?_⟩, ?_⟩
    · exact Nat.mul_pos hpos Nat.two_pos
    · exact Nat.le_trans hcount (Nat.le_mul_of_pos_right _ Nat.two_pos)
    · -- what the file did not hold was zero and is zero
      refine Eq.trans ?_ (h.bytes_eq s i)
      show (if _ then _ else _) = _
      split
      next => rfl
      next hpast =>
        refine (manager.dbFile.file.bytes_past _ ?_).symm
        rw [h.fileSize_eq]
        refine Nat.le_trans (Nat.mul_le_mul_right pageSize ?_) (Nat.not_lt.mp hpast)
        omega
    · show disk.count < manager.currentPages * 2
      omega
  next hroom =>
    refine ⟨h, ?_⟩
    omega

theorem inside (h : manager.Follows disk) (hs : s ≤ disk.count) :
    s * pageSize + pageSize ≤ manager.dbFile.file.size := by
  rw [h.fileSize_eq, ← Nat.succ_mul]
  have := h.count_le
  exact Nat.mul_le_mul_right pageSize (by omega)

theorem holds (h : manager.Follows disk) (hs : s ≤ disk.count) :
    manager.dbFile.file.Holds (s * pageSize) (disk.contents s) :=
  ⟨h.inside hs, h.bytes_eq s⟩

/-- Reading a known page leaves every page where it is. -/
theorem read_known (h : manager.Follows disk) (hid : 0 ≤ id) (hslot : disk.slot id = some s)
    (buffer : PageBuffer) :
    ∃ manager', readPage id buffer manager = .ok (disk.contents s) manager' ∧
      manager'.Follows disk := by
  have hfind : manager.pages.find? id = some (s * pageSize) := by
    rw [h.find_eq, hslot]
    rfl
  have hholds := h.holds (disk.slot_le id s hslot)
  have hready : manager.readyToRead id = manager := by
    rw [readyToRead, hfind, withEntry_of_some hfind]
    rfl
  have hoffset : manager.offsetAtRead id = s * pageSize := by
    rw [offsetAtRead, hfind]
    rfl
  have hread : readPage id buffer manager = readAt id (s * pageSize) buffer manager := by
    rw [readPage_ready hid, hready, hoffset]
  refine ⟨_, hread.trans (readAt_of_holds h.working hholds id buffer), ?_⟩
  refine ⟨h.freeOffsets_eq, ?_, ?_, fun other => ?_, h.currentPages_pos, h.count_le,
    h.fileSize_eq, h.bytes_eq⟩
  · exact FileStream.afterRead_of_inside h.working hholds.inside
  · exact (UnorderedMap.size_assign_of_some hfind _).trans h.size_eq
  · by_cases heq : other = id
    · rw [heq, UnorderedMap.find?_assign_self, hslot]
      rfl
    · exact (UnorderedMap.find?_assign_ne heq).trans (h.find_eq other)

/-- Reading a page for the first time gives it the slot behind the known pages. -/
theorem read_unknown (h : manager.Follows disk) (hid : 0 ≤ id) (hslot : disk.slot id = none)
    (buffer : PageBuffer) :
    ∃ manager', readPage id buffer manager = .ok (disk.contents disk.count) manager' ∧
      manager'.Follows (disk.met id) := by
  obtain ⟨hgrown, hroom⟩ := h.grown
  have hfind : manager.pages.find? id = none := by
    rw [h.find_eq, hslot]
    rfl
  have hholds := hgrown.holds (Nat.le_refl disk.count)
  have hready : manager.readyToRead id = manager.grown := by
    rw [readyToRead, hfind, afterAllocation_of_nil h.freeOffsets_eq]
    rfl
  have hoffset : manager.offsetAtRead id = disk.count * pageSize := by
    rw [offsetAtRead, hfind, allocated_of_nil h.freeOffsets_eq, h.size_eq]
    rfl
  have hread : readPage id buffer manager =
      readAt id (disk.count * pageSize) buffer manager.grown := by
    rw [readPage_ready hid, hready, hoffset]
  refine ⟨_, hread.trans (readAt_of_holds hgrown.working hholds id buffer), ?_⟩
  refine ⟨hgrown.freeOffsets_eq, ?_, ?_, fun other => ?_, hgrown.currentPages_pos, hroom,
    hgrown.fileSize_eq, hgrown.bytes_eq⟩
  · exact FileStream.afterRead_of_inside hgrown.working hholds.inside
  · rw [grown_pages]
    exact (UnorderedMap.size_assign_of_none hfind _).trans (congrArg Nat.succ h.size_eq)
  · by_cases heq : other = id
    · rw [heq, UnorderedMap.find?_assign_self, SlotDisk.slot_met_self]
      rfl
    · rw [SlotDisk.slot_met_ne heq]
      exact (UnorderedMap.find?_assign_ne heq).trans (hgrown.find_eq other)

/-- Writing a known page moves it to the slot behind the known pages. -/
theorem write_known (h : manager.Follows disk) (hid : 0 ≤ id) (hslot : disk.slot id = some s)
    (buffer : PageBuffer) :
    ∃ manager', writePage id buffer manager = .ok () manager' ∧
      manager'.Follows (disk.writePage id buffer) := by
  obtain ⟨hgrown, hroom⟩ := h.grown
  have hfind : manager.pages.find? id = some (s * pageSize) := by
    rw [h.find_eq, hslot]
    rfl
  have hready : manager.readyToWrite id = manager.grown := by
    rw [readyToWrite, hfind, afterAllocation_of_nil h.freeOffsets_eq]
    rfl
  have hoffset : manager.offsetAtWrite id = disk.count * pageSize := by
    rw [offsetAtWrite, hfind, allocated_of_nil h.freeOffsets_eq, h.size_eq]
    rfl
  have hwrite : writePage id buffer manager =
      writeAt id (disk.count * pageSize) buffer manager.grown := by
    rw [writePage_ready hid, hready, hoffset]
  refine ⟨_, hwrite.trans (writeAt_eq hgrown.working id _ buffer), ?_⟩
  refine ⟨hgrown.freeOffsets_eq, rfl, ?_, fun other => ?_, hgrown.currentPages_pos,
    hgrown.count_le, ?_, fun t i => ?_⟩
  · rw [grown_pages]
    exact (UnorderedMap.size_assign_of_some hfind _).trans h.size_eq
  · by_cases heq : other = id
    · rw [heq, UnorderedMap.find?_assign_self, SlotDisk.slot_writePage_self]
      rfl
    · rw [SlotDisk.slot_writePage_ne heq]
      exact (UnorderedMap.find?_assign_ne heq).trans (hgrown.find_eq other)
  · exact (Nat.max_eq_left (hgrown.inside (Nat.le_refl disk.count))).trans hgrown.fileSize_eq
  · by_cases heq : t = disk.count
    · rw [heq, SlotDisk.contents_writePage_self]
      exact (File.holds_write _ _ buffer).bytes_eq i
    · rw [SlotDisk.contents_writePage_ne heq]
      exact (dif_neg (not_inside_slot heq i)).trans (hgrown.bytes_eq t i)

end Follows

end DiskManager

/-! ## Runs -/

/-- What the calls of a list deliver in turn; a write delivers nothing. -/
def DiskManager.serve : List DiskOp → Prog DiskManager (List (Option PageBuffer))
  | [] => return []
  | .writePage id buffer :: rest => do
      writePage id buffer
      return none :: (← serve rest)
  | .readPage id buffer :: rest => do
      let page ← readPage id buffer
      return some page :: (← serve rest)

/-- What the row of slots makes of the same calls. -/
def SlotDisk.serve : List DiskOp → SlotDisk PageBuffer →
    List (Option PageBuffer) × SlotDisk PageBuffer
  | [], disk => ([], disk)
  | .writePage id buffer :: rest, disk =>
      let served := serve rest (disk.writePage id buffer)
      (none :: served.1, served.2)
  | .readPage id _ :: rest, disk =>
      let served := serve rest (disk.readPage id).2
      (some (disk.readPage id).1 :: served.1, served.2)

/-- Every page is read before it is first written; those of `seen` have been read before. -/
def ReadsFirst : List PageId → List DiskOp → Prop
  | _, [] => True
  | seen, .writePage id _ :: rest => id ∈ seen ∧ ReadsFirst seen rest
  | seen, .readPage id _ :: rest => 0 ≤ id ∧ ReadsFirst (id :: seen) rest

namespace DiskManager.Follows

variable {manager : DiskManager} {disk : SlotDisk PageBuffer} {id : PageId} {s : Nat}

theorem read (h : manager.Follows disk) (hid : 0 ≤ id) (buffer : PageBuffer) :
    ∃ manager', readPage id buffer manager = .ok (disk.readPage id).1 manager' ∧
      manager'.Follows (disk.readPage id).2 := by
  cases hslot : disk.slot id with
  | some s =>
      rw [SlotDisk.readPage_of_some hslot]
      exact h.read_known hid hslot buffer
  | none =>
      rw [SlotDisk.readPage_of_none hslot]
      exact h.read_unknown hid hslot buffer

/-- The calls of a list, from a manager that has met some pages. -/
theorem serve (h : manager.Follows disk) {seen : List PageId}
    (hseen : ∀ id ∈ seen, 0 ≤ id ∧ ∃ s, disk.slot id = some s) {ops : List DiskOp}
    (hfirst : ReadsFirst seen ops) :
    ∃ manager', DiskManager.serve ops manager = .ok (disk.serve ops).1 manager' ∧
      manager'.Follows (disk.serve ops).2 := by
  induction ops generalizing manager disk seen with
  | nil => exact ⟨manager, rfl, h⟩
  | cons op rest ih =>
      cases op with
      | writePage id buffer =>
          obtain ⟨hmem, hrest⟩ := hfirst
          obtain ⟨hid, s, hslot⟩ := hseen id hmem
          obtain ⟨next, hwrite, hnext⟩ := h.write_known hid hslot buffer
          obtain ⟨final, hserve, hfinal⟩ := ih hnext
            (fun other hother => (hseen other hother).imp_right SlotDisk.known_writePage) hrest
          refine ⟨final, ?_, hfinal⟩
          rw [DiskManager.serve, bind_of_ok hwrite, bind_of_ok hserve]
          rfl
      | readPage id buffer =>
          obtain ⟨hid, hrest⟩ := hfirst
          obtain ⟨next, hread, hnext⟩ := h.read hid buffer
          have hseen' : ∀ other ∈ id :: seen,
              0 ≤ other ∧ ∃ s, (disk.readPage id).2.slot other = some s := by
            intro other hother
            rcases List.mem_cons.mp hother with rfl | hother
            · exact ⟨hid, SlotDisk.known_readPage_self⟩
            · exact (hseen other hother).imp_right SlotDisk.known_readPage
          obtain ⟨final, hserve, hfinal⟩ := ih hnext hseen' hrest
          refine ⟨final, ?_, hfinal⟩
          rw [DiskManager.serve, bind_of_ok hread, bind_of_ok hserve]
          rfl

end DiskManager.Follows

/--
When every page is read before it is written, every call of the disk manager
returns, on any file, and the reads deliver what the row of slots holds.
-/
theorem DiskManager.serves_slots (existing : Option File) {ops : List DiskOp}
    (hfirst : ReadsFirst [] ops) :
    ∃ manager', serve ops (new existing) =
        .ok ((SlotDisk.unmet (slotsOf existing)).serve ops).1 manager' ∧
      manager'.Follows ((SlotDisk.unmet (slotsOf existing)).serve ops).2 :=
  (follows_new existing).serve (fun _ hmem => absurd hmem List.not_mem_nil) hfirst

/-- A page that is read, written and read again. -/
theorem DiskManager.one_page_served :
    ∃ manager', serve [.readPage 0 (DiskSession.filled 0), .writePage 0 (DiskSession.filled 1),
        .readPage 0 (DiskSession.filled 0)] (new none) =
      .ok [some (slotsOf none 0), none, some (DiskSession.filled 1)] manager' := by
  obtain ⟨manager', hserve, _⟩ := serves_slots none
    (show ReadsFirst [] [.readPage 0 (DiskSession.filled 0), .writePage 0 (DiskSession.filled 1),
      .readPage 0 (DiskSession.filled 0)] by simp [ReadsFirst])
  refine ⟨manager', hserve.trans ?_⟩
  simp [SlotDisk.serve, SlotDisk.readPage, SlotDisk.unmet, SlotDisk.met, SlotDisk.writePage]

/-! ## Reading back -/

/-- The pages a list of calls reads. -/
def readIds (ops : List DiskOp) : List PageId :=
  ops.filterMap fun op =>
    match op with
    | .readPage id _ => some id
    | .writePage _ _ => none

/--
What becomes of bytes written while the pages of `seen` are known: until another
page is met, each write overwrites them, whichever page it is of.
-/
def lastInSlot (seen : List PageId) (data : PageBuffer) : List DiskOp → PageBuffer
  | [] => data
  | .writePage _ buffer :: rest => lastInSlot seen buffer rest
  | .readPage id _ :: rest => if id ∈ seen then lastInSlot seen data rest else data

theorem ReadsFirst.mono {seen more : List PageId} {ops : List DiskOp} (h : ReadsFirst seen ops)
    (hmore : ∀ id ∈ seen, id ∈ more) : ReadsFirst more ops := by
  induction ops generalizing seen more with
  | nil => trivial
  | cons op rest ih =>
      cases op with
      | writePage id buffer => exact ⟨hmore id h.1, ih h.2 hmore⟩
      | readPage id buffer =>
          exact ⟨h.1, ih h.2 fun other hother =>
            List.mem_cons.mpr ((List.mem_cons.mp hother).imp_right (hmore other))⟩

theorem ReadsFirst.of_append {seen : List PageId} {first second : List DiskOp}
    (h : ReadsFirst seen (first ++ second)) :
    ReadsFirst seen first ∧ ReadsFirst (readIds first ++ seen) second := by
  induction first generalizing seen with
  | nil => exact ⟨trivial, h⟩
  | cons op rest ih =>
      cases op with
      | writePage id buffer => exact ⟨⟨h.1, (ih h.2).1⟩, (ih h.2).2⟩
      | readPage id buffer =>
          exact ⟨⟨h.1, (ih h.2).1⟩, (ih h.2).2.mono fun _ => List.perm_middle.mem_iff.mp⟩

theorem ReadsFirst.nonneg {seen : List PageId} {ops : List DiskOp} (h : ReadsFirst seen ops)
    {id : PageId} (hid : id ∈ readIds ops) : 0 ≤ id := by
  induction ops generalizing seen with
  | nil => cases hid
  | cons op rest ih =>
      cases op with
      | writePage other buffer => exact ih h.2 hid
      | readPage other buffer =>
          rcases List.mem_cons.mp hid with rfl | hid
          · exact h.1
          · exact ih h.2 hid

namespace SlotDisk

variable {disk : SlotDisk PageBuffer} {seen : List PageId} {ops : List DiskOp} {id : PageId}
  {n : Nat}

theorem serve_append (first second : List DiskOp) (disk : SlotDisk PageBuffer) :
    serve (first ++ second) disk =
      ((serve first disk).1 ++ (serve second (serve first disk).2).1,
        (serve second (serve first disk).2).2) := by
  induction first generalizing disk with
  | nil => rfl
  | cons op rest ih => cases op <;> simp only [List.cons_append, serve, ih]

/-- The pages of the list are the known ones. -/
def Knows (disk : SlotDisk PageBuffer) (seen : List PageId) : Prop :=
  ∀ id, id ∈ seen ↔ ∃ s, disk.slot id = some s

theorem Knows.writePage (h : disk.Knows seen) (hmem : id ∈ seen) (data : PageBuffer) :
    (disk.writePage id data).Knows seen := by
  intro other
  by_cases heq : other = id
  · exact iff_of_true (heq ▸ hmem) ⟨disk.count, heq ▸ slot_writePage_self⟩
  · rw [slot_writePage_ne heq]
    exact h other

theorem Knows.readPage (h : disk.Knows seen) (id : PageId) :
    (disk.readPage id).2.Knows (id :: seen) := by
  intro other
  by_cases heq : other = id
  · exact iff_of_true (heq ▸ List.mem_cons_self) (heq ▸ known_readPage_self)
  · rw [List.mem_cons, or_iff_right heq, h other]
    cases hslot : disk.slot id with
    | some s => rw [readPage_of_some hslot]
    | none => rw [readPage_of_none hslot, slot_met_ne heq]

theorem Knows.serve (h : disk.Knows seen) (hfirst : ReadsFirst seen ops) :
    (SlotDisk.serve ops disk).2.Knows (readIds ops ++ seen) := by
  induction ops generalizing disk seen with
  | nil => exact h
  | cons op rest ih =>
      cases op with
      | writePage id buffer => exact ih (h.writePage hfirst.1 buffer) hfirst.2
      | readPage id buffer =>
          exact fun other => List.perm_middle.mem_iff.symm.trans (ih (h.readPage id) hfirst.2 other)

/-- A slot that pages have been met behind is left alone, and so are the pages in it. -/
theorem serve_behind (hslot : disk.slot id = some n) (hbehind : n < disk.count)
    (hunwritten : ∀ buffer, .writePage id buffer ∉ ops) :
    (serve ops disk).2.slot id = some n ∧
      (serve ops disk).2.contents n = disk.contents n := by
  induction ops generalizing disk with
  | nil => exact ⟨hslot, rfl⟩
  | cons op rest ih =>
      have hrest : ∀ buffer, .writePage id buffer ∉ rest :=
        fun buffer hmem => hunwritten buffer (List.mem_cons_of_mem _ hmem)
      cases op with
      | writePage other buffer =>
          have hne : id ≠ other := by
            rintro rfl
            exact hunwritten buffer List.mem_cons_self
          have hcontents : (disk.writePage other buffer).contents n = disk.contents n :=
            contents_writePage_ne (Nat.ne_of_lt hbehind)
          rw [← hcontents]
          exact ih ((slot_writePage_ne hne).trans hslot) hbehind hrest
      | readPage other buffer =>
          cases hother : disk.slot other with
          | some s =>
              rw [serve, readPage_of_some hother]
              exact ih hslot hbehind hrest
          | none =>
              have hne : id ≠ other := by
                rintro rfl
                cases hother.symm.trans hslot
              rw [serve, readPage_of_none hother]
              exact ih ((slot_met_ne hne).trans hslot) (Nat.lt_succ_of_lt hbehind) hrest

/-- The bytes of a page that is in the slot written to. -/
theorem serve_lastInSlot (h : disk.Knows seen) (hslot : disk.slot id = some disk.count)
    (hfirst : ReadsFirst seen ops) (hunwritten : ∀ buffer, .writePage id buffer ∉ ops) :
    (serve ops disk).2.slot id = some disk.count ∧
      (serve ops disk).2.contents disk.count =
        lastInSlot seen (disk.contents disk.count) ops := by
  induction ops generalizing disk with
  | nil => exact ⟨hslot, rfl⟩
  | cons op rest ih =>
      have hrest : ∀ buffer, .writePage id buffer ∉ rest :=
        fun buffer hmem => hunwritten buffer (List.mem_cons_of_mem _ hmem)
      cases op with
      | writePage other buffer =>
          have hne : id ≠ other := by
            rintro rfl
            exact hunwritten buffer List.mem_cons_self
          obtain ⟨hslot', hcontents⟩ := ih (h.writePage hfirst.1 buffer)
            ((slot_writePage_ne hne).trans hslot) hfirst.2 hrest
          exact ⟨hslot',
            hcontents.trans (congrArg (lastInSlot seen · rest) contents_writePage_self)⟩
      | readPage other buffer =>
          rw [lastInSlot]
          cases hother : disk.slot other with
          | some s =>
              have hmem := (h other).mpr ⟨s, hother⟩
              have hknown : ∀ id ∈ other :: seen, id ∈ seen := by
                intro id hid
                rcases List.mem_cons.mp hid with rfl | hid
                · exact hmem
                · exact hid
              rw [serve, readPage_of_some hother, if_pos hmem]
              exact ih h hslot (hfirst.2.mono hknown) hrest
          | none =>
              have hnot : other ∉ seen := fun hmem => by
                obtain ⟨s, hs⟩ := (h other).mp hmem
                cases hother.symm.trans hs
              have hne : id ≠ other := by
                rintro rfl
                cases hother.symm.trans hslot
              rw [serve, readPage_of_none hother, if_neg hnot]
              exact serve_behind ((slot_met_ne hne).trans hslot) (Nat.lt_succ_self _) hrest

end SlotDisk

/--
When every page is read before it is written, a page reads as what has last been
written to any page before another page was met: a write of another page is as
good as one of its own.
-/
theorem DiskManager.reads_last_write_in_slot (existing : Option File) {before between : List DiskOp}
    {id : PageId} {data : PageBuffer}
    (hfirst : ReadsFirst [] (before ++ .writePage id data :: between))
    (hunwritten : ∀ other, .writePage id other ∉ between) :
    ∃ answers manager', serve (before ++ .writePage id data :: between) (new existing) =
        .ok answers manager' ∧
      ∀ buffer, ∃ manager'', readPage id buffer manager' =
        .ok (lastInSlot (readIds before) data between) manager'' := by
  obtain ⟨manager', hserve, hfollows⟩ :=
    (follows_new existing).serve (fun _ hmem => absurd hmem List.not_mem_nil) hfirst
  refine ⟨_, manager', hserve, fun buffer => ?_⟩
  obtain ⟨hbefore, hmem, hafter⟩ := hfirst.of_append
  rw [List.append_nil] at hmem hafter
  have hunmet : (SlotDisk.unmet (slotsOf existing)).Knows [] := fun _ =>
    iff_of_false List.not_mem_nil fun ⟨_, hslot⟩ => nomatch hslot
  have hknows := hunmet.serve hbefore
  rw [List.append_nil] at hknows
  obtain ⟨hslot, hcontents⟩ := SlotDisk.serve_lastInSlot (hknows.writePage hmem data)
    SlotDisk.slot_writePage_self hafter hunwritten
  rw [SlotDisk.serve_append] at hfollows
  obtain ⟨manager'', hread, _⟩ := hfollows.read_known (hbefore.nonneg hmem) hslot buffer
  refine ⟨manager'', hread.trans (congrArg (EStateM.Result.ok · manager'') ?_)⟩
  exact hcontents.trans
    (congrArg (lastInSlot (readIds before) · between) SlotDisk.contents_writePage_self)

/-- A write of the second page is read as the first one. -/
theorem DiskManager.second_write_read_as_first :
    ∃ answers manager', serve ([.readPage 0 (DiskSession.filled 0),
        .readPage 1 (DiskSession.filled 0)] ++ .writePage 0 (DiskSession.filled 1) ::
          [.writePage 1 (DiskSession.filled 2)]) (new none) = .ok answers manager' ∧
      ∀ buffer, ∃ manager'', readPage 0 buffer manager' =
        .ok (DiskSession.filled 2) manager'' :=
  reads_last_write_in_slot none (by simp [ReadsFirst]) (by simp)

end HiveDb
