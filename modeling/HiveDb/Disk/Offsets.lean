import HiveDb.Disk.PageMap

/-!
# The offsets of pages

Every offset that has been handed out is to belong to one page or to be free.
Reading and deleting pages keep that; the first write of a page, which always
goes to offset zero, keeps it only when no offset has been handed out before,
and a page that is written again loses the offset it had.
-/

namespace HiveDb

open HiveDb.Lib

namespace DiskManager

/-! ## Calls with free offsets -/

/-- The manager after `write_page`. -/
def afterWrite (manager : DiskManager) (id : PageId) (buffer : PageBuffer) : DiskManager :=
  { manager.readyToWrite id with
    pages := (manager.readyToWrite id).pages.assign id (manager.offsetAtWrite id)
    dbFile := ((manager.readyToWrite id).dbFile.seekg (manager.offsetAtWrite id)).write buffer }

/-- The manager after a call of `read_page` that returns. -/
def afterRead (manager : DiskManager) (id : PageId) : DiskManager :=
  { manager.readyToRead id with
    pages := (manager.readyToRead id).pages.assign id (manager.offsetAtRead id)
    dbFile :=
      ((manager.readyToRead id).dbFile.seekg (manager.offsetAtRead id)).afterRead pageSize }

/-- The manager after `delete_page` of a page at an offset. -/
def afterDelete (manager : DiskManager) (id : PageId) (offset : Offset) : DiskManager :=
  { manager with
    pages := manager.pages.erase id
    freeOffsets := offset :: manager.freeOffsets
    dbFile := manager.dbFile.seekg offset }

variable {manager : DiskManager} {id other : PageId} {offset : Offset} {buffer : PageBuffer}

theorem withEntry_of_some (hfind : manager.pages.find? id = some offset) :
    manager.withEntry id = manager := by
  rw [withEntry, UnorderedMap.emplace_of_some hfind]

theorem writePage_ok (hid : 0 ≤ id) :
    writePage id buffer manager = .ok () (manager.afterWrite id buffer) := by
  rw [writePage_ready hid]
  rfl

/-- `read_page` returns unless the offset is past the end of the file. -/
theorem readPage_ok (hid : 0 ≤ id)
    (hinside : manager.offsetAtRead id ≤ (manager.readyToRead id).dbFile.file.size)
    (buffer : PageBuffer) :
    ∃ page, readPage id buffer manager = .ok page (manager.afterRead id) := by
  rw [readPage_ready hid, readAt,
    bind_of_ok (show getFileSize (manager.readyToRead id) = .ok _ _ from rfl),
    if_neg (Nat.not_lt.mpr hinside)]
  exact ⟨_, rfl⟩

theorem readPage_throws (hid : 0 ≤ id)
    (hpast : (manager.readyToRead id).dbFile.file.size < manager.offsetAtRead id)
    (buffer : PageBuffer) :
    ∃ message, readPage id buffer manager =
      .error (.runtimeError message) (manager.readyToRead id) := by
  rw [readPage_ready hid]
  exact ⟨_, readAt_of_past hpast id buffer⟩

theorem deletePage_ok (hid : 0 ≤ id) (hfind : manager.pages.find? id = some offset) :
    deletePage id manager = .ok () (manager.afterDelete id offset) := by
  rw [deletePage, bind_of_ok (checkId_eq hid manager), bind_of_ok (get_apply manager), hfind,
    Option.isNone_some, if_neg Bool.false_ne_true, bind_of_ok (offsetOf_of_some hfind),
    withEntry_of_some hfind]
  rfl

/-! ## The pages after a call -/

theorem find?_withEntry_ne (hne : other ≠ id) :
    (manager.withEntry id).pages.find? other = manager.pages.find? other :=
  UnorderedMap.find?_emplace_ne hne

/-- The page written has the offset chosen, the others have theirs. -/
theorem find?_afterWrite (other : PageId) :
    (manager.afterWrite id buffer).pages.find? other =
      if other = id then some (manager.offsetAtWrite id) else manager.pages.find? other := by
  rw [afterWrite]
  by_cases heq : other = id
  · rw [if_pos heq, heq, UnorderedMap.find?_assign_self]
  · rw [if_neg heq, UnorderedMap.find?_assign_ne heq, readyToWrite]
    split
    · rw [afterAllocation_pages]
    · exact find?_withEntry_ne heq

/-- The page read has the offset chosen, the others have theirs. -/
theorem find?_afterRead (other : PageId) :
    (manager.afterRead id).pages.find? other =
      if other = id then some (manager.offsetAtRead id) else manager.pages.find? other := by
  rw [afterRead]
  by_cases heq : other = id
  · rw [if_pos heq, heq, UnorderedMap.find?_assign_self]
  · rw [if_neg heq, UnorderedMap.find?_assign_ne heq, readyToRead]
    split
    · exact find?_withEntry_ne heq
    · rw [afterAllocation_pages]

theorem find?_afterWrite_self :
    (manager.afterWrite id buffer).pages.find? id = some (manager.offsetAtWrite id) :=
  (find?_afterWrite id).trans (if_pos rfl)

theorem find?_afterRead_self :
    (manager.afterRead id).pages.find? id = some (manager.offsetAtRead id) :=
  (find?_afterRead id).trans (if_pos rfl)

theorem size_le_afterWrite (manager : DiskManager) (id : PageId) (buffer : PageBuffer) :
    manager.pages.size ≤ (manager.afterWrite id buffer).pages.size := by
  refine Nat.le_trans ?_ UnorderedMap.size_le_assign
  rw [readyToWrite]
  split
  · rw [afterAllocation_pages]
  · exact UnorderedMap.size_le_emplace

theorem size_le_afterRead (manager : DiskManager) (id : PageId) :
    manager.pages.size ≤ (manager.afterRead id).pages.size := by
  refine Nat.le_trans ?_ UnorderedMap.size_le_assign
  rw [readyToRead]
  split
  · exact UnorderedMap.size_le_emplace
  · rw [afterAllocation_pages]

end DiskManager

/-! ## Runs with deletions -/

/-- A call on pages. -/
inductive PageCall where
  | writePage (id : PageId) (buffer : PageBuffer)
  | readPage (id : PageId) (buffer : PageBuffer)
  | deletePage (id : PageId)

/-- A disk manager with the offsets its calls have chosen. -/
structure OffsetLedger where
  manager : DiskManager
  handedOut : List Offset

namespace OffsetLedger

open DiskManager

def start (existing : Option File) : OffsetLedger := ⟨.new existing, []⟩

/--
A call that returns or throws; only known pages are deleted, and all that is known
of the write in `delete_page` is that it does not cut the file off.
-/
inductive Step : OffsetLedger → PageCall → OffsetLedger → Prop where
  | writePage {s : OffsetLedger} {id : PageId} {buffer : PageBuffer} {manager' : DiskManager}
      (nonneg : 0 ≤ id) (leaves : Leaves (DiskManager.writePage id buffer) s.manager manager') :
      Step s (.writePage id buffer) ⟨manager', s.manager.offsetAtWrite id :: s.handedOut⟩
  | readPage {s : OffsetLedger} {id : PageId} {buffer : PageBuffer} {manager' : DiskManager}
      (nonneg : 0 ≤ id) (leaves : Leaves (DiskManager.readPage id buffer) s.manager manager') :
      Step s (.readPage id buffer) ⟨manager', s.manager.offsetAtRead id :: s.handedOut⟩
  | deletePage {s : OffsetLedger} {id : PageId} {offset : Offset} {manager' : DiskManager}
      {stream : FileStream} (nonneg : 0 ≤ id) (known : s.manager.pages.find? id = some offset)
      (leaves : Leaves (DiskManager.deletePage id) s.manager manager')
      (size_le : manager'.dbFile.file.size ≤ stream.file.size) :
      Step s (.deletePage id) ⟨{ manager' with dbFile := stream }, s.handedOut⟩

/-- Every offset handed out belongs to one page or is free. -/
structure OwnedOnce (s : OffsetLedger) : Prop where
  pages_aligned : ∀ {id offset}, s.manager.pages.find? id = some offset → pageSize ∣ offset
  free_aligned : ∀ {offset}, offset ∈ s.manager.freeOffsets → pageSize ∣ offset
  owner_unique : ∀ {id other offset}, s.manager.pages.find? id = some offset →
    s.manager.pages.find? other = some offset → id = other
  free_nodup : s.manager.freeOffsets.Nodup
  free_not_owned : ∀ {id offset}, s.manager.pages.find? id = some offset →
    offset ∉ s.manager.freeOffsets
  kept : ∀ offset ∈ s.handedOut,
    (∃ id, s.manager.pages.find? id = some offset) ∨ offset ∈ s.manager.freeOffsets

/-- A page is written only while no page is known and no offset is free. -/
def WritesFirst (s : OffsetLedger) : PageCall → Prop
  | .writePage _ _ => s.manager.pages.size = 0 ∧ s.manager.freeOffsets = []
  | _ => True

def FirstStep (s : OffsetLedger) (call : PageCall) (s' : OffsetLedger) : Prop :=
  Step s call s' ∧ s.WritesFirst call

/-- The offsets of the first `n` pages of a file. -/
def firstOffsets (n : Nat) : List Offset := (List.range n).map (· * pageSize)

theorem firstOffsets_succ (n : Nat) :
    (firstOffsets (n + 1)).Perm (n * pageSize :: firstOffsets n) := by
  rw [firstOffsets, List.range_succ, List.map_append]
  exact List.perm_append_singleton _ _

theorem mem_firstOffsets_iff {n : Nat} {offset : Offset} :
    offset ∈ firstOffsets n ↔ ∃ i < n, i * pageSize = offset := by
  rw [firstOffsets, List.mem_map]
  exact ⟨fun ⟨i, hi, heq⟩ => ⟨i, List.mem_range.mp hi, heq⟩,
    fun ⟨i, hi, heq⟩ => ⟨i, List.mem_range.mpr hi, heq⟩⟩

theorem firstOffsets_nodup (n : Nat) : (firstOffsets n).Nodup :=
  List.nodup_range.map fun _ _ heq => Nat.eq_of_mul_eq_mul_right (by decide) heq

/--
The offsets of pages and the free ones are those of the first `n` pages, all of
which have been handed out; the file has room for one page more.
-/
structure Compact (s : OffsetLedger) (n : Nat) : Prop where
  perm : (s.manager.pages.values ++ s.manager.freeOffsets).Perm (firstOffsets n)
  handedOut_iff : ∀ offset, offset ∈ s.handedOut ↔ offset ∈ firstOffsets n
  currentPages_pos : 0 < s.manager.currentPages
  count_le : n ≤ s.manager.currentPages
  room : (s.manager.currentPages + 1) * pageSize ≤ s.manager.dbFile.file.size

namespace Compact

variable {s s' : OffsetLedger} {n : Nat} {id other : PageId} {offset : Offset}

theorem start (existing : Option File) : (start existing).Compact 0 where
  perm := .refl _
  handedOut_iff _ := iff_of_false List.not_mem_nil List.not_mem_nil
  currentPages_pos := Nat.succ_pos _
  count_le := Nat.zero_le _
  room := Nat.le_refl _

theorem owned_mem (h : s.Compact n) (hfind : s.manager.pages.find? id = some offset) :
    offset ∈ firstOffsets n :=
  h.perm.mem_iff.mp (List.mem_append_left _ (UnorderedMap.mem_values_of_find? hfind))

theorem free_mem (h : s.Compact n) (hfree : offset ∈ s.manager.freeOffsets) :
    offset ∈ firstOffsets n :=
  h.perm.mem_iff.mp (List.mem_append_right _ hfree)

theorem nodup (h : s.Compact n) :
    (s.manager.pages.values ++ s.manager.freeOffsets).Nodup :=
  h.perm.nodup_iff.mpr (firstOffsets_nodup n)

theorem length_eq (h : s.Compact n) :
    s.manager.pages.size + s.manager.freeOffsets.length = n := by
  have hlength := h.perm.length_eq
  rw [List.length_append, ← UnorderedMap.size_eq_length_values, firstOffsets, List.length_map,
    List.length_range] at hlength
  exact hlength

theorem aligned {n : Nat} (hmem : offset ∈ firstOffsets n) : pageSize ∣ offset := by
  obtain ⟨i, _, rfl⟩ := mem_firstOffsets_iff.mp hmem
  exact Nat.dvd_mul_left _ _

theorem ownedOnce (h : s.Compact n) : s.OwnedOnce where
  pages_aligned hfind := aligned (h.owned_mem hfind)
  free_aligned hfree := aligned (h.free_mem hfree)
  owner_unique {id other offset} hfind hother := by
    have hvalues : s.manager.pages.values.Nodup := h.nodup.of_append_left
    exact congrArg Prod.fst (List.inj_on_of_nodup_map hvalues
      (UnorderedMap.mem_pairs_iff.mpr hfind) (UnorderedMap.mem_pairs_iff.mpr hother) rfl)
  free_nodup := h.nodup.of_append_right
  free_not_owned hfind hfree :=
    List.disjoint_of_nodup_append h.nodup (UnorderedMap.mem_values_of_find? hfind) hfree
  kept offset hmem := by
    have hboth := h.perm.mem_iff.mpr ((h.handedOut_iff offset).mp hmem)
    refine (List.mem_append.mp hboth).imp_left fun howned => ?_
    obtain ⟨⟨id, _⟩, hpair, rfl⟩ := List.mem_map.mp howned
    exact ⟨id, UnorderedMap.mem_pairs_iff.mp hpair⟩

/-- The offset of a page that is read is inside the file. -/
theorem offset_le_size (h : s.Compact n) (hmem : offset ∈ firstOffsets n) :
    offset ≤ s.manager.dbFile.file.size := by
  obtain ⟨i, hi, rfl⟩ := mem_firstOffsets_iff.mp hmem
  have hle : i ≤ s.manager.currentPages + 1 := by
    have hcount := h.count_le
    omega
  exact Nat.le_trans (Nat.mul_le_mul_right pageSize hle) h.room

/-- An allocation takes a free offset or that of one page more. -/
theorem allocation (h : s.Compact n) :
    ∃ m, (s.manager.allocated :: (s.manager.afterAllocation.pages.values ++
        s.manager.afterAllocation.freeOffsets)).Perm (firstOffsets m) ∧
      (∀ offset, offset ∈ firstOffsets m ↔
        offset = s.manager.allocated ∨ offset ∈ firstOffsets n) ∧
      s.manager.afterAllocation.pages = s.manager.pages ∧
      0 < s.manager.afterAllocation.currentPages ∧ m ≤ s.manager.afterAllocation.currentPages ∧
      (s.manager.afterAllocation.currentPages + 1) * pageSize ≤
        s.manager.afterAllocation.dbFile.file.size := by
  have hpos := h.currentPages_pos
  have hcount := h.count_le
  have hlength := h.length_eq
  have hperm := h.perm
  unfold allocated afterAllocation
  cases hfree : s.manager.freeOffsets with
  | cons offset rest =>
      rw [hfree] at hperm
      have hmem : offset ∈ firstOffsets n := h.free_mem (hfree ▸ List.mem_cons_self)
      refine ⟨n, List.perm_middle.symm.trans hperm, fun other => ?_, rfl, hpos, hcount, h.room⟩
      exact ⟨.inr, fun h => h.elim (fun heq => heq ▸ hmem) id⟩
  | nil =>
      rw [hfree, List.length_nil, Nat.add_zero] at hlength
      rw [hfree] at hperm
      refine ⟨n + 1, ?_, fun other => ?_, grown_pages, ?_⟩
      · rw [grown_pages, grown_freeOffsets, hfree, List.headD_nil, hlength]
        exact (hperm.cons _).trans (firstOffsets_succ n).symm
      · rw [(firstOffsets_succ n).mem_iff, List.mem_cons, List.headD_nil, hlength]
      · rw [grown]
        by_cases hfull : s.manager.pages.size + 1 ≥ s.manager.currentPages
        · rw [if_pos hfull]
          exact ⟨Nat.mul_pos hpos Nat.two_pos, by dsimp only; omega, Nat.le_refl _⟩
        · rw [if_neg hfull]
          exact ⟨hpos, hlength ▸ Nat.le_of_lt (Nat.not_le.mp hfull), h.room⟩

/-- Reading a page keeps the offsets apart, and returns. -/
theorem read {buffer : PageBuffer} {manager' : DiskManager} (h : s.Compact n) (hid : 0 ≤ id)
    (hleaves : Leaves (readPage id buffer) s.manager manager') :
    ∃ m, (OffsetLedger.mk manager' (s.manager.offsetAtRead id :: s.handedOut)).Compact m := by
  cases hfind : s.manager.pages.find? id with
  | none =>
      obtain ⟨m, hperm, hmem, hpages, hpos, hcount, hroom⟩ := h.allocation
      have hready : s.manager.readyToRead id = s.manager.afterAllocation := by
        rw [readyToRead, hfind]
        rfl
      have hoffset : s.manager.offsetAtRead id = s.manager.allocated := by
        rw [offsetAtRead, hfind]
        rfl
      obtain ⟨i, hi, hallocated⟩ := mem_firstOffsets_iff.mp ((hmem _).mpr (.inl rfl))
      have hinside : s.manager.offsetAtRead id ≤
          (s.manager.readyToRead id).dbFile.file.size := by
        rw [hready, hoffset, ← hallocated]
        exact Nat.le_trans (Nat.mul_le_mul_right pageSize (by omega)) hroom
      obtain ⟨_, hreturns⟩ := readPage_ok hid hinside buffer
      rw [hleaves.eq_of_ok hreturns]
      refine ⟨m, ?_, fun offset => ?_, ?_, ?_, ?_⟩
      · rw [afterRead, hready, hoffset]
        exact ((UnorderedMap.values_assign_perm (hpages ▸ hfind) _).append_right _).trans hperm
      · rw [List.mem_cons, hmem, hoffset, h.handedOut_iff]
      · rw [afterRead, hready]
        exact hpos
      · rw [afterRead, hready]
        exact hcount
      · rw [afterRead, hready, FileStream.afterRead_file, FileStream.seekg_file]
        exact hroom
  | some offset =>
      have hready : s.manager.readyToRead id = s.manager := by
        rw [readyToRead, hfind, withEntry_of_some hfind]
        rfl
      have hoffset : s.manager.offsetAtRead id = offset := by
        rw [offsetAtRead, hfind]
        rfl
      have hinside : s.manager.offsetAtRead id ≤
          (s.manager.readyToRead id).dbFile.file.size := by
        rw [hready, hoffset]
        exact h.offset_le_size (h.owned_mem hfind)
      obtain ⟨_, hreturns⟩ := readPage_ok hid hinside buffer
      rw [hleaves.eq_of_ok hreturns]
      refine ⟨n, ?_, fun other => ?_, ?_, ?_, ?_⟩
      · rw [afterRead, hready, hoffset]
        exact ((UnorderedMap.values_assign_same_perm hfind).append_right _).trans h.perm
      · rw [List.mem_cons, hoffset, h.handedOut_iff]
        exact ⟨fun hother => hother.elim (fun heq => heq ▸ h.owned_mem hfind) (·), .inr⟩
      · rw [afterRead, hready]
        exact h.currentPages_pos
      · rw [afterRead, hready]
        exact h.count_le
      · rw [afterRead, hready, FileStream.afterRead_file, FileStream.seekg_file]
        exact h.room

/-- Deleting a page moves its offset to the free ones. -/
theorem delete {manager' : DiskManager} {stream : FileStream} (h : s.Compact n) (hid : 0 ≤ id)
    (hfind : s.manager.pages.find? id = some offset)
    (hleaves : Leaves (deletePage id) s.manager manager')
    (hsize : manager'.dbFile.file.size ≤ stream.file.size) :
    (OffsetLedger.mk { manager' with dbFile := stream } s.handedOut).Compact n := by
  cases hleaves.eq_of_ok (deletePage_ok hid hfind)
  rw [afterDelete, FileStream.seekg_file] at hsize
  refine ⟨?_, h.handedOut_iff, h.currentPages_pos, h.count_le, Nat.le_trans h.room hsize⟩
  have hvalues := (UnorderedMap.values_erase_perm hfind).append_right s.manager.freeOffsets
  exact List.perm_middle.trans (hvalues.symm.trans h.perm)

/-- The first of all writes takes offset zero. -/
theorem firstWrite {buffer : PageBuffer} {manager' : DiskManager} (h : s.Compact n)
    (hid : 0 ≤ id) (hfirst : s.WritesFirst (.writePage id buffer))
    (hleaves : Leaves (writePage id buffer) s.manager manager') :
    (OffsetLedger.mk manager' (s.manager.offsetAtWrite id :: s.handedOut)).Compact 1 := by
  obtain ⟨hpages, hfree⟩ := hfirst
  have hlength := h.length_eq
  rw [hpages, hfree, List.length_nil] at hlength
  subst hlength
  have hvalues : s.manager.pages.values = [] := by
    rw [← List.length_eq_zero_iff, ← UnorderedMap.size_eq_length_values, hpages]
  have hfind : s.manager.pages.find? id = none := by
    cases hfind : s.manager.pages.find? id with
    | none => rfl
    | some offset =>
        have hmem := UnorderedMap.mem_values_of_find? hfind
        rw [hvalues] at hmem
        cases hmem
  have hready : s.manager.readyToWrite id = s.manager.withEntry id := by
    rw [readyToWrite, hfind]
    rfl
  have hoffset : s.manager.offsetAtWrite id = 0 := by
    rw [offsetAtWrite, hfind]
    rfl
  have hentry : (s.manager.withEntry id).pages = s.manager.pages.assign id 0 :=
    UnorderedMap.emplace_of_none hfind
  cases hleaves.eq_of_ok (writePage_ok hid)
  have honly : firstOffsets 1 = [0] := rfl
  refine ⟨?_, fun offset => ?_, ?_, ?_, ?_⟩
  · have hentries := UnorderedMap.values_assign_perm hfind 0
    have hassigned : (s.manager.pages.assign id 0).find? id = some 0 :=
      UnorderedMap.find?_assign_self
    have hsame := UnorderedMap.values_assign_same_perm hassigned
    rw [hvalues] at hentries
    rw [afterWrite, hready, hoffset, hentry, honly]
    have hfree' : (s.manager.withEntry id).freeOffsets = [] := hfree
    rw [hfree', List.append_nil]
    exact hsame.trans hentries
  · have hnone : ∀ offset, offset ∉ s.handedOut := fun offset hmem =>
      List.not_mem_nil ((h.handedOut_iff offset).mp hmem)
    rw [List.mem_cons, hoffset, honly, List.mem_singleton]
    exact or_iff_left (hnone offset)
  · rw [afterWrite, hready]
    exact h.currentPages_pos
  · rw [afterWrite, hready]
    exact h.currentPages_pos
  · rw [afterWrite, hready]
    refine Nat.le_trans h.room (Nat.le_trans ?_ FileStream.size_le_write)
    rw [FileStream.seekg_file]
    exact Nat.le_refl _

end Compact

section Runs

variable {s s' : OffsetLedger} {n : Nat} {call : PageCall} {id : PageId} {buffer : PageBuffer}

theorem Compact.step (h : s.Compact n) (hstep : FirstStep s call s') : ∃ m, s'.Compact m := by
  obtain ⟨hstep, hfirst⟩ := hstep
  cases hstep with
  | writePage nonneg leaves => exact ⟨1, h.firstWrite nonneg hfirst leaves⟩
  | readPage nonneg leaves => exact h.read nonneg leaves
  | deletePage nonneg known leaves size_le => exact ⟨n, h.delete nonneg known leaves size_le⟩

theorem mem_freeOffsets_afterWrite {manager : DiskManager} {offset : Offset}
    (hmem : offset ∈ (manager.afterWrite id buffer).freeOffsets) :
    offset ∈ manager.freeOffsets := by
  rw [afterWrite, readyToWrite, afterAllocation] at hmem
  split at hmem
  · split at hmem
    next hfree =>
      rw [hfree]
      exact List.mem_cons_of_mem _ hmem
    next => rwa [grown_freeOffsets] at hmem
  · exact hmem

/-- A page that is written again loses its offset. -/
theorem Compact.not_rewritten (h : s.Compact n)
    (howned : (OffsetLedger.mk (s.manager.afterWrite id buffer)
      (s.manager.offsetAtWrite id :: s.handedOut)).OwnedOnce) :
    s.manager.pages.find? id = none := by
  cases hfind : s.manager.pages.find? id with
  | none => rfl
  | some old =>
      exfalso
      obtain ⟨m, hperm, _, hpages, _⟩ := h.allocation
      have hnew : s.manager.allocated ≠ old := by
        intro heq
        refine (List.nodup_cons.mp (hperm.nodup_iff.mpr (firstOffsets_nodup m))).1 ?_
        rw [hpages, heq]
        exact List.mem_append_left _ (UnorderedMap.mem_values_of_find? hfind)
      have hoffset : s.manager.offsetAtWrite id = s.manager.allocated := by
        rw [offsetAtWrite, hfind]
        rfl
      have hbefore : old ∈ s.handedOut := (h.handedOut_iff old).mpr (h.owned_mem hfind)
      rcases howned.kept old (List.mem_cons_of_mem _ hbefore) with ⟨owner, howner⟩ | hfree
      · rw [find?_afterWrite] at howner
        split at howner
        · exact hnew (hoffset ▸ Option.some.inj howner)
        next hne => exact hne (h.ownedOnce.owner_unique howner hfind)
      · exact h.ownedOnce.free_not_owned hfind (mem_freeOffsets_afterWrite hfree)

/-- A write that keeps the offsets apart is the first one. -/
theorem Compact.writesFirst (h : s.Compact n)
    (howned : (OffsetLedger.mk (s.manager.afterWrite id buffer)
      (s.manager.offsetAtWrite id :: s.handedOut)).OwnedOnce) :
    s.WritesFirst (.writePage id buffer) := by
  have hfind := h.not_rewritten howned
  have hoffset : s.manager.offsetAtWrite id = 0 := by
    rw [offsetAtWrite, hfind]
    rfl
  have hid : (s.manager.afterWrite id buffer).pages.find? id = some 0 := by
    rw [find?_afterWrite_self, hoffset]
  have hready : (s.manager.afterWrite id buffer).freeOffsets = s.manager.freeOffsets := by
    rw [afterWrite, readyToWrite, hfind]
    rfl
  have hempty : n = 0 := by
    by_contra hne
    have hzero : 0 ∈ firstOffsets n :=
      mem_firstOffsets_iff.mpr ⟨0, Nat.pos_of_ne_zero hne, Nat.zero_mul _⟩
    rcases List.mem_append.mp (h.perm.mem_iff.mpr hzero) with hvalue | hfree
    · obtain ⟨⟨other, offset⟩, hpair, hvalue⟩ := List.mem_map.mp hvalue
      have hother : s.manager.pages.find? other = some 0 :=
        hvalue ▸ UnorderedMap.mem_pairs_iff.mp hpair
      have hne : other ≠ id := by
        rintro rfl
        cases hfind.symm.trans hother
      have hafter : (s.manager.afterWrite id buffer).pages.find? other = some 0 := by
        rw [find?_afterWrite, if_neg hne, hother]
      exact hne (howned.owner_unique hafter hid)
    · exact howned.free_not_owned hid (hready.symm ▸ hfree)
  have hlength := h.length_eq
  rw [hempty] at hlength
  exact ⟨Nat.eq_zero_of_add_eq_zero_right hlength,
    List.length_eq_zero_iff.mp (Nat.eq_zero_of_add_eq_zero_left hlength)⟩

/--
In a run whose only write comes while no offset is handed out, every offset has one
owner; and a call after such a run keeps that exactly when it is no other write.
-/
theorem offsets_owned_once_iff {existing : Option File} {calls : List PageCall}
    (hrun : Run FirstStep (start existing) calls s) :
    s.OwnedOnce ∧ ∀ call s', Step s call s' → (s'.OwnedOnce ↔ s.WritesFirst call) := by
  obtain ⟨n, hcompact⟩ : ∃ n, s.Compact n :=
    hrun.invariant (fun _ s => ∃ n, Compact s n) ⟨0, .start existing⟩
      fun _ _ _ _ ⟨_, h⟩ hstep => h.step hstep
  refine ⟨hcompact.ownedOnce, fun call s' hstep => ⟨fun howned => ?_, fun hfirst => ?_⟩⟩
  · cases hstep with
    | writePage nonneg leaves =>
        cases leaves.eq_of_ok (writePage_ok nonneg)
        exact hcompact.writesFirst howned
    | readPage => trivial
    | deletePage => trivial
  · obtain ⟨m, hafter⟩ := hcompact.step ⟨hstep, hfirst⟩
    exact hafter.ownedOnce

end Runs

/-- The ledger after a page has been written. -/
def afterWriting (s : OffsetLedger) (id : PageId) (buffer : PageBuffer) : OffsetLedger :=
  ⟨s.manager.afterWrite id buffer, s.manager.offsetAtWrite id :: s.handedOut⟩

theorem step_afterWriting {s : OffsetLedger} (id : PageId) (hid : 0 ≤ id) (buffer : PageBuffer) :
    Step s (.writePage id buffer) (s.afterWriting id buffer) :=
  .writePage hid (.inl ⟨(), writePage_ok hid⟩)

def afterReading (s : OffsetLedger) (id : PageId) : OffsetLedger :=
  ⟨s.manager.afterRead id, s.manager.offsetAtRead id :: s.handedOut⟩

theorem step_afterReading {s : OffsetLedger} {id : PageId} (hid : 0 ≤ id)
    (hinside : s.manager.offsetAtRead id ≤ (s.manager.readyToRead id).dbFile.file.size)
    (buffer : PageBuffer) : Step s (.readPage id buffer) (s.afterReading id) := by
  obtain ⟨page, hok⟩ := readPage_ok hid hinside buffer
  exact .readPage hid (.inl ⟨page, hok⟩)

/-- The ledger after the page at an offset has been deleted. -/
def afterDeleting (s : OffsetLedger) (id : PageId) (offset : Offset) : OffsetLedger :=
  ⟨s.manager.afterDelete id offset, s.handedOut⟩

theorem step_afterDeleting {s : OffsetLedger} {id : PageId} {offset : Offset} (hid : 0 ≤ id)
    (hfind : s.manager.pages.find? id = some offset) :
    Step s (.deletePage id) (s.afterDeleting id offset) :=
  .deletePage hid hfind (.inl ⟨(), deletePage_ok hid hfind⟩) (Nat.le_refl _)

def firstWritten : OffsetLedger := (start none).afterWriting 0 (DiskSession.filled 1)

/-- The pages 1 and 2 have been read after page 0 has been written. -/
def twoRead : OffsetLedger := (firstWritten.afterReading 1).afterReading 2

/--
A new manager writes page 0, reads the pages 1 and 2 and deletes page 1: the
offset of page 1 is free, and each other one has its page.
-/
theorem first_write_owned : (twoRead.afterDeleting 1 pageSize).OwnedOnce ∧
    (twoRead.afterDeleting 1 pageSize).manager.freeOffsets = [pageSize] := by
  have hwrite : FirstStep (start none) (.writePage 0 (DiskSession.filled 1)) firstWritten :=
    ⟨step_afterWriting 0 (by decide) _, rfl, rfl⟩
  have hone : FirstStep firstWritten (.readPage 1 (DiskSession.filled 0))
      (firstWritten.afterReading 1) :=
    ⟨step_afterReading (by decide) (by decide +kernel) _, trivial⟩
  have htwo : FirstStep (firstWritten.afterReading 1) (.readPage 2 (DiskSession.filled 0))
      twoRead :=
    ⟨step_afterReading (by decide) (by decide +kernel) _, trivial⟩
  have hdelete : FirstStep twoRead (.deletePage 1) (twoRead.afterDeleting 1 pageSize) :=
    ⟨step_afterDeleting (by decide) (by decide +kernel), trivial⟩
  have hrun := (((Run.nil.snoc hwrite).snoc hone).snoc htwo).snoc hdelete
  exact ⟨(offsets_owned_once_iff hrun).1, by decide +kernel⟩

/-- The first two pages written by a new manager share offset zero. -/
theorem second_write_shares_offset :
    ¬ ∀ (existing : Option File) (calls : List PageCall) (s : OffsetLedger),
      Run Step (start existing) calls s → s.OwnedOnce := by
  intro hall
  have howned := hall none _ _
    ((Run.nil.snoc (step_afterWriting 0 (by decide) (DiskSession.filled 1))).snoc
      (step_afterWriting 1 (by decide) (DiskSession.filled 2)))
  have hzero : (((start none).afterWriting 0 (DiskSession.filled 1)).afterWriting 1
      (DiskSession.filled 2)).manager.pages.find? 0 = some 0 := by
    decide +kernel
  have hone : (((start none).afterWriting 0 (DiskSession.filled 1)).afterWriting 1
      (DiskSession.filled 2)).manager.pages.find? 1 = some 0 := by
    decide +kernel
  exact absurd (howned.owner_unique hzero hone) (by decide)

end OffsetLedger

end HiveDb
