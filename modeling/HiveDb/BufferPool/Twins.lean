import HiveDb.BufferPool.Session
import HiveDb.Lib.InStep

/-!
# One pool over two disks

The pool uses its disk through two calls.  When the calls of one disk answer as
those of another one, for the pages that may be read and the pages that have
been read before they are written, the pool does the same over both: every
member function returns the same or throws the same, and the pools it leaves
differ in their disks only.
-/

namespace HiveDb

open HiveDb.Lib BufferPool

variable {δ ε B : Type} [DiskManagerT δ B] [DiskManagerT ε B]

/--
The first disk answers as the second one: where the page may be read, and where
the page to be written is known, as it is once it has been read.
-/
structure DiskSimulation (May Known : PageId → δ → Prop) (R : δ → ε → Prop) : Prop where
  read : ∀ {id disk twin}, 0 ≤ id → May id disk → R disk twin →
    (DiskManagerT.readPage id disk).1 = (DiskManagerT.readPage id twin).1 ∧
      R (DiskManagerT.readPage id disk).2 (DiskManagerT.readPage id twin).2
  write : ∀ {id disk twin}, Known id disk → R disk twin → ∀ data,
    R (DiskManagerT.writePage id data disk) (DiskManagerT.writePage id data twin)
  known_read_self : ∀ {id disk twin}, 0 ≤ id → May id disk → R disk twin →
    Known id (DiskManagerT.readPage id disk).2
  known_read : ∀ {id other disk twin}, 0 ≤ id → May id disk → R disk twin → Known other disk →
    Known other (DiskManagerT.readPage id disk).2
  known_write : ∀ {id other disk twin}, Known id disk → R disk twin → Known other disk →
    ∀ data, Known other (DiskManagerT.writePage id data disk)

namespace BufferPool

/-- The same pool over another disk. -/
def onDisk {δ ε B : Type} (pool : BufferPool δ B) (disk : ε) : BufferPool ε B where
  maxFrames := pool.maxFrames
  disk := disk
  frameReplacer := pool.frameReplacer
  nextPage := pool.nextPage
  pageTable := pool.pageTable
  frames := pool.frames
  emptyFrames := pool.emptyFrames

/-- The pools differ in their disks only; the mapped pages and those of the list are known. -/
inductive Twins {δ ε B : Type} (Known : PageId → δ → Prop) (R : δ → ε → Prop)
    (held : List PageId) (pool : BufferPool δ B) : BufferPool ε B → Prop where
  | intro {disk : ε} (related : R pool.disk disk)
      (mapped : ∀ {id frame}, pool.Maps id frame → Known id pool.disk)
      (listed : ∀ id ∈ held, Known id pool.disk) : Twins Known R held pool (pool.onDisk disk)

variable {May Known : PageId → δ → Prop} {R : δ → ε → Prop} {held : List PageId}

section Parts

variable {δ ε B : Type} {Known : PageId → δ → Prop} {R : δ → ε → Prop} {held : List PageId}

@[simp] theorem onDisk_pageTable (pool : BufferPool δ B) (disk : ε) :
    (pool.onDisk disk).pageTable = pool.pageTable := rfl

@[simp] theorem onDisk_emptyFrames (pool : BufferPool δ B) (disk : ε) :
    (pool.onDisk disk).emptyFrames = pool.emptyFrames := rfl

@[simp] theorem onDisk_maxFrames (pool : BufferPool δ B) (disk : ε) :
    (pool.onDisk disk).maxFrames = pool.maxFrames := rfl

@[simp] theorem onDisk_frameReplacer (pool : BufferPool δ B) (disk : ε) :
    (pool.onDisk disk).frameReplacer = pool.frameReplacer := rfl

@[simp] theorem onDisk_dirtyUnpinned? (pool : BufferPool δ B) (disk : ε) :
    (pool.onDisk disk).dirtyUnpinned? = pool.dirtyUnpinned? := rfl

/-- A known page may be put on the list. -/
theorem Twins.hold {pool : BufferPool δ B} {twin : BufferPool ε B} {id : PageId}
    {frame : FrameId} (h : Twins Known R held pool twin) (hmaps : pool.Maps id frame) :
    Twins Known R (id :: held) pool twin := by
  obtain ⟨related, mapped, hheld⟩ := h
  refine ⟨related, mapped, fun other hmem => ?_⟩
  rcases List.mem_cons.mp hmem with rfl | hmem
  · exact mapped hmaps
  · exact hheld other hmem

theorem Twins.disks {pool : BufferPool δ B} {twin : BufferPool ε B}
    (h : Twins Known R held pool twin) : R pool.disk twin.disk := by
  obtain ⟨related, _, _⟩ := h
  exact related

theorem Twins.all_known {pool : BufferPool δ B} {twin : BufferPool ε B}
    (h : Twins Known R held pool twin) : ∀ id ∈ held, Known id pool.disk := by
  obtain ⟨_, _, listed⟩ := h
  exact listed

theorem Twins.release {pool : BufferPool δ B} {twin : BufferPool ε B} {id : PageId}
    (h : Twins Known R (id :: held) pool twin) : Twins Known R held pool twin := by
  obtain ⟨related, mapped, hheld⟩ := h
  exact ⟨related, mapped, fun other hmem => hheld other (List.mem_cons_of_mem _ hmem)⟩

/-- A change that reads and writes everything but the disk, and maps only pages of the list. -/
theorem Twins.change {pool pool' : BufferPool δ B} {twin : BufferPool ε B}
    (h : Twins Known R held pool twin) (hdisk : pool'.disk = pool.disk)
    (hmaps : ∀ {id frame}, pool'.Maps id frame → pool.Maps id frame ∨ id ∈ held) :
    Twins Known R held pool' (pool'.onDisk twin.disk) := by
  obtain ⟨related, mapped, listed⟩ := h
  refine .intro (hdisk ▸ related) (fun hid => ?_) (hdisk ▸ listed)
  rw [hdisk]
  exact (hmaps hid).elim mapped (listed _)

theorem Twins.eq_onDisk {pool : BufferPool δ B} {twin : BufferPool ε B}
    (h : Twins Known R held pool twin) : twin = pool.onDisk twin.disk := by
  obtain ⟨related, mapped, listed⟩ := h
  rfl

/-- The two programs keep twins twins. -/
abbrev TwinStep (B : Type) {α : Type} (Known : PageId → δ → Prop) (R : δ → ε → Prop)
    (held : List PageId) (x : Prog (BufferPool δ B) α) (y : Prog (BufferPool ε B) α) : Prop :=
  InStep (Twins Known R held) x y (Twins Known R held)

theorem twinStep_onReplacer (op : LruK → Except Failure LruK) :
    TwinStep B Known R held (onReplacer op) (onReplacer op) := by
  refine .inspect fun pool twin h => ⟨_, h, ?_⟩
  rw [h.eq_onDisk]
  refine .andThen (.lift _) fun replacer => .change fun pool twin h => ?_
  rw [h.eq_onDisk]
  exact h.change rfl .inl

theorem twinStep_modifyFrame (frame : FrameId) (change : FrameHeader B → FrameHeader B) :
    TwinStep B Known R held (modifyFrame frame change) (modifyFrame frame change) := by
  refine .change fun pool twin h => ?_
  rw [h.eq_onDisk]
  exact h.change rfl .inl

theorem twinStep_frameAt (frame : FrameId) :
    TwinStep B Known R held (frameAt frame) (frameAt frame) := by
  refine .inspect fun pool twin h => ⟨_, h, ?_⟩
  rw [h.eq_onDisk]
  exact .test (pool.hasFrame frame) (fun _ => .ret _) fun _ => .fail _

theorem twinStep_frameOf (frame : FrameId) :
    TwinStep B Known R held (frameOf frame) (frameOf frame) := by
  refine .inspect fun pool twin h => ⟨_, h, ?_⟩
  rw [h.eq_onDisk]
  exact .test (pool.hasFrame frame) (fun _ => .ret _) fun _ => .fail _

theorem twinStep_assignFrame (frame : FrameId) (header : FrameHeader B) :
    TwinStep B Known R held (assignFrame frame header) (assignFrame frame header) := by
  refine .andThen (twinStep_frameOf frame) fun _ => .andThen (.change fun pool twin h => ?_)
    fun _ => ?_
  · rw [h.eq_onDisk]
    exact h.change rfl .inl
  · cases header.hasReplacer with
    | true => exact twinStep_onReplacer _
    | false => exact .ret _

theorem twinStep_frontEmptyFrame :
    TwinStep B Known R held frontEmptyFrame frontEmptyFrame := by
  refine .inspect fun pool twin h => ⟨_, h, ?_⟩
  rw [h.eq_onDisk, onDisk_emptyFrames]
  cases pool.emptyFrames with
  | nil => exact .fail _
  | cons frame rest => exact .ret _

/-- Only a page of the list is mapped. -/
theorem twinStep_mapPage {id : PageId} (hid : id ∈ held) (frame : FrameId) :
    TwinStep B Known R held (mapPage id frame) (mapPage id frame) := by
  refine .andThen (.change fun pool twin h => ?_) fun _ => .change fun pool twin h => ?_
  · rw [h.eq_onDisk]
    refine h.change rfl fun {other slot} hmaps => ?_
    by_cases heq : other = id
    · exact .inr (heq ▸ hid)
    · exact .inl ((UnorderedMap.find?_emplace_ne heq).symm.trans hmaps)
  · rw [h.eq_onDisk]
    exact h.change rfl .inl

theorem twinStep_evictPage (id : PageId) :
    TwinStep B Known R held (evictPage id) (evictPage id) := by
  refine .inspect fun pool twin h => ⟨_, h, ?_⟩
  rw [h.eq_onDisk, onDisk_pageTable]
  cases pool.pageTable.find? id with
  | none => exact .fail _
  | some frame =>
      refine .andThen (twinStep_onReplacer _) fun _ => .andThen (.change fun pool twin h => ?_)
        fun _ => .andThen (twinStep_frameOf frame) fun header => .andThen (.lift _) fun _ =>
        .andThen (twinStep_assignFrame frame _) fun _ => .andThen (.change fun pool twin h => ?_)
        fun _ => .ret _
      · rw [h.eq_onDisk]
        exact h.change rfl fun hmaps => .inl (UnorderedMap.find?_of_find?_erase hmaps).2
      · rw [h.eq_onDisk]
        exact h.change rfl .inl

/-- What needs a page on the list may be done by a program that does not. -/
theorem TwinStep.releasing {α : Type} {id : PageId} {x : Prog (BufferPool δ B) α}
    {y : Prog (BufferPool ε B) α} (h : TwinStep B Known R (id :: held) x y) :
    InStep (Twins Known R (id :: held)) x y (Twins Known R held) :=
  h.conseq (fun _ _ h => h) fun _ _ h => h.release

theorem Twins.concat {pool : BufferPool δ B} {twin : BufferPool ε B} {id : PageId}
    (h : Twins Known R held pool twin) (hknown : Known id pool.disk) :
    Twins Known R (held ++ [id]) pool twin := by
  obtain ⟨related, mapped, listed⟩ := h
  refine ⟨related, mapped, fun other hmem => ?_⟩
  rcases List.mem_append.mp hmem with hmem | hmem
  · exact listed other hmem
  · exact List.mem_singleton.mp hmem ▸ hknown

theorem Twins.append_nil {pool : BufferPool δ B} {twin : BufferPool ε B}
    (h : Twins Known R held pool twin) : Twins Known R (held ++ []) pool twin := by
  rwa [List.append_nil]

/-- A call that leaves the process running leaves it running over the other disk. -/
theorem leaves_twin {α : Type} {x : Prog (BufferPool δ B) α} {y : Prog (BufferPool ε B) α}
    (hstep : TwinStep B Known R held x y) {pool pool' : BufferPool δ B} {twin : BufferPool ε B}
    (htwins : Twins Known R held pool twin) (hleaves : Leaves x pool pool') :
    ∃ twin', Leaves y twin twin' ∧ Twins Known R held pool' twin' := by
  rcases hleaves with ⟨a, hreturns⟩ | ⟨failure, hexception, hthrows⟩
  · obtain ⟨twin', hy, htwins'⟩ := hstep.of_ok htwins hreturns
    exact ⟨twin', .inl ⟨a, hy⟩, htwins'⟩
  · obtain ⟨twin', hy, htwins'⟩ := hstep.of_error htwins hthrows
    exact ⟨twin', .inr ⟨failure, hexception, hy⟩, htwins'⟩

theorem twinStep_evictPages (ids : List PageId) :
    TwinStep B Known R held (evictPages ids) (evictPages ids) := by
  induction ids with
  | nil => exact .ret _
  | cons id rest ih => exact .andThen (twinStep_evictPage id) fun _ => ih

theorem twinStep_loadIntoEmptyFrame {id : PageId} (hid : id ∈ held) (shouldPin : Bool)
    (buffer : B) :
    TwinStep B Known R held (loadIntoEmptyFrame id shouldPin buffer)
      (loadIntoEmptyFrame id shouldPin buffer) := by
  refine .inspect fun pool twin h => ⟨_, h, ?_⟩
  rw [h.eq_onDisk, onDisk_emptyFrames]
  refine .andThen (.lift _) fun _ => .andThen twinStep_frontEmptyFrame fun frame =>
    .andThen (twinStep_mapPage hid frame) fun _ => ?_
  refine .inspect fun pool twin h => ⟨_, h, ?_⟩
  rw [h.eq_onDisk, onDisk_maxFrames]
  exact .andThen (.lift _) fun _ => .andThen (twinStep_assignFrame frame _) fun _ =>
    .andThen (twinStep_onReplacer _) fun _ => .andThen (twinStep_modifyFrame frame _) fun _ =>
    .ret _

theorem twinStep_evictFrame : TwinStep B Known R held evictFrame evictFrame := by
  refine .inspect fun pool twin h => ⟨_, h, ?_⟩
  rw [h.eq_onDisk, onDisk_frameReplacer]
  refine .andThen (.lift _) fun victim => .andThen (.change fun pool twin h => ?_) fun _ => .ret _
  rw [h.eq_onDisk]
  exact h.change rfl .inl

theorem twinStep_replaceVictim {id : PageId} (hid : id ∈ held) (shouldPin : Bool) (buffer : B) :
    TwinStep B Known R held (replaceVictim id shouldPin buffer)
      (replaceVictim id shouldPin buffer) := by
  refine .andThen twinStep_evictFrame fun victim => ?_
  cases victim with
  | none => exact .fail _
  | some frame =>
      refine .test _ (fun _ => .abort _) fun _ => .andThen (twinStep_frameAt frame) fun header =>
        .test _ (fun _ => .abort _) fun _ => ?_
      refine .inspect fun pool twin h => ⟨_, h, ?_⟩
      rw [h.eq_onDisk, onDisk_pageTable]
      cases pool.pageTable.findIf? (fun pair => pair.2 = frame) with
      | none => exact .fail _
      | some owner =>
          refine .andThen (twinStep_evictPage owner.1) fun freed => .andThen (.lift _) fun _ =>
            .andThen twinStep_frontEmptyFrame fun free =>
            .andThen (twinStep_mapPage hid free) fun _ => ?_
          refine .inspect fun pool twin h => ⟨_, h, ?_⟩
          rw [h.eq_onDisk, onDisk_maxFrames]
          exact .andThen (.lift _) fun _ => .andThen (twinStep_assignFrame freed _) fun _ =>
            .andThen (twinStep_modifyFrame freed _) fun _ =>
            .andThen (twinStep_onReplacer _) fun _ => .ret _

end Parts

section Members

variable (hdisk : DiskSimulation May Known R)

include hdisk

/-- A page that has been read is known. -/
theorem inStep_scheduleRead {id : PageId} (hid : 0 ≤ id) :
    InStep (fun pool twin => Twins Known R held pool twin ∧ May id pool.disk) (scheduleRead id)
      (scheduleRead id) (Twins (B := B) Known R (id :: held)) := by
  rintro pool _ ⟨⟨related, mapped, listed⟩, hmay⟩
  obtain ⟨hdata, hafter⟩ := hdisk.read hid hmay related
  refine .inl ⟨(pool.diskData id, true), pool.afterRead id, _, rfl, ?_, .intro hafter
    (fun hmaps => hdisk.known_read hid hmay related (mapped hmaps)) fun other hmem => ?_⟩
  · rw [diskData, hdata]
    rfl
  · rcases List.mem_cons.mp hmem with rfl | hmem
    · exact hdisk.known_read_self hid hmay related
    · exact hdisk.known_read hid hmay related (listed other hmem)

theorem twinStep_scheduleWrite {id : PageId} (hid : id ∈ held) (data : B) :
    TwinStep B Known R held (scheduleWrite id data) (scheduleWrite id data) := by
  refine .andThen (.change ?_) fun _ => .ret _
  rintro pool _ ⟨related, mapped, listed⟩
  have hknown := listed id hid
  exact .intro (hdisk.write hknown related data)
    (fun hmaps => hdisk.known_write hknown related (mapped hmaps) data)
    fun other hmem => hdisk.known_write hknown related (listed other hmem) data

theorem twinStep_flushPage (id : PageId) (shouldEvict : Bool) :
    TwinStep B Known R held (flushPage id shouldEvict) (flushPage id shouldEvict) := by
  refine .inspect fun pool twin h => ?_
  rw [h.eq_onDisk, onDisk_pageTable]
  cases hfind : pool.pageTable.find? id with
  | none => exact ⟨_, h.eq_onDisk ▸ h, .ret _⟩
  | some frame =>
      refine ⟨Twins Known R (id :: held), h.eq_onDisk ▸ h.hold hfind, TwinStep.releasing ?_⟩
      refine .andThen (twinStep_frameAt frame) fun header => .andThen (.lift _) fun _ =>
        .andThen (.lift _) fun data =>
        .andThen (twinStep_scheduleWrite hdisk List.mem_cons_self data) fun status =>
        .test _ (fun _ => .abort _) fun _ => .andThen (twinStep_modifyFrame frame _) fun _ =>
        .test _ (fun _ => ?_) fun _ => .ret _
      exact .andThen (twinStep_evictPage id) fun freed => .andThen (.lift _) fun _ => .ret _

theorem twinStep_flushDirty (pairs : List (PageId × FrameId)) :
    TwinStep B Known R held (flushDirty pairs) (flushDirty pairs) := by
  induction pairs with
  | nil => exact .ret _
  | cons pair rest ih =>
      refine .andThen (twinStep_frameAt pair.2) fun header => .test _ (fun _ => ?_) fun _ => ih
      exact .andThen (twinStep_flushPage hdisk pair.1 false) fun _ => .andThen ih fun _ => .ret _

theorem twinStep_flushPages : TwinStep B Known R held flushPages flushPages := by
  refine .inspect fun pool twin h => ⟨_, h, ?_⟩
  rw [h.eq_onDisk, onDisk_pageTable]
  exact .andThen (twinStep_flushDirty hdisk _) fun ids =>
    .andThen (twinStep_evictPages ids) fun _ => .ret _

theorem twinStep_replaceDirtyFrame {id : PageId} (hid : id ∈ held) (shouldPin : Bool) (buffer : B)
    (frame : FrameId) :
    TwinStep B Known R held (replaceDirtyFrame id shouldPin buffer frame)
      (replaceDirtyFrame id shouldPin buffer frame) := by
  refine .inspect fun pool twin h => ⟨_, h, ?_⟩
  rw [h.eq_onDisk, onDisk_pageTable]
  cases pool.pageTable.findIf? (fun pair => pair.2 = frame) with
  | none => exact .fail _
  | some owner =>
      refine .andThen (twinStep_flushPage hdisk owner.1 true) fun status =>
        .test _ (fun _ => .abort _) fun _ => .andThen twinStep_frontEmptyFrame fun frame =>
        .andThen (twinStep_mapPage hid frame) fun _ => .andThen (twinStep_onReplacer _) fun _ => ?_
      refine .inspect fun pool twin h => ⟨_, h, ?_⟩
      rw [h.eq_onDisk, onDisk_maxFrames]
      exact .andThen (.lift _) fun _ => .andThen (twinStep_assignFrame frame _) fun _ =>
        .andThen (twinStep_modifyFrame frame _) fun _ => .andThen (twinStep_onReplacer _) fun _ =>
        .ret _

/-- The requests of a page that may be read do the same, and the page is then known. -/
theorem inStep_requestPage (id : PageId) (shouldPin : Bool) :
    InStep (fun pool twin => Twins (B := B) Known R held pool twin ∧ May id pool.disk)
      (requestPage id shouldPin) (requestPage id shouldPin)
      (fun pool twin => Twins Known R held pool twin ∧ (0 ≤ id → Known id pool.disk)) := by
  rcases Int.lt_or_le id 0 with hneg | hid
  · exact fun pool twin h => .inr ⟨.assertion, pool, twin, requestPage_of_negative hneg,
      requestPage_of_negative hneg, h.1, fun hid => absurd hneg (Int.not_lt.mpr hid)⟩
  · have hpost : ∀ pool twin, Twins (B := B) Known R (id :: held) pool twin →
        Twins Known R held pool twin ∧ (0 ≤ id → Known id pool.disk) :=
      fun pool twin h => ⟨h.release, fun _ => h.all_known id List.mem_cons_self⟩
    refine .afterPure (assertThat_of (Int.lt_of_lt_of_le (by decide) hid)) ?_
    refine .inspect fun pool twin h => ?_
    have htwin := h.1.eq_onDisk
    rw [htwin, onDisk_pageTable]
    cases hfind : pool.pageTable.find? id with
    | some frame =>
        refine ⟨Twins Known R (id :: held), htwin ▸ h.1.hold hfind,
          .conseq ?_ (fun _ _ h => h) hpost⟩
        exact .andThen (twinStep_onReplacer _) fun _ => .andThen (twinStep_onReplacer _) fun _ =>
          .andThen (twinStep_frameAt frame) fun _ => .andThen (twinStep_modifyFrame frame _)
          fun _ => .ret _
    | none =>
        refine ⟨_, htwin ▸ h, .seq (inStep_scheduleRead hdisk hid) (fun read => ?_) hpost⟩
        refine .conseq (.test _ (fun _ => .abort _) fun _ => ?_) (fun _ _ h => h) hpost
        refine .inspect fun pool twin h => ⟨_, h, ?_⟩
        rw [h.eq_onDisk, onDisk_pageTable, onDisk_maxFrames, onDisk_dirtyUnpinned?]
        refine .test _ (fun _ => twinStep_loadIntoEmptyFrame List.mem_cons_self shouldPin _)
          fun _ => ?_
        cases pool.dirtyUnpinned? with
        | none => exact twinStep_replaceVictim List.mem_cons_self shouldPin _
        | some frame => exact twinStep_replaceDirtyFrame hdisk List.mem_cons_self shouldPin _ frame

end Members

end BufferPool

/-! ## Sessions over two disks -/

/-- The pages that an operation requests. -/
def PoolOp.requested {B : Type} : PoolOp B → List PageId
  | .requestPage _ id _ => [id]
  | _ => []

/-- The pages that a list of operations requests. -/
def requestedIds {B : Type} (ops : List (PoolOp B)) : List PageId := ops.flatMap PoolOp.requested

namespace Session

variable {May Known : PageId → δ → Prop} {R : δ → ε → Prop} {held : List PageId}
variable {s s' : Session δ B} {t : Session ε B} {op : PoolOp B} {ops : List (PoolOp B)}

/-- The sessions have the same pins, and pools that differ in their disks only. -/
structure AreTwins {δ ε B : Type} (Known : PageId → δ → Prop) (R : δ → ε → Prop)
    (held : List PageId) (s : Session δ B) (t : Session ε B) : Prop where
  pools : BufferPool.Twins Known R held s.pool t.pool
  pins_eq : t.pins = s.pins

theorem AreTwins.start {δ ε B : Type} {Known : PageId → δ → Prop} {R : δ → ε → Prop} (n : Nat)
    (order : IterationOrder PageId FrameId) {disk : δ} {twin : ε} (h : R disk twin) :
    AreTwins (B := B) Known R [] (start (initial n disk order)) (start (initial n twin order)) where
  pools := by
    show BufferPool.Twins Known R [] (initial n disk order) ((initial n disk order).onDisk twin)
    refine .intro h (fun hmaps => ?_) fun _ hmem => ?_
    · exact absurd (hmaps.symm.trans (UnorderedMap.find?_empty order _)) (Option.some_ne_none _)
    · cases hmem
  pins_eq := rfl

theorem nonneg_of_returns {pool pool' : BufferPool δ B} {id : PageId} {shouldPin : Bool}
    {frame : FrameId} (hreturns : requestPage id shouldPin pool = .ok frame pool') : 0 ≤ id := by
  by_contra hneg
  cases (requestPage_of_negative (Int.not_le.mp hneg)).symm.trans hreturns

theorem nonneg_of_throws {pool pool' : BufferPool δ B} {id : PageId} {shouldPin : Bool}
    {failure : Failure} (hthrows : requestPage id shouldPin pool = .error failure pool')
    (hexception : failure.isException = true) : 0 ≤ id := by
  by_contra hneg
  cases (requestPage_of_negative (Int.not_le.mp hneg)).symm.trans hthrows
  cases hexception

/-- A step over the first disk is one over the second disk, if the page requested may be read. -/
theorem Step.twin (hdisk : DiskSimulation May Known R) (hstep : Step s op s')
    (htwins : AreTwins Known R held s t)
    (hmay : ∀ client id shouldPin, op = .requestPage client id shouldPin → 0 ≤ id →
      May id s.pool.disk) :
    ∃ t', Step t op t' ∧ AreTwins Known R (held ++ op.requested) s' t' := by
  obtain ⟨hpools, hpins⟩ := htwins
  obtain ⟨twin, pins⟩ := t
  obtain rfl : pins = s.pins := hpins
  cases hstep with
  | @requestReturns client id shouldPin frame pool' returns =>
      have hid : 0 ≤ id := nonneg_of_returns returns
      obtain ⟨twin', hy, htwins', hknown⟩ := (inStep_requestPage hdisk id shouldPin).of_ok
        ⟨hpools, hmay client id shouldPin rfl hid⟩ returns
      exact ⟨⟨twin', _⟩, .requestReturns hy, htwins'.concat (hknown hid), rfl⟩
  | @requestThrows client id shouldPin failure pool' throws exception =>
      have hid : 0 ≤ id := nonneg_of_throws throws exception
      obtain ⟨twin', hy, htwins', hknown⟩ := (inStep_requestPage hdisk id shouldPin).of_error
        ⟨hpools, hmay client id shouldPin rfl hid⟩ throws
      exact ⟨⟨twin', _⟩, .requestThrows hy exception, htwins'.concat (hknown hid), rfl⟩
  | @write id frame data maps =>
      have htwin := hpools.eq_onDisk
      refine ⟨⟨_, s.pins⟩, .write (htwin ▸ maps), ?_, rfl⟩
      rw [htwin]
      refine Twins.append_nil ?_
      exact hpools.change rfl .inl
  | @release client frame holds =>
      have htwin := hpools.eq_onDisk
      refine ⟨⟨_, _⟩, .release holds, ?_, rfl⟩
      rw [htwin]
      refine Twins.append_nil ?_
      exact hpools.change rfl .inl
  | @flushPage id shouldEvict pool' leaves =>
      obtain ⟨twin', hleaves, htwins'⟩ :=
        leaves_twin (twinStep_flushPage hdisk id shouldEvict) hpools leaves
      exact ⟨⟨twin', _⟩, .flushPage hleaves, htwins'.append_nil, rfl⟩
  | flushPages leaves =>
      obtain ⟨twin', hleaves, htwins'⟩ := leaves_twin (twinStep_flushPages hdisk) hpools leaves
      exact ⟨⟨twin', _⟩, .flushPages hleaves, htwins'.append_nil, rfl⟩

/--
A session over the first disk is one over the second disk, if every page that is
requested may be read by then.
-/
theorem run_twin (hdisk : DiskSimulation May Known R) (htwins : AreTwins Known R [] s t)
    (hrun : Run Step s ops s')
    (hmay : ∀ before client id shouldPin after,
      ops = before ++ .requestPage client id shouldPin :: after → 0 ≤ id →
        ∀ middle, (∀ other ∈ requestedIds before, Known other middle) → May id middle) :
    ∃ t', Run Step t ops t' ∧ AreTwins Known R (requestedIds ops) s' t' := by
  induction hrun with
  | nil => exact ⟨t, .nil, htwins⟩
  | @snoc ops mid s' op before last ih =>
      obtain ⟨middle, hmiddle, htwins'⟩ := ih fun first client id shouldPin after heq =>
        hmay first client id shouldPin (after ++ [op]) (by rw [heq]; simp)
      obtain ⟨t', hlast, htwins''⟩ := last.twin hdisk htwins' fun client id shouldPin heq hid =>
        hmay ops client id shouldPin [] (heq ▸ rfl) hid _ htwins'.pools.all_known
      refine ⟨t', hmiddle.snoc hlast, ?_⟩
      rwa [requestedIds, List.flatMap_append, List.flatMap_singleton]

end Session

end HiveDb
