import HiveDb.BufferPool.DiskCalls

/-!
# Sessions whose pages fit

A session that never flushes and requests no more pages than the pool has frames
never takes a frame away from a page.  It then reads each page once, when it is
first requested, writes none, and keeps every update, whatever the disk does.
-/

namespace HiveDb

open HiveDb.Lib BufferPool

variable {δ B : Type}

/-- The pages that the operations request, in the order of their first requests. -/
def requestedPages (ops : List (PoolOp B)) : List PageId :=
  ops.foldl (fun pages op =>
    match op with
    | .requestPage _ id _ => if id ∈ pages then pages else pages ++ [id]
    | _ => pages) []

/-- The operation is a call of `flush_page` or of `flush_pages`. -/
def PoolOp.flushes : PoolOp B → Bool
  | .flushPage .. | .flushPages => true
  | _ => false

section Requested

variable {ops : List (PoolOp B)} {op : PoolOp B} {client : Client} {id : PageId}
  {shouldPin : Bool}

theorem requestedPages_other (hop : ∀ client id shouldPin, op ≠ .requestPage client id shouldPin) :
    requestedPages (ops ++ [op]) = requestedPages ops := by
  rw [requestedPages, List.foldl_append]
  cases op with
  | requestPage client id shouldPin => exact absurd rfl (hop client id shouldPin)
  | _ => rfl

theorem requestedPages_again (hmem : id ∈ requestedPages ops) :
    requestedPages (ops ++ [.requestPage client id shouldPin]) = requestedPages ops := by
  rw [requestedPages, List.foldl_append]
  exact if_pos hmem

theorem requestedPages_first (hnot : id ∉ requestedPages ops) :
    requestedPages (ops ++ [.requestPage client id shouldPin]) = requestedPages ops ++ [id] := by
  rw [requestedPages, List.foldl_append]
  exact if_neg hnot

theorem length_requestedPages_le :
    (requestedPages ops).length ≤ (requestedPages (ops ++ [op])).length := by
  by_cases hop : ∃ client id shouldPin, op = .requestPage client id shouldPin
  · obtain ⟨client, id, shouldPin, rfl⟩ := hop
    by_cases hmem : id ∈ requestedPages ops
    · rw [requestedPages_again hmem]
    · rw [requestedPages_first hmem, List.length_append]
      exact Nat.le_add_right _ _
  · rw [requestedPages_other fun client id shouldPin heq => hop ⟨client, id, shouldPin, heq⟩]

end Requested

namespace BufferPool

variable [DiskManagerT δ B] {pool : BufferPool δ B} {id : PageId} {shouldPin : Bool}

/-- A request that finds its page mapped, or an empty frame for it, takes no frame from a page. -/
theorem Request.with_room {result : EStateM.Result Failure (BufferPool δ B) FrameId}
    (hrequest : Request pool id shouldPin result)
    (hroom : pool.pageTable.find? id = none → pool.emptyFrames ≠ []) :
    ∃ frame pool', result = .ok frame pool' ∧
      (pool.Maps id frame ∧ pool' = pool.touched frame shouldPin ∨
        pool.pageTable.find? id = none ∧ pool' = (pool.afterRead id).loaded id frame
          (pool.diskData id) shouldPin (replacerAfterLoad pool.frameReplacer frame)) := by
  cases hrequest with
  | hit maps => exact ⟨_, _, rfl, .inl ⟨maps, rfl⟩⟩
  | empty absent free => exact ⟨_, _, rfl, .inr ⟨absent, rfl⟩⟩
  | dirty fault => exact absurd fault.full (hroom fault.absent)
  | victim fault => exact absurd fault.full (hroom fault.absent)
  | noVictim fault => exact absurd fault.full (hroom fault.absent)
  | pinned fault => exact absurd fault.full (hroom fault.absent)

end BufferPool

namespace Session

/-- All pages that have been requested are in the pool, and it has read nothing else. -/
structure WorkingSet (maxFrames : Nat) (ops : List (PoolOp B)) (s : Session (Traced δ B) B) :
    Prop where
  wellFormed : s.pool.WellFormed
  maxFrames_eq : s.pool.maxFrames = maxFrames
  accesses_eq : s.pool.disk.accesses = (requestedPages ops).map .read
  resident_iff : ∀ id, (∃ frame, s.pool.Maps id frame) ↔ id ∈ requestedPages ops
  size_eq : s.pool.pageTable.size = (requestedPages ops).length
  written : ∀ {id data}, LastWrite ops id data →
    ∃ frame, s.pool.Maps id frame ∧ (s.pool.frames frame).data = some data

/-- What a step does to the page table and asks of the disk: nothing, or it loads a new page. -/
inductive Loads (ops : List (PoolOp B)) (s : Session (Traced δ B) B) (op : PoolOp B)
    (s' : Session (Traced δ B) B) : Prop where
  | none (pages_eq : requestedPages (ops ++ [op]) = requestedPages ops)
      (accesses_eq : s'.pool.disk.accesses = s.pool.disk.accesses)
      (table_eq : s'.pool.pageTable = s.pool.pageTable)
  | one (id : PageId) (frame : FrameId) (absent : s.pool.pageTable.find? id = none)
      (pages_eq : requestedPages (ops ++ [op]) = requestedPages ops ++ [id])
      (accesses_eq : s'.pool.disk.accesses = s.pool.disk.accesses ++ [.read id])
      (table_eq : s'.pool.pageTable = s.pool.pageTable.assign id frame)

variable {s s' : Session (Traced δ B) B} {ops : List (PoolOp B)} {op : PoolOp B} {maxFrames : Nat}

namespace WorkingSet

theorem not_mem_of_absent (h : WorkingSet maxFrames ops s) {id : PageId}
    (habsent : s.pool.pageTable.find? id = none) : id ∉ requestedPages ops := fun hmem => by
  obtain ⟨frame, hmaps⟩ := (h.resident_iff id).mpr hmem
  cases habsent.symm.trans hmaps

/-- There is an empty frame for one more page. -/
theorem room (h : WorkingSet maxFrames ops s)
    (hfew : (requestedPages ops).length < maxFrames) : s.pool.emptyFrames ≠ [] :=
  h.wellFormed.size_lt_iff.mp (h.size_eq.symm ▸ h.maxFrames_eq.symm ▸ hfew)

/-- In particular for one that is requested for the first time. -/
theorem room_for (h : WorkingSet maxFrames ops s) {client : Client} {id : PageId}
    {shouldPin : Bool} (hfew : (requestedPages
      (ops ++ [.requestPage client id shouldPin])).length ≤ maxFrames)
    (habsent : s.pool.pageTable.find? id = none) : s.pool.emptyFrames ≠ [] := by
  refine h.room (Nat.lt_of_lt_of_le ?_ hfew)
  rw [requestedPages_first (h.not_mem_of_absent habsent), List.length_append]
  exact Nat.lt_succ_self _

variable [DiskManagerT δ B]

theorem loads (h : WorkingSet maxFrames ops s) (hstep : Step s op s')
    (hflush : op.flushes = false) (hfew : (requestedPages (ops ++ [op])).length ≤ maxFrames) :
    Loads ops s op s' := by
  cases hstep with
  | @requestReturns client id shouldPin frame pool' returns =>
      obtain ⟨_, hrequest⟩ := request_of_returns h.wellFormed returns
      obtain ⟨_, _, heq, ⟨hmaps, rfl⟩ | ⟨habsent, rfl⟩⟩ :=
        hrequest.with_room (h.room_for hfew)
      · cases heq
        exact .none (requestedPages_again ((h.resident_iff id).mp ⟨_, hmaps⟩)) rfl rfl
      · cases heq
        exact .one id frame habsent (requestedPages_first (h.not_mem_of_absent habsent)) rfl rfl
  | requestThrows throws exception =>
      obtain ⟨_, hrequest⟩ := request_of_throws h.wellFormed throws exception
      obtain ⟨_, _, heq, _⟩ := hrequest.with_room (h.room_for hfew)
      cases heq
  | write => exact .none (requestedPages_other (by rintro _ _ _ ⟨⟩)) rfl rfl
  | release => exact .none (requestedPages_other (by rintro _ _ _ ⟨⟩)) rfl rfl
  | flushPage => cases hflush
  | flushPages => cases hflush

end WorkingSet

theorem Loads.keeps (h : Loads ops s op s') {id : PageId} {frame : FrameId}
    (hmaps : s.pool.Maps id frame) : s'.pool.Maps id frame := by
  cases h with
  | none _ _ table_eq =>
      rw [Maps, table_eq]
      exact hmaps
  | one other slot absent _ _ table_eq =>
      have hne : id ≠ other := by
        rintro rfl
        cases absent.symm.trans hmaps
      rw [Maps, table_eq, UnorderedMap.find?_assign_ne hne]
      exact hmaps

theorem Loads.resident_iff (h : Loads ops s op s')
    (hbefore : ∀ id, (∃ frame, s.pool.Maps id frame) ↔ id ∈ requestedPages ops) (id : PageId) :
    (∃ frame, s'.pool.Maps id frame) ↔ id ∈ requestedPages (ops ++ [op]) := by
  cases h with
  | none pages_eq _ table_eq =>
      rw [pages_eq, ← hbefore id]
      simp only [Maps, table_eq]
  | one other slot _ pages_eq _ table_eq =>
      rw [pages_eq, List.mem_append, List.mem_singleton, ← hbefore id]
      by_cases heq : id = other
      · subst heq
        refine iff_of_true ⟨slot, ?_⟩ (.inr rfl)
        rw [Maps, table_eq, UnorderedMap.find?_assign_self]
      · rw [or_iff_left heq]
        simp only [Maps, table_eq, UnorderedMap.find?_assign_ne heq]

variable [DiskManagerT δ B]

/-- The bytes last written to a page are in its frame. -/
theorem WorkingSet.written_step (h : WorkingSet maxFrames ops s) (hstep : Step s op s')
    (hloads : Loads ops s op s') {id : PageId} {data : B}
    (hlast : LastWrite (ops ++ [op]) id data) :
    ∃ frame, s'.pool.Maps id frame ∧ (s'.pool.frames frame).data = some data := by
  rcases hlast.of_concat with ⟨frame, rfl⟩ | ⟨hbefore, hother⟩
  · cases hstep with
    | write maps =>
        exact ⟨frame, maps, congrArg FrameHeader.data (setFrame_frames_self _ _ _)⟩
  · obtain ⟨frame, hmaps, hdata⟩ := h.written hbefore
    refine ⟨frame, hloads.keeps hmaps, ?_⟩
    cases hstep.mapped h.wellFormed (hloads.keeps hmaps) with
    | kept _ data_eq => exact data_eq.trans hdata
    | written other _ op_eq => exact absurd op_eq (hother frame other)
    | loaded _ _ absent => cases absent.symm.trans hmaps

theorem WorkingSet.step (h : WorkingSet maxFrames ops s) (hstep : Step s op s')
    (hflush : op.flushes = false) (hfew : (requestedPages (ops ++ [op])).length ≤ maxFrames) :
    WorkingSet maxFrames (ops ++ [op]) s' := by
  have hloads := h.loads hstep hflush hfew
  refine ⟨hstep.wellFormed h.wellFormed, (hstep.maxFrames_eq h.wellFormed).trans h.maxFrames_eq,
    ?_, hloads.resident_iff h.resident_iff, ?_, fun hlast => h.written_step hstep hloads hlast⟩
  · cases hloads with
    | none pages_eq accesses_eq => rw [accesses_eq, pages_eq, h.accesses_eq]
    | one id frame _ pages_eq accesses_eq =>
        rw [accesses_eq, pages_eq, h.accesses_eq, List.map_append, List.map_singleton]
  · cases hloads with
    | none pages_eq _ table_eq => rw [table_eq, pages_eq, h.size_eq]
    | one id frame absent pages_eq _ table_eq =>
        rw [table_eq, pages_eq, UnorderedMap.size_assign_of_none absent, h.size_eq,
          List.length_append, List.length_singleton]

theorem WorkingSet.of_run {disk : δ} {order : IterationOrder PageId FrameId}
    (hrun : Run Step (start (initial maxFrames ⟨disk, []⟩ order)) ops s)
    (hflush : ∀ op ∈ ops, op.flushes = false) (hfew : (requestedPages ops).length ≤ maxFrames) :
    WorkingSet maxFrames ops s := by
  refine hrun.invariant (fun ops s => (∀ op ∈ ops, op.flushes = false) →
    (requestedPages ops).length ≤ maxFrames → WorkingSet maxFrames ops s) ?_ ?_ hflush hfew
  · intro _ _
    have hempty := UnorderedMap.find?_empty (ν := FrameId) order
    refine ⟨.initial maxFrames _ order, rfl, rfl, fun id => ?_, rfl, ?_⟩
    · exact iff_of_false (fun ⟨_, hmaps⟩ => Option.some_ne_none _ (hmaps.symm.trans (hempty id)))
        List.not_mem_nil
    · rintro id data ⟨before, frame, after, heq, _⟩
      cases before <;> cases heq
  · intro ops s op s' hbefore hstep hflush hfew
    obtain ⟨hflush, hlast⟩ := List.forall_mem_append.mp hflush
    exact (hbefore hflush (Nat.le_trans length_requestedPages_le hfew)).step hstep
      (hlast op (List.mem_singleton_self op)) hfew

/--
A session that never flushes and requests no more pages than there are frames
asks the disk for each of these pages once and writes none.  On any disk a
request of a page that has been written to returns what was last written, and
requests throw no exception while there is a frame for each page.
-/
theorem working_set_stays {pool : BufferPool (Traced δ B) B} {maxFrames : FrameId} {disk : δ}
    {order : IterationOrder PageId FrameId} (hnew : new maxFrames ⟨disk, []⟩ order = .ok pool)
    (hrun : Run Step (start pool) ops s) (hflush : ∀ op ∈ ops, op.flushes = false)
    (hfew : (requestedPages ops).length ≤ maxFrames) :
    s.pool.disk.accesses = (requestedPages ops).map .read ∧
    (∀ id data shouldPin, LastWrite ops id data → ∃ frame pool',
      requestPage id shouldPin s.pool = .ok frame pool' ∧
        (pool'.frames frame).data = some data) ∧
    ∀ id shouldPin, 0 ≤ id →
      id ∈ requestedPages ops ∨ (requestedPages ops).length < maxFrames →
        ∃ frame pool', requestPage id shouldPin s.pool = .ok frame pool' := by
  obtain ⟨n, rfl, rfl⟩ := eq_initial_of_new hnew
  have hset : WorkingSet n ops s := .of_run hrun hflush (Int.ofNat_le.mp hfew)
  refine ⟨hset.accesses_eq, fun id data shouldPin hlast => ?_, fun id shouldPin hid hroom => ?_⟩
  · obtain ⟨frame, hmaps, hdata⟩ := hset.written hlast
    exact ⟨frame, _, requestPage_of_maps hset.wellFormed hmaps, (touched_data _).trans hdata⟩
  · refine (returns_iff hset.wellFormed hid shouldPin).mpr ?_
    rcases hroom with hmem | hlt
    · obtain ⟨frame, hmaps⟩ := (hset.resident_iff id).mpr hmem
      exact .inl fun habsent => Option.some_ne_none _ (hmaps.symm.trans habsent)
    · exact .inr (.inl (hset.room (Int.ofNat_lt.mp hlt)))

/-- Two pages in two frames, the first of which is written to and then released. -/
def fittingOps : List (PoolOp Nat) :=
  [.requestPage 0 0 true, .write 0 0 7, .decreasePinCount 0 0, .requestPage 0 1 true]

/-- The disk has been asked for two reads, and the first page is still as it was written. -/
theorem two_pages_stay :
    ∃ s : Session (Traced (IdealDisk Nat) Nat) Nat,
      Run Step (start (initial 2 ⟨zeroDisk, []⟩ .newestFirst)) fittingOps s ∧
      s.pool.disk.accesses = [.read 0, .read 1] ∧
      ∃ frame pool', requestPage 0 true s.pool = .ok frame pool' ∧
        (pool'.frames frame).data = some 7 := by
  have heval : ((start (initial 2 ⟨zeroDisk, []⟩ .newestFirst : BufferPool
      (Traced (IdealDisk Nat) Nat) Nat)).run? fittingOps).isSome = true := by
    decide +kernel
  obtain ⟨s, hs⟩ := Option.isSome_iff_exists.mp heval
  have hrun := run_of_run? hs
  obtain ⟨haccesses, hkept, _⟩ := working_set_stays (new_eq 2 _ _) hrun (by decide) (by decide)
  refine ⟨s, hrun, haccesses, hkept 0 7 true ⟨[.requestPage 0 0 true], 0, _, rfl, ?_⟩⟩
  rintro slot data (_ | ⟨_, _ | ⟨_, ⟨⟩⟩⟩)

end Session

end HiveDb
