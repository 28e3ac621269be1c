import HiveDb.BufferPool.Updates

/-!
# The bookkeeping of the frames

Over every run of the pool's member functions each slot is mapped by one page or
free, never both and never twice, and a page fault fills the very slot it maps.
-/

namespace HiveDb

open HiveDb.Lib BufferPool

variable {δ B : Type}

/-- What may be done to a pool: an operation of a session, or `evict_page`. -/
inductive PoolCall (B : Type) where
  | client (op : PoolOp B)
  | evictPage (id : PageId)

namespace PoolCall

variable [DiskManagerT δ B]

/-- A call that leaves the process running; `evict_page` is called on mapped pages. -/
inductive Step : BufferPool δ B → PoolCall B → BufferPool δ B → Prop where
  | client {s s' : Session δ B} {op : PoolOp B} (step : Session.Step s op s') :
      Step s.pool (.client op) s'.pool
  | evictPage {pool pool' : BufferPool δ B} {id : PageId} {frame freed : FrameId}
      (maps : pool.Maps id frame) (returns : BufferPool.evictPage id pool = .ok freed pool') :
      Step pool (.evictPage id) pool'

/-- What a session does is a run of calls on its pool. -/
theorem run_of_session {s s' : Session δ B} {ops : List (PoolOp B)}
    (hrun : Run Session.Step s ops s') : Run Step s.pool (ops.map PoolCall.client) s'.pool := by
  induction hrun with
  | nil => exact .nil
  | snoc before last ih =>
      rw [List.map_append]
      exact ih.snoc (.client last)

end PoolCall

namespace BufferPool

variable {pool pool' : BufferPool δ B} {id : PageId} {frame : FrameId} {shouldPin : Bool}

/--
The page table is injective, and its frames and the free list divide the slots
among them; a mapped frame knows its slot.
-/
structure Booked (maxFrames : FrameId) (pool : BufferPool δ B) : Prop where
  injective : ∀ {id other frame}, pool.Maps id frame → pool.Maps other frame → id = other
  covers : ∀ frame, (∃ id, pool.Maps id frame) ∨ frame ∈ pool.emptyFrames ↔
    0 ≤ frame ∧ frame < maxFrames
  apart : ∀ {id frame}, pool.Maps id frame → frame ∉ pool.emptyFrames
  nodup : (pool.pageTable.values ++ pool.emptyFrames).Nodup
  frameId_eq : ∀ {id frame}, pool.Maps id frame → (pool.frames frame).frameId = frame

theorem WellFormed.booked (hwf : pool.WellFormed) : pool.Booked pool.maxFrames where
  injective := hwf.maps_inj
  covers frame := by
    constructor
    · rintro (⟨id, hmaps⟩ | hfree)
      · exact hwf.hasFrame_of_maps hmaps
      · exact hwf.hasFrame_of_empty hfree
    · intro hframe
      have hmem := hwf.partition.symm.subset (mem_slots.mpr hframe)
      rcases List.mem_append.mp hmem with hvalue | hfree
      · obtain ⟨⟨id, slot⟩, hpair, rfl⟩ := List.mem_map.mp hvalue
        exact .inl ⟨id, UnorderedMap.mem_pairs_iff.mp hpair⟩
      · exact .inr hfree
  apart hmaps hfree := hwf.not_maps_of_empty hfree hmaps
  nodup := hwf.nodup
  frameId_eq := hwf.frameId_eq

variable [DiskManagerT δ B]

/-- A request does not change how many frames there are. -/
theorem Request.maxFrames_eq {result : EStateM.Result Failure (BufferPool δ B) FrameId}
    (hrequest : Request pool id shouldPin result) :
    (stateOf result).maxFrames = pool.maxFrames := by
  cases hrequest <;> rfl

/-- A fault maps the page to a slot, and fills this slot and no other mapped one. -/
structure Fills (pool : BufferPool δ B) (id : PageId) (shouldPin : Bool) (frame : FrameId)
    (pool' : BufferPool δ B) : Prop where
  maps : pool'.Maps id frame
  filled : pool'.frames frame = (FrameHeader.new frame (pool.diskData id)).pinnedIf shouldPin
  others : ∀ {other slot}, other ≠ id → pool'.Maps other slot →
    slot ≠ frame ∧ pool.Maps other slot ∧ pool'.frames slot = pool.frames slot

theorem fills_of_fault (hwf : pool.WellFormed) (habsent : pool.pageTable.find? id = none)
    (hreturns : requestPage id shouldPin pool = .ok frame pool') :
    pool.Fills id shouldPin frame pool' := by
  obtain ⟨hid, hrequest⟩ := request_of_returns hwf hreturns
  have hwf' : pool'.WellFormed := hrequest.wellFormed hwf hid
  refine ⟨hrequest.maps, ?_, fun hne hmaps => ⟨?_, hrequest.others hwf hne hmaps⟩⟩
  · rcases hrequest.frame_eq with ⟨hmaps, _⟩ | ⟨_, heq⟩
    · cases habsent.symm.trans hmaps
    · exact heq
  · rintro rfl
    exact hne (hwf'.maps_inj hmaps hrequest.maps)

end BufferPool

namespace Session

variable [DiskManagerT δ B] {s s' : Session δ B} {op : PoolOp B}

theorem Step.maxFrames_eq (hstep : Step s op s') (hwf : s.pool.WellFormed) :
    s'.pool.maxFrames = s.pool.maxFrames := by
  cases hstep with
  | requestReturns returns =>
      exact (request_of_returns hwf returns).2.maxFrames_eq
  | requestThrows throws exception =>
      exact (request_of_throws hwf throws exception).2.maxFrames_eq
  | write => rfl
  | release => rfl
  | flushPage leaves =>
      rcases flushPage_cases hwf leaves with ⟨_, rfl⟩ | ⟨frame, data, _, _, _, rfl⟩
      · rfl
      · dsimp only
        split <;> rfl
  | flushPages leaves =>
      obtain ⟨writes, hflushed⟩ := flushPages_cases hwf leaves
      exact hflushed.maxFrames_eq

end Session

namespace PoolCall

variable [DiskManagerT δ B] {pool pool' : BufferPool δ B} {call : PoolCall B}

theorem Step.wellFormed (hstep : Step pool call pool') (hwf : pool.WellFormed) :
    pool'.WellFormed ∧ pool'.maxFrames = pool.maxFrames := by
  cases hstep with
  | client step => exact ⟨step.wellFormed hwf, step.maxFrames_eq hwf⟩
  | evictPage maps returns =>
      cases (evictPage_eq hwf maps).symm.trans returns
      exact ⟨hwf.evicted maps, rfl⟩

theorem wellFormed_of_run {start : BufferPool δ B} {maxFrames : FrameId} {disk : δ}
    {order : IterationOrder PageId FrameId} (hnew : new maxFrames disk order = .ok start)
    {calls : List (PoolCall B)} (hrun : Run Step start calls pool) :
    pool.WellFormed ∧ pool.maxFrames = maxFrames := by
  obtain ⟨n, rfl, rfl⟩ := eq_initial_of_new hnew
  have hinvariant : pool.WellFormed ∧ pool.maxFrames = n :=
    hrun.invariant (fun _ pool => pool.WellFormed ∧ pool.maxFrames = n)
      ⟨.initial n disk order, rfl⟩ fun _ _ _ _ ⟨hwf, hmax⟩ hstep =>
        ⟨(hstep.wellFormed hwf).1, (hstep.wellFormed hwf).2.trans hmax⟩
  exact ⟨hinvariant.1, congrArg Nat.cast hinvariant.2⟩

/--
Whatever the number of frames and whatever has been called, the frames are
booked, and a fault that returns has filled the slot it maps.
-/
theorem frames_booked {maxFrames : FrameId} (hmax : 0 ≤ maxFrames) (disk : δ)
    (order : IterationOrder PageId FrameId) :
    ∃ start : BufferPool δ B, new maxFrames disk order = .ok start ∧
      ∀ (calls : List (PoolCall B)) (pool : BufferPool δ B), Run Step start calls pool →
        pool.Booked maxFrames ∧
        ∀ (id : PageId) (shouldPin : Bool) (frame : FrameId) (pool' : BufferPool δ B),
          pool.pageTable.find? id = none → requestPage id shouldPin pool = .ok frame pool' →
            pool.Fills id shouldPin frame pool' := by
  obtain ⟨n, rfl⟩ := Int.eq_ofNat_of_zero_le hmax
  refine ⟨initial n disk order, new_eq n disk order, fun calls pool hrun => ?_⟩
  obtain ⟨hwf, heq⟩ := wellFormed_of_run (new_eq n disk order) hrun
  exact ⟨heq ▸ hwf.booked, fun id shouldPin frame pool' => fills_of_fault hwf⟩

/-- A run over one frame in which the second fault replaces the dirty page of the first. -/
theorem frames_booked_one_frame :
    ∃ (pool pool' : BufferPool (IdealDisk Nat) Nat) (frame : FrameId),
      Run Step Session.onePool [.client (.requestPage 0 0 true), .client (.write 0 0 7),
        .client (.decreasePinCount 0 0)] pool ∧
      pool.Maps 0 0 ∧ pool.Booked 1 ∧ requestPage 1 false pool = .ok frame pool' ∧
      pool.Fills 1 false frame pool' := by
  have heval : ((Session.start Session.onePool).run?
      [.requestPage 0 0 true, .write 0 0 7, .decreasePinCount 0 0]).any (fun s =>
        s.pool.Maps 0 0 ∧ s.pool.hasFrame 0 ∧ (s.pool.frames 0).isDirty = true ∧
        (s.pool.frames 0).pinCount = 0 ∧ s.pool.pageTable.find? 1 = none) = true := by
    decide +kernel
  obtain ⟨s, hs, hstate⟩ := (Option.any_eq_true _ _).mp heval
  obtain ⟨hmaps, hframe, hdirty, hpin, habsent⟩ := of_decide_eq_true hstate
  have hrun := run_of_session (Session.run_of_run? hs)
  have htake : s.pool.CanTake := .inr (.inl ⟨0, hframe, hdirty, hpin⟩)
  obtain ⟨frame, pool', hreturns⟩ :=
    (returns_iff (wellFormed_of_run (new_eq 1 Session.zeroDisk .newestFirst) hrun).1
      (show (0 : PageId) ≤ 1 by decide) false).mpr (.inr htake)
  obtain ⟨start, hnew, hbooked⟩ := frames_booked (B := Nat) (show (0 : FrameId) ≤ 1 by decide)
    Session.zeroDisk .newestFirst
  cases (new_eq 1 Session.zeroDisk .newestFirst).symm.trans hnew
  obtain ⟨hpool, hfills⟩ := hbooked _ s.pool hrun
  exact ⟨s.pool, pool', frame, hrun, hmaps, hpool, hreturns, hfills 1 false frame pool' habsent
    hreturns⟩

end PoolCall

end HiveDb
