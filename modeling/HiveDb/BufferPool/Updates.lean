import HiveDb.BufferPool.Session

/-!
# Updates of pages

A page request is to return the bytes last written to its page.  It does as long
as no request gives up a frame that is dirty, has been unpinned by a flush that
left it mapped, and has been written to again since.
-/

namespace HiveDb

open HiveDb.Lib BufferPool

variable {B : Type}

/-- What has been written to the pages of a disk by the operations of a session. -/
def lastWritten (content : PageId → B) : List (PoolOp B) → PageId → B :=
  List.foldl (fun content op =>
    match op with
    | .write id _ data => Function.update content id data
    | _ => content) content

theorem lastWritten_concat (content : PageId → B) (ops : List (PoolOp B)) (op : PoolOp B) :
    lastWritten content (ops ++ [op]) = lastWritten (lastWritten content ops) [op] :=
  List.foldl_append

namespace Session

/-- A request takes the frame of a victim whose bytes are not on the disk. -/
def DropsUpdate (pool : BufferPool (IdealDisk B) B) : PoolOp B → Prop
  | .requestPage _ id _ => ∃ frame owner, pool.FullFault id ∧ pool.dirtyUnpinned? = none ∧
      pool.frameReplacer.IsVictim frame ∧ (pool.frames frame).pinCount ≤ 0 ∧
      pool.Maps owner frame ∧ (pool.frames frame).isDirty = true ∧
      (pool.frames frame).data ≠ some (pool.disk.pages owner)
  | _ => False

/-- A step that drops no update. -/
def KeepsUpdates (s : Session (IdealDisk B) B) (op : PoolOp B) (s' : Session (IdealDisk B) B) :
    Prop :=
  Step s op s' ∧ ¬ DropsUpdate s.pool op

variable {s s' : Session (IdealDisk B) B} {op : PoolOp B} {content : PageId → B}

theorem victimSaved_of_not_dropsUpdate {pool : BufferPool (IdealDisk B) B} {client : Client}
    {id : PageId} {shouldPin : Bool} (hexposes : pool.Exposes content)
    (hkeeps : ¬ DropsUpdate pool (.requestPage client id shouldPin)) :
    pool.VictimSaved id content := by
  intro frame owner hfault hscan hpicked hunpinned hmaps
  by_cases hdirty : (pool.frames frame).isDirty = true
  · by_contra hne
    refine hkeeps ⟨frame, owner, hfault, hscan, hpicked, hunpinned, hmaps, hdirty, ?_⟩
    rw [hexposes.mapped hmaps]
    exact fun heq => hne (Option.some.inj heq).symm
  · exact hexposes.clean hmaps (Bool.eq_false_iff.mpr hdirty)

/-- One step keeps the contents up to what it writes. -/
theorem KeepsUpdates.exposes (hstep : KeepsUpdates s op s') (hwf : s.pool.WellFormed)
    (hexposes : s.pool.Exposes content) : s'.pool.Exposes (lastWritten content [op]) := by
  obtain ⟨hstep, hkeeps⟩ := hstep
  cases hstep with
  | requestReturns returns =>
      obtain ⟨_, hrequest⟩ := request_of_returns hwf returns
      exact hrequest.exposes hexposes hwf (victimSaved_of_not_dropsUpdate hexposes hkeeps)
  | requestThrows throws exception =>
      obtain ⟨_, hrequest⟩ := request_of_throws hwf throws exception
      exact hrequest.exposes hexposes hwf (victimSaved_of_not_dropsUpdate hexposes hkeeps)
  | write maps => exact hexposes.write hwf maps rfl rfl
  | release holds => exact hexposes.setFrame rfl id
  | @flushPage id shouldEvict pool' leaves =>
      rcases flushPage_cases hwf leaves with ⟨_, rfl⟩ | ⟨frame, data, hmaps, hdirty, hdata, rfl⟩
      · exact hexposes
      · obtain rfl : content id = data := Option.some.inj ((hexposes.mapped hmaps).symm.trans hdata)
        have hflushed := hexposes.flushed hmaps hdirty
        cases shouldEvict with
        | false => exact hflushed
        | true =>
            exact hflushed.evicted (hwf.flushed id frame _) hmaps (Function.update_self _ _ _)
  | flushPages leaves =>
      obtain ⟨writes, hflushed⟩ := flushPages_cases hwf leaves
      exact (hexposes.flushedAll hflushed).1

/-- Along a session without a dropped update the pool exposes what was written last. -/
theorem exposes_of_run {pool : BufferPool (IdealDisk B) B} {maxFrames : FrameId}
    {disk : IdealDisk B} {order : IterationOrder PageId FrameId}
    (hnew : new maxFrames disk order = .ok pool) {ops : List (PoolOp B)}
    (hrun : Run KeepsUpdates (start pool) ops s) :
    s.pool.WellFormed ∧ s.pool.Exposes (lastWritten disk.pages ops) := by
  refine hrun.invariant
    (fun ops s => s.pool.WellFormed ∧ s.pool.Exposes (lastWritten disk.pages ops)) ?_ ?_
  · refine ⟨.of_new hnew, ?_⟩
    obtain ⟨n, _, rfl⟩ := eq_initial_of_new hnew
    exact .initial n disk order
  · rintro ops s op s' ⟨hwf, hexposes⟩ hstep
    rw [lastWritten_concat]
    exact ⟨hstep.1.wellFormed hwf, hstep.exposes hwf hexposes⟩

/--
In a session that drops no update, whenever `request_page` returns, the frame
holds the bytes last written to the page.
-/
theorem request_returns_last_written {pool pool' : BufferPool (IdealDisk B) B}
    {maxFrames : FrameId} {disk : IdealDisk B} {order : IterationOrder PageId FrameId}
    (hnew : new maxFrames disk order = .ok pool) {ops : List (PoolOp B)}
    (hrun : Run KeepsUpdates (start pool) ops s) {id : PageId} {shouldPin : Bool}
    {frame : FrameId} (hreturns : requestPage id shouldPin s.pool = .ok frame pool') :
    pool'.Maps id frame ∧
      (pool'.frames frame).data = some (lastWritten disk.pages ops id) := by
  obtain ⟨hwf, hexposes⟩ := exposes_of_run hnew hrun
  obtain ⟨_, hrequest⟩ := request_of_returns hwf hreturns
  refine ⟨hrequest.maps, ?_⟩
  rcases hrequest.frame_eq with ⟨hmaps, heq⟩ | ⟨habsent, heq⟩
  · rw [heq, pinnedIf_data]
    exact hexposes.mapped hmaps
  · rw [heq, pinnedIf_data]
    exact congrArg some (hexposes.absent habsent)

/-- The bytes a client gets for a page. -/
def requested? (s : Session (IdealDisk B) B) (id : PageId) : Option B :=
  match requestPage id true s.pool with
  | .ok frame pool' => (pool'.frames frame).data
  | .error _ _ => none

theorem returns_of_requested? {id : PageId} {data : B} (h : s.requested? id = some data) :
    ∃ frame pool', requestPage id true s.pool = .ok frame pool' ∧
      (pool'.frames frame).data = some data := by
  unfold requested? at h
  split at h
  next frame pool' hrun => exact ⟨frame, pool', hrun, h⟩
  next => cases h

/-- A disk of zeros. -/
def zeroDisk : IdealDisk Nat := ⟨fun _ => 0⟩

/-- A pool of one frame over it. -/
def onePool : BufferPool (IdealDisk Nat) Nat := initial 1 zeroDisk .newestFirst

/-- A page written, flushed out of the pool and requested again. -/
theorem request_returns_seven :
    ∃ (s : Session (IdealDisk Nat) Nat) (frame : FrameId) (pool' : BufferPool (IdealDisk Nat) Nat),
      Run KeepsUpdates (start onePool) [.requestPage 0 0 true, .write 0 0 7, .flushPage 0 true] s ∧
      requestPage 0 true s.pool = .ok frame pool' ∧ (pool'.frames frame).data = some 7 := by
  have heval : (((start onePool).next? (.requestPage 0 0 true)).bind fun s =>
      (s.next? (.write 0 0 7)).bind fun s =>
      (s.next? (.flushPage 0 true)).bind fun s => s.requested? 0) = some 7 := by
    decide +kernel
  obtain ⟨first, hfirst, heval⟩ := Option.bind_eq_some_iff.mp heval
  obtain ⟨second, hsecond, heval⟩ := Option.bind_eq_some_iff.mp heval
  obtain ⟨third, hthird, heval⟩ := Option.bind_eq_some_iff.mp heval
  obtain ⟨frame, pool', hreturns, _⟩ := returns_of_requested? heval
  have hkeeps : KeepsUpdates (start onePool) (.requestPage 0 0 true) first := by
    refine ⟨step_of_next? hfirst, ?_⟩
    rintro ⟨_, _, hfault, _⟩
    exact absurd hfault.full (by decide)
  have hrun : Run KeepsUpdates (start onePool)
      [.requestPage 0 0 true, .write 0 0 7, .flushPage 0 true] third :=
    ((Run.nil.snoc hkeeps).snoc ⟨step_of_next? hsecond, id⟩).snoc ⟨step_of_next? hthird, id⟩
  exact ⟨third, frame, pool', hrun, hreturns,
    (request_returns_last_written (new_eq 1 zeroDisk .newestFirst) hrun hreturns).2⟩

/-- The operations after which the second value written to page 0 is lost. -/
def losingOps : List (PoolOp Nat) :=
  [.requestPage 0 0 true, .write 0 0 1, .flushPage 0 false, .write 0 0 2, .decreasePinCount 0 0,
    .requestPage 0 1 true, .decreasePinCount 0 0]

/-- A pool of one frame returns the first of the two values written to a page. -/
theorem update_lost :
    ∃ (s : Session (IdealDisk Nat) Nat) (frame : FrameId) (pool' : BufferPool (IdealDisk Nat) Nat),
      Run Step (start onePool) losingOps s ∧
      requestPage 0 true s.pool = .ok frame pool' ∧ (pool'.frames frame).data = some 1 ∧
      lastWritten zeroDisk.pages losingOps 0 = 2 := by
  have heval : (((start onePool).run? losingOps).bind fun s => s.requested? 0) = some 1 := by
    decide +kernel
  obtain ⟨s, hrun, heval⟩ := Option.bind_eq_some_iff.mp heval
  obtain ⟨frame, pool', hreturns, hdata⟩ := returns_of_requested? heval
  exact ⟨s, frame, pool', run_of_run? hrun, hreturns, hdata, by decide⟩

end Session

end HiveDb
