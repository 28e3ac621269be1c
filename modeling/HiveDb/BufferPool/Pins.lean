import HiveDb.BufferPool.Updates

/-!
# Pins

Two promises of the pool rest on its pins: a page fault finds a frame as long as
one is free or without pins, and a pinned page stays where it is.  Each holds
under a condition on the pool before the call.
-/

namespace HiveDb

open HiveDb.Lib BufferPool

variable {δ B : Type}

namespace Session

variable [DiskManagerT δ B] {s s' : Session δ B} {op : PoolOp B}

/-! ## Page faults -/

def FrameFree (pool : BufferPool δ B) : Prop :=
  pool.emptyFrames ≠ [] ∨ ∃ id frame, pool.Maps id frame ∧ (pool.frames frame).pinCount = 0

/--
In every pool a session reaches, a fault is served whenever a frame is free
exactly if a free frame is among those the pool can take.
-/
theorem fault_returns_iff {pool : BufferPool δ B} {maxFrames : FrameId} {disk : δ}
    {order : IterationOrder PageId FrameId} (hnew : new maxFrames disk order = .ok pool)
    {ops : List (PoolOp B)} (hrun : Run Step (start pool) ops s) {id : PageId} (hid : 0 ≤ id)
    (habsent : s.pool.pageTable.find? id = none) (shouldPin : Bool) :
    (FrameFree s.pool → s.pool.ReturnsFromDisk id shouldPin) ↔
      (FrameFree s.pool → s.pool.CanTake) :=
  imp_congr_right fun _ =>
    returnsFromDisk_iff_canTake (wellFormed_of_run hnew hrun) hid habsent shouldPin

/-- A fault that takes the only frame of a pool, which is dirty and has been unpinned. -/
theorem fault_returns_after_unpin :
    ∃ s : Session (IdealDisk Nat) Nat,
      Run Step (start onePool) [.requestPage 0 0 true, .write 0 0 7, .decreasePinCount 0 0] s ∧
      FrameFree s.pool ∧ s.pool.ReturnsFromDisk 1 true := by
  have heval : ((start onePool).run?
      [.requestPage 0 0 true, .write 0 0 7, .decreasePinCount 0 0]).any (fun s =>
        s.pool.Maps 0 0 ∧ (s.pool.frames 0).pinCount = 0 ∧
        s.pool.hasFrame 0 ∧ (s.pool.frames 0).isDirty = true ∧
        s.pool.pageTable.find? 1 = none) = true := by
    decide +kernel
  obtain ⟨s, hs, hstate⟩ := (Option.any_eq_true _ _).mp heval
  obtain ⟨hmaps, hpin, hframe, hdirty, habsent⟩ := of_decide_eq_true hstate
  have hrun := run_of_run? hs
  have hfree : FrameFree s.pool := .inr ⟨0, 0, hmaps, hpin⟩
  exact ⟨s, hrun, hfree, (fault_returns_iff (new_eq 1 zeroDisk .newestFirst) hrun (by decide)
    habsent true).mpr (fun _ => .inr (.inl ⟨0, hframe, hdirty, hpin⟩)) hfree⟩

/--
A page that has been hit and then unpinned completely keeps its frame: nothing
has marked the frame evictable again, so the next fault throws.
-/
theorem fault_throws_although_free :
    ∃ (s : Session (IdealDisk Nat) Nat) (pool' : BufferPool (IdealDisk Nat) Nat),
      Run Step (start onePool) [.requestPage 0 0 true, .requestPage 0 0 true,
        .decreasePinCount 0 0, .decreasePinCount 0 0] s ∧
      FrameFree s.pool ∧ s.pool.pageTable.find? 1 = none ∧
      requestPage 1 true s.pool = .error
        (.runtimeError "frame_replacer.evict() failed; got -1 or invalid frame") pool' := by
  have heval : ((start onePool).run? [.requestPage 0 0 true, .requestPage 0 0 true,
      .decreasePinCount 0 0, .decreasePinCount 0 0]).any (fun s =>
        s.pool.Maps 0 0 ∧ (s.pool.frames 0).pinCount = 0 ∧
        s.pool.pageTable.find? 1 = none ∧
        failureOf (requestPage 1 true s.pool) = some
          (.runtimeError "frame_replacer.evict() failed; got -1 or invalid frame")) = true := by
    decide +kernel
  obtain ⟨s, hs, hstate⟩ := (Option.any_eq_true _ _).mp heval
  obtain ⟨hmaps, hpin, habsent, hfails⟩ := of_decide_eq_true hstate
  exact ⟨s, _, run_of_run? hs, .inr ⟨0, 0, hmaps, hpin⟩, habsent, eq_error_of_failureOf hfails⟩

/-! ## Pinned pages -/

/--
A pinned page stays mapped to its frame with its bytes, whatever is called,
unless `flush_pages` meets it dirty or `flush_page` is called for it with
`should_evict`.
-/
theorem pinned_page_stays_iff {pool : BufferPool δ B} {maxFrames : FrameId} {disk : δ}
    {order : IterationOrder PageId FrameId} (hnew : new maxFrames disk order = .ok pool)
    {ops : List (PoolOp B)} (hrun : Run Step (start pool) ops s) {id : PageId} {frame : FrameId}
    (hmaps : s.pool.Maps id frame) (hpinned : 1 ≤ (s.pool.frames frame).pinCount)
    (hop : op.mayUnmap = true) (hstep : Step s op s') :
    (s'.pool.Maps id frame ∧ (s'.pool.frames frame).data = (s.pool.frames frame).data) ↔
      ¬ (op = .flushPages ∧ (s.pool.frames frame).isDirty = true) ∧ op ≠ .flushPage id true := by
  have hwf := wellFormed_of_run hnew hrun
  cases hstep with
  | requestReturns returns =>
      obtain ⟨_, hrequest⟩ := request_of_returns hwf returns
      refine iff_of_true ⟨hrequest.keeps_pinned hmaps hpinned, ?_⟩ ⟨by simp, by simp⟩
      exact hrequest.data_eq_of_pinned hwf hmaps hpinned
  | requestThrows throws exception =>
      obtain ⟨_, hrequest⟩ := request_of_throws hwf throws exception
      refine iff_of_true ⟨hrequest.keeps_pinned hmaps hpinned, ?_⟩ ⟨by simp, by simp⟩
      exact hrequest.data_eq_of_pinned hwf hmaps hpinned
  | write => cases hop
  | release => cases hop
  | @flushPage other shouldEvict pool' leaves =>
      rcases flushPage_cases hwf leaves with ⟨habsent, rfl⟩ | ⟨slot, data, hother, _, _, rfl⟩
      · refine iff_of_true ⟨hmaps, rfl⟩ ⟨by simp, ?_⟩
        rintro heq
        cases heq
        cases habsent.symm.trans hmaps
      · cases shouldEvict with
        | false => exact iff_of_true ⟨hmaps, flushed_data⟩ ⟨by simp, by simp⟩
        | true =>
            by_cases heq : other = id
            · subst heq
              refine iff_of_false ?_ ?_
              · rintro ⟨hkept, _⟩
                exact (evicted_maps_iff.mp hkept).1 rfl
              · rintro ⟨_, hne⟩
                exact hne rfl
            · have hkept : ((s.pool.flushed other slot data).evicted other slot).Maps id frame :=
                evicted_maps_iff.mpr ⟨Ne.symm heq, hmaps⟩
              refine iff_of_true ⟨hkept, ?_⟩ ⟨by simp, by simpa using heq⟩
              have hframes := evicted_frames (hwf.flushed other slot data) hother hkept
              exact (congrArg FrameHeader.data hframes).trans flushed_data
  | flushPages leaves =>
      obtain ⟨writes, hflushed⟩ := flushPages_cases hwf leaves
      constructor
      · rintro ⟨hkept, _⟩
        have hclean := ((hflushed.maps_iff id frame).mp hkept).2
        refine ⟨?_, by simp⟩
        rintro ⟨_, hdirty⟩
        rw [hclean] at hdirty
        cases hdirty
      · rintro ⟨hclean, _⟩
        have hkept := (hflushed.maps_iff id frame).mpr
          ⟨hmaps, Bool.eq_false_iff.mpr fun hdirty => hclean ⟨rfl, hdirty⟩⟩
        exact ⟨hkept, congrArg FrameHeader.data (hflushed.frames_eq id frame hkept)⟩

/-- A fault that finds the only frame pinned throws and leaves the pinned page alone. -/
theorem pinned_page_stays_on_fault :
    ∃ s s' : Session (IdealDisk Nat) Nat,
      Run Step (start onePool) [.requestPage 0 0 true] s ∧ Step s (.requestPage 1 1 true) s' ∧
      s'.pool.Maps 0 0 ∧ (s'.pool.frames 0).data = (s.pool.frames 0).data := by
  have heval : ((start onePool).run? [.requestPage 0 0 true]).any (fun s =>
      s.pool.Maps 0 0 ∧ 1 ≤ (s.pool.frames 0).pinCount ∧
      (s.next? (.requestPage 1 1 true)).isSome) = true := by
    decide +kernel
  obtain ⟨s, hs, hstate⟩ := (Option.any_eq_true _ _).mp heval
  obtain ⟨hmaps, hpinned, hnext⟩ := of_decide_eq_true hstate
  obtain ⟨s', hs'⟩ := Option.isSome_iff_exists.mp hnext
  have hrun := run_of_run? hs
  have hstep := step_of_next? hs'
  exact ⟨s, s', hrun, hstep, (pinned_page_stays_iff (new_eq 1 zeroDisk .newestFirst) hrun hmaps
    hpinned rfl hstep).mpr ⟨by simp, by simp⟩⟩

/--
Pinned pages that are taken away: by `flush_pages` from the client that has
written to the page, and by another holder's `flush_page` from a client that
shares it.
-/
theorem pinned_page_unmapped :
    (∃ s s' : Session (IdealDisk Nat) Nat,
      Run Step (start onePool) [.requestPage 0 0 true, .write 0 0 7] s ∧
      s.pins 0 0 = 1 ∧ s.pool.Maps 0 0 ∧ (s.pool.frames 0).pinCount = 1 ∧
      Step s .flushPages s' ∧ ¬ s'.pool.Maps 0 0) ∧
    ∃ s s' : Session (IdealDisk Nat) Nat,
      Run Step (start onePool) [.requestPage 0 0 true, .requestPage 1 0 true, .write 0 0 7] s ∧
      s.pins 0 0 = 1 ∧ s.pins 1 0 = 1 ∧ s.pool.Maps 0 0 ∧ (s.pool.frames 0).pinCount = 2 ∧
      Step s (.flushPage 0 true) s' ∧ ¬ s'.pool.Maps 0 0 := by
  constructor
  · have heval : ((start onePool).run? [.requestPage 0 0 true, .write 0 0 7]).any (fun s =>
        s.pins 0 0 = 1 ∧ s.pool.Maps 0 0 ∧ (s.pool.frames 0).pinCount = 1 ∧
        (s.next? .flushPages).any (fun s' => ¬ s'.pool.Maps 0 0) = true) =
        true := by
      decide +kernel
    obtain ⟨s, hs, hstate⟩ := (Option.any_eq_true _ _).mp heval
    obtain ⟨hpins, hmaps, hpinned, hnext⟩ := of_decide_eq_true hstate
    obtain ⟨s', hs', hunmapped⟩ := (Option.any_eq_true _ _).mp hnext
    exact ⟨s, s', run_of_run? hs, hpins, hmaps, hpinned, step_of_next? hs',
      of_decide_eq_true hunmapped⟩
  · have heval : ((start onePool).run?
        [.requestPage 0 0 true, .requestPage 1 0 true, .write 0 0 7]).any (fun s =>
        s.pins 0 0 = 1 ∧ s.pins 1 0 = 1 ∧ s.pool.Maps 0 0 ∧
        (s.pool.frames 0).pinCount = 2 ∧
        (s.next? (.flushPage 0 true)).any (fun s' => ¬ s'.pool.Maps 0 0) =
          true) = true := by
      decide +kernel
    obtain ⟨s, hs, hstate⟩ := (Option.any_eq_true _ _).mp heval
    obtain ⟨hpins, hpins', hmaps, hpinned, hnext⟩ := of_decide_eq_true hstate
    obtain ⟨s', hs', hunmapped⟩ := (Option.any_eq_true _ _).mp hnext
    exact ⟨s, s', run_of_run? hs, hpins, hpins', hmaps, hpinned, step_of_next? hs',
      of_decide_eq_true hunmapped⟩

end Session

end HiveDb
