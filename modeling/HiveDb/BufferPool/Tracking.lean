import HiveDb.BufferPool.Bookkeeping
import HiveDb.BufferPool.Eviction

/-!
# The replacer of a pool

In every pool that is reached the histories of the replacer are in order, so a
victim is found whenever some frame is evictable.  A request that finds no frame
has then dropped the node of a pinned frame, and is without effect only when
nothing is evictable.  The other accidents of the nodes are a page fault that
records two accesses and an eviction whose frame the replacer does not remove.
-/

namespace HiveDb

open HiveDb.Lib BufferPool

variable {δ B : Type}

/-! ## Frames that are removed -/

namespace LruK

variable {replacer : LruK} {id other : FrameId} {node : LruKNode}

/-- Only the node of an evictable frame is removed. -/
theorem getElem?_removed_self :
    (replacer.removed id).currentNodes[id]? =
      (replacer.currentNodes[id]?).filter fun node => ! node.isEvictable := by
  unfold removed
  cases hnode : replacer.currentNodes[id]? with
  | none => exact hnode
  | some node =>
      cases hevictable : node.isEvictable with
      | false =>
          simp only [Bool.false_eq_true, if_false, hnode, Option.filter_some, hevictable]
          rfl
      | true =>
          simp only [if_true, getElem?_eraseNode_self, Option.filter_some, hevictable]
          rfl

theorem getElem?_removed_ne (hne : other ≠ id) :
    (replacer.removed id).currentNodes[other]? = replacer.currentNodes[other]? := by
  rcases removed_cases replacer id with heq | heq
  · rw [heq]
  · rw [heq]
    exact getElem?_eraseNode_ne hne

theorem getElem?_foldl_removed (frames : List FrameId) :
    (frames.foldl removed replacer).currentNodes[id]? =
      if id ∈ frames then (replacer.currentNodes[id]?).filter fun node => ! node.isEvictable
      else replacer.currentNodes[id]? := by
  induction frames generalizing replacer with
  | nil => exact (if_neg List.not_mem_nil).symm
  | cons first rest ih =>
      rw [List.foldl_cons, ih]
      by_cases heq : id = first
      · subst heq
        rw [getElem?_removed_self, if_pos List.mem_cons_self, Option.filter_filter]
        simp
      · rw [getElem?_removed_ne heq]
        simp [heq]

theorem Timely.foldl_removed (h : replacer.Timely) (frames : List FrameId) :
    (frames.foldl LruK.removed replacer).Timely := by
  induction frames generalizing replacer with
  | nil => exact h
  | cons first rest ih => exact ih (h.removed first)

theorem evictableSize_eq_zero_iff : replacer.evictableSize = 0 ↔ ¬ replacer.SomeEvictable := by
  rw [evictableSize, List.sum_eq_zero_iff_forall_eq_nat]
  constructor
  · rintro hzero ⟨id, node, hnode, hevictable⟩
    have hentry := hzero 1 (List.mem_map.mpr ⟨(id, node), mem_nodes_iff.mpr hnode, by
      rw [if_pos hevictable]⟩)
    cases hentry
  · intro hnone count hmem
    obtain ⟨⟨id, node⟩, hentry, rfl⟩ := List.mem_map.mp hmem
    refine if_neg fun hevictable => ?_
    exact hnone ⟨id, node, mem_nodes_iff.mp hentry, hevictable⟩

end LruK

/-! ## The histories of a pool -/

namespace BufferPool

variable [DiskManagerT δ B] {pool pool' : BufferPool δ B} {id : PageId} {frame : FrameId}
variable {shouldPin : Bool} {failure : Failure}

theorem Request.timely {result : EStateM.Result Failure (BufferPool δ B) FrameId}
    (hrequest : Request pool id shouldPin result) (hwf : pool.WellFormed)
    (htimely : pool.frameReplacer.Timely) : (stateOf result).frameReplacer.Timely := by
  have hrange : ∀ {frame}, pool.hasFrame frame → 0 ≤ frame ∧ frame < pool.frameReplacer.size :=
    fun hframe => ⟨hframe.1, hwf.lt_size hframe⟩
  cases hrequest with
  | hit maps => exact (htimely.accessed (hrange (hwf.hasFrame_of_maps maps))).flagged _ false
  | empty absent free =>
      have hframe := hwf.hasFrame_of_empty (by rw [free]; exact List.mem_cons_self)
      refine (htimely.flagged _ true).accessed ?_
      rw [LruK.flagged_size]
      exact hrange hframe
  | dirty fault scan maps data_eq =>
      have hframe := hrange (hwf.hasFrame_of_maps maps)
      refine (((htimely.removed _).accessed ?_).flagged _ true).accessed ?_
      · rw [LruK.removed_size]
        exact hframe
      · rw [LruK.flagged_size, LruK.accessed_size, LruK.removed_size]
        exact hframe
  | @victim frame owner fault scan picked unpinned maps =>
      have hframe := hrange (hwf.hasFrame_of_maps maps)
      refine (((htimely.eraseNode frame).removed frame).flagged _ true).accessed ?_
      rw [LruK.flagged_size, LruK.removed_size]
      exact hframe
  | noVictim => exact htimely
  | pinned => exact htimely.eraseNode _

end BufferPool

namespace PoolCall

variable [DiskManagerT δ B] {pool pool' : BufferPool δ B} {call : PoolCall B}

theorem Step.timely (hstep : Step pool call pool') (hwf : pool.WellFormed)
    (htimely : pool.frameReplacer.Timely) : pool'.frameReplacer.Timely := by
  cases hstep with
  | client step =>
      cases step with
      | requestReturns returns => exact (request_of_returns hwf returns).2.timely hwf htimely
      | requestThrows throws exception =>
          exact (request_of_throws hwf throws exception).2.timely hwf htimely
      | write => exact htimely
      | release => exact htimely
      | @flushPage id shouldEvict pool' leaves =>
          rcases flushPage_cases hwf leaves with ⟨_, rfl⟩ | ⟨frame, data, _, _, _, rfl⟩
          · exact htimely
          · cases shouldEvict with
            | false => exact htimely
            | true => exact htimely.removed frame
      | flushPages leaves =>
          obtain ⟨flag, pool'', _, heval, _⟩ := flushPages_spec hwf
          cases leaves.eq_of_ok heval
          obtain ⟨frames, hreplacer, _⟩ := flushPages_frameReplacer hwf heval
          rw [hreplacer]
          exact htimely.foldl_removed frames
  | evictPage maps returns =>
      cases (evictPage_eq hwf maps).symm.trans returns
      exact htimely.removed _

theorem timely_of_run {start : BufferPool δ B} {maxFrames : FrameId} {disk : δ}
    {order : IterationOrder PageId FrameId} (hnew : new maxFrames disk order = .ok start)
    {calls : List (PoolCall B)} (hrun : Run Step start calls pool) :
    pool.WellFormed ∧ pool.frameReplacer.Timely := by
  obtain ⟨n, rfl, rfl⟩ := eq_initial_of_new hnew
  exact hrun.invariant (fun _ pool => pool.WellFormed ∧ pool.frameReplacer.Timely)
    ⟨.initial n disk order, .of_empty rfl⟩ fun _ _ _ _ ⟨hwf, htimely⟩ hstep =>
      ⟨(hstep.wellFormed hwf).1, hstep.timely hwf htimely⟩

end PoolCall

/-! ## Requests that find no frame -/

namespace BufferPool

variable [DiskManagerT δ B] {pool pool' : BufferPool δ B} {id : PageId} {frame : FrameId}
variable {shouldPin : Bool} {failure : Failure}

/-- The table, the frames and the free list are as before, and so are the replacer's nodes. -/
structure Unchanged (pool pool' : BufferPool δ B) : Prop where
  pageTable_eq : pool'.pageTable = pool.pageTable
  frames_eq : pool'.frames = pool.frames
  emptyFrames_eq : pool'.emptyFrames = pool.emptyFrames
  nodes_eq : ∀ frame : FrameId,
    pool'.frameReplacer.currentNodes[frame]? = pool.frameReplacer.currentNodes[frame]?

/-- The request throws because it finds no frame. -/
def ThrowsNoFrame (pool : BufferPool δ B) (id : PageId) (shouldPin : Bool) : Prop :=
  ∃ failure pool', requestPage id shouldPin pool = .error failure pool' ∧ NoFrame failure

theorem NoFrame.isException (h : NoFrame failure) : failure.isException = true := by
  cases h <;> rfl

/-- A request that has failed without taking a victim fails again. -/
theorem throwsNoFrame_afterRead (hwf : pool.WellFormed) (hid : 0 ≤ id)
    (hthrows : requestPage id shouldPin pool = .error failure pool') :
    (pool.afterRead id).ThrowsNoFrame id shouldPin := by
  have hread := hwf.afterRead id
  have hspec := requestPage_spec hread hid shouldPin
  cases hagain : requestPage id shouldPin (pool.afterRead id) with
  | ok slot after =>
      -- whether a request returns does not depend on the disk
      have htake := (returns_iff hread hid shouldPin).mp ⟨slot, after, hagain⟩
      obtain ⟨_, _, hreturns⟩ := (returns_iff hwf hid shouldPin).mpr htake
      cases hthrows.symm.trans hreturns
  | error second after =>
      rw [hagain] at hspec
      exact ⟨second, after, hagain, hspec.noFrame⟩

end BufferPool

namespace PoolCall

variable [DiskManagerT δ B] {pool pool' : BufferPool δ B}

/--
A request that finds no frame leaves everything as it was, and throws again when
it is repeated, exactly if the replacer counts no evictable frame before it.
-/
theorem failed_request_unchanged_iff {start : BufferPool δ B} {maxFrames : FrameId} {disk : δ}
    {order : IterationOrder PageId FrameId} (hnew : new maxFrames disk order = .ok start)
    {calls : List (PoolCall B)} (hrun : Run Step start calls pool) {id : PageId}
    {shouldPin : Bool} {failure : Failure}
    (hthrows : requestPage id shouldPin pool = .error failure pool') (hfailure : NoFrame failure) :
    (pool.Unchanged pool' ∧ pool'.ThrowsNoFrame id shouldPin) ↔
      pool.frameReplacer.evictableSize = 0 := by
  obtain ⟨hwf, htimely⟩ := timely_of_run hnew hrun
  obtain ⟨hid, hrequest⟩ := request_of_throws hwf hthrows hfailure.isException
  have hk : 2 ≤ pool.frameReplacer.k := hwf.replacer_k ▸ (by decide)
  rw [LruK.evictableSize_eq_zero_iff, ← LruK.exists_victim_iff htimely hk]
  cases hrequest with
  | noVictim fault scan none =>
      refine iff_of_true ⟨⟨rfl, rfl, rfl, fun _ => rfl⟩, ?_⟩ (not_exists.mpr none)
      exact throwsNoFrame_afterRead hwf hid hthrows
  | @pinned frame fault scan picked pinned =>
      refine iff_of_false (fun ⟨hunchanged, _⟩ => ?_) (not_not.mpr ⟨frame, picked⟩)
      obtain ⟨node, hnode, _⟩ := picked.tracked
      have hnodes := hunchanged.nodes_eq frame
      rw [hnode] at hnodes
      cases LruK.getElem?_eraseNode_self.symm.trans hnodes

/-- A hit takes the evictable flag of the only frame, so the next fault changes nothing. -/
theorem failed_request_unchanged_after_hit :
    ∃ (pool pool' : BufferPool (IdealDisk Nat) Nat),
      Run Step Session.onePool [.client (.requestPage 0 0 true), .client (.requestPage 0 0 true)]
        pool ∧
      requestPage 1 true pool = .error
        (.runtimeError "frame_replacer.evict() failed; got -1 or invalid frame") pool' ∧
      pool.Unchanged pool' ∧ pool'.ThrowsNoFrame 1 true := by
  have heval : ((Session.start Session.onePool).run?
      [.requestPage 0 0 true, .requestPage 0 0 true]).any (fun s =>
        failureOf (requestPage 1 true s.pool) = some
          (.runtimeError "frame_replacer.evict() failed; got -1 or invalid frame") ∧
        s.pool.frameReplacer.evictableSize = 0) = true := by
    decide +kernel
  obtain ⟨s, hs, hstate⟩ := (Option.any_eq_true _ _).mp heval
  obtain ⟨hfails, hsize⟩ := of_decide_eq_true hstate
  have hrun := run_of_session (Session.run_of_run? hs)
  have hthrows := eq_error_of_failureOf hfails
  exact ⟨s.pool, _, hrun, hthrows, (failed_request_unchanged_iff
    (new_eq 1 Session.zeroDisk .newestFirst) hrun hthrows .noVictim).mpr hsize⟩

def twoPool : BufferPool (IdealDisk Nat) Nat := initial 2 Session.zeroDisk .newestFirst

/--
Two pages are loaded and the second one is unpinned.  The fault that follows
throws, as the first frame is picked and pinned; repeated, it returns the second.
-/
theorem failed_request_drops_node :
    ∃ (pool pool' pool'' : BufferPool (IdealDisk Nat) Nat),
      Run Step twoPool [.client (.requestPage 0 0 true), .client (.requestPage 0 1 true),
        .client (.decreasePinCount 0 1)] pool ∧
      requestPage 2 true pool = .error
        (.runtimeError "VICTIM IS PINNED! maybe this a oom? needs more testing.") pool' ∧
      ¬ pool.Unchanged pool' ∧ requestPage 2 true pool' = .ok 1 pool'' := by
  have heval : ((Session.start twoPool).run?
      [.requestPage 0 0 true, .requestPage 0 1 true, .decreasePinCount 0 1]).any (fun s =>
        failureOf (requestPage 2 true s.pool) = some
          (.runtimeError "VICTIM IS PINNED! maybe this a oom? needs more testing.") ∧
        (stateOf (requestPage 2 true s.pool)).frameReplacer.currentNodes[(0 : FrameId)]? ≠
          s.pool.frameReplacer.currentNodes[(0 : FrameId)]? ∧
        resultOf (requestPage 2 true (stateOf (requestPage 2 true s.pool))) = some 1) = true := by
    decide +kernel
  obtain ⟨s, hs, hstate⟩ := (Option.any_eq_true _ _).mp heval
  obtain ⟨hfails, hnodes, hreturns⟩ := of_decide_eq_true hstate
  exact ⟨s.pool, _, _, run_of_session (Session.run_of_run? hs), eq_error_of_failureOf hfails,
    fun hunchanged => hnodes (hunchanged.nodes_eq 0), eq_ok_of_resultOf hreturns⟩

end PoolCall

/-! ## Nodes and resident pages -/

namespace BufferPool

variable {pool : BufferPool δ B} {id owner other : PageId} {frame slot : FrameId}
variable {served : FrameId → Nat}

/--
The frames with a node are the mapped ones, and each has one timestamp for each
request it has served.
-/
structure Tracks (pool : BufferPool δ B) (served : FrameId → Nat) : Prop where
  mapped : ∀ {id : PageId} {frame : FrameId}, pool.Maps id frame →
    ∃ node, pool.frameReplacer.currentNodes[frame]? = some node ∧
      node.history.length = served frame
  unmapped : ∀ {frame : FrameId}, (∀ id, ¬ pool.Maps id frame) →
    pool.frameReplacer.currentNodes[frame]? = none

/-- The frame has a node that is flagged evictable. -/
def HasEvictable (pool : BufferPool δ B) (frame : FrameId) : Prop :=
  ∃ node, pool.frameReplacer.currentNodes[frame]? = some node ∧ node.isEvictable = true

theorem Tracks.initial (maxFrames : Nat) (disk : δ) (order : IterationOrder PageId FrameId) :
    (initial maxFrames disk order : BufferPool δ B).Tracks served where
  mapped hmaps := nomatch (UnorderedMap.find?_empty order _).symm.trans hmaps
  unmapped _ := Std.TreeMap.getElem?_emptyc

/-- A page is unmapped and its frame has no node any more. -/
theorem Tracks.unmapping (h : pool.Tracks served) (hwf : pool.WellFormed)
    (hmaps : pool.Maps id frame) {pool' : BufferPool δ B}
    (hiff : ∀ other slot, pool'.Maps other slot ↔ other ≠ id ∧ pool.Maps other slot)
    (hself : pool'.frameReplacer.currentNodes[frame]? = none)
    (hne : ∀ slot : FrameId, slot ≠ frame → pool'.frameReplacer.currentNodes[slot]? =
      pool.frameReplacer.currentNodes[slot]?) : pool'.Tracks served where
  mapped {other slot} hother := by
    obtain ⟨hid, hbefore⟩ := (hiff other slot).mp hother
    rw [hne slot fun heq => hid (hwf.maps_inj (heq ▸ hbefore) hmaps)]
    exact h.mapped hbefore
  unmapped {slot} hnone := by
    by_cases heq : slot = frame
    · rw [heq]
      exact hself
    · rw [hne slot heq]
      refine h.unmapped fun other hother => hnone other ((hiff other slot).mpr ⟨?_, hother⟩)
      rintro rfl
      exact heq (Option.some.inj (hother.symm.trans hmaps))

/-- Evicting a page keeps the nodes in step exactly if the page's frame is flagged evictable. -/
theorem Tracks.evicted_iff (h : pool.Tracks served) (hwf : pool.WellFormed)
    (hmaps : pool.Maps id frame) :
    (pool.evicted id frame).Tracks served ↔ pool.HasEvictable frame := by
  obtain ⟨node, hnode, _⟩ := h.mapped hmaps
  have hself : (pool.evicted id frame).frameReplacer.currentNodes[frame]? =
      (some node).filter fun node => ! node.isEvictable :=
    LruK.getElem?_removed_self.trans (by rw [hnode])
  constructor
  · intro hafter
    have hnone : (pool.evicted id frame).frameReplacer.currentNodes[frame]? = none :=
      hafter.unmapped fun other hother => by
        obtain ⟨hne, hbefore⟩ := evicted_maps_iff.mp hother
        exact hne (hwf.maps_inj hbefore hmaps)
    refine ⟨node, hnode, ?_⟩
    simpa using hself.symm.trans hnone
  · rintro ⟨node', hnode', hevictable⟩
    cases hnode.symm.trans hnode'
    refine h.unmapping hwf hmaps (fun other slot => evicted_maps_iff) ?_ fun slot hne =>
      LruK.getElem?_removed_ne hne
    rw [hself, Option.filter_some, hevictable]
    rfl

/-- A page is loaded into a free slot: its one request is recorded. -/
theorem Tracks.loaded (h : pool.Tracks served) (hwf : pool.WellFormed)
    (habsent : pool.pageTable.find? id = none) {rest : List FrameId}
    (hempty : pool.emptyFrames = frame :: rest) (buffer : B) (shouldPin : Bool) :
    (pool.loaded id frame buffer shouldPin (replacerAfterLoad pool.frameReplacer frame)).Tracks
      (Function.update served frame 1) := by
  have hfree : ∀ other, ¬ pool.Maps other frame := fun other =>
    hwf.not_maps_of_empty (by rw [hempty]; exact List.mem_cons_self)
  have hhistory : (pool.frameReplacer.flagged frame true).historyOf frame = [] := by
    refine LruK.historyOf_of_absent ?_
    rw [LruK.getElem?_flagged_self, h.unmapped hfree]
    rfl
  have hne : ∀ slot : FrameId, slot ≠ frame →
      (replacerAfterLoad pool.frameReplacer frame).currentNodes[slot]? =
        pool.frameReplacer.currentNodes[slot]? := fun slot hslot =>
    (LruK.getElem?_accessed_ne hslot).trans (LruK.getElem?_flagged_ne true hslot)
  refine ⟨fun {other slot} hmaps => ?_, fun {slot} hnone => ?_⟩
  · by_cases heq : slot = frame
    · subst heq
      refine ⟨_, LruK.getElem?_accessed_self, ?_⟩
      rw [hhistory, Function.update_self]
      rfl
    · have hother : other ≠ id := by
        rintro rfl
        exact heq (Option.some.inj (hmaps.symm.trans (loaded_maps_self buffer shouldPin _)))
      rw [BufferPool.loaded, hne slot heq, Function.update_of_ne heq]
      exact h.mapped ((loaded_maps_iff hother buffer shouldPin _).mp hmaps)
  · have heq : slot ≠ frame := by
      rintro rfl
      exact hnone id (loaded_maps_self buffer shouldPin _)
    rw [BufferPool.loaded, hne slot heq]
    refine h.unmapped fun other hmaps => hnone other ?_
    refine (loaded_maps_iff ?_ buffer shouldPin _).mpr hmaps
    rintro rfl
    cases habsent.symm.trans hmaps

/-- A request of a mapped page is recorded once. -/
theorem Tracks.touched (h : pool.Tracks served) (hmaps : pool.Maps id frame) (shouldPin : Bool) :
    (pool.touched frame shouldPin).Tracks
      (Function.update served frame (served frame + 1)) := by
  have hne : ∀ slot : FrameId, slot ≠ frame →
      (pool.touched frame shouldPin).frameReplacer.currentNodes[slot]? =
        pool.frameReplacer.currentNodes[slot]? := fun slot hslot =>
    (LruK.getElem?_flagged_ne false hslot).trans (LruK.getElem?_accessed_ne hslot)
  refine ⟨fun {other slot} hother => ?_, fun {slot} hnone => ?_⟩
  · by_cases heq : slot = frame
    · subst heq
      obtain ⟨node, hnode, hlength⟩ := h.mapped hmaps
      have hflagged : (pool.touched slot shouldPin).frameReplacer.currentNodes[slot]? =
          ((pool.frameReplacer.accessed slot).currentNodes[slot]?).map fun node =>
            { node with isEvictable := false } := LruK.getElem?_flagged_self false
      rw [LruK.getElem?_accessed_self] at hflagged
      refine ⟨_, hflagged, ?_⟩
      rw [Function.update_self, LruK.historyOf_of_node hnode, List.length_append, hlength]
      rfl
    · rw [hne slot heq, Function.update_of_ne heq]
      exact h.mapped hother
  · rw [hne slot (by rintro rfl; exact hnone id hmaps)]
    exact h.unmapped hnone

/-- The counts after a request that has returned the frame. -/
def servedAfter (pool : BufferPool δ B) (served : FrameId → Nat) (id : PageId) (frame : FrameId) :
    FrameId → Nat :=
  Function.update served frame (if pool.Maps id frame then served frame + 1 else 1)

variable [DiskManagerT δ B] {pool' : BufferPool δ B} {shouldPin : Bool}

/-- A request finds no dirty frame to write back, and no pinned victim. -/
def FaultOrderly (pool : BufferPool δ B) (id : PageId) : Prop :=
  pool.FullFault id → pool.dirtyUnpinned? = none ∧
    ∀ frame, pool.frameReplacer.IsVictim frame → (pool.frames frame).pinCount ≤ 0

/-- A request that returns keeps the nodes in step exactly if it writes no page back. -/
theorem Request.tracks_iff_of_ok (hrequest : Request pool id shouldPin (.ok frame pool'))
    (hwf : pool.WellFormed) (h : pool.Tracks served) :
    pool'.Tracks (pool.servedAfter served id frame) ↔ pool.FaultOrderly id := by
  have hread : (pool.afterRead id).Tracks served := ⟨h.mapped, h.unmapped⟩
  have hfresh : pool.pageTable.find? id = none →
      pool.servedAfter served id frame = Function.update served frame 1 := by
    intro habsent
    rw [servedAfter, if_neg]
    intro hmaps
    cases habsent.symm.trans hmaps
  cases hrequest with
  | hit maps =>
      refine iff_of_true ?_ fun hfault => ?_
      · rw [servedAfter, if_pos maps]
        exact h.touched maps shouldPin
      · cases hfault.absent.symm.trans maps
  | empty absent free =>
      refine iff_of_true ?_ fun hfault => ?_
      · rw [hfresh absent]
        exact hread.loaded (hwf.afterRead id) absent free _ shouldPin
      · cases hfault.full.symm.trans free
  | @dirty _ owner data fault scan maps data_eq =>
      refine iff_of_false (fun hafter => ?_) fun horderly => ?_
      · -- two accesses are recorded for one request
        obtain ⟨node, hnode, hlength⟩ := hafter.mapped (loaded_maps_self _ _ _)
        rw [hfresh fault.absent, Function.update_self] at hlength
        cases (show (LruK.accessed (((pool.frameReplacer.removed frame).accessed frame).flagged
          frame true) frame).currentNodes[frame]? = _ from
            LruK.getElem?_accessed_self).symm.trans hnode
        rw [LruK.historyOf_of_node ((LruK.getElem?_flagged_self true).trans
          (congrArg _ LruK.getElem?_accessed_self))] at hlength
        simp at hlength
      · cases (horderly fault).1.symm.trans scan
  | @victim _ owner fault scan picked unpinned maps =>
      refine iff_of_true ?_ fun _ => ⟨scan, fun slot hvictim => ?_⟩
      · rw [hfresh fault.absent]
        have hwf' := (hwf.afterRead id).withoutVictim frame
        have hevicted : (((pool.afterRead id).withoutVictim frame).evicted owner frame).Tracks
            served := by
          refine hread.unmapping (hwf.afterRead id) maps (fun other slot => evicted_maps_iff) ?_ ?_
          · refine LruK.getElem?_removed_self.trans ?_
            rw [BufferPool.withoutVictim, LruK.getElem?_eraseNode_self]
            rfl
          · intro slot hne
            exact (LruK.getElem?_removed_ne hne).trans (LruK.getElem?_eraseNode_ne hne)
        have hfree : (((pool.afterRead id).withoutVictim frame).evicted owner
            frame).emptyFrames = [frame] := congrArg (· ++ [frame]) fault.full
        refine hevicted.loaded (hwf'.evicted maps) ?_ hfree _ shouldPin
        exact (UnorderedMap.find?_erase_ne (fault.ne_of_maps maps)).trans fault.absent
      · rw [hvictim.unique picked]
        exact unpinned

/-- A request that throws keeps the nodes exactly if it has dropped no pinned victim. -/
theorem Request.tracks_iff_of_error {failure : Failure}
    (hrequest : Request pool id shouldPin (.error failure pool')) (hwf : pool.WellFormed)
    (h : pool.Tracks served) : pool'.Tracks served ↔ pool.FaultOrderly id := by
  cases hrequest with
  | noVictim fault scan none =>
      exact iff_of_true ⟨h.mapped, h.unmapped⟩ fun _ =>
        ⟨scan, fun slot hvictim => absurd hvictim (none slot)⟩
  | @pinned frame fault scan picked pinned =>
      refine iff_of_false (fun hafter => ?_) fun horderly => ?_
      · obtain ⟨owner, hmaps⟩ :=
          hwf.exists_maps_of_full fault.full (hasFrame_of_isVictim hwf picked)
        obtain ⟨node, hnode, _⟩ := hafter.mapped (show Maps _ owner frame from hmaps)
        cases LruK.getElem?_eraseNode_self.symm.trans hnode
      · exact absurd ((horderly fault).2 frame picked) (Int.not_le.mpr pinned)

/-- The dirty pages that `flush_pages` evicts. -/
theorem tracks_flushPages_iff (hwf : pool.WellFormed) (h : pool.Tracks served)
    (hleaves : Leaves flushPages pool pool') :
    pool'.Tracks served ↔ ∀ id frame, pool.Maps id frame →
      (pool.frames frame).isDirty = true → pool.HasEvictable frame := by
  obtain ⟨flag, after, writes, heval, hflushed⟩ := flushPages_spec hwf
  cases hleaves.eq_of_ok heval
  obtain ⟨frames, hreplacer, hmem⟩ := flushPages_frameReplacer hwf heval
  have hnodes : ∀ frame : FrameId, pool'.frameReplacer.currentNodes[frame]? =
      if frame ∈ frames then
        (pool.frameReplacer.currentNodes[frame]?).filter fun node => ! node.isEvictable
      else pool.frameReplacer.currentNodes[frame]? := by
    intro frame
    rw [hreplacer]
    exact LruK.getElem?_foldl_removed frames
  constructor
  · intro hafter id frame hmaps hdirty
    have hnone : pool'.frameReplacer.currentNodes[frame]? = none :=
      hafter.unmapped fun other hother => by
        have hclean := ((hflushed.maps_iff other frame).mp hother).2
        rw [hdirty] at hclean
        cases hclean
    obtain ⟨node, hnode, _⟩ := h.mapped hmaps
    rw [hnodes, if_pos ((hmem frame).mpr ⟨⟨id, hmaps⟩, hdirty⟩), hnode] at hnone
    exact ⟨node, hnode, by simpa using hnone⟩
  · intro hevictable
    refine ⟨fun {id frame} hmaps => ?_, fun {frame} hnone => ?_⟩
    · obtain ⟨hbefore, hclean⟩ := (hflushed.maps_iff id frame).mp hmaps
      rw [hnodes, if_neg]
      · exact h.mapped hbefore
      · intro hframe
        rw [((hmem frame).mp hframe).2] at hclean
        cases hclean
    · rw [hnodes]
      split
      next hframe =>
        obtain ⟨⟨id, hmaps⟩, hdirty⟩ := (hmem frame).mp hframe
        obtain ⟨node, hnode, hflag⟩ := hevictable id frame hmaps hdirty
        rw [hnode, Option.filter_some, hflag]
        rfl
      next hframe =>
        refine h.unmapped fun id hmaps => ?_
        refine hnone id ((hflushed.maps_iff id frame).mpr ⟨hmaps, ?_⟩)
        exact Bool.eq_false_iff.mpr fun hdirty => hframe ((hmem frame).mpr ⟨⟨id, hmaps⟩, hdirty⟩)

end BufferPool

/-- A session with how often each frame has been returned since its page was loaded. -/
structure Counted (δ B : Type) where
  session : Session δ B
  served : FrameId → Nat

namespace Counted

def start (pool : BufferPool δ B) : Counted δ B := ⟨.start pool, fun _ => 0⟩

variable [DiskManagerT δ B]

/-- The counts after an operation: a request that returns adds to the count of its frame. -/
def serve (counted : Counted δ B) : PoolOp B → FrameId → Nat
  | .requestPage _ id shouldPin =>
      match resultOf (requestPage id shouldPin counted.session.pool) with
      | some frame => counted.session.pool.servedAfter counted.served id frame
      | none => counted.served
  | _ => counted.served

def Step (counted : Counted δ B) (op : PoolOp B) (counted' : Counted δ B) : Prop :=
  Session.Step counted.session op counted'.session ∧ counted'.served = counted.serve op

/-- The frames with a node are the mapped ones, one timestamp for each request served. -/
def Tracks (counted : Counted δ B) : Prop := counted.session.pool.Tracks counted.served

/--
A full pool is not asked for a page while a dirty frame is unpinned or the
victim is pinned, and pages are evicted only from frames flagged evictable.
-/
def Orderly (pool : BufferPool δ B) : PoolOp B → Prop
  | .requestPage _ id _ => pool.FaultOrderly id
  | .flushPage id shouldEvict =>
      shouldEvict = true → ∀ frame, pool.Maps id frame → pool.HasEvictable frame
  | .flushPages => ∀ id frame, pool.Maps id frame → (pool.frames frame).isDirty = true →
      pool.HasEvictable frame
  | _ => True

def OrderlyStep (counted : Counted δ B) (op : PoolOp B) (counted' : Counted δ B) : Prop :=
  Step counted op counted' ∧ Orderly counted.session.pool op

variable {counted counted' : Counted δ B} {op : PoolOp B}

/-- A step keeps the nodes in step with the pages exactly if it is an orderly one. -/
theorem Step.tracks_iff (hstep : Step counted op counted') (hwf : counted.session.pool.WellFormed)
    (h : counted.Tracks) : counted'.Tracks ↔ Orderly counted.session.pool op := by
  obtain ⟨session, served⟩ := counted
  obtain ⟨session', served'⟩ := counted'
  obtain ⟨hsession, rfl⟩ := hstep
  cases hsession with
  | requestReturns returns =>
      have hrequest := (request_of_returns hwf returns).2
      simp only [Tracks, serve, returns, resultOf]
      exact hrequest.tracks_iff_of_ok hwf h
  | requestThrows throws exception =>
      have hrequest := (request_of_throws hwf throws exception).2
      simp only [Tracks, serve, throws, resultOf]
      exact hrequest.tracks_iff_of_error hwf h
  | write => exact iff_of_true ⟨h.mapped, h.unmapped⟩ trivial
  | release => exact iff_of_true ⟨h.mapped, h.unmapped⟩ trivial
  | @flushPage id shouldEvict pool' leaves =>
      rcases flushPage_cases hwf leaves with ⟨habsent, rfl⟩ | ⟨frame, data, hmaps, _, _, rfl⟩
      · refine iff_of_true h fun _ frame hmaps => ?_
        cases habsent.symm.trans hmaps
      · have hflushed : (session.pool.flushed id frame data).Tracks served :=
          ⟨h.mapped, h.unmapped⟩
        cases shouldEvict with
        | false => exact iff_of_true hflushed fun heq => nomatch heq
        | true =>
            refine (hflushed.evicted_iff (hwf.flushed id frame data) hmaps).trans ?_
            refine ⟨fun hevictable _ slot hslot => ?_, fun horderly => horderly rfl frame hmaps⟩
            cases hmaps.symm.trans hslot
            exact hevictable
  | flushPages leaves => exact tracks_flushPages_iff hwf h leaves

/-- The next counts and state, if the session can make the step. -/
def next? (counted : Counted δ B) (op : PoolOp B) : Option (Counted δ B) :=
  (counted.session.next? op).map (⟨·, counted.serve op⟩)

theorem step_of_next? (h : counted.next? op = some counted') : Step counted op counted' := by
  obtain ⟨session', hnext, rfl⟩ := Option.map_eq_some_iff.mp h
  exact ⟨Session.step_of_next? hnext, rfl⟩

def run? : Counted δ B → List (PoolOp B) → Option (Counted δ B)
  | counted, [] => some counted
  | counted, op :: rest => (counted.next? op).bind fun counted' => counted'.run? rest

theorem run_of_run? {ops : List (PoolOp B)} (h : counted.run? ops = some counted') :
    Run Step counted ops counted' :=
  .of_evaluated (fun _ => rfl) (fun _ _ _ => rfl) step_of_next? h

/--
In a run of orderly steps the replacer tracks exactly the resident pages in every
state, and the next step, whatever it is, keeps this exactly if it is orderly.
-/
theorem replacer_tracks_iff_orderly {pool : BufferPool δ B} {maxFrames : FrameId} {disk : δ}
    {order : IterationOrder PageId FrameId} (hnew : new maxFrames disk order = .ok pool)
    {ops : List (PoolOp B)} (hrun : Run OrderlyStep (start pool) ops counted) :
    counted.Tracks ∧ ∀ op counted', Step counted op counted' →
      (counted'.Tracks ↔ Orderly counted.session.pool op) := by
  have hinvariant : counted.session.pool.WellFormed ∧ counted.Tracks := by
    refine hrun.invariant (fun _ counted => counted.session.pool.WellFormed ∧ counted.Tracks)
      ⟨.of_new hnew, ?_⟩ fun _ _ _ _ ⟨hwf, htracks⟩ ⟨hstep, horderly⟩ =>
        ⟨hstep.1.wellFormed hwf, (hstep.tracks_iff hwf htracks).mpr horderly⟩
    obtain ⟨n, _, rfl⟩ := eq_initial_of_new hnew
    exact .initial n disk order
  exact ⟨hinvariant.2, fun op counted' hstep => hstep.tracks_iff hinvariant.1 hinvariant.2⟩

/-- A page is loaded and requested again, and is then unpinned. -/
theorem replacer_tracks_after_hit :
    ∃ counted counted' : Counted (IdealDisk Nat) Nat,
      Run OrderlyStep (start Session.onePool) [.requestPage 0 0 true, .requestPage 0 0 true]
        counted ∧
      Step counted (.decreasePinCount 0 0) counted' ∧ counted.Tracks ∧ counted'.Tracks := by
  have heval : ((start Session.onePool).next? (.requestPage 0 0 true)).any (fun first =>
      first.session.pool.Maps 0 0 ∧
      (first.next? (.requestPage 0 0 true)).any (fun second =>
        (second.next? (.decreasePinCount 0 0)).isSome)) = true := by
    decide +kernel
  obtain ⟨first, hfirst, hstate⟩ := (Option.any_eq_true _ _).mp heval
  obtain ⟨hmaps, hlater⟩ := of_decide_eq_true hstate
  obtain ⟨second, hsecond, hthird⟩ := (Option.any_eq_true _ _).mp hlater
  obtain ⟨third, hthird⟩ := Option.isSome_iff_exists.mp hthird
  have hempty : FaultOrderly (start Session.onePool).session.pool 0 := fun hfault =>
    nomatch hfault.full
  have hhit : FaultOrderly first.session.pool 0 := fun hfault => by
    cases hfault.absent.symm.trans hmaps
  have hrun : Run OrderlyStep (start Session.onePool)
      [.requestPage 0 0 true, .requestPage 0 0 true] second :=
    Run.cons ⟨step_of_next? hfirst, hempty⟩ (Run.cons ⟨step_of_next? hsecond, hhit⟩ .nil)
  have hlast := step_of_next? hthird
  obtain ⟨htracks, hnext⟩ :=
    replacer_tracks_iff_orderly (new_eq 1 Session.zeroDisk .newestFirst) hrun
  exact ⟨second, third, hrun, hlast, htracks, (hnext _ _ hlast).mpr trivial⟩

/--
A fault that replaces a dirty page records two accesses for the one request, and
a page that is flushed after a hit leaves its node behind.
-/
theorem replacer_does_not_track :
    ∃ twice stale : Counted (IdealDisk Nat) Nat,
      Run Step (start Session.onePool) [.requestPage 0 0 true, .write 0 0 7,
        .decreasePinCount 0 0, .requestPage 0 1 true] twice ∧ ¬ twice.Tracks ∧
      Run Step (start Session.onePool) [.requestPage 0 0 true, .requestPage 0 0 true,
        .write 0 0 7, .flushPage 0 true] stale ∧ ¬ stale.Tracks := by
  have htwice : ((start Session.onePool).run? [.requestPage 0 0 true, .write 0 0 7,
      .decreasePinCount 0 0, .requestPage 0 1 true]).any (fun counted =>
        counted.session.pool.Maps 1 0 ∧ counted.served 0 = 1 ∧
        (counted.session.pool.frameReplacer.historyOf 0).length = 2) = true := by
    decide +kernel
  have hstale : ((start Session.onePool).run? [.requestPage 0 0 true, .requestPage 0 0 true,
      .write 0 0 7, .flushPage 0 true]).any (fun counted =>
        counted.session.pool.pageTable.pairs = [] ∧
        counted.session.pool.frameReplacer.currentNodes[(0 : FrameId)]? ≠ none) = true := by
    decide +kernel
  obtain ⟨twice, hrun, hstate⟩ := (Option.any_eq_true _ _).mp htwice
  obtain ⟨hmaps, hserved, hlength⟩ := of_decide_eq_true hstate
  obtain ⟨stale, hrun', hstate'⟩ := (Option.any_eq_true _ _).mp hstale
  obtain ⟨hempty, hnode⟩ := of_decide_eq_true hstate'
  refine ⟨twice, stale, run_of_run? hrun, fun htracks => ?_, run_of_run? hrun', fun htracks => ?_⟩
  · obtain ⟨node, hnode, hcount⟩ := htracks.mapped hmaps
    rw [LruK.historyOf_of_node hnode, hcount, hserved] at hlength
    cases hlength
  · refine hnode (htracks.unmapped fun id hmaps => ?_)
    have hpair := UnorderedMap.mem_pairs_iff.mpr hmaps
    rw [hempty] at hpair
    cases hpair

end Counted

end HiveDb
