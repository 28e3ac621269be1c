import HiveDb.BufferPool.Contents
import HiveDb.Lib.Run

/-!
# Sessions

Clients share a pool.  They request pages, write through the frames they got,
unpin them, and flush.  A client unpins at most as often as it has pinned, and
writes through a frame only while the page it means is mapped there.  A call
that throws an exception leaves the process running, so a session goes on from
the state that call leaves; a failed assertion ends it.
-/

namespace HiveDb

open HiveDb.Lib BufferPool

variable {δ B : Type}

abbrev Client := Nat

/-- What a client does next. -/
inductive PoolOp (B : Type) where
  | requestPage (client : Client) (id : PageId) (shouldPin : Bool)
  | write (id : PageId) (frame : FrameId) (data : B)
  | decreasePinCount (client : Client) (frame : FrameId)
  | flushPage (id : PageId) (shouldEvict : Bool)
  | flushPages

/-- The calls of the three member functions that may unmap a page. -/
def PoolOp.mayUnmap : PoolOp B → Bool
  | .requestPage .. | .flushPage .. | .flushPages => true
  | _ => false

/-- A pool with the pins each client has taken on a frame and not yet released. -/
structure Session (δ B : Type) where
  pool : BufferPool δ B
  pins : Client → FrameId → Nat

namespace Session

def start (pool : BufferPool δ B) : Session δ B := ⟨pool, fun _ _ => 0⟩

/-- The pins after a client has changed its number on one frame. -/
def setPins (session : Session δ B) (client : Client) (frame : FrameId) (count : Nat) :
    Client → FrameId → Nat :=
  Function.update session.pins client (Function.update (session.pins client) frame count)

variable [DiskManagerT δ B]

inductive Step : Session δ B → PoolOp B → Session δ B → Prop where
  | requestReturns {s : Session δ B} {client : Client} {id : PageId} {shouldPin : Bool}
      {frame : FrameId} {pool' : BufferPool δ B}
      (returns : requestPage id shouldPin s.pool = .ok frame pool') :
      Step s (.requestPage client id shouldPin)
        ⟨pool', if shouldPin then s.setPins client frame (s.pins client frame + 1) else s.pins⟩
  | requestThrows {s : Session δ B} {client : Client} {id : PageId} {shouldPin : Bool}
      {failure : Failure} {pool' : BufferPool δ B}
      (throws : requestPage id shouldPin s.pool = .error failure pool')
      (exception : failure.isException = true) :
      Step s (.requestPage client id shouldPin) ⟨pool', s.pins⟩
  | write {s : Session δ B} {id : PageId} {frame : FrameId} {data : B}
      (maps : s.pool.Maps id frame) :
      Step s (.write id frame data)
        ⟨s.pool.setFrame frame ((s.pool.frames frame).overwritten data), s.pins⟩
  | release {s : Session δ B} {client : Client} {frame : FrameId}
      (holds : 0 < s.pins client frame) :
      Step s (.decreasePinCount client frame)
        ⟨s.pool.setFrame frame (s.pool.frames frame).decreasePinCount,
          s.setPins client frame (s.pins client frame - 1)⟩
  | flushPage {s : Session δ B} {id : PageId} {shouldEvict : Bool} {pool' : BufferPool δ B}
      (leaves : Leaves (BufferPool.flushPage id shouldEvict) s.pool pool') :
      Step s (.flushPage id shouldEvict) ⟨pool', s.pins⟩
  | flushPages {s : Session δ B} {pool' : BufferPool δ B}
      (leaves : Leaves BufferPool.flushPages s.pool pool') : Step s .flushPages ⟨pool', s.pins⟩

/-- The state a call leaves if the process keeps running. -/
def continued {σ α : Type} : EStateM.Result Failure σ α → Option σ
  | .ok _ s => some s
  | .error failure s => if failure.isException then some s else none

/-- The next state of a session, if it can make the step. -/
def next? (s : Session δ B) : PoolOp B → Option (Session δ B)
  | .requestPage client id shouldPin =>
      match requestPage id shouldPin s.pool with
      | .ok frame pool' =>
          some ⟨pool',
            if shouldPin then s.setPins client frame (s.pins client frame + 1) else s.pins⟩
      | .error failure pool' => if failure.isException then some ⟨pool', s.pins⟩ else none
  | .write id frame data =>
      if s.pool.pageTable.find? id = some frame then
        some ⟨s.pool.setFrame frame ((s.pool.frames frame).overwritten data), s.pins⟩
      else none
  | .decreasePinCount client frame =>
      if 0 < s.pins client frame then
        some ⟨s.pool.setFrame frame (s.pool.frames frame).decreasePinCount,
          s.setPins client frame (s.pins client frame - 1)⟩
      else none
  | .flushPage id shouldEvict =>
      (continued (BufferPool.flushPage id shouldEvict s.pool)).map (⟨·, s.pins⟩)
  | .flushPages => (continued (BufferPool.flushPages s.pool)).map (⟨·, s.pins⟩)

theorem leaves_of_continued {σ α : Type} {x : Prog σ α} {s s' : σ}
    (h : continued (x s) = some s') : Leaves x s s' := by
  cases hrun : x s with
  | ok a t =>
      rw [hrun] at h
      cases h
      exact .inl ⟨a, hrun⟩
  | error failure t =>
      rw [hrun, continued] at h
      split at h
      next hexception =>
        cases h
        exact .inr ⟨failure, hexception, hrun⟩
      next => cases h

theorem step_of_next? {s s' : Session δ B} {op : PoolOp B} (h : s.next? op = some s') :
    Step s op s' := by
  cases op with
  | requestPage client id shouldPin =>
      simp only [next?] at h
      split at h
      next frame pool' hrun =>
        cases h
        exact .requestReturns hrun
      next failure pool' hrun =>
        split at h
        next hexception =>
          cases h
          exact .requestThrows hrun hexception
        next => cases h
  | write id frame data =>
      obtain ⟨hmaps, hs⟩ := Option.ite_none_right_eq_some.mp h
      cases hs
      exact .write hmaps
  | decreasePinCount client frame =>
      obtain ⟨hholds, hs⟩ := Option.ite_none_right_eq_some.mp h
      cases hs
      exact .release hholds
  | flushPage id shouldEvict =>
      obtain ⟨pool', hrun, rfl⟩ := Option.map_eq_some_iff.mp h
      exact .flushPage (leaves_of_continued hrun)
  | flushPages =>
      obtain ⟨pool', hrun, rfl⟩ := Option.map_eq_some_iff.mp h
      exact .flushPages (leaves_of_continued hrun)

/-- The state after a list of operations, if a session can make them. -/
def run? : Session δ B → List (PoolOp B) → Option (Session δ B)
  | s, [] => some s
  | s, op :: rest => (s.next? op).bind fun s' => s'.run? rest

theorem run_of_run? {s s' : Session δ B} {ops : List (PoolOp B)} (h : s.run? ops = some s') :
    Run Step s ops s' :=
  .of_evaluated (fun _ => rfl) (fun _ _ _ => rfl) step_of_next? h

end Session

namespace BufferPool

variable {pool pool' : BufferPool δ B} {id : PageId} {frame : FrameId} {shouldPin : Bool}

variable [DiskManagerT δ B]

/-- A call of `flush_page` that leaves the process running. -/
theorem flushPage_cases (hwf : pool.WellFormed) {shouldEvict : Bool}
    (hleaves : Leaves (flushPage id shouldEvict) pool pool') :
    (pool.pageTable.find? id = none ∧ pool' = pool) ∨
      ∃ frame data, pool.Maps id frame ∧ (pool.frames frame).isDirty = true ∧
        (pool.frames frame).data = some data ∧
        pool' = if shouldEvict then (pool.flushed id frame data).evicted id frame
          else pool.flushed id frame data := by
  cases hfind : pool.pageTable.find? id with
  | none =>
      have heval := flushPage_of_absent hfind shouldEvict
      exact .inl ⟨rfl, hleaves.eq_of_ok heval⟩
  | some frame =>
      by_cases hdirty : (pool.frames frame).isDirty = true
      · obtain ⟨data, hdata⟩ := hwf.data_isSome hfind
        have heval := flushPage_of_dirty hwf hfind hdirty hdata shouldEvict
        exact .inr ⟨frame, data, hfind, hdirty, hdata, hleaves.eq_of_ok heval⟩
      · have heval := flushPage_of_clean hwf hfind (Bool.eq_false_iff.mpr hdirty) shouldEvict
        cases (hleaves.eq_of_error heval).2

theorem flushPages_cases (hwf : pool.WellFormed) (hleaves : Leaves flushPages pool pool') :
    ∃ writes, FlushedAll pool pool' writes := by
  obtain ⟨flag, pool'', writes, heval, hflushed⟩ := flushPages_spec hwf
  cases hleaves.eq_of_ok heval
  exact ⟨writes, hflushed⟩

end BufferPool

namespace Session

variable [DiskManagerT δ B] {s s' : Session δ B} {op : PoolOp B}

theorem Step.wellFormed (hstep : Step s op s') (hwf : s.pool.WellFormed) : s'.pool.WellFormed := by
  cases hstep with
  | requestReturns returns =>
      obtain ⟨hid, hrequest⟩ := request_of_returns hwf returns
      exact hrequest.wellFormed hwf hid
  | requestThrows throws exception =>
      obtain ⟨hid, hrequest⟩ := request_of_throws hwf throws exception
      exact hrequest.wellFormed hwf hid
  | write maps => exact hwf.setFrame rfl fun _ => ⟨_, rfl⟩
  | release holds => exact hwf.setFrame rfl id
  | @flushPage id shouldEvict pool' leaves =>
      rcases flushPage_cases hwf leaves with ⟨_, rfl⟩ | ⟨frame, data, hmaps, _, _, rfl⟩
      · exact hwf
      · have hflushed := hwf.flushed id frame data
        cases shouldEvict with
        | false => exact hflushed
        | true => exact hflushed.evicted hmaps
  | flushPages leaves =>
      obtain ⟨writes, hflushed⟩ := flushPages_cases hwf leaves
      exact hflushed.wellFormed

theorem wellFormed_of_run {pool : BufferPool δ B} {maxFrames : FrameId} {disk : δ}
    {order : IterationOrder PageId FrameId} (hnew : new maxFrames disk order = .ok pool)
    {ops : List (PoolOp B)} (hrun : Run Step (start pool) ops s) : s.pool.WellFormed :=
  hrun.invariant (fun _ s => s.pool.WellFormed) (WellFormed.of_new hnew)
    fun _ _ _ _ hwf hstep => hstep.wellFormed hwf

end Session

end HiveDb
