import HiveDb.BufferPool.OverDisk
import HiveDb.Disk.Waiting

/-!
# The pool over the scheduler

The pool hands each of its calls to the scheduler and waits.  Whatever the threads
do meanwhile, over the real disk manager the worker is never ended by an exception,
each call moves the bytes that the pool reckons with, and the file is the one that
the calls leave when they are made in turn.
-/

namespace HiveDb

open HiveDb.Lib BufferPool

variable {δ B : Type}

/-! ## The calls of the pool as commands -/

/--
The commands by which calls are made: a fault reads into a new buffer, and a
flush writes the bytes of its frame.
-/
inductive Issues (blank : B) : List (DiskAccess B) → List (Command B) → Prop where
  | nil : Issues blank [] []
  | read {accesses : List (DiskAccess B)} {cmds : List (Command B)}
      (before : Issues blank accesses cmds) (buffer : BufferId) (id : PageId) (isDone : PromiseId) :
      Issues blank (accesses ++ [.read id])
        (cmds ++ [.fill buffer blank] ++ [.call ⟨.read, buffer, id, isDone⟩])
  | write {accesses : List (DiskAccess B)} {cmds : List (Command B)}
      (before : Issues blank accesses cmds) (buffer : BufferId) (id : PageId) (data : B)
      (isDone : PromiseId) :
      Issues blank (accesses ++ [.write id data])
        (cmds ++ [.fill buffer data] ++ [.call ⟨.write, buffer, id, isDone⟩])

/-- Every list of calls can be made by commands, each with a promise of its own. -/
theorem exists_issues (blank : B) (accesses : List (DiskAccess B)) :
    ∃ cmds, Issues blank accesses cmds ∧ Command.Proper cmds ∧
      ∀ req, .call req ∈ cmds → req.isDone < accesses.length := by
  induction accesses using List.reverseRecOn with
  | nil => exact ⟨[], .nil, .nil, by simp⟩
  | append_singleton accesses access ih =>
      obtain ⟨cmds, hissues, hproper, hpromises⟩ := ih
      obtain ⟨req, bytes, hnext, htype, hdone⟩ : ∃ req bytes,
          Issues blank (accesses ++ [access]) (cmds ++ [.fill req.data bytes] ++ [.call req]) ∧
            req.type ≠ .shutdown ∧ req.isDone = accesses.length := by
        cases access with
        | read id =>
            exact ⟨⟨.read, 0, id, accesses.length⟩, _, hissues.read 0 id _, by simp, rfl⟩
        | write id data =>
            exact ⟨⟨.write, 0, id, accesses.length⟩, _, hissues.write 0 id data _, by simp, rfl⟩
      refine ⟨_, hnext, (hproper.fill _ _).call req htype fun other hmem => ?_,
        fun other hmem => ?_⟩
      · have hcall : .call other ∈ cmds := by simpa using hmem
        rw [hdone]
        exact (hpromises other hcall).ne
      · rw [List.length_append, List.length_singleton]
        have hcall : .call other ∈ cmds ∨ other = req := by simpa using hmem
        rcases hcall with hcall | rfl
        · exact (hpromises other hcall).trans (Nat.lt_succ_self _)
        · exact hdone ▸ Nat.lt_succ_self _

section Moved

variable [DiskManagerT δ B]

/-- The bytes that a call reads or writes. -/
def DiskAccess.bytes : DiskAccess B → δ → B
  | .read id, disk => (DiskManagerT.readPage id disk).1
  | .write _ data, _ => data

def bytesMoved : List (DiskAccess B) → δ → List B
  | [], _ => []
  | access :: rest, disk => access.bytes disk :: bytesMoved rest (access.perform disk)

theorem performAll_append (first second : List (DiskAccess B)) (disk : δ) :
    performAll (first ++ second) disk = performAll second (performAll first disk) :=
  List.foldl_append

theorem performAll_concat (accesses : List (DiskAccess B)) (access : DiskAccess B) (disk : δ) :
    performAll (accesses ++ [access]) disk = access.perform (performAll accesses disk) :=
  performAll_append accesses [access] disk

theorem bytesMoved_concat (accesses : List (DiskAccess B)) (access : DiskAccess B) (disk : δ) :
    bytesMoved (accesses ++ [access]) disk =
      bytesMoved accesses disk ++ [access.bytes (performAll accesses disk)] := by
  induction accesses generalizing disk with
  | nil => rfl
  | cons first rest ih => exact congrArg (first.bytes disk :: ·) (ih (first.perform disk))

theorem length_bytesMoved (accesses : List (DiskAccess B)) (disk : δ) :
    (bytesMoved accesses disk).length = accesses.length := by
  induction accesses generalizing disk with
  | nil => rfl
  | cons access rest ih => exact congrArg (· + 1) (ih (access.perform disk))

end Moved

/-! ## The manager behind the scheduler -/

namespace Worker

variable {μ : Type} [ThrowingDiskManagerT μ PageBuffer]
variable {worker : Worker μ} {id : PageId} {page : PageBuffer}

/-- A worker that has been ended stays so. -/
theorem terminated_perform (access : DiskAccess PageBuffer) (h : worker.terminated = true) :
    (access.perform worker).terminated = true := by
  cases access with
  | read id =>
      show (readPage id worker).2.terminated = true
      unfold readPage
      split <;> simp [h]
  | write id page =>
      show (writePage id page worker).terminated = true
      unfold writePage
      split <;> simp [h]

theorem terminated_performAll (accesses : List (DiskAccess PageBuffer))
    (h : worker.terminated = true) : (performAll accesses worker).terminated = true := by
  induction accesses generalizing worker with
  | nil => exact h
  | cons access rest ih => exact ih (terminated_perform access h)

theorem readPage_of_error {failure : Failure} {manager : μ}
    (h : ThrowingDiskManagerT.readPage id zeroPage worker.manager = .error failure manager) :
    (DiskManagerT.readPage id worker).2.terminated = true := by
  show (readPage id worker).2.terminated = true
  rw [readPage, h]

theorem writePage_of_error {failure : Failure} {manager : μ}
    (h : ThrowingDiskManagerT.writePage id page worker.manager = .error failure manager) :
    (DiskManagerT.writePage id page worker).terminated = true := by
  show (writePage id page worker).terminated = true
  rw [writePage, h]

end Worker

/-- What the commands of some calls do, against the calls made in turn. -/
inductive MakesCalls {μ : Type} [ThrowingDiskManagerT μ PageBuffer] (manager : μ)
    (memory : BufferId → PageBuffer) (accesses : List (DiskAccess PageBuffer))
    (cmds : List (Command PageBuffer)) : Prop where
  | returns {client : DirectClient μ PageBuffer}
      (executed : Command.inTurn cmds ⟨manager, memory, []⟩ = .ok () client)
      (disk_eq : performAll accesses (⟨manager, false⟩ : Worker μ) = ⟨client.disk, false⟩)
      (bytes_eq : client.performed.map DiskCall.bytes =
        bytesMoved accesses (⟨manager, false⟩ : Worker μ))
  | throws {failure : Failure} {client : DirectClient μ PageBuffer}
      (executed : Command.inTurn cmds ⟨manager, memory, []⟩ = .error failure client)
      (terminated : (performAll accesses (⟨manager, false⟩ : Worker μ)).terminated = true)

namespace MakesCalls

variable {μ : Type} [ThrowingDiskManagerT μ PageBuffer] {manager : μ}
variable {memory : BufferId → PageBuffer} {accesses : List (DiskAccess PageBuffer)}
variable {cmds : List (Command PageBuffer)}

/-- One more call, for which the worker and the client do the same. -/
theorem concat (h : MakesCalls manager memory accesses cmds) {access : DiskAccess PageBuffer}
    (req : DiskRequest) (page : PageBuffer)
    (hreturns : ∀ {disk after : μ} {bytes : PageBuffer}, req.operation page disk = .ok bytes after →
      access.bytes (⟨disk, false⟩ : Worker μ) = bytes ∧
        access.perform (⟨disk, false⟩ : Worker μ) = ⟨after, false⟩)
    (hthrows : ∀ {disk after : μ} {failure : Failure},
      req.operation page disk = .error failure after →
        (access.perform (⟨disk, false⟩ : Worker μ)).terminated = true) :
    MakesCalls manager memory (accesses ++ [access])
      (cmds ++ [.fill req.data page] ++ [.call req]) := by
  cases h with
  | throws executed terminated =>
      have hfailed := bind_of_error (f := fun _ => (Command.fill req.data page).act) executed
      rw [← Command.inTurn_concat] at hfailed
      have hfailed' := bind_of_error (f := fun _ => (Command.call req).act) hfailed
      rw [← Command.inTurn_concat] at hfailed'
      refine .throws hfailed' ?_
      rw [performAll_concat]
      exact Worker.terminated_perform access terminated
  | @returns client executed disk_eq bytes_eq =>
      have hfilled := Command.inTurn_fill executed req.data page
      have hbuffer : Function.update client.memory req.data page req.data = page :=
        Function.update_self _ _ _
      cases hoperation : req.operation page client.disk with
      | ok bytes after =>
          obtain ⟨hbytes, hafter⟩ := hreturns hoperation
          rw [← hbuffer] at hoperation
          refine .returns (Command.inTurn_call hfilled hoperation) ?_ ?_
          · rw [performAll_concat, disk_eq, hafter]
            rfl
          · rw [bytesMoved_concat, disk_eq, hbytes, ← bytes_eq]
            exact List.map_append
      | error failure after =>
          have hended := hthrows hoperation
          rw [← hbuffer] at hoperation
          refine .throws (Command.inTurn_throws hfilled hoperation) ?_
          rw [performAll_concat, disk_eq]
          exact hended

/-- Commands whose calls leave the worker running return. -/
theorem of_running (h : MakesCalls manager memory accesses cmds)
    (hrunning : (performAll accesses (⟨manager, false⟩ : Worker μ)).terminated = false) :
    ∃ client, Command.inTurn cmds ⟨manager, memory, []⟩ = .ok () client ∧
      performAll accesses (⟨manager, false⟩ : Worker μ) = ⟨client.disk, false⟩ ∧
      client.performed.map DiskCall.bytes =
        bytesMoved accesses (⟨manager, false⟩ : Worker μ) := by
  cases h with
  | returns executed disk_eq bytes_eq => exact ⟨_, executed, disk_eq, bytes_eq⟩
  | throws _ terminated =>
      rw [hrunning] at terminated
      cases terminated

end MakesCalls

/-- Commands do what the calls do that they are issued for. -/
theorem Issues.makesCalls {μ : Type} [ThrowingDiskManagerT μ PageBuffer]
    {accesses : List (DiskAccess PageBuffer)} {cmds : List (Command PageBuffer)}
    (h : Issues zeroPage accesses cmds) (manager : μ) (memory : BufferId → PageBuffer) :
    MakesCalls manager memory accesses cmds := by
  induction h with
  | nil => exact .returns rfl rfl rfl
  | read before buffer id isDone ih =>
      refine ih.concat ⟨.read, buffer, id, isDone⟩ zeroPage ?_ ?_
      · intro disk after bytes hread
        have hworker : DiskManagerT.readPage id (⟨disk, false⟩ : Worker μ) =
            (bytes, ⟨after, false⟩) := Worker.readPage_of_ok hread
        exact ⟨congrArg Prod.fst hworker, congrArg Prod.snd hworker⟩
      · intro disk after failure hread
        have hended : (DiskManagerT.readPage id (⟨disk, false⟩ : Worker μ)).2.terminated = true :=
          Worker.readPage_of_error hread
        exact hended
  | write before buffer id data isDone ih =>
      refine ih.concat ⟨.write, buffer, id, isDone⟩ data ?_ ?_
      · intro disk after bytes hwrites
        obtain ⟨_, manager', hwrite, hdata⟩ := bind_eq_ok_iff.mp hwrites
        cases hdata
        have hworker : DiskManagerT.writePage id data (⟨disk, false⟩ : Worker μ) = ⟨after, false⟩ :=
          Worker.writePage_of_ok hwrite
        exact ⟨rfl, hworker⟩
      · intro disk after failure hwrites
        cases hwrite : ThrowingDiskManagerT.writePage id data disk with
        | ok _ manager' => cases hwrites.symm.trans (bind_of_ok hwrite)
        | error failure' manager' =>
            have hended :
                (DiskManagerT.writePage id data (⟨disk, false⟩ : Worker μ)).terminated = true :=
              Worker.writePage_of_error hwrite
            exact hended

/-! ## The trace of a session -/

/-- A simulation of disks is one of disks with the calls they have been asked for. -/
theorem DiskSimulation.traced {ε : Type} [DiskManagerT δ B] [DiskManagerT ε B]
    {May Known : PageId → δ → Prop} {R : δ → ε → Prop} (h : DiskSimulation May Known R) :
    DiskSimulation (fun id (traced : Traced δ B) => May id traced.disk)
      (fun id traced => Known id traced.disk) (fun traced twin => R traced.disk twin) where
  read := h.read
  write := h.write
  known_read_self := h.known_read_self
  known_read := h.known_read
  known_write := h.known_write

theorem disk_performAll [DiskManagerT δ B] (accesses : List (DiskAccess B)) (traced : Traced δ B) :
    (performAll accesses traced).disk = performAll accesses traced.disk := by
  induction accesses generalizing traced with
  | nil => rfl
  | cons access rest ih =>
      refine (ih (access.perform traced)).trans ?_
      cases access <;> rfl

namespace Session

/-- In every session the disk is what the calls in its trace have left. -/
theorem disk_eq_performAll [DiskManagerT δ B] {pool : BufferPool (Traced δ B) B}
    {maxFrames : FrameId} {disk : δ} {order : IterationOrder PageId FrameId}
    (hnew : new maxFrames ⟨disk, []⟩ order = .ok pool) {ops : List (PoolOp B)}
    {s : Session (Traced δ B) B} (hrun : Run Step (start pool) ops s) :
    s.pool.disk.disk = performAll s.pool.disk.accesses disk := by
  obtain ⟨n, _, rfl⟩ := eq_initial_of_new hnew
  have hinvariant := hrun.invariant (fun _ s => s.pool.WellFormed ∧
    s.pool.disk.disk = performAll s.pool.disk.accesses disk) ?_ ?_
  · exact hinvariant.2
  · exact ⟨.initial n _ order, rfl⟩
  · rintro ops s op s' ⟨hwf, hdisk⟩ hstep
    obtain ⟨accesses, _, hcalls⟩ := hstep.asksFor hwf
    refine ⟨hstep.wellFormed hwf, ?_⟩
    rw [hcalls, disk_performAll, accesses_performAll, performAll_append, hdisk]

variable {existing : Option File} {maxFrames : FrameId} {order : IterationOrder PageId FrameId}
  {pool : BufferPool (Traced (Worker DiskManager) PageBuffer) PageBuffer}
  {ops : List (PoolOp PageBuffer)} {s : Session (Traced (Worker DiskManager) PageBuffer) PageBuffer}

/-- No call of the real manager throws in a session. -/
theorem running_of_run
    (hnew : new maxFrames ⟨⟨.new existing, false⟩, []⟩ order = .ok pool)
    (hrun : Run Step (start pool) ops s) : s.pool.disk.disk.terminated = false := by
  obtain ⟨n, rfl, rfl⟩ := eq_initial_of_new hnew
  obtain ⟨_, _, htwins⟩ := run_twin Worker.simulates_slots.traced
    (.start n order ⟨rfl, DiskManager.follows_new existing⟩) hrun fun _ _ _ _ _ _ _ _ _ => trivial
  exact htwins.pools.disks.1

variable {κ : Type} [DecidableEq κ] {memory : BufferId → PageBuffer}
  {events : List (SchedulerEvent κ PageBuffer)} {t : DiskScheduler κ DiskManager PageBuffer}
  {accesses : List (DiskAccess PageBuffer)}

/--
In every session of the pool over the real disk manager, and for every
interleaving of the threads while the pool waits for one call after another: the
worker is not ended by an exception, and whenever the pool goes on, the calls have
moved the bytes and left the file that they do when they are made in turn.
-/
theorem pool_over_scheduler
    (hnew : new maxFrames ⟨⟨.new existing, false⟩, []⟩ order = .ok pool)
    (hsession : Run Step (start pool) ops s) (hasked : accesses <+: s.pool.disk.accesses)
    (hissues : Issues zeroPage accesses (commands events))
    (hrun : Run DiskScheduler.StepWaiting (.start (.new existing) memory) events t) :
    (∀ req, t.worker ≠ .terminated req) ∧
      (t.Settled →
        performAll accesses ⟨.new existing, false⟩ = (⟨t.disk, false⟩ : Worker DiskManager) ∧
        t.performed.map DiskCall.bytes =
          bytesMoved accesses (⟨.new existing, false⟩ : Worker DiskManager) ∧
        (accesses = s.pool.disk.accesses → t.disk = s.pool.disk.disk.manager)) ∧
      (¬ t.Settled → t.destroyer = none → ∃ event u, event.isOnward = true ∧
        DiskScheduler.Step t event u) := by
  have hstep := hrun.mono fun _ _ _ h => h.1
  have hserving := DiskScheduler.Serving.of_run hstep
  have hwaited := DiskScheduler.Waited.of_run hrun
  have hdisk := disk_eq_performAll hnew hsession
  -- a call that throws would have ended the worker of the session as well
  have hcalls : (performAll accesses (⟨.new existing, false⟩ : Worker DiskManager)).terminated =
      false := by
    obtain ⟨rest, hrest⟩ := hasked
    have hrunning := running_of_run hnew hsession
    rw [hdisk, ← hrest, performAll_append] at hrunning
    cases hended : (performAll accesses (⟨.new existing, false⟩ : Worker DiskManager)).terminated
      with
    | false => rfl
    | true =>
        rw [Worker.terminated_performAll rest hended] at hrunning
        cases hrunning
  obtain ⟨client, hexecuted, hclient, hbytes⟩ :=
    (hissues.makesCalls (DiskManager.new existing) memory).of_running hcalls
  have hrunning : ∀ req, t.worker ≠ .terminated req := by
    intro req hworker
    obtain ⟨failure, hfails⟩ := hwaited.fails_of_terminated hworker
    cases hexecuted.symm.trans hfails
  refine ⟨hrunning, fun hsettled => ?_, fun hunsettled hstanding =>
    DiskScheduler.onward_of_unsettled hstep hrunning hstanding hunsettled⟩
  cases hexecuted.symm.trans (hwaited.of_settled hserving hsettled).1
  refine ⟨hclient, hbytes, fun hall => ?_⟩
  rw [hdisk, ← hall, hclient]
  rfl

/-- A pool of one frame over a new file. -/
def tracedFilePool : BufferPool (Traced (Worker DiskManager) PageBuffer) PageBuffer :=
  initial 1 ⟨⟨.new none, false⟩, []⟩ .newestFirst

/-- A page that is written to and flushed. -/
def flushedPageOps : List (PoolOp PageBuffer) :=
  [.requestPage 0 0 true, .write 0 0 (DiskSession.filled 1), .flushPage 0 true]

theorem flushedPage_run :
    ∃ s, Run Step (start tracedFilePool) flushedPageOps s ∧
      s.pool.disk.accesses.length = 2 := by
  have heval : ((start tracedFilePool).run? flushedPageOps).any (fun s =>
      s.pool.disk.accesses.length == 2) = true := by
    decide +kernel
  obtain ⟨s, hs, hstate⟩ := (Option.any_eq_true _ _).mp heval
  exact ⟨s, run_of_run? hs, beq_iff_eq.mp hstate⟩

/-- The page has been read and written when the pool goes on, and is in the file. -/
theorem flushed_page_over_scheduler :
    ∃ s, Run Step (start tracedFilePool) flushedPageOps s ∧
      ∃ events, ∃ t : DiskScheduler Unit DiskManager PageBuffer,
        Run DiskScheduler.StepWaiting (.start (.new none) fun _ => zeroPage) events t ∧
          t.Settled ∧ t.performed.length = 2 ∧ t.disk = s.pool.disk.disk.manager := by
  obtain ⟨s, hsession, hlength⟩ := flushedPage_run
  have hnew := new_eq (B := PageBuffer) 1
    (⟨⟨.new none, false⟩, []⟩ : Traced (Worker DiskManager) PageBuffer) .newestFirst
  obtain ⟨cmds, hissues, hproper, _⟩ := exists_issues zeroPage s.pool.disk.accesses
  have hrunning := running_of_run hnew hsession
  rw [disk_eq_performAll hnew hsession] at hrunning
  obtain ⟨client, hexecuted, _, hmoved⟩ :=
    (hissues.makesCalls (DiskManager.new none) fun _ => zeroPage).of_running hrunning
  obtain ⟨events, t, hrun, rfl, hsettled, rfl, _⟩ :=
    DiskScheduler.exists_waiting_run () _ _ hproper hexecuted
  obtain ⟨_, hgoesOn, _⟩ := pool_over_scheduler hnew hsession List.prefix_rfl hissues hrun
  refine ⟨s, hsession, events, t, hrun, hsettled, ?_, (hgoesOn hsettled).2.2 rfl⟩
  have hcount := congrArg List.length hmoved
  rwa [List.length_map, length_bytesMoved, hlength] at hcount

end Session

end HiveDb
