import HiveDb.Misc.Channel
import HiveDb.Disk.DiskManager

/-!
# The disk scheduler

Clients put requests into a channel, and one worker takes them out and performs
them on the disk manager.  A step of the system is a step of one thread.  An
exception that leaves the worker's function ends the process: nothing catches
it, and nothing sets the promise of the request it belongs to.
-/

namespace HiveDb

open HiveDb.Lib

/-- A disk manager as the scheduler uses it; its operations may throw. -/
class ThrowingDiskManagerT (δ : Type) (B : outParam Type) where
  readPage : PageId → B → Prog δ B
  writePage : PageId → B → Prog δ Unit

instance : ThrowingDiskManagerT DiskManager PageBuffer where
  readPage := DiskManager.readPage
  writePage := DiskManager.writePage

/-- A buffer that a `char *` points to. -/
abbrev BufferId := Nat

/-- The shared state of a promise and its future. -/
abbrev PromiseId := Nat

inductive DiskRequestType where
  | write
  | read
  /-- Shut the thread down. -/
  | shutdown
  deriving DecidableEq

structure DiskRequest where
  type : DiskRequestType
  data : BufferId
  pageId : PageId
  isDone : PromiseId
  deriving DecidableEq

/-- Where the worker stands; `terminated` is the end of the process. -/
inductive WorkerAt where
  | getting
  | handling (req : DiskRequest)
  | settling (req : DiskRequest)
  | returned (req : DiskRequest)
  | terminated (req : DiskRequest)

/-- A call of the disk manager: the bytes written or read, and whether it has returned. -/
structure DiskCall (B : Type) where
  request : DiskRequest
  bytes : B
  succeeded : Bool

/-- `performed` and `issued` are the history of the disk and of the promises. -/
structure DiskScheduler (κ δ B : Type) where
  channel : Channel κ DiskRequest := { getter := .locking }
  worker : WorkerAt := .getting
  disk : δ
  memory : BufferId → B
  promises : PromiseId → Option Bool := fun _ => none
  destroyer : Option κ := none
  joined : Bool := false
  performed : List (DiskCall B) := []
  issued : List PromiseId := []

/-- `disk_request{disk_request_type::shutdown, nullptr, 0, {}}` -/
def shutdownRequest (isDone : PromiseId) : DiskRequest := ⟨.shutdown, 0, 0, isDone⟩

inductive SchedulerEvent (κ B : Type) where
  | channel (event : ChannelEvent κ DiskRequest)
  | schedule (k : κ) (req : DiskRequest)
  | destroy (k : κ) (isDone : PromiseId)
  | fill (buffer : BufferId) (bytes : B)
  | receive
  | perform
  | settle (isDone : PromiseId)
  | stop
  | join

variable {κ δ B : Type} [DecidableEq κ] [ThrowingDiskManagerT δ B]

/-- The call that the worker makes for a request, on the buffer's bytes. -/
def DiskRequest.operation (req : DiskRequest) (data : B) : Prog δ B :=
  match req.type with
  | .read => ThrowingDiskManagerT.readPage req.pageId data
  | .write => do
      ThrowingDiskManagerT.writePage req.pageId data
      return data
  | .shutdown => return data

namespace DiskScheduler

/-- The process is running and the scheduler has not been destroyed. -/
structure Alive (s : DiskScheduler κ δ B) : Prop where
  running : ∀ req, s.worker ≠ .terminated req
  standing : s.joined = false

/-- What a thread can do; the worker's part follows the loop of its function. -/
inductive Act : DiskScheduler κ δ B → SchedulerEvent κ B → DiskScheduler κ δ B → Prop where
  | channel {s : DiskScheduler κ δ B} {event : ChannelEvent κ DiskRequest}
      {c : Channel κ DiskRequest} (hinternal : event.isInternal = true)
      (hstep : s.channel.Step event c) :
      Act s (.channel event) { s with channel := c }
  | schedule {s : DiskScheduler κ δ B} {k : κ} {req : DiskRequest} {c : Channel κ DiskRequest}
      (htype : req.type ≠ .shutdown) (hclient : s.destroyer ≠ some k)
      (hfresh : req.isDone ∉ s.issued) (hstep : s.channel.Step (.callPut k req) c) :
      Act s (.schedule k req) { s with channel := c, issued := req.isDone :: s.issued }
  -- the destructor puts the shutdown request and waits for the worker
  | destroy {s : DiskScheduler κ δ B} {k : κ} {isDone : PromiseId}
      {c : Channel κ DiskRequest} (hfirst : s.destroyer = none) (hfresh : isDone ∉ s.issued)
      (hstep : s.channel.Step (.callPut k (shutdownRequest isDone)) c) :
      Act s (.destroy k isDone)
        { s with channel := c, destroyer := some k, issued := isDone :: s.issued }
  | join {s : DiskScheduler κ δ B} {k : κ} {req : DiskRequest} (hdestroyer : s.destroyer = some k)
      (hput : s.channel.putters k = .out) (hreturned : s.worker = .returned req) :
      Act s .join { s with joined := true }
  | fill {s : DiskScheduler κ δ B} (buffer : BufferId) (bytes : B) :
      Act s (.fill buffer bytes) { s with memory := Function.update s.memory buffer bytes }
  | receive {s : DiskScheduler κ δ B} {req : DiskRequest} {c : Channel κ DiskRequest}
      (hworker : s.worker = .getting) (hstep : s.channel.Step (.returnGet req) c) :
      Act s .receive { s with channel := c, worker := .handling req }
  | perform {s : DiskScheduler κ δ B} {req : DiskRequest} {bytes : B} {disk : δ}
      (hworker : s.worker = .handling req) (htype : req.type ≠ .shutdown)
      (hreturns : req.operation (s.memory req.data) s.disk = .ok bytes disk) :
      Act s .perform
        { s with
          worker := .settling req
          disk := disk
          memory := Function.update s.memory req.data bytes
          performed := s.performed ++ [⟨req, bytes, true⟩] }
  -- an exception of the disk manager leaves the thread's function
  | throws {s : DiskScheduler κ δ B} {req : DiskRequest} {failure : Failure} {disk : δ}
      (hworker : s.worker = .handling req) (htype : req.type ≠ .shutdown)
      (hthrows : req.operation (s.memory req.data) s.disk = .error failure disk) :
      Act s .perform
        { s with
          worker := .terminated req
          disk := disk
          performed := s.performed ++ [⟨req, s.memory req.data, false⟩] }
  | settle {s : DiskScheduler κ δ B} {req : DiskRequest} {c : Channel κ DiskRequest}
      (hworker : s.worker = .settling req) (hunset : s.promises req.isDone = none)
      (hstep : s.channel.Step .callGet c) :
      Act s (.settle req.isDone)
        { s with
          channel := c
          worker := .getting
          promises := Function.update s.promises req.isDone (some true) }
  -- `set_value` throws when the promise has been set before
  | settleAgain {s : DiskScheduler κ δ B} {req : DiskRequest} {outcome : Bool}
      (hworker : s.worker = .settling req) (hset : s.promises req.isDone = some outcome) :
      Act s (.settle req.isDone) { s with worker := .terminated req }
  | stop {s : DiskScheduler κ δ B} {req : DiskRequest} (hworker : s.worker = .handling req)
      (htype : req.type = .shutdown) :
      Act s .stop { s with worker := .returned req }

def Step (s : DiskScheduler κ δ B) (event : SchedulerEvent κ B) (t : DiskScheduler κ δ B) : Prop :=
  s.Alive ∧ Act s event t

/-- The disk operation that the worker is about to perform returns. -/
def OperationReturns (s : DiskScheduler κ δ B) (event : SchedulerEvent κ B) : Prop :=
  event = .perform → ∀ req, s.worker = .handling req →
    ∃ bytes disk, req.operation (s.memory req.data) s.disk = .ok bytes disk

/-- A step in which no disk operation throws. -/
def StepReturns (s : DiskScheduler κ δ B) (event : SchedulerEvent κ B)
    (t : DiskScheduler κ δ B) : Prop :=
  Step s event t ∧ s.OperationReturns event

end DiskScheduler

end HiveDb
