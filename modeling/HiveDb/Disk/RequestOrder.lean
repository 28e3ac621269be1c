import HiveDb.Disk.Scheduling
import HiveDb.BufferPool.Contents

/-!
# The order of the requests

While no call of the disk manager throws, the calls made are at every moment a
prefix of the requests in the order in which they were put.  Over a disk
manager that keeps pages, a read therefore gets what the last write of its page
in the queue has written.
-/

namespace HiveDb

open HiveDb.Lib

variable {δ B : Type}

/-! ## A disk manager that keeps pages -/

/-- What a disk manager promises: its calls read and write the pages of a map. -/
structure KeepsPages [ThrowingDiskManagerT δ B] (contents : δ → PageId → B) : Prop where
  read : ∀ {id data bytes disk disk'},
    ThrowingDiskManagerT.readPage id data disk = .ok bytes disk' →
      bytes = contents disk id ∧ contents disk' = contents disk
  write : ∀ {id data disk disk'},
    ThrowingDiskManagerT.writePage id data disk = .ok () disk' →
      contents disk' = Function.update (contents disk) id data

/-- A disk manager whose calls return is one that never throws. -/
instance [DiskManagerT δ B] : ThrowingDiskManagerT δ B where
  readPage id _ := fun disk =>
    .ok (DiskManagerT.readPage id disk).1 (DiskManagerT.readPage id disk).2
  writePage id data := fun disk => .ok () (DiskManagerT.writePage id data disk)

theorem IdealDisk.keepsPages : KeepsPages (IdealDisk.pages : IdealDisk B → PageId → B) where
  read hread := by
    cases hread
    exact ⟨rfl, rfl⟩
  write hwrite := by
    cases hwrite
    rfl

/-- The pages after a call. -/
def DiskCall.applied (pages : PageId → B) (call : DiskCall B) : PageId → B :=
  if call.request.type = .write then Function.update pages call.request.pageId call.bytes
  else pages

/-- The pages after the calls. -/
def replayed (pages : PageId → B) (calls : List (DiskCall B)) : PageId → B :=
  calls.foldl DiskCall.applied pages

theorem replayed_concat (pages : PageId → B) (calls : List (DiskCall B)) (call : DiskCall B) :
    replayed pages (calls ++ [call]) = call.applied (replayed pages calls) := by
  rw [replayed, List.foldl_append]
  rfl

/-- Calls that do not write a page leave it as it is. -/
theorem replayed_of_unwritten {calls : List (DiskCall B)} {id : PageId} (pages : PageId → B)
    (h : ∀ call ∈ calls, call.request.type = .write → call.request.pageId ≠ id) :
    replayed pages calls id = pages id := by
  induction calls generalizing pages with
  | nil => rfl
  | cons first rest ih =>
      have hrest := ih (first.applied pages) fun call hcall => h call (List.mem_cons_of_mem _ hcall)
      refine hrest.trans ?_
      unfold DiskCall.applied
      split
      · next hwrite =>
          exact Function.update_of_ne (h first List.mem_cons_self hwrite).symm _ _
      · rfl

/-- The page that a write has written, until it is written again. -/
theorem replayed_of_written {before between : List (DiskCall B)} {write : DiskCall B}
    (pages : PageId → B) (hwrite : write.request.type = .write)
    (hbetween : ∀ call ∈ between, call.request.type = .write →
      call.request.pageId ≠ write.request.pageId) :
    replayed pages (before ++ write :: between) write.request.pageId = write.bytes := by
  have hsplit : replayed pages (before ++ write :: between) =
      replayed (write.applied (replayed pages before)) between := by
    rw [replayed, List.foldl_append]
    rfl
  rw [hsplit, replayed_of_unwritten _ hbetween, DiskCall.applied, if_pos hwrite,
    Function.update_self]

/-- Each call of the list saw the pages that the calls before it have left. -/
def ReadsPages (pages : PageId → B) (calls : List (DiskCall B)) : Prop :=
  ∀ before call after, calls = before ++ call :: after → call.request.type = .read →
    call.bytes = replayed pages before call.request.pageId

theorem ReadsPages.concat {pages : PageId → B} {calls : List (DiskCall B)} {call : DiskCall B}
    (h : ReadsPages pages calls)
    (hcall : call.request.type = .read → call.bytes = replayed pages calls call.request.pageId) :
    ReadsPages pages (calls ++ [call]) := by
  intro before other after heq hread
  cases after using List.reverseRecOn with
  | nil =>
      obtain ⟨rfl, hlast⟩ := List.append_inj' heq rfl
      cases hlast
      exact hcall hread
  | append_singleton after last _ =>
      rw [← List.cons_append, ← List.append_assoc] at heq
      obtain ⟨rfl, _⟩ := List.append_inj' heq rfl
      exact h before other after rfl hread

namespace DiskScheduler

variable {κ : Type} [DecidableEq κ] [ThrowingDiskManagerT δ B]
variable {s t : DiskScheduler κ δ B} {event : SchedulerEvent κ B} {pages : PageId → B}
variable {contents : δ → PageId → B}

/-- The disk holds what the calls made have written, and they read from it. -/
structure OnPages (contents : δ → PageId → B) (pages : PageId → B)
    (s : DiskScheduler κ δ B) : Prop where
  disk : contents s.disk = replayed pages s.performed
  reads : ReadsPages pages s.performed

theorem OnPages.step (hkeeps : KeepsPages contents) (h : OnPages contents pages s)
    (hstep : StepReturns s event t) : OnPages contents pages t := by
  obtain ⟨⟨_, hact⟩, hreturns⟩ := hstep
  cases hact with
  | @throws req failure disk hworker htype hthrows =>
      obtain ⟨bytes, after, hok⟩ := hreturns rfl _ hworker
      rw [hthrows] at hok
      cases hok
  | @perform req bytes disk hworker htype hok =>
      unfold DiskRequest.operation at hok
      cases hreq : req.type with
      | shutdown => exact absurd hreq htype
      | read =>
          simp only [hreq] at hok
          obtain ⟨hbytes, hdisk⟩ := hkeeps.read hok
          refine ⟨?_, h.reads.concat fun _ => ?_⟩
          · rw [replayed_concat, DiskCall.applied, if_neg (by simp [hreq]), ← h.disk]
            exact hdisk
          · rw [← h.disk]
            exact hbytes
      | write =>
          simp only [hreq] at hok
          obtain ⟨_, disk', hwrite, hdata⟩ := bind_eq_ok_iff.mp hok
          cases hdata
          refine ⟨?_, h.reads.concat fun hread => ?_⟩
          · rw [replayed_concat, DiskCall.applied, if_pos hreq, ← h.disk]
            exact hkeeps.write hwrite
          · rw [hreq] at hread
            cases hread
  | _ => exact ⟨h.disk, h.reads⟩

/-- Requests are executed exactly once and in order. -/
structure ExecutesInOrder (s : DiskScheduler κ δ B) : Prop where
  inOrder : s.called <+: s.channel.emplaced
  once : (s.called.map DiskRequest.isDone).Nodup
  notBefore : ∀ p outcome, s.promises p = some outcome →
    outcome = true ∧ ∃ req ∈ s.called, req.isDone = p
  /-- A request without an outcome is not stuck before the worker has returned. -/
  onward : ∀ req ∈ s.channel.emplaced, s.promises req.isDone = none →
    (∀ last, s.worker ≠ .returned last) → ∃ event t, event.isOnward = true ∧ Step s event t
  /-- Behind the join, all requests put before the shutdown have been executed. -/
  drained : s.joined = true → ∃ last, last.type = .shutdown ∧
    s.channel.emplaced = s.called ++ last :: s.channel.queue ∧
    ∀ req ∈ s.called, req.type ≠ .shutdown ∧ s.promises req.isDone = some true
  /-- A read gets the bytes of the last write of its page that was put before it. -/
  readsBack : ∀ contents : δ → PageId → B, KeepsPages contents →
    ∀ before write between read after,
      s.channel.emplaced = before ++ write :: between ++ read :: after →
      write.type = .write → read.type = .read → read.pageId = write.pageId →
      (∀ req ∈ between, req.type = .write → req.pageId ≠ write.pageId) →
      ∀ written got, s.performed[before.length]? = some written →
        s.performed[(before ++ write :: between).length]? = some got →
        written.request = write ∧ got.request = read ∧ got.bytes = written.bytes

omit [DecidableEq κ] [ThrowingDiskManagerT δ B] in
/-- The calls before one that was made are those for the requests put before its own. -/
theorem Serving.split_performed (h : s.Serving) {before after : List DiskRequest}
    {req : DiskRequest} (hput : s.channel.emplaced = before ++ req :: after) {call : DiskCall B}
    (hcall : s.performed[before.length]? = some call) :
    ∃ earlier later, s.performed = earlier ++ call :: later ∧
      earlier.map DiskCall.request = before ∧ call.request = req := by
  obtain ⟨hlength, hat⟩ := List.getElem?_eq_some_iff.mp hcall
  have hsplit : s.performed = s.performed.take before.length ++
      call :: s.performed.drop (before.length + 1) := by
    rw [← hat, List.getElem_cons_drop, List.take_append_drop]
  have hprefix := h.called_prefix
  rw [hput, called, hsplit, List.map_append, List.map_cons] at hprefix
  have htakeLength : ((s.performed.take before.length).map DiskCall.request).length =
      before.length := by
    rw [List.length_map, List.length_take, Nat.min_eq_left hlength.le]
  have htake : (s.performed.take before.length).map DiskCall.request = before :=
    (List.prefix_of_prefix_length_le ((List.prefix_append _ _).trans hprefix)
      (List.prefix_append before _) htakeLength.le).eq_of_length htakeLength
  rw [htake, List.prefix_append_right_inj, List.cons_prefix_cons] at hprefix
  exact ⟨_, _, hsplit, htake, hprefix.1⟩

omit [DecidableEq κ] [ThrowingDiskManagerT δ B] in
/-- A read gets what the last write of its page put before it has written. -/
theorem OnPages.readsBack (h : OnPages contents pages s) (hserving : s.Serving)
    {before between after : List DiskRequest} {write read : DiskRequest}
    (hput : s.channel.emplaced = before ++ write :: between ++ read :: after)
    (hwrite : write.type = .write) (hread : read.type = .read)
    (hpage : read.pageId = write.pageId)
    (hbetween : ∀ req ∈ between, req.type = .write → req.pageId ≠ write.pageId)
    {written got : DiskCall B} (hwritten : s.performed[before.length]? = some written)
    (hgot : s.performed[(before ++ write :: between).length]? = some got) :
    written.request = write ∧ got.request = read ∧ got.bytes = written.bytes := by
  obtain ⟨earlier, later, hperformed, hearlier, hgotRead⟩ := hserving.split_performed hput hgot
  obtain ⟨first, rest, rfl, hfirst, hrest⟩ := List.map_eq_append_iff.mp hearlier
  obtain ⟨call, calls, rfl, hcall, hcalls⟩ := List.map_eq_cons_iff.mp hrest
  have hsame : call = written := by
    rw [hperformed, ← hfirst, List.length_map, List.append_assoc] at hwritten
    simpa using hwritten
  subst hsame
  have hread' := h.reads (first ++ call :: calls) got later hperformed (by rw [hgotRead, hread])
  refine ⟨hcall, hgotRead, hread'.trans ?_⟩
  rw [hgotRead, hpage, ← hcall]
  refine replayed_of_written pages (by rw [hcall, hwrite]) fun other hother => ?_
  rw [hcall]
  exact hbetween _ (hcalls ▸ List.mem_map_of_mem hother)

/-- Whatever the threads do, requests are executed exactly once and in order. -/
theorem executes_in_order {disk : δ} {memory : BufferId → B}
    {events : List (SchedulerEvent κ B)} (hrun : Run StepReturns (start disk memory) events s) :
    ExecutesInOrder s := by
  have hstep := hrun.mono fun _ _ _ h => h.1
  have h := Serving.of_run hstep
  have hreports := (reports_iff_calls_return hstep).mpr hrun
  refine ⟨h.called_prefix, h.called_nodup, fun p outcome hset => ?_, hreports.onward,
    fun hjoined => ?_, fun contents hkeeps before write between read after hput hwrite hread hpage
      hbetween written got hwritten hgot => ?_⟩
  · obtain ⟨houtcome, call, hcall, _, hdone, _⟩ := h.promised p outcome hset
    exact ⟨houtcome, call.request, List.mem_map_of_mem hcall, hdone⟩
  · obtain ⟨last, hreturned⟩ := h.joined hjoined
    obtain ⟨htype, hput, hall⟩ := hreports.drained last hreturned
    refine ⟨last, htype, hput, fun req hreq => ⟨(hall req hreq).1, ?_⟩⟩
    obtain ⟨outcome, hset⟩ := Option.isSome_iff_exists.mp (hall req hreq).2
    rw [hset, (h.promised _ _ hset).1]
  · have honPages : OnPages contents (contents disk) s :=
      hrun.invariant (fun _ s => OnPages contents (contents disk) s)
        ⟨rfl, by simp [ReadsPages, start]⟩ fun _ _ _ _ h hstep => h.step hkeeps hstep
    exact honPages.readsBack h hput hwrite hread hpage hbetween hwritten hgot

/-- A client writes a page and reads it back, then the scheduler is destroyed. -/
theorem write_read_join :
    ∃ s : DiskScheduler Unit (IdealDisk Nat) Nat, s.joined = true ∧
      s.performed.map DiskCall.bytes = [2, 2] ∧ ExecutesInOrder s := by
  have hwrite := (((Idle.initial (⟨fun _ => 0⟩ : IdealDisk Nat) fun _ => 2).run_schedule ()
    ⟨.write, 0, 0, 0⟩ nofun nofun List.not_mem_nil).snoc
    ⟨⟨⟨nofun, rfl⟩, .perform rfl nofun rfl⟩, fun _ _ h => ⟨_, _, by cases h; rfl⟩⟩).snoc
    ⟨⟨⟨nofun, rfl⟩, .settle rfl rfl (.callGet rfl)⟩, nofun⟩
  have hread := ((hwrite.append (Idle.run_schedule ⟨rfl, rfl, rfl, fun _ => rfl, rfl, rfl⟩ ()
    ⟨.read, 1, 0, 1⟩ nofun nofun (by decide))).snoc
    ⟨⟨⟨nofun, rfl⟩, .perform rfl nofun rfl⟩, fun _ _ h => ⟨_, _, by cases h; rfl⟩⟩).snoc
    ⟨⟨⟨nofun, rfl⟩, .settle rfl rfl (.callGet rfl)⟩, nofun⟩
  have hdestroy := hread.snoc
    (show StepReturns _ (.destroy () 2) _ from
      ⟨⟨⟨nofun, rfl⟩, .destroy rfl (by decide) (.callPut rfl)⟩, nofun⟩)
  have hjoin := ((hdestroy.append
    (run_delivery ⟨nofun, rfl⟩ (k := ()) rfl rfl rfl rfl rfl)).snoc
    ⟨⟨⟨nofun, rfl⟩, .stop rfl rfl⟩, nofun⟩).snoc ⟨⟨⟨nofun, rfl⟩, .join rfl rfl rfl⟩, nofun⟩
  exact ⟨_, rfl, rfl, executes_in_order hjoin⟩

end DiskScheduler

end HiveDb
