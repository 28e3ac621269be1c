import HiveDb.BufferPool.Bookkeeping

/-!
# What the pool asks of its disk

A fault reads its page, and may write one other page back before; a flush writes
the pages it flushes; nothing else reaches the disk.  So over every session a
page has been read before it is first written, and what is written to it are the
bytes that a client has last written through its frame.  A session that never
flushes and has room for all its pages reads each of them once and writes none.
-/

namespace HiveDb

open HiveDb.Lib BufferPool

variable {δ B : Type}

/-! ## The calls of an operation -/

/-- A call of the disk manager. -/
inductive DiskAccess (B : Type) where
  | read (id : PageId)
  | write (id : PageId) (data : B)
  deriving DecidableEq

/-- The page is mapped to a frame that is dirty and holds the bytes. -/
def BufferPool.HoldsDirty (pool : BufferPool δ B) (id : PageId) (data : B) : Prop :=
  ∃ frame, pool.Maps id frame ∧ (pool.frames frame).isDirty = true ∧
    (pool.frames frame).data = some data

/-- The calls that an operation on a pool makes. -/
inductive AsksFor (pool : BufferPool δ B) :
    PoolOp B → List (DiskAccess B) → Prop where
  | hit {client : Client} {id : PageId} {shouldPin : Bool} {frame : FrameId}
      (maps : pool.Maps id frame) : AsksFor pool (.requestPage client id shouldPin) []
  | fault {client : Client} {id : PageId} {shouldPin : Bool}
      (absent : pool.pageTable.find? id = none) :
      AsksFor pool (.requestPage client id shouldPin) [.read id]
  | replacement {client : Client} {id owner : PageId} {shouldPin : Bool} {data : B}
      (fault : pool.FullFault id) (dirty : pool.HoldsDirty owner data) :
      AsksFor pool (.requestPage client id shouldPin) [.read id, .write owner data]
  | write {id : PageId} {frame : FrameId} {data : B} : AsksFor pool (.write id frame data) []
  | release {client : Client} {frame : FrameId} :
      AsksFor pool (.decreasePinCount client frame) []
  | flushAbsent {id : PageId} {shouldEvict : Bool} (absent : pool.pageTable.find? id = none) :
      AsksFor pool (.flushPage id shouldEvict) []
  | flushPage {id : PageId} {shouldEvict : Bool} {data : B} (dirty : pool.HoldsDirty id data) :
      AsksFor pool (.flushPage id shouldEvict) [.write id data]
  | flushPages {writes : List (PageId × B)} (nodup : (writes.map Prod.fst).Nodup)
      (mem_iff : ∀ id data, (id, data) ∈ writes ↔ pool.HoldsDirty id data) :
      AsksFor pool .flushPages (writes.map fun write => .write write.1 write.2)

variable [DiskManagerT δ B]

def DiskAccess.perform : DiskAccess B → δ → δ
  | .read id, disk => (DiskManagerT.readPage id disk).2
  | .write id data, disk => DiskManagerT.writePage id data disk

def performAll (accesses : List (DiskAccess B)) (disk : δ) : δ :=
  accesses.foldl (fun disk access => access.perform disk) disk

theorem writeBack_eq_performAll (writes : List (PageId × B)) (disk : δ) :
    writeBack writes disk = performAll (writes.map fun write => .write write.1 write.2) disk := by
  rw [writeBack, performAll, List.foldl_map]
  rfl

namespace Session

variable {s s' : Session δ B} {op : PoolOp B}

theorem asksFor_request {pool : BufferPool δ B} {client : Client} {id : PageId} {shouldPin : Bool}
    {result : EStateM.Result Failure (BufferPool δ B) FrameId}
    (hrequest : Request pool id shouldPin result) :
    ∃ accesses, AsksFor pool (.requestPage client id shouldPin) accesses ∧
      (stateOf result).disk = performAll accesses pool.disk := by
  cases hrequest with
  | hit maps => exact ⟨[], .hit maps, rfl⟩
  | empty absent => exact ⟨_, .fault absent, rfl⟩
  | dirty fault scan maps data_eq =>
      have hdirty := (dirtyUnpinned?_eq_some scan).2.1
      exact ⟨_, .replacement fault ⟨_, maps, hdirty, data_eq⟩, rfl⟩
  | victim fault => exact ⟨_, .fault fault.absent, rfl⟩
  | noVictim fault => exact ⟨_, .fault fault.absent, rfl⟩
  | pinned fault => exact ⟨_, .fault fault.absent, rfl⟩

/-- The calls that a step makes. -/
theorem Step.asksFor (hstep : Step s op s') (hwf : s.pool.WellFormed) :
    ∃ accesses, AsksFor s.pool op accesses ∧ s'.pool.disk = performAll accesses s.pool.disk := by
  cases hstep with
  | requestReturns returns => exact asksFor_request (request_of_returns hwf returns).2
  | requestThrows throws exception =>
      exact asksFor_request (request_of_throws hwf throws exception).2
  | write => exact ⟨[], .write, rfl⟩
  | release => exact ⟨[], .release, rfl⟩
  | @flushPage id shouldEvict pool' leaves =>
      rcases flushPage_cases hwf leaves with
        ⟨habsent, rfl⟩ | ⟨frame, data, hmaps, hdirty, hdata, rfl⟩
      · exact ⟨[], .flushAbsent habsent, rfl⟩
      · refine ⟨_, .flushPage ⟨frame, hmaps, hdirty, hdata⟩, ?_⟩
        cases shouldEvict <;> rfl
  | flushPages leaves =>
      obtain ⟨writes, hflushed⟩ := flushPages_cases hwf leaves
      exact ⟨_, .flushPages hflushed.writes_nodup hflushed.mem_writes_iff,
        hflushed.disk_eq.trans (writeBack_eq_performAll _ _)⟩

/-- How a page has come to be in its frame after a step. -/
inductive Mapped (s : Session δ B) (op : PoolOp B) (s' : Session δ B) (id : PageId)
    (frame : FrameId) : Prop where
  | kept (maps : s.pool.Maps id frame)
      (data_eq : (s'.pool.frames frame).data = (s.pool.frames frame).data)
      (isDirty_eq : (s'.pool.frames frame).isDirty = (s.pool.frames frame).isDirty)
      (unwritten : ∀ slot data, op ≠ .write id slot data)
  | written (data : B) (maps : s.pool.Maps id frame) (op_eq : op = .write id frame data)
      (data_eq : (s'.pool.frames frame).data = some data)
  | loaded (client : Client) (shouldPin : Bool) (absent : s.pool.pageTable.find? id = none)
      (op_eq : op = .requestPage client id shouldPin)
      (clean : (s'.pool.frames frame).isDirty = false)

theorem Step.mapped (hstep : Step s op s') (hwf : s.pool.WellFormed) {id : PageId}
    {frame : FrameId} (hmaps : s'.pool.Maps id frame) : Mapped s op s' id frame := by
  cases hstep with
  | @requestReturns client other shouldPin slot pool' returns =>
      obtain ⟨hid, hrequest⟩ := request_of_returns hwf returns
      by_cases heq : id = other
      · subst heq
        cases hrequest.maps.symm.trans hmaps
        rcases hrequest.frame_eq with ⟨hbefore, hframe⟩ | ⟨habsent, hframe⟩
        · refine .kept hbefore ?_ ?_ (by rintro _ _ ⟨⟩)
          · rw [hframe, pinnedIf_data]
          · rw [hframe, pinnedIf_isDirty]
        · refine .loaded client shouldPin habsent rfl ?_
          rw [hframe, pinnedIf_isDirty]
          rfl
      · obtain ⟨hbefore, hframe⟩ := hrequest.others hwf heq hmaps
        exact .kept hbefore (congrArg FrameHeader.data hframe)
          (congrArg FrameHeader.isDirty hframe) (by rintro _ _ ⟨⟩)
  | requestThrows throws exception =>
      obtain ⟨_, htable, hframes, _⟩ := (request_of_throws hwf throws exception).2.unchanged
      have hfind := congrArg (fun table => table.find? id) htable
      have hframe := congrFun hframes frame
      exact .kept (hfind.symm.trans hmaps) (congrArg FrameHeader.data hframe)
        (congrArg FrameHeader.isDirty hframe) (by rintro _ _ ⟨⟩)
  | @write other slot data maps =>
      by_cases heq : frame = slot
      · subst heq
        obtain rfl := hwf.maps_inj hmaps maps
        exact .written data hmaps rfl (congrArg FrameHeader.data (setFrame_frames_self _ _ _))
      · have hframe := setFrame_frames_ne s.pool heq ((s.pool.frames slot).overwritten data)
        refine .kept hmaps (congrArg FrameHeader.data hframe)
          (congrArg FrameHeader.isDirty hframe) fun slot' data' hop => ?_
        cases hop
        exact heq (Option.some.inj (hmaps.symm.trans maps))
  | @release client slot holds =>
      have hkept : ∀ {α : Type} (field : FrameHeader B → α),
          field (s.pool.frames slot).decreasePinCount = field (s.pool.frames slot) →
          field ((s.pool.setFrame slot (s.pool.frames slot).decreasePinCount).frames frame) =
            field (s.pool.frames frame) := by
        intro α field hfield
        by_cases heq : frame = slot
        · rw [heq, setFrame_frames_self, hfield]
        · rw [setFrame_frames_ne _ heq]
      exact .kept hmaps (hkept FrameHeader.data rfl) (hkept FrameHeader.isDirty rfl)
        (by rintro _ _ ⟨⟩)
  | @flushPage other shouldEvict pool' leaves =>
      rcases flushPage_cases hwf leaves with ⟨_, rfl⟩ | ⟨slot, data, hother, _, _, rfl⟩
      · exact .kept hmaps rfl rfl (by rintro _ _ ⟨⟩)
      · cases shouldEvict with
        | false => exact .kept hmaps flushed_data flushed_isDirty (by rintro _ _ ⟨⟩)
        | true =>
            have hframe := evicted_frames (hwf.flushed other slot data) hother hmaps
            exact .kept (evicted_maps_iff.mp hmaps).2
              ((congrArg FrameHeader.data hframe).trans flushed_data)
              ((congrArg FrameHeader.isDirty hframe).trans flushed_isDirty) (by rintro _ _ ⟨⟩)
  | flushPages leaves =>
      obtain ⟨writes, hflushed⟩ := flushPages_cases hwf leaves
      have hframe := hflushed.frames_eq id frame hmaps
      exact .kept ((hflushed.maps_iff id frame).mp hmaps).1 (congrArg FrameHeader.data hframe)
        (congrArg FrameHeader.isDirty hframe) (by rintro _ _ ⟨⟩)

end Session

/-! ## What is written -/

/-- The bytes that the operations have last written to the page. -/
def LastWrite {B : Type} (ops : List (PoolOp B)) (id : PageId) (data : B) : Prop :=
  ∃ before frame after, ops = before ++ .write id frame data :: after ∧
    ∀ slot data', .write id slot data' ∉ after

namespace LastWrite

variable {B : Type} {ops : List (PoolOp B)} {op : PoolOp B} {id : PageId} {data : B}

theorem here (frame : FrameId) : LastWrite (ops ++ [.write id frame data]) id data :=
  ⟨ops, frame, [], rfl, fun _ _ => List.not_mem_nil⟩

theorem concat (h : LastWrite ops id data) (hother : ∀ slot data', op ≠ .write id slot data') :
    LastWrite (ops ++ [op]) id data := by
  obtain ⟨before, frame, after, rfl, hafter⟩ := h
  refine ⟨before, frame, after ++ [op], by simp, fun slot data' hmem => ?_⟩
  rcases List.mem_append.mp hmem with hmem | hmem
  · exact hafter slot data' hmem
  · exact hother slot data' (List.mem_singleton.mp hmem).symm

/-- The last write is the last operation, or it is that of the operations before. -/
theorem of_concat (h : LastWrite (ops ++ [op]) id data) :
    (∃ frame, op = .write id frame data) ∨
      LastWrite ops id data ∧ ∀ slot data', op ≠ .write id slot data' := by
  obtain ⟨before, frame, after, heq, hafter⟩ := h
  cases after using List.reverseRecOn with
  | nil =>
      obtain ⟨_, hlast⟩ := List.append_inj' heq rfl
      exact .inl ⟨frame, (List.singleton_inj.mp hlast)⟩
  | append_singleton after last =>
      rw [← List.cons_append, ← List.append_assoc] at heq
      obtain ⟨hops, hlast⟩ := List.append_inj' heq rfl
      obtain rfl := List.singleton_inj.mp hlast
      refine .inr ⟨⟨before, frame, after, hops, fun slot data' hmem => ?_⟩,
        fun slot data' hop => ?_⟩
      · exact hafter slot data' (List.mem_append_left _ hmem)
      · exact hafter slot data' (List.mem_append_right _ (List.mem_singleton.mpr hop.symm))

theorem lastWritten_eq (h : LastWrite ops id data) (content : PageId → B) :
    lastWritten content ops id = data := by
  induction ops using List.reverseRecOn with
  | nil =>
      obtain ⟨before, _, _, heq, _⟩ := h
      cases before <;> cases heq
  | append_singleton ops op ih =>
      rw [lastWritten_concat]
      rcases h.of_concat with ⟨frame, rfl⟩ | ⟨hbefore, hother⟩
      · exact Function.update_self _ _ _
      · rw [← ih hbefore]
        cases op with
        | write other frame data' =>
            refine Function.update_of_ne ?_ _ _
            rintro rfl
            exact hother frame data' rfl
        | _ => rfl

end LastWrite

namespace Session

variable {s s' : Session δ B} {ops : List (PoolOp B)} {op : PoolOp B}

/-- A step after which a page is dirty with some bytes has written them, or left them alone. -/
theorem Step.lastWrite (hstep : Step s op s') (hwf : s.pool.WellFormed)
    (hwritten : ∀ {id data}, s.pool.HoldsDirty id data → LastWrite ops id data) {id : PageId}
    {data : B} (hdirty : s'.pool.HoldsDirty id data) : LastWrite (ops ++ [op]) id data := by
  obtain ⟨frame, hmaps, hisDirty, hdata⟩ := hdirty
  cases hstep.mapped hwf hmaps with
  | kept maps data_eq isDirty_eq unwritten =>
      exact (hwritten ⟨frame, maps, isDirty_eq.symm.trans hisDirty,
        data_eq.symm.trans hdata⟩).concat unwritten
  | written data' maps op_eq data_eq =>
      cases data_eq.symm.trans hdata
      exact op_eq ▸ .here frame
  | loaded _ _ _ _ clean => cases clean.symm.trans hisDirty

/-- In every session a dirty frame holds the bytes that a client has last written to its page. -/
theorem lastWrite_of_dirty {pool : BufferPool δ B} {maxFrames : FrameId} {disk : δ}
    {order : IterationOrder PageId FrameId} (hnew : new maxFrames disk order = .ok pool)
    (hrun : Run Step (start pool) ops s) {id : PageId} {data : B}
    (hdirty : s.pool.HoldsDirty id data) : LastWrite ops id data := by
  obtain ⟨n, _, rfl⟩ := eq_initial_of_new hnew
  have hinvariant := hrun.invariant (fun ops s => s.pool.WellFormed ∧
    ∀ {id data}, s.pool.HoldsDirty id data → LastWrite ops id data) ?_ ?_
  · exact hinvariant.2 hdirty
  · refine ⟨.initial n disk order, fun ⟨frame, hmaps, _⟩ => ?_⟩
    exact absurd (hmaps.symm.trans (UnorderedMap.find?_empty order _)) (Option.some_ne_none _)
  · rintro ops s op s' ⟨hwf, hwritten⟩ hstep
    exact ⟨hstep.wellFormed hwf, hstep.lastWrite hwf hwritten⟩

end Session

/-! ## What has been read -/

/-- A disk with the calls it has been asked for. -/
structure Traced (δ B : Type) where
  disk : δ
  accesses : List (DiskAccess B)

instance : DiskManagerT (Traced δ B) B where
  readPage id traced :=
    let (data, disk) := DiskManagerT.readPage id traced.disk
    (data, ⟨disk, traced.accesses ++ [.read id]⟩)
  writePage id data traced :=
    ⟨DiskManagerT.writePage id data traced.disk, traced.accesses ++ [.write id data]⟩

theorem accesses_performAll (accesses : List (DiskAccess B)) (traced : Traced δ B) :
    (performAll accesses traced).accesses = traced.accesses ++ accesses := by
  induction accesses generalizing traced with
  | nil => exact (List.append_nil _).symm
  | cons access rest ih =>
      refine (ih (access.perform traced)).trans ?_
      rw [List.append_cons]
      cases access <;> rfl

namespace Session

variable {s s' : Session (Traced δ B) B} {ops : List (PoolOp B)} {op : PoolOp B}

end Session

end HiveDb
