import HiveDb.Disk.RequestOrder

/-!
# Clients that wait

A client of the scheduler waits for the promise of its request before it goes on,
as the buffer pool does.  The threads may interleave as they like then: what is on
the disk, in the buffers and in the history is what it would be if the client
called the disk manager itself, also where such a call throws.
-/

namespace HiveDb

open HiveDb.Lib

/-! ## The client on its own -/

/-- What a client does between its waits. -/
inductive Command (B : Type) where
  | fill (buffer : BufferId) (bytes : B)
  | call (req : DiskRequest)

/-- Each call has a promise of its own. -/
inductive Command.Proper {B : Type} : List (Command B) → Prop where
  | nil : Proper []
  | fill {before : List (Command B)} (h : Proper before) (buffer : BufferId) (bytes : B) :
      Proper (before ++ [.fill buffer bytes])
  | call {before : List (Command B)} (h : Proper before) (req : DiskRequest)
      (type_ne : req.type ≠ .shutdown)
      (fresh : ∀ other, .call other ∈ before → other.isDone ≠ req.isDone) :
      Proper (before ++ [.call req])

/-- A client that calls its disk manager itself. -/
structure DirectClient (δ B : Type) where
  disk : δ
  memory : BufferId → B
  performed : List (DiskCall B) := []

section Direct

variable {δ B : Type} [ThrowingDiskManagerT δ B]

def DirectClient.called (client : DirectClient δ B) (req : DiskRequest) (bytes : B) (disk : δ) :
    DirectClient δ B where
  disk := disk
  memory := Function.update client.memory req.data bytes
  performed := client.performed ++ [⟨req, bytes, true⟩]

def DirectClient.thrown (client : DirectClient δ B) (req : DiskRequest) (disk : δ) :
    DirectClient δ B where
  disk := disk
  memory := client.memory
  performed := client.performed ++ [⟨req, client.memory req.data, false⟩]

def Command.act : Command B → Prog (DirectClient δ B) Unit
  | .fill buffer bytes => modify fun client =>
      { client with memory := Function.update client.memory buffer bytes }
  | .call req => fun client =>
      match req.operation (client.memory req.data) client.disk with
      | .ok bytes disk => .ok () (client.called req bytes disk)
      | .error failure disk => .error failure (client.thrown req disk)

/-- The commands one after another. -/
def Command.inTurn (commands : List (Command B)) : Prog (DirectClient δ B) Unit :=
  commands.forM Command.act

theorem Command.inTurn_concat (before : List (Command B)) (last : Command B) :
    (Command.inTurn (before ++ [last]) : Prog (DirectClient δ B) Unit) =
      Command.inTurn before >>= fun _ => last.act := by
  simp [inTurn]

variable {client origin : DirectClient δ B} {before : List (Command B)} {req : DiskRequest}

theorem Command.inTurn_fill (h : Command.inTurn before origin = .ok () client) (buffer : BufferId)
    (bytes : B) : Command.inTurn (before ++ [.fill buffer bytes]) origin =
      .ok () { client with memory := Function.update client.memory buffer bytes } := by
  rw [inTurn_concat, bind_of_ok h]
  rfl

theorem Command.inTurn_call (h : Command.inTurn before origin = .ok () client) {bytes : B}
    {disk : δ} (hcall : req.operation (client.memory req.data) client.disk = .ok bytes disk) :
    Command.inTurn (before ++ [.call req]) origin = .ok () (client.called req bytes disk) := by
  rw [inTurn_concat, bind_of_ok h]
  simp only [act, hcall]

theorem Command.inTurn_throws (h : Command.inTurn before origin = .ok () client)
    {failure : Failure} {disk : δ}
    (hcall : req.operation (client.memory req.data) client.disk = .error failure disk) :
    Command.inTurn (before ++ [.call req]) origin = .error failure (client.thrown req disk) := by
  rw [inTurn_concat, bind_of_ok h]
  simp only [act, hcall]

end Direct

variable {κ δ B : Type}

/-- An event that a client brings about, or the destructor. -/
def SchedulerEvent.isClients : SchedulerEvent κ B → Bool
  | .schedule .. | .destroy .. | .fill .. => true
  | _ => false

def SchedulerEvent.command? : SchedulerEvent κ B → Option (Command B)
  | .fill buffer bytes => some (.fill buffer bytes)
  | .schedule _ req => some (.call req)
  | _ => none

/-- The commands of the clients among the events. -/
def commands (events : List (SchedulerEvent κ B)) : List (Command B) :=
  events.filterMap SchedulerEvent.command?

theorem commands_concat (events : List (SchedulerEvent κ B)) (event : SchedulerEvent κ B) :
    commands (events ++ [event]) = commands events ++ event.command?.toList := by
  rw [commands, commands, List.filterMap_append]
  cases h : event.command? <;> simp [h]

/-! ## A producer inside the channel -/

/--
A producer that carries a request is never stuck: some thread can go on with its
call, or the consumer can leave `get`.
-/
theorem Channel.Ordered.carrier_not_stuck {α : Type} [DecidableEq κ] {c : Channel κ α}
    (h : c.Ordered) {k : κ} {req : α} (hcarried : c.carried k = some req) :
    (∃ taken, c.getter = .unlocking taken) ∨
      ∃ event c', event.isInternal = true ∧ event ≠ .wake ∧ c.Step event c' := by
  cases hk : c.putters k with
  | out | unlocking | notifying => simp [carried, PutAt.carried, hk] at hcarried
  | emplacing => exact .inr ⟨.emplace k, _, rfl, by simp, .emplace hk⟩
  | locking =>
      cases hlatch : c.latch with
      | none => exact .inr ⟨.lockPut k, _, rfl, by simp, .lockPut hk hlatch⟩
      | some party =>
          cases party with
          | producer j =>
              have hinside := (h.producer j).mpr hlatch
              cases hj : c.putters j with
              | emplacing => exact .inr ⟨.emplace j, _, rfl, by simp, .emplace hj⟩
              | unlocking => exact .inr ⟨.unlockPut j, _, rfl, by simp, .unlockPut hj⟩
              | out | locking | notifying =>
                  rw [hj] at hinside
                  exact hinside.elim
          | consumer =>
              have hinside := h.consumer.mpr hlatch
              cases hg : c.getter with
              | unlocking taken => exact .inl ⟨taken, rfl⟩
              | testing =>
                  right
                  cases hqueue : c.queue with
                  | nil => exact ⟨.wait, _, rfl, by simp, .wait hg hqueue⟩
                  | cons => exact ⟨.pop, _, rfl, by simp, .pop hg hqueue⟩
              | out | locking | waiting =>
                  rw [hg] at hinside
                  exact hinside.elim

namespace DiskScheduler

variable [DecidableEq κ] [ThrowingDiskManagerT δ B]

/-! ## Where a request is -/

/-- The request has been given to `put`. -/
def HandedIn (s : DiskScheduler κ δ B) (req : DiskRequest) : Prop :=
  req ∈ s.channel.emplaced ∨ ∃ k, s.channel.carried k = some req

/-- The promises given away are set. -/
def Settled (s : DiskScheduler κ δ B) : Prop := ∀ p ∈ s.issued, (s.promises p).isSome

/-- What a client that calls the disk manager itself would see. -/
def direct (s : DiskScheduler κ δ B) : DirectClient δ B := ⟨s.disk, s.memory, s.performed⟩

/-- A step of threads whose clients wait for their promises. -/
def StepWaiting (s : DiskScheduler κ δ B) (event : SchedulerEvent κ B)
    (t : DiskScheduler κ δ B) : Prop :=
  Step s event t ∧ (event.isClients = true → s.Settled)

variable {s t : DiskScheduler κ δ B} {event : SchedulerEvent κ B} {req : DiskRequest}

omit [ThrowingDiskManagerT δ B] in
theorem handedIn_channel {inside : ChannelEvent κ DiskRequest} {c : Channel κ DiskRequest}
    (hinternal : inside.isInternal = true) (hstep : s.channel.Step inside c) :
    HandedIn { s with channel := c } req ↔ s.HandedIn req := by
  obtain ⟨_, ⟨hcarried, hemplaced⟩ | ⟨k, moved, hk, hcarried, hemplaced⟩, _⟩ :=
    hstep.internal hinternal
  · simp only [HandedIn, hcarried, hemplaced]
  · simp only [HandedIn, hcarried, hemplaced, List.mem_append, List.mem_singleton]
    constructor
    · rintro ((hmem | rfl) | ⟨j, hj⟩)
      · exact .inl hmem
      · exact .inr ⟨k, hk⟩
      · rcases eq_or_ne j k with rfl | hne
        · rw [Function.update_self] at hj
          cases hj
        · rw [Function.update_of_ne hne] at hj
          exact .inr ⟨j, hj⟩
    · rintro (hmem | ⟨j, hj⟩)
      · exact .inl (.inl hmem)
      · rcases eq_or_ne j k with rfl | hne
        · exact .inl (.inr (Option.some.inj (hj.symm.trans hk)))
        · exact .inr ⟨j, by rwa [Function.update_of_ne hne]⟩

omit [ThrowingDiskManagerT δ B] in
theorem handedIn_callPut {k : κ} (hstep : s.channel.Step (.callPut k req) t.channel)
    {other : DiskRequest} : t.HandedIn other ↔ other = req ∨ s.HandedIn other := by
  obtain ⟨hnone, hcarried, hemplaced, _⟩ := hstep.callPut_effect
  simp only [HandedIn, hcarried, hemplaced]
  constructor
  · rintro (hmem | ⟨j, hj⟩)
    · exact .inr (.inl hmem)
    · rcases eq_or_ne j k with rfl | hne
      · rw [Function.update_self] at hj
        exact .inl (Option.some.inj hj).symm
      · rw [Function.update_of_ne hne] at hj
        exact .inr (.inr ⟨j, hj⟩)
  · rintro (rfl | hmem | ⟨j, hj⟩)
    · exact .inr ⟨k, Function.update_self _ _ _⟩
    · exact .inl hmem
    · refine .inr ⟨j, ?_⟩
      rw [Function.update_of_ne]
      · exact hj
      · rintro rfl
        rw [hnone] at hj
        cases hj

omit [DecidableEq κ] [ThrowingDiskManagerT δ B] in
theorem handedIn_of_channel_eq (hcarried : t.channel.carried = s.channel.carried)
    (hemplaced : t.channel.emplaced = s.channel.emplaced) : t.HandedIn req ↔ s.HandedIn req := by
  simp only [HandedIn, hcarried, hemplaced]

namespace Serving

omit [DecidableEq κ] [ThrowingDiskManagerT δ B]

/-- A request that the worker holds has been handed in. -/
theorem handedIn_of_handling (h : s.Serving) (hworker : s.worker = .handling req) :
    s.HandedIn req := by
  have htaken := h.taken
  simp only [inHand, hworker] at htaken
  refine .inl ?_
  rw [h.ordered.fifo, htaken]
  simp

theorem issued_of_handedIn (h : s.Serving) (hreq : s.HandedIn req) : req.isDone ∈ s.issued := by
  rcases hreq with hmem | ⟨k, hk⟩
  · exact h.fresh.known req hmem
  · exact h.fresh.carriedKnown hk

theorem issued_of_call (h : s.Serving) {call : DiskCall B} (hcall : call ∈ s.performed) :
    call.request.isDone ∈ s.issued :=
  h.fresh.known _ (h.called_prefix.subset (List.mem_map_of_mem hcall))

/-- A promise that has not been given away is not set. -/
theorem unset_of_fresh (h : s.Serving) {p : PromiseId} (hfresh : p ∉ s.issued) :
    s.promises p = none := by
  cases hset : s.promises p with
  | none => rfl
  | some outcome =>
      obtain ⟨_, call, hcall, _, rfl, _⟩ := h.promised _ _ hset
      exact absurd (h.issued_of_call hcall) hfresh

/-- A request whose promise is set is one that the worker has made a call for. -/
theorem called_of_set (h : s.Serving) (hreq : s.HandedIn req)
    (hset : (s.promises req.isDone).isSome) : req ∈ s.called := by
  obtain ⟨outcome, houtcome⟩ := Option.isSome_iff_exists.mp hset
  obtain ⟨_, call, hcall, _, hdone, _⟩ := h.promised _ _ houtcome
  have hcalled : call.request ∈ s.called := List.mem_map_of_mem hcall
  have hemplaced := h.called_prefix.subset hcalled
  rcases hreq with hmem | ⟨k, hk⟩
  · exact List.inj_on_of_nodup_map h.fresh.nodup hemplaced hmem hdone ▸ hcalled
  · exact absurd (hdone ▸ List.mem_map_of_mem hemplaced) (h.fresh.carriedNew hk)

/-- A call that threw leaves its promise unset. -/
theorem unset_of_terminated (h : s.Serving) (hworker : s.worker = .terminated req) :
    s.promises req.isDone = none := by
  obtain ⟨thrown, hthrown, rfl, hfailed⟩ := h.terminated _ hworker
  cases hset : s.promises thrown.request.isDone with
  | none => rfl
  | some outcome =>
      obtain ⟨_, call, hcall, hsucceeded, hdone, _⟩ := h.promised _ _ hset
      have hnodup := h.called_nodup
      rw [called, List.map_map] at hnodup
      cases List.inj_on_of_nodup_map hnodup hcall hthrown hdone
      rw [hfailed] at hsucceeded
      cases hsucceeded

/-- When all promises are set, the worker asks for a request. -/
theorem getting_of_settled (h : s.Serving) (hsettled : s.Settled) : s.worker = .getting := by
  cases hworker : s.worker with
  | getting => rfl
  | handling req =>
      have hin := h.handedIn_of_handling hworker
      have hcalled := h.called_of_set hin (hsettled _ (h.issued_of_handedIn hin))
      obtain ⟨call, hcall, rfl⟩ := List.mem_map.mp hcalled
      exact absurd rfl (h.handling_not_called hworker call hcall)
  | settling req =>
      obtain ⟨call, hcall, rfl⟩ := h.settling _ hworker
      have hset := hsettled _ (h.issued_of_call hcall)
      rw [h.unset_of_settling hworker] at hset
      cases hset
  | terminated req =>
      obtain ⟨call, hcall, rfl, _⟩ := h.terminated _ hworker
      have hset := hsettled _ (h.issued_of_call hcall)
      rw [h.unset_of_terminated hworker] at hset
      cases hset
  | returned req =>
      have hmem : req ∈ s.channel.emplaced := by
        rw [h.ordered.fifo, h.taken]
        simp [inHand, hworker]
      obtain ⟨call, hcall, rfl⟩ :=
        List.mem_map.mp (h.called_of_set (.inl hmem) (hsettled _ (h.fresh.known _ hmem)))
      exact absurd (h.returned _ hworker) (h.calls call hcall)

end Serving

/-! ## What the run has done by then -/

/-- The commands so far, against what the worker has done for them. -/
inductive Waited (origin : DirectClient δ B) (cmds : List (Command B))
    (s : DiskScheduler κ δ B) : Prop where
  | served (executed : Command.inTurn cmds origin = .ok () s.direct)
      (called : ∀ req, s.HandedIn req → req.type ≠ .shutdown → req ∈ s.called)
      (running : ∀ req, s.worker ≠ .terminated req)
  | outstanding {before : List (Command B)} {req : DiskRequest}
      (cmds_eq : cmds = before ++ [.call req])
      (executed : Command.inTurn before origin = .ok () s.direct)
      (handedIn : s.HandedIn req) (type_ne : req.type ≠ .shutdown)
      (unset : s.promises req.isDone = none)
      (others : ∀ other, s.HandedIn other → other = req ∨ other ∈ s.called)
      (worker : s.worker = .getting ∨ s.worker = .handling req)
  | failed {req : DiskRequest} {failure : Failure} (worker : s.worker = .terminated req)
      (executed : Command.inTurn cmds origin = .error failure s.direct)

namespace Waited

variable {origin : DirectClient δ B} {cmds : List (Command B)}

omit [DecidableEq κ] in
theorem initial (disk : δ) (memory : BufferId → B) :
    Waited ⟨disk, memory, []⟩ [] (start disk memory : DiskScheduler κ δ B) := by
  refine .served rfl (fun req hreq _ => ?_) nofun
  rcases hreq with hmem | ⟨k, hk⟩
  · cases hmem
  · cases hk

omit [DecidableEq κ] in
/-- When all promises are set, the commands have been executed. -/
theorem of_settled (h : Waited origin cmds s) (hserving : s.Serving) (hsettled : s.Settled) :
    Command.inTurn cmds origin = .ok () s.direct ∧ ∀ req, s.HandedIn req → req ∈ s.called := by
  refine ⟨?_, fun req hreq =>
    hserving.called_of_set hreq (hsettled _ (hserving.issued_of_handedIn hreq))⟩
  cases h with
  | served executed => exact executed
  | outstanding _ _ handedIn _ unset =>
      have hset := hsettled _ (hserving.issued_of_handedIn handedIn)
      rw [unset] at hset
      cases hset
  | failed worker =>
      rw [hserving.getting_of_settled hsettled] at worker
      cases worker

omit [DecidableEq κ] in
/-- The process ends with the exception that the client itself would have met. -/
theorem fails_of_terminated (h : Waited origin cmds s) (hworker : s.worker = .terminated req) :
    ∃ failure, Command.inTurn cmds origin = .error failure s.direct := by
  cases h with
  | served _ _ running => exact absurd hworker (running req)
  | outstanding _ _ _ _ _ _ worker =>
      rw [hworker] at worker
      rcases worker with worker | worker <;> cases worker
  | failed _ executed => exact ⟨_, executed⟩

omit [DecidableEq κ] in
/-- A step that neither calls the disk nor takes a request nor sets a promise. -/
theorem unchanged (h : Waited origin cmds s) (hhandedIn : ∀ req, t.HandedIn req ↔ s.HandedIn req)
    (hdirect : t.direct = s.direct) (hpromises : t.promises = s.promises)
    (hworker : t.worker = s.worker) : Waited origin cmds t := by
  have hcalled : t.called = s.called :=
    congrArg (fun client : DirectClient δ B => client.performed.map DiskCall.request) hdirect
  cases h with
  | served executed called running =>
      refine .served (hdirect ▸ executed) (fun req hreq htype => ?_) (hworker ▸ running)
      exact hcalled ▸ called req ((hhandedIn req).mp hreq) htype
  | outstanding cmds_eq executed handedIn type_ne unset others worker =>
      refine .outstanding cmds_eq (hdirect ▸ executed) ((hhandedIn _).mpr handedIn) type_ne
        (hpromises ▸ unset) (fun other hother => ?_) (hworker ▸ worker)
      exact hcalled ▸ others other ((hhandedIn other).mp hother)
  | failed worker executed => exact .failed (hworker.trans worker) (hdirect ▸ executed)

theorem schedule (h : Waited origin cmds s) (hserving : s.Serving) (hsettled : s.Settled)
    {k : κ} {c : Channel κ DiskRequest} (htype : req.type ≠ .shutdown)
    (hfresh : req.isDone ∉ s.issued)
    (hstep : s.channel.Step (.callPut k req) c) :
    Waited origin (cmds ++ [.call req])
      { s with channel := c, issued := req.isDone :: s.issued } := by
  obtain ⟨hexecuted, hcalled⟩ := h.of_settled hserving hsettled
  exact .outstanding rfl hexecuted ((handedIn_callPut hstep).mpr (.inl rfl)) htype
    (hserving.unset_of_fresh hfresh)
    (fun other hother => ((handedIn_callPut hstep).mp hother).imp_right (hcalled other))
    (.inl (hserving.getting_of_settled hsettled))

theorem destroy (h : Waited origin cmds s) (hserving : s.Serving) (hsettled : s.Settled)
    (hrunning : ∀ req, s.worker ≠ .terminated req) {k : κ} {isDone : PromiseId}
    {c : Channel κ DiskRequest}
    (hstep : s.channel.Step (.callPut k (shutdownRequest isDone)) c) :
    Waited origin cmds
      { s with channel := c, destroyer := some k, issued := isDone :: s.issued } := by
  obtain ⟨hexecuted, hcalled⟩ := h.of_settled hserving hsettled
  refine .served hexecuted (fun other hother htype => ?_) hrunning
  rcases (handedIn_callPut hstep).mp hother with rfl | hother
  · exact absurd rfl htype
  · exact hcalled other hother

/-- The worker takes a request out of the queue. -/
theorem receive (h : Waited origin cmds s) (hserving : s.Serving) (hworker : s.worker = .getting)
    {c : Channel κ DiskRequest} (hstep : s.channel.Step (.returnGet req) c) :
    Waited origin cmds { s with channel := c, worker := .handling req } := by
  obtain ⟨_, hcarried, hemplaced, _⟩ := hstep.returnGet_effect
  have hserving' := hserving.receive hworker hstep
  have hhandedIn : ∀ other, HandedIn { s with channel := c, worker := .handling req } other ↔
      s.HandedIn other := fun _ => handedIn_of_channel_eq hcarried hemplaced
  cases h with
  | served executed called =>
      exact .served executed (fun other hother => called other ((hhandedIn other).mp hother)) nofun
  | @outstanding before own cmds_eq executed handedIn type_ne unset others =>
      refine .outstanding cmds_eq executed ((hhandedIn own).mpr handedIn) type_ne unset
        (fun other hother => others other ((hhandedIn other).mp hother)) (.inr ?_)
      -- no call has been made for the request, so it is the one that is waited for
      rcases others req ((hhandedIn req).mp (hserving'.handedIn_of_handling rfl)) with
        rfl | hcalled
      · rfl
      · obtain ⟨call, hcall, rfl⟩ := List.mem_map.mp hcalled
        exact absurd rfl (hserving'.handling_not_called rfl call hcall)
  | failed worker =>
      rw [hworker] at worker
      cases worker

omit [DecidableEq κ] in
/-- The request that the worker calls the disk for is the one that is waited for. -/
theorem split_of_handling (h : Waited origin cmds s) (hserving : s.Serving)
    (hworker : s.worker = .handling req) (htype : req.type ≠ .shutdown) :
    ∃ before, cmds = before ++ [.call req] ∧ Command.inTurn before origin = .ok () s.direct ∧
      ∀ other, s.HandedIn other → other = req ∨ other ∈ s.called := by
  cases h with
  | served _ called =>
      obtain ⟨call, hcall, rfl⟩ :=
        List.mem_map.mp (called req (hserving.handedIn_of_handling hworker) htype)
      exact absurd rfl (hserving.handling_not_called hworker call hcall)
  | outstanding cmds_eq executed _ _ _ others worker =>
      rw [hworker] at worker
      rcases worker with worker | worker
      · cases worker
      · cases worker
        exact ⟨_, cmds_eq, executed, others⟩
  | failed worker =>
      rw [hworker] at worker
      cases worker

omit [DecidableEq κ] in
theorem perform (h : Waited origin cmds s) (hserving : s.Serving)
    (hworker : s.worker = .handling req) (htype : req.type ≠ .shutdown) {bytes : B} {disk : δ}
    (hreturns : req.operation (s.memory req.data) s.disk = .ok bytes disk) :
    Waited origin cmds { s with
      worker := .settling req
      disk := disk
      memory := Function.update s.memory req.data bytes
      performed := s.performed ++ [⟨req, bytes, true⟩] } := by
  obtain ⟨before, rfl, hexecuted, hothers⟩ := h.split_of_handling hserving hworker htype
  refine .served (Command.inTurn_call hexecuted hreturns) (fun other hother _ => ?_) nofun
  simp only [called, List.map_append, List.map_singleton, List.mem_append, List.mem_singleton]
  exact (hothers other hother).symm

omit [DecidableEq κ] in
theorem throws (h : Waited origin cmds s) (hserving : s.Serving)
    (hworker : s.worker = .handling req) (htype : req.type ≠ .shutdown) {failure : Failure}
    {disk : δ} (hthrows : req.operation (s.memory req.data) s.disk = .error failure disk) :
    Waited origin cmds { s with
      worker := .terminated req
      disk := disk
      performed := s.performed ++ [⟨req, s.memory req.data, false⟩] } := by
  obtain ⟨before, rfl, hexecuted, _⟩ := h.split_of_handling hserving hworker htype
  exact .failed rfl (Command.inTurn_throws hexecuted hthrows)

theorem settle (h : Waited origin cmds s) (hworker : s.worker = .settling req)
    {c : Channel κ DiskRequest} (hstep : s.channel.Step .callGet c) :
    Waited origin cmds { s with
      channel := c
      worker := .getting
      promises := Function.update s.promises req.isDone (some true) } := by
  obtain ⟨hcarried, hemplaced, _⟩ := hstep.callGet_effect
  cases h with
  | served executed called =>
      refine .served executed (fun other hother => called other ?_) nofun
      exact (handedIn_of_channel_eq hcarried hemplaced).mp hother
  | outstanding _ _ _ _ _ _ worker =>
      rw [hworker] at worker
      rcases worker with worker | worker <;> cases worker
  | failed worker =>
      rw [hworker] at worker
      cases worker

omit [DecidableEq κ] in
/-- The worker returns for the shutdown request. -/
theorem stop (h : Waited origin cmds s) (hworker : s.worker = .handling req)
    (htype : req.type = .shutdown) : Waited origin cmds { s with worker := .returned req } := by
  cases h with
  | served executed called => exact .served executed called nofun
  | outstanding _ _ _ type_ne _ _ worker =>
      rw [hworker] at worker
      rcases worker with worker | worker <;> cases worker
      exact absurd htype type_ne
  | failed worker =>
      rw [hworker] at worker
      cases worker

omit [DecidableEq κ] in
/-- The commands, behind an event that is none. -/
theorem silent (h : Waited origin cmds s) (hsilent : event.command? = none) :
    Waited origin (cmds ++ event.command?.toList) s := by
  rw [hsilent, Option.toList_none, List.append_nil]
  exact h

/-- Every step of threads whose clients wait executes the commands in turn. -/
theorem step (h : Waited origin cmds s) (hserving : s.Serving) (hstep : StepWaiting s event t) :
    Waited origin (cmds ++ event.command?.toList) t := by
  obtain ⟨⟨halive, hact⟩, hwaits⟩ := hstep
  cases hact with
  | channel hinternal hinside =>
      exact (h.unchanged (fun _ => handedIn_channel hinternal hinside) rfl rfl rfl).silent rfl
  | schedule htype _ hfresh hput => exact h.schedule hserving (hwaits rfl) htype hfresh hput
  | destroy _ _ hput => exact (h.destroy hserving (hwaits rfl) halive.running hput).silent rfl
  | join => exact silent (h.unchanged (fun _ => Iff.rfl) rfl rfl rfl) rfl
  | fill buffer bytes =>
      obtain ⟨hexecuted, hcalled⟩ := h.of_settled hserving (hwaits rfl)
      exact .served (Command.inTurn_fill hexecuted buffer bytes)
        (fun other hother _ => hcalled other hother) halive.running
  | receive hworker hget => exact (h.receive hserving hworker hget).silent rfl
  | perform hworker htype hreturns =>
      exact (h.perform hserving hworker htype hreturns).silent rfl
  | throws hworker htype hthrows => exact (h.throws hserving hworker htype hthrows).silent rfl
  | settle hworker _ hget => exact (h.settle hworker hget).silent rfl
  | settleAgain hworker hset =>
      rw [hserving.unset_of_settling hworker] at hset
      cases hset
  | stop hworker htype => exact (h.stop hworker htype).silent rfl

theorem of_run {disk : δ} {memory : BufferId → B} {events : List (SchedulerEvent κ B)}
    (hrun : Run StepWaiting (start disk memory) events s) :
    Waited ⟨disk, memory, []⟩ (commands events) s := by
  have hinvariant := hrun.invariant (fun events s => s.Serving ∧
    Waited ⟨disk, memory, []⟩ (commands events) s) ?_ ?_
  · exact hinvariant.2
  · exact ⟨.initial disk memory, .initial disk memory⟩
  · rintro events s event t ⟨hserving, hwaited⟩ hstep
    rw [commands_concat]
    exact ⟨hserving.step hstep.1, hwaited.step hserving hstep⟩

end Waited

/-! ## The wait ends -/

/-- Whose promises have been given away, and who has asked the worker to return. -/
structure Known (s : DiskScheduler κ δ B) : Prop where
  issued : ∀ p ∈ s.issued, ∃ req, s.HandedIn req ∧ req.isDone = p
  shutdown : ∀ req, s.HandedIn req → req.type = .shutdown → s.destroyer ≠ none

namespace Known

omit [DecidableEq κ] [ThrowingDiskManagerT δ B] in
theorem initial (disk : δ) (memory : BufferId → B) :
    Known (start disk memory : DiskScheduler κ δ B) where
  issued := nofun
  shutdown req hreq := by
    rcases hreq with hmem | ⟨k, hk⟩
    · cases hmem
    · cases hk

omit [DecidableEq κ] [ThrowingDiskManagerT δ B] in
theorem unchanged (h : s.Known) (hhandedIn : ∀ req, t.HandedIn req ↔ s.HandedIn req)
    (hissued : t.issued = s.issued) (hdestroyer : t.destroyer = s.destroyer) : t.Known where
  issued p hp := by
    obtain ⟨req, hreq, hdone⟩ := h.issued p (hissued ▸ hp)
    exact ⟨req, (hhandedIn req).mpr hreq, hdone⟩
  shutdown req hreq htype := hdestroyer ▸ h.shutdown req ((hhandedIn req).mp hreq) htype

omit [ThrowingDiskManagerT δ B] in
theorem callPut (h : s.Known) {k : κ} {c : Channel κ DiskRequest} {destroyer : Option κ}
    (hstep : s.channel.Step (.callPut k req) c) (hdestroyer : s.destroyer ≠ none → destroyer ≠ none)
    (hshutdown : req.type = .shutdown → destroyer ≠ none) :
    Known { s with channel := c, destroyer := destroyer, issued := req.isDone :: s.issued } where
  issued p hp := by
    rcases List.mem_cons.mp hp with rfl | hp
    · exact ⟨req, (handedIn_callPut hstep).mpr (.inl rfl), rfl⟩
    · obtain ⟨other, hother, hdone⟩ := h.issued p hp
      exact ⟨other, (handedIn_callPut hstep).mpr (.inr hother), hdone⟩
  shutdown other hother htype := by
    rcases (handedIn_callPut hstep).mp hother with rfl | hother
    · exact hshutdown htype
    · exact hdestroyer (h.shutdown other hother htype)

theorem step (h : s.Known) (hstep : Step s event t) : t.Known := by
  obtain ⟨_, hact⟩ := hstep
  cases hact with
  | channel hinternal hinside =>
      exact h.unchanged (fun _ => handedIn_channel hinternal hinside) rfl rfl
  | schedule htype _ _ hput => exact h.callPut hput id fun hshutdown => absurd hshutdown htype
  | @destroy k isDone c _ _ hput =>
      exact h.callPut hput (fun _ => Option.some_ne_none k) fun _ => Option.some_ne_none k
  | receive _ hget =>
      obtain ⟨_, hcarried, hemplaced, _⟩ := hget.returnGet_effect
      exact h.unchanged (fun _ => handedIn_of_channel_eq hcarried hemplaced) rfl rfl
  | settle _ _ hget =>
      obtain ⟨hcarried, hemplaced, _⟩ := hget.callGet_effect
      exact h.unchanged (fun _ => handedIn_of_channel_eq hcarried hemplaced) rfl rfl
  | join | fill | perform | throws | settleAgain | stop =>
      exact h.unchanged (fun _ => Iff.rfl) rfl rfl

theorem of_run {disk : δ} {memory : BufferId → B} {events : List (SchedulerEvent κ B)}
    (hrun : Run Step (start disk memory) events s) : s.Known :=
  hrun.invariant (fun _ s => s.Known) (initial disk memory) fun _ _ _ _ h hstep => h.step hstep

end Known

/-- While the worker is there for it, some thread can go on with a request that waits. -/
theorem onward_of_worker {disk : δ} {memory : BufferId → B} {events : List (SchedulerEvent κ B)}
    (hrun : Run Step (start disk memory) events s)
    (hrunning : ∀ req, s.worker ≠ .terminated req) (hstays : ∀ last, s.worker ≠ .returned last)
    (hunsettled : ¬ s.Settled) : ∃ event t, event.isOnward = true ∧ Step s event t := by
  have hserving := Serving.of_run hrun
  obtain ⟨p, hp, hunset⟩ : ∃ p ∈ s.issued, s.promises p = none := by
    simpa [Settled] using hunsettled
  obtain ⟨req, hmem | ⟨k, hk⟩, rfl⟩ := (Known.of_run hrun).issued p hp
  · exact (Serving.reports hrun hrunning).onward req hmem hunset hstays
  · have halive : s.Alive := by
      refine ⟨hrunning, ?_⟩
      cases hjoined : s.joined with
      | false => rfl
      | true =>
          obtain ⟨last, hreturned⟩ := hserving.joined hjoined
          exact absurd hreturned (hstays last)
    rcases hserving.ordered.carrier_not_stuck hk with
      ⟨taken, hgetter⟩ | ⟨inside, c, hinternal, hwake, hinside⟩
    · have hworker : s.worker = .getting := hserving.getting.mp (by simp [hgetter])
      exact ⟨.receive, _, rfl, halive, .receive hworker (.returnGet hgetter)⟩
    · refine ⟨.channel inside, _, ?_, halive, .channel hinternal hinside⟩
      cases inside <;> simp_all [SchedulerEvent.isOnward]

/-- A client that waits is not stuck while the process is running and the scheduler stands. -/
theorem onward_of_unsettled {disk : δ} {memory : BufferId → B}
    {events : List (SchedulerEvent κ B)} (hrun : Run Step (start disk memory) events s)
    (hrunning : ∀ req, s.worker ≠ .terminated req) (hstanding : s.destroyer = none)
    (hunsettled : ¬ s.Settled) : ∃ event t, event.isOnward = true ∧ Step s event t := by
  have hserving := Serving.of_run hrun
  refine onward_of_worker hrun hrunning (fun last hreturned => ?_) hunsettled
  have hmem : last ∈ s.channel.emplaced := by
    rw [hserving.ordered.fifo, hserving.taken]
    simp [inHand, hreturned]
  exact (Known.of_run hrun).shutdown last (.inl hmem) (hserving.returned _ hreturned) hstanding

/-! ## A client for every list of commands -/

/-- The clients wait in a run in which they do nothing. -/
theorem run_waiting_of_silent {events : List (SchedulerEvent κ B)}
    (hrun : Run StepReturns s events t) (hsilent : ∀ event ∈ events, event.isClients = false) :
    Run StepWaiting s events t := by
  induction hrun with
  | nil => exact .nil
  | @snoc events middle t event before last ih =>
      refine (ih fun other hmem => hsilent other (List.mem_append_left _ hmem)).snoc
        ⟨last.1, fun hclients => ?_⟩
      rw [hsilent event (List.mem_append_right _ (List.mem_singleton_self event))] at hclients
      cases hclients

/-- The steps in which an idle scheduler serves a request. -/
def service (k : κ) (req : DiskRequest) : List (SchedulerEvent κ B) :=
  .schedule k req :: (delivery k ++ [.perform, .settle req.isDone])

omit [DecidableEq κ] in
theorem commands_service (k : κ) (req : DiskRequest) :
    commands (service k req : List (SchedulerEvent κ B)) = [.call req] := rfl

/-- The state in which the request has been served. -/
def served (s : DiskScheduler κ δ B) (k : κ) (req : DiskRequest) (bytes : B) (disk : δ) :
    DiskScheduler κ δ B :=
  { (s.handedIn k req).delivered k req with
    channel := { ((s.handedIn k req).delivered k req).channel with getter := .locking }
    worker := .getting
    disk := disk
    memory := Function.update s.memory req.data bytes
    performed := s.performed ++ [⟨req, bytes, true⟩]
    promises := Function.update s.promises req.isDone (some true) }

omit [ThrowingDiskManagerT δ B] in
theorem Idle.served (h : s.Idle) (k : κ) (req : DiskRequest) (bytes : B) (disk : δ) :
    (s.served k req bytes disk).Idle := by
  refine ⟨h.standing, h.latch, h.queue, fun j => ?_, rfl, rfl⟩
  rcases eq_or_ne j k with rfl | hne
  · exact Function.update_self _ _ _
  · refine (Function.update_of_ne hne _ _).trans ?_
    exact (Function.update_of_ne hne _ _).trans (h.putters j)

/-- An idle scheduler serves a request of a client that waits. -/
theorem Idle.run_service (h : s.Idle) (hserving : s.Serving) (hsettled : s.Settled) (k : κ)
    (htype : req.type ≠ .shutdown) (hclient : s.destroyer = none)
    (hfresh : req.isDone ∉ s.issued) {bytes : B} {disk : δ}
    (hreturns : req.operation (s.memory req.data) s.disk = .ok bytes disk) :
    Run StepWaiting s (service k req) (s.served k req bytes disk) := by
  have halive : (s.handedIn k req).Alive := ⟨h.alive.running, h.standing⟩
  have hdelivery : Run StepReturns (s.handedIn k req) (delivery k)
      ((s.handedIn k req).delivered k req) :=
    run_delivery halive (by simp [handedIn, Channel.setPutter]) h.latch h.queue h.getter h.worker
  have hunset := hserving.unset_of_fresh hfresh
  refine .cons ⟨⟨h.alive, .schedule htype (by simp [hclient]) hfresh (.callPut (h.putters k))⟩,
    fun _ => hsettled⟩ ?_
  have hdelivered := run_waiting_of_silent hdelivery (by simp [delivery, SchedulerEvent.isClients])
  have hperformed := hdelivered.snoc (show StepWaiting _ .perform _ from
    ⟨⟨⟨fun _ => WorkerAt.noConfusion, h.standing⟩, .perform rfl htype hreturns⟩,
      Bool.noConfusion⟩)
  have hsettles := hperformed.snoc (show StepWaiting _ (.settle req.isDone) _ from
    ⟨⟨⟨fun _ => WorkerAt.noConfusion, h.standing⟩, .settle rfl hunset (.callGet rfl)⟩,
      Bool.noConfusion⟩)
  rwa [List.append_assoc] at hsettles

/-- Commands that return when the client executes them return in some run as well. -/
theorem exists_waiting_run (k : κ) (disk : δ) (memory : BufferId → B) {cmds : List (Command B)}
    (hproper : Command.Proper cmds) {client : DirectClient δ B}
    (hreturns : Command.inTurn cmds ⟨disk, memory, []⟩ = .ok () client) :
    ∃ events s, Run StepWaiting (start disk memory : DiskScheduler κ δ B) events s ∧
      commands events = cmds ∧ s.Settled ∧ s.direct = client ∧ s.Idle ∧ s.destroyer = none ∧
      ∀ p ∈ s.issued, ∃ req, .call req ∈ cmds ∧ req.isDone = p := by
  induction hproper generalizing client with
  | nil =>
      cases hreturns
      exact ⟨[], _, .nil, rfl, nofun, rfl, .initial disk memory, rfl, nofun⟩
  | @fill before h buffer bytes ih =>
      rw [Command.inTurn_concat] at hreturns
      obtain ⟨_, middle, hbefore, hlast⟩ := bind_eq_ok_iff.mp hreturns
      cases hlast
      obtain ⟨events, s, hrun, hcommands, hsettled, rfl, hidle, hstanding, hissued⟩ := ih hbefore
      refine ⟨_, _, hrun.snoc ⟨⟨hidle.alive, .fill buffer bytes⟩, fun _ => hsettled⟩, ?_,
        hsettled, rfl, ⟨hidle.standing, hidle.latch, hidle.queue, hidle.putters, hidle.getter,
          hidle.worker⟩, hstanding, fun p hp => ?_⟩
      · rw [commands_concat, hcommands]
        rfl
      · obtain ⟨req, hmem, hdone⟩ := hissued p hp
        exact ⟨req, List.mem_append_left _ hmem, hdone⟩
  | @call before h req type_ne fresh ih =>
      rw [Command.inTurn_concat] at hreturns
      obtain ⟨_, middle, hbefore, hlast⟩ := bind_eq_ok_iff.mp hreturns
      obtain ⟨events, s, hrun, hcommands, hsettled, rfl, hidle, hstanding, hissued⟩ := ih hbefore
      have hserving := Serving.of_run (hrun.mono fun _ _ _ h => h.1)
      simp only [Command.act] at hlast
      split at hlast
      next bytes disk' hoperation =>
        cases hlast
        have hservice := hidle.run_service hserving hsettled k type_ne hstanding (fun hp => by
          obtain ⟨other, hmem, hdone⟩ := hissued _ hp
          exact fresh other hmem hdone) hoperation
        refine ⟨_, _, hrun.append hservice, ?_, fun p hp => ?_, rfl, hidle.served k req _ _,
          hstanding, fun p hp => ?_⟩
        · rw [commands, List.filterMap_append]
          exact congrArg₂ (· ++ ·) hcommands (commands_service k req)
        · rcases eq_or_ne p req.isDone with rfl | hne
          · show (Function.update s.promises req.isDone (some true) req.isDone).isSome = true
            rw [Function.update_self]
            rfl
          · show (Function.update s.promises req.isDone (some true) p).isSome = true
            rw [Function.update_of_ne hne]
            exact hsettled p ((List.mem_cons.mp hp).resolve_left hne)
        · rcases List.mem_cons.mp hp with rfl | hp
          · exact ⟨req, List.mem_append_right _ (List.mem_singleton_self _), rfl⟩
          · obtain ⟨other, hmem, hdone⟩ := hissued p hp
            exact ⟨other, List.mem_append_left _ hmem, hdone⟩
      next => cases hlast

/-! ## Waiting and calling directly -/

/--
The scheduler works for clients that wait as if they called the disk manager
themselves, one command after another.
-/
structure WorksDirectly (origin : DirectClient δ B) (cmds : List (Command B))
    (s : DiskScheduler κ δ B) : Prop where
  settled : s.Settled → Command.inTurn cmds origin = .ok () s.direct
  /-- A client that waits sees none of its last call, or all of it. -/
  running : (∀ req, s.worker ≠ .terminated req) → ∃ before rest, cmds = before ++ rest ∧
    rest.length ≤ 1 ∧ Command.inTurn before origin = .ok () s.direct
  /-- Nothing is lost at the end. -/
  joined : s.joined = true → Command.inTurn cmds origin = .ok () s.direct
  /-- The process ends exactly where the client itself would have met the exception. -/
  terminated : ∀ req, s.worker = .terminated req →
    ∃ failure, Command.inTurn cmds origin = .error failure s.direct
  onward : ¬ s.Settled → s.destroyer = none → (∀ req, s.worker ≠ .terminated req) →
    ∃ event t, event.isOnward = true ∧ Step s event t

/-- In every interleaving of threads whose clients wait the scheduler works directly. -/
theorem waiting_works_directly {disk : δ} {memory : BufferId → B}
    {events : List (SchedulerEvent κ B)} (hrun : Run StepWaiting (start disk memory) events s) :
    WorksDirectly ⟨disk, memory, []⟩ (commands events) s := by
  have hstep := hrun.mono fun _ _ _ h => h.1
  have hserving := Serving.of_run hstep
  have hwaited := Waited.of_run hrun
  refine ⟨fun hsettled => (hwaited.of_settled hserving hsettled).1, fun hrunning => ?_,
    fun hjoined => ?_, fun req hworker => hwaited.fails_of_terminated hworker,
    fun hunsettled hstanding hrunning =>
      onward_of_unsettled hstep hrunning hstanding hunsettled⟩
  · cases hwaited with
    | served executed => exact ⟨_, [], (List.append_nil _).symm, Nat.zero_le _, executed⟩
    | outstanding cmds_eq executed => exact ⟨_, _, cmds_eq, le_rfl, executed⟩
    | failed worker => exact absurd worker (hrunning _)
  · obtain ⟨last, hreturned⟩ := hserving.joined hjoined
    cases hwaited with
    | served executed => exact executed
    | outstanding _ _ _ _ _ _ worker =>
        rw [hreturned] at worker
        rcases worker with worker | worker <;> cases worker
    | failed worker =>
        rw [hreturned] at worker
        cases worker

/-- A page is written from one buffer and read into another one. -/
def writtenAndRead : List (Command Nat) :=
  [.fill 0 7, .call ⟨.write, 0, 3, 0⟩, .call ⟨.read, 1, 3, 1⟩]

/-- The client that waits has the page in its second buffer. -/
theorem page_read_back_directly :
    ∃ events, ∃ s : DiskScheduler Unit (IdealDisk Nat) Nat,
      Run StepWaiting (start ⟨fun _ => 0⟩ fun _ => 0) events s ∧
        commands events = writtenAndRead ∧ s.Settled ∧ s.memory 1 = 7 ∧
        Command.inTurn writtenAndRead ⟨⟨fun _ => 0⟩, fun _ => 0, []⟩ = .ok () s.direct := by
  have hproper : Command.Proper writtenAndRead :=
    ((Command.Proper.nil.fill 0 7).call _ (by simp) (by simp)).call _ (by simp) (by simp)
  obtain ⟨events, s, hrun, hcommands, hsettled, hdirect, _⟩ :=
    exists_waiting_run () (⟨fun _ => 0⟩ : IdealDisk Nat) (fun _ => 0) hproper rfl
  have hexecuted := (waiting_works_directly hrun).settled hsettled
  rw [hcommands] at hexecuted
  refine ⟨events, s, hrun, hcommands, hsettled, ?_, hexecuted⟩
  exact congrArg (fun client : DirectClient (IdealDisk Nat) Nat => client.memory 1) hdirect

end DiskScheduler

end HiveDb
