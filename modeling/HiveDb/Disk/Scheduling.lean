import HiveDb.Disk.DiskScheduler
import HiveDb.Lib.Run

/-!
# What the disk scheduler guarantees

One invariant says where each request is: the requests taken from the queue are
the calls made so far and the one in the worker's hand.  It holds in every run.
As long as no call of the disk manager throws, the worker serves all requests
in order and completes each promise; the first exception ends the process.
-/

namespace HiveDb

open HiveDb.Lib

variable {κ δ B : Type} [DecidableEq κ]

/-- An event by which a request that has been handed in moves on. -/
def SchedulerEvent.isOnward {κ B : Type} : SchedulerEvent κ B → Bool
  | .channel .wake => false
  | .channel _ | .receive | .perform | .settle _ | .stop => true
  | _ => false

/-- The worker sets the promise. -/
def SchedulerEvent.settles {κ B : Type} (p : PromiseId) : SchedulerEvent κ B → Bool
  | .settle isDone => isDone == p
  | _ => false

namespace DiskScheduler

/-- The scheduler after its construction: the worker has called `get`. -/
def start (disk : δ) (memory : BufferId → B) : DiskScheduler κ δ B := { disk, memory }

/-! ## Promises are moved, never shared -/

/-- Each promise handed to `schedule` belongs to one request. -/
structure Fresh (carried : κ → Option DiskRequest) (emplaced : List DiskRequest)
    (issued : List PromiseId) : Prop where
  nodup : (emplaced.map DiskRequest.isDone).Nodup
  known : ∀ req ∈ emplaced, req.isDone ∈ issued
  carriedKnown : ∀ {k req}, carried k = some req → req.isDone ∈ issued
  carriedNew : ∀ {k req}, carried k = some req → req.isDone ∉ emplaced.map DiskRequest.isDone
  distinct : ∀ {j k req req'}, carried j = some req → carried k = some req' →
    req.isDone = req'.isDone → j = k

namespace Fresh

variable {carried : κ → Option DiskRequest} {emplaced : List DiskRequest}
variable {issued : List PromiseId} {k : κ} {req : DiskRequest}

omit [DecidableEq κ] in
theorem initial : Fresh (fun _ : κ => none) [] [] where
  nodup := List.nodup_nil
  known := nofun
  carriedKnown := nofun
  carriedNew := nofun
  distinct := nofun

/-- A request with a new promise enters `put`. -/
theorem issue (h : Fresh carried emplaced issued) (hfresh : req.isDone ∉ issued) :
    Fresh (Function.update carried k (some req)) emplaced (req.isDone :: issued) where
  nodup := h.nodup
  known other hmem := List.mem_cons_of_mem _ (h.known other hmem)
  carriedKnown {j other} hj := by
    rcases eq_or_ne j k with rfl | hne
    · rw [Function.update_self] at hj
      cases hj
      exact List.mem_cons_self
    · rw [Function.update_of_ne hne] at hj
      exact List.mem_cons_of_mem _ (h.carriedKnown hj)
  carriedNew {j other} hj := by
    rcases eq_or_ne j k with rfl | hne
    · rw [Function.update_self] at hj
      cases hj
      intro hmem
      obtain ⟨earlier, hearlier, heq⟩ := List.mem_map.mp hmem
      exact hfresh (heq ▸ h.known earlier hearlier)
    · rw [Function.update_of_ne hne] at hj
      exact h.carriedNew hj
  distinct {i j first second} hi hj heq := by
    rcases eq_or_ne i k with rfl | hi' <;> rcases eq_or_ne j i with rfl | hj'
    · rfl
    · rw [Function.update_self] at hi
      rw [Function.update_of_ne hj'] at hj
      cases hi
      exact absurd (heq ▸ h.carriedKnown hj) hfresh
    · rfl
    · rw [Function.update_of_ne hi'] at hi
      rcases eq_or_ne j k with rfl | hj''
      · rw [Function.update_self] at hj
        cases hj
        exact absurd (heq ▸ h.carriedKnown hi) hfresh
      · rw [Function.update_of_ne hj''] at hj
        exact h.distinct hi hj heq

theorem emplace (h : Fresh carried emplaced issued) (hk : carried k = some req) :
    Fresh (Function.update carried k none) (emplaced ++ [req]) issued where
  nodup := by
    rw [List.map_append, List.map_singleton]
    exact List.nodup_append.mpr ⟨h.nodup, List.nodup_singleton _, by
      intro earlier hearlier _ hlast heq
      rw [List.mem_singleton] at hlast
      exact h.carriedNew hk (hlast ▸ heq ▸ hearlier)⟩
  known other hmem := by
    rcases List.mem_append.mp hmem with hmem | hmem
    · exact h.known other hmem
    · rw [List.mem_singleton.mp hmem]
      exact h.carriedKnown hk
  carriedKnown {j other} hj := by
    rcases eq_or_ne j k with rfl | hne
    · rw [Function.update_self] at hj
      cases hj
    · rw [Function.update_of_ne hne] at hj
      exact h.carriedKnown hj
  carriedNew {j other} hj := by
    rcases eq_or_ne j k with rfl | hne
    · rw [Function.update_self] at hj
      cases hj
    · rw [Function.update_of_ne hne] at hj
      rw [List.map_append, List.map_singleton, List.mem_append, List.mem_singleton, not_or]
      exact ⟨h.carriedNew hj, fun heq => hne (h.distinct hj hk heq)⟩
  distinct {i j first second} hi hj heq := by
    rcases eq_or_ne i k with rfl | hi'
    · rw [Function.update_self] at hi
      cases hi
    rcases eq_or_ne j k with rfl | hj'
    · rw [Function.update_self] at hj
      cases hj
    rw [Function.update_of_ne hi'] at hi
    rw [Function.update_of_ne hj'] at hj
    exact h.distinct hi hj heq

end Fresh

/-! ## Where each request is -/

/-- The requests that the worker has taken and not made a call for. -/
def inHand (s : DiskScheduler κ δ B) : List DiskRequest :=
  match s.worker with
  | .getting => s.channel.handed.toList
  | .handling req | .returned req => [req]
  | .settling _ | .terminated _ => []

/-- The requests for which the worker has called the disk manager, in order. -/
def called (s : DiskScheduler κ δ B) : List DiskRequest := s.performed.map DiskCall.request

structure Serving (s : DiskScheduler κ δ B) : Prop where
  ordered : s.channel.Ordered
  fresh : Fresh s.channel.carried s.channel.emplaced s.issued
  taken : s.channel.taken = s.called ++ s.inHand
  /-- The worker is inside `get` exactly when the channel says so. -/
  getting : s.channel.getter ≠ .out ↔ s.worker = .getting
  returned : ∀ req, s.worker = .returned req → req.type = .shutdown
  calls : ∀ call ∈ s.performed, call.request.type ≠ .shutdown
  threw : ∀ call ∈ s.performed, call.succeeded = false → s.worker = .terminated call.request
  settled : ∀ call ∈ s.performed, call.succeeded = true →
    s.worker = .settling call.request ∨ s.promises call.request.isDone = some true
  promised : ∀ p outcome, s.promises p = some outcome → outcome = true ∧
    ∃ call ∈ s.performed, call.succeeded = true ∧ call.request.isDone = p ∧
      s.worker ≠ .settling call.request
  settling : ∀ req, s.worker = .settling req → ∃ call ∈ s.performed, call.request = req
  terminated : ∀ req, s.worker = .terminated req →
    ∃ call ∈ s.performed, call.request = req ∧ call.succeeded = false
  joined : s.joined = true → ∃ req, s.worker = .returned req

namespace Serving

variable {s t : DiskScheduler κ δ B} {event : SchedulerEvent κ B} {req : DiskRequest}

theorem initial (disk : δ) (memory : BufferId → B) :
    Serving (start disk memory : DiskScheduler κ δ B) where
  ordered := Channel.Ordered.initial.step (.callGet rfl)
  fresh := Fresh.initial
  taken := rfl
  getting := by simp [start]
  returned := nofun
  calls := nofun
  threw := nofun
  settled := nofun
  promised := nofun
  settling := nofun
  terminated := nofun
  joined := nofun

section Called

omit [DecidableEq κ]

theorem called_prefix (h : s.Serving) : s.called <+: s.channel.emplaced := by
  rw [h.ordered.fifo, h.taken, List.append_assoc]
  exact List.prefix_append _ _

/-- The worker calls the disk manager for a promise at most once. -/
theorem called_nodup (h : s.Serving) : (s.called.map DiskRequest.isDone).Nodup :=
  h.fresh.nodup.sublist (h.called_prefix.sublist.map _)

theorem request_eq (h : s.Serving) {first second : DiskCall B} (hfirst : first ∈ s.performed)
    (hsecond : second ∈ s.performed) (heq : first.request.isDone = second.request.isDone) :
    first.request = second.request :=
  List.inj_on_of_nodup_map h.called_nodup (List.mem_map_of_mem hfirst)
    (List.mem_map_of_mem hsecond) heq

/-- The promise of the request in the worker's hand is not set yet. -/
theorem unset_of_settling (h : s.Serving) (hworker : s.worker = .settling req) :
    s.promises req.isDone = none := by
  cases hset : s.promises req.isDone with
  | none => rfl
  | some outcome =>
      obtain ⟨_, call, hcall, _, hdone, hother⟩ := h.promised _ _ hset
      obtain ⟨last, hlast, rfl⟩ := h.settling _ hworker
      rw [h.request_eq hcall hlast hdone] at hother
      exact absurd hworker hother

/-- The request in the worker's hand comes after the calls made. -/
theorem handling_not_called (h : s.Serving) (hworker : s.worker = .handling req) :
    ∀ call ∈ s.performed, call.request.isDone ≠ req.isDone := by
  have hstarts : s.called ++ [req] <+: s.channel.emplaced := by
    have htaken := h.taken
    simp only [inHand, hworker] at htaken
    rw [h.ordered.fifo, htaken]
    exact List.prefix_append _ _
  have hnodup := h.fresh.nodup.sublist (hstarts.sublist.map _)
  rw [List.map_append, List.map_singleton, List.nodup_append] at hnodup
  intro call hcall
  exact hnodup.2.2 _ (List.mem_map_of_mem (List.mem_map_of_mem hcall)) _ (List.mem_singleton_self _)

/-- Between two calls of the disk manager all promises of the calls made are set. -/
theorem settled_between (h : s.Serving)
    (hworker : s.worker = .getting ∨ ∃ req, s.worker = .handling req) {call : DiskCall B}
    (hcall : call ∈ s.performed) :
    call.succeeded = true ∧ s.promises call.request.isDone = some true := by
  have hsucceeded : call.succeeded = true := by
    cases hfailed : call.succeeded with
    | true => rfl
    | false =>
        have hthrown := h.threw call hcall hfailed
        rcases hworker with hworker | ⟨req, hworker⟩ <;> rw [hworker] at hthrown <;> cases hthrown
  rcases h.settled call hcall hsucceeded with hsettling | hset
  · rcases hworker with hworker | ⟨req, hworker⟩ <;> rw [hworker] at hsettling <;>
      cases hsettling
  · exact ⟨hsucceeded, hset⟩

theorem not_joined (h : s.Serving) (hworker : ∀ req, s.worker ≠ .returned req) :
    s.joined = true → ∃ req, t.worker = .returned req := by
  intro hjoined
  obtain ⟨last, hreturned⟩ := h.joined hjoined
  exact absurd hreturned (hworker last)

end Called

/-- Steps inside the channel move requests without the worker's doing. -/
theorem channel (h : s.Serving) {inside : ChannelEvent κ DiskRequest}
    {c : Channel κ DiskRequest} (hinternal : inside.isInternal = true)
    (hstep : s.channel.Step inside c) : Serving { s with channel := c } where
  ordered := h.ordered.step hstep
  fresh := by
    obtain ⟨_, ⟨hcarried, hemplaced⟩ | ⟨k, req, hk, hcarried, hemplaced⟩, _⟩ :=
      hstep.internal hinternal
    · rw [hcarried, hemplaced]
      exact h.fresh
    · rw [hcarried, hemplaced]
      exact h.fresh.emplace hk
  taken := by
    have htaken := h.taken
    obtain ⟨hgetter, _, ⟨hsame, hhanded⟩ | ⟨req, hbefore, hafter, htake⟩⟩ :=
      hstep.internal hinternal
    · rw [hsame, htaken]
      cases hworker : s.worker <;> simp [called, inHand, hworker, hhanded]
    · -- the consumer takes a request, so the worker is inside `get`
      have hworker : s.worker = .getting := by
        refine h.getting.mp fun hout => ?_
        have hnone : c.handed = none := by
          simp [Channel.handed, hgetter.mpr hout, GetAt.handed]
        rw [hafter] at hnone
        cases hnone
      rw [htake, htaken]
      simp [called, inHand, hworker, hbefore, hafter]
  getting := by
    obtain ⟨hgetter, _⟩ := hstep.internal hinternal
    rw [← h.getting]
    exact not_congr hgetter
  returned := h.returned
  calls := h.calls
  threw := h.threw
  settled := h.settled
  promised := h.promised
  settling := h.settling
  terminated := h.terminated
  joined := h.joined

theorem callPut (h : s.Serving) {k : κ} {c : Channel κ DiskRequest}
    (hfresh : req.isDone ∉ s.issued) (hstep : s.channel.Step (.callPut k req) c)
    (destroyer : Option κ) :
    Serving { s with channel := c, destroyer := destroyer, issued := req.isDone :: s.issued } := by
  obtain ⟨_, hcarried, hemplaced, htaken, hgetter⟩ := hstep.callPut_effect
  have hhanded : c.handed = s.channel.handed := by rw [Channel.handed, hgetter, Channel.handed]
  refine ⟨h.ordered.step hstep, ?_, ?_, ?_, h.returned, h.calls, h.threw, h.settled, h.promised,
    h.settling, h.terminated, h.joined⟩
  · rw [hcarried, hemplaced]
    exact h.fresh.issue hfresh
  · rw [htaken, h.taken]
    cases hworker : s.worker <;> simp [called, inHand, hworker, hhanded]
  · rw [hgetter]
    exact h.getting

theorem receive (h : s.Serving) {c : Channel κ DiskRequest} (hworker : s.worker = .getting)
    (hstep : s.channel.Step (.returnGet req) c) :
    Serving { s with channel := c, worker := .handling req } := by
  obtain ⟨hhanded, hcarried, hemplaced, htaken, hgetter⟩ := hstep.returnGet_effect
  refine ⟨h.ordered.step hstep, ?_, ?_, ?_, nofun, h.calls, ?_, ?_, ?_, nofun, nofun, ?_⟩
  · rw [hcarried, hemplaced]
    exact h.fresh
  · rw [htaken, h.taken]
    simp [called, inHand, hworker, hhanded]
  · simp [hgetter]
  · intro call hcall hfailed
    rw [(h.settled_between (.inl hworker) hcall).1] at hfailed
    cases hfailed
  · intro call hcall _
    exact .inr (h.settled_between (.inl hworker) hcall).2
  · intro p outcome hset
    obtain ⟨houtcome, call, hcall, hsucceeded, hdone, _⟩ := h.promised p outcome hset
    exact ⟨houtcome, call, hcall, hsucceeded, hdone, nofun⟩
  · exact h.not_joined fun other hother => by
      rw [hworker] at hother
      cases hother

omit [DecidableEq κ] in
/-- The worker calls the disk manager, which returns or throws. -/
theorem call (h : s.Serving) (hworker : s.worker = .handling req) (htype : req.type ≠ .shutdown)
    (bytes : B) (succeeded : Bool) (disk : δ) (memory : BufferId → B) :
    Serving { s with
      worker := if succeeded then .settling req else .terminated req
      disk := disk
      memory := memory
      performed := s.performed ++ [⟨req, bytes, succeeded⟩] } := by
  have hnew := h.handling_not_called hworker
  refine ⟨h.ordered, h.fresh, ?_, ?_, ?_, ?_, ?_, ?_, ?_, ?_, ?_, ?_⟩
  · show s.channel.taken = _
    rw [h.taken]
    cases succeeded <;> simp [called, inHand, hworker]
  · show s.channel.getter ≠ .out ↔ _
    rw [h.getting, hworker]
    cases succeeded <;> simp
  · intro other hother
    cases succeeded <;> cases hother
  · intro call hcall
    rcases List.mem_append.mp hcall with hcall | hcall
    · exact h.calls call hcall
    · rw [List.mem_singleton.mp hcall]
      exact htype
  · intro call hcall hfailed
    rcases List.mem_append.mp hcall with hcall | hcall
    · rw [(h.settled_between (.inr ⟨_, hworker⟩) hcall).1] at hfailed
      cases hfailed
    · rw [List.mem_singleton.mp hcall] at hfailed ⊢
      simp only at hfailed
      simp [hfailed]
  · intro call hcall hreturned
    rcases List.mem_append.mp hcall with hcall | hcall
    · exact .inr (h.settled_between (.inr ⟨_, hworker⟩) hcall).2
    · rw [List.mem_singleton.mp hcall] at hreturned ⊢
      simp only at hreturned
      simp [hreturned]
  · intro p outcome hset
    obtain ⟨houtcome, call, hcall, hsucceeded, hdone, _⟩ := h.promised p outcome hset
    refine ⟨houtcome, call, List.mem_append_left _ hcall, hsucceeded, hdone, fun hsettling => ?_⟩
    cases succeeded with
    | false => cases hsettling
    | true =>
        cases hsettling
        exact hnew call hcall rfl
  · intro other hsettling
    cases succeeded with
    | false => cases hsettling
    | true =>
        cases hsettling
        exact ⟨_, List.mem_append_right _ (List.mem_singleton_self _), rfl⟩
  · intro other hterminated
    cases succeeded with
    | true => cases hterminated
    | false =>
        cases hterminated
        exact ⟨_, List.mem_append_right _ (List.mem_singleton_self _), rfl, rfl⟩
  · exact h.not_joined fun other hother => by
      rw [hworker] at hother
      cases hother

theorem settle (h : s.Serving) {c : Channel κ DiskRequest} (hworker : s.worker = .settling req)
    (hstep : s.channel.Step .callGet c) :
    Serving { s with
      channel := c
      worker := .getting
      promises := Function.update s.promises req.isDone (some true) } := by
  obtain ⟨hcarried, hemplaced, htaken, hgetter⟩ := hstep.callGet_effect
  have hsucceeded : ∀ call ∈ s.performed, call.succeeded = true := by
    intro call hcall
    cases hfailed : call.succeeded with
    | true => rfl
    | false =>
        have hthrown := h.threw call hcall hfailed
        rw [hworker] at hthrown
        cases hthrown
  refine ⟨h.ordered.step hstep, ?_, ?_, ?_, ?_, h.calls, ?_, ?_, ?_, ?_, ?_, ?_⟩
  · rw [hcarried, hemplaced]
    exact h.fresh
  · rw [htaken, h.taken]
    simp [called, inHand, hworker, Channel.handed, hgetter, GetAt.handed]
  · simp [hgetter]
  · intro req hreturned
    cases hreturned
  · intro call hcall hfailed
    rw [hsucceeded call hcall] at hfailed
    cases hfailed
  · intro call hcall hreturned
    right
    rcases eq_or_ne call.request.isDone req.isDone with heq | hne
    · show Function.update _ _ _ _ = _
      rw [heq, Function.update_self]
    · show Function.update _ _ _ _ = _
      rw [Function.update_of_ne hne]
      rcases h.settled call hcall hreturned with hsettling | hset
      · rw [hworker] at hsettling
        cases hsettling
        exact absurd rfl hne
      · exact hset
  · intro p outcome hset
    rcases eq_or_ne p req.isDone with rfl | hne
    · obtain ⟨last, hlast, rfl⟩ := h.settling _ hworker
      refine ⟨?_, last, hlast, hsucceeded last hlast, rfl, WorkerAt.noConfusion⟩
      have hsame := (Function.update_self _ _ _).symm.trans hset
      cases hsame
      rfl
    · have hset := (Function.update_of_ne hne _ _).symm.trans hset
      obtain ⟨houtcome, call, hcall, hreturned, hdone, _⟩ := h.promised p outcome hset
      exact ⟨houtcome, call, hcall, hreturned, hdone, WorkerAt.noConfusion⟩
  · intro req hsettling
    cases hsettling
  · intro req hterminated
    cases hterminated
  · exact h.not_joined fun other hother => by
      rw [hworker] at hother
      cases hother

omit [DecidableEq κ] in
theorem stop (h : s.Serving) (hworker : s.worker = .handling req) (htype : req.type = .shutdown) :
    Serving { s with worker := .returned req } := by
  refine ⟨h.ordered, h.fresh, ?_, ?_, ?_, h.calls, ?_, ?_, ?_, nofun, nofun, ?_⟩
  · show s.channel.taken = _
    rw [h.taken]
    simp [called, inHand, hworker]
  · show s.channel.getter ≠ .out ↔ _
    rw [h.getting, hworker]
    simp
  · intro other hother
    cases hother
    exact htype
  · intro call hcall hfailed
    rw [(h.settled_between (.inr ⟨_, hworker⟩) hcall).1] at hfailed
    cases hfailed
  · intro call hcall _
    exact .inr (h.settled_between (.inr ⟨_, hworker⟩) hcall).2
  · intro p outcome hset
    obtain ⟨houtcome, call, hcall, hsucceeded, hdone, _⟩ := h.promised p outcome hset
    exact ⟨houtcome, call, hcall, hsucceeded, hdone, nofun⟩
  · intro hjoined
    exact ⟨req, rfl⟩

variable [ThrowingDiskManagerT δ B]

/-- Every step of a thread keeps the requests where they belong. -/
theorem step (h : s.Serving) (hstep : Step s event t) : t.Serving := by
  obtain ⟨halive, hact⟩ := hstep
  cases hact with
  | channel hinternal hinside => exact h.channel hinternal hinside
  | schedule htype hclient hfresh hput => exact h.callPut hfresh hput _
  | @destroy k isDone c hfirst hfresh hput =>
      have hfresh' : (shutdownRequest isDone).isDone ∉ s.issued := hfresh
      exact h.callPut hfresh' hput (some k)
  | @join k req hdestroyer hput hreturned =>
      exact ⟨h.ordered, h.fresh, h.taken, h.getting, h.returned, h.calls, h.threw, h.settled,
        h.promised, h.settling, h.terminated, fun _ => ⟨req, hreturned⟩⟩
  | fill buffer bytes =>
      exact ⟨h.ordered, h.fresh, h.taken, h.getting, h.returned, h.calls, h.threw, h.settled,
        h.promised, h.settling, h.terminated, h.joined⟩
  | receive hworker hget => exact h.receive hworker hget
  | perform hworker htype hreturns => exact h.call hworker htype _ true _ _
  | throws hworker htype hthrows => exact h.call hworker htype _ false _ _
  | settle hworker hunset hget => exact h.settle hworker hget
  | settleAgain hworker hset =>
      rw [h.unset_of_settling hworker] at hset
      cases hset
  | stop hworker htype => exact h.stop hworker htype

theorem of_run {disk : δ} {memory : BufferId → B} {events : List (SchedulerEvent κ B)}
    (hrun : Run Step (start disk memory) events s) : s.Serving :=
  hrun.invariant (fun _ s => s.Serving) (initial disk memory) fun _ _ _ _ h hstep => h.step hstep

end Serving

/-! ## Every outcome is reported -/

variable [ThrowingDiskManagerT δ B]

/--
The scheduler reports every outcome: the promise of each call made is set to
its outcome, once, by a worker that is there for the requests behind it.
-/
structure Reports (events : List (SchedulerEvent κ B)) (s : DiskScheduler κ δ B) : Prop where
  outcomes : ∀ call ∈ s.performed,
    s.worker = .settling call.request ∨ s.promises call.request.isDone = some call.succeeded
  own : ∀ p outcome, s.promises p = some outcome →
    ∃ call ∈ s.performed, call.request.isDone = p ∧ call.succeeded = outcome
  once : ∀ p, events.countP (·.settles p) = if (s.promises p).isSome then 1 else 0
  serving : ∀ req, s.worker ≠ .terminated req
  /-- A request without an outcome is not stuck before the worker has returned. -/
  onward : ∀ req ∈ s.channel.emplaced, s.promises req.isDone = none →
    (∀ last, s.worker ≠ .returned last) → ∃ event t, event.isOnward = true ∧ Step s event t
  /-- The worker returns behind all requests put before the shutdown. -/
  drained : ∀ last, s.worker = .returned last → last.type = .shutdown ∧
    s.channel.emplaced = s.called ++ last :: s.channel.queue ∧
    ∀ req ∈ s.called, req.type ≠ .shutdown ∧ (s.promises req.isDone).isSome

namespace Serving

variable {s t : DiskScheduler κ δ B} {event : SchedulerEvent κ B} {req : DiskRequest}
variable {events : List (SchedulerEvent κ B)} {disk : δ} {memory : BufferId → B}

omit [DecidableEq κ] [ThrowingDiskManagerT δ B] in
/-- The promise of a call that is over is set, while the process is running. -/
theorem outcome_of_running (h : s.Serving) (hrunning : ∀ req, s.worker ≠ .terminated req)
    {call : DiskCall B} (hcall : call ∈ s.performed) : call.succeeded = true ∧
      (s.worker = .settling call.request ∨ s.promises call.request.isDone = some true) := by
  cases hsucceeded : call.succeeded with
  | true => exact ⟨rfl, h.settled call hcall hsucceeded⟩
  | false => exact absurd (h.threw call hcall hsucceeded) (hrunning _)

/-- The worker, or a producer that keeps it waiting, can always go on. -/
theorem not_stuck (h : s.Serving) (halive : s.Alive) (hstays : ∀ last, s.worker ≠ .returned last)
    (hwork : s.worker = .getting → s.channel.queue ≠ [] ∨ s.channel.handed.isSome) :
    ∃ event t, event.isOnward = true ∧ Step s event t := by
  cases hworker : s.worker with
  | returned last => exact absurd hworker (hstays last)
  | terminated req => exact absurd hworker (halive.running req)
  | settling req =>
      have hout : s.channel.getter = .out := by
        by_contra hin
        rw [h.getting.mp hin] at hworker
        cases hworker
      exact ⟨.settle req.isDone, _, rfl, halive,
        .settle hworker (h.unset_of_settling hworker) (.callGet hout)⟩
  | handling req =>
      by_cases htype : req.type = .shutdown
      · exact ⟨.stop, _, rfl, halive, .stop hworker htype⟩
      · cases hcall : req.operation (s.memory req.data) s.disk with
        | ok bytes disk => exact ⟨.perform, _, rfl, halive, .perform hworker htype hcall⟩
        | error failure disk => exact ⟨.perform, _, rfl, halive, .throws hworker htype hcall⟩
  | getting =>
      have hbeside : s.channel.queue ≠ [] ∨ ∃ req, s.channel.getter = .unlocking req := by
        refine (hwork hworker).imp id fun hhanded => ?_
        cases hgetter : s.channel.getter with
        | unlocking req => exact ⟨req, rfl⟩
        | out | locking | testing | waiting =>
            simp [Channel.handed, GetAt.handed, hgetter] at hhanded
      rcases h.ordered.not_stuck (h.getting.mpr hworker) hbeside with
        ⟨req, htaken⟩ | ⟨inside, c, hinternal, hwake, hinside⟩
      · exact ⟨.receive, _, rfl, halive, .receive hworker (.returnGet htaken)⟩
      · refine ⟨.channel inside, _, ?_, halive, .channel hinternal hinside⟩
        cases inside <;> simp_all [SchedulerEvent.isOnward]

/-- Only the worker sets promises, each of them once. -/
theorem settles_once (hrun : Run Step (start disk memory) events s)
    (hrunning : ∀ req, s.worker ≠ .terminated req) (p : PromiseId) :
    events.countP (·.settles p) = if (s.promises p).isSome then 1 else 0 := by
  induction hrun with
  | nil => rfl
  | @snoc events s t event before last ih =>
      have hserving := of_run before
      obtain ⟨halive, hact⟩ := last
      have hbefore := ih halive.running
      rw [List.countP_append, hbefore]
      cases hact with
      | settleAgain hworker => exact absurd rfl (hrunning _)
      | @settle req c hworker hunset =>
          rcases eq_or_ne p req.isDone with rfl | hne
          · simp [SchedulerEvent.settles, hunset]
          · simp [SchedulerEvent.settles, Function.update_of_ne hne, hne.symm]
      | _ => simp [SchedulerEvent.settles]

/-- While the process is running, all outcomes are reported. -/
theorem reports (hrun : Run Step (start disk memory) events s)
    (hrunning : ∀ req, s.worker ≠ .terminated req) : Reports events s := by
  have h := of_run hrun
  refine ⟨fun call hcall => ?_, fun p outcome hset => ?_, settles_once hrun hrunning, hrunning,
    fun req hreq hunset hstays => ?_, fun last hreturned => ⟨h.returned _ hreturned, ?_, ?_⟩⟩
  · obtain ⟨hsucceeded, hset⟩ := h.outcome_of_running hrunning hcall
    rw [hsucceeded]
    exact hset
  · obtain ⟨rfl, call, hcall, hsucceeded, hdone, _⟩ := h.promised p outcome hset
    exact ⟨call, hcall, hdone, hsucceeded⟩
  · have hstanding : s.joined = false := by
      cases hjoined : s.joined with
      | false => rfl
      | true =>
          obtain ⟨last, hreturned⟩ := h.joined hjoined
          exact absurd hreturned (hstays last)
    refine h.not_stuck ⟨hrunning, hstanding⟩ hstays fun hworker => ?_
    -- the request is neither called nor settled, so it is in the queue or on its way out of it
    rw [h.ordered.fifo, h.taken, List.append_assoc, List.mem_append, List.mem_append] at hreq
    rcases hreq with hcalled | hhanded | hqueued
    · obtain ⟨call, hcall, rfl⟩ := List.mem_map.mp hcalled
      rw [(h.settled_between (.inl hworker) hcall).2] at hunset
      cases hunset
    · right
      simp only [inHand, hworker, Option.mem_toList] at hhanded
      rw [Option.isSome_iff_exists]
      exact ⟨req, hhanded⟩
    · exact .inl (List.ne_nil_of_mem hqueued)
  · rw [h.ordered.fifo, h.taken, List.append_assoc]
    simp [inHand, hreturned]
  · intro req hreq
    obtain ⟨call, hcall, rfl⟩ := List.mem_map.mp hreq
    refine ⟨h.calls call hcall, ?_⟩
    rcases (h.outcome_of_running hrunning hcall).2 with hsettling | hset
    · rw [hreturned] at hsettling
      cases hsettling
    · rw [hset]
      rfl

end Serving

/-- The step of a running process in which no call throws leaves it running. -/
theorem StepReturns.running {s t : DiskScheduler κ δ B} {event : SchedulerEvent κ B}
    (hserving : s.Serving) (hstep : StepReturns s event t) :
    ∀ req, t.worker ≠ .terminated req := by
  obtain ⟨⟨halive, hact⟩, hreturns⟩ := hstep
  cases hact with
  | settleAgain hworker hset =>
      rw [hserving.unset_of_settling hworker] at hset
      cases hset
  | throws hworker htype hthrows =>
      obtain ⟨bytes, disk, hok⟩ := hreturns rfl _ hworker
      rw [hthrows] at hok
      cases hok
  | perform | settle | stop | receive => exact nofun
  | channel | schedule | destroy | join | fill => exact halive.running

/-- A step that leaves the process running is one in which no call throws. -/
theorem Step.returns {s t : DiskScheduler κ δ B} {event : SchedulerEvent κ B}
    (hstep : Step s event t) (hrunning : ∀ req, t.worker ≠ .terminated req) :
    StepReturns s event t := by
  refine ⟨hstep, ?_⟩
  rintro rfl req hworker
  obtain ⟨halive, hact⟩ := hstep
  cases hact with
  | throws => exact absurd rfl (hrunning _)
  | @perform req' bytes disk hworker' htype hreturns =>
      rw [hworker] at hworker'
      cases hworker'
      exact ⟨bytes, disk, hreturns⟩

/--
In every run the scheduler reports every outcome exactly when no call of the
disk manager in it throws.
-/
theorem reports_iff_calls_return {disk : δ} {memory : BufferId → B}
    {events : List (SchedulerEvent κ B)} {s : DiskScheduler κ δ B}
    (hrun : Run Step (start disk memory) events s) :
    Reports events s ↔ Run StepReturns (start disk memory) events s := by
  constructor
  · intro hreports
    have hrunning := hreports.serving
    clear hreports
    induction hrun with
    | nil => exact .nil
    | snoc before last ih => exact (ih last.1.running).snoc (last.returns hrunning)
  · intro hreturning
    refine Serving.reports hrun ?_
    cases hreturning with
    | nil => exact nofun
    | snoc before last => exact last.running (Serving.of_run (before.mono fun _ _ _ h => h.1))

/-! ## A request on its way through an idle scheduler -/

/-- The steps by which a request goes from its client to the worker. -/
def delivery (k : κ) : List (SchedulerEvent κ B) :=
  [.channel (.lockPut k), .channel (.emplace k), .channel (.unlockPut k), .channel (.notify k),
    .channel .lockGet, .channel .pop, .receive]

/-- The state in which the request has been delivered. -/
def delivered (s : DiskScheduler κ δ B) (k : κ) (req : DiskRequest) : DiskScheduler κ δ B :=
  { s with
    channel := { s.channel.setPutter k .out with
      getter := .out
      emplaced := s.channel.emplaced ++ [req]
      taken := s.channel.taken ++ [req] }
    worker := .handling req }

/-- While the worker asks for a request every act is a step, and no disk operation throws. -/
theorem StepReturns.of_getting {s t : DiskScheduler κ δ B} {event : SchedulerEvent κ B}
    (hworker : s.worker = .getting) (hstanding : s.joined = false) (hact : Act s event t) :
    StepReturns s event t := by
  refine ⟨⟨⟨?_, hstanding⟩, hact⟩, ?_⟩
  · intro req hterminated
    rw [hworker] at hterminated
    cases hterminated
  · intro _ req hhandling
    rw [hworker] at hhandling
    cases hhandling

theorem run_delivery {s : DiskScheduler κ δ B} {k : κ} {req : DiskRequest} (halive : s.Alive)
    (hput : s.channel.putters k = .locking req) (hlatch : s.channel.latch = none)
    (hqueue : s.channel.queue = []) (hgetter : s.channel.getter = .locking)
    (hworker : s.worker = .getting) : Run StepReturns s (delivery k) (s.delivered k req) := by
  obtain ⟨⟨latch, queue, putters, getter, emplaced, taken⟩, worker, disk, memory, promises,
    destroyer, joined, performed, issued⟩ := s
  simp only at hput hlatch hqueue hgetter hworker
  subst hlatch hqueue hgetter hworker
  have standing : joined = false := halive.standing
  refine .cons (.of_getting rfl standing (.channel rfl (.lockPut hput rfl))) ?_
  refine .cons (.of_getting rfl standing
    (.channel rfl (.emplace (k := k) (?_ : _ = PutAt.emplacing req)))) ?_
  · simp [Channel.setPutter]
  refine .cons (.of_getting rfl standing (.channel rfl (.unlockPut ?_))) ?_
  · simp [Channel.setPutter]
  refine .cons (.of_getting rfl standing (.channel rfl (.notify ?_))) ?_
  · simp [Channel.setPutter]
  refine .cons (.of_getting rfl standing (.channel rfl (.lockGet rfl rfl))) ?_
  refine .cons (.of_getting rfl standing (.channel rfl (.pop rfl rfl))) ?_
  refine .cons (.of_getting rfl standing (.receive rfl (.returnGet rfl))) ?_
  simp only [delivered, Channel.setPutter, Function.update_idem]
  exact .nil

/-- The state in which the client has called `put`. -/
def handedIn (s : DiskScheduler κ δ B) (k : κ) (req : DiskRequest) : DiskScheduler κ δ B :=
  { s with
    channel := s.channel.setPutter k (.locking req)
    issued := req.isDone :: s.issued }

/-- No request is on its way and the worker asks for one. -/
structure Idle (s : DiskScheduler κ δ B) : Prop where
  standing : s.joined = false
  latch : s.channel.latch = none
  queue : s.channel.queue = []
  putters : ∀ k, s.channel.putters k = .out
  getter : s.channel.getter = .locking
  worker : s.worker = .getting

omit [DecidableEq κ] [ThrowingDiskManagerT δ B] in
theorem Idle.initial (disk : δ) (memory : BufferId → B) :
    Idle (start disk memory : DiskScheduler κ δ B) :=
  ⟨rfl, rfl, rfl, fun _ => rfl, rfl, rfl⟩

omit [DecidableEq κ] [ThrowingDiskManagerT δ B] in
theorem Idle.alive {s : DiskScheduler κ δ B} (h : s.Idle) : s.Alive where
  running req hterminated := by
    rw [h.worker] at hterminated
    cases hterminated
  standing := h.standing

/-- An idle scheduler takes a client's request to the worker. -/
theorem Idle.run_schedule {s : DiskScheduler κ δ B} (h : s.Idle) (k : κ) (req : DiskRequest)
    (htype : req.type ≠ .shutdown) (hclient : s.destroyer ≠ some k)
    (hfresh : req.isDone ∉ s.issued) :
    Run StepReturns s (.schedule k req :: delivery k) ((s.handedIn k req).delivered k req) := by
  refine .cons (.of_getting h.worker h.standing
    (.schedule htype hclient hfresh (.callPut (h.putters k)))) ?_
  refine run_delivery ⟨h.alive.running, h.standing⟩ ?_ h.latch h.queue h.getter h.worker
  simp [Channel.setPutter]

/-- A scheduler over a new file, for two clients. -/
def blankScheduler : DiskScheduler Bool DiskManager PageBuffer :=
  start (.new none) fun _ _ => 0

/-- A page written on a new file is reported. -/
theorem first_write_reported :
    ∃ events s, s.promises 0 = some true ∧ Run StepReturns blankScheduler events s ∧
      Reports events s := by
  have hserved := (((Idle.initial _ _ : blankScheduler.Idle).run_schedule false
    ⟨.write, 0, 0, 0⟩ nofun nofun List.not_mem_nil).snoc
    ⟨⟨⟨nofun, rfl⟩, .perform rfl nofun rfl⟩, fun _ _ h => ⟨_, _, by cases h; rfl⟩⟩).snoc
    ⟨⟨⟨nofun, rfl⟩, .settle rfl rfl (.callGet rfl)⟩, nofun⟩
  exact ⟨_, _, rfl, hserved,
    (reports_iff_calls_return (hserved.mono fun _ _ _ h => h.1)).mpr hserved⟩

/-- A page that no disk has. -/
def invalidRead : DiskRequest := ⟨.read, 0, invalidPageId, 0⟩

/--
A client reads an invalid page and another one writes a page behind it: the
process ends, neither promise is ever set.
-/
theorem failed_read_unreported :
    ∃ events s, Run Step blankScheduler events s ∧ ¬ Reports events s ∧
      s.called = [invalidRead] ∧ s.channel.queue = [⟨.write, 1, 0, 1⟩] ∧
      s.promises 0 = none ∧ s.promises 1 = none ∧ ∀ event t, ¬ Step s event t := by
  have hdelivered := ((Idle.initial _ _ : blankScheduler.Idle).run_schedule false
    invalidRead nofun nofun List.not_mem_nil).mono fun _ _ _ h => h.1
  have hbehind := ((hdelivered.snoc
    (show Step _ (.schedule true ⟨.write, 1, 0, 1⟩) _ from
      ⟨⟨nofun, rfl⟩, .schedule nofun nofun (by decide) (.callPut rfl)⟩)).snoc
    ⟨⟨nofun, rfl⟩, .channel rfl (.lockPut (k := true) rfl rfl)⟩).snoc
    ⟨⟨nofun, rfl⟩, .channel rfl (.emplace (k := true) rfl)⟩
  have hthrown := hbehind.snoc
    ⟨⟨nofun, rfl⟩, .throws (show worker _ = .handling invalidRead from rfl) nofun rfl⟩
  refine ⟨_, _, hthrown, fun hreports => hreports.serving _ rfl, rfl, rfl, rfl, rfl, ?_⟩
  intro event t hstep
  exact hstep.1.running _ rfl

end DiskScheduler

end HiveDb
