import HiveDb.Disk.Waiting
import Mathlib.Algebra.BigOperators.Group.Finset.Basic

/-!
# Every wait ends

Each step of a thread inside the scheduler, other than a spurious wake-up, brings
a request nearer to its end.  A weight counts how far the requests have to go, so
without new requests the threads come to rest; where they do, no promise is open
that the worker could set.
-/

namespace HiveDb

open HiveDb.Lib

/-! ## The weight of a state -/

section Weights

variable {α : Type}

/-- A request goes from a producer through the queue to the worker and loses weight on its way. -/
def PutAt.weight : PutAt α → Nat
  | .out => 0
  | .notifying => 3
  | .unlocking => 4
  | .emplacing _ => 11
  | .locking _ => 12

def GetAt.weight : GetAt α → Nat
  | .out | .waiting => 0
  | .testing => 1
  | .locking => 2
  | .unlocking _ => 6

/-- Waking the consumer weighs less than the call to `notify_all`. -/
theorem GetAt.weight_awakened (position : GetAt α) :
    position.awakened.weight ≤ position.weight + 2 := by
  cases position <;> simp [awakened, weight]

end Weights

def WorkerAt.weight : WorkerAt → Nat
  | .handling _ => 5
  | .settling _ => 3
  | .getting | .returned _ | .terminated _ => 0

variable {κ δ B : Type} [DecidableEq κ]

namespace Channel

variable {α : Type} {S : Finset κ} {c c' : Channel κ α} {k : κ} {event : ChannelEvent κ α}

/-- The producers outside the set are not inside `put`. -/
def Within (S : Finset κ) (c : Channel κ α) : Prop := ∀ k ∉ S, c.putters k = .out

def weight (S : Finset κ) (c : Channel κ α) : Nat :=
  ∑ k ∈ S, (c.putters k).weight + c.getter.weight + 6 * c.queue.length

theorem Within.mem (h : c.Within S) (hk : c.putters k ≠ .out) : k ∈ S := by
  by_contra hnot
  exact hk (h k hnot)

theorem Within.setPutter (h : c.Within S) (hk : k ∈ S) (position : PutAt α) :
    (c.setPutter k position).Within S := by
  intro j hj
  have hne : j ≠ k := by
    rintro rfl
    exact hj hk
  exact (Function.update_of_ne hne _ _).trans (h j hj)

/-- The weights of the producers when one of them moves. -/
theorem sum_setPutter (hk : k ∈ S) (position : PutAt α) :
    ∑ j ∈ S, ((c.setPutter k position).putters j).weight + (c.putters k).weight =
      ∑ j ∈ S, (c.putters j).weight + position.weight := by
  have hself : (c.setPutter k position).putters k = position := Function.update_self _ _ _
  have hothers : ∑ j ∈ S.erase k, ((c.setPutter k position).putters j).weight =
      ∑ j ∈ S.erase k, (c.putters j).weight :=
    Finset.sum_congr rfl fun j hj =>
      congrArg PutAt.weight (Function.update_of_ne (Finset.ne_of_mem_erase hj) _ _)
  rw [← Finset.add_sum_erase S _ hk, ← Finset.add_sum_erase S (fun j => (c.putters j).weight) hk,
    hself, hothers]
  omega

/-- A producer that moves may pass weight on to the queue or to the consumer, if it loses more. -/
theorem weight_lt_of_move (hwithin : c.Within S) {position : PutAt α}
    (hputters : c'.putters = (c.setPutter k position).putters) (hinside : c.putters k ≠ .out)
    (hlt : position.weight + c'.getter.weight + 6 * c'.queue.length <
      (c.putters k).weight + c.getter.weight + 6 * c.queue.length) :
    c'.Within S ∧ c'.weight S < c.weight S := by
  have hk := hwithin.mem hinside
  have hsum := sum_setPutter (c := c) hk position
  refine ⟨fun j hj => ?_, ?_⟩
  · rw [hputters]
    exact hwithin.setPutter hk position j hj
  · rw [weight, weight, hputters]
    omega

/-- Every internal step but a spurious wake-up decreases the weight. -/
theorem Step.weight_lt (hstep : Step c event c') (hinternal : event.isInternal = true)
    (hwake : event ≠ .wake) (hwithin : c.Within S) :
    c'.Within S ∧ c'.weight S < c.weight S := by
  cases hstep with
  | callPut | callGet | returnGet => cases hinternal
  | wake => exact absurd rfl hwake
  | lockPut hat =>
      refine weight_lt_of_move hwithin rfl (by simp [hat]) ?_
      simp [hat, setPutter, PutAt.weight]
  | emplace hat =>
      refine weight_lt_of_move hwithin rfl (by simp [hat]) ?_
      simp only [hat, setPutter, PutAt.weight, List.length_append, List.length_singleton]
      omega
  | unlockPut hat =>
      refine weight_lt_of_move hwithin rfl (by simp [hat]) ?_
      simp [hat, setPutter, PutAt.weight]
  | notify hat =>
      have hawakened := c.getter.weight_awakened
      refine weight_lt_of_move hwithin rfl (by simp [hat]) ?_
      simp only [hat, setPutter, PutAt.weight]
      omega
  | lockGet hat | wait hat => exact ⟨hwithin, by simp [weight, hat, GetAt.weight]⟩
  | pop hat hfront =>
      refine ⟨hwithin, ?_⟩
      simp only [weight, hat, hfront, GetAt.weight, List.length_cons]
      omega

end Channel

namespace DiskScheduler

variable [ThrowingDiskManagerT δ B]
variable {s t : DiskScheduler κ δ B} {event : SchedulerEvent κ B} {S : Finset κ}

/-- A step of a thread inside the scheduler, other than a spurious wake-up. -/
def OnwardStep (s : DiskScheduler κ δ B) (event : SchedulerEvent κ B)
    (t : DiskScheduler κ δ B) : Prop :=
  Step s event t ∧ event.isOnward = true

def weight (S : Finset κ) (s : DiskScheduler κ δ B) : Nat :=
  s.channel.weight S + s.worker.weight

/-- Every onward step decreases the weight. -/
theorem OnwardStep.weight_lt (hstep : OnwardStep s event t) (hwithin : s.channel.Within S) :
    t.channel.Within S ∧ t.weight S < s.weight S := by
  obtain ⟨⟨_, hact⟩, honward⟩ := hstep
  cases hact with
  | schedule | destroy | join | fill => cases honward
  | @channel inside c hinternal hinside =>
      have hwake : inside ≠ .wake := by
        rintro rfl
        cases honward
      obtain ⟨hwithin', hlt⟩ := hinside.weight_lt hinternal hwake hwithin
      exact ⟨hwithin', Nat.add_lt_add_right hlt _⟩
  | @receive req c hworker hget =>
      cases hget with
      | returnGet hat =>
          refine ⟨hwithin, ?_⟩
          simp [weight, Channel.weight, hat, hworker, GetAt.weight, WorkerAt.weight]
          omega
  | perform hworker | throws hworker | settleAgain hworker | stop hworker =>
      exact ⟨hwithin, by simp [weight, hworker, WorkerAt.weight]⟩
  | settle hworker _ hget =>
      cases hget with
      | callGet hat =>
          refine ⟨hwithin, ?_⟩
          simp [weight, Channel.weight, hat, hworker, GetAt.weight, WorkerAt.weight]
          omega

/-- In every state reached, finitely many producers are inside `put`. -/
theorem exists_within {disk : δ} {memory : BufferId → B} {events : List (SchedulerEvent κ B)}
    (hrun : Run Step (start disk memory) events s) : ∃ S : Finset κ, s.channel.Within S := by
  refine hrun.invariant (fun _ s => ∃ S : Finset κ, s.channel.Within S)
    ⟨∅, fun _ _ => rfl⟩ ?_
  rintro _ s event t ⟨S, hwithin⟩ ⟨halive, hact⟩
  by_cases honward : event.isOnward = true
  · exact ⟨S, (OnwardStep.weight_lt ⟨⟨halive, hact⟩, honward⟩ hwithin).1⟩
  have hput : ∀ {k req c}, s.channel.Step (.callPut k req) c →
      ∃ S : Finset κ, c.Within S := by
    intro k req c hstep
    cases hstep
    refine ⟨insert k S, Channel.Within.setPutter (fun j hj => hwithin j fun hmem => ?_)
      (Finset.mem_insert_self k S) _⟩
    exact hj (Finset.mem_insert_of_mem hmem)
  cases hact with
  | schedule _ _ _ hstep => exact hput hstep
  | destroy _ _ hstep => exact hput hstep
  | @channel inside c hinternal hinside =>
      cases hinside with
      | wake => exact ⟨S, hwithin⟩
      | _ => exact absurd rfl honward
  | join | fill => exact ⟨S, hwithin⟩
  | _ => exact absurd rfl honward

/-! ## Where the threads come to rest -/

/-- What is left when no thread inside the scheduler can go on. -/
inductive AtRest (s : DiskScheduler κ δ B) : Prop where
  | settled (settled : s.Settled)
  /-- The worker has served all requests before the shutdown. -/
  | returned {last : DiskRequest} (worker : s.worker = .returned last)
      (emplaced_eq : s.channel.emplaced = s.called ++ last :: s.channel.queue)
      (set : ∀ req ∈ s.called, (s.promises req.isDone).isSome)
  | terminated {req : DiskRequest} (worker : s.worker = .terminated req)

/--
Whatever the threads do behind a state reached, they come to rest if there is no
new request and no spurious wake-up.  By then every promise is set that belongs to
a request before the shutdown, unless an exception has ended the process.
-/
theorem every_wait_ends {disk : δ} {memory : BufferId → B} {events : List (SchedulerEvent κ B)}
    (hrun : Run Step (start disk memory) events s) :
    ∃ bound, ∀ more t, Run OnwardStep s more t → more.length ≤ bound ∧
      ((∀ event u, ¬ OnwardStep t event u) → t.AtRest) := by
  obtain ⟨S, hwithin⟩ := exists_within hrun
  refine ⟨s.weight S, fun more t hmore => ⟨?_, fun hrest => ?_⟩⟩
  · have hlength := hmore.length_add_le (weight S) (fun s => s.channel.Within S) hwithin
      fun _ _ _ hwithin hstep => hstep.weight_lt hwithin
    exact (Nat.le_add_right _ _).trans hlength
  · have hreached := hrun.append (hmore.mono fun _ _ _ h => h.1)
    by_cases hrunning : ∀ req, t.worker ≠ .terminated req
    · by_cases hstays : ∀ last, t.worker ≠ .returned last
      · refine .settled ?_
        by_contra hunsettled
        obtain ⟨event, u, honward, hstep⟩ :=
          onward_of_worker hreached hrunning hstays hunsettled
        exact hrest event u ⟨hstep, honward⟩
      · obtain ⟨last, hworker⟩ := not_forall_not.mp hstays
        obtain ⟨_, hemplaced, hset⟩ := (Serving.reports hreached hrunning).drained last hworker
        exact .returned hworker hemplaced fun req hreq => (hset req hreq).2
    · obtain ⟨req, hworker⟩ := not_forall_not.mp hrunning
      exact .terminated hworker

/-- A scheduler over a disk of zeros, for two clients. -/
def zeroScheduler : DiskScheduler Bool (IdealDisk Nat) Nat := start ⟨fun _ => 0⟩ fun _ => 0

/-- Both clients hand a request in before the worker has looked for one. -/
theorem two_requests_come_to_rest :
    ∃ s, Run Step zeroScheduler
        [.schedule false ⟨.write, 0, 3, 0⟩, .schedule true ⟨.read, 1, 3, 1⟩] s ∧
      s.issued = [1, 0] ∧
        ∃ bound, ∀ more t, Run OnwardStep s more t → more.length ≤ bound ∧
          ((∀ event u, ¬ OnwardStep t event u) → t.AtRest) := by
  have hidle : zeroScheduler.Idle := .initial _ _
  have hfirst := Run.nil.snoc (show Step zeroScheduler (.schedule false ⟨.write, 0, 3, 0⟩) _ from
    ⟨hidle.alive, .schedule (by simp) (by simp [zeroScheduler, start]) List.not_mem_nil
      (.callPut rfl)⟩)
  have hsecond := hfirst.snoc (show Step _ (.schedule true ⟨.read, 1, 3, 1⟩) _ from
    ⟨⟨hidle.alive.running, rfl⟩, .schedule (by simp) (by simp [zeroScheduler, start])
      (by simp [zeroScheduler, start]) (.callPut rfl)⟩)
  exact ⟨_, hsecond, rfl, every_wait_ends hsecond⟩

end DiskScheduler

end HiveDb
