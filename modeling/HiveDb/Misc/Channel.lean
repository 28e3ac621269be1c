import Mathlib.Tactic.Common
import Mathlib.Data.List.Basic
import Mathlib.Logic.Function.Basic

/-!
# The channel

A queue behind a mutex and a condition variable, with any number of producers
and one consumer.  A call is not one step: the threads interleave between
taking the mutex, changing the queue, giving the mutex back and waking the
consumer, and the consumer may wake without being woken.
-/

namespace HiveDb

/-- Where a producer stands in `put`. -/
inductive PutAt (α : Type) where
  | out
  | locking (req : α)
  | emplacing (req : α)
  | unlocking
  | notifying

/-- Where the consumer stands in `get`; `waiting` is inside `m_cv.wait`, without the mutex. -/
inductive GetAt (α : Type) where
  | out
  | locking
  | testing
  | waiting
  | unlocking (req : α)

/-! ## Positions in a call -/

section Positions

variable {α : Type}

/-- The producer is between taking the mutex and giving it back. -/
def PutAt.isInside : PutAt α → Prop
  | .emplacing _ | .unlocking => True
  | _ => False

/-- The consumer is between taking the mutex and giving it back. -/
def GetAt.isInside : GetAt α → Prop
  | .testing | .unlocking _ => True
  | _ => False

/-- The request that a producer has not emplaced yet. -/
def PutAt.carried : PutAt α → Option α
  | .locking req | .emplacing req => some req
  | _ => none

/-- The request that the consumer has taken but not returned yet. -/
def GetAt.handed : GetAt α → Option α
  | .unlocking req => some req
  | _ => none

/-- `notify_all`: a waiting consumer goes on to take the mutex again. -/
def GetAt.awakened : GetAt α → GetAt α
  | .waiting => .locking
  | position => position

end Positions

/-- The threads that use a channel. -/
inductive Party (κ : Type) where
  | producer (k : κ)
  | consumer

/-- `emplaced` and `taken` are the history of `queue`, oldest first. -/
structure Channel (κ α : Type) where
  latch : Option (Party κ) := none
  queue : List α := []
  putters : κ → PutAt α := fun _ => .out
  getter : GetAt α := .out
  emplaced : List α := []
  taken : List α := []

inductive ChannelEvent (κ α : Type) where
  | callPut (k : κ) (req : α)
  | lockPut (k : κ)
  | emplace (k : κ)
  | unlockPut (k : κ)
  | notify (k : κ)
  | callGet
  | lockGet
  | wait
  | wake
  | pop
  | returnGet (req : α)

/-- Whether an event happens inside a call, neither starting it nor handing a value over. -/
def ChannelEvent.isInternal {κ α : Type} : ChannelEvent κ α → Bool
  | .callPut .. | .callGet | .returnGet _ => false
  | _ => true

variable {κ α : Type} [DecidableEq κ]

namespace Channel

def setPutter (c : Channel κ α) (k : κ) (position : PutAt α) : Channel κ α :=
  { c with putters := Function.update c.putters k position }

inductive Step : Channel κ α → ChannelEvent κ α → Channel κ α → Prop where
  | callPut {c : Channel κ α} {k : κ} {req : α} (hat : c.putters k = .out) :
      Step c (.callPut k req) (c.setPutter k (.locking req))
  | lockPut {c : Channel κ α} {k : κ} {req : α} (hat : c.putters k = .locking req)
      (hfree : c.latch = none) :
      Step c (.lockPut k)
        { c.setPutter k (.emplacing req) with latch := some (.producer k) }
  | emplace {c : Channel κ α} {k : κ} {req : α} (hat : c.putters k = .emplacing req) :
      Step c (.emplace k)
        { c.setPutter k .unlocking with
          queue := c.queue ++ [req], emplaced := c.emplaced ++ [req] }
  | unlockPut {c : Channel κ α} {k : κ} (hat : c.putters k = .unlocking) :
      Step c (.unlockPut k) { c.setPutter k .notifying with latch := none }
  | notify {c : Channel κ α} {k : κ} (hat : c.putters k = .notifying) :
      Step c (.notify k) { c.setPutter k .out with getter := c.getter.awakened }
  | callGet {c : Channel κ α} (hat : c.getter = .out) :
      Step c .callGet { c with getter := .locking }
  | lockGet {c : Channel κ α} (hat : c.getter = .locking) (hfree : c.latch = none) :
      Step c .lockGet { c with getter := .testing, latch := some .consumer }
  | wait {c : Channel κ α} (hat : c.getter = .testing) (hempty : c.queue = []) :
      Step c .wait { c with getter := .waiting, latch := none }
  -- a spurious wake-up
  | wake {c : Channel κ α} (hat : c.getter = .waiting) :
      Step c .wake { c with getter := .locking }
  | pop {c : Channel κ α} {req : α} {rest : List α} (hat : c.getter = .testing)
      (hfront : c.queue = req :: rest) :
      Step c .pop { c with getter := .unlocking req, queue := rest, taken := c.taken ++ [req] }
  | returnGet {c : Channel κ α} {req : α} (hat : c.getter = .unlocking req) :
      Step c (.returnGet req) { c with getter := .out, latch := none }

/-! ## What holds whenever the threads are observed -/

structure Ordered (c : Channel κ α) : Prop where
  /-- The queue is first in, first out. -/
  fifo : c.emplaced = c.taken ++ c.queue
  producer : ∀ k, (c.putters k).isInside ↔ c.latch = some (.producer k)
  consumer : c.getter.isInside ↔ c.latch = some .consumer
  /-- No wake-up is lost: a consumer that waits beside a request is about to be woken. -/
  woken : c.getter = .waiting → c.queue ≠ [] →
    ∃ k, c.putters k = .unlocking ∨ c.putters k = .notifying

namespace Ordered

omit [DecidableEq κ] in
theorem initial : Ordered ({} : Channel κ α) where
  fifo := rfl
  producer k := by simp [PutAt.isInside]
  consumer := by simp [GetAt.isInside]
  woken := nofun

omit [DecidableEq κ] in
/-- Two threads are never inside together. -/
theorem exclusive {c : Channel κ α} (h : c.Ordered) {j k : κ}
    (hj : (c.putters j).isInside) (hk : (c.putters k).isInside) : j = k := by
  have hlatch := (h.producer j).mp hj
  rw [(h.producer k).mp hk] at hlatch
  cases hlatch
  rfl

omit [DecidableEq κ] in
theorem exclusive_consumer {c : Channel κ α} (h : c.Ordered) {k : κ}
    (hk : (c.putters k).isInside) : ¬ c.getter.isInside := by
  intro hinside
  have hlatch := (h.consumer).mp hinside
  rw [(h.producer k).mp hk] at hlatch
  cases hlatch

/-- The producers, when one of them moves and the mutex changes hands with it. -/
theorem producer_of_move {c : Channel κ α} {k : κ} {position : PutAt α}
    {latch : Option (Party κ)} (hmoved : position.isInside ↔ latch = some (.producer k))
    (hrest : ∀ j, j ≠ k →
      ((c.putters j).isInside ↔ latch = some (.producer j))) (j : κ) :
    ((c.setPutter k position).putters j).isInside ↔ latch = some (.producer j) := by
  by_cases heq : j = k
  · subst heq
    simpa [setPutter] using hmoved
  · simpa [setPutter, heq] using hrest j heq

/-- A producer about to wake the consumer is still about to, when another one moves. -/
theorem woken_of_move {c : Channel κ α} {k : κ} {position : PutAt α}
    (hbefore : ∃ j, c.putters j = .unlocking ∨ c.putters j = .notifying)
    (hat : c.putters k ≠ .unlocking) (hat' : c.putters k ≠ .notifying) :
    ∃ j, (c.setPutter k position).putters j = .unlocking ∨
      (c.setPutter k position).putters j = .notifying := by
  obtain ⟨j, hj⟩ := hbefore
  have hne : j ≠ k := by
    rintro rfl
    exact hj.elim hat hat'
  refine ⟨j, ?_⟩
  simpa [setPutter, hne] using hj

theorem step {c c' : Channel κ α} {event : ChannelEvent κ α} (h : c.Ordered)
    (hstep : Step c event c') : c'.Ordered := by
  cases hstep with
  | @callPut k req hat =>
      refine ⟨h.fifo, ?_, h.consumer, fun hwait hqueue => ?_⟩
      · have houtside := h.producer k
        rw [hat] at houtside
        exact producer_of_move houtside fun j _ => h.producer j
      · exact woken_of_move (h.woken hwait hqueue) (by simp [hat]) (by simp [hat])
  | @lockPut k req hat hfree =>
      refine ⟨h.fifo, ?_, ?_, fun hwait hqueue => ?_⟩
      · refine producer_of_move (by simp [PutAt.isInside]) fun j hne => ?_
        have hnone := h.producer j
        rw [hfree] at hnone
        simpa [hne.symm] using hnone
      · have hnone := h.consumer
        rw [hfree] at hnone
        simpa [setPutter] using hnone
      · exact woken_of_move (h.woken hwait hqueue) (by simp [hat]) (by simp [hat])
  | @emplace k req hat =>
      refine ⟨?_, ?_, h.consumer, fun _ _ => ⟨k, .inl ?_⟩⟩
      · show c.emplaced ++ [req] = c.taken ++ (c.queue ++ [req])
        rw [h.fifo, List.append_assoc]
      · have hinside := h.producer k
        rw [hat] at hinside
        exact producer_of_move (by simpa [PutAt.isInside, setPutter] using hinside) fun j _ =>
          h.producer j
      · simp [setPutter]
  | @unlockPut k hat =>
      have hholds : c.latch = some (.producer k) := by
        refine (h.producer k).mp ?_
        rw [hat]
        trivial
      refine ⟨h.fifo, ?_, ?_, fun _ _ => ⟨k, .inr ?_⟩⟩
      · refine producer_of_move (by simp [PutAt.isInside]) fun j hne => ?_
        have hother := h.producer j
        rw [hholds] at hother
        simpa [hne.symm] using hother
      · have hother := h.consumer
        rw [hholds] at hother
        simpa [setPutter] using hother
      · simp [setPutter]
  | @notify k hat =>
      refine ⟨h.fifo, ?_, ?_, fun hwait => ?_⟩
      · have houtside := h.producer k
        rw [hat] at houtside
        exact producer_of_move houtside fun j _ => h.producer j
      · have hgetter := h.consumer
        cases hg : c.getter <;> simp_all [GetAt.awakened, GetAt.isInside, setPutter]
      · exfalso
        cases hg : c.getter <;> simp_all [GetAt.awakened]
  | callGet hat =>
      refine ⟨h.fifo, h.producer, ?_, nofun⟩
      have houtside := h.consumer
      rw [hat] at houtside
      simpa [GetAt.isInside] using houtside
  | lockGet hat hfree =>
      refine ⟨h.fifo, fun j => ?_, by simp [GetAt.isInside], nofun⟩
      have hnone := h.producer j
      rw [hfree] at hnone
      simpa using hnone
  | wait hat hempty =>
      have hholds : c.latch = some .consumer := by
        refine h.consumer.mp ?_
        rw [hat]
        trivial
      refine ⟨h.fifo, fun j => ?_, by simp [GetAt.isInside], fun _ hqueue => absurd hempty hqueue⟩
      have hother := h.producer j
      rw [hholds] at hother
      simpa using hother
  | wake hat =>
      refine ⟨h.fifo, h.producer, ?_, nofun⟩
      have houtside := h.consumer
      rw [hat] at houtside
      simpa [GetAt.isInside] using houtside
  | @pop req rest hat hfront =>
      refine ⟨?_, h.producer, ?_, nofun⟩
      · show c.emplaced = c.taken ++ [req] ++ rest
        rw [h.fifo, hfront, List.append_assoc, List.singleton_append]
      · have hinside := h.consumer
        rw [hat] at hinside
        simpa [GetAt.isInside] using hinside
  | returnGet hat =>
      have hholds : c.latch = some .consumer := by
        refine h.consumer.mp ?_
        rw [hat]
        trivial
      refine ⟨h.fifo, fun j => ?_, by simp [GetAt.isInside], nofun⟩
      have hother := h.producer j
      rw [hholds] at hother
      simpa using hother

/--
A consumer inside `get` beside a request is never stuck: the request can be
handed over, or some thread can go on with its call without a spurious wake-up.
-/
theorem not_stuck {c : Channel κ α} (h : c.Ordered) (hcalled : c.getter ≠ .out)
    (hqueue : c.queue ≠ [] ∨ ∃ req, c.getter = .unlocking req) :
    (∃ req, c.getter = .unlocking req) ∨
      ∃ event c', event.isInternal = true ∧ event ≠ .wake ∧ Step c event c' := by
  cases hg : c.getter with
  | out => exact absurd hg hcalled
  | unlocking req => exact .inl ⟨req, rfl⟩
  | testing =>
      right
      cases hq : c.queue with
      | nil => exact ⟨.wait, _, rfl, nofun, .wait hg hq⟩
      | cons req rest => exact ⟨.pop, _, rfl, nofun, .pop hg hq⟩
  | waiting =>
      right
      have hbeside : c.queue ≠ [] := by
        rcases hqueue with hqueue | ⟨req, htaken⟩
        · exact hqueue
        · rw [hg] at htaken
          cases htaken
      obtain ⟨k, hk | hk⟩ := h.woken hg hbeside
      · exact ⟨.unlockPut k, _, rfl, nofun, .unlockPut hk⟩
      · exact ⟨.notify k, _, rfl, nofun, .notify hk⟩
  | locking =>
      right
      cases hl : c.latch with
      | none => exact ⟨.lockGet, _, rfl, nofun, .lockGet hg hl⟩
      | some party =>
          cases party with
          | consumer =>
              have hinside := h.consumer.mpr hl
              rw [hg] at hinside
              exact hinside.elim
          | producer k =>
              have hinside := (h.producer k).mpr hl
              cases hk : c.putters k with
              | emplacing req => exact ⟨.emplace k, _, rfl, nofun, .emplace hk⟩
              | unlocking => exact ⟨.unlockPut k, _, rfl, nofun, .unlockPut hk⟩
              | out | locking | notifying =>
                  rw [hk] at hinside
                  exact hinside.elim

end Ordered

/-! ## What a step does to the requests -/

def carried (c : Channel κ α) (k : κ) : Option α := (c.putters k).carried

def handed (c : Channel κ α) : Option α := c.getter.handed

theorem carried_setPutter (c : Channel κ α) (k : κ) (position : PutAt α) :
    (c.setPutter k position).carried = Function.update c.carried k (position.carried) := by
  funext j
  by_cases heq : j = k
  · subst heq
    simp [carried, setPutter]
  · simp [carried, setPutter, heq]

theorem carried_setPutter_eq {c : Channel κ α} {k : κ} {position : PutAt α}
    (hsame : position.carried = c.carried k) :
    (c.setPutter k position).carried = c.carried := by
  rw [carried_setPutter, hsame, Function.update_eq_self]

/-- An internal step moves at most one request, into the queue or out of it. -/
theorem Step.internal {c c' : Channel κ α} {event : ChannelEvent κ α}
    (hstep : Step c event c') (hinternal : event.isInternal = true) :
    (c'.getter = .out ↔ c.getter = .out) ∧
    (c'.carried = c.carried ∧ c'.emplaced = c.emplaced ∨
      ∃ k req, c.carried k = some req ∧ c'.carried = Function.update c.carried k none ∧
        c'.emplaced = c.emplaced ++ [req]) ∧
    (c'.taken = c.taken ∧ c'.handed = c.handed ∨
      ∃ req, c.handed = none ∧ c'.handed = some req ∧ c'.taken = c.taken ++ [req]) := by
  cases hstep with
  | callPut | callGet | returnGet => cases hinternal
  | @lockPut k req hat hfree =>
      refine ⟨Iff.rfl, .inl ⟨?_, rfl⟩, .inl ⟨rfl, rfl⟩⟩
      exact carried_setPutter_eq (by simp [carried, PutAt.carried, hat])
  | @emplace k req hat =>
      refine ⟨Iff.rfl, .inr ⟨k, req, ?_, carried_setPutter c k .unlocking, rfl⟩, .inl ⟨rfl, rfl⟩⟩
      simp [carried, PutAt.carried, hat]
  | @unlockPut k hat =>
      refine ⟨Iff.rfl, .inl ⟨?_, rfl⟩, .inl ⟨rfl, rfl⟩⟩
      exact carried_setPutter_eq (by simp [carried, PutAt.carried, hat])
  | @notify k hat =>
      refine ⟨?_, .inl ⟨?_, rfl⟩, .inl ⟨rfl, ?_⟩⟩
      · cases hg : c.getter <;> simp [GetAt.awakened]
      · exact carried_setPutter_eq (by simp [carried, PutAt.carried, hat])
      · cases hg : c.getter <;> simp [GetAt.awakened, handed, GetAt.handed, hg]
  | lockGet hat hfree =>
      refine ⟨by simp [hat], .inl ⟨rfl, rfl⟩, .inl ⟨rfl, ?_⟩⟩
      simp [handed, GetAt.handed, hat]
  | wait hat hempty =>
      refine ⟨by simp [hat], .inl ⟨rfl, rfl⟩, .inl ⟨rfl, ?_⟩⟩
      simp [handed, GetAt.handed, hat]
  | wake hat =>
      refine ⟨by simp [hat], .inl ⟨rfl, rfl⟩, .inl ⟨rfl, ?_⟩⟩
      simp [handed, GetAt.handed, hat]
  | @pop req rest hat hfront =>
      refine ⟨by simp [hat], .inl ⟨rfl, rfl⟩, .inr ⟨req, ?_, rfl, rfl⟩⟩
      simp [handed, GetAt.handed, hat]

/-- A call of `put` hands one request to a producer that carries none. -/
theorem Step.callPut_effect {c c' : Channel κ α} {k : κ} {req : α}
    (hstep : Step c (.callPut k req) c') :
    c.carried k = none ∧ c'.carried = Function.update c.carried k (some req) ∧
      c'.emplaced = c.emplaced ∧ c'.taken = c.taken ∧ c'.getter = c.getter := by
  cases hstep with
  | callPut hat =>
      refine ⟨?_, carried_setPutter c k _, rfl, rfl, rfl⟩
      simp [carried, PutAt.carried, hat]

theorem Step.callGet_effect {c c' : Channel κ α} (hstep : Step c .callGet c') :
    c'.carried = c.carried ∧ c'.emplaced = c.emplaced ∧ c'.taken = c.taken ∧
      c'.getter = .locking := by
  cases hstep
  exact ⟨rfl, rfl, rfl, rfl⟩

theorem Step.returnGet_effect {c c' : Channel κ α} {req : α}
    (hstep : Step c (.returnGet req) c') :
    c.handed = some req ∧ c'.carried = c.carried ∧ c'.emplaced = c.emplaced ∧
      c'.taken = c.taken ∧ c'.getter = .out := by
  cases hstep with
  | returnGet hat => exact ⟨by simp [handed, GetAt.handed, hat], rfl, rfl, rfl, rfl⟩

end Channel

end HiveDb
