import HiveDb.Lib.Program

/-!
# Identifiers, constants and failures

The identifiers are signed 64-bit integers in the source.  No modelled
operation does arithmetic on them that could overflow before the page counter
has been incremented `2 ^ 63` times, so they are plain integers here.
-/

namespace HiveDb

abbrev PageId := Int
abbrev FrameId := Int
abbrev Offset := Nat

/-- Size of a page and of a frame in bytes. -/
def pageSize : Nat := 4096

def invalidFrameId : FrameId := -1
def invalidPageId : PageId := -1

/-- How a call can end other than by returning. -/
inductive Failure where
  /-- A failed `ASSERT`: the process aborts. -/
  | assertion
  | runtimeError (what : String)
  | invalidArgument (what : String)
  /-- `std::out_of_range` from a checked element access. -/
  | outOfRange
  /-- An unchecked access outside a container: undefined behaviour. -/
  | undefined
  /-- The round budget of a modelled loop ran out; not an outcome of the program. -/
  | outOfFuel
  deriving DecidableEq, Repr

/-- Whether a failure is a C++ exception, which leaves the process running. -/
def Failure.isException : Failure → Bool
  | .runtimeError _ | .invalidArgument _ | .outOfRange => true
  | _ => false

abbrev Prog (σ α : Type) := EStateM Failure σ α

/-! ## Reading the outcome of a call -/

section Outcome

variable {σ α : Type}

/-- What a call has returned, if it has. -/
def resultOf : EStateM.Result Failure σ α → Option α
  | .ok a _ => some a
  | .error _ _ => none

/-- How a call has failed, if it has. -/
def failureOf : EStateM.Result Failure σ α → Option Failure
  | .ok _ _ => none
  | .error failure _ => some failure

/-- The state a call has left. -/
def stateOf : EStateM.Result Failure σ α → σ
  | .ok _ state => state
  | .error _ state => state

theorem eq_ok_of_resultOf {result : EStateM.Result Failure σ α} {a : α}
    (h : resultOf result = some a) : result = .ok a (stateOf result) := by
  cases result with
  | ok b state =>
      cases h
      rfl
  | error => cases h

theorem eq_error_of_failureOf {result : EStateM.Result Failure σ α} {failure : Failure}
    (h : failureOf result = some failure) : result = .error failure (stateOf result) := by
  cases result with
  | ok => cases h
  | error other state =>
      cases h
      rfl

/-- A sequence whose first program does not return does not return. -/
theorem resultOf_bind_of_none {β : Type} {x : Prog σ α} {f : α → Prog σ β} {s : σ}
    (h : resultOf (x s) = none) : resultOf ((x >>= f) s) = none := by
  cases hx : x s with
  | ok a s' =>
      rw [hx] at h
      cases h
  | error failure s' => exact congrArg resultOf (HiveDb.Lib.bind_of_error hx)

/-- The call leaves the process running: it has returned or has thrown an exception. -/
def Leaves (x : Prog σ α) (s s' : σ) : Prop :=
  (∃ a, x s = .ok a s') ∨ ∃ failure : Failure, failure.isException = true ∧ x s = .error failure s'

theorem Leaves.eq_of_ok {x : Prog σ α} {s s' t : σ} {a : α} (h : Leaves x s s')
    (hok : x s = .ok a t) : s' = t := by
  rcases h with ⟨_, hreturns⟩ | ⟨_, _, hthrows⟩
  · cases hok.symm.trans hreturns
    rfl
  · cases hok.symm.trans hthrows

theorem Leaves.eq_of_error {x : Prog σ α} {s s' t : σ} {failure : Failure} (h : Leaves x s s')
    (herror : x s = .error failure t) : s' = t ∧ failure.isException = true := by
  rcases h with ⟨_, hreturns⟩ | ⟨_, hexception, hthrows⟩
  · cases herror.symm.trans hreturns
  · cases herror.symm.trans hthrows
    exact ⟨rfl, hexception⟩

/-- Only the outcome of a call matters to whether it leaves the process running. -/
theorem leaves_congr {x y : Prog σ α} {s t s' : σ} (h : x s = y t) :
    Leaves x s s' ↔ Leaves y t s' := by
  unfold Leaves
  rw [h]

/-- Neither a failed assertion nor an access outside a container leaves it running. -/
theorem not_leaves_of_error {x : Prog σ α} {s t : σ} {failure : Failure}
    (herror : x s = .error failure t) (h : failure.isException = false) :
    ¬ ∃ s', Leaves x s s' := by
  rintro ⟨s', hleaves⟩
  rw [(hleaves.eq_of_error herror).2] at h
  cases h

end Outcome

/-- `ASSERT(condition)`. -/
def assertThat (condition : Prop) [Decidable condition] : Except Failure Unit :=
  if condition then .ok () else .error .assertion

theorem assertThat_of {condition : Prop} [Decidable condition] (h : condition) :
    assertThat condition = .ok () := if_pos h

theorem assertThat_of_not {condition : Prop} [Decidable condition] (h : ¬ condition) :
    assertThat condition = .error .assertion := if_neg h

theorem of_assertThat {condition : Prop} [Decidable condition] {u : Unit}
    (h : assertThat condition = .ok u) : condition := by
  by_contra hnot
  cases (assertThat_of_not hnot).symm.trans h

end HiveDb
