import Mathlib.Data.List.Basic
import Mathlib.Data.List.Perm.Basic
import Mathlib.Tactic.Common

/-!
# Breadth-first order

A queue is worked off from its front, each element adding its children at the
end.  When no generation after some number of them has a member, that order is
one generation behind the other.
-/

namespace HiveDb.Lib

variable {α β : Type} {children : α → List α}

/-- The elements in the order in which the queue is worked off. -/
inductive BreadthFirst (children : α → List α) : List α → List α → Prop where
  | nil : BreadthFirst children [] []
  | cons {front : α} {rest order : List α}
      (tail : BreadthFirst children (rest ++ children front) order) :
      BreadthFirst children (front :: rest) (front :: order)

/-- The descendants that are `n` steps below. -/
def generation (children : α → List α) : Nat → List α → List α
  | 0, queue => queue
  | n + 1, queue => generation children n (queue.flatMap children)

/-- The generations from the queue itself to the one that is `n` steps below. -/
def generations (children : α → List α) : Nat → List α → List α
  | 0, queue => queue
  | n + 1, queue => queue ++ generations children n (queue.flatMap children)

namespace BreadthFirst

/-- What is in the queue is worked off first; the children are behind it then. -/
theorem append {queue rest order : List α}
    (h : BreadthFirst children (rest ++ queue.flatMap children) order) :
    BreadthFirst children (queue ++ rest) (queue ++ order) := by
  induction queue generalizing rest with
  | nil => simpa using h
  | cons front queue ih =>
      rw [List.flatMap_cons, ← List.append_assoc] at h
      have htail := ih h
      rw [← List.append_assoc] at htail
      exact .cons htail

theorem of_generations {n : Nat} {queue : List α} (h : generation children (n + 1) queue = []) :
    BreadthFirst children queue (generations children n queue) := by
  induction n generalizing queue with
  | zero =>
      have hnone : queue.flatMap children = [] := h
      have hdone : BreadthFirst children ([] ++ queue.flatMap children) [] := by
        rw [hnone]
        exact .nil
      simpa [generations] using append hdone
  | succ n ih =>
      have hrest := ih h
      rw [← List.nil_append (queue.flatMap children)] at hrest
      simpa [generations] using append hrest

end BreadthFirst

section Generations

variable (children)

theorem generation_nil (n : Nat) : generation children n [] = [] := by
  induction n with
  | zero => rfl
  | succ n ih => exact ih

theorem generation_append (n : Nat) (left right : List α) :
    generation children n (left ++ right) =
      generation children n left ++ generation children n right := by
  induction n generalizing left right with
  | zero => rfl
  | succ n ih => rw [generation, generation, generation, List.flatMap_append, ih]

theorem generations_append (n : Nat) (left right : List α) :
    (generations children n (left ++ right)).Perm
      (generations children n left ++ generations children n right) := by
  induction n generalizing left right with
  | zero => exact .refl _
  | succ n ih =>
      rw [generations, generations, generations, List.flatMap_append, List.append_assoc,
        List.append_assoc]
      refine List.Perm.append_left left ?_
      refine (List.Perm.append_left right (ih _ _)).trans ?_
      rw [← List.append_assoc, ← List.append_assoc]
      exact List.Perm.append_right _ List.perm_append_comm

/-- A generation is gathered from those of the elements of the queue. -/
theorem generation_flatMap (n : Nat) (queue : List α) :
    generation children n queue = queue.flatMap fun x => generation children n [x] := by
  induction queue with
  | nil => exact generation_nil children n
  | cons front queue ih =>
      rw [← List.singleton_append, generation_append, ih, List.flatMap_append,
        List.flatMap_singleton]

/-- So are all of them, in another order. -/
theorem generations_flatMap (n : Nat) (queue : List α) :
    (generations children n queue).Perm (queue.flatMap fun x => generations children n [x]) := by
  induction queue with
  | nil =>
      induction n with
      | zero => exact .refl _
      | succ n ih => exact ih
  | cons front queue ih =>
      rw [← List.singleton_append, List.flatMap_append, List.flatMap_singleton]
      exact (generations_append children n [front] queue).trans (List.Perm.append_left _ ih)

theorem generations_eq_flatMap (n : Nat) (queue : List α) :
    generations children n queue =
      (List.range (n + 1)).flatMap fun depth => generation children depth queue := by
  induction n generalizing queue with
  | zero => exact (List.append_nil _).symm
  | succ n ih =>
      rw [generations, ih (queue.flatMap children), List.range_succ_eq_map (n := n + 1),
        List.flatMap_cons, List.flatMap_map]
      rfl

end Generations

end HiveDb.Lib
