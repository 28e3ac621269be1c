import Mathlib.Order.Lattice
import Mathlib.Data.List.Basic

/-!
# Infix sequences

A first operand and the operators behind it, each with its operand, can be
grouped into many trees.  The conventional one follows the precedences of the
operators, and groups operators of one precedence to the left.  It is the only
tree of the sequence in which no operand of a node is a node that should have
been grouped later.
-/

namespace HiveDb.Lib.Infix

universe u v w

variable {α : Type u} {ω : Type v}

inductive Tree (α : Type u) (ω : Type v) where
  | leaf (a : α)
  | node (left : Tree α ω) (op : ω) (right : Tree α ω)

namespace Tree

/-- The operand that the sequence of the tree begins with. -/
def first : Tree α ω → α
  | .leaf a => a
  | .node left _ _ => left.first

/-- The operators of the tree with the operands behind them, in their order. -/
def steps : Tree α ω → List (ω × α)
  | .leaf _ => []
  | .node left op right => left.steps ++ (op, right.first) :: right.steps

/-- The operands of the tree. -/
def leaves (tree : Tree α ω) : List α := tree.first :: tree.steps.map Prod.snd

theorem leaves_node (left : Tree α ω) (op : ω) (right : Tree α ω) :
    (node left op right).leaves = left.leaves ++ right.leaves := by
  simp only [leaves, first, steps, List.map_append, List.map_cons, List.cons_append]

/-- Every operator has all that follows it as its right operand. -/
def rightNested (a : α) : List (ω × α) → Tree α ω
  | [] => .leaf a
  | (op, b) :: rest => .node (.leaf a) op (rightNested b rest)

@[simp] theorem first_rightNested (a : α) (rest : List (ω × α)) :
    (rightNested a rest).first = a := by
  cases rest with
  | nil => rfl
  | cons step rest => rfl

@[simp] theorem steps_rightNested (a : α) (rest : List (ω × α)) :
    (rightNested a rest).steps = rest := by
  induction rest generalizing a with
  | nil => rfl
  | cons step rest ih => simp only [rightNested, steps, first_rightNested, ih, List.nil_append]

/-- The condition on the operator of the root, if there is one. -/
def RootOp (p : ω → Prop) : Tree α ω → Prop
  | .leaf _ => True
  | .node _ op _ => p op

end Tree

section Precedence

variable {π : Type w} [LinearOrder π] (prec : ω → π)

/--
The grouping of the grammar of precedences: a left operand of a node binds at
least as tightly as the node, a right operand more tightly.
-/
inductive Grouped : Tree α ω → Prop where
  | leaf (a : α) : Grouped (.leaf a)
  | node {left right : Tree α ω} {op : ω} (hleft : Grouped left) (hright : Grouped right)
      (hloose : left.RootOp fun inner => prec op ≤ prec inner)
      (htight : right.RootOp fun inner => prec op < prec inner) : Grouped (.node left op right)

/-- One more operator and its operand behind the sequence of a tree. -/
def push (op : ω) (b : α) : Tree α ω → Tree α ω
  | .leaf a => .node (.leaf a) op (.leaf b)
  | .node left root right =>
      if prec root < prec op then .node left root (push op b right)
      else .node (.node left root right) op (.leaf b)

/-- The sequence grouped by precedence, and to the left where precedences are equal. -/
def conventional (a : α) (rest : List (ω × α)) : Tree α ω :=
  rest.foldl (fun tree step => push prec step.1 step.2 tree) (.leaf a)

variable {prec} {tree left right : Tree α ω} {op : ω} {a b : α}

theorem first_push : (push prec op b tree).first = tree.first := by
  induction tree with
  | leaf a => rfl
  | node left root right _ _ =>
      rw [push]
      split <;> rfl

theorem steps_push : (push prec op b tree).steps = tree.steps ++ [(op, b)] := by
  induction tree with
  | leaf a => rfl
  | node left root right _ ih =>
      rw [push]
      split
      · simp only [Tree.steps, first_push, ih, List.append_assoc, List.cons_append]
      · rfl

theorem rootOp_push {p : ω → Prop} (htree : tree.RootOp p) (hop : p op) :
    (push prec op b tree).RootOp p := by
  cases tree with
  | leaf a => exact hop
  | node left root right =>
      rw [push]
      split
      · exact htree
      · exact hop

theorem Grouped.push (h : Grouped prec tree) : Grouped prec (push prec op b tree) := by
  induction h with
  | leaf a => exact .node (.leaf a) (.leaf b) trivial trivial
  | @node left right root hleft hright hloose htight _ ih =>
      rw [Infix.push]
      split
      · exact .node hleft ih hloose (rootOp_push htight ‹_›)
      · exact .node (.node hleft hright hloose htight) (.leaf b) (not_lt.mp ‹_›) trivial

theorem grouped_foldl (rest : List (ω × α)) (h : Grouped prec tree) :
    Grouped prec (rest.foldl (fun tree step => Infix.push prec step.1 step.2 tree) tree) := by
  induction rest generalizing tree with
  | nil => exact h
  | cons step rest ih => exact ih h.push

theorem first_foldl (rest : List (ω × α)) :
    (rest.foldl (fun tree step => push prec step.1 step.2 tree) tree).first = tree.first := by
  induction rest generalizing tree with
  | nil => rfl
  | cons step rest ih => rw [List.foldl_cons, ih, first_push]

theorem steps_foldl (rest : List (ω × α)) :
    (rest.foldl (fun tree step => push prec step.1 step.2 tree) tree).steps =
      tree.steps ++ rest := by
  induction rest generalizing tree with
  | nil => exact (List.append_nil _).symm
  | cons step rest ih =>
      rw [List.foldl_cons, ih, steps_push, List.append_assoc, List.singleton_append]

/-- The conventional tree groups its sequence, and by the grammar. -/
theorem grouped_conventional (a : α) (rest : List (ω × α)) :
    Grouped prec (conventional prec a rest) :=
  grouped_foldl rest (.leaf a)

@[simp] theorem first_conventional (a : α) (rest : List (ω × α)) :
    (conventional prec a rest).first = a :=
  first_foldl rest

@[simp] theorem steps_conventional (a : α) (rest : List (ω × α)) :
    (conventional prec a rest).steps = rest :=
  steps_foldl rest

/-! ## There is one such tree -/

/-- Below a root that binds tightly enough all operators do. -/
theorem Grouped.all_steps {c : π} (h : Grouped prec tree)
    (hroot : tree.RootOp fun inner => c < prec inner) : ∀ step ∈ tree.steps, c < prec step.1 := by
  induction h with
  | leaf a => exact fun _ impossible => absurd impossible List.not_mem_nil
  | @node left right op hleft hright hloose htight ihleft ihright =>
      have hop : c < prec op := hroot
      have hleftRoot : left.RootOp fun inner => c < prec inner := by
        cases left with
        | leaf a => trivial
        | node _ inner _ => exact lt_of_lt_of_le hop hloose
      have hrightRoot : right.RootOp fun inner => c < prec inner := by
        cases right with
        | leaf a => trivial
        | node _ inner _ => exact lt_trans hop htight
      intro step hstep
      rcases List.mem_append.mp hstep with hin | hin
      · exact ihleft hleftRoot step hin
      · rcases List.mem_cons.mp hin with rfl | hin
        · exact hop
        · exact ihright hrightRoot step hin

/-- Behind an operator that binds less tightly the rest is grouped on its own. -/
theorem foldl_node (left : Tree α ω) (op : ω) {rest : List (ω × α)}
    (hrest : ∀ step ∈ rest, prec op < prec step.1) :
    rest.foldl (fun tree step => push prec step.1 step.2 tree) (.node left op right) =
      .node left op (rest.foldl (fun tree step => push prec step.1 step.2 tree) right) := by
  induction rest generalizing right with
  | nil => rfl
  | cons step rest ih =>
      rw [List.foldl_cons, push, if_pos (hrest step List.mem_cons_self)]
      exact ih fun later hlater => hrest later (List.mem_cons_of_mem _ hlater)

/-- An operator that binds no more tightly than the root goes above it. -/
theorem push_loose (h : tree.RootOp fun inner => prec op ≤ prec inner) :
    push prec op b tree = .node tree op (.leaf b) := by
  cases tree with
  | leaf a => rfl
  | node left root right => exact if_neg (not_lt.mpr h)

theorem Grouped.eq_conventional (h : Grouped prec tree) :
    tree = conventional prec tree.first tree.steps := by
  induction h with
  | leaf a => rfl
  | @node left right op hleft hright hloose htight ihleft ihright =>
      calc Tree.node left op right
          = .node left op (conventional prec right.first right.steps) := by rw [← ihright]
        _ = right.steps.foldl (fun tree step => Infix.push prec step.1 step.2 tree)
              (Infix.push prec op right.first left) := by
            rw [push_loose hloose, foldl_node _ _ (hright.all_steps htight)]
            rfl
        _ = conventional prec left.first (left.steps ++ (op, right.first) :: right.steps) := by
            rw [conventional, List.foldl_append, List.foldl_cons]
            conv_lhs => rw [ihleft]
            rfl

/-- The grammar groups a sequence in one way, the conventional one. -/
theorem grouped_iff : Grouped prec tree ↔ tree = conventional prec tree.first tree.steps := by
  constructor
  · exact Grouped.eq_conventional
  · intro h
    rw [h]
    exact grouped_conventional _ _

/-! ## Grouping to the right -/

/-- To group to the right is conventional where each operator binds more tightly than the last. -/
theorem grouped_rightNested_iff (a : α) (rest : List (ω × α)) :
    Grouped prec (Tree.rightNested a rest) ↔
      rest.IsChain fun step next => prec step.1 < prec next.1 := by
  induction rest generalizing a with
  | nil => exact iff_of_true (.leaf a) .nil
  | cons step rest ih =>
      cases rest with
      | nil => exact iff_of_true (.node (.leaf a) (.leaf step.2) trivial trivial) (.singleton step)
      | cons next rest =>
          rw [List.isChain_cons_cons, ← ih step.2]
          constructor
          · intro h
            cases h with
            | node _ hright _ htight => exact ⟨htight, hright⟩
          · rintro ⟨htight, hright⟩
            exact .node (.leaf a) hright trivial htight

theorem rightNested_eq_conventional_iff (a : α) (rest : List (ω × α)) :
    Tree.rightNested a rest = conventional prec a rest ↔
      rest.IsChain fun step next => prec step.1 < prec next.1 := by
  rw [← grouped_rightNested_iff a, grouped_iff, Tree.first_rightNested, Tree.steps_rightNested]

end Precedence

end HiveDb.Lib.Infix
