import HiveDb.Lib.Infix
import HiveDb.Parser.RoundTrip
import HiveDb.Parser.Trees

/-!
# How arithmetic is grouped

`binaryExpr` reads an operand, and what follows an operator is its right operand
as a whole, whatever the operators are.  The conventional grouping, in which `*`
and `/` bind more tightly than `+` and `-`, and operators of one precedence are
grouped to the left, comes out of this for the shortest sequences only.
-/

namespace HiveDb

open HiveDb.Lib

/-- How tightly an operator binds by convention. -/
def BinaryOperator.precedence : BinaryOperator → Nat
  | .add | .substract => 0
  | .divide | .star => 1

/-- A tree of operators over operands, as the parser's nodes. -/
def treeExpr : Infix.Tree Exprs BinaryOperator → Exprs
  | .leaf e => e
  | .node left op right => .binary (treeExpr left) op (treeExpr right)

/-- Above operands the nodes of the parser show the tree. -/
theorem treeExpr_injective {tree other : Infix.Tree Exprs BinaryOperator}
    (htree : ∀ e ∈ tree.leaves, e.Operand) (hother : ∀ e ∈ other.leaves, e.Operand)
    (h : treeExpr tree = treeExpr other) : tree = other := by
  induction tree generalizing other with
  | leaf e =>
      cases other with
      | leaf e' => exact congrArg Infix.Tree.leaf h
      | node left op right => exact absurd h (htree e List.mem_cons_self _ _ _)
  | node left op right ihleft ihright =>
      cases other with
      | leaf e => exact absurd h.symm (hother e List.mem_cons_self _ _ _)
      | node left' op' right' =>
          rw [Infix.Tree.leaves_node] at htree hother
          injection h with hleft hop hright
          rw [ihleft (fun e he => htree e (List.mem_append_left _ he))
              (fun e he => hother e (List.mem_append_left _ he)) hleft,
            ihright (fun e he => htree e (List.mem_append_right _ he))
              (fun e he => hother e (List.mem_append_right _ he)) hright, hop]

/-- With two precedences there is no room for a third operator. -/
theorem ascending_iff {steps : List (BinaryOperator × Exprs)} :
    (steps.IsChain fun step next => step.1.precedence < next.1.precedence) ↔
      steps.length ≤ 1 ∨
        ∃ step next, steps = [step, next] ∧ step.1.precedence < next.1.precedence := by
  have hprecedence (op : BinaryOperator) : op.precedence ≤ 1 := by
    cases op <;> decide
  rcases steps with _ | ⟨step, _ | ⟨next, _ | ⟨third, rest⟩⟩⟩
  · exact iff_of_true .nil (.inl (Nat.zero_le _))
  · exact iff_of_true (.singleton step) (.inl (Nat.le_refl _))
  · rw [List.isChain_cons_cons]
    constructor
    · rintro ⟨hless, _⟩
      exact .inr ⟨step, next, rfl, hless⟩
    · rintro (hlength | ⟨_, _, heq, hless⟩)
      · exact absurd hlength (by simp)
      · cases heq
        exact ⟨hless, .singleton next⟩
  · refine iff_of_false ?_ ?_
    · rw [List.isChain_cons_cons, List.isChain_cons_cons]
      rintro ⟨hfirst, hsecond, _⟩
      have hthird := hprecedence third.1
      omega
    · rintro (hlength | ⟨_, _, heq, _⟩)
      · simp at hlength
      · cases heq

namespace Parser

section Reading

variable [FloatUnit] {tokens rest : List Token} {a tree : Exprs}
variable {steps : List (BinaryOperator × Exprs)} {depth : Nat}

/-- `unaryExpr` reads an operand and leaves the rest, at some depth. -/
def ReadsOperand (tokens : List Token) (e : Exprs) (rest : List Token) : Prop :=
  ∃ depth, unaryExpr depth tokens = .ok e rest

/-- The tokens are an operand and operators with operands behind them, and then something else. -/
inductive Operands : List Token → Exprs → List (BinaryOperator × Exprs) → List Token → Prop where
  | last {tokens rest : List Token} {a : Exprs} (hread : ReadsOperand tokens a rest)
      (hstops : ∀ next ∈ rest.head?, next.type.binaryOperator = none) : Operands tokens a [] rest
  | more {tokens others rest : List Token} {token : Token} {op : BinaryOperator} {a b : Exprs}
      {steps : List (BinaryOperator × Exprs)} (hread : ReadsOperand tokens a (token :: others))
      (hop : token.type.binaryOperator = some op) (hothers : Operands others b steps rest) :
      Operands tokens a ((op, b) :: steps) rest

theorem Operands.all (h : Operands tokens a steps rest) :
    ∀ e ∈ a :: steps.map Prod.snd, e.Operand := by
  induction h with
  | last hread _ =>
      obtain ⟨depth, hread⟩ := hread
      exact List.forall_mem_singleton.mpr (operand_of_unaryExpr hread)
  | more hread _ _ ih =>
      obtain ⟨depth, hread⟩ := hread
      exact List.forall_mem_cons.mpr ⟨operand_of_unaryExpr hread, ih⟩

/-- Every operator takes all that follows it. -/
theorem Operands.binaryExpr (h : Operands tokens a steps rest) :
    ∃ depth, binaryExpr depth tokens = .ok (treeExpr (.rightNested a steps)) rest := by
  induction h with
  | last hread hstops =>
      obtain ⟨depth, hread⟩ := hread
      exact ⟨depth + 1, binaryExpr_unary hread hstops⟩
  | more hread hop _ ih =>
      obtain ⟨depth, hread⟩ := hread
      obtain ⟨depth', hrest⟩ := ih
      refine ⟨max depth depth' + 1, ?_⟩
      exact binaryExpr_operator (unaryExpr_deeper (Nat.le_max_left _ _) hread) hop
        (binaryExpr_deeper (Nat.le_max_right _ _) hrest)

theorem operands_of_binaryExpr (h : binaryExpr depth tokens = .ok tree rest) :
    ∃ a steps, Operands tokens a steps rest ∧ tree = treeExpr (.rightNested a steps) := by
  induction depth generalizing tokens tree with
  | zero => cases h
  | succ depth ih =>
      obtain ⟨lhs, middle, hlhs, htail⟩ := bind_eq_ok_iff.mp h
      rcases accept_cases (ε := Failure) (fun token : Token => token.type.binaryOperator) middle
        with ⟨first, others, op, rfl, htaken, hrun⟩ | ⟨hnone, hrun⟩
      · rw [bind_of_ok hrun] at htail
        obtain ⟨rhs, last, hrhs, hend⟩ := bind_eq_ok_iff.mp htail
        cases hend
        obtain ⟨b, steps, hsteps, rfl⟩ := ih hrhs
        exact ⟨lhs, (op, b) :: steps, .more ⟨depth, hlhs⟩ htaken hsteps, rfl⟩
      · rw [bind_of_ok hrun] at htail
        cases htail
        exact ⟨tree, [], .last ⟨depth, hlhs⟩ hnone, rfl⟩

/-- The depth of `parse` is enough for a sequence. -/
theorem Operands.binaryExpr_deep (h : Operands tokens a steps rest)
    (hdepth : depthFor tokens.length ≤ depth) :
    Parser.binaryExpr depth tokens = .ok (treeExpr (.rightNested a steps)) rest := by
  obtain ⟨some, hsome⟩ := h.binaryExpr
  have hdeep : 4 * tokens.length + 4 ≤ depth := hdepth
  rcases Nat.le_total some depth with hle | hle
  · exact binaryExpr_deeper hle hsome
  · have hwithin := (deep tokens.length).binary (show 4 * tokens.length + 3 ≤ depth by omega)
    rcases Approximates.of_step (fun n => (extends_expressions n).1) hle tokens with
      hsame | ⟨s, herror⟩
    · exact hsame.trans hsome
    · exact absurd herror ((hwithin tokens (Nat.le_refl _)).1 s)

/--
Every sequence is read, and its tree is the conventional one exactly where it
has at most one operator, or two of which the second binds more tightly.
-/
theorem binaryExpr_conventional_iff (h : Operands tokens a steps rest)
    (hdepth : depthFor tokens.length ≤ depth) :
    ∃ tree, binaryExpr depth tokens = .ok tree rest ∧
      (tree = treeExpr (Infix.conventional BinaryOperator.precedence a steps) ↔
        steps.length ≤ 1 ∨
          ∃ step next, steps = [step, next] ∧ step.1.precedence < next.1.precedence) := by
  refine ⟨_, h.binaryExpr_deep hdepth, ?_⟩
  rw [← ascending_iff, ← Infix.rightNested_eq_conventional_iff a steps]
  constructor
  · refine treeExpr_injective ?_ ?_
    · rw [Infix.Tree.leaves, Infix.Tree.first_rightNested, Infix.Tree.steps_rightNested]
      exact h.all
    · rw [Infix.Tree.leaves, Infix.first_conventional, Infix.steps_conventional]
      exact h.all
  · exact congrArg treeExpr

end Reading

def threeNumbers (op op' : TokenType) : List Token :=
  [⟨.integer, ['1'], []⟩, .symbol op, ⟨.integer, ['2'], []⟩, .symbol op', ⟨.integer, ['3'], []⟩]

theorem threeNumbers_operands (op op' : BinaryOperator) :
    @Operands .binary32 (threeNumbers op.type op'.type) (.literalInt 1)
      [(op, .literalInt 2), (op', .literalInt 3)] [] := by
  let _ := FloatUnit.binary32
  have hnone : ∀ next ∈ ([] : List Token).head?, next.type.binaryOperator = none := nofun
  refine .more ⟨2, rfl⟩ op.binaryOperator_type ?_
  exact .more ⟨2, rfl⟩ op'.binaryOperator_type (.last ⟨2, rfl⟩ hnone)

/-- `1 + 2 * 3` is grouped as it should be. -/
theorem sum_of_product_conventional :
    ∃ tree, @binaryExpr .binary32 24 (threeNumbers .add .star) = .ok tree [] ∧
      BinaryOperator.precedence .add < BinaryOperator.precedence .star ∧
      tree = treeExpr (Infix.conventional BinaryOperator.precedence (.literalInt 1)
        [(.add, .literalInt 2), (.star, .literalInt 3)]) := by
  have hbinds : BinaryOperator.precedence .add < BinaryOperator.precedence .star := by decide
  obtain ⟨tree, hread, hiff⟩ := @binaryExpr_conventional_iff .binary32 _ _ _ _ _
    (threeNumbers_operands .add .star) (show depthFor _ ≤ 24 by decide)
  exact ⟨tree, hread, hbinds, hiff.mpr (.inr ⟨_, _, rfl, hbinds⟩)⟩

/-- `1 - 2 - 3` is grouped as `1 - (2 - 3)`. -/
theorem difference_of_three_grouped_right :
    ¬ ∀ (_ : FloatUnit) (tokens : List Token) (a : Exprs) (steps : List (BinaryOperator × Exprs))
      (rest : List Token), Operands tokens a steps rest →
        ∀ depth, depthFor tokens.length ≤ depth → ∃ tree, binaryExpr depth tokens = .ok tree rest ∧
          tree = treeExpr (Infix.conventional BinaryOperator.precedence a steps) := by
  intro h
  obtain ⟨tree, hread, hconventional⟩ :=
    h .binary32 _ _ _ _ (threeNumbers_operands .substract .substract) 24 (by decide)
  have hright : @binaryExpr .binary32 24 (threeNumbers .substract .substract) =
      .ok (.binary (.literalInt 1) .substract
        (.binary (.literalInt 2) .substract (.literalInt 3))) [] := rfl
  cases hright.symm.trans hread
  cases hconventional

end Parser

end HiveDb
