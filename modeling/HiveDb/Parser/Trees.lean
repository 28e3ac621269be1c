import HiveDb.Parser.Parser

/-!
# The trees that the parser builds

Every select of a tree that the parser returns has expressions, and what
`unaryExpr` returns is an operand: no binary expression.
-/

namespace HiveDb

open HiveDb.Lib

/-- Every select in the expression has expressions. -/
inductive Exprs.Formed : Exprs → Prop where
  | literalInt (value : Int) : Formed (.literalInt value)
  | literalReal (value : Real32) : Formed (.literalReal value)
  | literalString (value : Text) (isIdentifier : Bool) : Formed (.literalString value isIdentifier)
  | unary (op : UnaryOperator) {rhs : Exprs} (hrhs : Formed rhs) : Formed (.unary op rhs)
  | grouping {e : Exprs} (he : Formed e) : Formed (.grouping e)
  | binary {lhs rhs : Exprs} (op : BinaryOperator) (hlhs : Formed lhs) (hrhs : Formed rhs) :
      Formed (.binary lhs op rhs)
  | createTbl (statement : CreateTblExpr) : Formed (.createTbl statement)
  | insert (statement : InsertExpr) : Formed (.insert statement)
  | select {innerExpr : List Exprs} (tblName : Text) (hne : innerExpr ≠ [])
      (hinner : ∀ e ∈ innerExpr, Formed e) : Formed (.select innerExpr tblName)

/-- The expression is no binary one. -/
def Exprs.Operand (e : Exprs) : Prop := ∀ lhs op rhs, e ≠ .binary lhs op rhs

namespace Parser

variable {tokens rest : List Token} {tree : Exprs}

theorem returns_invalidToken {P : Exprs → Prop} : Returns P invalidToken :=
  .after fun _ => .fail _

theorem returns_fromClause {innerExpr : List Exprs} (hne : innerExpr ≠ [])
    (hinner : ∀ e ∈ innerExpr, e.Formed) : Returns Exprs.Formed (fromClause innerExpr) := by
  refine .after fun found => ?_
  cases found with
  | some word => exact .after fun token => .ret (.select _ hne hinner)
  | none => exact .ret (.select _ hne hinner)

section Expressions

variable [FloatUnit] {depth : Nat}

/-- A primary expression is a literal or a grouping, of an expression or of a select. -/
theorem returns_primaryExpr {P : Exprs → Prop} (hint : ∀ value, P (.literalInt value))
    (hreal : ∀ value, P (.literalReal value))
    (hstring : ∀ value isIdentifier, P (.literalString value isIdentifier))
    (hbinary : Returns (fun e => P (.grouping e)) (binaryExpr depth))
    (hselect : Returns (fun e => P (.grouping e)) (selectExpr depth)) :
    Returns P (primaryExpr (depth + 1)) := by
  refine .after fun string => ?_
  cases string with
  | some token => exact .ret (hstring _ _)
  | none =>
  refine .after fun identifier => ?_
  cases identifier with
  | some token => exact .ret (hstring _ _)
  | none =>
  refine .after fun integer => ?_
  cases integer with
  | some token => exact .after fun value => .ret (hint value)
  | none =>
  refine .after fun real => ?_
  cases real with
  | some token => exact .after fun value => .ret (hreal value)
  | none =>
  refine .after fun parentheses => ?_
  cases parentheses with
  | some token =>
      refine .after fun select => ?_
      cases select with
      | some token => exact hselect.bind fun e he => .after fun _ => .ret he
      | none => exact hbinary.bind fun e he => .after fun _ => .ret he
  | none =>
  refine .after fun select => ?_
  cases select with
  | some token => exact hselect.bind fun e he => .ret he
  | none => exact returns_invalidToken

/-- What the functions for expressions return at a depth. -/
structure Builds (depth : Nat) : Prop where
  binary : Returns Exprs.Formed (binaryExpr depth)
  unary : Returns Exprs.Formed (unaryExpr depth)
  primary : Returns Exprs.Formed (primaryExpr depth)
  select : Returns Exprs.Formed (selectExpr depth)
  comma : Returns (fun es => ∀ e ∈ es, e.Formed) (commaExprs depth)

theorem Builds.next (h : Builds depth) : Builds (depth + 1) where
  binary := by
    refine h.unary.bind fun lhs hlhs => .after fun op => ?_
    cases op with
    | some op => exact h.binary.bind fun rhs hrhs => .ret (.binary op hlhs hrhs)
    | none => exact .ret hlhs
  unary := by
    refine .after fun op => ?_
    cases op with
    | some op => exact h.unary.bind fun rhs hrhs => .ret (.unary op hrhs)
    | none => exact h.primary
  primary :=
    returns_primaryExpr .literalInt .literalReal .literalString
      (h.binary.mono fun _ => .grouping) (h.select.mono fun _ => .grouping)
  select := by
    refine .after fun parentheses => ?_
    cases parentheses with
    | some token =>
        refine h.binary.bind fun e he => h.comma.bind fun others hothers => .after fun _ => ?_
        exact returns_fromClause (List.cons_ne_nil _ _) (List.forall_mem_cons.mpr ⟨he, hothers⟩)
    | none =>
        refine h.binary.bind fun e he => ?_
        exact returns_fromClause (List.cons_ne_nil _ _) (List.forall_mem_singleton.mpr he)
  comma := by
    refine .after fun comma => ?_
    cases comma with
    | some token =>
        exact h.binary.bind fun e he => h.comma.bind fun others hothers =>
          .ret (List.forall_mem_cons.mpr ⟨he, hothers⟩)
    | none => exact .ret (List.forall_mem_nil _)

theorem builds (depth : Nat) : Builds depth := by
  induction depth with
  | zero => exact ⟨.fail _, .fail _, .fail _, .fail _, .fail _⟩
  | succ depth ih => exact ih.next

/-- An operand is a literal, a grouping or a unary expression. -/
theorem operand_of_unaryExpr (h : unaryExpr depth tokens = .ok tree rest) : tree.Operand := by
  have hoperand : Returns Exprs.Operand (unaryExpr depth) := by
    cases depth with
    | zero => exact .fail _
    | succ depth =>
        refine .after fun op => ?_
        cases op with
        | some op => exact .after fun rhs => .ret nofun
        | none =>
            cases depth with
            | zero => exact .fail _
            | succ depth =>
                exact returns_primaryExpr nofun nofun nofun (fun _ _ _ _ => nofun)
                  fun _ _ _ _ => nofun
  exact hoperand _ _ _ h

theorem formed_of_parse (h : parse tokens = .ok tree rest) : tree.Formed := by
  have hformed : Returns Exprs.Formed (expr (depthFor tokens.length)) := by
    refine .after fun select => ?_
    cases select with
    | some token => exact (builds _).select
    | none =>
    refine .after fun create => ?_
    cases create with
    | some token =>
        exact .after fun _ => .after fun _ => .after fun _ => .after fun _ => .ret (.createTbl _)
    | none =>
    refine .after fun insert => ?_
    cases insert with
    | some token =>
        exact .after fun _ => .after fun _ => .after fun _ => .after fun _ => .after fun _ =>
          .after fun _ => .after fun _ => .ret (.insert _)
    | none => exact returns_invalidToken
  exact hformed _ _ _ h

end Expressions

end Parser

end HiveDb
