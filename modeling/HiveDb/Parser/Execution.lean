import HiveDb.DataTypes.DataTypes
import HiveDb.Lib.Program
import HiveDb.Lib.UnorderedMap

/-!
# The execution of expressions

The lambdas that apply an operator are static variables of `solveExprs`: they
are made when a binary node is solved for the first time in the process, and
they keep the `this` of that node for good.  The process therefore remembers the
tree and the operator of that node, and which trees have been destroyed since.
-/

namespace HiveDb

open HiveDb.Lib

/-- A tree that a parser has returned, by the order in which they were made. -/
abbrev TreeId := Nat

structure FetchedColumn where
  ptr : Nat
  dt : DataTypes
  deriving DecidableEq, Repr

abbrev FetchedDataMap := UnorderedMap Text (List FetchedColumn)

/-- A column reference that was read in a row: what it has found. -/
structure Lookup where
  column : Text
  idx : Nat
  found : Option FetchedColumn
  deriving DecidableEq, Repr

/-- What an expression evaluates to. -/
inductive Evaluated where
  | value (v : Value)
  | vector (values : List Value)
  deriving DecidableEq, Repr

/-- `lookups` is the history of the columns read, `printed` that of the results printed. -/
structure Process where
  captured : Option (TreeId × BinaryOperator) := none
  destroyed : List TreeId := []
  lookups : List Lookup := []
  printed : List Evaluated := []

/-! ## Operators -/

section Operators

variable [FloatUnit]

/-- A result that leaves the range of `int` is undefined. -/
def intResult (n : Int) : Except Failure Int := if FitsInt n then .ok n else .error .undefined

/-- `l op= r` of two ints; division truncates. -/
def BinaryOperator.onInts (op : BinaryOperator) (l r : Int) : Except Failure Int :=
  match op with
  | .add => intResult (l + r)
  | .substract => intResult (l - r)
  | .star => intResult (l * r)
  | .divide => if r = 0 then .error .undefined else intResult (l.tdiv r)

/-- `l op= r` of two floats. -/
def BinaryOperator.onReals (op : BinaryOperator) (l r : Real32) : Real32 :=
  match op with
  | .add => FloatUnit.add l r
  | .substract => FloatUnit.substract l r
  | .star => FloatUnit.multiply l r
  | .divide => FloatUnit.divide l r

/-- `handleSameType`, `handleDifferentTypes` and `handleEitherString`. -/
def BinaryOperator.onValues (op : BinaryOperator) : Value → Value → Except Failure Value
  | .real l, .real r => .ok (.real (op.onReals l r))
  | .int l, .int r => do
      let n ← op.onInts l r
      return .int n
  | .real l, .int r => .ok (.real (op.onReals l (FloatUnit.ofInt r)))
  | .int l, .real r => do
      match FloatUnit.toInt r with
      | some r => do
          let n ← op.onInts l r
          return .int n
      | none => .error .undefined
  | .text _, _ | _, .text _ => .error (.invalidArgument "Cannot whatever strings.")

/-- `applyOperator` and `handleStrings` of `unary_expr`, whatever the operator. -/
def negateValue : Value → Except Failure Value
  | .real x => .ok (.real (FloatUnit.negate x))
  | .int n => do
      let n ← intResult (-n)
      return .int n
  | .text _ => .error (.invalidArgument "Cannot <insert unary operation here> strings!")

/-- `unary_expr::solveExprs` -/
def unarySolve : Evaluated → Except Failure Evaluated
  | .value v => do
      let v ← negateValue v
      return .value v
  | .vector [v] => do
      let v ← negateValue v
      return .vector [v]
  | .vector _ =>
      .error (.invalidArgument "Cannot <insert unary operation here> multiple values!")

/-- The operator that the static lambdas read through the `this` they have kept. -/
def capturedOperator : Prog Process BinaryOperator := do
  match (← get).captured with
  | some (tree, op) =>
      if tree ∈ (← get).destroyed then throw .undefined else return op
  | none => throw .undefined

/-- The first call of `solveExprs` in the process makes the static lambdas. -/
def initializeStatics (tree : TreeId) (op : BinaryOperator) : Prog Process Unit :=
  modify fun process =>
    { process with captured := process.captured.or (some (tree, op)) }

def Value.isText : Value → Bool
  | .text _ => true
  | _ => false

/--
`binary_expr::solveExprs` behind the static variables.  Beside a vector of one
value the code uses references that an earlier call has left behind; no
expression evaluates to such a vector.
-/
def solveValues : Evaluated → Evaluated → Prog Process Evaluated
  | .value l, .value r =>
      if l.isText || r.isText then throw (.invalidArgument "Cannot whatever strings.")
      else do
        let op ← capturedOperator
        let v ← liftPure (op.onValues l r)
        return .value v
  | .value l, .vector r =>
      if l.isText then throw (.invalidArgument "Cannot whatever strings.")
      else if r.length ≠ 1 then
        throw (.invalidArgument "Cannot <binary expression> something something.")
      else throw .undefined
  | .vector l, .value r =>
      if r.isText then throw (.invalidArgument "Cannot whatever strings.")
      else if l.length ≠ 1 then
        throw (.invalidArgument "Cannot <binary expression> something something.")
      else throw .undefined
  | .vector l, .vector r =>
      if l.length ≠ 1 ∧ r.length ≠ 1 then
        throw (.invalidArgument "Cannot <binary expression> something something.")
      else
        match l, r with
        | l :: ls, r :: _ =>
            if l.isText || r.isText then throw (.invalidArgument "Cannot whatever strings.")
            else do
              let op ← capturedOperator
              let v ← liftPure (op.onValues l r)
              return .vector (v :: ls)
        | _, _ => throw .undefined

/-- `binary_expr::solveExprs` of a node of the tree. -/
def binarySolve (tree : TreeId) (op : BinaryOperator) (l r : Evaluated) :
    Prog Process Evaluated := do
  initializeStatics tree op
  solveValues l r

end Operators

/-! ## The trees -/

section Trees

variable [FloatUnit]

/-- What a select of several expressions adds for one of them. -/
def singleValue : Evaluated → Except Failure Value
  | .value v => .ok v
  | .vector [v] => .ok v
  | .vector _ => .error (.invalidArgument "An expression cannot return more than 1 value!")

mutual

/-- `execute` of a node of the tree, given what an identifier evaluates to. -/
def Exprs.executeWith (column : Text → Prog Process Evaluated) (tree : TreeId) :
    Exprs → Prog Process Evaluated
  | .literalInt value => return .value (.int value)
  | .literalReal value => return .value (.real value)
  | .literalString value isIdentifier =>
      if isIdentifier then column value else return .value (.text value)
  | .unary _ rhs => do
      let e ← rhs.executeWith column tree
      liftPure (unarySolve e)
  | .grouping expr => expr.executeWith column tree
  | .binary lhs op rhs => do
      let l ← lhs.executeWith column tree
      let r ← rhs.executeWith column tree
      binarySolve tree op l r
  | .createTbl _ | .insert _ => throw (.invalidArgument "INVALID CALL!")
  | .select [expr] _ => expr.executeWith column tree
  | .select innerExpr _ => do
      let values ← executeAll column tree innerExpr
      return .vector values

/-- The loop of `select_expr::execute` over its expressions. -/
def executeAll (column : Text → Prog Process Evaluated) (tree : TreeId) :
    List Exprs → Prog Process (List Value)
  | [] => return []
  | expr :: rest => do
      let e ← expr.executeWith column tree
      let v ← liftPure (singleValue e)
      let values ← executeAll column tree rest
      return v :: values

end

/--
What holds of each part of an execution, and of a sequence when it holds of both
of its parts, holds of the execution.  There is one case for each kind of node,
and two for the expressions of a select.
-/
theorem executeWith_of_parts {P : ∀ {α : Type}, Prog Process α → Prop}
    {column : Text → Prog Process Evaluated} {tree : TreeId}
    (ret : ∀ {α : Type} (a : α), P (pure a : Prog Process α))
    (bind : ∀ {α β : Type} {x : Prog Process α} {f : α → Prog Process β},
      P x → (∀ a, P (f a)) → P (x >>= f))
    (hcolumn : ∀ name, P (column name))
    (hinvalid : P (throw (.invalidArgument "INVALID CALL!") : Prog Process Evaluated))
    (hunary : ∀ e, P (liftPure (unarySolve e) : Prog Process Evaluated))
    (hbinary : ∀ op l r, P (binarySolve tree op l r))
    (hsingle : ∀ e, P (liftPure (singleValue e) : Prog Process Value)) (e : Exprs) :
    P (e.executeWith column tree) := by
  induction e using Exprs.executeWith.induct
    (motive_2 := fun es => P (executeAll column tree es)) with
  | case1 value => exact ret _
  | case2 value => exact ret _
  | case3 value => exact hcolumn value
  | case4 value isIdentifier hname =>
      simp only [Exprs.executeWith, hname]
      exact ret _
  | case5 op rhs ih => exact bind ih hunary
  | case6 expr ih => exact ih
  | case7 lhs op rhs ihl ihr => exact bind ihl fun l => bind ihr fun r => hbinary op l r
  | case8 statement => exact hinvalid
  | case9 statement => exact hinvalid
  | case10 expr tblName ih => exact ih
  | case11 innerExpr tblName hseveral ih =>
      rw [Exprs.executeWith.eq_10 _ _ _ _ hseveral]
      exact bind ih fun values => ret _
  | case12 => exact ret _
  | case13 expr rest ih ihrest =>
      exact bind ih fun e => bind (hsingle e) fun v => bind ihrest fun values => ret _

/-- `execute()`: an identifier stands for its name. -/
def Exprs.execute (tree : TreeId) (e : Exprs) : Prog Process Evaluated :=
  e.executeWith (fun name => return .value (.text name)) tree

/-- The value of a column, by its type. -/
def deserializeColumn (data : List Cell) (heap : Heap) (clm : FetchedColumn) :
    Except Failure Value :=
  match clm.dt with
  | .integer => do
      let n ← Integer.deserialize data clm.ptr
      return .int n
  | .real => do
      let x ← Real.deserialize data clm.ptr
      return .real x
  | .varchar => do
      let s ← Varchar.deserialize data clm.ptr heap
      return .text s

/-- The value of the column that a name has found. -/
def readColumn (data : List Cell) (heap : Heap) (name : Text) (idx : Nat)
    (found : Option FetchedColumn) : Prog Process Evaluated := do
  modify fun process => { process with lookups := process.lookups ++ [⟨name, idx, found⟩] }
  match found with
  | some clm => do
      let v ← liftPure (deserializeColumn data heap clm)
      return .value v
  | none => throw .undefined

/-- `fetched_data.find(value)->second[idx]` and its value. -/
def columnInRow (data : List Cell) (heap : Heap) (fetchedData : FetchedDataMap) (idx : Nat)
    (name : Text) : Prog Process Evaluated :=
  readColumn data heap name idx ((fetchedData.find? name).bind (·[idx]?))

/-- `execute(fetched_data, idx)` -/
def Exprs.executeInRow (data : List Cell) (heap : Heap) (fetchedData : FetchedDataMap)
    (idx : Nat) (tree : TreeId) (e : Exprs) : Prog Process Evaluated :=
  e.executeWith (columnInRow data heap fetchedData idx) tree

end Trees

end HiveDb
