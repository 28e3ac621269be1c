import HiveDb.Parser.Tokens

/-!
# Expressions and statements

The trees that the parser builds.  A `float` is its bit pattern; what the
machine does with such patterns is a parameter of everything that computes with
them.
-/

namespace HiveDb

/-- A `float`. -/
abbrev Real32 := UInt32

/-- What reading a number from a text has come to. -/
inductive Conversion (α : Type) where
  | number (value : α)
  | noNumber
  | outOfRange

/-- The floating point operations of the platform. -/
class FloatUnit where
  add : Real32 → Real32 → Real32
  substract : Real32 → Real32 → Real32
  multiply : Real32 → Real32 → Real32
  divide : Real32 → Real32 → Real32
  negate : Real32 → Real32
  ofInt : Int → Real32
  /-- Truncation; `none` when the value does not fit an `int`. -/
  toInt : Real32 → Option Int
  strtof : Text → Conversion Real32

namespace FloatUnit

/-- Digits with an optional point and more digits. -/
def decimal (text : Text) : Conversion Real32 :=
  let whole := text.takeWhile Char.isDigit
  let fraction :=
    match text.dropWhile Char.isDigit with
    | '.' :: rest => rest.takeWhile Char.isDigit
    | _ => []
  let digits := whole ++ fraction
  if digits.isEmpty then .noNumber
  else
    let mantissa := digits.foldl (fun n c => 10 * n + (c.toNat - '0'.toNat)) 0
    .number (Float32.ofScientific mantissa true fraction.length).toBits

/-- A platform with binary32 floats. -/
@[reducible] def binary32 : FloatUnit where
  add l r := (Float32.ofBits l + Float32.ofBits r).toBits
  substract l r := (Float32.ofBits l - Float32.ofBits r).toBits
  multiply l r := (Float32.ofBits l * Float32.ofBits r).toBits
  divide l r := (Float32.ofBits l / Float32.ofBits r).toBits
  negate x := (-Float32.ofBits x).toBits
  ofInt n := (Float32.ofInt n).toBits
  toInt x :=
    let value := Float32.ofBits x
    if Float32.ofInt (-2147483648) ≤ value ∧ value < Float32.ofInt 2147483648 then
      some value.toInt32.toInt
    else none
  strtof := decimal

end FloatUnit

/-- The value fits an `int`. -/
def FitsInt (n : Int) : Prop := -2147483648 ≤ n ∧ n ≤ 2147483647

instance (n : Int) : Decidable (FitsInt n) :=
  inferInstanceAs (Decidable (-2147483648 ≤ n ∧ n ≤ 2147483647))

/-- `exprs::values` -/
inductive Value where
  | real (value : Real32)
  | int (value : Int)
  | text (value : Text)
  deriving DecidableEq, Repr

inductive UnaryOperator where
  | substract | bang
  deriving DecidableEq, Repr

inductive BinaryOperator where
  | add | substract | divide | star
  deriving DecidableEq, Repr

/-- The token types that `unaryExpr` matches. -/
def TokenType.unaryOperator : TokenType → Option UnaryOperator
  | .substract => some .substract
  | .bang => some .bang
  | _ => none

/-- The token types that `binaryExpr` matches. -/
def TokenType.binaryOperator : TokenType → Option BinaryOperator
  | .add => some .add
  | .substract => some .substract
  | .divide => some .divide
  | .star => some .star
  | _ => none

structure TableColumn where
  name : Text
  type : Text
  canBeNull : Bool
  deriving DecidableEq, Repr

structure CreateTblExpr where
  tblName : Text
  tblColumns : List TableColumn
  deriving DecidableEq, Repr

structure InsertExpr where
  tblName : Text
  values : List Value
  columns : List Text
  deriving DecidableEq, Repr

/-- `exprs`; the three kinds of `literal_expr` are constructors of their own. -/
inductive Exprs where
  | literalInt (value : Int)
  | literalReal (value : Real32)
  | literalString (value : Text) (isIdentifier : Bool)
  | unary (op : UnaryOperator) (rhs : Exprs)
  | grouping (expr : Exprs)
  | binary (lhs : Exprs) (op : BinaryOperator) (rhs : Exprs)
  | createTbl (statement : CreateTblExpr)
  | insert (statement : InsertExpr)
  | select (innerExpr : List Exprs) (tblName : Text)

/-! ## The columns that an expression refers to -/

mutual

/-- `retriveColumns`, which appends to the columns found so far. -/
def Exprs.retriveColumns : Exprs → List Text → Except Failure (List Text)
  | .literalInt _, columns | .literalReal _, columns => .ok columns
  | .literalString value isIdentifier, columns =>
      .ok (if isIdentifier then columns ++ [value] else columns)
  | .unary _ rhs, columns => rhs.retriveColumns columns
  | .grouping expr, columns => expr.retriveColumns columns
  | .binary lhs _ rhs, columns => do
      let columns ← lhs.retriveColumns columns
      rhs.retriveColumns columns
  | .createTbl _, _ | .insert _, _ => .error (.invalidArgument "INVALID CALL!")
  | .select innerExpr _, columns => retriveColumnsOfAll innerExpr columns

/-- The loop over the inner expressions of a select. -/
def retriveColumnsOfAll : List Exprs → List Text → Except Failure (List Text)
  | [], columns => .ok columns
  | expr :: rest, columns => do
      let columns ← expr.retriveColumns columns
      retriveColumnsOfAll rest columns

end

def retriveColumnsToBeFetched (innerExpr : List Exprs) : Except Failure (List Text) :=
  retriveColumnsOfAll innerExpr []

end HiveDb
