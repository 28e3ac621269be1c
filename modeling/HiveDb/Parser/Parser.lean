import HiveDb.Lib.Reader
import HiveDb.Parser.Expressions

/-!
# The parser

The state of the parser is the list of the tokens from the cursor on; the
cursor never moves back.  `previous()` is only called behind a successful match
and is the token that was matched.  The functions call each other to a depth
that the number of tokens bounds; the bound is an argument of theirs.
-/

namespace HiveDb

open HiveDb.Lib

abbrev Parsing (α : Type) := Prog (List Token) α

namespace Parser

variable {α : Type}

/-- `match(type)`, with the token that `previous()` returns afterwards. -/
def matchType (type : TokenType) : Parsing (Option Token) :=
  accept fun token => if token.type = type then some token else none

/-- `current()`; behind the last token it reads outside of `m_tokens`. -/
def current : Parsing Token := fun tokens =>
  match tokens with
  | [] => .error .undefined []
  | token :: rest => .ok token (token :: rest)

def consume (type : TokenType) (err : String) : Parsing Token := do
  match ← matchType type with
  | some token => return token
  | none => throw (.invalidArgument err)

/-- The last statement of `primaryExpr` and of `expr`. -/
def invalidToken : Parsing α := do
  let token ← current
  throw (.invalidArgument ("Invalid token: " ++ token.name))

def isSpace (c : Char) : Bool := c ∈ [' ', '\t', '\n', '\x0b', '\x0c', '\r']

/-- The sign that a number may begin with. -/
def splitSign : Text → Int × Text
  | '-' :: rest => (-1, rest)
  | '+' :: rest => (1, rest)
  | rest => (1, rest)

/-- The value of a list of decimal digits. -/
def digitsValue (digits : Text) : Nat :=
  digits.foldl (fun n c => 10 * n + (c.toNat - '0'.toNat)) 0

/-- `std::stoi` -/
def stoi (text : Text) : Except Failure Int :=
  let signed := splitSign (text.dropWhile isSpace)
  let digits := signed.2.takeWhile Char.isDigit
  if digits.isEmpty then .error (.invalidArgument "stoi")
  else
    let value := signed.1 * digitsValue digits
    if FitsInt value then .ok value else .error .outOfRange

/-- `std::stof` -/
def stof [FloatUnit] (text : Text) : Except Failure Real32 :=
  match FloatUnit.strtof text with
  | .number value => .ok value
  | .noNumber => .error (.invalidArgument "stof")
  | .outOfRange => .error .outOfRange

/-! ## Expressions -/

section Expressions

/-- The end of `selectExpr`. -/
def fromClause (innerExpr : List Exprs) : Parsing Exprs := do
  match ← matchType .from with
  | some _ => do
      let token ← consume .identifier "Invalid select stmt detected! Invalid token detected"
      return .select innerExpr token.literal
  | none => return .select innerExpr []

variable [FloatUnit]

mutual

def binaryExpr : Nat → Parsing Exprs
  | 0 => throw .outOfFuel
  | depth + 1 => do
      let e ← unaryExpr depth
      match ← accept (·.type.binaryOperator) with
      | some op => do
          let rhs ← binaryExpr depth
          return .binary e op rhs
      | none => return e

def unaryExpr : Nat → Parsing Exprs
  | 0 => throw .outOfFuel
  | depth + 1 => do
      match ← accept (·.type.unaryOperator) with
      | some op => do
          let rhs ← unaryExpr depth
          return .unary op rhs
      | none => primaryExpr depth

def primaryExpr : Nat → Parsing Exprs
  | 0 => throw .outOfFuel
  | depth + 1 => do
      match ← matchType .string with
      | some token => return .literalString token.literal false
      | none =>
      match ← matchType .identifier with
      | some token => return .literalString token.literal true
      | none =>
      match ← matchType .integer with
      | some token => do
          let value ← liftPure (stoi token.data)
          return .literalInt value
      | none =>
      match ← matchType .real with
      | some token => do
          let value ← liftPure (stof token.data)
          return .literalReal value
      | none =>
      match ← matchType .parenthesesL with
      | some _ => do
          match ← matchType .select with
          | some _ => do
              let e ← selectExpr depth
              let _ ← consume .parenthesesR "Missing parentheses."
              return .grouping e
          | none => do
              let e ← binaryExpr depth
              let _ ← consume .parenthesesR "Missing parentheses."
              return .grouping e
      | none =>
      match ← matchType .select with
      | some _ => do
          let e ← selectExpr depth
          return .grouping e
      | none => invalidToken

def selectExpr : Nat → Parsing Exprs
  | 0 => throw .outOfFuel
  | depth + 1 => do
      match ← matchType .parenthesesL with
      | some _ => do
          let e ← binaryExpr depth
          let rest ← commaExprs depth
          let _ ← consume .parenthesesR "INVALID SELECT STMT"
          fromClause (e :: rest)
      | none => do
          let e ← binaryExpr depth
          fromClause [e]

/-- The loop of `selectExpr` over the expressions behind a comma. -/
def commaExprs : Nat → Parsing (List Exprs)
  | 0 => throw .outOfFuel
  | depth + 1 => do
      match ← matchType .comma with
      | some _ => do
          let e ← binaryExpr depth
          let rest ← commaExprs depth
          return e :: rest
      | none => return []

end

end Expressions

/-! ## Statements -/

/-- What follows an element of a parenthesised list: a comma, or the end of the list. -/
inductive ListNext where
  | more | last

/-- The end of the loop bodies of `insertExpr` and `createExpr`. -/
def listNext : Parsing ListNext := do
  match ← matchType .comma with
  | some _ => return .more
  | none =>
  match ← matchType .parenthesesR with
  | some _ => return .last
  | none => throw (.invalidArgument "SHOULDNT REACH THIS!")

/-- `while (!isDone())` around an element that ends with a comma or the closing parenthesis. -/
def whileNotDone (element : Parsing α) : Nat → Parsing (List α)
  | 0 => throw .outOfFuel
  | rounds + 1 => do
      let tokens ← get
      if tokens.isEmpty then return []
      else do
        let a ← element
        match ← listNext with
        | .more => do
            let rest ← whileNotDone element rounds
            return a :: rest
        | .last => return [a]

/-- One round for the column names of an insert statement. -/
def insertColumn : Parsing Text := do
  let token ← consume .identifier "Invalid insert stmt! Missing column!"
  return token.literal

/-- One round for the values of an insert statement. -/
def insertValue [FloatUnit] : Parsing Value := do
  match ← matchType .string with
  | some token => return .text token.literal
  | none =>
  match ← matchType .integer with
  | some token => do
      let value ← liftPure (stoi token.literal)
      return .int value
  | none =>
  match ← matchType .real with
  | some token => do
      let value ← liftPure (stof token.literal)
      return .real value
  | none => throw (.invalidArgument "Unimplemented data type!")

def insertExpr [FloatUnit] (rounds : Nat) : Parsing Exprs := do
  let _ ← consume .into "Invalid insert stmt! Missing INTO."
  let tblName ← consume .identifier "Invalid insert stmt! Where do i insert into?"
  let _ ← consume .parenthesesL "Invalid insert stmt! Missing \"(\" !"
  let columns ← whileNotDone insertColumn rounds
  let _ ← consume .values "Invalid insert stmt! Missing values!!!"
  let _ ← consume .parenthesesL "Invalid insert stmt! Missing values \"(\" !"
  let values ← whileNotDone insertValue rounds
  return .insert ⟨tblName.literal, values, columns⟩

/-- `not null` behind a column's type, which sets `canBeNull`. -/
def notNull : Parsing Bool := do
  match ← matchType .not with
  | some _ => do
      let _ ← consume .null "Invalid create stmt! Wtf are you trying to negate."
      return true
  | none => return false

/-- One round for the columns of a create statement. -/
def createColumn : Parsing TableColumn := do
  let name ← consume .identifier "Invalid create stmt! missing column name!"
  let type ← consume .identifier
    ("Invalid create stmt! missing type for column: " ++ String.ofList name.literal)
  let canBeNull ← notNull
  return ⟨name.literal, type.literal, canBeNull⟩

def createExpr (rounds : Nat) : Parsing Exprs := do
  let _ ← consume .table "Invalid create stmt! Missing TABLE."
  let tblName ← consume .identifier "Invalid create stmt! Missing identifier for table name."
  let _ ← consume .parenthesesL "Invalid create stmt! Missing parantheses!"
  let tblColumns ← whileNotDone createColumn rounds
  return .createTbl ⟨tblName.literal, tblColumns⟩

def expr [FloatUnit] (depth : Nat) : Parsing Exprs := do
  match ← matchType .select with
  | some _ => selectExpr depth
  | none =>
  match ← matchType .create with
  | some _ => createExpr depth
  | none =>
  match ← matchType .insert with
  | some _ => insertExpr depth
  | none => invalidToken

/-- A depth that no statement of so many tokens exceeds. -/
def depthFor (count : Nat) : Nat := 4 * count + 4

def parse [FloatUnit] : Parsing Exprs := fun tokens => expr (depthFor tokens.length) tokens

end Parser

end HiveDb
