import HiveDb.Parser.Consumption
import HiveDb.Parser.Lexer

/-!
# Rendering

The tokens that spell a statement, and the trees that the grammar produces.
Parsing the tokens of such a tree returns the tree and leaves what follows,
unless that begins with a token that the statement would go on with.
-/

namespace HiveDb

open HiveDb.Parser

/-! ## Tokens -/

/-- A keyword as the table of the lexer has it. -/
def Token.keyword (type : TokenType) : Token :=
  ⟨type, ((Lexer.reservedKeywords.find? fun entry => entry.2 = type).map Prod.fst).getD [], []⟩

/-- A token without a literal. -/
def Token.symbol (type : TokenType) : Token := ⟨type, [], []⟩

def UnaryOperator.type : UnaryOperator → TokenType
  | .substract => .substract
  | .bang => .bang

def BinaryOperator.type : BinaryOperator → TokenType
  | .add => .add
  | .substract => .substract
  | .divide => .divide
  | .star => .star

@[simp] theorem UnaryOperator.unaryOperator_type (op : UnaryOperator) :
    op.type.unaryOperator = some op := by
  cases op <;> rfl

@[simp] theorem BinaryOperator.binaryOperator_type (op : BinaryOperator) :
    op.type.binaryOperator = some op := by
  cases op <;> rfl

/-- `std::stoi` and `std::stof` read the literal of a number and nothing behind it. -/
structure Token.ReadsLiteral [FloatUnit] (token : Token) : Prop where
  integer : token.type = .integer → stoi token.data = stoi token.literal
  real : token.type = .real → stof token.data = stof token.literal

/-- The token is the rendered one, and a number that it spells is read as such. -/
structure Token.Spells [FloatUnit] (token rendered : Token) : Prop where
  equal : token.Equal rendered
  readsLiteral : token.ReadsLiteral

/-! ## Lists in parentheses -/

section Lists

variable {α : Type}

/-- The elements behind the first one, each behind a comma, and the closing parenthesis. -/
def renderRest (render : α → List Token) : List α → List Token
  | [] => [.symbol .parenthesesR]
  | a :: rest => .symbol .comma :: render a ++ renderRest render rest

/-- A list and its closing parenthesis. -/
def renderListed (render : α → List Token) : List α → List Token
  | [] => [.symbol .parenthesesR]
  | a :: rest => render a ++ renderRest render rest

end Lists

/-! ## Statements and expressions -/

/-- The decimal digits of a number that is not negative. -/
def renderInt (value : Int) : Token := ⟨.integer, Nat.toDigits 10 value.toNat, []⟩

section Render

-- a text for each `float`
variable (realText : Real32 → Text)

def Value.render : Value → Token
  | .real value => ⟨.real, realText value, []⟩
  | .int value => renderInt value
  | .text value => ⟨.string, value, []⟩

def TableColumn.render (column : TableColumn) : List Token :=
  [⟨.identifier, column.name, []⟩, ⟨.identifier, column.type, []⟩] ++
    if column.canBeNull then [.keyword .not, .keyword .null] else []

def CreateTblExpr.render (statement : CreateTblExpr) : List Token :=
  [.keyword .create, .keyword .table, ⟨.identifier, statement.tblName, []⟩,
    .symbol .parenthesesL] ++ renderListed TableColumn.render statement.tblColumns

def InsertExpr.render (statement : InsertExpr) : List Token :=
  [.keyword .insert, .keyword .into, ⟨.identifier, statement.tblName, []⟩,
    .symbol .parenthesesL] ++
      renderListed (fun column => [⟨.identifier, column, []⟩]) statement.columns ++
    ([.keyword .values, .symbol .parenthesesL] ++
      renderListed (fun value => [value.render realText]) statement.values)

/-- `from t`, which a select without a table has not. -/
def renderFrom (tblName : Text) : List Token :=
  if tblName.isEmpty then [] else [.keyword .from, ⟨.identifier, tblName, []⟩]

mutual

def Exprs.render : Exprs → List Token
  | .literalInt value => [renderInt value]
  | .literalReal value => [⟨.real, realText value, []⟩]
  | .literalString value isIdentifier =>
      [⟨if isIdentifier then .identifier else .string, value, []⟩]
  | .unary op rhs => .symbol op.type :: rhs.render
  | .grouping expr => .symbol .parenthesesL :: expr.render ++ [.symbol .parenthesesR]
  | .binary lhs op rhs => lhs.render ++ .symbol op.type :: rhs.render
  | .createTbl statement => statement.render
  | .insert statement => statement.render realText
  | .select innerExpr tblName =>
      .keyword .select :: .symbol .parenthesesL :: renderExprs innerExpr ++ renderFrom tblName

/-- The expressions of a select and the closing parenthesis. -/
def renderExprs : List Exprs → List Token
  | [] => [.symbol .parenthesesR]
  | e :: rest => e.render ++ renderMore rest

def renderMore : List Exprs → List Token
  | [] => [.symbol .parenthesesR]
  | e :: rest => .symbol .comma :: e.render ++ renderMore rest

end

/-- A comma or a closing parenthesis comes behind each expression of a list. -/
theorem renderMore_first (es : List Exprs) :
    ∃ first others, renderMore realText es = first :: others ∧
      first.type.binaryOperator = none := by
  cases es with
  | nil => exact ⟨_, _, rfl, rfl⟩
  | cons e rest =>
      rw [renderMore]
      exact ⟨_, _, rfl, rfl⟩

end Render

/-! ## The grammar -/

/-- The functions of the parser that an expression is read by. -/
inductive Level where
  | primary | unary | binary | select

section Grammar

variable [FloatUnit] (realText : Real32 → Text)

/-- The number is spelled by digits that `std::stoi` reads. -/
def Spelled (value : Int) : Prop := 0 ≤ value ∧ value ≤ 2147483647

/-- The trees of the grammar, by the function that reads them. -/
inductive Produces : Level → Exprs → Prop where
  | literalInt {value : Int} (hvalue : Spelled value) : Produces .primary (.literalInt value)
  | literalReal {value : Real32} (hvalue : stof (realText value) = .ok value) :
      Produces .primary (.literalReal value)
  | literalString (value : Text) (isIdentifier : Bool) :
      Produces .primary (.literalString value isIdentifier)
  | grouping {e : Exprs} (he : Produces .binary e) : Produces .primary (.grouping e)
  | groupedSelect {e : Exprs} (he : Produces .select e) : Produces .primary (.grouping e)
  | unary {rhs : Exprs} (op : UnaryOperator) (hrhs : Produces .unary rhs) :
      Produces .unary (.unary op rhs)
  | ofPrimary {e : Exprs} (he : Produces .primary e) : Produces .unary e
  | binary {lhs rhs : Exprs} (op : BinaryOperator) (hlhs : Produces .unary lhs)
      (hrhs : Produces .binary rhs) : Produces .binary (.binary lhs op rhs)
  | ofUnary {e : Exprs} (he : Produces .unary e) : Produces .binary e
  | select {innerExpr : List Exprs} (tblName : Text) (hne : innerExpr ≠ [])
      (hinner : ∀ e ∈ innerExpr, Produces .binary e) : Produces .select (.select innerExpr tblName)

def Value.Produced : Value → Prop
  | .real value => stof (realText value) = .ok value
  | .int value => Spelled value
  | .text _ => True

/-- The statements that can be written down. -/
def Exprs.Statement : Exprs → Prop
  | .createTbl statement => statement.tblColumns ≠ []
  | .insert statement =>
      statement.columns ≠ [] ∧ statement.values ≠ [] ∧
        ∀ value ∈ statement.values, value.Produced realText
  | statement => Produces realText .select statement

end Grammar

/-- The statement goes on with a token of this type. -/
def Exprs.goesOnWith : Exprs → TokenType → Bool
  | .select _ [], .from => true
  | _, _ => false

end HiveDb
