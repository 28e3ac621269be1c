import HiveDb.Misc.Config

/-!
# Tokens

A `char` of the source is a `Char` here and a text a list of them.  The literal
of a token is a view: `literal.data()` is the text from there to the end of the
buffer that the view points into.
-/

namespace HiveDb

abbrev Text := List Char

inductive TokenType where
  | select | from
  | create | table | not | null
  | insert | into | values
  | parenthesesL | parenthesesR
  | add | substract | star | divide | bang
  | quote | comma | dot
  | identifier | string | integer | real
  | eof
  | illegal
  deriving DecidableEq, Repr

/-- `behind` is what follows the literal in its buffer. -/
structure Token where
  type : TokenType
  literal : Text := []
  behind : Text := []
  deriving DecidableEq, Repr

def getTokenType : TokenType → String
  | .illegal => "illegal"
  | .eof => "eof"
  | .parenthesesL => "parenthesesL"
  | .parenthesesR => "parenthesesR"
  | .add => "add"
  | .select => "select"
  | .from => "from"
  | .identifier => "identifier"
  | .quote => "quote"
  | .bang => "bang"
  | .comma => "comma"
  | .dot => "dot"
  | .string => "string"
  | _ => "unknown yet"

namespace Token

def name (token : Token) : String :=
  if token.literal.isEmpty then getTokenType token.type
  else String.ofList token.literal ++ " " ++ getTokenType token.type

/-- `operator==` -/
def Equal (lhs rhs : Token) : Prop := lhs.literal = rhs.literal ∧ lhs.type = rhs.type

/-- The C string at `literal.data()`. -/
def data (token : Token) : Text := (token.literal ++ token.behind).takeWhile (· ≠ '\x00')

end Token

end HiveDb
