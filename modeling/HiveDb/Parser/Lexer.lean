import HiveDb.Lib.Program
import HiveDb.Parser.Tokens

/-!
# The lexer

Two cursors go over the text: `position` is that of `current`, and
`nextPosition` that of the character `peek` shows.  A `std::string` has a NUL
behind its last character, which can be read and be part of a view.
-/

namespace HiveDb

open HiveDb.Lib

structure Lexer where
  input : Text
  position : Nat
  nextPosition : Nat
  current : Char
  tokens : List Token
  deriving DecidableEq, Repr

abbrev Lexing (α : Type) := Prog Lexer α

namespace Lexer

def reservedKeywords : List (Text × TokenType) :=
  [(['s', 'e', 'l', 'e', 'c', 't'], .select), (['f', 'r', 'o', 'm'], .from),
    (['c', 'r', 'e', 'a', 't', 'e'], .create), (['t', 'a', 'b', 'l', 'e'], .table),
    (['n', 'o', 't'], .not), (['n', 'u', 'l', 'l'], .null),
    (['i', 'n', 's', 'e', 'r', 't'], .insert), (['i', 'n', 't', 'o'], .into),
    (['v', 'a', 'l', 'u', 'e', 's'], .values)]

def isLetter (c : Char) : Bool := ('A' ≤ c ∧ c ≤ 'Z') ∨ ('a' ≤ c ∧ c ≤ 'z')

def isDigit (c : Char) : Bool := '0' ≤ c ∧ c ≤ '9'

/-- `lexer(input)` -/
def ofInput (input : Text) : Except Failure Lexer :=
  if input.isEmpty then .error (.invalidArgument "bad input")
  else .ok ⟨input, 0, 1, input.getD 0 '\x00', []⟩

def isAtEnd (l : Lexer) : Bool := l.input.length < l.nextPosition

/-- `m_input[m_nextPosition]` where that is not behind the end. -/
def peek (l : Lexer) : Char :=
  if l.isAtEnd then '\x00' else l.input.getD l.nextPosition '\x00'

def read : Lexing Unit :=
  modify fun l =>
    { l with
      current := if l.isAtEnd then '\x00' else l.input.getD l.nextPosition '\x00'
      position := l.nextPosition
      nextPosition := l.nextPosition + 1 }

def addToken (token : Token) : Lexing Unit :=
  modify fun l => { l with tokens := l.tokens ++ [token] }

/-- A token whose literal is a view into the text, from `start` to the current character. -/
def addView (type : TokenType) (start : Nat) (l : Lexer) : Token :=
  let length := l.position - start + 1
  { type
    literal := ((l.input ++ ['\x00']).drop start).take length
    behind := l.input.drop (start + length) }

/-- `while (…) read();` -/
def readWhile (goesOn : Lexer → Bool) : Nat → Lexing Unit
  | 0 => throw .outOfFuel
  | rounds + 1 => do
      let l ← get
      if goesOn l then do
        read
        readWhile goesOn rounds
      else return ()

/-- No loop over the characters goes on for more rounds. -/
def roundsFor (l : Lexer) : Nat := l.input.length + 1

def addNumber : Lexing Unit := do
  let start ← get
  let currentPos := start.position
  readWhile (fun l => isDigit l.peek) start.roundsFor
  let l ← get
  if l.current = '.' ∧ isDigit l.peek then do
    readWhile (fun l => isDigit l.peek) start.roundsFor
    let l ← get
    addToken (addView .real currentPos l)
  else addToken (addView .integer currentPos l)

def parseString : Lexing Unit := do
  read
  let start ← get
  let currentPos := start.position
  readWhile (fun l => !l.isAtEnd && l.peek != '"') start.roundsFor
  let l ← get
  let str := addView .string currentPos l
  read
  addToken str

/-- The literal of a keyword is the key of the table. -/
def addIdentifier : Lexing Unit := do
  let start ← get
  let currentPos := start.position
  readWhile (fun l => isLetter l.peek) start.roundsFor
  let l ← get
  let keyword := addView .identifier currentPos l
  match reservedKeywords.lookup keyword.literal with
  | some type => addToken ⟨type, keyword.literal, []⟩
  | none => addToken keyword

/-- The cases of the switch of `nextToken` that add a token without a literal. -/
def symbolType : Char → Option TokenType
  | '(' => some .parenthesesL
  | ')' => some .parenthesesR
  | '+' => some .add
  | '-' => some .substract
  | '/' => some .divide
  | '*' => some .star
  | ',' => some .comma
  | '.' => some .dot
  | '!' => some .bang
  | '\x00' => some .eof
  | ';' => some .eof
  | _ => none

/-- The cases of the switch of `nextToken` that add no token. -/
def isBlank (c : Char) : Bool := c = ' ' ∨ c = '\n' ∨ c = '\r' ∨ c = '\t'

def nextToken : Lexing Unit := do
  let l ← get
  match symbolType l.current with
  | some type => addToken ⟨type, [], []⟩
  | none =>
      if l.current = '"' then parseString
      else if isBlank l.current then pure ()
      else if isLetter l.current then addIdentifier
      else if isDigit l.current then addNumber
      else throw (.invalidArgument "unknown identifier")
  read

/-- `while (m_current != '\0') nextToken();` -/
def nextTokens : Nat → Lexing Unit
  | 0 => throw .outOfFuel
  | rounds + 1 => do
      let l ← get
      if l.current = '\x00' then return ()
      else do
        nextToken
        nextTokens rounds

def getTokens : Lexing (List Token) := do
  let l ← get
  nextTokens l.roundsFor
  return (← get).tokens

/-- The tokens of a new lexer over the text. -/
def tokensOf (input : Text) : Except Failure (List Token) := do
  let l ← ofInput input
  match getTokens l with
  | .ok tokens _ => .ok tokens
  | .error failure _ => .error failure

end Lexer

end HiveDb
