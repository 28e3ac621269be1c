import HiveDb.Parser.Consumption

/-!
# The cursor

The functions of the parser that touch `m_tokens`, with the index of the cursor
and the unchecked accesses of the source.  The rest of the parser is written
over the tokens from the cursor on: a program over them is one over the cursor
as well, and the steps that it is made of are the functions of this module.
-/

namespace HiveDb

open HiveDb.Lib

/-- `m_tokens` and `m_cursor`. -/
structure Cursor where
  tokens : List Token
  cursor : Nat

namespace Cursor

variable {α β : Type}

/-- `m_tokens[i]`, which is not checked. -/
def element (i : Nat) : Prog Cursor Token := fun c =>
  match c.tokens[i]? with
  | some token => .ok token c
  | none => .error .undefined c

def current : Prog Cursor Token := do
  let c ← get
  liftPure (assertThat (c.cursor ≤ c.tokens.length))
  element c.cursor

def previous : Prog Cursor Token := do
  let c ← get
  liftPure (assertThat (c.cursor ≠ 0))
  element (c.cursor - 1)

def isDone : Prog Cursor Bool := do
  let c ← get
  return decide (c.tokens.length ≤ c.cursor)

def advance : Prog Cursor Token := do
  if ← isDone then previous
  else do
    modify fun c => { c with cursor := c.cursor + 1 }
    previous

def check (type : TokenType) : Prog Cursor Bool := do
  if ← isDone then return false
  else do
    let token ← current
    return decide (token.type = type)

/-- `(... || check(types))` -/
def checkAny : List TokenType → Prog Cursor Bool
  | [] => return false
  | type :: types => do
      if ← check type then return true else checkAny types

/-- `match(types...)` -/
def matchTypes (types : List TokenType) : Prog Cursor Bool := do
  if ← checkAny types then do
    let _ ← advance
    return true
  else return false

def consume (type : TokenType) (err : String) : Prog Cursor Unit := do
  if ← matchTypes [type] then return () else throw (.invalidArgument err)

/-! ## Programs over the tokens from the cursor on -/

def rest (c : Cursor) : List Token := c.tokens.drop c.cursor

/-- Move the cursor to where the given tokens are left. -/
def seek (rest : List Token) (c : Cursor) : Cursor :=
  { c with cursor := c.tokens.length - rest.length }

def follow (x : Parsing α) : Prog Cursor α := onPart rest seek x

/-- `m_cursor <= m_tokens.size()` -/
def InRange (c : Cursor) : Prop := c.cursor ≤ c.tokens.length

section Steps

variable {c : Cursor} {token : Token} {tokens : List Token}

theorem rest_nil_iff : c.rest = [] ↔ c.tokens.length ≤ c.cursor := List.drop_eq_nil_iff

theorem getElem?_of_rest (h : c.rest = token :: tokens) : c.tokens[c.cursor]? = some token := by
  have hhead : (c.tokens.drop c.cursor)[0]? = some token := by
    rw [show c.tokens.drop c.cursor = token :: tokens from h]
    rfl
  rwa [List.getElem?_drop, Nat.add_zero] at hhead

theorem lt_of_rest (h : c.rest = token :: tokens) : c.cursor < c.tokens.length :=
  (List.getElem?_eq_some_iff.mp (getElem?_of_rest h)).1

theorem seek_rest (hrange : c.InRange) : c.seek c.rest = c := by
  obtain ⟨all, cursor⟩ := c
  simp only [seek, rest, List.length_drop, InRange, Cursor.mk.injEq, true_and] at hrange ⊢
  omega

/-- The cursor can be moved to every end of the tokens that are left. -/
theorem rest_seek (h : tokens <:+ c.rest) : (c.seek tokens).rest = tokens := by
  have hsuffix : tokens <:+ c.tokens := h.trans (List.drop_suffix _ _)
  exact (List.suffix_iff_eq_drop.mp hsuffix).symm

theorem seek_behind (h : c.rest = token :: tokens) :
    c.seek tokens = { c with cursor := c.cursor + 1 } := by
  have hlength := congrArg List.length h
  have hlt := lt_of_rest h
  simp only [rest, List.length_drop, List.length_cons] at hlength
  simp only [seek, Cursor.mk.injEq, true_and]
  omega

theorem current_of_rest (h : c.rest = token :: tokens) : current c = .ok token c := by
  have hassert : assertThat (c.cursor ≤ c.tokens.length) = .ok () :=
    assertThat_of (Nat.le_of_lt (lt_of_rest h))
  simp only [current, element, bind_apply, get_apply, hassert, liftPure_ok, getElem?_of_rest h]

/-- Behind the last token the assertion holds, and there is nothing to read. -/
theorem current_at_end (hrange : c.InRange) (h : c.rest = []) :
    current c = .error .undefined c := by
  have hnone : c.tokens[c.cursor]? = none := List.getElem?_eq_none (rest_nil_iff.mp h)
  have hassert : assertThat (c.cursor ≤ c.tokens.length) = .ok () := assertThat_of hrange
  simp only [current, element, bind_apply, get_apply, hassert, liftPure_ok, hnone]

theorem previous_behind (h : c.rest = token :: tokens) :
    previous (c.seek tokens) = .ok token (c.seek tokens) := by
  rw [seek_behind h]
  have hassert : assertThat (c.cursor + 1 ≠ 0) = .ok () := assertThat_of (Nat.succ_ne_zero _)
  simp only [previous, element, bind_apply, get_apply, hassert, liftPure_ok, Nat.add_sub_cancel,
    getElem?_of_rest h]

theorem isDone_of_rest (h : c.rest = token :: tokens) : isDone c = .ok false c := by
  simp [isDone, bind_apply, lt_of_rest h]

theorem isDone_at_end (h : c.rest = []) : isDone c = .ok true c := by
  simp [isDone, bind_apply, rest_nil_iff.mp h]

theorem checkAny_of_rest (h : c.rest = token :: tokens) (types : List TokenType) :
    checkAny types c = .ok (decide (token.type ∈ types)) c := by
  induction types with
  | nil => rfl
  | cons type types ih =>
      have hcheck : check type c = .ok (decide (token.type = type)) c := by
        rw [check, bind_of_ok (isDone_of_rest h)]
        exact bind_of_ok (current_of_rest h)
      rw [checkAny, bind_of_ok hcheck]
      by_cases htype : token.type = type
      · simp [htype]
      · simpa [htype] using ih

theorem checkAny_at_end (h : c.rest = []) (types : List TokenType) :
    checkAny types c = .ok false c := by
  induction types with
  | nil => rfl
  | cons type types ih =>
      have hcheck : check type c = .ok false c := by
        simp [check, bind_apply, isDone_at_end h]
      rw [checkAny, bind_of_ok hcheck]
      exact ih

theorem matchTypes_hit {types : List TokenType} (h : c.rest = token :: tokens)
    (htype : token.type ∈ types) : matchTypes types c = .ok true (c.seek tokens) := by
  have hany := checkAny_of_rest h types
  rw [decide_eq_true htype] at hany
  have hprevious := previous_behind h
  rw [seek_behind h] at hprevious ⊢
  have hadvance : advance c = .ok token { c with cursor := c.cursor + 1 } := by
    rw [advance, bind_of_ok (isDone_of_rest h)]
    exact hprevious
  rw [matchTypes, bind_of_ok hany]
  exact bind_of_ok hadvance

theorem matchTypes_miss {types : List TokenType}
    (htype : ∀ next ∈ c.rest.head?, next.type ∉ types) : matchTypes types c = .ok false c := by
  have hany : checkAny types c = .ok false c := by
    cases h : c.rest with
    | nil => exact checkAny_at_end h types
    | cons token tokens =>
        rw [h] at htype
        have hany := checkAny_of_rest h types
        rwa [decide_eq_false (htype token rfl)] at hany
  rw [matchTypes, bind_of_ok hany]
  rfl

/-! ## The steps of the parser are those of the cursor -/

/-- What returns leaves the cursor where `current()` may be called. -/
theorem inRange_of_follow {x : Parsing α} {a : α} {c' : Cursor} (h : follow x c = .ok a c') :
    c'.InRange ∧ c'.tokens = c.tokens := by
  obtain ⟨others, _, rfl⟩ := onPart_eq_ok_iff.mp h
  exact ⟨Nat.sub_le _ _, rfl⟩

/-- `match` with `previous()` behind it where it succeeds. -/
theorem follow_accept {g : Token → Option α} {types : List TokenType}
    (hg : ∀ token, (g token).isSome ↔ token.type ∈ types) (hrange : c.InRange) :
    follow (accept g) c =
      (do
        if ← matchTypes types then do
          let token ← previous
          return g token
        else return none : Prog Cursor (Option α)) c := by
  rcases accept_cases (ε := Failure) g c.rest with
    ⟨first, others, a, hrest, htaken, hrun⟩ | ⟨hnone, hrun⟩
  · have htype : first.type ∈ types := by
      rw [← hg, htaken]
      rfl
    rw [bind_of_ok (matchTypes_hit hrest htype)]
    have hreturns :
        (do
          let token ← previous
          return g token : Prog Cursor (Option α)) (c.seek others) =
            .ok (some a) (c.seek others) := by
      rw [bind_of_ok (previous_behind hrest), htaken]
      rfl
    exact (onPart_of_ok hrun).trans hreturns.symm
  · have htype : ∀ next ∈ c.rest.head?, next.type ∉ types := by
      intro next hnext hin
      rw [← hg, hnone next hnext] at hin
      cases hin
    rw [bind_of_ok (matchTypes_miss htype)]
    refine (onPart_of_ok hrun).trans ?_
    rw [seek_rest hrange]
    rfl

theorem follow_matchType (type : TokenType) (hrange : c.InRange) :
    follow (Parser.matchType type) c =
      (do
        if ← matchTypes [type] then do
          let token ← previous
          return if token.type = type then some token else none
        else return none : Prog Cursor (Option Token)) c := by
  refine follow_accept (fun token => ?_) hrange
  by_cases h : token.type = type <;> simp [h]

theorem follow_unaryOperator (hrange : c.InRange) :
    follow (accept fun token => token.type.unaryOperator) c =
      (do
        if ← matchTypes [.substract, .bang] then do
          let token ← previous
          return token.type.unaryOperator
        else return none : Prog Cursor (Option UnaryOperator)) c := by
  refine follow_accept (fun token => ?_) hrange
  cases token.type <;> simp [TokenType.unaryOperator]

theorem follow_binaryOperator (hrange : c.InRange) :
    follow (accept fun token => token.type.binaryOperator) c =
      (do
        if ← matchTypes [.add, .substract, .divide, .star] then do
          let token ← previous
          return token.type.binaryOperator
        else return none : Prog Cursor (Option BinaryOperator)) c := by
  refine follow_accept (fun token => ?_) hrange
  cases token.type <;> simp [TokenType.binaryOperator]

/-- The error messages of `primaryExpr` and `expr`. -/
theorem follow_invalidToken (hrange : c.InRange) :
    follow (Parser.invalidToken : Parsing α) c =
      (do
        let token ← current
        throw (.invalidArgument ("Invalid token: " ++ token.name)) : Prog Cursor α) c := by
  cases h : c.rest with
  | nil =>
      have hrun : (Parser.invalidToken : Parsing α) c.rest = .error .undefined c.rest := by
        rw [h]
        rfl
      rw [bind_of_error (current_at_end hrange h)]
      exact onPart_eq_error_iff.mpr ⟨c.rest, hrun, (seek_rest hrange).symm⟩
  | cons token tokens =>
      have hrun : (Parser.invalidToken : Parsing α) c.rest =
          .error (.invalidArgument ("Invalid token: " ++ token.name)) c.rest := by
        rw [h]
        rfl
      rw [bind_of_ok (current_of_rest h)]
      exact onPart_eq_error_iff.mpr ⟨c.rest, hrun, (seek_rest hrange).symm⟩

theorem follow_consume (type : TokenType) (err : String) (hrange : c.InRange) :
    follow (Parser.consume type err) c =
      (do
        consume type err
        previous : Prog Cursor Token) c := by
  rcases Parser.consume_cases type err c.rest with
    ⟨token, others, hrest, htype, hrun⟩ | ⟨hmiss, hrun⟩
  · have hconsume : consume type err c = .ok () (c.seek others) := by
      rw [consume, bind_of_ok (matchTypes_hit hrest (by simp [htype]))]
      rfl
    rw [bind_of_ok hconsume, previous_behind hrest]
    exact onPart_of_ok hrun
  · have hconsume : consume type err c = .error (.invalidArgument err) c := by
      rw [consume, bind_of_ok (matchTypes_miss (by simpa using hmiss))]
      rfl
    rw [bind_of_error hconsume]
    exact onPart_eq_error_iff.mpr ⟨c.rest, hrun, (seek_rest hrange).symm⟩

/-- The condition of the loops over a list. -/
theorem isDone_eq (c : Cursor) : isDone c = .ok c.rest.isEmpty c := by
  cases h : c.rest with
  | nil => exact isDone_at_end h
  | cons token tokens => exact isDone_of_rest h

/-- One program behind another. -/
theorem follow_bind {x : Parsing α} {f : α → Parsing β} (hx : Local x) :
    follow (x >>= f) c = (do
      let a ← follow x
      follow (f a) : Prog Cursor β) c := by
  cases hrun : x c.rest with
  | error failure s =>
      have hfirst : follow x c = .error failure (c.seek s) :=
        onPart_eq_error_iff.mpr ⟨s, hrun, rfl⟩
      rw [bind_of_error hfirst]
      exact onPart_eq_error_iff.mpr ⟨s, bind_of_error hrun, rfl⟩
  | ok a others =>
      have hfirst : follow x c = .ok a (c.seek others) := onPart_of_ok hrun
      have hothers : (c.seek others).rest = others := by
        obtain ⟨read, hread, _⟩ := hx _ _ _ hrun
        exact rest_seek (hread ▸ List.suffix_append read others)
      rw [bind_of_ok hfirst]
      show onPart rest seek (x >>= f) c = onPart rest seek (f a) (c.seek others)
      simp only [onPart, bind_of_ok hrun, hothers]
      cases f a others <;> rfl

end Steps

/-- `parse()` of the parser at the cursor. -/
def parse [FloatUnit] : Prog Cursor Exprs := follow Parser.parse

/-- A program leaves the process running at the cursor if it does so on the tokens. -/
theorem leaves_follow_iff {x : Parsing α} {c : Cursor} :
    (∃ c', Leaves (follow x) c c') ↔ ∃ s, Leaves x c.rest s := by
  constructor
  · rintro ⟨_, ⟨a, hrun⟩ | ⟨failure, hexception, hrun⟩⟩
    · obtain ⟨s, hreturns, _⟩ := onPart_eq_ok_iff.mp hrun
      exact ⟨s, .inl ⟨a, hreturns⟩⟩
    · obtain ⟨s, hthrows, _⟩ := onPart_eq_error_iff.mp hrun
      exact ⟨s, .inr ⟨failure, hexception, hthrows⟩⟩
  · rintro ⟨s, ⟨a, hreturns⟩ | ⟨failure, hexception, hthrows⟩⟩
    · exact ⟨c.seek s, .inl ⟨a, onPart_of_ok hreturns⟩⟩
    · exact ⟨c.seek s, .inr ⟨failure, hexception, onPart_eq_error_iff.mpr ⟨s, hthrows, rfl⟩⟩⟩

end Cursor

end HiveDb
