import HiveDb.Parser.Printing
import HiveDb.Parser.RoundTrip

/-!
# From the text to the statement

The lexer and the parser together: the text of a statement, with blanks as the
lexer needs them and a semicolon or nothing behind it, is parsed to the
statement.  `std::stoi` reads on from the literal of an integer into the text
behind it, where the lexer has found no digit.
-/

namespace HiveDb.Parser

open HiveDb.Lib

/-! ## Numbers in a text -/

theorem isDigit_eq (c : Char) : Lexer.isDigit c = c.isDigit := by
  simp [Lexer.isDigit, Char.isDigit, Char.le_def]

/-- `std::stoi` reads the digits and nothing that stands behind them. -/
theorem stoi_append {digits behind : Text} (hne : digits ≠ [])
    (hdigits : ∀ c ∈ digits, c.isDigit) (hend : (behind.headD '\x00').isDigit = false) :
    stoi (digits ++ behind) = stoi digits := by
  cases digits with
  | nil => exact absurd rfl hne
  | cons c rest =>
      have hc : c.isDigit := hdigits c List.mem_cons_self
      have hspace : ∀ more, (c :: more).dropWhile isSpace = c :: more := by
        simp [isSpace_of_isDigit hc]
      have hbehind : behind.takeWhile Char.isDigit = [] := by
        cases behind with
        | nil => rfl
        | cons d more => simpa using hend
      have htake : (c :: (rest ++ behind)).takeWhile Char.isDigit =
          (c :: rest).takeWhile Char.isDigit := by
        rw [← List.cons_append, List.takeWhile_append_of_pos hdigits, hbehind, List.append_nil,
          List.takeWhile_eq_self_iff.mpr hdigits]
      simp only [List.cons_append, stoi, hspace, splitSign_of_isDigit _ hc, htake]

/-- A C string that begins with digits has no more digits behind them than the text has. -/
theorem stoi_data {token : Token} (hne : token.literal ≠ [])
    (hdigits : ∀ c ∈ token.literal, c.isDigit)
    (hend : (token.behind.headD '\x00').isDigit = false) :
    stoi token.data = stoi token.literal := by
  have hliteral : ∀ c ∈ token.literal, decide (c ≠ '\x00') = true := by
    intro c hc
    rw [decide_eq_true_eq]
    rintro rfl
    exact absurd (hdigits _ hc) (by decide)
  rw [Token.data, List.takeWhile_append_of_pos hliteral]
  apply stoi_append hne hdigits
  cases hbehind : token.behind with
  | nil => rfl
  | cons c more =>
      rw [hbehind, List.headD_cons] at hend
      by_cases hnul : c = '\x00'
      · simp [hnul]
      · simpa [hnul] using hend

/-! ## What the lexer hands to the parser -/

theorem integer_of_printable {token : Token} (h : token.Printable) (htype : token.type = .integer) :
    token.literal ≠ [] ∧ ∀ c ∈ token.literal, c.isDigit := by
  cases h with
  | keyword hword => exact absurd htype (Lexer.keyword_not_integer hword)
  | identifier hidentifier => cases htype.symm.trans hidentifier
  | integer _ hne hdigits => exact ⟨hne, fun c hc => (isDigit_eq c) ▸ hdigits c hc⟩
  | string hstring => cases htype.symm.trans hstring
  | symbol hchar =>
      rw [htype] at hchar
      cases hchar

theorem not_real_of_printable {token : Token} (h : token.Printable) : token.type ≠ .real := by
  intro htype
  cases h with
  | keyword hword =>
      have hisWord := (Lexer.keyword_spelling hword).2.2.1
      rw [htype] at hisWord
      cases hisWord
  | identifier hidentifier => cases htype.symm.trans hidentifier
  | integer hinteger => cases htype.symm.trans hinteger
  | string hstring => cases htype.symm.trans hstring
  | symbol hchar =>
      rw [htype] at hchar
      cases hchar

theorem printable_of_separated {tokens : List (Token × Text)} (h : Separated tokens) :
    ∀ token ∈ tokens.map Prod.fst, token.Printable := by
  induction h with
  | nil => exact fun _ impossible => nomatch impossible
  | @cons token gap rest htoken _ _ _ ih =>
      intro other hother
      rcases List.mem_cons.mp hother with rfl | hrest
      · exact htoken
      · exact ih other hrest

theorem printAll_ne_nil {tokens : List (Token × Text)} (h : Separated tokens)
    (hne : tokens ≠ []) : printAll tokens ≠ [] := by
  cases h with
  | nil => exact absurd rfl hne
  | cons htoken _ _ _ =>
      obtain ⟨c, run, hprint, _⟩ := Lexer.print_first htoken
      simp [printAll, hprint]

variable [FloatUnit]

theorem render_ne_nil {realText : Real32 → Text} {statement : Exprs}
    (h : statement.Statement realText) : statement.render realText ≠ [] := by
  cases statement with
  | createTbl statement => simp [Exprs.render, CreateTblExpr.render]
  | insert statement => simp [Exprs.render, InsertExpr.render]
  | select innerExpr tblName => simp [Exprs.render]
  | literalInt value => cases h
  | literalReal value => cases h
  | literalString value isIdentifier => cases h
  | unary op rhs => cases h
  | grouping e => cases h
  | binary lhs op rhs => cases h

/-- The lexer's tokens spell the printed ones: numbers are read as they were written. -/
theorem spells_of_lexedAs {token printed : Token} (h : token.LexedAs printed)
    (hprintable : printed.Printable) : token.Spells printed := by
  refine ⟨h.equal, ⟨fun htype => ?_, fun htype => ?_⟩⟩
  · obtain ⟨hne, hdigits⟩ := integer_of_printable hprintable (h.equal.2.symm.trans htype)
    rw [← h.equal.1] at hne hdigits
    exact stoi_data hne hdigits (isDigit_eq _ ▸ h.ends htype)
  · exact absurd (h.equal.2.symm.trans htype) (not_real_of_printable hprintable)

theorem spelling_of_lexed {tokens printed : List Token}
    (h : List.Forall₂ Token.LexedAs tokens printed)
    (hprintable : ∀ token ∈ printed, token.Printable) : Spelling tokens printed := by
  induction h with
  | nil => exact .nil
  | @cons token first tokens rest hfirst _ ih =>
      apply List.Forall₂.cons
      · exact spells_of_lexedAs hfirst (hprintable first List.mem_cons_self)
      · exact ih fun token htoken => hprintable token (List.mem_cons_of_mem _ htoken)

/--
The text of a statement, with any tokens behind it that the statement does not go
on with, is lexed and parsed to the statement.
-/
theorem parse_text {realText : Real32 → Text} {statement : Exprs} {before : Text}
    {tokens : List (Token × Text)} {follow : List Token}
    (hstatement : statement.Statement realText) (hbefore : ∀ c ∈ before, Lexer.isBlank c)
    (htokens : Separated tokens)
    (hrender : tokens.map Prod.fst = statement.render realText ++ follow)
    (hfollow : ∀ next ∈ follow.head?, statement.goesOnWith next.type = false) :
    ∃ read left, Lexer.tokensOf (before ++ printAll tokens) = .ok read ∧
      parse read = .ok statement left ∧ List.Forall₂ Token.Equal left follow := by
  have htokensNe : tokens ≠ [] := by
    rintro rfl
    have hnone : statement.render realText ++ follow = [] := hrender.symm
    exact render_ne_nil hstatement (List.append_eq_nil_iff.mp hnone).1
  have hne : before ++ printAll tokens ≠ [] := fun hnone =>
    printAll_ne_nil htokens htokensNe (List.append_eq_nil_iff.mp hnone).2
  obtain ⟨read, hread, hlexed⟩ := Lexer.tokensOf_printAll hbefore htokens hne
  have hspelling := spelling_of_lexed hlexed (printable_of_separated htokens)
  rw [hrender] at hspelling
  obtain ⟨spelled, left, rfl, hspelled, hleft⟩ := spelling_append hspelling
  have hequal : List.Forall₂ Token.Equal left follow := hleft.imp fun _ _ h => h.equal
  have hstops : ∀ next ∈ left.head?, statement.goesOnWith next.type = false := by
    cases hequal with
    | nil => exact fun _ impossible => nomatch impossible
    | @cons next first _ _ hnext _ =>
        rintro token ⟨⟩
        rw [hnext.2]
        exact hfollow first rfl
  obtain ⟨depth, hdepth⟩ := expr_reads hstatement hspelled hstops
  exact ⟨_, left, hread, parse_of_expr hdepth, hequal⟩

end HiveDb.Parser
