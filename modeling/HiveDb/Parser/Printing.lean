import HiveDb.Parser.Scanning
import Mathlib.Data.List.Forall2

/-!
# Lexing undoes printing

A list of tokens is printed with blanks before, between and behind them.  Two
words or two integers need a blank between them; any other token ends where the
next one begins.
-/

namespace HiveDb

open HiveDb.Lib

/-- The tokens that are spelled with letters. -/
def TokenType.isWord : TokenType → Bool
  | .select | .from | .create | .table | .not | .null | .insert | .into | .values => true
  | .identifier => true
  | _ => false

def TokenType.punctuation : TokenType → Option Char
  | .parenthesesL => some '('
  | .parenthesesR => some ')'
  | .add => some '+'
  | .substract => some '-'
  | .divide => some '/'
  | .star => some '*'
  | .comma => some ','
  | .dot => some '.'
  | .bang => some '!'
  | .eof => some ';'
  | _ => none

namespace Token

def print (token : Token) : Text :=
  match token.type.punctuation with
  | some c => [c]
  | none => if token.type = .string then '"' :: token.literal ++ ['"'] else token.literal

/-- The tokens that a text can spell. -/
inductive Printable (token : Token) : Prop where
  | keyword (hword : Lexer.reservedKeywords.lookup token.literal = some token.type)
  | identifier (htype : token.type = .identifier) (hne : token.literal ≠ [])
      (hletters : ∀ c ∈ token.literal, Lexer.isLetter c)
      (hfree : Lexer.reservedKeywords.lookup token.literal = none)
  | integer (htype : token.type = .integer) (hne : token.literal ≠ [])
      (hdigits : ∀ c ∈ token.literal, Lexer.isDigit c)
  | string (htype : token.type = .string) (hne : token.literal ≠ [])
      (hquote : '"' ∉ token.literal) (hnul : '\x00' ∉ token.literal)
  | symbol {c : Char} (hchar : token.type.punctuation = some c) (hliteral : token.literal = [])

/-- Two tokens that would be read as one if nothing stood between them. -/
def NeedsBlank (token next : Token) : Prop :=
  (token.type.isWord ∧ next.type.isWord) ∨ (token.type = .integer ∧ next.type = .integer)

instance (token next : Token) : Decidable (token.NeedsBlank next) :=
  inferInstanceAs (Decidable (_ ∨ _))

/-- The token that the lexer makes of a printed one; no digit stands behind an integer. -/
structure LexedAs (token printed : Token) : Prop where
  equal : token.Equal printed
  ends : token.type = .integer → Lexer.isDigit (token.behind.headD '\x00') = false

end Token

/-- The text of the tokens, each with what stands behind it. -/
def printAll : List (Token × Text) → Text
  | [] => []
  | (token, gap) :: rest => token.print ++ (gap ++ printAll rest)

/-- Blanks stand behind each token, at least one where the next token needs it. -/
inductive Separated : List (Token × Text) → Prop where
  | nil : Separated []
  | cons {token : Token} {gap : Text} {rest : List (Token × Text)} (htoken : token.Printable)
      (hgap : ∀ c ∈ gap, Lexer.isBlank c)
      (hneeds : ∀ next ∈ rest.head?, token.NeedsBlank next.1 → gap ≠ [])
      (hrest : Separated rest) : Separated ((token, gap) :: rest)

namespace Lexer

/-! ## What is printed for a token -/

theorem keyword_spelling {text : Text} {type : TokenType}
    (h : reservedKeywords.lookup text = some type) :
    text ≠ [] ∧ (∀ c ∈ text, isLetter c) ∧ type.isWord ∧ type.punctuation = none ∧
      type ≠ .string := by
  have hall : ∀ entry ∈ reservedKeywords, entry.1 ≠ [] ∧ entry.1.all isLetter ∧
      entry.2.isWord ∧ entry.2.punctuation = none ∧ entry.2 ≠ .string := by decide
  obtain ⟨hne, hletters, hword, hnone, hstring⟩ := hall _ (keyword_of_lookup h)
  exact ⟨hne, List.all_eq_true.mp hletters, hword, hnone, hstring⟩

theorem symbolType_of_punctuation {type : TokenType} {c : Char}
    (h : type.punctuation = some c) : symbolType c = some type := by
  cases type <;> cases h <;> rfl

theorem isWord_of_punctuation {type : TokenType} {c : Char} (h : type.punctuation = some c) :
    type.isWord = false := by
  cases type <;> cases h <;> rfl

/-- A token that is spelled with letters, as the lexer takes it. -/
theorem word_of_printable {token : Token} (h : token.Printable) (hword : token.type.isWord) :
    token.print = token.literal ∧ token.literal ≠ [] ∧ (∀ c ∈ token.literal, isLetter c) ∧
      (reservedKeywords.lookup token.literal).getD .identifier = token.type := by
  cases h with
  | keyword hkeyword =>
      obtain ⟨hne, hletters, _, hnone, hstring⟩ := keyword_spelling hkeyword
      refine ⟨?_, hne, hletters, by rw [hkeyword, Option.getD_some]⟩
      simp [Token.print, hnone, hstring]
  | identifier htype hne hletters hfree =>
      refine ⟨?_, hne, hletters, by rw [hfree, htype, Option.getD_none]⟩
      simp [Token.print, htype, TokenType.punctuation]
  | integer htype hne hdigits =>
      rw [htype] at hword
      cases hword
  | string htype hne hquote hnul =>
      rw [htype] at hword
      cases hword
  | symbol hchar hliteral =>
      rw [isWord_of_punctuation hchar] at hword
      cases hword

theorem print_integer {token : Token} (htype : token.type = .integer) :
    token.print = token.literal := by
  simp [Token.print, htype, TokenType.punctuation]

theorem print_string {token : Token} (htype : token.type = .string) :
    token.print = '"' :: token.literal ++ ['"'] := by
  simp [Token.print, htype, TokenType.punctuation]

theorem print_symbol {token : Token} {c : Char} (hchar : token.type.punctuation = some c) :
    token.print = [c] := by
  simp [Token.print, hchar]

/-- The first character of a printed token tells the words and the integers. -/
theorem print_first {token : Token} (h : token.Printable) :
    ∃ c run, token.print = c :: run ∧ c ≠ '\x00' ∧ (isLetter c → token.type.isWord) ∧
      (isDigit c → token.type = .integer) := by
  by_cases hword : token.type.isWord
  · obtain ⟨hprint, hne, hletters, _⟩ := word_of_printable h hword
    obtain ⟨c, run, hliteral⟩ := List.exists_cons_of_ne_nil hne
    have hc : isLetter c := hletters c (by simp [hliteral])
    refine ⟨c, run, hprint.trans hliteral, ne_of_accepts hc rfl, fun _ => hword,
      fun hdigit => ?_⟩
    rw [isLetter_of_isDigit hdigit] at hc
    cases hc
  · cases h with
    | keyword hkeyword =>
        obtain ⟨_, _, hisWord, _⟩ := keyword_spelling hkeyword
        exact absurd hisWord hword
    | identifier htype hne hletters hfree =>
        rw [htype] at hword
        exact absurd rfl hword
    | integer htype hne hdigits =>
        obtain ⟨c, run, hliteral⟩ := List.exists_cons_of_ne_nil hne
        have hc : isDigit c := hdigits c (by simp [hliteral])
        refine ⟨c, run, (print_integer htype).trans hliteral, ne_of_accepts hc rfl,
          fun hletter => ?_, fun _ => htype⟩
        rw [isLetter_of_isDigit hc] at hletter
        cases hletter
    | string htype hne hquote hnul =>
        refine ⟨'"', token.literal ++ ['"'], print_string htype, by decide, ?_, ?_⟩
        · exact fun hletter => absurd hletter (by decide)
        · exact fun hdigit => absurd hdigit (by decide)
    | @symbol c hchar hliteral =>
        have hsymbol := symbolType_of_punctuation hchar
        refine ⟨c, [], print_symbol hchar, ?_, fun hletter => ?_, fun hdigit => ?_⟩
        · rintro rfl
          cases htype : token.type <;> rw [htype] at hchar <;> cases hchar
        · rw [symbolType_of_isLetter hletter] at hsymbol
          cases hsymbol
        · rw [symbolType_of_isDigit hdigit] at hsymbol
          cases hsymbol

/-! ## Lexing a printed token -/

variable {rest : Text}

/-- The last `read` of a step leaves the lexer on what follows the token. -/
theorem nextToken_of_adds {x : Lexing Unit} {text : Text} {token : Token}
    (hadds : Adds x text rest token) (done : Text) (tokens : List Token)
    (hstep : ∀ l', x (reached done (text ++ rest) tokens) = .ok () l' →
      nextToken (reached done (text ++ rest) tokens) = read l') :
    ∃ behind, (token.type = .integer → behind = rest) ∧
      nextToken (reached done (text ++ rest) tokens) =
        .ok () (reached (done ++ text) rest (tokens ++ [⟨token.type, token.literal, behind⟩])) := by
  obtain ⟨front, last, behind, rfl, hbehind, hrun⟩ := hadds done tokens
  refine ⟨behind, hbehind, ?_⟩
  rw [hstep _ hrun, read_reached, List.append_assoc]

/-- A printed token is read where what follows does not go on with it. -/
theorem nextToken_print {token : Token} (h : token.Printable)
    (hletter : token.type.isWord → isLetter (rest.headD '\x00') = false)
    (hdigit : token.type = .integer → isDigit (rest.headD '\x00') = false)
    (done : Text) (tokens : List Token) :
    ∃ behind, (token.type = .integer → behind = rest) ∧
      nextToken (reached done (token.print ++ rest) tokens) =
        .ok () (reached (done ++ token.print) rest
          (tokens ++ [⟨token.type, token.literal, behind⟩])) := by
  by_cases hword : token.type.isWord
  · obtain ⟨hprint, hne, hletters, htype⟩ := word_of_printable h hword
    have hadds := adds_word hne hletters (hletter hword)
    rw [htype] at hadds
    rw [hprint]
    exact nextToken_of_adds hadds done tokens
      fun l' => nextToken_word (current_reached hne hletters)
  · cases h with
    | keyword hkeyword =>
        obtain ⟨_, _, hisWord, _⟩ := keyword_spelling hkeyword
        exact absurd hisWord hword
    | identifier htype hne hletters hfree =>
        rw [htype] at hword
        exact absurd rfl hword
    | integer htype hne hdigits =>
        have hadds := adds_number hne hdigits (hdigit htype)
        rw [print_integer htype, htype]
        exact nextToken_of_adds hadds done tokens
          fun l' => nextToken_number (current_reached hne hdigits)
    | string htype hne hquote hnul =>
        have hadds := adds_string hne hquote rest
        rw [print_string htype, htype]
        exact nextToken_of_adds hadds done tokens fun l' => nextToken_string rfl
    | @symbol c hchar hliteral =>
        have hsymbol := symbolType_of_punctuation hchar
        refine ⟨[], fun hinteger => ?_, ?_⟩
        · rw [hinteger] at hchar
          cases hchar
        · rw [print_symbol hchar, hliteral]
          exact nextToken_symbol_reached hsymbol done rest tokens

theorem nextToken_blank_reached {c : Char} (h : isBlank c) (done : Text) (tokens : List Token) :
    nextToken (reached done (c :: rest) tokens) =
      .ok () (reached (done ++ [c]) rest tokens) :=
  (nextToken_blank h).trans read_reached

/-! ## The loop over the tokens -/

theorem nextTokens_step {l l' : Lexer} (hcurrent : l.current ≠ '\x00')
    (h : nextToken l = .ok () l') (rounds : Nat) :
    nextTokens (rounds + 1) l = nextTokens rounds l' := by
  simp [nextTokens, bind_apply, hcurrent, h]

theorem nextTokens_end (done : Text) (tokens : List Token) (rounds : Nat) :
    nextTokens (rounds + 1) (reached done [] tokens) = .ok () (reached done [] tokens) := by
  simp [nextTokens, bind_apply, reached]

/-- Blanks take a round each and add no token. -/
theorem nextTokens_blanks {gap : Text} (hgap : ∀ c ∈ gap, isBlank c) (done : Text)
    (tokens : List Token) (rounds : Nat) :
    nextTokens (rounds + gap.length) (reached done (gap ++ rest) tokens) =
      nextTokens rounds (reached (done ++ gap) rest tokens) := by
  induction gap generalizing done with
  | nil => rw [List.nil_append, List.append_nil, List.length_nil, Nat.add_zero]
  | cons c more ih =>
      have hc : isBlank c := hgap c List.mem_cons_self
      have hcurrent : c ≠ '\x00' := by
        rintro rfl
        exact absurd hc (by decide)
      have hmore := ih (fun d hd => hgap d (List.mem_cons_of_mem _ hd)) (done ++ [c])
      rw [List.append_assoc, List.singleton_append] at hmore
      rw [List.length_cons, ← Nat.add_assoc, List.cons_append]
      exact (nextTokens_step hcurrent (nextToken_blank_reached hc done tokens) _).trans hmore

/-- What stands behind a printed token does not go on with it. -/
theorem stops_behind {token : Token} {gap : Text} {others : List (Token × Text)}
    (hgap : ∀ c ∈ gap, isBlank c)
    (hneeds : ∀ next ∈ others.head?, token.NeedsBlank next.1 → gap ≠ [])
    (hothers : Separated others) :
    (token.type.isWord → isLetter ((gap ++ printAll others).headD '\x00') = false) ∧
      (token.type = .integer → isDigit ((gap ++ printAll others).headD '\x00') = false) := by
  cases gap with
  | cons c more =>
      have hc : isBlank c := hgap c List.mem_cons_self
      exact ⟨fun _ => isLetter_of_isBlank hc, fun _ => isDigit_of_isBlank hc⟩
  | nil =>
      cases hothers with
      | nil => exact ⟨fun _ => rfl, fun _ => rfl⟩
      | @cons next gap' more hnext _ _ _ =>
          obtain ⟨c, run, hprint, _, hletter, hdigit⟩ := print_first hnext
          have hfirst : ([] ++ printAll ((next, gap') :: more)).headD '\x00' = c := by
            simp [printAll, hprint]
          rw [hfirst]
          constructor
          · intro hword
            by_contra hc
            exact hneeds _ rfl (.inl ⟨hword, hletter (by simpa using hc)⟩) rfl
          · intro hinteger
            by_contra hc
            exact hneeds _ rfl (.inr ⟨hinteger, hdigit (by simpa using hc)⟩) rfl

/-- The loop reads printed tokens one after the other and ends behind the last one. -/
theorem nextTokens_printAll {tokens : List (Token × Text)} (h : Separated tokens) (done : Text)
    (read : List Token) {rounds : Nat} (hrounds : (printAll tokens).length < rounds) :
    ∃ added, nextTokens rounds (reached done (printAll tokens) read) =
        .ok () (reached (done ++ printAll tokens) [] (read ++ added)) ∧
      List.Forall₂ Token.LexedAs added (tokens.map Prod.fst) := by
  induction h generalizing done read rounds with
  | nil =>
      obtain ⟨rounds, rfl⟩ : ∃ r, rounds = r + 1 := ⟨rounds - 1, by omega⟩
      refine ⟨[], ?_, .nil⟩
      rw [printAll, List.append_nil, List.append_nil]
      exact nextTokens_end done read rounds
  | @cons token gap others htoken hgap hneeds hrest ih =>
      obtain ⟨hletter, hdigit⟩ := stops_behind hgap hneeds hrest
      obtain ⟨c, run, hprint, hcurrent, _⟩ := print_first htoken
      obtain ⟨behind, hbehind, hstep⟩ := nextToken_print htoken hletter hdigit done read
      obtain ⟨more, rfl⟩ : ∃ r, rounds = r + gap.length + 1 := by
        refine ⟨rounds - gap.length - 1, ?_⟩
        simp only [printAll, List.length_append] at hrounds
        omega
      have hmore : (printAll others).length < more := by
        simp only [printAll, hprint, List.length_append, List.length_cons] at hrounds
        omega
      obtain ⟨added, hloop, hequal⟩ := ih (done ++ token.print ++ gap)
        (read ++ [⟨token.type, token.literal, behind⟩]) hmore
      have hlexed : Token.LexedAs ⟨token.type, token.literal, behind⟩ token := by
        refine ⟨⟨rfl, rfl⟩, fun hinteger => ?_⟩
        rw [hbehind hinteger]
        exact hdigit hinteger
      refine ⟨⟨token.type, token.literal, behind⟩ :: added, ?_, .cons hlexed hequal⟩
      have hnotEnd : (reached done (token.print ++ (gap ++ printAll others)) read).current ≠
          '\x00' := by
        rw [hprint]
        exact hcurrent
      rw [printAll, nextTokens_step hnotEnd hstep, nextTokens_blanks hgap, hloop]
      simp

theorem tokensOf_printAll {before : Text} {tokens : List (Token × Text)}
    (hbefore : ∀ c ∈ before, isBlank c) (htokens : Separated tokens)
    (hne : before ++ printAll tokens ≠ []) :
    ∃ read, tokensOf (before ++ printAll tokens) = .ok read ∧
      List.Forall₂ Token.LexedAs read (tokens.map Prod.fst) := by
  obtain ⟨read, hloop, hlexed⟩ := nextTokens_printAll htokens before []
    (Nat.lt_succ_self (printAll tokens).length)
  refine ⟨read, ?_, hlexed⟩
  have hrounds : (reached [] (before ++ printAll tokens) []).roundsFor =
      (printAll tokens).length + 1 + before.length := by
    simp only [roundsFor, reached, List.nil_append, List.length_append]
    omega
  have hrun : nextTokens (reached [] (before ++ printAll tokens) []).roundsFor
      (reached [] (before ++ printAll tokens) []) =
        .ok () (reached (before ++ printAll tokens) [] read) := by
    rw [hrounds, nextTokens_blanks hbefore]
    exact hloop
  simp only [tokensOf, ofInput_reached hne, ok_bind, getTokens, bind_apply, get_apply, hrun]
  rfl

/-- Lexing a printed list of tokens returns the list. -/
theorem tokensOf_print {before : Text} {tokens : List (Token × Text)}
    (hbefore : ∀ c ∈ before, isBlank c) (htokens : Separated tokens)
    (hne : before ++ printAll tokens ≠ []) :
    ∃ read, tokensOf (before ++ printAll tokens) = .ok read ∧
      List.Forall₂ Token.Equal read (tokens.map Prod.fst) := by
  obtain ⟨read, hread, hlexed⟩ := tokensOf_printAll hbefore htokens hne
  exact ⟨read, hread, hlexed.imp fun _ _ h => h.equal⟩

/-- `select (a),"b c";` -/
def selectText : List (Token × Text) :=
  [(⟨.select, ['s', 'e', 'l', 'e', 'c', 't'], []⟩, [' ']), (⟨.parenthesesL, [], []⟩, []),
    (⟨.identifier, ['a'], []⟩, []), (⟨.parenthesesR, [], []⟩, []), (⟨.comma, [], []⟩, []),
    (⟨.string, ['b', ' ', 'c'], []⟩, []), (⟨.eof, [], []⟩, ['\n'])]

theorem select_text_read :
    ∃ read, tokensOf ([' '] ++ printAll selectText) = .ok read ∧
      List.Forall₂ Token.Equal read (selectText.map Prod.fst) := by
  have hsymbol : ∀ type c, TokenType.punctuation type = some c →
      Token.Printable ⟨type, [], []⟩ := fun _ _ hchar => .symbol hchar rfl
  have hfree : ∀ {token : Token} {gap : Text} {next : Token × Text} {others},
      ¬ token.NeedsBlank next.1 →
        ∀ n ∈ (next :: others).head?, token.NeedsBlank n.1 → gap ≠ [] := by
    rintro token gap next others hnot n ⟨⟩ hneeds
    exact absurd hneeds hnot
  have htokens : Separated selectText := by
    apply Separated.cons (.keyword rfl) (List.all_eq_true.mp rfl) (hfree (by decide))
    apply Separated.cons (hsymbol _ _ rfl) (List.all_eq_true.mp rfl) (hfree (by decide))
    apply Separated.cons (.identifier rfl (List.cons_ne_nil _ _) (List.all_eq_true.mp rfl) rfl)
      (List.all_eq_true.mp rfl) (hfree (by decide))
    apply Separated.cons (hsymbol _ _ rfl) (List.all_eq_true.mp rfl) (hfree (by decide))
    apply Separated.cons (hsymbol _ _ rfl) (List.all_eq_true.mp rfl) (hfree (by decide))
    apply Separated.cons (.string rfl (List.cons_ne_nil _ _) (by decide) (by decide))
      (List.all_eq_true.mp rfl) (hfree (by decide))
    exact Separated.cons (hsymbol _ _ rfl) (List.all_eq_true.mp rfl) nofun .nil
  exact tokensOf_print (List.all_eq_true.mp rfl) htokens (List.cons_ne_nil _ _)

end Lexer

end HiveDb
