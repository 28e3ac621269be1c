import HiveDb.Parser.Scanning

/-!
# The longest match of a number

Digits with a dot and digits behind them are one real number.  The scanning loop
of `addNumber` ends on the last digit, so its test for a dot under the cursor
always fails and the number is cut into an integer, a dot and an integer.
-/

namespace HiveDb

namespace Lexer

/-- Rounds of the loop of `getTokens` that add these tokens, one in each round. -/
def Yields (l : Lexer) : List Token → Lexer → Prop
  | [], l' => l = l'
  | token :: more, l' => ∃ next, l.current ≠ '\x00' ∧ nextToken l = .ok () next ∧
      next.tokens = l.tokens ++ [token] ∧ next.Yields more l'

/--
The tokens that the longest match makes of the digits `a` before `rest`, with the
text that it takes and the text that it leaves.
-/
inductive LongestMatch (a : Text) : (rest taken left : Text) → List Token → Prop where
  | real {b left : Text} (hne : b ≠ []) (hdigits : ∀ d ∈ b, isDigit d)
      (hleft : isDigit (left.headD '\x00') = false) :
      LongestMatch a ('.' :: (b ++ left)) (a ++ '.' :: b) left [⟨.real, a ++ '.' :: b, left⟩]
  | dot {left : Text} (hleft : isDigit (left.headD '\x00') = false) :
      LongestMatch a ('.' :: left) (a ++ ['.']) left
        [⟨.integer, a, '.' :: left⟩, ⟨.dot, [], []⟩]
  | integer {left : Text} (hleft : isDigit (left.headD '\x00') = false)
      (hdot : left.headD '\x00' ≠ '.') : LongestMatch a left a left [⟨.integer, a, left⟩]

/-- The lexer that stands on the digits goes on with the tokens of their longest match. -/
def LexesLongest (before a rest : Text) (tokens : List Token) : Prop :=
  ∃ taken left added, LongestMatch a rest taken left added ∧
    (reached before (a ++ rest) tokens).Yields added
      (reached (before ++ taken) left (tokens ++ added))

/-- A dot and a digit behind it. -/
def BeginsFraction (rest : Text) : Prop := ∃ d more, rest = '.' :: d :: more ∧ isDigit d

variable {before a rest : Text} {tokens : List Token}

theorem LongestMatch.real_of_fraction {taken left : Text} {added : List Token}
    (h : LongestMatch a rest taken left added) (hfraction : BeginsFraction rest) :
    ∃ literal, added = [⟨.real, literal, left⟩] := by
  obtain ⟨d, more, hrest, hd⟩ := hfraction
  cases h with
  | real => exact ⟨_, rfl⟩
  | dot hleft =>
      cases hrest
      cases hd.symm.trans hleft
  | integer _ hdot =>
      cases hrest
      exact absurd rfl hdot

theorem current_digits (hne : a ≠ []) (hdigits : ∀ d ∈ a, isDigit d) :
    (reached before (a ++ rest) tokens).current ≠ '\x00' :=
  current_reached hne fun _ hd => ne_of_accepts (hdigits _ hd) rfl

/-- The digits are an integer of their own, whatever stands behind them. -/
theorem yields_integer (hne : a ≠ []) (hdigits : ∀ d ∈ a, isDigit d)
    (hrest : isDigit (rest.headD '\x00') = false) {more : List Token} {l' : Lexer}
    (hmore : (reached (before ++ a) rest (tokens ++ [⟨.integer, a, rest⟩])).Yields more l') :
    (reached before (a ++ rest) tokens).Yields (⟨.integer, a, rest⟩ :: more) l' :=
  ⟨_, current_digits hne hdigits, nextToken_digits hne hdigits hrest before tokens, rfl, hmore⟩

theorem not_yields_real (hne : a ≠ []) (hdigits : ∀ d ∈ a, isDigit d)
    (hrest : isDigit (rest.headD '\x00') = false) {literal behind : Text} {l' : Lexer} :
    ¬ (reached before (a ++ rest) tokens).Yields [⟨.real, literal, behind⟩] l' := by
  rintro ⟨next, _, hstep, htokens, _⟩
  cases (nextToken_digits hne hdigits hrest before tokens).symm.trans hstep
  have hlast := List.append_cancel_left htokens
  cases hlast

/--
Digits that no digit follows are lexed by longest match exactly when no dot with
a digit behind it follows them.
-/
theorem lexesLongest_iff (before : Text) (tokens : List Token) (hne : a ≠ [])
    (hdigits : ∀ d ∈ a, isDigit d) (hrest : isDigit (rest.headD '\x00') = false) :
    LexesLongest before a rest tokens ↔ ¬ BeginsFraction rest := by
  constructor
  · rintro ⟨taken, left, added, hmatch, hyields⟩ hfraction
    obtain ⟨literal, rfl⟩ := hmatch.real_of_fraction hfraction
    exact not_yields_real hne hdigits hrest hyields
  · intro hfraction
    by_cases hdot : rest.headD '\x00' = '.'
    · obtain ⟨left, rfl⟩ : ∃ left, rest = '.' :: left := by
        cases rest with
        | nil => cases hdot
        | cons c left => exact ⟨left, congrArg (· :: left) hdot⟩
      have hleft : isDigit (left.headD '\x00') = false := by
        cases left with
        | nil => rfl
        | cons d more => exact eq_false_of_ne_true fun hd => hfraction ⟨d, more, rfl, hd⟩
      refine ⟨a ++ ['.'], left, _, .dot hleft, yields_integer hne hdigits hrest ?_⟩
      have hstep := nextToken_symbol_reached (c := '.') rfl (before ++ a) left
        (tokens ++ [⟨.integer, a, '.' :: left⟩])
      rw [List.append_assoc before, List.append_assoc tokens] at hstep
      exact ⟨_, (by decide : '.' ≠ '\x00'), hstep, (List.append_assoc _ _ _).symm, rfl⟩
    · exact ⟨a, rest, _, .integer hrest hdot, yields_integer hne hdigits hrest rfl⟩

/-- `12.;` behind `(` -/
theorem integer_and_dot_lexed :
    LexesLongest ['('] ['1', '2'] ['.', ';'] [⟨.parenthesesL, [], []⟩] := by
  have hdigits : ∀ d ∈ ['1', '2'], isDigit d := List.all_eq_true.mp rfl
  refine (lexesLongest_iff ['('] _ (List.cons_ne_nil _ _) hdigits rfl).mpr ?_
  rintro ⟨d, more, heq, hd⟩
  cases heq
  exact absurd hd (by decide)

/-- `1.5` is cut into three tokens. -/
theorem real_cut_in_three :
    tokensOf ['1', '.', '5'] = .ok [⟨.integer, ['1'], ['.', '5']⟩, ⟨.dot, [], []⟩,
        ⟨.integer, ['5'], []⟩] ∧
      ¬ LexesLongest [] ['1'] ['.', '5'] [] := by
  refine ⟨by decide, ?_⟩
  rintro ⟨taken, left, added, hmatch, hyields⟩
  obtain ⟨literal, rfl⟩ := hmatch.real_of_fraction ⟨'5', [], rfl, rfl⟩
  exact not_yields_real (List.cons_ne_nil _ _) (List.all_eq_true.mp rfl) rfl hyields

end Lexer

end HiveDb
