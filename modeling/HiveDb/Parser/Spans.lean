import HiveDb.Parser.Printing
import Mathlib.Data.List.TakeWhile

/-!
# The texts of the tokens

The tokens of a text are to cover it but for blanks, each where it stands.  They
do unless a string is empty, a string is not closed, or a NUL stands outside the
strings.
-/

namespace HiveDb

open HiveDb.Lib

/-- The token is spelled by the text, and its view ends where `rest` begins. -/
inductive Token.Covers : Token → Text → Text → Prop where
  | symbol {c : Char} {type : TokenType} {rest : Text} (hsymbol : Lexer.symbolType c = some type)
      (hnul : c ≠ '\x00') : Covers ⟨type, [], []⟩ [c] rest
  | keyword {text rest : Text} {type : TokenType}
      (hword : Lexer.reservedKeywords.lookup text = some type) : Covers ⟨type, text, []⟩ text rest
  | identifier {text rest : Text} (hne : text ≠ []) (hletters : ∀ c ∈ text, Lexer.isLetter c) :
      Covers ⟨.identifier, text, rest⟩ text rest
  | integer {text rest : Text} (hne : text ≠ []) (hdigits : ∀ c ∈ text, Lexer.isDigit c) :
      Covers ⟨.integer, text, rest⟩ text rest
  | real {whole fraction rest : Text} (hwhole : ∀ c ∈ whole, Lexer.isDigit c)
      (hfraction : ∀ c ∈ fraction, Lexer.isDigit c) :
      Covers ⟨.real, whole ++ '.' :: fraction, rest⟩ (whole ++ '.' :: fraction) rest
  | string {text rest : Text} (hquote : '"' ∉ text) :
      Covers ⟨.string, text, '"' :: rest⟩ ('"' :: text ++ ['"']) rest

/-- The tokens cover the text in order, and nothing but blanks is between them. -/
inductive Tiles : Text → List Token → Prop where
  | nil : Tiles [] []
  | blank {c : Char} {rest : Text} {tokens : List Token} (hblank : Lexer.isBlank c)
      (hrest : Tiles rest tokens) : Tiles (c :: rest) tokens
  | token {token : Token} {text rest : Text} {tokens : List Token}
      (hcovers : token.Covers text rest) (hrest : Tiles rest tokens) :
      Tiles (text ++ rest) (token :: tokens)

/-- Quotes come in pairs, so an odd one opens a string that is not closed. -/
def Unterminated (input : Text) : Prop := input.count '"' % 2 = 1

instance (input : Text) : Decidable (Unterminated input) := inferInstanceAs (Decidable (_ = _))

/-- No string is empty, every string is closed, and a NUL stands in strings only. -/
inductive WellQuoted : Text → Prop where
  | nil : WellQuoted []
  | plain {c : Char} {rest : Text} (hquote : c ≠ '"') (hnul : c ≠ '\x00')
      (hrest : WellQuoted rest) : WellQuoted (c :: rest)
  | string {text rest : Text} (hne : text ≠ []) (hquote : '"' ∉ text) (hrest : WellQuoted rest) :
      WellQuoted ('"' :: (text ++ '"' :: rest))

namespace WellQuoted

variable {text rest : Text} {c : Char}

theorem of_plain (hquote : c ≠ '"') (h : WellQuoted (c :: rest)) :
    c ≠ '\x00' ∧ WellQuoted rest := by
  cases h with
  | plain _ hnul hrest => exact ⟨hnul, hrest⟩
  | string => exact absurd rfl hquote

theorem behind (hquote : ∀ d ∈ text, d ≠ '"') (h : WellQuoted (text ++ rest)) :
    WellQuoted rest := by
  induction text with
  | nil => exact h
  | cons d more ih =>
      obtain ⟨hd, hmore⟩ := List.forall_mem_cons.mp hquote
      exact ih hmore (of_plain hd h).2

theorem plains (hquote : ∀ d ∈ text, d ≠ '"') (hnul : ∀ d ∈ text, d ≠ '\x00')
    (h : WellQuoted rest) : WellQuoted (text ++ rest) := by
  induction text with
  | nil => exact h
  | cons d more ih =>
      obtain ⟨hd, hmore⟩ := List.forall_mem_cons.mp hquote
      obtain ⟨hd', hmore'⟩ := List.forall_mem_cons.mp hnul
      exact plain hd hd' (ih hmore hmore')

theorem not_unterminated (h : WellQuoted text) : ¬ Unterminated text := by
  unfold Unterminated
  induction h with
  | nil => simp
  | plain hquote _ _ ih => rwa [List.count_cons_of_ne hquote]
  | @string text rest _ hquote _ ih =>
      have hcount : ('"' :: (text ++ '"' :: rest)).count '"' = rest.count '"' + 2 := by
        rw [List.count_cons_self, List.count_append, List.count_eq_zero_of_not_mem hquote,
          List.count_cons_self, Nat.zero_add]
      rw [hcount]
      omega

end WellQuoted

theorem Token.Covers.wellQuoted {token : Token} {text rest : Text} (h : token.Covers text rest)
    (hstring : token.type = .string → token.literal ≠ []) (hrest : WellQuoted rest) :
    WellQuoted (text ++ rest) := by
  have hdigit : ∀ {c : Char}, Lexer.isDigit c → c ≠ '"' ∧ c ≠ '\x00' := fun hc =>
    ⟨Lexer.ne_of_accepts hc rfl, Lexer.ne_of_accepts hc rfl⟩
  have hletter : ∀ {c : Char}, Lexer.isLetter c → c ≠ '"' ∧ c ≠ '\x00' := fun hc =>
    ⟨Lexer.ne_of_accepts hc rfl, Lexer.ne_of_accepts hc rfl⟩
  cases h with
  | @symbol c type _ hsymbol hnul =>
      refine .plain ?_ hnul hrest
      rintro rfl
      cases hsymbol
  | keyword hword =>
      obtain ⟨_, hletters, _⟩ := Lexer.keyword_spelling hword
      exact .plains (fun c hc => (hletter (hletters c hc)).1)
        (fun c hc => (hletter (hletters c hc)).2) hrest
  | identifier _ hletters =>
      exact .plains (fun c hc => (hletter (hletters c hc)).1)
        (fun c hc => (hletter (hletters c hc)).2) hrest
  | integer _ hdigits =>
      exact .plains (fun c hc => (hdigit (hdigits c hc)).1)
        (fun c hc => (hdigit (hdigits c hc)).2) hrest
  | real hwhole hfraction =>
      rw [List.append_assoc, List.cons_append]
      refine .plains (fun c hc => (hdigit (hwhole c hc)).1)
        (fun c hc => (hdigit (hwhole c hc)).2) (.plain (by decide) (by decide) ?_)
      exact .plains (fun c hc => (hdigit (hfraction c hc)).1)
        (fun c hc => (hdigit (hfraction c hc)).2) hrest
  | @string text _ hquote =>
      rw [List.append_assoc, List.cons_append, List.singleton_append]
      exact .string (hstring rfl) hquote hrest

theorem Tiles.wellQuoted {input : Text} {tokens : List Token} (h : Tiles input tokens)
    (hstrings : ∀ token ∈ tokens, token.type = .string → token.literal ≠ []) :
    WellQuoted input := by
  induction h with
  | nil => exact .nil
  | blank hblank _ ih =>
      exact .plain (Lexer.ne_of_accepts hblank rfl) (Lexer.ne_of_accepts hblank rfl) (ih hstrings)
  | token hcovers _ ih =>
      obtain ⟨hfirst, hmore⟩ := List.forall_mem_cons.mp hstrings
      exact hcovers.wellQuoted hfirst (ih hmore)

theorem Tiles.quote_not_mem {input : Text} {tokens : List Token} (h : Tiles input tokens) :
    ∀ token ∈ tokens, token.type = .string → '"' ∉ token.literal := by
  induction h with
  | nil => exact List.forall_mem_nil _
  | blank _ _ ih => exact ih
  | token hcovers _ ih =>
      refine List.forall_mem_cons.mpr ⟨fun htype => ?_, ih⟩
      cases hcovers with
      | symbol => exact List.not_mem_nil
      | keyword hword => exact absurd htype (Lexer.keyword_spelling hword).2.2.2.2
      | identifier => cases htype
      | integer => cases htype
      | real => cases htype
      | string hquote => exact hquote

/-- A text that is covered by no token is blank. -/
theorem Tiles.blank_of_nil {input : Text} {tokens : List Token} (h : Tiles input tokens)
    (hnil : tokens = []) : ∀ c ∈ input, Lexer.isBlank c := by
  induction h with
  | nil => exact List.forall_mem_nil _
  | blank hblank _ ih => exact List.forall_mem_cons.mpr ⟨hblank, ih hnil⟩
  | token => cases hnil

namespace Lexer

variable {done rest : Text} {tokens : List Token} {c : Char}

/-! ## Well quoted texts are covered -/

/-- The longest run of characters that a test accepts. -/
theorem exists_run {p : Char → Bool} (hnul : p '\x00' = false) (hc : p c) (rest : Text) :
    ∃ run behind, c :: rest = run ++ behind ∧ run ≠ [] ∧ (∀ d ∈ run, p d) ∧
      p (behind.headD '\x00') = false := by
  refine ⟨(c :: rest).takeWhile p, (c :: rest).dropWhile p, ?_, ?_, ?_, ?_⟩
  · exact List.takeWhile_append_dropWhile.symm
  · rw [List.takeWhile_cons_of_pos hc]
    exact List.cons_ne_nil _ _
  · exact fun d hd => List.mem_takeWhile_imp hd
  · have hhead := List.head?_dropWhile_not p (c :: rest)
    cases hdrop : (c :: rest).dropWhile p with
    | nil => exact hnul
    | cons d more =>
        rw [hdrop] at hhead
        exact hhead

theorem covers_wordToken {text : Text} (hne : text ≠ []) (hletters : ∀ d ∈ text, isLetter d)
    (rest : Text) : (wordToken text rest).Covers text rest := by
  unfold wordToken
  cases hword : reservedKeywords.lookup text with
  | some type => exact .keyword hword
  | none => exact .identifier hne hletters

theorem nextToken_unknown {l : Lexer} (hsymbol : symbolType l.current = none)
    (hquote : l.current ≠ '"') (hblank : isBlank l.current = false)
    (hletter : isLetter l.current = false) (hdigit : isDigit l.current = false) :
    nextToken l = .error (.invalidArgument "unknown identifier") l := by
  simp [nextToken, bind_apply, hsymbol, hquote, hblank, hletter, hdigit]
  rfl

/-- A step passes over a blank or over the text of the token that it adds. -/
theorem nextToken_covers {l' : Lexer} (hquoted : WellQuoted (c :: rest))
    (h : nextToken (reached done (c :: rest) tokens) = .ok () l') :
    (isBlank c ∧ l' = reached (done ++ [c]) rest tokens) ∨
      ∃ token text behind, c :: rest = text ++ behind ∧ token.Covers text behind ∧
        WellQuoted behind ∧ l' = reached (done ++ text) behind (tokens ++ [token]) := by
  by_cases hquote : c = '"'
  · subst hquote
    cases hquoted with
    | plain hquote => exact absurd rfl hquote
    | @string text behind hne hquote hrest =>
        have heq : '"' :: (text ++ '"' :: behind) = '"' :: text ++ ['"'] ++ behind := by
          simp
        rw [heq] at h
        cases (nextToken_quoted hne hquote done behind tokens).symm.trans h
        exact .inr ⟨_, _, behind, heq, .string hquote, hrest, rfl⟩
  obtain ⟨hnul, hrest⟩ := hquoted.of_plain hquote
  cases hsymbol : symbolType c with
  | some type =>
      cases (nextToken_symbol_reached hsymbol done rest tokens).symm.trans h
      exact .inr ⟨_, [c], rest, rfl, .symbol hsymbol hnul, hrest, rfl⟩
  | none =>
      by_cases hblank : isBlank c = true
      · cases (nextToken_blank_reached hblank done tokens).symm.trans h
        exact .inl ⟨hblank, rfl⟩
      by_cases hletter : isLetter c = true
      · obtain ⟨run, behind, heq, hne, hletters, hnext⟩ := exists_run rfl hletter rest
        rw [heq] at h hquoted
        cases (nextToken_letters hne hletters hnext done tokens).symm.trans h
        refine .inr ⟨_, run, behind, heq, covers_wordToken hne hletters behind, ?_, rfl⟩
        exact hquoted.behind fun d hd => ne_of_accepts (hletters d hd) rfl
      by_cases hdigit : isDigit c = true
      · obtain ⟨run, behind, heq, hne, hdigits, hnext⟩ := exists_run rfl hdigit rest
        rw [heq] at h hquoted
        cases (nextToken_digits hne hdigits hnext done tokens).symm.trans h
        refine .inr ⟨_, run, behind, heq, .integer hne hdigits, ?_, rfl⟩
        exact hquoted.behind fun d hd => ne_of_accepts (hdigits d hd) rfl
      · have hunknown := nextToken_unknown (l := reached done (c :: rest) tokens) hsymbol
          hquote (eq_false_of_ne_true hblank) (eq_false_of_ne_true hletter)
          (eq_false_of_ne_true hdigit)
        cases hunknown.symm.trans h

theorem nextTokens_tiles {rounds : Nat} {l' : Lexer} (hquoted : WellQuoted rest)
    (h : nextTokens rounds (reached done rest tokens) = .ok () l') :
    ∃ added, l'.tokens = tokens ++ added ∧ Tiles rest added := by
  induction rounds generalizing done rest tokens with
  | zero => cases h
  | succ rounds ih =>
      cases rest with
      | nil =>
          cases (nextTokens_end done tokens rounds).symm.trans h
          exact ⟨[], (List.append_nil _).symm, .nil⟩
      | cons c rest =>
          have hcurrent : (reached done (c :: rest) tokens).current ≠ '\x00' := by
            cases hquoted with
            | plain _ hnul _ => exact hnul
            | string => exact (by decide : '"' ≠ '\x00')
          simp only [nextTokens, bind_apply, get_apply, if_neg hcurrent] at h
          cases hstep : nextToken (reached done (c :: rest) tokens) with
          | error failure l =>
              rw [hstep] at h
              cases h
          | ok u l =>
              rw [hstep] at h
              rcases nextToken_covers hquoted hstep with
                ⟨hblank, rfl⟩ | ⟨token, text, behind, heq, hcovers, hbehind, rfl⟩
              · have hrest : WellQuoted rest := by
                  exact (hquoted.of_plain (ne_of_accepts hblank rfl)).2
                obtain ⟨added, htokens, htiles⟩ := ih hrest h
                exact ⟨added, htokens, .blank hblank htiles⟩
              · obtain ⟨added, htokens, htiles⟩ := ih hbehind h
                refine ⟨token :: added, ?_, heq ▸ .token hcovers htiles⟩
                rw [htokens, List.append_assoc, List.singleton_append]

/-! ## No string is read as empty -/

/-- The lexer is on the text, and no string that it has added is empty. -/
structure Filled (text : Text) (l : Lexer) : Prop where
  input : l.input = text
  strings : ∀ token ∈ l.tokens, token.type = .string → token.literal ≠ []

abbrev AnyFailure (_ : Failure) (_ : Lexer) : Prop := True

variable {text : Text}

theorem read_filled :
    Ensures (Filled text) read (fun _ l => Filled text l ∧ Standing l) AnyFailure := by
  apply Ensures.change
  intro l hl
  exact ⟨⟨hl.input, hl.strings⟩, standing_read l⟩

theorem addToken_filled {token : Token} (h : token.type = .string → token.literal ≠ []) :
    Ensures (Filled text) (addToken token) (fun _ => Filled text) AnyFailure := by
  apply Ensures.change
  intro l hl
  refine ⟨hl.input, fun other hother => ?_⟩
  rcases List.mem_append.mp hother with hbefore | hnew
  · exact hl.strings other hbefore
  · exact List.mem_singleton.mp hnew ▸ h

/-- A token of another type. -/
theorem addToken_other {token : Token} (h : token.type ≠ .string) :
    Ensures (Filled text) (addToken token) (fun _ => Filled text) AnyFailure :=
  addToken_filled fun hstring => absurd hstring h

theorem readWhile_filled (goesOn : Lexer → Bool) (rounds : Nat) :
    Ensures (Filled text) (readWhile goesOn rounds) (fun _ => Filled text) AnyFailure := by
  induction rounds with
  | zero => exact .fail fun _ _ => trivial
  | succ rounds ih =>
      apply Ensures.inspect
      intro l hl
      split
      · exact (read_filled.conseq (fun _ h => h) (fun _ _ h => h.1) fun _ _ h => h).seq fun _ => ih
      · exact .ret fun _ h => h

theorem addNumber_filled :
    Ensures (Filled text) addNumber (fun _ => Filled text) AnyFailure := by
  apply Ensures.inspect
  intro start hstart
  apply (readWhile_filled _ _).seq
  intro _
  apply Ensures.inspect
  intro l hl
  split
  · apply (readWhile_filled _ _).seq
    intro _
    apply Ensures.inspect
    intro l' hl'
    exact addToken_other (by decide : TokenType.real ≠ .string)
  · exact addToken_other (by decide : TokenType.integer ≠ .string)

theorem addIdentifier_filled :
    Ensures (Filled text) addIdentifier (fun _ => Filled text) AnyFailure := by
  apply Ensures.inspect
  intro start hstart
  apply (readWhile_filled _ _).seq
  intro _
  apply Ensures.inspect
  intro l hl
  dsimp only
  split
  next type hword => exact addToken_other (keyword_spelling hword).2.2.2.2
  next => exact addToken_other (by decide : TokenType.identifier ≠ .string)

/-- The view of a string begins before the end of the buffer and has a character at least. -/
theorem addView_ne_nil (type : TokenType) {start : Nat} {l : Lexer}
    (hstart : start ≤ l.input.length) : (addView type start l).literal ≠ [] := by
  apply List.ne_nil_of_length_pos
  simp only [addView, List.length_take, List.length_drop, List.length_append, List.length_singleton]
  omega

theorem parseString_filled :
    Ensures (fun l => Filled text l ∧ l.nextPosition ≤ text.length) parseString
      (fun _ => Filled text) AnyFailure := by
  have hopen : Ensures (fun l => Filled text l ∧ l.nextPosition ≤ text.length) read
      (fun _ l => l.position ≤ text.length ∧ Filled text l) AnyFailure := by
    apply Ensures.change
    rintro l ⟨hl, hinside⟩
    exact ⟨hinside, hl.input, hl.strings⟩
  apply hopen.seq
  intro _
  apply Ensures.inspect
  rintro start ⟨hposition, hstart⟩
  have hloop : Ensures (Filled text)
      (readWhile (fun l => !l.isAtEnd && l.peek != '"') start.roundsFor) (fun _ => Filled text)
      AnyFailure := readWhile_filled _ _
  apply (hloop.conseq (fun _ h => h.2) (fun _ _ h => h) fun _ _ h => h).seq
  intro _
  apply Ensures.inspect
  intro l hl
  apply (read_filled.conseq (fun _ h => h) (fun _ _ h => h.1) fun _ _ h => h).seq
  intro _
  exact addToken_filled fun _ => addView_ne_nil .string (hl.input.symm ▸ hposition)

theorem symbolType_ne_string {type : TokenType} (h : symbolType c = some type) :
    type ≠ .string := by
  unfold symbolType at h
  rintro rfl
  split at h <;> cases h

theorem nextToken_filled :
    Ensures (fun l => Filled text l ∧ l.nextPosition ≤ text.length) nextToken
      (fun _ l => Filled text l ∧ Standing l) AnyFailure := by
  have hdrop : ∀ {x : Lexing Unit}, Ensures (Filled text) x (fun _ => Filled text) AnyFailure →
      Ensures (fun l => Filled text l ∧ l.nextPosition ≤ text.length) x (fun _ => Filled text)
        AnyFailure :=
    fun h => h.conseq (fun _ h => h.1) (fun _ _ h => h) fun _ _ h => h
  apply Ensures.inspect
  intro l hl
  split
  next type hsymbol =>
    exact (hdrop (addToken_other (symbolType_ne_string hsymbol))).seq fun _ => read_filled
  next =>
    split
    · exact parseString_filled.seq fun _ => read_filled
    · split
      · exact read_filled.conseq (fun _ h => h.1) (fun _ _ h => h) fun _ _ h => h
      · split
        · exact (hdrop addIdentifier_filled).seq fun _ => read_filled
        · split
          · exact (hdrop addNumber_filled).seq fun _ => read_filled
          · exact Ensures.seq (.fail fun _ _ => trivial) fun _ => read_filled

theorem nextTokens_filled (rounds : Nat) :
    Ensures (fun l => Filled text l ∧ Standing l) (nextTokens rounds) (fun _ => Filled text)
      AnyFailure := by
  induction rounds with
  | zero => exact .fail fun _ _ => trivial
  | succ rounds ih =>
      apply Ensures.inspectSelf
      rintro l ⟨hl, hstanding⟩
      split
      · exact .ret fun _ h => h ▸ hl
      next hcurrent =>
        have hinside : l.nextPosition ≤ text.length := hl.input ▸ hstanding hcurrent
        have hstep : Ensures (fun t => t = l) nextToken
            (fun _ l => Filled text l ∧ Standing l) AnyFailure :=
          nextToken_filled.conseq (fun _ h => h ▸ ⟨hl, hinside⟩) (fun _ _ h => h) fun _ _ h => h
        exact hstep.seq fun _ => ih

/-! ## All inputs -/

theorem tokensOf_eq_ok {input : Text} {tokens : List Token} (h : tokensOf input = .ok tokens) :
    ∃ rounds l, nextTokens rounds (reached [] input []) = .ok () l ∧ l.tokens = tokens := by
  by_cases hne : input = []
  · subst hne
    cases h
  · simp only [tokensOf, ofInput_reached hne, ok_bind, getTokens, bind_apply, get_apply] at h
    cases hrun : nextTokens (reached [] input []).roundsFor (reached [] input []) with
    | error failure l =>
        rw [hrun] at h
        cases h
    | ok u l =>
        rw [hrun] at h
        cases h
        exact ⟨_, l, hrun, rfl⟩

theorem strings_of_tokensOf {input : Text} {tokens : List Token}
    (h : tokensOf input = .ok tokens) :
    ∀ token ∈ tokens, token.type = .string → token.literal ≠ [] := by
  obtain ⟨rounds, l, hrun, rfl⟩ := tokensOf_eq_ok h
  have hstart : Filled input (reached [] input []) := ⟨rfl, List.forall_mem_nil _⟩
  have hstanding : Standing (reached [] input []) := by
    intro hcurrent
    cases input with
    | nil => exact absurd rfl hcurrent
    | cons c rest => exact Nat.succ_le_succ (Nat.zero_le _)
  exact (((nextTokens_filled rounds) _ ⟨hstart, hstanding⟩).1 () l hrun).strings

/--
The tokens that the lexer returns cover the text and no string is left open
exactly when each string is closed and not empty and no NUL stands outside of them.
-/
theorem tokensOf_tiles_iff {input : Text} {tokens : List Token}
    (h : tokensOf input = .ok tokens) :
    (Tiles input tokens ∧ ¬ Unterminated input) ↔ WellQuoted input := by
  constructor
  · rintro ⟨htiles, _⟩
    exact htiles.wellQuoted (strings_of_tokensOf h)
  · intro hquoted
    obtain ⟨rounds, l, hrun, rfl⟩ := tokensOf_eq_ok h
    obtain ⟨added, htokens, htiles⟩ := nextTokens_tiles hquoted hrun
    rw [List.nil_append] at htokens
    exact ⟨htokens ▸ htiles, hquoted.not_unterminated⟩

/-- `a "b;"` -/
theorem word_and_string_tile :
    Tiles ['a', ' ', '"', 'b', ';', '"'] [⟨.identifier, ['a'], [' ', '"', 'b', ';', '"']⟩,
      ⟨.string, ['b', ';'], ['"']⟩] ∧ ¬ Unterminated ['a', ' ', '"', 'b', ';', '"'] := by
  have hquoted : WellQuoted ['a', ' ', '"', 'b', ';', '"'] :=
    .plain (by decide) (by decide) (.plain (by decide) (by decide)
      (.string (List.cons_ne_nil 'b' [';']) (by decide) .nil))
  exact (tokensOf_tiles_iff rfl).mpr hquoted

/--
`""` is read as a string of a quote and the NUL behind the text, `"ab` is not
refused, and what stands behind a NUL is dropped.
-/
theorem quotes_and_nul_misread :
    (∃ tokens, tokensOf ['"', '"'] = .ok tokens ∧ ¬ Tiles ['"', '"'] tokens) ∧
      (∃ tokens, tokensOf ['"', 'a', 'b'] = .ok tokens ∧ Unterminated ['"', 'a', 'b']) ∧
      ∃ tokens, tokensOf ['\x00', 'a'] = .ok tokens ∧ ¬ Tiles ['\x00', 'a'] tokens := by
  refine ⟨⟨_, rfl, fun htiles => ?_⟩, ⟨_, rfl, by decide⟩, ⟨_, rfl, fun htiles => ?_⟩⟩
  · exact absurd List.mem_cons_self (htiles.quote_not_mem _ List.mem_cons_self rfl)
  · exact absurd (htiles.blank_of_nil rfl _ List.mem_cons_self) (by decide)

end Lexer

end HiveDb
