import HiveDb.Parser.Lexer

/-!
# Scanning

A lexer that stands on a character of the text has the characters before it
behind it.  Each scanning loop moves it to the last character of the token, and
the `read` at the end of `nextToken` to the character behind the token.
-/

namespace HiveDb

open HiveDb.Lib

namespace Lexer

/-! ## Characters -/

theorem symbolType_of_isLetter {c : Char} (h : isLetter c) : symbolType c = none := by
  unfold symbolType
  split <;> first | rfl | exact absurd h (by decide)

theorem symbolType_of_isDigit {c : Char} (h : isDigit c) : symbolType c = none := by
  unfold symbolType
  split <;> first | rfl | exact absurd h (by decide)

theorem isBlank_cases {c : Char} (h : isBlank c) : c = ' ' ∨ c = '\n' ∨ c = '\r' ∨ c = '\t' := by
  simpa [isBlank] using h

theorem isLetter_of_isBlank {c : Char} (h : isBlank c) : isLetter c = false := by
  rcases isBlank_cases h with rfl | rfl | rfl | rfl <;> rfl

theorem isDigit_of_isBlank {c : Char} (h : isBlank c) : isDigit c = false := by
  rcases isBlank_cases h with rfl | rfl | rfl | rfl <;> rfl

theorem isBlank_of_isLetter {c : Char} (h : isLetter c) : isBlank c = false := by
  cases hblank : isBlank c with
  | false => rfl
  | true => exact absurd h (by rw [isLetter_of_isBlank hblank]; exact Bool.false_ne_true)

theorem isBlank_of_isDigit {c : Char} (h : isDigit c) : isBlank c = false := by
  cases hblank : isBlank c with
  | false => rfl
  | true => exact absurd h (by rw [isDigit_of_isBlank hblank]; exact Bool.false_ne_true)

theorem isLetter_of_isDigit {c : Char} (h : isDigit c) : isLetter c = false := by
  simp only [isDigit, isLetter, Char.le_def, UInt32.le_iff_toNat_le, decide_eq_true_eq,
    decide_eq_false_iff_not] at h ⊢
  simp at h ⊢
  omega

/-! ## Keywords -/

theorem keyword_of_lookup {text : Text} {type : TokenType}
    (h : reservedKeywords.lookup text = some type) : (text, type) ∈ reservedKeywords := by
  obtain ⟨before, behind, heq, _⟩ := List.lookup_eq_some_iff.mp h
  rw [heq]
  simp

theorem keyword_not_integer {text : Text} {type : TokenType}
    (h : reservedKeywords.lookup text = some type) : type ≠ .integer := by
  have hall : ∀ entry ∈ reservedKeywords, entry.2 ≠ .integer := by decide
  exact hall _ (keyword_of_lookup h)

/-! ## Standing on a character -/

/-- The lexer that has `done` behind it and stands on the first character of `rest`. -/
def reached (done rest : Text) (tokens : List Token) : Lexer :=
  ⟨done ++ rest, done.length, done.length + 1, rest.headD '\x00', tokens⟩

variable {done rest : Text} {tokens : List Token} {c d : Char}

theorem isAtEnd_reached : (reached done (c :: rest) tokens).isAtEnd = false := by
  simp [isAtEnd, reached]

theorem peek_reached : (reached done (c :: rest) tokens).peek = rest.headD '\x00' := by
  rw [peek, isAtEnd_reached]
  cases rest with
  | nil => simp [reached]
  | cons d more => simp [reached]

theorem read_eq (l : Lexer) :
    read l = .ok () ⟨l.input, l.nextPosition, l.nextPosition + 1, l.peek, l.tokens⟩ := rfl

theorem read_reached :
    read (reached done (c :: rest) tokens) = .ok () (reached (done ++ [c]) rest tokens) := by
  rw [read_eq, peek_reached]
  simp [reached]

theorem ofInput_reached {input : Text} (hne : input ≠ []) :
    ofInput input = .ok (reached [] input []) := by
  cases input with
  | nil => exact absurd rfl hne
  | cons c rest => rfl

/-- The view from where the token begins to the character the lexer has moved on to. -/
theorem addView_reached (type : TokenType) (done front : Text) (c : Char) (rest : Text)
    (tokens : List Token) :
    addView type done.length (reached (done ++ front) (c :: rest) tokens) =
      ⟨type, front ++ [c], rest⟩ := by
  have hlength : (done ++ front).length - done.length + 1 = (front ++ [c]).length := by
    simp
  have hinput : done ++ front ++ c :: rest = done ++ (front ++ [c] ++ rest) := by
    simp
  simp only [addView, reached, hlength, hinput, Token.mk.injEq, true_and]
  constructor
  · rw [List.append_assoc, List.drop_left, List.append_assoc, List.take_left]
  · rw [← List.append_assoc, ← List.length_append, List.drop_left]

/-! ## Scanning loops -/

theorem readWhile_stop {goesOn : Lexer → Bool} {l : Lexer} (h : goesOn l = false) (rounds : Nat) :
    readWhile goesOn (rounds + 1) l = .ok () l := by
  simp [readWhile, bind_apply, h]

theorem readWhile_go {goesOn : Lexer → Bool} {l l' : Lexer} (h : goesOn l = true)
    (hread : read l = .ok () l') {rounds : Nat} :
    readWhile goesOn (rounds + 1) l = readWhile goesOn rounds l' := by
  simp [readWhile, bind_apply, h, hread]

/--
A loop that goes on over the run and stops behind it leaves the lexer on the last
character of the run, wherever it began.
-/
theorem readWhile_reached {goesOn : Lexer → Bool} {run : Text}
    (hgoes : ∀ done c, ∀ d ∈ run, ∀ more, goesOn (reached done (c :: d :: more) tokens) = true)
    (hstops : ∀ done c, goesOn (reached done (c :: rest) tokens) = false) (done : Text) (c : Char)
    {rounds : Nat} (hrounds : run.length < rounds) :
    ∃ front last, c :: run = front ++ [last] ∧
      readWhile goesOn rounds (reached done (c :: (run ++ rest)) tokens) =
        .ok () (reached (done ++ front) (last :: rest) tokens) := by
  induction run generalizing done c rounds with
  | nil =>
      obtain ⟨rounds, rfl⟩ : ∃ r, rounds = r + 1 := ⟨rounds - 1, by omega⟩
      refine ⟨[], c, rfl, ?_⟩
      rw [List.nil_append, List.append_nil]
      exact readWhile_stop (hstops done c) rounds
  | cons d more ih =>
      obtain ⟨rounds, rfl⟩ : ∃ r, rounds = r + 1 :=
        ⟨rounds - 1, by simp only [List.length_cons] at hrounds; omega⟩
      obtain ⟨front, last, hrun, hloop⟩ := ih
        (fun done c d' hd' => hgoes done c d' (List.mem_cons_of_mem _ hd')) (done ++ [c]) d
        (Nat.lt_of_succ_lt_succ hrounds)
      refine ⟨c :: front, last, by rw [hrun, List.cons_append], ?_⟩
      have hgo : goesOn (reached done (c :: (d :: more ++ rest)) tokens) = true :=
        hgoes done c d List.mem_cons_self (more ++ rest)
      rw [readWhile_go hgo read_reached, List.cons_append, hloop, List.append_assoc,
        List.singleton_append]

theorem roundsFor_reached (done : Text) (c : Char) (run rest : Text) (tokens : List Token) :
    run.length < (reached done (c :: (run ++ rest)) tokens).roundsFor := by
  simp only [roundsFor, reached, List.length_append, List.length_cons]
  omega

/-- The loops that look at the next character only. -/
theorem readWhile_peek {p : Char → Bool} {run : Text} (hrun : ∀ d ∈ run, p d = true)
    (hnext : p (rest.headD '\x00') = false) (done : Text) (c : Char) (tokens : List Token) :
    ∃ front last, c :: run = front ++ [last] ∧
      readWhile (fun l => p l.peek) (reached done (c :: (run ++ rest)) tokens).roundsFor
          (reached done (c :: (run ++ rest)) tokens) =
        .ok () (reached (done ++ front) (last :: rest) tokens) := by
  apply readWhile_reached _ _ done c (roundsFor_reached done c run rest tokens)
  · intro done c d hd more
    rw [peek_reached]
    exact hrun d hd
  · intro done c
    rw [peek_reached]
    exact hnext

/-- The loop of `parseString`, which is not at the end before the closing quote. -/
theorem readWhile_quote {run : Text} (hrun : '"' ∉ run) (done : Text) (c : Char) (rest : Text)
    (tokens : List Token) :
    ∃ front last, c :: run = front ++ [last] ∧
      readWhile (fun l => !l.isAtEnd && l.peek != '"')
          (reached done (c :: (run ++ '"' :: rest)) tokens).roundsFor
          (reached done (c :: (run ++ '"' :: rest)) tokens) =
        .ok () (reached (done ++ front) (last :: '"' :: rest) tokens) := by
  apply readWhile_reached _ _ done c (roundsFor_reached done c run ('"' :: rest) tokens)
  · intro done c d hd more
    have hne : d ≠ '"' := fun heq => hrun (heq ▸ hd)
    rw [isAtEnd_reached, peek_reached]
    simpa using hne
  · intro done c
    rw [isAtEnd_reached, peek_reached]
    rfl

/-! ## Tokens -/

/-- What a case of the switch leaves: the last character of the token, and the token. -/
def Appends (x : Lexing Unit) (text rest : Text) (token : Token) : Prop :=
  ∀ done tokens, ∃ front last, text = front ++ [last] ∧
    x (reached done (text ++ rest) tokens) =
      .ok () (reached (done ++ front) (last :: rest) (tokens ++ [token]))

/-- The same up to what stands behind the literal, which matters for an integer only. -/
def Adds (x : Lexing Unit) (text rest : Text) (token : Token) : Prop :=
  ∀ done tokens, ∃ front last behind, text = front ++ [last] ∧
    (token.type = .integer → behind = rest) ∧
    x (reached done (text ++ rest) tokens) =
      .ok () (reached (done ++ front) (last :: rest)
        (tokens ++ [⟨token.type, token.literal, behind⟩]))

theorem Appends.adds {x : Lexing Unit} {text rest : Text} {token : Token}
    (h : Appends x text rest token) (hbehind : token.type = .integer → token.behind = rest) :
    Adds x text rest ⟨token.type, token.literal, []⟩ := by
  intro done tokens
  obtain ⟨front, last, htext, hrun⟩ := h done tokens
  exact ⟨front, last, token.behind, htext, hbehind, hrun⟩

theorem appends_number {text : Text} (hne : text ≠ []) (hdigits : ∀ d ∈ text, isDigit d)
    (hnext : isDigit (rest.headD '\x00') = false) :
    Appends addNumber text rest ⟨.integer, text, rest⟩ := by
  intro done tokens
  cases text with
  | nil => exact absurd rfl hne
  | cons c run =>
      obtain ⟨front, last, htext, hloop⟩ := readWhile_peek
        (fun d hd => hdigits d (List.mem_cons_of_mem _ hd)) hnext done c tokens
      -- the loop stands on a digit, so the test for a dot fails
      have hlast : last ≠ '.' := by
        rintro rfl
        have hdot := hdigits '.' (by simp [htext])
        exact absurd hdot (by decide)
      refine ⟨front, last, htext, ?_⟩
      rw [List.cons_append]
      simp only [addNumber, bind_apply, get_apply, hloop]
      rw [if_neg fun hdot => hlast hdot.1, htext, ← addView_reached _ done front last rest tokens]
      rfl

theorem adds_number {text : Text} (hne : text ≠ []) (hdigits : ∀ d ∈ text, isDigit d)
    (hnext : isDigit (rest.headD '\x00') = false) :
    Adds addNumber text rest ⟨.integer, text, []⟩ :=
  (appends_number hne hdigits hnext).adds fun _ => rfl

theorem appends_string {text : Text} (hne : text ≠ []) (hquote : '"' ∉ text) (rest : Text) :
    Appends parseString ('"' :: text ++ ['"']) rest ⟨.string, text, '"' :: rest⟩ := by
  intro done tokens
  cases text with
  | nil => exact absurd rfl hne
  | cons c run =>
      have hrun : '"' ∉ run := fun hin => hquote (List.mem_cons_of_mem _ hin)
      obtain ⟨front, last, htext, hloop⟩ := readWhile_quote hrun (done ++ ['"']) c rest tokens
      refine ⟨'"' :: c :: run, '"', by simp, ?_⟩
      have hinput : '"' :: c :: run ++ ['"'] ++ rest = '"' :: (c :: (run ++ '"' :: rest)) := by
        simp
      have hdone : done ++ '"' :: c :: run = done ++ ['"'] ++ front ++ [last] := by
        rw [htext]
        simp
      rw [hinput]
      simp only [parseString, bind_apply, get_apply, read_reached, hloop]
      rw [hdone, htext, ← addView_reached _ (done ++ ['"']) front last ('"' :: rest) tokens]
      rfl

theorem adds_string {text : Text} (hne : text ≠ []) (hquote : '"' ∉ text) (rest : Text) :
    Adds parseString ('"' :: text ++ ['"']) rest ⟨.string, text, []⟩ := by
  apply (appends_string hne hquote rest).adds
  intro impossible
  cases impossible

/-- The token of a word: the literal of a keyword is not a view into the text. -/
def wordToken (text rest : Text) : Token :=
  match reservedKeywords.lookup text with
  | some type => ⟨type, text, []⟩
  | none => ⟨.identifier, text, rest⟩

theorem appends_word {text : Text} (hne : text ≠ []) (hletters : ∀ d ∈ text, isLetter d)
    (hnext : isLetter (rest.headD '\x00') = false) :
    Appends addIdentifier text rest (wordToken text rest) := by
  intro done tokens
  cases text with
  | nil => exact absurd rfl hne
  | cons c run =>
      obtain ⟨front, last, htext, hloop⟩ := readWhile_peek
        (fun d hd => hletters d (List.mem_cons_of_mem _ hd)) hnext done c tokens
      have hview := addView_reached .identifier done front last rest tokens
      rw [← htext] at hview
      have hposition : (reached done (c :: (run ++ rest)) tokens).position = done.length := rfl
      refine ⟨front, last, htext, ?_⟩
      rw [List.cons_append, wordToken]
      simp only [addIdentifier, bind_apply, get_apply, hloop, hposition, hview]
      cases hword : reservedKeywords.lookup (c :: run) with
      | some type => rfl
      | none => rfl

theorem adds_word {text : Text} (hne : text ≠ []) (hletters : ∀ d ∈ text, isLetter d)
    (hnext : isLetter (rest.headD '\x00') = false) :
    Adds addIdentifier text rest
      ⟨(reservedKeywords.lookup text).getD .identifier, text, []⟩ := by
  have happends := appends_word hne hletters hnext
  unfold wordToken at happends
  cases hword : reservedKeywords.lookup text with
  | some type =>
      rw [hword] at happends
      exact happends.adds fun hinteger => absurd hinteger (keyword_not_integer hword)
  | none =>
      rw [hword] at happends
      exact happends.adds fun _ => rfl

/-! ## A step of the lexer -/

/-- A character that a test accepts is none that the test refuses. -/
theorem ne_of_accepts {p : Char → Bool} {c d : Char} (h : p c) (hd : p d = false) : c ≠ d := by
  rintro rfl
  rw [hd] at h
  cases h

theorem nextToken_word {l l' : Lexer} (h : isLetter l.current)
    (hadds : addIdentifier l = .ok () l') : nextToken l = read l' := by
  have hquote : l.current ≠ '"' := ne_of_accepts h rfl
  simp [nextToken, bind_apply, symbolType_of_isLetter h, isBlank_of_isLetter h, hquote, h, hadds]

theorem nextToken_number {l l' : Lexer} (h : isDigit l.current)
    (hadds : addNumber l = .ok () l') : nextToken l = read l' := by
  have hquote : l.current ≠ '"' := ne_of_accepts h rfl
  simp [nextToken, bind_apply, symbolType_of_isDigit h, isBlank_of_isDigit h, hquote,
    isLetter_of_isDigit h, h, hadds]

theorem nextToken_string {l l' : Lexer} (h : l.current = '"')
    (hadds : parseString l = .ok () l') : nextToken l = read l' := by
  have hsymbol : symbolType '"' = none := rfl
  simp [nextToken, bind_apply, h, hsymbol, hadds]

theorem nextToken_symbol {l : Lexer} {type : TokenType} (h : symbolType l.current = some type) :
    nextToken l = read { l with tokens := l.tokens ++ [⟨type, [], []⟩] } := by
  simp [nextToken, bind_apply, h, addToken]

theorem nextToken_blank {l : Lexer} (h : isBlank l.current) : nextToken l = read l := by
  have hsymbol : symbolType l.current = none := by
    rcases isBlank_cases h with heq | heq | heq | heq <;> rw [heq] <;> rfl
  have hquote : l.current ≠ '"' := ne_of_accepts h rfl
  simp [nextToken, bind_apply, hsymbol, hquote, h]

theorem nextToken_symbol_reached {type : TokenType} (h : symbolType c = some type)
    (done rest : Text) (tokens : List Token) :
    nextToken (reached done (c :: rest) tokens) =
      .ok () (reached (done ++ [c]) rest (tokens ++ [⟨type, [], []⟩])) :=
  (nextToken_symbol h).trans read_reached

/-- The `read` at the end of a step leaves the lexer on what follows the token. -/
theorem nextToken_of_appends {x : Lexing Unit} {text : Text} {token : Token}
    (h : Appends x text rest token) (done : Text) (tokens : List Token)
    (hstep : ∀ l', x (reached done (text ++ rest) tokens) = .ok () l' →
      nextToken (reached done (text ++ rest) tokens) = read l') :
    nextToken (reached done (text ++ rest) tokens) =
      .ok () (reached (done ++ text) rest (tokens ++ [token])) := by
  obtain ⟨front, last, rfl, hrun⟩ := h done tokens
  rw [hstep _ hrun, read_reached, List.append_assoc]

theorem current_reached {done text : Text} {tokens : List Token} {p : Char → Prop}
    (hne : text ≠ []) (hall : ∀ c ∈ text, p c) :
    p (reached done (text ++ rest) tokens).current := by
  cases text with
  | nil => exact absurd rfl hne
  | cons c run => exact hall c List.mem_cons_self

/-- Digits that no digit follows are an integer, whatever else follows. -/
theorem nextToken_digits {text : Text} (hne : text ≠ []) (hdigits : ∀ d ∈ text, isDigit d)
    (hnext : isDigit (rest.headD '\x00') = false) (done : Text) (tokens : List Token) :
    nextToken (reached done (text ++ rest) tokens) =
      .ok () (reached (done ++ text) rest (tokens ++ [⟨.integer, text, rest⟩])) :=
  nextToken_of_appends (appends_number hne hdigits hnext) done tokens fun _ =>
    nextToken_number (current_reached hne hdigits)

theorem nextToken_letters {text : Text} (hne : text ≠ []) (hletters : ∀ d ∈ text, isLetter d)
    (hnext : isLetter (rest.headD '\x00') = false) (done : Text) (tokens : List Token) :
    nextToken (reached done (text ++ rest) tokens) =
      .ok () (reached (done ++ text) rest (tokens ++ [wordToken text rest])) :=
  nextToken_of_appends (appends_word hne hletters hnext) done tokens fun _ =>
    nextToken_word (current_reached hne hletters)

theorem nextToken_quoted {text : Text} (hne : text ≠ []) (hquote : '"' ∉ text)
    (done rest : Text) (tokens : List Token) :
    nextToken (reached done ('"' :: text ++ ['"'] ++ rest) tokens) =
      .ok () (reached (done ++ ('"' :: text ++ ['"'])) rest
        (tokens ++ [⟨.string, text, '"' :: rest⟩])) :=
  nextToken_of_appends (appends_string hne hquote rest) done tokens fun _ =>
    nextToken_string rfl

/-! ## The rounds suffice -/

section Rounds

variable {text : Text} {n : Nat}

/-- The lexer reads the text and its next character is not before the given position. -/
structure Reading (text : Text) (n : Nat) (l : Lexer) : Prop where
  input : l.input = text
  next : n ≤ l.nextPosition

/-- A lexer on a character that is not NUL stands inside the text. -/
def Standing (l : Lexer) : Prop := l.current ≠ '\x00' → l.nextPosition ≤ l.input.length

/-- Every failure but running out of rounds. -/
abbrev Bounded (failure : Failure) (_ : Lexer) : Prop := failure ≠ .outOfFuel

theorem Reading.mono {l : Lexer} {m : Nat} (h : Reading text n l) (hle : m ≤ n) :
    Reading text m l :=
  ⟨h.input, Nat.le_trans hle h.next⟩

theorem standing_read (l : Lexer) :
    Standing ⟨l.input, l.nextPosition, l.nextPosition + 1, l.peek, l.tokens⟩ := by
  intro hcurrent
  by_contra hbehind
  apply hcurrent
  have hlength : l.input.length ≤ l.nextPosition := Nat.le_of_lt_succ (Nat.lt_of_not_le hbehind)
  simp [peek, List.getElem?_eq_none hlength]

theorem inside_of_peek {l : Lexer} (h : l.peek ≠ '\x00') : l.nextPosition ≤ l.input.length := by
  by_contra hbehind
  apply h
  simp [peek, isAtEnd, Nat.lt_of_not_le hbehind]

theorem inside_of_isDigit {l : Lexer} (h : isDigit l.peek = true) :
    l.nextPosition ≤ l.input.length :=
  inside_of_peek (ne_of_accepts h rfl)

theorem inside_of_isLetter {l : Lexer} (h : isLetter l.peek = true) :
    l.nextPosition ≤ l.input.length :=
  inside_of_peek (ne_of_accepts h rfl)

theorem inside_of_quote {l : Lexer} (h : (!l.isAtEnd && l.peek != '"') = true) :
    l.nextPosition ≤ l.input.length := by
  rw [Bool.and_eq_true, Bool.not_eq_true'] at h
  simpa [isAtEnd] using h.1

theorem read_reading :
    Ensures (Reading text n) read (fun _ l => Reading text (n + 1) l ∧ Standing l) Bounded := by
  apply Ensures.change
  intro l hl
  exact ⟨⟨hl.input, Nat.succ_le_succ hl.next⟩, standing_read l⟩

theorem addToken_reading (token : Token) :
    Ensures (Reading text n) (addToken token) (fun _ => Reading text n) Bounded := by
  apply Ensures.change
  intro l hl
  exact ⟨hl.input, hl.next⟩

/-- A loop that does not go on behind the end of the text ends within its rounds. -/
theorem readWhile_reading {goesOn : Lexer → Bool}
    (hend : ∀ l, goesOn l = true → l.nextPosition ≤ l.input.length) {rounds : Nat}
    (hrounds : text.length < n + rounds) :
    Ensures (Reading text n) (readWhile goesOn (rounds + 1)) (fun _ => Reading text n)
      Bounded := by
  induction rounds generalizing n with
  | zero =>
      apply Ensures.inspect
      intro l hl
      have hstop : goesOn l = false := by
        by_contra hgo
        have hinside := hend l (by simpa using hgo)
        have hnext := hl.next
        rw [hl.input] at hinside
        omega
      simp only [hstop]
      exact .ret fun _ h => h
  | succ rounds ih =>
      apply Ensures.inspect
      intro l hl
      split
      · have hmore := ih (n := n + 1) (by omega)
        apply read_reading.seq
        intro _
        exact hmore.conseq (fun _ h => h.1) (fun _ _ h => h.mono (Nat.le_succ n)) fun _ _ h => h
      · exact .ret fun _ h => h

/-- The rounds that the scanning functions grant their loops. -/
theorem readWhile_granted {goesOn : Lexer → Bool}
    (hend : ∀ l, goesOn l = true → l.nextPosition ≤ l.input.length) (hpos : 0 < n) {start : Lexer}
    (hstart : Reading text n start) :
    Ensures (Reading text n) (readWhile goesOn start.roundsFor) (fun _ => Reading text n)
      Bounded := by
  rw [roundsFor, hstart.input]
  exact readWhile_reading hend (by omega)

theorem addNumber_reading (hpos : 0 < n) :
    Ensures (Reading text n) addNumber (fun _ => Reading text n) Bounded := by
  apply Ensures.inspect
  intro start hstart
  have hloop := readWhile_granted (fun _ => inside_of_isDigit) hpos hstart
  apply hloop.seq
  intro _
  apply Ensures.inspect
  intro l hl
  split
  · apply hloop.seq
    intro _
    apply Ensures.inspect
    intro l' hl'
    exact addToken_reading _
  · exact addToken_reading _

theorem addIdentifier_reading (hpos : 0 < n) :
    Ensures (Reading text n) addIdentifier (fun _ => Reading text n) Bounded := by
  apply Ensures.inspect
  intro start hstart
  apply (readWhile_granted (fun _ => inside_of_isLetter) hpos hstart).seq
  intro _
  apply Ensures.inspect
  intro l hl
  dsimp only
  split
  · exact addToken_reading _
  · exact addToken_reading _

theorem parseString_reading :
    Ensures (Reading text n) parseString (fun _ => Reading text n) Bounded := by
  apply (read_reading.conseq (fun _ h => h) (fun _ _ h => h.1) fun _ _ h => h).seq
  intro _
  apply Ensures.inspect
  intro start hstart
  apply (readWhile_granted (fun _ => inside_of_quote) (Nat.succ_pos n) hstart).seq
  intro _
  apply Ensures.inspect
  intro l hl
  apply read_reading.seq
  intro _
  exact (addToken_reading _).conseq (fun _ h => h.1) (fun _ _ h => h.mono (by omega))
    fun _ _ h => h

/-- A step returns behind at least one more character, or the character is unknown. -/
theorem nextToken_reading (hpos : 0 < n) :
    Ensures (Reading text n) nextToken (fun _ l => Reading text (n + 1) l ∧ Standing l)
      Bounded := by
  apply Ensures.inspect
  intro l hl
  have hread : Ensures (Reading text n) read
      (fun _ l => Reading text (n + 1) l ∧ Standing l) Bounded := read_reading
  split
  · exact (addToken_reading _).seq fun _ => hread
  · split
    · exact parseString_reading.seq fun _ => hread
    · split
      · exact hread
      · split
        · exact (addIdentifier_reading hpos).seq fun _ => hread
        · split
          · exact (addNumber_reading hpos).seq fun _ => hread
          · exact Ensures.seq (.fail fun _ _ => nofun) fun _ => hread

theorem nextTokens_reading {rounds : Nat} (hpos : 0 < n) (hrounds : text.length < n + rounds) :
    Ensures (fun l => Reading text n l ∧ Standing l) (nextTokens (rounds + 1))
      (fun _ _ => True) Bounded := by
  induction rounds generalizing n with
  | zero =>
      apply Ensures.inspect
      rintro l ⟨hl, hstanding⟩
      split
      · exact .ret fun _ _ => trivial
      · rename_i hcurrent
        have hinside := hstanding hcurrent
        have hnext := hl.next
        rw [hl.input] at hinside
        omega
  | succ rounds ih =>
      apply Ensures.inspect
      rintro l ⟨hl, hstanding⟩
      split
      · exact .ret fun _ _ => trivial
      · have hstep : Ensures (fun l => Reading text n l ∧ Standing l) nextToken
            (fun _ l => Reading text (n + 1) l ∧ Standing l) Bounded :=
          (nextToken_reading hpos).conseq (fun _ h => h.1) (fun _ _ h => h) fun _ _ h => h
        exact hstep.seq fun _ => ih (Nat.succ_pos n) (by omega)

/-- The rounds granted to the loops suffice for every text. -/
theorem tokensOf_bounded (text : Text) : tokensOf text ≠ .error .outOfFuel := by
  intro herror
  by_cases hne : text = []
  · rw [hne] at herror
    cases herror
  · have hstart : Reading text 1 (reached [] text []) := ⟨rfl, Nat.le_refl 1⟩
    have hstanding : Standing (reached [] text []) := fun _ => List.length_pos_iff.mpr hne
    have hrun := nextTokens_reading Nat.one_pos (show text.length < 1 + text.length by omega)
      (reached [] text []) ⟨hstart, hstanding⟩
    have hgranted : nextTokens (reached [] text []).roundsFor (reached [] text []) =
        nextTokens (text.length + 1) (reached [] text []) := rfl
    simp only [tokensOf, ofInput_reached hne, ok_bind, getTokens, bind_apply, get_apply,
      hgranted] at herror
    cases hend : nextTokens (text.length + 1) (reached [] text []) with
    | ok a l => simp [hend] at herror
    | error failure l =>
        simp only [hend, Except.error.injEq] at herror
        exact hrun.2 failure l hend herror

end Rounds

end Lexer

end HiveDb
