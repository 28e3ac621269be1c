import HiveDb.Parser.Cursor
import HiveDb.Parser.Pushdown
import HiveDb.Parser.RoundTrip

/-!
# Where the parser reads past its tokens

`current()` is called behind the last token by the error message of
`primaryExpr`, and by that of `expr` where there are no tokens.  Every function
for expressions is followed through the positions of the automaton: it returns
where the automaton goes on, and throws where the automaton has stopped.
-/

namespace HiveDb.Parser

open HiveDb.Lib

variable {α β : Type}

/-! ## The outcome of a function for expressions -/

section Outcomes

variable [FloatUnit] {ι κ : Type} {phrase phrase' : Phrase}
variable {start ends : ι → Position} {start' ends' : κ → Position}

/--
What the function for a phrase has come to.  It returns behind a phrase, and
reads the token behind the last one where the tokens are cut short; where it
throws, the tokens are not read to where an operand has to follow.
-/
def Meets (phrase : Phrase) (start ends : ι → Position) (tokens : List Token) :
    EStateM.Result Failure (List Token) α → Prop
  | .ok _ rest => (∃ e, tokens = e ++ rest ∧ Derives phrase e) ∧
      ∀ i, Waits (start i) tokens ↔ Waits (ends i) rest
  | .error .undefined rest => rest = [] ∧ CutShort phrase tokens
  | .error .outOfFuel _ => True
  | .error failure _ => failure.isException = true ∧ ∀ i, ¬ Waits (start i) tokens

theorem Meets.throws {failure : Failure} {tokens s : List Token}
    (hexception : failure.isException = true) (h : ∀ i, ¬ Waits (start i) tokens) :
    Meets phrase start ends tokens (.error failure s : EStateM.Result Failure (List Token) α) := by
  cases failure with
  | assertion => cases hexception
  | undefined => cases hexception
  | outOfFuel => trivial
  | runtimeError what => exact ⟨rfl, h⟩
  | invalidArgument what => exact ⟨rfl, h⟩
  | outOfRange => exact ⟨rfl, h⟩

theorem Meets.of_throws {failure : Failure} {tokens s : List Token}
    (h : Meets phrase start ends tokens
      (.error failure s : EStateM.Result Failure (List Token) α))
    (hundefined : failure ≠ .undefined) (hfuel : failure ≠ .outOfFuel) :
    failure.isException = true ∧ ∀ i, ¬ Waits (start i) tokens := by
  cases failure with
  | undefined => exact absurd rfl hundefined
  | outOfFuel => exact absurd rfl hfuel
  | assertion => exact h
  | runtimeError what => exact h
  | invalidArgument what => exact h
  | outOfRange => exact h

/-- A failure of one function is the failure of the function that has called it. -/
theorem Meets.of_error {failure : Failure} {tokens tokens' s : List Token}
    (h : Meets phrase start ends tokens
      (.error failure s : EStateM.Result Failure (List Token) α))
    (hcut : CutShort phrase tokens → CutShort phrase' tokens')
    (hwaits : ∀ j, Waits (start' j) tokens' → ∃ i, Waits (start i) tokens) :
    Meets phrase' start' ends' tokens'
      (.error failure s : EStateM.Result Failure (List Token) β) := by
  have hnot (hthrows : ∀ i, ¬ Waits (start i) tokens) (j : κ) : ¬ Waits (start' j) tokens' := by
    intro hwait
    obtain ⟨i, hi⟩ := hwaits j hwait
    exact hthrows i hi
  cases failure with
  | undefined => exact ⟨h.1, hcut h.2⟩
  | outOfFuel => trivial
  | assertion => exact ⟨h.1, hnot h.2⟩
  | runtimeError what => exact ⟨h.1, hnot h.2⟩
  | invalidArgument what => exact ⟨h.1, hnot h.2⟩
  | outOfRange => exact ⟨h.1, hnot h.2⟩

/-- A call of one function by another, which goes on behind what the first one has read. -/
theorem Meets.seq {x : Parsing α} {f : α → Parsing β} {tokens tokens' : List Token}
    (hx : Meets phrase start ends tokens (x tokens))
    (hcut : CutShort phrase tokens → CutShort phrase' tokens')
    (hwaits : ∀ j, Waits (start' j) tokens' → ∃ i, Waits (start i) tokens)
    (hf : ∀ a e rest, tokens = e ++ rest → Derives phrase e → x tokens = .ok a rest →
      (∀ i, Waits (start i) tokens ↔ Waits (ends i) rest) →
        Meets phrase' start' ends' tokens' (f a rest)) :
    Meets phrase' start' ends' tokens' ((x >>= f) tokens) := by
  rw [bind_apply]
  cases hrun : x tokens with
  | ok a rest =>
      rw [hrun] at hx
      obtain ⟨⟨e, htokens, hderives⟩, hsame⟩ := hx
      exact hf a e rest htokens hderives hrun hsame
  | error failure s =>
      rw [hrun] at hx
      exact hx.of_error hcut hwaits

/-! ## Positions that are not left -/

theorem not_waits {position : Position} {tokens : List Token} (hend : ¬ position.BeforeOperand)
    (hstep : ∀ next ∈ tokens.head?, position.step next = none) : ¬ Waits position tokens := by
  cases tokens with
  | nil => exact hend
  | cons token rest => exact EndsIn.not_cons (hstep token rfl)

theorem waits_cons {position next : Position} {token : Token} {tokens : List Token}
    (hstep : position.step token = some next) :
    Waits position (token :: tokens) ↔ Waits next tokens := EndsIn.cons_iff hstep

/-- Two positions that take the same next token. -/
theorem waits_congr {position position' : Position} {tokens : List Token}
    (hend : position.BeforeOperand ↔ position'.BeforeOperand)
    (hstep : ∀ next ∈ tokens.head?, position.step next = position'.step next) :
    Waits position tokens ↔ Waits position' tokens := by
  cases tokens with
  | nil => exact hend
  | cons token rest => exact EndsIn.congr_step (hstep token rfl)

end Outcomes

/-! ## The functions for expressions -/

section Expressions

variable [FloatUnit]

/-- Behind a binary expression there is no operator. -/
theorem binaryExpr_stops {depth : Nat} {tokens rest : List Token} {e : Exprs}
    (h : binaryExpr depth tokens = .ok e rest) :
    ∀ next ∈ rest.head?, ¬ next.type.binaryOperator.isSome := by
  induction depth generalizing tokens e with
  | zero => cases h
  | succ depth ih =>
      obtain ⟨lhs, middle, _, htail⟩ := bind_eq_ok_iff.mp h
      rcases accept_cases (ε := Failure) (fun token : Token => token.type.binaryOperator) middle
        with ⟨first, others, op, rfl, htaken, hrun⟩ | ⟨hnone, hrun⟩
      · rw [bind_of_ok hrun] at htail
        obtain ⟨rhs, last, hrhs, hend⟩ := bind_eq_ok_iff.mp htail
        cases hend
        exact ih hrhs
      · rw [bind_of_ok hrun] at htail
        cases htail
        intro next hnext
        rw [hnone next hnext]
        exact Bool.false_ne_true

theorem meets_unary {depth : Nat} {tokens : List Token}
    (hunary : ∀ tokens, Meets .unaryExpr .operand .behind tokens (unaryExpr depth tokens))
    (hprimary : (∀ next ∈ tokens.head?, next.type.unaryOperator = none) →
      Meets .unaryExpr .operand .behind tokens (primaryExpr depth tokens)) :
    Meets .unaryExpr .operand .behind tokens (unaryExpr (depth + 1) tokens) := by
  rcases accept_cases (ε := Failure) (fun token : Token => token.type.unaryOperator) tokens with
    ⟨first, others, op, rfl, htaken, hrun⟩ | ⟨hnone, hrun⟩
  · rw [unaryExpr, bind_of_ok hrun]
    have hop : first.type.unaryOperator.isSome := by rw [htaken, Option.isSome_some]
    have hstep (frames : List Frame) :
        (Position.operand frames).step first = some (.operand frames) := beginOperand_unary hop
    refine Meets.seq (hunary others) (fun hcut => hcut.unary hop)
      (fun frames hwaits => ⟨frames, (waits_cons (hstep frames)).mp hwaits⟩) ?_
    rintro rhs e rest rfl hrhs _ hsame
    exact ⟨⟨first :: e, rfl, .unary hop hrhs⟩, fun frames => (waits_cons (hstep frames)).trans
      (hsame frames)⟩
  · rw [unaryExpr, bind_of_ok hrun]
    exact hprimary hnone

theorem meets_binary {depth : Nat} {tokens : List Token}
    (hunary : Meets .unaryExpr .operand .behind tokens (unaryExpr depth tokens))
    (hbinary : ∀ tokens, Meets .binaryExpr .operand .behind tokens (binaryExpr depth tokens)) :
    Meets .binaryExpr .operand .behind tokens (binaryExpr (depth + 1) tokens) := by
  refine Meets.seq hunary CutShort.operand (fun frames hwaits => ⟨frames, hwaits⟩) ?_
  rintro lhs e middle rfl hlhs _ hsame
  rcases accept_cases (ε := Failure) (fun token : Token => token.type.binaryOperator) middle with
    ⟨first, others, op, rfl, htaken, hrun⟩ | ⟨hnone, hrun⟩
  · rw [bind_of_ok hrun]
    have hop : first.type.binaryOperator.isSome := by rw [htaken, Option.isSome_some]
    have hwaits (frames : List Frame) : Waits (.operand frames) (e ++ first :: others) ↔
        Waits (.operand frames) others :=
      (hsame frames).trans (waits_cons (goOn_operator hop))
    refine Meets.seq (hbinary others) (fun hcut => hcut.binary hlhs hop)
      (fun frames h => ⟨frames, (hwaits frames).mp h⟩) ?_
    rintro rhs e' rest rfl hrhs _ hsame'
    exact ⟨⟨e ++ first :: e', by simp, .binary hlhs hop hrhs⟩, fun frames =>
      (hwaits frames).trans (hsame' frames)⟩
  · rw [bind_of_ok hrun]
    exact ⟨⟨e, rfl, .operand hlhs⟩, hsame⟩

theorem primaryExpr_groupedSelect {depth : Nat} {left select : Token} {tokens : List Token}
    (hleft : left.type = .parenthesesL) (hselect : select.type = .select) :
    primaryExpr (depth + 1) (left :: select :: tokens) =
      (do
        let e ← selectExpr depth
        let _ ← consume .parenthesesR "Missing parentheses."
        return .grouping e : Parsing Exprs) tokens := by
  obtain ⟨type, literal, behind⟩ := left
  obtain rfl : type = .parenthesesL := hleft
  exact bind_of_ok (matchType_hit hselect)

theorem primaryExpr_grouped {depth : Nat} {left : Token} {tokens : List Token}
    (hleft : left.type = .parenthesesL) (hfirst : ∀ next ∈ tokens.head?, next.type ≠ .select) :
    primaryExpr (depth + 1) (left :: tokens) =
      (do
        let e ← binaryExpr depth
        let _ ← consume .parenthesesR "Missing parentheses."
        return .grouping e : Parsing Exprs) tokens := by
  obtain ⟨type, literal, behind⟩ := left
  obtain rfl : type = .parenthesesL := hleft
  exact bind_of_ok (matchType_miss hfirst)

theorem primaryExpr_bareSelect {depth : Nat} {select : Token} {tokens : List Token}
    (hselect : select.type = .select) :
    primaryExpr (depth + 1) (select :: tokens) =
      (do
        let e ← selectExpr depth
        return .grouping e : Parsing Exprs) tokens := by
  obtain ⟨type, literal, behind⟩ := select
  obtain rfl : type = .select := hselect
  rfl

theorem primaryExpr_number {depth : Nat} {token : Token} {tokens : List Token} :
    (token.type = .integer → primaryExpr (depth + 1) (token :: tokens) =
      (do
        let value ← liftPure (stoi token.data)
        return .literalInt value : Parsing Exprs) tokens) ∧
    (token.type = .real → primaryExpr (depth + 1) (token :: tokens) =
      (do
        let value ← liftPure (stof token.data)
        return .literalReal value : Parsing Exprs) tokens) := by
  obtain ⟨type, literal, behind⟩ := token
  constructor <;> rintro rfl <;> rfl

/-- Any other token is refused with its name. -/
theorem primaryExpr_other (depth : Nat) {token : Token} (tokens : List Token)
    (htype : token.type ∉
      [TokenType.string, .identifier, .integer, .real, .parenthesesL, .select]) :
    ∃ what, primaryExpr (depth + 1) (token :: tokens) =
      .error (.invalidArgument what) (token :: tokens) := by
  obtain ⟨type, literal, behind⟩ := token
  cases type <;> first | exact ⟨_, rfl⟩ | simp at htype

/-- `consume` of the parenthesis behind an expression or a select in parentheses. -/
theorem meets_close {ι : Type} {start ends : ι → Position} {phrase : Phrase}
    {tokens : List Token} {f : Token → Parsing α} {a : α} {err : String}
    (hreturns : ∀ right rest, f right rest = .ok a rest) (before : List Token)
    (hphrase : ∀ right, right.type = .parenthesesR → Derives phrase (before ++ [right]))
    (inside : ι → Position)
    (hinside : ∀ i, Waits (start i) (before ++ tokens) ↔ Waits (inside i) tokens)
    (hend : ∀ i, ¬ (inside i).BeforeOperand)
    (hstep : ∀ i, ∀ next ∈ tokens.head?,
      (inside i).step next = if next.type = .parenthesesR then some (ends i) else none) :
    Meets phrase start ends (before ++ tokens) ((consume .parenthesesR err >>= f) tokens) := by
  rcases consume_cases .parenthesesR err tokens with
    ⟨right, rest, rfl, htype, hrun⟩ | ⟨hmiss, hrun⟩
  · rw [bind_of_ok hrun, hreturns]
    refine ⟨⟨before ++ [right], by simp, hphrase right htype⟩, fun i => (hinside i).trans ?_⟩
    exact waits_cons ((hstep i right rfl).trans (if_pos htype))
  · rw [bind_of_error hrun]
    refine Meets.throws rfl fun i hwaits => ?_
    refine not_waits (hend i) (fun next hnext => ?_) ((hinside i).mp hwaits)
    exact (hstep i next hnext).trans (if_neg (hmiss next hnext))

/-- Where `selectExpr` starts and returns. -/
def selectStart (context : Place × List Frame) : Position := .select context.1 context.2

def selectEnd (context : Place × List Frame) : Position := .behindSelect context.1 context.2

theorem meets_groupedSelect {depth : Nat} {left select : Token} {tokens : List Token}
    (hleft : left.type = .parenthesesL) (htype : select.type = .select)
    (hselect : Meets .selectExpr selectStart selectEnd tokens (selectExpr depth tokens)) :
    Meets .unaryExpr .operand .behind (left :: select :: tokens)
      (primaryExpr (depth + 1) (left :: select :: tokens)) := by
  have hbegin (frames : List Frame) : Waits (.operand frames) (left :: select :: tokens) ↔
      Waits (.grouped frames) (select :: tokens) := waits_cons (beginOperand_left hleft)
  have hbody (frames : List Frame) : Waits (.grouped frames) (select :: tokens) ↔
      Waits (.select .grouped frames) tokens := waits_cons (if_pos htype)
  have hwaits (frames : List Frame) := (hbegin frames).trans (hbody frames)
  rw [primaryExpr_groupedSelect hleft htype]
  refine Meets.seq hselect (fun hcut => hcut.groupedSelect hleft htype)
    (fun frames h => ⟨(.grouped, frames), (hwaits frames).mp h⟩) ?_
  rintro body e middle rfl hderives _ hsame
  exact meets_close (fun _ _ => rfl) (left :: select :: e)
    (fun right hright => .groupedSelect hleft htype hright hderives)
    (fun frames => .behindSelect .grouped frames)
    (fun frames => (hwaits frames).trans (hsame (.grouped, frames))) (fun _ => id)
    fun _ _ _ => rfl

theorem meets_grouped {depth : Nat} {left : Token} {tokens : List Token}
    (hleft : left.type = .parenthesesL) (hfirst : ∀ next ∈ tokens.head?, next.type ≠ .select)
    (hbinary : Meets .binaryExpr .operand .behind tokens (binaryExpr depth tokens)) :
    Meets .unaryExpr .operand .behind (left :: tokens)
      (primaryExpr (depth + 1) (left :: tokens)) := by
  have hbegin (frames : List Frame) : Waits (.operand frames) (left :: tokens) ↔
      Waits (.grouped frames) tokens := waits_cons (beginOperand_left hleft)
  have hinside (frames : List Frame) : Waits (.grouped frames) tokens ↔
      Waits (.operand (.grouping :: frames)) tokens :=
    waits_congr Iff.rfl fun next hnext => if_neg (hfirst next hnext)
  have hwaits (frames : List Frame) := (hbegin frames).trans (hinside frames)
  rw [primaryExpr_grouped hleft hfirst]
  refine Meets.seq hbinary (fun hcut => hcut.grouping hleft hfirst)
    (fun frames h => ⟨.grouping :: frames, (hwaits frames).mp h⟩) ?_
  rintro inner e middle rfl hinner hrun hsame
  have hword : ∀ next ∈ e.head?, next.type ≠ .select := by
    intro next hnext
    apply hfirst
    rwa [List.head?_append_of_ne_nil _ hinner.ne_nil]
  exact meets_close (fun _ _ => rfl) (left :: e)
    (fun right hright => .grouping hleft hright hword hinner)
    (fun frames => .behind (.grouping :: frames))
    (fun frames => (hwaits frames).trans (hsame (.grouping :: frames))) (fun _ => id)
    fun frames next hnext => goOn_grouping (binaryExpr_stops hrun next hnext)

theorem meets_bareSelect {depth : Nat} {select : Token} {tokens : List Token}
    (htype : select.type = .select)
    (hselect : Meets .selectExpr selectStart selectEnd tokens (selectExpr depth tokens)) :
    Meets .unaryExpr .operand .behind (select :: tokens)
      (primaryExpr (depth + 1) (select :: tokens)) := by
  have hwaits (frames : List Frame) : Waits (.operand frames) (select :: tokens) ↔
      Waits (.select .bare frames) tokens := waits_cons (beginOperand_select htype)
  rw [primaryExpr_bareSelect htype]
  refine Meets.seq hselect (fun hcut => hcut.select htype)
    (fun frames h => ⟨(.bare, frames), (hwaits frames).mp h⟩) ?_
  rintro body e rest rfl hbody _ hsame
  refine ⟨⟨select :: e, rfl, .select htype hbody⟩, fun frames => ?_⟩
  exact ((hwaits frames).trans (hsame (.bare, frames))).trans
    (waits_congr Iff.rfl fun _ _ => rfl)

/-- A number is read, or its conversion throws. -/
theorem meets_number {γ : Type} {token : Token} {tokens : List Token} {value : Except Failure γ}
    {f : γ → Exprs} (hoperand : isOperand token = value.isOk)
    (hbegin : token.type.unaryOperator = none) (hleft : token.type ≠ .parenthesesL)
    (hselect : token.type ≠ .select)
    (hthrows : ∀ failure, value = .error failure → failure.isException = true) :
    Meets .unaryExpr .operand .behind (token :: tokens)
      ((do
        let n ← liftPure value
        return f n : Parsing Exprs) tokens) := by
  cases value with
  | ok n =>
      exact ⟨⟨[token], rfl, .literal hoperand⟩, fun frames =>
        waits_cons (beginOperand_literal hoperand)⟩
  | error failure =>
      refine Meets.throws (hthrows failure rfl) fun frames => EndsIn.not_cons ?_
      have hnot : ¬ isOperand token := by
        rw [hoperand]
        exact Bool.false_ne_true
      show beginOperand frames token = none
      simp [beginOperand, hnot, hbegin, hleft, hselect]

theorem meets_primary {depth : Nat} {tokens : List Token}
    (hop : ∀ next ∈ tokens.head?, next.type.unaryOperator = none)
    (hselect : ∀ tokens, Meets .selectExpr selectStart selectEnd tokens (selectExpr depth tokens))
    (hbinary : ∀ tokens, Meets .binaryExpr .operand .behind tokens (binaryExpr depth tokens)) :
    Meets .unaryExpr .operand .behind tokens (primaryExpr (depth + 1) tokens) := by
  cases tokens with
  | nil => exact ⟨rfl, .start⟩
  | cons token rest =>
      by_cases hleft : token.type = .parenthesesL
      · rcases matchType_cases .select rest with ⟨select, others, rfl, htype, _⟩ | ⟨hmiss, _⟩
        · exact meets_groupedSelect hleft htype (hselect others)
        · exact meets_grouped hleft hmiss (hbinary rest)
      by_cases htype : token.type = .select
      · exact meets_bareSelect htype (hselect rest)
      by_cases hinteger : token.type = .integer
      · rw [primaryExpr_number.1 hinteger]
        exact meets_number (by simp [isOperand, hinteger]) (hop token rfl) hleft htype
          fun _ => stoi_throws
      by_cases hreal : token.type = .real
      · rw [primaryExpr_number.2 hreal]
        exact meets_number (by simp [isOperand, hreal]) (hop token rfl) hleft htype
          fun _ => stof_throws
      have hbegin : isOperand token → ∀ frames, Waits (.operand frames) (token :: rest) ↔
          Waits (.behind frames) rest :=
        fun hliteral frames => waits_cons (beginOperand_literal hliteral)
      by_cases hstring : token.type = .string
      · have hliteral : isOperand token := by rw [isOperand, hstring]
        rw [primaryExpr_string hstring]
        exact ⟨⟨[token], rfl, .literal hliteral⟩, hbegin hliteral⟩
      by_cases hidentifier : token.type = .identifier
      · have hliteral : isOperand token := by rw [isOperand, hidentifier]
        rw [primaryExpr_identifier hidentifier]
        exact ⟨⟨[token], rfl, .literal hliteral⟩, hbegin hliteral⟩
      have hother : token.type ∉
          [TokenType.string, .identifier, .integer, .real, .parenthesesL, .select] := by
        simp [hleft, htype, hinteger, hreal, hstring, hidentifier]
      obtain ⟨what, hrun⟩ := primaryExpr_other depth rest hother
      rw [hrun]
      refine Meets.throws rfl fun frames => EndsIn.not_cons ?_
      have hnot : ¬ isOperand token := by
        unfold isOperand
        split <;> simp_all
      show beginOperand frames token = none
      simp [beginOperand, hnot, hop token rfl, hleft, htype]

/-- The end of a select, behind what it selects. -/
theorem meets_from {tokens : List Token} {innerExpr : List Exprs} (before : List Token)
    (hphrase : ∀ clause, FromPhrase clause → Derives .selectExpr (before ++ clause))
    (inside : Place × List Frame → Position)
    (hinside : ∀ c, Waits (selectStart c) (before ++ tokens) ↔ Waits (inside c) tokens)
    (hend : ∀ c, ¬ (inside c).BeforeOperand)
    (hstep : ∀ c, ∀ next ∈ tokens.head?, (inside c).step next = endSelect c.1 c.2 next) :
    Meets .selectExpr selectStart selectEnd (before ++ tokens) (fromClause innerExpr tokens) := by
  rcases matchType_cases .from tokens with ⟨word, rest, rfl, hword, hrun⟩ | ⟨hmiss, hrun⟩
  · rw [fromClause, bind_of_ok hrun]
    have hfrom (c : Place × List Frame) : Waits (selectStart c) (before ++ word :: rest) ↔
        Waits (.fromName c.1 c.2) rest :=
      (hinside c).trans (waits_cons ((hstep c word rfl).trans (if_pos hword)))
    rcases consume_cases .identifier "Invalid select stmt detected! Invalid token detected" rest
      with ⟨name, others, rfl, hname, hrun'⟩ | ⟨hmiss, hrun'⟩
    · simp only [bind_of_ok hrun']
      refine ⟨⟨before ++ [word, name], by simp, hphrase _ (.named hword hname)⟩, fun c => ?_⟩
      exact (hfrom c).trans (waits_cons (if_pos hname))
    · simp only [bind_of_error hrun']
      refine Meets.throws rfl fun c hwaits => ?_
      refine not_waits id (fun next hnext => ?_) ((hfrom c).mp hwaits)
      exact if_neg (hmiss next hnext)
  · rw [fromClause, bind_of_ok hrun]
    refine ⟨⟨before, rfl, ?_⟩, fun c => (hinside c).trans ?_⟩
    · rw [← List.append_nil before]
      exact hphrase _ .none
    · refine waits_congr (iff_of_false (hend c) id) fun next hnext => ?_
      exact (hstep c next hnext).trans (if_neg (hmiss next hnext))

/-- The expressions in the parentheses of a select. -/
def innerExprs (depth : Nat) : Parsing (List Exprs) := do
  let e ← binaryExpr depth
  let rest ← commaExprs depth
  return e :: rest

theorem commaExprs_hit {depth : Nat} {comma : Token} {tokens : List Token}
    (hcomma : comma.type = .comma) :
    commaExprs (depth + 1) (comma :: tokens) = innerExprs depth tokens :=
  bind_of_ok (matchType_hit hcomma)

theorem selectExpr_inner {depth : Nat} {left : Token} {tokens : List Token}
    (hleft : left.type = .parenthesesL) :
    selectExpr (depth + 1) (left :: tokens) =
      (do
        let es ← innerExprs depth
        let _ ← consume .parenthesesR "INVALID SELECT STMT"
        fromClause es : Parsing Exprs) tokens := by
  refine (bind_of_ok (matchType_hit hleft)).trans ?_
  simp only [innerExprs, bind_apply, pure_apply]
  cases binaryExpr depth tokens with
  | error failure s => rfl
  | ok e middle =>
      dsimp only
      cases commaExprs depth middle <;> rfl

theorem selectExpr_single {depth : Nat} {tokens : List Token}
    (hfirst : ∀ next ∈ tokens.head?, next.type ≠ .parenthesesL) :
    selectExpr (depth + 1) tokens =
      (do
        let e ← binaryExpr depth
        fromClause [e] : Parsing Exprs) tokens :=
  bind_of_ok (matchType_miss hfirst)

/-- Where the expressions in the parentheses of a select start and end. -/
def innerStart (context : Place × List Frame) : Position :=
  .operand (.list context.1 :: context.2)

def innerEnd (context : Place × List Frame) : Position := .behind (.list context.1 :: context.2)

theorem innerExprs_stops {depth : Nat} {tokens rest : List Token} {es : List Exprs}
    (h : innerExprs depth tokens = .ok es rest) :
    ∀ next ∈ rest.head?, ¬ next.type.binaryOperator.isSome ∧ next.type ≠ .comma := by
  induction depth generalizing tokens es with
  | zero => cases h
  | succ depth ih =>
      obtain ⟨e, middle, he, htail⟩ := bind_eq_ok_iff.mp h
      obtain ⟨others, last, hothers, hend⟩ := bind_eq_ok_iff.mp htail
      cases hend
      rcases matchType_cases .comma middle with ⟨comma, after, rfl, hcomma, _⟩ | ⟨hmiss, hrun⟩
      · rw [commaExprs_hit hcomma] at hothers
        exact ih hothers
      · rw [commaExprs, bind_of_ok hrun] at hothers
        cases hothers
        exact fun next hnext => ⟨binaryExpr_stops he next hnext, hmiss next hnext⟩

theorem meets_inner {depth : Nat} {tokens : List Token}
    (hbinary : Meets .binaryExpr .operand .behind tokens (binaryExpr (depth + 1) tokens))
    (hinner : ∀ tokens, Meets .innerExpr innerStart innerEnd tokens (innerExprs depth tokens)) :
    Meets .innerExpr innerStart innerEnd tokens (innerExprs (depth + 1) tokens) := by
  refine Meets.seq hbinary CutShort.first (fun c hwaits => ⟨_, hwaits⟩) ?_
  rintro first e middle rfl he hrun hsame
  rcases matchType_cases .comma middle with ⟨comma, others, rfl, hcomma, _⟩ | ⟨hmiss, hrun'⟩
  · have hwaits (c : Place × List Frame) : Waits (innerStart c) (e ++ comma :: others) ↔
        Waits (innerStart c) others := by
      refine (hsame _).trans (waits_cons ?_)
      exact (goOn_list (not_operator_of_type hcomma rfl)).trans (if_pos hcomma)
    have hcall : (commaExprs (depth + 1) >>= fun rest => pure (first :: rest) : Parsing _)
          (comma :: others) =
        (innerExprs depth >>= fun rest => pure (first :: rest) : Parsing _) others := by
      simp only [bind_apply, commaExprs_hit hcomma]
    rw [hcall]
    refine Meets.seq (hinner others) (fun hcut => hcut.more he hcomma)
      (fun c h => ⟨c, (hwaits c).mp h⟩) ?_
    rintro es word rest rfl hes _ hsame'
    exact ⟨⟨e ++ comma :: word, by simp, .more he hcomma hes⟩, fun c =>
      (hwaits c).trans (hsame' c)⟩
  · rw [bind_of_ok (commaExprs_end hmiss)]
    exact ⟨⟨e, rfl, .last he⟩, fun c => hsame _⟩

theorem meets_list {depth : Nat} {left : Token} {tokens : List Token}
    (hleft : left.type = .parenthesesL)
    (hinner : Meets .innerExpr innerStart innerEnd tokens (innerExprs depth tokens)) :
    Meets .selectExpr selectStart selectEnd (left :: tokens)
      (selectExpr (depth + 1) (left :: tokens)) := by
  have hbegin (c : Place × List Frame) : Waits (selectStart c) (left :: tokens) ↔
      Waits (innerStart c) tokens := waits_cons (if_pos hleft)
  rw [selectExpr_inner hleft]
  refine Meets.seq hinner (fun hcut => hcut.list hleft)
    (fun c hwaits => ⟨c, (hbegin c).mp hwaits⟩) ?_
  rintro es word middle rfl hes hrun hsame
  have hstops := innerExprs_stops hrun
  have hwaits (c : Place × List Frame) := (hbegin c).trans (hsame c)
  rcases consume_cases .parenthesesR "INVALID SELECT STMT" middle with
    ⟨right, rest, rfl, hright, hrun'⟩ | ⟨hmiss, hrun'⟩
  · rw [bind_of_ok hrun']
    have hlist (c : Place × List Frame) : goOn (.list c.1 :: c.2) right =
        some (.behindList c.1 c.2) := by
      obtain ⟨hop, hcomma⟩ := hstops right rfl
      rw [goOn_list hop, if_neg hcomma, if_pos hright]
    have happend : left :: (word ++ right :: rest) = (left :: (word ++ [right])) ++ rest := by simp
    rw [happend]
    refine meets_from _ (fun clause hclause => ?_) (fun c => .behindList c.1 c.2) (fun c => ?_)
      (fun _ => id) (fun _ _ _ => rfl)
    · have hderives := Derives.list hleft hright hes hclause
      simpa using hderives
    · rw [← happend]
      exact (hwaits c).trans (waits_cons (hlist c))
  · rw [bind_of_error hrun']
    refine Meets.throws rfl fun c h => not_waits id (fun next hnext => ?_) ((hwaits c).mp h)
    obtain ⟨hop, hcomma⟩ := hstops next hnext
    show goOn (.list c.1 :: c.2) next = none
    rw [goOn_list hop, if_neg hcomma, if_neg (hmiss next hnext)]

theorem meets_single {depth : Nat} {tokens : List Token}
    (hfirst : ∀ next ∈ tokens.head?, next.type ≠ .parenthesesL)
    (hbinary : Meets .binaryExpr .operand .behind tokens (binaryExpr depth tokens)) :
    Meets .selectExpr selectStart selectEnd tokens (selectExpr (depth + 1) tokens) := by
  have hbegin (c : Place × List Frame) : Waits (selectStart c) tokens ↔
      Waits (.operand (.single c.1 :: c.2)) tokens :=
    waits_congr Iff.rfl fun next hnext => if_neg (hfirst next hnext)
  rw [selectExpr_single hfirst]
  refine Meets.seq hbinary (fun hcut => hcut.single hfirst)
    (fun c hwaits => ⟨_, (hbegin c).mp hwaits⟩) ?_
  rintro e word middle rfl he hrun hsame
  have hword : ∀ next ∈ word.head?, next.type ≠ .parenthesesL := by
    intro next hnext
    apply hfirst
    rwa [List.head?_append_of_ne_nil _ he.ne_nil]
  exact meets_from word (fun clause hclause => .single hword he hclause)
    (fun c => .behind (.single c.1 :: c.2)) (fun c => (hbegin c).trans (hsame _)) (fun _ => id)
    fun c next hnext => goOn_single (binaryExpr_stops hrun next hnext)

theorem meets_select {depth : Nat} {tokens : List Token}
    (hbinary : ∀ tokens, Meets .binaryExpr .operand .behind tokens (binaryExpr depth tokens))
    (hinner : ∀ tokens, Meets .innerExpr innerStart innerEnd tokens (innerExprs depth tokens)) :
    Meets .selectExpr selectStart selectEnd tokens (selectExpr (depth + 1) tokens) := by
  rcases matchType_cases .parenthesesL tokens with ⟨left, rest, rfl, hleft, _⟩ | ⟨hmiss, _⟩
  · exact meets_list hleft (hinner rest)
  · exact meets_single hmiss (hbinary tokens)

/-- Every function for expressions, at every depth. -/
theorem meets_expressions (depth : Nat) :
    (∀ tokens, Meets .binaryExpr .operand .behind tokens (binaryExpr depth tokens)) ∧
    (∀ tokens, Meets .unaryExpr .operand .behind tokens (unaryExpr depth tokens)) ∧
    (∀ tokens, (∀ next ∈ tokens.head?, next.type.unaryOperator = none) →
      Meets .unaryExpr .operand .behind tokens (primaryExpr depth tokens)) ∧
    (∀ tokens, Meets .selectExpr selectStart selectEnd tokens (selectExpr depth tokens)) ∧
    ∀ tokens, Meets .innerExpr innerStart innerEnd tokens (innerExprs depth tokens) := by
  induction depth with
  | zero =>
      exact ⟨fun _ => trivial, fun _ => trivial, fun _ _ => trivial, fun _ => trivial,
        fun _ => trivial⟩
  | succ depth ih =>
      obtain ⟨hbinary, hunary, hprimary, hselect, hinner⟩ := ih
      have hbinary' : ∀ tokens,
          Meets .binaryExpr .operand .behind tokens (binaryExpr (depth + 1) tokens) :=
        fun tokens => meets_binary (hunary tokens) hbinary
      refine ⟨hbinary', fun tokens => meets_unary hunary (hprimary tokens), ?_, ?_, ?_⟩
      · exact fun tokens hop => meets_primary hop hselect hbinary
      · exact fun tokens => meets_select hbinary hinner
      · exact fun tokens => meets_inner (hbinary' tokens) hinner

end Expressions

/-! ## The other statements -/

section Statements

/-- Where the program does not return, it throws an exception or has run out of its bound. -/
abbrev OnlyThrows (x : Parsing α) : Prop :=
  Ensures (fun _ => True) x (fun _ _ => True) fun failure _ =>
    failure.isException = true ∨ failure = .outOfFuel

theorem onlyThrows_compositional : Compositional fun _ x _ => OnlyThrows x where
  ret _ := Ensures.ret fun _ _ => trivial
  throws h := Ensures.fail fun _ _ => .inl h
  lift h := Ensures.lift (fun _ _ _ _ => trivial) fun failure _ _ hx => .inl (h failure hx)
  step {α} g := by
    intro tokens _
    rcases accept_cases (ε := Failure) g tokens with ⟨_, rest, _, _, _, hrun⟩ | ⟨_, hrun⟩
    all_goals
      rw [hrun]
      refine ⟨fun _ _ _ => trivial, fun failure s impossible => ?_⟩
      cases impossible
  bind hx hf := Ensures.seq hx hf

theorem onlyThrows_whileNotDone {element : Parsing α} (h : OnlyThrows element) (rounds : Nat) :
    OnlyThrows (whileNotDone element rounds) :=
  onlyThrows_compositional.whileNotDone
    (fun _ _ hall => Ensures.inspect fun tokens _ => hall tokens)
    (fun _ => Ensures.fail fun _ _ => .inr rfl) h rounds

theorem onlyThrows_createExpr (rounds : Nat) : OnlyThrows (createExpr rounds) :=
  onlyThrows_compositional.createExpr (n := rounds)
    (onlyThrows_whileNotDone onlyThrows_compositional.createColumn rounds)

theorem onlyThrows_insertExpr [FloatUnit] (rounds : Nat) : OnlyThrows (insertExpr rounds) :=
  onlyThrows_compositional.insertExpr (n := rounds)
    (onlyThrows_whileNotDone onlyThrows_compositional.insertColumn rounds)
    (onlyThrows_whileNotDone onlyThrows_compositional.insertValue rounds)

/-- With enough rounds, a program that only throws leaves the process running. -/
theorem OnlyThrows.leaves {x : Parsing α} (h : OnlyThrows x) {tokens : List Token}
    (hfuel : ∀ s, x tokens ≠ .error .outOfFuel s) : ∃ s, Leaves x tokens s := by
  cases hrun : x tokens with
  | ok a s => exact ⟨s, .inl ⟨a, hrun⟩⟩
  | error failure s =>
      rcases (h tokens trivial).2 failure s hrun with hexception | rfl
      · exact ⟨s, .inr ⟨failure, hexception, hrun⟩⟩
      · exact absurd hrun (hfuel s)

end Statements

/-! ## Where the parser reads past its tokens -/

section Parse

variable [FloatUnit]

theorem not_cutOff_of_type {token : Token} {tokens : List Token} (h : token.type ≠ .select) :
    ¬ CutOff (token :: tokens) := by
  rintro (impossible | ⟨_, select, body, rest, hselect, _, happend⟩)
  · cases impossible
  · obtain ⟨rfl, _⟩ := List.cons.inj happend
    exact h hselect

/-- The call leaves the process running, or the tokens are cut off and it reads behind them. -/
def LeavesOrReadsPast (x : Parsing α) (tokens whole : List Token) : Prop :=
  (∃ s, Leaves x tokens s) ∧ ¬ CutOff whole ∨ x tokens = .error .undefined [] ∧ CutOff whole

theorem selectExpr_outcome {select : Token} {tokens : List Token} (hselect : select.type = .select)
    {depth : Nat} (hfuel : ∀ s, selectExpr depth tokens ≠ .error .outOfFuel s) :
    LeavesOrReadsPast (selectExpr depth) tokens (select :: tokens) := by
  have hmeets := (meets_expressions depth).2.2.2.1 tokens
  cases hrun : selectExpr depth tokens with
  | ok e rest =>
      rw [hrun] at hmeets
      refine .inl ⟨⟨rest, .inl ⟨e, hrun⟩⟩, fun hcut => ?_⟩
      have hwaits : Waits (.behindSelect .statement []) rest :=
        (hmeets.2 (.statement, [])).mp hcut.waits
      exact not_waits id (fun _ _ => rfl) hwaits
  | error failure s =>
      rw [hrun] at hmeets
      by_cases hundefined : failure = .undefined
      · subst hundefined
        obtain ⟨rfl, hcut⟩ := hmeets
        exact .inr ⟨hrun, CutShort.cutOff hcut hselect⟩
      · have hne : failure ≠ .outOfFuel := by
          rintro rfl
          exact hfuel s hrun
        obtain ⟨hexception, hthrows⟩ := hmeets.of_throws hundefined hne
        refine .inl ⟨⟨s, .inr ⟨failure, hexception, hrun⟩⟩, fun hcut => ?_⟩
        exact hthrows (.statement, []) hcut.waits

theorem expr_of_select {depth : Nat} {first : Token} {tokens : List Token}
    (hfirst : first.type = .select) : expr depth (first :: tokens) = selectExpr depth tokens :=
  bind_of_ok (matchType_hit hfirst)

/-- What begins with no `select` is one of the other statements or is refused with its name. -/
theorem expr_of_other (depth : Nat) {first : Token} (tokens : List Token)
    (hfirst : first.type ≠ .select) :
    expr depth (first :: tokens) = createExpr depth tokens ∨
      expr depth (first :: tokens) = insertExpr depth tokens ∨
        ∃ what, expr depth (first :: tokens) =
          .error (.invalidArgument what) (first :: tokens) := by
  obtain ⟨type, literal, behind⟩ := first
  cases type with
  | select => exact absurd rfl hfirst
  | create => exact .inl rfl
  | insert => exact .inr (.inl rfl)
  | _ => exact .inr (.inr ⟨_, rfl⟩)

theorem parse_outcome (tokens : List Token) : LeavesOrReadsPast parse tokens tokens := by
  have hfuel := parse_within tokens
  cases tokens with
  | nil => exact .inr ⟨rfl, .inl rfl⟩
  | cons first rest =>
      by_cases hselect : first.type = .select
      · have hrun : parse (first :: rest) =
            selectExpr (depthFor (first :: rest).length) rest := expr_of_select hselect
        rw [hrun] at hfuel
        unfold LeavesOrReadsPast
        simp only [leaves_congr hrun, hrun]
        exact selectExpr_outcome hselect hfuel
      · refine .inl ⟨?_, not_cutOff_of_type hselect⟩
        rcases expr_of_other (depthFor (first :: rest).length) rest hselect with
          hrun | hrun | ⟨what, hrun⟩
        · have hparse : parse (first :: rest) = createExpr _ rest := hrun
          rw [hparse] at hfuel
          simp only [leaves_congr hparse]
          exact (onlyThrows_createExpr _).leaves hfuel
        · have hparse : parse (first :: rest) = insertExpr _ rest := hrun
          rw [hparse] at hfuel
          simp only [leaves_congr hparse]
          exact (onlyThrows_insertExpr _).leaves hfuel
        · exact ⟨_, .inr ⟨_, rfl, hrun⟩⟩

/-- Where the tokens are cut off, the index that is read is `m_tokens.size()`. -/
theorem parse_of_cutOff {tokens : List Token} (h : CutOff tokens) :
    Cursor.parse ⟨tokens, 0⟩ = .error .undefined ⟨tokens, tokens.length⟩ := by
  rcases parse_outcome tokens with ⟨_, hnot⟩ | ⟨hrun, _⟩
  · exact absurd h hnot
  · exact onPart_eq_error_iff.mpr ⟨[], hrun, rfl⟩

/--
`parse()` returns a tree or throws an exception exactly where the tokens are not
cut off.  Everywhere else it reads `m_tokens` behind the last token.
-/
theorem parse_in_range_iff (tokens : List Token) :
    (∃ c, Leaves Cursor.parse ⟨tokens, 0⟩ c) ↔ ¬ CutOff tokens := by
  constructor
  · intro hleaves hcut
    exact not_leaves_of_error (parse_of_cutOff hcut) rfl hleaves
  · intro hnot
    rcases parse_outcome tokens with ⟨hleaves, _⟩ | ⟨_, hcut⟩
    · exact Cursor.leaves_follow_iff.mpr hleaves
    · exact absurd hcut hnot

end Parse

/-- The tokens of `select 1 +`. -/
def selectOnePlus : List Token := [⟨.select, [], []⟩, ⟨.integer, ['1'], []⟩, ⟨.add, [], []⟩]

/-- The error message for the missing operand reads the token with the index 3 of three. -/
theorem select_one_plus_reads_past :
    @Cursor.parse .binary32 ⟨selectOnePlus, 0⟩ = .error .undefined ⟨selectOnePlus, 3⟩ ∧
      ¬ ∃ c, Leaves (@Cursor.parse .binary32) ⟨selectOnePlus, 0⟩ c := by
  have hrun : @Cursor.parse .binary32 ⟨selectOnePlus, 0⟩ =
      .error .undefined ⟨selectOnePlus, 3⟩ := rfl
  exact ⟨hrun, not_leaves_of_error hrun rfl⟩

end HiveDb.Parser
