import HiveDb.Parser.Rendering
import Mathlib.Data.List.Forall2
import Mathlib.Data.List.TakeWhile

/-!
# Parsing undoes rendering

Each function of the parser reads the tokens of a tree of its level and stops
behind them.  The proof is by induction on the derivation of the tree; what
follows matters to binary expressions, which an operator continues, and to a
select without a table, which `from` continues.
-/

namespace HiveDb.Parser

open HiveDb.Lib

/-! ## Numbers -/

theorem isSpace_of_isDigit {c : Char} (h : c.isDigit) : isSpace c = false := by
  by_contra hspace
  simp only [isSpace, List.mem_cons, List.not_mem_nil, or_false, decide_eq_false_iff_not,
    not_not] at hspace
  rcases hspace with rfl | rfl | rfl | rfl | rfl | rfl <;> exact absurd h (by decide)

theorem splitSign_of_isDigit {c : Char} (rest : Text) (h : c.isDigit) :
    splitSign (c :: rest) = (1, c :: rest) := by
  unfold splitSign
  split
  · rename_i heq
    cases heq
    exact absurd h (by decide)
  · rename_i heq
    cases heq
    exact absurd h (by decide)
  · rfl

theorem stoi_digits {digits : Text} (hne : digits ≠ []) (hdigits : ∀ c ∈ digits, c.isDigit)
    (hfits : FitsInt (digitsValue digits)) : stoi digits = .ok (digitsValue digits) := by
  cases digits with
  | nil => exact absurd rfl hne
  | cons c rest =>
      have hc : c.isDigit := hdigits c List.mem_cons_self
      have hspace : (c :: rest).dropWhile isSpace = c :: rest := by
        simp [isSpace_of_isDigit hc]
      have htake : (c :: rest).takeWhile Char.isDigit = c :: rest :=
        List.takeWhile_eq_self_iff.mpr hdigits
      simp only [stoi, hspace, splitSign_of_isDigit rest hc, htake, List.isEmpty_cons, Int.one_mul]
      simp [hfits]

theorem stoi_renderInt {value : Int} (h : Spelled value) :
    stoi (renderInt value).literal = .ok value := by
  obtain ⟨hpos, hmax⟩ := h
  have hvalue : (digitsValue (Nat.toDigits 10 value.toNat) : Int) = value := by
    have hdigits : digitsValue (Nat.toDigits 10 value.toNat) = value.toNat := by
      rw [digitsValue, ← Nat.ofDigitChars_eq_foldl, Nat.ofDigitChars_ten_toDigits]
    rw [hdigits, Int.toNat_of_nonneg hpos]
  have hfits : FitsInt (digitsValue (Nat.toDigits 10 value.toNat)) := by
    rw [hvalue]
    exact ⟨by omega, hmax⟩
  have hstoi := stoi_digits Nat.toDigits_ne_nil
    (fun c hc => Nat.isDigit_of_mem_toDigits (by decide) (by decide) hc) hfits
  rw [hvalue] at hstoi
  exact hstoi

/-! ## Matching -/

theorem matchType_hit {type : TokenType} {token : Token} {rest : List Token}
    (h : token.type = type) : matchType type (token :: rest) = .ok (some token) rest := by
  apply accept_of_some
  simp [h]

theorem matchType_miss {type : TokenType} {tokens : List Token}
    (h : ∀ next ∈ tokens.head?, next.type ≠ type) : matchType type tokens = .ok none tokens := by
  apply accept_miss
  intro next hnext
  simp [h next hnext]

theorem consume_hit {type : TokenType} {err : String} {token : Token} {rest : List Token}
    (h : token.type = type) : consume type err (token :: rest) = .ok token rest :=
  bind_of_ok (matchType_hit h)

theorem listNext_more {token : Token} {rest : List Token} (h : token.type = .comma) :
    listNext (token :: rest) = .ok .more rest :=
  bind_of_ok (matchType_hit h)

theorem listNext_last {token : Token} {rest : List Token} (h : token.type = .parenthesesR) :
    listNext (token :: rest) = .ok .last rest := by
  have hmiss : matchType .comma (token :: rest) = .ok none (token :: rest) := by
    apply matchType_miss
    rintro next ⟨⟩
    rw [h]
    exact nofun
  exact (bind_of_ok hmiss).trans (bind_of_ok (matchType_hit h))

/-! ## Tokens that spell a rendering -/

section Spelling

variable [FloatUnit]

/-- The tokens are the rendered ones, wherever their literals stand. -/
abbrev Spelling (tokens rendered : List Token) : Prop := List.Forall₂ Token.Spells tokens rendered

theorem spelling_cons {tokens rest : List Token} {rendered : Token}
    (h : Spelling tokens (rendered :: rest)) :
    ∃ token others, tokens = token :: others ∧ token.Spells rendered ∧ Spelling others rest := by
  obtain ⟨token, others, htoken, hothers, rfl⟩ := List.forall₂_cons_right_iff.mp h
  exact ⟨token, others, rfl, htoken, hothers⟩

theorem spelling_singleton {tokens : List Token} {rendered : Token}
    (h : Spelling tokens [rendered]) : ∃ token, tokens = [token] ∧ token.Spells rendered := by
  obtain ⟨token, others, rfl, htoken, hnone⟩ := spelling_cons h
  obtain rfl := List.forall₂_nil_right_iff.mp hnone
  exact ⟨token, rfl, htoken⟩

theorem spelling_append {tokens first second : List Token} (h : Spelling tokens (first ++ second)) :
    ∃ before behind, tokens = before ++ behind ∧ Spelling before first ∧ Spelling behind second :=
  ⟨tokens.take first.length, tokens.drop first.length, (List.take_append_drop _ _).symm,
    List.forall₂_take_append _ _ _ h, List.forall₂_drop_append _ _ _ h⟩

/-- Tokens whose literals end where their data end spell themselves. -/
theorem spelling_self {tokens : List Token} (hdata : ∀ token ∈ tokens, token.data = token.literal) :
    Spelling tokens tokens := by
  apply List.forall₂_same.mpr
  intro token htoken
  have hliteral := hdata token htoken
  exact ⟨⟨rfl, rfl⟩, ⟨fun _ => by rw [hliteral], fun _ => by rw [hliteral]⟩⟩

/-! ## Evaluation of the parser -/

theorem unaryExpr_operator {depth : Nat} {token : Token} {rest last : List Token}
    {op : UnaryOperator} {rhs : Exprs} (hop : token.type.unaryOperator = some op)
    (h : unaryExpr depth rest = .ok rhs last) :
    unaryExpr (depth + 1) (token :: rest) = .ok (.unary op rhs) last :=
  (bind_of_ok (accept_of_some (f := fun token : Token => token.type.unaryOperator) hop)).trans
    (bind_of_ok h)

theorem unaryExpr_primary {depth : Nat} {tokens last : List Token} {e : Exprs}
    (hop : ∀ next ∈ tokens.head?, next.type.unaryOperator = none)
    (h : primaryExpr depth tokens = .ok e last) : unaryExpr (depth + 1) tokens = .ok e last :=
  (bind_of_ok (accept_miss hop)).trans h

theorem binaryExpr_operator {depth : Nat} {tokens rest last : List Token} {token : Token}
    {op : BinaryOperator} {lhs rhs : Exprs}
    (hlhs : unaryExpr depth tokens = .ok lhs (token :: rest))
    (hop : token.type.binaryOperator = some op) (hrhs : binaryExpr depth rest = .ok rhs last) :
    binaryExpr (depth + 1) tokens = .ok (.binary lhs op rhs) last :=
  (bind_of_ok hlhs).trans
    ((bind_of_ok (accept_of_some (f := fun token : Token => token.type.binaryOperator) hop)).trans
      (bind_of_ok hrhs))

theorem binaryExpr_unary {depth : Nat} {tokens last : List Token} {e : Exprs}
    (h : unaryExpr depth tokens = .ok e last)
    (hop : ∀ next ∈ last.head?, next.type.binaryOperator = none) :
    binaryExpr (depth + 1) tokens = .ok e last :=
  (bind_of_ok h).trans (bind_of_ok (accept_miss hop))

theorem primaryExpr_string {depth : Nat} {token : Token} {rest : List Token}
    (htype : token.type = .string) :
    primaryExpr (depth + 1) (token :: rest) = .ok (.literalString token.literal false) rest := by
  obtain ⟨type, literal, behind⟩ := token
  obtain rfl : type = .string := htype
  rfl

theorem primaryExpr_identifier {depth : Nat} {token : Token} {rest : List Token}
    (htype : token.type = .identifier) :
    primaryExpr (depth + 1) (token :: rest) = .ok (.literalString token.literal true) rest := by
  obtain ⟨type, literal, behind⟩ := token
  obtain rfl : type = .identifier := htype
  rfl

theorem primaryExpr_integer {depth : Nat} {token : Token} {rest : List Token} {value : Int}
    (htype : token.type = .integer) (h : stoi token.data = .ok value) :
    primaryExpr (depth + 1) (token :: rest) = .ok (.literalInt value) rest := by
  obtain ⟨type, literal, behind⟩ := token
  obtain rfl : type = .integer := htype
  exact bind_of_ok (liftPure_eq_ok_iff.mpr ⟨h, rfl⟩)

theorem primaryExpr_real {depth : Nat} {token : Token} {rest : List Token} {value : Real32}
    (htype : token.type = .real) (h : stof token.data = .ok value) :
    primaryExpr (depth + 1) (token :: rest) = .ok (.literalReal value) rest := by
  obtain ⟨type, literal, behind⟩ := token
  obtain rfl : type = .real := htype
  exact bind_of_ok (liftPure_eq_ok_iff.mpr ⟨h, rfl⟩)

theorem primaryExpr_grouping {depth : Nat} {left right : Token} {tokens last : List Token}
    {e : Exprs} (hleft : left.type = .parenthesesL) (hright : right.type = .parenthesesR)
    (hselect : ∀ next ∈ tokens.head?, next.type ≠ .select)
    (h : binaryExpr depth tokens = .ok e (right :: last)) :
    primaryExpr (depth + 1) (left :: tokens) = .ok (.grouping e) last := by
  obtain ⟨type, literal, behind⟩ := left
  obtain rfl : type = .parenthesesL := hleft
  exact (bind_of_ok (matchType_miss hselect)).trans
    ((bind_of_ok h).trans (bind_of_ok (consume_hit hright)))

theorem primaryExpr_select {depth : Nat} {left select right : Token} {tokens last : List Token}
    {e : Exprs} (hleft : left.type = .parenthesesL) (hselect : select.type = .select)
    (hright : right.type = .parenthesesR) (h : selectExpr depth tokens = .ok e (right :: last)) :
    primaryExpr (depth + 1) (left :: select :: tokens) = .ok (.grouping e) last := by
  obtain ⟨type, literal, behind⟩ := left
  obtain rfl : type = .parenthesesL := hleft
  exact (bind_of_ok (matchType_hit hselect)).trans
    ((bind_of_ok h).trans (bind_of_ok (consume_hit hright)))

theorem commaExprs_comma {depth : Nat} {token : Token} {tokens middle last : List Token}
    {e : Exprs} {rest : List Exprs} (hcomma : token.type = .comma)
    (he : binaryExpr depth tokens = .ok e middle)
    (hrest : commaExprs depth middle = .ok rest last) :
    commaExprs (depth + 1) (token :: tokens) = .ok (e :: rest) last :=
  (bind_of_ok (matchType_hit hcomma)).trans ((bind_of_ok he).trans (bind_of_ok hrest))

theorem commaExprs_end {depth : Nat} {tokens : List Token}
    (h : ∀ next ∈ tokens.head?, next.type ≠ .comma) :
    commaExprs (depth + 1) tokens = .ok [] tokens :=
  bind_of_ok (matchType_miss h)

theorem selectExpr_list {depth : Nat} {left right : Token} {tokens middle last rest : List Token}
    {e select : Exprs} {others : List Exprs} (hleft : left.type = .parenthesesL)
    (hright : right.type = .parenthesesR) (he : binaryExpr depth tokens = .ok e middle)
    (hothers : commaExprs depth middle = .ok others (right :: rest))
    (hfrom : fromClause (e :: others) rest = .ok select last) :
    selectExpr (depth + 1) (left :: tokens) = .ok select last :=
  (bind_of_ok (matchType_hit hleft)).trans ((bind_of_ok he).trans ((bind_of_ok hothers).trans
    ((bind_of_ok (consume_hit hright)).trans hfrom)))

/-! ## More depth -/

section Depth

variable {depth more : Nat} {tokens last : List Token} {e : Exprs} {es : List Exprs}

theorem unaryExpr_deeper (hle : depth ≤ more) (h : unaryExpr depth tokens = .ok e last) :
    unaryExpr more tokens = .ok e last :=
  Approximates.ok_of_le (fun n => (extends_expressions n).2.1) hle h

theorem binaryExpr_deeper (hle : depth ≤ more) (h : binaryExpr depth tokens = .ok e last) :
    binaryExpr more tokens = .ok e last :=
  Approximates.ok_of_le (fun n => (extends_expressions n).1) hle h

theorem commaExprs_deeper (hle : depth ≤ more) (h : commaExprs depth tokens = .ok es last) :
    commaExprs more tokens = .ok es last :=
  Approximates.ok_of_le (fun n => (extends_expressions n).2.2.2.2) hle h

end Depth

/-! ## Reading a rendered tree -/

section ReadsBack

variable (realText : Real32 → Text)

/-- The function for the level reads the tree's tokens and stops behind them. -/
def ReadsBack : Level → Exprs → Prop
  | .primary, e => ∀ tokens follow, Spelling tokens (e.render realText) →
      ∃ depth, primaryExpr depth (tokens ++ follow) = .ok e follow
  | .unary, e => ∀ tokens follow, Spelling tokens (e.render realText) →
      ∃ depth, unaryExpr depth (tokens ++ follow) = .ok e follow
  | .binary, e => ∀ tokens follow, Spelling tokens (e.render realText) →
      (∀ next ∈ follow.head?, next.type.binaryOperator = none) →
      ∃ depth, binaryExpr depth (tokens ++ follow) = .ok e follow
  | .select, e => ∀ select tokens follow, Spelling (select :: tokens) (e.render realText) →
      (∀ next ∈ follow.head?, e.goesOnWith next.type = false) →
      ∃ depth, selectExpr depth (tokens ++ follow) = .ok e follow

variable {realText}

/-- A tree that is no select begins with a token that is not `select`. -/
theorem first_of_primary {e : Exprs} (h : Produces realText .primary e) :
    ∃ first others, e.render realText = first :: others ∧ first.type ≠ .select ∧
      first.type.unaryOperator = none := by
  cases h with
  | literalInt hvalue => exact ⟨_, _, rfl, nofun, rfl⟩
  | literalReal hvalue => exact ⟨_, _, rfl, nofun, rfl⟩
  | literalString value isIdentifier =>
      cases isIdentifier with
      | true => exact ⟨_, _, rfl, nofun, rfl⟩
      | false => exact ⟨_, _, rfl, nofun, rfl⟩
  | grouping he => exact ⟨_, _, rfl, nofun, rfl⟩
  | groupedSelect he => exact ⟨_, _, rfl, nofun, rfl⟩

theorem first_of_unary {e : Exprs} (h : Produces realText .unary e) :
    ∃ first others, e.render realText = first :: others ∧ first.type ≠ .select := by
  cases h with
  | unary op hrhs =>
      refine ⟨_, _, rfl, ?_⟩
      cases op <;> exact nofun
  | ofPrimary he =>
      obtain ⟨first, others, hrender, hne, _⟩ := first_of_primary he
      exact ⟨first, others, hrender, hne⟩

theorem first_of_binary {e : Exprs} (h : Produces realText .binary e) :
    ∃ first others, e.render realText = first :: others ∧ first.type ≠ .select := by
  cases h with
  | @binary lhs rhs op hlhs hrhs =>
      obtain ⟨first, others, hrender, hne⟩ := first_of_unary hlhs
      refine ⟨first, others ++ .symbol op.type :: rhs.render realText, ?_, hne⟩
      rw [Exprs.render, hrender, List.cons_append]
  | ofUnary he => exact first_of_unary he

theorem spelling_head {tokens rendered others : List Token} {first : Token}
    (h : Spelling tokens rendered) (hrendered : rendered = first :: others) (follow : List Token) :
    ∀ next ∈ (tokens ++ follow).head?, next.type = first.type := by
  subst hrendered
  obtain ⟨token, rest, rfl, htoken, _⟩ := spelling_cons h
  intro next hnext
  cases hnext
  exact htoken.equal.2

theorem readsBack_literalInt {value : Int} (hvalue : Spelled value) :
    ReadsBack realText .primary (.literalInt value) := by
  intro tokens follow htokens
  rw [Exprs.render] at htokens
  obtain ⟨token, rfl, htoken⟩ := spelling_singleton htokens
  refine ⟨1, primaryExpr_integer htoken.equal.2 ?_⟩
  rw [htoken.readsLiteral.integer htoken.equal.2, htoken.equal.1, stoi_renderInt hvalue]

theorem readsBack_literalReal {value : Real32} (hvalue : stof (realText value) = .ok value) :
    ReadsBack realText .primary (.literalReal value) := by
  intro tokens follow htokens
  rw [Exprs.render] at htokens
  obtain ⟨token, rfl, htoken⟩ := spelling_singleton htokens
  refine ⟨1, primaryExpr_real htoken.equal.2 ?_⟩
  rw [htoken.readsLiteral.real htoken.equal.2, htoken.equal.1, hvalue]

theorem readsBack_literalString (value : Text) (isIdentifier : Bool) :
    ReadsBack realText .primary (.literalString value isIdentifier) := by
  intro tokens follow htokens
  rw [Exprs.render] at htokens
  obtain ⟨token, rfl, htoken⟩ := spelling_singleton htokens
  obtain rfl : token.literal = value := htoken.equal.1
  refine ⟨1, ?_⟩
  cases isIdentifier with
  | true => exact primaryExpr_identifier htoken.equal.2
  | false => exact primaryExpr_string htoken.equal.2

/-- The tokens of a grouping are those of its expression between parentheses. -/
theorem spelling_grouping {tokens : List Token} {e : Exprs}
    (h : Spelling tokens ((Exprs.grouping e).render realText)) :
    ∃ left inner right, tokens = left :: (inner ++ [right]) ∧ left.type = .parenthesesL ∧
      right.type = .parenthesesR ∧ Spelling inner (e.render realText) := by
  rw [Exprs.render, List.cons_append] at h
  obtain ⟨left, others, rfl, hleft, hothers⟩ := spelling_cons h
  obtain ⟨inner, last, rfl, hinner, hlast⟩ := spelling_append hothers
  obtain ⟨right, rfl, hright⟩ := spelling_singleton hlast
  exact ⟨left, inner, right, rfl, hleft.equal.2, hright.equal.2, hinner⟩

theorem readsBack_grouping {e : Exprs} (he : Produces realText .binary e)
    (hreads : ReadsBack realText .binary e) : ReadsBack realText .primary (.grouping e) := by
  intro tokens follow htokens
  obtain ⟨left, inner, right, rfl, hleft, hright, hinner⟩ := spelling_grouping htokens
  obtain ⟨first, others, hrender, hne⟩ := first_of_binary he
  have hstops : ∀ next ∈ (right :: follow).head?, next.type.binaryOperator = none := by
    rintro next ⟨⟩
    rw [hright]
    rfl
  obtain ⟨depth, hdepth⟩ := hreads inner (right :: follow) hinner hstops
  refine ⟨depth + 1, ?_⟩
  rw [List.cons_append, List.append_assoc]
  apply primaryExpr_grouping hleft hright _ hdepth
  intro next hnext
  rw [spelling_head hinner hrender _ next hnext]
  exact hne

theorem readsBack_groupedSelect {e : Exprs} (he : Produces realText .select e)
    (hreads : ReadsBack realText .select e) : ReadsBack realText .primary (.grouping e) := by
  intro tokens follow htokens
  obtain ⟨left, inner, right, rfl, hleft, hright, hinner⟩ := spelling_grouping htokens
  cases he with
  | @select innerExpr tblName _ _ =>
      rw [Exprs.render, List.cons_append] at hinner
      obtain ⟨select, body, rfl, hselect, hbody⟩ := spelling_cons hinner
      have hstops : ∀ next ∈ (right :: follow).head?,
          (Exprs.select innerExpr tblName).goesOnWith next.type = false := by
        rintro next ⟨⟩
        rw [hright]
        cases tblName <;> rfl
      obtain ⟨depth, hdepth⟩ := hreads select body (right :: follow) hinner hstops
      refine ⟨depth + 1, ?_⟩
      rw [List.cons_append, List.append_assoc]
      exact primaryExpr_select hleft hselect.equal.2 hright hdepth

theorem readsBack_unary {op : UnaryOperator} {rhs : Exprs}
    (hreads : ReadsBack realText .unary rhs) : ReadsBack realText .unary (.unary op rhs) := by
  intro tokens follow htokens
  rw [Exprs.render] at htokens
  obtain ⟨token, others, rfl, htoken, hothers⟩ := spelling_cons htokens
  obtain ⟨depth, hdepth⟩ := hreads others follow hothers
  refine ⟨depth + 1, unaryExpr_operator ?_ hdepth⟩
  rw [htoken.equal.2]
  exact op.unaryOperator_type

theorem readsBack_ofPrimary {e : Exprs} (he : Produces realText .primary e)
    (hreads : ReadsBack realText .primary e) : ReadsBack realText .unary e := by
  intro tokens follow htokens
  obtain ⟨first, others, hrender, _, hop⟩ := first_of_primary he
  obtain ⟨depth, hdepth⟩ := hreads tokens follow htokens
  refine ⟨depth + 1, unaryExpr_primary ?_ hdepth⟩
  intro next hnext
  rw [spelling_head htokens hrender _ next hnext]
  exact hop

theorem readsBack_binary {lhs rhs : Exprs} {op : BinaryOperator}
    (hlhs : ReadsBack realText .unary lhs) (hrhs : ReadsBack realText .binary rhs) :
    ReadsBack realText .binary (.binary lhs op rhs) := by
  intro tokens follow htokens hstops
  rw [Exprs.render] at htokens
  obtain ⟨left, others, rfl, hleft, hothers⟩ := spelling_append htokens
  obtain ⟨token, right, rfl, htoken, hright⟩ := spelling_cons hothers
  obtain ⟨depth, hdepth⟩ := hlhs left (token :: right ++ follow) hleft
  obtain ⟨depth', hdepth'⟩ := hrhs right follow hright hstops
  refine ⟨max depth depth' + 1, ?_⟩
  rw [List.append_assoc]
  apply binaryExpr_operator (unaryExpr_deeper (Nat.le_max_left _ _) hdepth) _
    (binaryExpr_deeper (Nat.le_max_right _ _) hdepth')
  rw [htoken.equal.2]
  exact op.binaryOperator_type

theorem readsBack_ofUnary {e : Exprs} (hreads : ReadsBack realText .unary e) :
    ReadsBack realText .binary e := by
  intro tokens follow htokens hstops
  obtain ⟨depth, hdepth⟩ := hreads tokens follow htokens
  exact ⟨depth + 1, binaryExpr_unary hdepth hstops⟩

theorem readsBack_from {innerExpr : List Exprs} {tblName : Text} {tokens follow : List Token}
    (htokens : Spelling tokens (renderFrom tblName))
    (hstops : ∀ next ∈ follow.head?,
      (Exprs.select innerExpr tblName).goesOnWith next.type = false) :
    fromClause innerExpr (tokens ++ follow) = .ok (.select innerExpr tblName) follow := by
  cases tblName with
  | nil =>
      obtain rfl := List.forall₂_nil_right_iff.mp htokens
      apply bind_of_ok (matchType_miss _)
      intro next hnext hfrom
      have hgoes := hstops next hnext
      rw [hfrom] at hgoes
      cases hgoes
  | cons c rest =>
      obtain ⟨word, others, rfl, hword, hothers⟩ := spelling_cons htokens
      obtain ⟨name, rfl, hname⟩ := spelling_singleton hothers
      obtain hliteral : name.literal = c :: rest := hname.equal.1
      rw [← hliteral]
      exact (bind_of_ok (matchType_hit hword.equal.2)).trans
        (bind_of_ok (consume_hit hname.equal.2))

theorem spelling_more_stops {tokens : List Token} {es : List Exprs}
    (h : Spelling tokens (renderMore realText es)) (follow : List Token) :
    ∀ next ∈ (tokens ++ follow).head?, next.type.binaryOperator = none := by
  obtain ⟨first, others, hrender, hop⟩ := renderMore_first realText es
  intro next hnext
  rw [spelling_head h hrender follow next hnext]
  exact hop

theorem readsBack_more {es : List Exprs} (hes : ∀ e ∈ es, ReadsBack realText .binary e)
    {tokens : List Token} (follow : List Token)
    (htokens : Spelling tokens (renderMore realText es)) :
    ∃ depth right, right.type = .parenthesesR ∧
      commaExprs depth (tokens ++ follow) = .ok es (right :: follow) := by
  induction es generalizing tokens with
  | nil =>
      obtain ⟨right, rfl, hright⟩ := spelling_singleton htokens
      have htype : right.type = .parenthesesR := hright.equal.2
      refine ⟨1, right, htype, commaExprs_end ?_⟩
      rintro next ⟨⟩
      rw [htype]
      exact nofun
  | cons e rest ih =>
      rw [renderMore, List.cons_append] at htokens
      obtain ⟨comma, others, rfl, hcomma, hothers⟩ := spelling_cons htokens
      obtain ⟨inner, more, rfl, hinner, hmore⟩ := spelling_append hothers
      obtain ⟨depth, right, hright, hdepth⟩ :=
        ih (fun e he => hes e (List.mem_cons_of_mem _ he)) hmore
      obtain ⟨depth', hdepth'⟩ := hes e List.mem_cons_self inner (more ++ follow) hinner
        (spelling_more_stops hmore follow)
      refine ⟨max depth depth' + 1, right, hright, ?_⟩
      rw [List.cons_append, List.append_assoc]
      exact commaExprs_comma hcomma.equal.2 (binaryExpr_deeper (Nat.le_max_right _ _) hdepth')
        (commaExprs_deeper (Nat.le_max_left _ _) hdepth)

theorem readsBack_select {innerExpr : List Exprs} {tblName : Text} (hne : innerExpr ≠ [])
    (hreads : ∀ e ∈ innerExpr, ReadsBack realText .binary e) :
    ReadsBack realText .select (.select innerExpr tblName) := by
  intro select tokens follow htokens hstops
  cases innerExpr with
  | nil => exact absurd rfl hne
  | cons e rest =>
      rw [Exprs.render, List.cons_append, List.cons_append, renderExprs] at htokens
      obtain ⟨word, body, hbody, _, hlist⟩ := spelling_cons htokens
      cases hbody
      obtain ⟨left, others, rfl, hleft, hothers⟩ := spelling_cons hlist
      obtain ⟨list, clause, rfl, hexprs, hclause⟩ := spelling_append hothers
      obtain ⟨inner, more, rfl, hinner, hmore⟩ := spelling_append hexprs
      obtain ⟨depth, right, hright, hdepth⟩ := readsBack_more
        (fun e he => hreads e (List.mem_cons_of_mem _ he)) (clause ++ follow) hmore
      obtain ⟨depth', hdepth'⟩ := hreads e List.mem_cons_self inner
        (more ++ (clause ++ follow)) hinner (spelling_more_stops hmore _)
      refine ⟨max depth depth' + 1, ?_⟩
      simp only [List.cons_append, List.append_assoc]
      exact selectExpr_list hleft.equal.2 hright
        (binaryExpr_deeper (Nat.le_max_right _ _) hdepth')
        (commaExprs_deeper (Nat.le_max_left _ _) hdepth) (readsBack_from hclause hstops)

/-- Every tree of the grammar is read back by the function for its level. -/
theorem readsBack_of_produces {level : Level} {e : Exprs} (h : Produces realText level e) :
    ReadsBack realText level e := by
  induction h with
  | literalInt hvalue => exact readsBack_literalInt hvalue
  | literalReal hvalue => exact readsBack_literalReal hvalue
  | literalString value isIdentifier => exact readsBack_literalString value isIdentifier
  | grouping he ih => exact readsBack_grouping he ih
  | groupedSelect he ih => exact readsBack_groupedSelect he ih
  | unary op _ ih => exact readsBack_unary ih
  | ofPrimary he ih => exact readsBack_ofPrimary he ih
  | binary op _ _ ihlhs ihrhs => exact readsBack_binary ihlhs ihrhs
  | ofUnary _ ih => exact readsBack_ofUnary ih
  | select tblName hne _ ih => exact readsBack_select hne ih

end ReadsBack

/-! ## Reading the lists of a statement -/

section Lists

variable {α : Type} {element : Parsing α} {render : α → List Token}

/-- An element in front of a comma or a closing parenthesis is read up to there. -/
def ElementReads (element : Parsing α) (render : α → List Token) (a : α) : Prop :=
  ∀ tokens follow, Spelling tokens (render a) →
    (∀ next ∈ follow.head?, next.type = .comma ∨ next.type = .parenthesesR) →
    element (tokens ++ follow) = .ok a follow

theorem whileNotDone_readsBack {a : α} {rest : List α}
    (hreads : ∀ b ∈ a :: rest, ElementReads element render b) {tokens : List Token}
    (follow : List Token) (htokens : Spelling tokens (renderListed render (a :: rest))) :
    whileNotDone element (rest.length + 1) (tokens ++ follow) = .ok (a :: rest) follow := by
  induction rest generalizing a tokens with
  | nil =>
      obtain ⟨inner, last, rfl, hinner, hlast⟩ := spelling_append htokens
      obtain ⟨right, rfl, hright⟩ := spelling_singleton hlast
      have htype : right.type = .parenthesesR := hright.equal.2
      have helement : element (inner ++ right :: follow) = .ok a (right :: follow) := by
        apply hreads a List.mem_cons_self inner (right :: follow) hinner
        rintro next ⟨⟩
        exact .inr htype
      rw [List.append_assoc, whileNotDone_of_ne_nil (by simp)]
      exact (bind_of_ok helement).trans (bind_of_ok (listNext_last htype))
  | cons b others ih =>
      obtain ⟨inner, list, rfl, hinner, hlist⟩ := spelling_append htokens
      obtain ⟨comma, more, rfl, hcomma, hmore⟩ := spelling_cons hlist
      have htype : comma.type = .comma := hcomma.equal.2
      have helement : element (inner ++ comma :: (more ++ follow)) =
          .ok a (comma :: (more ++ follow)) := by
        apply hreads a List.mem_cons_self inner _ hinner
        rintro next ⟨⟩
        exact .inl htype
      have hothers := ih (fun c hc => hreads c (List.mem_cons_of_mem _ hc)) hmore
      rw [List.append_assoc, List.cons_append, whileNotDone_of_ne_nil (by simp)]
      exact (bind_of_ok helement).trans
        ((bind_of_ok (listNext_more htype)).trans (bind_of_ok hothers))

/-- The loop over a list that is not empty, with enough rounds. -/
theorem whileNotDone_reads_list {as : List α} (hne : as ≠ [])
    (hreads : ∀ a ∈ as, ElementReads element render a) {tokens : List Token}
    (follow : List Token) (htokens : Spelling tokens (renderListed render as)) {rounds : Nat}
    (hrounds : as.length ≤ rounds) :
    whileNotDone element rounds (tokens ++ follow) = .ok as follow := by
  cases as with
  | nil => exact absurd rfl hne
  | cons a rest =>
      exact Approximates.ok_of_le (extends_whileNotDone element) hrounds
        (whileNotDone_readsBack hreads follow htokens)

theorem elementReads_insertColumn (column : Text) :
    ElementReads insertColumn (fun column => [⟨.identifier, column, []⟩]) column := by
  intro tokens follow htokens _
  obtain ⟨token, rfl, htoken⟩ := spelling_singleton htokens
  obtain rfl : token.literal = column := htoken.equal.1
  exact bind_of_ok (consume_hit htoken.equal.2)

theorem elementReads_insertValue {realText : Real32 → Text} {value : Value}
    (hvalue : value.Produced realText) :
    ElementReads insertValue (fun value => [value.render realText]) value := by
  intro tokens follow htokens _
  obtain ⟨token, rfl, htoken⟩ := spelling_singleton htokens
  obtain ⟨type, literal, behind⟩ := token
  cases value with
  | text value =>
      obtain ⟨rfl, rfl⟩ : literal = value ∧ type = .string := htoken.equal
      rfl
  | int value =>
      obtain ⟨hliteral, rfl⟩ : literal = (renderInt value).literal ∧ type = .integer :=
        htoken.equal
      exact bind_of_ok (liftPure_eq_ok_iff.mpr ⟨hliteral ▸ stoi_renderInt hvalue, rfl⟩)
  | real value =>
      obtain ⟨rfl, rfl⟩ : literal = realText value ∧ type = .real := htoken.equal
      exact bind_of_ok (liftPure_eq_ok_iff.mpr ⟨hvalue, rfl⟩)

theorem elementReads_createColumn (column : TableColumn) :
    ElementReads createColumn TableColumn.render column := by
  intro tokens follow htokens hstops
  obtain ⟨words, others, rfl, hwords, hothers⟩ := spelling_append htokens
  obtain ⟨name, types, rfl, hname, htypes⟩ := spelling_cons hwords
  obtain ⟨type, rfl, htype⟩ := spelling_singleton htypes
  obtain ⟨columnName, columnType, canBeNull⟩ := column
  obtain rfl : name.literal = columnName := hname.equal.1
  obtain rfl : type.literal = columnType := htype.equal.1
  have hnull : notNull (others ++ follow) = .ok canBeNull follow := by
    cases canBeNull with
    | true =>
        obtain ⟨not, last, rfl, hnot, hlast⟩ := spelling_cons hothers
        obtain ⟨null, rfl, hnull⟩ := spelling_singleton hlast
        exact (bind_of_ok (matchType_hit hnot.equal.2)).trans
          (bind_of_ok (consume_hit hnull.equal.2))
    | false =>
        obtain rfl := List.forall₂_nil_right_iff.mp hothers
        apply bind_of_ok (matchType_miss _)
        intro next hnext
        rcases hstops next hnext with hcomma | hright
        · rw [hcomma]
          exact nofun
        · rw [hright]
          exact nofun
  exact (bind_of_ok (consume_hit hname.equal.2)).trans
    ((bind_of_ok (consume_hit htype.equal.2)).trans (bind_of_ok hnull))

end Lists

/-! ## Statements -/

theorem expr_select {depth : Nat} {first : Token} {tokens last : List Token} {statement : Exprs}
    (hfirst : first.type = .select) (h : selectExpr depth tokens = .ok statement last) :
    expr depth (first :: tokens) = .ok statement last :=
  (bind_of_ok (matchType_hit hfirst)).trans h

theorem expr_create {depth : Nat} {first : Token} {tokens last : List Token} {statement : Exprs}
    (hfirst : first.type = .create) (h : createExpr depth tokens = .ok statement last) :
    expr depth (first :: tokens) = .ok statement last := by
  obtain ⟨type, literal, behind⟩ := first
  obtain rfl : type = .create := hfirst
  exact h

theorem expr_insert {depth : Nat} {first : Token} {tokens last : List Token} {statement : Exprs}
    (hfirst : first.type = .insert) (h : insertExpr depth tokens = .ok statement last) :
    expr depth (first :: tokens) = .ok statement last := by
  obtain ⟨type, literal, behind⟩ := first
  obtain rfl : type = .insert := hfirst
  exact h

theorem expr_reads_select {realText : Real32 → Text} {innerExpr : List Exprs} {tblName : Text}
    {tokens follow : List Token}
    (hstatement : Produces realText .select (.select innerExpr tblName))
    (htokens : Spelling tokens ((Exprs.select innerExpr tblName).render realText))
    (hstops : ∀ next ∈ follow.head?,
      (Exprs.select innerExpr tblName).goesOnWith next.type = false) :
    ∃ depth, expr depth (tokens ++ follow) = .ok (.select innerExpr tblName) follow := by
  rw [Exprs.render, List.cons_append] at htokens
  obtain ⟨first, body, rfl, hfirst, _⟩ := spelling_cons htokens
  have hrender : Spelling (first :: body) ((Exprs.select innerExpr tblName).render realText) := by
    rw [Exprs.render, List.cons_append]
    exact htokens
  obtain ⟨depth, hdepth⟩ := readsBack_of_produces hstatement first body follow hrender hstops
  exact ⟨depth, expr_select hfirst.equal.2 hdepth⟩

theorem expr_reads_create {statement : CreateTblExpr} {tokens : List Token} (follow : List Token)
    (hne : statement.tblColumns ≠ []) (htokens : Spelling tokens statement.render) :
    ∃ depth, expr depth (tokens ++ follow) = .ok (.createTbl statement) follow := by
  obtain ⟨tblName, tblColumns⟩ := statement
  obtain ⟨create, afterCreate, rfl, hcreate, hrest⟩ := spelling_cons htokens
  obtain ⟨table, afterTable, rfl, htable, hrest⟩ := spelling_cons hrest
  obtain ⟨name, afterName, rfl, hname, hrest⟩ := spelling_cons hrest
  obtain ⟨left, list, rfl, hleft, hlist⟩ := spelling_cons hrest
  obtain rfl : name.literal = tblName := hname.equal.1
  have hcolumns := whileNotDone_reads_list hne
    (fun column _ => elementReads_createColumn column) follow hlist (Nat.le_refl _)
  refine ⟨tblColumns.length, expr_create hcreate.equal.2 ?_⟩
  exact (bind_of_ok (consume_hit htable.equal.2)).trans
    ((bind_of_ok (consume_hit hname.equal.2)).trans
      ((bind_of_ok (consume_hit hleft.equal.2)).trans (bind_of_ok hcolumns)))

theorem expr_reads_insert {realText : Real32 → Text} {statement : InsertExpr}
    {tokens : List Token} (follow : List Token) (hcolumns : statement.columns ≠ [])
    (hvalues : statement.values ≠ [])
    (hproduced : ∀ value ∈ statement.values, value.Produced realText)
    (htokens : Spelling tokens (statement.render realText)) :
    ∃ depth, expr depth (tokens ++ follow) = .ok (.insert statement) follow := by
  obtain ⟨tblName, values, columns⟩ := statement
  obtain ⟨front, back, rfl, hfront, hback⟩ := spelling_append htokens
  obtain ⟨insert, afterInsert, rfl, hinsert, hrest⟩ := spelling_cons hfront
  obtain ⟨into, afterInto, rfl, hinto, hrest⟩ := spelling_cons hrest
  obtain ⟨name, afterName, rfl, hname, hrest⟩ := spelling_cons hrest
  obtain ⟨left, list, rfl, hleft, hlist⟩ := spelling_cons hrest
  obtain ⟨word, afterWord, rfl, hword, hrest'⟩ := spelling_cons hback
  obtain ⟨left', list', rfl, hleft', hlist'⟩ := spelling_cons hrest'
  obtain rfl : name.literal = tblName := hname.equal.1
  have hcolumnLoop := whileNotDone_reads_list hcolumns
    (fun column _ => elementReads_insertColumn column)
    (word :: left' :: (list' ++ follow)) hlist (Nat.le_max_left _ values.length)
  have hvalueLoop := whileNotDone_reads_list hvalues
    (fun value hvalue => elementReads_insertValue (hproduced value hvalue)) follow hlist'
    (Nat.le_max_right columns.length _)
  refine ⟨max columns.length values.length, ?_⟩
  rw [List.append_assoc]
  apply expr_insert hinsert.equal.2
  exact (bind_of_ok (consume_hit hinto.equal.2)).trans
    ((bind_of_ok (consume_hit hname.equal.2)).trans
      ((bind_of_ok (consume_hit hleft.equal.2)).trans ((bind_of_ok hcolumnLoop).trans
        ((bind_of_ok (consume_hit hword.equal.2)).trans
          ((bind_of_ok (consume_hit hleft'.equal.2)).trans (bind_of_ok hvalueLoop))))))

theorem expr_reads {realText : Real32 → Text} {statement : Exprs} {tokens follow : List Token}
    (hstatement : statement.Statement realText)
    (htokens : Spelling tokens (statement.render realText))
    (hfollow : ∀ next ∈ follow.head?, statement.goesOnWith next.type = false) :
    ∃ depth, expr depth (tokens ++ follow) = .ok statement follow := by
  cases statement with
  | createTbl statement =>
      rw [Exprs.render] at htokens
      exact expr_reads_create follow hstatement htokens
  | insert statement =>
      rw [Exprs.render] at htokens
      obtain ⟨hcolumns, hvalues, hproduced⟩ := hstatement
      exact expr_reads_insert follow hcolumns hvalues hproduced htokens
  | select innerExpr tblName => exact expr_reads_select hstatement htokens hfollow
  | literalInt value => cases hstatement
  | literalReal value => cases hstatement
  | literalString value isIdentifier => cases hstatement
  | unary op rhs => cases hstatement
  | grouping e => cases hstatement
  | binary lhs op rhs => cases hstatement

/--
The tokens of a statement are parsed to the statement, and all of them are
consumed, whatever follows that the statement does not go on with.
-/
theorem parse_render {realText : Real32 → Text} {statement : Exprs} {tokens follow : List Token}
    (hstatement : statement.Statement realText)
    (htokens : Spelling tokens (statement.render realText))
    (hfollow : ∀ next ∈ follow.head?, statement.goesOnWith next.type = false) :
    parse (tokens ++ follow) = .ok statement follow := by
  obtain ⟨depth, hdepth⟩ := expr_reads hstatement htokens hfollow
  exact parse_of_expr hdepth

end Spelling

/-- `select ( - a + ( 12 ) , ( select ( "b" ) ) )` -/
def selectNested : Exprs :=
  .select
    [.binary (.unary .substract (.literalString ['a'] true)) .add (.grouping (.literalInt 12)),
      .grouping (.select [.literalString ['b'] false] [])] []

theorem select_nested_round_trip :
    @parse .binary32 (selectNested.render (fun _ => []) ++ [.symbol .eof]) =
      .ok selectNested [.symbol .eof] := by
  let _ := FloatUnit.binary32
  have hsum : Produces (fun _ => []) .binary
      (.binary (.unary .substract (.literalString ['a'] true)) .add
        (.grouping (.literalInt 12))) := by
    apply Produces.binary
    · exact .unary _ (.ofPrimary (.literalString _ _))
    · have hnumber : Produces (fun _ => []) .primary (.literalInt 12) :=
        .literalInt ⟨by decide, by decide⟩
      exact .ofUnary (.ofPrimary (.grouping (.ofUnary (.ofPrimary hnumber))))
  have hinner : Produces (fun _ => []) .select (.select [.literalString ['b'] false] []) := by
    apply Produces.select _ (List.cons_ne_nil _ _)
    intro e he
    obtain rfl := List.mem_singleton.mp he
    exact .ofUnary (.ofPrimary (.literalString _ _))
  have hstatement : selectNested.Statement (fun _ => []) := by
    apply Produces.select _ (List.cons_ne_nil _ _)
    intro e he
    simp only [List.mem_cons, List.not_mem_nil, or_false] at he
    rcases he with rfl | rfl
    · exact hsum
    · exact .ofUnary (.ofPrimary (.groupedSelect hinner))
  have hdata : ∀ token ∈ selectNested.render (fun _ => []), token.data = token.literal := by
    decide +kernel
  apply parse_render hstatement (spelling_self hdata)
  rintro next ⟨⟩
  rfl

end HiveDb.Parser
