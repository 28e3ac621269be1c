import HiveDb.Parser.Parser

/-!
# Phrases of a select statement

The grammar behind the functions for expressions: one kind of phrase for each
of them, and one rule for each way through it.  The condition that a rule puts
on the first token of a phrase is the test the function makes on it.  Tokens
are cut off where they end although an operand has to follow.
-/

namespace HiveDb.Parser

/-- The functions for expressions; `innerExpr` is the list in the parentheses of a select. -/
inductive Phrase where
  | binaryExpr | unaryExpr | selectExpr | innerExpr

/-- An operand has to follow the token wherever it stands in a select statement. -/
def opensOperand (token : Token) : Bool :=
  match token.type with
  | .select | .parenthesesL | .comma => true
  | type => type.unaryOperator.isSome || type.binaryOperator.isSome

/-- `[from name]` -/
inductive FromPhrase : List Token → Prop where
  | none : FromPhrase []
  | named {word name : Token} (hword : word.type = .from) (hname : name.type = .identifier) :
      FromPhrase [word, name]

/-- The last token is one behind which an operand has to follow. -/
def EndsOpen (tokens : List Token) : Prop := ∃ last ∈ tokens.getLast?, opensOperand last

section Grammar

variable [FloatUnit]

/-- The token is an operand, and its number can be read. -/
def isOperand (token : Token) : Bool :=
  match token.type with
  | .string | .identifier => true
  | .integer => (stoi token.data).isOk
  | .real => (stof token.data).isOk
  | _ => false

inductive Derives : Phrase → List Token → Prop where
  | operand {e : List Token} (he : Derives .unaryExpr e) : Derives .binaryExpr e
  | binary {lhs rhs : List Token} {op : Token} (hlhs : Derives .unaryExpr lhs)
      (hop : op.type.binaryOperator.isSome) (hrhs : Derives .binaryExpr rhs) :
      Derives .binaryExpr (lhs ++ op :: rhs)
  | unary {op : Token} {rhs : List Token} (hop : op.type.unaryOperator.isSome)
      (hrhs : Derives .unaryExpr rhs) : Derives .unaryExpr (op :: rhs)
  | literal {token : Token} (htoken : isOperand token) : Derives .unaryExpr [token]
  | grouping {left right : Token} {e : List Token} (hleft : left.type = .parenthesesL)
      (hright : right.type = .parenthesesR) (hfirst : ∀ next ∈ e.head?, next.type ≠ .select)
      (he : Derives .binaryExpr e) : Derives .unaryExpr (left :: (e ++ [right]))
  | groupedSelect {left select right : Token} {e : List Token}
      (hleft : left.type = .parenthesesL) (hselect : select.type = .select)
      (hright : right.type = .parenthesesR)
      (he : Derives .selectExpr e) : Derives .unaryExpr (left :: select :: (e ++ [right]))
  | select {select : Token} {e : List Token} (hselect : select.type = .select)
      (he : Derives .selectExpr e) : Derives .unaryExpr (select :: e)
  | single {e clause : List Token} (hfirst : ∀ next ∈ e.head?, next.type ≠ .parenthesesL)
      (he : Derives .binaryExpr e) (hclause : FromPhrase clause) : Derives .selectExpr (e ++ clause)
  | list {left right : Token} {es clause : List Token} (hleft : left.type = .parenthesesL)
      (hright : right.type = .parenthesesR) (hes : Derives .innerExpr es)
      (hclause : FromPhrase clause) : Derives .selectExpr (left :: (es ++ right :: clause))
  | last {e : List Token} (he : Derives .binaryExpr e) : Derives .innerExpr e
  | more {e es : List Token} {comma : Token} (he : Derives .binaryExpr e)
      (hcomma : comma.type = .comma) (hes : Derives .innerExpr es) :
      Derives .innerExpr (e ++ comma :: es)

/--
There are no tokens, or they are the beginning of a select statement that ends
where an operand has to follow.
-/
def CutOff (tokens : List Token) : Prop :=
  tokens = [] ∨ EndsOpen tokens ∧ ∃ (select : Token) (body rest : List Token),
    select.type = .select ∧ Derives .selectExpr body ∧ tokens ++ rest = select :: body

theorem Derives.ne_nil {phrase : Phrase} {e : List Token} (h : Derives phrase e) : e ≠ [] := by
  induction h with
  | operand _ ih => exact ih
  | binary _ _ _ ih _ => exact List.append_ne_nil_of_left_ne_nil ih _
  | unary _ _ _ => exact List.cons_ne_nil _ _
  | literal _ => exact List.cons_ne_nil _ _
  | grouping _ _ _ _ _ => exact List.cons_ne_nil _ _
  | groupedSelect _ _ _ _ _ => exact List.cons_ne_nil _ _
  | select _ _ _ => exact List.cons_ne_nil _ _
  | single _ _ _ ih => exact List.append_ne_nil_of_left_ne_nil ih _
  | list _ _ _ _ _ => exact List.cons_ne_nil _ _
  | last _ ih => exact ih
  | more _ _ _ ih _ => exact List.append_ne_nil_of_left_ne_nil ih _

end Grammar

/-! ## Tokens that end open -/

theorem endsOpen_singleton {token : Token} (h : opensOperand token) : EndsOpen [token] :=
  ⟨token, rfl, h⟩

theorem EndsOpen.append {tokens : List Token} (h : EndsOpen tokens) (before : List Token) :
    EndsOpen (before ++ tokens) := by
  obtain ⟨last, hlast, hopen⟩ := h
  refine ⟨last, ?_, hopen⟩
  rw [List.getLast?_append, Option.mem_def.mp hlast]
  rfl

theorem EndsOpen.ne_nil {tokens : List Token} (h : EndsOpen tokens) : tokens ≠ [] := by
  rintro rfl
  obtain ⟨last, hlast, _⟩ := h
  cases hlast

theorem opensOperand_of_type {token : Token} {type : TokenType} (htype : token.type = type)
    (h : type ∈ [TokenType.select, .parenthesesL, .comma]) : opensOperand token := by
  simp only [List.mem_cons, List.not_mem_nil, or_false] at h
  rcases h with rfl | rfl | rfl <;> rw [opensOperand, htype]

theorem opensOperand_of_unary {token : Token} (h : token.type.unaryOperator.isSome) :
    opensOperand token := by
  unfold opensOperand
  split
  · rfl
  · rfl
  · rfl
  · rw [h, Bool.true_or]

theorem opensOperand_of_binary {token : Token} (h : token.type.binaryOperator.isSome) :
    opensOperand token := by
  unfold opensOperand
  split
  · rfl
  · rfl
  · rfl
  · rw [h, Bool.or_true]

/-! ## Beginnings of phrases -/

/-- A token that is a phrase of every kind. -/
def someName : Token := ⟨.identifier, [], []⟩

section Beginnings

variable [FloatUnit]

theorem derives_someName (phrase : Phrase) : Derives phrase [someName] := by
  have hunary : Derives .unaryExpr [someName] := .literal rfl
  have hbinary : Derives .binaryExpr [someName] := .operand hunary
  cases phrase with
  | binaryExpr => exact hbinary
  | unaryExpr => exact hunary
  | selectExpr => exact .single (e := [someName]) (by rintro _ ⟨⟩; exact nofun) hbinary .none
  | innerExpr => exact .last hbinary

/-- The tokens begin a phrase and end where an operand has to follow. -/
inductive CutShort (phrase : Phrase) : List Token → Prop where
  | start : CutShort phrase []
  | opened {tokens rest : List Token} (hopen : EndsOpen tokens)
      (h : Derives phrase (tokens ++ rest)) : CutShort phrase tokens

namespace CutShort

variable {phrase phrase' : Phrase} {tokens : List Token}

theorem completed (h : CutShort phrase tokens) :
    ∃ rest, Derives phrase (tokens ++ rest) ∧
      ∀ next ∈ (tokens ++ rest).head?, next ∈ tokens.head? ∨ next = someName := by
  cases h with
  | start =>
      refine ⟨[someName], derives_someName phrase, fun next hnext => .inr ?_⟩
      exact (Option.mem_some_iff.mp hnext).symm
  | @opened _ rest hopen hderives =>
      refine ⟨rest, hderives, fun next hnext => .inl ?_⟩
      rwa [List.head?_append_of_ne_nil _ hopen.ne_nil] at hnext

/-- A beginning of one phrase is one of another. -/
theorem inside (h : CutShort phrase tokens)
    (hphrase : ∀ rest, tokens ≠ [] → Derives phrase (tokens ++ rest) →
      Derives phrase' (tokens ++ rest)) : CutShort phrase' tokens := by
  cases h with
  | start => exact .start
  | opened hopen hderives => exact .opened hopen (hphrase _ hopen.ne_nil hderives)

/-- The beginning of a phrase that is put behind other tokens begins a larger one. -/
theorem behind (h : CutShort phrase tokens) (before : List Token) (hbefore : EndsOpen before)
    (hphrase : ∀ e, Derives phrase e →
      (∀ next ∈ e.head?, next ∈ tokens.head? ∨ next = someName) →
      ∃ more, Derives phrase' (before ++ (e ++ more))) : CutShort phrase' (before ++ tokens) := by
  obtain ⟨rest, hderives, hfirst⟩ := h.completed
  obtain ⟨more, hlarger⟩ := hphrase _ hderives hfirst
  have hopen : EndsOpen (before ++ tokens) := by
    cases h with
    | start => rwa [List.append_nil]
    | opened hopen _ => exact hopen.append before
  rw [List.append_assoc, ← List.append_assoc] at hlarger
  exact .opened hopen hlarger

theorem operand (h : CutShort .unaryExpr tokens) : CutShort .binaryExpr tokens :=
  h.inside fun _ _ => .operand

theorem binary (h : CutShort .binaryExpr tokens) {lhs : List Token} {op : Token}
    (hlhs : Derives .unaryExpr lhs) (hop : op.type.binaryOperator.isSome) :
    CutShort .binaryExpr (lhs ++ op :: tokens) := by
  have hopen : EndsOpen (lhs ++ [op]) :=
    (endsOpen_singleton (opensOperand_of_binary hop)).append lhs
  have hcut : CutShort .binaryExpr (lhs ++ [op] ++ tokens) :=
    h.behind _ hopen fun e he _ => ⟨[], by simpa using Derives.binary hlhs hop he⟩
  rwa [List.append_assoc] at hcut

theorem unary (h : CutShort .unaryExpr tokens) {op : Token}
    (hop : op.type.unaryOperator.isSome) : CutShort .unaryExpr (op :: tokens) :=
  h.behind [op] (endsOpen_singleton (opensOperand_of_unary hop)) fun e he _ =>
    ⟨[], by simpa using Derives.unary hop he⟩

theorem grouping (h : CutShort .binaryExpr tokens) {left : Token}
    (hleft : left.type = .parenthesesL) (hfirst : ∀ next ∈ tokens.head?, next.type ≠ .select) :
    CutShort .unaryExpr (left :: tokens) := by
  have hopen := endsOpen_singleton (opensOperand_of_type hleft (by simp))
  refine h.behind [left] hopen fun e he hhead => ⟨[⟨.parenthesesR, [], []⟩], ?_⟩
  refine Derives.grouping hleft rfl (fun next hnext => ?_) he
  rcases hhead next hnext with hin | rfl
  · exact hfirst next hin
  · exact nofun

theorem groupedSelect (h : CutShort .selectExpr tokens) {left select : Token}
    (hleft : left.type = .parenthesesL) (hselect : select.type = .select) :
    CutShort .unaryExpr (left :: select :: tokens) := by
  have hopen := endsOpen_singleton (opensOperand_of_type hselect (by simp))
  exact h.behind [left, select] (hopen.append [left]) fun e he _ =>
    ⟨[⟨.parenthesesR, [], []⟩], .groupedSelect hleft hselect rfl he⟩

theorem select (h : CutShort .selectExpr tokens) {select : Token}
    (hselect : select.type = .select) : CutShort .unaryExpr (select :: tokens) := by
  have hopen := endsOpen_singleton (opensOperand_of_type hselect (by simp))
  exact h.behind [select] hopen fun e he _ =>
    ⟨[], by simpa using Derives.select hselect he⟩

theorem single (h : CutShort .binaryExpr tokens)
    (hfirst : ∀ next ∈ tokens.head?, next.type ≠ .parenthesesL) :
    CutShort .selectExpr tokens := by
  refine h.inside fun rest hne he => ?_
  rw [← List.append_nil (tokens ++ rest)]
  refine .single ?_ he .none
  rwa [List.head?_append_of_ne_nil _ hne]

theorem list (h : CutShort .innerExpr tokens) {left : Token}
    (hleft : left.type = .parenthesesL) : CutShort .selectExpr (left :: tokens) := by
  have hopen := endsOpen_singleton (opensOperand_of_type hleft (by simp))
  exact h.behind [left] hopen fun es hes _ =>
    ⟨[⟨.parenthesesR, [], []⟩], .list hleft rfl hes .none⟩

theorem first (h : CutShort .binaryExpr tokens) : CutShort .innerExpr tokens :=
  h.inside fun _ _ => .last

theorem more (h : CutShort .innerExpr tokens) {e : List Token} {comma : Token}
    (he : Derives .binaryExpr e) (hcomma : comma.type = .comma) :
    CutShort .innerExpr (e ++ comma :: tokens) := by
  have hopen := (endsOpen_singleton (opensOperand_of_type hcomma (by simp))).append e
  have hcut : CutShort .innerExpr (e ++ [comma] ++ tokens) :=
    h.behind _ hopen fun es hes _ => ⟨[], by simpa using Derives.more he hcomma hes⟩
  rwa [List.append_assoc] at hcut

end CutShort

/-- The beginning of what may stand behind `select`. -/
theorem CutShort.cutOff {tokens : List Token} (h : CutShort .selectExpr tokens) {select : Token}
    (hselect : select.type = .select) : CutOff (select :: tokens) := by
  obtain ⟨rest, hderives, _⟩ := h.completed
  have hopen := endsOpen_singleton (opensOperand_of_type hselect (by simp))
  have hends : EndsOpen (select :: tokens) := by
    cases h with
    | start => exact hopen
    | opened hopen' _ => exact hopen'.append [select]
  exact .inr ⟨hends, select, tokens ++ rest, rest, hselect, hderives, rfl⟩

end Beginnings

end HiveDb.Parser
