import HiveDb.Parser.Steps

/-!
# What the parser consumes

Each function of the parser reads a prefix of the tokens that does not depend on
what stands behind it, and the depth granted to `parse` suffices for every list.
So the tokens that a statement consumes are a statement on their own, whatever
follows them; nothing looks at the tokens that are left.
-/

namespace HiveDb.Parser

open HiveDb.Lib

variable {α : Type}

/-! ## One token -/

theorem matchType_cases (type : TokenType) (tokens : List Token) :
    (∃ token rest, tokens = token :: rest ∧ token.type = type ∧
      matchType type tokens = .ok (some token) rest) ∨
    ((∀ next ∈ tokens.head?, next.type ≠ type) ∧ matchType type tokens = .ok none tokens) := by
  rcases accept_cases (ε := Failure) (fun token : Token =>
      if token.type = type then some token else none) tokens with
    ⟨first, rest, a, htokens, htaken, hrun⟩ | ⟨hnone, hrun⟩
  · split at htaken
    · cases htaken
      exact .inl ⟨first, rest, htokens, ‹_›, hrun⟩
    · cases htaken
  · refine .inr ⟨fun next hnext htype => ?_, hrun⟩
    have hmiss := hnone next hnext
    rw [if_pos htype] at hmiss
    cases hmiss

theorem consume_cases (type : TokenType) (err : String) (tokens : List Token) :
    (∃ token rest, tokens = token :: rest ∧ token.type = type ∧
      consume type err tokens = .ok token rest) ∨
    ((∀ next ∈ tokens.head?, next.type ≠ type) ∧
      consume type err tokens = .error (.invalidArgument err) tokens) := by
  rcases matchType_cases type tokens with ⟨token, rest, htokens, htype, hrun⟩ | ⟨hmiss, hrun⟩
  · exact .inl ⟨token, rest, htokens, htype, bind_of_ok hrun⟩
  · exact .inr ⟨hmiss, bind_of_ok hrun⟩

/-! ## Locality -/

section Locality

theorem local_compositional : Compositional fun _ x _ => Local x where
  ret := .ret
  throws _ := .fail _
  lift _ := .lift _
  step := .accept
  bind := .bind

/-- The error at the end of `primaryExpr` and `expr` is one for every list. -/
theorem invalidToken_fails (tokens : List Token) :
    ∃ failure s, (invalidToken : Parsing α) tokens = .error failure s ∧ failure ≠ .outOfFuel := by
  cases tokens with
  | nil => exact ⟨.undefined, [], rfl, nofun⟩
  | cons token rest => exact ⟨_, token :: rest, rfl, nofun⟩

theorem local_invalidToken : Local (invalidToken : Parsing α) :=
  .of_fails fun tokens => by
    obtain ⟨failure, s, herror, _⟩ := invalidToken_fails (α := α) tokens
    exact ⟨failure, s, herror⟩

/-- The functions for expressions read no further than they return. -/
theorem local_expressions [FloatUnit] (depth : Nat) :
    Local (binaryExpr depth) ∧ Local (unaryExpr depth) ∧ Local (primaryExpr depth) ∧
      Local (selectExpr depth) ∧ Local (commaExprs depth) :=
  local_compositional.expressions local_invalidToken (fun _ _ => .fail _) depth

end Locality

/-! ## The depth suffices -/

section Depth

variable {n k : Nat} {f : Token → List Exprs}

/-- The program stays within its bound on lists of at most `n` tokens and reads at least `k`. -/
abbrev Within (n k : Nat) (x : Parsing α) : Prop := Finishes .outOfFuel n k x

theorem within_consume (type : TokenType) (err : String) : Within n 1 (consume type err) :=
  .accept (fun _ token => .ret token) (.fail nofun)

theorem within_invalidToken : Within n k (invalidToken : Parsing α) :=
  .of_fails invalidToken_fails

theorem within_stoi (text : Text) : Within n 0 (liftPure (stoi text)) := by
  refine .lift ?_
  unfold stoi
  dsimp only
  split
  · exact nofun
  · split <;> exact nofun

theorem within_fromClause (innerExpr : List Exprs) : Within n 0 (fromClause innerExpr) :=
  .accept (fun _ _ => ((within_consume _ _).bind fun _ => .ret _).mono (Nat.le_refl _)
    (Nat.zero_le _)) (.ret _)

variable [FloatUnit]

theorem within_stof (text : Text) : Within n 0 (liftPure (stof text)) := by
  refine .lift ?_
  unfold stof
  cases FloatUnit.strtof text <;> exact nofun

/-- The depths that suffice for lists of at most `n` tokens. -/
structure Deep (n : Nat) : Prop where
  primary : ∀ {depth}, 4 * n + 1 ≤ depth → Within n 1 (primaryExpr depth)
  unary : ∀ {depth}, 4 * n + 2 ≤ depth → Within n 1 (unaryExpr depth)
  binary : ∀ {depth}, 4 * n + 3 ≤ depth → Within n 1 (binaryExpr depth)
  select : ∀ {depth}, 4 * n + 4 ≤ depth → Within n 1 (selectExpr depth)
  comma : ∀ {depth}, 4 * n + 1 ≤ depth → Within n 0 (commaExprs depth)

theorem within_primaryExpr (hless : 0 < n → Deep (n - 1)) {depth : Nat}
    (hdepth : 4 * n + 1 ≤ depth) : Within n 1 (primaryExpr depth) := by
  obtain ⟨depth, rfl⟩ : ∃ d, depth = d + 1 := ⟨depth - 1, by omega⟩
  refine .accept (fun _ token => .ret _) ?_
  refine .accept (fun _ token => .ret _) ?_
  refine .accept (fun _ token => (within_stoi _).bind fun _ => .ret _) ?_
  refine .accept (fun _ token => (within_stof _).bind fun _ => .ret _) ?_
  refine .accept (fun hpos token => ?_) ?_
  · refine .accept (fun hpos' select => ?_) ?_
    · have hselect : Within (n - 1) 1 (selectExpr depth) := (hless hpos).select (by omega)
      have hgroup := hselect.bind fun e => (within_consume .parenthesesR
        "Missing parentheses.").bind fun _ => .ret (Exprs.grouping e)
      exact hgroup.mono (by omega) (by omega)
    · have hbinary : Within (n - 1) 1 (binaryExpr depth) := (hless hpos).binary (by omega)
      have hgroup := hbinary.bind fun e => (within_consume .parenthesesR
        "Missing parentheses.").bind fun _ => .ret (Exprs.grouping e)
      exact hgroup.mono (by omega) (by omega)
  · refine .accept (fun hpos select => ?_) within_invalidToken
    have hselect : Within (n - 1) 1 (selectExpr depth) := (hless hpos).select (by omega)
    exact (hselect.bind (k := 0) fun e => .ret (Exprs.grouping e)).mono (by omega) (by omega)

theorem within_unaryExpr (hless : 0 < n → Deep (n - 1)) {depth : Nat}
    (hdepth : 4 * n + 2 ≤ depth) : Within n 1 (unaryExpr depth) := by
  obtain ⟨depth, rfl⟩ : ∃ d, depth = d + 1 := ⟨depth - 1, by omega⟩
  refine .accept (fun hpos op => ?_) (within_primaryExpr hless (by omega))
  have hunary : Within (n - 1) 1 (unaryExpr depth) := (hless hpos).unary (by omega)
  exact (hunary.bind fun rhs => .ret _).mono (by omega) (by omega)

theorem within_binaryExpr (hless : 0 < n → Deep (n - 1)) {depth : Nat}
    (hdepth : 4 * n + 3 ≤ depth) : Within n 1 (binaryExpr depth) := by
  obtain ⟨depth, rfl⟩ : ∃ d, depth = d + 1 := ⟨depth - 1, by omega⟩
  refine (within_unaryExpr hless (by omega)).bind (k := 0) fun e => ?_
  refine .accept (fun hpos op => ?_) (.ret _)
  have hbinary : Within (n - 1) 1 (binaryExpr depth) := (hless (by omega)).binary (by omega)
  exact (hbinary.bind fun rhs => .ret _).mono (by omega) (by omega)

theorem within_commaExprs (hless : 0 < n → Deep (n - 1)) {depth : Nat}
    (hdepth : 4 * n + 1 ≤ depth) : Within n 0 (commaExprs depth) := by
  obtain ⟨depth, rfl⟩ : ∃ d, depth = d + 1 := ⟨depth - 1, by omega⟩
  refine .accept (fun hpos comma => ?_) (.ret _)
  have hbinary : Within (n - 1) 1 (binaryExpr depth) := (hless hpos).binary (by omega)
  have hcomma : Within (n - 1) 0 (commaExprs depth) := (hless hpos).comma (by omega)
  exact (hbinary.bind (k := 0) fun e => (hcomma.mono (Nat.sub_le _ _) (Nat.le_refl _)).bind
    (k := 0) fun rest => .ret (e :: rest)).mono (by omega) (by omega)

theorem within_selectExpr (hless : 0 < n → Deep (n - 1)) {depth : Nat}
    (hdepth : 4 * n + 4 ≤ depth) : Within n 1 (selectExpr depth) := by
  obtain ⟨depth, rfl⟩ : ∃ d, depth = d + 1 := ⟨depth - 1, by omega⟩
  refine .accept (fun hpos parentheses => ?_) ?_
  · have hbinary : Within (n - 1) 1 (binaryExpr depth) := (hless hpos).binary (by omega)
    have hcomma : Within (n - 1) 0 (commaExprs depth) := (hless hpos).comma (by omega)
    exact (hbinary.bind (k := 1) fun e => (hcomma.mono (Nat.sub_le _ _) (Nat.le_refl _)).bind
      (k := 1) fun rest => (within_consume .parenthesesR "INVALID SELECT STMT").bind
        (k := 0) fun _ => within_fromClause (e :: rest)).mono (by omega) (by omega)
  · exact (within_binaryExpr hless (by omega)).bind fun e => within_fromClause [e]

/-- Four times the number of tokens, and a little more, is deep enough. -/
theorem deep (n : Nat) : Deep n := by
  induction n with
  | zero =>
      have hless : 0 < 0 → Deep (0 - 1) := fun impossible => absurd impossible (Nat.lt_irrefl 0)
      exact ⟨within_primaryExpr hless, within_unaryExpr hless, within_binaryExpr hless,
        within_selectExpr hless, within_commaExprs hless⟩
  | succ n ih =>
      have hless : 0 < n + 1 → Deep (n + 1 - 1) := fun _ => ih
      exact ⟨within_primaryExpr hless, within_unaryExpr hless, within_binaryExpr hless,
        within_selectExpr hless, within_commaExprs hless⟩

end Depth

/-! ## More depth changes nothing -/

section MoreDepth

/-- The second program is the first one with more depth. -/
abbrev Extends (x y : Parsing α) : Prop := Approximates .outOfFuel x y

theorem extends_compositional : Compositional fun _ x y => Extends x y where
  ret _ := .refl _
  throws _ := .refl _
  lift _ := .refl _
  step _ := .refl _
  bind := .bind

variable [FloatUnit]

theorem extends_expressions (depth : Nat) :
    Extends (binaryExpr depth) (binaryExpr (depth + 1)) ∧
    Extends (unaryExpr depth) (unaryExpr (depth + 1)) ∧
    Extends (primaryExpr depth) (primaryExpr (depth + 1)) ∧
    Extends (selectExpr depth) (selectExpr (depth + 1)) ∧
    Extends (commaExprs depth) (commaExprs (depth + 1)) :=
  extends_compositional.expressions (.refl _) (fun _ _ => .exhausted _) depth

theorem extends_selectExpr (depth : Nat) :
    Extends (selectExpr depth) (selectExpr (depth + 1)) :=
  (extends_expressions depth).2.2.2.1

end MoreDepth

/-! ## The lists of the statements -/

section Lists

variable {element : Parsing α} {n : Nat}

theorem within_listNext : Within n 1 listNext :=
  .accept (fun _ _ => .ret _) (.accept (fun _ _ => .ret _) (.fail nofun))

/-- A round of the loop. -/
theorem whileNotDone_of_ne_nil {tokens : List Token} (hne : tokens ≠ []) (rounds : Nat) :
    whileNotDone element (rounds + 1) tokens =
      (do
        let a ← element
        match ← listNext with
        | .more => do
            let others ← whileNotDone element rounds
            return a :: others
        | .last => return [a] : Parsing (List α)) tokens := by
  cases tokens with
  | nil => exact absurd rfl hne
  | cons token rest => rfl

theorem extends_whileNotDone (element : Parsing α) (rounds : Nat) :
    Extends (whileNotDone element rounds) (whileNotDone element (rounds + 1)) :=
  extends_compositional.whileNotDone (fun _ _ hsame => (Approximates.refl _).bind hsame)
    (fun _ => .exhausted _) (.refl _) rounds

/-- Each round reads what ends it, so there are no more rounds than tokens. -/
theorem within_whileNotDone (helement : ∀ m, Within m 0 element) {rounds : Nat}
    (hrounds : n < rounds) : Within n 0 (whileNotDone element rounds) := by
  induction rounds generalizing n with
  | zero => exact absurd hrounds (Nat.not_lt_zero n)
  | succ rounds ih =>
      intro tokens hlength
      cases tokens with
      | nil =>
          refine ⟨nofun, fun a rest hreturns => ?_⟩
          cases hreturns
          exact Nat.le_refl _
      | cons token rest =>
          rw [whileNotDone_of_ne_nil (by simp)]
          have hpos : 0 < n := Nat.lt_of_lt_of_le (Nat.succ_pos _) hlength
          refine ((helement n).bind (k := 0) fun a => ?_) (token :: rest) hlength
          refine (within_listNext.bind (k := 0) fun next => ?_).mono (Nat.le_refl _)
            (Nat.zero_le _)
          cases next with
          | more => exact (ih (by omega)).bind fun others => .ret _
          | last => exact .ret _

theorem local_whileNotDone (helement : Local element) (rounds : Nat) :
    Local (whileNotDone element rounds) := by
  induction rounds with
  | zero => exact .fail _
  | succ rounds ih =>
      intro tokens as rest hreturns
      cases tokens with
      | nil =>
          cases hreturns
          refine ⟨[], rfl, fun other hother => ?_⟩
          cases other with
          | nil => rfl
          | cons head tail => simp [SameNext] at hother
      | cons token tokens =>
          rw [whileNotDone_of_ne_nil (by simp)] at hreturns
          have hend := local_compositional.roundEnd (y := whileNotDone element rounds) ih
          have hround := helement.bind fun a => local_compositional.listNext.bind (hend a)
          obtain ⟨read, hread, hcut⟩ := hround _ _ _ hreturns
          refine ⟨read, hread, fun other hother => ?_⟩
          cases read with
          | cons first others =>
              rw [whileNotDone_of_ne_nil (by simp)]
              exact hcut other hother
          | nil =>
              -- a round reads at least the token that ends it
              exfalso
              obtain ⟨a, middle, helem, hnext⟩ := bind_eq_ok_iff.mp hreturns
              obtain ⟨next, last, hlast, hrun⟩ := bind_eq_ok_iff.mp hnext
              have hmiddle := helement.length_le helem
              have hone := (within_listNext middle (Nat.le_refl _)).2 next last hlast
              have hrest := (hend a next).length_le hrun
              have hsame := congrArg List.length hread
              rw [List.nil_append] at hsame
              omega

end Lists

/-! ## Statements -/

section Statements

variable {n : Nat}

theorem within_insertColumn (m : Nat) : Within m 0 insertColumn :=
  ((within_consume _ _).bind fun _ => .ret _).mono (Nat.le_refl _) (Nat.zero_le _)

theorem within_createColumn (m : Nat) : Within m 0 createColumn := by
  have hnull : ∀ k, Within k 0 notNull := fun k =>
    .accept (fun _ _ => ((within_consume _ _).bind fun _ => .ret _).mono (Nat.le_refl _)
      (Nat.zero_le _)) (.ret _)
  exact ((within_consume _ _).bind fun name => (within_consume _ _).bind fun type =>
    (hnull _).bind (k := 0) fun canBeNull => .ret _).mono (Nat.le_refl _) (Nat.zero_le _)

theorem local_createExpr (rounds : Nat) : Local (createExpr rounds) :=
  local_compositional.createExpr (n := rounds)
    (local_whileNotDone local_compositional.createColumn rounds)

theorem extends_createExpr (rounds : Nat) : Extends (createExpr rounds) (createExpr (rounds + 1)) :=
  extends_compositional.createExpr (extends_whileNotDone createColumn rounds)

theorem within_createExpr {rounds : Nat} (hrounds : n < rounds) :
    Within n 0 (createExpr rounds) := by
  have hcolumns : Within (n - 1 - 1 - 1) 0 (whileNotDone createColumn rounds) :=
    within_whileNotDone within_createColumn (by omega)
  exact ((within_consume _ _).bind fun _ => (within_consume _ _).bind fun _ =>
    (within_consume _ _).bind fun _ => hcolumns.bind (k := 0) fun _ => .ret _).mono
    (Nat.le_refl _) (Nat.zero_le _)

variable [FloatUnit]

theorem within_insertValue (m : Nat) : Within m 0 insertValue :=
  .accept (fun _ _ => .ret _) <|
    .accept (fun _ _ => (within_stoi _).bind fun _ => .ret _) <|
      .accept (fun _ _ => (within_stof _).bind fun _ => .ret _) (.fail nofun)

theorem local_insertExpr (rounds : Nat) : Local (insertExpr rounds) :=
  local_compositional.insertExpr (n := rounds)
    (local_whileNotDone local_compositional.insertColumn rounds)
    (local_whileNotDone local_compositional.insertValue rounds)

theorem extends_insertExpr (rounds : Nat) : Extends (insertExpr rounds) (insertExpr (rounds + 1)) :=
  extends_compositional.insertExpr (extends_whileNotDone insertColumn rounds)
    (extends_whileNotDone insertValue rounds)

theorem within_insertExpr {rounds : Nat} (hrounds : n < rounds) :
    Within n 0 (insertExpr rounds) := by
  have hcolumns : Within (n - 1 - 1 - 1) 0 (whileNotDone insertColumn rounds) :=
    within_whileNotDone within_insertColumn (by omega)
  have hvalues : Within (n - 1 - 1 - 1 - 0 - 1 - 1) 0 (whileNotDone insertValue rounds) :=
    within_whileNotDone within_insertValue (by omega)
  exact ((within_consume _ _).bind fun _ => (within_consume _ _).bind fun _ =>
    (within_consume _ _).bind fun _ => hcolumns.bind fun _ => (within_consume _ _).bind
      fun _ => (within_consume _ _).bind fun _ => hvalues.bind (k := 0) fun _ => .ret _).mono
    (Nat.le_refl _) (Nat.zero_le _)

theorem local_expr (depth : Nat) : Local (expr depth) :=
  local_compositional.expr (n := depth) local_invalidToken (local_expressions depth).2.2.2.1
    (local_createExpr depth) (local_insertExpr depth)

theorem extends_expr (depth : Nat) : Extends (expr depth) (expr (depth + 1)) :=
  extends_compositional.expr (.refl _) (extends_selectExpr depth) (extends_createExpr depth)
    (extends_insertExpr depth)

theorem within_expr {depth : Nat} (hdepth : depthFor n ≤ depth) : Within n 0 (expr depth) := by
  have hdeep : 4 * n + 4 ≤ depth := hdepth
  refine .accept (fun hpos _ => ((deep (n - 1)).select (by omega)).mono (Nat.le_refl _)
    (Nat.zero_le _)) ?_
  refine .accept (fun hpos _ => within_createExpr (by omega)) ?_
  exact .accept (fun hpos _ => within_insertExpr (by omega)) within_invalidToken

/-- The depth that `parse` grants is enough. -/
theorem parse_within (tokens : List Token) (s : List Token) :
    parse tokens ≠ .error .outOfFuel s :=
  (within_expr (Nat.le_refl _) tokens (Nat.le_refl _)).1 s

/-- Any depth that is enough gives what `parse` returns. -/
theorem expr_eq_parse {tokens : List Token} {depth : Nat}
    (hdepth : depthFor tokens.length ≤ depth) :
    expr depth tokens = parse tokens := by
  rcases Approximates.of_step extends_expr hdepth tokens with hsame | ⟨s, herror⟩
  · exact hsame.symm
  · exact absurd herror (parse_within tokens s)

/-- More depth than the tokens ask for gives what `parse` returns. -/
theorem parse_of_expr {tokens rest : List Token} {depth : Nat} {statement : Exprs}
    (h : expr depth tokens = .ok statement rest) : parse tokens = .ok statement rest := by
  rcases Nat.le_total depth (depthFor tokens.length) with hle | hle
  · exact Approximates.ok_of_le extends_expr hle h
  · exact (expr_eq_parse hle).symm.trans h

/--
The tokens that a statement consumes are a statement on their own, and stay one
whatever is put behind the token that follows them.
-/
theorem parse_reads_prefix {tokens rest : List Token} {statement : Exprs}
    (h : parse tokens = .ok statement rest) :
    ∃ consumed, tokens = consumed ++ rest ∧ parse consumed = .ok statement [] ∧
      ∀ other, other.head? = rest.head? → parse (consumed ++ other) = .ok statement other := by
  obtain ⟨consumed, rfl, hcut⟩ := local_expr _ _ _ _ h
  refine ⟨consumed, rfl, ?_, fun other hother => parse_of_expr (hcut other (.inr hother))⟩
  have halone := parse_of_expr (hcut [] (.inl rfl))
  rwa [List.append_nil] at halone

end Statements

/-- The tokens of `select 1 2`. -/
def selectOneTwo : List Token := [⟨.select, [], []⟩, ⟨.integer, ['1'], []⟩, ⟨.integer, ['2'], []⟩]

theorem select_one_two_reads_prefix :
    ∃ consumed, selectOneTwo = consumed ++ [⟨.integer, ['2'], []⟩] ∧
      @parse .binary32 consumed = .ok (.select [.literalInt 1] []) [] ∧
      ∀ other : List Token, other.head? = some ⟨.integer, ['2'], []⟩ →
        @parse .binary32 (consumed ++ other) = .ok (.select [.literalInt 1] []) other := by
  let _ := FloatUnit.binary32
  have hruns : parse selectOneTwo = .ok (.select [.literalInt 1] []) [⟨.integer, ['2'], []⟩] := rfl
  exact parse_reads_prefix hruns

/-- A statement is returned although a token that is not the end is left. -/
theorem select_one_two_leaves_token :
    ∃ statement rest, @parse .binary32 selectOneTwo = .ok statement rest ∧
      ¬ (rest = [] ∨ rest.head?.map Token.type = some .eof) :=
  ⟨_, [⟨.integer, ['2'], []⟩], rfl, by decide⟩

end HiveDb.Parser
