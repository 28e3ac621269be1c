import HiveDb.Lib.Grammar
import HiveDb.Parser.Consumption

/-!
# Complete statements

The sentences for create and insert statements, over the types of tokens.  A
loop over a list is left behind a closing parenthesis or where the tokens end;
in the second case the list is not closed and may be empty or end with a comma.
-/

namespace HiveDb.Parser

open HiveDb.Lib

variable {α : Type}

/-! ## The sentences -/

/-- `{ element , } element )` -/
def listOf (element : Language TokenType) : Language TokenType :=
  listed .comma .parenthesesR element

/-- `col type [not null]` -/
def columnDefinition : Language TokenType :=
  {[.identifier]} * {[.identifier]} * (1 + {[.not]} * {[.null]})

/-- The values of an insert statement. -/
def valueLiteral : Language TokenType := {[.string]} + {[.integer]} + {[.real]}

def createSentence : Language TokenType :=
  {[.create, .table, .identifier, .parenthesesL]} * listOf columnDefinition

def insertSentence : Language TokenType :=
  {[.insert, .into, .identifier, .parenthesesL]} * listOf {[.identifier]} *
    {[.values, .parenthesesL]} * listOf valueLiteral

/-- The complete sentences for statements of the kind. -/
def sentences : Exprs → Language TokenType
  | .createTbl _ => createSentence
  | .insert _ => insertSentence
  | _ => 0

/-- The lists in parentheses that the statement asks for. -/
def listsOf : List Token → Nat
  | [] => 0
  | first :: _ =>
      match first.type with
      | .create => 1
      | .insert => 2
      | _ => 0

/-- The closing parentheses among the tokens. -/
def closers (tokens : List Token) : Nat := (tokens.map Token.type).count .parenthesesR

theorem closers_append (tokens others : List Token) :
    closers (tokens ++ others) = closers tokens + closers others := by
  simp [closers]

/-! ## What the elements read -/

theorem matchType_some {type : TokenType} {tokens rest : List Token} {token : Token}
    (h : matchType type tokens = .ok (some token) rest) :
    tokens = token :: rest ∧ token.type = type := by
  obtain ⟨first, rfl, hfirst⟩ := accept_some h
  split at hfirst
  · cases hfirst
    exact ⟨rfl, ‹_›⟩
  · cases hfirst

theorem matchType_none {type : TokenType} {tokens rest : List Token}
    (h : matchType type tokens = .ok none rest) : tokens = rest := accept_none h

theorem consume_ok {type : TokenType} {err : String} {tokens rest : List Token} {token : Token}
    (h : consume type err tokens = .ok token rest) :
    tokens = token :: rest ∧ token.type = type := by
  obtain ⟨taken, middle, htaken, hreturns⟩ := bind_eq_ok_iff.mp h
  cases taken with
  | some first =>
      cases hreturns
      exact matchType_some htaken
  | none => cases hreturns

theorem reads_matchType {type : TokenType} {f : Option Token → Parsing α}
    {M N : Language TokenType} (hsome : ∀ token, ReadsIn Token.type M (f (some token)))
    (hnone : ReadsIn Token.type N (f none)) :
    ReadsIn Token.type ({[type]} * M + N) (matchType type >>= f) := by
  apply ReadsIn.accept _ hsome hnone
  intro first token htakes
  split at htakes
  · rename_i htype
    rw [htype]
    exact Set.mem_singleton _
  · cases htakes

theorem consume_reads (type : TokenType) (err : String) :
    ReadsIn Token.type {[type]} (consume type err) := by
  intro tokens token rest h
  obtain ⟨rfl, rfl⟩ := consume_ok h
  exact ⟨[token], rfl, Set.mem_singleton _⟩

theorem insertColumn_reads : ReadsIn Token.type {[.identifier]} insertColumn := by
  have hreads := (consume_reads .identifier "Invalid insert stmt! Missing column!").bind
    fun token => .ret token.literal
  rwa [mul_one] at hreads

theorem notNull_reads : ReadsIn Token.type (1 + {[.not]} * {[.null]}) notNull := by
  have hreads : ReadsIn Token.type ({[.not]} * ({[.null]} * 1) + 1) notNull :=
    reads_matchType (fun _ => (consume_reads _ _).bind fun _ => .ret _) (.ret _)
  rwa [mul_one, add_comm] at hreads

theorem createColumn_reads : ReadsIn Token.type columnDefinition createColumn := by
  have hreads : ReadsIn Token.type
      ({[.identifier]} * ({[.identifier]} * ((1 + {[.not]} * {[.null]}) * 1))) createColumn :=
    (consume_reads _ _).bind fun _ => (consume_reads _ _).bind fun _ =>
      notNull_reads.bind fun _ => .ret _
  rwa [mul_one, ← mul_assoc] at hreads

theorem insertValue_reads [FloatUnit] : ReadsIn Token.type valueLiteral insertValue := by
  have hreads : ReadsIn Token.type
      ({[.string]} * 1 + ({[.integer]} * (1 * 1) + ({[.real]} * (1 * 1) + 0))) insertValue :=
    reads_matchType (fun _ => .ret _) <|
      reads_matchType (fun _ => (ReadsIn.lift _).bind fun _ => .ret _) <|
        reads_matchType (fun _ => (ReadsIn.lift _).bind fun _ => .ret _) (.fail _)
  simp only [mul_one, add_zero, ← add_assoc] at hreads
  exact hreads

theorem closer_notMem_columnDefinition {word : List TokenType} (h : word ∈ columnDefinition) :
    TokenType.parenthesesR ∉ word := by
  obtain ⟨_, ⟨_, rfl, _, rfl, rfl⟩, _, rfl | ⟨_, rfl, _, rfl, rfl⟩, rfl⟩ := h <;> decide

theorem closer_notMem_identifier {word : List TokenType}
    (h : word ∈ ({[.identifier]} : Language TokenType)) : TokenType.parenthesesR ∉ word := by
  obtain rfl := h
  decide

theorem closer_notMem_valueLiteral {word : List TokenType} (h : word ∈ valueLiteral) :
    TokenType.parenthesesR ∉ word := by
  obtain (rfl | rfl) | rfl := h <;> decide

/-! ## What a loop over a list reads -/

theorem listNext_ok {tokens rest : List Token} {next : ListNext}
    (h : listNext tokens = .ok next rest) :
    ∃ token, tokens = token :: rest ∧
      match next with
      | .more => token.type = .comma
      | .last => token.type = .parenthesesR := by
  obtain ⟨comma, middle, hcomma, hnext⟩ := bind_eq_ok_iff.mp h
  cases comma with
  | some token =>
      cases hnext
      exact ⟨token, matchType_some hcomma⟩
  | none =>
      obtain rfl := matchType_none hcomma
      obtain ⟨close, last, hclose, hend⟩ := bind_eq_ok_iff.mp hnext
      cases close with
      | some token =>
          cases hend
          exact ⟨token, matchType_some hclose⟩
      | none => cases hend

/-- What closes a list is in it, and the tokens of a list that is left open end with it. -/
inductive ListRead (element : Language TokenType) (tokens rest : List Token) : Prop where
  | closed (read : List Token) (happend : tokens = read ++ rest)
      (hlist : read.map Token.type ∈ listOf element)
  | truncated (hrest : rest = []) (hopen : closers tokens = 0)

theorem whileNotDone_reads {element : Parsing α} {L : Language TokenType}
    (helement : ReadsIn Token.type L element)
    (hwords : ∀ word ∈ L, TokenType.parenthesesR ∉ word) {rounds : Nat}
    {tokens rest : List Token} {as : List α}
    (h : whileNotDone element rounds tokens = .ok as rest) : ListRead L tokens rest := by
  induction rounds generalizing tokens as with
  | zero => cases h
  | succ rounds ih =>
      cases tokens with
      | nil =>
          cases h
          exact .truncated rfl rfl
      | cons token tokens =>
          rw [whileNotDone_of_ne_nil (by simp)] at h
          obtain ⟨a, middle, helem, hround⟩ := bind_eq_ok_iff.mp h
          obtain ⟨next, others, hnext, hend⟩ := bind_eq_ok_iff.mp hround
          obtain ⟨read, hread, hword⟩ := helement _ _ _ helem
          obtain ⟨separator, rfl, htype⟩ := listNext_ok hnext
          rw [hread]
          cases next with
          | last =>
              cases hend
              refine .closed (read ++ [separator]) (by simp) ?_
              rw [List.map_append, List.map_singleton, htype]
              exact listed_last hword
          | more =>
              obtain ⟨more, last, hmore, hlast⟩ := bind_eq_ok_iff.mp hend
              cases hlast
              cases ih hmore with
              | closed read' happend hlist =>
                  subst happend
                  refine .closed (read ++ separator :: read') (by simp) ?_
                  rw [List.map_append, List.map_cons, htype]
                  exact listed_more hword hlist
              | truncated hrest hopen =>
                  apply ListRead.truncated hrest
                  have hnone : closers read = 0 := List.count_eq_zero.mpr (hwords _ hword)
                  have hcomma : closers (separator :: others) = closers others := by
                    simp [closers, htype]
                  rw [closers_append, hnone, hcomma, hopen]

/-- A list that is read where the remaining tokens close something is closed. -/
theorem ListRead.closed_of_closers {element : Language TokenType} {tokens rest : List Token}
    (hread : ListRead element tokens rest) (hclose : 0 < closers tokens) :
    ∃ read, tokens = read ++ rest ∧ read.map Token.type ∈ listOf element := by
  cases hread with
  | closed read happend hlist => exact ⟨read, happend, hlist⟩
  | truncated _ hopen =>
      rw [hopen] at hclose
      exact absurd hclose (Nat.lt_irrefl 0)

/-! ## The sentences are closed -/

theorem closers_of_list {element : Language TokenType} {list : List Token}
    (hwords : ∀ word ∈ element, TokenType.parenthesesR ∉ word)
    (hlist : list.map Token.type ∈ listOf element) : closers list = 1 :=
  count_of_mem_listed (by decide) hwords hlist

theorem closers_of_createSentence {read : List Token}
    (h : read.map Token.type ∈ createSentence) : closers read = 1 := by
  obtain ⟨_, rfl, columns, hcolumns, heq⟩ := h
  have hlist := count_of_mem_listed (by decide) (fun _ => closer_notMem_columnDefinition) hcolumns
  simp only [closers, ← heq, List.count_append, hlist]
  decide

theorem closers_of_insertSentence {read : List Token}
    (h : read.map Token.type ∈ insertSentence) : closers read = 2 := by
  obtain ⟨_, ⟨_, ⟨_, rfl, columns, hcolumns, rfl⟩, _, rfl, rfl⟩, values, hvalues, heq⟩ := h
  have hcolumnList := count_of_mem_listed (by decide) (fun _ => closer_notMem_identifier) hcolumns
  have hvalueList := count_of_mem_listed (by decide) (fun _ => closer_notMem_valueLiteral) hvalues
  simp only [closers, ← heq, List.count_append, hcolumnList, hvalueList]
  decide

/-! ## Statements -/

theorem fromClause_returns {innerExpr : List Exprs} {tokens rest : List Token} {e : Exprs}
    (h : fromClause innerExpr tokens = .ok e rest) : ∃ tblName, e = .select innerExpr tblName := by
  obtain ⟨taken, middle, _, hreturns⟩ := bind_eq_ok_iff.mp h
  cases taken with
  | some token =>
      obtain ⟨name, last, _, hlast⟩ := bind_eq_ok_iff.mp hreturns
      cases hlast
      exact ⟨_, rfl⟩
  | none =>
      cases hreturns
      exact ⟨_, rfl⟩

theorem createExpr_ok {rounds : Nat} {tokens rest : List Token} {statement : Exprs}
    (h : createExpr rounds tokens = .ok statement rest) :
    (∃ created, statement = .createTbl created) ∧
      ∃ header list, tokens = header ++ list ∧
        header.map Token.type = [.table, .identifier, .parenthesesL] ∧
          ListRead columnDefinition list rest := by
  obtain ⟨table, afterTable, htable, hname⟩ := bind_eq_ok_iff.mp h
  obtain ⟨tblName, afterName, htblName, hopen⟩ := bind_eq_ok_iff.mp hname
  obtain ⟨bracket, list, hbracket, hcolumns⟩ := bind_eq_ok_iff.mp hopen
  obtain ⟨columns, last, hloop, hend⟩ := bind_eq_ok_iff.mp hcolumns
  cases hend
  obtain ⟨rfl, htable⟩ := consume_ok htable
  obtain ⟨rfl, htblName⟩ := consume_ok htblName
  obtain ⟨rfl, hbracket⟩ := consume_ok hbracket
  refine ⟨⟨_, rfl⟩, [table, tblName, bracket], list, rfl, by simp [*], ?_⟩
  exact whileNotDone_reads createColumn_reads (fun _ => closer_notMem_columnDefinition) hloop

theorem createExpr_complete_iff {rounds : Nat} {first : Token} {tokens rest : List Token}
    {statement : Exprs} (hfirst : first.type = .create)
    (h : createExpr rounds tokens = .ok statement rest) :
    (∃ read, first :: tokens = read ++ rest ∧ read.map Token.type ∈ createSentence) ↔
      1 ≤ closers (first :: tokens) := by
  constructor
  · rintro ⟨read, hread, hsentence⟩
    rw [hread, closers_append, closers_of_createSentence hsentence]
    exact Nat.le_add_right _ _
  · intro hclose
    obtain ⟨_, header, list, rfl, hheader, hlist⟩ := createExpr_ok h
    have hnone : closers (first :: header) = 0 := by
      simp [closers, hfirst, hheader]
    rw [← List.cons_append, closers_append, hnone, Nat.zero_add] at hclose
    obtain ⟨read, rfl, hcolumns⟩ := hlist.closed_of_closers hclose
    refine ⟨first :: header ++ read, by simp, ?_⟩
    rw [List.map_append, List.map_cons, hfirst, hheader]
    exact Language.append_mem_mul (Set.mem_singleton _) hcolumns

section Parse

variable [FloatUnit]

theorem selectExpr_returns {depth : Nat} {tokens rest : List Token} {e : Exprs}
    (h : selectExpr depth tokens = .ok e rest) :
    ∃ innerExpr tblName, e = .select innerExpr tblName := by
  cases depth with
  | zero => cases h
  | succ depth =>
      obtain ⟨bracket, afterBracket, _, hlist⟩ := bind_eq_ok_iff.mp h
      cases bracket with
      | some token =>
          obtain ⟨first, afterFirst, _, hrest⟩ := bind_eq_ok_iff.mp hlist
          obtain ⟨others, afterOthers, _, hclose⟩ := bind_eq_ok_iff.mp hrest
          obtain ⟨close, last, _, hfrom⟩ := bind_eq_ok_iff.mp hclose
          exact ⟨_, fromClause_returns hfrom⟩
      | none =>
          obtain ⟨first, afterFirst, _, hfrom⟩ := bind_eq_ok_iff.mp hlist
          exact ⟨_, fromClause_returns hfrom⟩

/-- The column list of an insert statement is closed, since `values` is asked for behind it. -/
theorem insertExpr_ok {rounds : Nat} {tokens rest : List Token} {statement : Exprs}
    (h : insertExpr rounds tokens = .ok statement rest) :
    (∃ inserted, statement = .insert inserted) ∧
      ∃ header columns middle values, tokens = header ++ (columns ++ (middle ++ values)) ∧
        header.map Token.type = [.into, .identifier, .parenthesesL] ∧
        columns.map Token.type ∈ listOf {[.identifier]} ∧
        middle.map Token.type = [.values, .parenthesesL] ∧
        ListRead valueLiteral values rest := by
  obtain ⟨into, afterInto, hinto, hname⟩ := bind_eq_ok_iff.mp h
  obtain ⟨tblName, afterName, htblName, hopen⟩ := bind_eq_ok_iff.mp hname
  obtain ⟨bracket, list, hbracket, hcolumns⟩ := bind_eq_ok_iff.mp hopen
  obtain ⟨columns, afterColumns, hcolumnLoop, hvalues⟩ := bind_eq_ok_iff.mp hcolumns
  obtain ⟨word, afterWord, hword, hopen'⟩ := bind_eq_ok_iff.mp hvalues
  obtain ⟨bracket', list', hbracket', hloop⟩ := bind_eq_ok_iff.mp hopen'
  obtain ⟨values, last, hvalueLoop, hend⟩ := bind_eq_ok_iff.mp hloop
  cases hend
  obtain ⟨rfl, hinto⟩ := consume_ok hinto
  obtain ⟨rfl, htblName⟩ := consume_ok htblName
  obtain ⟨rfl, hbracket⟩ := consume_ok hbracket
  obtain ⟨rfl, hword⟩ := consume_ok hword
  obtain ⟨rfl, hbracket'⟩ := consume_ok hbracket'
  cases whileNotDone_reads insertColumn_reads (fun _ => closer_notMem_identifier) hcolumnLoop with
  | truncated hrest _ => cases hrest
  | closed read happend hlist =>
      subst happend
      refine ⟨⟨_, rfl⟩, [into, tblName, bracket], read, [word, bracket'], list', by simp,
        by simp [*], hlist, by simp [*], ?_⟩
      exact whileNotDone_reads insertValue_reads (fun _ => closer_notMem_valueLiteral) hvalueLoop

/-- The first token decides what statement is read. -/
theorem expr_ok {depth : Nat} {tokens rest : List Token} {statement : Exprs}
    (h : expr depth tokens = .ok statement rest) :
    ∃ first others, tokens = first :: others ∧
      (first.type = .select ∧ selectExpr depth others = .ok statement rest ∨
        first.type = .create ∧ createExpr depth others = .ok statement rest ∨
        first.type = .insert ∧ insertExpr depth others = .ok statement rest) := by
  obtain ⟨select, afterSelect, hselect, hrest⟩ := bind_eq_ok_iff.mp h
  cases select with
  | some token =>
      obtain ⟨rfl, htype⟩ := matchType_some hselect
      exact ⟨token, afterSelect, rfl, .inl ⟨htype, hrest⟩⟩
  | none =>
      obtain rfl := matchType_none hselect
      obtain ⟨create, afterCreate, hcreate, hrest'⟩ := bind_eq_ok_iff.mp hrest
      cases create with
      | some token =>
          obtain ⟨rfl, htype⟩ := matchType_some hcreate
          exact ⟨token, afterCreate, rfl, .inr (.inl ⟨htype, hrest'⟩)⟩
      | none =>
          obtain rfl := matchType_none hcreate
          obtain ⟨insert, afterInsert, hinsert, hlast⟩ := bind_eq_ok_iff.mp hrest'
          cases insert with
          | some token =>
              obtain ⟨rfl, htype⟩ := matchType_some hinsert
              exact ⟨token, afterInsert, rfl, .inr (.inr ⟨htype, hlast⟩)⟩
          | none =>
              obtain ⟨failure, s, herror, _⟩ := invalidToken_fails (α := Exprs) afterInsert
              cases herror.symm.trans hlast

/-! ## Completeness -/

theorem insertExpr_complete_iff {rounds : Nat} {first : Token} {tokens rest : List Token}
    {statement : Exprs} (hfirst : first.type = .insert)
    (h : insertExpr rounds tokens = .ok statement rest) :
    (∃ read, first :: tokens = read ++ rest ∧ read.map Token.type ∈ insertSentence) ↔
      2 ≤ closers (first :: tokens) := by
  constructor
  · rintro ⟨read, hread, hsentence⟩
    rw [hread, closers_append, closers_of_insertSentence hsentence]
    exact Nat.le_add_right _ _
  · intro hclose
    obtain ⟨_, header, columns, middle, values, rfl, hheader, hcolumns, hmiddle, hvalues⟩ :=
      insertExpr_ok h
    have hnone : closers (first :: header) = 0 := by
      simp [closers, hfirst, hheader]
    have hone := closers_of_list (fun _ => closer_notMem_identifier) hcolumns
    have hnone' : closers middle = 0 := by
      simp [closers, hmiddle]
    rw [← List.cons_append, closers_append, hnone, closers_append, hone, closers_append,
      hnone'] at hclose
    obtain ⟨read, rfl, hlist⟩ := hvalues.closed_of_closers (by omega)
    refine ⟨first :: header ++ columns ++ middle ++ read, by simp, ?_⟩
    rw [List.map_append, List.map_append, List.map_append, List.map_cons, hfirst, hheader, hmiddle]
    exact Language.append_mem_mul (Language.append_mem_mul (Language.append_mem_mul
      (Set.mem_singleton _) hcolumns) (Set.mem_singleton _)) hlist

/--
The tokens that an accepted create or insert statement consumes are a complete
sentence exactly when the tokens have a closing parenthesis for each of its lists.
-/
theorem parse_complete_iff {tokens rest : List Token} {statement : Exprs}
    (hruns : parse tokens = .ok statement rest)
    (hkind : (∃ created, statement = .createTbl created) ∨
      ∃ inserted, statement = .insert inserted) :
    (∃ consumed, tokens = consumed ++ rest ∧
        consumed.map Token.type ∈ sentences statement) ↔
      listsOf tokens ≤ closers tokens := by
  obtain ⟨first, others, rfl, hcase⟩ := expr_ok hruns
  rcases hcase with ⟨_, hselect⟩ | ⟨hfirst, hcreate⟩ | ⟨hfirst, hinsert⟩
  · obtain ⟨innerExpr, tblName, rfl⟩ := selectExpr_returns hselect
    rcases hkind with ⟨_, impossible⟩ | ⟨_, impossible⟩ <;> cases impossible
  · obtain ⟨⟨created, rfl⟩, _⟩ := createExpr_ok hcreate
    simp only [listsOf, hfirst]
    exact createExpr_complete_iff hfirst hcreate
  · obtain ⟨⟨inserted, rfl⟩, _⟩ := insertExpr_ok hinsert
    simp only [listsOf, hfirst]
    exact insertExpr_complete_iff hfirst hinsert

end Parse

/-- The tokens of `create table t ( a int )`. -/
def createClosed : List Token :=
  [⟨.create, [], []⟩, ⟨.table, [], []⟩, ⟨.identifier, ['t'], []⟩, ⟨.parenthesesL, [], []⟩,
    ⟨.identifier, ['a'], []⟩, ⟨.identifier, ['i', 'n', 't'], []⟩, ⟨.parenthesesR, [], []⟩]

theorem create_closed_complete :
    ∃ statement, @parse .binary32 createClosed = .ok statement [] ∧
      listsOf createClosed ≤ closers createClosed ∧
      ∃ consumed, createClosed = consumed ++ [] ∧
        consumed.map Token.type ∈ sentences statement := by
  let _ := FloatUnit.binary32
  have hruns : parse createClosed =
      .ok (.createTbl ⟨['t'], [⟨['a'], ['i', 'n', 't'], false⟩]⟩) [] := rfl
  have hclosed : listsOf createClosed ≤ closers createClosed := by decide
  exact ⟨_, hruns, hclosed, (parse_complete_iff hruns (.inl ⟨_, rfl⟩)).mpr hclosed⟩

/-- The tokens of `create table t (`. -/
def createUnclosed : List Token :=
  [⟨.create, [], []⟩, ⟨.table, [], []⟩, ⟨.identifier, ['t'], []⟩, ⟨.parenthesesL, [], []⟩]

/-- A statement whose column list is neither closed nor begun is accepted. -/
theorem create_unclosed_accepted :
    @parse .binary32 createUnclosed = .ok (.createTbl ⟨['t'], []⟩) [] ∧
      ¬ ∃ consumed, createUnclosed = consumed ++ [] ∧
        consumed.map Token.type ∈ sentences (.createTbl ⟨['t'], []⟩) := by
  refine ⟨rfl, ?_⟩
  rintro ⟨consumed, happend, hsentence⟩
  rw [List.append_nil] at happend
  subst happend
  exact absurd (closers_of_createSentence hsentence) (by decide)

end HiveDb.Parser
