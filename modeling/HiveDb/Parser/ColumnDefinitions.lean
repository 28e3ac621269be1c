import HiveDb.Parser.RoundTrip

/-!
# Column definitions

The names and the types of the columns of a create statement are read back in
their order.  `not null` behind a column sets its `canBeNull`, which should be
set for the other columns.
-/

namespace HiveDb.Parser

/-- A column as a create statement spells it. -/
structure ColumnDefinition where
  name : Text
  type : Text
  notNull : Bool
  deriving DecidableEq

namespace ColumnDefinition

def render (definition : ColumnDefinition) : List Token :=
  [⟨.identifier, definition.name, []⟩, ⟨.identifier, definition.type, []⟩] ++
    if definition.notNull then [.keyword .not, .keyword .null] else []

/-- The column that the parser returns for it. -/
def parsed (definition : ColumnDefinition) : TableColumn :=
  ⟨definition.name, definition.type, definition.notNull⟩

end ColumnDefinition

/-- `create table name ( ... )` -/
def renderCreate (tblName : Text) (definitions : List ColumnDefinition) : List Token :=
  [.keyword .create, .keyword .table, ⟨.identifier, tblName, []⟩, .symbol .parenthesesL] ++
    renderListed ColumnDefinition.render definitions

/-- The statement has the name and the columns; those without `not null` are nullable. -/
structure Declared (tblName : Text) (definitions : List ColumnDefinition)
    (statement : CreateTblExpr) : Prop where
  name : statement.tblName = tblName
  columns : statement.tblColumns.map (fun column => (column.name, column.type)) =
    definitions.map fun definition => (definition.name, definition.type)
  nullable : List.Forall₂ (fun column definition =>
    column.canBeNull = false ↔ definition.notNull = true) statement.tblColumns definitions

theorem renderListed_map {α β : Type} (render : β → List Token) (f : α → β) (list : List α) :
    renderListed render (list.map f) = renderListed (fun a => render (f a)) list := by
  have hrest (rest : List α) :
      renderRest render (rest.map f) = renderRest (fun a => render (f a)) rest := by
    induction rest with
    | nil => rfl
    | cons a rest ih => rw [List.map_cons, renderRest, renderRest, ih]
  cases list with
  | nil => rfl
  | cons a rest => rw [List.map_cons, renderListed, renderListed, hrest]

/-- The tokens of the definitions are those of the columns with `canBeNull` for `not null`. -/
theorem renderCreate_eq (tblName : Text) (definitions : List ColumnDefinition) :
    renderCreate tblName definitions =
      CreateTblExpr.render ⟨tblName, definitions.map ColumnDefinition.parsed⟩ := by
  rw [renderCreate, CreateTblExpr.render, renderListed_map]
  rfl

section Reading

variable [FloatUnit] {tblName : Text} {definitions : List ColumnDefinition}
variable {tokens : List Token}

/--
The names and the types of the columns are read back in their order, and
`canBeNull` is set for the columns that are declared not to be null.
-/
theorem parse_renderCreate (follow : List Token) (hne : definitions ≠ [])
    (htokens : Spelling tokens (renderCreate tblName definitions)) :
    parse (tokens ++ follow) =
      .ok (.createTbl ⟨tblName, definitions.map ColumnDefinition.parsed⟩) follow := by
  rw [renderCreate_eq] at htokens
  obtain ⟨depth, hdepth⟩ := expr_reads_create follow (by simpa using hne) htokens
  exact parse_of_expr hdepth

/-- A statement is read back, with every column nullable that should not be, and the other way. -/
theorem create_never_declared (follow : List Token) (hne : definitions ≠ [])
    (htokens : Spelling tokens (renderCreate tblName definitions)) :
    ∃ statement, parse (tokens ++ follow) = .ok (.createTbl statement) follow ∧
      statement.tblName = tblName ∧
      statement.tblColumns.map (fun column => (column.name, column.type)) =
        definitions.map (fun definition => (definition.name, definition.type)) ∧
      ¬ Declared tblName definitions statement := by
  refine ⟨_, parse_renderCreate follow hne htokens, rfl, by simp [ColumnDefinition.parsed], ?_⟩
  intro hdeclared
  obtain ⟨definition, rest, rfl⟩ := List.exists_cons_of_ne_nil hne
  cases hdeclared.nullable with
  | cons hfirst _ =>
      have hflag : definition.parsed.canBeNull = definition.notNull := rfl
      rw [hflag] at hfirst
      cases hnull : definition.notNull <;> simp [hnull] at hfirst

end Reading

/-- `a integer not null` -/
def integerNotNull : ColumnDefinition := ⟨['a'], "integer".toList, true⟩

/-- `b varchar` -/
def varcharNullable : ColumnDefinition := ⟨['b'], "varchar".toList, false⟩

/--
`create table t ( a integer not null , b varchar )` makes a first column that
can be null and a second one that cannot.
-/
theorem integer_not_null_can_be_null :
    ∃ statement,
      @parse .binary32 (renderCreate ['t'] [integerNotNull, varcharNullable] ++ []) =
        .ok (.createTbl statement) [] ∧
      statement.tblName = ['t'] ∧
      statement.tblColumns.map (fun column => (column.name, column.type)) =
        [integerNotNull, varcharNullable].map
          (fun definition => (definition.name, definition.type)) ∧
      ¬ Declared ['t'] [integerNotNull, varcharNullable] statement :=
  @create_never_declared .binary32 _ _ _ _ (List.cons_ne_nil _ _)
    (@spelling_self .binary32 _ (by decide))

theorem not_null_not_declared :
    ¬ ∀ (_ : FloatUnit) (tblName : Text) (definitions : List ColumnDefinition)
      (tokens : List Token), definitions ≠ [] →
        Spelling tokens (renderCreate tblName definitions) →
        ∃ statement, parse tokens = .ok (.createTbl statement) [] ∧
          Declared tblName definitions statement := by
  intro h
  obtain ⟨statement, hparse, hdeclared⟩ := h .binary32 ['t'] [integerNotNull] _
    (List.cons_ne_nil _ _) (@spelling_self .binary32 _ (by decide))
  have hread : @parse .binary32 (renderCreate ['t'] [integerNotNull]) =
      .ok (.createTbl ⟨['t'], [integerNotNull.parsed]⟩) [] := rfl
  cases hread.symm.trans hparse
  cases hdeclared.nullable with
  | cons hfirst _ => cases hfirst.mpr rfl

end HiveDb.Parser
