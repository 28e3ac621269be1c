import HiveDb.StorageEngine.Decoding

/-!
# What a create statement does

`createTable` builds the new table before it touches the engine, so a statement
with an invalid type changes nothing.  The table is then inserted into a map,
which keeps what it has under a name that is taken, and the call returns as if
the table had been created.
-/

namespace HiveDb

open HiveDb.Lib

/-- All columns of the statement have a type that there is. -/
def CreateTblExpr.TypesValid (statement : CreateTblExpr) : Prop :=
  ∀ column ∈ statement.tblColumns, DataTypes.isTypeValid column.type

theorem DataTypes.eq_toText_of_valid {type : Text} (h : isTypeValid type) :
    ∃ dt : DataTypes, dt.toText = type := by
  simp only [isTypeValid, Bool.or_eq_true, beq_iff_eq] at h
  rcases h with (rfl | rfl) | rfl
  · exact ⟨.integer, rfl⟩
  · exact ⟨.varchar, rfl⟩
  · exact ⟨.real, rfl⟩

theorem CreateTblExpr.TypesValid.exists_columns {statement : CreateTblExpr}
    (h : statement.TypesValid) : ∃ columns, statement.Declares columns := by
  obtain ⟨tblName, tblColumns⟩ := statement
  unfold TypesValid Declares at *
  induction tblColumns with
  | nil => exact ⟨[], rfl⟩
  | cons first rest ih =>
      obtain ⟨hfirst, hrest⟩ := List.forall_mem_cons.mp h
      obtain ⟨dt, hdt⟩ := DataTypes.eq_toText_of_valid hfirst
      obtain ⟨columns, hcolumns⟩ := ih hrest
      refine ⟨(first.name, dt) :: columns, ?_⟩
      rw [List.map_cons, List.map_cons, hcolumns, hdt]

/-- A column with another type makes the loop throw. -/
theorem Table.addColumns_of_invalid {columns : List TableColumn}
    (h : ¬ ∀ column ∈ columns, DataTypes.isTypeValid column.type) (tbl : Table) :
    ∃ failure : Failure, failure.isException = true ∧ tbl.addColumns columns = .error failure := by
  induction columns generalizing tbl with
  | nil => exact absurd (List.forall_mem_nil _) h
  | cons first rest ih =>
      rw [Table.addColumns]
      by_cases hfirst : DataTypes.isTypeValid first.type = true
      · obtain ⟨dt, hdt⟩ := DataTypes.eq_toText_of_valid hfirst
        rw [if_neg (not_not_intro hfirst), ← hdt, DataTypes.fromString_toText, ok_bind]
        refine ih (fun hrest => h ?_) _
        exact List.forall_mem_cons.mpr ⟨hfirst, hrest⟩
      · rw [if_pos hfirst]
        exact ⟨_, rfl, rfl⟩

namespace StorageEngine

variable {engine : StorageEngine} {statement : CreateTblExpr}

/-- The table of the statement's name has its columns, and the other tables are as they were. -/
structure Created (engine : StorageEngine) (statement : CreateTblExpr) (engine' : StorageEngine) :
    Prop where
  table : ∃ tbl, engine'.tables statement.tblName = some tbl ∧ statement.Declares tbl.columns ∧
    tbl.rowSize = (tbl.columns.map fun column => column.2.findOffset).sum
  others : ∀ name, name ≠ statement.tblName → engine'.tables name = engine.tables name

/-- The statement takes effect if the call returns; if it throws, nothing has changed. -/
def CreatesOrFails (engine : StorageEngine) (statement : CreateTblExpr) : Prop :=
  match createTable statement engine with
  | .ok _ engine' => engine.Created statement engine'
  | .error failure engine' => failure.isException = true ∧ engine' = engine

/-- A table of the statement's name, if there is one, is as the statement declares it. -/
def TakenAsDeclared (engine : StorageEngine) (statement : CreateTblExpr) : Prop :=
  ∀ tbl, engine.tables statement.tblName = some tbl → statement.Declares tbl.columns

/-- A free name is given to the table that the statement declares. -/
theorem created_of_free {columns : List (Text × DataTypes)} {new : Table}
    (hfree : engine.tables statement.tblName = none) (hdeclares : statement.Declares columns)
    (hnew : Table.addColumns {} statement.tblColumns = .ok new) (hcolumns : new.columns = columns) :
    engine.Created statement (engine.insertTable statement.tblName new) := by
  simp only [insertTable, hfree]
  refine ⟨⟨new, Function.update_self _ _ _, hcolumns ▸ hdeclares, ?_⟩, fun name hname => ?_⟩
  · exact (Table.addColumns_spec hnew rfl).1
  · exact Function.update_of_ne hname _ _

/-- A name that is taken is left with its table. -/
theorem created_iff_of_taken {old new : Table} (hwidths : engine.WidthsAgree)
    (htaken : engine.tables statement.tblName = some old) :
    engine.Created statement (engine.insertTable statement.tblName new) ↔
      statement.Declares old.columns := by
  simp only [insertTable, htaken]
  constructor
  · rintro ⟨⟨tbl, htable, hdeclares, _⟩, _⟩
    cases htaken.symm.trans htable
    exact hdeclares
  · intro hdeclares
    exact ⟨⟨old, htaken, hdeclares, hwidths _ old htaken⟩, fun _ _ => rfl⟩

theorem createsOrFails_iff (hwidths : engine.WidthsAgree) (statement : CreateTblExpr) :
    engine.CreatesOrFails statement ↔
      (statement.TypesValid → engine.TakenAsDeclared statement) := by
  unfold CreatesOrFails
  by_cases hvalid : statement.TypesValid
  · obtain ⟨columns, hdeclares⟩ := hvalid.exists_columns
    obtain ⟨new, hnew, hcolumns⟩ := Table.addColumns_of_declared {} hdeclares
    rw [createTable_of_ok hnew engine]
    cases htaken : engine.tables statement.tblName with
    | none =>
        refine iff_of_true (created_of_free htaken hdeclares hnew hcolumns) fun _ tbl htable => ?_
        cases htaken.symm.trans htable
    | some old =>
        dsimp only
        rw [created_iff_of_taken hwidths htaken]
        constructor
        · intro hdeclared _ tbl htable
          cases htaken.symm.trans htable
          exact hdeclared
        · exact fun h => h hvalid old htaken
  · obtain ⟨failure, hexception, hfailure⟩ := Table.addColumns_of_invalid hvalid {}
    rw [createTable_of_error hfailure engine]
    exact iff_of_true ⟨hexception, rfl⟩ fun h => absurd h hvalid

/--
In every engine that a run of statements has left, a create statement takes
effect or fails exactly when one of its types is invalid, or its name is free or
belongs to a table that is just as the statement declares it.
-/
theorem create_takes_effect_iff {ops : List EngineOp} (hrun : Run Step {} ops engine)
    (statement : CreateTblExpr) :
    engine.CreatesOrFails statement ↔
      (statement.TypesValid → engine.TakenAsDeclared statement) :=
  createsOrFails_iff (widthsAgree_of_run hrun) statement

/-- `CREATE TABLE u (a integer)` beside the table `t`. -/
theorem create_beside_t : emptyT.CreatesOrFails ⟨['u'], [⟨['a'], "integer".toList, false⟩]⟩ :=
  (create_takes_effect_iff createT_run _).mpr fun _ tbl htable => by
    have hfree : emptyT.tables ['u'] = none := rfl
    cases hfree.symm.trans htable

/-- `CREATE TABLE t (b varchar)` is acknowledged, and `t` keeps its integer column. -/
theorem create_over_t : ¬ ∀ ops engine, Run Step {} ops engine →
    ∀ statement, CreatesOrFails engine statement := by
  intro h
  have hcreated : emptyT.Created ⟨['t'], [⟨['b'], "varchar".toList, false⟩]⟩ emptyT :=
    h _ _ createT_run ⟨['t'], [⟨['b'], "varchar".toList, false⟩]⟩
  obtain ⟨tbl, htable, hdeclares, _⟩ := hcreated.table
  have hold : emptyT.tables ['t'] = some { columns := [(['a'], .integer)], rowSize := 4 } := rfl
  cases hold.symm.trans htable
  have hne : [((['b'] : Text), "varchar".toList)] ≠ [(['a'], "integer".toList)] := by decide
  exact hne hdeclares

end StorageEngine

end HiveDb
