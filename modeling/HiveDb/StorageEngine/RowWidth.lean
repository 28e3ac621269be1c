import HiveDb.StorageEngine.StorageEngine

/-!
# What an insert appends

The width of a row comes from the declared types, the bytes written from the
values.  An insert that returns appends one whole row exactly when as many
columns receive a string as are declared varchar.
-/

namespace HiveDb

open HiveDb.Lib

/-! ## The width of a value -/

def Value.width : Value → Nat
  | .real _ => 4
  | .int _ => 4
  | .text _ => 2 + DataTypes.pointerSize

theorem length_cellsOf (width n : Nat) : (cellsOf width n).length = width := by
  rw [cellsOf, List.length_map, length_bytesOf]

theorem length_pointerCells (address : Nat) :
    (pointerCells address).length = DataTypes.pointerSize := by
  rw [pointerCells, List.length_map, List.length_range]

namespace Table

variable {tbl : Table} {heap : Heap}

/-- Inserting a value appends its cells, a string also a block. -/
theorem insertData_appends (tbl : Table) (heap : Heap) (value : Value) :
    ∃ cells, (tbl.insertData heap value).1.data = tbl.data ++ cells ∧
      cells.length = value.width := by
  cases value with
  | real v => exact ⟨_, rfl, length_cellsOf _ _⟩
  | int v => exact ⟨_, rfl, length_cellsOf _ _⟩
  | text v =>
      refine ⟨_, List.append_assoc _ _ _, ?_⟩
      rw [List.length_append, length_cellsOf, length_pointerCells]
      rfl

@[simp] theorem insertData_columns (tbl : Table) (heap : Heap) (value : Value) :
    (tbl.insertData heap value).1.columns = tbl.columns := by
  cases value <;> rfl

@[simp] theorem insertData_rowSize (tbl : Table) (heap : Heap) (value : Value) :
    (tbl.insertData heap value).1.rowSize = tbl.rowSize := by
  cases value <;> rfl

/-- The table and the heap after several values. -/
def insertValues : Table → Heap → List Value → Table × Heap
  | tbl, heap, [] => (tbl, heap)
  | tbl, heap, value :: rest =>
      insertValues (tbl.insertData heap value).1 (tbl.insertData heap value).2 rest

theorem insertValues_appends (values : List Value) (tbl : Table) (heap : Heap) :
    ∃ row, (tbl.insertValues heap values).1.data = tbl.data ++ row ∧
      row.length = (values.map Value.width).sum := by
  induction values generalizing tbl heap with
  | nil => exact ⟨[], (List.append_nil _).symm, rfl⟩
  | cons value rest ih =>
      obtain ⟨cells, hdata, hlength⟩ := insertData_appends tbl heap value
      obtain ⟨row, hrest, hrow⟩ := ih (tbl.insertData heap value).1 (tbl.insertData heap value).2
      refine ⟨cells ++ row, ?_, ?_⟩
      · rw [insertValues, hrest, hdata, List.append_assoc]
      · rw [List.length_append, hlength, hrow, List.map_cons, List.sum_cons]

@[simp] theorem insertValues_columns (values : List Value) (tbl : Table) (heap : Heap) :
    (tbl.insertValues heap values).1.columns = tbl.columns := by
  induction values generalizing tbl heap with
  | nil => rfl
  | cons value rest ih => rw [insertValues, ih, insertData_columns]

@[simp] theorem insertValues_rowSize (values : List Value) (tbl : Table) (heap : Heap) :
    (tbl.insertValues heap values).1.rowSize = tbl.rowSize := by
  induction values generalizing tbl heap with
  | nil => rfl
  | cons value rest ih => rw [insertValues, ih, insertData_rowSize]

end Table

/-! ## The values of a statement -/

namespace InsertExpr

variable {expr : InsertExpr} {name : Text} {columns : List (Text × DataTypes)}

/-- The first position at which the statement names a column is one of its values. -/
def Supplies (expr : InsertExpr) (columns : List (Text × DataTypes)) : Prop :=
  ∀ column ∈ columns, ∀ i, expr.columns.findIdx? (· = column.1) = some i → i < expr.values.length

/-- Whether the value of a column is a string. -/
def givesText (expr : InsertExpr) (name : Text) : Bool :=
  match (expr.columns.findIdx? (· = name)).bind (expr.values[·]?) with
  | some value => value.isText
  | none => false

theorem valueFor_of_bound
    (h : ∀ i, expr.columns.findIdx? (· = name) = some i → i < expr.values.length) :
    ∃ value, expr.valueFor name = .ok value ∧ value.isText = expr.givesText name := by
  unfold valueFor givesText
  cases hfind : expr.columns.findIdx? (· = name) with
  | none => exact ⟨.int 0, rfl, rfl⟩
  | some i =>
      have hvalue := List.getElem?_eq_getElem (h i hfind)
      exact ⟨expr.values.get ⟨i, h i hfind⟩, by simp only [hvalue, List.get_eq_getElem],
        by simp only [Option.bind_some, hvalue, List.get_eq_getElem]⟩

theorem valueFor_of_past {i : Nat} (hfind : expr.columns.findIdx? (· = name) = some i)
    (hpast : expr.values.length ≤ i) : expr.valueFor name = .error .undefined := by
  simp only [valueFor, hfind, List.getElem?_eq_none hpast]

/-- The values that the loop inserts. -/
theorem Supplies.exists_values (h : expr.Supplies columns) : ∃ values : List Value,
    List.Forall₂ (fun column value => expr.valueFor column.1 = .ok value) columns values ∧
      values.map Value.isText = columns.map fun column => expr.givesText column.1 := by
  induction columns with
  | nil => exact ⟨[], .nil, rfl⟩
  | cons column rest ih =>
      obtain ⟨value, hvalue, htext⟩ := valueFor_of_bound (h column List.mem_cons_self)
      obtain ⟨values, hvalues, htexts⟩ := ih fun other hother =>
        h other (List.mem_cons_of_mem _ hother)
      refine ⟨value :: values, .cons hvalue hvalues, ?_⟩
      rw [List.map_cons, List.map_cons, htext, htexts]

end InsertExpr

/-! ## The loop over the columns -/

namespace StorageEngine

variable {engine : StorageEngine} {expr : InsertExpr} {tbl : Table} {values : List Value}
variable {columns : List (Text × DataTypes)}

/-- The engine with a table and the heap replaced. -/
def withTable (engine : StorageEngine) (tblName : Text) (new : Table × Heap) : StorageEngine :=
  { tables := Function.update engine.tables tblName (some new.1), heap := new.2 }

@[simp] theorem withTable_tables_self (engine : StorageEngine) (tblName : Text)
    (new : Table × Heap) : (engine.withTable tblName new).tables tblName = some new.1 :=
  Function.update_self _ _ _

theorem withTable_tables_ne {tblName other : Text} (hne : other ≠ tblName)
    (new : Table × Heap) : (engine.withTable tblName new).tables other = engine.tables other :=
  Function.update_of_ne hne _ _

theorem insertData_of_some (htable : engine.tables expr.tblName = some tbl) (value : Value) :
    engine.insertData expr.tblName value =
      engine.withTable expr.tblName (tbl.insertData engine.heap value) := by
  simp only [insertData, htable, withTable]

/-- With a value for each of the columns the loop inserts all of them. -/
theorem insertColumns_of_ok (htable : engine.tables expr.tblName = some tbl)
    (hvalues : List.Forall₂ (fun column value => expr.valueFor column.1 = .ok value)
      columns values) :
    insertColumns expr columns engine =
      .ok () (engine.withTable expr.tblName (tbl.insertValues engine.heap values)) := by
  induction hvalues generalizing engine tbl with
  | nil =>
      have hsame : engine.withTable expr.tblName (tbl, engine.heap) = engine := by
        rw [withTable, ← htable, Function.update_eq_self]
      exact congrArg (EStateM.Result.ok ()) hsame.symm
  | @cons column value columns values hvalue _ ih =>
      have hinserted := insertData_of_some htable value
      have htable' : (engine.insertData expr.tblName value).tables expr.tblName =
          some (tbl.insertData engine.heap value).1 := by
        rw [hinserted, withTable_tables_self]
      have hrest := ih htable'
      refine (bind_of_ok (liftPure_eq_ok_iff.mpr ⟨hvalue, rfl⟩)).trans (hrest.trans ?_)
      rw [hinserted]
      simp only [withTable, Function.update_idem, Table.insertValues]

/-- Without a value for one of the columns the loop reads past the end. -/
theorem insertColumns_undefined (h : ¬ expr.Supplies columns) (engine : StorageEngine) :
    ∃ engine', insertColumns expr columns engine = .error .undefined engine' := by
  induction columns generalizing engine with
  | nil => exact absurd nofun h
  | cons column rest ih =>
      by_cases hbound : ∀ i, expr.columns.findIdx? (· = column.1) = some i →
          i < expr.values.length
      · obtain ⟨value, hvalue, _⟩ := InsertExpr.valueFor_of_bound hbound
        have hrest : ¬ expr.Supplies rest := by
          intro hsupplies
          refine h fun other hother => ?_
          rcases List.mem_cons.mp hother with rfl | hother
          · exact hbound
          · exact hsupplies other hother
        obtain ⟨engine', hundefined⟩ := ih hrest (engine.insertData expr.tblName value)
        exact ⟨engine',
          (bind_of_ok (liftPure_eq_ok_iff.mpr ⟨hvalue, rfl⟩)).trans hundefined⟩
      · push Not at hbound
        obtain ⟨i, hfind, hpast⟩ := hbound
        refine ⟨engine, bind_of_error ?_⟩
        rw [InsertExpr.valueFor_of_past hfind hpast]
        rfl

end StorageEngine

/-! ## Whole rows -/

/-- The width of the rows of some columns. -/
def rowWidth (columns : List (Text × DataTypes)) : Nat :=
  (columns.map fun column => column.2.findOffset).sum

theorem width_of_isText (value : Value) :
    value.width = 4 + 6 * (if value.isText then 1 else 0) := by
  cases value <;> rfl

theorem sum_widths (values : List Value) :
    (values.map Value.width).sum =
      4 * values.length + 6 * (values.map Value.isText).count true := by
  induction values with
  | nil => rfl
  | cons value rest ih =>
      rw [List.map_cons, List.map_cons, List.sum_cons, ih, width_of_isText, List.count_cons,
        List.length_cons]
      cases value.isText <;> simp <;> omega

theorem findOffset_of_varchar (dt : DataTypes) :
    dt.findOffset = 4 + 6 * (if dt = .varchar then 1 else 0) := by
  cases dt <;> rfl

theorem rowWidth_eq (columns : List (Text × DataTypes)) :
    rowWidth columns =
      4 * columns.length + 6 * columns.countP fun column => column.2 = .varchar := by
  induction columns with
  | nil => rfl
  | cons column rest ih =>
      unfold rowWidth at ih ⊢
      rw [List.map_cons, List.sum_cons, ih, findOffset_of_varchar, List.countP_cons,
        List.length_cons]
      by_cases hvarchar : column.2 = .varchar
      · simp [hvarchar]
        omega
      · simp [hvarchar]
        omega

/-! ## Creating a table -/

theorem Table.addColumns_spec {columns : List TableColumn} {tbl new : Table}
    (h : tbl.addColumns columns = .ok new) (hsize : tbl.rowSize = rowWidth tbl.columns) :
    new.rowSize = rowWidth new.columns ∧ new.data = tbl.data := by
  induction columns generalizing tbl with
  | nil =>
      cases h
      exact ⟨hsize, rfl⟩
  | cons column rest ih =>
      rw [Table.addColumns] at h
      split at h
      · cases h
      · cases hdt : DataTypes.fromString column.type with
        | error failure =>
            rw [hdt] at h
            cases h
        | ok dt =>
            rw [hdt, ok_bind] at h
            have hrest := ih h
            refine hrest ?_
            simp only [rowWidth, List.map_append, List.sum_append, hsize, List.map_cons,
              List.map_nil, List.sum_cons, List.sum_nil, Nat.add_zero]

namespace StorageEngine

variable {engine engine' : StorageEngine} {expr : InsertExpr}

theorem createTable_of_ok {statement : CreateTblExpr} {new : Table}
    (hnew : Table.addColumns {} statement.tblColumns = .ok new) (engine : StorageEngine) :
    createTable statement engine = .ok () (engine.insertTable statement.tblName new) :=
  bind_of_ok (liftPure_eq_ok_iff.mpr ⟨hnew, rfl⟩)

theorem createTable_of_error {statement : CreateTblExpr} {failure : Failure}
    (hfailure : Table.addColumns {} statement.tblColumns = .error failure)
    (engine : StorageEngine) : createTable statement engine = .error failure engine := by
  refine bind_of_error ?_
  rw [hfailure]
  rfl

theorem insertTable_tables {name tblName : Text} {tbl new : Table}
    (h : (engine.insertTable tblName new).tables name = some tbl) :
    engine.tables name = some tbl ∨ engine.tables name = none ∧ new = tbl := by
  cases hold : engine.tables tblName with
  | some old =>
      simp only [insertTable, hold] at h
      exact .inl h
  | none =>
      simp only [insertTable, hold] at h
      by_cases hname : name = tblName
      · subst hname
        rw [Function.update_self] at h
        exact .inr ⟨hold, Option.some.inj h⟩
      · rw [Function.update_of_ne hname] at h
        exact .inl h

/-- A table that is there after a creation was there before, or is new and empty. -/
theorem createTable_tables {statement : CreateTblExpr}
    (hstep : engine.Step (.createTable statement) engine') {name : Text} {tbl : Table}
    (htable : engine'.tables name = some tbl) :
    engine.tables name = some tbl ∨
      engine.tables name = none ∧ Table.addColumns {} statement.tblColumns = .ok tbl := by
  cases hnew : Table.addColumns {} statement.tblColumns with
  | ok new =>
      obtain rfl := Leaves.eq_of_ok hstep (createTable_of_ok hnew engine)
      refine (insertTable_tables htable).imp_right fun ⟨hnone, hsame⟩ => ⟨hnone, ?_⟩
      rw [hsame]
  | error failure =>
      have hrun := createTable_of_error hnew engine
      rcases hstep with ⟨_, hok⟩ | ⟨_, _, herror⟩
      · cases hok.symm.trans hrun
      · cases herror.symm.trans hrun
        exact .inl htable

/-! ## An insert that returns -/

/-- How an insert into a table ends, by the columns and the values of the statement. -/
theorem insertIntoTable_cases (engine : StorageEngine) (expr : InsertExpr) :
    (∃ failure : Failure, failure.isException = true ∧
      insertIntoTable expr engine = .error failure engine ∧
      ∀ tbl, engine.tables expr.tblName = some tbl → missingColumns tbl expr.columns ≠ []) ∨
    ∃ tbl, engine.tables expr.tblName = some tbl ∧ missingColumns tbl expr.columns = [] ∧
      insertIntoTable expr engine = insertColumns expr tbl.columns engine := by
  cases htable : engine.tables expr.tblName with
  | none =>
      refine .inl ⟨noSuchTable expr.tblName, rfl, ?_, nofun⟩
      simp only [insertIntoTable, bind_apply, get_apply, htable]
      rfl
  | some tbl =>
      cases hmissing : missingColumns tbl expr.columns with
      | nil =>
          refine .inr ⟨tbl, rfl, hmissing, ?_⟩
          simp only [insertIntoTable, bind_apply, get_apply, htable, hmissing]
      | cons column rest =>
          refine .inl ⟨noSuchColumn column expr.tblName, rfl, ?_, ?_⟩
          · simp only [insertIntoTable, bind_apply, get_apply, htable, hmissing]
            rfl
          · rintro _ ⟨⟩
            rw [hmissing]
            exact List.cons_ne_nil _ _

/-- What the tables are after an insert: the row has been appended, or nothing has changed. -/
theorem insertIntoTable_effect (hstep : engine.Step (.insertIntoTable expr) engine') :
    engine' = engine ∨ ∃ tbl values, engine.tables expr.tblName = some tbl ∧
      List.Forall₂ (fun column value => expr.valueFor column.1 = .ok value) tbl.columns values ∧
      values.map Value.isText = (tbl.columns.map fun column => expr.givesText column.1) ∧
      engine' = engine.withTable expr.tblName (tbl.insertValues engine.heap values) := by
  rcases insertIntoTable_cases engine expr with ⟨failure, _, hrun, _⟩ | ⟨tbl, htable, _, hrun⟩
  · left
    rcases hstep with ⟨_, hok⟩ | ⟨_, _, herror⟩
    · cases hok.symm.trans hrun
    · cases herror.symm.trans hrun
      rfl
  · right
    by_cases hsupplies : expr.Supplies tbl.columns
    · obtain ⟨values, hvalues, htexts⟩ := hsupplies.exists_values
      refine ⟨tbl, values, htable, hvalues, htexts, ?_⟩
      exact Leaves.eq_of_ok hstep (hrun.trans (insertColumns_of_ok htable hvalues))
    · obtain ⟨_, hundefined⟩ := insertColumns_undefined hsupplies engine
      rw [hundefined] at hrun
      rcases hstep with ⟨_, hok⟩ | ⟨failure, hexception, herror⟩
      · cases hok.symm.trans hrun
      · cases herror.symm.trans hrun
        cases hexception

/-! ## Reachable engines -/

/-- The rows of every table are as wide as its columns. -/
def WidthsAgree (engine : StorageEngine) : Prop :=
  ∀ name tbl, engine.tables name = some tbl → tbl.rowSize = rowWidth tbl.columns

theorem WidthsAgree.step {op : EngineOp} (h : engine.WidthsAgree)
    (hstep : engine.Step op engine') : engine'.WidthsAgree := by
  intro name tbl htable
  cases op with
  | createTable statement =>
      rcases createTable_tables hstep htable with hold | ⟨_, hnew⟩
      · exact h name tbl hold
      · exact (Table.addColumns_spec hnew rfl).1
  | insertIntoTable expr =>
      rcases insertIntoTable_effect hstep with rfl | ⟨old, values, hold, _, _, rfl⟩
      · exact h name tbl htable
      · by_cases hname : name = expr.tblName
        · subst hname
          rw [withTable_tables_self] at htable
          cases htable
          rw [Table.insertValues_rowSize, Table.insertValues_columns]
          exact h _ old hold
        · rw [withTable_tables_ne hname] at htable
          exact h name tbl htable

theorem widthsAgree_of_run {ops : List EngineOp} (hrun : Run Step {} ops engine) :
    engine.WidthsAgree :=
  hrun.invariant (fun _ engine => engine.WidthsAgree) nofun fun _ _ _ _ h hstep => h.step hstep

/-! ## One whole row or nothing -/

/-- An insert throws and changes nothing, or it appends as many bytes as a row has. -/
def AppendsRowOrNothing (engine : StorageEngine) (expr : InsertExpr) : Prop :=
  match insertIntoTable expr engine with
  | .ok _ engine' => ∃ tbl tbl' row, engine.tables expr.tblName = some tbl ∧
      engine'.tables expr.tblName = some tbl' ∧ tbl'.data = tbl.data ++ row ∧
      row.length = tbl.rowSize
  | .error failure engine' => failure.isException = true ∧ engine' = engine

/--
The statement names a table or a column that is not there; or it has a value
for each column that it names first at some position, and gives a string to as
many columns of the table as are declared varchar.
-/
def Fits (engine : StorageEngine) (expr : InsertExpr) : Prop :=
  ∀ tbl, engine.tables expr.tblName = some tbl → missingColumns tbl expr.columns = [] →
    expr.Supplies tbl.columns ∧
      tbl.columns.countP (fun column => expr.givesText column.1) =
        tbl.columns.countP fun column => column.2 = .varchar

/-- The bytes that the values take are a row exactly when the strings are as many. -/
theorem width_eq_iff {columns : List (Text × DataTypes)} {values : List Value}
    (htexts : values.map Value.isText = columns.map fun column => expr.givesText column.1) :
    (values.map Value.width).sum = rowWidth columns ↔
      columns.countP (fun column => expr.givesText column.1) =
        columns.countP fun column => column.2 = .varchar := by
  have hlength : values.length = columns.length := by
    simpa using congrArg List.length htexts
  have hcount : (values.map Value.isText).count true =
      columns.countP fun column => expr.givesText column.1 := by
    rw [htexts, List.count_eq_countP, List.countP_map]
    exact List.countP_congr fun column _ => by simp
  rw [sum_widths, rowWidth_eq, hlength, hcount]
  omega

theorem appendsRowOrNothing_iff (hwidths : engine.WidthsAgree) (expr : InsertExpr) :
    engine.AppendsRowOrNothing expr ↔ engine.Fits expr := by
  unfold AppendsRowOrNothing
  rcases insertIntoTable_cases engine expr with
    ⟨failure, hexception, hrun, hmissing⟩ | ⟨tbl, htable, hpresent, hrun⟩
  · rw [hrun]
    exact iff_of_true ⟨hexception, rfl⟩ fun tbl htable hnone => absurd hnone (hmissing tbl htable)
  · by_cases hsupplies : expr.Supplies tbl.columns
    · obtain ⟨values, hvalues, htexts⟩ := hsupplies.exists_values
      obtain ⟨row, hdata, hrow⟩ := Table.insertValues_appends values tbl engine.heap
      rw [hrun, insertColumns_of_ok htable hvalues]
      constructor
      · rintro ⟨old, new, appended, hold, hnew, happended, hlength⟩
        rw [withTable_tables_self] at hnew
        cases hnew
        cases htable.symm.trans hold
        have hsame := List.append_cancel_left (hdata.symm.trans happended)
        subst hsame
        intro other hother _
        cases htable.symm.trans hother
        refine ⟨hsupplies, (width_eq_iff htexts).mp ?_⟩
        rw [← hrow, hlength, hwidths _ _ htable]
      · intro hfits
        refine ⟨tbl, _, row, htable, withTable_tables_self _ _ _, hdata, ?_⟩
        rw [hrow, hwidths _ _ htable]
        exact (width_eq_iff htexts).mpr (hfits tbl htable hpresent).2
    · obtain ⟨_, hundefined⟩ := insertColumns_undefined hsupplies engine
      rw [hrun, hundefined]
      refine iff_of_false (fun h => nomatch h.1) fun hfits => ?_
      exact hsupplies (hfits tbl htable hpresent).1

/-- A step whose statement, if it is an insert, fits the table. -/
def FittingStep (engine : StorageEngine) (op : EngineOp) (engine' : StorageEngine) : Prop :=
  engine.Step op engine' ∧ ∀ expr, op = .insertIntoTable expr → engine.Fits expr

/-- The data of every table are whole rows. -/
def HoldsWholeRows (engine : StorageEngine) : Prop :=
  ∀ name tbl, engine.tables name = some tbl → tbl.rowSize ∣ tbl.data.length

theorem HoldsWholeRows.step {op : EngineOp} (hwidths : engine.WidthsAgree)
    (h : engine.HoldsWholeRows) (hstep : engine.FittingStep op engine') :
    engine'.HoldsWholeRows := by
  intro name tbl htable
  obtain ⟨hstep, hfits⟩ := hstep
  cases op with
  | createTable statement =>
      rcases createTable_tables hstep htable with hold | ⟨_, hnew⟩
      · exact h name tbl hold
      · rw [(Table.addColumns_spec hnew rfl).2]
        exact Nat.dvd_zero _
  | insertIntoTable expr =>
      have happends := (appendsRowOrNothing_iff hwidths expr).mpr (hfits expr rfl)
      unfold AppendsRowOrNothing at happends
      rcases insertIntoTable_effect hstep with rfl | ⟨old, values, hold, _, _, rfl⟩
      · exact h name tbl htable
      · by_cases hname : name = expr.tblName
        · subst hname
          rcases hstep with ⟨_, hrun⟩ | ⟨_, _, hrun⟩
          · rw [show insertIntoTable expr engine = _ from hrun] at happends
            obtain ⟨old', new, row, hold', hnew, hdata, hrow⟩ := happends
            cases hold.symm.trans hold'
            cases htable.symm.trans hnew
            rw [withTable_tables_self] at hnew
            cases hnew
            rw [Table.insertValues_rowSize, hdata, List.length_append, hrow]
            exact (Nat.dvd_add_left (Nat.dvd_refl _)).mpr (h _ old hold)
          · rw [show insertIntoTable expr engine = _ from hrun] at happends
            rw [happends.2] at htable
            exact h _ tbl htable
        · rw [withTable_tables_ne hname] at htable
          exact h name tbl htable

theorem holdsWholeRows_of_run {ops : List EngineOp} (hrun : Run FittingStep {} ops engine) :
    engine.HoldsWholeRows := by
  have hinvariant : engine.WidthsAgree ∧ engine.HoldsWholeRows :=
    hrun.invariant (fun _ engine => engine.WidthsAgree ∧ engine.HoldsWholeRows) ⟨nofun, nofun⟩
      fun _ _ _ _ h hstep => ⟨h.1.step hstep.1, HoldsWholeRows.step h.1 h.2 hstep⟩
  exact hinvariant.2

/--
In every reachable engine an insert appends one row or nothing exactly when it
fits; while all inserts fit, the data stay whole rows.
-/
theorem inserts_append_rows_iff_fits {ops : List EngineOp} {engine : StorageEngine}
    (hrun : Run Step {} ops engine) :
    (∀ expr, engine.AppendsRowOrNothing expr ↔ engine.Fits expr) ∧
      (Run FittingStep {} ops engine → engine.HoldsWholeRows) :=
  ⟨fun expr => appendsRowOrNothing_iff (widthsAgree_of_run hrun) expr, holdsWholeRows_of_run⟩

/-- `CREATE TABLE t (a integer)` -/
def createT : CreateTblExpr := ⟨['t'], [⟨['a'], "integer".toList, false⟩]⟩

/-- `INSERT INTO t (a) VALUES ('x')` -/
def insertString : InsertExpr := ⟨['t'], [.text ['x']], [['a']]⟩

def emptyT : StorageEngine :=
  insertTable {} ['t'] { columns := [(['a'], .integer)], rowSize := 4 }

theorem createT_run : Run Step {} [.createTable createT] emptyT :=
  .snoc .nil (.inl ⟨(), rfl⟩)

/-- A string for an integer column takes ten bytes instead of four. -/
theorem string_in_integer_column : ¬ ∀ ops engine, Run Step {} ops engine →
    ∀ expr, engine.AppendsRowOrNothing expr := by
  intro h
  obtain ⟨tbl, tbl', row, htable, htable', hdata, hrow⟩ := h _ _ createT_run insertString
  cases htable
  cases htable'
  have hten : 10 = row.length := congrArg List.length hdata
  rw [hrow] at hten
  cases hten

/-! ### A table of two columns -/

def twoColumns : List (Text × DataTypes) := [(['a'], .integer), (['b'], .varchar)]

/-- `CREATE TABLE t (a integer, b varchar)` -/
def createTwoColumns : CreateTblExpr :=
  ⟨['t'], [⟨['a'], "integer".toList, false⟩, ⟨['b'], "varchar".toList, false⟩]⟩

def twoColumnsCreated : StorageEngine :=
  insertTable {} ['t'] { columns := twoColumns, rowSize := 14 }

/-- `INSERT INTO t (b, a) VALUES ('x', 7)` -/
def insertTwoColumns : InsertExpr := ⟨['t'], [.text ['x'], .int 7], [['b'], ['a']]⟩

def twoColumnsInserted : StorageEngine :=
  stateOf (insertIntoTable insertTwoColumns twoColumnsCreated)

theorem createTwoColumns_step : Step {} (.createTable createTwoColumns) twoColumnsCreated :=
  .inl ⟨(), rfl⟩

theorem insertTwoColumns_step :
    Step twoColumnsCreated (.insertIntoTable insertTwoColumns) twoColumnsInserted :=
  .inl ⟨(), rfl⟩

theorem insertTwoColumns_fits : twoColumnsCreated.Fits insertTwoColumns := by
  rintro _ ⟨⟩ _
  refine ⟨?_, rfl⟩
  intro column hcolumn i hfind
  rcases List.mem_cons.mp hcolumn with rfl | hcolumn
  · cases hfind
    decide
  · cases List.mem_singleton.mp hcolumn
    cases hfind
    decide

/-- An integer and a string, given in the other order, take the fourteen bytes of a row. -/
theorem one_in_integer_column : twoColumnsCreated.AppendsRowOrNothing insertTwoColumns ∧
    twoColumnsInserted.HoldsWholeRows := by
  have hcreate : FittingStep {} (.createTable createTwoColumns) twoColumnsCreated :=
    ⟨createTwoColumns_step, fun _ hop => by cases hop⟩
  have hinsert : FittingStep twoColumnsCreated (.insertIntoTable insertTwoColumns)
      twoColumnsInserted :=
    ⟨insertTwoColumns_step, fun _ hop => by cases hop; exact insertTwoColumns_fits⟩
  exact ⟨((inserts_append_rows_iff_fits (Run.nil.snoc createTwoColumns_step)).1 _).mpr
      insertTwoColumns_fits,
    (inserts_append_rows_iff_fits
      ((Run.nil.snoc createTwoColumns_step).snoc insertTwoColumns_step)).2
        ((Run.nil.snoc hcreate).snoc hinsert)⟩

end StorageEngine

end HiveDb
