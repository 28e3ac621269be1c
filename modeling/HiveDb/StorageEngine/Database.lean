import HiveDb.Parser.Denotation
import HiveDb.StorageEngine.Creation
import HiveDb.StorageEngine.Selection

/-!
# The database

What the engine is for, without bytes, offsets and pointers: relations of typed
rows, the node that the lambdas keep, and the results that have been printed.  A
call is a step of the database with its outcome.  The engine takes the same
steps, the rows of a relation being encoded in its table.
-/

namespace HiveDb

open HiveDb.Lib

/-! ## Relations -/

/-- A row has a value of the declared type in each of the columns. -/
structure Row (columns : List (Text × DataTypes)) where
  value : Text → Value
  typed : ∀ column ∈ columns, (value column.1).HasType column.2

structure Relation where
  columns : List (Text × DataTypes)
  rows : List (Row columns) := []

/-- A column of the row, as an expression reads it. -/
def Row.read {columns : List (Text × DataTypes)} (row : Row columns) (name : Text) :
    Except Failure Evaluated :=
  if (columns.map Prod.fst).contains name then .ok (.value (row.value name))
  else .error .undefined

def InsertExpr.row {expr : InsertExpr} {columns : List (Text × DataTypes)}
    (h : expr.GivesRow columns) : Row columns where
  value name := (expr.given name).getD (.int 0)
  typed column hcolumn := by
    obtain ⟨value, hgiven, htype⟩ := h.given column hcolumn
    rw [hgiven]
    exact htype

def Relation.add (relation : Relation) (row : Row relation.columns) : Relation :=
  { relation with rows := relation.rows ++ [row] }

/-! ## Steps of the database -/

structure Database where
  relations : Text → Option Relation := fun _ => none
  captured : Option (TreeId × BinaryOperator) := none
  destroyed : List TreeId := []
  printed : List Evaluated := []

/-- A call of the engine, or the end of a tree that a parser has returned. -/
inductive EngineCall where
  | createTable (expr : CreateTblExpr)
  | insertIntoTable (expr : InsertExpr)
  | queryDataFromTable (order : IterationOrder Text (List FetchedColumn)) (tree : TreeId)
      (innerExpr : List Exprs) (tblName : Text)
  | destroyTree (tree : TreeId)

/-- The call has returned or has thrown an exception. -/
def continues : Except Failure Unit → Bool
  | .ok _ => true
  | .error failure => failure.isException

/-- The type of the first column that has none of the types that there are. -/
def CreateTblExpr.invalidType (statement : CreateTblExpr) : Option Text :=
  (statement.tblColumns.find? fun column => ¬ DataTypes.isTypeValid column.type).map
    TableColumn.type

namespace Database

def withRelation (db : Database) (name : Text) (relation : Relation) : Database :=
  { db with relations := Function.update db.relations name (some relation) }

/-- The operator that the binary nodes of the expression apply, if they can apply any. -/
def applied (db : Database) (e : Exprs) : Option BinaryOperator :=
  match db.captured with
  | some (owner, c) => if owner ∈ db.destroyed then none else some c
  | none => e.operators.head?

/-- The expression is evaluated in one row after another, up to one in which it fails. -/
def selectRows [FloatUnit] (db : Database) (tree : TreeId) (expr : Exprs) :
    List (Text → Except Failure Evaluated) → Except Failure Unit × Database
  | [] => (.ok (), db)
  | row :: rest =>
      let first := expr.firstSolved (db.applied expr) row
      let kept := { db with captured := db.captured.or (first.map (tree, ·)) }
      match expr.denote (db.applied expr) row with
      | .ok value => selectRows { kept with printed := db.printed ++ [value] } tree expr rest
      | .error failure => (.error failure, kept)

/-- The rows that a select with these references is evaluated in. -/
inductive RangesOver (db : Database) (tblName : Text) :
    List Text → List (Text → Except Failure Evaluated) → Prop where
  | once (hknown : tblName = [] ∨ (db.relations tblName).isSome) :
      RangesOver db tblName [] [Overload.withoutColumns.row]
  | relation {refs : List Text} {relation : Relation}
      (hrelation : db.relations tblName = some relation) (hrows : relation.rows ≠ [])
      (hrefs : refs ≠ []) (hnodup : refs.Nodup)
      (hcolumns : ∀ name ∈ refs, name ∈ relation.columns.map Prod.fst) :
      RangesOver db tblName refs (relation.rows.map Row.read)

/-- A call that its caller may make, with an outcome after which the process goes on. -/
inductive Step [FloatUnit] (db : Database) :
    EngineCall × Except Failure Unit → Database → Prop where
  | created {statement : CreateTblExpr} {columns : List (Text × DataTypes)}
      (hfree : db.relations statement.tblName = none) (hdeclares : statement.Declares columns) :
      Step db (.createTable statement, .ok ()) (db.withRelation statement.tblName ⟨columns, []⟩)
  | taken {statement : CreateTblExpr} (htaken : (db.relations statement.tblName).isSome)
      (hvalid : statement.TypesValid) : Step db (.createTable statement, .ok ()) db
  | invalidType {statement : CreateTblExpr} {type : Text}
      (hinvalid : statement.invalidType = some type) :
      Step db (.createTable statement, .error (.invalidArgument
        ("Invalid type detected! Wtf is: " ++ String.ofList type))) db
  | inserted {expr : InsertExpr} {relation : Relation}
      (hrelation : db.relations expr.tblName = some relation)
      (hgives : expr.GivesRow relation.columns) :
      Step db (.insertIntoTable expr, .ok ())
        (db.withRelation expr.tblName (relation.add (InsertExpr.row hgives)))
  | insertNowhere {expr : InsertExpr} (hnone : db.relations expr.tblName = none) :
      Step db (.insertIntoTable expr, .error (noSuchTable expr.tblName)) db
  | insertMissing {expr : InsertExpr} {relation : Relation} {column : Text}
      (hrelation : db.relations expr.tblName = some relation)
      (hmissing : expr.columns.find? (· ∉ relation.columns.map Prod.fst) = some column) :
      Step db (.insertIntoTable expr, .error (noSuchColumn column expr.tblName)) db
  | selected {order : IterationOrder Text (List FetchedColumn)} {tree : TreeId}
      {innerExpr : List Exprs} {tblName : Text} {refs : List Text}
      {rows : List (Text → Except Failure Evaluated)} {outcome : Except Failure Unit}
      {db' : Database}
      (hrefs : retriveColumnsToBeFetched innerExpr = .ok refs) (halive : tree ∉ db.destroyed)
      (hrows : db.RangesOver tblName refs rows)
      (hselect : db.selectRows tree (.select innerExpr tblName) rows = (outcome, db'))
      (hcontinues : continues outcome = true) :
      Step db (.queryDataFromTable order tree innerExpr tblName, outcome) db'
  | selectInvalid {order : IterationOrder Text (List FetchedColumn)} {tree : TreeId}
      {innerExpr : List Exprs} {tblName : Text} {failure : Failure}
      (hinvalid : retriveColumnsToBeFetched innerExpr = .error failure)
      (hcontinues : failure.isException = true) :
      Step db (.queryDataFromTable order tree innerExpr tblName, .error failure) db
  | selectNowhere {order : IterationOrder Text (List FetchedColumn)} {tree : TreeId}
      {innerExpr : List Exprs} {tblName : Text} {refs : List Text}
      (hrefs : retriveColumnsToBeFetched innerExpr = .ok refs)
      (hneeded : refs ≠ [] ∨ tblName ≠ []) (hnone : db.relations tblName = none) :
      Step db (.queryDataFromTable order tree innerExpr tblName, .error (noSuchTable tblName)) db
  | selectMissing {order : IterationOrder Text (List FetchedColumn)} {tree : TreeId}
      {innerExpr : List Exprs} {tblName : Text} {refs : List Text} {relation : Relation}
      {column : Text} (hrefs : retriveColumnsToBeFetched innerExpr = .ok refs)
      (hrelation : db.relations tblName = some relation)
      (hmissing : refs.find? (· ∉ relation.columns.map Prod.fst) = some column) :
      Step db (.queryDataFromTable order tree innerExpr tblName,
        .error (noSuchColumn column tblName)) db
  | destroyed (tree : TreeId) :
      Step db (.destroyTree tree, .ok ()) { db with destroyed := tree :: db.destroyed }

end Database

/-! ## Steps of the engine -/

/-- The engine and the process that evaluates its selects. -/
structure Shell where
  engine : StorageEngine := {}
  process : Process := {}

def EngineCall.run [FloatUnit] : EngineCall → Prog Shell Unit
  | .createTable expr =>
      onPart Shell.engine (fun engine shell => { shell with engine := engine })
        (StorageEngine.createTable expr)
  | .insertIntoTable expr =>
      onPart Shell.engine (fun engine shell => { shell with engine := engine })
        (StorageEngine.insertIntoTable expr)
  | .queryDataFromTable order tree innerExpr tblName => do
      let engine := (← get).engine
      onPart Shell.process (fun process shell => { shell with process := process })
        (engine.queryDataFromTable order tree innerExpr tblName)
  | .destroyTree tree =>
      modify fun shell => { shell with
        process := { shell.process with destroyed := tree :: shell.process.destroyed } }

/-- A call that ends with the outcome. -/
def Shell.Step [FloatUnit] (shell : Shell) (event : EngineCall × Except Failure Unit)
    (shell' : Shell) : Prop :=
  continues event.2 = true ∧ Delivers event.1.run shell event.2 (· = shell') (· = shell')

/-! ## What the engine stores -/

section Stored

variable {columns : List (Text × DataTypes)} {name : Text} {engine engine' : StorageEngine}
variable {relation : Relation} {relations : Text → Option Relation}

theorem isSome_findColumn_iff (name : Text) (offset : Nat) (columns : List (Text × DataTypes)) :
    (findColumn name offset columns).isSome ↔ name ∈ columns.map Prod.fst := by
  induction columns generalizing offset with
  | nil => simp [findColumn]
  | cons column rest ih =>
      rw [findColumn, List.map_cons, List.mem_cons]
      split
      · next hname => simp [hname]
      · next hname => simp [ih, Ne.symm hname]

/-- The statement has the values of the row. -/
def InsertExpr.Gives (expr : InsertExpr) (row : Row columns) : Prop :=
  ∀ column ∈ columns, expr.valueFor column.1 = .ok (row.value column.1)

theorem InsertExpr.gives_row {expr : InsertExpr} (h : expr.GivesRow columns) :
    expr.Gives (InsertExpr.row h) := by
  intro column hcolumn
  obtain ⟨value, hgiven, _⟩ := h.given column hcolumn
  rw [InsertExpr.valueFor_of_given hgiven]
  simp only [InsertExpr.row, hgiven, Option.getD_some]

namespace StorageEngine

/-- The rows of the relation have been inserted into its table. -/
def HasInserted (engine : StorageEngine) (name : Text) (relation : Relation) : Prop :=
  ∃ inserts : List InsertExpr, engine.StoresRows name relation.columns inserts ∧
    List.Forall₂ InsertExpr.Gives inserts relation.rows

/-- Each column of each row of the relation is read from the table of the name. -/
def Encodes (engine : StorageEngine) (name : Text) (relation : Relation) : Prop :=
  ∃ tbl, engine.tables name = some tbl ∧ tbl.columns = relation.columns ∧
    HoldsRows tbl relation.rows.length ∧
    ∀ i row, relation.rows[i]? = some row → ∀ name,
      foundValue tbl.data engine.heap ((findColumn name 0 tbl.columns).map (cellOf tbl i)) =
        row.read name

theorem HasInserted.encodes (h : engine.HasInserted name relation) :
    engine.Encodes name relation := by
  obtain ⟨inserts, ⟨tbl, htable, hstores⟩, hgives⟩ := h
  have hlength := hgives.length_eq
  refine ⟨tbl, htable, hstores.sameColumns, ⟨?_, ?_⟩, fun i row hrow name => ?_⟩
  · rw [hstores.rowSize, hstores.sameColumns]
  · rw [hstores.length, hlength]
  have hbound : i < inserts.length := by
    rw [hlength]
    exact (List.getElem?_eq_some_iff.mp hrow).1
  have hinsert : inserts[i]? = some (inserts.get ⟨i, hbound⟩) := List.getElem?_eq_getElem hbound
  obtain ⟨_, hvalue⟩ := List.getElem?_eq_some_iff.mp hrow
  rw [hstores.sameColumns, Row.read]
  cases hfind : findColumn name 0 relation.columns with
  | none =>
      have hmissing : name ∉ relation.columns.map Prod.fst := by
        rw [← isSome_findColumn_iff name 0, hfind]
        exact Bool.false_ne_true
      rw [if_neg (mt List.contains_iff_mem.mp hmissing)]
      rfl
  | some clm =>
      have hmem : name ∈ relation.columns.map Prod.fst := by
        rw [← isSome_findColumn_iff name 0, hfind]
        rfl
      obtain ⟨column, hcolumn, rfl⟩ := List.mem_map.mp hmem
      obtain ⟨value, hgiven, hdecodes⟩ := hstores.decodes i _ hinsert _ clm hfind
      have hsame := hgives.get hbound (hlength ▸ hbound) column hcolumn
      rw [List.get_eq_getElem, List.get_eq_getElem, hvalue] at hsame
      have heq : value = row.value column.1 := Except.ok.inj (hgiven.symm.trans hsame)
      rw [if_pos (List.contains_iff_mem.mpr hmem), Option.map_some, foundValue, cellOf, hdecodes,
        heq]
      rfl

/-- The tables of the engine are those of the relations. -/
structure Represents (engine : StorageEngine) (relations : Text → Option Relation) : Prop where
  absent : ∀ name, relations name = none → engine.tables name = none
  stored : ∀ name relation, relations name = some relation → engine.HasInserted name relation

namespace Represents

variable {statement : CreateTblExpr} {expr : InsertExpr}

theorem isSome (h : engine.Represents relations) (hknown : (relations name).isSome) :
    (engine.tables name).isSome := by
  obtain ⟨relation, hrelation⟩ := Option.isSome_iff_exists.mp hknown
  obtain ⟨_, ⟨tbl, htable, _⟩, _⟩ := h.stored name relation hrelation
  rw [htable]
  rfl

theorem create (h : engine.Represents relations) (hfree : relations statement.tblName = none)
    (hdeclares : statement.Declares columns) :
    ∃ engine', createTable statement engine = .ok () engine' ∧
      engine'.Represents (Function.update relations statement.tblName (some ⟨columns, []⟩)) := by
  obtain ⟨new, hnew, _⟩ := Table.addColumns_of_declared {} hdeclares
  have hreturns := createTable_of_ok hnew engine
  have hstep : engine.Step (.createTable statement) (engine.insertTable statement.tblName new) :=
    .inl ⟨(), hreturns⟩
  have hnone := h.absent _ hfree
  refine ⟨_, hreturns, fun name habsent => ?_, fun name relation hrelation => ?_⟩
  · have hname : name ≠ statement.tblName := by
      rintro rfl
      rw [Function.update_self] at habsent
      cases habsent
    rw [Function.update_of_ne hname] at habsent
    simp only [insertTable, hnone]
    exact (Function.update_of_ne hname _ _).trans (h.absent name habsent)
  · by_cases hname : name = statement.tblName
    · subst hname
      rw [Function.update_self] at hrelation
      cases hrelation
      exact ⟨[], storesRows_of_created hnone hdeclares hstep, .nil⟩
    · rw [Function.update_of_ne hname] at hrelation
      obtain ⟨inserts, hstores, hgives⟩ := h.stored name relation hrelation
      exact ⟨inserts, hstores.createTable hstep, hgives⟩

/-- A name that is taken keeps its table, and the call returns. -/
theorem createTaken (h : engine.Represents relations)
    (htaken : (relations statement.tblName).isSome) (hvalid : statement.TypesValid) :
    createTable statement engine = .ok () engine := by
  obtain ⟨columns, hdeclares⟩ := hvalid.exists_columns
  obtain ⟨new, hnew, _⟩ := Table.addColumns_of_declared {} hdeclares
  obtain ⟨old, hold⟩ := Option.isSome_iff_exists.mp (h.isSome htaken)
  rw [createTable_of_ok hnew engine, insertTable, hold]

theorem insert (h : engine.Represents relations) {relation : Relation}
    (hrelation : relations expr.tblName = some relation)
    (hgives : expr.GivesRow relation.columns) :
    ∃ engine', insertIntoTable expr engine = .ok () engine' ∧
      engine'.Represents (Function.update relations expr.tblName
        (some (relation.add (InsertExpr.row hgives)))) := by
  obtain ⟨inserts, hstores, hrows⟩ := h.stored _ relation hrelation
  obtain ⟨engine', hreturns, hstores'⟩ := hstores.insert_returns hgives
  have hstep : engine.Step (.insertIntoTable expr) engine' := .inl ⟨(), hreturns⟩
  refine ⟨engine', hreturns, fun name habsent => ?_, fun name other hother => ?_⟩
  · have hname : name ≠ expr.tblName := by
      rintro rfl
      rw [Function.update_self] at habsent
      cases habsent
    rw [Function.update_of_ne hname] at habsent
    rcases insertIntoTable_effect hstep with rfl | ⟨tbl, values, _, _, _, rfl⟩
    · exact h.absent name habsent
    · exact (withTable_tables_ne hname _).trans (h.absent name habsent)
  · by_cases hname : name = expr.tblName
    · subst hname
      rw [Function.update_self] at hother
      cases hother
      exact ⟨_, hstores', List.rel_append hrows (.cons (InsertExpr.gives_row hgives) .nil)⟩
    · rw [Function.update_of_ne hname] at hother
      obtain ⟨inserts, hstored, hgiven⟩ := h.stored name other hother
      exact ⟨inserts, hstored.insertOther hname hstep, hgiven⟩

theorem insertNowhere (h : engine.Represents relations) (hnone : relations expr.tblName = none) :
    insertIntoTable expr engine = .error (noSuchTable expr.tblName) engine := by
  simp only [insertIntoTable, bind_apply, get_apply, h.absent _ hnone]
  rfl

theorem insertMissing (h : engine.Represents relations) {relation : Relation} {column : Text}
    (hrelation : relations expr.tblName = some relation)
    (hmissing : expr.columns.find? (· ∉ relation.columns.map Prod.fst) = some column) :
    insertIntoTable expr engine = .error (noSuchColumn column expr.tblName) engine := by
  obtain ⟨_, ⟨tbl, htable, hstores⟩, _⟩ := h.stored _ relation hrelation
  rw [← List.head?_filter, ← hstores.sameColumns] at hmissing
  obtain ⟨rest, hrest⟩ := List.head?_eq_some_iff.mp hmissing
  have hcolumns : missingColumns tbl expr.columns = column :: rest := hrest
  simp only [insertIntoTable, bind_apply, get_apply, htable, hcolumns]
  rfl

end Represents

end StorageEngine

end Stored

/-! ## Create statements that are refused -/

theorem Table.addColumns_of_invalidType {columns : List TableColumn} {column : TableColumn}
    (h : columns.find? (fun column => ¬ DataTypes.isTypeValid column.type) = some column)
    (tbl : Table) : tbl.addColumns columns = .error (.invalidArgument
      ("Invalid type detected! Wtf is: " ++ String.ofList column.type)) := by
  induction columns generalizing tbl with
  | nil => cases h
  | cons first rest ih =>
      rw [Table.addColumns]
      by_cases hfirst : DataTypes.isTypeValid first.type = true
      · rw [List.find?_cons_of_neg (by simpa using hfirst)] at h
        obtain ⟨dt, hdt⟩ := DataTypes.eq_toText_of_valid hfirst
        rw [if_neg (not_not_intro hfirst), ← hdt, DataTypes.fromString_toText, ok_bind]
        exact ih h _
      · rw [List.find?_cons_of_pos (by simpa using hfirst)] at h
        cases h
        exact if_pos hfirst

theorem StorageEngine.createInvalid {statement : CreateTblExpr} {type : Text}
    (h : statement.invalidType = some type) (engine : StorageEngine) :
    createTable statement engine = .error (.invalidArgument
      ("Invalid type detected! Wtf is: " ++ String.ofList type)) engine := by
  obtain ⟨column, hcolumn, rfl⟩ := Option.map_eq_some_iff.mp h
  exact createTable_of_error (Table.addColumns_of_invalidType hcolumn {}) engine

/-! ## Selects -/

/-- The node of the lambdas, the trees that are gone and the results are those of the database. -/
structure Process.Represents (p : Process) (db : Database) : Prop where
  captured_eq : p.captured = db.captured
  destroyed_eq : p.destroyed = db.destroyed
  printed_eq : p.printed = db.printed

section Selects

variable {p : Process} {db : Database} {tree : TreeId} {expr : Exprs} {engine : StorageEngine}
variable {tblName : Text} {innerExpr : List Exprs} {refs : List Text}
variable {order : IterationOrder Text (List FetchedColumn)}

theorem Process.Represents.applied (h : p.Represents db) (e : Exprs) :
    p.applied e = db.applied e := by
  unfold Process.applied Database.applied
  cases hcaptured : db.captured with
  | none => simp only [h.captured_eq, hcaptured]
  | some owned => simp only [h.captured_eq, h.destroyed_eq, hcaptured]

/-- The columns that a query looks for are found up to the first that is missing. -/
theorem Table.columnsToFetch_of_missing {tbl : Table} {column : Text}
    (hmissing : refs.find? (· ∉ tbl.columns.map Prod.fst) = some column) :
    tbl.columnsToFetch tblName refs = .error (noSuchColumn column tblName) := by
  induction refs with
  | nil => cases hmissing
  | cons name rest ih =>
      rw [Table.columnsToFetch]
      by_cases hname : name ∈ tbl.columns.map Prod.fst
      · rw [List.find?_cons_of_neg (by simpa using hname)] at hmissing
        obtain ⟨clm, hclm⟩ := Option.isSome_iff_exists.mp
          ((isSome_findColumn_iff name 0 tbl.columns).mpr hname)
        simp only [hclm, ih hmissing, error_bind]
      · rw [List.find?_cons_of_pos (by simpa using hname)] at hmissing
        cases hmissing
        rw [← isSome_findColumn_iff _ 0, Option.not_isSome_iff_eq_none] at hname
        rw [hname]

variable [FloatUnit]

/-- The loop over the rows, the induction being on the rows that are left. -/
theorem delivers_evaluateRows {column : Nat → Text → Prog Process Evaluated} {indices : List Nat}
    {rows : List (Text → Except Failure Evaluated)}
    (hrows : List.Forall₂ (fun i row => ReadsRow (column i) row) indices rows)
    (hp : p.Represents db) (halive : tree ∉ db.destroyed) :
    Delivers (StorageEngine.evaluateRows (fun i => expr.executeWith (column i) tree) indices) p
      (db.selectRows tree expr rows).1
      (fun p' => p'.Represents (db.selectRows tree expr rows).2)
      (fun p' => p'.Represents (db.selectRows tree expr rows).2) := by
  induction hrows generalizing p db with
  | nil => exact .ret hp
  | @cons i row indices rows hread _ ih =>
      have hready : p.Ready tree (db.applied expr) (expr.operators ++ []) := by
        rw [List.append_nil, ← hp.applied]
        exact Process.ready_applied (hp.destroyed_eq ▸ halive)
      have hsolves := executes hread tree (db.applied expr) expr p [] hready
      rw [StorageEngine.evaluateRows, Database.selectRows]
      dsimp only
      cases hdenote : expr.denote (db.applied expr) row with
      | error failure =>
          rw [hdenote] at hsolves
          obtain ⟨p', hfails, hafter⟩ := hsolves
          refine ⟨p', bind_of_error hfails, ?_, ?_, ?_⟩
          · rw [hafter.captured_eq, hp.captured_eq]
          · rw [hafter.destroyed_eq, hp.destroyed_eq]
          · rw [hafter.printed_eq, hp.printed_eq]
      | ok value =>
          rw [hdenote] at hsolves
          obtain ⟨p', hreturns, _, hafter⟩ := hsolves
          refine .of_eq (bind_of_ok hreturns) (.of_eq (bind_of_ok (modify_apply _ _)) ?_)
          refine ih ⟨?_, ?_, ?_⟩ halive
          · exact hafter.captured_eq.trans (by rw [hp.captured_eq])
          · exact hafter.destroyed_eq.trans hp.destroyed_eq
          · exact congrArg (· ++ [value]) (hafter.printed_eq.trans hp.printed_eq)

/-- The rows of a relation are read where they are encoded. -/
theorem StorageEngine.Encodes.query {relation : Relation}
    (h : engine.Encodes tblName relation) (hrefs : retriveColumnsToBeFetched innerExpr = .ok refs)
    (hrows : relation.rows ≠ []) (hne : refs ≠ []) (hnodup : refs.Nodup)
    (hcolumns : ∀ name ∈ refs, name ∈ relation.columns.map Prod.fst) (hp : p.Represents db)
    (halive : tree ∉ db.destroyed) :
    Delivers (engine.queryDataFromTable order tree innerExpr tblName) p
      (db.selectRows tree (.select innerExpr tblName) (relation.rows.map Row.read)).1
      (fun p' => p'.Represents
        (db.selectRows tree (.select innerExpr tblName) (relation.rows.map Row.read)).2)
      (fun p' => p'.Represents
        (db.selectRows tree (.select innerExpr tblName) (relation.rows.map Row.read)).2) := by
  obtain ⟨tbl, htable, hsame, hholds, hreads⟩ := h
  have hfound : ∀ name ∈ refs, (findColumn name 0 tbl.columns).isSome := by
    intro name hname
    rw [isSome_findColumn_iff, hsame]
    exact hcolumns name hname
  obtain ⟨clms, hfinds⟩ := exists_finds hfound
  have hpos : 0 < relation.rows.length := List.length_pos_iff.mpr hrows
  have hresults := oneResultPerRow_of_nodup htable hholds hrefs hne hfinds hpos hnodup
  rw [hresults.evaluations]
  refine delivers_evaluateRows (List.forall₂_iff_get.mpr ⟨?_, fun i hi hi' => ?_⟩) hp halive
  · rw [List.length_range, List.length_map]
  · have hbound : i < relation.rows.length := by rwa [List.length_range] at hi
    have hrow : relation.rows[i]? = some (relation.rows.get ⟨i, hbound⟩) :=
      List.getElem?_eq_getElem hbound
    intro name tree p
    have hread := hreads i _ hrow name
    simp only [List.get_eq_getElem, List.getElem_range, List.getElem_map] at hread ⊢
    rw [← hread]
    exact delivers_readColumn tbl.data engine.heap name i _ tree p

/-- A select without column references is evaluated once, without columns. -/
theorem StorageEngine.query_once (hrefs : retriveColumnsToBeFetched innerExpr = .ok [])
    (hknown : tblName = [] ∨ (engine.tables tblName).isSome) (hp : p.Represents db)
    (halive : tree ∉ db.destroyed) :
    Delivers (engine.queryDataFromTable order tree innerExpr tblName) p
      (db.selectRows tree (.select innerExpr tblName) [Overload.withoutColumns.row]).1
      (fun p' => p'.Represents
        (db.selectRows tree (.select innerExpr tblName) [Overload.withoutColumns.row]).2)
      (fun p' => p'.Represents
        (db.selectRows tree (.select innerExpr tblName) [Overload.withoutColumns.row]).2) := by
  have htable : ¬ (tblName ≠ [] ∧ (engine.tables tblName).isNone = true) := by
    rintro ⟨hname, hnone⟩
    rcases hknown with hempty | hsome
    · exact hname hempty
    · rw [Option.isNone_iff_eq_none.mp hnone] at hsome
      cases hsome
  have honce : engine.queryDataFromTable order tree innerExpr tblName p =
      StorageEngine.evaluateRows (fun _ => (Exprs.select innerExpr tblName).executeWith
        Overload.withoutColumns.column tree) [0] p := by
    unfold queryDataFromTable
    rw [bind_of_ok (liftPure_eq_ok_iff.mpr ⟨hrefs, rfl⟩), if_pos rfl, if_neg htable]
    rfl
  refine .of_eq honce (delivers_evaluateRows (.cons ?_ .nil) hp halive)
  exact Overload.withoutColumns.readsRow

theorem StorageEngine.query_invalid {failure : Failure}
    (hinvalid : retriveColumnsToBeFetched innerExpr = .error failure) (engine : StorageEngine)
    (order : IterationOrder Text (List FetchedColumn)) (tree : TreeId) (tblName : Text)
    (p : Process) :
    engine.queryDataFromTable order tree innerExpr tblName p = .error failure p := by
  unfold queryDataFromTable
  refine bind_of_error ?_
  rw [hinvalid]
  rfl

theorem StorageEngine.query_nowhere (hrefs : retriveColumnsToBeFetched innerExpr = .ok refs)
    (hneeded : refs ≠ [] ∨ tblName ≠ []) (hnone : engine.tables tblName = none)
    (order : IterationOrder Text (List FetchedColumn)) (tree : TreeId) (p : Process) :
    engine.queryDataFromTable order tree innerExpr tblName p =
      .error (noSuchTable tblName) p := by
  unfold queryDataFromTable
  rw [bind_of_ok (liftPure_eq_ok_iff.mpr ⟨hrefs, rfl⟩)]
  by_cases hempty : refs = []
  · have hname : tblName ≠ [] := hneeded.resolve_left (not_not_intro hempty)
    rw [if_pos hempty, if_pos ⟨hname, by rw [hnone]; rfl⟩]
    rfl
  · rw [if_neg hempty]
    refine bind_of_error ?_
    simp only [prepareRows, hnone]
    rfl

theorem StorageEngine.query_missing {tbl : Table} {column : Text}
    (hrefs : retriveColumnsToBeFetched innerExpr = .ok refs)
    (htable : engine.tables tblName = some tbl)
    (hmissing : refs.find? (· ∉ tbl.columns.map Prod.fst) = some column)
    (order : IterationOrder Text (List FetchedColumn)) (tree : TreeId) (p : Process) :
    engine.queryDataFromTable order tree innerExpr tblName p =
      .error (noSuchColumn column tblName) p := by
  have hne : refs ≠ [] := by
    rintro rfl
    cases hmissing
  unfold queryDataFromTable
  rw [bind_of_ok (liftPure_eq_ok_iff.mpr ⟨hrefs, rfl⟩), if_neg hne]
  refine bind_of_error ?_
  simp only [prepareRows, htable, Table.columnsToFetch_of_missing hmissing, error_bind]
  rfl

end Selects

/-! ## Runs -/

section Runs

variable {shell shell' : Shell} {db db' : Database} {event : EngineCall × Except Failure Unit}

/-- The parts of the shell stand for those of the database. -/
structure Shell.Represents (shell : Shell) (db : Database) : Prop where
  engine : shell.engine.Represents db.relations
  process : shell.process.Represents db

theorem Shell.Represents.onEngine {x : Prog StorageEngine Unit} {outcome : Except Failure Unit}
    {relations : Text → Option Relation} (h : shell.Represents db)
    (hx : Delivers x shell.engine outcome (·.Represents relations) (·.Represents relations)) :
    Delivers (onPart Shell.engine (fun engine shell => { shell with engine := engine }) x) shell
      outcome (·.Represents { db with relations := relations })
      (·.Represents { db with relations := relations }) := by
  have hprocess : shell.process.Represents { db with relations := relations } :=
    ⟨h.process.1, h.process.2, h.process.3⟩
  exact .onPart (hx.conseq (fun _ hengine => ⟨hengine, hprocess⟩)
    fun _ hengine => ⟨hengine, hprocess⟩)

variable [FloatUnit]

theorem Shell.Represents.onProcess {order : IterationOrder Text (List FetchedColumn)}
    {tree : TreeId} {innerExpr : List Exprs} {tblName : Text} {outcome : Except Failure Unit}
    (h : shell.Represents db) (hrelations : db'.relations = db.relations)
    (hx : Delivers (shell.engine.queryDataFromTable order tree innerExpr tblName) shell.process
      outcome (·.Represents db') (·.Represents db')) :
    Delivers (EngineCall.queryDataFromTable order tree innerExpr tblName).run shell outcome
      (·.Represents db') (·.Represents db') := by
  have hengine : shell.engine.Represents db'.relations := hrelations ▸ h.engine
  refine .of_eq (bind_of_ok (get_apply shell)) (.onPart ?_)
  exact hx.conseq (fun _ hprocess => ⟨hengine, hprocess⟩) fun _ hprocess => ⟨hengine, hprocess⟩

theorem Database.selectRows_relations (db : Database) (tree : TreeId) (expr : Exprs)
    (rows : List (Text → Except Failure Evaluated)) :
    (db.selectRows tree expr rows).2.relations = db.relations := by
  induction rows generalizing db with
  | nil => rfl
  | cons row rest ih =>
      rw [selectRows]
      dsimp only
      cases expr.denote (db.applied expr) row with
      | ok value => exact ih _
      | error failure => rfl

/-- The rows are evaluated as the database evaluates them. -/
theorem Shell.Represents.select {tree : TreeId} {innerExpr : List Exprs} {tblName : Text}
    {refs : List Text} {rows : List (Text → Except Failure Evaluated)} (h : shell.Represents db)
    (hrefs : retriveColumnsToBeFetched innerExpr = .ok refs) (halive : tree ∉ db.destroyed)
    (hrows : db.RangesOver tblName refs rows)
    (order : IterationOrder Text (List FetchedColumn)) :
    Delivers (EngineCall.queryDataFromTable order tree innerExpr tblName).run shell
      (db.selectRows tree (.select innerExpr tblName) rows).1
      (·.Represents (db.selectRows tree (.select innerExpr tblName) rows).2)
      (·.Represents (db.selectRows tree (.select innerExpr tblName) rows).2) := by
  refine h.onProcess (db.selectRows_relations _ _ _) ?_
  cases hrows with
  | once hknown =>
      exact StorageEngine.query_once hrefs (hknown.imp_right h.engine.isSome) h.process halive
  | relation hrelation hrows hne hnodup hcolumns =>
      exact (h.engine.stored _ _ hrelation).encodes.query hrefs hrows hne hnodup hcolumns
        h.process halive

/-- One case for each step of the database. -/
theorem Shell.Represents.step (h : shell.Represents db) (hstep : db.Step event db') :
    continues event.2 = true ∧
      Delivers event.1.run shell event.2 (·.Represents db') (·.Represents db') := by
  cases hstep with
  | created hfree hdeclares =>
      exact ⟨rfl, h.onEngine (h.engine.create hfree hdeclares)⟩
  | taken htaken hvalid =>
      exact ⟨rfl, h.onEngine ⟨_, h.engine.createTaken htaken hvalid, h.engine⟩⟩
  | invalidType hinvalid =>
      exact ⟨rfl, h.onEngine ⟨_, StorageEngine.createInvalid hinvalid _, h.engine⟩⟩
  | inserted hrelation hgives =>
      exact ⟨rfl, h.onEngine (h.engine.insert hrelation hgives)⟩
  | insertNowhere hnone =>
      exact ⟨rfl, h.onEngine ⟨_, h.engine.insertNowhere hnone, h.engine⟩⟩
  | insertMissing hrelation hmissing =>
      exact ⟨rfl, h.onEngine ⟨_, h.engine.insertMissing hrelation hmissing, h.engine⟩⟩
  | @selected order _ _ _ _ _ _ _ hrefs halive hrows hselect hcontinues =>
      have hdelivers := h.select hrefs halive hrows order
      rw [hselect] at hdelivers
      exact ⟨hcontinues, hdelivers⟩
  | selectInvalid hinvalid hcontinues =>
      exact ⟨hcontinues, h.onProcess rfl
        ⟨_, StorageEngine.query_invalid hinvalid _ _ _ _ _, h.process⟩⟩
  | selectNowhere hrefs hneeded hnone =>
      exact ⟨rfl, h.onProcess rfl
        ⟨_, StorageEngine.query_nowhere hrefs hneeded (h.engine.absent _ hnone) _ _ _, h.process⟩⟩
  | selectMissing hrefs hrelation hmissing =>
      obtain ⟨tbl, htable, hsame, _⟩ := (h.engine.stored _ _ hrelation).encodes
      rw [← hsame] at hmissing
      exact ⟨rfl, h.onProcess rfl
        ⟨_, StorageEngine.query_missing hrefs htable hmissing _ _ _, h.process⟩⟩
  | destroyed tree =>
      refine ⟨rfl, _, rfl, h.engine, h.process.captured_eq, ?_, h.process.printed_eq⟩
      exact congrArg (tree :: ·) h.process.destroyed_eq

theorem Shell.Represents.run {events : List (EngineCall × Except Failure Unit)}
    (h : shell.Represents db) (hrun : Run Database.Step db events db') :
    ∃ shell', Run Shell.Step shell events shell' ∧ shell'.Represents db' := by
  induction hrun with
  | nil => exact ⟨shell, .nil, h⟩
  | snoc _ hlast ih =>
      obtain ⟨middle, hbefore, hmiddle⟩ := ih
      obtain ⟨hcontinues, hdelivers⟩ := hmiddle.step hlast
      obtain ⟨shell', hrepresents, hends⟩ := hdelivers.exists_after
      exact ⟨shell', hbefore.snoc ⟨hcontinues, hends⟩, hrepresents⟩

/--
Every run of the database is a run of the engine with the same outcomes of all
calls.  It prints the same results, and reads the rows of each relation from the
table of its name.
-/
theorem engine_runs_database {events : List (EngineCall × Except Failure Unit)}
    (hrun : Run Database.Step {} events db) :
    ∃ shell, Run Shell.Step {} events shell ∧ shell.process.printed = db.printed ∧
      (∀ name, db.relations name = none → shell.engine.tables name = none) ∧
      ∀ name relation, db.relations name = some relation →
        shell.engine.Encodes name relation := by
  have hempty : Shell.Represents {} {} := by
    refine ⟨⟨fun _ _ => rfl, fun _ _ impossible => ?_⟩, rfl, rfl, rfl⟩
    cases impossible
  obtain ⟨shell, hruns, hrepresents⟩ := hempty.run hrun
  exact ⟨shell, hruns, hrepresents.process.printed_eq, hrepresents.engine.absent,
    fun name relation hrelation => (hrepresents.engine.stored name relation hrelation).encodes⟩

end Runs

/-! ### A table of two rows -/

section TwoInserts

def insertInt (n : Int) : InsertExpr := ⟨['t'], [.int n], [['a']]⟩

theorem insertInt_gives {n : Int} (h : FitsInt n) : (insertInt n).GivesRow [(['a'], .integer)] := by
  refine ⟨fun name hname => hname, fun column hcolumn => ?_⟩
  cases List.mem_singleton.mp hcolumn
  exact ⟨.int n, rfl, h⟩

def twoInserts : List (EngineCall × Except Failure Unit) :=
  [(.createTable ⟨['t'], [⟨['a'], "integer".toList, false⟩]⟩, .ok ()),
    (.insertIntoTable (insertInt 1), .ok ()), (.insertIntoTable (insertInt 2), .ok ()),
    (.queryDataFromTable .newestFirst 0
      [.binary (.literalString ['a'] true) .star (.literalInt 10)] ['t'], .ok ())]

/-- `SELECT a * 10 FROM t` prints a result for each row. -/
theorem twoInserts_printed : ∃ shell, Run (@Shell.Step .binary32) {} twoInserts shell ∧
    shell.process.printed = [.value (.int 10), .value (.int 20)] := by
  let unit := FloatUnit.binary32
  let columns : List (Text × DataTypes) := [(['a'], .integer)]
  have hgivesOne : (insertInt 1).GivesRow columns := insertInt_gives (by decide)
  have hgivesTwo : (insertInt 2).GivesRow columns := insertInt_gives (by decide)
  let one := InsertExpr.row hgivesOne
  let two := InsertExpr.row hgivesTwo
  let created := Database.withRelation {} ['t'] ⟨columns, []⟩
  let first := created.withRelation ['t'] (Relation.add ⟨columns, []⟩ one)
  let second := first.withRelation ['t'] (Relation.add ⟨columns, [one]⟩ two)
  have hempty : created.relations ['t'] = some ⟨columns, []⟩ := rfl
  have hone : first.relations ['t'] = some ⟨columns, [one]⟩ := rfl
  have htwo : second.relations ['t'] = some ⟨columns, [one, two]⟩ := rfl
  have hcreated : Database.Step {} (twoInserts.get ⟨0, by decide⟩) created := .created rfl rfl
  have hfirst : created.Step (.insertIntoTable (insertInt 1), .ok ()) first :=
    .inserted hempty hgivesOne
  have hsecond : first.Step (.insertIntoTable (insertInt 2), .ok ()) second :=
    .inserted hone hgivesTwo
  have hrows : second.RangesOver ['t'] [['a']] ([one, two].map Row.read) :=
    .relation htwo (List.cons_ne_nil _ _) (List.cons_ne_nil _ _) (List.nodup_singleton _)
      fun name hname => hname
  have hselected : second.Step (twoInserts.get ⟨3, by decide⟩)
      { second with captured := some (0, .star)
                    printed := [.value (.int 10), .value (.int 20)] } :=
    .selected rfl List.not_mem_nil hrows rfl rfl
  obtain ⟨shell, hruns, hprinted, _⟩ := engine_runs_database
    (.cons hcreated (.cons hfirst (.cons hsecond (.cons hselected .nil))))
  exact ⟨shell, hruns, hprinted⟩

end TwoInserts

end HiveDb
