import Mathlib.Logic.Function.Basic
import HiveDb.Lib.Run
import HiveDb.Parser.Execution

/-!
# The storage engine

Tables of rows without gaps, in a vector of bytes of each table.  The character
arrays of all tables are blocks of one heap.  A query does not change the
engine: it is a program of the process that evaluates the select.
-/

namespace HiveDb

open HiveDb.Lib

structure Table where
  columns : List (Text × DataTypes) := []
  data : List Cell := []
  strings : List Nat := []
  rowSize : Nat := 0

structure StorageEngine where
  tables : Text → Option Table := fun _ => none
  heap : Heap := []

/-- What the engine throws for a name that no table has. -/
def noSuchTable (tblName : Text) : Failure :=
  .invalidArgument ("Table: " ++ String.ofList tblName ++ " doesn't exist!")

def noSuchColumn (column tblName : Text) : Failure :=
  .invalidArgument ("Couldn't find the column " ++ String.ofList column ++ "in table named" ++
    String.ofList tblName)

/-! ## Creating a table -/

/-- The loop of `createTable` over the columns of the statement. -/
def Table.addColumns (tbl : Table) : List TableColumn → Except Failure Table
  | [] => .ok tbl
  | column :: rest =>
      if ¬ DataTypes.isTypeValid column.type then
        .error (.invalidArgument
          ("Invalid type detected! Wtf is: " ++ String.ofList column.type))
      else do
        let dt ← DataTypes.fromString column.type
        Table.addColumns { tbl with
          columns := tbl.columns ++ [(column.name, dt)]
          rowSize := tbl.rowSize + dt.findOffset } rest

namespace StorageEngine

/-- `tables.insert`, which leaves a name alone that is there already. -/
def insertTable (engine : StorageEngine) (tblName : Text) (tbl : Table) : StorageEngine :=
  match engine.tables tblName with
  | some _ => engine
  | none => { engine with tables := Function.update engine.tables tblName (some tbl) }

def createTable (expr : CreateTblExpr) : Prog StorageEngine Unit := do
  let newTable ← liftPure (Table.addColumns {} expr.tblColumns)
  modify fun engine => engine.insertTable expr.tblName newTable

end StorageEngine

/-! ## Inserting a row -/

/-- `table::insertData`, with the heap that a string is copied to. -/
def Table.insertData (tbl : Table) (heap : Heap) : Value → Table × Heap
  | .real v => ({ tbl with data := Real.serialize v tbl.data }, heap)
  | .int v => ({ tbl with data := Integer.serialize v tbl.data }, heap)
  | .text v =>
      let (data, strings, heap) := Varchar.serialize v tbl.data tbl.strings heap
      ({ tbl with data := data, strings := strings }, heap)

/-- What is inserted for a column: its first value in the statement, or the default 0. -/
def InsertExpr.valueFor (expr : InsertExpr) (name : Text) : Except Failure Value :=
  match expr.columns.findIdx? (· = name) with
  | some i =>
      match expr.values[i]? with
      | some value => .ok value
      | none => .error .undefined
  | none => .ok (.int 0)

namespace StorageEngine

/-- `tbl.insertData` on the table that has been looked up. -/
def insertData (engine : StorageEngine) (tblName : Text) (value : Value) : StorageEngine :=
  match engine.tables tblName with
  | some tbl =>
      let (tbl, heap) := tbl.insertData engine.heap value
      { tables := Function.update engine.tables tblName (some tbl), heap := heap }
  | none => engine

/-- The loop over the columns of the table. -/
def insertColumns (expr : InsertExpr) : List (Text × DataTypes) → Prog StorageEngine Unit
  | [] => return
  | (name, _) :: rest => do
      let value ← liftPure (expr.valueFor name)
      modify fun engine => engine.insertData expr.tblName value
      insertColumns expr rest

/-- The columns of the statement that the table does not have. -/
def missingColumns (tbl : Table) (columns : List Text) : List Text :=
  columns.filter fun column => column ∉ tbl.columns.map Prod.fst

def insertIntoTable (expr : InsertExpr) : Prog StorageEngine Unit := do
  match (← get).tables expr.tblName with
  | none => throw (noSuchTable expr.tblName)
  | some tbl =>
      match missingColumns tbl expr.columns with
      | column :: _ => throw (noSuchColumn column expr.tblName)
      | [] => insertColumns expr tbl.columns

end StorageEngine

/-! ## Selecting rows -/

structure ColumnToFetch where
  name : Text
  offset : Nat
  dt : DataTypes
  deriving DecidableEq, Repr

/-- The search for a column among the columns from an offset on. -/
def findColumn (column : Text) (offset : Nat) : List (Text × DataTypes) → Option ColumnToFetch
  | [] => none
  | (name, dt) :: rest =>
      if name = column then some ⟨name, offset, dt⟩
      else findColumn column (offset + dt.findOffset) rest

namespace Table

/-- The loop of `queryDataFromTable` over the columns that it fetches. -/
def columnsToFetch (tbl : Table) (tblName : Text) : List Text → Except Failure (List ColumnToFetch)
  | [] => .ok []
  | column :: rest =>
      match findColumn column 0 tbl.columns with
      | some clm => do
          let others ← tbl.columnsToFetch tblName rest
          return clm :: others
      | none => .error (noSuchColumn column tblName)

/-- One round of the inner loop of `fetch`. -/
def fetchColumn (idx : Nat) (fetchedData : FetchedDataMap) (clm : ColumnToFetch) :
    FetchedDataMap :=
  let fetched : FetchedColumn := ⟨idx + clm.offset, clm.dt⟩
  match fetchedData.find? clm.name with
  | none => fetchedData.emplace clm.name [fetched]
  | some _ => fetchedData.update clm.name (· ++ [fetched])

/-- The outer loop of `fetch`. -/
def fetchRows (tbl : Table) (clms : List ColumnToFetch) :
    Nat → Nat → FetchedDataMap → Except Failure FetchedDataMap
  | 0, _, _ => .error .outOfFuel
  | rounds + 1, idx, fetchedData =>
      if idx < tbl.data.length then
        if ∀ clm ∈ clms, idx + clm.offset < tbl.data.length then
          fetchRows tbl clms rounds (idx + tbl.rowSize) (clms.foldl (fetchColumn idx) fetchedData)
        else .error .undefined
      else .ok fetchedData

def fetch (tbl : Table) (order : IterationOrder Text (List FetchedColumn))
    (clms : List ColumnToFetch) : Except Failure FetchedDataMap :=
  tbl.fetchRows clms (tbl.data.length + 1) 0 (.empty order)

end Table

/-- `fetchedData.begin()->second.size()` -/
def beginSize (fetchedData : FetchedDataMap) : Except Failure Nat :=
  match fetchedData.pairs with
  | (_, fetched) :: _ => .ok fetched.length
  | [] => .error .undefined

namespace StorageEngine

/-- What `queryDataFromTable` finds before it evaluates: the fetched columns and `maxIndex`. -/
def prepareRows (engine : StorageEngine) (order : IterationOrder Text (List FetchedColumn))
    (tblName : Text) (columns : List Text) : Except Failure (Table × FetchedDataMap × Nat) :=
  match engine.tables tblName with
  | none => .error (noSuchTable tblName)
  | some tbl => do
      let dataToFetch ← tbl.columnsToFetch tblName columns
      let fetchedData ← tbl.fetch order dataToFetch
      let maxIndex ← beginSize fetchedData
      return (tbl, fetchedData, maxIndex)

def print (value : Evaluated) : Prog Process Unit :=
  modify fun process => { process with printed := process.printed ++ [value] }

/-- The loop of `queryDataFromTable` over the indices of the rows. -/
def evaluateRows (evaluate : Nat → Prog Process Evaluated) : List Nat → Prog Process Unit
  | [] => return
  | i :: rest => do
      let value ← evaluate i
      print value
      evaluateRows evaluate rest

def queryDataFromTable [FloatUnit] (engine : StorageEngine)
    (order : IterationOrder Text (List FetchedColumn)) (tree : TreeId) (innerExpr : List Exprs)
    (tblName : Text) : Prog Process Unit := do
  let expr := Exprs.select innerExpr tblName
  let columns ← liftPure (retriveColumnsToBeFetched innerExpr)
  if columns = [] then
    if tblName ≠ [] ∧ (engine.tables tblName).isNone then throw (noSuchTable tblName)
    else do
      let value ← expr.execute tree
      print value
  else do
    let (tbl, fetchedData, maxIndex) ← liftPure (engine.prepareRows order tblName columns)
    evaluateRows (fun i => expr.executeInRow tbl.data engine.heap fetchedData i tree)
      (List.range maxIndex)

end StorageEngine

/-! ## Runs -/

inductive EngineOp where
  | createTable (expr : CreateTblExpr)
  | insertIntoTable (expr : InsertExpr)

def EngineOp.run : EngineOp → Prog StorageEngine Unit
  | .createTable expr => StorageEngine.createTable expr
  | .insertIntoTable expr => StorageEngine.insertIntoTable expr

/-- A call that has returned or thrown. -/
def StorageEngine.Step (engine : StorageEngine) (op : EngineOp) (engine' : StorageEngine) : Prop :=
  Leaves op.run engine engine'

end HiveDb
