import HiveDb.StorageEngine.RowWidth

/-!
# Rows are read back as they were inserted

The data of a table and the heap only grow at their ends, so what has been
decoded once is decoded again later.  It remains that a value is decoded at the
position at which it has been inserted, and that the positions are the offsets
that a query computes.
-/

namespace HiveDb

open HiveDb.Lib

/-! ## Reading from data that have grown -/

section Growth

variable {data data' : List Cell} {heap heap' : Heap} {ptr width : Nat}

theorem cellsAt_mono {cells : List Cell} (hdata : data <+: data')
    (h : cellsAt data ptr width = .ok cells) : cellsAt data' ptr width = .ok cells := by
  obtain ⟨more, rfl⟩ := hdata
  unfold cellsAt at h ⊢
  split at h
  · next hbound =>
    cases h
    have hptr : ptr ≤ data.length := by omega
    have hrest : width ≤ (data.drop ptr).length := by
      rw [List.length_drop]
      omega
    rw [if_pos (by rw [List.length_append]; omega), List.drop_append_of_le_length hptr,
      List.take_append_of_le_length hrest]
  · cases h

theorem numberAt_mono {n : Nat} (hdata : data <+: data') (h : numberAt data ptr width = .ok n) :
    numberAt data' ptr width = .ok n :=
  except_bind_mono (fun _ => cellsAt_mono hdata) (fun _ => id) h

theorem pointerAt_mono {address : Nat} (hdata : data <+: data')
    (h : pointerAt data ptr = .ok address) : pointerAt data' ptr = .ok address :=
  except_bind_mono (fun _ => cellsAt_mono hdata) (fun _ => id) h

theorem getElem?_mono {address : Nat} {block : Text} (hheap : heap <+: heap')
    (h : heap[address]? = some block) : heap'[address]? = some block := by
  obtain ⟨more, rfl⟩ := hheap
  obtain ⟨hbound, _⟩ := List.getElem?_eq_some_iff.mp h
  rw [List.getElem?_append_left hbound, h]

theorem varchar_mono {s : Text} (hdata : data <+: data') (hheap : heap <+: heap')
    (h : Varchar.deserialize data ptr heap = .ok s) :
    Varchar.deserialize data' ptr heap' = .ok s := by
  refine except_bind_mono (fun _ => numberAt_mono hdata) (fun strSize => ?_) h
  refine except_bind_mono (fun _ => pointerAt_mono hdata) fun address hblock => ?_
  cases hfound : heap[address]? with
  | none =>
      rw [hfound] at hblock
      cases hblock
  | some block =>
      rw [hfound] at hblock
      rw [getElem?_mono hheap hfound]
      exact hblock

/-- A value that has been decoded is decoded again after data and heap have grown. -/
theorem deserializeColumn_mono {clm : FetchedColumn} {v : Value} (hdata : data <+: data')
    (hheap : heap <+: heap') (h : deserializeColumn data heap clm = .ok v) :
    deserializeColumn data' heap' clm = .ok v := by
  have hnumber : ∀ n, numberAt data clm.ptr 4 = .ok n → numberAt data' clm.ptr 4 = .ok n :=
    fun _ => numberAt_mono hdata
  unfold deserializeColumn at h ⊢
  cases hdt : clm.dt with
  | integer =>
      rw [hdt] at h
      exact except_bind_mono (fun _ => except_bind_mono hnumber fun _ => id) (fun _ => id) h
  | real =>
      rw [hdt] at h
      exact except_bind_mono (fun _ => except_bind_mono hnumber fun _ => id) (fun _ => id) h
  | varchar =>
      rw [hdt] at h
      exact except_bind_mono (fun _ => varchar_mono hdata hheap) (fun _ => id) h

end Growth

/-! ## Reading what has been appended -/

section Appended

variable (data : List Cell) (heap : Heap)

theorem cellsAt_append (cells : List Cell) :
    cellsAt (data ++ cells) data.length cells.length = .ok cells := by
  unfold cellsAt
  rw [if_pos (by rw [List.length_append]), List.drop_left, List.take_length]

theorem plainBytes_map (bytes : List UInt8) : plainBytes (bytes.map .byte) = .ok bytes := by
  induction bytes with
  | nil => rfl
  | cons first rest ih => simp only [List.map_cons, plainBytes, ih, ok_bind, except_pure]

theorem numberAt_append {width n : Nat} (h : n < 256 ^ width) :
    numberAt (data ++ cellsOf width n) data.length width = .ok n := by
  have hcells := cellsAt_append data (cellsOf width n)
  rw [length_cellsOf] at hcells
  unfold numberAt
  rw [hcells, ok_bind, cellsOf, plainBytes_map, ok_bind, numberOf_bytesOf h]
  rfl

theorem pointerAt_append (address : Nat) :
    pointerAt (data ++ pointerCells address) data.length = .ok address := by
  have hcells := cellsAt_append data (pointerCells address)
  rw [length_pointerCells] at hcells
  unfold pointerAt
  rw [hcells, ok_bind]
  exact if_pos rfl

theorem integer_append {n : Int} (h : FitsInt n) :
    Integer.deserialize (Integer.serialize n data) data.length = .ok n := by
  unfold Integer.deserialize Integer.serialize
  rw [numberAt_append data (patternOf_lt n), ok_bind, signedOf_patternOf h.1 h.2]
  rfl

theorem real_append (x : Real32) :
    Real.deserialize (Real.serialize x data) data.length = .ok x := by
  unfold Real.deserialize Real.serialize
  rw [numberAt_append data (show x.toNat < 256 ^ 4 from x.toNat_lt), ok_bind]
  simp

/-- Of a string the part is read back whose length has been stored in two bytes. -/
theorem varchar_append_take (s : Text) (strings : List Nat) :
    Varchar.deserialize (Varchar.serialize s data strings heap).1 data.length
      (Varchar.serialize s data strings heap).2.2 = .ok (s.take (Varchar.sizeOf s)) := by
  have hlt : Varchar.sizeOf s < 256 ^ 2 := Nat.mod_lt _ (by decide)
  have hlength : (s.take (Varchar.sizeOf s)).length = Varchar.sizeOf s :=
    List.length_take_of_le (Nat.mod_le _ _)
  have hnumber : numberAt (data ++ cellsOf 2 (Varchar.sizeOf s) ++ pointerCells heap.length)
      data.length 2 = .ok (Varchar.sizeOf s) :=
    numberAt_mono (List.prefix_append _ _) (numberAt_append data hlt)
  have hpointer := pointerAt_append (data ++ cellsOf 2 (Varchar.sizeOf s)) heap.length
  rw [List.length_append, length_cellsOf] at hpointer
  have hblock : (s.take (Varchar.sizeOf s)).take (Varchar.sizeOf s) = s.take (Varchar.sizeOf s) :=
    List.take_of_length_le (Nat.le_of_eq hlength)
  unfold Varchar.deserialize Varchar.serialize
  simp only [hnumber, hpointer, ok_bind, List.getElem?_concat_length, hlength, hblock, le_refl,
    if_true]
  rfl

/-- A string whose length fits two bytes. -/
theorem varchar_append {s : Text} (h : s.length < 65536) (strings : List Nat) :
    Varchar.deserialize (Varchar.serialize s data strings heap).1 data.length
      (Varchar.serialize s data strings heap).2.2 = .ok s := by
  have hsize : Varchar.sizeOf s = s.length := Nat.mod_eq_of_lt h
  rw [varchar_append_take, hsize, List.take_length]

end Appended

/-! ## Inserting values of the declared types -/

/-- An `int` for an integer column, a float for a real one, a short string for a varchar. -/
def Value.HasType : Value → DataTypes → Prop
  | .int n, .integer => FitsInt n
  | .real _, .real => True
  | .text s, .varchar => s.length < 65536
  | _, _ => False

theorem Value.HasType.width_eq {value : Value} {dt : DataTypes} (h : value.HasType dt) :
    value.width = dt.findOffset := by
  cases value <;> cases dt <;> first | rfl | cases h

namespace Table

variable {tbl : Table} {heap : Heap} {value : Value} {dt : DataTypes}

/-- A value of the type is read back where the data ended before it was inserted. -/
theorem insertData_decodes (h : value.HasType dt) :
    deserializeColumn (tbl.insertData heap value).1.data (tbl.insertData heap value).2
      ⟨tbl.data.length, dt⟩ = .ok value := by
  cases value with
  | int n =>
      cases dt with
      | integer => exact except_bind_eq_ok_iff.mpr ⟨n, integer_append tbl.data h, rfl⟩
      | real => cases h
      | varchar => cases h
  | real x =>
      cases dt with
      | integer => cases h
      | real => exact except_bind_eq_ok_iff.mpr ⟨x, real_append tbl.data x, rfl⟩
      | varchar => cases h
  | text s =>
      cases dt with
      | integer => cases h
      | real => cases h
      | varchar =>
          exact except_bind_eq_ok_iff.mpr ⟨s, varchar_append tbl.data heap h tbl.strings, rfl⟩

theorem insertData_heap (tbl : Table) (heap : Heap) (value : Value) :
    heap <+: (tbl.insertData heap value).2 := by
  cases value with
  | real x => exact List.prefix_rfl
  | int n => exact List.prefix_rfl
  | text s => exact List.prefix_append _ _

theorem insertValues_heap (values : List Value) (tbl : Table) (heap : Heap) :
    heap <+: (tbl.insertValues heap values).2 := by
  induction values generalizing tbl heap with
  | nil => exact List.prefix_rfl
  | cons value rest ih => exact (insertData_heap tbl heap value).trans (ih _ _)

theorem insertValues_data (values : List Value) (tbl : Table) (heap : Heap) :
    tbl.data <+: (tbl.insertValues heap values).1.data := by
  obtain ⟨row, hdata, _⟩ := insertValues_appends values tbl heap
  exact ⟨row, hdata.symm⟩

/--
After the loop over the columns, each of them is decoded at its offset in the
new row.  The induction is on the columns that are left; `offset` is the width
of those before them.
-/
theorem insertValues_decodes {expr : InsertExpr} {columns : List (Text × DataTypes)}
    {values : List Value} {start offset : Nat}
    (h : List.Forall₂ (fun column value => expr.valueFor column.1 = .ok value ∧
      value.HasType column.2) columns values)
    (hlength : tbl.data.length = start + offset) {name : Text} {clm : ColumnToFetch}
    (hfind : findColumn name offset columns = some clm) :
    ∃ value, expr.valueFor name = .ok value ∧
      deserializeColumn (tbl.insertValues heap values).1.data (tbl.insertValues heap values).2
        ⟨start + clm.offset, clm.dt⟩ = .ok value := by
  induction h generalizing tbl heap offset with
  | nil => cases hfind
  | @cons column value columns values hvalue hrest ih =>
      rw [findColumn] at hfind
      split at hfind
      · next hname =>
        subst hname
        cases hfind
        refine ⟨value, hvalue.1, ?_⟩
        rw [← hlength]
        exact deserializeColumn_mono (insertValues_data values _ _) (insertValues_heap values _ _)
          (insertData_decodes hvalue.2)
      · obtain ⟨cells, hdata, hwidth⟩ := insertData_appends tbl heap value
        refine ih ?_ hfind
        rw [hdata, List.length_append, hlength, hwidth, hvalue.2.width_eq, Nat.add_assoc]

end Table

/-! ## What a statement gives -/

namespace InsertExpr

variable {expr : InsertExpr} {name : Text} {value : Value}

/-- The value that a statement gives for a column, where it gives one. -/
def given (expr : InsertExpr) (name : Text) : Option Value :=
  (expr.columns.zip expr.values).lookup name

theorem valueFor_of_given (h : expr.given name = some value) :
    expr.valueFor name = .ok value := by
  obtain ⟨tblName, values, columns⟩ := expr
  unfold given at h
  unfold valueFor
  simp only at h ⊢
  induction columns generalizing values with
  | nil => cases h
  | cons column columns ih =>
      cases values with
      | nil => cases h
      | cons first rest =>
          rw [List.zip_cons_cons, List.lookup_cons] at h
          rw [List.findIdx?_cons]
          by_cases hname : column = name
          · subst hname
            simp only [beq_self_eq_true] at h
            cases h
            simp
          · have hne : (name == column) = false := by
              rw [beq_eq_false_iff_ne]
              exact Ne.symm hname
            rw [hne] at h
            have hrest := ih rest h
            simp only [hname, decide_false, Bool.false_eq_true, if_false]
            cases hfind : columns.findIdx? (· = name) with
            | none =>
                rw [hfind] at hrest
                exact hrest
            | some i =>
                rw [hfind] at hrest
                simpa using hrest

/-- The columns are columns of the table, each of which gets a value of its declared type. -/
structure GivesRow (expr : InsertExpr) (columns : List (Text × DataTypes)) : Prop where
  present : ∀ name ∈ expr.columns, name ∈ columns.map Prod.fst
  given : ∀ column ∈ columns, ∃ value, expr.given column.1 = some value ∧
    value.HasType column.2

theorem GivesRow.exists_values {columns : List (Text × DataTypes)}
    (h : ∀ column ∈ columns, ∃ value, expr.given column.1 = some value ∧
      value.HasType column.2) :
    ∃ values : List Value, List.Forall₂ (fun column value =>
      expr.valueFor column.1 = .ok value ∧ value.HasType column.2) columns values := by
  induction columns with
  | nil => exact ⟨[], .nil⟩
  | cons column rest ih =>
      obtain ⟨value, hgiven, htype⟩ := h column List.mem_cons_self
      obtain ⟨values, hvalues⟩ := ih fun other hother => h other (List.mem_cons_of_mem _ hother)
      exact ⟨value :: values, .cons ⟨valueFor_of_given hgiven, htype⟩ hvalues⟩

end InsertExpr

/-! ## Runs -/

def insertsInto (tblName : Text) : List EngineOp → List InsertExpr
  | [] => []
  | .insertIntoTable expr :: rest =>
      if expr.tblName = tblName then expr :: insertsInto tblName rest
      else insertsInto tblName rest
  | .createTable _ :: rest => insertsInto tblName rest

theorem insertsInto_append (tblName : Text) (first second : List EngineOp) :
    insertsInto tblName (first ++ second) =
      insertsInto tblName first ++ insertsInto tblName second := by
  induction first with
  | nil => rfl
  | cons op rest ih =>
      cases op with
      | createTable statement => exact ih
      | insertIntoTable expr =>
          rw [List.cons_append, insertsInto, insertsInto]
          split
          · rw [ih, List.cons_append]
          · exact ih

/--
The table has the columns, a whole row for each of the inserts, and each row
decodes to what its insert has given.
-/
structure Stores (heap : Heap) (tbl : Table) (columns : List (Text × DataTypes))
    (rows : List InsertExpr) : Prop where
  sameColumns : tbl.columns = columns
  rowSize : tbl.rowSize = rowWidth columns
  length : tbl.data.length = rows.length * tbl.rowSize
  decodes : ∀ i expr, rows[i]? = some expr → ∀ name clm, findColumn name 0 columns = some clm →
    ∃ value, expr.valueFor name = .ok value ∧
      deserializeColumn tbl.data heap ⟨i * tbl.rowSize + clm.offset, clm.dt⟩ = .ok value

namespace Stores

variable {heap heap' : Heap} {tbl : Table} {columns : List (Text × DataTypes)}
variable {rows : List InsertExpr} {expr : InsertExpr} {values : List Value}

/-- A string in another table only makes the heap grow. -/
theorem grow (h : Stores heap tbl columns rows) (hheap : heap <+: heap') :
    Stores heap' tbl columns rows where
  sameColumns := h.sameColumns
  rowSize := h.rowSize
  length := h.length
  decodes i expr hrow name clm hfind := by
    obtain ⟨value, hvalue, hdecodes⟩ := h.decodes i expr hrow name clm hfind
    exact ⟨value, hvalue, deserializeColumn_mono List.prefix_rfl hheap hdecodes⟩

theorem insert (h : Stores heap tbl columns rows)
    (hvalues : List.Forall₂ (fun column value => expr.valueFor column.1 = .ok value ∧
      value.HasType column.2) columns values) :
    Stores (tbl.insertValues heap values).2 (tbl.insertValues heap values).1 columns
      (rows ++ [expr]) := by
  have hwidth : (values.map Value.width).sum = rowWidth columns := by
    clear h
    induction hvalues with
    | nil => rfl
    | cons hvalue _ ih =>
        rw [List.map_cons, List.sum_cons, ih, hvalue.2.width_eq, rowWidth, rowWidth,
          List.map_cons, List.sum_cons]
  obtain ⟨row, hdata, hrow⟩ := Table.insertValues_appends values tbl heap
  refine ⟨by rw [Table.insertValues_columns, h.sameColumns],
    by rw [Table.insertValues_rowSize, h.rowSize], ?_, ?_⟩
  · rw [Table.insertValues_rowSize, hdata, List.length_append, h.length, hrow, hwidth,
      List.length_append, List.length_singleton, Nat.add_mul, Nat.one_mul, h.rowSize]
  · intro i other hother name clm hfind
    rw [Table.insertValues_rowSize]
    by_cases hi : i < rows.length
    · rw [List.getElem?_append_left hi] at hother
      obtain ⟨value, hvalue, hdecodes⟩ := h.decodes i other hother name clm hfind
      exact ⟨value, hvalue, deserializeColumn_mono (Table.insertValues_data _ _ _)
        (Table.insertValues_heap _ _ _) hdecodes⟩
    · obtain rfl : i = rows.length := by
        obtain ⟨hbound, _⟩ := List.getElem?_eq_some_iff.mp hother
        rw [List.length_append, List.length_singleton] at hbound
        omega
      rw [List.getElem?_concat_length] at hother
      cases hother
      exact Table.insertValues_decodes hvalues h.length hfind

end Stores

namespace StorageEngine

variable {engine engine' : StorageEngine} {tblName : Text} {columns : List (Text × DataTypes)}
variable {rows : List InsertExpr}

/-- The engine stores the rows in the table of the name. -/
def StoresRows (engine : StorageEngine) (tblName : Text) (columns : List (Text × DataTypes))
    (rows : List InsertExpr) : Prop :=
  ∃ tbl, engine.tables tblName = some tbl ∧ Stores engine.heap tbl columns rows

theorem StoresRows.createTable {statement : CreateTblExpr}
    (h : engine.StoresRows tblName columns rows)
    (hstep : engine.Step (.createTable statement) engine') :
    engine'.StoresRows tblName columns rows := by
  obtain ⟨tbl, htable, hstores⟩ := h
  cases hnew : Table.addColumns {} statement.tblColumns with
  | error failure =>
      have hrun := createTable_of_error hnew engine
      rcases hstep with ⟨_, hok⟩ | ⟨_, _, herror⟩
      · cases hok.symm.trans hrun
      · cases herror.symm.trans hrun
        exact ⟨tbl, htable, hstores⟩
  | ok new =>
      obtain rfl := Leaves.eq_of_ok hstep (createTable_of_ok hnew engine)
      cases hold : engine.tables statement.tblName with
      | some old =>
          simp only [insertTable, hold]
          exact ⟨tbl, htable, hstores⟩
      | none =>
          simp only [insertTable, hold]
          refine ⟨tbl, ?_, hstores⟩
          have hname : tblName ≠ statement.tblName := by
            rintro rfl
            cases hold.symm.trans htable
          exact (Function.update_of_ne hname _ _).trans htable

theorem StoresRows.insertOther {expr : InsertExpr} (h : engine.StoresRows tblName columns rows)
    (hname : tblName ≠ expr.tblName) (hstep : engine.Step (.insertIntoTable expr) engine') :
    engine'.StoresRows tblName columns rows := by
  obtain ⟨tbl, htable, hstores⟩ := h
  rcases insertIntoTable_effect hstep with rfl | ⟨other, values, _, _, _, rfl⟩
  · exact ⟨tbl, htable, hstores⟩
  · exact ⟨tbl, (withTable_tables_ne hname _).trans htable,
      hstores.grow (Table.insertValues_heap values other engine.heap)⟩

theorem StoresRows.insert_returns {expr : InsertExpr}
    (h : engine.StoresRows expr.tblName columns rows) (hgives : expr.GivesRow columns) :
    ∃ engine', insertIntoTable expr engine = .ok () engine' ∧
      engine'.StoresRows expr.tblName columns (rows ++ [expr]) := by
  obtain ⟨tbl, htable, hstores⟩ := h
  obtain ⟨values, hvalues⟩ := InsertExpr.GivesRow.exists_values hgives.given
  have hpresent : missingColumns tbl expr.columns = [] := by
    refine List.filter_eq_nil_iff.mpr fun name hname => ?_
    have hmem := hgives.present name hname
    rw [hstores.sameColumns]
    simpa using hmem
  rcases insertIntoTable_cases engine expr with ⟨_, _, _, hmissing⟩ | ⟨tbl', htable', _, hrun⟩
  · exact absurd hpresent (hmissing tbl htable)
  · cases htable.symm.trans htable'
    have hok := List.Forall₂.imp (fun _ _ hvalue => hvalue.1) hvalues
    rw [← hstores.sameColumns] at hok
    exact ⟨_, hrun.trans (insertColumns_of_ok htable hok), _, withTable_tables_self _ _ _,
      hstores.insert hvalues⟩

theorem StoresRows.run {ops : List EngineOp} (h : engine.StoresRows tblName columns [])
    (hrun : Run Step engine ops engine')
    (hgives : ∀ expr ∈ insertsInto tblName ops, expr.GivesRow columns) :
    engine'.StoresRows tblName columns (insertsInto tblName ops) := by
  induction hrun with
  | nil => exact h
  | @snoc ops before after op hbefore hlast ih =>
      rw [insertsInto_append] at hgives ⊢
      have hprevious := ih fun expr hexpr => hgives expr (List.mem_append_left _ hexpr)
      cases op with
      | createTable statement =>
          rw [show insertsInto tblName [.createTable statement] = [] from rfl, List.append_nil]
          exact hprevious.createTable hlast
      | insertIntoTable expr =>
          by_cases hname : expr.tblName = tblName
          · subst hname
            have hone : insertsInto expr.tblName [.insertIntoTable expr] = [expr] := if_pos rfl
            rw [hone] at hgives ⊢
            obtain ⟨_, hreturns, hstores⟩ := hprevious.insert_returns
              (hgives expr (List.mem_append_right _ (List.mem_singleton_self expr)))
            obtain rfl := Leaves.eq_of_ok hlast hreturns
            exact hstores
          · have hnone : insertsInto tblName [.insertIntoTable expr] = [] := if_neg hname
            rw [hnone, List.append_nil]
            exact hprevious.insertOther (Ne.symm hname) hlast

end StorageEngine

/-! ## From the schema to the rows -/

theorem DataTypes.fromString_toText (dt : DataTypes) : fromString dt.toText = .ok dt := by
  cases dt <;> rfl

theorem DataTypes.isTypeValid_toText (dt : DataTypes) : isTypeValid dt.toText = true := by
  cases dt <;> rfl

/-- A statement whose columns have the names and the types of the schema. -/
def CreateTblExpr.Declares (statement : CreateTblExpr) (columns : List (Text × DataTypes)) :
    Prop :=
  statement.tblColumns.map (fun column => (column.name, column.type)) =
    columns.map fun column => (column.1, column.2.toText)

theorem Table.addColumns_of_declared {columns : List (Text × DataTypes)}
    {declared : List TableColumn} (tbl : Table)
    (h : declared.map (fun column => (column.name, column.type)) =
      columns.map fun column => (column.1, column.2.toText)) :
    ∃ new, tbl.addColumns declared = .ok new ∧ new.columns = tbl.columns ++ columns := by
  induction declared generalizing columns tbl with
  | nil =>
      cases List.map_eq_nil_iff.mp h.symm
      exact ⟨tbl, rfl, (List.append_nil _).symm⟩
  | cons first rest ih =>
      obtain ⟨column, others, rfl, hcolumn, hothers⟩ := List.map_eq_cons_iff.mp h.symm
      obtain ⟨hname, htype⟩ := Prod.mk.inj hcolumn
      obtain ⟨new, hnew, hcolumns⟩ := ih { tbl with
        columns := tbl.columns ++ [(first.name, column.2)]
        rowSize := tbl.rowSize + column.2.findOffset } hothers.symm
      refine ⟨new, ?_, ?_⟩
      · rw [Table.addColumns, ← htype, DataTypes.isTypeValid_toText,
          DataTypes.fromString_toText]
        exact hnew
      · rw [hcolumns, ← hname]
        exact List.append_assoc _ _ _

theorem findColumn_of_mem {columns : List (Text × DataTypes)}
    (hdistinct : (columns.map Prod.fst).Nodup) {column : Text × DataTypes}
    (hmem : column ∈ columns) (offset : Nat) :
    ∃ clm, findColumn column.1 offset columns = some clm ∧ clm.dt = column.2 := by
  induction columns generalizing offset with
  | nil => cases hmem
  | cons first rest ih =>
      obtain ⟨name, dt⟩ := first
      rw [findColumn]
      obtain ⟨hnotin, hrest⟩ := List.nodup_cons.mp hdistinct
      rcases List.mem_cons.mp hmem with rfl | hlater
      · rw [if_pos rfl]
        exact ⟨_, rfl, rfl⟩
      · have hne : name ≠ column.1 := by
          rintro rfl
          exact hnotin (List.mem_map.mpr ⟨column, hlater, rfl⟩)
        rw [if_neg hne]
        exact ih hrest hlater _

namespace StorageEngine

variable {engine engine₀ engine₁ : StorageEngine} {statement : CreateTblExpr}
variable {columns : List (Text × DataTypes)}

/-- A table that has just been created for a schema stores no rows. -/
theorem storesRows_of_created (hnew : engine.tables statement.tblName = none)
    (hdeclares : statement.Declares columns)
    (hcreate : engine.Step (.createTable statement) engine₀) :
    engine₀.StoresRows statement.tblName columns [] := by
  obtain ⟨new, hadded, hcolumns⟩ := Table.addColumns_of_declared {} hdeclares
  obtain ⟨hsize, hdata⟩ := Table.addColumns_spec hadded rfl
  obtain rfl := Leaves.eq_of_ok hcreate (createTable_of_ok hadded engine)
  simp only [insertTable, hnew]
  refine ⟨new, Function.update_self _ _ _, hcolumns, ?_, ?_, ?_⟩
  · rw [hsize, hcolumns]
    rfl
  · rw [hdata]
    exact (Nat.zero_mul _).symm
  · intro i expr hrow
    cases hrow

/--
Where every insert into a new table gives each column a value of its type, each
row decodes to what its insert has given, whatever happens to other tables.
-/
theorem stored_rows_decode {ops : List EngineOp} (hnew : engine.tables statement.tblName = none)
    (hdeclares : statement.Declares columns) (hdistinct : (columns.map Prod.fst).Nodup)
    (hcreate : engine.Step (.createTable statement) engine₀) (hrun : Run Step engine₀ ops engine₁)
    (hgives : ∀ expr ∈ insertsInto statement.tblName ops, expr.GivesRow columns) :
    ∃ tbl, engine₁.tables statement.tblName = some tbl ∧
      ∀ i expr, (insertsInto statement.tblName ops)[i]? = some expr →
        ∀ column ∈ columns, ∃ clm value, findColumn column.1 0 tbl.columns = some clm ∧
          clm.dt = column.2 ∧ expr.given column.1 = some value ∧
          deserializeColumn tbl.data engine₁.heap ⟨i * tbl.rowSize + clm.offset, clm.dt⟩ =
            .ok value := by
  obtain ⟨tbl, htable, hstores⟩ := (storesRows_of_created hnew hdeclares hcreate).run hrun hgives
  refine ⟨tbl, htable, fun i expr hrow column hcolumn => ?_⟩
  obtain ⟨clm, hfind, hdt⟩ := findColumn_of_mem hdistinct hcolumn 0
  obtain ⟨value, hvalue, hdecodes⟩ := hstores.decodes i expr hrow column.1 clm hfind
  obtain ⟨value', hgiven, _⟩ :=
    (hgives expr (List.mem_of_getElem? hrow)).given column hcolumn
  have hsame := (InsertExpr.valueFor_of_given hgiven).symm.trans hvalue
  rw [hstores.sameColumns]
  exact ⟨clm, value, hfind, hdt, by rw [hgiven, Except.ok.inj hsame], hdecodes⟩

/-! ### Two rows of two columns -/

/-- `INSERT INTO t (a, b) VALUES (8, 'yz')` -/
def insertSecondRow : InsertExpr := ⟨['t'], [.int 8, .text ['y', 'z']], [['a'], ['b']]⟩

def twoRowsInserted : StorageEngine :=
  stateOf (insertIntoTable insertSecondRow twoColumnsInserted)

theorem insertTwoColumns_gives : insertTwoColumns.GivesRow twoColumns := by
  refine ⟨by decide, fun column hcolumn => ?_⟩
  rcases List.mem_cons.mp hcolumn with rfl | hcolumn
  · exact ⟨.int 7, rfl, show FitsInt 7 by decide⟩
  · cases List.mem_singleton.mp hcolumn
    exact ⟨.text ['x'], rfl, show 1 < 65536 by decide⟩

theorem insertSecondRow_gives : insertSecondRow.GivesRow twoColumns := by
  refine ⟨by decide, fun column hcolumn => ?_⟩
  rcases List.mem_cons.mp hcolumn with rfl | hcolumn
  · exact ⟨.int 8, rfl, show FitsInt 8 by decide⟩
  · cases List.mem_singleton.mp hcolumn
    exact ⟨.text ['y', 'z'], rfl, show 2 < 65536 by decide⟩

/-- The string of the second row is read back behind the first row. -/
theorem two_columns_decode : ∃ tbl, twoRowsInserted.tables ['t'] = some tbl ∧
    ∃ clm, findColumn ['b'] 0 tbl.columns = some clm ∧
      deserializeColumn tbl.data twoRowsInserted.heap
        ⟨1 * tbl.rowSize + clm.offset, clm.dt⟩ = .ok (.text ['y', 'z']) := by
  have hsecond : Step twoColumnsInserted (.insertIntoTable insertSecondRow) twoRowsInserted :=
    .inl ⟨(), rfl⟩
  have hdeclares : createTwoColumns.Declares twoColumns := rfl
  obtain ⟨tbl, htable, hrows⟩ := stored_rows_decode rfl hdeclares (by decide)
    createTwoColumns_step (.snoc (.snoc .nil insertTwoColumns_step) hsecond)
    (fun expr hexpr => by
      rcases List.mem_cons.mp hexpr with rfl | hexpr
      · exact insertTwoColumns_gives
      · cases List.mem_singleton.mp hexpr
        exact insertSecondRow_gives)
  obtain ⟨clm, value, hfind, _, hgiven, hdecodes⟩ :=
    hrows 1 insertSecondRow rfl (['b'], .varchar) (by decide)
  have hvalue : insertSecondRow.given ['b'] = some (.text ['y', 'z']) := rfl
  cases hvalue.symm.trans hgiven
  exact ⟨tbl, htable, clm, hfind, hdecodes⟩

end StorageEngine

end HiveDb
