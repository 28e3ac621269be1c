import HiveDb.StorageEngine.RowWidth

/-!
# One result for each row

A select evaluates as many times as the first column of the fetched map has
entries, and a column has an entry for each row and each reference to it.
-/

namespace HiveDb

open HiveDb.Lib

/-! ## The fetched columns -/

/-- What has been fetched for a column. -/
def FetchedDataMap.column (fetchedData : FetchedDataMap) (name : Text) : List FetchedColumn :=
  (fetchedData.find? name).getD []

/-- The entries that the columns to fetch add at a row. -/
def entriesAt (idx : Nat) (clms : List ColumnToFetch) (name : Text) : List FetchedColumn :=
  (clms.filter (·.name = name)).map fun clm => ⟨idx + clm.offset, clm.dt⟩

namespace Table

variable {fetchedData : FetchedDataMap} {idx : Nat} {name : Text}

theorem fetchColumn_self (idx : Nat) (fetchedData : FetchedDataMap) (clm : ColumnToFetch) :
    (fetchColumn idx fetchedData clm).find? clm.name =
      some (fetchedData.column clm.name ++ [⟨idx + clm.offset, clm.dt⟩]) := by
  unfold fetchColumn FetchedDataMap.column
  cases hfind : fetchedData.find? clm.name with
  | none => simp only [UnorderedMap.find?_emplace_self, hfind, Option.getD_none, List.nil_append]
  | some fetched => simp only [UnorderedMap.find?_update_self hfind, Option.getD_some]

theorem fetchColumn_ne {clm : ColumnToFetch} (hne : name ≠ clm.name) (idx : Nat)
    (fetchedData : FetchedDataMap) :
    (fetchColumn idx fetchedData clm).find? name = fetchedData.find? name := by
  unfold fetchColumn
  split
  · exact UnorderedMap.find?_emplace_ne hne
  · exact UnorderedMap.find?_update_ne hne _

/-- No column has been fetched without an entry. -/
def NoneEmpty (fetchedData : FetchedDataMap) : Prop := ∀ name, fetchedData.find? name ≠ some []

theorem NoneEmpty.fetchColumn (h : NoneEmpty fetchedData) (idx : Nat) (clm : ColumnToFetch) :
    NoneEmpty (fetchColumn idx fetchedData clm) := by
  intro name hempty
  by_cases hname : name = clm.name
  · subst hname
    rw [fetchColumn_self] at hempty
    exact List.append_ne_nil_of_right_ne_nil _ (List.cons_ne_nil _ _) (Option.some.inj hempty)
  · rw [fetchColumn_ne hname] at hempty
    exact h name hempty

theorem column_fetchColumn (idx : Nat) (fetchedData : FetchedDataMap) (clm : ColumnToFetch)
    (name : Text) : (fetchColumn idx fetchedData clm).column name =
      fetchedData.column name ++ entriesAt idx [clm] name := by
  by_cases hname : clm.name = name
  · subst hname
    rw [FetchedDataMap.column, fetchColumn_self]
    simp [entriesAt]
  · rw [FetchedDataMap.column, fetchColumn_ne (Ne.symm hname)]
    simp [entriesAt, hname, FetchedDataMap.column]

theorem column_fetchRow (idx : Nat) (clms : List ColumnToFetch) (fetchedData : FetchedDataMap)
    (name : Text) : (clms.foldl (fetchColumn idx) fetchedData).column name =
      fetchedData.column name ++ entriesAt idx clms name := by
  induction clms generalizing fetchedData with
  | nil => exact (List.append_nil _).symm
  | cons clm rest ih =>
      rw [List.foldl_cons, ih, column_fetchColumn, List.append_assoc]
      congr 1
      simp only [entriesAt, ← List.map_append, ← List.filter_append, List.singleton_append]

theorem fetchColumn_order (idx : Nat) (fetchedData : FetchedDataMap) (clm : ColumnToFetch) :
    (fetchColumn idx fetchedData clm).order = fetchedData.order := by
  unfold fetchColumn
  split
  · unfold UnorderedMap.emplace
    split <;> rfl
  · rfl

/-- A column that is visited first as soon as it is there. -/
def VisitedFirst (first : Text) (fetchedData : FetchedDataMap) : Prop :=
  fetchedData.order = .keyFirst first ∧
    (first ∈ fetchedData.keys → fetchedData.keys.head? = some first)

theorem VisitedFirst.fetchColumn {first : Text} (h : VisitedFirst first fetchedData) (idx : Nat)
    (clm : ColumnToFetch) : VisitedFirst first (fetchColumn idx fetchedData clm) := by
  refine ⟨(fetchColumn_order idx fetchedData clm).trans h.1, ?_⟩
  unfold Table.fetchColumn
  split
  · next hnone =>
    rw [UnorderedMap.emplace_of_none hnone]
    exact UnorderedMap.keys_assign_keyFirst h.1
  · rw [UnorderedMap.keys_update]
    exact h.2

variable {tbl : Table} {clms : List ColumnToFetch}

/-- What `fetch` has put together after the rows of the list. -/
def fetchedRows (rowSize : Nat) (clms : List ColumnToFetch) (fetchedData : FetchedDataMap)
    (rows : List Nat) : FetchedDataMap :=
  rows.foldl (fun fetchedData i => clms.foldl (fetchColumn (i * rowSize)) fetchedData) fetchedData

/--
The loop over the rows.  The induction is on the rows that are left, `done`
rows having been fetched.
-/
theorem fetchRows_eq {left done rounds : Nat}
    (hlength : tbl.data.length = (done + left) * tbl.rowSize)
    (hoffsets : ∀ clm ∈ clms, clm.offset < tbl.rowSize) (hsize : 0 < tbl.rowSize)
    (hrounds : left < rounds) (fetchedData : FetchedDataMap) :
    tbl.fetchRows clms rounds (done * tbl.rowSize) fetchedData =
      .ok (fetchedRows tbl.rowSize clms fetchedData (List.range' done left)) := by
  induction left generalizing done rounds fetchedData with
  | zero =>
      obtain ⟨rounds, rfl⟩ := Nat.exists_eq_add_of_lt hrounds
      have hend : ¬ done * tbl.rowSize < tbl.data.length := by
        rw [hlength]
        exact Nat.lt_irrefl _
      rw [Nat.zero_add, fetchRows, if_neg hend]
      rfl
  | succ left ih =>
      obtain ⟨rounds, rfl⟩ := Nat.exists_eq_add_of_lt (Nat.lt_of_le_of_lt (Nat.zero_le _) hrounds)
      have hrow : (done + 1) * tbl.rowSize ≤ tbl.data.length := by
        rw [hlength]
        exact Nat.mul_le_mul_right _ (by omega)
      rw [Nat.add_mul, Nat.one_mul] at hrow
      have hbounds : ∀ clm ∈ clms, done * tbl.rowSize + clm.offset < tbl.data.length := by
        intro clm hclm
        have hoffset := hoffsets clm hclm
        omega
      rw [Nat.zero_add, fetchRows, if_pos (by omega), if_pos hbounds,
        show done * tbl.rowSize + tbl.rowSize = (done + 1) * tbl.rowSize by
          rw [Nat.add_mul, Nat.one_mul],
        ih (by rw [hlength]; congr 1; omega) (by omega)]
      rfl

theorem fetch_eq {n : Nat} (hlength : tbl.data.length = n * tbl.rowSize)
    (hoffsets : ∀ clm ∈ clms, clm.offset < tbl.rowSize) (hsize : 0 < tbl.rowSize)
    (order : IterationOrder Text (List FetchedColumn)) :
    tbl.fetch order clms =
      .ok (fetchedRows tbl.rowSize clms (.empty order) (List.range n)) := by
  have hrounds : n < tbl.data.length + 1 := by
    rw [hlength]
    exact Nat.lt_succ_of_le (Nat.le_mul_of_pos_right n hsize)
  have hstart : tbl.data.length = (0 + n) * tbl.rowSize := by rw [Nat.zero_add, hlength]
  have hrows := fetchRows_eq hstart hoffsets hsize hrounds (.empty order)
  rw [Nat.zero_mul] at hrows
  rw [fetch, hrows, List.range_eq_range']

/-- A property that each fetched column preserves. -/
theorem fetchedRows_preserves {P : FetchedDataMap → Prop} {rowSize : Nat}
    (hstep : ∀ idx fetchedData clm, P fetchedData → P (Table.fetchColumn idx fetchedData clm))
    {fetchedData : FetchedDataMap} (h : P fetchedData) (rows : List Nat) :
    P (fetchedRows rowSize clms fetchedData rows) := by
  have hrow : ∀ idx fetchedData, P fetchedData →
      P (clms.foldl (Table.fetchColumn idx) fetchedData) :=
    fun idx fetchedData h =>
      List.foldlRecOn clms _ h fun fetchedData h clm _ => hstep idx fetchedData clm h
  exact List.foldlRecOn rows _ h fun fetchedData h i _ => hrow _ _ h

theorem column_fetchedRows (rowSize : Nat) (clms : List ColumnToFetch) (rows : List Nat)
    (fetchedData : FetchedDataMap) (name : Text) :
    (fetchedRows rowSize clms fetchedData rows).column name =
      fetchedData.column name ++ rows.flatMap fun i => entriesAt (i * rowSize) clms name := by
  induction rows generalizing fetchedData with
  | nil => exact (List.append_nil _).symm
  | cons i rest ih =>
      rw [fetchedRows, List.foldl_cons, ← fetchedRows, ih, column_fetchRow, List.flatMap_cons,
        List.append_assoc]

end Table

/-! ## The columns of a statement -/

section Columns

variable {tbl : Table} {columns : List (Text × DataTypes)} {name tblName : Text} {offset idx : Nat}
variable {clm : ColumnToFetch} {refs : List Text} {clms : List ColumnToFetch}

theorem findColumn_name (h : findColumn name offset columns = some clm) : clm.name = name := by
  induction columns generalizing offset with
  | nil => cases h
  | cons column rest ih =>
      rw [findColumn] at h
      split at h
      · next hname =>
        cases h
        exact hname
      · exact ih h

theorem findColumn_offset (h : findColumn name offset columns = some clm) :
    clm.offset < offset + rowWidth columns := by
  induction columns generalizing offset with
  | nil => cases h
  | cons column rest ih =>
      rw [findColumn] at h
      rw [rowWidth, List.map_cons, List.sum_cons, ← rowWidth]
      split at h
      · cases h
        have hpos : 0 < column.2.findOffset := by cases column.2 <;> decide
        simp only
        omega
      · have hrest := ih h
        omega

/-- The columns that have been found, in the order of the references. -/
def Finds (tbl : Table) (refs : List Text) (clms : List ColumnToFetch) : Prop :=
  List.Forall₂ (fun name clm => findColumn name 0 tbl.columns = some clm) refs clms

theorem columnsToFetch_eq_ok_iff :
    tbl.columnsToFetch tblName refs = .ok clms ↔ Finds tbl refs clms := by
  induction refs generalizing clms with
  | nil =>
      rw [Table.columnsToFetch, Finds, List.forall₂_nil_left_iff, Except.ok.injEq, eq_comm]
  | cons name rest ih =>
      rw [Table.columnsToFetch, Finds, List.forall₂_cons_left_iff]
      cases hfind : findColumn name 0 tbl.columns with
      | none => simp
      | some clm =>
          simp only [except_bind_eq_ok_iff, ih, except_pure, Except.ok.injEq, Option.some.injEq,
            exists_and_left, exists_eq_left']
          constructor
          · rintro ⟨others, hothers, rfl⟩
            exact ⟨others, hothers, rfl⟩
          · rintro ⟨others, hothers, rfl⟩
            exact ⟨others, hothers, rfl⟩

theorem exists_finds (h : ∀ name ∈ refs, (findColumn name 0 tbl.columns).isSome) :
    ∃ clms, Finds tbl refs clms := by
  induction refs with
  | nil => exact ⟨[], .nil⟩
  | cons name rest ih =>
      obtain ⟨clm, hclm⟩ := Option.isSome_iff_exists.mp (h name List.mem_cons_self)
      obtain ⟨clms, hclms⟩ := ih fun other hother => h other (List.mem_cons_of_mem _ hother)
      exact ⟨clm :: clms, .cons hclm hclms⟩

theorem Finds.isSome (h : Finds tbl refs clms) (hmem : name ∈ refs) :
    (findColumn name 0 tbl.columns).isSome := by
  induction h with
  | nil => cases hmem
  | cons hfind _ ih =>
      rcases List.mem_cons.mp hmem with rfl | hmem
      · rw [hfind]
        rfl
      · exact ih hmem

theorem Finds.offset_lt (h : Finds tbl refs clms) : ∀ clm ∈ clms,
    clm.offset < rowWidth tbl.columns := by
  intro clm hclm
  induction h with
  | nil => cases hclm
  | cons hfind _ ih =>
      rcases List.mem_cons.mp hclm with rfl | hclm
      · simpa using findColumn_offset hfind
      · exact ih hclm

theorem Finds.entriesAt_of_notMem (h : Finds tbl refs clms) (hnot : name ∉ refs) (idx : Nat) :
    entriesAt idx clms name = [] := by
  induction h with
  | nil => rfl
  | @cons other found refs clms hother _ ih =>
      obtain ⟨hne, hrest⟩ := not_or.mp fun h => hnot (List.mem_cons.mpr h)
      have hname : found.name ≠ name := by
        rw [findColumn_name hother]
        exact Ne.symm hne
      unfold HiveDb.entriesAt at ih ⊢
      rw [List.filter_cons_of_neg (by simpa using hname)]
      exact ih hrest

/-- A column has one entry at a row for each reference to it. -/
theorem Finds.entriesAt (h : Finds tbl refs clms)
    (hfind : findColumn name 0 tbl.columns = some clm) (idx : Nat) :
    entriesAt idx clms name = List.replicate (refs.count name) ⟨idx + clm.offset, clm.dt⟩ := by
  induction h with
  | nil => rfl
  | @cons other found refs clms hother _ ih =>
      have hname := findColumn_name hother
      unfold HiveDb.entriesAt at ih ⊢
      by_cases hsame : other = name
      · subst hsame
        cases hother.symm.trans hfind
        rw [List.filter_cons_of_pos (by simpa using hname), List.map_cons, ih,
          List.count_cons_self, List.replicate_succ]
      · rw [List.filter_cons_of_neg (by simpa [hname] using hsame), ih,
          List.count_cons_of_ne hsame]

end Columns

/-! ## What is fetched for a table of whole rows -/

/-- A table with some number of rows. -/
structure HoldsRows (tbl : Table) (n : Nat) : Prop where
  rowSize : tbl.rowSize = rowWidth tbl.columns
  length : tbl.data.length = n * tbl.rowSize

section Fetched

variable {tbl : Table} {n : Nat} {refs : List Text} {clms : List ColumnToFetch}
variable {order : IterationOrder Text (List FetchedColumn)} {name : Text} {clm : ColumnToFetch}

/-- What `fetch` returns for the columns that the references have found. -/
def fetchedOf (tbl : Table) (n : Nat) (order : IterationOrder Text (List FetchedColumn))
    (clms : List ColumnToFetch) : FetchedDataMap :=
  Table.fetchedRows tbl.rowSize clms (.empty order) (List.range n)

theorem fetch_of_finds (hrows : HoldsRows tbl n) (hfinds : Finds tbl refs clms)
    (hsize : 0 < tbl.rowSize) (order : IterationOrder Text (List FetchedColumn)) :
    tbl.fetch order clms = .ok (fetchedOf tbl n order clms) :=
  Table.fetch_eq hrows.length (by rw [hrows.rowSize]; exact hfinds.offset_lt) hsize order

/-- The cell of a column in a row. -/
def cellOf (tbl : Table) (i : Nat) (clm : ColumnToFetch) : FetchedColumn :=
  ⟨i * tbl.rowSize + clm.offset, clm.dt⟩

theorem column_fetchedOf (hfinds : Finds tbl refs clms)
    (hfind : findColumn name 0 tbl.columns = some clm) :
    (fetchedOf tbl n order clms).column name =
      (List.range n).flatMap fun i => List.replicate (refs.count name) (cellOf tbl i clm) := by
  rw [fetchedOf, Table.column_fetchedRows, FetchedDataMap.column, UnorderedMap.find?_empty]
  simp only [Option.getD_none, List.nil_append, hfinds.entriesAt hfind]
  rfl

theorem length_column (hfinds : Finds tbl refs clms)
    (hfind : findColumn name 0 tbl.columns = some clm) :
    ((fetchedOf tbl n order clms).column name).length = n * refs.count name := by
  rw [column_fetchedOf hfinds hfind, List.length_flatMap]
  simp

/-- A column that is referred to once has the cells of the rows in their order. -/
theorem column_once (hfinds : Finds tbl refs clms)
    (hfind : findColumn name 0 tbl.columns = some clm) (honce : refs.count name = 1) {i : Nat}
    (hi : i < n) : ((fetchedOf tbl n order clms).column name)[i]? = some (cellOf tbl i clm) := by
  rw [column_fetchedOf hfinds hfind, honce]
  simp only [List.replicate_one, ← List.map_eq_flatMap]
  rw [List.getElem?_map, List.getElem?_range hi, Option.map_some]

/-- The keys are the columns that are referred to. -/
theorem mem_keys_fetchedOf (hfinds : Finds tbl refs clms) (hn : 0 < n) :
    name ∈ (fetchedOf tbl n order clms).keys ↔ name ∈ refs := by
  rw [UnorderedMap.mem_keys_iff]
  constructor
  · rintro ⟨fetched, hfind⟩
    by_contra hnot
    have hnone : Table.NoneEmpty (fetchedOf tbl n order clms) :=
      Table.fetchedRows_preserves (fun idx _ clm h => h.fetchColumn idx clm)
        (fun _ h => by rw [UnorderedMap.find?_empty] at h; cases h) _
    have hcolumn : (fetchedOf tbl n order clms).column name = [] := by
      rw [fetchedOf, Table.column_fetchedRows, FetchedDataMap.column, UnorderedMap.find?_empty]
      simp [hfinds.entriesAt_of_notMem hnot]
    rw [FetchedDataMap.column, hfind, Option.getD_some] at hcolumn
    exact hnone name (hfind.trans (congrArg some hcolumn))
  · intro hmem
    obtain ⟨clm, hclm⟩ := Option.isSome_iff_exists.mp (hfinds.isSome hmem)
    have hlength : ((fetchedOf tbl n order clms).column name).length = n * refs.count name :=
      length_column hfinds hclm
    cases hfind : (fetchedOf tbl n order clms).find? name with
    | some fetched => exact ⟨fetched, rfl⟩
    | none =>
        rw [FetchedDataMap.column, hfind, Option.getD_none, List.length_nil] at hlength
        have hcount := List.count_pos_iff.mpr hmem
        have hpos := Nat.mul_pos hn hcount
        omega

theorem beginSize_of_head {fetchedData : FetchedDataMap}
    (hhead : fetchedData.keys.head? = some name) :
    beginSize fetchedData = .ok (fetchedData.column name).length := by
  cases hpairs : fetchedData.pairs with
  | nil =>
      rw [UnorderedMap.keys, hpairs] at hhead
      cases hhead
  | cons pair rest =>
      rw [UnorderedMap.keys, hpairs] at hhead
      cases hhead
      have hfind : fetchedData.find? pair.1 = some pair.2 := by
        rw [← UnorderedMap.mem_pairs_iff, hpairs]
        exact List.mem_cons_self
      rw [FetchedDataMap.column, hfind, beginSize, hpairs]
      rfl

/-- The number of evaluations: the entries of some column, of the first one of the map. -/
theorem beginSize_fetchedOf (hfinds : Finds tbl refs clms) (hn : 0 < n) (hrefs : refs ≠ [])
    (order : IterationOrder Text (List FetchedColumn)) :
    ∃ name ∈ refs, (fetchedOf tbl n order clms).keys.head? = some name ∧
      beginSize (fetchedOf tbl n order clms) = .ok (n * refs.count name) := by
  obtain ⟨other, rest, rfl⟩ := List.exists_cons_of_ne_nil hrefs
  have hmem : other ∈ (fetchedOf tbl n order clms).keys :=
    (mem_keys_fetchedOf hfinds hn).mpr List.mem_cons_self
  cases hhead : (fetchedOf tbl n order clms).keys.head? with
  | none =>
      rw [List.head?_eq_none_iff.mp hhead] at hmem
      cases hmem
  | some name =>
      have hname := (mem_keys_fetchedOf hfinds hn).mp (List.mem_of_mem_head? hhead)
      obtain ⟨clm, hclm⟩ := Option.isSome_iff_exists.mp (hfinds.isSome hname)
      refine ⟨name, hname, rfl, ?_⟩
      rw [beginSize_of_head hhead, length_column hfinds hclm]

/-- Any column may be the first one. -/
theorem head_keyFirst (hfinds : Finds tbl refs clms) (hn : 0 < n) (hmem : name ∈ refs) :
    (fetchedOf tbl n (.keyFirst name) clms).keys.head? = some name := by
  have hfirst : Table.VisitedFirst name (fetchedOf tbl n (.keyFirst name) clms) :=
    Table.fetchedRows_preserves (fun idx _ clm h => h.fetchColumn idx clm) ⟨rfl, nofun⟩ _
  exact hfirst.2 ((mem_keys_fetchedOf hfinds hn).mpr hmem)

end Fetched

/-! ## Evaluation with the same columns -/

section Agreement

variable {column column' : Text → Prog Process Evaluated} {tree : TreeId}
variable {retrive retrive' : List Text → Except Failure (List Text)} {α β : Type}

/--
The references are collected behind those that are there already, and two
programs are the same when all references are read in the same way.
-/
structure Agrees (column column' : Text → Prog Process Evaluated)
    (retrive : List Text → Except Failure (List Text)) (x y : Prog Process α) : Prop where
  grows : ∀ columns refs, retrive columns = .ok refs → ∀ name ∈ columns, name ∈ refs
  same : ∀ columns refs, retrive columns = .ok refs →
    (∀ name ∈ refs, column name = column' name) → x = y

namespace Agrees

theorem refl (x : Prog Process α) : Agrees column column' (fun columns => .ok columns) x x where
  grows := by
    rintro columns _ ⟨⟩
    exact fun _ => id
  same := fun _ _ _ _ => rfl

theorem andThen {x y : Prog Process α} (h : Agrees column column' retrive x y)
    (f : α → Prog Process β) : Agrees column column' retrive (x >>= f) (y >>= f) where
  grows := h.grows
  same := fun columns refs hretrive hread => by rw [h.same columns refs hretrive hread]

theorem bind {x y : Prog Process α} {x' y' : Prog Process β} {γ : Type}
    (hx : Agrees column column' retrive x y) (hx' : Agrees column column' retrive' x' y')
    (f : α → β → Prog Process γ) :
    Agrees column column' (fun columns => retrive columns >>= retrive')
      (x >>= fun a => x' >>= f a) (y >>= fun a => y' >>= f a) where
  grows := by
    intro columns refs h name hname
    obtain ⟨middle, hfirst, hrest⟩ := except_bind_eq_ok_iff.mp h
    exact hx'.grows middle refs hrest name (hx.grows columns middle hfirst name hname)
  same := by
    intro columns refs h hread
    obtain ⟨middle, hfirst, hrest⟩ := except_bind_eq_ok_iff.mp h
    rw [hx'.same middle refs hrest hread,
      hx.same columns middle hfirst fun name hname =>
        hread name (hx'.grows middle refs hrest name hname)]

end Agrees

variable [FloatUnit]

/-- One case for each kind of node, and two for the expressions of a select. -/
theorem executeWith_agrees (column column' : Text → Prog Process Evaluated) (tree : TreeId)
    (e : Exprs) : Agrees column column' e.retriveColumns (e.executeWith column tree)
      (e.executeWith column' tree) := by
  induction e using Exprs.executeWith.induct
    (motive_2 := fun es => Agrees column column' (retriveColumnsOfAll es)
      (executeAll column tree es) (executeAll column' tree es)) with
  | case1 value => exact .refl _
  | case2 value => exact .refl _
  | case3 value =>
      refine ⟨?_, ?_⟩
      · rintro columns _ ⟨⟩ name hname
        exact List.mem_append_left _ hname
      · rintro columns _ ⟨⟩ hread
        exact hread value (List.mem_append_right _ (List.mem_singleton_self value))
  | case4 value isIdentifier hname =>
      refine ⟨?_, ?_⟩
      · rintro columns _ ⟨⟩
        rw [if_neg hname]
        exact fun _ => id
      · intro columns refs _ _
        simp only [Exprs.executeWith, if_neg hname]
  | case5 op rhs ih => exact ih.andThen _
  | case6 expr ih => exact ih
  | case7 lhs op rhs ihl ihr => exact ihl.bind ihr _
  | case8 statement => constructor <;> rintro _ _ ⟨⟩
  | case9 statement => constructor <;> rintro _ _ ⟨⟩
  | case10 expr tblName ih =>
      refine ⟨?_, ?_⟩
      · intro columns refs h
        obtain ⟨middle, hfirst, hrest⟩ := except_bind_eq_ok_iff.mp h
        cases hrest
        exact ih.grows columns _ hfirst
      · intro columns refs h hread
        obtain ⟨middle, hfirst, hrest⟩ := except_bind_eq_ok_iff.mp h
        cases hrest
        exact ih.same columns _ hfirst hread
  | case11 innerExpr tblName hseveral ih =>
      rw [Exprs.executeWith.eq_10 _ _ _ _ hseveral, Exprs.executeWith.eq_10 _ _ _ _ hseveral]
      exact ih.andThen _
  | case12 => exact .refl _
  | case13 expr rest ih ihrest =>
      have hfirst := ih.andThen fun e => liftPure (singleValue e)
      have hall := hfirst.bind ihrest fun v values => pure (v :: values)
      simp only [bind_assoc] at hall
      exact hall

end Agreement

/-! ## One result for each row -/

section Results

variable {engine : StorageEngine} {tblName name : Text} {tbl : Table} {n : Nat}
variable {refs : List Text} {clms : List ColumnToFetch} {fetchedData : FetchedDataMap}
variable {clm : ColumnToFetch} {i : Nat}

/-- The column of a name in a row of the table. -/
def columnOfRow (tbl : Table) (heap : Heap) (i : Nat) (name : Text) : Prog Process Evaluated :=
  readColumn tbl.data heap name i ((findColumn name 0 tbl.columns).map (cellOf tbl i))

/-- What a column reads shows in the history of the lookups. -/
theorem lookups_readColumn (data : List Cell) (heap : Heap) (name : Text) (idx : Nat)
    (found : Option FetchedColumn) (p : Process) :
    (stateOf (readColumn data heap name idx found p)).lookups =
      p.lookups ++ [⟨name, idx, found⟩] := by
  unfold readColumn
  rw [bind_of_ok (modify_apply _ _)]
  cases found with
  | none => rfl
  | some clm =>
      simp only [bind_apply]
      cases deserializeColumn data heap clm <;> rfl

/-- An evaluation reads a column of its row exactly when it finds the cell of that row. -/
theorem columnInRow_eq_iff (heap : Heap) :
    columnInRow tbl.data heap fetchedData i name = columnOfRow tbl heap i name ↔
      (fetchedData.column name)[i]? = (findColumn name 0 tbl.columns).map (cellOf tbl i) := by
  have hfound : (fetchedData.find? name).bind (·[i]?) = (fetchedData.column name)[i]? := by
    unfold FetchedDataMap.column
    cases fetchedData.find? name <;> rfl
  unfold columnInRow columnOfRow
  rw [hfound]
  constructor
  · intro h
    have hlookups := congrArg (fun x => (stateOf (x {})).lookups) h
    simp only [lookups_readColumn] at hlookups
    simpa using hlookups
  · intro h
    rw [h]

theorem rowSize_pos (hrows : HoldsRows tbl n) (hfinds : Finds tbl refs clms) (hrefs : refs ≠ []) :
    0 < tbl.rowSize := by
  obtain ⟨name, rest, rfl⟩ := List.exists_cons_of_ne_nil hrefs
  obtain ⟨clm, hclm⟩ := Option.isSome_iff_exists.mp (hfinds.isSome List.mem_cons_self)
  have hoffset := findColumn_offset hclm
  rw [hrows.rowSize]
  omega

theorem prepareRows_of_finds (htable : engine.tables tblName = some tbl) (hrows : HoldsRows tbl n)
    (hfinds : Finds tbl refs clms) (hrefs : refs ≠ [])
    (order : IterationOrder Text (List FetchedColumn)) :
    engine.prepareRows order tblName refs = do
      let maxIndex ← beginSize (fetchedOf tbl n order clms)
      return (tbl, fetchedOf tbl n order clms, maxIndex) := by
  have hsize := rowSize_pos hrows hfinds hrefs
  unfold StorageEngine.prepareRows
  simp only [htable, columnsToFetch_eq_ok_iff.mpr hfinds, fetch_of_finds hrows hfinds hsize,
    ok_bind]

/-- A query prepares its rows only if it finds all the columns. -/
theorem finds_of_prepareRows (htable : engine.tables tblName = some tbl)
    {order : IterationOrder Text (List FetchedColumn)} {result : Table × FetchedDataMap × Nat}
    (h : engine.prepareRows order tblName refs = .ok result) : ∃ clms, Finds tbl refs clms := by
  unfold StorageEngine.prepareRows at h
  rw [htable] at h
  obtain ⟨clms, hclms, _⟩ := except_bind_eq_ok_iff.mp h
  exact ⟨clms, columnsToFetch_eq_ok_iff.mp hclms⟩

theorem evaluateRows_congr {evaluate evaluate' : Nat → Prog Process Evaluated} {rows : List Nat}
    (h : ∀ i ∈ rows, evaluate i = evaluate' i) :
    StorageEngine.evaluateRows evaluate rows = StorageEngine.evaluateRows evaluate' rows := by
  induction rows with
  | nil => rfl
  | cons i rest ih =>
      rw [StorageEngine.evaluateRows, StorageEngine.evaluateRows, h i List.mem_cons_self,
        ih fun j hj => h j (List.mem_cons_of_mem _ hj)]

variable [FloatUnit]

/--
In whichever order the fetched map is visited, the query evaluates the select
once for each row, and reads every column that the select refers to in the row
of the evaluation.
-/
structure OneResultPerRow (engine : StorageEngine) (innerExpr : List Exprs) (tblName : Text)
    (refs : List Text) (tbl : Table) (n : Nat) : Prop where
  rows : ∀ order, ∃ fetchedData,
    engine.prepareRows order tblName refs = .ok (tbl, fetchedData, n) ∧
      ∀ i < n, ∀ name ∈ refs,
        columnInRow tbl.data engine.heap fetchedData i name = columnOfRow tbl engine.heap i name
  evaluations : ∀ order tree, engine.queryDataFromTable order tree innerExpr tblName =
    StorageEngine.evaluateRows
      (fun i => (Exprs.select innerExpr tblName).executeWith (columnOfRow tbl engine.heap i) tree)
      (List.range n)

variable {innerExpr : List Exprs}

/-- With rows, and with distinct columns that are all there, the select works row by row. -/
theorem oneResultPerRow_of_nodup (htable : engine.tables tblName = some tbl)
    (hrows : HoldsRows tbl n) (hrefs : retriveColumnsToBeFetched innerExpr = .ok refs)
    (hne : refs ≠ []) (hfinds : Finds tbl refs clms) (hn : 0 < n) (hnodup : refs.Nodup) :
    OneResultPerRow engine innerExpr tblName refs tbl n := by
  have honce : ∀ name ∈ refs, refs.count name = 1 := fun name hname =>
    List.count_eq_one_of_mem hnodup hname
  have hprepared : ∀ order, engine.prepareRows order tblName refs =
      .ok (tbl, fetchedOf tbl n order clms, n) := by
    intro order
    obtain ⟨name, hname, _, hsize⟩ := beginSize_fetchedOf hfinds hn hne order
    rw [prepareRows_of_finds htable hrows hfinds hne, hsize, honce name hname, Nat.mul_one]
    rfl
  have hreads : ∀ order, ∀ i < n, ∀ name ∈ refs,
      columnInRow tbl.data engine.heap (fetchedOf tbl n order clms) i name =
        columnOfRow tbl engine.heap i name := by
    intro order i hi name hname
    obtain ⟨clm, hclm⟩ := Option.isSome_iff_exists.mp (hfinds.isSome hname)
    rw [columnInRow_eq_iff, column_once hfinds hclm (honce name hname) hi, hclm]
    rfl
  refine ⟨fun order => ⟨_, hprepared order, hreads order⟩, fun order tree => ?_⟩
  unfold StorageEngine.queryDataFromTable
  funext p
  rw [bind_of_ok (liftPure_eq_ok_iff.mpr ⟨hrefs, rfl⟩), if_neg hne,
    bind_of_ok (liftPure_eq_ok_iff.mpr ⟨hprepared order, rfl⟩)]
  refine congrFun (evaluateRows_congr fun i hi => ?_) p
  exact (executeWith_agrees _ _ tree (.select innerExpr tblName)).same [] refs hrefs
    (hreads order i (List.mem_range.mp hi))

theorem pos_of_oneResultPerRow (htable : engine.tables tblName = some tbl)
    (hrows : HoldsRows tbl n) (hne : refs ≠ []) (hfinds : Finds tbl refs clms)
    (h : OneResultPerRow engine innerExpr tblName refs tbl n) : 0 < n := by
  obtain ⟨fetchedData, hprepared, _⟩ := h.rows .newestFirst
  rw [prepareRows_of_finds htable hrows hfinds hne] at hprepared
  cases n with
  | zero => cases hprepared
  | succ n => exact Nat.succ_pos n

/-- A column that is referred to again has more entries than rows, and may be visited first. -/
theorem nodup_of_oneResultPerRow (htable : engine.tables tblName = some tbl)
    (hrows : HoldsRows tbl n) (hne : refs ≠ []) (hfinds : Finds tbl refs clms)
    (h : OneResultPerRow engine innerExpr tblName refs tbl n) : refs.Nodup := by
  have hn := pos_of_oneResultPerRow htable hrows hne hfinds h
  refine List.nodup_iff_count_le_one.mpr fun name => ?_
  by_contra htwice
  have hmem : name ∈ refs := List.count_pos_iff.mp (by omega)
  obtain ⟨clm, hclm⟩ := Option.isSome_iff_exists.mp (hfinds.isSome hmem)
  obtain ⟨fetchedData, hprepared, hreads⟩ := h.rows (.keyFirst name)
  rw [prepareRows_of_finds htable hrows hfinds hne,
    beginSize_of_head (head_keyFirst hfinds hn hmem), length_column hfinds hclm,
    ok_bind] at hprepared
  simp only [except_pure, Except.ok.injEq, Prod.mk.injEq] at hprepared
  have hmore : n * 2 ≤ n * refs.count name := Nat.mul_le_mul_left n (by omega)
  omega

/--
A select that refers to a column of the table yields one result for each row
exactly when there is a row, and every reference is to a column of the table
and to another one.
-/
theorem oneResultPerRow_iff (htable : engine.tables tblName = some tbl) (hrows : HoldsRows tbl n)
    (hrefs : retriveColumnsToBeFetched innerExpr = .ok refs)
    (hexists : ∃ name ∈ refs, (findColumn name 0 tbl.columns).isSome) :
    OneResultPerRow engine innerExpr tblName refs tbl n ↔
      0 < n ∧ refs.Nodup ∧ ∀ name ∈ refs, (findColumn name 0 tbl.columns).isSome := by
  obtain ⟨other, hother, _⟩ := hexists
  have hne : refs ≠ [] := List.ne_nil_of_mem hother
  constructor
  · intro h
    obtain ⟨_, hprepared, _⟩ := h.rows .newestFirst
    obtain ⟨clms, hfinds⟩ := finds_of_prepareRows htable hprepared
    exact ⟨pos_of_oneResultPerRow htable hrows hne hfinds h,
      nodup_of_oneResultPerRow htable hrows hne hfinds h, fun name => hfinds.isSome⟩
  · rintro ⟨hn, hnodup, hfound⟩
    obtain ⟨clms, hfinds⟩ := exists_finds hfound
    exact oneResultPerRow_of_nodup htable hrows hrefs hne hfinds hn hnodup

end Results

/-! ### Two rows of one column -/

section TwoRows

/-- A table of the column `a` with the rows 1 and 2. -/
def twoRows : Table :=
  { columns := [(['a'], .integer)], data := cellsOf 4 1 ++ cellsOf 4 2, rowSize := 4 }

def twoRowsEngine : StorageEngine := { tables := Function.update (fun _ => none) ['t'] twoRows }

theorem twoRows_holds : HoldsRows twoRows 2 := ⟨rfl, rfl⟩

/-- `SELECT a, a FROM t` is evaluated four times. -/
theorem select_a_a_four_times :
    ¬ ∀ (_ : FloatUnit) (engine : StorageEngine) (innerExpr : List Exprs) (tblName : Text)
      (refs : List Text) (tbl : Table) (n : Nat), engine.tables tblName = some tbl →
      HoldsRows tbl n → retriveColumnsToBeFetched innerExpr = .ok refs →
      (∃ name ∈ refs, (findColumn name 0 tbl.columns).isSome) →
      OneResultPerRow engine innerExpr tblName refs tbl n := by
  intro h
  obtain ⟨hrows, _⟩ := h .binary32 twoRowsEngine
    [.literalString ['a'] true, .literalString ['a'] true] ['t'] [['a'], ['a']] twoRows 2
    rfl twoRows_holds rfl ⟨['a'], List.mem_cons_self, rfl⟩
  obtain ⟨_, hprepared, _⟩ := hrows .newestFirst
  have hfour : (twoRowsEngine.prepareRows .newestFirst ['t'] [['a'], ['a']]).map (·.2.2) =
      .ok 4 := rfl
  rw [hprepared] at hfour
  cases hfour

/-- `SELECT a FROM t` yields both rows. -/
theorem select_a_both_rows : @OneResultPerRow .binary32 twoRowsEngine
    [.literalString ['a'] true] ['t'] [['a']] twoRows 2 :=
  (@oneResultPerRow_iff twoRowsEngine ['t'] twoRows 2 [['a']] .binary32
    [.literalString ['a'] true] rfl twoRows_holds rfl
    ⟨['a'], List.mem_cons_self, rfl⟩).mpr
    ⟨Nat.succ_pos 1, List.nodup_singleton _, fun name hname => by
      cases List.mem_singleton.mp hname
      rfl⟩

end TwoRows

end HiveDb
