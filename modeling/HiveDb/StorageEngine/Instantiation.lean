import HiveDb.Parser.Denotation
import HiveDb.StorageEngine.Selection

/-!
# Expressions with the values of a row put in

The two overloads of `execute` are separate functions in the source.  They agree:
an expression is executed in a row as the expression is without a row that has
the values of the row in the places of its column references.
-/

namespace HiveDb

open HiveDb.Lib

/-! ## The columns that matter -/

section Columns

variable [FloatUnit] {row row' : Text → Except Failure Evaluated} {columns refs : List Text}
variable {applied : Option BinaryOperator}

/-- The references collected for an expression come behind those that are there already. -/
theorem subset_of_retriveColumns {e : Exprs} (h : e.retriveColumns columns = .ok refs) :
    columns ⊆ refs :=
  fun name hname =>
    (executeWith_agrees (fun _ => throw .undefined) (fun _ => throw .undefined) 0 e).grows
      columns refs h name hname

theorem subset_of_retriveColumnsOfAll {es : List Exprs}
    (h : retriveColumnsOfAll es columns = .ok refs) : columns ⊆ refs :=
  subset_of_retriveColumns (e := .select es []) h

/-- What is solved in a row depends on the columns only that are referred to. -/
def SolvedBy (applied : Option BinaryOperator) (row row' : Text → Except Failure Evaluated)
    (e : Exprs) : Prop :=
  ∀ columns refs, e.retriveColumns columns = .ok refs → (∀ name ∈ refs, row name = row' name) →
    e.denote applied row = e.denote applied row' ∧
      e.firstSolved applied row = e.firstSolved applied row'

def AllSolvedBy (applied : Option BinaryOperator) (row row' : Text → Except Failure Evaluated)
    (es : List Exprs) : Prop :=
  ∀ columns refs, retriveColumnsOfAll es columns = .ok refs →
    (∀ name ∈ refs, row name = row' name) →
    denoteAll applied row es = denoteAll applied row' es ∧
      firstSolvedOfAll applied row es = firstSolvedOfAll applied row' es

/-- One case for each kind of node, and two for the expressions of a select. -/
theorem solvedBy (applied : Option BinaryOperator) (row row' : Text → Except Failure Evaluated)
    (e : Exprs) : SolvedBy applied row row' e := by
  induction e using Exprs.executeWith.induct
    (motive_2 := fun es => AllSolvedBy applied row row' es) with
  | case1 value => exact fun _ _ _ _ => ⟨rfl, rfl⟩
  | case2 value => exact fun _ _ _ _ => ⟨rfl, rfl⟩
  | case3 value =>
      rintro columns _ ⟨⟩ hread
      exact ⟨hread value (List.mem_append_right _ (List.mem_singleton_self value)), rfl⟩
  | case4 value isIdentifier hname =>
      intro columns refs _ _
      simp only [Exprs.denote, hname]
      exact ⟨rfl, rfl⟩
  | case5 op rhs ih =>
      intro columns refs hrefs hread
      obtain ⟨hdenote, hfirst⟩ := ih columns refs hrefs hread
      exact ⟨by rw [Exprs.denote, Exprs.denote, hdenote], hfirst⟩
  | case6 expr ih => exact ih
  | case7 lhs op rhs ihl ihr =>
      intro columns refs hrefs hread
      obtain ⟨middle, hleft, hright⟩ := except_bind_eq_ok_iff.mp hrefs
      obtain ⟨hdenoteR, hfirstR⟩ := ihr middle refs hright hread
      obtain ⟨hdenoteL, hfirstL⟩ := ihl columns middle hleft fun name hname =>
        hread name (subset_of_retriveColumns hright hname)
      constructor
      · rw [Exprs.denote, Exprs.denote, hdenoteL, hdenoteR]
      · rw [Exprs.firstSolved, Exprs.firstSolved, hfirstL, hfirstR, hdenoteL, hdenoteR]
  | case8 statement => exact fun _ _ _ _ => ⟨rfl, rfl⟩
  | case9 statement => exact fun _ _ _ _ => ⟨rfl, rfl⟩
  | case10 expr tblName ih =>
      intro columns refs hrefs hread
      obtain ⟨middle, hfirst, hrest⟩ := except_bind_eq_ok_iff.mp hrefs
      cases hrest
      exact ih columns refs hfirst hread
  | case11 innerExpr tblName hseveral ih =>
      intro columns refs hrefs hread
      obtain ⟨hdenote, hfirst⟩ := ih columns refs hrefs hread
      rw [Exprs.denote.eq_10 _ _ _ _ hseveral, Exprs.denote.eq_10 _ _ _ _ hseveral, hdenote,
        Exprs.firstSolved.eq_5 _ _ _ _ hseveral, Exprs.firstSolved.eq_5 _ _ _ _ hseveral, hfirst]
      exact ⟨rfl, rfl⟩
  | case12 => exact fun _ _ _ _ => ⟨rfl, rfl⟩
  | case13 expr rest ih ihrest =>
      intro columns refs hrefs hread
      obtain ⟨middle, hfirst, hrest⟩ := except_bind_eq_ok_iff.mp hrefs
      obtain ⟨hdenoteRest, hfirstRest⟩ := ihrest middle refs hrest hread
      obtain ⟨hdenote, hfirstExpr⟩ := ih columns middle hfirst fun name hname =>
        hread name (subset_of_retriveColumnsOfAll hrest hname)
      constructor
      · rw [denoteAll, denoteAll, hdenote, hdenoteRest]
      · rw [firstSolvedOfAll, firstSolvedOfAll, hfirstExpr, hdenote, hfirstRest]

end Columns

/-! ## Putting values in -/

/-- The literal of a value. -/
def Value.literal : Value → Exprs
  | .real value => .literalReal value
  | .int value => .literalInt value
  | .text value => .literalString value false

mutual

/-- The expression with a value in the place of each column reference. -/
def Exprs.instantiate (values : Text → Value) : Exprs → Exprs
  | .literalInt value => .literalInt value
  | .literalReal value => .literalReal value
  | .literalString value isIdentifier =>
      if isIdentifier then (values value).literal else .literalString value false
  | .unary op rhs => .unary op (rhs.instantiate values)
  | .grouping expr => .grouping (expr.instantiate values)
  | .binary lhs op rhs => .binary (lhs.instantiate values) op (rhs.instantiate values)
  | .createTbl statement => .createTbl statement
  | .insert statement => .insert statement
  | .select innerExpr tblName => .select (instantiateAll values innerExpr) tblName

def instantiateAll (values : Text → Value) : List Exprs → List Exprs
  | [] => []
  | expr :: rest => expr.instantiate values :: instantiateAll values rest

end

/-- The row in which each column has its value. -/
def valueRow (values : Text → Value) (name : Text) : Except Failure Evaluated :=
  .ok (.value (values name))

theorem operators_literal (value : Value) : value.literal.operators = [] := by
  cases value <;> rfl

section Instantiation

variable [FloatUnit] {row : Text → Except Failure Evaluated} {applied : Option BinaryOperator}
variable {values : Text → Value}

theorem denote_literal (value : Value) : value.literal.denote applied row = .ok (.value value) := by
  cases value <;> rfl

theorem firstSolved_literal (value : Value) : value.literal.firstSolved applied row = none := by
  cases value <;> rfl

/-- Without a row the instance is solved as the expression is in the row. -/
structure SolvedAlike (applied : Option BinaryOperator) (row : Text → Except Failure Evaluated)
    (values : Text → Value) (e : Exprs) : Prop where
  operators_eq : (e.instantiate values).operators = e.operators
  denote_eq : (e.instantiate values).denote applied row = e.denote applied (valueRow values)
  firstSolved_eq : (e.instantiate values).firstSolved applied row =
    e.firstSolved applied (valueRow values)

structure AllSolvedAlike (applied : Option BinaryOperator)
    (row : Text → Except Failure Evaluated) (values : Text → Value) (es : List Exprs) : Prop where
  length_eq : (instantiateAll values es).length = es.length
  operators_eq : operatorsOfAll (instantiateAll values es) = operatorsOfAll es
  denote_eq : denoteAll applied row (instantiateAll values es) =
    denoteAll applied (valueRow values) es
  firstSolved_eq : firstSolvedOfAll applied row (instantiateAll values es) =
    firstSolvedOfAll applied (valueRow values) es

/-- One case for each kind of node, and two for the expressions of a select. -/
theorem solvedAlike (applied : Option BinaryOperator) (row : Text → Except Failure Evaluated)
    (values : Text → Value) (e : Exprs) : SolvedAlike applied row values e := by
  induction e using Exprs.executeWith.induct
    (motive_2 := fun es => AllSolvedAlike applied row values es) with
  | case1 value => exact ⟨rfl, rfl, rfl⟩
  | case2 value => exact ⟨rfl, rfl, rfl⟩
  | case3 value =>
      constructor
      · exact operators_literal _
      · exact denote_literal _
      · exact firstSolved_literal _
  | case4 value isIdentifier hname =>
      obtain rfl : isIdentifier = false := Bool.eq_false_iff.mpr hname
      exact ⟨rfl, rfl, rfl⟩
  | case5 op rhs ih =>
      constructor
      · exact ih.operators_eq
      · rw [Exprs.instantiate, Exprs.denote, Exprs.denote, ih.denote_eq]
      · exact ih.firstSolved_eq
  | case6 expr ih => exact ⟨ih.operators_eq, ih.denote_eq, ih.firstSolved_eq⟩
  | case7 lhs op rhs ihl ihr =>
      constructor
      · rw [Exprs.instantiate, Exprs.operators, Exprs.operators, ihl.operators_eq,
          ihr.operators_eq]
      · rw [Exprs.instantiate, Exprs.denote, Exprs.denote, ihl.denote_eq, ihr.denote_eq]
      · rw [Exprs.instantiate, Exprs.firstSolved, Exprs.firstSolved, ihl.firstSolved_eq,
          ihr.firstSolved_eq, ihl.denote_eq, ihr.denote_eq]
  | case8 statement => exact ⟨rfl, rfl, rfl⟩
  | case9 statement => exact ⟨rfl, rfl, rfl⟩
  | case10 expr tblName ih =>
      refine ⟨?_, ih.denote_eq, ih.firstSolved_eq⟩
      rw [Exprs.instantiate, instantiateAll, instantiateAll, Exprs.operators, Exprs.operators,
        operatorsOfAll, operatorsOfAll, ih.operators_eq, operatorsOfAll, operatorsOfAll]
  | case11 innerExpr tblName hseveral ih =>
      have hseveral' : ∀ expr, instantiateAll values innerExpr = [expr] → False := by
        intro expr hone
        have hlength := ih.length_eq
        rw [hone] at hlength
        obtain ⟨first, hfirst⟩ := List.length_eq_one_iff.mp hlength.symm
        exact hseveral first hfirst
      constructor
      · exact ih.operators_eq
      · rw [Exprs.instantiate, Exprs.denote.eq_10 _ _ _ _ hseveral',
          Exprs.denote.eq_10 _ _ _ _ hseveral, ih.denote_eq]
      · rw [Exprs.instantiate, Exprs.firstSolved.eq_5 _ _ _ _ hseveral',
          Exprs.firstSolved.eq_5 _ _ _ _ hseveral, ih.firstSolved_eq]
  | case12 => exact ⟨rfl, rfl, rfl, rfl⟩
  | case13 expr rest ih ihrest =>
      constructor
      · rw [instantiateAll, List.length_cons, List.length_cons, ihrest.length_eq]
      · rw [instantiateAll, operatorsOfAll, operatorsOfAll, ih.operators_eq, ihrest.operators_eq]
      · rw [instantiateAll, denoteAll, denoteAll, ih.denote_eq, ihrest.denote_eq]
      · rw [instantiateAll, firstSolvedOfAll, firstSolvedOfAll, ih.firstSolved_eq, ih.denote_eq,
          ihrest.firstSolved_eq]

/--
An execution in a row that has a value in each column that is referred to ends
as the execution without a row of the expression that has these values in the
places of the references, and leaves the lambdas with the same node.
-/
theorem executeInRow_instantiate {e : Exprs} {refs : List Text} {data : List Cell} {heap : Heap}
    {fetchedData : FetchedDataMap} {idx : Nat} {tree : TreeId} {p : Process}
    (hrefs : e.retriveColumns [] = .ok refs)
    (hvalues : ∀ name ∈ refs, (Overload.inRow data heap fetchedData idx).row name =
      .ok (.value (values name)))
    (halive : tree ∉ p.destroyed) :
    ∃ outcome first,
      Delivers (e.executeInRow data heap fetchedData idx tree) p outcome
        (p.AfterSolving tree first) (p.AfterSolving tree first) ∧
      Delivers ((e.instantiate values).execute tree) p outcome
        (p.AfterSolving tree first) (p.AfterSolving tree first) := by
  obtain ⟨hoperators, hdenote, hfirst⟩ :=
    solvedAlike (p.applied e) Overload.withoutColumns.row values e
  obtain ⟨hdenoteRow, hfirstRow⟩ := solvedBy (p.applied e)
    (Overload.inRow data heap fetchedData idx).row (valueRow values) e [] refs hrefs hvalues
  have hready : p.Ready tree (p.applied e) e.operators := Process.ready_applied halive
  have hinRow := (Overload.inRow data heap fetchedData idx).delivers hready
  have hwithout := Overload.withoutColumns.delivers (hoperators.symm ▸ hready)
  rw [hdenoteRow, hfirstRow] at hinRow
  rw [hdenote, hfirst] at hwithout
  exact ⟨_, _, hinRow, hwithout⟩

end Instantiation

/-- `a + 1` in the second of the two rows is executed as `2 + 1`. -/
theorem a_plus_one_instantiated :
    ∃ outcome first, ∃ fetchedData,
      twoRows.fetch .newestFirst [⟨['a'], 0, .integer⟩] = .ok fetchedData ∧
      @Delivers Failure Process Evaluated
        (@Exprs.executeInRow .binary32 twoRows.data [] fetchedData 1 0
          (.binary (.literalString ['a'] true) .add (.literalInt 1))) {} outcome
        (Process.AfterSolving 0 first {}) (Process.AfterSolving 0 first {}) ∧
      @Delivers Failure Process Evaluated (@Exprs.execute .binary32 0
          (.binary (.literalInt 2) .add (.literalInt 1))) {} outcome
        (Process.AfterSolving 0 first {}) (Process.AfterSolving 0 first {}) := by
  obtain ⟨outcome, first, hinRow, hwithout⟩ := @executeInRow_instantiate .binary32
    (fun _ => .int 2) (.binary (.literalString ['a'] true) .add (.literalInt 1)) [['a']]
    twoRows.data [] (fetchedOf twoRows 2 .newestFirst [⟨['a'], 0, .integer⟩]) 1 0 {} rfl
    (fun name hname => by
      cases List.mem_singleton.mp hname
      rfl) List.not_mem_nil
  exact ⟨outcome, first, _, rfl, hinRow, hwithout⟩

end HiveDb
