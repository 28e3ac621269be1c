import HiveDb.Parser.IntRange

/-!
# What expressions denote

An expression has a value in a row of columns, given one operator that all of
its binary nodes apply.  An execution in a process delivers that value: the
operator is the one that the static lambdas have kept, or that of the first node
of the expression itself, which they keep from then on.
-/

namespace HiveDb

open HiveDb.Lib

/-! ## The denotation -/

section Denotation

variable [FloatUnit]

/-- The operator of the lambdas on two numbers; without one they cannot be called. -/
def applyOperator (applied : Option BinaryOperator) (l r : Value) : Except Failure Value :=
  match applied with
  | some op => op.onValues l r
  | none => .error .undefined

def applyValues (applied : Option BinaryOperator) (l r : Value) : Except Failure Value :=
  if l.isText || r.isText then .error (.invalidArgument "Cannot whatever strings.")
  else applyOperator applied l r

/-- What a binary node makes of the values of its operands. -/
def solveBy (applied : Option BinaryOperator) : Evaluated → Evaluated → Except Failure Evaluated
  | .value l, .value r => do
      let v ← applyValues applied l r
      return .value v
  | .value l, .vector r =>
      if l.isText then .error (.invalidArgument "Cannot whatever strings.")
      else if r.length ≠ 1 then
        .error (.invalidArgument "Cannot <binary expression> something something.")
      else .error .undefined
  | .vector l, .value r =>
      if r.isText then .error (.invalidArgument "Cannot whatever strings.")
      else if l.length ≠ 1 then
        .error (.invalidArgument "Cannot <binary expression> something something.")
      else .error .undefined
  | .vector l, .vector r =>
      if l.length ≠ 1 ∧ r.length ≠ 1 then
        .error (.invalidArgument "Cannot <binary expression> something something.")
      else
        match l, r with
        | l :: ls, r :: _ => do
            let v ← applyValues applied l r
            return .vector (v :: ls)
        | _, _ => .error .undefined

mutual

/-- The value of an expression in a row, when all binary nodes apply the same operator. -/
def Exprs.denote (applied : Option BinaryOperator) (row : Text → Except Failure Evaluated) :
    Exprs → Except Failure Evaluated
  | .literalInt value => .ok (.value (.int value))
  | .literalReal value => .ok (.value (.real value))
  | .literalString value isIdentifier =>
      if isIdentifier then row value else .ok (.value (.text value))
  | .unary _ rhs => do
      let e ← rhs.denote applied row
      unarySolve e
  | .grouping expr => expr.denote applied row
  | .binary lhs _ rhs => do
      let l ← lhs.denote applied row
      let r ← rhs.denote applied row
      solveBy applied l r
  | .createTbl _ | .insert _ => .error (.invalidArgument "INVALID CALL!")
  | .select [expr] _ => expr.denote applied row
  | .select innerExpr _ => do
      let values ← denoteAll applied row innerExpr
      return .vector values

def denoteAll (applied : Option BinaryOperator) (row : Text → Except Failure Evaluated) :
    List Exprs → Except Failure (List Value)
  | [] => .ok []
  | expr :: rest => do
      let e ← expr.denote applied row
      let v ← singleValue e
      let values ← denoteAll applied row rest
      return v :: values

end

mutual

/-- The operator of the first binary node whose operands have values. -/
def Exprs.firstSolved (applied : Option BinaryOperator) (row : Text → Except Failure Evaluated) :
    Exprs → Option BinaryOperator
  | .unary _ rhs => rhs.firstSolved applied row
  | .grouping expr => expr.firstSolved applied row
  | .binary lhs op rhs =>
      (lhs.firstSolved applied row).or <|
        if (lhs.denote applied row).isOk then
          (rhs.firstSolved applied row).or <|
            if (rhs.denote applied row).isOk then some op else none
        else none
  | .select [expr] _ => expr.firstSolved applied row
  | .select innerExpr _ => firstSolvedOfAll applied row innerExpr
  | _ => none

def firstSolvedOfAll (applied : Option BinaryOperator) (row : Text → Except Failure Evaluated) :
    List Exprs → Option BinaryOperator
  | [] => none
  | expr :: rest =>
      (expr.firstSolved applied row).or <|
        if (expr.denote applied row >>= singleValue).isOk then firstSolvedOfAll applied row rest
        else none

end

end Denotation

/-! ## What an execution leaves behind -/

/-- The lambdas keep the first node that has been solved; nothing else has changed. -/
structure Process.AfterSolving (tree : TreeId) (first : Option BinaryOperator) (p p' : Process) :
    Prop where
  captured_eq : p'.captured = p.captured.or (first.map (tree, ·))
  destroyed_eq : p'.destroyed = p.destroyed
  printed_eq : p'.printed = p.printed

namespace Process.AfterSolving

variable {tree : TreeId} {first second : Option BinaryOperator} {p p' p'' : Process}

theorem refl (tree : TreeId) (p : Process) : p.AfterSolving tree none p :=
  ⟨(Option.or_none).symm, rfl, rfl⟩

theorem trans (h : p.AfterSolving tree first p') (h' : p'.AfterSolving tree second p'') :
    p.AfterSolving tree (first.or second) p'' where
  captured_eq := by
    rw [h'.captured_eq, h.captured_eq, Option.or_assoc, Option.map_or]
  destroyed_eq := h'.destroyed_eq.trans h.destroyed_eq
  printed_eq := h'.printed_eq.trans h.printed_eq

/-- A part that has solved no node leaves the next ones as ready as they were. -/
theorem ready {applied : Option BinaryOperator} {ops : List BinaryOperator}
    (h : p.AfterSolving tree none p') (hready : p.Ready tree applied ops) :
    p'.Ready tree applied ops := by
  have hcaptured : p'.captured = p.captured := h.captured_eq.trans Option.or_none
  unfold Process.Ready at hready ⊢
  rwa [hcaptured, h.destroyed_eq]

end Process.AfterSolving

/-- Reading a column yields what the row has, and has no influence on later nodes. -/
def ReadsRow (column : Text → Prog Process Evaluated) (row : Text → Except Failure Evaluated) :
    Prop :=
  ∀ name tree p, Delivers (column name) p (row name) (p.AfterSolving tree none)
    (p.AfterSolving tree none)

/-! ## Solving a node -/

section Solving

variable [FloatUnit] {tree owner : TreeId} {c op : BinaryOperator} {p : Process}
variable {applied : Option BinaryOperator} {rest : List BinaryOperator}

/-- The lambdas apply the operator that they have kept. -/
theorem capturedOperator_onValues (hcaptured : p.captured = some (owner, c))
    (happlied : applied = if owner ∈ p.destroyed then none else some c) (l r : Value)
    (g : Value → Evaluated) :
    (capturedOperator >>= fun op => liftPure (op.onValues l r) >>= fun v => pure (g v) :
      Prog Process Evaluated) p =
      liftPure (applyOperator applied l r >>= fun v => pure (g v)) p := by
  by_cases hdestroyed : owner ∈ p.destroyed
  · rw [if_pos hdestroyed] at happlied
    subst happlied
    exact bind_of_error (capturedOperator_of_destroyed hcaptured hdestroyed)
  · rw [if_neg hdestroyed] at happlied
    subst happlied
    rw [bind_of_ok (capturedOperator_of_alive hcaptured hdestroyed), applyOperator]
    cases c.onValues l r <;> rfl

theorem solveValues_eq (hcaptured : p.captured = some (owner, c))
    (happlied : applied = if owner ∈ p.destroyed then none else some c) (l r : Evaluated) :
    solveValues l r p = liftPure (solveBy applied l r) p := by
  have hoperator := @capturedOperator_onValues _ owner c p applied hcaptured happlied
  cases l with
  | value l =>
      cases r with
      | value r =>
          simp only [solveValues, solveBy, applyValues]
          split
          · rfl
          · exact hoperator l r .value
      | vector r =>
          simp only [solveValues, solveBy]
          repeat' split
          all_goals rfl
  | vector l =>
      cases r with
      | value r =>
          simp only [solveValues, solveBy]
          repeat' split
          all_goals rfl
      | vector r =>
          simp only [solveValues, solveBy]
          split
          · rfl
          · cases l with
            | nil => cases r <;> rfl
            | cons l ls =>
                cases r with
                | nil => rfl
                | cons r rs =>
                    simp only [applyValues]
                    split
                    · rfl
                    · exact hoperator l r fun v => .vector (v :: ls)

/-- A binary node whose operands have values. -/
theorem delivers_binarySolve (hready : p.Ready tree applied (op :: rest)) (l r : Evaluated) :
    Delivers (binarySolve tree op l r) p (solveBy applied l r)
      (fun p' => p'.Ready tree applied rest ∧ p.AfterSolving tree (some op) p')
      (p.AfterSolving tree (some op)) := by
  obtain ⟨p', owner, c, hinitialized, hcaptured, happlied⟩ := hready.initialized
  have hafter : p.AfterSolving tree (some op) p' := by
    cases hinitialized
    exact ⟨rfl, rfl, rfl⟩
  refine .of_eq (bind_of_ok hinitialized) (.of_eq (solveValues_eq hcaptured happlied l r) ?_)
  exact .lift (fun _ _ => ⟨p'.ready_of_captured hcaptured happlied rest, hafter⟩) fun _ _ => hafter

end Solving

/-! ## Executions -/

section Executions

variable [FloatUnit] {column : Text → Prog Process Evaluated}
variable {row : Text → Except Failure Evaluated} {tree : TreeId}
variable {applied : Option BinaryOperator} {e : Exprs} {es : List Exprs}

/-- An execution delivers the value that the expression denotes. -/
def Executes (column : Text → Prog Process Evaluated) (row : Text → Except Failure Evaluated)
    (tree : TreeId) (applied : Option BinaryOperator) (e : Exprs) : Prop :=
  ∀ p rest, Process.Ready p tree applied (e.operators ++ rest) →
    Delivers (e.executeWith column tree) p (e.denote applied row)
      (fun p' => p'.Ready tree applied rest ∧
        p.AfterSolving tree (e.firstSolved applied row) p')
      (p.AfterSolving tree (e.firstSolved applied row))

def ExecutesAll (column : Text → Prog Process Evaluated) (row : Text → Except Failure Evaluated)
    (tree : TreeId) (applied : Option BinaryOperator) (es : List Exprs) : Prop :=
  ∀ p rest, Process.Ready p tree applied (operatorsOfAll es ++ rest) →
    Delivers (executeAll column tree es) p (denoteAll applied row es)
      (fun p' => p'.Ready tree applied rest ∧
        p.AfterSolving tree (firstSolvedOfAll applied row es) p')
      (p.AfterSolving tree (firstSolvedOfAll applied row es))

theorem Executes.binary {lhs rhs : Exprs} (op : BinaryOperator)
    (hl : Executes column row tree applied lhs) (hr : Executes column row tree applied rhs) :
    Executes column row tree applied (.binary lhs op rhs) := by
  intro p rest hready
  rw [Exprs.operators, List.append_assoc, List.append_assoc] at hready
  rw [Exprs.executeWith, Exprs.denote, Exprs.firstSolved]
  refine (hl p _ hready).seq (fun l p₁ hleft h₁ => ?_) fun failure p₁ hleft h₁ => ?_
  · simp only [hleft, Except.isOk, Except.toBool, if_true]
    refine (hr p₁ _ h₁.1).seq (fun r p₂ hright h₂ => ?_) fun failure p₂ hright h₂ => ?_
    · simp only [hright, if_true]
      refine (delivers_binarySolve h₂.1 l r).conseq (fun p₃ h₃ => ⟨h₃.1, ?_⟩) fun p₃ h₃ => ?_
      · exact h₁.2.trans (h₂.2.trans h₃.2)
      · exact h₁.2.trans (h₂.2.trans h₃)
    · simp only [hright, Bool.false_eq_true, if_false, Option.or_none]
      exact h₁.2.trans h₂
  · simp only [hleft, Except.isOk, Except.toBool, Bool.false_eq_true, if_false, Option.or_none]
    exact h₁

theorem ExecutesAll.cons (he : Executes column row tree applied e)
    (hes : ExecutesAll column row tree applied es) :
    ExecutesAll column row tree applied (e :: es) := by
  intro p rest hready
  rw [operatorsOfAll, List.append_assoc] at hready
  rw [executeAll, denoteAll, firstSolvedOfAll]
  refine (he p _ hready).seq (fun v p₁ hv h₁ => ?_) fun failure p₁ hv h₁ => ?_
  · simp only [hv, ok_bind]
    have hsingle : Delivers (liftPure (singleValue v)) p₁ (singleValue v) (· = p₁) (· = p₁) :=
      .lift (fun _ _ => rfl) fun _ _ => rfl
    refine hsingle.seq (fun value p₂ hvalue h₂ => ?_) fun failure p₂ hvalue h₂ => ?_
    · subst h₂
      simp only [hvalue, Except.isOk, Except.toBool, if_true]
      refine (hes _ rest h₁.1).seq (fun values p₃ _ h₃ => .ret ⟨h₃.1, h₁.2.trans h₃.2⟩)
        fun failure p₃ _ h₃ => h₁.2.trans h₃
    · subst h₂
      simp only [hvalue, Except.isOk, Except.toBool, Bool.false_eq_true, if_false, Option.or_none]
      exact h₁.2
  · simp only [hv, error_bind, Except.isOk, Except.toBool, Bool.false_eq_true, if_false,
      Option.or_none]
    exact h₁

/-- One case for each kind of node, and two for the expressions of a select. -/
theorem executes (hcolumn : ReadsRow column row) (tree : TreeId)
    (applied : Option BinaryOperator) (e : Exprs) : Executes column row tree applied e := by
  induction e using Exprs.executeWith.induct
    (motive_2 := fun es => ExecutesAll column row tree applied es) with
  | case1 value => exact fun p rest hready => .ret ⟨hready, .refl tree p⟩
  | case2 value => exact fun p rest hready => .ret ⟨hready, .refl tree p⟩
  | case3 value =>
      intro p rest hready
      exact (hcolumn value tree p).conseq (fun p' h => ⟨h.ready hready, h⟩) fun p' h => h
  | case4 value isIdentifier hname =>
      intro p rest hready
      simp only [Exprs.executeWith, Exprs.denote, hname]
      exact .ret ⟨hready, .refl tree p⟩
  | case5 op rhs ih =>
      intro p rest hready
      refine (ih p rest hready).seq (fun v p' _ h => ?_) fun failure p' _ h => h
      exact .lift (fun _ _ => h) fun _ _ => h.2
  | case6 expr ih => exact ih
  | case7 lhs op rhs ihl ihr => exact ihl.binary op ihr
  | case8 statement => exact fun p rest hready => .fail (.refl tree p)
  | case9 statement => exact fun p rest hready => .fail (.refl tree p)
  | case10 expr tblName ih =>
      intro p rest hready
      rw [Exprs.operators, operatorsOfAll, operatorsOfAll, List.append_nil] at hready
      exact ih p rest hready
  | case11 innerExpr tblName hseveral ih =>
      intro p rest hready
      rw [Exprs.executeWith.eq_10 _ _ _ _ hseveral, Exprs.denote.eq_10 _ _ _ _ hseveral,
        Exprs.firstSolved]
      · refine (ih p rest hready).seq (fun values p' _ h => .ret h) fun failure p' _ h => h
      · exact hseveral
  | case12 => exact fun p rest hready => .ret ⟨hready, .refl tree p⟩
  | case13 expr rest ih ihrest => exact ExecutesAll.cons ih ihrest

end Executions

/-! ## Both ways to execute -/

section Overloads

variable {tree : TreeId} {p : Process}

/-- The value that a column reference has found. -/
def foundValue (data : List Cell) (heap : Heap) : Option FetchedColumn → Except Failure Evaluated
  | some clm => do
      let v ← deserializeColumn data heap clm
      return .value v
  | none => .error .undefined

/-- Reading a column adds to the history of the lookups only. -/
theorem delivers_readColumn (data : List Cell) (heap : Heap) (name : Text) (idx : Nat)
    (found : Option FetchedColumn) (tree : TreeId) (p : Process) :
    Delivers (readColumn data heap name idx found) p (foundValue data heap found)
      (p.AfterSolving tree none) (p.AfterSolving tree none) := by
  have hlookup : p.AfterSolving tree none
      { p with lookups := p.lookups ++ [⟨name, idx, found⟩] } :=
    ⟨(Option.or_none).symm, rfl, rfl⟩
  refine .of_eq (bind_of_ok (modify_apply _ _)) ?_
  cases found with
  | none => exact .fail hlookup
  | some clm =>
      exact Delivers.seq (.lift (fun _ _ => hlookup) fun _ _ => hlookup)
        (fun v p' _ h => .ret h) fun failure p' _ h => h

/-- What an identifier stands for. -/
def Overload.row : Overload → Text → Except Failure Evaluated
  | .withoutColumns => fun name => .ok (.value (.text name))
  | .inRow data heap fetchedData idx => fun name =>
      foundValue data heap ((fetchedData.find? name).bind (·[idx]?))

theorem Overload.readsRow (overload : Overload) : ReadsRow overload.column overload.row := by
  cases overload with
  | withoutColumns => exact fun name tree p => .ret (.refl tree p)
  | inRow data heap fetchedData idx =>
      exact fun name tree p => delivers_readColumn data heap name idx _ tree p

variable [FloatUnit]

theorem Overload.delivers (overload : Overload) {applied : Option BinaryOperator} {e : Exprs}
    (hready : p.Ready tree applied e.operators) :
    Delivers (overload.execute tree e) p (e.denote applied overload.row)
      (p.AfterSolving tree (e.firstSolved applied overload.row))
      (p.AfterSolving tree (e.firstSolved applied overload.row)) := by
  rw [← List.append_nil e.operators] at hready
  rw [overload.execute_eq]
  exact (executes overload.readsRow tree applied e p [] hready).conseq (fun _ h => h.2) fun _ h => h

/--
Whatever the process has executed before, an execution ends as the denotation of
the expression does in which every binary node applies one operator: the one
that the lambdas keep, or else that of the first binary node of the expression.
It prints nothing, and leaves the lambdas with the node that they have kept, or
else the first one that has been solved.
-/
theorem execute_denotes (overload : Overload) (e : Exprs) (halive : tree ∉ p.destroyed) :
    Delivers (overload.execute tree e) p (e.denote (p.applied e) overload.row)
      (p.AfterSolving tree (e.firstSolved (p.applied e) overload.row))
      (p.AfterSolving tree (e.firstSolved (p.applied e) overload.row)) :=
  overload.delivers (Process.ready_applied halive)

end Overloads

/-- In a fresh process `1 + "a"` is refused, and the lambdas keep the node all the same. -/
theorem sum_with_text_denotes :
    @Delivers Failure Process Evaluated (@Overload.execute .binary32 .withoutColumns 0
        (.binary (.literalInt 1) .add (.literalString ['a'] false))) {}
      (.error (.invalidArgument "Cannot whatever strings."))
      (Process.AfterSolving 0 (some .add) {}) (Process.AfterSolving 0 (some .add) {}) :=
  @execute_denotes 0 {} .binary32 .withoutColumns
    (.binary (.literalInt 1) .add (.literalString ['a'] false)) List.not_mem_nil

end HiveDb
