import HiveDb.Parser.Execution
import HiveDb.Parser.Trees

/-!
# Strings and vectors as operands

A select of several expressions evaluates to a vector, and nothing else does.
Such a vector has two values at least, so that no node takes the branches for a
vector of one value: an operand that is a string or a vector makes the execution
throw.
-/

namespace HiveDb

open HiveDb.Lib

/-! ## Solving a node -/

namespace Evaluated

def IsNumber : Evaluated → Prop
  | .value (.real _) | .value (.int _) => True
  | .value (.text _) | .vector _ => False

/-- A vector has two values at least. -/
def Proper : Evaluated → Prop
  | .value _ => True
  | .vector values => 2 ≤ values.length

theorem isText_iff (v : Value) : v.isText = true ↔ ¬ IsNumber (.value v) := by
  cases v <;> simp [Value.isText, IsNumber]

end Evaluated

/-- The calculation throws `std::invalid_argument`. -/
def Refuses (p : Process) (x : Prog Process Evaluated) : Prop :=
  ∃ what p', x p = .error (.invalidArgument what) p'

section Solving

variable [FloatUnit] {v l r : Evaluated} {p : Process}

theorem unarySolve_cases (hproper : v.Proper) :
    (v.IsNumber ∧ ∀ w, unarySolve v = .ok w → ∃ value, w = .value value) ∨
      ¬ v.IsNumber ∧ ∃ what, unarySolve v = .error (.invalidArgument what) := by
  cases v with
  | value value =>
      cases value with
      | text s => exact .inr ⟨id, _, rfl⟩
      | real x =>
          refine .inl ⟨trivial, fun w hw => ?_⟩
          cases hw
          exact ⟨_, rfl⟩
      | int n =>
          refine .inl ⟨trivial, fun w hw => ?_⟩
          obtain ⟨value, _, hvalue⟩ := except_bind_eq_ok_iff.mp hw
          cases hvalue
          exact ⟨_, rfl⟩
  | vector values =>
      match values, hproper with
      | _ :: _ :: _, _ => exact .inr ⟨id, _, rfl⟩

theorem solveValues_cases (hl : l.Proper) (hr : r.Proper) :
    (l.IsNumber ∧ r.IsNumber ∧
        Returns (fun w => ∃ value, w = .value value) (solveValues l r)) ∨
      ¬ (l.IsNumber ∧ r.IsNumber) ∧ ∀ p, Refuses p (solveValues l r) := by
  cases l with
  | value l =>
      cases r with
      | value r =>
          by_cases htext : (l.isText || r.isText) = true
          · refine .inr ⟨?_, fun p => ⟨_, _, by rw [solveValues, if_pos htext]; rfl⟩⟩
            rw [Bool.or_eq_true, Evaluated.isText_iff, Evaluated.isText_iff] at htext
            exact fun h => htext.elim (· h.1) (· h.2)
          · refine .inl ⟨?_, ?_, ?_⟩
            · by_contra hnot
              exact htext (Bool.or_eq_true_iff.mpr (.inl ((Evaluated.isText_iff l).mpr hnot)))
            · by_contra hnot
              exact htext (Bool.or_eq_true_iff.mpr (.inr ((Evaluated.isText_iff r).mpr hnot)))
            · rw [solveValues, if_neg htext]
              exact .after fun op => .after fun value => .ret ⟨value, rfl⟩
      | vector r =>
          refine .inr ⟨fun h => h.2, fun p => ?_⟩
          have hlength : r.length ≠ 1 := fun heq => by simp [Evaluated.Proper, heq] at hr
          rw [solveValues, if_pos hlength]
          split <;> exact ⟨_, _, rfl⟩
  | vector l =>
      refine .inr ⟨fun h => h.1, fun p => ?_⟩
      have hlength : l.length ≠ 1 := fun heq => by simp [Evaluated.Proper, heq] at hl
      cases r with
      | value r =>
          rw [solveValues, if_pos hlength]
          split <;> exact ⟨_, _, rfl⟩
      | vector r =>
          have hlength' : r.length ≠ 1 := fun heq => by simp [Evaluated.Proper, heq] at hr
          unfold solveValues
          dsimp only
          rw [if_pos ⟨hlength, hlength'⟩]
          exact ⟨_, _, rfl⟩

theorem binarySolve_refuses (tree : TreeId) (op : BinaryOperator)
    (h : ∀ p, Refuses p (solveValues l r)) (p : Process) :
    Refuses p (binarySolve tree op l r) := by
  obtain ⟨what, p', hthrows⟩ := h { p with captured := p.captured.or (some (tree, op)) }
  exact ⟨what, p', (bind_of_ok (modify_apply _ _)).trans hthrows⟩

end Solving

/-! ## Where vectors come from -/

/-- The first expression evaluates to what the second one does. -/
inductive Exprs.PassesOn : Exprs → Exprs → Prop where
  | refl (e : Exprs) : PassesOn e e
  | grouping {e source : Exprs} (h : PassesOn e source) : PassesOn (.grouping e) source
  | single {e source : Exprs} (tblName : Text) (h : PassesOn e source) :
      PassesOn (.select [e] tblName) source

/-- A vector is that of a select of several expressions, with one value for each of them. -/
def Exprs.Yields (e : Exprs) (v : Evaluated) : Prop :=
  ∀ values, v = .vector values → ∃ innerExpr tblName,
    e.PassesOn (.select innerExpr tblName) ∧ 2 ≤ innerExpr.length ∧
      values.length = innerExpr.length

namespace Exprs.Yields

variable {e : Exprs} {v : Evaluated}

theorem proper (h : e.Yields v) : v.Proper := by
  cases v with
  | value value => trivial
  | vector values =>
      obtain ⟨innerExpr, _, _, hseveral, hlength⟩ := h values rfl
      exact Nat.le_trans hseveral (Nat.le_of_eq hlength.symm)

theorem of_value (h : ∃ value, v = .value value) : e.Yields v := by
  rintro values rfl
  obtain ⟨value, hvalue⟩ := h
  cases hvalue

theorem grouping (h : e.Yields v) : (Exprs.grouping e).Yields v := by
  intro values hvalues
  obtain ⟨innerExpr, tblName, hpasses, hrest⟩ := h values hvalues
  exact ⟨innerExpr, tblName, .grouping hpasses, hrest⟩

theorem single (tblName : Text) (h : e.Yields v) : (Exprs.select [e] tblName).Yields v := by
  intro values hvalues
  obtain ⟨innerExpr, name, hpasses, hrest⟩ := h values hvalues
  exact ⟨innerExpr, name, .single tblName hpasses, hrest⟩

end Exprs.Yields

/-- No identifier evaluates to a vector. -/
def SingleColumns (column : Text → Prog Process Evaluated) : Prop :=
  ∀ name, Returns (fun v => ∃ value, v = .value value) (column name)

section Executing

variable [FloatUnit] {column : Text → Prog Process Evaluated} {tree : TreeId} {e : Exprs}
  {es before : List Exprs} {p p' : Process}

theorem length_of_executeAll {values : List Value}
    (h : executeAll column tree es p = .ok values p') :
    values.length = es.length := by
  induction es generalizing p values with
  | nil =>
      cases h
      rfl
  | cons first rest ih =>
      obtain ⟨v, p1, _, h⟩ := bind_eq_ok_iff.mp h
      obtain ⟨value, p2, _, h⟩ := bind_eq_ok_iff.mp h
      obtain ⟨others, p3, hrest, h⟩ := bind_eq_ok_iff.mp h
      cases h
      rw [List.length_cons, List.length_cons, ih hrest]

theorem executeWith_several (h : 2 ≤ es.length) (tblName : Text) :
    (Exprs.select es tblName).executeWith column tree = do
      let values ← executeAll column tree es
      return .vector values := by
  refine Exprs.executeWith.eq_10 _ _ _ _ fun e heq => ?_
  subst heq
  exact absurd h (by simp)

/-- Where identifiers are no vectors, only a select of several expressions is one. -/
theorem Exprs.Formed.yields (h : e.Formed)
    (hcolumn : SingleColumns column) :
    Returns e.Yields (e.executeWith column tree) := by
  induction h with
  | literalInt value => exact .ret (.of_value ⟨_, rfl⟩)
  | literalReal value => exact .ret (.of_value ⟨_, rfl⟩)
  | literalString value isIdentifier =>
      rw [Exprs.executeWith]
      split
      · exact (hcolumn value).mono fun _ => .of_value
      · exact .ret (.of_value ⟨_, rfl⟩)
  | unary op hrhs ih =>
      refine ih.bind fun v hv => ?_
      intro p w p' hreturns
      obtain ⟨hsolved, _⟩ := liftPure_eq_ok_iff.mp hreturns
      rcases unarySolve_cases hv.proper with ⟨_, hvalue⟩ | ⟨_, what, hthrows⟩
      · exact .of_value (hvalue w hsolved)
      · cases hthrows.symm.trans hsolved
  | grouping he ih => exact ih.mono fun _ => .grouping
  | binary op hlhs hrhs ihl ihr =>
      refine ihl.bind fun l hl => ihr.bind fun r hr => .after fun _ => ?_
      rcases solveValues_cases hl.proper hr.proper with ⟨_, _, hvalue⟩ | ⟨_, hthrows⟩
      · exact hvalue.mono fun _ => .of_value
      · intro p w p' hreturns
        obtain ⟨what, p'', hrefuses⟩ := hthrows p
        cases hrefuses.symm.trans hreturns
  | createTbl statement => exact .fail _
  | insert statement => exact .fail _
  | @select innerExpr tblName hne hinner ih =>
      rcases innerExpr with _ | ⟨e, _ | ⟨second, rest⟩⟩
      · exact absurd rfl hne
      · exact (ih e (List.mem_singleton_self e)).mono fun _ => .single tblName
      · rw [executeWith_several (by simp)]
        intro p w p' hreturns
        obtain ⟨values, p1, hall, hreturns⟩ := bind_eq_ok_iff.mp hreturns
        cases hreturns
        rintro _ ⟨⟩
        exact ⟨_, tblName, .refl _, by simp, length_of_executeAll hall⟩

end Executing

/-! ## Exceptions -/

/-- Every exception is `std::invalid_argument`. -/
def Failure.OnlyInvalid (failure : Failure) : Prop :=
  failure.isException = true → ∃ what, failure = .invalidArgument what

theorem Failure.onlyInvalid_undefined : Failure.undefined.OnlyInvalid := by
  intro impossible
  cases impossible

theorem Failure.onlyInvalid_of (what : String) : (Failure.invalidArgument what).OnlyInvalid :=
  fun _ => ⟨what, rfl⟩

section Decoding

variable {data : List Cell} {heap : Heap} {ptr width : Nat} {failure : Failure}

theorem cellsAt_error (h : cellsAt data ptr width = .error failure) : failure = .undefined := by
  unfold cellsAt at h
  split at h <;> cases h
  rfl

theorem plainBytes_error {cells : List Cell} (h : plainBytes cells = .error failure) :
    failure = .undefined := by
  induction cells with
  | nil => cases h
  | cons first rest ih =>
      cases first with
      | byte value =>
          rcases except_bind_eq_error_iff.mp h with hrest | ⟨others, _, impossible⟩
          · exact ih hrest
          · cases impossible
      | pointer address index =>
          cases h
          rfl

theorem numberAt_error (h : numberAt data ptr width = .error failure) : failure = .undefined := by
  rcases except_bind_eq_error_iff.mp h with hcells | ⟨cells, _, h⟩
  · exact cellsAt_error hcells
  · rcases except_bind_eq_error_iff.mp h with hbytes | ⟨bytes, _, impossible⟩
    · exact plainBytes_error hbytes
    · cases impossible

theorem pointerAt_error (h : pointerAt data ptr = .error failure) : failure = .undefined := by
  rcases except_bind_eq_error_iff.mp h with hcells | ⟨cells, _, h⟩
  · exact cellsAt_error hcells
  · split at h
    · split at h <;> cases h
      rfl
    · cases h
      rfl

theorem Varchar.deserialize_error (h : Varchar.deserialize data ptr heap = .error failure) :
    failure = .undefined := by
  rcases except_bind_eq_error_iff.mp h with hsize | ⟨strSize, _, h⟩
  · exact numberAt_error hsize
  rcases except_bind_eq_error_iff.mp h with haddress | ⟨address, _, h⟩
  · exact pointerAt_error haddress
  split at h
  · split at h <;> cases h
    rfl
  · cases h
    rfl

theorem deserializeColumn_error {clm : FetchedColumn}
    (h : deserializeColumn data heap clm = .error failure) : failure = .undefined := by
  unfold deserializeColumn at h
  split at h
  · rcases except_bind_eq_error_iff.mp h with hread | ⟨n, _, impossible⟩
    · rcases except_bind_eq_error_iff.mp hread with hpattern | ⟨pattern, _, impossible⟩
      · exact numberAt_error hpattern
      · cases impossible
    · cases impossible
  · rcases except_bind_eq_error_iff.mp h with hread | ⟨x, _, impossible⟩
    · rcases except_bind_eq_error_iff.mp hread with hpattern | ⟨pattern, _, impossible⟩
      · exact numberAt_error hpattern
      · cases impossible
    · cases impossible
  · rcases except_bind_eq_error_iff.mp h with hread | ⟨str, _, impossible⟩
    · exact Varchar.deserialize_error hread
    · cases impossible

end Decoding

section Throwing

variable {failure : Failure}

theorem intResult_error {n : Int} (h : intResult n = .error failure) : failure = .undefined := by
  unfold intResult at h
  split at h <;> cases h
  rfl

theorem onInts_error {op : BinaryOperator} {l r : Int} (h : op.onInts l r = .error failure) :
    failure = .undefined := by
  cases op with
  | add => exact intResult_error h
  | substract => exact intResult_error h
  | star => exact intResult_error h
  | divide =>
      unfold BinaryOperator.onInts at h
      dsimp only at h
      split at h
      · cases h
        rfl
      · exact intResult_error h

theorem singleValue_error {v : Evaluated} (h : singleValue v = .error failure) :
    failure.OnlyInvalid := by
  unfold singleValue at h
  split at h
  · cases h
  · cases h
  · cases h
    exact Failure.onlyInvalid_of _

theorem capturedOperator_fails : Fails Failure.OnlyInvalid capturedOperator := by
  refine .inspect fun p => ?_
  split
  · refine .inspect fun q => ?_
    split
    · exact .fail Failure.onlyInvalid_undefined
    · exact .ret _
  · exact .fail Failure.onlyInvalid_undefined

variable [FloatUnit]

theorem onValues_error {op : BinaryOperator} {l r : Value}
    (h : op.onValues l r = .error failure) : failure.OnlyInvalid := by
  have hints : ∀ {m n : Int}, (do let k ← op.onInts m n; return Value.int k) = .error failure →
      failure.OnlyInvalid := by
    intro m n h
    rcases except_bind_eq_error_iff.mp h with hop | ⟨k, _, impossible⟩
    · exact onInts_error hop ▸ Failure.onlyInvalid_undefined
    · cases impossible
  unfold BinaryOperator.onValues at h
  split at h
  · cases h
  · exact hints h
  · cases h
  · split at h
    · exact hints h
    · cases h
      exact Failure.onlyInvalid_undefined
  · cases h
    exact Failure.onlyInvalid_of _
  · cases h
    exact Failure.onlyInvalid_of _

theorem negateValue_error {v : Value} (h : negateValue v = .error failure) :
    failure.OnlyInvalid := by
  cases v with
  | real x => cases h
  | int n =>
      rcases except_bind_eq_error_iff.mp h with hneg | ⟨k, _, impossible⟩
      · exact intResult_error hneg ▸ Failure.onlyInvalid_undefined
      · cases impossible
  | text s =>
      cases h
      exact Failure.onlyInvalid_of _

theorem unarySolve_error {v : Evaluated} (h : unarySolve v = .error failure) :
    failure.OnlyInvalid := by
  unfold unarySolve at h
  split at h
  · rcases except_bind_eq_error_iff.mp h with hneg | ⟨w, _, impossible⟩
    · exact negateValue_error hneg
    · cases impossible
  · rcases except_bind_eq_error_iff.mp h with hneg | ⟨w, _, impossible⟩
    · exact negateValue_error hneg
    · cases impossible
  · cases h
    exact Failure.onlyInvalid_of _

theorem solveValues_fails (l r : Evaluated) : Fails Failure.OnlyInvalid (solveValues l r) := by
  have happly : ∀ l r (g : Value → Evaluated), Fails Failure.OnlyInvalid (do
      let op ← capturedOperator
      let v ← liftPure (op.onValues l r)
      return g v) :=
    fun l r g => capturedOperator_fails.bind fun op =>
      (Fails.lift fun _ => onValues_error).bind fun v => .ret _
  unfold solveValues
  repeat' split
  all_goals first
    | exact .fail (Failure.onlyInvalid_of _)
    | exact .fail Failure.onlyInvalid_undefined
    | exact happly _ _ _

theorem executeWith_fails {column : Text → Prog Process Evaluated}
    (hcolumn : ∀ name, Fails Failure.OnlyInvalid (column name)) (tree : TreeId) (e : Exprs) :
    Fails Failure.OnlyInvalid (e.executeWith column tree) :=
  executeWith_of_parts Fails.ret Fails.bind hcolumn (Fails.fail (Failure.onlyInvalid_of _))
    (fun _ => Fails.lift fun _ => unarySolve_error)
    (fun _ l r => (Fails.change _).bind fun _ => solveValues_fails l r)
    (fun _ => Fails.lift fun _ => singleValue_error) e

end Throwing

/-! ## Operands -/

/--
In the execution of the expression that starts in the process, an operand of a
unary or binary node evaluates to the value.  With `solved` it is one of the
operands that the node goes on to solve; without, the left operand of a binary
node counts whatever becomes of the right one.
-/
inductive Exprs.HasOperand [FloatUnit] (column : Text → Prog Process Evaluated) (tree : TreeId)
    (solved : Prop) : Exprs → Process → Evaluated → Prop where
  | ofUnary {op : UnaryOperator} {rhs : Exprs} {p p' : Process} {v : Evaluated}
      (hrhs : rhs.executeWith column tree p = .ok v p') :
      HasOperand column tree solved (.unary op rhs) p v
  | left {lhs rhs : Exprs} {op : BinaryOperator} {p p' : Process} {l : Evaluated}
      (hlhs : lhs.executeWith column tree p = .ok l p')
      (hrhs : solved → ∃ r p'', rhs.executeWith column tree p' = .ok r p'') :
      HasOperand column tree solved (.binary lhs op rhs) p l
  | right {lhs rhs : Exprs} {op : BinaryOperator} {p p' p'' : Process} {l r : Evaluated}
      (hlhs : lhs.executeWith column tree p = .ok l p')
      (hrhs : rhs.executeWith column tree p' = .ok r p'') :
      HasOperand column tree solved (.binary lhs op rhs) p r
  | inUnary {op : UnaryOperator} {rhs : Exprs} {p : Process} {v : Evaluated}
      (h : HasOperand column tree solved rhs p v) :
      HasOperand column tree solved (.unary op rhs) p v
  | inGrouping {e : Exprs} {p : Process} {v : Evaluated} (h : HasOperand column tree solved e p v) :
      HasOperand column tree solved (.grouping e) p v
  | inLeft {lhs rhs : Exprs} {op : BinaryOperator} {p : Process} {v : Evaluated}
      (h : HasOperand column tree solved lhs p v) :
      HasOperand column tree solved (.binary lhs op rhs) p v
  | inRight {lhs rhs : Exprs} {op : BinaryOperator} {p p' : Process} {l v : Evaluated}
      (hlhs : lhs.executeWith column tree p = .ok l p')
      (h : HasOperand column tree solved rhs p' v) :
      HasOperand column tree solved (.binary lhs op rhs) p v
  | inSelect {before after : List Exprs} {e : Exprs} {tblName : Text} {values : List Value}
      {p p' : Process} {v : Evaluated} (hbefore : executeAll column tree before p = .ok values p')
      (h : HasOperand column tree solved e p' v) :
      HasOperand column tree solved (.select (before ++ e :: after) tblName) p v

section Refusing

variable [FloatUnit] {column : Text → Prog Process Evaluated} {tree : TreeId} {e : Exprs}
  {p p' p'' : Process} {failure : Failure} {v : Evaluated}

theorem executeAll_of_error {before : List Exprs} {values : List Value}
    (hbefore : executeAll column tree before p = .ok values p')
    (he : e.executeWith column tree p' = .error failure p'') (after : List Exprs) :
    executeAll column tree (before ++ e :: after) p = .error failure p'' := by
  induction before generalizing p values with
  | nil =>
      cases hbefore
      exact bind_of_error he
  | cons first rest ih =>
      obtain ⟨v, p1, hfirst, hbefore⟩ := bind_eq_ok_iff.mp hbefore
      obtain ⟨value, p2, hvalue, hbefore⟩ := bind_eq_ok_iff.mp hbefore
      obtain ⟨others, p3, hrest, hlast⟩ := bind_eq_ok_iff.mp hbefore
      cases hlast
      exact (bind_of_ok hfirst).trans ((bind_of_ok hvalue).trans (bind_of_error (ih hrest)))

/-- A select fails where one of its expressions does. -/
theorem select_of_error {before : List Exprs} {values : List Value}
    (hbefore : executeAll column tree before p = .ok values p')
    (he : e.executeWith column tree p' = .error failure p'') (after : List Exprs) (tblName : Text) :
    (Exprs.select (before ++ e :: after) tblName).executeWith column tree p =
      .error failure p'' := by
  have hall := executeAll_of_error hbefore he after
  cases before with
  | nil =>
      cases hbefore
      cases after with
      | nil => exact he
      | cons second rest =>
          rw [executeWith_several (by simp)]
          exact bind_of_error hall
  | cons first rest =>
      have hseveral : 2 ≤ (first :: rest ++ e :: after).length := by
        simp only [List.length_append, List.length_cons]
        omega
      rw [executeWith_several hseveral]
      exact bind_of_error hall

theorem unary_refuses (op : UnaryOperator) {rhs : Exprs} (hformed : rhs.Formed)
    (hcolumn : SingleColumns column)
    (hrhs : rhs.executeWith column tree p = .ok v p') (hnot : ¬ v.IsNumber) :
    Refuses p ((Exprs.unary op rhs).executeWith column tree) := by
  have hproper := (hformed.yields hcolumn p v p' hrhs).proper
  rcases unarySolve_cases hproper with ⟨hnumber, _⟩ | ⟨_, what, hthrows⟩
  · exact absurd hnumber hnot
  · refine ⟨what, p', (bind_of_ok hrhs).trans ?_⟩
    rw [hthrows]
    rfl

/-- A binary node whose operands have been evaluated and are not both numbers. -/
theorem binary_refuses (op : BinaryOperator) {lhs rhs : Exprs} {l r : Evaluated}
    (hl : lhs.Formed) (hr : rhs.Formed)
    (hcolumn : SingleColumns column)
    (hlhs : lhs.executeWith column tree p = .ok l p')
    (hrhs : rhs.executeWith column tree p' = .ok r p'') (hnot : ¬ (l.IsNumber ∧ r.IsNumber)) :
    Refuses p ((Exprs.binary lhs op rhs).executeWith column tree) := by
  have hlproper := (hl.yields hcolumn p l p' hlhs).proper
  have hrproper := (hr.yields hcolumn p' r p'' hrhs).proper
  rcases solveValues_cases hlproper hrproper with ⟨hlnumber, hrnumber, _⟩ | ⟨_, hthrows⟩
  · exact absurd ⟨hlnumber, hrnumber⟩ hnot
  · obtain ⟨what, q, hrefuses⟩ := binarySolve_refuses tree op hthrows p''
    exact ⟨what, q, (bind_of_ok hlhs).trans ((bind_of_ok hrhs).trans hrefuses)⟩

/--
With an operand that is no number the execution fails, and it throws
`std::invalid_argument` if the node goes on to solve the operand.
-/
theorem Exprs.HasOperand.fails {solved : Prop} (h : e.HasOperand column tree solved p v)
    (hformed : e.Formed)
    (hcolumn : SingleColumns column)
    (hnot : ¬ v.IsNumber) :
    ∃ failure p', e.executeWith column tree p = .error failure p' ∧
      (solved → ∃ what, failure = .invalidArgument what) := by
  induction h with
  | @ofUnary op rhs p p' v hrhs =>
      cases hformed with
      | unary _ hformed =>
          obtain ⟨what, q, hrefuses⟩ := unary_refuses op hformed hcolumn hrhs hnot
          exact ⟨_, q, hrefuses, fun _ => ⟨what, rfl⟩⟩
  | @left lhs rhs op p p' l hlhs hrhs =>
      cases hformed with
      | binary _ hl hr =>
          cases hrun : rhs.executeWith column tree p' with
          | error failure p'' =>
              refine ⟨failure, p'', (bind_of_ok hlhs).trans (bind_of_error hrun), fun hsolved => ?_⟩
              obtain ⟨r, q, hreturns⟩ := hrhs hsolved
              cases hrun.symm.trans hreturns
          | ok r p'' =>
              obtain ⟨what, q, hrefuses⟩ :=
                binary_refuses op hl hr hcolumn hlhs hrun fun h => hnot h.1
              exact ⟨_, q, hrefuses, fun _ => ⟨what, rfl⟩⟩
  | @right lhs rhs op p p' p'' l r hlhs hrhs =>
      cases hformed with
      | binary _ hl hr =>
          obtain ⟨what, q, hrefuses⟩ :=
            binary_refuses op hl hr hcolumn hlhs hrhs fun h => hnot h.2
          exact ⟨_, q, hrefuses, fun _ => ⟨what, rfl⟩⟩
  | inUnary _ ih =>
      cases hformed with
      | unary _ hformed =>
          obtain ⟨failure, p', hrun, hthrows⟩ := ih hformed hnot
          exact ⟨failure, p', bind_of_error hrun, hthrows⟩
  | inGrouping _ ih =>
      cases hformed with
      | grouping hformed => exact ih hformed hnot
  | inLeft _ ih =>
      cases hformed with
      | binary _ hl hr =>
          obtain ⟨failure, p', hrun, hthrows⟩ := ih hl hnot
          exact ⟨failure, p', bind_of_error hrun, hthrows⟩
  | inRight hlhs _ ih =>
      cases hformed with
      | binary _ hl hr =>
          obtain ⟨failure, p', hrun, hthrows⟩ := ih hr hnot
          exact ⟨failure, p', (bind_of_ok hlhs).trans (bind_of_error hrun), hthrows⟩
  | inSelect hbefore _ ih =>
      cases hformed with
      | select _ _ hinner =>
          obtain ⟨failure, p', hrun, hthrows⟩ :=
            ih (hinner _ (List.mem_append_right _ List.mem_cons_self)) hnot
          exact ⟨failure, p', select_of_error hbefore hrun _ _, hthrows⟩

end Refusing

/-! ## Both ways to execute -/

/-- The two overloads of `execute`; one of them reads the columns of a row. -/
inductive Overload where
  | withoutColumns
  | inRow (data : List Cell) (heap : Heap) (fetchedData : FetchedDataMap) (idx : Nat)

namespace Overload

/-- What an identifier evaluates to. -/
def column : Overload → Text → Prog Process Evaluated
  | .withoutColumns => fun name => return .value (.text name)
  | .inRow data heap fetchedData idx => columnInRow data heap fetchedData idx

def execute [FloatUnit] (overload : Overload) (tree : TreeId) (e : Exprs) :
    Prog Process Evaluated :=
  match overload with
  | .withoutColumns => e.execute tree
  | .inRow data heap fetchedData idx => e.executeInRow data heap fetchedData idx tree

theorem execute_eq [FloatUnit] (overload : Overload) (tree : TreeId) (e : Exprs) :
    overload.execute tree e = e.executeWith overload.column tree := by
  cases overload <;> rfl

theorem singleColumns (overload : Overload) : SingleColumns overload.column := by
  intro name
  cases overload with
  | withoutColumns => exact .ret ⟨_, rfl⟩
  | inRow data heap fetchedData idx =>
      refine .after fun _ => ?_
      split
      · exact .after fun value => .ret ⟨value, rfl⟩
      · exact .fail _

theorem column_fails (overload : Overload) (name : Text) :
    Fails Failure.OnlyInvalid (overload.column name) := by
  cases overload with
  | withoutColumns => exact .ret _
  | inRow data heap fetchedData idx =>
      refine (Fails.change _).bind fun _ => ?_
      split
      · refine (Fails.lift fun failure hread => ?_).bind fun value => .ret _
        exact deserializeColumn_error hread ▸ Failure.onlyInvalid_undefined
      · exact .fail Failure.onlyInvalid_undefined

end Overload

section Statement

variable [FloatUnit]

/-- Strings and vectors take no part in the arithmetic of the execution. -/
structure Exprs.SolvesNumbers (e : Exprs) (overload : Overload) (tree : TreeId) (p : Process) :
    Prop where
  /-- A vector is that of a select of several expressions. -/
  vector : ∀ v p', overload.execute tree e p = .ok v p' → e.Yields v
  /-- If the execution returns, every operand has been a number. -/
  numbers : ∀ v p', overload.execute tree e p = .ok v p' →
    ∀ operand, e.HasOperand overload.column tree False p operand → operand.IsNumber
  /-- A node that is to solve another operand throws. -/
  refuses : ∀ operand, e.HasOperand overload.column tree True p operand → ¬ operand.IsNumber →
    Refuses p (overload.execute tree e)
  /-- Another left operand leads to the same exception, unless the right one is undefined. -/
  throws : ∀ operand, e.HasOperand overload.column tree False p operand → ¬ operand.IsNumber →
    ∀ p', Leaves (overload.execute tree e) p p' → Refuses p (overload.execute tree e)

/-- Of whatever the parser returns, both executions calculate with numbers only. -/
theorem solvesNumbers_of_parse {tokens rest : List Token} {e : Exprs}
    (hparse : Parser.parse tokens = .ok e rest) (overload : Overload) (tree : TreeId)
    (p : Process) : e.SolvesNumbers overload tree p := by
  have hformed := Parser.formed_of_parse hparse
  have hcolumn := overload.singleColumns
  constructor
  · rw [overload.execute_eq]
    exact fun v p' hreturns => hformed.yields hcolumn p v p' hreturns
  · intro v p' hreturns operand hoperand
    by_contra hnot
    obtain ⟨failure, q, hfails, _⟩ := hoperand.fails hformed hcolumn hnot
    rw [overload.execute_eq, hfails] at hreturns
    cases hreturns
  · intro operand hoperand hnot
    obtain ⟨failure, q, hfails, hthrows⟩ := hoperand.fails hformed hcolumn hnot
    obtain ⟨what, rfl⟩ := hthrows trivial
    rw [overload.execute_eq]
    exact ⟨what, q, hfails⟩
  · intro operand hoperand hnot p' hleaves
    obtain ⟨failure, q, hfails, _⟩ := hoperand.fails hformed hcolumn hnot
    rw [overload.execute_eq] at hleaves ⊢
    obtain ⟨what, rfl⟩ := executeWith_fails overload.column_fails tree e p failure q hfails
      (hleaves.eq_of_error hfails).2
    exact ⟨what, q, hfails⟩

end Statement

/-- `select ( 1 , - "a" )` -/
def selectMinusText : List Token :=
  [⟨.select, [], []⟩, ⟨.parenthesesL, [], []⟩, ⟨.integer, ['1'], []⟩, ⟨.comma, [], []⟩,
    ⟨.substract, [], []⟩, ⟨.string, ['a'], []⟩, ⟨.parenthesesR, [], []⟩]

/-- The minus before the string is refused. -/
theorem minus_text_refused :
    ∃ e, @Parser.parse .binary32 selectMinusText = .ok e [] ∧
      @Exprs.SolvesNumbers .binary32 e .withoutColumns 0 {} ∧
      @Refuses {} (@Overload.execute .binary32 .withoutColumns 0 e) := by
  let unit := FloatUnit.binary32
  have hparse : Parser.parse selectMinusText =
      .ok (.select [.literalInt 1, .unary .substract (.literalString ['a'] false)] []) [] := rfl
  have hsolves := solvesNumbers_of_parse hparse .withoutColumns 0 {}
  refine ⟨_, hparse, hsolves, hsolves.refuses (.value (.text ['a'])) ?_ id⟩
  have hbefore : executeAll Overload.withoutColumns.column 0 [.literalInt 1] {} =
      .ok [.int 1] {} := rfl
  exact .inSelect hbefore (.ofUnary rfl)

end HiveDb
