import HiveDb.Parser.Operands
import HiveDb.Parser.StaticLambdas

/-!
# The range of the integers

No node checks its operands: a division by zero and a result that does not fit
an `int` are undefined.  A tree of int literals is calculated once more here, in
integers without bounds, and its execution is defined exactly when nothing in
that calculation leaves the range or divides by zero.
-/

namespace HiveDb

open HiveDb.Lib

/-! ## The calculation without bounds -/

namespace BinaryOperator

/-- Division truncates. -/
def exact (op : BinaryOperator) (l r : Int) : Int :=
  match op with
  | .add => l + r
  | .substract => l - r
  | .star => l * r
  | .divide => l.tdiv r

/-- The operation divides by no zero and its result fits an `int`. -/
def Defined (op : BinaryOperator) (l r : Int) : Prop :=
  (op = .divide → r ≠ 0) ∧ FitsInt (op.exact l r)

instance (op : BinaryOperator) (l r : Int) : Decidable (op.Defined l r) :=
  inferInstanceAs (Decidable (_ ∧ _))

variable {op : BinaryOperator} {l r : Int}

theorem onInts_of_defined (h : op.Defined l r) : op.onInts l r = .ok (op.exact l r) := by
  obtain ⟨hzero, hfits⟩ := h
  cases op with
  | divide => exact (if_neg (hzero rfl)).trans (if_pos hfits)
  | add => exact if_pos hfits
  | substract => exact if_pos hfits
  | star => exact if_pos hfits

theorem onInts_of_not_defined (h : ¬ op.Defined l r) : op.onInts l r = .error .undefined := by
  by_cases hzero : op = .divide ∧ r = 0
  · obtain ⟨rfl, rfl⟩ := hzero
    rfl
  · have hfits : ¬ FitsInt (op.exact l r) := fun hfits => h ⟨fun hop hr => hzero ⟨hop, hr⟩, hfits⟩
    cases op with
    | divide => exact (if_neg fun hr => hzero ⟨rfl, hr⟩).trans (if_neg hfits)
    | add => exact if_neg hfits
    | substract => exact if_neg hfits
    | star => exact if_neg hfits

end BinaryOperator

/-- What a node calculates; `applied` is the operator of the lambdas, if they can be called. -/
def exactBinary (applied : Option BinaryOperator) : Evaluated → Evaluated → Option Evaluated
  | .value (.int l), .value (.int r) => applied.map fun op => .value (.int (op.exact l r))
  | _, _ => none

def DefinedBinary (applied : Option BinaryOperator) : Evaluated → Evaluated → Prop
  | .value (.int l), .value (.int r) => ∃ op, applied = some op ∧ op.Defined l r
  | _, _ => True

def exactUnary : Evaluated → Option Evaluated
  | .value (.int n) => some (.value (.int (-n)))
  | _ => none

def DefinedUnary : Evaluated → Prop
  | .value (.int n) => FitsInt (-n)
  | _ => True

/-- What a select of several expressions takes. -/
def exactSingle : Evaluated → Option Value
  | .value v => some v
  | .vector _ => none

mutual

/-- The value of a tree of int literals without bounds; `none` when it throws. -/
def Exprs.exact (applied : Option BinaryOperator) : Exprs → Option Evaluated
  | .literalInt value => some (.value (.int value))
  | .unary _ rhs => (rhs.exact applied).bind exactUnary
  | .grouping expr => expr.exact applied
  | .binary lhs _ rhs =>
      (lhs.exact applied).bind fun l => (rhs.exact applied).bind (exactBinary applied l)
  | .select [expr] _ => expr.exact applied
  | .select innerExpr _ => (exactAll applied innerExpr).bind fun values => some (.vector values)
  | _ => none

def exactAll (applied : Option BinaryOperator) : List Exprs → Option (List Value)
  | [] => some []
  | expr :: rest =>
      (expr.exact applied).bind fun e => (exactSingle e).bind fun v =>
        (exactAll applied rest).bind fun values => some (v :: values)

end

mutual

/--
Up to the first exception, nothing in the calculation divides by zero or leaves
the range of `int`.
-/
def Exprs.InRange (applied : Option BinaryOperator) : Exprs → Prop
  | .unary _ rhs => rhs.InRange applied ∧ ∀ e, rhs.exact applied = some e → DefinedUnary e
  | .grouping expr => expr.InRange applied
  | .binary lhs _ rhs =>
      lhs.InRange applied ∧ ∀ l, lhs.exact applied = some l →
        rhs.InRange applied ∧ ∀ r, rhs.exact applied = some r → DefinedBinary applied l r
  | .select [expr] _ => expr.InRange applied
  | .select innerExpr _ => AllInRange applied innerExpr
  | _ => True

def AllInRange (applied : Option BinaryOperator) : List Exprs → Prop
  | [] => True
  | expr :: rest =>
      expr.InRange applied ∧ ∀ e, expr.exact applied = some e →
        ∀ v, exactSingle e = some v → AllInRange applied rest

end

mutual

/-- The binary operators, in the order in which their nodes are executed. -/
def Exprs.operators : Exprs → List BinaryOperator
  | .unary _ rhs => rhs.operators
  | .grouping expr => expr.operators
  | .binary lhs op rhs => lhs.operators ++ (rhs.operators ++ [op])
  | .select innerExpr _ => operatorsOfAll innerExpr
  | _ => []

def operatorsOfAll : List Exprs → List BinaryOperator
  | [] => []
  | expr :: rest => expr.operators ++ operatorsOfAll rest

end

/-- No literal of the expression is a string or a float. -/
inductive Exprs.OverInts : Exprs → Prop where
  | literalInt (value : Int) : OverInts (.literalInt value)
  | unary (op : UnaryOperator) {rhs : Exprs} (hrhs : OverInts rhs) : OverInts (.unary op rhs)
  | grouping {e : Exprs} (he : OverInts e) : OverInts (.grouping e)
  | binary {lhs rhs : Exprs} (op : BinaryOperator) (hlhs : OverInts lhs) (hrhs : OverInts rhs) :
      OverInts (.binary lhs op rhs)
  | select {innerExpr : List Exprs} (tblName : Text) (hinner : ∀ e ∈ innerExpr, OverInts e) :
      OverInts (.select innerExpr tblName)

/-- The operator that the binary nodes of the expression apply, if they can apply any. -/
def Process.applied (p : Process) (e : Exprs) : Option BinaryOperator :=
  match p.captured with
  | some (owner, c) => if owner ∈ p.destroyed then none else some c
  | none => e.operators.head?

/-! ## How executions end -/

/--
The program returns the value, or throws `std::invalid_argument` where there is
none, if it is defined; otherwise its behaviour is undefined.
-/
structure Ends {α : Type} (x : Prog Process α) (p : Process) (defined : Prop) (value : Option α)
    (After : Process → Prop) : Prop where
  returns : defined → ∀ a, value = some a → ∃ p', x p = .ok a p' ∧ After p'
  throws : defined → value = none → ∃ what p', x p = .error (.invalidArgument what) p'
  undefined : ¬ defined → ∃ p', x p = .error .undefined p'

namespace Ends

variable {α β : Type} {x : Prog Process α} {p : Process} {defined defined' : Prop}
  {value : Option α} {After : Process → Prop}

theorem ret {a : α} (h : After p) : Ends (pure a) p True (some a) After where
  returns _ b hb := by
    cases hb
    exact ⟨p, rfl, h⟩
  throws _ impossible := by cases impossible
  undefined hnot := absurd trivial hnot

theorem refuse {what : String} {p' : Process} (h : x p = .error (.invalidArgument what) p')
    (hdefined : defined) : Ends x p defined none After where
  returns _ b impossible := by cases impossible
  throws _ _ := ⟨what, p', h⟩
  undefined hnot := absurd hdefined hnot

/-- A pure calculation that may be undefined. -/
theorem lift {y : Except Failure α} {a : α} (hafter : After p) (hreturns : defined → y = .ok a)
    (hundefined : ¬ defined → y = .error .undefined) :
    Ends (liftPure y) p defined (some a) After where
  returns hdefined b hb := by
    cases hb
    rw [hreturns hdefined]
    exact ⟨p, rfl, hafter⟩
  throws _ impossible := by cases impossible
  undefined hnot := by
    rw [hundefined hnot]
    exact ⟨p, rfl⟩

/-- Only the outcome of the program matters. -/
theorem of_eval {y : Prog Process α} {q : Process} (heval : x p = y q)
    (h : Ends y q defined value After) : Ends x p defined value After := by
  refine ⟨fun hd a ha => ?_, fun hd hnone => ?_, fun hnot => ?_⟩
  · rw [heval]
    exact h.returns hd a ha
  · rw [heval]
    exact h.throws hd hnone
  · rw [heval]
    exact h.undefined hnot

theorem congr (h : Ends x p defined value After) (hiff : defined ↔ defined') :
    Ends x p defined' value After :=
  ⟨fun hd => h.returns (hiff.mpr hd), fun hd => h.throws (hiff.mpr hd),
    fun hnot => h.undefined (hiff.not.mpr hnot)⟩

/-- A sequence is defined when its first part is, and the second one on its value. -/
theorem bind {f : α → Prog Process β} {definedAt : α → Prop} {valueAt : α → Option β}
    {After' : Process → Prop} (hx : Ends x p defined value After)
    (hf : ∀ a p', value = some a → After p' → Ends (f a) p' (definedAt a) (valueAt a) After') :
    Ends (x >>= f) p (defined ∧ ∀ a, value = some a → definedAt a) (value.bind valueAt) After' := by
  by_cases hdefined : defined
  · cases hvalue : value with
    | none =>
        obtain ⟨what, p', hthrows⟩ := hx.throws hdefined hvalue
        exact .refuse (bind_of_error hthrows) ⟨hdefined, fun a impossible => by cases impossible⟩
    | some a =>
        obtain ⟨p', hreturns, hafter⟩ := hx.returns hdefined a hvalue
        have hrest := hf a p' hvalue hafter
        refine (hrest.of_eval (bind_of_ok hreturns)).congr ⟨fun hd => ⟨hdefined, ?_⟩, ?_⟩
        · rintro b ⟨⟩
          exact hd
        · exact fun hd => hd.2 a rfl
  · refine ⟨fun hd => absurd hd.1 hdefined, fun hd => absurd hd.1 hdefined, fun _ => ?_⟩
    obtain ⟨p', hundefined⟩ := hx.undefined hdefined
    exact ⟨p', bind_of_error hundefined⟩

end Ends

/-! ## Nodes -/

section Nodes

variable {tree : TreeId} {p : Process} {applied : Option BinaryOperator} {op : BinaryOperator}
  {rest : List BinaryOperator} {After : Process → Prop} {v l r : Evaluated}

/-- An int, or a vector of two values at least. -/
def Evaluated.OfInts : Evaluated → Prop
  | .value (.int _) => True
  | .value _ => False
  | .vector values => 2 ≤ values.length

theorem Evaluated.OfInts.proper (h : v.OfInts) : v.Proper := by
  match v, h with
  | .value (.int _), _ => trivial
  | .vector _, hseveral => exact hseveral

theorem ends_singleValue (hints : v.OfInts) (hafter : After p) :
    Ends (liftPure (singleValue v)) p True (exactSingle v) After := by
  match v, hints with
  | .value (.int n), _ => exact .lift hafter (fun _ => rfl) fun hnot => absurd trivial hnot
  | .vector (first :: second :: others), _ =>
      have hrefuses : liftPure (singleValue (.vector (first :: second :: others))) p =
          .error (.invalidArgument "An expression cannot return more than 1 value!") p := rfl
      exact .refuse hrefuses trivial

/--
The next binary node, whose operator is the first of the list, and those behind
it can rely on the operator of the lambdas.
-/
def Process.Ready (p : Process) (tree : TreeId) (applied : Option BinaryOperator)
    (ops : List BinaryOperator) : Prop :=
  match p.captured with
  | some (owner, c) => applied = if owner ∈ p.destroyed then none else some c
  | none => tree ∉ p.destroyed ∧ ∀ op, ops.head? = some op → applied = some op

theorem Process.ready_applied {e : Exprs} (halive : tree ∉ p.destroyed) :
    p.Ready tree (p.applied e) e.operators := by
  unfold Process.Ready Process.applied
  cases p.captured with
  | none => exact ⟨halive, fun op hop => hop⟩
  | some kept => rfl

/-- With the lambdas made, all that is left to a node is their operator. -/
theorem Process.Ready.initialized (h : p.Ready tree applied (op :: rest)) :
    ∃ p' owner c, initializeStatics tree op p = .ok () p' ∧ p'.captured = some (owner, c) ∧
      applied = if owner ∈ p'.destroyed then none else some c := by
  unfold Process.Ready at h
  cases hcaptured : p.captured with
  | some kept =>
      rw [hcaptured] at h
      exact ⟨p, kept.1, kept.2, initializeStatics_of_captured hcaptured, hcaptured, h⟩
  | none =>
      rw [hcaptured] at h
      refine ⟨_, tree, op, initializeStatics_of_none hcaptured, rfl, ?_⟩
      rw [if_neg h.1]
      exact h.2 op rfl

theorem Process.ready_of_captured {owner : TreeId} {c : BinaryOperator}
    (hcaptured : p.captured = some (owner, c))
    (happlied : applied = if owner ∈ p.destroyed then none else some c)
    (ops : List BinaryOperator) : p.Ready tree applied ops := by
  unfold Process.Ready
  rw [hcaptured]
  exact happlied

variable [FloatUnit]

theorem ends_unarySolve (hints : v.OfInts) (hafter : After p) :
    Ends (liftPure (unarySolve v)) p (DefinedUnary v) (exactUnary v) After := by
  match v, hints with
  | .value (.int n), _ =>
      refine .lift hafter (fun hfits => ?_) fun hnot => ?_
      · simp only [unarySolve, negateValue, intResult, if_pos (show FitsInt (-n) from hfits)]
        rfl
      · simp only [unarySolve, negateValue, intResult, if_neg (show ¬ FitsInt (-n) from hnot)]
        rfl
  | .vector values, hseveral =>
      rcases unarySolve_cases (v := .vector values) hseveral with
        ⟨impossible, _⟩ | ⟨_, what, hthrows⟩
      · exact impossible.elim
      · have hrefuses : liftPure (unarySolve (.vector values)) p =
            .error (.invalidArgument what) p := by
          rw [hthrows]
          rfl
        exact .refuse hrefuses trivial

theorem ends_solveInts {owner : TreeId} {c : BinaryOperator}
    (hcaptured : p.captured = some (owner, c))
    (happlied : applied = if owner ∈ p.destroyed then none else some c) (hafter : After p)
    (a b : Int) :
    Ends (solveValues (.value (.int a)) (.value (.int b))) p
      (DefinedBinary applied (.value (.int a)) (.value (.int b)))
      (exactBinary applied (.value (.int a)) (.value (.int b))) After := by
  by_cases hdestroyed : owner ∈ p.destroyed
  · rw [if_pos hdestroyed] at happlied
    subst happlied
    refine ⟨fun hd => ?_, fun hd => ?_, fun _ => ?_⟩
    · obtain ⟨op, impossible, _⟩ := hd
      cases impossible
    · obtain ⟨op, impossible, _⟩ := hd
      cases impossible
    · exact ⟨p, bind_of_error (capturedOperator_of_destroyed hcaptured hdestroyed)⟩
  · rw [if_neg hdestroyed] at happlied
    subst happlied
    have heval := solveValues_ints hcaptured hdestroyed a b
    have hiff : DefinedBinary (some c) (.value (.int a)) (.value (.int b)) ↔ c.Defined a b := by
      constructor
      · rintro ⟨_, ⟨⟩, h⟩
        exact h
      · exact fun h => ⟨c, rfl, h⟩
    refine ⟨fun hd v hv => ?_, fun _ impossible => ?_, fun hnot => ?_⟩
    · cases hv
      rw [BinaryOperator.onInts_of_defined (hiff.mp hd)] at heval
      exact ⟨p, heval, hafter⟩
    · cases impossible
    · rw [BinaryOperator.onInts_of_not_defined (hiff.not.mp hnot)] at heval
      exact ⟨p, heval⟩

theorem ends_binarySolve (hready : p.Ready tree applied (op :: rest)) (hl : l.OfInts)
    (hr : r.OfInts) :
    Ends (binarySolve tree op l r) p (DefinedBinary applied l r) (exactBinary applied l r)
      fun p' => p'.Ready tree applied rest := by
  have hrefuses : ∀ l r : Evaluated, l.Proper → r.Proper → ¬ (l.IsNumber ∧ r.IsNumber) →
      Refuses p (binarySolve tree op l r) := by
    intro l r hl hr hnot
    rcases solveValues_cases hl hr with ⟨hlnumber, hrnumber, _⟩ | ⟨_, hthrows⟩
    · exact absurd ⟨hlnumber, hrnumber⟩ hnot
    · exact binarySolve_refuses tree op hthrows p
  match l, r, hl, hr with
  | .value (.int a), .value (.int b), _, _ =>
      obtain ⟨p', owner, c, hinitialized, hcaptured, happlied⟩ := hready.initialized
      have hafter : p'.Ready tree applied rest := p'.ready_of_captured hcaptured happlied rest
      exact .of_eval (bind_of_ok hinitialized) (ends_solveInts hcaptured happlied hafter a b)
  | .value (.int a), .vector values, hl, hr =>
      obtain ⟨what, p', hthrows⟩ := hrefuses _ _ hl.proper hr.proper fun h => h.2
      exact .refuse hthrows trivial
  | .vector values, .value (.int b), hl, hr =>
      obtain ⟨what, p', hthrows⟩ := hrefuses _ _ hl.proper hr.proper fun h => h.1
      exact .refuse hthrows trivial
  | .vector values, .vector others, hl, hr =>
      obtain ⟨what, p', hthrows⟩ := hrefuses _ _ hl.proper hr.proper fun h => h.1
      exact .refuse hthrows trivial

end Nodes

/-! ## Trees -/

section Trees

variable {applied : Option BinaryOperator} {e : Exprs} {es : List Exprs}

theorem length_of_exactAll {values : List Value} (h : exactAll applied es = some values) :
    values.length = es.length := by
  induction es generalizing values with
  | nil =>
      cases h
      rfl
  | cons first rest ih =>
      obtain ⟨v, _, h⟩ := Option.bind_eq_some_iff.mp h
      obtain ⟨value, _, h⟩ := Option.bind_eq_some_iff.mp h
      obtain ⟨others, hothers, h⟩ := Option.bind_eq_some_iff.mp h
      cases h
      rw [List.length_cons, List.length_cons, ih hothers]

theorem exactUnary_ofInts {v w : Evaluated} (h : exactUnary v = some w) : w.OfInts := by
  match v, h with
  | .value (.int n), rfl => trivial

theorem exactBinary_ofInts {l r w : Evaluated} (h : exactBinary applied l r = some w) :
    w.OfInts := by
  match l, r, h with
  | .value (.int a), .value (.int b), h =>
      obtain ⟨op, _, rfl⟩ := Option.map_eq_some_iff.mp h
      trivial

theorem exact_several (applied : Option BinaryOperator) (h : 2 ≤ es.length) (tblName : Text) :
    (Exprs.select es tblName).exact applied =
        (exactAll applied es).bind (fun values => some (.vector values)) ∧
      ((Exprs.select es tblName).InRange applied ↔ AllInRange applied es) := by
  match es, h with
  | _ :: _ :: _, _ => exact ⟨by rw [Exprs.exact]; nofun, by rw [Exprs.InRange]; nofun⟩

/-- The value of a tree of int literals is an int or a vector of several. -/
theorem Exprs.Formed.ofInts (h : e.Formed) {v : Evaluated} (hv : e.exact applied = some v) :
    v.OfInts := by
  induction h generalizing v with
  | literalInt value =>
      cases hv
      trivial
  | literalReal value => cases hv
  | literalString value isIdentifier => cases hv
  | unary op _ _ =>
      obtain ⟨w, _, hw⟩ := Option.bind_eq_some_iff.mp hv
      exact exactUnary_ofInts hw
  | grouping _ ih => exact ih hv
  | binary op _ _ _ _ =>
      obtain ⟨l, _, hv⟩ := Option.bind_eq_some_iff.mp hv
      obtain ⟨r, _, hv⟩ := Option.bind_eq_some_iff.mp hv
      exact exactBinary_ofInts hv
  | createTbl statement => cases hv
  | insert statement => cases hv
  | @select innerExpr tblName hne hinner ih =>
      match innerExpr, hne with
      | [e], _ => exact ih e (List.mem_singleton_self e) hv
      | first :: second :: rest, _ =>
          rw [(exact_several applied (by simp) tblName).1] at hv
          obtain ⟨values, hvalues, hv⟩ := Option.bind_eq_some_iff.mp hv
          cases hv
          have hlength := length_of_exactAll hvalues
          exact Nat.le_trans (by simp) (Nat.le_of_eq hlength.symm)

variable [FloatUnit] {tree : TreeId}

/-- The execution of the expression ends as its calculation without bounds. -/
def EndsExactly (tree : TreeId) (applied : Option BinaryOperator) (e : Exprs) : Prop :=
  ∀ p rest, Process.Ready p tree applied (e.operators ++ rest) →
    Ends (e.execute tree) p (e.InRange applied) (e.exact applied) fun p' =>
      p'.Ready tree applied rest

theorem endsAll (hes : ∀ e ∈ es, e.Formed) (h : ∀ e ∈ es, EndsExactly tree applied e)
    {p : Process} {rest : List BinaryOperator}
    (hready : p.Ready tree applied (operatorsOfAll es ++ rest)) :
    Ends (executeAll (fun name => return .value (.text name)) tree es) p (AllInRange applied es)
      (exactAll applied es) fun p' => p'.Ready tree applied rest := by
  induction es generalizing p with
  | nil => exact .ret hready
  | cons first others ih =>
      obtain ⟨hfirst, hothers⟩ := List.forall_mem_cons.mp h
      obtain ⟨hformed, hformeds⟩ := List.forall_mem_cons.mp hes
      rw [operatorsOfAll, List.append_assoc] at hready
      refine (Ends.bind (hfirst p _ hready) fun v p' hv hp' =>
        (ends_singleValue (hformed.ofInts hv) hp').bind fun w p'' _ hp'' =>
          (ih hformeds hothers hp'').bind fun values q _ hq => .ret hq).congr ?_
      simp only [AllInRange, true_and, implies_true, and_true]

/-- One case for each kind of node; a select is that of its only expression, or of all. -/
theorem Exprs.Formed.endsExactly (h : e.Formed) (hints : e.OverInts) :
    EndsExactly tree applied e := by
  induction h with
  | literalInt value => exact fun p rest hready => .ret hready
  | literalReal value => cases hints
  | literalString value isIdentifier => cases hints
  | unary op hrhs ih =>
      cases hints with
      | unary _ hints =>
          intro p rest hready
          exact (ih hints p rest hready).bind fun v p' hv hp' =>
            ends_unarySolve (hrhs.ofInts hv) hp'
  | grouping _ ih =>
      cases hints with
      | grouping hints => exact ih hints
  | binary op hlhs hrhs ihl ihr =>
      cases hints with
      | binary _ hl hr =>
          intro p rest hready
          rw [Exprs.operators, List.append_assoc, List.append_assoc] at hready
          exact (ihl hl p _ hready).bind fun l p' hl' hp' => (ihr hr p' _ hp').bind
            fun r p'' hr' hp'' => ends_binarySolve hp'' (hlhs.ofInts hl') (hrhs.ofInts hr')
  | createTbl statement => cases hints
  | insert statement => cases hints
  | @select innerExpr tblName hne hinner ih =>
      cases hints with
      | select _ hints =>
          intro p rest hready
          match innerExpr, hne with
          | [e], _ =>
              rw [Exprs.operators, operatorsOfAll, operatorsOfAll, List.append_nil] at hready
              exact ih e (List.mem_singleton_self e) (hints e (List.mem_singleton_self e)) p rest
                hready
          | first :: second :: others, _ =>
              have hseveral : 2 ≤ (first :: second :: others).length := by simp
              obtain ⟨hexact, hinRange⟩ := exact_several applied hseveral tblName
              have hall := endsAll hinner (fun e he => ih e he (hints e he)) hready
              rw [hexact, Exprs.execute, executeWith_several hseveral]
              refine (hall.bind fun values p' _ hp' => .ret hp').congr ?_
              rw [hinRange]
              simp only [implies_true, and_true]

/--
The execution of a tree of int literals returns or throws exactly when nothing
in its calculation divides by zero or leaves the range of `int`.
-/
theorem execute_defined_iff {tokens left : List Token}
    (hparse : Parser.parse tokens = .ok e left) (hints : e.OverInts) {p : Process}
    (halive : tree ∉ p.destroyed) :
    (∃ p', Leaves (e.execute tree) p p') ↔ e.InRange (p.applied e) := by
  have hready : p.Ready tree (p.applied e) (e.operators ++ []) := by
    rw [List.append_nil]
    exact Process.ready_applied halive
  have hends := (Parser.formed_of_parse hparse).endsExactly hints p [] hready
  constructor
  · rintro ⟨p', hleaves⟩
    by_contra hnot
    obtain ⟨q, hundefined⟩ := hends.undefined hnot
    cases (hleaves.eq_of_error hundefined).2
  · intro hinRange
    cases hvalue : e.exact (p.applied e) with
    | none =>
        obtain ⟨what, p', hthrows⟩ := hends.throws hinRange hvalue
        exact ⟨p', .inr ⟨_, rfl, hthrows⟩⟩
    | some v =>
        obtain ⟨p', hreturns, _⟩ := hends.returns hinRange v hvalue
        exact ⟨p', .inl ⟨v, hreturns⟩⟩

end Trees

/-- `select l / r` -/
def selectQuotient (l r : Text) : List Token :=
  [⟨.select, [], []⟩, ⟨.integer, l, []⟩, ⟨.divide, [], []⟩, ⟨.integer, r, []⟩]

/-- `select 8 / 2` -/
theorem quotient_defined : ∃ e, @Parser.parse .binary32 (selectQuotient ['8'] ['2']) = .ok e [] ∧
    ∃ p', Leaves (@Exprs.execute .binary32 0 e) {} p' := by
  let unit := FloatUnit.binary32
  have hparse : Parser.parse (selectQuotient ['8'] ['2']) =
      .ok (.select [.binary (.literalInt 8) .divide (.literalInt 2)] []) [] := rfl
  have hints : (Exprs.select [.binary (.literalInt 8) .divide (.literalInt 2)] []).OverInts :=
    .select [] (List.forall_mem_singleton.mpr (.binary .divide (.literalInt 8) (.literalInt 2)))
  refine ⟨_, hparse, (execute_defined_iff hparse hints List.not_mem_nil).mpr ⟨trivial, ?_⟩⟩
  rintro l ⟨⟩
  refine ⟨trivial, ?_⟩
  rintro r ⟨⟩
  exact ⟨.divide, rfl, by decide⟩

/-- `select 1 / 0` neither returns nor throws. -/
theorem division_by_zero_undefined : ¬ ∀ (_ : FloatUnit) (tokens left : List Token) (e : Exprs),
    Parser.parse tokens = .ok e left → e.OverInts → ∀ (p : Process) (tree : TreeId),
      tree ∉ p.destroyed → ∃ p', Leaves (e.execute tree) p p' := by
  intro h
  let unit := FloatUnit.binary32
  have hparse : Parser.parse (selectQuotient ['1'] ['0']) =
      .ok (.select [.binary (.literalInt 1) .divide (.literalInt 0)] []) [] := rfl
  have hints : (Exprs.select [.binary (.literalInt 1) .divide (.literalInt 0)] []).OverInts :=
    .select [] (List.forall_mem_singleton.mpr (.binary .divide (.literalInt 1) (.literalInt 0)))
  have hundefined :
      (Exprs.select [.binary (.literalInt 1) .divide (.literalInt 0)] []).execute 0 {} =
        .error .undefined { captured := some (0, .divide) } := rfl
  exact not_leaves_of_error hundefined rfl (h unit _ _ _ hparse hints {} 0 List.not_mem_nil)

end HiveDb
