import HiveDb.Lib.Run
import HiveDb.Parser.Arithmetic

/-!
# The node that the static lambdas have kept

The first binary node that is solved in a process decides for all later ones:
they apply its operator, not their own.  An expression is therefore evaluated
by its own operators, whatever its literals are, exactly when they all are the
operator of that node and the node still exists.
-/

namespace HiveDb

open HiveDb.Lib

/-! ## Solving one node -/

section Solving

variable {p : Process} {tree owner : TreeId} {c op : BinaryOperator}

theorem initializeStatics_of_captured (hcaptured : p.captured = some (owner, c)) :
    initializeStatics tree op p = .ok () p := by
  obtain ⟨captured, destroyed, lookups, printed⟩ := p
  cases hcaptured
  rfl

theorem initializeStatics_of_none (hnone : p.captured = none) :
    initializeStatics tree op p = .ok () { p with captured := some (tree, op) } := by
  obtain ⟨captured, destroyed, lookups, printed⟩ := p
  cases hnone
  rfl

theorem capturedOperator_of_alive (hcaptured : p.captured = some (owner, c))
    (halive : owner ∉ p.destroyed) : capturedOperator p = .ok c p := by
  simp [capturedOperator, bind_apply, hcaptured, halive]

theorem capturedOperator_of_destroyed (hcaptured : p.captured = some (owner, c))
    (hdestroyed : owner ∈ p.destroyed) : capturedOperator p = .error .undefined p := by
  simp [capturedOperator, bind_apply, hcaptured, hdestroyed]
  rfl

/-- What the outcome of a calculation is as the outcome of a program that changes nothing. -/
def intOutcome (p : Process) : Except Failure Int → EStateM.Result Failure Process Evaluated
  | .ok n => .ok (.value (.int n)) p
  | .error failure => .error failure p

theorem resultOf_bind_of_outcome {x : Prog Process Evaluated}
    {f : Evaluated → Prog Process Evaluated} {outcome : Except Failure Int}
    (hx : x p = intOutcome p outcome) (hf : ∀ n, resultOf (f (.value (.int n)) p) = none) :
    resultOf ((x >>= f) p) = none := by
  cases outcome with
  | error failure => exact congrArg resultOf (bind_of_error hx)
  | ok n => exact (congrArg resultOf (bind_of_ok hx)).trans (hf n)

/-- A program returns the same from both states. -/
def SameReturns (x : Prog Process Evaluated) (p q : Process) : Prop :=
  ∀ v p', x p = .ok v p' ↔ x q = .ok v p'

theorem SameReturns.bind {x : Prog Process Evaluated} {f : Evaluated → Prog Process Evaluated}
    {q : Process} (h : SameReturns x p q) : SameReturns (x >>= f) p q := by
  intro v p'
  simp only [bind_eq_ok_iff, h _ _]

theorem SameReturns.of_outcome {x : Prog Process Evaluated}
    {f : Evaluated → Prog Process Evaluated} {q : Process} {outcome : Except Failure Int}
    (hp : x p = intOutcome p outcome) (hq : x q = intOutcome q outcome)
    (h : ∀ n, SameReturns (f (.value (.int n))) p q) : SameReturns (x >>= f) p q := by
  intro v p'
  cases outcome with
  | error failure =>
      rw [bind_of_error hp, bind_of_error hq]
      simp
  | ok n =>
      rw [bind_of_ok hp, bind_of_ok hq]
      exact h n v p'

theorem SameReturns.resultOf_iff {x : Prog Process Evaluated} {q : Process}
    (h : SameReturns x p q) (v : Evaluated) :
    resultOf (x p) = some v ↔ resultOf (x q) = some v := by
  constructor
  · intro hp
    rw [(h v _).mp (eq_ok_of_resultOf hp)]
    rfl
  · intro hq
    rw [(h v _).mpr (eq_ok_of_resultOf hq)]
    rfl

variable [FloatUnit]

theorem solveValues_ints (hcaptured : p.captured = some (owner, c))
    (halive : owner ∉ p.destroyed) (a b : Int) :
    solveValues (.value (.int a)) (.value (.int b)) p = intOutcome p (c.onInts a b) := by
  refine (bind_of_ok (capturedOperator_of_alive hcaptured halive)).trans ?_
  simp only [BinaryOperator.onValues]
  cases c.onInts a b <;> rfl

end Solving

/-! ## One evaluation -/

namespace Arith

variable [FloatUnit] {p : Process} {tree owner : TreeId} {c op : BinaryOperator}
variable {e l r : Arith IntLiteral}

theorem execute_negate {outcome : Except Failure Int}
    (h : e.expr.execute tree p = intOutcome p outcome) :
    (Arith.negate e).expr.execute tree p = intOutcome p (do let n ← outcome; intResult (-n)) := by
  cases outcome with
  | error failure => exact bind_of_error h
  | ok n =>
      refine (bind_of_ok h).trans ?_
      simp only [unarySolve, negateValue, intResult, ok_bind]
      split <;> rfl

/-- A binary node whose operator comes from the node that the lambdas have kept. -/
theorem execute_binary {outcomeL outcomeR : Except Failure Int}
    (hl : l.expr.execute tree p = intOutcome p outcomeL)
    (hr : r.expr.execute tree p = intOutcome p outcomeR)
    (hcaptured : p.captured = some (owner, c)) (halive : owner ∉ p.destroyed) :
    (Arith.binary l op r).expr.execute tree p =
      intOutcome p (do let a ← outcomeL; let b ← outcomeR; c.onInts a b) := by
  cases outcomeL with
  | error failure => exact bind_of_error hl
  | ok a =>
      refine (bind_of_ok hl).trans ?_
      cases outcomeR with
      | error failure => exact bind_of_error hr
      | ok b =>
          refine (bind_of_ok hr).trans ?_
          refine (bind_of_ok (initializeStatics_of_captured hcaptured)).trans ?_
          exact solveValues_ints hcaptured halive a b

/--
A tree without binary operators, and any tree beside a node that the lambdas
have kept, evaluates with that node's operator.
-/
theorem execute_eq (e : Arith IntLiteral)
    (h : e.operators ≠ [] → ∃ owner, p.captured = some (owner, c) ∧ owner ∉ p.destroyed) :
    e.expr.execute tree p = intOutcome p (e.valueWith c) := by
  induction e with
  | literal n => rfl
  | negate e ih => exact execute_negate (ih h)
  | grouping e ih => exact ih h
  | binary l op r ihl ihr =>
      obtain ⟨owner, hcaptured, halive⟩ := h (by simp [operators])
      exact execute_binary (ihl fun _ => ⟨owner, hcaptured, halive⟩)
        (ihr fun _ => ⟨owner, hcaptured, halive⟩) hcaptured halive

/-- A tree without binary operators does not look at the node that is kept. -/
theorem execute_of_no_operators (e : Arith IntLiteral) (h : e.operators = []) :
    e.expr.execute tree p = intOutcome p e.value := by
  rw [execute_eq (c := .add) e fun hne => absurd h hne]
  rw [valueWith_eq_value (by simp [h])]

/-- Beside a node that has been destroyed no binary node is evaluated. -/
theorem execute_dangling (hcaptured : p.captured = some (owner, c))
    (hdestroyed : owner ∈ p.destroyed) (e : Arith IntLiteral) (hoperators : e.operators ≠ []) :
    resultOf (e.expr.execute tree p) = none := by
  induction e with
  | literal n => exact absurd rfl hoperators
  | negate e ih => exact resultOf_bind_of_none (ih hoperators)
  | grouping e ih => exact ih hoperators
  | binary l op r ihl ihr =>
      by_cases hl : l.operators = []
      · refine resultOf_bind_of_outcome (execute_of_no_operators l hl) fun a => ?_
        by_cases hr : r.operators = []
        · refine resultOf_bind_of_outcome (execute_of_no_operators r hr) fun b => ?_
          refine (congrArg resultOf (bind_of_ok (initializeStatics_of_captured hcaptured))).trans ?_
          exact congrArg resultOf
            (bind_of_error (capturedOperator_of_destroyed hcaptured hdestroyed))
        · exact resultOf_bind_of_none (ihr hr)
      · exact resultOf_bind_of_none (ihl hl)

/-- Where no node is kept yet, the first binary node of the tree will be. -/
theorem execute_first (hnone : p.captured = none) (e : Arith IntLiteral)
    (hfirst : e.operators.head? = some c) :
    SameReturns (e.expr.execute tree) p { p with captured := some (tree, c) } := by
  induction e with
  | literal n => cases hfirst
  | negate e ih => exact SameReturns.bind (ih hfirst)
  | grouping e ih => exact ih hfirst
  | binary l op r ihl ihr =>
      by_cases hl : l.operators = []
      · refine SameReturns.of_outcome (execute_of_no_operators l hl)
          (execute_of_no_operators l hl) fun a => ?_
        by_cases hr : r.operators = []
        · refine SameReturns.of_outcome (execute_of_no_operators r hr)
            (execute_of_no_operators r hr) fun b => ?_
          obtain rfl : op = c := by simpa [operators, hl, hr] using hfirst
          intro v p'
          rw [binarySolve, bind_of_ok (initializeStatics_of_none hnone),
            bind_of_ok (initializeStatics_of_captured rfl)]
        · refine SameReturns.bind (ihr ?_)
          obtain ⟨first, rest, hr⟩ := List.exists_cons_of_ne_nil hr
          simpa [operators, hl, hr] using hfirst
      · refine SameReturns.bind (ihl ?_)
        obtain ⟨first, rest, hl⟩ := List.exists_cons_of_ne_nil hl
        simpa [operators, hl] using hfirst

end Arith

/-! ## All expressions of a shape -/

/--
Every binary operator of the shape is the one that the lambdas will apply: that
of the kept node, as long as it exists, or that of the first node of the shape.
-/
def Process.Applies (p : Process) (s : Shape) : Prop :=
  match p.captured with
  | some (owner, c) => s.operators = [] ∨ owner ∉ p.destroyed ∧ Arith.AllOf c s
  | none => ∀ c, s.operators.head? = some c → Arith.AllOf c s

namespace Arith

variable [FloatUnit] {p : Process} {tree owner : TreeId} {c : BinaryOperator} {s : Shape}

/-- Executed by the tree, every expression of the shape that has a value evaluates to it. -/
def Compositional (p : Process) (tree : TreeId) (s : Shape) : Prop :=
  ∀ e : Arith IntLiteral, e.shape = s → ∀ n, e.value = .ok n →
    resultOf (e.expr.execute tree p) = some (.value (.int n))

/-- Beside a kept node all expressions of a shape are evaluated by its operator. -/
theorem allOf_of_compositional (hcaptured : p.captured = some (owner, c))
    (halive : owner ∉ p.destroyed) (h : Compositional p tree s) : AllOf c s := by
  by_contra hwrong
  obtain ⟨w, ⟨e, hshape, hvalue, hwith⟩, hne⟩ := differs_of_wrong c hwrong
  have hresult := h e hshape 2 hvalue
  rw [execute_eq e fun _ => ⟨owner, hcaptured, halive⟩, hwith] at hresult
  cases w with
  | error failure => cases hresult
  | ok n =>
      cases hresult
      exact hne rfl

theorem compositional_of_allOf (hcaptured : p.captured = some (owner, c))
    (halive : owner ∉ p.destroyed) (h : AllOf c s) : Compositional p tree s := by
  rintro e rfl n hvalue
  have hown : e.valueWith c = e.value := valueWith_eq_value (by simpa [AllOf] using h)
  rw [execute_eq e fun _ => ⟨owner, hcaptured, halive⟩, hown, hvalue]
  rfl

theorem compositional_of_no_operators (h : s.operators = []) : Compositional p tree s := by
  rintro e rfl n hvalue
  rw [execute_of_no_operators e (by simpa using h), hvalue]
  rfl

/-- Where no node is kept yet, it makes no difference to have kept the first one already. -/
theorem compositional_first (hnone : p.captured = none) (hfirst : s.operators.head? = some c) :
    Compositional p tree s ↔ Compositional { p with captured := some (tree, c) } tree s := by
  refine forall₂_congr fun e hshape => forall₂_congr fun n _ => ?_
  have he : e.operators.head? = some c := by
    rw [← operators_shape, hshape]
    exact hfirst
  exact SameReturns.resultOf_iff (execute_first hnone e he) _

/--
In every process, an expression evaluates by its own operators for all literals
for which it has a value exactly when the lambdas apply these operators.
-/
theorem compositional_iff (p : Process) (tree : TreeId) (halive : tree ∉ p.destroyed)
    (s : Shape) : Compositional p tree s ↔ p.Applies s := by
  unfold Process.Applies
  cases hcaptured : p.captured with
  | none =>
      constructor
      · intro h c hfirst
        have hkept := (compositional_first hcaptured hfirst).mp h
        exact allOf_of_compositional (p := { p with captured := some (tree, c) }) rfl halive hkept
      · intro h
        cases hfirst : s.operators.head? with
        | none => exact compositional_of_no_operators (List.head?_eq_none_iff.mp hfirst)
        | some c =>
            exact (compositional_first hcaptured hfirst).mpr
              (compositional_of_allOf (p := { p with captured := some (tree, c) }) rfl halive
                (h c hfirst))
  | some kept =>
      obtain ⟨owner, c⟩ := kept
      constructor
      · intro h
        refine or_iff_not_imp_left.mpr fun hoperators => ?_
        have hexists : owner ∉ p.destroyed := by
          intro hdestroyed
          obtain ⟨_, e, rfl, hvalue, _⟩ := exists_yields c s (v := 2) (by decide)
          have hresult := h e rfl 2 hvalue
          rw [execute_dangling hcaptured hdestroyed e (by simpa using hoperators)] at hresult
          cases hresult
        exact ⟨hexists, allOf_of_compositional hcaptured hexists h⟩
      · rintro (hoperators | ⟨hexists, hall⟩)
        · exact compositional_of_no_operators hoperators
        · exact compositional_of_allOf hcaptured hexists hall

end Arith

/-! ## Histories of a process -/

/-- A program that leaves the node alone that is kept when it starts. -/
def KeepsNode {α : Type} (x : Prog Process α) : Prop :=
  ∀ p kept, p.captured = some kept → (stateOf (x p)).captured = some kept

namespace KeepsNode

variable {α β : Type}

theorem ret (a : α) : KeepsNode (pure a) := fun _ _ h => h

theorem fail (failure : Failure) : KeepsNode (throw failure : Prog Process α) := fun _ _ h => h

theorem lift (x : Except Failure α) : KeepsNode (liftPure x) := by
  intro p kept h
  cases x <;> exact h

theorem leaves {x : Prog Process α} {p p' : Process} {kept : TreeId × BinaryOperator}
    (h : KeepsNode x) (hleaves : Leaves x p p') (hkept : p.captured = some kept) :
    p'.captured = some kept := by
  have hstate := h p kept hkept
  rcases hleaves with ⟨a, hrun⟩ | ⟨failure, _, hrun⟩
  · rwa [hrun] at hstate
  · rwa [hrun] at hstate

theorem bind {x : Prog Process α} {f : α → Prog Process β} (hx : KeepsNode x)
    (hf : ∀ a, KeepsNode (f a)) : KeepsNode (x >>= f) := by
  intro p kept h
  have hfirst := hx p kept h
  rw [bind_apply]
  cases hrun : x p with
  | ok a p' =>
      rw [hrun] at hfirst
      exact hf a p' kept hfirst
  | error failure p' =>
      rw [hrun] at hfirst
      exact hfirst

theorem capturedOperator : KeepsNode capturedOperator := by
  intro p kept h
  simp only [HiveDb.capturedOperator, bind_apply, get_apply, h]
  split <;> exact h

theorem initializeStatics (tree : TreeId) (op : BinaryOperator) :
    KeepsNode (initializeStatics tree op) := by
  intro p kept h
  simp only [HiveDb.initializeStatics, modify_apply, stateOf, h, Option.some_or]

theorem columnInRow (data : List Cell) (heap : Heap) (fetchedData : FetchedDataMap) (idx : Nat)
    (name : Text) : KeepsNode (columnInRow data heap fetchedData idx name) := by
  refine bind (fun p kept h => h) fun _ => ?_
  split
  · exact (lift _).bind fun v => ret _
  · exact fail _

variable [FloatUnit]

theorem apply (l r : Value) (g : Value → Evaluated) : KeepsNode (do
    let op ← HiveDb.capturedOperator
    let v ← liftPure (op.onValues l r)
    return g v) :=
  capturedOperator.bind fun op => (lift (op.onValues l r)).bind fun v => ret (g v)

theorem solveValues (l r : Evaluated) : KeepsNode (solveValues l r) := by
  unfold HiveDb.solveValues
  repeat' split
  all_goals first
    | exact fail _
    | exact apply _ _ _

theorem binarySolve (tree : TreeId) (op : BinaryOperator) (l r : Evaluated) :
    KeepsNode (binarySolve tree op l r) :=
  (initializeStatics tree op).bind fun _ => solveValues l r

theorem executeWith {column : Text → Prog Process Evaluated}
    (hcolumn : ∀ name, KeepsNode (column name)) (tree : TreeId) (e : Exprs) :
    KeepsNode (e.executeWith column tree) :=
  executeWith_of_parts ret bind hcolumn (fail _) (fun _ => lift _) (binarySolve tree)
    (fun _ => lift _) e

end KeepsNode

section Histories

variable [FloatUnit]

/-- What a process does with the expressions that it has parsed. -/
inductive ProcessAct where
  | execute (tree : TreeId) (e : Exprs)
  | executeInRow (data : List Cell) (heap : Heap) (fetchedData : FetchedDataMap) (idx : Nat)
      (tree : TreeId) (e : Exprs)
  | destroy (tree : TreeId)

inductive Process.Step : Process → ProcessAct → Process → Prop where
  | execute {p p' : Process} {tree : TreeId} {e : Exprs} (halive : tree ∉ p.destroyed)
      (h : Leaves (e.execute tree) p p') : Step p (.execute tree e) p'
  | executeInRow {p p' : Process} {data : List Cell} {heap : Heap} {fetchedData : FetchedDataMap}
      {idx : Nat} {tree : TreeId} {e : Exprs} (halive : tree ∉ p.destroyed)
      (h : Leaves (e.executeInRow data heap fetchedData idx tree) p p') :
      Step p (.executeInRow data heap fetchedData idx tree e) p'
  | destroy {p : Process} {tree : TreeId} :
      Step p (.destroy tree) { p with destroyed := tree :: p.destroyed }

variable {p p' : Process} {kept : TreeId × BinaryOperator}

theorem Process.Step.keeps {act : ProcessAct} (hstep : Step p act p')
    (hkept : p.captured = some kept) : p'.captured = some kept := by
  cases hstep with
  | execute halive h => exact (KeepsNode.executeWith (fun _ => KeepsNode.ret _) _ _).leaves h hkept
  | executeInRow halive h =>
      exact (KeepsNode.executeWith (KeepsNode.columnInRow _ _ _ _) _ _).leaves h hkept
  | destroy => exact hkept

/-- The first binary node that is solved is kept for the rest of the process. -/
theorem Process.keeps_run {acts : List ProcessAct} (hrun : Run Process.Step p acts p')
    (hkept : p.captured = some kept) : p'.captured = some kept :=
  hrun.invariant (fun _ q => q.captured = some kept) hkept fun _ _ _ _ h hstep => hstep.keeps h

end Histories

/-! ## A history that makes a product a sum -/

def onePlusOne : Arith IntLiteral :=
  .binary (.literal ⟨1, by decide⟩) .add (.literal ⟨1, by decide⟩)

def twoTimesThree : Arith IntLiteral :=
  .binary (.literal ⟨2, by decide⟩) .star (.literal ⟨3, by decide⟩)

/-- After `1 + 1` the second expression, `2 * 3`, evaluates to 5. -/
theorem product_after_sum : ¬ ∀ (_ : FloatUnit) (acts : List ProcessAct) (p : Process),
    Run Process.Step {} acts p → ∀ tree, tree ∉ p.destroyed → ∀ (e : Arith IntLiteral) (n : Int),
      e.value = .ok n → resultOf (e.expr.execute tree p) = some (.value (.int n)) := by
  intro h
  let unit := FloatUnit.binary32
  let after : Process := { captured := some (0, .add) }
  have hsum : Process.Step {} (.execute 0 onePlusOne.expr) after :=
    .execute nofun (.inl ⟨.value (.int 2), rfl⟩)
  have hsix := h unit _ after (.snoc .nil hsum) 1 nofun twoTimesThree 6 rfl
  have hfive : resultOf (twoTimesThree.expr.execute 1 after) = some (.value (.int 5)) := rfl
  rw [hfive] at hsix
  cases hsix

/-- `2 * (-3 * 4)` -/
def nestedProduct : Arith IntLiteral :=
  .binary (.literal ⟨2, by decide⟩) .star
    (.grouping (.binary (.negate (.literal ⟨3, by decide⟩)) .star (.literal ⟨4, by decide⟩)))

/--
In a fresh process a product within a product has its value, whatever its
literals: `2 * (-3 * 4)` evaluates to -24.
-/
theorem product_in_fresh_process :
    @Arith.Compositional .binary32 {} 0 nestedProduct.shape ∧
      resultOf (@Exprs.execute .binary32 0 nestedProduct.expr {}) = some (.value (.int (-24))) := by
  have happlies : Process.Applies {} nestedProduct.shape := by
    intro c hfirst
    cases hfirst
    intro op hop
    rcases List.mem_cons.mp hop with rfl | hop
    · rfl
    · exact List.mem_singleton.mp hop
  have hproducts := (@Arith.compositional_iff .binary32 {} 0 List.not_mem_nil _).mpr happlies
  exact ⟨hproducts, hproducts nestedProduct rfl (-24) rfl⟩

end HiveDb
