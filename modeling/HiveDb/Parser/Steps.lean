import HiveDb.Parser.Parser

/-!
# What the parser is made of

The functions of the parser are put together from matching a token, reading a
number, throwing, the error about an invalid token, and the loop over a list.  A
relation that holds of these and is kept by sequence holds of the functions; it
may compare a function at one depth with the function at another one.
-/

namespace HiveDb.Parser

open HiveDb.Lib

/-! ## Numbers that cannot be read -/

theorem stoi_throws {text : Text} {failure : Failure} (h : stoi text = .error failure) :
    failure.isException = true := by
  unfold stoi at h
  simp only at h
  split at h
  · cases h
    rfl
  · split at h
    · cases h
    · cases h
      rfl

theorem stof_throws [FloatUnit] {text : Text} {failure : Failure}
    (h : stof text = .error failure) : failure.isException = true := by
  unfold stof at h
  split at h
  · cases h
  · cases h
    rfl
  · cases h
    rfl

/-! ## Relations kept by sequence -/

structure Compositional (R : (α : Type) → Parsing α → Parsing α → Prop) : Prop where
  ret {α : Type} (a : α) : R α (pure a) (pure a)
  throws {α : Type} {failure : Failure} (h : failure.isException = true) :
    R α (throw failure) (throw failure)
  lift {α : Type} {x : Except Failure α}
    (h : ∀ failure, x = .error failure → failure.isException = true) :
    R α (liftPure x) (liftPure x)
  step {α : Type} (g : Token → Option α) : R (Option α) (accept g) (accept g)
  bind {α β : Type} {x y : Parsing α} {f g : α → Parsing β} (hx : R α x y)
    (hf : ∀ a, R β (f a) (g a)) : R β (x >>= f) (y >>= g)

namespace Compositional

variable {R : (α : Type) → Parsing α → Parsing α → Prop}

theorem consume (h : Compositional R) (type : TokenType) (err : String) :
    R Token (Parser.consume type err) (Parser.consume type err) := by
  refine h.bind (h.step _) fun token => ?_
  cases token with
  | some token => exact h.ret token
  | none => exact h.throws rfl

theorem fromClause (h : Compositional R) (innerExpr : List Exprs) :
    R Exprs (Parser.fromClause innerExpr) (Parser.fromClause innerExpr) := by
  refine h.bind (h.step _) fun token => ?_
  cases token with
  | some token => exact h.bind (h.consume _ _) fun name => h.ret _
  | none => exact h.ret _

/-! ## Expressions -/

section Expressions

variable [FloatUnit] {m n : Nat}

theorem binaryExpr (h : Compositional R) (hunary : R Exprs (unaryExpr m) (unaryExpr n))
    (hbinary : R Exprs (Parser.binaryExpr m) (Parser.binaryExpr n)) :
    R Exprs (Parser.binaryExpr (m + 1)) (Parser.binaryExpr (n + 1)) := by
  refine h.bind hunary fun e => h.bind (h.step _) fun op => ?_
  cases op with
  | some op => exact h.bind hbinary fun rhs => h.ret _
  | none => exact h.ret _

theorem unaryExpr (h : Compositional R) (hunary : R Exprs (Parser.unaryExpr m) (Parser.unaryExpr n))
    (hprimary : R Exprs (primaryExpr m) (primaryExpr n)) :
    R Exprs (Parser.unaryExpr (m + 1)) (Parser.unaryExpr (n + 1)) := by
  refine h.bind (h.step _) fun op => ?_
  cases op with
  | some op => exact h.bind hunary fun rhs => h.ret _
  | none => exact hprimary

theorem primaryExpr (h : Compositional R) (hrefuse : R Exprs invalidToken invalidToken)
    (hbinary : R Exprs (Parser.binaryExpr m) (Parser.binaryExpr n))
    (hselect : R Exprs (selectExpr m) (selectExpr n)) :
    R Exprs (Parser.primaryExpr (m + 1)) (Parser.primaryExpr (n + 1)) := by
  refine h.bind (h.step _) fun string => ?_
  cases string with
  | some token => exact h.ret _
  | none =>
  refine h.bind (h.step _) fun identifier => ?_
  cases identifier with
  | some token => exact h.ret _
  | none =>
  refine h.bind (h.step _) fun integer => ?_
  cases integer with
  | some token => exact h.bind (h.lift fun _ => stoi_throws) fun value => h.ret _
  | none =>
  refine h.bind (h.step _) fun real => ?_
  cases real with
  | some token => exact h.bind (h.lift fun _ => stof_throws) fun value => h.ret _
  | none =>
  refine h.bind (h.step _) fun parentheses => ?_
  cases parentheses with
  | some token =>
      refine h.bind (h.step _) fun select => ?_
      cases select with
      | some token => exact h.bind hselect fun e => h.bind (h.consume _ _) fun _ => h.ret _
      | none => exact h.bind hbinary fun e => h.bind (h.consume _ _) fun _ => h.ret _
  | none =>
  refine h.bind (h.step _) fun select => ?_
  cases select with
  | some token => exact h.bind hselect fun e => h.ret _
  | none => exact hrefuse

theorem selectExpr (h : Compositional R)
    (hbinary : R Exprs (Parser.binaryExpr m) (Parser.binaryExpr n))
    (hcomma : R (List Exprs) (commaExprs m) (commaExprs n)) :
    R Exprs (Parser.selectExpr (m + 1)) (Parser.selectExpr (n + 1)) := by
  refine h.bind (h.step _) fun parentheses => ?_
  cases parentheses with
  | some token =>
      exact h.bind hbinary fun e => h.bind hcomma fun rest =>
        h.bind (h.consume _ _) fun _ => h.fromClause _
  | none => exact h.bind hbinary fun e => h.fromClause _

theorem commaExprs (h : Compositional R)
    (hbinary : R Exprs (Parser.binaryExpr m) (Parser.binaryExpr n))
    (hcomma : R (List Exprs) (Parser.commaExprs m) (Parser.commaExprs n)) :
    R (List Exprs) (Parser.commaExprs (m + 1)) (Parser.commaExprs (n + 1)) := by
  refine h.bind (h.step _) fun comma => ?_
  cases comma with
  | some token => exact h.bind hbinary fun e => h.bind hcomma fun rest => h.ret _
  | none => exact h.ret _

/-- A relation that holds where the depth is used up holds at every depth and the next one. -/
theorem expressions (h : Compositional R) (hrefuse : R Exprs invalidToken invalidToken)
    (hexhausted : ∀ (α : Type) (y : Parsing α), R α (throw .outOfFuel) y) (depth : Nat) :
    R Exprs (Parser.binaryExpr depth) (Parser.binaryExpr (depth + 1)) ∧
    R Exprs (Parser.unaryExpr depth) (Parser.unaryExpr (depth + 1)) ∧
    R Exprs (Parser.primaryExpr depth) (Parser.primaryExpr (depth + 1)) ∧
    R Exprs (Parser.selectExpr depth) (Parser.selectExpr (depth + 1)) ∧
    R (List Exprs) (Parser.commaExprs depth) (Parser.commaExprs (depth + 1)) := by
  induction depth with
  | zero =>
      exact ⟨hexhausted _ _, hexhausted _ _, hexhausted _ _, hexhausted _ _, hexhausted _ _⟩
  | succ depth ih =>
      obtain ⟨hbinary, hunary, hprimary, hselect, hcomma⟩ := ih
      exact ⟨h.binaryExpr hunary hbinary, h.unaryExpr hunary hprimary,
        h.primaryExpr hrefuse hbinary hselect, h.selectExpr hbinary hcomma,
        h.commaExprs hbinary hcomma⟩

end Expressions

/-! ## Statements -/

section Statements

variable {m n : Nat}

theorem listNext (h : Compositional R) : R ListNext Parser.listNext Parser.listNext := by
  refine h.bind (h.step _) fun comma => ?_
  cases comma with
  | some token => exact h.ret _
  | none =>
  refine h.bind (h.step _) fun parentheses => ?_
  cases parentheses with
  | some token => exact h.ret _
  | none => exact h.throws rfl

/-- What a round of a loop does behind its element. -/
theorem roundEnd {α : Type} (h : Compositional R) {x y : Parsing (List α)} (hrest : R (List α) x y)
    (a : α) (next : ListNext) :
    R (List α)
      (match next with
        | .more => do
            let rest ← x
            return a :: rest
        | .last => return [a])
      (match next with
        | .more => do
            let rest ← y
            return a :: rest
        | .last => return [a]) := by
  cases next with
  | more => exact h.bind hrest fun rest => h.ret _
  | last => exact h.ret _

/-- The loop, for a relation that may be shown for each list of tokens on its own. -/
theorem whileNotDone {α : Type} (h : Compositional R) {element : Parsing α}
    (hinspect : ∀ f g : List Token → Parsing (List α),
      (∀ tokens, R (List α) (f tokens) (g tokens)) → R (List α) (get >>= f) (get >>= g))
    (hexhausted : ∀ y, R (List α) (throw .outOfFuel) y) (helement : R α element element)
    (rounds : Nat) :
    R (List α) (Parser.whileNotDone element rounds) (Parser.whileNotDone element (rounds + 1)) := by
  induction rounds with
  | zero => exact hexhausted _
  | succ rounds ih =>
      refine hinspect _ _ fun tokens => ?_
      split
      · exact h.ret _
      · exact h.bind helement fun a => h.bind h.listNext fun next => h.roundEnd ih a next

theorem insertColumn (h : Compositional R) :
    R Text Parser.insertColumn Parser.insertColumn :=
  h.bind (h.consume _ _) fun _ => h.ret _

theorem createColumn (h : Compositional R) :
    R TableColumn Parser.createColumn Parser.createColumn := by
  refine h.bind (h.consume _ _) fun name => h.bind (h.consume _ _) fun type => ?_
  refine h.bind (h.bind (h.step _) fun negated => ?_) fun canBeNull => h.ret _
  cases negated with
  | some token => exact h.bind (h.consume _ _) fun _ => h.ret _
  | none => exact h.ret _

theorem createExpr (h : Compositional R) (hcolumns : R (List TableColumn)
      (Parser.whileNotDone Parser.createColumn m) (Parser.whileNotDone Parser.createColumn n)) :
    R Exprs (Parser.createExpr m) (Parser.createExpr n) :=
  h.bind (h.consume _ _) fun _ => h.bind (h.consume _ _) fun _ => h.bind (h.consume _ _)
    fun _ => h.bind hcolumns fun _ => h.ret _

variable [FloatUnit]

theorem insertValue (h : Compositional R) : R Value Parser.insertValue Parser.insertValue := by
  refine h.bind (h.step _) fun string => ?_
  cases string with
  | some token => exact h.ret _
  | none =>
  refine h.bind (h.step _) fun integer => ?_
  cases integer with
  | some token => exact h.bind (h.lift fun _ => stoi_throws) fun value => h.ret _
  | none =>
  refine h.bind (h.step _) fun real => ?_
  cases real with
  | some token => exact h.bind (h.lift fun _ => stof_throws) fun value => h.ret _
  | none => exact h.throws rfl

theorem insertExpr (h : Compositional R)
    (hcolumns : R (List Text) (Parser.whileNotDone Parser.insertColumn m)
      (Parser.whileNotDone Parser.insertColumn n))
    (hvalues : R (List Value) (Parser.whileNotDone Parser.insertValue m)
      (Parser.whileNotDone Parser.insertValue n)) :
    R Exprs (Parser.insertExpr m) (Parser.insertExpr n) :=
  h.bind (h.consume _ _) fun _ => h.bind (h.consume _ _) fun _ => h.bind (h.consume _ _)
    fun _ => h.bind hcolumns fun _ => h.bind (h.consume _ _) fun _ => h.bind (h.consume _ _)
      fun _ => h.bind hvalues fun _ => h.ret _

theorem expr (h : Compositional R) (hrefuse : R Exprs invalidToken invalidToken)
    (hselect : R Exprs (Parser.selectExpr m) (Parser.selectExpr n))
    (hcreate : R Exprs (Parser.createExpr m) (Parser.createExpr n))
    (hinsert : R Exprs (Parser.insertExpr m) (Parser.insertExpr n)) :
    R Exprs (Parser.expr m) (Parser.expr n) := by
  refine h.bind (h.step _) fun select => ?_
  cases select with
  | some token => exact hselect
  | none =>
  refine h.bind (h.step _) fun create => ?_
  cases create with
  | some token => exact hcreate
  | none =>
  refine h.bind (h.step _) fun insert => ?_
  cases insert with
  | some token => exact hinsert
  | none => exact hrefuse

end Statements

end Compositional

end HiveDb.Parser
