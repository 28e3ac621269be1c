import HiveDb.Parser.Execution

/-!
# Integer arithmetic

Expression trees of integer literals, unary minus, grouping and the four binary
operators, with the value that each node's own operator gives.  Trees of one
shape differ in their literals only.  A second evaluation replaces every binary
operator by a fixed one; the two agree on all trees of a shape exactly when the
shape has no other binary operator.
-/

namespace HiveDb

/-- An `int` that a literal can have. -/
abbrev IntLiteral := { n : Int // FitsInt n }

inductive Arith (α : Type) where
  | literal (a : α)
  | negate (rhs : Arith α)
  | grouping (expr : Arith α)
  | binary (lhs : Arith α) (op : BinaryOperator) (rhs : Arith α)

/-- A tree without its literals. -/
abbrev Shape := Arith Unit

namespace Arith

variable {α : Type}

def shape : Arith α → Shape
  | .literal _ => .literal ()
  | .negate rhs => .negate rhs.shape
  | .grouping expr => .grouping expr.shape
  | .binary lhs op rhs => .binary lhs.shape op rhs.shape

/-- The binary operators, in the order in which their nodes are evaluated. -/
def operators : Arith α → List BinaryOperator
  | .literal _ => []
  | .negate rhs => rhs.operators
  | .grouping expr => expr.operators
  | .binary lhs op rhs => lhs.operators ++ rhs.operators ++ [op]

@[simp] theorem operators_shape (e : Arith α) : e.shape.operators = e.operators := by
  induction e with
  | literal a => rfl
  | negate rhs ih => exact ih
  | grouping expr ih => exact ih
  | binary lhs op rhs ihl ihr => simp only [shape, operators, ihl, ihr]

/-- The tree as the parser builds it. -/
def expr : Arith IntLiteral → Exprs
  | .literal n => .literalInt n
  | .negate rhs => .unary .substract rhs.expr
  | .grouping e => .grouping e.expr
  | .binary lhs op rhs => .binary lhs.expr op rhs.expr

/-- The value when the operator of each binary node is the chosen one. -/
def evaluate (choose : BinaryOperator → BinaryOperator) : Arith IntLiteral → Except Failure Int
  | .literal n => .ok n
  | .negate rhs => do
      let n ← rhs.evaluate choose
      intResult (-n)
  | .grouping e => e.evaluate choose
  | .binary lhs op rhs => do
      let l ← lhs.evaluate choose
      let r ← rhs.evaluate choose
      (choose op).onInts l r

/-- Each node applies its own operator to the values of its own operands. -/
def value (e : Arith IntLiteral) : Except Failure Int := e.evaluate id

/-- Each binary node applies the same operator. -/
def valueWith (c : BinaryOperator) (e : Arith IntLiteral) : Except Failure Int :=
  e.evaluate fun _ => c

theorem evaluate_congr {choose choose' : BinaryOperator → BinaryOperator}
    {e : Arith IntLiteral} (h : ∀ op ∈ e.operators, choose op = choose' op) :
    e.evaluate choose = e.evaluate choose' := by
  induction e with
  | literal n => rfl
  | negate rhs ih => simp only [evaluate, ih h]
  | grouping e ih => exact ih h
  | binary lhs op rhs ihl ihr =>
      have hl := ihl fun o ho => h o (List.mem_append_left _ (List.mem_append_left _ ho))
      have hr := ihr fun o ho => h o (List.mem_append_left _ (List.mem_append_right _ ho))
      have hop := h op (List.mem_append_right _ (List.mem_singleton_self _))
      simp only [evaluate, hl, hr, hop]

/-- A tree whose binary operators are all `c` has its own value. -/
theorem valueWith_eq_value {c : BinaryOperator} {e : Arith IntLiteral}
    (h : ∀ op ∈ e.operators, op = c) : e.valueWith c = e.value :=
  evaluate_congr fun op hop => (h op hop).symm

/-! ## The values that the trees of a shape can have -/

/-- Some tree of the shape has the value `v`, and `w` under the fixed operator. -/
def Yields (c : BinaryOperator) (s : Shape) (v : Int) (w : Except Failure Int) : Prop :=
  ∃ e : Arith IntLiteral, e.shape = s ∧ e.value = .ok v ∧ e.valueWith c = w

namespace Yields

variable {c op : BinaryOperator} {s l r : Shape} {v x y : Int} {w wl wr : Except Failure Int}

theorem literal (hfits : FitsInt v) : Yields c (.literal ()) v (.ok v) :=
  ⟨.literal ⟨v, hfits⟩, rfl, rfl, rfl⟩

theorem negate (h : Yields c s v w) (hfits : FitsInt (-v)) :
    Yields c (.negate s) (-v) (do let n ← w; intResult (-n)) := by
  obtain ⟨e, rfl, hvalue, rfl⟩ := h
  refine ⟨.negate e, rfl, ?_, rfl⟩
  have heval : e.evaluate id = .ok v := hvalue
  simp only [value, evaluate, heval, HiveDb.Lib.ok_bind]
  exact if_pos hfits

theorem grouping (h : Yields c s v w) : Yields c (.grouping s) v w := by
  obtain ⟨e, rfl, hvalue, hwith⟩ := h
  exact ⟨.grouping e, rfl, hvalue, hwith⟩

theorem binary (hl : Yields c l x wl) (hr : Yields c r y wr) (hop : op.onInts x y = .ok v) :
    Yields c (.binary l op r) v (do let a ← wl; let b ← wr; c.onInts a b) := by
  obtain ⟨left, rfl, hleft, rfl⟩ := hl
  obtain ⟨right, rfl, hright, rfl⟩ := hr
  refine ⟨.binary left op right, rfl, ?_, rfl⟩
  have hl' : left.evaluate id = .ok x := hleft
  have hr' : right.evaluate id = .ok y := hright
  simp only [value, evaluate, hl', hr', HiveDb.Lib.ok_bind]
  exact hop

end Yields

/-- A number that no small calculation takes out of the range of `int`. -/
def Small (v : Int) : Prop := -8 ≤ v ∧ v ≤ 8

instance (v : Int) : Decidable (Small v) := inferInstanceAs (Decidable (-8 ≤ v ∧ v ≤ 8))

theorem Small.fits {v : Int} (h : Small v) : FitsInt v := by
  unfold Small at h
  unfold FitsInt
  omega

/-- Every small value comes up as the left operand beside a neutral one. -/
theorem onInts_neutral (op : BinaryOperator) {v : Int} (hv : Small v) :
    ∃ y, Small y ∧ op.onInts v y = .ok v := by
  have hfits := hv.fits
  cases op with
  | add => exact ⟨0, by decide, by simp [BinaryOperator.onInts, intResult, hfits]⟩
  | substract => exact ⟨0, by decide, by simp [BinaryOperator.onInts, intResult, hfits]⟩
  | divide => exact ⟨1, by decide, by simp [BinaryOperator.onInts, intResult, hfits]⟩
  | star => exact ⟨1, by decide, by simp [BinaryOperator.onInts, intResult, hfits]⟩

/-- The trees of a shape have every small value. -/
theorem exists_yields (c : BinaryOperator) (s : Shape) {v : Int} (hv : Small v) :
    ∃ w, Yields c s v w := by
  induction s generalizing v with
  | literal => exact ⟨_, .literal hv.fits⟩
  | negate s ih =>
      have hneg : Small (-v) := by
        unfold Small at hv ⊢
        omega
      obtain ⟨w, hw⟩ := ih hneg
      have hfits : FitsInt (- -v) := by
        rw [Int.neg_neg]
        exact hv.fits
      have hyields := hw.negate hfits
      rw [Int.neg_neg] at hyields
      exact ⟨_, hyields⟩
  | grouping s ih =>
      obtain ⟨w, hw⟩ := ih hv
      exact ⟨w, hw.grouping⟩
  | binary l op r ihl ihr =>
      obtain ⟨y, hy, hop⟩ := onInts_neutral op hv
      obtain ⟨wl, hl⟩ := ihl hv
      obtain ⟨wr, hr⟩ := ihr hy
      exact ⟨_, hl.binary hr hop⟩

/-- All binary operators of the shape are the fixed one. -/
def AllOf (c : BinaryOperator) (s : Shape) : Prop := ∀ op ∈ s.operators, op = c

theorem AllOf.yields {c : BinaryOperator} {s : Shape} (h : AllOf c s) {v : Int} (hv : Small v) :
    Yields c s v (.ok v) := by
  obtain ⟨w, e, rfl, hvalue, rfl⟩ := exists_yields c s hv
  refine ⟨e, rfl, hvalue, ?_⟩
  rw [valueWith_eq_value (by simpa [AllOf] using h), hvalue]

/-! ## Shapes with another operator -/

section Wrong

variable {c op : BinaryOperator} {s l r : Shape} {v x y : Int}

/--
Induction over the shapes with a binary operator other than `c`, along a path
to such a node: what holds at the node, and is passed on by every node above
it, holds at the root.
-/
theorem wrong_induction {S : Int → Prop} {T : Shape → Int → Prop}
    (hS : ∀ v, S v → S (-v))
    (negate : ∀ s v, T s v → S v → T (.negate s) (-v))
    (grouping : ∀ s v, T s v → T (.grouping s) v)
    (left : ∀ l op r, (∀ x, S x → T l x) → (AllOf c r ∨ ∀ y, S y → T r y) →
      ∀ v, S v → T (.binary l op r) v)
    (right : ∀ l op r, AllOf c l → (∀ y, S y → T r y) → ∀ v, S v → T (.binary l op r) v)
    (root : ∀ l op r, op ≠ c → AllOf c l → AllOf c r → ∀ v, S v → T (.binary l op r) v)
    (s : Shape) : ¬ AllOf c s → ∀ v, S v → T s v := by
  induction s with
  | literal => exact fun hwrong => absurd nofun hwrong
  | negate s ih =>
      intro hwrong v hv
      have hneg := negate s (-v) (ih hwrong (-v) (hS v hv)) (hS v hv)
      rwa [Int.neg_neg] at hneg
  | grouping s ih => exact fun hwrong v hv => grouping s v (ih hwrong v hv)
  | binary l op r ihl ihr =>
      intro hwrong
      by_cases hl : AllOf c l
      · by_cases hr : AllOf c r
        · refine root l op r ?_ hl hr
          rintro rfl
          refine hwrong fun o ho => ?_
          rcases List.mem_append.mp ho with ho | ho
          · exact (List.mem_append.mp ho).elim (hl o) (hr o)
          · exact List.mem_singleton.mp ho
        · exact right l op r hl (ihr hr)
      · refine left l op r (ihl hl) ?_
        by_cases hr : AllOf c r
        · exact .inl hr
        · exact .inr (ihr hr)

/-- Some tree of the shape has the value `v`, but not under the fixed operator. -/
def Differs (c : BinaryOperator) (s : Shape) (v : Int) : Prop := ∃ w, Yields c s v w ∧ w ≠ .ok v

def Two (v : Int) : Prop := v = 2 ∨ v = -2

theorem Two.small (h : Two v) : Small v := by
  unfold Two at h
  unfold Small
  omega

theorem Two.neg (v : Int) (h : Two v) : Two (-v) := by
  unfold Two at h ⊢
  omega

/-- The operand of interest may be the right one as well. -/
theorem onInts_right (op : BinaryOperator) (hv : Two v) :
    ∃ x y, Small x ∧ Two y ∧ op.onInts x y = .ok v := by
  rcases hv with rfl | rfl
  · cases op with
    | add => exact ⟨0, 2, by decide, .inl rfl, rfl⟩
    | substract => exact ⟨0, -2, by decide, .inr rfl, rfl⟩
    | divide => exact ⟨4, 2, by decide, .inl rfl, rfl⟩
    | star => exact ⟨1, 2, by decide, .inl rfl, rfl⟩
  · cases op with
    | add => exact ⟨0, -2, by decide, .inr rfl, rfl⟩
    | substract => exact ⟨0, 2, by decide, .inl rfl, rfl⟩
    | divide => exact ⟨-4, 2, by decide, .inl rfl, rfl⟩
    | star => exact ⟨1, -2, by decide, .inr rfl, rfl⟩

/-! ### Division everywhere: a zero that does not go away -/

/-- Under division the tree evaluates to zero, or not at all. -/
def Vanishes (s : Shape) (v : Int) : Prop :=
  ∃ w, Yields .divide s v w ∧ (w = .ok 0 ∨ ∃ failure, w = .error failure)

/-- A left operand of zero vanishes, whatever divides it. -/
theorem Vanishes.left (hl : Vanishes l x) (hy : Small y) (hop : op.onInts x y = .ok v) :
    Vanishes (.binary l op r) v := by
  obtain ⟨wl, hl, hzero⟩ := hl
  obtain ⟨wr, hr⟩ := exists_yields .divide r hy
  refine ⟨_, hl.binary hr hop, ?_⟩
  rcases hzero with rfl | ⟨failure, rfl⟩
  · cases wr with
    | error failure => exact .inr ⟨failure, rfl⟩
    | ok b =>
        by_cases hb : b = 0
        · subst hb
          exact .inr ⟨.undefined, rfl⟩
        · left
          simp [BinaryOperator.onInts, hb, intResult, FitsInt]
  · exact .inr ⟨failure, rfl⟩

/-- A right operand of zero is divided by. -/
theorem Vanishes.right (hx : Small x) (hr : Vanishes r y) (hop : op.onInts x y = .ok v) :
    Vanishes (.binary l op r) v := by
  obtain ⟨wl, hl⟩ := exists_yields .divide l hx
  obtain ⟨wr, hr, hzero⟩ := hr
  refine ⟨_, hl.binary hr hop, .inr ?_⟩
  cases wl with
  | error failure => exact ⟨failure, rfl⟩
  | ok a =>
      rcases hzero with rfl | ⟨failure, rfl⟩
      · exact ⟨.undefined, rfl⟩
      · exact ⟨failure, rfl⟩

theorem vanishes_of_wrong (hwrong : ¬ AllOf .divide s) (hv : Two v) : Vanishes s v := by
  refine wrong_induction (c := .divide) Two.neg ?_ ?_ ?_ ?_ ?_ s hwrong v hv
  · rintro s v ⟨w, hyields, hzero⟩ hv
    refine ⟨_, hyields.negate (Two.neg v hv).small.fits, ?_⟩
    rcases hzero with rfl | ⟨failure, rfl⟩
    · exact .inl rfl
    · exact .inr ⟨failure, rfl⟩
  · rintro s v ⟨w, hyields, hzero⟩
    exact ⟨w, hyields.grouping, hzero⟩
  · intro l op r hl _ v hv
    obtain ⟨y, hy, hop⟩ := onInts_neutral op hv.small
    exact (hl v hv).left hy hop
  · intro l op r _ hr v hv
    obtain ⟨x, y, hx, hy, hop⟩ := onInts_right op hv
    exact Vanishes.right hx (hr y hy) hop
  · intro l op r hop hl hr v hv
    have hzero : ∃ x y, Small x ∧ Small y ∧ op.onInts x y = .ok v ∧
        (BinaryOperator.divide.onInts x y = .ok 0 ∨
          ∃ failure, BinaryOperator.divide.onInts x y = .error failure) := by
      rcases hv with rfl | rfl
      · cases op with
        | add => exact ⟨2, 0, by decide, by decide, rfl, .inr ⟨_, rfl⟩⟩
        | substract => exact ⟨2, 0, by decide, by decide, rfl, .inr ⟨_, rfl⟩⟩
        | star => exact ⟨1, 2, by decide, by decide, rfl, .inl rfl⟩
        | divide => exact absurd rfl hop
      · cases op with
        | add => exact ⟨-2, 0, by decide, by decide, rfl, .inr ⟨_, rfl⟩⟩
        | substract => exact ⟨-2, 0, by decide, by decide, rfl, .inr ⟨_, rfl⟩⟩
        | star => exact ⟨1, -2, by decide, by decide, rfl, .inl rfl⟩
        | divide => exact absurd rfl hop
    obtain ⟨x, y, hx, hy, hown, hwith⟩ := hzero
    exact ⟨_, (hl.yields hx).binary (hr.yields hy) hown, hwith⟩

/-! ### The other operators: two trees that stay apart -/

/-- Under the fixed operator a tree of the value has no value, or two trees differ. -/
def Spreads (c : BinaryOperator) (s : Shape) (v : Int) : Prop :=
  (∃ failure, Yields c s v (.error failure)) ∨
    ∃ a b, a ≠ b ∧ Yields c s v (.ok a) ∧ Yields c s v (.ok b)

/-- The operator does not forget its left or its right operand beside the other one. -/
def Cancels (c : BinaryOperator) (z : Int) : Prop :=
  c = .add ∨ c = .substract ∨ c = .star ∧ z ≠ 0

theorem intResult_eq_ok {m n : Int} (h : intResult m = .ok n) : m = n := by
  unfold intResult at h
  split at h
  · cases h
    rfl
  · cases h

/-- Two results in range that are equal were computed from equal numbers. -/
theorem intResult_injective {a b m : Int} (ha : intResult a = .ok m) (hb : intResult b = .ok m) :
    a = b :=
  (intResult_eq_ok ha).trans (intResult_eq_ok hb).symm

theorem Cancels.left {a b z m : Int} (h : Cancels c z) (ha : c.onInts a z = .ok m)
    (hb : c.onInts b z = .ok m) : a = b := by
  rcases h with rfl | rfl | ⟨rfl, hz⟩
  · have hsame := intResult_injective ha hb
    omega
  · have hsame := intResult_injective ha hb
    omega
  · have hsame := intResult_injective ha hb
    exact Int.eq_of_mul_eq_mul_right hz hsame

theorem Cancels.right {a b z m : Int} (h : Cancels c z) (ha : c.onInts z a = .ok m)
    (hb : c.onInts z b = .ok m) : a = b := by
  rcases h with rfl | rfl | ⟨rfl, hz⟩
  · have hsame := intResult_injective ha hb
    omega
  · have hsame := intResult_injective ha hb
    omega
  · have hsame := intResult_injective ha hb
    exact Int.eq_of_mul_eq_mul_left hz hsame

/-- Two evaluations that would be equal only if `a = b` spread or fail. -/
theorem Spreads.of_pair {a b : Int} {wa wb : Except Failure Int} (ha : Yields c s v wa)
    (hb : Yields c s v wb) (hne : a ≠ b) (hcancel : ∀ m, wa = .ok m → wb = .ok m → a = b) :
    Spreads c s v := by
  cases wa with
  | error failure => exact .inl ⟨failure, ha⟩
  | ok m =>
      cases wb with
      | error failure => exact .inl ⟨failure, hb⟩
      | ok n =>
          refine .inr ⟨m, n, ?_, ha, hb⟩
          rintro rfl
          exact hne (hcancel m rfl rfl)

theorem Spreads.negate (h : Spreads c s v) (hfits : FitsInt (-v)) :
    Spreads c (.negate s) (-v) := by
  rcases h with ⟨failure, hyields⟩ | ⟨a, b, hne, ha, hb⟩
  · exact .inl ⟨failure, hyields.negate hfits⟩
  · refine Spreads.of_pair (ha.negate hfits) (hb.negate hfits) hne fun m hma hmb => ?_
    have hsame := (intResult_eq_ok hma).trans (intResult_eq_ok hmb).symm
    exact Int.neg_inj.mp hsame

theorem Spreads.grouping (h : Spreads c s v) : Spreads c (.grouping s) v := by
  rcases h with ⟨failure, hyields⟩ | ⟨a, b, hne, ha, hb⟩
  · exact .inl ⟨failure, hyields.grouping⟩
  · exact .inr ⟨a, b, hne, ha.grouping, hb.grouping⟩

theorem Spreads.left {wr : Except Failure Int} (hl : Spreads c l x) (hr : Yields c r y wr)
    (hcancel : ∀ z, wr = .ok z → Cancels c z) (hop : op.onInts x y = .ok v) :
    Spreads c (.binary l op r) v := by
  rcases hl with ⟨failure, hl⟩ | ⟨a, b, hne, ha, hb⟩
  · exact .inl ⟨failure, hl.binary hr hop⟩
  · cases wr with
    | error failure => exact .inl ⟨failure, ha.binary hr hop⟩
    | ok z =>
        exact Spreads.of_pair (ha.binary hr hop) (hb.binary hr hop) hne fun m hma hmb =>
          (hcancel z rfl).left hma hmb

theorem Spreads.right {wl : Except Failure Int} (hl : Yields c l x wl) (hr : Spreads c r y)
    (hcancel : ∀ z, wl = .ok z → Cancels c z) (hop : op.onInts x y = .ok v) :
    Spreads c (.binary l op r) v := by
  cases wl with
  | error failure =>
      rcases hr with ⟨_, hr⟩ | ⟨a, b, hne, ha, hb⟩
      · exact .inl ⟨failure, hl.binary hr hop⟩
      · exact .inl ⟨failure, hl.binary ha hop⟩
  | ok z =>
      rcases hr with ⟨failure, hr⟩ | ⟨a, b, hne, ha, hb⟩
      · exact .inl ⟨failure, hl.binary hr hop⟩
      · exact Spreads.of_pair (hl.binary ha hop) (hl.binary hb hop) hne fun m hma hmb =>
          (hcancel z rfl).right hma hmb

/-- Two pairs of operands that the node's own operator does not tell apart. -/
def Splits (c op : BinaryOperator) (v : Int) : Prop :=
  ∃ x y x' y' m n, Small x ∧ Small y ∧ Small x' ∧ Small y' ∧ op.onInts x y = .ok v ∧
    op.onInts x' y' = .ok v ∧ c.onInts x y = .ok m ∧ c.onInts x' y' = .ok n ∧ m ≠ n

theorem Splits.spreads (h : Splits c op v) (hl : AllOf c l) (hr : AllOf c r) :
    Spreads c (.binary l op r) v := by
  obtain ⟨x, y, x', y', m, n, hx, hy, hx', hy', hown, hown', hwith, hwith', hne⟩ := h
  have hfirst := (hl.yields hx).binary (hr.yields hy) hown
  have hsecond := (hl.yields hx').binary (hr.yields hy') hown'
  simp only [HiveDb.Lib.ok_bind, hwith] at hfirst
  simp only [HiveDb.Lib.ok_bind, hwith'] at hsecond
  exact .inr ⟨m, n, hne, hfirst, hsecond⟩

theorem splits_add (hv : Two v) (hop : op ≠ .add) : Splits .add op v := by
  rcases hv with rfl | rfl
  · cases op with
    | add => exact absurd rfl hop
    | substract => exact ⟨2, 0, 3, 1, 2, 4, by decide⟩
    | divide => exact ⟨2, 1, 4, 2, 3, 6, by decide⟩
    | star => exact ⟨2, 1, -2, -1, 3, -3, by decide⟩
  · cases op with
    | add => exact absurd rfl hop
    | substract => exact ⟨-2, 0, -1, 1, -2, 0, by decide⟩
    | divide => exact ⟨-2, 1, -4, 2, -1, -2, by decide⟩
    | star => exact ⟨-2, 1, 2, -1, -1, 1, by decide⟩

theorem splits_substract (hv : Two v) (hop : op ≠ .substract) : Splits .substract op v := by
  rcases hv with rfl | rfl
  · cases op with
    | add => exact ⟨2, 0, 1, 1, 2, 0, by decide⟩
    | substract => exact absurd rfl hop
    | divide => exact ⟨2, 1, 4, 2, 1, 2, by decide⟩
    | star => exact ⟨2, 1, 1, 2, 1, -1, by decide⟩
  · cases op with
    | add => exact ⟨-2, 0, -1, -1, -2, 0, by decide⟩
    | substract => exact absurd rfl hop
    | divide => exact ⟨-2, 1, -4, 2, -3, -6, by decide⟩
    | star => exact ⟨-2, 1, 1, -2, -3, 3, by decide⟩

/-- Addition and subtraction keep what a wrong operator below them has spread. -/
theorem spreads_of_wrong_linear (hc : c = .add ∨ c = .substract) (hwrong : ¬ AllOf c s)
    (hv : Two v) : Spreads c s v := by
  have hcancel : ∀ z, Cancels c z := fun z => hc.elim .inl fun h => .inr (.inl h)
  refine wrong_induction Two.neg ?_ ?_ ?_ ?_ ?_ s hwrong v hv
  · exact fun s v h hv => h.negate (Two.neg v hv).small.fits
  · exact fun s v h => h.grouping
  · intro l op r hl _ v hv
    obtain ⟨y, hy, hop⟩ := onInts_neutral op hv.small
    obtain ⟨wr, hr⟩ := exists_yields c r hy
    exact (hl v hv).left hr (fun z _ => hcancel z) hop
  · intro l op r hl hr v hv
    obtain ⟨x, y, hx, hy, hop⟩ := onInts_right op hv
    exact Spreads.right (hl.yields hx) (hr y hy) (fun z _ => hcancel z) hop
  · intro l op r hop hl hr v hv
    rcases hc with rfl | rfl
    · exact (splits_add hv hop).spreads hl hr
    · exact (splits_substract hv hop).spreads hl hr

/-! ### Multiplication: factors other than zero -/

/-- The values among which every operator can be applied without meeting a zero. -/
def OneOrTwo (v : Int) : Prop := v = 1 ∨ v = -1 ∨ v = 2 ∨ v = -2

theorem OneOrTwo.small (h : OneOrTwo v) : Small v := by
  unfold OneOrTwo at h
  unfold Small
  omega

theorem OneOrTwo.neg (v : Int) (h : OneOrTwo v) : OneOrTwo (-v) := by
  unfold OneOrTwo at h ⊢
  omega

theorem OneOrTwo.ne_zero (h : OneOrTwo v) : v ≠ 0 := by
  unfold OneOrTwo at h
  omega

instance (v : Int) : Decidable (OneOrTwo v) :=
  inferInstanceAs (Decidable (v = 1 ∨ v = -1 ∨ v = 2 ∨ v = -2))

theorem onInts_oneOrTwo (op : BinaryOperator) (hv : OneOrTwo v) :
    ∃ x y, OneOrTwo x ∧ OneOrTwo y ∧ op.onInts x y = .ok v := by
  rcases hv with rfl | rfl | rfl | rfl
  · cases op with
    | add => exact ⟨2, -1, by decide⟩
    | substract => exact ⟨2, 1, by decide⟩
    | divide => exact ⟨1, 1, by decide⟩
    | star => exact ⟨1, 1, by decide⟩
  · cases op with
    | add => exact ⟨-2, 1, by decide⟩
    | substract => exact ⟨1, 2, by decide⟩
    | divide => exact ⟨-1, 1, by decide⟩
    | star => exact ⟨-1, 1, by decide⟩
  · cases op with
    | add => exact ⟨1, 1, by decide⟩
    | substract => exact ⟨1, -1, by decide⟩
    | divide => exact ⟨2, 1, by decide⟩
    | star => exact ⟨2, 1, by decide⟩
  · cases op with
    | add => exact ⟨-1, -1, by decide⟩
    | substract => exact ⟨-1, 1, by decide⟩
    | divide => exact ⟨-2, 1, by decide⟩
    | star => exact ⟨-2, 1, by decide⟩

theorem splits_star (hv : OneOrTwo v) (hop : op ≠ .star) : Splits .star op v := by
  rcases hv with rfl | rfl | rfl | rfl
  · cases op with
    | add => exact ⟨1, 0, 2, -1, 0, -2, by decide⟩
    | substract => exact ⟨1, 0, 2, 1, 0, 2, by decide⟩
    | divide => exact ⟨1, 1, 2, 2, 1, 4, by decide⟩
    | star => exact absurd rfl hop
  · cases op with
    | add => exact ⟨-1, 0, -2, 1, 0, -2, by decide⟩
    | substract => exact ⟨-1, 0, 1, 2, 0, 2, by decide⟩
    | divide => exact ⟨-1, 1, -2, 2, -1, -4, by decide⟩
    | star => exact absurd rfl hop
  · cases op with
    | add => exact ⟨2, 0, 1, 1, 0, 1, by decide⟩
    | substract => exact ⟨2, 0, 3, 1, 0, 3, by decide⟩
    | divide => exact ⟨2, 1, 4, 2, 2, 8, by decide⟩
    | star => exact absurd rfl hop
  · cases op with
    | add => exact ⟨-2, 0, -1, -1, 0, 1, by decide⟩
    | substract => exact ⟨-2, 0, -1, 1, 0, -1, by decide⟩
    | divide => exact ⟨-2, 1, -4, 2, -2, -8, by decide⟩
    | star => exact absurd rfl hop

/-- Of two trees that differ one does not evaluate to zero. -/
theorem Spreads.nonzero (h : Spreads c s v) : ∃ w, Yields c s v w ∧ w ≠ .ok 0 := by
  rcases h with ⟨failure, hyields⟩ | ⟨a, b, hne, ha, hb⟩
  · exact ⟨_, hyields, nofun⟩
  · by_cases hzero : a = 0
    · refine ⟨_, hb, fun heq => hne ?_⟩
      cases heq
      exact hzero
    · refine ⟨_, ha, fun heq => hzero ?_⟩
      cases heq
      rfl

theorem cancels_star {w : Except Failure Int} (hw : w ≠ .ok 0) (z : Int) (hz : w = .ok z) :
    Cancels .star z := by
  refine .inr (.inr ⟨rfl, ?_⟩)
  rintro rfl
  exact hw hz

/-- Multiplication keeps what a wrong operator below it has spread. -/
theorem spreads_of_wrong_star (hwrong : ¬ AllOf .star s) (hv : OneOrTwo v) :
    Spreads .star s v := by
  have hright : ∀ {r : Shape}, (AllOf .star r ∨ ∀ y, OneOrTwo y → Spreads .star r y) →
      ∀ y, OneOrTwo y → ∃ w, Yields .star r y w ∧ w ≠ .ok 0 := by
    rintro r (hall | hspreads) y hy
    · refine ⟨_, hall.yields hy.small, fun heq => hy.ne_zero ?_⟩
      cases heq
      rfl
    · exact (hspreads y hy).nonzero
  refine wrong_induction OneOrTwo.neg ?_ ?_ ?_ ?_ ?_ s hwrong v hv
  · exact fun s v h hv => h.negate (OneOrTwo.neg v hv).small.fits
  · exact fun s v h => h.grouping
  · intro l op r hl hr v hv
    obtain ⟨x, y, hx, hy, hop⟩ := onInts_oneOrTwo op hv
    obtain ⟨wr, hyields, hnonzero⟩ := hright hr y hy
    exact (hl x hx).left hyields (cancels_star hnonzero) hop
  · intro l op r hl hr v hv
    obtain ⟨x, y, hx, hy, hop⟩ := onInts_oneOrTwo op hv
    obtain ⟨wl, hyields, hnonzero⟩ := hright (.inl hl) x hx
    exact Spreads.right hyields (hr y hy) (cancels_star hnonzero) hop
  · exact fun l op r hop hl hr v hv => (splits_star hv hop).spreads hl hr

/-- Where trees spread, one of them does not have the value. -/
theorem Spreads.differs (h : Spreads c s v) : Differs c s v := by
  rcases h with ⟨failure, hyields⟩ | ⟨a, b, hne, ha, hb⟩
  · exact ⟨_, hyields, nofun⟩
  · by_cases hsame : a = v
    · refine ⟨_, hb, fun heq => hne ?_⟩
      cases heq
      exact hsame
    · refine ⟨_, ha, fun heq => hsame ?_⟩
      cases heq
      rfl

/-- A shape with another operator has a tree whose value the fixed operator misses. -/
theorem differs_of_wrong (c : BinaryOperator) (hwrong : ¬ AllOf c s) : Differs c s 2 := by
  cases c with
  | add => exact (spreads_of_wrong_linear (.inl rfl) hwrong (.inl rfl)).differs
  | substract => exact (spreads_of_wrong_linear (.inr rfl) hwrong (.inl rfl)).differs
  | star => exact (spreads_of_wrong_star hwrong (.inr (.inr (.inl rfl)))).differs
  | divide =>
      obtain ⟨w, hyields, hzero⟩ := vanishes_of_wrong hwrong (.inl rfl)
      refine ⟨w, hyields, ?_⟩
      rcases hzero with rfl | ⟨failure, rfl⟩
      · exact fun heq => nomatch heq
      · exact nofun

end Wrong

end Arith

end HiveDb
