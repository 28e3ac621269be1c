import HiveDb.Lib.Program
import Mathlib.Order.Basic
import Mathlib.Order.Lattice

/-!
# Searching an indexed sequence

Three loops over integer cursors: a linear scan, a bisection of a half-open
range, and a three-way binary search that lets its cursors cross.  Each probes
the sequence through a computation that may fail, runs on a budget of rounds,
and is specified by the values its probe returns: the budget `length + 1` is
always enough, and no index outside the range is probed.
-/

namespace HiveDb.Lib.Search

variable {ε α : Type}

/-- First index from `idx` on at which the probe succeeds, or `bound`. -/
def scan (exhausted : ε) (probe : Int → Except ε Bool) (bound : Int) :
    Nat → Nat → Except ε Nat
  | 0, _ => .error exhausted
  | fuel + 1, idx =>
      if (idx : Int) ≠ bound then do
        if ← probe idx then return idx
        scan exhausted probe bound fuel (idx + 1)
      else
        return idx

/-- Halve `[low, high)` until it is empty, keeping the successful half. -/
def bisect (exhausted : ε) (probe : Int → Except ε Bool) :
    Nat → Int → Int → Except ε Int
  | 0, _, _ => .error exhausted
  | fuel + 1, low, high =>
      if high > low then do
        let middle := (high + low).tdiv 2
        if ← probe middle then
          bisect exhausted probe fuel low middle
        else
          bisect exhausted probe fuel (middle + 1) high
      else
        return low

/-- Move `low` and `high` past the probed middle until they meet or cross. -/
def narrow (exhausted : ε) (probe : Int → Except ε Ordering) :
    Nat → Int → Int → Int → Except ε Int
  | 0, _, _, _ => .error exhausted
  | fuel + 1, low, high, middle =>
      if high > low then do
        match ← probe middle with
        | .eq => return middle
        | .gt =>
            let high := middle - 1
            narrow exhausted probe fuel low high ((high + low).tdiv 2)
        | .lt =>
            let low := middle + 1
            narrow exhausted probe fuel low high ((high + low).tdiv 2)
      else
        return middle

/-- A cut of `[0, bound)`: the predicate fails before it and holds from it on. -/
structure IsCut (p : Nat → Prop) (bound cut : Nat) : Prop where
  le : cut ≤ bound
  before : ∀ i, i < cut → ¬ p i
  from_cut : ∀ i, cut ≤ i → i < bound → p i

theorem IsCut.unique {p : Nat → Prop} {bound first second : Nat} (hfirst : IsCut p bound first)
    (hsecond : IsCut p bound second) : first = second := by
  rcases Nat.lt_trichotomy first second with hlt | heq | hgt
  · exact absurd (hfirst.from_cut first (Nat.le_refl _) (Nat.lt_of_lt_of_le hlt hsecond.le))
      (hsecond.before first hlt)
  · exact heq
  · exact absurd (hsecond.from_cut second (Nat.le_refl _) (Nat.lt_of_lt_of_le hgt hfirst.le))
      (hfirst.before second hgt)

theorem IsCut.eq_iff {p q : Nat → Prop} {bound first second : Nat}
    (hfirst : IsCut p bound first) (hsecond : IsCut q bound second) :
    first = second ↔ ∀ i, i < bound → (p i ↔ q i) := by
  constructor
  · rintro rfl i hi
    rcases Nat.lt_or_ge i first with hlt | hge
    · exact iff_of_false (hfirst.before i hlt) (hsecond.before i hlt)
    · exact iff_of_true (hfirst.from_cut i hge hi) (hsecond.from_cut i hge hi)
  · intro hagree
    refine hfirst.unique ⟨hsecond.le, fun i hi hp => ?_, fun i hcut hi => ?_⟩
    · exact hsecond.before i hi ((hagree i (Nat.lt_of_lt_of_le hi hsecond.le)).mp hp)
    · exact (hagree i hi).mpr (hsecond.from_cut i hcut hi)

/-- The scan stops at the first index at which the predicate holds. -/
theorem scan_spec (exhausted : ε) {probe : Int → Except ε Bool} {p : Nat → Prop}
    [DecidablePred p] {bound : Nat}
    (hprobe : ∀ i : Nat, i < bound → probe i = .ok (decide (p i)))
    (fuel idx : Nat) (hidx : idx ≤ bound) (hfuel : bound - idx < fuel)
    (hbefore : ∀ i, i < idx → ¬ p i) :
    ∃ r, scan exhausted probe bound fuel idx = .ok r ∧ r ≤ bound ∧
      (∀ i, i < r → ¬ p i) ∧ (r < bound → p r) := by
  induction fuel generalizing idx with
  | zero => exact absurd hfuel (Nat.not_lt_zero _)
  | succ fuel ih =>
      unfold scan
      by_cases hend : idx = bound
      · subst hend
        exact ⟨idx, by simp [pure, Except.pure], Nat.le_refl _, hbefore,
          fun h => absurd h (Nat.lt_irrefl _)⟩
      · have hlt : idx < bound := by omega
        have hne : (idx : Int) ≠ (bound : Int) := by omega
        rw [if_pos hne, hprobe idx hlt]
        by_cases hp : p idx
        · exact ⟨idx, by simp [hp, bind, Except.bind, pure, Except.pure], hidx, hbefore,
            fun _ => hp⟩
        · obtain ⟨r, hr, hle, hb, hat⟩ := ih (idx + 1) (by omega) (by omega) (by
            intro i hi
            rcases Nat.lt_succ_iff_lt_or_eq.mp hi with hlt | heq
            · exact hbefore i hlt
            · exact heq ▸ hp)
          exact ⟨r, by simpa [hp, bind, Except.bind] using hr, hle, hb, hat⟩

theorem midpoint {low high : Nat} (h : low < high) :
    ∃ middle : Nat, ((high : Int) + low).tdiv 2 = middle ∧ low ≤ middle ∧ middle < high := by
  refine ⟨(high + low) / 2, ?_, by omega, by omega⟩
  rw [Int.tdiv_eq_ediv_of_nonneg (by omega)]
  omega

/--
Bisection of `[low, high)` returns the cut of a predicate that is false before
`low`, true at `high`, and stays true once it is true.
-/
theorem bisect_spec (exhausted : ε) {probe : Int → Except ε Bool} {p : Nat → Prop}
    [DecidablePred p] {bound : Nat}
    (hprobe : ∀ i : Nat, i < bound → probe i = .ok (decide (p i)))
    (hmono : ∀ i j, i ≤ j → j < bound → p i → p j)
    (fuel low high : Nat) (hle : low ≤ high) (hhigh : high ≤ bound) (hfuel : high - low < fuel)
    (hbefore : ∀ i, i < low → ¬ p i) (hfrom : ∀ i, high ≤ i → i < bound → p i) :
    ∃ r : Nat, bisect exhausted probe fuel low high = .ok (r : Int) ∧ r ≤ high ∧
      IsCut p bound r := by
  induction fuel generalizing low high with
  | zero => exact absurd hfuel (Nat.not_lt_zero _)
  | succ fuel ih =>
      unfold bisect
      by_cases hend : low = high
      · subst hend
        exact ⟨low, by simp [pure, Except.pure], Nat.le_refl _, hhigh, hbefore, hfrom⟩
      · have hlt : low < high := by omega
        obtain ⟨middle, hmid, hlow, hupp⟩ := midpoint hlt
        rw [if_pos (by omega : (high : Int) > low), hmid]
        dsimp only
        rw [hprobe middle (by omega)]
        by_cases hp : p middle
        · obtain ⟨r, hr, hrle, hcut⟩ := ih low middle hlow (by omega) (by omega) hbefore (by
            intro i hi hib
            exact hmono middle i hi hib hp)
          exact ⟨r, by simpa [hp, bind, Except.bind] using hr, by omega, hcut⟩
        · obtain ⟨r, hr, hrle, hcut⟩ := ih (middle + 1) high (by omega) hhigh (by omega) (by
            intro i hi hpi
            exact hp (hmono i middle (by omega) (by omega) hpi)) hfrom
          exact ⟨r, by simpa [hp, bind, Except.bind] using hr, hrle, hcut⟩

/-- A predicate that stays true and fails at the last index holds nowhere. -/
theorem IsCut.of_last {p : Nat → Prop} {bound : Nat}
    (hmono : ∀ i j, i ≤ j → j < bound → p i → p j) (hlast : ¬ p (bound - 1)) :
    IsCut p bound bound where
  le := Nat.le_refl bound
  before i hi hp := hlast (hmono i (bound - 1) (by omega) (by omega) hp)
  from_cut i hbound hi := by omega

/-- Behind a test of the last index, bisection of the indexes before it returns the cut. -/
theorem bisect_of_last (exhausted : ε) {probe : Int → Except ε Bool} {p : Nat → Prop}
    [DecidablePred p] {bound : Nat}
    (hprobe : ∀ i : Nat, i < bound → probe i = .ok (decide (p i)))
    (hmono : ∀ i j, i ≤ j → j < bound → p i → p j) (hlast : p (bound - 1)) (hpos : 0 < bound)
    (fuel : Nat) (hfuel : bound ≤ fuel) :
    ∃ r : Nat, bisect exhausted probe fuel 0 ((bound - 1 : Nat) : Int) = .ok (r : Int) ∧
      IsCut p bound r := by
  have hfrom : ∀ i, bound - 1 ≤ i → i < bound → p i := by
    intro i hi hib
    obtain rfl : i = bound - 1 := by omega
    exact hlast
  obtain ⟨r, hr, _, hcut⟩ := bisect_spec exhausted hprobe hmono fuel 0 (bound - 1)
    (Nat.zero_le _) (Nat.sub_le _ _) (by omega) (fun i hi => absurd hi (Nat.not_lt_zero i)) hfrom
  exact ⟨r, hr, hcut⟩

/-- Whatever its probe says, bisection ends between its cursors. -/
theorem bisect_range {exhausted : ε} {probe : Int → Except ε Bool} {fuel : Nat} {low high r : Int}
    (hlow : 0 ≤ low) (hle : low ≤ high) (hrun : bisect exhausted probe fuel low high = .ok r) :
    low ≤ r ∧ r ≤ high := by
  induction fuel generalizing low high with
  | zero => cases hrun
  | succ fuel ih =>
      unfold bisect at hrun
      split at hrun
      next hlt =>
        obtain ⟨low, rfl⟩ := Int.eq_ofNat_of_zero_le hlow
        obtain ⟨high, rfl⟩ := Int.eq_ofNat_of_zero_le (hlow.trans hle)
        obtain ⟨middle, hmid, hlower, hupper⟩ := midpoint (Int.ofNat_lt.mp hlt)
        dsimp only at hrun
        rw [hmid] at hrun
        obtain ⟨found, _, hrest⟩ := except_bind_eq_ok_iff.mp hrun
        cases found with
        | true =>
            have hrange := ih (by omega) (by omega) hrest
            omega
        | false =>
            have hrange := ih (by omega) (by omega) hrest
            omega
      next =>
        cases hrun
        omega

/-- What a crossing search still knows about the keys outside its cursors. -/
structure Bracket [LinearOrder α] (f : Nat → α) (key : α) (bound : Nat) (low : Nat)
    (high : Int) : Prop where
  high_lt : high < bound
  low_le : (low : Int) ≤ high + 1
  below : ∀ i, i < low → f i < key
  above : ∀ i : Nat, high < i → i < bound → key < f i

/-- Once the cursors have met or crossed, the probed middle is conclusive. -/
theorem Bracket.conclusive [LinearOrder α] {f : Nat → α} {key : α} {bound low : Nat} {high : Int}
    (bracket : Bracket f key bound low high) (hbound : 0 < bound) (hend : high ≤ low) :
    ∃ m : Nat, (high + low).tdiv 2 = m ∧ m < bound ∧
      (f m = key ∨ ∀ i, i < bound → f i ≠ key) := by
  rcases eq_or_lt_of_le hend with heq | hlt
  · -- the cursors met on one last slot
    refine ⟨low, ?_, by have := bracket.high_lt; omega, ?_⟩
    · rw [heq, Int.tdiv_eq_ediv_of_nonneg (by omega)]
      omega
    · by_cases hkey : f low = key
      · exact Or.inl hkey
      · refine Or.inr fun i hi hfi => ?_
        rcases Nat.lt_trichotomy i low with h | h | h
        · exact absurd hfi (ne_of_lt (bracket.below i h))
        · exact hkey (h ▸ hfi)
        · exact absurd hfi (ne_of_gt (bracket.above i (by omega) hi))
  · -- the cursors crossed: every slot is on one side of the key
    have hlow := bracket.low_le
    have hnone : ∀ i, i < bound → f i ≠ key := by
      intro i hi hfi
      rcases Nat.lt_or_ge i low with h | h
      · exact absurd hfi (ne_of_lt (bracket.below i h))
      · exact absurd hfi (ne_of_gt (bracket.above i (by omega) hi))
    rcases Nat.eq_zero_or_pos low with hzero | hpos
    · refine ⟨0, ?_, hbound, Or.inr hnone⟩
      have : high = -1 := by omega
      subst this
      subst hzero
      rfl
    · refine ⟨low - 1, ?_, by have := bracket.high_lt; omega, Or.inr hnone⟩
      rw [Int.tdiv_eq_ediv_of_nonneg (by omega)]
      omega

/--
The crossing search of a sorted sequence ends on a slot inside it, and that
slot holds the key unless no slot does.
-/
theorem narrow_spec [LinearOrder α] (exhausted : ε) {probe : Int → Except ε Ordering}
    {f : Nat → α} {key : α} {bound : Nat} (hbound : 0 < bound)
    (hsorted : ∀ i j, i ≤ j → j < bound → f i ≤ f j)
    (hprobe : ∀ i : Nat, i < bound → probe i =
      .ok (if f i = key then .eq else if f i > key then .gt else .lt))
    (fuel low : Nat) (high : Int) (hfuel : high - low < fuel) (hfuel' : 0 < fuel)
    (bracket : Bracket f key bound low high) :
    ∃ m : Nat, narrow exhausted probe fuel low high ((high + low).tdiv 2) = .ok (m : Int) ∧
      m < bound ∧ (f m = key ∨ ∀ i, i < bound → f i ≠ key) := by
  induction fuel generalizing low high with
  | zero => exact absurd hfuel' (Nat.lt_irrefl _)
  | succ fuel ih =>
      unfold narrow
      by_cases hend : high > low
      · obtain ⟨top, rfl⟩ : ∃ top : Nat, high = top := ⟨high.toNat, by omega⟩
        obtain ⟨middle, hmid, hlow, hupp⟩ := midpoint (show low < top by omega)
        have hhigh := bracket.high_lt
        have hmiddle : middle < bound := by omega
        rw [if_pos hend, hmid, hprobe middle hmiddle]
        by_cases heq : f middle = key
        · exact ⟨middle, by simp [heq, bind, Except.bind, pure, Except.pure], hmiddle, Or.inl heq⟩
        · by_cases hgt : f middle > key
          · have hnext : Bracket f key bound low ((middle : Int) - 1) :=
              { high_lt := by omega
                low_le := by omega
                below := bracket.below
                above := fun i hi hib =>
                  lt_of_lt_of_le hgt (hsorted middle i (by omega) hib) }
            obtain ⟨m, hm, hrest⟩ := ih low ((middle : Int) - 1) (by omega) (by omega) hnext
            exact ⟨m, by simpa [heq, hgt, bind, Except.bind] using hm, hrest⟩
          · have hlt : f middle < key := lt_of_le_of_ne (not_lt.mp hgt) heq
            have hnext : Bracket f key bound (middle + 1) (top : Int) :=
              { high_lt := hhigh
                low_le := by omega
                below := fun i hi =>
                  lt_of_le_of_lt (hsorted i middle (by omega) hmiddle) hlt
                above := bracket.above }
            obtain ⟨m, hm, hrest⟩ := ih (middle + 1) top (by omega) (by omega) hnext
            exact ⟨m, by simpa [heq, hgt, bind, Except.bind] using hm, hrest⟩
      · rw [if_neg hend]
        obtain ⟨m, hm, hlt, hfound⟩ := bracket.conclusive hbound (by omega)
        exact ⟨m, by simp [hm, pure, Except.pure], hlt, hfound⟩

end HiveDb.Lib.Search
