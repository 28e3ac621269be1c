import HiveDb.Lib.Program

/-!
# Programs that read a list

The state of such a program is what is left of the list.  A program is local if
what it returns depends on what it reads and on the next element only: whatever
follows, or nothing at all, changes nothing.  For programs
with a bound on their depth the module gives the rules by which a bound is shown
to suffice, and to be of no influence where it does.
-/

namespace HiveDb.Lib

variable {ε σ τ α β : Type}

/-- Step over the next element if `f` takes it. -/
def accept (f : τ → Option α) : EStateM ε (List τ) (Option α) := fun elements =>
  match elements with
  | [] => .ok none []
  | first :: rest =>
      match f first with
      | some a => .ok (some a) rest
      | none => .ok none (first :: rest)

theorem accept_of_some {f : τ → Option α} {first : τ} {rest : List τ} {a : α}
    (h : f first = some a) :
    (accept f : EStateM ε (List τ) (Option α)) (first :: rest) = .ok (some a) rest := by
  simp only [accept, h]

theorem accept_of_none {f : τ → Option α} {first : τ} {rest : List τ} (h : f first = none) :
    (accept f : EStateM ε (List τ) (Option α)) (first :: rest) = .ok none (first :: rest) := by
  simp only [accept, h]

/-- The next element is not taken, or there is none. -/
theorem accept_miss {f : τ → Option α} {elements : List τ}
    (h : ∀ first ∈ elements.head?, f first = none) :
    (accept f : EStateM ε (List τ) (Option α)) elements = .ok none elements := by
  cases elements with
  | nil => rfl
  | cons first rest => exact accept_of_none (h first rfl)

/-- What `accept` has done to the list where it took the next element. -/
theorem accept_some {f : τ → Option α} {elements rest : List τ} {a : α}
    (h : (accept f : EStateM ε (List τ) (Option α)) elements = .ok (some a) rest) :
    ∃ first, elements = first :: rest ∧ f first = some a := by
  cases elements with
  | nil => cases h
  | cons first others =>
      cases hf : f first with
      | some b =>
          rw [accept_of_some hf] at h
          cases h
          exact ⟨first, rfl, hf⟩
      | none =>
          rw [accept_of_none hf] at h
          cases h

theorem accept_none {f : τ → Option α} {elements rest : List τ}
    (h : (accept f : EStateM ε (List τ) (Option α)) elements = .ok none rest) :
    elements = rest := by
  cases elements with
  | nil =>
      cases h
      rfl
  | cons first others =>
      cases hf : f first with
      | some b =>
          rw [accept_of_some hf] at h
          cases h
      | none =>
          rw [accept_of_none hf] at h
          cases h
          rfl

/-- The next element is taken, or the list stays as it is. -/
theorem accept_cases (f : τ → Option α) (elements : List τ) :
    (∃ first rest a, elements = first :: rest ∧ f first = some a ∧
      (accept f : EStateM ε (List τ) (Option α)) elements = .ok (some a) rest) ∨
    ((∀ first ∈ elements.head?, f first = none) ∧
      (accept f : EStateM ε (List τ) (Option α)) elements = .ok none elements) := by
  cases elements with
  | nil => exact .inr ⟨nofun, rfl⟩
  | cons first rest =>
      cases hf : f first with
      | some a => exact .inl ⟨first, rest, a, rfl, hf, accept_of_some hf⟩
      | none =>
          refine .inr ⟨fun next hnext => ?_, accept_of_none hf⟩
          cases hnext
          exact hf

/-! ## Locality -/

/-- The list is over, or its next element is that of the other one. -/
def SameNext (list other : List τ) : Prop := list = [] ∨ list.head? = other.head?

theorem SameNext.append {list other : List τ} (h : SameNext list other) (read : List τ) :
    SameNext (read ++ list) (read ++ other) := by
  cases read with
  | nil => exact h
  | cons first rest => exact .inr rfl

/--
A program that returns has read a prefix of the list, and does the same whatever
stands behind the element that follows.
-/
def Local (x : EStateM ε (List τ) α) : Prop :=
  ∀ elements a rest, x elements = .ok a rest →
    ∃ read, elements = read ++ rest ∧ ∀ other, SameNext other rest →
      x (read ++ other) = .ok a other

namespace Local

variable {x : EStateM ε (List τ) α} {f : α → EStateM ε (List τ) β}

theorem ret (a : α) : Local (pure a : EStateM ε (List τ) α) := by
  intro elements b rest h
  cases h
  exact ⟨[], rfl, fun _ _ => rfl⟩

/-- A program that does not return. -/
theorem of_fails (h : ∀ elements, ∃ e s, x elements = .error e s) : Local x := by
  intro elements a rest hreturns
  obtain ⟨e, s, herror⟩ := h elements
  rw [herror] at hreturns
  cases hreturns

theorem fail (e : ε) : Local (throw e : EStateM ε (List τ) α) :=
  of_fails fun elements => ⟨e, elements, rfl⟩

theorem lift (x : Except ε α) : Local (liftPure x : EStateM ε (List τ) α) := by
  cases x with
  | ok a => exact ret a
  | error e => exact fail e

theorem accept (f : τ → Option α) : Local (accept f : EStateM ε (List τ) (Option α)) := by
  intro elements taken rest h
  cases elements with
  | nil =>
      cases h
      refine ⟨[], rfl, fun other hother => ?_⟩
      cases other with
      | nil => rfl
      | cons head tail => simp [SameNext] at hother
  | cons first others =>
      cases hf : f first with
      | some a =>
          rw [accept_of_some hf] at h
          cases h
          exact ⟨[first], rfl, fun _ _ => accept_of_some hf⟩
      | none =>
          rw [accept_of_none hf] at h
          cases h
          refine ⟨[], rfl, fun other hother => ?_⟩
          cases other with
          | nil => rfl
          | cons head tail =>
              obtain rfl : head = first := by simpa [SameNext] using hother
              exact accept_of_none hf

theorem bind (hx : Local x) (hf : ∀ a, Local (f a)) : Local (x >>= f) := by
  intro elements b rest h
  obtain ⟨a, middle, hfirst, hsecond⟩ := bind_eq_ok_iff.mp h
  obtain ⟨read₁, rfl, hcut₁⟩ := hx _ _ _ hfirst
  obtain ⟨read₂, rfl, hcut₂⟩ := hf a _ _ _ hsecond
  refine ⟨read₁ ++ read₂, (List.append_assoc _ _ _).symm, fun other hother => ?_⟩
  rw [List.append_assoc]
  exact (bind_of_ok (hcut₁ _ (hother.append read₂))).trans (hcut₂ _ hother)

theorem length_le (hx : Local x) {elements rest : List τ} {a : α}
    (h : x elements = .ok a rest) : rest.length ≤ elements.length := by
  obtain ⟨read, rfl, _⟩ := hx _ _ _ h
  rw [List.length_append]
  exact Nat.le_add_left _ _

end Local

/-! ## Bounds of no influence -/

/-- Where the first program does not run out of its bound, it is the second one. -/
def Approximates (e₀ : ε) (x y : EStateM ε σ α) : Prop :=
  ∀ s, x s = y s ∨ ∃ s', x s = .error e₀ s'

namespace Approximates

variable {e₀ : ε} {x y : EStateM ε σ α}

theorem refl (x : EStateM ε σ α) : Approximates e₀ x x := fun _ => .inl rfl

theorem exhausted (y : EStateM ε σ α) : Approximates e₀ (throw e₀) y := fun s => .inr ⟨s, rfl⟩

theorem bind {f g : α → EStateM ε σ β} (hx : Approximates e₀ x y)
    (hf : ∀ a, Approximates e₀ (f a) (g a)) : Approximates e₀ (x >>= f) (y >>= g) := by
  intro s
  rcases hx s with hsame | ⟨s', herror⟩
  · cases hy : y s with
    | ok a t =>
        rw [bind_of_ok (hsame.trans hy), bind_of_ok hy]
        exact hf a t
    | error e t =>
        left
        rw [bind_of_error (hsame.trans hy), bind_of_error hy]
  · exact .inr ⟨s', bind_of_error herror⟩

/-- A larger bound, step by step. -/
theorem of_step {p : Nat → EStateM ε σ α} (hstep : ∀ n, Approximates e₀ (p n) (p (n + 1)))
    {m n : Nat} (hle : m ≤ n) : Approximates e₀ (p m) (p n) := by
  induction hle with
  | refl => exact refl _
  | @step n _ ih =>
      intro s
      rcases ih s with hsame | herror
      · rcases hstep n s with hnext | ⟨s', herror⟩
        · exact .inl (hsame.trans hnext)
        · exact .inr ⟨s', hsame.trans herror⟩
      · exact .inr herror

/-- What the program returns within its bound, it returns within a larger one. -/
theorem ok_of_le {p : Nat → EStateM ε σ α} (hstep : ∀ n, Approximates e₀ (p n) (p (n + 1)))
    {m n : Nat} (hle : m ≤ n) {s t : σ} {a : α} (h : p m s = .ok a t) : p n s = .ok a t := by
  rcases of_step hstep hle s with hsame | ⟨s', herror⟩
  · exact hsame.symm.trans h
  · cases herror.symm.trans h

end Approximates

/-! ## Bounds that suffice -/

/--
On lists of at most `n` elements the program does not run out of its bound, and
where it returns it has read at least `k` elements.
-/
def Finishes (e₀ : ε) (n k : Nat) (x : EStateM ε (List τ) α) : Prop :=
  ∀ elements, elements.length ≤ n → (∀ s, x elements ≠ .error e₀ s) ∧
    ∀ a rest, x elements = .ok a rest → rest.length + k ≤ elements.length

namespace Finishes

variable {e₀ : ε} {n k j : Nat} {x : EStateM ε (List τ) α} {f : α → EStateM ε (List τ) β}

theorem mono (h : Finishes e₀ n k x) {m : Nat} (hm : m ≤ n) (hj : j ≤ k) :
    Finishes e₀ m j x := by
  intro elements hlength
  obtain ⟨hbound, hread⟩ := h elements (Nat.le_trans hlength hm)
  exact ⟨hbound, fun a rest hreturns =>
    Nat.le_trans (Nat.add_le_add_left hj _) (hread a rest hreturns)⟩

theorem ret (a : α) : Finishes e₀ n 0 (pure a : EStateM ε (List τ) α) := by
  intro elements _
  refine ⟨nofun, fun b rest hreturns => ?_⟩
  cases hreturns
  exact Nat.le_refl _

/-- A program that ends with another failure. -/
theorem of_fails (h : ∀ elements, ∃ e s, x elements = .error e s ∧ e ≠ e₀) :
    Finishes e₀ n k x := by
  intro elements _
  obtain ⟨e, s, herror, hne⟩ := h elements
  rw [herror]
  refine ⟨fun s' heq => ?_, nofun⟩
  cases heq
  exact hne rfl

theorem fail {e : ε} (hne : e ≠ e₀) : Finishes e₀ n k (throw e : EStateM ε (List τ) α) :=
  of_fails fun elements => ⟨e, elements, rfl, hne⟩

theorem lift {x : Except ε α} (h : x ≠ .error e₀) :
    Finishes e₀ n 0 (liftPure x : EStateM ε (List τ) α) := by
  cases x with
  | ok a => exact ret a
  | error e =>
      refine fail ?_
      rintro rfl
      exact h rfl

theorem bind (hx : Finishes e₀ n j x) (hf : ∀ a, Finishes e₀ (n - j) k (f a)) :
    Finishes e₀ n (j + k) (x >>= f) := by
  intro elements hlength
  obtain ⟨hbound, hread⟩ := hx elements hlength
  cases hfirst : x elements with
  | error e s =>
      rw [bind_of_error hfirst]
      refine ⟨fun s' heq => hbound s' ?_, nofun⟩
      cases heq
      exact hfirst
  | ok a middle =>
      rw [bind_of_ok hfirst]
      have hmiddle := hread a middle hfirst
      obtain ⟨hbound', hread'⟩ := hf a middle (by omega)
      refine ⟨hbound', fun b rest hreturns => ?_⟩
      have hrest := hread' b rest hreturns
      omega

/-- Sequencing behind a step over the next element. -/
theorem accept {g : τ → Option α} {f : Option α → EStateM ε (List τ) β}
    (hsome : 0 < n → ∀ a, Finishes e₀ (n - 1) (k - 1) (f (some a)))
    (hnone : Finishes e₀ n k (f none)) :
    Finishes e₀ n k (HiveDb.Lib.accept g >>= f) := by
  intro elements hlength
  cases hfirst : (HiveDb.Lib.accept g : EStateM ε (List τ) (Option α)) elements with
  | error e s =>
      cases elements with
      | nil => cases hfirst
      | cons first rest =>
          unfold HiveDb.Lib.accept at hfirst
          cases hg : g first <;> simp [hg] at hfirst
  | ok taken middle =>
      rw [bind_of_ok hfirst]
      cases taken with
      | some a =>
          obtain ⟨first, rfl, _⟩ := accept_some hfirst
          simp only [List.length_cons] at hlength
          obtain ⟨hbound, hread⟩ := hsome (by omega) a middle (by omega)
          refine ⟨hbound, fun b rest hreturns => ?_⟩
          have hrest := hread b rest hreturns
          simp only [List.length_cons]
          omega
      | none =>
          obtain rfl := accept_none hfirst
          exact hnone elements hlength

end Finishes

end HiveDb.Lib
