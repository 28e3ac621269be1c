import Mathlib.Tactic.Common

/-!
# Reading a word step by step

A partial step function reads a word from left to right, or stops where it has
no step.  The module gives the rules for one element, for words that are put
together, and for a second state that has every step that the first one has.
-/

namespace HiveDb.Lib

variable {σ τ : Type}

/-- The word is read from the state to its end, and ends in a state that satisfies `P`. -/
def EndsIn (step : σ → τ → Option σ) (P : σ → Prop) : σ → List τ → Prop
  | s, [] => P s
  | s, a :: word => ∃ t, step s a = some t ∧ EndsIn step P t word

namespace EndsIn

variable {step : σ → τ → Option σ} {P Q : σ → Prop} {s s' t : σ} {a : τ} {word : List τ}

theorem cons_iff (h : step s a = some t) :
    EndsIn step P s (a :: word) ↔ EndsIn step P t word := by
  constructor
  · rintro ⟨t', hstep, hends⟩
    cases h.symm.trans hstep
    exact hends
  · intro hends
    exact ⟨t, h, hends⟩

theorem not_cons (h : step s a = none) : ¬ EndsIn step P s (a :: word) := by
  rintro ⟨t, hstep, _⟩
  cases h.symm.trans hstep

/-- Two states that make the same first step. -/
theorem congr_step (h : step s a = step s' a) :
    EndsIn step P s (a :: word) ↔ EndsIn step P s' (a :: word) := by
  simp only [EndsIn, h]

theorem append_iff (before behind : List τ) :
    EndsIn step P s (before ++ behind) ↔
      EndsIn step (fun t => EndsIn step P t behind) s before := by
  induction before generalizing s with
  | nil => exact Iff.rfl
  | cons a before ih => simp only [List.cons_append, EndsIn, ih]

theorem mono (h : ∀ t, P t → Q t) (hends : EndsIn step P s word) : EndsIn step Q s word := by
  induction word generalizing s with
  | nil => exact h s hends
  | cons a word ih =>
      obtain ⟨t, hstep, hrest⟩ := hends
      exact ⟨t, hstep, ih hrest⟩

/-- What is read to its end by one state is by another that follows each of its steps. -/
theorem simulate {R : σ → σ → Prop}
    (hstep : ∀ s s' a t, R s s' → step s a = some t → ∃ t', step s' a = some t' ∧ R t t')
    (hP : ∀ s s', R s s' → P s → Q s') (h : R s s') (hends : EndsIn step P s word) :
    EndsIn step Q s' word := by
  induction word generalizing s s' with
  | nil => exact hP s s' h hends
  | cons a word ih =>
      obtain ⟨t, hfirst, hrest⟩ := hends
      obtain ⟨t', hfirst', h'⟩ := hstep s s' a t h hfirst
      exact ⟨t', hfirst', ih h' hrest⟩

end EndsIn

end HiveDb.Lib
