import Mathlib.Tactic.Common
import Mathlib.Data.List.Induction

/-!
# Labelled runs

A run applies operations one after another, each related to the state before
and after it by a step relation.  The module gives the rule by which invariants
of runs are proved, in the form that remembers the operations done so far.
-/

namespace HiveDb.Lib

variable {σ ι : Type}

/-- The state after the operations of the list, each taking one step. -/
inductive Run (step : σ → ι → σ → Prop) (start : σ) : List ι → σ → Prop where
  | nil : Run step start [] start
  | snoc {ops : List ι} {s t : σ} {op : ι} (before : Run step start ops s)
      (last : step s op t) : Run step start (ops ++ [op]) t

namespace Run

variable {step : σ → ι → σ → Prop} {start : σ}

/-- What holds at the start and is preserved by each step holds after every run. -/
theorem invariant (Inv : List ι → σ → Prop) (hstart : Inv [] start)
    (hstep : ∀ ops s op t, Inv ops s → step s op t → Inv (ops ++ [op]) t)
    {ops : List ι} {s : σ} (hrun : Run step start ops s) : Inv ops s := by
  induction hrun with
  | nil => exact hstart
  | snoc before last ih => exact hstep _ _ _ _ ih last

/-- A run whose steps decrease a measure is no longer than the measure at its start. -/
theorem length_add_le (measure : σ → Nat) (Inv : σ → Prop) (hstart : Inv start)
    (hstep : ∀ s op t, Inv s → step s op t → Inv t ∧ measure t < measure s)
    {ops : List ι} {s : σ} (hrun : Run step start ops s) :
    ops.length + measure s ≤ measure start := by
  have hinvariant := hrun.invariant
    (fun ops s => Inv s ∧ ops.length + measure s ≤ measure start) ⟨hstart, by simp⟩ ?_
  · exact hinvariant.2
  · rintro ops s op t ⟨hinv, hle⟩ hlast
    obtain ⟨hinv', hlt⟩ := hstep s op t hinv hlast
    refine ⟨hinv', ?_⟩
    rw [List.length_append, List.length_singleton]
    omega

/-- A run of a step relation is a run of every larger one. -/
theorem mono {step' : σ → ι → σ → Prop} (h : ∀ s op t, step s op t → step' s op t)
    {ops : List ι} {s : σ} (hrun : Run step start ops s) : Run step' start ops s := by
  induction hrun with
  | nil => exact nil
  | snoc before last ih => exact ih.snoc (h _ _ _ last)

theorem append {s t : σ} {first second : List ι} (hfirst : Run step start first s)
    (hsecond : Run step s second t) : Run step start (first ++ second) t := by
  induction hsecond with
  | nil =>
      rw [List.append_nil]
      exact hfirst
  | snoc before last ih =>
      rw [← List.append_assoc]
      exact ih.snoc last

theorem cons {op : ι} {s t : σ} {ops : List ι} (first : step start op s)
    (rest : Run step s ops t) : Run step start (op :: ops) t :=
  append (nil.snoc first) rest

/-- A function that makes one step after another as far as it can evaluates runs. -/
theorem of_evaluated {next? : σ → ι → Option σ} {run? : σ → List ι → Option σ}
    (hnil : ∀ s, run? s [] = some s)
    (hcons : ∀ s op ops, run? s (op :: ops) = (next? s op).bind fun t => run? t ops)
    (hnext : ∀ {s op t}, next? s op = some t → step s op t) {s t : σ} {ops : List ι}
    (h : run? s ops = some t) : Run step s ops t := by
  induction ops generalizing s with
  | nil =>
      cases (hnil s).symm.trans h
      exact nil
  | cons op ops ih =>
      rw [hcons] at h
      obtain ⟨middle, hfirst, hrest⟩ := Option.bind_eq_some_iff.mp h
      exact cons (hnext hfirst) (ih hrest)

theorem of_concat {ops : List ι} {op : ι} {t : σ} (hrun : Run step start (ops ++ [op]) t) :
    ∃ s, Run step start ops s ∧ step s op t := by
  generalize hall : ops ++ [op] = all at hrun
  cases hrun with
  | nil => simp at hall
  | snoc before last =>
      obtain ⟨rfl, heq⟩ := List.append_inj' hall rfl
      cases heq
      exact ⟨_, before, last⟩

/-- Every step of a run starts in a state reached by the operations before it. -/
theorem of_append {before : List ι} {op : ι} {after : List ι} {t : σ}
    (hrun : Run step start (before ++ op :: after) t) :
    ∃ s s', Run step start before s ∧ step s op s' := by
  induction after using List.reverseRecOn generalizing t with
  | nil =>
      obtain ⟨s, hs, hlast⟩ := of_concat hrun
      exact ⟨s, t, hs, hlast⟩
  | append_singleton after last ih =>
      rw [← List.cons_append, ← List.append_assoc] at hrun
      obtain ⟨s, hs, _⟩ := of_concat hrun
      exact ih hs

end Run

end HiveDb.Lib
