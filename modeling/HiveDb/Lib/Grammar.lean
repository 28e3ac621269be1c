import HiveDb.Lib.Reader
import Mathlib.Computability.Language

/-!
# Programs that read the sentences of a language

Elements are of kinds, and a language is a set of lists of kinds.  The rules of
the module give the language of a program from those of its parts: sequence is
the product of languages, and a choice by the next element is their sum.
-/

namespace HiveDb.Lib

variable {ε τ κ α β : Type}

/-- The kinds of what the program has read where it returns are a word of the language. -/
def ReadsIn (kind : τ → κ) (L : Language κ) (x : EStateM ε (List τ) α) : Prop :=
  ∀ elements a rest, x elements = .ok a rest →
    ∃ read, elements = read ++ rest ∧ read.map kind ∈ L

namespace ReadsIn

variable {kind : τ → κ} {L M N : Language κ} {x : EStateM ε (List τ) α}

theorem ret (a : α) : ReadsIn kind 1 (pure a : EStateM ε (List τ) α) := by
  intro elements b rest h
  cases h
  exact ⟨[], rfl, Language.nil_mem_one⟩

theorem fail (e : ε) : ReadsIn kind 0 (throw e : EStateM ε (List τ) α) := by
  intro elements a rest h
  cases h

theorem lift (x : Except ε α) : ReadsIn kind 1 (liftPure x : EStateM ε (List τ) α) := by
  cases x with
  | ok a => exact ret a
  | error e =>
      intro elements a rest h
      cases h

/-- One program behind another reads a word of the product. -/
theorem bind {f : α → EStateM ε (List τ) β} (hx : ReadsIn kind L x)
    (hf : ∀ a, ReadsIn kind M (f a)) : ReadsIn kind (L * M) (x >>= f) := by
  intro elements b rest h
  obtain ⟨a, middle, hfirst, hsecond⟩ := bind_eq_ok_iff.mp h
  obtain ⟨read₁, rfl, hword₁⟩ := hx _ _ _ hfirst
  obtain ⟨read₂, rfl, hword₂⟩ := hf a _ _ _ hsecond
  refine ⟨read₁ ++ read₂, (List.append_assoc _ _ _).symm, ?_⟩
  rw [List.map_append]
  exact Language.append_mem_mul hword₁ hword₂

/-- A choice by the next element. -/
theorem accept {g : τ → Option α} {f : Option α → EStateM ε (List τ) β}
    (htakes : ∀ first a, g first = some a → [kind first] ∈ L)
    (hsome : ∀ a, ReadsIn kind M (f (some a))) (hnone : ReadsIn kind N (f none)) :
    ReadsIn kind (L * M + N) (HiveDb.Lib.accept g >>= f) := by
  intro elements b rest h
  obtain ⟨taken, middle, hfirst, hsecond⟩ := bind_eq_ok_iff.mp h
  cases taken with
  | some a =>
      obtain ⟨first, rfl, hg⟩ := accept_some hfirst
      obtain ⟨read, rfl, hword⟩ := hsome a _ _ _ hsecond
      refine ⟨first :: read, rfl, .inl ?_⟩
      exact Language.append_mem_mul (htakes first a hg) hword
  | none =>
      obtain rfl := accept_none hfirst
      obtain ⟨read, rfl, hword⟩ := hnone _ _ _ hsecond
      exact ⟨read, rfl, .inr hword⟩

end ReadsIn

/-! ## Lists in parentheses -/

/-- One or more words with a comma between any two, and what closes the list. -/
def listed (comma close : κ) (L : Language κ) : Language κ :=
  L * KStar.kstar ({[comma]} * L) * {[close]}

section Listed

variable {comma close : κ} {L : Language κ} {word others : List κ}

theorem listed_last (hword : word ∈ L) : word ++ [close] ∈ listed comma close L := by
  apply Language.append_mem_mul _ (Set.mem_singleton _)
  simpa using Language.append_mem_mul hword (Language.nil_mem_kstar ({[comma]} * L))

theorem listed_more (hword : word ∈ L) (hothers : others ∈ listed comma close L) :
    word ++ comma :: others ∈ listed comma close L := by
  have hmore : L * ({[comma]} * listed comma close L) ≤ listed comma close L := by
    calc L * ({[comma]} * listed comma close L)
        = L * (({[comma]} * L) * KStar.kstar ({[comma]} * L)) * {[close]} := by
          simp only [listed, mul_assoc]
      _ ≤ listed comma close L :=
          mul_le_mul_left (mul_le_mul_right mul_kstar_le_kstar L) {[close]}
  apply hmore
  exact Language.append_mem_mul hword (Language.append_mem_mul (Set.mem_singleton _) hothers)

/-- Only the end of a list closes anything, if its words close nothing. -/
theorem count_of_mem_listed [DecidableEq κ] (hne : close ≠ comma)
    (hwords : ∀ word ∈ L, close ∉ word) {list : List κ}
    (hlist : list ∈ listed comma close L) : list.count close = 1 := by
  obtain ⟨body, ⟨first, hfirst, tail, ⟨words, rfl, hmore⟩, rfl⟩, last, rfl, rfl⟩ := hlist
  have hnone : close ∉ words.flatten := by
    intro hin
    obtain ⟨more, hmem, hclose⟩ := List.mem_flatten.mp hin
    obtain ⟨separator, rfl, word, hword, rfl⟩ := hmore more hmem
    rcases List.mem_append.mp hclose with hcomma | hin
    · exact hne (List.mem_singleton.mp hcomma)
    · exact hwords word hword hin
  simp [List.count_eq_zero.mpr hnone, List.count_eq_zero.mpr (hwords first hfirst)]

end Listed

end HiveDb.Lib
