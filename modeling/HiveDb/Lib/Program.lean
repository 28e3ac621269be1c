import Mathlib.Tactic.Common
import Mathlib.Data.List.Basic

/-!
# Programs with state and failure

A program is a state transformer that returns a value or fails; in both cases
the state it leaves behind is kept, so that what a failing call has already
done stays visible to its caller.  The module gives the evaluation rules of
the core monad `EStateM`, the inversion of a returning sequence, running a
program on one part of a larger state, and the rules of three logics: the
partial triple of one program, the outcome of a program as that of a pure
computation, and the simulation of one program by another.
-/

namespace HiveDb.Lib

universe u

variable {ε σ τ α β : Type u}

/-! ## Evaluation -/

section Evaluation

@[simp] theorem pure_apply (a : α) (s : σ) :
    (pure a : EStateM ε σ α) s = .ok a s := rfl

theorem bind_apply (x : EStateM ε σ α) (f : α → EStateM ε σ β) (s : σ) :
    (x >>= f) s =
      match x s with
      | .ok a s' => f a s'
      | .error e s' => .error e s' := rfl

@[simp] theorem get_apply (s : σ) : (get : EStateM ε σ σ) s = .ok s s := rfl

@[simp] theorem modify_apply (f : σ → σ) (s : σ) :
    (modify f : EStateM ε σ PUnit) s = .ok ⟨⟩ (f s) := rfl

/-- Evaluation of a sequence whose first program returns. -/
theorem bind_of_ok {x : EStateM ε σ α} {f : α → EStateM ε σ β} {s s' : σ} {a : α}
    (h : x s = .ok a s') : (x >>= f) s = f a s' := by
  rw [bind_apply, h]

/-- Evaluation of a sequence whose first program fails. -/
theorem bind_of_error {x : EStateM ε σ α} {f : α → EStateM ε σ β} {s s' : σ} {e : ε}
    (h : x s = .error e s') : (x >>= f) s = .error e s' := by
  rw [bind_apply, h]

/-- A sequence returns exactly when both of its parts do. -/
theorem bind_eq_ok_iff {x : EStateM ε σ α} {f : α → EStateM ε σ β} {s s'' : σ} {b : β} :
    (x >>= f) s = .ok b s'' ↔ ∃ a s', x s = .ok a s' ∧ f a s' = .ok b s'' := by
  rw [bind_apply]
  cases h : x s with
  | ok a s' =>
      constructor
      · intro hf
        exact ⟨a, s', rfl, hf⟩
      · rintro ⟨a', t, hx, hf⟩
        cases hx
        exact hf
  | error e s' =>
      constructor
      · intro impossible
        cases impossible
      · rintro ⟨a', t, hx, _⟩
        cases hx

end Evaluation

/-! ## Evaluation without a state -/

@[simp] theorem ok_bind (a : α) (f : α → Except ε β) : (Except.ok a >>= f) = f a := rfl

@[simp] theorem error_bind (e : ε) (f : α → Except ε β) :
    (Except.error e >>= f) = .error e := rfl

@[simp] theorem except_pure (a : α) : (pure a : Except ε α) = .ok a := rfl

/-- A sequence returns exactly when both of its parts do. -/
theorem except_bind_eq_ok_iff {x : Except ε α} {f : α → Except ε β} {b : β} :
    (x >>= f) = .ok b ↔ ∃ a, x = .ok a ∧ f a = .ok b := by
  cases x with
  | error e => simp
  | ok a => simp

/-- A sequence fails when its first part fails, or the second one after it. -/
theorem except_bind_eq_error_iff {x : Except ε α} {f : α → Except ε β} {e : ε} :
    (x >>= f) = .error e ↔ x = .error e ∨ ∃ a, x = .ok a ∧ f a = .error e := by
  cases x with
  | error e' => simp
  | ok a => simp

/-- A sequence returns the same when its parts still return what they have returned. -/
theorem except_bind_mono {x x' : Except ε α} {f f' : α → Except ε β} {b : β}
    (hx : ∀ a, x = .ok a → x' = .ok a) (hf : ∀ a, f a = .ok b → f' a = .ok b)
    (h : (x >>= f) = .ok b) : (x' >>= f') = .ok b := by
  obtain ⟨a, hfirst, hrest⟩ := except_bind_eq_ok_iff.mp h
  exact except_bind_eq_ok_iff.mpr ⟨a, hx a hfirst, hf a hrest⟩

/-- A loop over a list in which every round returns. -/
theorem except_mapM_eq_ok {list : List α} {f : α → Except ε β} {g : α → β}
    (h : ∀ a ∈ list, f a = .ok (g a)) : list.mapM f = .ok (list.map g) := by
  induction list with
  | nil => rfl
  | cons a list ih =>
      rw [List.mapM_cons, h a List.mem_cons_self,
        ih fun b hb => h b (List.mem_cons_of_mem _ hb)]
      rfl

/-! ## Embedding pure failing computations and parts of the state -/

/-- A computation without state, run as a program. -/
def liftPure (x : Except ε α) : EStateM ε σ α := fun s =>
  match x with
  | .ok a => .ok a s
  | .error e => .error e s

@[simp] theorem liftPure_ok (a : α) (s : σ) :
    (liftPure (.ok a) : EStateM ε σ α) s = .ok a s := rfl

@[simp] theorem liftPure_error (e : ε) (s : σ) :
    (liftPure (.error e) : EStateM ε σ α) s = .error e s := rfl

theorem liftPure_eq_ok_iff {x : Except ε α} {a : α} {s s' : σ} :
    (liftPure x : EStateM ε σ α) s = .ok a s' ↔ x = .ok a ∧ s = s' := by
  cases x <;> simp

/-- Run a program on the part of the state that `part` reads and `store` writes back. -/
def onPart (part : σ → τ) (store : τ → σ → σ) (x : EStateM ε τ α) : EStateM ε σ α := fun s =>
  match x (part s) with
  | .ok a t => .ok a (store t s)
  | .error e t => .error e (store t s)

theorem onPart_of_ok {part : σ → τ} {store : τ → σ → σ} {x : EStateM ε τ α}
    {s : σ} {a : α} {t : τ} (h : x (part s) = .ok a t) :
    onPart part store x s = .ok a (store t s) := by
  simp only [onPart, h]

theorem onPart_eq_ok_iff {part : σ → τ} {store : τ → σ → σ} {x : EStateM ε τ α}
    {s s' : σ} {a : α} :
    onPart part store x s = .ok a s' ↔ ∃ t, x (part s) = .ok a t ∧ s' = store t s := by
  unfold onPart
  cases x (part s) with
  | ok b t =>
      constructor
      · intro h
        cases h
        exact ⟨t, rfl, rfl⟩
      · rintro ⟨t', h, rfl⟩
        cases h
        rfl
  | error e t =>
      constructor
      · intro impossible
        cases impossible
      · rintro ⟨t', h, _⟩
        cases h

theorem onPart_eq_error_iff {part : σ → τ} {store : τ → σ → σ} {x : EStateM ε τ α}
    {s s' : σ} {e : ε} :
    onPart part store x s = .error e s' ↔ ∃ t, x (part s) = .error e t ∧ s' = store t s := by
  unfold onPart
  cases x (part s) with
  | ok a t =>
      constructor
      · intro impossible
        cases impossible
      · rintro ⟨t', h, _⟩
        cases h
  | error e t =>
      constructor
      · intro h
        cases h
        exact ⟨t, rfl, rfl⟩
      · rintro ⟨t', h, rfl⟩
        cases h
        rfl

/-! ## What a program returns -/

/-- Whatever state it starts from, the program returns values of this kind only. -/
def Returns (P : α → Prop) (x : EStateM ε σ α) : Prop := ∀ s a t, x s = .ok a t → P a

namespace Returns

variable {P Q : α → Prop} {x : EStateM ε σ α}

theorem ret {a : α} (h : P a) : Returns P (pure a : EStateM ε σ α) := by
  intro s b t hreturns
  cases hreturns
  exact h

theorem fail (e : ε) : Returns P (throw e : EStateM ε σ α) := by
  intro s a t impossible
  cases impossible

theorem bind {P : β → Prop} {f : α → EStateM ε σ β} (hx : Returns Q x)
    (hf : ∀ a, Q a → Returns P (f a)) : Returns P (x >>= f) := by
  intro s b t hreturns
  obtain ⟨a, middle, hfirst, hrest⟩ := bind_eq_ok_iff.mp hreturns
  exact hf a (hx s a middle hfirst) middle b t hrest

/-- A first part whose result does not matter. -/
theorem after {P : β → Prop} {f : α → EStateM ε σ β} (hf : ∀ a, Returns P (f a)) :
    Returns P (x >>= f) :=
  bind (Q := fun _ => True) (fun _ _ _ _ => trivial) fun a _ => hf a

theorem mono (h : Returns Q x) (hmono : ∀ a, Q a → P a) : Returns P x :=
  fun s a t hreturns => hmono a (h s a t hreturns)

end Returns

/-! ## How a program fails -/

/-- Whatever state it starts from, the program fails in these ways only. -/
def Fails (P : ε → Prop) (x : EStateM ε σ α) : Prop := ∀ s e t, x s = .error e t → P e

namespace Fails

variable {P : ε → Prop} {x : EStateM ε σ α}

theorem ret (a : α) : Fails P (pure a : EStateM ε σ α) := by
  intro s e t impossible
  cases impossible

theorem fail {e : ε} (h : P e) : Fails P (throw e : EStateM ε σ α) := by
  intro s e' t hfails
  cases hfails
  exact h

theorem inspect {f : σ → EStateM ε σ α} (h : ∀ s, Fails P (f s)) : Fails P (get >>= f) :=
  fun s e t hfails => h s s e t hfails

theorem change (f : σ → σ) : Fails P (modify f : EStateM ε σ PUnit) := by
  intro s e t impossible
  cases impossible

theorem bind {f : α → EStateM ε σ β} (hx : Fails P x) (hf : ∀ a, Fails P (f a)) :
    Fails P (x >>= f) := by
  intro s e t hfails
  rw [bind_apply] at hfails
  cases hrun : x s with
  | ok a middle =>
      rw [hrun] at hfails
      exact hf a middle e t hfails
  | error e' middle =>
      rw [hrun] at hfails
      cases hfails
      exact hx _ _ _ hrun

theorem lift {y : Except ε α} (h : ∀ e, y = .error e → P e) :
    Fails P (liftPure y : EStateM ε σ α) := by
  cases y with
  | ok a => exact ret a
  | error e => exact fail (h e rfl)

end Fails

/-! ## Triples -/

/--
From every state before, the program returns with the condition on results, or
fails with the condition on failures.
-/
def Ensures (Pre : σ → Prop) (x : EStateM ε σ α) (Post : α → σ → Prop) (Fail : ε → σ → Prop) :
    Prop :=
  ∀ s, Pre s →
    (∀ a s', x s = .ok a s' → Post a s') ∧ ∀ e s', x s = .error e s' → Fail e s'

namespace Ensures

variable {Pre Pre' : σ → Prop} {x : EStateM ε σ α} {Post Post' : α → σ → Prop}
variable {Fail Fail' : ε → σ → Prop}

theorem ret {a : α} (h : ∀ s, Pre s → Post a s) : Ensures Pre (pure a) Post Fail := by
  intro s hpre
  refine ⟨fun b s' hrun => ?_, fun e s' impossible => nomatch impossible⟩
  cases hrun
  exact h s hpre

theorem fail {e : ε} (h : ∀ s, Pre s → Fail e s) : Ensures Pre (throw e) Post Fail := by
  intro s hpre
  refine ⟨fun b s' impossible => (nomatch impossible), fun e s' hrun => ?_⟩
  cases hrun
  exact h s hpre

theorem seq {Mid : α → σ → Prop} {f : α → EStateM ε σ β} {Post : β → σ → Prop}
    (hx : Ensures Pre x Mid Fail) (hf : ∀ a, Ensures (Mid a) (f a) Post Fail) :
    Ensures Pre (x >>= f) Post Fail := by
  intro s hpre
  rw [bind_apply]
  cases hrun : x s with
  | ok a mid => exact hf a mid ((hx s hpre).1 a mid hrun)
  | error e s' =>
      refine ⟨fun b t impossible => (nomatch impossible), fun e' t heq => ?_⟩
      cases heq
      exact (hx s hpre).2 e s' hrun

/-- Strengthen the condition before and weaken the conditions after. -/
theorem conseq (h : Ensures Pre x Post Fail) (hpre : ∀ s, Pre' s → Pre s)
    (hpost : ∀ a s, Post a s → Post' a s) (hfail : ∀ e s, Fail e s → Fail' e s) :
    Ensures Pre' x Post' Fail' := fun s hs =>
  ⟨fun a s' hrun => hpost a s' ((h s (hpre s hs)).1 a s' hrun),
    fun e s' hrun => hfail e s' ((h s (hpre s hs)).2 e s' hrun)⟩

/-- Two conditions are carried side by side. -/
theorem both (h : Ensures Pre x Post Fail) (h' : Ensures Pre' x Post' Fail') :
    Ensures (fun s => Pre s ∧ Pre' s) x (fun a s => Post a s ∧ Post' a s)
      fun e s => Fail e s ∧ Fail' e s := fun s hs =>
  ⟨fun a s' hrun => ⟨(h s hs.1).1 a s' hrun, (h' s hs.2).1 a s' hrun⟩,
    fun e s' hrun => ⟨(h s hs.1).2 e s' hrun, (h' s hs.2).2 e s' hrun⟩⟩

/-- A fact in the condition before may be assumed. -/
theorem assume {P : Prop} (h : P → Ensures Pre x Post Fail) :
    Ensures (fun s => P ∧ Pre s) x Post Fail :=
  fun s hs => h hs.1 s hs.2

/-- A value in the condition before may be named. -/
theorem ofExists {ι : Sort*} {Pre : ι → σ → Prop} (h : ∀ i, Ensures (Pre i) x Post Fail) :
    Ensures (fun s => ∃ i, Pre i s) x Post Fail :=
  fun s ⟨i, hs⟩ => h i s hs

theorem lift {y : Except ε α} (hpost : ∀ a s, Pre s → y = .ok a → Post a s)
    (hfail : ∀ e s, Pre s → y = .error e → Fail e s) : Ensures Pre (liftPure y) Post Fail := by
  intro s hpre
  cases y with
  | ok a => exact ret (fun s hs => hpost a s hs rfl) s hpre
  | error e => exact fail (fun s hs => hfail e s hs rfl) s hpre

theorem change {f : σ → σ} {Post : PUnit → σ → Prop} (h : ∀ s, Pre s → Post ⟨⟩ (f s)) :
    Ensures Pre (modify f) Post Fail := by
  intro s hpre
  refine ⟨fun b s' hrun => ?_, fun e s' impossible => nomatch impossible⟩
  cases hrun
  exact h s hpre

/-- A continuation that depends on the state. -/
theorem inspect {f : σ → EStateM ε σ α} (h : ∀ s, Pre s → Ensures Pre (f s) Post Fail) :
    Ensures Pre (get >>= f) Post Fail :=
  fun s hpre => h s hpre s hpre

/-- A continuation of which nothing but the state that has been read is known. -/
theorem inspectSelf {f : σ → EStateM ε σ α}
    (h : ∀ s, Pre s → Ensures (fun t => t = s) (f s) Post Fail) :
    Ensures Pre (get >>= f) Post Fail :=
  fun s hpre => h s hpre s rfl

end Ensures

/-! ## Programs with the outcome of a pure computation -/

/--
From this state the program returns or fails as the computation without state
does, and leaves a state of the first kind when it returns, of the second when
it fails.
-/
def Delivers (x : EStateM ε σ α) (s : σ) (outcome : Except ε α) (After Failed : σ → Prop) : Prop :=
  match outcome with
  | .ok a => ∃ t, x s = .ok a t ∧ After t
  | .error e => ∃ t, x s = .error e t ∧ Failed t

namespace Delivers

variable {x : EStateM ε σ α} {s : σ} {outcome : Except ε α} {After After' Failed Failed' : σ → Prop}

theorem ret {a : α} (h : After s) :
    Delivers (pure a : EStateM ε σ α) s (.ok a) After Failed := ⟨s, rfl, h⟩

theorem fail {e : ε} (h : Failed s) :
    Delivers (throw e : EStateM ε σ α) s (.error e) After Failed := ⟨s, rfl, h⟩

theorem lift (hafter : ∀ a, outcome = .ok a → After s)
    (hfailed : ∀ e, outcome = .error e → Failed s) :
    Delivers (liftPure outcome) s outcome After Failed := by
  cases outcome with
  | ok a => exact ret (hafter a rfl)
  | error e => exact fail (hfailed e rfl)

theorem seq {Mid Stuck : σ → Prop} {f : α → EStateM ε σ β} {g : α → Except ε β}
    (hx : Delivers x s outcome Mid Stuck)
    (hf : ∀ a t, outcome = .ok a → Mid t → Delivers (f a) t (g a) After Failed)
    (hfail : ∀ e t, outcome = .error e → Stuck t → Failed t) :
    Delivers (x >>= f) s (outcome >>= g) After Failed := by
  cases outcome with
  | ok a =>
      obtain ⟨t, hrun, hmid⟩ := hx
      have hrest := hf a t rfl hmid
      rw [ok_bind]
      unfold Delivers at hrest ⊢
      rwa [bind_of_ok hrun]
  | error e =>
      obtain ⟨t, hrun, hstuck⟩ := hx
      exact ⟨t, bind_of_error hrun, hfail e t rfl hstuck⟩

theorem conseq (h : Delivers x s outcome After Failed) (hafter : ∀ t, After t → After' t)
    (hfailed : ∀ t, Failed t → Failed' t) : Delivers x s outcome After' Failed' := by
  cases outcome with
  | ok a =>
      obtain ⟨t, hrun, ht⟩ := h
      exact ⟨t, hrun, hafter t ht⟩
  | error e =>
      obtain ⟨t, hrun, ht⟩ := h
      exact ⟨t, hrun, hfailed t ht⟩

/-- Only what the program does from this state matters. -/
theorem of_eq {y : EStateM ε σ α} {t : σ} (heq : x s = y t)
    (h : Delivers y t outcome After Failed) : Delivers x s outcome After Failed := by
  unfold Delivers at h ⊢
  rwa [heq]

/-- The state that the program leaves behind. -/
theorem exists_after (h : Delivers x s outcome After After) :
    ∃ t, After t ∧ Delivers x s outcome (· = t) (· = t) := by
  cases outcome with
  | ok a =>
      obtain ⟨t, hrun, ht⟩ := h
      exact ⟨t, ht, t, hrun, rfl⟩
  | error e =>
      obtain ⟨t, hrun, ht⟩ := h
      exact ⟨t, ht, t, hrun, rfl⟩

theorem onPart {part : σ → τ} {store : τ → σ → σ} {x : EStateM ε τ α}
    (h : Delivers x (part s) outcome (fun t => After (store t s)) fun t => Failed (store t s)) :
    Delivers (onPart part store x) s outcome After Failed := by
  cases outcome with
  | ok a =>
      obtain ⟨t, hrun, ht⟩ := h
      exact ⟨_, onPart_of_ok hrun, ht⟩
  | error e =>
      obtain ⟨t, hrun, ht⟩ := h
      exact ⟨_, onPart_eq_error_iff.mpr ⟨t, hrun, rfl⟩, ht⟩

end Delivers

/-! ## Simulation of one program by another -/

section Simulation

variable {σ₁ σ₂ α₁ α₂ β₁ β₂ : Type u}

/--
Whenever the left program returns from a related pair of states, the right one
returns as well, with related results and states.
-/
def Simulates (Pre : σ₁ → σ₂ → Prop) (x : EStateM ε σ₁ α₁) (y : EStateM ε σ₂ α₂)
    (Post : α₁ → α₂ → σ₁ → σ₂ → Prop) : Prop :=
  ∀ s₁ s₂, Pre s₁ s₂ → ∀ a₁ t₁, x s₁ = .ok a₁ t₁ →
    ∃ a₂ t₂, y s₂ = .ok a₂ t₂ ∧ Post a₁ a₂ t₁ t₂

namespace Simulates

/-- Returned values that are related now stay related. -/
theorem ret {Pre : σ₁ → σ₂ → Prop} {Post : α₁ → α₂ → σ₁ → σ₂ → Prop} {a₁ : α₁} {a₂ : α₂}
    (h : ∀ s₁ s₂, Pre s₁ s₂ → Post a₁ a₂ s₁ s₂) :
    Simulates (ε := ε) Pre (pure a₁) (pure a₂) Post := by
  intro s₁ s₂ hpre b₁ t₁ hx
  cases hx
  exact ⟨a₂, s₂, rfl, h s₁ s₂ hpre⟩

/-- A program that never returns is simulated by every program. -/
theorem fail {Pre : σ₁ → σ₂ → Prop} {y : EStateM ε σ₂ α₂}
    {Post : α₁ → α₂ → σ₁ → σ₂ → Prop} (e : ε) :
    Simulates Pre (throw e) y Post := by
  intro s₁ s₂ _ a₁ t₁ impossible
  cases impossible

/--
Sequencing, when the right program returns a function of what the left one
returns and the continuations are related from there.
-/
theorem seq {Pre : σ₁ → σ₂ → Prop} {x : EStateM ε σ₁ α₁} {y : EStateM ε σ₂ α₂}
    {Mid : α₁ → σ₁ → σ₂ → Prop} {f : α₁ → EStateM ε σ₁ β₁} {g : α₂ → EStateM ε σ₂ β₂}
    {Post : β₁ → β₂ → σ₁ → σ₂ → Prop} (image : α₁ → α₂)
    (hx : Simulates Pre x y fun a₁ a₂ s₁ s₂ => a₂ = image a₁ ∧ Mid a₁ s₁ s₂)
    (hf : ∀ a₁, Simulates (Mid a₁) (f a₁) (g (image a₁)) Post) :
    Simulates Pre (x >>= f) (y >>= g) Post := by
  intro s₁ s₂ hpre b₁ u₁ hrun
  obtain ⟨a₁, t₁, hx₁, hf₁⟩ := bind_eq_ok_iff.mp hrun
  obtain ⟨_, t₂, hy, rfl, hmid⟩ := hx s₁ s₂ hpre a₁ t₁ hx₁
  obtain ⟨b₂, u₂, hg, hpost⟩ := hf a₁ t₁ t₂ hmid b₁ u₁ hf₁
  exact ⟨b₂, u₂, bind_eq_ok_iff.mpr ⟨image a₁, t₂, hy, hg⟩, hpost⟩

/-- Sequencing, when both programs return the same value. -/
theorem seqSame {Pre : σ₁ → σ₂ → Prop} {x : EStateM ε σ₁ α₁} {y : EStateM ε σ₂ α₁}
    {Mid : α₁ → σ₁ → σ₂ → Prop} {f : α₁ → EStateM ε σ₁ β₁} {g : α₁ → EStateM ε σ₂ β₂}
    {Post : β₁ → β₂ → σ₁ → σ₂ → Prop}
    (hx : Simulates Pre x y fun a₁ a₂ s₁ s₂ => a₂ = a₁ ∧ Mid a₁ s₁ s₂)
    (hf : ∀ a, Simulates (Mid a) (f a) (g a) Post) :
    Simulates Pre (x >>= f) (y >>= g) Post :=
  seq id hx hf

/-- Strengthen the relation before and weaken the relation after. -/
theorem conseq {Pre Pre' : σ₁ → σ₂ → Prop} {x : EStateM ε σ₁ α₁} {y : EStateM ε σ₂ α₂}
    {Post Post' : α₁ → α₂ → σ₁ → σ₂ → Prop}
    (h : Simulates Pre x y Post)
    (hpre : ∀ s₁ s₂, Pre' s₁ s₂ → Pre s₁ s₂)
    (hpost : ∀ a₁ a₂ s₁ s₂, Post a₁ a₂ s₁ s₂ → Post' a₁ a₂ s₁ s₂) :
    Simulates Pre' x y Post' := by
  intro s₁ s₂ hp a₁ t₁ hrun
  obtain ⟨a₂, t₂, hy, hq⟩ := h s₁ s₂ (hpre s₁ s₂ hp) a₁ t₁ hrun
  exact ⟨a₂, t₂, hy, hpost a₁ a₂ t₁ t₂ hq⟩

/-- A fact that the relation before implies may be assumed. -/
theorem of_pre {Pre : σ₁ → σ₂ → Prop} {x : EStateM ε σ₁ α₁} {y : EStateM ε σ₂ α₂}
    {Post : α₁ → α₂ → σ₁ → σ₂ → Prop} {P : Prop} (hP : ∀ s₁ s₂, Pre s₁ s₂ → P)
    (h : P → Simulates Pre x y Post) : Simulates Pre x y Post :=
  fun s₁ s₂ hpre => h (hP s₁ s₂ hpre) s₁ s₂ hpre

/-- A fact in the relation before may be assumed. -/
theorem assume {Pre : σ₁ → σ₂ → Prop} {x : EStateM ε σ₁ α₁} {y : EStateM ε σ₂ α₂}
    {Post : α₁ → α₂ → σ₁ → σ₂ → Prop} {P : Prop} (h : P → Simulates Pre x y Post) :
    Simulates (fun s₁ s₂ => P ∧ Pre s₁ s₂) x y Post :=
  fun s₁ s₂ hpre => h hpre.1 s₁ s₂ hpre.2

/-- A value in the relation before may be named. -/
theorem ofExists {ι : Sort*} {Pre : ι → σ₁ → σ₂ → Prop} {x : EStateM ε σ₁ α₁}
    {y : EStateM ε σ₂ α₂} {Post : α₁ → α₂ → σ₁ → σ₂ → Prop}
    (h : ∀ i, Simulates (Pre i) x y Post) : Simulates (fun s₁ s₂ => ∃ i, Pre i s₁ s₂) x y Post :=
  fun s₁ s₂ ⟨i, hpre⟩ => h i s₁ s₂ hpre

theorem lift {Pre : σ₁ → σ₂ → Prop} (x : Except ε α₁) :
    Simulates Pre (liftPure x) (liftPure x) fun a₁ a₂ s₁ s₂ => a₂ = a₁ ∧ Pre s₁ s₂ := by
  intro s₁ s₂ hpre a₁ t₁ hrun
  obtain ⟨rfl, rfl⟩ := liftPure_eq_ok_iff.mp hrun
  exact ⟨a₁, s₂, rfl, rfl, hpre⟩

theorem change {Pre Post : σ₁ → σ₂ → Prop} {f : σ₁ → σ₁} {g : σ₂ → σ₂}
    (h : ∀ s₁ s₂, Pre s₁ s₂ → Post (f s₁) (g s₂)) :
    Simulates (ε := ε) Pre (modify f) (modify g) fun _ _ s₁ s₂ => Post s₁ s₂ := by
  intro s₁ s₂ hpre a₁ t₁ hrun
  cases hrun
  exact ⟨⟨⟩, g s₂, rfl, h s₁ s₂ hpre⟩

/-- Continuations that depend on related states. -/
theorem inspect {Pre : σ₁ → σ₂ → Prop} {f : σ₁ → EStateM ε σ₁ α₁} {g : σ₂ → EStateM ε σ₂ α₂}
    {Post : α₁ → α₂ → σ₁ → σ₂ → Prop}
    (h : ∀ s₁ s₂, Pre s₁ s₂ → Simulates Pre (f s₁) (g s₂) Post) :
    Simulates Pre (get >>= f) (get >>= g) Post :=
  fun s₁ s₂ hpre => h s₁ s₂ hpre s₁ s₂ hpre

/-- What a simulation by a program that leaves its state as it is says of the left program. -/
theorem ensures {Pre : σ₁ → σ₂ → Prop} {x : EStateM ε σ₁ α₁} {y : EStateM ε σ₂ α₂}
    {Post : α₁ → α₂ → σ₁ → σ₂ → Prop} {Fail : ε → σ₁ → Prop} (h : Simulates Pre x y Post)
    {s₂ : σ₂} {a₂ : α₂} (hy : y s₂ = .ok a₂ s₂)
    (hfail : ∀ s₁ e t₁, Pre s₁ s₂ → x s₁ = .error e t₁ → Fail e t₁) :
    Ensures (fun s₁ => Pre s₁ s₂) x (fun a₁ t₁ => Post a₁ a₂ t₁ s₂) Fail := by
  intro s₁ hpre
  refine ⟨fun a₁ t₁ hrun => ?_, fun e t₁ hrun => hfail s₁ e t₁ hpre hrun⟩
  obtain ⟨b₂, t₂, hy', hpost⟩ := h s₁ s₂ hpre a₁ t₁ hrun
  cases hy.symm.trans hy'
  exact hpost

end Simulates

end Simulation

end HiveDb.Lib
