import HiveDb.Lib.Program

/-!
# Two programs in step

A simulation speaks of programs that return.  Two programs are in step when they
also fail together: from related states both return the same value, or both fail
in the same way, and the states they leave are related.  The rules follow the
construction of the programs; a test of the state is followed on both sides at once.
-/

namespace HiveDb.Lib

universe u

variable {ε σ τ α β : Type u}

/-- From related states both programs do the same, and the states they leave are related. -/
def InStep (Pre : σ → τ → Prop) (x : EStateM ε σ α) (y : EStateM ε τ α)
    (Post : σ → τ → Prop) : Prop :=
  ∀ s t, Pre s t →
    (∃ a s' t', x s = .ok a s' ∧ y t = .ok a t' ∧ Post s' t') ∨
      ∃ e s' t', x s = .error e s' ∧ y t = .error e t' ∧ Post s' t'

namespace InStep

variable {Pre Mid Post : σ → τ → Prop} {x : EStateM ε σ α} {y : EStateM ε τ α}

theorem ret (a : α) : InStep Pre (pure a : EStateM ε σ α) (pure a) Pre :=
  fun s t h => .inl ⟨a, s, t, rfl, rfl, h⟩

theorem fail (e : ε) : InStep Pre (throw e : EStateM ε σ α) (throw e) Pre :=
  fun s t h => .inr ⟨e, s, t, rfl, rfl, h⟩

theorem lift (z : Except ε α) : InStep Pre (liftPure z) (liftPure z) Pre := by
  cases z with
  | ok a => exact ret a
  | error e => exact fail e

theorem change {f : σ → σ} {g : τ → τ} (h : ∀ s t, Pre s t → Post (f s) (g t)) :
    InStep Pre (modify f : EStateM ε σ PUnit) (modify g) Post :=
  fun s t hpre => .inl ⟨⟨⟩, f s, g t, rfl, rfl, h s t hpre⟩

/-- Strengthen the relation before and weaken the relation after. -/
theorem conseq {Pre' Post' : σ → τ → Prop} (h : InStep Pre x y Post)
    (hpre : ∀ s t, Pre' s t → Pre s t) (hpost : ∀ s t, Post s t → Post' s t) :
    InStep Pre' x y Post' := by
  intro s t hs
  rcases h s t (hpre s t hs) with ⟨a, s', t', hx, hy, hst⟩ | ⟨e, s', t', hx, hy, hst⟩
  · exact .inl ⟨a, s', t', hx, hy, hpost s' t' hst⟩
  · exact .inr ⟨e, s', t', hx, hy, hpost s' t' hst⟩

/-- Sequencing; what holds between the parts implies what is to hold after a failure. -/
theorem seq {f : α → EStateM ε σ β} {g : α → EStateM ε τ β} (hx : InStep Pre x y Mid)
    (hf : ∀ a, InStep Mid (f a) (g a) Post) (hfail : ∀ s t, Mid s t → Post s t) :
    InStep Pre (x >>= f) (y >>= g) Post := by
  intro s t hs
  rcases hx s t hs with ⟨a, s', t', hxs, hyt, hmid⟩ | ⟨e, s', t', hxs, hyt, hmid⟩
  · rw [bind_of_ok hxs, bind_of_ok hyt]
    exact hf a s' t' hmid
  · exact .inr ⟨e, s', t', bind_of_error hxs, bind_of_error hyt, hfail s' t' hmid⟩

theorem andThen {f : α → EStateM ε σ β} {g : α → EStateM ε τ β} (hx : InStep Pre x y Pre)
    (hf : ∀ a, InStep Pre (f a) (g a) Pre) : InStep Pre (x >>= f) (y >>= g) Pre :=
  hx.seq hf fun _ _ h => h

/-- What follows a failure does not matter. -/
theorem abort (e : ε) {f : α → EStateM ε σ β} {g : α → EStateM ε τ β} :
    InStep Pre (throw e >>= f) (throw e >>= g) Pre :=
  fun s t h => .inr ⟨e, s, t, rfl, rfl, h⟩

theorem test (c : Prop) [Decidable c] {x' : EStateM ε σ α} {y' : EStateM ε τ α}
    (hpos : c → InStep Pre x y Post) (hneg : ¬ c → InStep Pre x' y' Post) :
    InStep Pre (if c then x else x') (if c then y else y') Post := by
  split
  next h => exact hpos h
  next h => exact hneg h

/-- Continuations that depend on the states, from a relation that these states decide. -/
theorem inspect {f : σ → EStateM ε σ α} {g : τ → EStateM ε τ α}
    (h : ∀ s t, Pre s t → ∃ Pre' : σ → τ → Prop, Pre' s t ∧ InStep Pre' (f s) (g t) Post) :
    InStep Pre (get >>= f) (get >>= g) Post := by
  intro s t hs
  obtain ⟨_, hs', hfg⟩ := h s t hs
  exact hfg s t hs'

/-- A computation that returns leaves the states as they are. -/
theorem afterPure {z : Except ε α} {a : α} {f : α → EStateM ε σ β} {g : α → EStateM ε τ β}
    (hz : z = .ok a) (hf : InStep Pre (f a) (g a) Post) :
    InStep Pre (liftPure z >>= f) (liftPure z >>= g) Post := by
  rw [hz]
  exact hf

/-- The right program does what the left one does. -/
theorem of_ok (h : InStep Pre x y Post) {s s' : σ} {t : τ} {a : α} (hs : Pre s t)
    (hx : x s = .ok a s') : ∃ t', y t = .ok a t' ∧ Post s' t' := by
  rcases h s t hs with ⟨b, u, t', hxs, hyt, hst⟩ | ⟨e, u, t', hxs, _⟩
  · cases hx.symm.trans hxs
    exact ⟨t', hyt, hst⟩
  · cases hx.symm.trans hxs

theorem of_error (h : InStep Pre x y Post) {s s' : σ} {t : τ} {e : ε} (hs : Pre s t)
    (hx : x s = .error e s') : ∃ t', y t = .error e t' ∧ Post s' t' := by
  rcases h s t hs with ⟨b, u, t', hxs, _⟩ | ⟨e', u, t', hxs, hyt, hst⟩
  · cases hx.symm.trans hxs
  · cases hx.symm.trans hxs
    exact ⟨t', hyt, hst⟩

end InStep

end HiveDb.Lib
