/-!
# Computations that cannot tell two states apart

* `Alike R` : two outcomes with the same answer or the same failure, in states that `R` relates;
* `Respects R` : a computation that ends alike from any two states that `R` relates;
* `Respects.bind`, `respects_get_bind` : a chain of such steps, and a step that goes by what the state shows.
-/

namespace ThriftModules.Chain

set_option autoImplicit false

section
variable {ε σ α β : Type} {R : σ → σ → Prop}

/-- The same answer or the same failure, in states that `R` relates. -/
inductive Alike (R : σ → σ → Prop) : EStateM.Result ε σ α → EStateM.Result ε σ α → Prop
  | ok {a : α} {s t : σ} (h : R s t) : Alike R (.ok a s) (.ok a t)
  | error {e : ε} {s t : σ} (h : R s t) : Alike R (.error e s) (.error e t)

theorem Alike.elim {r r' : EStateM.Result ε σ α} (h : Alike R r r') :
    (∃ a s t, r = .ok a s ∧ r' = .ok a t ∧ R s t) ∨ ∃ e s t, r = .error e s ∧ r' = .error e t ∧ R s t := by
  cases h with
  | ok h => exact .inl ⟨_, _, _, rfl, rfl, h⟩
  | error h => exact .inr ⟨_, _, _, rfl, rfl, h⟩

theorem Alike.exists_ok {r r' : EStateM.Result ε σ α} {a : α} {s : σ} (h : Alike R r r') (hr : r = .ok a s) :
    ∃ t, r' = .ok a t ∧ R s t := by
  cases h with
  | ok h =>
    cases hr
    exact ⟨_, rfl, h⟩
  | error => cases hr

/-- The computation ends alike from any two states that `R` relates. -/
def Respects (R : σ → σ → Prop) (x : EStateM ε σ α) : Prop := ∀ ⦃s t⦄, R s t → Alike R (x s) (x t)

theorem respects_pure (a : α) : Respects R (pure a : EStateM ε σ α) := fun _ _ h => .ok h

theorem respects_throw (e : ε) : Respects R (throw e : EStateM ε σ α) := fun _ _ h => .error h

theorem respects_modify {f : σ → σ} (hf : ∀ s t, R s t → R (f s) (f t)) :
    Respects R (modify f : EStateM ε σ PUnit) :=
  fun s t h => .ok (hf s t h)

theorem Alike.bind {x y : EStateM ε σ α} {f : α → EStateM ε σ β} {s t : σ} (h : Alike R (x s) (y t))
    (hf : ∀ a, Respects R (f a)) : Alike R ((x >>= f) s) ((y >>= f) t) := by
  show Alike R (EStateM.bind x f s) (EStateM.bind y f t)
  unfold EStateM.bind
  rcases h.elim with ⟨a, s', t', hs, ht, h⟩ | ⟨e, s', t', hs, ht, h⟩ <;> rw [hs, ht]
  · exact hf a h
  · exact .error h

theorem Respects.bind {x : EStateM ε σ α} {f : α → EStateM ε σ β} (hx : Respects R x) (hf : ∀ a, Respects R (f a)) :
    Respects R (x >>= f) :=
  fun _ _ h => (hx h).bind hf

/-- A step that goes by the state, where related states lead to outcomes alike. -/
theorem respects_get_bind {f : σ → EStateM ε σ α} (hf : ∀ s t, R s t → Alike R (f s s) (f t t)) :
    Respects R (get >>= f) :=
  fun s t h => hf s t h

end

end ThriftModules.Chain
