import ThriftModules.Proofs.Chain

/-!
# How a computation with a state ends

* `Ends P E` : an outcome with `P` of the answer and the state where it succeeded, `E` of the failure and the state where
  it failed;
* `ends_iff` : the two cases apart;
* `Ends.bind` : a chain of two steps, the second from where the first ends (`Ends.bind_of_ok`, `Ends.bind_of_error`
  where it is known how that is).
-/

namespace ThriftModules.Chain

set_option autoImplicit false

section
variable {ε σ α β : Type} {P P' : α → σ → Prop} {E E' : ε → σ → Prop}

/-- The outcome satisfies `P` where the computation succeeded, and `E` where it failed. -/
def Ends (P : α → σ → Prop) (E : ε → σ → Prop) : EStateM.Result ε σ α → Prop
  | .ok a s => P a s
  | .error e s => E e s

theorem ends_iff {r : EStateM.Result ε σ α} :
    Ends P E r ↔ (∀ a s, r = .ok a s → P a s) ∧ ∀ e s, r = .error e s → E e s := by
  cases r with
  | ok a s =>
    refine ⟨fun h => ⟨fun b t e => ?_, fun e t he => nomatch he⟩, fun h => h.1 a s rfl⟩
    cases e
    exact h
  | error e s =>
    refine ⟨fun h => ⟨fun b t he => (nomatch he), fun e' t he => ?_⟩, fun h => h.2 e s rfl⟩
    cases he
    exact h

instance decidableEnds [∀ a s, Decidable (P a s)] [∀ e s, Decidable (E e s)] :
    (r : EStateM.Result ε σ α) → Decidable (Ends P E r)
  | .ok a s => inferInstanceAs (Decidable (P a s))
  | .error e s => inferInstanceAs (Decidable (E e s))

theorem Ends.exists_ok {r : EStateM.Result ε σ α} (h : Ends P (fun _ _ => False) r) : ∃ a s, r = .ok a s ∧ P a s := by
  cases r with
  | ok a s => exact ⟨a, s, rfl, h⟩
  | error e s => exact h.elim

theorem Ends.ok {r : EStateM.Result ε σ α} {a : α} {s : σ} (h : Ends P E r) (hr : r = .ok a s) : P a s :=
  (ends_iff.1 h).1 a s hr

theorem Ends.error {r : EStateM.Result ε σ α} {e : ε} {s : σ} (h : Ends P E r) (hr : r = .error e s) : E e s :=
  (ends_iff.1 h).2 e s hr

theorem Ends.mono {r : EStateM.Result ε σ α} (h : Ends P E r) (hP : ∀ a s, P a s → P' a s)
    (hE : ∀ e s, E e s → E' e s) : Ends P' E' r := by
  cases r with
  | ok a s => exact hP a s h
  | error e s => exact hE e s h

theorem Ends.bind {x : EStateM ε σ α} {f : α → EStateM ε σ β} {Q : β → σ → Prop} {s : σ} (h : Ends P E (x s))
    (hf : ∀ a s', x s = .ok a s' → P a s' → Ends Q E (f a s')) : Ends Q E ((x >>= f) s) := by
  show Ends Q E (EStateM.bind x f s)
  unfold EStateM.bind
  cases hx : x s with
  | ok a s' => exact hf a s' hx (h.ok hx)
  | error e s' => exact h.error hx

theorem Ends.bind_of_ok {x : EStateM ε σ α} {f : α → EStateM ε σ β} {Q : β → σ → Prop} {a : α} {s s' : σ}
    (hx : x s = .ok a s') (h : Ends Q E (f a s')) : Ends Q E ((x >>= f) s) := by
  show Ends Q E (EStateM.bind x f s)
  unfold EStateM.bind
  rwa [hx]

theorem Ends.bind_of_error {x : EStateM ε σ α} {f : α → EStateM ε σ β} {Q : β → σ → Prop} {e : ε} {s s' : σ}
    (hx : x s = .error e s') (h : E e s') : Ends Q E ((x >>= f) s) := by
  show Ends Q E (EStateM.bind x f s)
  unfold EStateM.bind
  rwa [hx]

end

end ThriftModules.Chain
