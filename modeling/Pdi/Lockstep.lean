import Pdi.Effect

/-!
# Two computations side by side

Two computations, run from two states, are alike when they end in the same way: both with
values that are related, or both with the same error, and in related states.
-/
namespace Pdi.Effect

variable {ε σ α α' β β' : Type}

/-- How the two runs end. -/
def SameEnd (V : α → α' → Prop) (R : σ → σ → Prop) :
    EStateM.Result ε σ α → EStateM.Result ε σ α' → Prop
  | .ok a s, .ok b t => V a b ∧ R s t
  | .error e s, .error e' t => e = e' ∧ R s t
  | _, _ => False

def Alike (V : α → α' → Prop) (R : σ → σ → Prop) (x : EStateM ε σ α) (y : EStateM ε σ α')
    (s t : σ) : Prop := SameEnd V R (x.run s) (y.run t)

section Rules

variable {V : α → α' → Prop} {W : β → β' → Prop} {R : σ → σ → Prop} {s t : σ}

theorem Alike.bind {x : EStateM ε σ α} {y : EStateM ε σ α'} {f : α → EStateM ε σ β}
    {g : α' → EStateM ε σ β'} (h : Alike V R x y s t)
    (hfg : ∀ a b s' t', x.run s = .ok a s' → V a b → R s' t' → Alike W R (f a) (g b) s' t') :
    Alike W R (x >>= f) (y >>= g) s t := by
  rw [Alike] at h ⊢
  cases hx : x.run s with
  | ok a s' =>
    cases hy : y.run t with
    | ok b t' =>
      rw [hx, hy] at h
      rw [run_bind_ok hx, run_bind_ok hy]
      exact hfg a b s' t' hx h.1 h.2
    | error =>
      rw [hx, hy] at h
      exact h.elim
  | error =>
    cases hy : y.run t with
    | ok =>
      rw [hx, hy] at h
      exact h.elim
    | error =>
      rw [hx, hy] at h
      rw [run_bind_error hx, run_bind_error hy]
      exact h

theorem Alike.pure {a : α} {b : α'} (hab : V a b) (hst : R s t) :
    Alike V R (Pure.pure a : EStateM ε σ α) (Pure.pure b) s t := ⟨hab, hst⟩

theorem Alike.throw (e : ε) (hst : R s t) :
    Alike V R (MonadExcept.throw e : EStateM ε σ α) (MonadExcept.throw e) s t := ⟨rfl, hst⟩

theorem Alike.outcome (x : Except ε α) (hst : R s t) :
    Alike Eq R (Effect.outcome x : EStateM ε σ α) (Effect.outcome x) s t := by
  cases x with
  | ok | error => exact ⟨rfl, hst⟩

/-- Loops over the same list, with bodies that are alike from any related states. -/
theorem Alike.each {f : α → EStateM ε σ Unit}
    (hf : ∀ a s' t', R s' t' → Alike Eq R (f a) (f a) s' t') (l : List α) (hst : R s t) :
    Alike Eq R (Effect.each f l) (Effect.each f l) s t := by
  induction l generalizing s t with
  | nil => exact .pure rfl hst
  | cons a l ih => exact (hf a s t hst).bind fun _ _ s' t' _ _ hst' => ih hst'

end Rules

end Pdi.Effect
