import Mathlib.Tactic.Common

/-!
# Computations that keep their state when they throw

Rules for `EStateM`: how a sequence of computations runs, loops over a list, and a
computation with something to do at the end in any case.
-/
namespace Pdi.Effect

variable {ε σ α β : Type} {x : EStateM ε σ α} {f : α → EStateM ε σ β} {s s' s'' : σ} {a : α} {e : ε}

theorem run_bind_ok (h : x.run s = .ok a s') : (x >>= f).run s = (f a).run s' := by
  change EStateM.bind x f s = f a s'
  change x s = .ok a s' at h
  rw [EStateM.bind, h]

theorem run_bind_error (h : x.run s = .error e s') : (x >>= f).run s = .error e s' := by
  change EStateM.bind x f s = _
  change x s = .error e s' at h
  rw [EStateM.bind, h]

theorem run_get_bind (f : σ → EStateM ε σ α) (s : σ) :
    ((get : EStateM ε σ σ) >>= f).run s = (f s).run s := rfl

/-- A result that is there already. -/
def outcome : Except ε α → EStateM ε σ α
  | .ok a => pure a
  | .error e => throw e

theorem run_outcome_eq_ok {x : Except ε α} (h : (outcome x : EStateM ε σ α).run s = .ok a s') :
    x = .ok a ∧ s' = s := by
  cases x with
  | ok =>
    cases h
    exact ⟨rfl, rfl⟩
  | error => cases h

/-- A loop that does something for each element. -/
def each (f : α → EStateM ε σ Unit) : List α → EStateM ε σ Unit
  | [] => pure ()
  | a :: as => do
    f a
    each f as

/-- A loop that fills a vector. -/
def collect (f : α → EStateM ε σ β) : List α → EStateM ε σ (List β)
  | [] => pure []
  | a :: as => do
    let b ← f a
    let bs ← collect f as
    pure (b :: bs)

end Pdi.Effect
