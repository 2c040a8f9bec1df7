import Mathlib.Tactic.Common

/-!
# Runs of a deterministic system

A system is a step function on states, driven by a list of inputs. A property
that every step keeps holds after every run; when steps keep it only under a
condition on the input and the state before, it holds after every run whose
steps all meet the condition.
-/
namespace Pdi.Run

variable {ι σ : Type*} {P : σ → Prop}

def run (step : ι → σ → σ) : List ι → σ → σ
  | [], s => s
  | i :: is, s => run step is (step i s)

/-- Every step of the run meets `ok` in the state it is taken in. -/
def Permitted (ok : ι → σ → Prop) (step : ι → σ → σ) : List ι → σ → Prop
  | [], _ => True
  | i :: is, s => ok i s ∧ Permitted ok step is (step i s)

variable (step : ι → σ → σ)

@[simp] theorem run_nil (s : σ) : run step [] s = s := rfl
@[simp] theorem run_cons (i : ι) (is : List ι) (s : σ) :
    run step (i :: is) s = run step is (step i s) := rfl

theorem run_append (is js : List ι) (s : σ) :
    run step (is ++ js) s = run step js (run step is s) := by
  induction is generalizing s with
  | nil => rfl
  | cons i is ih => simpa using ih (step i s)

variable {step}

theorem permitted_mono {ok ok' : ι → σ → Prop} (h : ∀ i s, ok i s → ok' i s) (is : List ι) (s : σ)
    (hok : Permitted ok step is s) : Permitted ok' step is s := by
  induction is generalizing s with
  | nil => trivial
  | cons i is ih => exact ⟨h i s hok.1, ih (step i s) hok.2⟩

theorem permitted_of_forall {P : ι → Prop} (is : List ι) (s : σ) (h : ∀ i ∈ is, P i) :
    Permitted (fun i _ => P i) step is s := by
  induction is generalizing s with
  | nil => trivial
  | cons i is ih =>
    exact ⟨h i (by simp), ih (step i s) fun j hj => h j (List.mem_cons_of_mem i hj)⟩

/-- What every permitted step keeps, every permitted run keeps. -/
theorem permitted_invariant {ok : ι → σ → Prop} (hstep : ∀ i s, ok i s → P s → P (step i s))
    (is : List ι) (s : σ) (hok : Permitted ok step is s) (h : P s) : P (run step is s) := by
  induction is generalizing s with
  | nil => exact h
  | cons i is ih => exact ih (step i s) hok.2 (hstep i s hok.1 h)

/-- What every step keeps, every run keeps. -/
theorem run_invariant (hstep : ∀ i s, P s → P (step i s)) (is : List ι) (s : σ) (h : P s) :
    P (run step is s) := by
  induction is generalizing s with
  | nil => exact h
  | cons i is ih => exact ih (step i s) (hstep i s h)

end Pdi.Run
