import Mathlib.Tactic.Common

/-!
# Shared ownership with a finalizer

The life of one shared object, seen from its owners: they come and go, the last
one to go runs the finalizer, and an owner may disarm the finalizer for good.
-/
namespace Pdi.Ownership

/-- The number of owners, whether the finalizer is still armed, and how many
times it has run. -/
structure Cell where
  owners : Nat
  armed : Bool
  finalized : Nat
  deriving DecidableEq, Repr

/-- What can happen to an object; only what has an owner can get another one or
be disarmed. -/
inductive Step : Cell → Cell → Prop where
  | stay (c : Cell) : Step c c
  | acquire (c : Cell) (h : 0 < c.owners) : Step c { c with owners := c.owners + 1 }
  | drop (c : Cell) (n : Nat) (h : c.owners = n + 1) :
      Step c ⟨n, c.armed, c.finalized + (decide (n = 0) && c.armed).toNat⟩
  | disarm (c : Cell) (h : 0 < c.owners) : Step c { c with armed := false }

/-- Nothing happens to an object without owners. -/
theorem Step.eq_of_unowned {c d : Cell} (hs : Step c d) (h : c.owners = 0) : d = c := by
  cases hs with
  | stay => rfl
  | acquire | drop | disarm => omega

/-- The finalizer runs at most once, not before the last owner has gone, not
after it was disarmed, and otherwise as soon as there is no owner. -/
structure Sound (c : Cell) : Prop where
  owned : 0 < c.owners → c.finalized = 0
  disarmed : c.armed = false → c.finalized = 0
  abandoned : c.owners = 0 → c.armed = true → c.finalized = 1

theorem Sound.at_most_once {c : Cell} (h : Sound c) : c.finalized ≤ 1 := by
  obtain ho | ho := Nat.eq_zero_or_pos c.owners
  · cases ha : c.armed with
    | true => exact Nat.le_of_eq (h.abandoned ho ha)
    | false => simp [h.disarmed ha]
  · simp [h.owned ho]

theorem Sound.step {c d : Cell} (hs : Step c d) (h : Sound c) : Sound d := by
  cases hs with
  | stay => exact h
  | acquire ho => exact ⟨fun _ => h.owned ho, h.disarmed, fun h0 => by simp at h0⟩
  | drop n =>
    have hf : c.finalized = 0 := h.owned (by omega)
    refine ⟨?_, ?_, ?_⟩
    · intro hn
      have hn' : n ≠ 0 := Nat.pos_iff_ne_zero.mp hn
      simp [hf, hn']
    · intro ha
      have ha' : c.armed = false := ha
      simp [hf, ha']
    · intro hn ha
      have hn' : n = 0 := hn
      have ha' : c.armed = true := ha
      simp [hf, hn', ha']
  | disarm ho =>
    have hf : c.finalized = 0 := h.owned ho
    exact ⟨fun _ => hf, fun _ => hf, fun _ ha => by simp at ha⟩

end Pdi.Ownership
