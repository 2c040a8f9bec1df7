import Mathlib.Algebra.BigOperators.Group.Finset.Basic
import Mathlib.Algebra.Order.BigOperators.Group.Finset
import Mathlib.Data.Finset.Max
import Pdi.DependencyOrder

/-!
# Tearing down objects that share each other

Objects hold counted pointers to other objects. When the last pointer to an object
goes, the object is finalized, and then the pointers it holds go one after the
other. Each pointer that is dropped may thus end the life of many objects.

The count of an object is the number of pointers to it that somebody still holds:
those outside, and those of the objects that are alive. From this alone it follows
that an object is finalized after all that hold it, and that nothing is left over
when no object holds itself.
-/
namespace Pdi.Teardown

open Pdi.DependencyOrder Relation

variable {α : Type} [DecidableEq α]

structure State (α : Type) where
  /-- The number of pointers to an object. -/
  count : α → Nat
  /-- The objects finalized so far. -/
  finalized : List α

def State.decrement (s : State α) (a : α) : State α :=
  { s with count := fun b => if b = a then s.count b - 1 else s.count b }

def State.finalize (s : State α) (a : α) : State α := { s with finalized := s.finalized ++ [a] }

def releaseAll (release : α → State α → Option (State α)) :
    List α → State α → Option (State α)
  | [], s => some s
  | a :: as, s => (release a s).bind (releaseAll release as)

/-- A pointer to `a` is dropped. -/
def release (holds : α → List α) : Nat → α → State α → Option (State α)
  | 0, _, _ => none
  | fuel + 1, a, s =>
    if s.count a = 1 then
      releaseAll (release holds fuel) (holds a) ((s.decrement a).finalize a)
    else some (s.decrement a)

@[simp] theorem count_decrement_self (s : State α) (a : α) :
    (s.decrement a).count a = s.count a - 1 := if_pos rfl

theorem count_decrement_of_ne (s : State α) {a b : α} (h : b ≠ a) :
    (s.decrement a).count b = s.count b := if_neg h

section Balance

variable (holds : α → List α) (all : Finset α)

def State.alive (s : State α) : Finset α := all \ s.finalized.toFinset

/-- The objects that hold an object. -/
def Holds (b a : α) : Prop := a ∈ all ∧ b ∈ holds a

/-- The counts are right for the pointers `outside` and those of the objects that are
alive, and the objects have been finalized after all that hold them. -/
structure Balanced (s : State α) (outside : List α) : Prop where
  count : ∀ a, s.count a = outside.count a + ∑ b ∈ s.alive all, (holds b).count a
  counted : ∀ a ∈ s.alive all, 0 < s.count a
  uncounted : ∀ a ∈ s.finalized, a ∈ all ∧ s.count a = 0
  nodup : s.finalized.Nodup
  ordered : Ordered (Holds holds all) s.finalized

variable {holds all} {s : State α} {a : α} {outside : List α}

theorem mem_alive : a ∈ s.alive all ↔ a ∈ all ∧ a ∉ s.finalized := by simp [State.alive]

theorem alive_finalize (s : State α) (a : α) :
    (s.finalize a).alive all = (s.alive all).erase a := by
  ext b
  simp only [mem_alive, State.finalize, List.mem_append, List.mem_singleton, Finset.mem_erase]
  tauto

section

variable (h : Balanced holds all s (a :: outside))

include h

theorem Balanced.count_pos : 0 < s.count a := by
  have hcount := h.count a
  rw [List.count_cons_self] at hcount
  omega

/-- What has a pointer to it is alive. -/
theorem Balanced.alive (ha : a ∈ all) : a ∈ s.alive all := by
  refine mem_alive.mpr ⟨ha, fun hdead => ?_⟩
  have hpos := h.count_pos
  have hzero := (h.uncounted a hdead).2
  omega

/-- One of several pointers goes. -/
theorem Balanced.decrement (hcount : s.count a ≠ 1) :
    Balanced holds all (s.decrement a) outside := by
  have hpos := h.count_pos
  refine ⟨fun b => ?_, fun b hb => ?_, fun b hb => ?_, h.nodup, h.ordered⟩
  · have hb := h.count b
    change (s.decrement a).count b = outside.count b + ∑ c ∈ s.alive all, (holds c).count b
    by_cases hba : b = a
    · subst hba
      rw [List.count_cons_self] at hb
      rw [count_decrement_self]
      omega
    · rw [List.count_cons_of_ne (Ne.symm hba)] at hb
      rw [count_decrement_of_ne s hba, hb]
  · have hb' := h.counted b hb
    by_cases hba : b = a
    · subst hba
      rw [count_decrement_self]
      omega
    · rwa [count_decrement_of_ne s hba]
  · have hb' := h.uncounted b hb
    have hba : b ≠ a := by
      rintro rfl
      omega
    rwa [count_decrement_of_ne s hba]

/-- The last pointer goes: nothing that is alive holds the object, and the pointers
that it holds are left to be dropped. -/
theorem Balanced.finalize (ha : a ∈ all) (hcount : s.count a = 1) :
    Balanced holds all ((s.decrement a).finalize a) (holds a ++ outside) := by
  have halive := h.alive ha
  have hsum : ∑ b ∈ s.alive all, (holds b).count a = 0 := by
    have := h.count a
    rw [List.count_cons_self] at this
    omega
  have hnew : a ∉ s.finalized := (mem_alive.mp halive).2
  have heq : ((s.decrement a).finalize a).alive all = (s.alive all).erase a := alive_finalize _ a
  refine ⟨fun b => ?_, fun b hb => ?_, fun b hb => ?_, ?_, ?_⟩
  · have hb := h.count b
    rw [← Finset.add_sum_erase _ _ halive] at hb
    rw [heq, List.count_append]
    change (s.decrement a).count b = _
    by_cases hba : b = a
    · subst hba
      rw [List.count_cons_self] at hb
      rw [count_decrement_self]
      omega
    · rw [List.count_cons_of_ne (Ne.symm hba)] at hb
      rw [count_decrement_of_ne s hba]
      omega
  · rw [heq, Finset.mem_erase] at hb
    change 0 < (s.decrement a).count b
    rw [count_decrement_of_ne s hb.1]
    exact h.counted b hb.2
  · change b ∈ s.finalized ++ [a] at hb
    change b ∈ all ∧ (s.decrement a).count b = 0
    obtain hold | hlast := List.mem_append.mp hb
    · have hba : b ≠ a := by
        rintro rfl
        exact hnew hold
      rw [count_decrement_of_ne s hba]
      exact h.uncounted b hold
    · rw [List.mem_singleton.mp hlast, count_decrement_self, hcount]
      exact ⟨ha, rfl⟩
  · refine List.nodup_append.mpr ⟨h.nodup, List.nodup_singleton a, ?_⟩
    rintro b hb _ hb' rfl
    exact hnew (List.mem_singleton.mp hb' ▸ hb)
  · refine h.ordered.concat fun c hc => ?_
    by_contra hdead
    have hzero := Finset.sum_eq_zero_iff.mp hsum c (mem_alive.mpr ⟨hc.1, hdead⟩)
    exact List.count_eq_zero.mp hzero hc.2

end

theorem releaseAll_balanced {drop : α → State α → Option (State α)} {bound : Nat}
    (hdrop : ∀ a outside s, a ∈ all → Balanced holds all s (a :: outside) →
      (s.alive all).card < bound →
      ∃ s', drop a s = some s' ∧ Balanced holds all s' outside ∧ s'.alive all ⊆ s.alive all)
    {pointers : List α} (hmem : ∀ a ∈ pointers, a ∈ all)
    (h : Balanced holds all s (pointers ++ outside)) (hbound : (s.alive all).card < bound) :
    ∃ s', releaseAll drop pointers s = some s' ∧ Balanced holds all s' outside ∧
      s'.alive all ⊆ s.alive all := by
  induction pointers generalizing s with
  | nil => exact ⟨s, rfl, h, Finset.Subset.refl _⟩
  | cons a pointers ih =>
    rw [List.forall_mem_cons] at hmem
    obtain ⟨s₁, hs₁, hbalanced, hsub⟩ := hdrop a _ s hmem.1 h hbound
    obtain ⟨s₂, hs₂, hbalanced', hsub'⟩ := ih hmem.2 hbalanced
      ((Finset.card_le_card hsub).trans_lt hbound)
    refine ⟨s₂, ?_, hbalanced', hsub'.trans hsub⟩
    rw [releaseAll, hs₁]
    exact hs₂

/-- Dropping a pointer ends: by induction on the fuel, which is more than the number of
objects that are alive. -/
theorem release_balanced (hclosed : ∀ a ∈ all, ∀ b ∈ holds a, b ∈ all) (fuel : Nat) (a : α)
    (outside : List α) (s : State α) (ha : a ∈ all) (h : Balanced holds all s (a :: outside))
    (hfuel : (s.alive all).card < fuel) :
    ∃ s', release holds fuel a s = some s' ∧ Balanced holds all s' outside ∧
      s'.alive all ⊆ s.alive all := by
  induction fuel generalizing a outside s with
  | zero => omega
  | succ fuel ih =>
    rw [release]
    by_cases hcount : s.count a = 1
    · rw [if_pos hcount]
      have halive := h.alive ha
      have heq : ((s.decrement a).finalize a).alive all = (s.alive all).erase a :=
        alive_finalize _ a
      have hcard := Finset.card_erase_lt_of_mem halive
      obtain ⟨s', hs', hbalanced, hsub⟩ := releaseAll_balanced ih (hclosed a ha)
        (h.finalize ha hcount) (by rw [heq]; omega)
      refine ⟨s', hs', hbalanced, hsub.trans ?_⟩
      rw [heq]
      exact Finset.erase_subset _ _
    · rw [if_neg hcount]
      exact ⟨_, rfl, h.decrement hcount, Finset.Subset.refl _⟩

/-- When nobody outside holds a pointer, and the objects are ranked above those that
they hold, nothing is alive. -/
theorem Balanced.finalized_of_ranked (h : Balanced holds all s []) (rank : α → Nat)
    (hrank : ∀ a ∈ all, ∀ b ∈ holds a, rank b < rank a) : ∀ a ∈ all, a ∈ s.finalized := by
  intro a ha
  by_contra hdead
  obtain ⟨top, htop, hmax⟩ :=
    Finset.exists_max_image (s.alive all) rank ⟨a, mem_alive.mpr ⟨ha, hdead⟩⟩
  -- The object of the highest rank is held by one that is alive, and so ranks higher.
  have hpos := h.counted top htop
  rw [h.count top, List.count_nil, Nat.zero_add] at hpos
  obtain ⟨b, hb, hcount⟩ := Finset.exists_ne_zero_of_sum_ne_zero (Nat.pos_iff_ne_zero.mp hpos)
  have hheld : top ∈ holds b := List.count_pos_iff.mp (Nat.pos_of_ne_zero hcount)
  have hlt := hrank b (mem_alive.mp hb).1 top hheld
  have hle := hmax b hb
  omega

end Balance

end Pdi.Teardown
