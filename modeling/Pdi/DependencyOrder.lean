import Mathlib.Logic.Relation

/-!
# Lists in the order of dependencies

A relation says what depends on what. A list is in its order when everything
stands behind all that it depends on. Such a list is closed under the relation,
and the relation has no cycle among its elements.
-/
namespace Pdi.DependencyOrder

open Relation

variable {α : Type} {E : α → α → Prop} {l : List α} {a b : α}

/-- All that an element depends on stands in front of it. -/
def Ordered (E : α → α → Prop) (l : List α) : Prop :=
  ∀ l₁ a l₂, l = l₁ ++ a :: l₂ → ∀ b, E a b → b ∈ l₁

theorem Ordered.nil : Ordered E [] := by
  intro l₁ a l₂ h
  simp at h

section

variable (h : Ordered E l)

include h

theorem Ordered.concat (ha : ∀ b, E a b → b ∈ l) : Ordered E (l ++ [a]) := by
  intro l₁ c l₂ heq b hb
  obtain ⟨l', rfl, hl'⟩ | ⟨l', rfl, hl'⟩ := List.append_eq_append_iff.mp heq
  · -- `c` is in the second part, which is `[a]`
    cases l' with
    | nil =>
      obtain ⟨rfl, rfl⟩ : a = c ∧ [] = l₂ := by simpa using hl'
      simpa using ha b hb
    | cons => simp at hl'
  · cases l' with
    | nil =>
      obtain ⟨rfl, rfl⟩ : c = a ∧ l₂ = [] := by simpa using hl'
      simpa using ha b hb
    | cons d l' =>
      obtain ⟨rfl, rfl⟩ : c = d ∧ l₂ = l' ++ [a] := by simpa using hl'
      exact h l₁ c l' rfl b hb

theorem Ordered.closed (ha : a ∈ l) (hab : E a b) : b ∈ l := by
  obtain ⟨l₁, l₂, rfl⟩ := List.append_of_mem ha
  exact List.mem_append_left _ (h l₁ a l₂ rfl b hab)

theorem Ordered.reaches (ha : a ∈ l) (hab : ReflTransGen E a b) : b ∈ l := by
  induction hab with
  | refl => exact ha
  | tail _ hbc ih => exact h.closed ih hbc

/-- What is in front of an element has in front of it all that it depends on. -/
theorem Ordered.transGen : Ordered (TransGen E) l := by
  intro l₁ a l₂ heq b hab
  induction hab with
  | single hab => exact h l₁ a l₂ heq _ hab
  | tail _ hbc ih =>
    obtain ⟨m₁, m₂, rfl⟩ := List.append_of_mem ih
    exact List.mem_append_left _ (h m₁ _ (m₂ ++ a :: l₂) (by simpa using heq) _ hbc)

/-- What an element depends on stands in front of it. -/
theorem Ordered.sublist (ha : a ∈ l) (hab : E a b) : [b, a].Sublist l := by
  obtain ⟨l₁, l₂, rfl⟩ := List.append_of_mem ha
  have hb := List.singleton_sublist.mpr (h l₁ a l₂ rfl b hab)
  exact hb.append (List.singleton_sublist.mpr List.mem_cons_self)

theorem Ordered.idxOf_lt [DecidableEq α] (hnodup : l.Nodup) (ha : a ∈ l)
    (hab : E a b) : l.idxOf b < l.idxOf a := by
  obtain ⟨l₁, l₂, rfl⟩ := List.append_of_mem ha
  have hb := h l₁ a l₂ rfl b hab
  have hfront : a ∉ l₁ := fun hmem =>
    (List.nodup_append.mp hnodup).2.2 a hmem a List.mem_cons_self rfl
  have hlt := List.idxOf_lt_length_of_mem hb
  rw [List.idxOf_append, List.idxOf_append, if_pos hb, if_neg hfront]
  omega

/-- What stands in front of an element on a cycle has an element on a cycle. -/
theorem Ordered.acyclic (ha : a ∈ l) : ¬ TransGen E a a := by
  obtain ⟨l₁, l₂, heq⟩ := List.append_of_mem ha
  clear ha
  induction hn : l₁.length using Nat.strongRecOn generalizing a l₁ l₂ with
  | _ n ih =>
  intro hcycle
  obtain ⟨b, hab, hba⟩ := TransGen.head'_iff.mp hcycle
  obtain ⟨m₁, m₂, rfl⟩ := List.append_of_mem (h l₁ a l₂ heq b hab)
  have hlength : m₁.length < n := by
    rw [← hn]
    simp
  have hb : TransGen E b b := TransGen.tail' hba hab
  exact ih m₁.length hlength (a := b) m₁ (m₂ ++ a :: l₂) (by simpa using heq) rfl hb

end

end Pdi.DependencyOrder
