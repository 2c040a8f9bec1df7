import Mathlib.Data.List.Nodup
import Mathlib.Data.List.Basic
import Mathlib.Tactic.Common

/-!
# Listing the values of a function on paths

A partial function on paths assigns values to some of them, as a tree with labelled
edges does. A traversal lists the values. It is right if there is one entry for each
path that has a value, and none besides.
-/
namespace Pdi.Enumeration

variable {σ ι β : Type}

/-- The entries of the list are the values at the paths that have one, each path being
accounted for once. -/
def Enumerates (value : List σ → Option β) (values : List β) : Prop :=
  ∃ paths : List (List σ), paths.Nodup ∧ (∀ p, p ∈ paths ↔ (value p).isSome = true) ∧
    values.map some = paths.map value

/-- Only the root can have a value. -/
theorem Enumerates.root {value : List σ → Option β} (h : ∀ s p, value (s :: p) = none) :
    Enumerates value (value []).toList := by
  cases hroot : value [] with
  | none =>
    refine ⟨[], List.nodup_nil, fun p => ?_, rfl⟩
    cases p with
    | nil => simp [hroot]
    | cons => simp [h]
  | some =>
    refine ⟨[[]], List.nodup_singleton _, fun p => ?_, by simp [hroot]⟩
    cases p with
    | nil => simp [hroot]
    | cons => simp [h]

section Branches

variable {value : List σ → Option β} {branches : List ι} {label : ι → σ} {values : ι → List β}
  {sub : ι → List σ → Option β}

/-- The root has no value, and the branches, with different labels, have all the others:
listing one branch after the other lists the whole. -/
theorem Enumerates.of_branches (hlabel : (branches.map label).Nodup) (hroot : value [] = none)
    (hsub : ∀ b ∈ branches, ∀ p, value (label b :: p) = sub b p)
    (hother : ∀ s, s ∉ branches.map label → ∀ p, value (s :: p) = none)
    (h : ∀ b ∈ branches, Enumerates (sub b) (values b)) :
    Enumerates value (branches.flatMap values) := by
  choose! paths hnodup hmem hvalues using h
  refine ⟨branches.flatMap fun b => (paths b).map (label b :: ·), ?_, fun p => ?_, ?_⟩
  · refine List.nodup_flatMap.mpr ⟨fun b hb => ?_, ?_⟩
    · exact (hnodup b hb).map fun p q hpq => (List.cons.inj hpq).2
    · refine (List.pairwise_map.mp hlabel).imp fun {b b'} hne => ?_
      intro p hp hp'
      obtain ⟨q, _, rfl⟩ := List.mem_map.mp hp
      obtain ⟨q', _, hq'⟩ := List.mem_map.mp hp'
      exact hne (List.cons.inj hq').1.symm
  · rw [List.mem_flatMap]
    constructor
    · rintro ⟨b, hb, hp⟩
      obtain ⟨q, hq, rfl⟩ := List.mem_map.mp hp
      rw [hsub b hb]
      exact (hmem b hb q).mp hq
    · intro hp
      cases p with
      | nil => simp [hroot] at hp
      | cons s q =>
        by_cases hs : s ∈ branches.map label
        · obtain ⟨b, hb, rfl⟩ := List.mem_map.mp hs
          rw [hsub b hb] at hp
          exact ⟨b, hb, List.mem_map_of_mem ((hmem b hb q).mpr hp)⟩
        · simp [hother s hs] at hp
  · rw [List.map_flatMap, List.map_flatMap]
    refine List.flatMap_congr fun b hb => ?_
    rw [hvalues b hb, List.map_map]
    exact List.map_congr_left fun q _ => (hsub b hb q).symm

end Branches

end Pdi.Enumeration
