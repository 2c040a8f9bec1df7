import Mathlib.Algebra.BigOperators.Group.List.Basic
import Mathlib.Algebra.BigOperators.Intervals
import Mathlib.Algebra.Order.BigOperators.Group.List
import Mathlib.Data.List.Nodup
import Mathlib.Tactic.Ring

/-!
# Row-major order

The indices into an array of any rank, the last one running fastest, and the
position of an index among them.
-/
namespace Pdi.RowMajor

variable {index extents index' starts : List Nat}

/-- All indices below the counts. -/
def indices : List Nat → List (List Nat)
  | [] => [[]]
  | n :: ns => (List.range n).flatMap fun i => (indices ns).map (i :: ·)

/-- The position of an index in an array of these extents. -/
def position : List Nat → List Nat → Nat
  | _ :: es, i :: is => i * es.prod + position es is
  | _, _ => 0

/-- An index, seen from the place where a window starts. -/
def shift (starts index : List Nat) : List Nat := List.zipWith (· + ·) starts index

/-- The index lies below the extents. -/
abbrev Below (index extents : List Nat) : Prop := List.Forall₂ (· < ·) index extents

@[simp] theorem mem_indices {counts : List Nat} : index ∈ indices counts ↔ Below index counts := by
  induction counts generalizing index with
  | nil => simp [indices]
  | cons n ns ih =>
    rw [indices, List.mem_flatMap]
    constructor
    · rintro ⟨i, hi, hindex⟩
      obtain ⟨rest, hrest, rfl⟩ := List.mem_map.mp hindex
      exact .cons (List.mem_range.mp hi) (ih.mp hrest)
    · intro h
      cases h with
      | cons hi hrest =>
        exact ⟨_, List.mem_range.mpr hi, List.mem_map_of_mem (ih.mpr hrest)⟩

theorem position_lt (h : Below index extents) : position extents index < extents.prod := by
  induction h with
  | nil => simp [position]
  | @cons i e is es hi _ ih =>
    calc i * es.prod + position es is < i * es.prod + es.prod := Nat.add_lt_add_left ih _
      _ = (i + 1) * es.prod := by ring
      _ ≤ e * es.prod := Nat.mul_le_mul_right _ hi
      _ = (e :: es).prod := List.prod_cons.symm

/-- Below extents that are not empty there is a last index. -/
theorem below_last (h : Below index extents) : Below (extents.map (· - 1)) extents := by
  induction h with
  | nil => exact .nil
  | cons hi _ ih => exact .cons (Nat.sub_one_lt_of_lt hi) ih

/-- Two indices below the extents that have one position are the same. -/
theorem position_inj (h : Below index extents) (h' : Below index' extents)
    (heq : position extents index = position extents index') : index = index' := by
  induction h generalizing index' with
  | nil =>
    cases h'
    rfl
  | @cons i e is es hi his ih =>
    cases h' with
    | @cons i' _ is' _ hi' his' =>
      simp only [position] at heq
      have hlt := position_lt his
      have hlt' := position_lt his'
      -- quotient and remainder by the size of a row
      have hhead : i = i' := by
        obtain hlt | rfl | hgt := Nat.lt_trichotomy i i'
        · have := Nat.mul_le_mul_right es.prod (Nat.succ_le_of_lt hlt)
          rw [Nat.succ_mul] at this
          omega
        · rfl
        · have := Nat.mul_le_mul_right es.prod (Nat.succ_le_of_lt hgt)
          rw [Nat.succ_mul] at this
          omega
      subst hhead
      rw [ih his' (by omega)]

/-- The bytes of `n` rows of one length. -/
theorem lt_mul_iff_exists_row {n length i : Nat} :
    i < n * length ↔ ∃ k < n, ∃ r < length, i = k * length + r := by
  constructor
  · intro h
    have hlength : 0 < length := Nat.pos_of_ne_zero fun hzero => by simp [hzero] at h
    exact ⟨i / length, Nat.div_lt_of_lt_mul (by rwa [Nat.mul_comm]), i % length,
      Nat.mod_lt _ hlength, (Nat.div_add_mod' i length).symm⟩
  · rintro ⟨k, hk, r, hr, rfl⟩
    calc k * length + r < k * length + length := Nat.add_lt_add_left hr _
      _ = (k + 1) * length := (Nat.succ_mul _ _).symm
      _ ≤ n * length := Nat.mul_le_mul_right _ hk

/-- A byte is in one row, and there in one place. -/
theorem row_unique {length k k' r r' : Nat} (hr : r < length) (hr' : r' < length)
    (h : k * length + r = k' * length + r') : k = k' ∧ r = r' := by
  have hlength : 0 < length := Nat.zero_lt_of_lt hr
  obtain ⟨hk, hrest⟩ := (Nat.div_mod_unique hlength).mpr
    ⟨(by ring : r + length * k = k * length + r), hr⟩
  obtain ⟨hk', hrest'⟩ := (Nat.div_mod_unique hlength).mpr
    ⟨(by rw [h]; ring : r' + length * k' = k * length + r), hr'⟩
  exact ⟨hk.symm.trans hk', hrest.symm.trans hrest'⟩

theorem flatMap_range_rows (n m : Nat) :
    (List.range n).flatMap (fun i => (List.range m).map (i * m + ·)) = List.range (n * m) := by
  induction n with
  | zero => simp
  | succ n ih =>
    rw [List.range_succ, List.flatMap_append, ih, Nat.succ_mul, List.range_add]
    simp

/-- In the order of the indices, the positions run from zero on. -/
theorem map_position_indices (extents : List Nat) :
    (indices extents).map (position extents) = List.range extents.prod := by
  induction extents with
  | nil => rfl
  | cons n es ih =>
    rw [indices, List.map_flatMap, List.prod_cons]
    have hrow (i : Nat) : ((indices es).map (i :: ·)).map (position (n :: es)) =
        (List.range es.prod).map (i * es.prod + ·) := by
      rw [← ih, List.map_map, List.map_map]
      rfl
    simp only [hrow]
    exact flatMap_range_rows n es.prod

theorem exists_position {n : Nat} (h : n < extents.prod) :
    ∃ index, Below index extents ∧ position extents index = n := by
  have hn : n ∈ (indices extents).map (position extents) := by
    rw [map_position_indices]
    exact List.mem_range.mpr h
  obtain ⟨index, hindex, hpos⟩ := List.mem_map.mp hn
  exact ⟨index, mem_indices.mp hindex, hpos⟩

theorem shift_zero (index : List Nat) (hlength : starts.length = index.length)
    (hzero : ∀ s ∈ starts, s = 0) : shift starts index = index := by
  induction starts generalizing index with
  | nil =>
    cases index with
    | nil => rfl
    | cons => simp at hlength
  | cons s starts ih =>
    cases index with
    | nil => simp at hlength
    | cons i is =>
      rw [List.forall_mem_cons] at hzero
      have hrest := ih is (by simpa using hlength) hzero.2
      rw [shift] at hrest ⊢
      rw [List.zipWith_cons_cons, hrest, hzero.1, Nat.zero_add]

theorem shift_inj (hlength : index.length = starts.length)
    (hlength' : index'.length = starts.length) (h : shift starts index = shift starts index') :
    index = index' := by
  induction starts generalizing index index' with
  | nil =>
    rw [List.length_nil, List.length_eq_zero_iff] at hlength hlength'
    rw [hlength, hlength']
  | cons s starts ih =>
    cases index with
    | nil => simp at hlength
    | cons =>
      cases index' with
      | nil => simp at hlength'
      | cons =>
        simp only [shift, List.zipWith_cons_cons, List.cons.injEq] at h
        rw [ih (by simpa using hlength) (by simpa using hlength') h.2, Nat.add_left_cancel h.1]

section Window

variable {α : Type*} {size start subsize : α → Nat} {ds : List α}

/-- An index into a window is an index into what the window is a part of. -/
theorem below_shift (hfits : ∀ d ∈ ds, start d + subsize d ≤ size d)
    (h : Below index (ds.map subsize)) : Below (shift (ds.map start) index) (ds.map size) := by
  induction ds generalizing index with
  | nil =>
    cases h
    exact .nil
  | cons d ds ih =>
    cases h with
    | @cons i _ is _ hi his =>
      rw [List.forall_mem_cons] at hfits
      refine .cons ?_ (ih hfits.2 his)
      change start d + i < size d
      omega

theorem window_inj (hfits : ∀ d ∈ ds, start d + subsize d ≤ size d)
    (h : Below index (ds.map subsize)) (h' : Below index' (ds.map subsize))
    (heq : position (ds.map size) (shift (ds.map start) index) =
      position (ds.map size) (shift (ds.map start) index')) : index = index' := by
  have hlength := h.length_eq
  have hlength' := h'.length_eq
  rw [List.length_map] at hlength hlength'
  have hshift := position_inj (below_shift hfits h) (below_shift hfits h') heq
  exact shift_inj (by simpa using hlength) (by simpa using hlength') hshift

end Window

theorem prod_eq_prod_range (es : List Nat) :
    es.prod = ∏ j ∈ Finset.range es.length, es.getD j 1 := by
  induction es with
  | nil => rfl
  | cons e es ih =>
    rw [List.prod_cons, List.length_cons, Finset.prod_range_succ', ih, Nat.mul_comm]
    rfl

/-- The position as a sum: every index counts the rows below it. -/
theorem position_eq_sum (h : index.length = extents.length) :
    position extents index = ∑ k ∈ Finset.range extents.length,
      index.getD k 0 * ∏ j ∈ Finset.Ico (k + 1) extents.length, extents.getD j 1 := by
  induction extents generalizing index with
  | nil => cases index <;> rfl
  | cons e es ih =>
    cases index with
    | nil => cases h
    | cons =>
      rw [position, List.length_cons, Finset.sum_range_succ', ih (Nat.succ.inj h), Nat.add_comm,
        prod_eq_prod_range]
      have hrow (k : Nat) : ∏ j ∈ Finset.Ico (k + 1) (es.length + 1), (e :: es).getD j 1 =
          ∏ j ∈ Finset.Ico k es.length, es.getD j 1 :=
        (Finset.prod_Ico_add' (fun j => (e :: es).getD j 1) k es.length 1).symm
      simp only [hrow, Nat.zero_add, Finset.range_eq_Ico]
      rfl

end Pdi.RowMajor
