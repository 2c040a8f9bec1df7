import Pdi.Access
import Pdi.RowMajor

/-!
# Arrays of arrays

An array of any rank is a chain of one-dimensional arrays around an element type. Its
elements are reached by a chain of indices, one for each dimension, and lie in row-major
order of the full sizes.
-/
namespace Pdi.Datatypes

open Pdi.Memory Pdi.RowMajor

variable {index : List Nat}

/-- One dimension of an array. -/
structure Extent where
  size : Nat
  start : Nat
  subsize : Nat
  attributes : Attributes := []

/-- Arrays of these extents, the outermost first, around an element type. -/
def Datatype.nest (element : Datatype) : List Extent → Datatype
  | [] => element
  | d :: ds => .array (element.nest ds) d.size d.start d.subsize d.attributes

/-- What is reached by the steps of a path, one after the other. -/
def follow (mem : Mem Byte) : Path → Datatype → Nat → Except Failure (Nat × Datatype)
  | [], t, data => .ok (data, t)
  | step :: path, t, data => do
    let (data, t) ← t.step step data mem
    follow mem path t data

/-- A chain of indices. -/
def indexPath (index : List Nat) : Path := index.map Step.index

abbrev sizes (ds : List Extent) : List Nat := ds.map Extent.size
abbrev starts (ds : List Extent) : List Nat := ds.map Extent.start
abbrev subsizes (ds : List Extent) : List Nat := ds.map Extent.subsize

/-- The number of elements before the one at an index of the window, in the whole array. -/
def elementNumber (ds : List Extent) (index : List Nat) : Nat :=
  position (sizes ds) (shift (starts ds) index)

section Nest

variable (element : Datatype) (d : Extent) (ds : List Extent)

@[simp] theorem sizes_cons : sizes (d :: ds) = d.size :: sizes ds := rfl
@[simp] theorem starts_cons : starts (d :: ds) = d.start :: starts ds := rfl
@[simp] theorem subsizes_cons : subsizes (d :: ds) = d.subsize :: subsizes ds := rfl

@[simp] theorem nest_nil : element.nest [] = element := rfl

theorem nest_cons : element.nest (d :: ds) =
    .array (element.nest ds) d.size d.start d.subsize d.attributes := rfl

theorem buffersize_nest : (element.nest ds).buffersize = (sizes ds).prod * element.buffersize := by
  induction ds with
  | nil => simp
  | cons d ds ih =>
    rw [nest_cons, Datatype.buffersize, ih, sizes_cons, List.prod_cons, Nat.mul_assoc]

theorem datasize_nest : (element.nest ds).datasize = (subsizes ds).prod * element.datasize := by
  induction ds with
  | nil => simp
  | cons d ds ih =>
    rw [nest_cons, Datatype.datasize, ih, subsizes_cons, List.prod_cons, Nat.mul_assoc]

theorem alignment_nest : (element.nest ds).alignment = element.alignment := by
  induction ds with
  | nil => rfl
  | cons d ds ih => exact ih

@[simp] theorem elementNumber_nil : elementNumber [] [] = 0 := rfl

@[simp] theorem elementNumber_cons (i : Nat) (is : List Nat) :
    elementNumber (d :: ds) (i :: is) = (d.start + i) * (sizes ds).prod + elementNumber ds is := rfl

theorem elementNumber_eq_sum (h : index.length = ds.length) :
    elementNumber ds index = ∑ k ∈ Finset.range ds.length,
      ((starts ds).getD k 0 + index.getD k 0) *
        ∏ j ∈ Finset.Ico (k + 1) ds.length, (sizes ds).getD j 1 := by
  rw [elementNumber, position_eq_sum (by simp [shift, h]), List.length_map]
  refine Finset.sum_congr rfl fun k hk => ?_
  have hk : k < ds.length := Finset.mem_range.mp hk
  simp [shift, hk, h]

end Nest

section Window

variable {ds : List Extent} {index' : List Nat}

theorem elementNumber_lt (hfits : ∀ d ∈ ds, d.start + d.subsize ≤ d.size)
    (h : Below index (subsizes ds)) : elementNumber ds index < (sizes ds).prod :=
  position_lt (below_shift hfits h)

theorem elementNumber_inj (hfits : ∀ d ∈ ds, d.start + d.subsize ≤ d.size)
    (h : Below index (subsizes ds)) (h' : Below index' (subsizes ds))
    (heq : elementNumber ds index = elementNumber ds index') : index = index' :=
  window_inj hfits h h' heq

theorem elementNumber_le_last (h : Below index (subsizes ds)) :
    elementNumber ds index ≤ elementNumber ds ((subsizes ds).map (· - 1)) := by
  induction ds generalizing index with
  | nil =>
    cases h
    exact Nat.le_refl _
  | cons d ds ih =>
    cases h with
    | @cons i _ is _ hi his =>
      rw [subsizes_cons, List.map_cons, elementNumber_cons, elementNumber_cons]
      exact Nat.add_le_add (Nat.mul_le_mul_right _ (by omega)) (ih his)

end Window

variable {ds : List Extent}

section Follow

variable {element : Datatype} {mem : Mem Byte}

theorem follow_index {subtype : Datatype} {size start subsize i data : Nat} {as : Attributes}
    (path : Path) (h : i < subsize) :
    follow mem (.index i :: path) (.array subtype size start subsize as) data =
      follow mem path subtype (data + subtype.buffersize * (start + i)) := by
  rw [follow, Datatype.step, Datatype.index, if_pos h]
  rfl

/-- Indices inside the window reach the element of that number. -/
theorem follow_nest (h : Below index (subsizes ds)) (data : Nat) :
    follow mem (indexPath index) (element.nest ds) data =
      .ok (data + element.buffersize * elementNumber ds index, element) := by
  induction ds generalizing index data with
  | nil =>
    cases h
    rfl
  | cons d ds ih =>
    cases h with
    | @cons i _ is _ hi his =>
      rw [indexPath, List.map_cons, nest_cons, follow_index _ hi]
      refine (ih his _).trans ?_
      rw [buffersize_nest, elementNumber_cons]
      congr 2
      ring

/-- Any other index is refused. -/
theorem follow_nest_error (hlength : index.length ≤ ds.length)
    (h : ¬ Below index ((subsizes ds).take index.length)) (data : Nat) :
    ∃ message, follow mem (indexPath index) (element.nest ds) data =
      .error (valueError message) := by
  induction ds generalizing index data with
  | nil =>
    cases index with
    | nil => exact absurd .nil h
    | cons => cases hlength
  | cons d ds ih =>
    cases index with
    | nil => exact absurd .nil h
    | cons i =>
      by_cases hi : i < d.subsize
      · rw [indexPath, List.map_cons, nest_cons, follow_index _ hi]
        exact ih (Nat.le_of_succ_le_succ hlength) (fun his => h (.cons hi his)) _
      · rw [indexPath, List.map_cons, nest_cons, follow, Datatype.step, Datatype.index, if_neg hi]
        exact ⟨_, rfl⟩

end Follow

end Pdi.Datatypes
