import Pdi.DenseLayout
import Pdi.SubAccess

/-!
# Slices of tuples

A slice of a tuple is a window of it: it holds the elements from its first bound up to
its second one, where they are. Bounds that no window has are refused.

The code asks for the offset of the element at the first bound without a look at the
bounds, and takes the element after the one at the second bound for the end.
-/
namespace Pdi.SubAccess

open Pdi.Datatypes Pdi.Memory

variable {i base : Nat} {type : Datatype}

def offsets : Members → List Nat
  | .nil => []
  | .cons d _ _ rest => d :: offsets rest

/-- The elements are listed in the order of their offsets. -/
def Increasing (elements : Members) : Prop := (offsets elements).Pairwise (· ≤ ·)

/-- The part at `data'` lies inside the data at `data`. -/
def Inside (data : Nat) (t : Datatype) (data' : Nat) (t' : Datatype) : Prop :=
  data ≤ data' ∧ data' + t'.buffersize ≤ data + t.buffersize

/-- The slice is a window of the tuple if the bounds are those of one; otherwise it
throws. In both cases nothing undefined is done. -/
def IsWindow (elements : Members) (n : Nat) (attributes : Attributes) (start stop data : Nat)
    (mem : Mem Byte) : Prop :=
  let parent : Datatype := .tuple elements n attributes
  if start ≤ stop ∧ stop ≤ elements.length then
    ∃ data' part n' attributes', parent.slice start stop data mem =
        .ok (data', .tuple part n' attributes') ∧
      part.length = stop - start ∧
      (∀ i < stop - start, ∃ element, parent.index (start + i) data mem = .ok element ∧
        (Datatype.tuple part n' attributes').index i data' mem = .ok element) ∧
      Inside data parent data' (.tuple part n' attributes')
  else ∃ e, parent.slice start stop data mem = .error e ∧ Throws e

/-! ## Elements by their place -/

theorem get?_eq_none_iff : ∀ {m : Members} {i : Nat}, m.get? i = none ↔ m.length ≤ i
  | .nil, i | .cons _ _ _ _, 0 => by simp [Members.get?, Members.length]
  | .cons _ _ _ rest, i + 1 => by
    rw [Members.get?, Members.length, get?_eq_none_iff]
    omega

theorem exists_get? {m : Members} (h : i < m.length) : ∃ d type, m.get? i = some (d, type) := by
  cases hget : m.get? i with
  | none => exact absurd (get?_eq_none_iff.mp hget) (by omega)
  | some x => exact ⟨x.1, x.2, rfl⟩

theorem length_window (base : Nat) : ∀ (m : Members) (first stop : Nat), stop ≤ m.length →
    (m.window base first stop).length = stop - first
  | .nil, _, stop, h => by
    have hstop : stop = 0 := Nat.eq_zero_of_le_zero h
    simp [Members.window, Members.length, hstop]
  | .cons _ _ _ _, first, 0, _ => by simp [Members.window, Members.length]
  | .cons _ _ _ rest, 0, stop + 1, h => by
    rw [Members.window, Members.length, length_window base rest 0 stop (Nat.le_of_succ_le_succ h)]
    omega
  | .cons _ _ _ rest, first + 1, stop + 1, h => by
    rw [Members.window, length_window base rest first stop (Nat.le_of_succ_le_succ h)]
    omega

theorem getElem?_offsets : ∀ {m : Members} {i d : Nat} {type : Datatype},
    m.get? i = some (d, type) → (offsets m)[i]? = some d
  | .cons d' _ _ _, 0, d, _, h => by
    obtain ⟨rfl, _⟩ := Prod.mk.inj (Option.some.inj h)
    rfl
  | .cons _ _ _ rest, i + 1, d, type, h => by
    rw [offsets, List.getElem?_cons_succ]
    exact getElem?_offsets h

theorem Increasing.le {elements : Members} (h : Increasing elements) {j d d' : Nat}
    {type' : Datatype} (hij : i ≤ j) (hi : elements.get? i = some (d, type))
    (hj : elements.get? j = some (d', type')) : d ≤ d' := by
  obtain ⟨hi', hd⟩ := List.getElem?_eq_some_iff.mp (getElem?_offsets hi)
  obtain ⟨hj', hd'⟩ := List.getElem?_eq_some_iff.mp (getElem?_offsets hj)
  obtain rfl | hlt := Nat.eq_or_lt_of_le hij
  · exact Nat.le_of_eq (hd.symm.trans hd')
  · rw [← hd, ← hd']
    exact List.pairwise_iff_getElem.mp h i j hi' hj' hlt

theorem get?_le : ∀ {m : Members} {n i d : Nat} {type : Datatype}, m.WellFormed n →
    m.get? i = some (d, type) → d + type.buffersize ≤ n
  | .cons _ _ _ _, n, 0, d, type, hw, h => by
    obtain ⟨rfl, rfl⟩ := Prod.mk.inj (Option.some.inj h)
    exact hw.2.1
  | .cons _ _ _ _, _, _ + 1, _, _, hw, h => get?_le hw.2.2.2 h

/-! ## The slice -/

section Slice

variable {elements : Members} {n start stop data : Nat} {attributes : Attributes} {mem : Mem Byte}

theorem slice_undefined (h : elements.length ≤ start) :
    (Datatype.tuple elements n attributes).slice start stop data mem =
      .error (.undefined "offset of an element that does not exist") := by
  rw [Datatype.slice, tupleSlice, get?_eq_none_iff.mpr h]

theorem not_isWindow_of_undefined (what : String)
    (h : (Datatype.tuple elements n attributes).slice start stop data mem =
      .error (.undefined what)) : ¬ IsWindow elements n attributes start stop data mem := by
  unfold IsWindow
  simp only [h]
  split
  · rintro ⟨_, _, _, _, heq, _⟩
    cases heq
  · rintro ⟨e, heq, hthrows⟩
    cases heq
    exact hthrows

/-- The element at an index of the slice is the one at the shifted index of the tuple. -/
theorem index_window {n' : Nat} {attributes' : Attributes} (hinc : Increasing elements)
    (hfirst : elements.get? start = some (base, type)) (hi : start + i < stop)
    (hstop : stop ≤ elements.length) :
    ∃ element, (Datatype.tuple elements n attributes).index (start + i) data mem = .ok element ∧
      (Datatype.tuple (elements.window base start stop) n' attributes').index i (data + base) mem =
        .ok element := by
  obtain ⟨d, type', hget⟩ := exists_get? (Nat.lt_of_lt_of_le hi hstop)
  have hle := hinc.le (Nat.le_add_right start i) hfirst hget
  refine ⟨(data + d, type'), ?_, ?_⟩
  · rw [Datatype.index, hget]
  · rw [Datatype.index, get?_window, if_pos hi, hget]
    simp only [Option.map_some, sizeSub_of_le hle]
    rw [show data + base + (d - base) = data + d by omega]

theorem exists_sliceEnd (hw : elements.WellFormed n) (hinc : Increasing elements)
    (hfirst : elements.get? start = some (base, type)) (hle : start ≤ stop)
    (hstop : stop ≤ elements.length) (hlast : stop + 1 ≠ elements.length) :
    ∃ last, sliceEnd elements n stop = some last ∧ base ≤ last ∧ last ≤ n := by
  unfold sliceEnd
  split
  · have := get?_le hw hfirst
    exact ⟨n, rfl, by omega, Nat.le_refl n⟩
  · obtain ⟨d, type', hget⟩ := exists_get? (m := elements) (i := stop + 1) (by omega)
    have := get?_le hw hget
    exact ⟨d, by rw [hget]; rfl, hinc.le (by omega) hfirst hget, by omega⟩

theorem isWindow_of_bounds (hw : elements.WellFormed n) (hinc : Increasing elements)
    (hstart : start < elements.length) (hle : start ≤ stop) (hstop : stop ≤ elements.length)
    (hlast : stop + 1 ≠ elements.length) : IsWindow elements n attributes start stop data mem := by
  obtain ⟨base, type, hfirst⟩ := exists_get? hstart
  obtain ⟨last, hend, hbase, hn⟩ := exists_sliceEnd hw hinc hfirst hle hstop hlast
  unfold IsWindow
  simp only [if_pos (And.intro hle hstop)]
  refine ⟨data + base, elements.window base start stop, sizeSub last base, [], ?_,
    length_window base elements start stop hstop,
    fun i hi => index_window hinc hfirst (by omega) hstop, Nat.le_add_right _ _, ?_⟩
  · rw [Datatype.slice, tupleSlice_eq hfirst, if_pos hstop, hend]
  · rw [Datatype.buffersize, Datatype.buffersize, sizeSub_of_le hbase]
    omega

theorem isWindow_of_refused (hstart : start < elements.length) (hstop : elements.length < stop) :
    IsWindow elements n attributes start stop data mem := by
  obtain ⟨base, type, hfirst⟩ := exists_get? hstart
  unfold IsWindow
  rw [if_neg (by omega)]
  rw [Datatype.slice, tupleSlice_eq hfirst, if_neg (Nat.not_le_of_lt hstop)]
  exact ⟨_, rfl, trivial⟩

theorem bounds_of_isWindow (h : IsWindow elements n attributes start stop data mem)
    (hstart : start < elements.length) (hstop : stop ≤ elements.length) :
    start ≤ stop ∧ stop + 1 ≠ elements.length := by
  obtain ⟨base, type, hfirst⟩ := exists_get? hstart
  have hlast : stop + 1 ≠ elements.length := by
    intro hlast
    have hnone : sliceEnd elements n stop = none := by
      rw [sliceEnd, if_neg (by omega), get?_eq_none_iff.mpr (by omega)]
      rfl
    refine not_isWindow_of_undefined "offset of an element that does not exist" ?_ h
    rw [Datatype.slice, tupleSlice_eq hfirst, if_pos hstop, hnone]
  refine ⟨?_, hlast⟩
  -- bounds that are not in order should be refused, but the end of the slice is found
  by_contra hlt
  obtain ⟨d, type', hget⟩ := exists_get? (m := elements) (i := stop + 1) (by omega)
  have hend : sliceEnd elements n stop = some d := by
    rw [sliceEnd, if_neg (by omega), hget]
    rfl
  unfold IsWindow at h
  rw [if_neg (by omega)] at h
  obtain ⟨e, he, _⟩ := h
  rw [Datatype.slice, tupleSlice_eq hfirst, if_pos hstop, hend] at he
  cases he

/-- A slice of a well-formed tuple is what it should be exactly when it starts at one of
its elements and, unless its end is refused, does not end before its start and does not
end just before the last element. -/
theorem tuple_slice_window_iff (elements : Members) (n : Nat) (attributes : Attributes)
    (hw : (Datatype.tuple elements n attributes).WellFormed) (hinc : Increasing elements)
    (start stop data : Nat) (mem : Mem Byte) :
    IsWindow elements n attributes start stop data mem ↔
      start < elements.length ∧
        (elements.length < stop ∨ (start ≤ stop ∧ stop + 1 ≠ elements.length)) := by
  constructor
  · intro h
    have hstart : start < elements.length := by
      by_contra hge
      exact not_isWindow_of_undefined _ (slice_undefined (Nat.le_of_not_lt hge)) h
    refine ⟨hstart, ?_⟩
    obtain hstop | hstop := Nat.lt_or_ge elements.length stop
    · exact .inl hstop
    · exact .inr (bounds_of_isWindow h hstart hstop)
  · rintro ⟨hstart, hstop⟩
    obtain hgt | hle := Nat.lt_or_ge elements.length stop
    · exact isWindow_of_refused hstart hgt
    · obtain hgt | ⟨hbounds, hlast⟩ := hstop
      · omega
      · exact isWindow_of_bounds hw hinc hstart hbounds hle hlast

end Slice

/-- Three numbers, one after the other. -/
def triple : Members :=
  .cons 0 typeForInt32 "" (.cons 4 typeForInt32 "" (.cons 8 typeForInt32 "" .nil))

theorem triple_wellFormed : (Datatype.tuple triple 12 []).WellFormed := by
  have hnumber : typeForInt32.WellFormed := Nat.succ_pos 3
  refine ⟨hnumber, by decide, ⟨?_, ?_, trivial⟩, hnumber, by decide, ⟨?_, trivial⟩, hnumber,
    by decide, trivial, trivial⟩
  all_goals
    change ∀ a, _ ≤ a → a < _ + 4 → _ ≤ a → _ + 4 ≤ a
    omega

theorem triple_increasing : Increasing triple := by
  unfold Increasing
  decide

theorem triple_slice_window : IsWindow triple 12 [] 1 3 64 (fun _ => 0) :=
  (tuple_slice_window_iff triple 12 [] triple_wellFormed triple_increasing 1 3 64 _).mpr (by decide)

/-- The first two of three elements cannot be cut out, nor can no elements at the end;
and bounds that are not in order are accepted. -/
theorem triple_slice_fails :
    let slice (start stop : Nat) := (Datatype.tuple triple 12 []).slice start stop 64 (fun _ => 0)
    slice 0 2 = .error (.undefined "offset of an element that does not exist") ∧
      slice 3 3 = .error (.undefined "offset of an element that does not exist") ∧
      slice 2 0 = .ok (72, .tuple .nil (2 ^ 64 - 4) []) ∧
      ¬ IsWindow triple 12 [] 0 2 64 (fun _ => 0) :=
  ⟨rfl, rfl, rfl, not_isWindow_of_undefined _ rfl⟩

end Pdi.SubAccess
