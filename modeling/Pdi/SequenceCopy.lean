import Pdi.BufferContents
import Pdi.ExpressionRoom
import Pdi.TypeNodes

/-!
# A copy accounts for a whole element

A copy returns the number of bytes it accounts for, and a sequence takes the sum of these
numbers for the place of its next element. Each class of expressions finds the number in
its own way; over scalars with one size all of them return the size of the buffer. So the
elements of a sequence are written where the indices of the array find them, as long as
no size passes 2^64.
-/
namespace Pdi.Expression

open Pdi.Datatypes Pdi.Machine Pdi.Memory Pdi.Trace

variable {P : Platform} (ctx : DataContext)

/-- An operation, which accounts for the data of its type, copies into scalars only. -/
theorem Form.takes_eq_buffersize {e : Form P} {type : Datatype}
    (hscalars : ∀ s ∈ type.scalars, s.denseSize = s.size) (h : Machine.Accepts ctx e type) :
    e.takes type = type.buffersize := by
  cases e with
  | operation =>
    obtain ⟨value, -, c, hc, -⟩ := h
    cases type with
    | scalar s => exact (hscalars s (by simp)).symm
    | _ => cases hc
  | _ => rfl

def Forms.length : Forms P → Nat
  | .nil => 0
  | .cons _ rest => rest.length + 1

/-- The writes of the elements of a sequence, each in the part of the array that is its own. -/
def elementSlots (subtype : Datatype) : Forms P → (first : Nat) → List Slot
  | .nil, _ => []
  | .cons e rest, first =>
    ⟨subtype.buffersize * first, subtype.buffersize, (copyValue ctx e subtype).trace⟩ ::
      elementSlots subtype rest (first + 1)

section Elements

variable {subtype : Datatype} (hscalars : ∀ s ∈ subtype.scalars, s.denseSize = s.size)
include hscalars

theorem Forms.takes_eq : ∀ {es : Forms P}, Machine.AcceptArray ctx es subtype →
    es.takes subtype = es.length * subtype.buffersize
  | .nil, _ => (Nat.zero_mul _).symm
  | .cons e rest, h => by
    rw [Forms.takes, Form.takes_eq_buffersize ctx hscalars h.1, Forms.takes_eq h.2, Forms.length,
      Nat.succ_mul, Nat.add_comm]

/-- The loop reaches an element when it has accounted for all elements before it. -/
theorem Forms.trace_copyArray : ∀ {es : Forms P}, Machine.AcceptArray ctx es subtype → ∀ first,
    subtype.buffersize * (first + es.length) < 2 ^ 64 →
    (Machine.copyArray ctx es subtype (subtype.buffersize * first)).trace =
      placed (elementSlots ctx subtype es first)
  | .nil, _, _, _ => rfl
  | .cons e rest, h, first, hlt => by
    have hrest := Forms.trace_copyArray h.2 (first + 1)
      (by rwa [Nat.add_assoc, Nat.add_comm 1, ← Forms.length])
    have hnext : wrap (subtype.buffersize * first + wrap subtype.buffersize) =
        subtype.buffersize * (first + 1) := by
      rw [wrap_add_wrap, ← Nat.mul_add_one]
      refine wrap_of_lt (Nat.lt_of_le_of_lt (Nat.mul_le_mul_left _ ?_) hlt)
      rw [Forms.length]
      omega
    have hresult : ((copyValue ctx e subtype).relabel
        (Write.shift (subtype.buffersize * first))).result = .ok (wrap subtype.buffersize) :=
      (result_copyValue ctx e subtype _).mpr
        ⟨h.1, congrArg wrap (Form.takes_eq_buffersize ctx hscalars h.1).symm⟩
    rw [Machine.copyArray, bind_of_ok hresult]
    dsimp only
    rw [hnext, hrest, elementSlots, placed_cons]
    rfl

end Elements

/-- A copy that succeeds returns the size of the buffer. A sequence that is copied into an
array without gaps has an element for each index and writes it where the index leads, if
neither the array nor the sequence takes 2^64 bytes or more. -/
theorem copyValue_accounts {e : Form P} {type : Datatype} {n : Nat}
    (hscalars : ∀ s ∈ type.scalars, s.denseSize = s.size)
    (hcopy : (copyValue ctx e type).result = .ok n) :
    n = Machine.buffersize type ∧
      ∀ (elements : Forms P) (subtype : Datatype) (size : Nat) (attributes : Attributes),
        e = .sequence elements → type = .array subtype size 0 size attributes →
        0 < subtype.buffersize → size * subtype.buffersize < 2 ^ 64 →
        elements.length * subtype.buffersize < 2 ^ 64 →
        elements.length = size ∧
          (copyValue ctx e type).trace = placed (elementSlots ctx subtype elements 0) ∧
          ∀ i < size, ∀ (data : Nat) (mem : Mem Byte),
            type.index i data mem = .ok (data + subtype.buffersize * i, subtype) := by
  obtain ⟨haccepts, rfl⟩ := (result_copyValue ctx e type n).mp hcopy
  refine ⟨?_, ?_⟩
  · rw [Form.takes_eq_buffersize ctx hscalars haccepts, buffersize_eq]
  rintro elements subtype size attributes rfl rfl hpos hsize hlength
  have hsub : ∀ s ∈ subtype.scalars, s.denseSize = s.size := hscalars
  obtain ⟨harray, htakes⟩ := haccepts
  refine ⟨?_, ?_, ?_⟩
  · have hwrap : wrap (size * Machine.buffersize subtype) = wrap (size * subtype.buffersize) :=
      buffersize_eq (.array subtype size 0 size attributes)
    rw [hwrap, Forms.takes_eq ctx hsub harray, wrap_of_lt hlength, wrap_of_lt hsize] at htakes
    exact Nat.eq_of_mul_eq_mul_right hpos htakes
  · have hresult : (Machine.copyArray ctx elements subtype 0).result = .ok _ :=
      (result_copyArray ctx elements subtype 0 _).mpr ⟨harray, rfl⟩
    have htrace := Forms.trace_copyArray ctx hsub harray 0
      (by rwa [Nat.zero_add, Nat.mul_comm])
    rw [Nat.mul_zero] at htrace
    rw [copyValue, bind_of_ok hresult, Nat.zero_add, if_pos htakes, ← htrace]
    exact List.append_nil _
  · intro i hi data mem
    rw [Datatype.index, if_pos hi, Nat.zero_add]

/-- `[[1, 2], [3, 4]]` -/
def twoRows : Forms integersOnly :=
  .cons (.sequence (.cons (.intLiteral 1) (.cons (.intLiteral 2) .nil)))
    (.cons (.sequence (.cons (.intLiteral 3) (.cons (.intLiteral 4) .nil))) .nil)

theorem copyValue_accounts_twoRows :
    let copy := copyValue nothingShared (.sequence twoRows)
      (.array (.array typeForInt32 2 0 2 []) 2 0 2 [])
    copy.result = .ok 16 ∧ copy.trace.map Write.offset = [0, 4, 8, 12] ∧ twoRows.length = 2 := by
  intro copy
  have hcopy : copy.result = .ok 16 := rfl
  have hrows := (copyValue_accounts nothingShared (by decide) hcopy).2 twoRows _ 2 [] rfl rfl
  exact ⟨hcopy, rfl, (hrows (by decide) (by decide) (by decide)).1⟩

/-- `[1]` fills an array of 2^61 + 1 numbers of eight bytes, whose size is eight modulo 2^64. -/
theorem one_fills_array :
    let elements : Forms integersOnly := .cons (.intLiteral 1) .nil
    let type : Datatype := .array typeForInt64 (2 ^ 61 + 1) 0 (2 ^ 61 + 1) []
    (copyValue nothingShared (.sequence elements) type).result = .ok 8 ∧
      Machine.buffersize type = 8 ∧ elements.length = 1 := ⟨rfl, rfl, rfl⟩

end Pdi.Expression
