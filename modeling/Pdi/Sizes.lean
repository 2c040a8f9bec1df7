import Pdi.Serialize

/-!
# Sizes as the code computes them

All sizes are `size_t`, and nothing checks that a sum or a product of sizes stays below
2^64. The functions here are the layout functions of datatypes with every result taken
modulo 2^64. They agree with those on natural numbers for a type that has no part of 2^64
bytes or more.

Members are laid out one after the other in four places, struct and tuple templates,
`densify` and `serialize_type`, by loops that differ in what they do at the end only.
-/
namespace Pdi.Machine

open Pdi.Align Pdi.Datatypes

variable {types : List (String × Datatype)}

/-- What a `size_t` keeps of a number. -/
def wrap (n : Nat) : Nat := n % 2 ^ 64

theorem wrap_of_lt {n : Nat} (h : n < 2 ^ 64) : wrap n = n := Nat.mod_eq_of_lt h

theorem wrap_le (n : Nat) : wrap n ≤ n := Nat.mod_le _ _

theorem wrap_add_wrap (m n : Nat) : wrap (m + wrap n) = wrap (m + n) := Nat.add_mod_mod _ _ _

def buffersize : Datatype → Nat
  | .scalar s => wrap s.denseSize
  | .array subtype size _ _ _ => wrap (size * buffersize subtype)
  | .record _ n _ => wrap n
  | .tuple _ n _ => wrap n
  | .pointer _ _ _ _ => pointerSize

mutual
def datasize : Datatype → Nat
  | .scalar s => wrap s.size
  | .array subtype _ _ subsize _ => wrap (subsize * datasize subtype)
  | .record members _ _ => membersDatasize members
  | .tuple elements _ _ => membersDatasize elements
  | .pointer _ _ _ _ => pointerSize

def membersDatasize : Members → Nat
  | .nil => 0
  | .cons _ type _ rest => wrap (datasize type + membersDatasize rest)
end

/-- `buffersize()` is the size modulo 2^64, however deep the arrays are. -/
theorem buffersize_eq : ∀ t : Datatype, buffersize t = wrap t.buffersize
  | .scalar _ | .record _ _ _ | .tuple _ _ _ | .pointer _ _ _ _ => rfl
  | .array subtype size _ _ _ => by
    rw [buffersize, buffersize_eq subtype]
    exact Nat.mul_mod_mod _ _ _

mutual
theorem datasize_eq : ∀ t : Datatype, datasize t = wrap t.datasize
  | .scalar _ | .pointer _ _ _ _ => rfl
  | .array subtype _ _ subsize _ => by
    rw [datasize, datasize_eq subtype]
    exact Nat.mul_mod_mod _ _ _
  | .record members _ _ | .tuple members _ _ => membersDatasize_eq members

theorem membersDatasize_eq : ∀ ms : Members, membersDatasize ms = wrap ms.datasize
  | .nil => rfl
  | .cons _ type _ rest => by
    rw [membersDatasize, datasize_eq type, membersDatasize_eq rest]
    exact (Nat.add_mod _ _ _).symm
end

/-! ## Members one after the other -/

def layOut : List (String × Datatype) → Nat → Members
  | [], _ => .nil
  | (name, type) :: rest, displacement =>
    .cons (wrap (alignUp displacement type.alignment)) type name
      (layOut rest (wrap (wrap (alignUp displacement type.alignment) + buffersize type)))

def layOutEnd : List (String × Datatype) → Nat → Nat
  | [], displacement => displacement
  | (_, type) :: rest, displacement =>
    layOutEnd rest (wrap (wrap (alignUp displacement type.alignment) + buffersize type))

/-- The largest alignment, which the loops of the plugin and of the templates start at
zero. -/
def largestAlignment (types : List (String × Datatype)) : Nat :=
  types.foldr (fun t a => max t.2.alignment a) 0

def paddedEnd (displacement alignment : Nat) : Nat := max 1 (wrap (alignUp displacement alignment))

mutual
def densify : Datatype → Datatype
  | .scalar s => .scalar s.densify
  | .array subtype _ _ subsize attributes => .array (densify subtype) subsize 0 subsize attributes
  | .record members _ _ =>
    .record (layOut (densified members) 0)
      (paddedEnd (layOutEnd (densified members) 0) members.alignment) []
  | .tuple elements _ _ =>
    .tuple (layOut (densified elements) 0)
      (paddedEnd (layOutEnd (densified elements) 0) elements.alignment) []
  | .pointer subtype copy destroy attributes => .pointer (densify subtype) copy destroy attributes

def densified : Members → List (String × Datatype)
  | .nil => []
  | .cons _ type name rest => (name, densify type) :: densified rest
end

mutual
def serializeType : Datatype → Datatype
  | .scalar s => .scalar s
  | .array subtype _ _ subsize attributes =>
    .array (serializeType subtype) subsize 0 subsize attributes
  | .record members _ attributes =>
    .record (layOut (serialized members) 0)
      (wrap (alignUp (layOutEnd (serialized members) 0) (largestAlignment (serialized members))))
      attributes
  | .tuple elements _ attributes =>
    .tuple (layOut (serialized elements) 0)
      (wrap (alignUp (layOutEnd (serialized elements) 0) (largestAlignment (serialized elements))))
      attributes
  | .pointer subtype _ _ _ => serializeType subtype

def serialized : Members → List (String × Datatype)
  | .nil => []
  | .cons _ type name rest => (name, serializeType type) :: serialized rest
end

mutual
def dense : Datatype → Bool
  | .scalar s => s.denseSize == s.size
  | .array subtype size _ subsize _ => size == subsize && dense subtype
  | .record members buffersize _ => denseIn buffersize members.alignment members 0
  | .tuple elements buffersize _ => denseIn buffersize elements.alignment elements 0
  | .pointer _ _ _ _ => true

def denseIn (n alignment : Nat) : Members → Nat → Bool
  | .nil, displacement => decide (n ≤ paddedEnd displacement alignment)
  | .cons d type _ rest, displacement =>
    dense type && decide (d ≤ wrap (alignUp displacement type.alignment)) &&
      denseIn n alignment rest
        (wrap (wrap (alignUp displacement type.alignment) + buffersize type))
end

/-- What was laid out member by member is dense if the members are, wrapped or not. -/
theorem denseIn_layOut {n alignment : Nat}
    (h : ∀ t ∈ types, dense t.2 = true) {displacement : Nat}
    (hend : n ≤ paddedEnd (layOutEnd types displacement) alignment) :
    denseIn n alignment (layOut types displacement) displacement = true := by
  induction types generalizing displacement with
  | nil => exact decide_eq_true hend
  | cons t types ih =>
    rw [List.forall_mem_cons] at h
    simp only [layOut, denseIn, h.1, Nat.le_refl, decide_true, Bool.true_and]
    exact ih h.2 hend

/-! ## Types without a part of 2^64 bytes -/

theorem le_layOutEnd (types : List (String × Datatype)) (d : Nat) :
    d ≤ Datatypes.layOutEnd types d := by
  induction types generalizing d with
  | nil => exact Nat.le_refl d
  | cons t types ih =>
    have hle := le_alignUp d t.2.alignment
    have hrest := ih (alignUp d t.2.alignment + t.2.buffersize)
    rw [Datatypes.layOutEnd]
    omega

/-- Nothing wraps in a layout that ends below 2^64. -/
theorem layOut_eq {d : Nat}
    (h : Datatypes.layOutEnd types d < 2 ^ 64) :
    layOut types d = Datatypes.layOut types d ∧
      layOutEnd types d = Datatypes.layOutEnd types d := by
  induction types generalizing d with
  | nil => exact ⟨rfl, rfl⟩
  | cons t types ih =>
    have hle := le_layOutEnd types (alignUp d t.2.alignment + t.2.buffersize)
    rw [Datatypes.layOutEnd] at h
    have hplace : wrap (alignUp d t.2.alignment) = alignUp d t.2.alignment := wrap_of_lt (by omega)
    have hnext : wrap (alignUp d t.2.alignment + buffersize t.2) =
        alignUp d t.2.alignment + t.2.buffersize := by
      rw [buffersize_eq, wrap_of_lt (n := t.2.buffersize) (by omega)]
      exact wrap_of_lt (by omega)
    obtain ⟨hrest, hend⟩ := ih h
    refine ⟨?_, ?_⟩
    · rw [layOut, Datatypes.layOut, hplace, hnext, hrest]
    · rw [layOutEnd, Datatypes.layOutEnd, hplace, hnext, hend]

mutual
/-- No part of the type has 2^64 bytes or more. -/
def Measured : Datatype → Prop
  | .scalar s => s.denseSize < 2 ^ 64
  | .array subtype size _ _ _ => size * subtype.buffersize < 2 ^ 64 ∧ Measured subtype
  | .record members n _ => n < 2 ^ 64 ∧ MembersMeasured members
  | .tuple elements n _ => n < 2 ^ 64 ∧ MembersMeasured elements
  | .pointer subtype _ _ _ => Measured subtype

def MembersMeasured : Members → Prop
  | .nil => True
  | .cons _ type _ rest => Measured type ∧ MembersMeasured rest
end

theorem measured_of_get? : ∀ {ms : Members} {i d : Nat} {type : Datatype}, MembersMeasured ms →
    ms.get? i = some (d, type) → Measured type
  | .cons _ _ _ _, 0, _, _, h, hget => by
    obtain ⟨rfl, rfl⟩ := Prod.mk.inj (Option.some.inj hget)
    exact h.1
  | .cons _ _ _ _, _ + 1, _, _, h, hget => measured_of_get? h.2 hget

theorem buffersize_of_measured : ∀ {t : Datatype}, Measured t → buffersize t = t.buffersize
  | .scalar _, h => wrap_of_lt h
  | .array _ _ _ _ _, h => (buffersize_eq _).trans (wrap_of_lt h.1)
  | .record _ _ _, h | .tuple _ _ _, h => wrap_of_lt h.1
  | .pointer _ _ _ _, _ => rfl

/-- The end of `densify`. -/
theorem padded_eq {a : Nat}
    (h : Datatypes.paddedEnd (Datatypes.layOutEnd types 0) a < 2 ^ 64) :
    layOut types 0 = Datatypes.layOut types 0 ∧
      paddedEnd (layOutEnd types 0) a = Datatypes.paddedEnd (Datatypes.layOutEnd types 0) a := by
  have hle := le_alignUp (Datatypes.layOutEnd types 0) a
  unfold Datatypes.paddedEnd at h ⊢
  obtain ⟨hmembers, hend⟩ := @layOut_eq types 0 (by omega)
  refine ⟨hmembers, ?_⟩
  rw [paddedEnd, hend, wrap_of_lt (by omega)]

/-- The end of `serialize_type`. -/
theorem aligned_eq {a : Nat}
    (h : alignUp (Datatypes.layOutEnd types 0) a < 2 ^ 64) :
    layOut types 0 = Datatypes.layOut types 0 ∧
      wrap (alignUp (layOutEnd types 0) a) = alignUp (Datatypes.layOutEnd types 0) a := by
  have hle := le_alignUp (Datatypes.layOutEnd types 0) a
  obtain ⟨hmembers, hend⟩ := @layOut_eq types 0 (by omega)
  refine ⟨hmembers, ?_⟩
  rw [hend, wrap_of_lt h]

mutual
theorem densify_eq : ∀ {t : Datatype}, Measured t.densify → densify t = t.densify
  | .scalar _, _ => rfl
  | .array subtype _ _ _ _, h => by rw [densify, Datatype.densify, densify_eq h.2]
  | .record members _ _, h | .tuple members _ _, h => by
    obtain ⟨hsize, hmembers⟩ := h
    obtain ⟨hlayOut, hend⟩ := densified_eq hmembers
    rw [hend] at hsize
    rw [densify, Datatype.densify, (padded_eq hsize).1, (padded_eq hsize).2, hlayOut, hend]
  | .pointer subtype _ _ _, h => by
    rw [densify, Datatype.densify, densify_eq (t := subtype) h]

theorem densified_eq : ∀ {ms : Members} {c : Nat}, MembersMeasured (ms.densify c) →
    ms.densify c = Datatypes.layOut (densified ms) c ∧
      ms.densifiedEnd c = Datatypes.layOutEnd (densified ms) c
  | .nil, _, _ => ⟨rfl, rfl⟩
  | .cons _ type name rest, c, h => by
    have htype := densify_eq h.1
    obtain ⟨hlayOut, hend⟩ := densified_eq h.2
    rw [densified, htype]
    exact ⟨congrArg _ hlayOut, hend⟩
end

mutual
theorem serializeType_eq : ∀ {t : Datatype}, Measured t.serializeType →
    serializeType t = t.serializeType
  | .scalar _, _ => rfl
  | .array subtype _ _ _ _, h => by rw [serializeType, Datatype.serializeType, serializeType_eq h.2]
  | .record members _ _, h | .tuple members _ _, h => by
    obtain ⟨hsize, hmembers⟩ := h
    obtain ⟨hlayOut, hend, halignment⟩ := serialized_eq hmembers
    rw [hend, halignment] at hsize
    rw [serializeType, Datatype.serializeType, (aligned_eq hsize).1, (aligned_eq hsize).2, hlayOut,
      hend, halignment]
  | .pointer subtype _ _ _, h => serializeType_eq (t := subtype) h

theorem serialized_eq : ∀ {ms : Members} {c : Nat}, MembersMeasured (ms.serialize c) →
    ms.serialize c = Datatypes.layOut (serialized ms) c ∧
      ms.serializedEnd c = Datatypes.layOutEnd (serialized ms) c ∧
      ms.serializedAlignment = largestAlignment (serialized ms)
  | .nil, _, _ => ⟨rfl, rfl, rfl⟩
  | .cons _ type name rest, c, h => by
    have htype := serializeType_eq h.1
    obtain ⟨hlayOut, hend, halignment⟩ := serialized_eq h.2
    rw [serialized, htype]
    exact ⟨congrArg _ hlayOut, hend, congrArg _ halignment⟩
end

end Pdi.Machine
