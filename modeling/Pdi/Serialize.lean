import Pdi.DenseLayout

/-!
# Serialization

`serialize_type`, `serialize_copy` and `deserialize_copy` of the serialize
plugin. The serialized type has neither pointers nor gaps in its arrays, and its
members are laid out anew.

The buffer of the serialized data is allocated for it and lies apart from the
data: `serializeCopy` reads the data in `old` and writes `mem`, and
`deserializeCopy` reads the buffer in `old` and finds and writes the data in
`mem`.
-/
namespace Pdi.Datatypes

open Pdi.Align Pdi.Memory

mutual
/-- A record or tuple needs a member, its alignment is divided by. -/
def Datatype.serializeType : Datatype → Datatype
  | .scalar s => .scalar s
  | .array subtype _ _ subsize attributes =>
    .array subtype.serializeType subsize 0 subsize attributes
  | .record members _ attributes =>
    .record (members.serialize 0) (alignUp (members.serializedEnd 0) members.serializedAlignment)
      attributes
  | .tuple elements _ attributes =>
    .tuple (elements.serialize 0) (alignUp (elements.serializedEnd 0) elements.serializedAlignment)
      attributes
  | .pointer subtype _ _ _ => subtype.serializeType

/-- The serialized members, from `offset` on. -/
def Members.serialize : Members → Nat → Members
  | .nil, _ => .nil
  | .cons _ type name rest, offset =>
    .cons (alignUp offset type.serializeType.alignment) type.serializeType name
      (rest.serialize
        (alignUp offset type.serializeType.alignment + type.serializeType.buffersize))

def Members.serializedEnd : Members → Nat → Nat
  | .nil, offset => offset
  | .cons _ type _ rest, offset =>
    rest.serializedEnd
      (alignUp offset type.serializeType.alignment + type.serializeType.buffersize)

def Members.serializedAlignment : Members → Nat
  | .nil => 0
  | .cons _ type _ rest => max type.serializeType.alignment rest.serializedAlignment
end

theorem Members.le_serializedEnd (ms : Members) (offset : Nat) :
    offset ≤ ms.serializedEnd offset := by
  cases ms with
  | nil => exact Nat.le_refl _
  | cons _ type _ rest =>
    have := rest.le_serializedEnd
      (alignUp offset type.serializeType.alignment + type.serializeType.buffersize)
    have := le_alignUp offset type.serializeType.alignment
    simp only [Members.serializedEnd]
    omega

mutual
/-- `serialize_type` divides by the alignment of each member and by the largest. -/
def Datatype.divisible : Datatype → Bool
  | .scalar _ => true
  | .array subtype _ _ _ _ => subtype.divisible
  | .record members _ _ => members.divisible && members.serializedAlignment != 0
  | .tuple elements _ _ => elements.divisible && elements.serializedAlignment != 0
  | .pointer subtype _ _ _ => subtype.divisible

def Members.divisible : Members → Bool
  | .nil => true
  | .cons _ type _ rest => type.divisible && type.serializeType.alignment != 0 && rest.divisible
end

/-- What `serialize_type` returns, if none of the divisors is zero. -/
def Datatype.serializeType? (t : Datatype) : Option Datatype :=
  if t.divisible then some t.serializeType else none

theorem serializeType?_eq_some {t type : Datatype} :
    t.serializeType? = some type ↔ t.divisible = true ∧ t.serializeType = type := by
  unfold Datatype.serializeType?
  split <;> simp_all

/-- The loop over the elements of an array: what was copied says where the next
element is written. -/
def serializeElements (copy : Mem Byte → Nat → Nat → Mem Byte × Nat) (stride : Nat) :
    Nat → Mem Byte → Nat → Nat → Mem Byte × Nat
  | 0, mem, _, _ => (mem, 0)
  | n + 1, mem, dest, source =>
    let (mem, copied) := copy mem dest source
    let (mem, rest) := serializeElements copy stride n mem (dest + copied) (source + stride)
    (mem, copied + rest)

mutual
/-- The memory after the copy and the count of copied bytes. -/
def Datatype.serializeCopy (old : Mem Byte) : Datatype → Mem Byte → Nat → Nat → Mem Byte × Nat
  | .scalar s, mem, dest, source => (memcpy old mem dest source s.denseSize, s.denseSize)
  | .array subtype _ start subsize _, mem, dest, source =>
    serializeElements (subtype.serializeCopy old) subtype.buffersize subsize mem
      (stdAlign subtype.serializeType.alignment 0 dest subtype.serializeType.alignment)
      (source + start * subtype.buffersize)
  | .record members _ _, mem, dest, source =>
    members.serializeCopy old (members.serialize 0) mem dest source
  | .pointer subtype _ _ _, mem, dest, source =>
    subtype.serializeCopy old mem dest (readPointer old source)
  | .tuple elements _ _, mem, dest, source =>
    elements.serializeCopy old (elements.serialize 0) mem dest source

/-- The loop over the members and the serialized members of a record or tuple. -/
def Members.serializeCopy (old : Mem Byte) :
    Members → Members → Mem Byte → Nat → Nat → Mem Byte × Nat
  | .cons displacement type _ rest, .cons displacement' _ _ rest', mem, dest, source =>
    let (mem, copied) := type.serializeCopy old mem (dest + displacement') (source + displacement)
    let (mem, others) := rest.serializeCopy old rest' mem dest source
    (mem, copied + others)
  | _, _, mem, _, _ => (mem, 0)
end

/-- The memory after a copy and the count of copied bytes, unless it fails. -/
abbrev DeserializeResult := Except Failure (Mem Byte × Nat)

/-- The loop over the elements of an array, the other way round. -/
def deserializeElements (copy : Mem Byte → Nat → Nat → DeserializeResult) (stride : Nat) :
    Nat → Mem Byte → Nat → Nat → DeserializeResult
  | 0, mem, _, _ => .ok (mem, 0)
  | n + 1, mem, dest, source => do
    let (mem, copied) ← copy mem dest source
    let (mem, rest) ← deserializeElements copy stride n mem (dest + stride) (source + copied)
    .ok (mem, copied + rest)

/-- `INT_MAX + 1`: the counter of the loop is an `int`. -/
def intRange : Nat := 2 ^ 31

mutual
def Datatype.deserializeCopy (old : Mem Byte) :
    Datatype → Mem Byte → Nat → Nat → DeserializeResult
  | .scalar s, mem, dest, source => .ok (memcpy old mem dest source s.denseSize, s.denseSize)
  | .array subtype _ start subsize _, mem, dest, source =>
    if intRange ≤ subsize then .error (.undefined "overflow of an int")
    else deserializeElements (subtype.deserializeCopy old) subtype.buffersize subsize mem
      (dest + start * subtype.buffersize) source
  | .record members _ _, mem, dest, source =>
    members.deserializeCopy old (members.serialize 0) mem dest source
  | .pointer subtype _ _ _, mem, dest, source =>
    subtype.deserializeCopy old mem (readPointer mem dest) source
  | .tuple elements _ _, mem, dest, source =>
    elements.deserializeCopy old (elements.serialize 0) mem dest source

def Members.deserializeCopy (old : Mem Byte) :
    Members → Members → Mem Byte → Nat → Nat → DeserializeResult
  | .cons displacement type _ rest, .cons displacement' _ _ rest', mem, dest, source => do
    let (mem, copied) ← type.deserializeCopy old mem (dest + displacement) (source + displacement')
    let (mem, others) ← rest.deserializeCopy old rest' mem dest source
    .ok (mem, copied + others)
  | _, _, mem, _, _ => .ok (mem, 0)
end

end Pdi.Datatypes
