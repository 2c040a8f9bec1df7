import Mathlib.Data.Nat.Log
import Pdi.Align
import Pdi.Memory

/-!
# Datatypes and their layout

The five kinds of datatypes with the layout functions every one of them answers.
Records and tuples differ in how their members are reached, not in how they are
laid out: both hold a sequence of members at displacements, and both delegate to
the functions on that sequence.

Sizes are natural numbers: a datatype whose sizes leave the range of `size_t`
describes no buffer that can exist. The functions attached to a scalar or a
pointer are kept as names, so that datatypes stay first-order data.
-/
namespace Pdi.Datatypes

open Pdi.Align

inductive ScalarKind where
  | unknown | signed | unsigned | float
  deriving DecidableEq, Repr

/-- The name of a user-supplied copy or destroy function. -/
abbrev FunctionName := Nat

/-- Attribute names with the text of their expressions. -/
abbrev Attributes := List (String × String)

def ispow2 (v : Nat) : Bool := v != 0 && v &&& (v - 1) == 0

/-- A scalar as its constructor leaves it: the alignment is a power of two
unless nothing at all is known of the type. -/
structure Scalar where
  kind : ScalarKind
  size : Nat
  denseSize : Nat
  align : Nat
  copy : Option FunctionName
  destroy : Option FunctionName
  attributes : Attributes
  valid : (denseSize = 0 ∧ size = 0 ∧ align = 0 ∧ kind = .unknown) ∨ ispow2 align = true
  deriving DecidableEq

mutual
inductive Datatype where
  | scalar (s : Scalar)
  | array (subtype : Datatype) (size start subsize : Nat) (attributes : Attributes)
  | record (members : Members) (buffersize : Nat) (attributes : Attributes)
  | tuple (elements : Members) (buffersize : Nat) (attributes : Attributes)
  | pointer (subtype : Datatype) (copy destroy : Option FunctionName) (attributes : Attributes)
  deriving DecidableEq

/-- The members of a record, or the elements of a tuple, which have no name. -/
inductive Members where
  | nil
  | cons (displacement : Nat) (type : Datatype) (name : String) (rest : Members)
  deriving DecidableEq
end

/-- `Scalar_datatype::make(kind, size, align)` for an alignment it accepts. -/
def Scalar.make (kind : ScalarKind) (size align : Nat) (h : ispow2 align = true) : Scalar :=
  ⟨kind, size, size, align, none, none, [], .inr h⟩

/-- `cv_type_for_v` of `int8_t`, `int32_t` and `int64_t`. -/
def typeForInt8 : Datatype := .scalar (Scalar.make .signed 1 1 (by decide))
def typeForInt32 : Datatype := .scalar (Scalar.make .signed 4 4 (by decide))
def typeForInt64 : Datatype := .scalar (Scalar.make .signed 8 8 (by decide))

/-- `sizeof(void*)` -/
def pointerSize : Nat := 8

mutual
def Datatype.alignment : Datatype → Nat
  | .scalar s => s.align
  | .array subtype _ _ _ _ => subtype.alignment
  | .record members _ _ => members.alignment
  | .tuple elements _ _ => elements.alignment
  | .pointer _ _ _ _ => pointerSize

def Members.alignment : Members → Nat
  | .nil => 1
  | .cons _ type _ rest => max type.alignment rest.alignment
end

mutual
/-- Bytes of data, without what a sparse type leaves unused. A scalar answers
its `size` here and its `denseSize` for its buffer. -/
def Datatype.datasize : Datatype → Nat
  | .scalar s => s.size
  | .array subtype _ _ subsize _ => subsize * subtype.datasize
  | .record members _ _ => members.datasize
  | .tuple elements _ _ => elements.datasize
  | .pointer _ _ _ _ => pointerSize

def Members.datasize : Members → Nat
  | .nil => 0
  | .cons _ type _ rest => type.datasize + rest.datasize
end

def Datatype.buffersize : Datatype → Nat
  | .scalar s => s.denseSize
  | .array subtype size _ _ _ => size * subtype.buffersize
  | .record _ buffersize _ => buffersize
  | .tuple _ buffersize _ => buffersize
  | .pointer _ _ _ _ => pointerSize

mutual
def Datatype.simple : Datatype → Bool
  | .scalar s => s.copy.isNone && s.destroy.isNone
  | .array subtype _ _ _ _ => subtype.simple
  | .record members _ _ => members.simple
  | .tuple elements _ _ => elements.simple
  | .pointer _ copy destroy _ => copy.isNone && destroy.isNone

def Members.simple : Members → Bool
  | .nil => true
  | .cons _ type _ rest => type.simple && rest.simple
end

/-- The tail of the layout of a record or tuple whose members end at
`displacement`: padding to the alignment, and at least one byte. -/
def paddedEnd (displacement alignment : Nat) : Nat := max 1 (alignUp displacement alignment)

mutual
def Datatype.dense : Datatype → Bool
  | .scalar s => s.denseSize == s.size
  | .array subtype size _ subsize _ => size == subsize && subtype.dense
  | .record members buffersize _ => members.denseIn buffersize members.alignment 0
  | .tuple elements buffersize _ => elements.denseIn buffersize elements.alignment 0
  | .pointer _ _ _ _ => true

/-- The walk of `dense()` over the members from `displacement` on; the members
it accepts may start before the place the walk expects them at. -/
def Members.denseIn (buffersize alignment : Nat) : Members → Nat → Bool
  | .nil, displacement => decide (buffersize ≤ paddedEnd displacement alignment)
  | .cons d type _ rest, displacement =>
    type.dense && decide (d ≤ alignUp displacement type.alignment) &&
      rest.denseIn buffersize alignment (alignUp displacement type.alignment + type.buffersize)
end

def Scalar.densify (s : Scalar) : Scalar :=
  { s with size := s.denseSize, valid := by obtain h | h := s.valid <;> simp_all }

mutual
def Datatype.densify : Datatype → Datatype
  | .scalar s => .scalar s.densify
  | .array subtype _ _ subsize attributes => .array subtype.densify subsize 0 subsize attributes
  | .record members _ _ =>
    .record (members.densify 0) (paddedEnd (members.densifiedEnd 0) members.alignment) []
  | .tuple elements _ _ =>
    .tuple (elements.densify 0) (paddedEnd (elements.densifiedEnd 0) elements.alignment) []
  | .pointer subtype copy destroy attributes => .pointer subtype.densify copy destroy attributes

/-- The densified members, laid out one after the other from `displacement` on. -/
def Members.densify : Members → Nat → Members
  | .nil, _ => .nil
  | .cons _ type name rest, displacement =>
    .cons (alignUp displacement type.densify.alignment) type.densify name
      (rest.densify (alignUp displacement type.densify.alignment + type.densify.buffersize))

/-- Where the densified members end, before the padding at the end of the record. -/
def Members.densifiedEnd : Members → Nat → Nat
  | .nil, displacement => displacement
  | .cons _ type _ rest, displacement =>
    rest.densifiedEnd (alignUp displacement type.densify.alignment + type.densify.buffersize)
end

/-- Members one after the other from `displacement` on, each at its alignment. -/
def layOut : List (String × Datatype) → Nat → Members
  | [], _ => .nil
  | (name, type) :: rest, displacement =>
    .cons (alignUp displacement type.alignment) type name
      (layOut rest (alignUp displacement type.alignment + type.buffersize))

def layOutEnd : List (String × Datatype) → Nat → Nat
  | [], displacement => displacement
  | (_, type) :: rest, displacement =>
    layOutEnd rest (alignUp displacement type.alignment + type.buffersize)

mutual
@[simp] theorem Datatype.alignment_densify : ∀ t : Datatype, t.densify.alignment = t.alignment
  | .scalar _ | .pointer _ _ _ _ => rfl
  | .array subtype _ _ _ _ => subtype.alignment_densify
  | .record members _ _ | .tuple members _ _ => members.alignment_densify 0

@[simp] theorem Members.alignment_densify :
    ∀ (ms : Members) (d : Nat), (ms.densify d).alignment = ms.alignment
  | .nil, _ => rfl
  | .cons _ type _ rest, d => by
    simp [Members.densify, Members.alignment, type.alignment_densify,
      rest.alignment_densify]
end

end Pdi.Datatypes
