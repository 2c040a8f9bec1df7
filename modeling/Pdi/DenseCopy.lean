import Pdi.Access

/-!
# Copies into dense memory

`data_to_dense_copy` of every datatype and `do_copy`, which lays a copy of some
data out under the densified type in newly allocated memory. Data is read in the
memory `old` and written into `mem`: the new memory is nowhere part of the data
that is read.

Besides the copy itself, this module says what it does without running it:
`copiedSize` is how far the copy moves on, `Copied` which byte goes where.
-/
namespace Pdi.Datatypes

open Pdi.Align Pdi.Memory

/-- What a copy ends with: the memory and the address after the last byte written. -/
abbrev CopyResult := Except Failure (Mem Byte × Nat)

/-- The user-supplied copy functions by their names; each may throw. -/
abbrev CopyFunctions := FunctionName → Mem Byte → Mem Byte → Nat → Nat → CopyResult

/-- The loop over the `n` elements of an array: the address to write to is
aligned, the one to read from moves on by the size of an element. -/
def copyElements (copy : Mem Byte → Nat → Nat → CopyResult) (alignment stride : Nat) :
    Nat → Mem Byte → Nat → Nat → CopyResult
  | 0, mem, dest, _ => .ok (mem, dest)
  | n + 1, mem, dest, source => do
    let (mem, dest) ← copy mem (stdAlign alignment 0 dest alignment) source
    copyElements copy alignment stride n mem dest (source + stride)

mutual
def Datatype.dataToDenseCopy (functions : CopyFunctions) (old : Mem Byte) :
    Datatype → Mem Byte → Nat → Nat → CopyResult
  | .scalar s, mem, dest, source =>
    match s.copy with
    | none => .ok (memcpy old mem dest source s.size, dest + s.size)
    | some f => functions f old mem dest source
  | .array subtype _ start subsize _, mem, dest, source =>
    if subtype.simple && subtype.dense then
      .ok (memcpy old mem dest (source + start * subtype.buffersize) (subsize * subtype.datasize),
        dest + subsize * subtype.datasize)
    else
      copyElements (subtype.dataToDenseCopy functions old) subtype.alignment subtype.buffersize
        subsize mem dest (source + start * subtype.buffersize)
  | .record members buffersize _, mem, dest, source =>
    if members.simple && members.denseIn buffersize members.alignment 0 then
      .ok (memcpy old mem dest source buffersize, dest + buffersize)
    else members.dataToDenseCopy functions old mem dest source
  | .tuple elements buffersize _, mem, dest, source =>
    if elements.simple && elements.denseIn buffersize elements.alignment 0 then
      .ok (memcpy old mem dest source buffersize, dest + buffersize)
    else elements.dataToDenseCopy functions old mem dest source
  | .pointer _ copy _ _, mem, dest, source =>
    match copy with
    | none => .ok (memcpy old mem dest source pointerSize, dest + pointerSize)
    | some f => functions f old mem dest source

/-- The loop over the members of a record, or the elements of a tuple. -/
def Members.dataToDenseCopy (functions : CopyFunctions) (old : Mem Byte) :
    Members → Mem Byte → Nat → Nat → CopyResult
  | .nil, mem, dest, _ => .ok (mem, dest)
  | .cons displacement type _ rest, mem, dest, source => do
    let (mem, dest) ← type.dataToDenseCopy functions old mem
      (stdAlign type.alignment 0 dest type.alignment) (source + displacement)
    rest.dataToDenseCopy functions old mem dest source
end

/-- `do_copy` of data at `source`, with `buffer` the address that `operator new`
returns. There is no copy of a type without any byte, and what a copy function
throws is passed on. -/
def doCopy (functions : CopyFunctions) (type : Datatype) (mem : Mem Byte) (source buffer : Nat) :
    Except Failure (Option (Mem Byte × Nat × Datatype)) :=
  if type.densify.buffersize = 0 then .ok none
  else do
    let size := type.densify.buffersize + (type.densify.alignment - 1)
    let data := stdAlign type.densify.alignment type.densify.buffersize buffer size
    let (mem, _) ← type.dataToDenseCopy functions mem mem data source
    .ok (some (mem, data, type.densify))

mutual
/-- The bytes that a copy to an aligned address moves on by. -/
def Datatype.copiedSize : Datatype → Nat
  | .scalar s => s.size
  | .array subtype _ _ subsize _ =>
    if subtype.simple && subtype.dense then subsize * subtype.datasize
    else (subsize - 1) * alignUp subtype.copiedSize subtype.alignment +
      (if subsize = 0 then 0 else subtype.copiedSize)
  | .record members buffersize _ =>
    if members.simple && members.denseIn buffersize members.alignment 0 then buffersize
    else members.copiedEnd 0
  | .tuple elements buffersize _ =>
    if elements.simple && elements.denseIn buffersize elements.alignment 0 then buffersize
    else elements.copiedEnd 0
  | .pointer _ _ _ _ => pointerSize

/-- Where a copy of members ends that has come to `c`. -/
def Members.copiedEnd : Members → Nat → Nat
  | .nil, c => c
  | .cons _ type _ rest, c => rest.copiedEnd (alignUp c type.alignment + type.copiedSize)
end

/-- The distance between two elements that are copied one by one. -/
def Datatype.copiedStride (t : Datatype) : Nat := alignUp t.copiedSize t.alignment

mutual
/-- Byte `x` of the copy is byte `y` of the data. -/
def Datatype.Copied : Datatype → Nat → Nat → Prop
  | .scalar s, x, y => x = y ∧ x < s.size
  | .array subtype _ start subsize _, x, y =>
    if subtype.simple && subtype.dense then
      y = start * subtype.buffersize + x ∧ x < subsize * subtype.datasize
    else ∃ k < subsize, ∃ u v, subtype.Copied u v ∧ x = k * subtype.copiedStride + u ∧
      y = (start + k) * subtype.buffersize + v
  | .record members buffersize _, x, y =>
    if members.simple && members.denseIn buffersize members.alignment 0 then x = y ∧ x < buffersize
    else members.Copied 0 x y
  | .tuple elements buffersize _, x, y =>
    if elements.simple && elements.denseIn buffersize elements.alignment 0 then
      x = y ∧ x < buffersize
    else elements.Copied 0 x y
  | .pointer _ _ _ _, x, y => x = y ∧ x < pointerSize

/-- The same for members whose copy starts at `c`. -/
def Members.Copied : Members → Nat → Nat → Nat → Prop
  | .nil, _, _, _ => False
  | .cons displacement type _ rest, c, x, y =>
    (∃ u v, type.Copied u v ∧ x = alignUp c type.alignment + u ∧ y = displacement + v) ∨
    rest.Copied (alignUp c type.alignment + type.copiedSize) x y
end

end Pdi.Datatypes
