import Pdi.Hdf5
import Pdi.RowMajor

/-!
# NetCDF files as typed stores

A file is a tree of groups with dimensions, compound types and variables. A dimension
is found from a group and from all groups inside of it. A variable has a type, the
dimensions it was defined with, and one element for each index.

An unlimited dimension has the length that the writes have given it so far. Files are in
the NetCDF-4 format, where define mode is entered by the library itself. The rules for
names are left out.
-/
namespace Pdi.Netcdf

open Pdi.Datatypes Pdi.Memory Pdi.RowMajor

/-- The atomic types without strings, and the compound types of a file. -/
inductive NcType where
  | byte | char | short | int | int64 | ubyte | ushort | uint | uint64 | float | double
  | compound (name : String)
  deriving DecidableEq, Repr

/-- The status of a call that fails. -/
inductive NcError where
  | ebadtype | einvalcoords | eedge | eperm | enotvar | enameinuse | enogrp | emaxdims | ehdferr
  deriving DecidableEq, Repr

/-- `nc_inq_type` without a file. -/
def NcType.atomicSize : NcType → Except NcError Nat
  | .byte | .char | .ubyte => .ok 1
  | .short | .ushort => .ok 2
  | .int | .uint | .float => .ok 4
  | .int64 | .uint64 | .double => .ok 8
  | .compound _ => .error .ebadtype

/-- The names of a group and of the groups around it, innermost first. -/
abbrev GroupId := List String

/-- A dimension is known by the group that defines it. -/
abbrev DimId := GroupId × String

inductive NcDim where
  | fixed (length : Nat)
  | unlimited (length : Nat)
  deriving DecidableEq, Repr

def NcDim.length : NcDim → Nat
  | .fixed n => n
  | .unlimited n => n

def NcDim.isUnlimited : NcDim → Bool
  | .fixed _ => false
  | .unlimited _ => true

structure CompoundMember where
  name : String
  offset : Nat
  type : NcType
  dims : List Nat
  deriving DecidableEq, Repr

structure Compound where
  size : Nat
  members : List CompoundMember
  deriving DecidableEq, Repr

structure NcVar where
  type : NcType
  /-- The size of an element. -/
  width : Nat
  dims : List DimId
  data : List Nat → List Byte

structure NcFile where
  groups : GroupId → Bool
  /-- The compound types of the root group. -/
  types : String → Option Compound
  dims : GroupId → String → Option NcDim
  vars : GroupId → String → Option NcVar

/-- A new file. -/
def NcFile.empty : NcFile := ⟨fun g => g = [], fun _ => none, fun _ _ => none, fun _ _ => none⟩

namespace NcFile

variable (f : NcFile)

/-- `nc4_check_dup_name`: groups, types and variables of one group share their names. -/
def nameInUse (g : GroupId) (name : String) : Bool :=
  f.groups (name :: g) || (f.vars g name).isSome || (g = [] && (f.types name).isSome)

/-- `nc_inq_grp_ncid` -/
def inqGrp (g : GroupId) (name : String) : Except NcError GroupId :=
  if f.groups (name :: g) then .ok (name :: g) else .error .enogrp

/-- `nc_def_compound`, in the root group. -/
def defCompound (writable : Bool) (name : String) (size : Nat) : Except NcError NcFile :=
  if !writable then .error .eperm
  else if f.nameInUse [] name then .error .enameinuse
  else .ok { f with types := fun n => if n = name then some ⟨size, []⟩ else f.types n }

/-- `nc_insert_compound` and `nc_insert_array_compound` -/
def insertCompound (name : String) (member : CompoundMember) : NcFile :=
  { f with types := fun n =>
      if n = name then (f.types n).map fun c => ⟨c.size, c.members ++ [member]⟩ else f.types n }

/-- Some elements have been written, or none; the others are filled. -/
def setVar (g : GroupId) (name : String) (v : NcVar) : NcFile :=
  { f with vars := fun h n => if h = g ∧ n = name then some v else f.vars h n }

/-- The dimensions of a variable. -/
def extents (ids : List DimId) : List NcDim :=
  ids.map fun id => (f.dims id.1 id.2).getD (.fixed 0)

/-- The lengths of the dimensions, for an access to all of a variable. -/
def shape (ids : List DimId) : List Nat := (f.extents ids).map NcDim.length

end NcFile

/-- The bounds of one dimension in a write; `zero` says that some count is zero. -/
def checkPut (zero : Bool) (d : NcDim) (start count : Nat) : Except NcError Unit :=
  match d with
  | .unlimited _ => .ok ()
  | .fixed n =>
    if n < start ∨ (start = n ∧ 0 < count) then .error .einvalcoords
    else if !zero && n < start + count then .error .eedge
    else .ok ()

/-- The bounds of one dimension in a read. -/
def checkGet (d : NcDim) (start count : Nat) : Except NcError Unit :=
  if d.length < start ∨ (start = d.length ∧ 0 < count) then .error .einvalcoords
  else if 0 < count ∧ d.length < start + count then .error .eedge
  else .ok ()

/-- A check for every dimension of a window, in their order. -/
def checkAll (check : NcDim → Nat → Nat → Except NcError Unit) :
    (dims : List NcDim) → (start count : List Nat) → Except NcError Unit
  | d :: dims, s :: start, c :: count => do
    check d s c
    checkAll check dims start count
  | _, _, _ => .ok ()

/-- Where an index is in a window, if it is inside of it. -/
def offsetIn : (start count index : List Nat) → Option (List Nat)
  | [], [], [] => some []
  | s :: start, c :: count, i :: index =>
    if s ≤ i ∧ i < s + c then (offsetIn start count index).map ((i - s) :: ·) else none
  | _, _, _ => none

/-- The elements of a window are taken from memory, one after the other. -/
def NcVar.write (v : NcVar) (start count : List Nat) (mem : Mem Byte) (a : Nat) : NcVar :=
  { v with data := fun index =>
      match offsetIn start count index with
      | some i => bytes mem (a + position count i * v.width) v.width
      | none => v.data index }

/-- The elements of a window, one after the other. -/
def NcVar.read (v : NcVar) (start count : List Nat) : List Byte :=
  (indices count).flatMap fun i => v.data (shift start i)

/-- Unlimited dimensions reach as far as what has been written. -/
def NcDim.extend (ends : List Nat) : NcDim → NcDim
  | .fixed n => .fixed n
  | .unlimited n => .unlimited (ends.foldl max n)

namespace NcFile

variable (f : NcFile)

def extend (ids : List DimId) (start count : List Nat) : NcFile :=
  { f with dims := fun g n => (f.dims g n).map (NcDim.extend
      (((ids.zip (List.zipWith (· + ·) start count)).filter (·.1 = (g, n))).map Prod.snd)) }

/-- `nc_put_vara`. A write without elements does not extend anything. -/
def putVara (writable : Bool) (g : GroupId) (name : String)
    (start count : List Nat) (mem : Mem Byte)
    (a : Nat) : Except NcError NcFile :=
  match f.vars g name with
  | none => .error .enotvar
  | some v => do
    checkAll (checkPut (count.contains 0)) (f.extents v.dims) start count
    if !writable then .error .eperm
    else
      let f := if count.contains 0 then f else f.extend v.dims start count
      .ok (f.setVar g name (v.write start count mem a))

/-- `nc_get_vara` -/
def getVara (g : GroupId) (name : String) (start count : List Nat) : Except NcError (List Byte) :=
  match f.vars g name with
  | none => .error .enotvar
  | some v => do
    checkAll checkGet (f.extents v.dims) start count
    .ok (v.read start count)

end NcFile

end Pdi.Netcdf
