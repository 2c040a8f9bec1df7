import Pdi.Access
import Pdi.RowMajor

/-!
# HDF5 files

What the plugin uses of the library: datatypes, dataspaces with a selection of points,
and files as stores of named datasets. A selection is a block of indices, walked through
in row-major order. The elements of a dataset are stored by their position.

Types are converted by a function that is given; it does nothing between a type and
itself. The text of the library's own error stack is left out of the errors.
-/
namespace Pdi.Hdf5

open Pdi.Datatypes Pdi.Memory Pdi.RowMajor

def systemError (message : String) : Failure := .error .system message

/-- `handle_hdf5_err` -/
def handleHdf5Err (message : String) : Failure := systemError (message ++ " HDF5 error")

/-! ## Datatypes -/

mutual
inductive H5Type where
  | integer (signed : Bool) (size : Nat)
  | float (size : Nat)
  | compound (size : Nat) (members : H5Members)
  | array (base : H5Type) (dims : List Nat)
  deriving DecidableEq

inductive H5Members where
  | nil
  | cons (name : String) (offset : Nat) (type : H5Type) (rest : H5Members)
  deriving DecidableEq
end

def H5Type.size : H5Type → Nat
  | .integer _ size => size
  | .float size => size
  | .compound size _ => size
  | .array base dims => base.size * dims.prod

/-- `H5T_is_sensible`: a type that can be stored. -/
def H5Type.sensible : H5Type → Bool
  | .compound _ .nil => false
  | _ => true

/-- The new member has the name of an old one or overlaps it. -/
def H5Members.clash (name : String) (offset size : Nat) : H5Members → Bool
  | .nil => false
  | .cons n o t rest => n == name || decide (offset ≤ o ∧ o < offset + size) ||
    decide (o ≤ offset ∧ offset < o + t.size) || rest.clash name offset size

def H5Members.snoc (name : String) (offset : Nat) (type : H5Type) : H5Members → H5Members
  | .nil => .cons name offset type .nil
  | .cons n o t rest => .cons n o t (rest.snoc name offset type)

/-- `H5Tcreate(H5T_COMPOUND, size)`; `none` is an invalid handle. -/
def compoundCreate (size : Nat) : Option H5Type :=
  if size = 0 then none else some (.compound size .nil)

/-- `H5Tinsert`, whose failure nobody looks at. -/
def insertMember (parent : Option H5Type) (name : String) (offset : Nat) (member : Option H5Type) :
    Option H5Type :=
  match parent, member with
  | some (.compound size members), some t =>
    if name = "" ∨ members.clash name offset t.size ∨ size < offset + t.size then parent
    else some (.compound size (members.snoc name offset t))
  | _, _ => parent

/-- `H5S_MAX_RANK` -/
def maxRank : Nat := 32

/-- `H5Tarray_create2` -/
def arrayCreate (base : Option H5Type) (dims : List Nat) : Option H5Type :=
  if 0 ∈ dims ∨ maxRank < dims.length then none else base.map fun t => .array t dims

/-! ## Dataspaces -/

/-- Start and count, one for each dimension, for a hyperslab. -/
inductive Points where
  | all
  | none
  | hyperslab (start count : List Nat)
  deriving DecidableEq, Repr

structure Dataspace where
  extent : List Nat
  selected : Points
  deriving DecidableEq, Repr

/-- `H5Screate(H5S_SCALAR)` -/
def Dataspace.scalar : Dataspace := ⟨[], .all⟩

/-- `H5S_UNLIMITED` -/
def unlimited : Nat := 2 ^ 64 - 1

/-- What `H5Screate_simple` asks of the sizes. -/
def Creatable (extent : List Nat) : Prop := extent.length ≤ maxRank ∧ unlimited ∉ extent

instance (extent : List Nat) : Decidable (Creatable extent) := inferInstanceAs (Decidable (_ ∧ _))

/-- `H5Screate_simple` -/
def Dataspace.simple (extent : List Nat) : Except Failure Dataspace :=
  if Creatable extent then .ok ⟨extent, .all⟩ else .error (handleHdf5Err "")

/-- `H5Sget_simple_extent_ndims` -/
def Dataspace.rank (space : Dataspace) : Nat := space.extent.length

/-- `H5Sget_select_npoints` -/
def Dataspace.npoints (space : Dataspace) : Nat :=
  match space.selected with
  | .all => space.extent.prod
  | .none => 0
  | .hyperslab _ count => count.prod

/-- `H5Sget_select_bounds`: the first and the last index. -/
def Dataspace.bounds (space : Dataspace) : Except Failure (List Nat × List Nat) :=
  match space.selected with
  | .all => .ok (space.extent.map fun _ => 0, space.extent.map fun e => sizeSub e 1)
  | .none => .error (handleHdf5Err "")
  | .hyperslab start count => .ok (start, List.zipWith (fun s c => s + c - 1) start count)

/-- `H5Sselect_hyperslab` with `H5S_SELECT_SET` -/
def Dataspace.selectHyperslab (space : Dataspace) (start count : List Nat) :
    Except Failure Dataspace :=
  if space.extent = [] then .error (handleHdf5Err "")
  else if 0 ∈ count then .ok { space with selected := .none }
  else .ok { space with selected := .hyperslab start count }

def within : (extent start count : List Nat) → Bool
  | e :: es, s :: ss, c :: cs => decide (s + c ≤ e) && within es ss cs
  | _, _, _ => true

/-- The selection lies within the extent. -/
def Dataspace.valid (space : Dataspace) : Bool :=
  match space.selected with
  | .hyperslab start count => within space.extent start count
  | _ => true

/-- The positions of the selected points, in the order in which they are transferred. -/
def Dataspace.positions (space : Dataspace) : List Nat :=
  match space.selected with
  | .all => List.range space.extent.prod
  | .none => []
  | .hyperslab start count =>
    (indices count).map fun index => position space.extent (shift start index)

/-! ## Datasets -/

/-- The conversion from one type to another, if there is one. -/
structure Library where
  convert : H5Type → H5Type → Option (List Byte → List Byte)
  convert_self : ∀ t, convert t t = some id

/-- No conversions. -/
def plainLibrary : Library where
  convert a b := if a = b then some id else none
  convert_self _ := if_pos rfl

/-- `content` gives the bytes of each element. -/
structure Dataset where
  type : H5Type
  extent : List Nat
  content : Nat → List Byte

abbrev File := String → Option Dataset

/-- `H5Dcreate2` for a name that is free. The number of elements is an `hssize_t`, that of
bytes an `hsize_t`. -/
def Dataset.create (type : Option H5Type) (space : Dataspace) : Option Dataset :=
  match type with
  | some t =>
    if t.sensible ∧ 0 < t.size ∧ space.extent.prod < 2 ^ 63 ∧
        space.extent.prod * t.size < 2 ^ 64 then
      some ⟨t, space.extent, fun _ => List.replicate t.size 0⟩
    else none
  | none => none

/-- `H5Dget_space` -/
def Dataset.space (set : Dataset) : Dataspace := ⟨set.extent, .all⟩

/-- Some bytes put into memory. -/
def poke (mem : Mem Byte) (a : Nat) (data : List Byte) : Mem Byte := fun x =>
  if a ≤ x then (data[x - a]?).getD (mem x) else mem x

/-- The pairs of positions of a transfer, in memory and in the dataset. -/
def transferred (memSpace fileSpace : Dataspace) : Except Failure (List (Nat × Nat)) :=
  if !memSpace.valid || !fileSpace.valid then .error (handleHdf5Err "")
  else if memSpace.npoints ≠ fileSpace.npoints then .error (handleHdf5Err "")
  else .ok (memSpace.positions.zip fileSpace.positions)

def Dataset.put (set : Dataset) (i : Nat) (data : List Byte) : Dataset :=
  { set with content := fun j => if j = i then data else set.content j }

/-- One element of a write; `f` converts it, `w` is its width in memory. -/
def putElement (f : List Byte → List Byte) (w buffer : Nat) (mem : Mem Byte) (set : Dataset)
    (p : Nat × Nat) : Except Failure Dataset :=
  if p.2 < set.extent.prod then .ok (set.put p.2 (f (bytes mem (buffer + p.1 * w) w)))
  else .error (.undefined "write outside of the dataset")

/-- One element of a read. -/
def getElement (f : List Byte → List Byte) (w buffer : Nat) (set : Dataset) (mem : Mem Byte)
    (p : Nat × Nat) : Except Failure (Mem Byte) :=
  if p.2 < set.extent.prod then .ok (poke mem (buffer + p.1 * w) (f (set.content p.2)))
  else .error (.undefined "read outside of the dataset")

variable (lib : Library)

/-- `H5Dwrite`. The file space is not compared with the extent of the dataset. -/
def Dataset.write (set : Dataset) (memType : H5Type) (memSpace fileSpace : Dataspace)
    (buffer : Nat) (mem : Mem Byte) : Except Failure Dataset :=
  match lib.convert memType set.type with
  | none => .error (handleHdf5Err "")
  | some f => do
    let pairs ← transferred memSpace fileSpace
    pairs.foldlM (putElement f memType.size buffer mem) set

/-- `H5Dread` -/
def Dataset.read (set : Dataset) (memType : H5Type) (memSpace fileSpace : Dataspace)
    (buffer : Nat) (mem : Mem Byte) : Except Failure (Mem Byte) :=
  match lib.convert set.type memType with
  | none => .error (handleHdf5Err "")
  | some f => do
    let pairs ← transferred memSpace fileSpace
    pairs.foldlM (getElement f memType.size buffer set) mem

end Pdi.Hdf5
