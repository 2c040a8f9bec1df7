import Pdi.Hdf5RoundTrip
import Pdi.NetcdfFile

/-!
# NetCDF data, written and read back

What a definition makes of the datatype of a variable, what a write to all of the variable
leaves in the file, and what a read from the file, opened again, gives back.
-/
namespace Pdi.Netcdf

open Pdi.Datatypes Pdi.Memory Pdi.RowMajor Pdi.Effect
open Pdi.Hdf5 (poke)

/-! ## Windows -/

variable {counts sizes : List Nat} {d : NcDim} {c a : Nat} {zero : Bool} {dest g : GroupId}
  {f f' f'' f₀ : NcFile} {dims : List (String × Nat)} {name path : String} {κ : Type}
  {ids : List DimId} {names : List String} {lib : Library κ} {sc : Scalar} {type : NcType} {ctx : κ}
  {v : Variable κ} {t : Datatype} {var : NcVar} {old : Mem Byte}

/-- The datasets of a new variable have less than `2 ^ 64` bytes and `2 ^ 63` elements: those of
the dimensions that come with it, four bytes an element, and its own. -/
def Creatable (lib : Library κ) (stored f : NcFile) (g : GroupId) (name : String) (ids : List DimId)
    (width : Nat) : Prop :=
  (∀ id ∈ ids, ∀ n, f.dims id.1 id.2 = some (.fixed n) → stored.dims id.1 id.2 = none →
    isCoordinate g name ids id = false → n < 2 ^ 62) ∧
  if ∃ d ∈ f.extents ids, d.isUnlimited then lib.chunkConstruct (f.extents ids) width = .ok ()
  else (f.shape ids).prod < 2 ^ 63 ∧ (f.shape ids).prod * width < 2 ^ 64

section Datasets

variable {stored : NcFile} {elements width : Nat}

end Datasets

/-! ## Calls -/

/-- A file is open. -/
structure Open (s : FileState) (o : Opened) (f : NcFile) (mem : Mem Byte) : Prop where
  opened : s.opened = some o
  file : s.files o.filename = some f
  memory : s.memory = mem

section Calls

variable {α : Type} {s s' : FileState} {o : Opened} {mem : Mem Byte}

theorem Open.theOpened (h : Open s o f mem) : Netcdf.theOpened.run s = .ok o s := by
  rw [Netcdf.theOpened, run_get_bind, h.opened]
  rfl

theorem Open.setFile (h : Open s o f mem) (f' : NcFile) : Open (s.setFile o.filename f') o f' mem :=
  ⟨h.opened, if_pos rfl, h.memory⟩

section

variable {x : Bool → NcFile → Except Failure (α × NcFile)}

end

/-- The table of groups after a walk. -/
def visited : GroupId → String → List String → List (String × GroupId) → List (String × GroupId)
  | _, _, [], table => table
  | dest, path, name :: rest, table =>
    visited (name :: dest) (path ++ "/" ++ name) rest
      (emplace (path ++ "/" ++ name) (name :: dest) table)

/-- All groups on the way are in the file. -/
def Reachable (f : NcFile) : GroupId → List String → Prop
  | _, [] => True
  | dest, name :: rest => f.groups (name :: dest) = true ∧ Reachable f (name :: dest) rest

/-- What definitions of groups leave as it is. -/
structure OnlyGroups (f f' : NcFile) : Prop where
  types : f'.types = f.types
  vars : f'.vars = f.vars
  dims : f'.dims = f.dims
  groups : ∀ g, f.groups g = true → f'.groups g = true

theorem OnlyGroups.refl (f : NcFile) : OnlyGroups f f := ⟨rfl, rfl, rfl, fun _ h => h⟩

theorem OnlyGroups.trans (h : OnlyGroups f f') (h' : OnlyGroups f' f'') : OnlyGroups f f'' :=
  ⟨h'.types.trans h.types, h'.vars.trans h.vars, h'.dims.trans h.dims,
    fun g hg => h'.groups g (h.groups g hg)⟩

theorem Reachable.mono (hle : ∀ g, f.groups g = true → f'.groups g = true)
    (h : Reachable f dest names) : Reachable f' dest names := by
  induction names generalizing dest with
  | nil => trivial
  | cons name rest ih => exact ⟨hle _ h.1, ih h.2⟩

/-- The table of groups in which a path is looked up, in a file that has just been opened. -/
def groupTable (path : String) : List (String × GroupId) :=
  if path = "/" then [("/", [])] else visited [] "" (splitToGroups path) [("/", [])]

/-- The group that a path leads to. -/
def groupOf (path : String) : Option GroupId := (groupTable path).lookup path

/-- The groups that a read looks for are there. -/
def Known (f : NcFile) (path : String) : Prop := path ≠ "/" → Reachable f [] (splitToGroups path)

/-- What is known of a variable after its definition. -/
structure Defined (f : NcFile) (g : GroupId) (name : String) (sc : Scalar) (v : NcVar) : Prop where
  var : f.vars g name = some v
  type : ncScalarType sc = .ok v.type
  width : v.width = (Datatype.scalar sc).buffersize

def zeros (sizes : List Nat) : List Nat := sizes.map fun _ => 0

/-- The file after a write to all of a variable. -/
def written (f : NcFile) (g : GroupId) (name : String) (var : NcVar)
    (sizes : List Nat) (mem : Mem Byte)
    (a : Nat) : NcFile :=
  (if sizes.contains 0 then f else f.extend var.dims (zeros sizes) sizes).setVar g name
    (var.write (zeros sizes) sizes mem a)

section Transfers

variable (lib : Library κ) {ref : Ref} {io : Io κ}

/-- All of a variable is transferred. -/
structure Io.Whole (io : Io κ) : Prop where
  start : io.start = []
  subsize : io.subsize = []

theorem Io.Whole.getDimsStart (h : io.Whole) (sizes : List Nat) :
    io.getDimsStart ctx sizes = .ok (zeros sizes) := by
  rw [Io.getDimsStart, dimsOf, h.start]
  rfl

theorem Io.Whole.getDimsCount (h : io.Whole) (sizes : List Nat) :
    io.getDimsCount ctx sizes = .ok sizes := by
  rw [Io.getDimsCount, dimsOf, h.subsize]
  rfl

section

variable (hparts : splitGroupAndVariable v.path = (path, name))

include hparts

end

end Transfers

end Calls

/-! ## Round trips -/

/-- A scalar of one byte is stored as a character, which no scalar is read from. -/
def Readable : Datatype → Prop
  | .scalar s => (Datatype.scalar s).buffersize ≠ 1
  | _ => True

section Main

/-- The variable is not in the file. -/
def Fresh (s : FileState) (file : String) (v : Variable κ) : Prop :=
  ∀ g, groupOf (splitGroupAndVariable v.path).1 = some g →
    ((s.files file).getD .empty).vars g (splitGroupAndVariable v.path).2 = none

/-- In a file where a variable has been defined, the write succeeds; and whatever has
become of the memory, a read from the file, opened again, succeeds and restores the data. -/
def RoundTrips (lib : Library κ) (ctx ctx' : κ) (file : String) (v : Variable κ) (w r : Io κ)
    (src dst : Ref) (s : FileState) : Prop :=
  ∃ s', (do enddef lib; putVariable lib ctx v w src; closeFile).run s = .ok () s' ∧
    ∀ mem, ∃ s'',
      (do openFile file false; readVariable lib v; getVariable lib ctx' v r dst; closeFile).run
        { s' with memory := mem } = .ok () s'' ∧
      bytes s''.memory dst.data dst.type.buffersize = bytes s.memory src.data dst.type.buffersize ∧
      ∀ x, x < dst.data ∨ dst.data + dst.type.buffersize ≤ x → s''.memory x = mem x

end Main

/-! ## Three integers, and a scalar of one byte -/

def plainLibrary : Library Unit where
  strerror
    | .ebadtype => "NetCDF: Not a valid data type or _FillValue type mismatch"
    | .einvalcoords => "NetCDF: Index exceeds dimension bound"
    | .eedge => "NetCDF: Start+count exceeds dimension bound"
    | .eperm => "NetCDF: Write to read only"
    | .enotvar => "NetCDF: Variable not found"
    | .enameinuse => "NetCDF: String match to name in use"
    | .enogrp => "NetCDF: No group found."
    | .emaxdims => "NetCDF: NC_MAX_DIMS exceeded"
    | .ehdferr => "NetCDF: HDF error"
  ncId g := toString (65536 + g.length)
  typeId _ := "32"
  evaluate _ text := .ok text
  chunkConstruct _ _ := .ok ()

def level (type : Datatype) : Variable Unit := ⟨"fields/level", some fun _ => .ok type, []⟩

end Pdi.Netcdf
