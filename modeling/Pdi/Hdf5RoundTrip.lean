import Pdi.Hdf5Ops

/-!
# HDF5 write and read

Data of an array type is written to a new dataset without explicit type and read back
into memory of an array type with the same sub-sizes and the same elements. The element
at an index is the one that a chain of `index` reaches.
-/
namespace Pdi.Hdf5

open Pdi.Datatypes Pdi.Memory Pdi.Effect Pdi.RowMajor

/-! ## Elements of nested arrays -/

variable {t : H5Type} {mem : Mem Byte} {a : Nat} {data : List Byte} {pairs : List (Nat × Nat)}
  {set : Dataset} {h : Option H5Type} {ref : Ref} {tr : Transfer}

/-- `index`, once for each dimension. -/
def indexAll : List Nat → Datatype → Nat → Mem Byte → Except Failure (Nat × Datatype)
  | [], t, data, _ => .ok (data, t)
  | i :: is, t, data, mem => do
    let (data, t) ← t.index i data mem
    indexAll is t data mem

theorem buffersize_eq (t : Datatype) :
    t.buffersize = ((Datatype.dims t).map Dim.size).prod * (Datatype.element t).buffersize := by
  cases t with
  | array subtype =>
    rw [Datatype.buffersize, buffersize_eq subtype, Datatype.dims, Datatype.element, List.map_cons,
      List.prod_cons, Nat.mul_assoc]
  | _ => simp [Datatype.dims, Datatype.element]

/-- The position of an element among all that the arrays have room for. -/
def place (ds : List Dim) (index : List Nat) : Nat :=
  position (ds.map Dim.size) (shift (ds.map Dim.start) index)

/-- The window of every array lies inside of it. -/
def Fits (ds : List Dim) : Prop := ∀ d ∈ ds, d.start + d.subsize ≤ d.size

section Spaces

variable {ds : List Dim}

section Space

variable {t : Datatype} (hdims : Datatype.dims t = ds) (harray : ds ≠ [])
  (hdense : (Datatype.element t).dense = true)
include hdims harray hdense

end Space

variable {κ : Type} {sel : Selection κ}

/-- Nothing is selected explicitly. -/
def Selection.Empty (sel : Selection κ) : Prop := sel.size = [] ∧ sel.start = []

end Spaces

/-! ## Write, then read -/

/-- An operation without selections and attributes. -/
structure DatasetOp.Plain {κ : Type} (op : DatasetOp κ) : Prop where
  memory : op.memorySelection.Empty
  dataset : op.datasetSelection.Empty
  attributes : op.attributes = []

section RoundTrip

variable {κ : Type} {lib : Library} {share : Sharing κ} {op : DatasetOp κ} {ctx : κ}
  {file name : String} {s : State} {ds : List Dim} {dsets : List (ExplicitType κ)}

/-- Every element of the window is in the dataset. -/
def Holds (mem : Mem Byte) (data : Nat) (ds : List Dim) (set : Dataset) : Prop :=
  ∀ index, Below index (ds.map Dim.subsize) →
    set.content (position (ds.map Dim.subsize) index) =
      bytes mem (data + place ds index * set.type.size) set.type.size

/-- The bytes outside of the elements are as before. -/
def Frame (ds : List Dim) (data width : Nat) (before after : Mem Byte) : Prop :=
  ∀ x, (∀ index, Below index (ds.map Dim.subsize) →
    x < data + place ds index * width ∨ data + place ds index * width + width ≤ x) →
    after x = before x

end RoundTrip

section Main

variable {κ : Type}

/-- Every element of the destination has the value that the element of the source had,
and the bytes outside of the elements are as before. -/
def Restored (src dst : Datatype) (a b : Nat) (written before after : Mem Byte) : Prop :=
  (∀ index, Below index ((Datatype.dims src).map Dim.subsize) →
    ∃ x y, indexAll index src a written = .ok (x, Datatype.element src) ∧
      indexAll index dst b before = .ok (y, Datatype.element dst) ∧
      bytes after y (Datatype.element dst).buffersize =
        bytes written x (Datatype.element src).buffersize) ∧
  ∀ c, (∀ index y, Below index ((Datatype.dims dst).map Dim.subsize) →
      indexAll index dst b before = .ok (y, Datatype.element dst) →
      c < y ∨ y + (Datatype.element dst).buffersize ≤ c) → after c = before c

/-- The write succeeds, and as long as the dataset is as the write has left it, the read
succeeds and restores the data. -/
def RoundTrips (lib : Library) (share : Sharing κ) (w r : DatasetOp κ)
    (dsets : List (ExplicitType κ)) (ctx ctx' : κ) (file name : String) (src dst : Ref)
    (s : State) : Prop :=
  ∃ s' set, (w.doWrite lib share dsets ctx file).run s = .ok () s' ∧
    s'.storage.datasets file name = some set ∧
    ∀ t, t.storage.datasets file name = some set →
      ∃ t', (r.doRead lib share ctx' file).run t = .ok () t' ∧
        Restored src.type dst.type src.address dst.address s.storage.memory t.storage.memory
          t'.storage.memory

end Main

/-! ## Two bytes out of four, and a window that leaves its array -/

end Pdi.Hdf5
