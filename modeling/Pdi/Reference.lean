import Pdi.Access
import Pdi.Run

/-!
# References

A reference is an object of its own, with a fixed pair of rights, that may be
linked to a content; a content is a typed address in a buffer; locks and memory
management are kept by the buffer. Copies of a reference share its content, a
sub-reference has a content of its own on the same buffer.

References, contents and buffers are numbered in the order of their creation and
keep their number. Shared ownership is taken as given: a content lives while a
reference is linked to it, and a buffer is destroyed when the last reference
linked to it, through whatever content, is unlinked.
-/
namespace Pdi.Reference

open Pdi.Memory Pdi.Datatypes

/-- The data and type a deallocator was made for. -/
structure Deallocator where
  data : Nat
  type : Datatype
  deriving DecidableEq

/-- `Referenced_buffer`. `readable` and `writable` keep how it was created; a
deallocator that does nothing is `none`. -/
structure Buffer where
  deallocator : Option Deallocator
  readLocks : Int
  writeLocks : Int
  notifications : List Nat
  readable : Bool
  writable : Bool

/-- `Referenced_data`, the null address being 0. `origin` is the content that
this one was reached from by indices, slices and members only. -/
structure Content where
  buffer : Nat
  data : Nat
  type : Datatype
  origin : Nat
  deriving DecidableEq

/-- `Ref_any<read, write>` with its `m_content`. -/
structure Ref where
  read : Bool
  write : Bool
  content : Option Nat
  deriving DecidableEq

/-- All references, contents and buffers made so far, the memory, and two
records: the buffers whose free function was called, last first, and those of
which `release` has returned a pointer. -/
structure Heap where
  refs : List (Option Ref)
  contents : List Content
  buffers : List Buffer
  mem : Mem Byte
  freed : List Nat
  released : List Nat

def Heap.empty (mem : Mem Byte) : Heap := ⟨[], [], [], mem, [], []⟩

/-- A reference that has been made and not been destroyed. -/
def Heap.ref? (h : Heap) (r : Nat) : Option Ref := h.refs[r]?.join

/-- The content a reference is linked to. -/
def Heap.content? (h : Heap) (r : Nat) : Option Content :=
  (h.ref? r).bind (fun x => x.content.bind (fun c => h.contents[c]?))

def Heap.setRef (h : Heap) (r : Nat) (x : Option Ref) : Heap := { h with refs := h.refs.set r x }

def Heap.modifyBuffer (h : Heap) (b : Nat) (f : Buffer → Buffer) : Heap :=
  { h with buffers := h.buffers.modify b f }

def Heap.modifyContent (h : Heap) (c : Nat) (f : Content → Content) : Heap :=
  { h with contents := h.contents.modify c f }

/-- Whether a reference is linked to buffer `b`. -/
def onBuffer (contents : List Content) (b : Nat) (x : Ref) : Bool :=
  x.content.any (fun c => contents[c]?.any (fun k => k.buffer == b))

def Heap.linked (h : Heap) (b : Nat) (slot : Option Ref) : Bool := slot.any (onBuffer h.contents b)

/-- The destructor of a buffer nobody is linked to any more. -/
def Heap.collect (h : Heap) (b : Nat) : Heap :=
  if h.refs.any (h.linked b) then h
  else match h.buffers[b]? with
    | some buffer => if buffer.deallocator.isSome then { h with freed := b :: h.freed } else h
    | none => h

/-- The effect on the locks of a buffer of one more or one less linked reference. -/
def addLocks (x : Ref) (delta : Int) (b : Buffer) : Buffer :=
  { b with
    writeLocks := if x.read || x.write then b.writeLocks + delta else b.writeLocks
    readLocks := if x.write then b.readLocks + delta else b.readLocks }

def forget (r : Nat) (b : Buffer) : Buffer :=
  { b with notifications := b.notifications.filter (fun k => k != r) }

/-- `unlink`: the notification goes, the locks are given back, the content is left. -/
def Heap.unlink (h : Heap) (r : Nat) : Heap :=
  match h.ref? r, h.content? r with
  | some x, some k =>
    ((h.modifyBuffer k.buffer (fun b => addLocks x (-1) (forget r b))).setRef r
      (some { x with content := none })).collect k.buffer
  | _, _ => h

/-- `link` of a reference without content; it stays null when the content is
null or a lock stands against one of its rights. -/
def Heap.link (h : Heap) (r c : Nat) : Heap :=
  match h.ref? r, h.contents[c]? with
  | some x, some k =>
    match h.buffers[k.buffer]? with
    | some b =>
      if k.data = 0 then h
      else if (x.read && b.readLocks != 0) || (x.write && b.writeLocks != 0) then h
      else (h.setRef r (some { x with content := some c })).modifyBuffer k.buffer (addLocks x 1)
    | none => h
  | _, _ => h

/-- A null reference, `Ref_any()`. -/
def Heap.newRef (h : Heap) (read write : Bool) : Heap :=
  { h with refs := h.refs ++ [some ⟨read, write, none⟩] }

/-- `get_content`: the content of a reference unless it has been nullified. -/
def Heap.getContent (h : Heap) (r : Nat) : Option Nat :=
  match h.ref? r, h.content? r with
  | some x, some k => if k.data = 0 then none else x.content
  | _, _ => none

/-- A reference with these rights to an existing content, or a null one. -/
def Heap.linkNew (h : Heap) (read write : Bool) : Option Nat → Heap
  | some c => (h.newRef read write).link h.refs.length c
  | none => h.newRef read write

/-- Copy construction, with the same or with other rights. -/
def Heap.copyRef (h : Heap) (source : Nat) (read write : Bool) : Heap :=
  h.linkNew read write (h.getContent source)

def Heap.reset (h : Heap) (r : Nat) : Heap := h.unlink r

/-- The destructor of a reference. -/
def Heap.destroy (h : Heap) (r : Nat) : Heap := (h.reset r).setRef r none

/-- The content of `source` is stolen by `target`, with the locks that go with
it; the notification of `source` disappears. -/
def Heap.steal (h : Heap) (target source : Nat) : Heap :=
  match h.ref? target, h.ref? source, h.content? source with
  | some y, some x, some k =>
    ((h.modifyBuffer k.buffer (forget source)).setRef target
      (some { y with content := x.content })).setRef source (some { x with content := none })
  | _, _, _ => h

/-- Move construction. -/
def Heap.moveRef (h : Heap) (source : Nat) : Heap :=
  match h.ref? source with
  | some x => (h.newRef x.read x.write).steal h.refs.length source
  | none => h

/-- `is_null`: a reference whose content was released is unlinked on the way. -/
def Heap.isNull (h : Heap) (r : Nat) : Heap × Bool :=
  match h.content? r with
  | some k => if k.data = 0 then (h.unlink r, true) else (h, false)
  | none => (h, true)

/-- The rights of a reference are part of its type, so that assignment is
between references of the same rights. -/
def Heap.sameRights (h : Heap) (r s : Nat) : Bool :=
  match h.ref? r, h.ref? s with
  | some x, some y => x.read == y.read && x.write == y.write
  | _, _ => false

def Heap.moveAssign (h : Heap) (target source : Nat) : Heap :=
  if target = source || !h.sameRights target source then h
  else
    let (h', null) := (h.reset target).isNull source
    if null then h' else h'.steal target source

def Heap.copyAssign (h : Heap) (target source : Nat) : Heap :=
  if target = source || !h.sameRights target source then h
  else match (h.reset target).getContent source with
    | some c => (h.reset target).link target c
    | none => h.reset target

def Heap.addContent (h : Heap) (k : Content) : Heap := { h with contents := h.contents ++ [k] }

/-- The content and the buffer of data nobody references yet. -/
def Heap.alloc (h : Heap) (data : Nat) (type : Datatype) (readable writable : Bool) : Heap :=
  { h.addContent ⟨h.buffers.length, data, type, h.contents.length⟩ with
    buffers := h.buffers ++ [⟨some ⟨data, type⟩, if readable then 0 else 1,
      if writable then 0 else 1, [], readable, writable⟩] }

/-- A reference to newly allocated data; when it may not be linked, content and
buffer are destroyed at once. -/
def Heap.allocRef (h : Heap) (read write : Bool) (data : Nat) (type : Datatype)
    (readable writable : Bool) : Heap :=
  ((h.alloc data type readable writable).linkNew read write (some h.contents.length)).collect
    h.buffers.length

/-- The constructor from raw data. -/
def Heap.create (h : Heap) (read write : Bool) (data : Nat) (type : Datatype)
    (readable writable : Bool) : Except Failure Heap :=
  if type.datasize ≠ 0 ∧ data = 0 ∧ (readable || writable) = true then
    .error (typeError "Referencing null data with non-null size")
  else if data = 0 then .ok (h.newRef read write)
  else .ok (h.allocRef read write data type readable writable)

/-- The content becomes null and its buffer will not free its memory any more. -/
def Heap.nullify (h : Heap) (c b : Nat) : Heap :=
  { (h.modifyContent c (fun k => { k with data := 0 })).modifyBuffer b
      (fun b => { b with notifications := [], deallocator := none }) with
    released := b :: h.released }

/-- `release`: every notification is called and removed, the content is
nullified, and the address it had is returned. -/
def Heap.release (h : Heap) (r : Nat) : Heap × Nat :=
  match h.isNull r with
  | (h', true) => (h', 0)
  | (h', false) =>
    match h'.ref? r, h'.content? r with
    | some ⟨_, _, some c⟩, some k => ((h'.nullify c k.buffer).unlink r, k.data)
    | _, _ => (h', 0)

def Heap.onNullify (h : Heap) (r : Nat) : Heap :=
  match h.isNull r with
  | (h', true) => h'
  | (h', false) =>
    match h'.content? r with
    | some k => h'.modifyBuffer k.buffer
        (fun b => { b with notifications := r :: (forget r b).notifications })
    | none => h'

/-- The ways to take a sub-reference. -/
inductive Access where
  | index (i : Nat)
  | slice (first stop : Nat)
  | member (name : String)
  | dereference

def Access.apply (a : Access) (type : Datatype) (data : Nat) (mem : Mem Byte) :
    Except Failure (Nat × Datatype) :=
  match a with
  | .index i => type.index i data mem
  | .slice first stop => type.slice first stop data mem
  | .member name => type.member name data mem
  | .dereference => type.dereference data mem

def Access.onEmpty : Access → Failure
  | .index i => typeError ("Cannot access array index from empty Ref: `" ++ toString i ++ "'")
  | .slice first stop => typeError ("Cannot access array slice from empty Ref: `" ++
      toString first ++ ":" ++ toString stop ++ "'")
  | .member name => typeError ("Cannot access member from empty Ref: `" ++ name ++ "'")
  | .dereference => typeError "Cannot dereference an empty Ref"

/-- Only a dereference leaves the memory its content was reached from. -/
def Access.origin (a : Access) (parent new : Nat) : Nat :=
  match a with
  | .dereference => new
  | _ => parent

/-- A sub-reference of the linked content `k`: a reference without rights to a
new content on the same buffer. -/
def Heap.subRef (h : Heap) (k : Content) (a : Access) : Heap × Except Failure Unit :=
  match a.apply k.type k.data h.mem with
  | .error e => (h, .error e)
  | .ok (data, type) =>
    ((h.addContent ⟨k.buffer, data, type, a.origin k.origin h.contents.length⟩).linkNew false false
      (some h.contents.length), .ok ())

def isPointer : Datatype → Bool
  | .pointer _ _ _ _ => true
  | _ => false

/-- `dereference` of a reference without the right to read goes through a
temporary one that has it. -/
def Heap.dereference (h : Heap) (r : Nat) (x : Ref) (k : Content) : Heap × Except Failure Unit :=
  if !isPointer k.type then (h, .error (typeError "Cannot dereference a non pointer_type"))
  else if x.read then h.subRef k .dereference
  else
    let h' := h.copyRef r true false
    match h'.content? h.refs.length with
    | none => (h'.destroy h.refs.length, .error (typeError "Cannot dereference an empty Ref"))
    | some k' =>
      let (h'', result) := h'.subRef k' .dereference
      (h''.destroy h.refs.length, result)

def Heap.access (h : Heap) (r : Nat) (a : Access) : Heap × Except Failure Unit :=
  match h.isNull r with
  | (h', true) => (h', .error a.onEmpty)
  | (h', false) =>
    match h'.ref? r, h'.content? r with
    | some x, some k =>
      match a with
      | .dereference => h'.dereference r x k
      | a => h'.subRef k a
    | _, _ => (h', .error a.onEmpty)

/-- Everything a program can do with references. The memory itself may be
written in any way at any time. -/
inductive Op where
  | null (read write : Bool)
  | create (read write : Bool) (data : Nat) (type : Datatype) (readable writable : Bool)
  | copy (source : Nat) (read write : Bool)
  | move (source : Nat)
  | moveAssign (target source : Nat)
  | copyAssign (target source : Nat)
  | reset (r : Nat)
  | destroy (r : Nat)
  | isNull (r : Nat)
  | onNullify (r : Nat)
  | access (r : Nat) (a : Access)
  | release (r : Nat)
  | store (mem : Mem Byte)

def exec : Op → Heap → Heap
  | .null read write, h => h.newRef read write
  | .create read write data type readable writable, h =>
    match h.create read write data type readable writable with
    | .ok h' => h'
    | .error _ => h
  | .copy source read write, h => h.copyRef source read write
  | .move source, h => h.moveRef source
  | .moveAssign target source, h => h.moveAssign target source
  | .copyAssign target source, h => h.copyAssign target source
  | .reset r, h => h.reset r
  | .destroy r, h => h.destroy r
  | .isNull r, h => (h.isNull r).1
  | .onNullify r, h => h.onNullify r
  | .access r a, h => (h.access r a).1
  | .release r, h => (h.release r).1
  | .store mem, h => { h with mem := mem }

/-- A finite sequence of operations, from no reference at all. -/
def runFrom (mem : Mem Byte) (ops : List Op) : Heap := Pdi.Run.run exec ops (Heap.empty mem)

end Pdi.Reference
