import Pdi.Datatypes

/-!
# Access to parts of data

Indexing, slicing, member access and dereference, as each datatype answers them
for a piece of data at an address. Pointers pass an access on to what they point
to, so the accesses read the memory.

A path is a sequence of indices and member names. `locate` follows it with these
very functions until it is at a scalar.
-/
namespace Pdi.Datatypes

open Pdi.Align Pdi.Memory

abbrev Byte := UInt8

inductive Status where
  | spectree | value | plugin | impl | system | state | permission | type | invalidAction | multiple
  deriving DecidableEq, Repr

/-- How a call can fail to return: with an error of the library, with another
exception, or by doing something that the language leaves undefined. -/
inductive Failure where
  | error (status : Status) (message : String)
  | foreign (what : String)
  | undefined (what : String)
  deriving DecidableEq, Repr

/-- Something is thrown, as opposed to something undefined. -/
def Failure.Raised : Failure → Prop
  | .undefined _ => False
  | _ => True

def valueError (message : String) : Failure := .error .value message
def typeError (message : String) : Failure := .error .type message

/-- `Scalar_datatype::make(kind, size, align, attributes)` -/
def makeScalar (kind : ScalarKind) (size align : Nat) (attributes : Attributes) :
    Except Failure Datatype :=
  if h : (size = 0 ∧ size = 0 ∧ align = 0 ∧ kind = .unknown) ∨ ispow2 align = true then
    .ok (.scalar ⟨kind, size, size, align, none, none, attributes, h⟩)
  else .error (valueError "alignment should be a power of 2")

/-- Subtraction of `size_t`. -/
def sizeSub (a b : Nat) : Nat := if b ≤ a then a - b else a + 2 ^ 64 - b

/-- A `void*` read from memory, lowest byte first. -/
def readPointer (mem : Mem Byte) (a : Nat) : Nat :=
  (bytes mem a pointerSize).foldr (fun b n => b.toNat + 256 * n) 0

def kindName : ScalarKind → String
  | .unknown => "unknown"
  | .signed => "signed"
  | .unsigned => "unsigned"
  | .float => "float"

def indent (tabs text : String) : String := tabs ++ text.replace "\n" ("\n" ++ tabs)

def attributeLines : Attributes → String
  | [] => ""
  | a :: rest => "\nattributes: \n" ++
    String.intercalate ", " ((a :: rest).map (fun x => "\t" ++ x.1))

def sizeLines (t : Datatype) : String :=
  "\ndense: " ++ (if t.dense then "true" else "false") ++
  "\nbuffersize: " ++ toString t.buffersize ++ "\ndatasize: " ++ toString t.datasize ++
  "\nalignment: " ++ toString t.alignment

mutual
def debugString : Datatype → String
  | .scalar s => "type: scalar\nkind: " ++ kindName s.kind ++ sizeLines (.scalar s) ++
    attributeLines s.attributes
  | .array subtype size start subsize attributes =>
    "type: array" ++ sizeLines (.array subtype size start subsize attributes) ++
    "\nsize: " ++ toString size ++ "\nstart: " ++ toString start ++
    "\nsubsize: " ++ toString subsize ++ "\nsubtype: \n" ++ indent "\t" (debugString subtype) ++
    attributeLines attributes
  | .record members buffersize attributes =>
    "type: record" ++ sizeLines (.record members buffersize attributes) ++ "\nmembers: " ++
    memberLines true members ++ attributeLines attributes
  | .tuple elements buffersize attributes =>
    "type: tuple" ++ sizeLines (.tuple elements buffersize attributes) ++ "\nelements: " ++
    memberLines false elements ++ attributeLines attributes
  | .pointer subtype copy destroy attributes =>
    "type: pointer" ++ sizeLines (.pointer subtype copy destroy attributes) ++ "\nsubtype: \n" ++
    debugString subtype ++ attributeLines attributes

def memberLines (named : Bool) : Members → String
  | .nil => ""
  | .cons displacement type name rest =>
    (if named then "\n\t - name: " ++ name else "") ++
    "\n\t   displacement: " ++ toString displacement ++ "\n\t   type: \n" ++
    indent "\t\t" (debugString type) ++ memberLines named rest
end

def Members.length : Members → Nat
  | .nil => 0
  | .cons _ _ _ rest => rest.length + 1

/-- The member at a position, with its displacement. -/
def Members.get? : Members → Nat → Option (Nat × Datatype)
  | .nil, _ => none
  | .cons d type _ _, 0 => some (d, type)
  | .cons _ _ _ rest, i + 1 => rest.get? i

/-- The first member of a name, with its displacement. -/
def Members.find? : Members → String → Option (Nat × Datatype)
  | .nil, _ => none
  | .cons d type n rest, name => if n = name then some (d, type) else rest.find? name

theorem Members.get?_of_find? {name : String} {d : Nat} {type : Datatype} :
    ∀ {ms : Members}, ms.find? name = some (d, type) → ∃ i, ms.get? i = some (d, type)
  | .cons _ _ _ _, h => by
    rw [Members.find?] at h
    split at h
    · exact ⟨0, h⟩
    · obtain ⟨i, hi⟩ := Members.get?_of_find? h
      exact ⟨i + 1, hi⟩

/-- The members at the positions from `start` up to `stop`, displaced by `base` bytes less. -/
def Members.window (base : Nat) : Members → Nat → Nat → Members
  | .nil, _, _ => .nil
  | _, _, 0 => .nil
  | .cons d type name rest, 0, stop + 1 =>
    .cons (sizeSub d base) type name (rest.window base 0 stop)
  | .cons _ _ _ rest, start + 1, stop + 1 => rest.window base start stop

def Datatype.index : Datatype → Nat → Nat → Mem Byte → Except Failure (Nat × Datatype)
  | .array subtype _ start subsize _, index, data, _ =>
    if index < subsize then .ok (data + subtype.buffersize * (start + index), subtype)
    else .error (valueError ("Subaccess array index out of range: " ++ toString index ++ " >= " ++
      toString subsize))
  | .tuple elements _ _, index, data, _ =>
    match elements.get? index with
    | some (offset, type) => .ok (data + offset, type)
    | none => .error (valueError ("Subaccess tuple index out of range: " ++ toString index ++
        " >= " ++ toString elements.length))
  | .pointer subtype _ _ _, index, data, mem =>
    subtype.index index (readPointer mem data) mem
  | .scalar s, _, _, _ =>
    .error (typeError ("unable to access element by index in " ++ debugString (.scalar s)))
  | .record members buffersize attributes, _, _, _ =>
    .error (typeError ("unable to access element by index in " ++
      debugString (.record members buffersize attributes)))

/-- A slice of a tuple reads the offsets of its first element and of the element
after the one that follows it, whether or not the tuple has them. -/
def tupleSlice (elements : Members) (buffersize start stop data : Nat) :
    Except Failure (Nat × Datatype) :=
  match elements.get? start with
  | none => .error (.undefined "offset of an element that does not exist")
  | some (base, _) =>
    if stop ≤ elements.length then
      if stop = elements.length then
        .ok (data + base,
          .tuple (elements.window base start stop) (sizeSub buffersize base) [])
      else match elements.get? (stop + 1) with
        | none => .error (.undefined "offset of an element that does not exist")
        | some (next, _) =>
          .ok (data + base, .tuple (elements.window base start stop) (sizeSub next base) [])
    else .error (valueError ("Subaccess tuple slice out of range: [" ++ toString start ++ ":" ++
      toString stop ++ "] > " ++ toString elements.length))

def Datatype.slice : Datatype → Nat → Nat → Nat → Mem Byte → Except Failure (Nat × Datatype)
  | .array subtype _ start subsize _, first, stop, data, _ =>
    if stop ≤ subsize then
      .ok (data + subtype.buffersize * (start + first),
        .array subtype (sizeSub stop first) 0 (sizeSub stop first) [])
    else .error (valueError ("Subaccess array slice out of range: [" ++ toString first ++ ":" ++
      toString stop ++ "] > " ++ toString subsize))
  | .tuple elements buffersize _, first, stop, data, _ =>
    tupleSlice elements buffersize first stop data
  | .pointer subtype _ _ _, first, stop, data, mem =>
    subtype.slice first stop (readPointer mem data) mem
  | .scalar s, _, _, _, _ =>
    .error (typeError ("unable to access slice in " ++ debugString (.scalar s)))
  | .record members buffersize attributes, _, _, _, _ =>
    .error (typeError ("unable to access slice in " ++
      debugString (.record members buffersize attributes)))

def Datatype.member : Datatype → String → Nat → Mem Byte → Except Failure (Nat × Datatype)
  | .record members _ _, name, data, _ =>
    match members.find? name with
    | some (displacement, type) => .ok (data + displacement, type)
    | none => .error (valueError ("Record subaccess error: no member named " ++ name))
  | .pointer subtype _ _ _, name, data, mem =>
    subtype.member name (readPointer mem data) mem
  | .scalar s, _, _, _ =>
    .error (typeError ("unable to access member in " ++ debugString (.scalar s)))
  | .array subtype size start subsize attributes, _, _, _ =>
    .error (typeError ("unable to access member in " ++
      debugString (.array subtype size start subsize attributes)))
  | .tuple elements buffersize attributes, _, _, _ =>
    .error (typeError ("unable to access member in " ++
      debugString (.tuple elements buffersize attributes)))

def Datatype.dereference : Datatype → Nat → Mem Byte → Except Failure (Nat × Datatype)
  | .pointer subtype _ _ _, data, mem => .ok (readPointer mem data, subtype)
  | t, _, _ => .error (typeError ("unable to dereference " ++ debugString t))

/-- One step of a path into data. -/
inductive Step where
  | index (i : Nat)
  | member (name : String)
  deriving DecidableEq, Repr

abbrev Path := List Step

/-- The scalar found where a path ends, pointers being followed. -/
def target : Datatype → Nat → Mem Byte → Option (Nat × Scalar)
  | .scalar s, data, _ => some (data, s)
  | .pointer subtype _ _ _, data, mem => target subtype (readPointer mem data) mem
  | _, _, _ => none

def Datatype.step (t : Datatype) (step : Step) (data : Nat) (mem : Mem Byte) :
    Except Failure (Nat × Datatype) :=
  match step with
  | .index i => t.index i data mem
  | .member name => t.member name data mem

/-- The address and the type of the scalar at a path. -/
def locate (mem : Mem Byte) : Path → Datatype → Nat → Option (Nat × Scalar)
  | [], t, data => target t data mem
  | step :: path, t, data =>
    match t.step step data mem with
    | .ok (a, t') => locate mem path t' a
    | .error _ => none

/-- The bytes of the scalar at a path, as many as its content has. -/
def readScalar (mem : Mem Byte) (path : Path) (t : Datatype) (data : Nat) : Option (List Byte) :=
  (locate mem path t data).map (fun x => bytes mem x.1 x.2.size)

/-- The member that a step leads to, with its displacement. -/
def Members.lookup (ms : Members) : Step → Option (Nat × Datatype)
  | .index i => ms.get? i
  | .member name => ms.find? name

/-- A step leads to the first member, or to one of the others. -/
theorem Members.lookup_cons (step : Step) (n : String) :
    (∀ d type rest, (Members.cons d type n rest).lookup step = some (d, type)) ∨
      ∃ next, ∀ d type rest, (Members.cons d type n rest).lookup step = rest.lookup next := by
  cases step with
  | index i =>
    cases i with
    | zero => exact .inl fun _ _ _ => rfl
    | succ i => exact .inr ⟨.index i, fun _ _ _ => rfl⟩
  | member name =>
    by_cases hn : n = name
    · exact .inl fun _ _ _ => if_pos hn
    · exact .inr ⟨.member name, fun _ _ _ => if_neg hn⟩

end Pdi.Datatypes
