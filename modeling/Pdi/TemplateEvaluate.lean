import Pdi.Sizes
import Pdi.Templates

/-!
# Evaluation of templates

`evaluate` of every template: the expressions of the template are evaluated in a context,
and the datatype is built from the values. Sizes are `long` values that are converted to
`size_t`, so a negative one becomes very large. C++ leaves open in which order the arguments
of a call are evaluated, so there may be more than one failure that an evaluation can meet.

A struct, or a tuple without displacements, is laid out here: every member is put at its
alignment behind the one before. With an alignment of zero, the padding is a division by
zero, and so is the padding at the end of a struct without members.
-/
namespace Pdi.Templates

open Pdi.Datatypes Pdi.Align

/-- What an evaluation may come to: a value, or any of the failures that some order of
evaluation meets first. -/
abbrev Outcome (α : Type) := Except (List Failure) α

def Outcome.of {α : Type} (x : Except Failure α) : Outcome α := x.mapError fun f => [f]

/-- Two arguments of one call. Either may be evaluated first, and fail before the other. -/
def both {α β : Type} : Outcome α → Outcome β → Outcome (α × β)
  | .ok a, .ok b => .ok (a, b)
  | .ok _, .error fs => .error fs
  | .error fs, .ok _ => .error fs
  | .error fs, .error gs => .error (fs ++ gs)

theorem ok_bind {α β : Type} (a : α) (f : α → Outcome β) : (Except.ok a >>= f) = f a := rfl

/-- How expressions are read and evaluated, in the context at hand. -/
structure Evaluator (ν ε : Type) extends Expressions ν ε where
  toLong : ε → Except Failure Int
  /-- What the attributes of datatypes keep of an expression. -/
  text : ε → String
  toLong_ofLong : ∀ n, toLong (ofLong n) = .ok n

/-- Expressions that are numbers, with what a text stands for. -/
def Evaluator.numbers {ν : Type} (value : String → Int) : Evaluator ν Int where
  ofText text := .ok (value text)
  ofNode _ := .ok 0
  ofLong n := n
  integer _ := none
  toLong n := .ok n
  text n := toString n
  toLong_ofLong _ := rfl

/-- `static_cast<size_t>` of a `long`. -/
def toSize (n : Int) : Nat := (n % 18446744073709551616).toNat

section Evaluate

variable {ν ε : Type} (ev : Evaluator ν ε)

def Evaluator.size (e : ε) : Outcome Nat := do
  return toSize (← Outcome.of (ev.toLong e))

def Evaluator.attributes (as : List (String × ε)) : Attributes :=
  as.map fun a => (a.1, ev.text a.2)

/-- An expression that may be empty: evaluating it then is a call through a null pointer. -/
def Evaluator.size? : Option ε → Outcome Nat
  | some e => ev.size e
  | none => .error [.undefined "evaluation of an empty expression"]

/-- Members that were laid out, with the place where they end and the largest alignment. -/
structure LaidOut where
  members : Members
  stop : Nat
  alignment : Nat

/-- The padding before a member of this alignment. -/
def aligned (displacement alignment : Nat) : Outcome Nat :=
  if alignment = 0 then .error [.undefined "division by zero"]
  else .ok (Machine.wrap (alignUp displacement alignment))

/-- The end of `evaluate` for a struct and a tuple: the padding after the members, and at
least one byte. -/
def LaidOut.buffersize (l : LaidOut) : Outcome Nat := do
  let stop ← aligned l.stop l.alignment
  return max 1 stop

mutual
/-- `Datatype_template::evaluate` -/
def Template.evaluate : Template ε → Outcome Datatype
  | .scalar kind size attributes => do
    let size ← ev.size size
    Outcome.of (makeScalar kind size size (ev.attributes attributes))
  | .array subtype size start subsize attributes => do
    let ((subtype, size), start, subsize) ←
      both (both subtype.evaluate (ev.size size)) (both (ev.size start) (ev.size subsize))
    return .array subtype size start subsize (ev.attributes attributes)
  | .record members buffersize attributes => do
    let members ← evaluateRecord members
    let buffersize ← ev.size buffersize
    return .record members buffersize (ev.attributes attributes)
  | .struct members attributes => do
    let laidOut ← evaluateStruct members 0 0
    let buffersize ← laidOut.buffersize
    return .record laidOut.members buffersize (ev.attributes attributes)
  | .tuple elements buffersize attributes =>
    match elements.head? with
    | none => .error [.undefined "first element of an empty tuple"]
    | some (some _, _) => do
      let buffersize ← ev.size? buffersize
      let elements ← evaluateDisplaced elements
      return .tuple elements buffersize (ev.attributes attributes)
    | some (none, _) => do
      let laidOut ← evaluateTuple elements 0 0
      let buffersize ← laidOut.buffersize
      return .tuple laidOut.members buffersize (ev.attributes attributes)
  | .pointer subtype attributes => do
    let subtype ← subtype.evaluate
    return .pointer subtype none none (ev.attributes attributes)

def evaluateRecord : List (ε × Template ε × String) → Outcome Members
  | [] => return .nil
  | (displacement, type, name) :: rest => do
    let (displacement, type) ← both (ev.size displacement) type.evaluate
    let rest ← evaluateRecord rest
    return .cons displacement type name rest

/-- The loop over the members of a struct, from a displacement and an alignment on. -/
def evaluateStruct : List (Template ε × String) → Nat → Nat → Outcome LaidOut
  | [], displacement, alignment => return ⟨.nil, displacement, alignment⟩
  | (type, name) :: rest, displacement, alignment => do
    let type ← type.evaluate
    let displacement ← aligned displacement type.alignment
    let l ← evaluateStruct rest (Machine.wrap (displacement + Machine.buffersize type))
      (max alignment type.alignment)
    return { l with members := .cons displacement type name l.members }

def evaluateDisplaced : List (Option ε × Template ε) → Outcome Members
  | [] => return .nil
  | (displacement, type) :: rest => do
    let (displacement, type) ← both (ev.size? displacement) type.evaluate
    let rest ← evaluateDisplaced rest
    return .cons displacement type "" rest

/-- The same loop over the elements of a tuple without displacements. -/
def evaluateTuple : List (Option ε × Template ε) → Nat → Nat → Outcome LaidOut
  | [], displacement, alignment => return ⟨.nil, displacement, alignment⟩
  | (_, type) :: rest, displacement, alignment => do
    let type ← type.evaluate
    let displacement ← aligned displacement type.alignment
    let l ← evaluateTuple rest (Machine.wrap (displacement + Machine.buffersize type))
      (max alignment type.alignment)
    return { l with members := .cons displacement type "" l.members }
end

end Evaluate

end Pdi.Templates
