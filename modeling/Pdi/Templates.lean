import Pdi.Access
import Pdi.OpenRecursion

/-!
# Templates of datatypes

The resolution of a type node of the specification tree to a template: the name of its
type is looked up in a registry of parsers, and the parser of an array, record, struct,
tuple or pointer resolves the nodes of its sub-types by the same function. A user type is
a parser that resolves the node of its definition.

The nodes of the tree are those of a document `doc`, where a node can be an entry of
several others. What a text or a node is as an expression is given from outside. Warnings
of the log are left out.
-/
namespace Pdi.Templates

open Pdi.Datatypes Pdi.OpenRecursion

def spectreeError (message : String) : Failure := .error .spectree message

/-! ## Specification trees -/

inductive Node (ν : Type) where
  | scalar (text : String)
  | sequence (items : List ν)
  | mapping (pairs : List (ν × ν))

def Node.kind {ν : Type} : Node ν → String
  | .scalar _ => "scalar"
  | .sequence _ => "sequence"
  | .mapping _ => "mapping"

/-- A `PC_tree_t`: a node, or the message of the access that has failed. -/
abbrev Tree (ν : Type) := Except String ν

section Tree

variable {ν : Type} (doc : ν → Node ν)

def expectedScalar (found : Node ν) : String := "Expected a scalar, found " ++ found.kind ++ "\n"

/-- `PC_string` -/
def pcString (tree : Tree ν) : Except String String := do
  match doc (← tree) with
  | .scalar text => .ok text
  | other => .error (expectedScalar other)

def findKey (key : String) : List (ν × ν) → Tree ν
  | [] => .error ("Key `" ++ key ++ "' not found in (ROOT)\n")
  | (k, value) :: rest =>
    match doc k with
    | .scalar text => if text = key then .ok value else findKey key rest
    | other => .error (expectedScalar other)

/-- `PC_get` with a path of one key. -/
def pcGet (tree : Tree ν) (key : String) : Tree ν := do
  match doc (← tree) with
  | .mapping pairs => findKey doc key pairs
  | other => .error ("Expected mapping, found " ++ other.kind ++ " (ROOT)\n")

/-- `PC_get` with `[i]` -/
def pcIndex (tree : Tree ν) (i : Nat) : Tree ν := do
  match doc (← tree) with
  | .sequence items =>
    match items[i]? with
    | some item => .ok item
    | none => .error ("Index " ++ toString i ++ " out of range [0..." ++ toString items.length ++
        "[ in (ROOT)\n")
  | other => .error ("Expected sequence, found " ++ other.kind ++ " (ROOT)\n")

/-- `PC_get` for the key and the value of a pair. -/
def pcPair (tree : Tree ν) (i : Nat) : Except String (ν × ν) := do
  match doc (← tree) with
  | .mapping pairs =>
    match pairs[i]? with
    | some pair => .ok pair
    | none => .error ("Index " ++ toString i ++ " out of range [0..." ++ toString pairs.length ++
        "] in (ROOT)\n")
  | other => .error ("Expected mapping, found " ++ other.kind ++ " (ROOT)\n")

/-- `PC_len` -/
def pcLen (tree : Tree ν) : Except String Nat := do
  match doc (← tree) with
  | .scalar text => .ok text.utf8ByteSize
  | .sequence items => .ok items.length
  | .mapping pairs => .ok pairs.length

/-- `do_pc` -/
def doPc {α : Type} : Except String α → Except Failure α
  | .ok a => .ok a
  | .error message => .error (spectreeError message)

/-- `to_string` -/
def textOf (tree : Tree ν) : Except Failure String := doPc (pcString doc tree)

/-- `to_string` and `len` with a default -/
def orElse {α : Type} (x : Except String α) (default : α) : α :=
  match x with
  | .ok a => a
  | .error _ => default

end Tree

/-! ## Templates -/

/-- A `Datatype_template`, with expressions `ε`. A scalar is aligned to its size. -/
inductive Template (ε : Type) where
  | scalar (kind : ScalarKind) (size : ε) (attributes : List (String × ε))
  | array (subtype : Template ε) (size start subsize : ε) (attributes : List (String × ε))
  | record (members : List (ε × Template ε × String)) (buffersize : ε)
      (attributes : List (String × ε))
  | struct (members : List (Template ε × String)) (attributes : List (String × ε))
  | tuple (elements : List (Option ε × Template ε)) (buffersize : Option ε)
      (attributes : List (String × ε))
  | pointer (subtype : Template ε) (attributes : List (String × ε))

/-- How expressions are read. -/
structure Expressions (ν ε : Type) where
  ofText : String → Except Failure ε
  ofNode : ν → Except Failure ε
  ofLong : Int → ε
  /-- `PC_int` of a scalar. -/
  integer : String → Option Int

/-- A `Datatype_template_parser`. -/
inductive Parser (ν : Type) where
  | array | struct | record | pointer | tuple
  | scalar (kind : ScalarKind) (size : Nat)
  /-- A type of Fortran, with the kind it has by default. -/
  | fortran (kind : ScalarKind) (default : Int)
  | user (definition : ν)
  deriving DecidableEq

abbrev Registry (ν : Type) := List (String × Parser ν)

section Load

variable {ν : Type}

/-- `add_datatype` -/
def addDatatype (registry : Registry ν) (name : String) (parser : Parser ν) :
    Except Failure (Registry ν) :=
  if (registry.lookup name).isSome then
    .error (typeError ("Datatype already defined `" ++ name ++ "'"))
  else .ok (registry ++ [(name, parser)])

def signedTypes : List (String × Nat) :=
  [("int", 4), ("short", 2), ("long", 8), ("long long", 8), ("intmax", 8), ("intmax_t", 8),
    ("int8", 1), ("int16", 2), ("int32", 4), ("int64", 8),
    ("int8_t", 1), ("int16_t", 2), ("int32_t", 4), ("int64_t", 8),
    ("int_least8", 1), ("int_least16", 2), ("int_least32", 4), ("int_least64", 8),
    ("int_least8_t", 1), ("int_least16_t", 2), ("int_least32_t", 4), ("int_least64_t", 8),
    ("int_fast8", 1), ("int_fast16", 8), ("int_fast32", 8), ("int_fast64", 8),
    ("int_fast8_t", 1), ("int_fast16_t", 8), ("int_fast32_t", 8), ("int_fast64_t", 8),
    ("intptr", 8), ("intptr_t", 8), ("ptrdiff", 8), ("ptrdiff_t", 8)]

def unsignedTypes : List (String × Nat) :=
  [("char", 1), ("unsigned short", 2), ("unsigned long", 8), ("unsigned long long", 8),
    ("uintmax", 8), ("uintmax_t", 8),
    ("uint8", 1), ("uint16", 2), ("uint32", 4), ("uint64", 8),
    ("uint8_t", 1), ("uint16_t", 2), ("uint32_t", 4), ("uint64_t", 8),
    ("uint_least8", 1), ("uint_least16", 2), ("uint_least32", 4), ("uint_least64", 8),
    ("uint_least8_t", 1), ("uint_least16_t", 2), ("uint_least32_t", 4), ("uint_least64_t", 8),
    ("uint_fast8", 1), ("uint_fast16", 8), ("uint_fast32", 8), ("uint_fast64", 8),
    ("uint_fast8_t", 1), ("uint_fast16_t", 8), ("uint_fast32_t", 8), ("uint_fast64_t", 8),
    ("uintptr", 8), ("uintptr_t", 8), ("size_t", 8)]

/-- `load_basic_datatypes`, with the types of Fortran. -/
def basicDatatypes : Registry ν :=
  [("array", .array), ("struct", .struct), ("record", .record), ("pointer", .pointer),
    ("tuple", .tuple)] ++
  signedTypes.map (fun x => (x.1, .scalar .signed x.2)) ++
  unsignedTypes.map (fun x => (x.1, .scalar .unsigned x.2)) ++
  [("float", .scalar .float 4), ("double", .scalar .float 8), ("byte", .scalar .unknown 1),
    ("character", .fortran .unsigned 1), ("integer", .fortran .signed 4),
    ("logical", .fortran .unsigned 4), ("real", .fortran .float 4)]

/-- `load_user_datatypes` -/
def loadUserDatatypes (doc : ν → Node ν) (types : Tree ν) (registry : Registry ν) :
    Except Failure (Registry ν) :=
  match types with
  | .error _ => .ok registry
  | .ok section' => (List.range (orElse (pcLen doc (.ok section')) 0)).foldlM (fun registry i => do
      let pair ← doPc (pcPair doc (.ok section') i)
      let name ← textOf doc (.ok pair.1)
      addDatatype registry name (.user pair.2)) registry

end Load

/-! ## Resolution -/

section Resolution

variable {ν ε : Type} (doc : ν → Node ν) (read : Expressions ν ε)

abbrev Resolver (ν ε α : Type) := Body ν (Template ε) Failure α

def failure {α : Type} (message : String) : Resolver ν ε α := .fail (spectreeError message)

/-- The attributes of a type: the entries whose keys start with `+`. -/
def attributes (node : ν) : Except Failure (List (String × ε)) :=
  match doc node with
  | .scalar _ => .ok []
  | _ => (List.range (orElse (pcLen doc (.ok node)) 0)).foldlM (fun found i => do
      let pair ← doPc (pcPair doc (.ok node) i)
      let key ← textOf doc (.ok pair.1)
      match key.toList with
      | '+' :: name => do
        let value ← read.ofNode pair.2
        return (found.filter (·.1 ≠ String.ofList name)) ++ [(String.ofList name, value)]
      | _ => return found) []

def expressionOf (tree : Tree ν) : Except Failure ε := do
  read.ofText (← textOf doc tree)

/-- `get_array_property` -/
def getArrayProperty (node : ν) (property : String) : Except Failure (List ε) :=
  let config := pcGet doc (.ok node) property
  match pcIndex doc config 0 with
  | .ok _ => do
    let rank ← doPc (pcLen doc config)
    (List.range rank).mapM fun i => expressionOf doc read (pcIndex doc config i)
  | .error _ => do
    let text := orElse (pcString doc config) ""
    if text = "" then return [] else return [← read.ofText text]

/-- `validate_array`: the sizes, starts and sub-sizes. -/
def validateArray (size subsize start : List ε) : Except Failure (List (ε × ε × ε)) := do
  if size.isEmpty then .error (spectreeError "Array must have defined `size'")
  else if !start.isEmpty && subsize.isEmpty then
    .error (spectreeError "Array with a `start` property must have a defined `subsize'")
  else
    let start := if start.isEmpty then size.map fun _ => read.ofLong 0 else start
    let subsize := if subsize.isEmpty then size else subsize
    if size.length ≠ subsize.length then
      .error (spectreeError ("`subsize' must have the same rank as `size': " ++
        toString subsize.length ++ " != " ++ toString size.length))
    else if size.length ≠ start.length then
      .error (spectreeError ("`start' must have the same rank as `size': " ++
        toString start.length ++ " != " ++ toString size.length))
    else .ok (size.zip (start.zip subsize))

/-- The check on the deprecated property `order`. -/
def checkOrder (node : ν) : Except Failure Unit :=
  let order := orElse (pcString doc (pcGet doc (.ok node) "order")) ""
  if order = "c" ∨ order = "C" ∨ order = "" then .ok ()
  else .error (spectreeError
    ("Incorrect array ordering: `" ++ order ++ "', only C order is supported"))

/-- What `to_array_datatype_template` does before it resolves the sub-type. -/
def arrayDimensions (node : ν) : Except Failure (List (ε × ε × ε)) := do
  checkOrder doc node
  let size ← getArrayProperty doc read node "size"
  let subsize ← getArrayProperty doc read node "subsize"
  let start ← getArrayProperty doc read node "start"
  validateArray read size subsize start

/-- `to_array_datatype_template` -/
def toArray (node : ν) : Resolver ν ε (Template ε) := do
  let dimensions ← .ofExcept (arrayDimensions doc read node)
  match pcGet doc (.ok node) "subtype" with
  | .error _ => failure "Array must have `subtype'"
  | .ok subtype => do
    let subtype ← .ask subtype
    let attributes ← .ofExcept (attributes doc read node)
    return dimensions.foldr (fun d t => .array t d.1 d.2.1 d.2.2 attributes) subtype

/-- The expression under a key, if the key is there. -/
def optional (node : ν) (key : String) : Except Failure (Option ε) :=
  match pcGet doc (.ok node) key with
  | .ok value => do
    return some (← expressionOf doc read (.ok value))
  | .error _ => .ok none

/-- The loop of `get_tuple_elements` -/
def tupleElements : List ν → Resolver ν ε (List (Option ε × Template ε))
  | [] => return []
  | element :: rest => do
    let disp ← .ofExcept (optional doc read element "disp")
    let type ← .ask element
    let rest ← tupleElements rest
    return (disp, type) :: rest

/-- The checks at the end of `get_tuple_elements` -/
def checkDisplacements (elements : List (Option ε × Template ε)) (buffersizeDefined : Bool) :
    Except Failure Unit :=
  let counter := elements.countP (·.1.isSome)
  if counter ≠ 0 ∧ counter ≠ elements.length then
    .error (spectreeError "None or all of tuple elements must to have `disp' defined")
  else if buffersizeDefined = true ∧ counter = 0 then
    .error (spectreeError "If tuple buffersize is defined, all `disp' must be defined also")
  else if buffersizeDefined = false ∧ counter ≠ 0 then
    .error (spectreeError "If tuple buffersize is not defined, `disp' cannot be defined also")
  else .ok ()

/-- `to_tuple_datatype_template` -/
def toTuple (node : ν) : Resolver ν ε (Template ε) := do
  let buffersize ← .ofExcept (optional doc read node "buffersize")
  match pcGet doc (.ok node) "elements" with
  | .error _ => failure "Tuple datatype must have `elements' subtree"
  | .ok list =>
    match doc list with
    | .sequence items => do
      let elements ← tupleElements doc read items
      .ofExcept (checkDisplacements elements buffersize.isSome)
      let attributes ← .ofExcept (attributes doc read node)
      return .tuple elements buffersize attributes
    | _ => failure "Tuple elements subtree must be a seqence or ordered mapping"

/-- The loop of `get_members` over the indices of the members. -/
def recordMembers (list : Tree ν) : List Nat → Resolver ν ε (List (ε × Template ε × String))
  | [] => return []
  | i :: rest => do
    let pair ← .ofExcept (doPc (pcPair doc list i))
    let name ← .ofExcept (textOf doc (.ok pair.1))
    match pcGet doc (.ok pair.2) "disp" with
    | .error _ => failure "All members must have displacements"
    | .ok value => do
      let disp ← .ofExcept (expressionOf doc read (.ok value))
      let type ← .ask pair.2
      let rest ← recordMembers list rest
      return (disp, type, name) :: rest

/-- `to_record_datatype_template` -/
def toRecord (node : ν) : Resolver ν ε (Template ε) := do
  match pcGet doc (.ok node) "buffersize" with
  | .error _ => failure "Record must have defined buffersize"
  | .ok value => do
    let buffersize ← .ofExcept (expressionOf doc read (.ok value))
    let list := pcGet doc (.ok node) "members"
    let members ← recordMembers doc read list (List.range (orElse (pcLen doc list) 0))
    let attributes ← .ofExcept (attributes doc read node)
    return .record members buffersize attributes

/-- The loop of `each_in_omap` for the members of a struct. -/
def structMembers : List ν → Resolver ν ε (List (Template ε × String))
  | [] => return []
  | element :: rest =>
    match doc element with
    | .mapping [(key, value)] => do
      let type ← .ask value
      let name ← .ofExcept (textOf doc (.ok key))
      let rest ← structMembers rest
      return (type, name) :: rest
    | .mapping _ => failure "Invalid ordered mapping found (multiple keys)"
    | _ => failure "Invalid ordered mapping found (no key)"

/-- `to_struct_datatype_template` -/
def toStruct (node : ν) : Resolver ν ε (Template ε) := do
  match pcGet doc (.ok node) "members" with
  | .error message => failure message
  | .ok list =>
    match doc list with
    | .sequence items => do
      let members ← structMembers doc items
      let attributes ← .ofExcept (attributes doc read node)
      return .struct members attributes
    | .scalar _ => failure "Expected an ordered mapping, found a scalar"
    | .mapping _ => failure "Expected an ordered mapping, found a (unordered) mapping"

/-- `to_pointer_datatype_template` -/
def toPointer (node : ν) : Resolver ν ε (Template ε) := do
  match pcGet doc (.ok node) "subtype" with
  | .error _ => failure "Pointer must have defined subtype"
  | .ok subtype => do
    let subtype ← .ask subtype
    let attributes ← .ofExcept (attributes doc read node)
    return .pointer subtype attributes

/-- The size of a type of Fortran. -/
def fortranKind (node : ν) (default : Int) : Except Failure Int :=
  let kind := ((pcString doc (pcGet doc (.ok node) "kind")).toOption.bind read.integer).getD default
  if kind = 0 then .ok default
  else if kind < 0 then .error (spectreeError "`kind' of the datatype cannot be less than 0")
  else .ok kind

def toScalar (node : ν) (kind : ScalarKind) (size : Except Failure Int) :
    Resolver ν ε (Template ε) := do
  let size ← .ofExcept size
  let attributes ← .ofExcept (attributes doc read node)
  return .scalar kind (read.ofLong size) attributes

/-- The call of a parser. -/
def Parser.parse (node : ν) : Parser ν → Resolver ν ε (Template ε)
  | .array => toArray doc read node
  | .struct => toStruct doc read node
  | .record => toRecord doc read node
  | .pointer => toPointer doc read node
  | .tuple => toTuple doc read node
  | .scalar kind size => toScalar doc read node kind (.ok size)
  | .fortran kind default => toScalar doc read node kind (fortranKind doc read node default)
  | .user definition => .ask definition

/-- The name of the type of a node: its entry `type`, or the node itself. -/
def typeName (node : ν) : Except Failure String :=
  match textOf doc (pcGet doc (.ok node) "type") with
  | .ok name => .ok name
  | .error _ => textOf doc (.ok node)

/-- `Global_context::datatype` -/
def datatype (registry : Registry ν) (node : ν) : Resolver ν ε (Template ε) := do
  let name ← .ofExcept (typeName doc node)
  match registry.lookup name with
  | some parser => parser.parse doc read node
  | none => failure ("Unknown data type: `" ++ name ++ "'")

end Resolution

end Pdi.Templates
