import Pdi.Access
import Pdi.Effect
import Pdi.NetcdfStore

/-!
# Variables of a NetCDF file

`Dnc_netcdf_file`: an open file with the groups and variables met so far, each under the
path it was asked for. A variable is defined from its datatype, and data are put into it
and got from it.

Attributes, compression, chunking and communicators are left out, and so are the
messages of the log.
-/
namespace Pdi.Netcdf

open Pdi.Datatypes Pdi.Memory Pdi.Effect

def permissionError (message : String) : Failure := .error .permission message

/-! ## Configuration -/

/-- An expression, evaluated in a context `κ`. -/
abbrev Evaluated (κ α : Type) := κ → Except Failure α

/-- The part of a `Dnc_io` that says what of a variable is transferred. -/
structure Io (κ : Type) where
  start : List (Evaluated κ Int)
  subsize : List (Evaluated κ Int)

/-- `Dnc_variable`; the type is a template, evaluated in the context. -/
structure Variable (κ : Type) where
  path : String
  type : Option (Evaluated κ Datatype)
  dimensionsNames : List (Evaluated κ String)

/-- `split_group_and_variable` -/
def splitGroupAndVariable (path : String) : String × String :=
  let chars := path.toList
  let name := (chars.reverse.takeWhile (· != '/')).reverse
  let group := if '/' ∈ chars then chars.take (chars.length - name.length - 1) else ['/']
  (String.ofList (if group.head? = some '/' then group else '/' :: group), String.ofList name)

/-- `split_to_groups` -/
def splitToGroups (path : String) : List String :=
  ((path.toList.splitOn '/').filter (· ≠ [])).map String.ofList

/-! ## Types -/

/-- `get_variable_stride`: the sizes of the arrays, and what is in them. -/
def getVariableStride : Datatype → List Nat × Datatype
  | .array subtype size _ _ _ =>
    (size :: (getVariableStride subtype).1, (getVariableStride subtype).2)
  | t => ([], t)

/-- `nc_scalar_type` -/
def ncScalarType (s : Scalar) : Except Failure NcType :=
  match s.kind with
  | .signed =>
    match (Datatype.scalar s).buffersize with
    | 1 => .ok .char
    | 2 => .ok .short
    | 4 => .ok .int
    | 8 => .ok .int64
    | _ => .error (typeError "Decl_netcdf plugin: Unsupported signed scalar datatype")
  | .unsigned =>
    match (Datatype.scalar s).buffersize with
    | 1 => .ok .char
    | _ => .error (typeError "Decl_netcdf plugin: Unsupported unsigned scalar datatype")
  | .float =>
    match (Datatype.scalar s).buffersize with
    | 4 => .ok .float
    | 8 => .ok .double
    | _ => .error (typeError "Decl_netcdf plugin: Unsupported float scalar datatype")
  | .unknown => .error (typeError
      ("Decl_netcdf plugin: Unsupported unknown scalar datatype: " ++ debugString (.scalar s)))

/-! ## The open file -/

/-- What the texts of messages and the names of compound types depend on. -/
structure Library (κ : Type) where
  strerror : NcError → String
  /-- The number that a group has got. -/
  ncId : GroupId → String
  /-- The number that a type has got. -/
  typeId : NcType → String
  /-- The value of an attribute that holds an expression. -/
  evaluate : κ → String → Except Failure String
  /-- A dataset in chunks, of the sizes that the library finds for its dimensions. -/
  chunkConstruct : List NcDim → Nat → Except NcError Unit

/-- A `Dnc_netcdf_file`. -/
structure Opened where
  filename : String
  writable : Bool
  /-- `m_groups` -/
  groups : List (String × GroupId)
  /-- `m_variables`, with the name that the variable has in its group. -/
  vars : List (String × String)
  /-- What the file held when it was opened. -/
  stored : NcFile

structure FileState where
  files : String → Option NcFile
  opened : Option Opened
  memory : Mem Byte

abbrev FileM (α : Type) := EStateM Failure FileState α

/-- Shared data, and the rights that can be had on it. -/
structure Ref where
  data : Nat
  type : Datatype
  readable : Bool
  writable : Bool

def FileState.setFile (s : FileState) (name : String) (f : NcFile) : FileState :=
  { s with files := fun n => if n = name then some f else s.files n }

def theOpened : FileM Opened := do
  match (← get).opened with
  | some o => pure o
  | none => throw (.undefined "file that is not open")

/-- A call of the NetCDF library on the open file. -/
def call (x : Bool → NcFile → Except Failure (α × NcFile)) : FileM α := fun s =>
  match s.opened with
  | none => .error (.undefined "file that is not open") s
  | some o =>
    match s.files o.filename with
    | none => .error (.undefined "file that does not exist") s
    | some f =>
      match x o.writable f with
      | .ok (a, f) => .ok a (s.setFile o.filename f)
      | .error e => .error e s

/-- `std::unordered_map::emplace` keeps what is there. -/
def emplace (key : String) (value : α) (table : List (String × α)) : List (String × α) :=
  if (table.lookup key).isSome then table else table ++ [(key, value)]

def emplaceGroup (path : String) (g : GroupId) : FileM Unit :=
  modify fun s => { s with opened := s.opened.map fun o =>
    { o with groups := emplace path g o.groups } }

def emplaceVariable (path name : String) : FileM Unit :=
  modify fun s =>
    { s with opened := s.opened.map fun o => { o with vars := emplace path name o.vars } }

section Methods

variable {κ : Type} (lib : Library κ) (ctx : κ)

/-- `nc_try` -/
def ncTry (context : String) (x : Except NcError α) : Except Failure α :=
  match x with
  | .ok a => .ok a
  | .error e => .error (valueError ("in NetCDF, " ++ context ++ ": " ++ lib.strerror e))

def inId (g : GroupId) : String := "(nc_id = " ++ lib.ncId g ++ ")"

/-- The constructor. A file that cannot be opened is created. -/
def openFile (name : String) (write : Bool) : FileM Unit := modify fun s =>
  match s.files name with
  | some f => { s with opened := some ⟨name, write, [("/", [])], [], f⟩ }
  | none => { s.setFile name .empty with opened := some ⟨name, true, [("/", [])], [], .empty⟩ }

/-- The destructor. -/
def closeFile : FileM Unit := modify fun s => { s with opened := none }

/-! ### Groups -/

def readSubgroup (dest : GroupId) (name : String) (_ : Bool) (f : NcFile) :
    Except Failure (GroupId × NcFile) := do
  let g ← ncTry lib ("cannot read `" ++ name ++ "' group from " ++ inId lib dest)
    (f.inqGrp dest name)
  return (g, f)

/-- The loop over the parts of a group path. -/
def walkGroups (enter : GroupId → String → Bool → NcFile → Except Failure (GroupId × NcFile)) :
    (dest : GroupId) → (destPath : String) → List String → FileM Unit
  | _, _, [] => pure ()
  | dest, destPath, name :: rest => do
    let g ← call (enter dest name)
    emplaceGroup (destPath ++ "/" ++ name) g
    walkGroups enter g (destPath ++ "/" ++ name) rest

def readGroup (path : String) : FileM Unit :=
  walkGroups (readSubgroup lib) [] "" (splitToGroups path)

/-- The group of a path, walked to if it is not in the table. -/
def groupFor (walk : String → FileM Unit) (path : String) : FileM GroupId := do
  match (← theOpened).groups.lookup path with
  | some g => pure g
  | none => do
    walk path
    match (← theOpened).groups.lookup path with
    | some g => pure g
    | none => throw (.undefined "entry at the end of a table")

/-! ### Definitions -/

/-- The attribute that names a compound type. -/
def compoundName (type : Datatype) (attributes : Attributes) : Except Failure String :=
  let failure := valueError
    ("Cannot get `decl_netcdf.type' attribute from: " ++ debugString type)
  match attributes.lookup "decl_netcdf.type" with
  | none => .error failure
  | some text =>
    match lib.evaluate ctx text with
    | .ok name => .ok name
    | .error (.undefined what) => .error (.undefined what)
    | .error _ => .error failure

def holdsRecord : Datatype → Bool
  | .array subtype _ _ _ _ => holdsRecord subtype
  | .record _ _ _ => true
  | _ => false

mutual
/-- `define_compound_type`, for a record; an array stands for the record in it. -/
def defineCompoundType : Datatype → FileM NcType
  | .record members buffersize attributes => do
    let name ← outcome (compoundName lib ctx (.record members buffersize attributes) attributes)
    let known ← call fun _ f => .ok ((f.types name).isSome, f)
    if known then pure (.compound name)
    else do
      defineSubCompounds members
      call fun writable f => do
        let f ← ncTry lib "cannot define record type" (f.defCompound writable name buffersize)
        return ((), f)
      insertMembers name members
      pure (.compound name)
  | .array subtype _ _ _ _ => defineCompoundType subtype
  | .scalar s => outcome (ncScalarType s)
  | t => throw (permissionError ("Decl_netcdf plugin: Not supported datatype: " ++ debugString t))

/-- The records among the members come first. -/
def defineSubCompounds : Members → FileM Unit
  | .nil => pure ()
  | .cons _ type _ rest => do
    if holdsRecord type then do
      let _ ← defineCompoundType type
      defineSubCompounds rest
    else defineSubCompounds rest

def insertMembers (name : String) : Members → FileM Unit
  | .nil => pure ()
  | .cons displacement type member rest => do
    let memberType ← defineCompoundType type
    call fun _ f => .ok ((), f.insertCompound name
      ⟨member, displacement, memberType, (getVariableStride type).1⟩)
    insertMembers name rest
end

/-- The names of the dimensions, made from the one of the variable if there are none. -/
def dimensions (variableName : String) (sizes : List Nat) (names : List String) :
    Except Failure (List (String × Nat)) :=
  if names.isEmpty then
    .ok (sizes.mapIdx fun i size => (variableName ++ "_" ++ toString i, size))
  else if sizes.length ≠ names.length then
    .error (valueError ("Decl_netcdf plugin: Variable type dimension (" ++ toString sizes.length ++
      ") != defined variable dimensions (" ++ toString names.length ++ ")"))
  else .ok (names.zip sizes)

def Variable.names (v : Variable κ) : Except Failure (List String) := v.dimensionsNames.mapM (· ctx)

def Variable.evaluatedType (v : Variable κ) : Except Failure (Option Datatype) :=
  match v.type with
  | none => .ok none
  | some e => (e ctx).map some

/-- `read_variable` -/
def readVariable (v : Variable κ) : FileM Unit := do
  if ((← theOpened).vars.lookup v.path).isSome then pure ()
  else do
    let parts := splitGroupAndVariable v.path
    let src ← groupFor (readGroup lib) parts.1
    call fun _ f =>
      if (f.vars src parts.2).isSome then .ok ((), f)
      else .error (valueError ("in NetCDF, cannot inquire variable `" ++ parts.2 ++ "' from " ++
        inId lib src ++ ": " ++ lib.strerror .enotvar))
    emplaceVariable v.path parts.2

/-! ### The end of define mode -/

/-- `H5D__contig_construct`, the size of a dataset in one piece. The elements are counted in 64
bits, as a signed number; a count that has wrapped goes unseen. -/
def contigConstruct (elements width : Nat) : Except Failure Unit :=
  let count := elements % 2 ^ 64
  if 2 ^ 63 ≤ count ∨ 2 ^ 64 ≤ count * width then
    ncTry lib "cannot end define mode" (.error .ehdferr)
  else if 2 ^ 64 ≤ elements then .error (.undefined "dataset that is smaller than its extent")
  else .ok ()

/-- The first dimension of a variable with its name and in its group. -/
def isCoordinate (g : GroupId) (name : String) (ids : List DimId) (id : DimId) : Bool :=
  id = (g, name) && ids.head? = some id

/-- `nc4_create_dim_wo_var`: a new dimension is a dataset of floats, unless a variable takes
that place. -/
def createScale (stored f : NcFile) (g : GroupId) (name : String) (ids : List DimId) (id : DimId) :
    Except Failure Unit :=
  match f.dims id.1 id.2 with
  | some (.fixed n) =>
    if (stored.dims id.1 id.2).isSome || isCoordinate g name ids id then .ok ()
    else contigConstruct lib n 4
  | _ => .ok ()

/-- `var_create_dataset`. Only variables without unlimited dimensions are in one piece. -/
def createVariable (f : NcFile) (ids : List DimId) (width : Nat) : Except Failure Unit :=
  if (f.extents ids).any NcDim.isUnlimited then
    ncTry lib "cannot end define mode" (lib.chunkConstruct (f.extents ids) width)
  else contigConstruct lib (f.shape ids).prod width

/-- The datasets of a variable that the file did not hold when it was opened. -/
def createDatasets (stored f : NcFile) (g : GroupId) (name : String) : Except Failure Unit :=
  match stored.vars g name, f.vars g name with
  | none, some v => do
    v.dims.forM (createScale lib stored f g name v.dims)
    createVariable lib f v.dims v.width
  | _, _ => .ok ()

/-- `enddef`. All that has been defined is written to the file. -/
def enddef : FileM Unit := do
  let o ← theOpened
  call fun _ f => do
    o.vars.forM fun entry =>
      match o.groups.lookup (splitGroupAndVariable entry.1).1 with
      | some g => createDatasets lib o.stored f g entry.2
      | none => .ok ()
    return ((), f)

/-! ### Transfers -/

/-- `(size_t)n`, for a `long`. -/
def toSizeT (n : Int) : Nat := (n % 18446744073709551616).toNat

/-- `get_dims_start` and `get_dims_count` -/
def dimsOf (what : String) (given : List (Evaluated κ Int)) (default : List Nat) (rank : Nat) :
    Except Failure (List Nat) :=
  if given.isEmpty then .ok default
  else if given.length ≠ rank then
    .error (permissionError ("Decl_netcdf plugin: Dimensions of stride and " ++
      what ++ " differ: " ++
      toString given.length ++ " != " ++ toString rank))
  else given.mapM fun e => (e ctx).map toSizeT

def Io.getDimsStart (io : Io κ) (stride : List Nat) : Except Failure (List Nat) :=
  dimsOf ctx "start" io.start (stride.map fun _ => 0) stride.length

def Io.getDimsCount (io : Io κ) (stride : List Nat) : Except Failure (List Nat) :=
  dimsOf ctx "subsize" io.subsize stride stride.length

/-- `get_variable_stride` of the type of a variable; it follows a null pointer as an empty
chain of arrays. -/
def Variable.stride (v : Variable κ) : Except Failure (List Nat) :=
  (v.evaluatedType ctx).map fun t => (t.map fun t => (getVariableStride t).1).getD []

/-- The group and the name of a variable that has been defined or read. -/
def find (v : Variable κ) : FileM (GroupId × String) := do
  let path := (splitGroupAndVariable v.path).1
  match (← theOpened).groups.lookup path with
  | none => throw (valueError
      ("Decl_netcdf plugin: Cannot find group that should be created: " ++ path))
  | some g =>
    match (← theOpened).vars.lookup v.path with
    | none => throw (valueError
        ("Decl_netcdf plugin: Cannot find variable that should be created: " ++ v.path))
    | some name => pure (g, name)

/-- What the library takes from the vectors of a window: an entry for each dimension of the
variable. All of the variable if there are no vectors. -/
def window (f : NcFile) (v : NcVar) (stride start count : List Nat) :
    Except Failure (List Nat × List Nat) :=
  if stride.isEmpty then .ok ((f.shape v.dims).map fun _ => 0, f.shape v.dims)
  else if start.length < v.dims.length ∨ count.length < v.dims.length then
    .error (.undefined "entry past the end of a vector")
  else .ok (start.take v.dims.length, count.take v.dims.length)

def putCall (g : GroupId) (name : String) (stride start count : List Nat) (mem : Mem Byte) (a : Nat)
    (writable : Bool) (f : NcFile) : Except Failure (Unit × NcFile) :=
  let context := if stride.isEmpty then "Decl_netcdf plugin: Cannot write `" else "cannot write `"
  match f.vars g name with
  | none => .error (valueError ("in NetCDF, " ++ context ++ name ++ "' to " ++ inId lib g ++ ": " ++
      lib.strerror .enotvar))
  | some v => do
    let w ← window f v stride start count
    let f ← ncTry lib (context ++ name ++ "' to " ++ inId lib g)
      (f.putVara writable g name w.1 w.2 mem a)
    return ((), f)

/-- `put_variable` -/
def putVariable (v : Variable κ) (io : Io κ) (ref : Ref) : FileM Unit := do
  if !ref.readable then
    throw (permissionError ("Decl_netcdf plugin: Cannot write `" ++ v.path ++
      "'. Need read access to write it to file"))
  else do
    let place ← find v
    let stride ← outcome (v.stride ctx)
    let start ← outcome (io.getDimsStart ctx stride)
    let count ← outcome (io.getDimsCount ctx stride)
    let mem := (← get).memory
    call (putCall lib place.1 place.2 stride start count mem ref.data)

/-- The check on the type of a variable that is read into a scalar. -/
def checkScalar (name : String) (s : Scalar) (type : NcType) (size : Nat) : Except Failure Unit :=
  let sizes := " of size " ++ toString size ++ " for a buffer of size " ++
    toString (Datatype.scalar s).datasize
  match s.kind with
  | .signed =>
    if type = .byte ∨ type = .short ∨ type = .int ∨ type = .int64 then
      if (Datatype.scalar s).datasize ≠ size then .error (typeError
        ("Decl_netcdf plugin: Datatype mismatch (with size): read '" ++ name ++ "'" ++ sizes))
      else .ok ()
    else .error (typeError
      ("Decl_netcdf plugin: Datatype mismatch (with sign): buffer is of signed " ++
      "scalar type while read '" ++ name ++
      "' is neither NC_BYTE, NC_SHORT, NC_INT, nor NC_INT64."))
  | .unsigned =>
    if type = .ubyte ∨ type = .ushort ∨ type = .uint ∨ type = .uint64 then
      if (Datatype.scalar s).datasize ≠ size then .error (typeError
        ("Decl_netcdf plugin: Datatype mismatch: read '" ++ name ++ "'" ++ sizes))
      else .ok ()
    else .error (typeError ("Decl_netcdf plugin: Datatype mismatch (with sign): buffer is of " ++
      "unsigned scalar type while read '" ++ name ++
      "' is neither NC_UBYTE, NC_USHORT, NC_UINT, nor NC_UINT64."))
  | .float =>
    if (Datatype.scalar s).datasize ≠ size then .error (typeError
      ("Decl_netcdf plugin: Datatype mismatch (with size): read '" ++ name ++ "'" ++ sizes))
    else .ok ()
  | .unknown => .error (typeError ("Can not read `" ++ name ++ "' : buffer has unknown type"))

/-- The checks on a variable that is read into data of a type. -/
def checkTarget (name : String) (type : Datatype) (v : NcVar) : Except Failure Unit :=
  match type with
  | .scalar s => do
    let size ← ncTry lib ("can not inquire the size of `" ++ lib.typeId v.type ++ "'")
      v.type.atomicSize
    checkScalar name s v.type size
  | _ => .ok ()

def getCall (path : String) (g : GroupId) (name : String) (type : Datatype)
    (stride start count : List Nat) (_ : Bool) (f : NcFile) : Except Failure (List Byte × NcFile) :=
  match f.vars g name with
  | none => .error (valueError ("in NetCDF, cannot read `" ++ path ++ "' from file: " ++
      lib.strerror .enotvar))
  | some v => do
    checkTarget lib name type v
    let w ← window f v stride start count
    let data ← ncTry lib ("cannot read `" ++ path ++ "' from file") (f.getVara g name w.1 w.2)
    return (data, f)

/-- `get_variable` -/
def getVariable (v : Variable κ) (io : Io κ) (ref : Ref) : FileM Unit := do
  if !ref.writable then
    throw (permissionError ("Decl_netcdf plugin: Cannot read `" ++ v.path ++
      "'. Need write access to read it from file"))
  else do
    let stride ← outcome (v.stride ctx)
    let start ← outcome (io.getDimsStart ctx stride)
    let count ← outcome (io.getDimsCount ctx stride)
    let place ← find v
    let data ← call (getCall lib v.path place.1 place.2 ref.type stride start count)
    modify fun s => { s with memory := Hdf5.poke s.memory ref.data data }

end Methods

end Pdi.Netcdf
