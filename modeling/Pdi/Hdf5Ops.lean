import Pdi.Effect
import Pdi.Hdf5

/-!
# Operations of the HDF5 plugin

A file operation opens a file, runs its dataset operations and closes it. A dataset
operation maps the datatype of shared data to an HDF5 type and a dataspace, applies the
configured selections, and reads or writes. What happens to a file or dataset that
exists already is a matter of the collision policy.

What expressions evaluate to is a matter of the context `κ`. Attributes are operations
of their own, given as they are. Communicators, chunking and filters are left out, and
so are the messages of the log that only trace the progress.
-/
namespace Pdi.Hdf5

open Pdi.Datatypes Pdi.Memory Pdi.Effect

def spectreeError (message : String) : Failure := .error .spectree message

/-! ## Dataspaces of datatypes -/

/-- `H5T_NATIVE_INT8` and its like. -/
def scalarH5Type (s : Scalar) : Except Failure H5Type :=
  match s.kind with
  | .unsigned =>
    if s.size = 1 ∨ s.size = 2 ∨ s.size = 4 ∨ s.size = 8 then .ok (.integer false s.size)
    else .error (typeError ("Invalid size for HDF5 signed: #" ++ toString s.size))
  | .signed =>
    if s.size = 1 ∨ s.size = 2 ∨ s.size = 4 ∨ s.size = 8 then .ok (.integer true s.size)
    else .error (typeError ("Invalid size for HDF5 unsigned: #" ++ toString s.size))
  | .float =>
    if s.size = 4 ∨ s.size = 8 ∨ s.size = 16 then .ok (.float s.size)
    else .error (typeError ("Invalid size for HDF5 float: #" ++ toString s.size))
  | .unknown => .error (typeError "Invalid type for HDF5: #0")

/-- The type of an element, in an array of the dimensions met before it. -/
def inArray (dims : List Nat) (element : Option H5Type) : Option H5Type :=
  if dims = [] then element else arrayCreate element dims

mutual
/-- `get_h5_type`, with the sizes of the arrays that have been entered. -/
def getH5TypeIn (dims : List Nat) : Datatype → Except Failure (Option H5Type)
  | .record members buffersize _ => do
    return inArray dims (← insertMembers (compoundCreate buffersize) members)
  | .array subtype size _ _ _ => getH5TypeIn (dims ++ [size]) subtype
  | .scalar s => do
    return inArray dims (some (← scalarH5Type s))
  | _ => .error (.error .impl "Unexpected type in HDF5")

def insertMembers (parent : Option H5Type) : Members → Except Failure (Option H5Type)
  | .nil => .ok parent
  | .cons displacement type name rest => do
    insertMembers (insertMember parent name displacement (← getH5TypeIn [] type)) rest
end

def getH5Type (type : Datatype) : Except Failure (Option H5Type) := getH5TypeIn [] type

/-- One dimension of an array. -/
structure Dim where
  size : Nat
  start : Nat
  subsize : Nat
  deriving DecidableEq, Repr

/-- The arrays that a type is made of, and what they hold. -/
def Datatype.dims : Datatype → List Dim
  | .array subtype size start subsize _ => ⟨size, start, subsize⟩ :: Datatype.dims subtype
  | _ => []

def Datatype.element : Datatype → Datatype
  | .array subtype _ _ _ _ => Datatype.element subtype
  | t => t

/-- `space` -/
def space (type : Datatype) (dense : Bool) : Except Failure (Dataspace × Option H5Type) := do
  let dims := Datatype.dims type
  let subtype := Datatype.element type
  if !subtype.dense then
    throw (typeError "The top array datatype is the only one that can be sparse in dataset")
  if dims = [] then
    match ← getH5Type subtype with
    | some t => return (.scalar, some t)
    | none => throw (handleHdf5Err "")
  else
    let subsizes := dims.map Dim.subsize
    let space ← Dataspace.simple (if dense then subsizes else dims.map Dim.size)
    let space ← space.selectHyperslab (if dense then dims.map fun _ => 0 else dims.map Dim.start)
      subsizes
    return (space, ← getH5Type subtype)

/-! ## Selections -/

section

variable {κ : Type}

structure Selection (κ : Type) where
  size : List (κ → Except Failure Int)
  start : List (κ → Except Failure Int)

/-- A `long` as an `hsize_t`. -/
def hsize (v : Int) : Nat := (v % 18446744073709551616).toNat

/-- From the first and the last index to the number of indices. -/
def counts (bounds : List Nat × List Nat) : List Nat :=
  List.zipWith (fun start stop => sizeSub stop start + 1) bounds.1 bounds.2

/-- The sizes that a selection asks for, by itself or by the space it has to match. -/
def Selection.sizes (sel : Selection κ) (ctx : κ) (space : Dataspace) (dflt : Option Dataspace)
    (subsize : List Nat) : Except Failure (List Nat) :=
  if sel.size ≠ [] then
    if sel.size.length ≠ space.rank then
      .error (spectreeError
        ("Invalid selection: " ++ toString sel.size.length ++ " selection in " ++
        toString space.rank ++ " array"))
    else sel.size.mapM fun e => (e ctx).map hsize
  else match dflt with
    | none => .ok subsize
    | some dflt =>
      if dflt.rank ≠ space.rank then
        if space.npoints = dflt.npoints then .ok subsize
        else .error (spectreeError ("Invalid default selection: " ++ toString dflt.rank ++
          " selection in " ++ toString space.rank ++ " array"))
      else do return counts (← dflt.bounds)

def Selection.starts (sel : Selection κ) (ctx : κ) (space : Dataspace) (start : List Nat) :
    Except Failure (List Nat) :=
  if sel.start ≠ [] then
    if sel.start.length ≠ space.rank then
      .error (spectreeError ("Invalid selection: " ++ toString sel.size.length ++ " start in " ++
        toString space.rank ++ " array"))
    else do
      let offsets ← sel.start.mapM fun e => e ctx
      return List.zipWith (fun s o => hsize (s + o)) start offsets
  else .ok start

/-- `Selection::apply` -/
def Selection.apply (sel : Selection κ) (ctx : κ) (space : Dataspace) (dflt : Option Dataspace) :
    Except Failure Dataspace :=
  if space.rank = 0 then .ok space
  else do
    let bounds ← space.bounds
    let subsize ← sel.sizes ctx space dflt (counts bounds)
    let start ← sel.starts ctx space bounds.1
    space.selectHyperslab start subsize

end

/-- The text of one space in the error below. -/
def describe (space : Dataspace) : Except Failure String := do
  let bounds ← space.bounds
  return String.join ((List.zip (List.zip bounds.1 bounds.2) space.extent).map fun x =>
    " (" ++ toString x.1.1 ++ "-" ++ toString x.1.2 ++ "/0-" ++ toString (sizeSub x.2 1) ++ ")")

/-- `validate_dataspaces` -/
def validateDataspaces (memSpace fileSpace : Dataspace) (name : String) : Except Failure Unit :=
  if memSpace.npoints = fileSpace.npoints then .ok ()
  else do
    let memory ← describe memSpace
    let file ← describe fileSpace
    throw (spectreeError ("Incompatible selections while writing `" ++ name ++ "': [" ++ memory ++
      " ] -> [" ++ file ++ " ]"))

/-! ## Collision policies -/

/-- `Collision_policy`: a set of bits. -/
abbrev CollisionPolicy := BitVec 8

namespace CollisionPolicy

def warning : CollisionPolicy := 1
def skip : CollisionPolicy := 2
def replace : CollisionPolicy := 4
def writeInto : CollisionPolicy := 8
def error : CollisionPolicy := 16

/-- `operator&` -/
def has (a b : CollisionPolicy) : Bool := a &&& b != 0

end CollisionPolicy

/-- `to_collision_policy` -/
def toCollisionPolicy (text : String) : Except Failure CollisionPolicy :=
  let text := String.ofList (text.toList.map Char.toUpper)
  if text = "SKIP" then .ok .skip
  else if text = "SKIP_AND_WARN" then .ok (.skip ||| .warning)
  else if text = "REPLACE" then .ok .replace
  else if text = "REPLACE_AND_WARN" then .ok (.replace ||| .warning)
  else if text = "WRITE_INTO" then .ok .writeInto
  else if text = "WRITE_INTO_AND_WARN" then .ok (.writeInto ||| .warning)
  else if text = "ERROR" then .ok .error
  else .error (valueError ("Unknown collision policy: " ++ text))

/-! ## Operations -/

/-- The files, and the memory that holds the shared data. -/
structure Storage where
  files : String → Option File
  memory : Mem Byte

inductive Level where
  | trace | warn
  deriving DecidableEq, Repr

structure State where
  storage : Storage
  log : List (Level × String)

abbrev Driver (α : Type) := EStateM Failure State α

/-- A reference to shared data. -/
structure Ref where
  address : Nat
  type : Datatype

/-- `ctx[name].ref()`, converted to a reference with the right to read or to write; `none`
is a null reference. -/
structure Sharing (κ : Type) where
  readable : κ → String → Except Failure (Option Ref)
  writable : κ → String → Except Failure (Option Ref)

inductive Direction where
  | read | write
  deriving DecidableEq, Repr

/-- `Attribute_op`, with what it does to a file. -/
structure AttributeOp (κ : Type) where
  direction : Direction
  name : String
  when : κ → Except Failure Int
  execute : κ → String → EStateM Failure Storage Unit

/-- `Dataset_explicit_type`; `place` is the text of its lines. -/
structure ExplicitType (κ : Type) where
  definition : String
  place : String
  regexMatch : String → Bool
  type : κ → Except Failure Datatype

structure DatasetOp (κ : Type) where
  collisionPolicy : CollisionPolicy
  direction : Direction
  dataset : κ → Except Failure String
  value : String
  when : κ → Except Failure Int
  memorySelection : Selection κ
  datasetSelection : Selection κ
  attributes : List (AttributeOp κ)

structure FileOp (κ : Type) where
  collisionPolicy : CollisionPolicy
  file : κ → Except Failure String
  datasets : List (ExplicitType κ)
  datasetOps : List (DatasetOp κ)
  attributeOps : List (AttributeOp κ)
  datasetSizeOps : List (String × (κ → Except Failure String))

section Driver

variable {κ : Type}

def note (level : Level) (message : String) : Driver Unit :=
  modify fun s => { s with log := s.log ++ [(level, message)] }

/-- A computation that does not look at the log. -/
def onStorage {α : Type} (x : EStateM Failure Storage α) : Driver α := fun s =>
  match x.run s.storage with
  | .ok a storage => .ok a { s with storage := storage }
  | .error e storage => .error e { s with storage := storage }

/-- The level on which a collision is reported. -/
def CollisionPolicy.level (policy : CollisionPolicy) : Level :=
  if policy.has .warning then .warn else .trace

/-- The datasets of an open file. -/
def Storage.datasets (s : Storage) (file : String) : File := (s.files file).getD fun _ => none

def Storage.setFile (s : Storage) (file : String) (content : Option File) : Storage :=
  { s with files := fun f => if f = file then content else s.files f }

def Storage.setDataset (s : Storage) (file name : String) (set : Option Dataset) : Storage :=
  s.setFile file (some fun n => if n = name then set else s.datasets file n)

def lookupDataset (file name : String) : EStateM Failure Storage (Option Dataset) := do
  return (← get).datasets file name

theorem run_lookupDataset (file name : String) (s : State) :
    (onStorage (lookupDataset file name)).run s = .ok (s.storage.datasets file name) s := rfl

/-- `H5Dcreate2` -/
def createDataset (file name : String) (type : Option H5Type) (space : Dataspace)
    (failure : Failure) : EStateM Failure Storage Unit := do
  match Dataset.create type space with
  | some set => modify fun s => s.setDataset file name (some set)
  | none => throw failure

variable (lib : Library) (share : Sharing κ)

/-- Everything a transfer needs besides the dataset. -/
structure Transfer where
  ref : Ref
  memSpace : Dataspace
  memType : Option H5Type
  fileSpace : Dataspace
  fileType : Option H5Type

/-- The explicit type of a dataset, if one of the list matches. -/
def explicitType (dsets : List (ExplicitType κ)) (name : String) :
    Except Failure (Option (ExplicitType κ)) :=
  match dsets.filter fun d => d.regexMatch name with
  | [] => .ok none
  | [d] => .ok (some d)
  | found => .error (.error .invalidAction ("found " ++ toString found.length ++
      " regexes in the \"datasets:\" list that match the dataset `" ++ name ++ "' to write:\n - " ++
      "\n - ".intercalate (found.map fun d => d.definition ++ d.place)))

/-- The space and the type of the dataset: explicit ones, or those of the data. -/
def DatasetOp.fileSpace (op : DatasetOp κ) (dsets : List (ExplicitType κ)) (ctx : κ) (name : String)
    (type : Datatype) (memSpace : Dataspace) : Except Failure (Dataspace × Option H5Type) := do
  match ← explicitType dsets name with
  | some d =>
    let (fileSpace, fileType) ← space (← d.type ctx) false
    return (← op.datasetSelection.apply ctx fileSpace (some memSpace), fileType)
  | none =>
    if op.datasetSelection.size ≠ [] then
      throw (spectreeError ("Dataset selection is invalid for implicit dataset `" ++ name ++ "'"))
    else space type true

/-- The first part of `do_write`, up to the opening of the dataset. -/
def DatasetOp.prepareWrite (op : DatasetOp κ) (dsets : List (ExplicitType κ)) (ctx : κ)
    (name : String) (ref : Ref) : Except Failure Transfer := do
  let (memSpace, memType) ← space ref.type false
  let memSpace ← op.memorySelection.apply ctx memSpace none
  let (fileSpace, fileType) ← op.fileSpace dsets ctx name ref.type memSpace
  validateDataspaces memSpace fileSpace name
  return ⟨ref, memSpace, memType, fileSpace, fileType⟩

/-- The dataset to write to is there now, unless the result is `false`: then nothing is
to be done. -/
def DatasetOp.openForWriting (op : DatasetOp κ) (file name : String) (t : Transfer) :
    Driver Bool := do
  let collision (message : String) : Driver Unit :=
    note op.collisionPolicy.level ("Dataset collision `" ++ name ++ "': " ++ message)
  match ← onStorage (lookupDataset file name) with
  | none => do
    onStorage (createDataset file name t.fileType t.fileSpace (handleHdf5Err ""))
    return true
  | some _ =>
    if op.collisionPolicy.has .skip then do
      collision "Skipping"
      return false
    else if op.collisionPolicy = .replace then do
      collision "Deleting old dataset and creating a new one"
      onStorage (modify fun s => s.setDataset file name none)
      onStorage (createDataset file name t.fileType t.fileSpace
        (systemError ("Dataset collision `" ++
        name ++ "': Cannot create a dataset after deleting old one")))
      return true
    else if op.collisionPolicy = .error then
      throw (systemError ("Dataset collision `" ++ name ++ "': Dataset already exists"))
    else do
      collision "Writing into exisiting dataset"
      return true

/-- `H5Dwrite` on the dataset of that name. -/
def writeDataset (file name : String) (t : Transfer) : EStateM Failure Storage Unit := do
  let s ← get
  match s.datasets file name, t.memType with
  | some set, some memType =>
    let set ← outcome (set.write lib memType t.memSpace t.fileSpace t.ref.address s.memory)
    modify fun s => s.setDataset file name (some set)
  | _, _ => throw (handleHdf5Err "")

/-- `H5Dread` on the dataset of that name. -/
def readDataset (set : Dataset) (t : Transfer) : EStateM Failure Storage Unit := do
  match t.memType with
  | some memType =>
    let memory ← outcome (set.read lib memType t.memSpace t.fileSpace t.ref.address (← get).memory)
    modify fun s => { s with memory := memory }
  | none => throw (handleHdf5Err "")

/-- `Dataset_op::do_write` -/
def DatasetOp.doWrite (op : DatasetOp κ) (dsets : List (ExplicitType κ)) (ctx : κ)
    (file : String) : Driver Unit := do
  let name ← outcome (op.dataset ctx)
  match ← outcome (share.readable ctx op.value) with
  | none =>
    note .warn ("Cannot write `" ++ name ++ "' dataset: `" ++ op.value ++ "' data not available")
  | some ref => do
    let t ← outcome (op.prepareWrite dsets ctx name ref)
    if ← op.openForWriting file name t then do
      onStorage (writeDataset lib file name t)
      each (fun attr => onStorage (attr.execute ctx file)) op.attributes

/-- The part of `do_read` between the opening of the dataset and the transfer. -/
def DatasetOp.prepareRead (op : DatasetOp κ) (ctx : κ) (name : String) (ref : Ref)
    (memSpace : Dataspace) (memType : Option H5Type) (set : Dataset) : Except Failure Transfer := do
  let fileSpace ← op.datasetSelection.apply ctx set.space (some memSpace)
  validateDataspaces memSpace fileSpace name
  return ⟨ref, memSpace, memType, fileSpace, some set.type⟩

/-- `Dataset_op::do_read` -/
def DatasetOp.doRead (op : DatasetOp κ) (ctx : κ) (file : String) : Driver Unit := do
  let name ← outcome (op.dataset ctx)
  match ← outcome (share.writable ctx op.value) with
  | none =>
    note .warn ("Cannot read `" ++ name ++ "' dataset: `" ++ op.value ++ "' data not available")
  | some ref => do
    let (memSpace, memType) ← outcome (space ref.type false)
    let memSpace ← outcome (op.memorySelection.apply ctx memSpace none)
    match ← onStorage (lookupDataset file name) with
    | none => throw (handleHdf5Err ("Cannot open `" ++ name ++ "' dataset"))
    | some set => do
      let t ← outcome (op.prepareRead ctx name ref memSpace memType set)
      onStorage (readDataset lib set t)
      each (fun attr => onStorage (attr.execute ctx file)) op.attributes

/-- `Dataset_op::execute` -/
def DatasetOp.execute (op : DatasetOp κ) (dsets : List (ExplicitType κ)) (ctx : κ)
    (file : String) : Driver Unit :=
  match op.direction with
  | .read => op.doRead lib share ctx file
  | .write => op.doWrite lib share dsets ctx file

/-- The text of a `Value_error`. -/
def valueMessage : Failure → Option String
  | .error .value what => some what
  | _ => none

/-- The operations whose condition holds; one that cannot be evaluated is left out. -/
def selected {α : Type} (when : α → Except Failure Int) (name : α → String) :
    List α → Driver (List α)
  | [] => pure []
  | a :: as =>
    match when a with
    | .ok n => do
      let rest ← selected when name as
      pure (if n ≠ 0 then a :: rest else rest)
    | .error e =>
      match valueMessage e with
      | some what => do
        note .warn ("Unable to evaluate \"when\" close while executing transfer for " ++ name a ++
          ": `" ++ what ++ "'")
        selected when name as
      | none => throw e

/-- `H5Fopen` of a file that has to be there. -/
def openExisting (filename : String) : EStateM Failure Storage Unit := do
  if ((← get).files filename).isNone then
    throw (handleHdf5Err ("Cannot open `" ++ filename ++ "' file"))

/-- The file to write to is open now, unless the result is `false`: then nothing is to be
done. -/
def FileOp.openForWriting (op : FileOp κ) (filename : String) : Driver Bool := do
  let collision (message : String) : Driver Unit :=
    note op.collisionPolicy.level ("File `" ++ filename ++ "' already exists: " ++ message)
  let create : EStateM Failure Storage Unit :=
    modify fun s => s.setFile filename (some fun _ => none)
  let there ← onStorage do return ((← get).files filename).isSome
  if !there then do
    onStorage create
    return true
  else if op.collisionPolicy.has .skip then do
    collision "Skipping"
    return false
  else if op.collisionPolicy.has .replace then do
    collision "Deleting old file and creating a new one"
    onStorage create
    return true
  else if op.collisionPolicy.has .error then
    throw (systemError ("Filename collision `" ++ filename ++ "': File already exists"))
  else do
    collision "Writing into existing file"
    return true

/-- The file is opened for what is to be done in it. -/
def FileOp.openFor (op : FileOp κ) (filename : String) (writing reading : Bool) : Driver Bool :=
  if writing && !reading then op.openForWriting filename
  else do
    onStorage (openExisting filename)
    return true

/-- A `long` in memory, lowest byte first. -/
def longBytes (v : Nat) : List Byte := (List.range 8).map fun i => UInt8.ofNat (v / 256 ^ i)

/-- The extent of a dataset, stored as `long`s one after the other. -/
def storeExtent (mem : Mem Byte) (address : Nat) (extent : List Nat) : Mem Byte :=
  poke mem address (extent.flatMap longBytes)

/-- The last loop of `File_op::execute`: data that is not there ends it. -/
def getSizes (ctx : κ) (file : String) : List (String × (κ → Except Failure String)) → Driver Unit
  | [] => pure ()
  | (desc, dataset) :: rest => do
    let name ← outcome (dataset ctx)
    match ← outcome (share.writable ctx desc) with
    | none => note .warn ("Data `" ++ desc ++ "' to read size of dataset not available")
    | some ref => do
      match ← onStorage (lookupDataset file name) with
      | none => throw (handleHdf5Err "")
      | some set =>
        onStorage (modify fun s =>
          { s with memory := storeExtent s.memory ref.address set.extent })
      getSizes ctx file rest

/-- What is to be done in an open file. -/
structure Plan (κ : Type) where
  filename : String
  writes : List (DatasetOp κ)
  reads : List (DatasetOp κ)
  attributeWrites : List (AttributeOp κ)
  attributeReads : List (AttributeOp κ)

/-- The first part of `File_op::execute`: the operations to carry out, with the file open
for them. -/
def FileOp.openFile (op : FileOp κ) (ctx : κ) : Driver (Option (Plan κ)) := do
  let datasetOps ← selected (fun o => o.when ctx) DatasetOp.value op.datasetOps
  let reads := datasetOps.filter fun o => o.direction = .read
  let writes := datasetOps.filter fun o => o.direction = .write
  let attributeOps ← selected (fun o => o.when ctx) AttributeOp.name op.attributeOps
  let attributeReads := attributeOps.filter fun o => o.direction = .read
  let attributeWrites := attributeOps.filter fun o => o.direction = .write
  if datasetOps.isEmpty && attributeOps.isEmpty && op.datasetSizeOps.isEmpty then pure none
  else do
    let filename ← outcome (op.file ctx)
    let writing := !writes.isEmpty || !attributeWrites.isEmpty
    let reading := !reads.isEmpty || !attributeReads.isEmpty
    let opened ← op.openFor filename writing reading
    pure (if opened then some ⟨filename, writes, reads, attributeWrites, attributeReads⟩ else none)

/-- The rest of `File_op::execute`. -/
def FileOp.perform (op : FileOp κ) (ctx : κ) (plan : Plan κ) : Driver Unit := do
  each (fun o => o.execute lib share op.datasets ctx plan.filename) plan.writes
  each (fun o => o.execute lib share op.datasets ctx plan.filename) plan.reads
  each (fun o => onStorage (o.execute ctx plan.filename)) plan.attributeWrites
  each (fun o => onStorage (o.execute ctx plan.filename)) plan.attributeReads
  getSizes share ctx plan.filename op.datasetSizeOps

/-- `File_op::execute` -/
def FileOp.execute (op : FileOp κ) (ctx : κ) : Driver Unit := do
  match ← op.openFile ctx with
  | none => pure ()
  | some plan => op.perform lib share ctx plan

end Driver

end Pdi.Hdf5
