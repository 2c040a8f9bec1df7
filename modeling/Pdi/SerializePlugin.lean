import Pdi.Descriptor
import Pdi.Serialize

/-!
# The serialize plugin

The plugin is a callback of the descriptor `source`. Each time data is shared
there, it shares a serialized copy on the descriptor `serialized` and registers
one more callback of its own, which takes the copy away when data is removed
from `source`. Removal callbacks are called from a list that is gathered before
the first of them runs, and each of the plugin's erases the one registered last.

Other callbacks of the two descriptors are other code; those of `source` are
called before and after the plugin. To call or to erase a callback that has been
erased is undefined, and so is the whole call then.
-/
namespace Pdi.SerializePlugin

open Pdi.Memory Pdi.Datatypes Pdi.Reference Pdi.Run Pdi.Descriptor

/-- `PDI_inout_t`: `PDI_IN`, `PDI_OUT` and `PDI_INOUT`. -/
inductive Inout where
  | input
  | output
  | both
  deriving DecidableEq

/-- The data is serialized when it is shared. -/
def Inout.reads : Inout → Bool
  | .input => false
  | _ => true

/-- The data is deserialized when it is removed. -/
def Inout.writes : Inout → Bool
  | .output => false
  | _ => true

/-- An element of `m_serialized_remove_callback`: the callback that its function
erases and the rights under which the data was serialized. -/
structure Entry where
  callback : Nat
  inout : Inout

/-- `callbacks` are those the plugin has registered for removals from `source`,
first registered first, each by its number among the `made`; `entries` is
`m_serialized_remove_callback`, last first. -/
structure World where
  heap : Heap
  source : DataDescriptor
  serialized : DataDescriptor
  callbacks : List Nat
  made : Nat
  entries : List Entry

def World.new (source serialized : DataDescriptor) (heap : Heap) : World :=
  ⟨heap, source, serialized, [], 0, []⟩

def World.onSource (w : World) : State := ⟨w.source, w.heap⟩
def World.onSerialized (w : World) : State := ⟨w.serialized, w.heap⟩

def World.setSource (w : World) (s : State) : World :=
  { w with source := s.toDataDescriptor, heap := s.heap }

def World.setSerialized (w : World) (s : State) : World :=
  { w with serialized := s.toDataDescriptor, heap := s.heap }

def World.react (w : World) (reaction : Reaction) : World :=
  { w with heap := run exec reaction.ops w.heap }

/-- The end of the life of a local reference. -/
def World.leave (w : World) (r : Nat) : World := { w with heap := w.heap.destroy r }

/-- A local reference `Ref_any<read, write>{r}` and the code in its scope, which
is given the content it refers to, if it is not null. -/
def World.scoped (w : World) (r : Nat) (read write : Bool)
    (body : World → Option Content → World × Option Failure) : World × Option Failure :=
  let held : World := { w with heap := w.heap.copyRef r read write }
  let (w', e) := body held (held.heap.content? w.heap.refs.length)
  (w'.leave w.heap.refs.length, e)

/-- `on_data_remove`, and the new element of `m_serialized_remove_callback`. -/
def World.register (w : World) (inout : Inout) : World :=
  { w with
    callbacks := w.callbacks ++ [w.made]
    made := w.made + 1
    entries := ⟨w.made, inout⟩ :: w.entries }

/-- The new buffer is filled if the data may be read. -/
def fill (inout : Inout) (name : String) (k : Content) (buffer : Nat) (mem : Mem Byte) :
    Mem Byte × Option Failure :=
  if inout.reads then
    let (mem, copied) := k.type.serializeCopy mem mem buffer k.data
    if copied = k.type.serializeType.datasize then (mem, none)
    else (mem, some (valueError ("Serialize plugin: `" ++ name ++ "' Serialized " ++
      toString copied ++ " B of " ++ toString k.type.serializeType.buffersize ++ " B" ++
      if inout = .output then " " else "")))
  else (mem, none)

/-- A branch of `share_serialized`: a buffer is allocated, `operator new`
returning 0 when it throws, and filled and shared. -/
def World.publish (w : World) (inout : Inout) (k : Content) (buffer : Nat) (reaction : Reaction) :
    World × Option Failure :=
  if buffer = 0 then (w, some (.foreign "std::bad_alloc"))
  else
    match w.heap.create false false buffer k.type.serializeType inout.reads true with
    | .error e => (w, some e)
    | .ok made =>
      let r := w.heap.refs.length
      match fill inout w.source.name k buffer made.mem with
      | (mem, some e) => (({ w with heap := { made with mem := mem } } : World).leave r, some e)
      | (mem, none) =>
        match ({ w with heap := { made with mem := mem } } : World).onSerialized.share r
          (inout == .output) false reaction with
        | (s, .error e) => ((w.setSerialized s).leave r, some e)
        | (s, .ok _) => (((w.setSerialized s).register inout).leave r, none)

/-- The chain of conditions of `share_serialized`. A reference declared in one
of them lives to the end of the chain, null or not. -/
def World.firstAccess (ref buffer : Nat) (reaction : Reaction) :
    List Inout → World → World × Option Failure
  | [], w => (w, none)
  | inout :: others, w =>
    w.scoped ref inout.reads inout.writes fun w content =>
      match content with
      | some k => w.publish inout k buffer reaction
      | none => w.firstAccess ref buffer reaction others

/-- The callback for data that is shared. -/
def World.shareSerialized (w : World) (ref buffer : Nat) (reaction : Reaction) :
    World × Option Failure :=
  if (w.heap.content? ref).any (fun k => k.data != 0 && !k.type.divisible) then
    (w, some (.undefined "division by zero"))
  else w.firstAccess ref buffer reaction [.both, .output, .input]

/-- `deserialize_copy` from the buffer of the serialized data, and the check of its count. -/
def World.readBack (w : World) (k serialized : Content) : World × Option Failure :=
  match k.type.deserializeCopy w.heap.mem w.heap.mem k.data serialized.data with
  | .error e => (w, some e)
  | .ok (mem, copied) =>
    ({ w with heap := { w.heap with mem := mem } },
      if copied = serialized.type.datasize then none
      else some (valueError ("Serialize plugin: `" ++ w.source.name ++ "' Deserialized " ++
        toString copied ++ " B of " ++ toString serialized.type.datasize ++ " B")))

/-- What `release_serialized` does for data shared with the right to write it. -/
def World.deserialize (w : World) (ref : Nat) : World × Option Failure :=
  w.scoped ref false true fun w content =>
    match content with
    | none => (w, some (permissionError ("Serialize plugin: Cannot get write access to data: " ++
        w.source.name)))
    | some k =>
      match w.onSerialized.ref with
      | (s, .error e) => (w.setSerialized s, some e)
      | (s, .ok r) =>
        let (w, e) := (w.setSerialized s).scoped r false true fun w content =>
          match content with
          | none => (w, some (permissionError
              ("Serialize plugin: Cannot get write access to serialized data: " ++
                w.serialized.name)))
          | some serialized => w.readBack k serialized
        (w.leave r, e)

/-- The callback for data that is removed: the element of
`m_serialized_remove_callback` that was added last is served. -/
def World.releaseSerialized (w : World) (ref : Nat) (reaction : Reaction) :
    World × Option Failure :=
  match w.entries with
  | [] => (w, some (valueError ("Serialize plugin: Cannot release not shared serialized data: " ++
      w.serialized.name)))
  | entry :: entries =>
    if entry.callback ∉ w.callbacks then (w, some (.undefined "a callback is erased twice"))
    else
      let erased : World := { w with callbacks := w.callbacks.erase entry.callback }
      match if entry.inout.writes then erased.deserialize ref else (erased, none) with
      | (w, some e) => (w, some e)
      | (w, none) =>
        match w.onSerialized.release reaction with
        | (s, .error e) => (w.setSerialized s, some e)
        | (s, .ok _) => ({ w.setSerialized s with entries := entries }, none)

/-- The plugin's part of `notify_data_remove`: the callbacks that were gathered
are called whatever has become of them. -/
def World.callGathered (ref : Nat) (reaction : Reaction) :
    List Nat → World → World × List Failure
  | [], w => (w, [])
  | callback :: callbacks, w =>
    if callback ∉ w.callbacks then (w, [.undefined "call of an erased callback"])
    else
      let (w, e) := w.releaseSerialized ref reaction
      let (w, errors) := w.callGathered ref reaction callbacks
      (w, e.toList ++ errors)

/-- What other callbacks do: those of `source` that are called before and after
the plugin, and those of `serialized`. -/
structure Others where
  before : Reaction
  after : Reaction
  nested : Reaction

def undefinedBehaviour : Failure → Bool
  | .undefined _ => true
  | _ => false

/-- What a notification throws; undefined behaviour of one callback is that of all. -/
def raise (context : String) (errors : List Failure) : Option Failure :=
  (errors.find? undefinedBehaviour).or (rethrowAll context errors)

/-- The world the plugin is called in, with the reference of the notification. -/
def World.notifying (w : World) (others : Others) : World :=
  ({ w with heap := w.onSource.referring } : World).react others.before

/-- `notify_data` or `notify_data_remove` for `source`. -/
def World.notify (w : World) (doing : String) (others : Others)
    (plugin : World → Nat → World × List Failure) : World × Option Failure :=
  let (w', errors) := plugin (w.notifying others) w.heap.refs.length
  ((w'.react others.after).leave w.heap.refs.length,
    raise ("while " ++ doing ++ " `" ++ w.source.name ++ "', ")
      (others.before.errors ++ errors ++ others.after.errors))

def World.notifyShare (w : World) (others : Others) (buffer : Nat) : World × Option Failure :=
  w.notify "sharing" others fun w ref =>
    let (w, e) := w.shareSerialized ref buffer others.nested
    (w, e.toList)

def World.notifyRemove (w : World) (others : Others) : World × Option Failure :=
  w.notify "removing" others fun w ref => w.callGathered ref others.nested w.callbacks

abbrev Outcome (α : Type) := World × Except Failure α

def inContext {α : Type} (context : String) (outcome : Outcome α) : Outcome α :=
  (outcome.1, outcome.2.mapError (rethrow context))

/-- `share(Ref data_ref, bool, bool)` of `source`. -/
def World.shareRef (w : World) (data : Nat) (read write : Bool) (others : Others) (buffer : Nat) :
    Outcome Nat :=
  match w.onSource.accept data read write with
  | (s, .error e) => (w.setSource s, .error e)
  | (s, .ok address) =>
    match (w.setSource s).notifyShare others buffer with
    | (w, some e) => (w.setSource w.onSource.pop, .error e)
    | (w, none) => (w, .ok address)

def World.share (w : World) (r : Nat) (read write : Bool) (others : Others) (buffer : Nat) :
    Outcome Nat :=
  let data := w.heap.refs.length
  let (w', result) := ({ w with heap := w.heap.copyRef r false false } : World).shareRef data
    read write others buffer
  inContext ("Unable to share `" ++ w.source.name ++ "', ") (w'.leave data, result)

/-- `share(void* data, bool, bool)` of `source`. -/
def World.shareData (w : World) (data : Nat) (type : Except Failure Datatype) (read write : Bool)
    (others : Others) (buffer : Nat) : Outcome Unit :=
  inContext ("Unable to share `" ++ w.source.name ++ "', ") <|
    match type with
    | .error e => (w, .error e)
    | .ok type =>
      match w.heap.create false false data type read write with
      | .error e => (w, .error e)
      | .ok made =>
        let r := w.heap.refs.length
        match ({ w with heap := made } : World).share r false false others buffer with
        | (w, .ok _) => (w.leave r, .ok ())
        | (w, .error e) => (({ w with heap := (w.heap.release r).1 } : World).leave r, .error e)

def World.release (w : World) (others : Others) : Outcome Unit :=
  inContext ("Unable to release `" ++ w.source.name ++ "', ") <|
    if !w.onSource.shared then
      (w, .error (stateError ("Cannot release a non shared value: `" ++ w.source.name ++ "'")))
    else
      match w.notifyRemove others with
      | (w, some e) => (w, .error e)
      | (w, none) => (w.setSource w.onSource.drop, .ok ())

def World.reclaim (functions : CopyFunctions) (w : World) (others : Others) (buffer : Nat) :
    Outcome Nat :=
  inContext ("Unable to reclaim `" ++ w.source.name ++ "', ") <|
    if !w.onSource.shared then
      (w, .error (stateError ("Cannot reclaim a non shared value: `" ++ w.source.name ++ "'")))
    else
      match w.notifyRemove others with
      | (w, some e) => (w, .error e)
      | (w, none) =>
        let (s, result) := w.onSource.takeBack functions buffer
        (w.setSource s, result)

/-- The calls on `source`, with the address for the buffer that the plugin
allocates or for the copy of a placeholder, and what other code does in between. -/
inductive Call where
  | share (r : Nat) (read write : Bool) (others : Others) (buffer : Nat)
  | shareData (data : Nat) (type : Except Failure Datatype) (read write : Bool)
      (others : Others) (buffer : Nat)
  | release (others : Others)
  | reclaim (others : Others) (buffer : Nat)
  | other (ops : List Op)

def thrown {α : Type} (outcome : Outcome α) : World × Option Failure :=
  match outcome with
  | (w, .error e) => (w, some e)
  | (w, .ok _) => (w, none)

def call (functions : CopyFunctions) (w : World) : Call → World × Option Failure
  | .share r read write others buffer => thrown (w.share r read write others buffer)
  | .shareData data type read write others buffer =>
    thrown (w.shareData data type read write others buffer)
  | .release others => thrown (w.release others)
  | .reclaim others buffer => thrown (w.reclaim functions others buffer)
  | .other ops => ({ w with heap := run exec ops w.heap }, none)

def after (functions : CopyFunctions) (c : Call) (w : World) : World := (call functions w c).1

end Pdi.SerializePlugin
