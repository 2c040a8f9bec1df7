import Pdi.DenseCopy
import Pdi.Reference

/-!
# Data descriptors

`Data_descriptor_impl` keeps a stack of references to the data that is shared
under its name. A descriptor of metadata keeps one reference more at the bottom,
the placeholder, that holds on to the last value once nothing is shared any more.

References live in a heap that a descriptor shares with everybody else. The
callbacks of a notification are other code: what they do with references and
memory, and the exceptions that leave them, are given with every call.
-/
namespace Pdi.Descriptor

open Pdi.Memory Pdi.Datatypes Pdi.Reference Pdi.Run

/-- The fields of a descriptor; `holders` is `m_refs`, the reference of each
`Ref_holder` by its number, top first. -/
structure DataDescriptor where
  name : String
  metadata : Bool
  holders : List Nat

structure State extends DataDescriptor where
  heap : Heap

/-- A call returns or throws; it leaves a state behind in both cases. -/
abbrev Outcome (α : Type) := State × Except Failure α

/-- What the callbacks called by one notification do, and what they throw. -/
structure Reaction where
  ops : List Op
  errors : List Failure

/-- `rethrow_with_context` of one exception. -/
def rethrow (context : String) : Failure → Failure
  | .error status message => .error status (context ++ message)
  | .foreign _ => .error .system context
  | .undefined what => .undefined what

/-- `rethrow_with_context` of the exceptions of several callbacks. -/
def rethrowAll (context : String) : List Failure → Option Failure
  | [] => none
  | [e] => some (rethrow context e)
  | _ => some (.error .multiple context)

theorem rethrowAll_eq_none {context : String} {errors : List Failure} :
    rethrowAll context errors = none ↔ errors = [] := by
  match errors with
  | [] | [_] | _ :: _ :: _ => simp [rethrowAll]

/-- The function-try-block around a call. -/
def inContext {α : Type} (context : String) (outcome : Outcome α) : Outcome α :=
  (outcome.1, outcome.2.mapError (rethrow context))

def stateError (message : String) : Failure := .error .state message
def permissionError (message : String) : Failure := .error .permission message

/-- `Ref_any<read, write>{r}.get(nothrow)`: the address a temporary reference
offers, 0 when it is null. -/
def peek (h : Heap) (r : Nat) (read write : Bool) : Heap × Nat :=
  let made := h.copyRef r read write
  (made.destroy h.refs.length, ((made.content? h.refs.length).map Content.data).getD 0)

/-- `m_refs.emplace(new Ref_holder::Impl<read, write>(r))`. -/
def State.push (s : State) (r : Nat) (read write : Bool) : State :=
  { s with
    heap := s.heap.copyRef r read write
    holders := s.heap.refs.length :: s.holders }

/-- `m_refs.pop()`, which destroys the holder. -/
def State.pop (s : State) : State :=
  match s.holders with
  | [] => s
  | top :: rest => { s with heap := s.heap.destroy top, holders := rest }

/-- The end of the life of a local reference. -/
def State.leave (s : State) (r : Nat) : State := { s with heap := s.heap.destroy r }

/-- `m_refs.top()` of a stack that is not empty. -/
def State.top (s : State) : Nat := s.holders.headD 0

/-- The heap after `ref()` on a stack that is not empty; the reference it returns
has the next number. -/
def State.referring (s : State) : Heap := s.heap.copyRef s.top false false

/-- `ref()`, where no callback provides missing data. -/
def State.ref (s : State) : Outcome Nat :=
  if s.holders.isEmpty then
    (s, .error (valueError ("Cannot access a non shared value: `" ++ s.name ++ "'")))
  else ({ s with heap := s.referring }, .ok s.heap.refs.length)

/-- `notify_data` or `notify_data_remove` with the result of `ref()`. -/
def State.notify (s : State) (doing : String) (reaction : Reaction) : State × Option Failure :=
  ({ s with heap := (run exec reaction.ops s.referring).destroy s.heap.refs.length },
    rethrowAll ("while " ++ doing ++ " `" ++ s.name ++ "', ") reaction.errors)

/-- The setter `metadata(bool)`. -/
def State.setMetadata (s : State) (metadata : Bool) : Outcome Unit :=
  if !s.holders.isEmpty then
    (s, .error (stateError "Can not change the metadata status of a non-empty descriptor"))
  else if metadata then
    -- the placeholder is made from a temporary null reference
    let made := { s with metadata := true, heap := s.heap.newRef false false }
    ((made.push s.heap.refs.length true false).leave s.heap.refs.length, .ok ())
  else ({ s with metadata := false }, .ok ())

/-- `metadata() && !Ref_r(data_ref)`. -/
def State.lacksRead (s : State) (data : Nat) : State × Bool :=
  if s.metadata then
    let (h, address) := peek s.heap data true false
    ({ s with heap := h }, address == 0)
  else (s, false)

/-- The reference put in the store, and the address returned for it. -/
def State.hold (s : State) (data : Nat) (read write : Bool) : State × Nat :=
  let (h, address) := if read || write then peek s.heap data read write else (s.heap, 0)
  (({ s with heap := h } : State).push data read write, address)

/-- `data_ref && !ref()`. -/
def State.refused (s : State) (data : Nat) : State × Bool :=
  match s.heap.isNull data with
  | (h, true) => ({ s with heap := h }, false)
  | (h, false) =>
    let (h, address) := peek h s.top false false
    ({ s with heap := h }, address == 0)

/-- `share` up to the notification. -/
def State.accept (s : State) (data : Nat) (read write : Bool) : Outcome Nat :=
  match s.lacksRead data with
  | (s, true) => (s, .error (permissionError "Metadata sharing must offer read access"))
  | (s, false) =>
    let (s, address) := s.hold data read write
    match s.refused data with
    | (s, true) => (s.pop, .error (permissionError "Unable to grant requested rights"))
    | (s, false) => (s, .ok address)

/-- `share(Ref data_ref, bool, bool)` with its parameter `data` in place. -/
def State.shareRef (s : State) (data : Nat) (read write : Bool) (reaction : Reaction) :
    Outcome Nat :=
  match s.accept data read write with
  | (s, .error e) => (s, .error e)
  | (s, .ok address) =>
    match s.notify "sharing" reaction with
    | (s, some e) => (s.pop, .error e)
    | (s, none) => (s, .ok address)

/-- The call `share(r, read, write)`: the parameter is a copy of `r`. -/
def State.share (s : State) (r : Nat) (read write : Bool) (reaction : Reaction) : Outcome Nat :=
  let data := s.heap.refs.length
  let (s', result) := ({ s with heap := s.heap.copyRef r false false } : State).shareRef data
    read write reaction
  inContext ("Unable to share `" ++ s.name ++ "', ") (s'.leave data, result)

/-- `share(void* data, bool, bool)`, with the result of evaluating the type. -/
def State.shareData (s : State) (data : Nat) (type : Except Failure Datatype) (read write : Bool)
    (reaction : Reaction) : Outcome Unit :=
  inContext ("Unable to share `" ++ s.name ++ "', ") <|
    match type with
    | .error e => (s, .error e)
    | .ok type =>
      match s.heap.create false false data type read write with
      | .error e => (s, .error e)
      | .ok made =>
        let r := s.heap.refs.length
        match ({ s with heap := made } : State).share r false false reaction with
        | (s, .ok _) => (s.leave r, .ok ())
        -- on error the data is not freed
        | (s, .error e) => (({ s with heap := (s.heap.release r).1 } : State).leave r, .error e)

/-- Whether there is more on the stack than the placeholder. -/
def State.shared (s : State) : Bool := !(s.holders.isEmpty || (s.holders.length == 1 && s.metadata))

/-- `Ref oldref = ref(); m_refs.pop();`, where `oldref` gets the next number. -/
def State.takeTop (s : State) : State := ({ s with heap := s.referring } : State).pop

/-- `if (metadata() && m_refs.size() == 1)`. -/
def State.placeholderLeft (s : State) : Bool := s.metadata && s.holders.length == 1

/-- `release` after the notification: a placeholder left alone is replaced. -/
def State.drop (s : State) : State :=
  let oldref := s.heap.refs.length
  let taken := s.takeTop
  (if taken.placeholderLeft then taken.pop.push oldref true false else taken).leave oldref

def State.release (s : State) (reaction : Reaction) : Outcome Unit :=
  inContext ("Unable to release `" ++ s.name ++ "', ") <|
    if !s.shared then
      (s, .error (stateError ("Cannot release a non shared value: `" ++ s.name ++ "'")))
    else
      match s.notify "removing" reaction with
      | (s, some e) => (s, .error e)
      | (s, none) => (s.drop, .ok ())

/-- `do_copy` has memory to allocate and `operator new` fails, for which the
address is 0. -/
def outOfMemory (type : Datatype) (buffer : Nat) : Bool :=
  type.densify.buffersize != 0 && buffer == 0

/-- `Ref_any::copy`, with `buffer` the address that `operator new` returns. The
parameter of `do_copy` is a reference that may read, and the number of the
result is one more. -/
def copyData (functions : CopyFunctions) (h : Heap) (r buffer : Nat) : Heap × Except Failure Nat :=
  let ref := h.refs.length
  let read := h.copyRef r true false
  match read.content? ref with
  | none => ((read.newRef false false).destroy ref, .ok (ref + 1))
  | some k =>
    if outOfMemory k.type buffer then (read.destroy ref, .error (.foreign "std::bad_alloc"))
    else
      match doCopy functions k.type read.mem k.data buffer with
      | .error e => (read.destroy ref, .error e)
      | .ok none => ((read.newRef false false).destroy ref, .ok (ref + 1))
      | .ok (some (mem, data, type)) =>
        match ({ read with mem := mem } : Heap).create false false data type true true with
        | .error e => (({ read with mem := mem } : Heap).destroy ref, .error e)
        | .ok made => (made.destroy ref, .ok (ref + 1))

/-- `return oldref.release();`. -/
def State.giveBack (s : State) (oldref : Nat) : Outcome Nat :=
  let (h, address) := s.heap.release oldref
  (({ s with heap := h } : State).leave oldref, .ok address)

/-- `reclaim` after the notification: a placeholder left alone is replaced by a copy. -/
def State.takeBack (functions : CopyFunctions) (s : State) (buffer : Nat) : Outcome Nat :=
  let oldref := s.heap.refs.length
  let taken := s.takeTop
  if taken.placeholderLeft then
    let popped := taken.pop
    match copyData functions popped.heap oldref buffer with
    | (h, .error e) => (({ popped with heap := h } : State).leave oldref, .error e)
    | (h, .ok copy) =>
      ((({ popped with heap := h } : State).push copy true false).leave copy).giveBack oldref
  else taken.giveBack oldref

def State.reclaim (functions : CopyFunctions) (s : State) (reaction : Reaction) (buffer : Nat) :
    Outcome Nat :=
  inContext ("Unable to reclaim `" ++ s.name ++ "', ") <|
    if !s.shared then
      (s, .error (stateError ("Cannot reclaim a non shared value: `" ++ s.name ++ "'")))
    else
      match s.notify "removing" reaction with
      | (s, some e) => (s, .error e)
      | (s, none) => s.takeBack functions buffer

/-- The calls on a descriptor, and what other code does between them. -/
inductive Call where
  | metadata (metadata : Bool)
  | share (r : Nat) (read write : Bool) (reaction : Reaction)
  | shareData (data : Nat) (type : Except Failure Datatype) (read write : Bool)
      (reaction : Reaction)
  | release (reaction : Reaction)
  | reclaim (reaction : Reaction) (buffer : Nat)
  | other (ops : List Op)

/-- The state a call leaves behind and, if it throws, the exception. -/
def thrown {α : Type} (outcome : Outcome α) : State × Option Failure :=
  match outcome with
  | (s, .error e) => (s, some e)
  | (s, .ok _) => (s, none)

def call (functions : CopyFunctions) (s : State) : Call → State × Option Failure
  | .metadata metadata => thrown (s.setMetadata metadata)
  | .share r read write reaction => thrown (s.share r read write reaction)
  | .shareData data type read write reaction => thrown (s.shareData data type read write reaction)
  | .release reaction => thrown (s.release reaction)
  | .reclaim reaction buffer => thrown (s.reclaim functions reaction buffer)
  | .other ops => ({ s with heap := run exec ops s.heap }, none)

def after (functions : CopyFunctions) (c : Call) (s : State) : State := (call functions s c).1

/-- `share(r, read, write)` where the callbacks are called. -/
def State.sharing (s : State) (r : Nat) (read write : Bool) : State :=
  (({ s with heap := s.heap.copyRef r false false } : State).accept s.heap.refs.length
    read write).1

/-- The descriptor and the heap when the callbacks of a call are called, and
what they do. -/
def Call.callbacks (s : State) : Call → State × List Op
  | .metadata _ => (s, [])
  | .share r read write reaction => (s.sharing r read write, reaction.ops)
  | .shareData data type read write reaction =>
    match type with
    | .error _ => (s, [])
    | .ok type =>
      match s.heap.create false false data type read write with
      | .error _ => (s, [])
      | .ok made => (({ s with heap := made } : State).sharing s.heap.refs.length false false,
          reaction.ops)
  | .release reaction => (s, reaction.ops)
  | .reclaim reaction _ => (s, reaction.ops)
  | .other ops => (s, ops)

/-- A new descriptor, in whatever heap. -/
def State.new (name : String) (heap : Heap) : State := ⟨⟨name, false, []⟩, heap⟩

end Pdi.Descriptor
