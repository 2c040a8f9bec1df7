import Pdi.MultiExpose

/-!
# Transactions

A transaction defers the reclaims of all data exposed in it. Its name, its status
and the names of its data are global variables, which every call of `PDI_expose`
reads and changes, also one that a callback makes while other data is being shared
or while the event of the transaction runs.

A call of `PDI_expose` is given with all that happens inside of it: the exposures
that callbacks make, and what is thrown. Every reference that is put on a
descriptor has a number of its own.
-/
namespace Pdi.Transaction

open Pdi.Datatypes Pdi.Api

/-- How a reclaim ends. If it throws, the reference may remain on the descriptor (a
callback has thrown) or not (the copy for the metadata has failed). -/
inductive Removal where
  | done
  | kept (e : Exception)
  | lost (e : Exception)
  deriving DecidableEq, Repr

/-- A call of `PDI_expose`, with the exposures made by callbacks `before` a reference
is on the descriptor, when the type is evaluated, and those made when it is. -/
inductive Exposure where
  /-- The share fails before a reference is on the descriptor. -/
  | refused (name : Name) (before : List Exposure) (thrown : Exception)
  /-- The removal is for a reclaim that is not deferred. -/
  | shared (name : Name) (before nested : List Exposure) (thrown : Option Exception)
    (removal : Removal)

inductive Entry where
  /-- A share that succeeds, with the number of its reference. -/
  | shared (name : Name) (reference : Nat)
  | refused (name : Name) (status : Status)
  | event (name : Name) (status : PdiStatus)
  | reclaimed (name : Name) (status : PdiStatus)
  deriving DecidableEq, Repr

structure World where
  /-- The references on each descriptor, the last one first. -/
  stack : Name → List Nat
  /-- The number of the next reference. -/
  next : Nat
  transaction : String
  transactionStatus : PdiStatus
  transactionData : List Name
  /-- The calls of share, event and reclaim, in the order in which they end. -/
  calls : List Entry

def initial : World := ⟨fun _ => [], 0, "", none, [], []⟩

def World.setStack (w : World) (name : Name) (references : List Nat) : World :=
  { w with stack := fun n => if n = name then references else w.stack n }

def World.push (w : World) (name : Name) : World :=
  { w.setStack name (w.next :: w.stack name) with next := w.next + 1 }

def World.pop (w : World) (name : Name) : World := w.setStack name (w.stack name).tail

def World.record (w : World) (entry : Entry) : World := { w with calls := w.calls ++ [entry] }

/-! ## The functions of the interface -/

/-- `Data_descriptor::reclaim`. -/
def World.reclaim (w : World) (name : Name) (removal : Removal) : World × Option Exception :=
  match w.stack name with
  | [] => (w, some (.error .state ("Unable to reclaim `" ++ name ++
      "', Cannot reclaim a non shared value: `" ++ name ++ "'")))
  | _ :: _ =>
    match removal with
    | .done => (w.pop name, none)
    | .kept e => (w, some e)
    | .lost e => (w.pop name, some e)

def pdiReclaim (name : Name) (removal : Removal) (w : World) : World × PdiStatus :=
  let status := (w.reclaim name removal).2.map returnErr
  ((w.reclaim name removal).1.record (.reclaimed name status), status)

/-- A failure is kept if it is the first one of a transaction. -/
def World.noteFailure (w : World) (status : Status) : World :=
  if w.transaction ≠ "" ∧ w.transactionStatus = none then
    { w with transactionStatus := some status }
  else w

/-- What `PDI_expose` does with the outcome of the share. -/
def afterShare (name : Name) (removal : Removal) : World × PdiStatus → World × PdiStatus
  | (w, some status) => (w.noteFailure status, some status)
  | (w, none) =>
    if w.transaction ≠ "" then ({ w with transactionData := w.transactionData ++ [name] }, none)
    else pdiReclaim name removal w

/-- The handlers of `PDI_share` for a share that has thrown. -/
def failedShare (w : World) (name : Name) (e : Exception) : World × PdiStatus :=
  (w.record (.refused name (returnErr e)), some (returnErr e))

def Exposure.name : Exposure → Name
  | .refused name _ _ | .shared name _ _ _ _ => name

def Exposure.removal : Exposure → Removal
  | .refused _ _ _ => .done
  | .shared _ _ _ _ removal => removal

mutual

/-- `PDI_share`. When a callback throws, the reference on top is taken off again. -/
def pdiShare : Exposure → World → World × PdiStatus
  | .refused name before thrown, w => failedShare (exposeAll before w) name thrown
  | .shared name before nested thrown _, w =>
    let offered := (exposeAll before w).push name
    let notified := exposeAll nested offered
    match thrown with
    | some e => failedShare (notified.pop name) name e
    | none => (notified.record (.shared name (exposeAll before w).next), none)

/-- The exposures that callbacks make one after the other. -/
def exposeAll : List Exposure → World → World
  | [], w => w
  | e :: es, w => exposeAll es (afterShare e.name e.removal (pdiShare e w)).1

end

def pdiExpose (e : Exposure) (w : World) : World × PdiStatus :=
  afterShare e.name e.removal (pdiShare e w)

def pdiTransactionBegin (name : Name) (w : World) : World × PdiStatus :=
  if w.transaction ≠ "" then
    (w, some (returnErr (.error .state "Transaction already in progress, cannot start a new one")))
  else ({ w with transaction := name, transactionStatus := none }, none)

/-- The event that ends a transaction, with the exposures its callbacks make. The
status it returns replaces the one of the transaction. -/
def triggerEvent (event : List Exposure) (thrown : Option Exception) (w : World) : World :=
  if w.transactionStatus = none then
    let status := thrown.map returnErr
    let triggered := (exposeAll event w).record (.event w.transaction status)
    { triggered with transactionStatus := status }
  else w

/-- The loop over the data of the transaction. -/
def reclaimAll : List Name → List Removal → World → World
  | [], _, w => w
  | name :: names, removals, w =>
    let reclaimed := pdiReclaim name (removals.headD .done) w
    reclaimAll names removals.tail { reclaimed.1 with
      transactionStatus :=
        if reclaimed.1.transactionStatus = none then reclaimed.2
        else reclaimed.1.transactionStatus }

def pdiTransactionEnd (event : List Exposure) (thrown : Option Exception)
    (removals : List Removal) (w : World) : World × PdiStatus :=
  if w.transaction = "" then
    let status := returnErr (.error .state "No transaction in progress, cannot end one")
    let kept := if w.transactionStatus = none then some status else w.transactionStatus
    ({ w with transactionStatus := kept }, kept)
  else
    let triggered := triggerEvent event thrown w
    let settled := reclaimAll triggered.transactionData.reverse removals triggered
    ({ settled with transactionData := [], transaction := "" }, settled.transactionStatus)

inductive Action where
  | start (name : Name)
  | expose (e : Exposure)
  | finish (event : List Exposure) (thrown : Option Exception) (removals : List Removal)

def step (w : World) : Action → World × PdiStatus
  | .start name => pdiTransactionBegin name w
  | .expose e => pdiExpose e w
  | .finish event thrown removals => pdiTransactionEnd event thrown removals w

def run (w : World) (actions : List Action) : World := actions.foldl (fun w a => (step w a).1) w

end Pdi.Transaction
