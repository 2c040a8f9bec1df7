import Pdi.DependencyOrder
import Pdi.Descriptor

/-!
# Loading plugins

The plugins of a configuration are loaded in the order of the map that holds them,
each after the plugins it depends on. A plugin is marked before its dependencies
are visited, and marked again right before its constructor is called. An error in
one of them is kept until all have been tried.

The plugin libraries are given from outside: the names each plugin depends on and
what its constructor throws. Every constructor call is recorded in a log.
-/
namespace Pdi.PluginStore

open Pdi.DependencyOrder Pdi.Datatypes Pdi.Descriptor Relation

abbrev Name := String

inductive InitState where
  | preloaded | loading | loaded
  deriving DecidableEq, Repr

/-- What the libraries of the plugins provide. The two sets of dependencies are in
the order in which the code walks through them. -/
structure Library where
  required : Name → List Name
  optional : Name → List Name
  /-- What the constructor throws, none if it completes. -/
  ctr : Name → Option Failure

structure Store where
  /-- The names in the order of the map. -/
  plugins : List Name
  state : Name → InitState
  dependencies : Name → List Name
  /-- The calls of constructors, with what they threw. -/
  log : List (Name × Option Failure)

/-- The store and the exception that a call leaves. -/
abbrev Outcome := Store × Option Failure

def Store.setState (s : Store) (name : Name) (state : InitState) : Store :=
  { s with state := fun n => if n = name then state else s.state n }

def Store.addDependency (s : Store) (name dependency : Name) : Store :=
  { s with dependencies := fun n =>
      if n = name then s.dependencies n ++ [dependency] else s.dependencies n }

def circularDependency : Failure :=
  .error .impl "Error while initializing plugin: circular dependency between plugins"

def notLoaded (name required : Name) : Failure :=
  .error .system ("Error while loading plugin `" ++ name ++ "': required plugin `" ++ required ++
    "' is not loaded")

def noEnd : Failure := .undefined "loading of plugins does not end"

/-- One loop over dependencies of the plugin `name`. The two loops differ in what
they do with a name that is not configured. -/
def loadDependencies (ensureLoaded : Name → Store → Outcome) (name : Name)
    (absent : Name → Option Failure) : List Name → Store → Outcome
  | [], s => (s, none)
  | d :: rest, s =>
    if d ∈ s.plugins then
      match ensureLoaded d (s.addDependency name d) with
      | (s, some e) => (s, some e)
      | (s, none) => loadDependencies ensureLoaded name absent rest s
    else
      match absent d with
      | some e => (s, some e)
      | none => loadDependencies ensureLoaded name absent rest s

def loadRequired (ensureLoaded : Name → Store → Outcome) (name : Name) :
    List Name → Store → Outcome :=
  loadDependencies ensureLoaded name fun d => some (notLoaded name d)

def loadOptional (ensureLoaded : Name → Store → Outcome) (name : Name) :
    List Name → Store → Outcome :=
  loadDependencies ensureLoaded name fun _ => none

/-- Both loops, the second one only if the first has not thrown. -/
def loadBoth (lib : Library) (ensureLoaded : Name → Store → Outcome) (name : Name) (s : Store) :
    Outcome :=
  match loadRequired ensureLoaded name (lib.required name) s with
  | (s, some e) => (s, some e)
  | (s, none) => loadOptional ensureLoaded name (lib.optional name) s

/-- The state is set before the constructor is called. -/
def construct (lib : Library) (name : Name) (s : Store) : Outcome :=
  ({ s.setState name .loaded with log := s.log ++ [(name, lib.ctr name)] }, lib.ctr name)

def ensureLoaded (lib : Library) : Nat → Name → Store → Outcome
  | 0, _, s => (s, some noEnd)
  | fuel + 1, name, s =>
    match s.state name with
    | .loaded => (s, none)
    | .loading => (s, some circularDependency)
    | .preloaded =>
      match loadBoth lib (ensureLoaded lib fuel) name (s.setState name .loading) with
      | (s, some e) => (s, some e)
      | (s, none) => construct lib name s

/-- The loop of `load_plugins`, with the errors it collects. -/
def loadEach (lib : Library) (fuel : Nat) : List Name → Store → Store × List Failure
  | [], s => (s, [])
  | name :: rest, s =>
    let visited := ensureLoaded lib fuel name s
    let others := loadEach lib fuel rest visited.1
    (others.1, (visited.2.map (rethrow ("while loading plugin `" ++ name ++ "', "))).toList ++
      others.2)

/-- The store when all plugins are pre-loaded. -/
def preload (plugins : List Name) : Store := ⟨plugins, fun _ => .preloaded, fun _ => [], []⟩

/-- `load_plugins` after the plugins have been pre-loaded. -/
def loadPlugins (lib : Library) (fuel : Nat) (s : Store) : Outcome :=
  let loaded := loadEach lib fuel s.plugins s
  (loaded.1, rethrowAll "" loaded.2)

/-! ## The dependency graph -/

/-- A required plugin, or an optional one that is configured. -/
def Edge (lib : Library) (plugins : List Name) (x y : Name) : Prop :=
  y ∈ plugins ∧ (y ∈ lib.required x ∨ y ∈ lib.optional x)

/-- The plugins whose constructors have been called. -/
def Store.called (s : Store) : List Name := s.log.map Prod.fst

end Pdi.PluginStore
