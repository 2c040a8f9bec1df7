import Mathlib.Data.List.Forall2
import Mathlib.Data.List.Perm.Subperm
import Pdi.DependencyOrder
import Pdi.Descriptor

/-!
# Included configurations

`get_includes` collects the configurations that a configuration includes, in an
order where each comes after everything it includes. It is a depth-first search
with the paths of the current chain of includes and the paths already collected.
The root configuration is given as a tree, not by a path, so it is in neither set.

The specification trees themselves are given from outside: what the include
directives of a tree say, and which tree is loaded from a path.
-/
namespace Pdi.Includes

open Pdi.DependencyOrder Pdi.Datatypes Pdi.Descriptor Relation

/-! ## The search -/

variable {fuel : Nat}

structure IncludePath where
  filePath : String
  ypath : String

/-- The elements of a `std::filesystem::path`: the root directory, the names between the
separators, and an empty one behind a separator at the end. -/
def elements (file : List Char) : List (List Char) :=
  let names := (file.splitOn '/').filter (· ≠ [])
  let root := if file.head? = some '/' then [['/']] else []
  let trailing := if file.getLast? = some '/' ∧ names ≠ [] then [[]] else []
  root ++ names ++ trailing

/-- What `operator<=>` compares of an include path: file paths element by element, so that
`d/a` and `d//a` are one. -/
structure Key where
  file : List (List Char)
  ypath : String
  deriving DecidableEq

def IncludePath.key (path : IncludePath) : Key := ⟨elements path.filePath.toList, path.ypath⟩

/-- An include directive: a scalar, or a mapping. -/
inductive Directive where
  | scalar (file : String)
  | mapping (entries : List (String × String))

def spectreeError (message : String) : Failure := .error .spectree message

/-- The last value of a key is the one that counts. -/
def lookup (key : String) (entries : List (String × String)) : Option String :=
  (entries.reverse.find? (·.1 == key)).map Prod.snd

/-- The constructor `Include_path(PC_tree_t)`. -/
def Directive.path : Directive → Except Failure IncludePath
  | .scalar file => .ok ⟨file, ""⟩
  | .mapping entries =>
    match entries.find? fun entry => entry.1 != "file" && entry.1 != "subtree" with
    | some (key, _) => .error (spectreeError ("unexpected key in include directive: `" ++ key ++
        "', only `file' and `subtree' allowed"))
    | none =>
      match lookup "file" entries, lookup "subtree" entries with
      | none, _ => .error (spectreeError "missing `'file` key in include directive")
      | _, none => .error (spectreeError "missing `'subtree` key in include directive")
      | some file, some subtree => .ok ⟨file, subtree⟩

/-- What is known of specification trees. -/
structure Source (Conf : Type) where
  /-- The directives under `.include`, none if there is no such key. -/
  directives : Conf → List Directive
  /-- `Include_path::pc_tree`, which fails where the file or the subtree does. -/
  pcTree : IncludePath → Except Failure Conf
  /-- The file system goes by the elements of a path, too. -/
  pcTree_same : ∀ path path' conf, path.key = path'.key → pcTree path = .ok conf →
    pcTree path' = .ok conf

/-- Nothing but the keys is ever looked at in the two sets of paths. -/
structure State (Conf : Type) where
  parents : List Key
  resultPath : List Key
  result : List Conf

variable {Conf : Type}

def circularInclude (path : IncludePath) : Failure :=
  spectreeError ("Circular include of `(" ++ path.filePath ++ ")" ++ path.ypath ++ "'")

def noEnd : Failure := .undefined "the search for includes does not end"

/-- The handler around a nested search, which only catches a `Spectree_error`. -/
def includedFrom (path : IncludePath) : Failure → Failure
  | .error .spectree message =>
    rethrow ("included from (" ++ path.filePath ++ ")" ++ path.ypath) (spectreeError message)
  | e => e

/-- One include directive. -/
def includeOne (src : Source Conf)
    (getIncludes : Conf → State Conf → Except Failure (State Conf))
    (s : State Conf) (directive : Directive) : Except Failure (State Conf) := do
  let path ← directive.path
  if path.key ∈ s.parents then .error (circularInclude path)
  else if path.key ∈ s.resultPath then .ok s
  else do
    let conf ← src.pcTree path
    let s ← (getIncludes conf { s with parents := path.key :: s.parents }).mapError
      (includedFrom path)
    .ok { s with
      parents := s.parents.erase path.key
      resultPath := s.resultPath ++ [path.key] }

def getIncludes (src : Source Conf) : Nat → Conf → State Conf → Except Failure (State Conf)
  | 0, _, _ => .error noEnd
  | fuel + 1, conf, s => do
    let s ← (src.directives conf).foldlM (includeOne src (getIncludes src fuel)) s
    .ok { s with result := s.result ++ [conf] }

/-- The search from a root configuration. -/
def getAllIncludes (src : Source Conf) (fuel : Nat) (conf : Conf) : Except Failure (List Conf) :=
  (getIncludes src fuel conf ⟨[], [], []⟩).map State.result

/-! ## The include graph -/

section Graph

variable (src : Source Conf)

/-- A configuration has a directive for the path. -/
def Source.Mentions (conf : Conf) (p : Key) : Prop :=
  ∃ directive ∈ src.directives conf, ∃ path, directive.path = .ok path ∧ path.key = p

/-- The configuration is at the path, however that is written. -/
def Source.At (p : Key) (conf : Conf) : Prop := ∃ path, path.key = p ∧ src.pcTree path = .ok conf

/-- The configuration at a path includes another path. -/
def Source.Edge (p q : Key) : Prop := ∃ conf, src.At p conf ∧ src.Mentions conf q

/-- Included by the configuration, directly or not. -/
def Source.Reachable (root : Conf) (q : Key) : Prop :=
  ∃ p, src.Mentions root p ∧ ReflTransGen src.Edge p q

/-- The directives of a configuration are well-formed. -/
def Source.WellFormed (conf : Conf) : Prop :=
  ∀ directive ∈ src.directives conf, ∃ path, directive.path = .ok path

/-- Everything that is included can be loaded, and there are finitely many paths. -/
structure Source.Loads (root : Conf) (paths : List Key) : Prop where
  root_wellFormed : src.WellFormed root
  loaded : ∀ p, src.Reachable root p → ∃ conf, src.At p conf ∧ src.WellFormed conf
  finite : ∀ p, src.Reachable root p → p ∈ paths

/-- A cycle of includes that the root leads to. -/
def Source.Circular (root : Conf) : Prop :=
  ∃ p, src.Reachable root p ∧ TransGen src.Edge p p

variable {src}

theorem Source.At.unique {p : Key} {conf conf' : Conf} (h : src.At p conf) (h' : src.At p conf') :
    conf = conf' := by
  obtain ⟨path, hkey, hpath⟩ := h
  obtain ⟨path', hkey', hpath'⟩ := h'
  rw [src.pcTree_same path path' conf (hkey.trans hkey'.symm) hpath] at hpath'
  exact Except.ok.inj hpath'

theorem Source.At.pcTree {path : IncludePath} {conf : Conf} (h : src.At path.key conf) :
    src.pcTree path = .ok conf := by
  obtain ⟨path', hkey, hpath⟩ := h
  exact src.pcTree_same path' path conf hkey hpath

end Graph

/-- The error of a circular include, with what was added to it on the way out. -/
inductive IsCircular : Failure → Prop where
  | here (path : IncludePath) : IsCircular (circularInclude path)
  | outer {e : Failure} (path : IncludePath) (h : IsCircular e) : IsCircular (includedFrom path e)

/-! ## The invariant of the search -/

variable {s : State Conf} {parents : List Key} {conf : Conf} {p : Key}

section Search

variable {src : Source Conf} {root : Conf} {paths : List Key}

/-- What has been collected: every path once, behind everything it includes, and
nothing of the chain of includes. -/
structure Sound (src : Source Conf) (root : Conf) (s : State Conf) : Prop where
  nodup : s.resultPath.Nodup
  ordered : Ordered src.Edge s.resultPath
  reachable : ∀ p ∈ s.resultPath, src.Reachable root p
  apart : ∀ p ∈ s.parents, p ∉ s.resultPath

/-- The chain of includes that leads to a configuration. -/
structure Chain (src : Source Conf) (root : Conf) (parents : List Key) (conf : Conf) : Prop where
  nodup : parents.Nodup
  parents_reachable : ∀ p ∈ parents, src.Reachable root p
  leads : ∀ p ∈ parents, ∀ q, src.Mentions conf q → TransGen src.Edge p q
  reachable : ∀ q, src.Mentions conf q → src.Reachable root q
  wellFormed : src.WellFormed conf

/-- The trees that have been loaded from a list of paths. -/
abbrev Loaded (src : Source Conf) (ps : List Key) (confs : List Conf) : Prop :=
  List.Forall₂ src.At ps confs

/-- The search goes on in a state, or has found a cycle. -/
def Settles (src : Source Conf) (root : Conf) (outcome : Except Failure (State Conf))
    (post : State Conf → Prop) : Prop :=
  match outcome with
  | .error e => IsCircular e ∧ src.Circular root
  | .ok s => post s

/-- The chain is as before, and what was collected is still there. -/
structure Extends (s s' : State Conf) : Prop where
  parents : s'.parents = s.parents
  paths : s.resultPath ⊆ s'.resultPath

theorem Extends.refl (s : State Conf) : Extends s s := ⟨rfl, List.Subset.refl _⟩

theorem Extends.trans {s' s'' : State Conf} (h : Extends s s') (h' : Extends s' s'') :
    Extends s s'' := ⟨h'.parents.trans h.parents, List.Subset.trans h.paths h'.paths⟩

/-- What a search of one configuration does with `fuel`. -/
def Searches (src : Source Conf) (root : Conf) (paths : List Key) (fuel : Nat) : Prop :=
  ∀ conf s, Chain src root s.parents conf → Sound src root s → Loaded src s.resultPath s.result →
    paths.length < fuel + s.parents.length →
    Settles src root (getIncludes src fuel conf s) fun s' =>
      Extends s s' ∧ (∀ q, src.Mentions conf q → q ∈ s'.resultPath) ∧ Sound src root s' ∧
        ∃ confs, s'.result = confs ++ [conf] ∧ Loaded src s'.resultPath confs

theorem Chain.step {conf' : Conf} (h : Chain src root parents conf) (hp : src.Mentions conf p)
    (hnew : p ∉ parents) (hload : src.At p conf') (hwell : src.WellFormed conf') :
    Chain src root (p :: parents) conf' := by
  have hedge (q : Key) (hq : src.Mentions conf' q) : src.Edge p q := ⟨conf', hload, hq⟩
  refine ⟨List.nodup_cons.mpr ⟨hnew, h.nodup⟩, ?_, ?_, ?_, hwell⟩
  · intro q hq
    obtain rfl | hq := List.mem_cons.mp hq
    · exact h.reachable q hp
    · exact h.parents_reachable q hq
  · intro q hq q' hq'
    obtain rfl | hq := List.mem_cons.mp hq
    · exact .single (hedge q' hq')
    · exact (h.leads q hq p hp).tail (hedge q' hq')
  · intro q hq
    obtain ⟨p₀, hp₀, hreach⟩ := h.reachable p hp
    exact ⟨p₀, hp₀, hreach.tail (hedge q hq)⟩

/-- A path that was searched is collected behind everything it includes. -/
theorem Sound.concat (h : Sound src root s) (hparents : s.parents = p :: parents)
    (hload : src.At p conf) (hall : ∀ q, src.Mentions conf q → q ∈ s.resultPath)
    (hreach : src.Reachable root p) (hnew : p ∉ parents) :
    Sound src root { s with parents := s.parents.erase p, resultPath := s.resultPath ++ [p] } := by
  have hp : p ∉ s.resultPath := h.apart p (by simp [hparents])
  constructor
  · exact List.nodup_append.mpr ⟨h.nodup, by simp, by rintro q hq _ hmem rfl; simp_all⟩
  · refine h.ordered.concat ?_
    rintro q ⟨conf', hconf', hq⟩
    obtain rfl := hload.unique hconf'
    exact hall q hq
  · intro q hq
    obtain hq | hq := List.mem_append.mp hq
    · exact h.reachable q hq
    · rw [List.mem_singleton.mp hq]
      exact hreach
  · intro q hq
    rw [hparents, List.erase_cons_head] at hq
    have hne : q ≠ p := by
      rintro rfl
      exact hnew hq
    simp only [List.mem_append, List.mem_singleton, not_or]
    exact ⟨h.apart q (by simp [hparents, hq]), hne⟩

theorem includeOne_settles (hloads : src.Loads root paths) (ih : Searches src root paths fuel)
    (hchain : Chain src root s.parents conf) (hsound : Sound src root s)
    (hloaded : Loaded src s.resultPath s.result)
    (hfuel : paths.length < fuel + 1 + s.parents.length) {directive : Directive}
    {path : IncludePath} (hmem : directive ∈ src.directives conf)
    (hpath : directive.path = .ok path) :
    Settles src root (includeOne src (getIncludes src fuel) s directive) fun s' =>
      Extends s s' ∧ path.key ∈ s'.resultPath ∧ Sound src root s' ∧
        Loaded src s'.resultPath s'.result := by
  obtain ⟨p, hkey⟩ : ∃ p, path.key = p := ⟨_, rfl⟩
  have hmentions : src.Mentions conf p := ⟨directive, hmem, path, hpath, hkey⟩
  have hreach := hchain.reachable p hmentions
  obtain ⟨conf', hload, hwell⟩ := hloads.loaded p hreach
  have htree : src.pcTree path = .ok conf' := (hkey ▸ hload : src.At path.key conf').pcTree
  unfold includeOne
  rw [hpath]
  simp only [bind, Except.bind, hkey]
  split
  · next hparent =>
    exact ⟨.here path, p, hchain.parents_reachable p hparent, hchain.leads p hparent p hmentions⟩
  · next hparent =>
    split
    · next hdone => exact ⟨.refl s, hdone, hsound, hloaded⟩
    · next hdone =>
      rw [htree]
      dsimp only
      have hnested : Sound src root { s with parents := p :: s.parents } := by
        refine ⟨hsound.nodup, hsound.ordered, hsound.reachable, ?_⟩
        intro q hq
        obtain rfl | hq := List.mem_cons.mp hq
        · exact hdone
        · exact hsound.apart q hq
      have hsearch := ih conf' { s with parents := p :: s.parents }
        (hchain.step hmentions hparent hload hwell) hnested hloaded
        (by rw [List.length_cons]; omega)
      cases houtcome : getIncludes src fuel conf' { s with parents := p :: s.parents } with
      | error =>
        rw [houtcome] at hsearch
        exact ⟨.outer path hsearch.1, hsearch.2⟩
      | ok s' =>
        rw [houtcome] at hsearch
        obtain ⟨hextends, hall, hsound', confs, hresult, hconfs⟩ := hsearch
        refine ⟨⟨?_, ?_⟩, ?_, ?_, ?_⟩
        · change s'.parents.erase p = s.parents
          rw [hextends.parents, List.erase_cons_head]
        · exact fun q hq => List.mem_append_left _ (hextends.paths hq)
        · exact List.mem_append_right _ (List.mem_singleton_self p)
        · exact hsound'.concat hextends.parents hload hall hreach hparent
        · change Loaded src (s'.resultPath ++ [p]) s'.result
          rw [hresult]
          exact List.rel_append hconfs (.cons hload .nil)

/-- The directives one after the other, by induction on those that are left. -/
theorem directives_settle (hloads : src.Loads root paths) (ih : Searches src root paths fuel)
    {ds : List Directive} (hds : ds ⊆ src.directives conf) (hchain : Chain src root s.parents conf)
    (hsound : Sound src root s) (hloaded : Loaded src s.resultPath s.result)
    (hfuel : paths.length < fuel + 1 + s.parents.length) :
    Settles src root (ds.foldlM (includeOne src (getIncludes src fuel)) s) fun s' =>
      Extends s s' ∧ (∀ d ∈ ds, ∀ path, d.path = .ok path → path.key ∈ s'.resultPath) ∧
        Sound src root s' ∧
        Loaded src s'.resultPath s'.result := by
  induction ds generalizing s with
  | nil => exact ⟨.refl s, by simp, hsound, hloaded⟩
  | cons d ds hrest =>
    have hmem : d ∈ src.directives conf := hds List.mem_cons_self
    obtain ⟨p, hp⟩ := hchain.wellFormed d hmem
    have hone := includeOne_settles hloads ih hchain hsound hloaded hfuel hmem hp
    rw [List.foldlM_cons]
    cases houtcome : includeOne src (getIncludes src fuel) s d with
    | error =>
      rw [houtcome] at hone
      exact hone
    | ok s₁ =>
      rw [houtcome] at hone
      obtain ⟨hextends, hmem₁, hsound₁, hloaded₁⟩ := hone
      have hall := hrest (fun d' hd' => hds (List.mem_cons_of_mem _ hd'))
        (hextends.parents ▸ hchain) hsound₁ hloaded₁ (hextends.parents ▸ hfuel)
      simp only [bind, Except.bind]
      cases houtcome' : ds.foldlM (includeOne src (getIncludes src fuel)) s₁ with
      | error =>
        rw [houtcome'] at hall
        exact hall
      | ok =>
        rw [houtcome'] at hall
        obtain ⟨hextends', hmem₂, hsound₂, hloaded₂⟩ := hall
        refine ⟨hextends.trans hextends', ?_, hsound₂, hloaded₂⟩
        intro d' hd' q hq
        obtain rfl | hd' := List.mem_cons.mp hd'
        · rw [hp] at hq
          cases hq
          exact hextends'.paths hmem₁
        · exact hmem₂ d' hd' q hq

theorem searches (hloads : src.Loads root paths) (fuel : Nat) : Searches src root paths fuel := by
  induction fuel with
  | zero =>
    intro conf s hchain _ _ hfuel
    -- the chain has no more paths than there are
    have hsub : s.parents ⊆ paths := fun p hp => hloads.finite p (hchain.parents_reachable p hp)
    have hlength := (List.Nodup.subperm hchain.nodup hsub).length_le
    omega
  | succ fuel ih =>
    intro conf s hchain hsound hloaded hfuel
    have hall := directives_settle hloads ih (List.Subset.refl _) hchain hsound hloaded hfuel
    rw [getIncludes]
    simp only [bind, Except.bind]
    cases houtcome : (src.directives conf).foldlM (includeOne src (getIncludes src fuel)) s with
    | error =>
      rw [houtcome] at hall
      exact hall
    | ok s' =>
      rw [houtcome] at hall
      obtain ⟨hextends, hmem, hsound', hloaded'⟩ := hall
      refine ⟨⟨hextends.parents, hextends.paths⟩, ?_, ?_, s'.result, rfl, hloaded'⟩
      · rintro q ⟨d, hd, path, hpath, rfl⟩
        exact hmem d hd path hpath
      · exact ⟨hsound'.nodup, hsound'.ordered, hsound'.reachable, hsound'.apart⟩

end Search

/-- A root that is included somewhere is on a cycle. -/
theorem circular_of_included {src : Source Conf} {root : Conf} (hp : src.Reachable root p)
    (hroot : src.At p root) : src.Circular root := by
  refine ⟨p, hp, ?_⟩
  obtain ⟨p₀, hp₀, hreach⟩ := hp
  exact .head' ⟨root, hroot, hp₀⟩ hreach

/-- With fuel for a chain through all paths the search comes to an end. It reports
a circular include exactly when the root leads to a cycle, be it one through the
root itself. Otherwise it gives the trees of all included paths, each once and
behind those it includes, and the root last. -/
theorem getAllIncludes_topological (src : Source Conf) (root : Conf) (paths : List Key)
    (hloads : src.Loads root paths) (fuel : Nat) (hfuel : paths.length < fuel) :
    (∀ p, src.Reachable root p → src.At p root → src.Circular root) ∧
      ((src.Circular root ∧ ∃ e, getAllIncludes src fuel root = .error e ∧ IsCircular e) ∨
        (¬ src.Circular root ∧ ∃ order confs,
          getAllIncludes src fuel root = .ok (confs ++ [root]) ∧ Loaded src order confs ∧
          order.Nodup ∧ (∀ p, p ∈ order ↔ src.Reachable root p) ∧ Ordered src.Edge order)) := by
  refine ⟨fun p => circular_of_included, ?_⟩
  have hchain : Chain src root [] root :=
    ⟨List.nodup_nil, by simp, by simp, fun q hq => ⟨q, hq, .refl⟩, hloads.root_wellFormed⟩
  have hsound : Sound src root ⟨[], [], []⟩ :=
    ⟨List.nodup_nil, .nil, by simp, by simp⟩
  have hsearch := searches hloads fuel root ⟨[], [], []⟩ hchain hsound .nil (by simpa using hfuel)
  unfold getAllIncludes
  cases houtcome : getIncludes src fuel root ⟨[], [], []⟩ with
  | error e =>
    rw [houtcome] at hsearch
    exact .inl ⟨hsearch.2, e, rfl, hsearch.1⟩
  | ok s =>
    rw [houtcome] at hsearch
    obtain ⟨-, hall, hs, confs, hresult, hconfs⟩ := hsearch
    have hreach (p : Key) : p ∈ s.resultPath ↔ src.Reachable root p := by
      refine ⟨hs.reachable p, ?_⟩
      rintro ⟨p₀, hp₀, hp⟩
      exact hs.ordered.reaches (hall p₀ hp₀) hp
    refine .inr ⟨?_, s.resultPath, confs, ?_, hconfs, hs.nodup, hreach, hs.ordered⟩
    · rintro ⟨p, hp, hcycle⟩
      exact hs.ordered.acyclic ((hreach p).mpr hp) hcycle
    · rw [← hresult]
      rfl

/-- Two files of which the second is included by the root and, with one more separator in
its path, by the first. -/
def shared : Source Nat where
  directives
    | 0 => [.scalar "a", .mapping [("file", "d/b"), ("subtree", ".c")]]
    | 1 => [.mapping [("subtree", ".c"), ("file", "d//b")]]
    | _ => []
  pcTree path := .ok (if path.key = ⟨[['a']], ""⟩ then 1 else 2)
  pcTree_same path path' conf hkey hpath := by rw [← hkey, hpath]

theorem shared_loads : shared.Loads 0 [⟨[['a']], ""⟩, ⟨[['d'], ['b']], ".c"⟩] := by
  have hdirective (conf : Nat) : ∀ d ∈ shared.directives conf, ∃ path, d.path = .ok path ∧
      path.key ∈ [(⟨[['a']], ""⟩ : Key), ⟨[['d'], ['b']], ".c"⟩] := by
    match conf with
    | 0 =>
      intro d hd
      obtain rfl | rfl : d = _ ∨ d = _ := by simpa [shared] using hd
      · exact ⟨⟨"a", ""⟩, rfl, by decide⟩
      · exact ⟨⟨"d/b", ".c"⟩, rfl, by decide⟩
    | 1 =>
      intro d hd
      obtain rfl : d = _ := by simpa [shared] using hd
      exact ⟨⟨"d//b", ".c"⟩, rfl, by decide⟩
    | n + 2 =>
      intro d hd
      cases hd
  have hwell (conf : Nat) : shared.WellFormed conf := fun d hd =>
    (hdirective conf d hd).imp fun _ h => h.1
  have hmentions {conf : Nat} {p : Key} (h : shared.Mentions conf p) :
      p ∈ [(⟨[['a']], ""⟩ : Key), ⟨[['d'], ['b']], ".c"⟩] := by
    obtain ⟨d, hd, path, hpath, rfl⟩ := h
    obtain ⟨path', hpath', hmem⟩ := hdirective conf d hd
    rw [hpath] at hpath'
    cases hpath'
    exact hmem
  have hreachable {p : Key} (h : shared.Reachable 0 p) :
      p ∈ [(⟨[['a']], ""⟩ : Key), ⟨[['d'], ['b']], ".c"⟩] := by
    obtain ⟨p₀, hp₀, hreach⟩ := h
    cases hreach with
    | refl => exact hmentions hp₀
    | tail _ hedge =>
      obtain ⟨conf, -, hp⟩ := hedge
      exact hmentions hp
  refine ⟨hwell 0, fun p hp => ?_, fun p hp => hreachable hp⟩
  obtain rfl | rfl : p = _ ∨ p = _ := by simpa using hreachable hp
  · exact ⟨1, ⟨⟨"a", ""⟩, by decide, by decide⟩, hwell _⟩
  · exact ⟨2, ⟨⟨"d/b", ".c"⟩, by decide, by decide⟩, hwell _⟩

theorem getAllIncludes_topological_shared :
    getAllIncludes shared 3 0 = .ok [2, 1, 0] ∧
      ∃ order, Loaded shared order [2, 1] ∧ order.Nodup ∧
        (∀ p, p ∈ order ↔ shared.Reachable 0 p) ∧ Ordered shared.Edge order := by
  have hrun : getAllIncludes shared 3 0 = .ok ([2, 1] ++ [0]) := by rfl
  refine ⟨hrun, ?_⟩
  obtain ⟨-, ⟨-, e, he, -⟩ | ⟨-, order, confs, hok, hloaded, hnodup, hall, hordered⟩⟩ :=
    getAllIncludes_topological shared 0 _ shared_loads 3 (by decide)
  · rw [hrun] at he
    cases he
  · rw [hrun] at hok
    obtain rfl : [2, 1] = confs := List.append_cancel_right (Except.ok.inj hok)
    exact ⟨order, hloaded, hnodup, hall, hordered⟩

end Pdi.Includes
