import Mathlib.Algebra.BigOperators.Group.Finset.Basic
import Mathlib.Algebra.GroupWithZero.Nat
import Pdi.PluginLoading
import Pdi.Teardown

/-!
# The end of the plugins

A stored plugin keeps shared pointers to the plugins it depends on, recorded while
it is loaded, and the store keeps one to every plugin. Of the members of a stored
plugin the plugin itself is declared after these pointers, so that its destructor
runs before they are dropped.

In which order the store drops its entries, and a stored plugin its pointers, is
left open.
-/
namespace Pdi.PluginStore

open Pdi.DependencyOrder Pdi.Descriptor Pdi.Teardown Relation

/-! ## The pointers that are recorded -/

variable {recur : Name → Store → Outcome}

section Recorded

variable {lib : Library} {s s' : Store} {name : Name} {o : Outcome}

/-- The dependencies that are configured, in the order of the two loops. -/
def recorded (lib : Library) (plugins : List Name) (x : Name) : List Name :=
  (lib.required x ++ lib.optional x).filter (· ∈ plugins)

theorem mem_recorded {plugins : List Name} {x y : Name} :
    y ∈ recorded lib plugins x ↔ Edge lib plugins x y := by
  simp only [recorded, Edge, List.mem_filter, List.mem_append, decide_eq_true_eq, and_comm]

/-- A plugin has no pointers before it is visited and all of them when it is loaded. -/
structure Recorded (lib : Library) (s : Store) : Prop where
  preloaded : ∀ n, s.state n = .preloaded → s.dependencies n = []
  loaded : ∀ n, s.state n = .loaded → s.dependencies n = recorded lib s.plugins n

/-- Plugins that were visited before keep their state and their pointers. -/
structure Keeps (s s' : Store) : Prop where
  plugins : s'.plugins = s.plugins
  state : ∀ n, s.state n ≠ .preloaded → s'.state n = s.state n
  dependencies : ∀ n, s.state n ≠ .preloaded → s'.dependencies n = s.dependencies n

theorem Keeps.refl (s : Store) : Keeps s s := ⟨rfl, fun _ _ => rfl, fun _ _ => rfl⟩

/-- What a loop over dependencies of the plugin `name` records. -/
structure Records (lib : Library) (name : Name) (ds : List Name) (s : Store) (o : Outcome) :
    Prop where
  recorded : Recorded lib o.1
  plugins : o.1.plugins = s.plugins
  state : ∀ n, s.state n ≠ .preloaded → o.1.state n = s.state n
  others : ∀ n, n ≠ name → s.state n ≠ .preloaded → o.1.dependencies n = s.dependencies n
  pointers : o.2 = none →
    o.1.dependencies name = s.dependencies name ++ ds.filter (· ∈ s.plugins)

theorem Recorded.addDependency (h : Recorded lib s) (hname : s.state name = .loading) (d : Name) :
    Recorded lib (s.addDependency name d) := by
  have hother (n : Name) (hn : s.state n ≠ .loading) :
      (s.addDependency name d).dependencies n = s.dependencies n := by
    refine if_neg ?_
    rintro rfl
    exact hn hname
  refine ⟨fun n hn => ?_, fun n hn => ?_⟩
  · have hstate : s.state n = .preloaded := hn
    rw [hother n (by simp [hstate])]
    exact h.preloaded n hstate
  · have hstate : s.state n = .loaded := hn
    rw [hother n (by simp [hstate])]
    exact h.loaded n hstate

section Walk

variable {d : Name} {ds : List Name} {s₁ : Store}

theorem Keeps.after_addDependency (hkeeps : Keeps (s.addDependency name d) s') :
    s'.plugins = s.plugins ∧ (∀ n, s.state n ≠ .preloaded → s'.state n = s.state n) ∧
      ∀ n, n ≠ name → s.state n ≠ .preloaded → s'.dependencies n = s.dependencies n := by
  refine ⟨hkeeps.plugins, hkeeps.state, fun n hn hstate => ?_⟩
  rw [hkeeps.dependencies n hstate]
  exact if_neg hn

/-- The dependency is recorded, and the loop goes on. -/
theorem Records.visit (hd : d ∈ s.plugins) (hname : s.state name = .loading)
    (hkeeps : Keeps (s.addDependency name d) s₁) (hrest : Records lib name ds s₁ o) :
    Records lib name (d :: ds) s o := by
  obtain ⟨hplugins, hstate, hothers⟩ := hkeeps.after_addDependency
  refine ⟨hrest.recorded, hrest.plugins.trans hplugins, fun n hn => ?_, fun n hne hn => ?_,
    fun hnone => ?_⟩
  · rw [hrest.state n (by rwa [hstate n hn]), hstate n hn]
  · rw [hrest.others n hne (by rwa [hstate n hn]), hothers n hne hn]
  · have hpointers : s₁.dependencies name = s.dependencies name ++ [d] := by
      rw [hkeeps.dependencies name (by simp [Store.addDependency, hname])]
      exact if_pos rfl
    rw [hrest.pointers hnone, hpointers, hplugins, List.filter_cons_of_pos (by simpa using hd),
      List.append_assoc]
    rfl

theorem records (absent : Name → Option Datatypes.Failure) (hs : Recorded lib s)
    (hname : s.state name = .loading)
    (hrecur : ∀ d s, Recorded lib s → Recorded lib (recur d s).1 ∧ Keeps s (recur d s).1) :
    Records lib name ds s (loadDependencies recur name absent ds s) := by
  induction ds generalizing s with
  | nil => exact ⟨hs, rfl, fun _ _ => rfl, fun _ _ _ => rfl, fun _ => by simp [loadDependencies]⟩
  | cons d ds ih =>
    rw [loadDependencies]
    split
    · next hd =>
      obtain ⟨hrecorded, hkeeps⟩ := hrecur d _ (hs.addDependency hname d)
      generalize recur d (s.addDependency name d) = o at hrecorded hkeeps
      obtain ⟨s₁, _ | e⟩ := o
      · have hname₁ : s₁.state name = .loading :=
          (hkeeps.state name (by simp [Store.addDependency, hname])).trans hname
        exact .visit hd hname hkeeps (ih hrecorded hname₁)
      · obtain ⟨hplugins, hstate, hothers⟩ := hkeeps.after_addDependency
        exact ⟨hrecorded, hplugins, hstate, hothers, fun h => by cases h⟩
    · next hd =>
      split
      · exact ⟨hs, rfl, fun _ _ => rfl, fun _ _ _ => rfl, fun h => by cases h⟩
      · have hrest := ih hs hname
        refine ⟨hrest.recorded, hrest.plugins, hrest.state, hrest.others, fun hnone => ?_⟩
        rw [hrest.pointers hnone, List.filter_cons_of_neg (by simpa using hd)]

end Walk

theorem Recorded.setLoading (h : Recorded lib s) (name : Name) :
    Recorded lib (s.setState name .loading) := by
  refine ⟨fun n hn => ?_, fun n hn => ?_⟩
  · by_cases hne : n = name
    · simp [Store.setState, hne] at hn
    · exact h.preloaded n (by simpa [Store.setState, hne] using hn)
  · by_cases hne : n = name
    · simp [Store.setState, hne] at hn
    · exact h.loaded n (by simpa [Store.setState, hne] using hn)

theorem Recorded.construct (h : Recorded lib s)
    (hname : s.dependencies name = PluginStore.recorded lib s.plugins name) :
    Recorded lib (construct lib name s).1 := by
  refine ⟨fun n hn => ?_, fun n hn => ?_⟩
  · by_cases hne : n = name
    · simp [PluginStore.construct, Store.setState, hne] at hn
    · exact h.preloaded n (by simpa [PluginStore.construct, Store.setState, hne] using hn)
  · by_cases hne : n = name
    · rw [hne]
      exact hname
    · exact h.loaded n (by simpa [PluginStore.construct, Store.setState, hne] using hn)

/-- Both loops record all the dependencies that are configured. -/
theorem records_both (hs : Recorded lib s) (hname : s.state name = .loading)
    (hrecur : ∀ d s, Recorded lib s → Recorded lib (recur d s).1 ∧ Keeps s (recur d s).1) :
    Records lib name (lib.required name ++ lib.optional name) s (loadBoth lib recur name s) := by
  have hrequired : Records lib name (lib.required name) s _ :=
    records (fun d => some (notLoaded name d)) hs hname hrecur
  rw [loadBoth, loadRequired]
  generalize loadDependencies recur name _ (lib.required name) s = o at hrequired
  obtain ⟨s₁, _ | e⟩ := o
  · have hname₁ : s₁.state name = .loading :=
      (hrequired.state name (by simp [hname])).trans hname
    have hoptional : Records lib name (lib.optional name) s₁ _ :=
      records (fun _ => none) hrequired.recorded hname₁ hrecur
    have hplugins : s₁.plugins = s.plugins := hrequired.plugins
    have hstate (n : Name) (hn : s.state n ≠ .preloaded) : s₁.state n = s.state n :=
      hrequired.state n hn
    refine ⟨hoptional.recorded, hoptional.plugins.trans hplugins, fun n hn => ?_,
      fun n hne hn => ?_, fun hnone => ?_⟩
    · exact (hoptional.state n (by rwa [hstate n hn])).trans (hstate n hn)
    · exact (hoptional.others n hne (by rwa [hstate n hn])).trans (hrequired.others n hne hn)
    · have hfirst : s₁.dependencies name = _ := hrequired.pointers rfl
      refine (hoptional.pointers hnone).trans ?_
      rw [hfirst, hplugins, List.append_assoc, List.filter_append]
  · exact ⟨hrequired.recorded, hrequired.plugins, hrequired.state, hrequired.others,
      fun h => by cases h⟩

theorem ensureLoaded_recorded (fuel : Nat) (x : Name) (s : Store) (hs : Recorded lib s) :
    Recorded lib (ensureLoaded lib fuel x s).1 ∧ Keeps s (ensureLoaded lib fuel x s).1 := by
  induction fuel generalizing x s with
  | zero => exact ⟨hs, .refl s⟩
  | succ fuel ih =>
    rw [ensureLoaded]
    split
    · exact ⟨hs, .refl s⟩
    · exact ⟨hs, .refl s⟩
    · next hx =>
      have hloading : (s.setState x .loading).state x = .loading := if_pos rfl
      have hother (n : Name) (hn : s.state n ≠ .preloaded) : n ≠ x := by
        rintro rfl
        exact hn hx
      have hset (n : Name) (hn : s.state n ≠ .preloaded) :
          (s.setState x .loading).state n = s.state n := if_neg (hother n hn)
      have hboth := records_both (hs.setLoading x) hloading ih
      generalize loadBoth lib (ensureLoaded lib fuel) x (s.setState x .loading) = o at hboth
      have hkeeps (n : Name) (hn : s.state n ≠ .preloaded) :
          o.1.state n = s.state n ∧ o.1.dependencies n = s.dependencies n := by
        have hn' : (s.setState x .loading).state n ≠ .preloaded := by rwa [hset n hn]
        exact ⟨(hboth.state n hn').trans (hset n hn), hboth.others n (hother n hn) hn'⟩
      obtain ⟨s₁, _ | e⟩ := o
      · have hx₁ : s₁.dependencies x = recorded lib s₁.plugins x := by
          have hnone : (s.setState x .loading).dependencies x = [] := hs.preloaded x hx
          have hplugins : s₁.plugins = s.plugins := hboth.plugins
          have hall : s₁.dependencies x = _ := hboth.pointers rfl
          rw [hall, hnone, hplugins]
          rfl
        refine ⟨hboth.recorded.construct hx₁, hboth.plugins, fun n hn => ?_,
          fun n hn => (hkeeps n hn).2⟩
        exact (if_neg (hother n hn)).trans (hkeeps n hn).1
      · exact ⟨hboth.recorded, hboth.plugins, fun n hn => (hkeeps n hn).1,
          fun n hn => (hkeeps n hn).2⟩

theorem loadEach_recorded (fuel : Nat) (names : List Name) (s : Store) (hs : Recorded lib s) :
    Recorded lib (loadEach lib fuel names s).1 := by
  induction names generalizing s with
  | nil => exact hs
  | cons name rest ih => exact ih _ (ensureLoaded_recorded fuel name s hs).1

theorem recorded_preload (lib : Library) (plugins : List Name) : Recorded lib (preload plugins) :=
  ⟨fun _ _ => rfl, nofun⟩

end Recorded

/-! ## Dropping the pointers -/

/-- The use counts when the store is about to go: one pointer for each entry, and those
of the stored plugins. -/
def Store.useCount (s : Store) (n : Name) : Nat :=
  s.plugins.count n + (s.plugins.map fun m => (s.dependencies m).count n).sum

/-- The destructor of the store drops its entries. A stored plugin without pointers to
it runs the destructor of its plugin and drops the pointers it has. -/
def destroyStore (holds : Name → List Name) (fuel : Nat) (entries : List Name) (s : Store) :
    Option (State Name) :=
  releaseAll (release holds fuel) entries ⟨s.useCount, []⟩

section Destroy

variable {lib : Library} {s : Store} {holds : Name → List Name} {entries : List Name}

theorem balanced_useCount (hnodup : s.plugins.Nodup) (hentries : entries.Perm s.plugins)
    (hholds : ∀ n, (holds n).Perm (s.dependencies n)) :
    Balanced holds s.plugins.toFinset ⟨s.useCount, []⟩ (entries ++ []) := by
  have halive : (⟨s.useCount, []⟩ : State Name).alive s.plugins.toFinset = s.plugins.toFinset := by
    simp [State.alive]
  refine ⟨fun n => ?_, fun n hn => ?_, List.forall_mem_nil _, List.nodup_nil, .nil⟩
  · rw [halive, List.append_nil, hentries.count_eq, List.sum_toFinset _ hnodup]
    simp only [Store.useCount, (hholds _).count_eq]
  · rw [halive, List.mem_toFinset] at hn
    have hpos := List.count_pos_iff.mpr hn
    exact Nat.lt_of_lt_of_le hpos (Nat.le_add_right _ _)

/-- The store goes when all its plugins are loaded. -/
theorem destroyStore_loaded (hinv : Inv lib s) (hrecorded : Recorded lib s)
    (hnodup : s.plugins.Nodup) (hloaded : ∀ n ∈ s.plugins, s.state n = .loaded)
    (hentries : entries.Perm s.plugins) (hholds : ∀ n, (holds n).Perm (s.dependencies n))
    {fuel : Nat} (hfuel : s.plugins.length < fuel) :
    ∃ final, destroyStore holds fuel entries s = some final ∧ final.finalized.Perm s.plugins ∧
      ∀ x ∈ s.plugins, ∀ y, TransGen (Edge lib s.plugins) x y →
        [x, y].Sublist final.finalized := by
  have hedge : ∀ x ∈ s.plugins, ∀ y, y ∈ holds x ↔ Edge lib s.plugins x y := by
    intro x hx y
    rw [(hholds x).mem_iff, hrecorded.loaded x (hloaded x hx), mem_recorded]
  have hclosed : ∀ x ∈ s.plugins.toFinset, ∀ y ∈ holds x, y ∈ s.plugins.toFinset := by
    intro x hx y hy
    rw [List.mem_toFinset] at hx ⊢
    exact ((hedge x hx y).mp hy).1
  have hcard : ((⟨s.useCount, []⟩ : State Name).alive s.plugins.toFinset).card < fuel :=
    (Finset.card_le_card Finset.sdiff_subset).trans_lt
      (Nat.lt_of_le_of_lt (List.toFinset_card_le _) hfuel)
  obtain ⟨final, hfinal, hbalanced, -⟩ := releaseAll_balanced (release_balanced hclosed fuel)
    (fun n hn => List.mem_toFinset.mpr (hentries.mem_iff.mp hn))
    (balanced_useCount hnodup hentries hholds) hcard
  have hall : ∀ n ∈ s.plugins, n ∈ final.finalized := by
    intro n hn
    refine hbalanced.finalized_of_ranked s.called.idxOf ?_ n (List.mem_toFinset.mpr hn)
    intro x hx y hy
    rw [List.mem_toFinset] at hx
    exact hinv.ordered.idxOf_lt hinv.nodup ((hinv.loaded_iff x).mp (hloaded x hx))
      ((hedge x hx y).mp hy)
  refine ⟨final, hfinal, ?_, fun x hx y hxy => ?_⟩
  · refine (List.perm_ext_iff_of_nodup hbalanced.nodup hnodup).mpr fun n => ⟨fun hn => ?_, hall n⟩
    exact List.mem_toFinset.mp (hbalanced.uncounted n hn).1
  · -- All that lies on the way from `x` is configured.
    have hreach : TransGen (Holds holds s.plugins.toFinset) y x ∧ y ∈ s.plugins := by
      induction hxy with
      | single h => exact ⟨.single ⟨List.mem_toFinset.mpr hx, (hedge x hx _).mpr h⟩, h.1⟩
      | tail _ h ih =>
        exact ⟨.head ⟨List.mem_toFinset.mpr ih.2, (hedge _ ih.2 _).mpr h⟩ ih.1, h.1⟩
    exact hbalanced.ordered.transGen.sublist (hall y hreach.2) hreach.1

end Destroy

/-- Once all plugins are loaded, the destruction of the store runs every plugin's
destructor once, and before those of all that the plugin depends on. -/
theorem destroyStore_in_order (lib : Library) (plugins : List Name) (hnodup : plugins.Nodup)
    (fuel : Nat) (hfuel : plugins.length < fuel)
    (hloaded : (loadPlugins lib fuel (preload plugins)).2 = none)
    (entries : List Name) (hentries : entries.Perm plugins) (holds : Name → List Name)
    (hholds : ∀ n, (holds n).Perm ((loadPlugins lib fuel (preload plugins)).1.dependencies n)) :
    ∃ final, destroyStore holds fuel entries (loadPlugins lib fuel (preload plugins)).1 =
      some final ∧
      final.finalized.Perm plugins ∧
      ∀ x ∈ plugins, ∀ y, TransGen (Edge lib plugins) x y → [x, y].Sublist final.finalized := by
  have hall : LoadedAll lib plugins (preload plugins) _ := loadedAll_preload hfuel
  have hrecorded := loadEach_recorded fuel plugins _ (recorded_preload lib plugins)
  rw [loadPlugins_preload] at hloaded hholds ⊢
  rw [rethrowAll_eq_none] at hloaded
  generalize loadEach lib fuel plugins (preload plugins) = r at hall hrecorded hloaded hholds ⊢
  obtain ⟨s, errors⟩ := r
  obtain rfl : s.plugins = plugins := hall.moves.plugins
  exact destroyStore_loaded hall.inv hrecorded hnodup (hall.loaded hloaded) hentries hholds hfuel

/-- Two plugins share `mpi`, and `trace` is shared at two depths. -/
def sharedLibrary : Library :=
  .ofTable [("decl_hdf5", ["mpi"], ["trace"]), ("decl_netcdf", ["mpi"], ["absent"]),
    ("mpi", [], ["trace"]), ("trace", [], [])] fun _ => none

/-- The shared plugins survive their entries in the store. -/
theorem destroyStore_in_order_shared :
    let loaded := (loadPlugins sharedLibrary 5
      (preload ["decl_hdf5", "decl_netcdf", "mpi", "trace"])).1
    ∃ final, destroyStore loaded.dependencies 5
      ["trace", "mpi", "decl_netcdf", "decl_hdf5"] loaded =
        some final ∧
      ["decl_netcdf", "trace"].Sublist final.finalized ∧
      final.finalized = ["decl_netcdf", "decl_hdf5", "mpi", "trace"] := by
  obtain ⟨final, hfinal, -, horder⟩ := destroyStore_in_order sharedLibrary
    ["decl_hdf5", "decl_netcdf", "mpi", "trace"] (by decide) 5 (by decide) (by decide)
    ["trace", "mpi", "decl_netcdf", "decl_hdf5"] (by decide) _ fun _ => .refl _
  refine ⟨final, hfinal, horder "decl_netcdf" (by decide) "trace" ?_, ?_⟩
  · exact .tail (.single ⟨by decide, .inl (by decide)⟩) (b := "mpi") ⟨by decide, .inr (by decide)⟩
  · have hrun : (destroyStore (loadPlugins sharedLibrary 5
        (preload ["decl_hdf5", "decl_netcdf", "mpi", "trace"])).1.dependencies 5
        ["trace", "mpi", "decl_netcdf", "decl_hdf5"] (loadPlugins sharedLibrary 5
          (preload ["decl_hdf5", "decl_netcdf", "mpi", "trace"])).1).map State.finalized =
        some ["decl_netcdf", "decl_hdf5", "mpi", "trace"] := by decide
    rw [hfinal] at hrun
    exact Option.some.inj hrun

end Pdi.PluginStore
