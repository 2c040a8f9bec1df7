import Mathlib.Data.List.Perm.Basic
import Pdi.PluginOrder

/-!
# All plugins of a configuration

What the loop of `load_plugins` does for any set of plugins and any order of the
map. When nothing is missing and no constructor throws, it fails exactly on a
cycle, and otherwise calls every constructor once, in the order of dependencies.
When a constructor throws, the plugin is still marked as loaded: a plugin that is
first reached later finds its requirement loaded and is built.
-/
namespace Pdi.PluginStore

open Pdi.DependencyOrder Pdi.Datatypes Pdi.Descriptor Relation

/-! ## The loop over the plugins -/

variable {plugins names : List Name}

section Loop

variable {lib : Library} {s : Store} {fuel : Nat}

/-- What the loop over a list of plugins does. -/
structure LoadedAll (lib : Library) (names : List Name) (s : Store) (r : Store × List Failure) :
    Prop where
  inv : Inv lib r.1
  moves : Moves s r.1
  loaded : r.2 = [] → ∀ n ∈ names, r.1.state n = .loaded
  genuine : ∀ e ∈ r.2, ∃ context e', e = rethrow context e' ∧ Genuine lib s.plugins e'
  clear : (∀ n ∈ names, Clear lib s n) → r.2 = []

theorem loadedAll (hinv : Inv lib s) (hnames : names ⊆ s.plugins) (hfuel : s.unvisited < fuel) :
    LoadedAll lib names s (loadEach lib fuel names s) := by
  induction names generalizing s with
  | nil => exact ⟨hinv, .refl s, by simp, by simp [loadEach], fun _ => rfl⟩
  | cons name rest ih =>
    have hvisited : Visited lib name s _ := visited hinv (hnames List.mem_cons_self) hfuel
    rw [loadEach]
    generalize ensureLoaded lib fuel name s = o at hvisited
    obtain ⟨s₁, error⟩ := o
    have hplugins : s₁.plugins = s.plugins := hvisited.moves.plugins
    have hle : s₁.unvisited ≤ s.unvisited := hvisited.moves.unvisited_le
    have hrest := ih hvisited.inv (fun n hn => hplugins ▸ hnames (List.mem_cons_of_mem _ hn))
      (by dsimp only; omega)
    dsimp only at hrest ⊢
    have hnone (h : (error.map (rethrow ("while loading plugin `" ++ name ++ "', "))).toList = []) :
        error = none := by cases error <;> simp_all
    refine ⟨hrest.inv, hvisited.moves.trans hrest.moves, ?_, ?_, ?_⟩
    · intro hempty n hn
      obtain ⟨herror, hothers⟩ := List.append_eq_nil_iff.mp hempty
      obtain rfl | hn := List.mem_cons.mp hn
      · have hn₁ : s₁.state n = .loaded := hvisited.loaded (hnone herror)
        rw [hrest.moves.visited n (by simp [hn₁]), hn₁]
      · exact hrest.loaded hothers n hn
    · intro e he
      obtain he | he := List.mem_append.mp he
      · obtain ⟨e', he', rfl⟩ := Option.map_eq_some_iff.mp (Option.mem_toList.mp he)
        exact ⟨_, e', rfl, hvisited.genuine e' he'⟩
      · exact hplugins ▸ hrest.genuine e he
    · intro hclear
      have herror : error = none := hvisited.clear (hclear name List.mem_cons_self)
      subst herror
      refine hrest.clear fun n hn => ?_
      exact (hclear n (List.mem_cons_of_mem _ hn)).mono hvisited.moves (hvisited.unwound rfl)

theorem loadPlugins_preload (plugins : List Name) : loadPlugins lib fuel (preload plugins) =
    ((loadEach lib fuel plugins (preload plugins)).1,
      rethrowAll "" (loadEach lib fuel plugins (preload plugins)).2) := rfl

theorem unvisited_preload (plugins : List Name) : (preload plugins).unvisited ≤ plugins.length :=
  List.countP_le_length

theorem loadedAll_preload (hfuel : plugins.length < fuel) :
    LoadedAll lib plugins (preload plugins) (loadEach lib fuel plugins (preload plugins)) :=
  loadedAll (inv_preload plugins) (fun _ h => h) (by have := unvisited_preload plugins; omega)

end Loop

/-- Nothing depends on fuel, an error is thrown exactly for a cycle, and otherwise
each constructor has been called once and in order. -/
theorem loadPlugins_in_order (lib : Library) (plugins : List Name) (hnodup : plugins.Nodup)
    (hrequired : ∀ x ∈ plugins, ∀ r ∈ lib.required x, r ∈ plugins)
    (hctr : ∀ x ∈ plugins, lib.ctr x = none) (fuel : Nat) (hfuel : plugins.length < fuel) :
    let outcome := loadPlugins lib fuel (preload plugins)
    noEnd ∉ (loadEach lib fuel plugins (preload plugins)).2 ∧
      (outcome.2 ≠ none ↔ ∃ x ∈ plugins, TransGen (Edge lib plugins) x x) ∧
      (outcome.2 = none → outcome.1.called.Perm plugins ∧
        Ordered (Edge lib plugins) outcome.1.called) := by
  have hall : LoadedAll lib plugins (preload plugins) _ := loadedAll_preload hfuel
  rw [loadPlugins_preload]
  generalize loadEach lib fuel plugins (preload plugins) = r at hall
  obtain ⟨s, errors⟩ := r
  have hplugins : s.plugins = plugins := hall.moves.plugins
  dsimp only
  rw [Ne, rethrowAll_eq_none]
  have hcalled (hempty : errors = []) : s.called.Perm plugins := by
    refine (List.perm_ext_iff_of_nodup hall.inv.nodup hnodup).mpr fun n => ⟨?_, ?_⟩
    · exact fun hn => hplugins ▸ hall.inv.configured n hn
    · exact fun hn => (hall.inv.loaded_iff n).mp (hall.loaded hempty n hn)
  have hordered : Ordered (Edge lib plugins) s.called := hplugins ▸ hall.inv.ordered
  refine ⟨?_, ⟨?_, ?_⟩, ?_⟩
  · intro hmem
    obtain ⟨context, e, heq, rfl | ⟨x, y, rfl⟩ | ⟨x, hx, he⟩⟩ := hall.genuine noEnd hmem
    · cases heq
    · cases heq
    · rw [hctr x hx] at he
      cases he
  · -- without a cycle every plugin is clear
    intro herror
    by_contra hacyclic
    refine herror (hall.clear fun n hn z hz => ?_)
    have hmem : z ∈ plugins := by
      obtain rfl | ⟨_, -, h⟩ := ReflTransGen.cases_tail hz
      · exact hn
      · exact h.1
    exact ⟨hrequired z hmem, fun hcycle => hacyclic ⟨z, hmem, hcycle⟩, nofun, .inr (hctr z hmem)⟩
  · rintro ⟨x, hx, hcycle⟩ hempty
    exact hordered.acyclic ((hcalled hempty).mem_iff.mpr hx) hcycle
  · exact fun hempty => ⟨hcalled hempty, hordered⟩

/-- A library given by a table of names with what they require and what is optional. -/
def Library.ofTable (table : List (Name × List Name × List Name))
    (ctr : Name → Option Failure) : Library where
  required x := ((table.lookup x).getD ([], [])).1
  optional x := ((table.lookup x).getD ([], [])).2
  ctr := ctr

def tracingLibrary : Library :=
  .ofTable [("decl_hdf5", ["mpi"], ["trace"]), ("mpi", [], ["absent"]), ("trace", [], [])]
    fun _ => none

theorem loadPlugins_in_order_tracing :
    (loadPlugins tracingLibrary 4 (preload ["decl_hdf5", "mpi", "trace"])).1.called.Perm
        ["decl_hdf5", "mpi", "trace"] ∧
      (loadPlugins tracingLibrary 4 (preload ["decl_hdf5", "mpi", "trace"])).1.called =
        ["mpi", "trace", "decl_hdf5"] :=
  ⟨((loadPlugins_in_order tracingLibrary ["decl_hdf5", "mpi", "trace"] (by decide) (by decide)
    (by decide) 4 (by decide)).2.2 (by decide)).1, by decide⟩

/-! ## Constructors that throw -/

section Failing

variable {lib : Library} {s : Store} {fuel : Nat} {x : Name}

/-- The plugin `mpi` throws. -/
def failingLibrary : Library :=
  .ofTable [("decl_hdf5", ["mpi"], []), ("mpi", [], []), ("pycall", ["mpi"], [])]
    fun x => if x = "mpi" then some (.error .system "no device") else none

/-- Whatever is missing, circular or throws: no constructor is called twice, or before
those of its dependencies, or without a required plugin. If nothing is thrown at the
end, all have been called. -/
theorem loadPlugins_calls (hfuel : plugins.length < fuel) :
    let outcome := loadPlugins lib fuel (preload plugins)
    outcome.1.called.Nodup ∧ Ordered (Edge lib plugins) outcome.1.called ∧
      (∀ n ∈ outcome.1.called, n ∈ plugins ∧ ∀ r ∈ lib.required n, r ∈ plugins) ∧
      (outcome.2 = none → ∀ n ∈ plugins, n ∈ outcome.1.called) := by
  have hall : LoadedAll lib plugins (preload plugins) _ := loadedAll_preload hfuel
  rw [loadPlugins_preload]
  generalize loadEach lib fuel plugins (preload plugins) = r at hall
  obtain rfl : r.1.plugins = plugins := hall.moves.plugins
  refine ⟨hall.inv.nodup, hall.inv.ordered, fun n hn => ?_, fun h n hn => ?_⟩
  · exact ⟨hall.inv.configured n hn, hall.inv.complete n hn⟩
  · exact (hall.inv.loaded_iff n).mp (hall.loaded (rethrowAll_eq_none.mp h) n hn)

theorem loadPlugins_calls_failing :
    let outcome := loadPlugins failingLibrary 3 (preload ["mpi", "pycall"])
    outcome.1.called.Nodup ∧ outcome.2 ≠ none :=
  ⟨(loadPlugins_calls (by decide)).1, by decide⟩

end Failing

end Pdi.PluginStore
