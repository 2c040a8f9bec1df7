import Pdi.PluginStore

/-!
# The order in which plugins are loaded

The loader is a depth-first search with three states. Whatever fails, a plugin is
only marked as loaded after all its dependencies, so the constructors are called
in the order of the dependencies. What a visit does to a plugin shows in the store
it starts from: the plugin is loaded exactly if nothing that it leads to is missing,
on a cycle, left behind by an error, or still to throw one.
-/
namespace Pdi.PluginStore

open Pdi.DependencyOrder Pdi.Datatypes Pdi.Descriptor Relation

/-! ## What holds while plugins are loaded -/

variable {s s' : Store} {x : Name} {recur : Name → Store → Outcome}

section Invariant

variable {lib : Library}

/-- A plugin is marked as loaded when its constructor has been called, once and
after those of its dependencies. -/
structure Inv (lib : Library) (s : Store) : Prop where
  nodup : s.called.Nodup
  ordered : Ordered (Edge lib s.plugins) s.called
  loaded_iff : ∀ n, s.state n = .loaded ↔ n ∈ s.called
  configured : ∀ n ∈ s.called, n ∈ s.plugins
  complete : ∀ n ∈ s.called, ∀ r ∈ lib.required n, r ∈ s.plugins
  outcomes : ∀ c ∈ s.log, c.2 = lib.ctr c.1

/-- A visit only changes the states of plugins that were not visited before, and
adds to the log. -/
structure Moves (s s' : Store) : Prop where
  plugins : s'.plugins = s.plugins
  visited : ∀ n, s.state n ≠ .preloaded → s'.state n = s.state n
  log : s.log <+: s'.log

theorem Moves.refl (s : Store) : Moves s s := ⟨rfl, fun _ _ => rfl, List.prefix_refl _⟩

theorem Moves.trans {s'' : Store} (h : Moves s s') (h' : Moves s' s'') : Moves s s'' := by
  refine ⟨h'.plugins.trans h.plugins, ?_, h.log.trans h'.log⟩
  intro n hn
  rw [h'.visited n (by rwa [h.visited n hn]), h.visited n hn]

theorem inv_preload (plugins : List Name) : Inv lib (preload plugins) := by
  refine ⟨List.nodup_nil, .nil, ?_, ?_, ?_, ?_⟩ <;> simp [preload, Store.called]

/-- The number of plugins that are not visited yet. -/
def Store.unvisited (s : Store) : Nat := s.plugins.countP fun n => s.state n = .preloaded

theorem Moves.unvisited_le (h : Moves s s') : s'.unvisited ≤ s.unvisited := by
  unfold Store.unvisited
  rw [h.plugins]
  refine List.countP_mono_left fun n _ hn => ?_
  by_contra hne
  have := h.visited n (by simpa using hne)
  simp_all

theorem unvisited_setState {name : Name} (hmem : name ∈ s.plugins)
    (hstate : s.state name = .preloaded) : (s.setState name .loading).unvisited < s.unvisited := by
  have hle (l : List Name) : l.countP (fun n => (s.setState name .loading).state n = .preloaded) ≤
      l.countP (fun n => s.state n = .preloaded) := by
    refine List.countP_mono_left fun n _ hn => ?_
    by_cases h : n = name <;> simp_all [Store.setState]
  obtain ⟨l₁, l₂, hsplit⟩ := List.append_of_mem hmem
  unfold Store.unvisited
  change List.countP _ s.plugins < _
  have h₁ := hle l₁
  have h₂ := hle l₂
  have hname : (s.setState name .loading).state name = .loading := by simp [Store.setState]
  rw [hsplit]
  simp only [List.countP_append, List.countP_cons, hname, hstate]
  simp only [reduceCtorEq, decide_false, decide_true, if_true, Bool.false_eq_true, if_false]
  omega

/-- Errors that the code throws, as opposed to fuel that has run out. -/
def Genuine (lib : Library) (plugins : List Name) (e : Failure) : Prop :=
  e = circularDependency ∨ (∃ x y, e = notLoaded x y) ∨ ∃ x ∈ plugins, lib.ctr x = some e

section Clear

variable (lib)

/-- The plugin and all that it leads to have what they require and no cycle, are not being
loaded, and are loaded or have a constructor that completes. -/
def Clear (s : Store) (x : Name) : Prop :=
  ∀ z, ReflTransGen (Edge lib s.plugins) x z →
    (∀ r ∈ lib.required z, r ∈ s.plugins) ∧ ¬ TransGen (Edge lib s.plugins) z z ∧
      s.state z ≠ .loading ∧ (s.state z = .loaded ∨ lib.ctr z = none)

/-- What the plugin requires is there, and all that it depends on is clear. -/
def Ready (s : Store) (x : Name) : Prop :=
  (∀ r ∈ lib.required x, r ∈ s.plugins) ∧ ∀ d, Edge lib s.plugins x d → Clear lib s d

variable {lib}

theorem Clear.ready (h : Clear lib s x) : Ready lib s x :=
  ⟨(h x .refl).1, fun _ hd z hz => h z (.head hd hz)⟩

theorem Ready.acyclic (h : Ready lib s x) : ¬ TransGen (Edge lib s.plugins) x x := by
  intro hcycle
  obtain ⟨d, hd, hback⟩ := TransGen.head'_iff.mp hcycle
  exact (h.2 d hd d .refl).2.1 (.tail' hback hd)

/-- A store where no more plugins are being loaded. -/
theorem Clear.mono (h : Clear lib s x) (hmoves : Moves s s')
    (hloading : ∀ z, s'.state z = .loading → s.state z = .loading) : Clear lib s' x := by
  intro z hz
  rw [hmoves.plugins] at hz ⊢
  obtain ⟨hcomplete, hacyclic, hz, hctr⟩ := h z hz
  refine ⟨hcomplete, hacyclic, fun h => hz (hloading z h), hctr.imp_left fun h => ?_⟩
  rw [hmoves.visited z (by rw [h]; nofun), h]

theorem Ready.mono (h : Ready lib s x) (hmoves : Moves s s')
    (hloading : ∀ z, s'.state z = .loading → s.state z = .loading) : Ready lib s' x := by
  rw [Ready, hmoves.plugins]
  exact ⟨h.1, fun d hd => (h.2 d hd).mono hmoves hloading⟩

/-- A plugin that is being loaded stands in the way of those that lead to it. -/
theorem Ready.setLoading {w : Name} (h : Ready lib s w) (hx : ¬ TransGen (Edge lib s.plugins) w x) :
    Ready lib (s.setState x .loading) w := by
  refine ⟨h.1, fun d hd z hz => ?_⟩
  have hne : z ≠ x := by
    rintro rfl
    exact hx (.head' hd hz)
  obtain ⟨hcomplete, hacyclic, hstate⟩ := h.2 d hd z hz
  refine ⟨hcomplete, hacyclic, ?_⟩
  simpa only [Store.setState, if_neg hne] using hstate

end Clear

/-- What a part of the loading does to the plugins that it is the first to visit. -/
structure Progress (lib : Library) (s : Store) (o : Outcome) : Prop where
  inv : Inv lib o.1
  moves : Moves s o.1
  unwound : o.2 = none → ∀ z, o.1.state z = .loading → s.state z = .loading
  quiet : o.2 = none → ∀ z, o.1.state z = .loaded → s.state z = .loaded ∨ lib.ctr z = none
  ready : ∀ w, s.state w = .preloaded → o.1.state w ≠ .preloaded → Ready lib s w →
    o.1.state w = .loaded
  completed : ∀ w, s.state w = .preloaded → o.1.state w = .loaded →
    ∀ z, TransGen (Edge lib s.plugins) w z → s.state z = .loaded ∨ lib.ctr z = none

theorem Progress.refl (hinv : Inv lib s) (error : Option Failure) : Progress lib s (s, error) :=
  ⟨hinv, .refl s, fun _ _ h => h, fun _ _ h => .inl h, fun _ h h' => absurd h h',
    fun _ h h' => nomatch h.symm.trans h'⟩

/-- An error ends the loading, so the second part starts where none was thrown. -/
theorem Progress.trans {o : Outcome} (h : Progress lib s (s', none)) (h' : Progress lib s' o) :
    Progress lib s o := by
  have hplugins : s'.plugins = s.plugins := h.moves.plugins
  have hstate (w : Name) (hw : s.state w = .preloaded) (hvisited : s'.state w ≠ .preloaded) :
      s'.state w = o.1.state w ∧ s'.state w ≠ .preloaded :=
    ⟨(h'.moves.visited w hvisited).symm, hvisited⟩
  refine ⟨h'.inv, h.moves.trans h'.moves, ?_, ?_, ?_, ?_⟩
  · exact fun hnone z hz => h.unwound rfl z (h'.unwound hnone z hz)
  · intro hnone z hz
    exact (h'.quiet hnone z hz).elim (h.quiet rfl z) .inr
  · intro w hw hvisited hready
    by_cases hfirst : s'.state w = .preloaded
    · exact h'.ready w hfirst hvisited (hready.mono h.moves (h.unwound rfl))
    · rw [← (hstate w hw hfirst).1]
      exact h.ready w hw hfirst hready
  · intro w hw hloaded z hz
    by_cases hfirst : s'.state w = .preloaded
    · exact (h'.completed w hfirst hloaded z (hplugins ▸ hz)).elim (h.quiet rfl z) .inr
    · exact h.completed w hw ((hstate w hw hfirst).1.trans hloaded) z hz

/-- A plugin that is visited for the first time is loaded exactly if it is ready. -/
theorem Progress.loaded_iff {o : Outcome} {w : Name} (h : Progress lib s o)
    (hw : s.state w = .preloaded) (hvisited : o.1.state w ≠ .preloaded) :
    o.1.state w = .loaded ↔ Ready lib s w := by
  refine ⟨fun hloaded => ?_, h.ready w hw hvisited⟩
  have hcalled : w ∈ o.1.called := (h.inv.loaded_iff w).mp hloaded
  have hplugins : o.1.plugins = s.plugins := h.moves.plugins
  refine ⟨fun r hr => hplugins ▸ h.inv.complete w hcalled r hr, fun d hd z hz => ?_⟩
  have hwz : TransGen (Edge lib s.plugins) w z := .head' hd hz
  have hz : z ∈ o.1.called := h.inv.ordered.reaches hcalled (hplugins ▸ hwz.to_reflTransGen)
  refine ⟨fun r hr => hplugins ▸ h.inv.complete z hz r hr, ?_, fun hloading => ?_,
    h.completed w hw hloaded z hwz⟩
  · rw [← hplugins]
    exact h.inv.ordered.acyclic hz
  · rw [← h.inv.loaded_iff, h.moves.visited z (by rw [hloading]; nofun), hloading] at hz
    cases hz

/-- The recorded dependencies play no part in what is visited. -/
theorem Inv.addDependency (h : Inv lib s) (name d : Name) :
    Inv lib (s.addDependency name d) := ⟨h.1, h.2, h.3, h.4, h.5, h.6⟩

theorem moves_addDependency (s : Store) (name d : Name) : Moves s (s.addDependency name d) :=
  ⟨rfl, fun _ _ => rfl, List.prefix_refl _⟩

theorem Progress.of_addDependency {o : Outcome} {name d : Name}
    (h : Progress lib (s.addDependency name d) o) : Progress lib s o :=
  ⟨h.inv, (moves_addDependency s name d).trans h.moves, h.unwound, h.quiet, h.ready, h.completed⟩

/-- What a visit of the plugin `x` does. -/
structure Visited (lib : Library) (x : Name) (s : Store) (o : Outcome) : Prop
    extends Progress lib s o where
  loaded : o.2 = none → o.1.state x = .loaded
  genuine : ∀ e, o.2 = some e → Genuine lib s.plugins e
  below : ∀ w, s.state w = .preloaded → o.1.state w ≠ .preloaded →
    ReflTransGen (Edge lib s.plugins) x w
  clear : Clear lib s x → o.2 = none

/-- What a loop over dependencies does. -/
structure Walked (lib : Library) (absent : Name → Option Failure) (ds : List Name) (s : Store)
    (o : Outcome) : Prop extends Progress lib s o where
  loaded : o.2 = none → ∀ d ∈ ds, d ∈ s.plugins → o.1.state d = .loaded
  present : o.2 = none → ∀ d ∈ ds, absent d ≠ none → d ∈ s.plugins
  genuine : ∀ e, o.2 = some e → Genuine lib s.plugins e ∨ ∃ d ∈ ds, absent d = some e
  below : ∀ w, s.state w = .preloaded → o.1.state w ≠ .preloaded →
    ∃ d ∈ ds, d ∈ s.plugins ∧ ReflTransGen (Edge lib s.plugins) d w
  clear : (∀ d ∈ ds, absent d ≠ none → d ∈ s.plugins) →
    (∀ d ∈ ds, d ∈ s.plugins → Clear lib s d) → o.2 = none

section Walk

variable {absent : Name → Option Failure} {name d : Name} {ds : List Name} {s₁ : Store}
  {o : Outcome} {e : Failure}

/-- The dependency is loaded, and the loop goes on. -/
theorem Walked.visit (hd : d ∈ s.plugins)
    (hvisited : Visited lib d (s.addDependency name d) (s₁, none))
    (hwalked : Walked lib absent ds s₁ o) : Walked lib absent (d :: ds) s o := by
  have hfirst : Progress lib s (s₁, none) := hvisited.toProgress.of_addDependency
  have hplugins : s₁.plugins = s.plugins := hfirst.moves.plugins
  have hd₁ : s₁.state d = .loaded := hvisited.loaded rfl
  refine ⟨hfirst.trans hwalked.toProgress, ?_, ?_, ?_, ?_, ?_⟩
  · intro hnone d' hd' hmem
    obtain rfl | hd' := List.mem_cons.mp hd'
    · rw [hwalked.moves.visited d' (by simp [hd₁]), hd₁]
    · exact hwalked.loaded hnone d' hd' (hplugins ▸ hmem)
  · intro hnone d' hd' habsent
    obtain rfl | hd' := List.mem_cons.mp hd'
    · exact hd
    · exact hplugins ▸ hwalked.present hnone d' hd' habsent
  · intro e he
    rw [← hplugins]
    exact (hwalked.genuine e he).imp id fun ⟨d', hd', h⟩ => ⟨d', List.mem_cons_of_mem _ hd', h⟩
  · intro w hw hnew
    by_cases hfirst : s₁.state w = .preloaded
    · obtain ⟨d', hd', hmem, hbelow⟩ := hwalked.below w hfirst hnew
      rw [hplugins] at hmem hbelow
      exact ⟨d', List.mem_cons_of_mem _ hd', hmem, hbelow⟩
    · exact ⟨d, List.mem_cons_self, hd, hvisited.below w hw hfirst⟩
  · intro hpresent hclear
    refine hwalked.clear (fun d' hd' habsent => ?_) fun d' hd' hmem => ?_
    · exact hplugins ▸ hpresent d' (List.mem_cons_of_mem _ hd') habsent
    · exact (hclear d' (List.mem_cons_of_mem _ hd') (hplugins ▸ hmem)).mono hfirst.moves
        (hfirst.unwound rfl)

/-- The visit of the dependency throws. -/
theorem Walked.throw (hd : d ∈ s.plugins)
    (hvisited : Visited lib d (s.addDependency name d) (s₁, some e)) :
    Walked lib absent (d :: ds) s (s₁, some e) := by
  refine ⟨hvisited.toProgress.of_addDependency, nofun, nofun, ?_, ?_, ?_⟩
  · exact fun e he => .inl (hvisited.genuine e he)
  · exact fun w hw hnew => ⟨d, List.mem_cons_self, hd, hvisited.below w hw hnew⟩
  · exact fun _ hclear => hvisited.clear (hclear d List.mem_cons_self hd)

/-- The dependency is not configured, which is an error. -/
theorem Walked.missing (hinv : Inv lib s) (hd : d ∉ s.plugins) (he : absent d = some e) :
    Walked lib absent (d :: ds) s (s, some e) := by
  refine ⟨.refl hinv _, nofun, nofun, ?_, fun _ h h' => absurd h h', ?_⟩
  · rintro _ ⟨⟩
    exact .inr ⟨d, List.mem_cons_self, he⟩
  · intro hpresent _
    exact absurd (hpresent d List.mem_cons_self (by simp [he])) hd

/-- The dependency is not configured and need not be. -/
theorem Walked.skip (hd : d ∉ s.plugins) (he : absent d = none)
    (hwalked : Walked lib absent ds s o) :
    Walked lib absent (d :: ds) s o := by
  refine ⟨hwalked.toProgress, ?_, ?_, ?_, ?_, ?_⟩
  · intro hnone d' hd' hmem
    obtain rfl | hd' := List.mem_cons.mp hd'
    · exact absurd hmem hd
    · exact hwalked.loaded hnone d' hd' hmem
  · intro hnone d' hd' habsent
    obtain rfl | hd' := List.mem_cons.mp hd'
    · exact absurd he habsent
    · exact hwalked.present hnone d' hd' habsent
  · intro e he
    exact (hwalked.genuine e he).imp id fun ⟨d', hd', h⟩ => ⟨d', List.mem_cons_of_mem _ hd', h⟩
  · intro w hw hnew
    obtain ⟨d', hd', h⟩ := hwalked.below w hw hnew
    exact ⟨d', List.mem_cons_of_mem _ hd', h⟩
  · intro hpresent hclear
    exact hwalked.clear (fun d' hd' => hpresent d' (List.mem_cons_of_mem _ hd'))
      fun d' hd' => hclear d' (List.mem_cons_of_mem _ hd')

theorem walked (name : Name) (hinv : Inv lib s)
    (hrecur : ∀ d ∈ s.plugins, ∀ s', Inv lib s' → Moves s s' → Visited lib d s' (recur d s')) :
    Walked lib absent ds s (loadDependencies recur name absent ds s) := by
  induction ds generalizing s with
  | nil => exact ⟨.refl hinv _, by simp, by simp [loadDependencies], by simp [loadDependencies],
      fun _ h h' => absurd h h', fun _ _ => rfl⟩
  | cons d ds ih =>
    rw [loadDependencies]
    split
    · next hd =>
      have hstart := moves_addDependency s name d
      have hvisited := hrecur d hd _ (hinv.addDependency name d) hstart
      generalize recur d (s.addDependency name d) = o at hvisited
      obtain ⟨s₁, _ | e⟩ := o
      · have hmoves : Moves s s₁ := hstart.trans hvisited.moves
        refine .visit hd hvisited (ih hvisited.inv ?_)
        intro d' hd' s' hinv' hs'
        exact hrecur d' (hmoves.plugins ▸ hd') s' hinv' (hmoves.trans hs')
      · exact .throw hd hvisited
    · next hd =>
      split
      · next e he => exact .missing hinv hd he
      · next he => exact .skip hd he (ih hinv hrecur)

end Walk

/-- The constructor is called when all dependencies are loaded. -/
theorem Inv.construct (h : Inv lib s) (hx : x ∈ s.plugins) (hstate : s.state x = .loading)
    (hedge : ∀ d, Edge lib s.plugins x d → s.state d = .loaded)
    (hrequired : ∀ r ∈ lib.required x, r ∈ s.plugins) : Inv lib (construct lib x s).1 := by
  have hcalled : (PluginStore.construct lib x s).1.called = s.called ++ [x] := by
    simp [PluginStore.construct, Store.called]
  have hnew : x ∉ s.called := by
    rw [← h.loaded_iff, hstate]
    nofun
  have hmem {n : Name} : n ∈ s.called ++ [x] ↔ n ∈ s.called ∨ n = x := by simp
  constructor
  · rw [hcalled]
    exact List.nodup_append.mpr ⟨h.nodup, by simp, by rintro n hn _ hm rfl; simp_all⟩
  · rw [hcalled]
    exact h.ordered.concat fun d hd => (h.loaded_iff d).mp (hedge d hd)
  · intro n
    rw [hcalled, hmem, ← h.loaded_iff]
    by_cases hn : n = x <;> simp [PluginStore.construct, Store.setState, hn]
  · intro n hn
    rw [hcalled, hmem] at hn
    exact hn.elim (h.configured n) fun heq => heq ▸ hx
  · intro n hn
    rw [hcalled, hmem] at hn
    exact hn.elim (h.complete n) fun heq => heq ▸ hrequired
  · intro c hc
    obtain hc | hc := List.mem_append.mp hc
    · exact h.outcomes c hc
    · rw [List.mem_singleton.mp hc]

theorem Inv.setLoading (h : Inv lib s) (hx : s.state x = .preloaded) :
    Inv lib (s.setState x .loading) := by
  refine ⟨h.nodup, h.ordered, ?_, h.configured, h.complete, h.outcomes⟩
  intro n
  have hiff := h.loaded_iff n
  by_cases hn : n = x
  · subst hn
    rw [hx] at hiff
    simp [Store.setState]
    exact fun hmem => nomatch hiff.mpr hmem
  · change (if n = x then InitState.loading else s.state n) = .loaded ↔ n ∈ s.called
    rwa [if_neg hn]

theorem moves_setLoading (hx : s.state x = .preloaded) : Moves s (s.setState x .loading) := by
  refine ⟨rfl, ?_, List.prefix_refl _⟩
  intro n hn
  have hne : n ≠ x := by
    rintro rfl
    exact hn hx
  simp [Store.setState, hne]

/-- What the two loops over the dependencies of `x` do. -/
structure Prepared (lib : Library) (x : Name) (s : Store) (o : Outcome) : Prop
    extends Progress lib s o where
  loaded : o.2 = none → ∀ d, Edge lib s.plugins x d → o.1.state d = .loaded
  complete : o.2 = none → ∀ r ∈ lib.required x, r ∈ s.plugins
  genuine : ∀ e, o.2 = some e → Genuine lib s.plugins e
  below : ∀ w, s.state w = .preloaded → o.1.state w ≠ .preloaded →
    TransGen (Edge lib s.plugins) x w
  clear : Ready lib s x → o.2 = none

theorem prepared (hinv : Inv lib s)
    (hrecur : ∀ d ∈ s.plugins, ∀ s', Inv lib s' → Moves s s' → Visited lib d s' (recur d s')) :
    Prepared lib x s (loadBoth lib recur x s) := by
  have hrequired : Walked lib (fun d => some (notLoaded x d)) (lib.required x) s
    (loadRequired recur x (lib.required x) s) := walked x hinv hrecur
  have hgenuine {ds : List Name} {o : Outcome}
      (h : Walked lib (fun d => some (notLoaded x d)) ds s o) (e : Failure) (he : o.2 = some e) :
      Genuine lib s.plugins e := by
    obtain h | ⟨d, -, hd⟩ := h.genuine e he
    · exact h
    · exact .inr (.inl ⟨x, d, (Option.some.inj hd).symm⟩)
  have hbelow (w : Name) (hw : s.state w = .preloaded)
      (hnew : (loadRequired recur x (lib.required x) s).1.state w ≠ .preloaded) :
      TransGen (Edge lib s.plugins) x w := by
    obtain ⟨d, hd, hmem, hdw⟩ := hrequired.below w hw hnew
    exact .head' ⟨hmem, .inl hd⟩ hdw
  have hclear (hready : Ready lib s x) : (loadRequired recur x (lib.required x) s).2 = none :=
    hrequired.clear (fun d hd _ => hready.1 d hd) fun d hd hmem => hready.2 d ⟨hmem, .inl hd⟩
  unfold loadBoth
  generalize loadRequired recur x (lib.required x) s = o at hrequired hbelow hclear
  obtain ⟨s₁, _ | e⟩ := o
  · have hplugins : s₁.plugins = s.plugins := hrequired.moves.plugins
    have hoptional : Walked lib (fun _ => none) (lib.optional x) s₁
        (loadOptional recur x (lib.optional x) s₁) :=
      walked x hrequired.inv fun d hd s' hinv' hs' =>
        hrecur d (hplugins ▸ hd) s' hinv' (hrequired.moves.trans hs')
    dsimp only at hbelow ⊢
    refine ⟨hrequired.toProgress.trans hoptional.toProgress, ?_, ?_, ?_, ?_, ?_⟩
    · rintro hnone d ⟨hmem, hd | hd⟩
      · have hd₁ : s₁.state d = .loaded := hrequired.loaded rfl d hd hmem
        rw [hoptional.moves.visited d (by simp [hd₁]), hd₁]
      · exact hoptional.loaded hnone d hd (hplugins ▸ hmem)
    · exact fun _ r hr => hrequired.present rfl r hr nofun
    · intro e he
      obtain h | ⟨d, -, hd⟩ := hoptional.genuine e he
      · exact hplugins ▸ h
      · cases hd
    · intro w hw hnew
      by_cases hfirst : s₁.state w = .preloaded
      · obtain ⟨d, hd, hmem, hdw⟩ := hoptional.below w hfirst hnew
        rw [hplugins] at hmem hdw
        exact .head' ⟨hmem, .inr hd⟩ hdw
      · exact hbelow w hw hfirst
    · intro hready
      refine hoptional.clear (fun _ _ h => absurd rfl h) fun d hd hmem => ?_
      exact (hready.2 d ⟨hplugins ▸ hmem, .inr hd⟩).mono hrequired.moves (hrequired.unwound rfl)
  · exact ⟨hrequired.toProgress, nofun, nofun, hgenuine hrequired, hbelow, hclear⟩

section Visit

variable {s₁ : Store} {o : Outcome} {e : Failure}

theorem state_setLoading {z : Name} {state : InitState} (hne : state ≠ .loading)
    (hz : (s.setState x .loading).state z = state) : s.state z = state := by
  by_cases hzx : z = x
  · simp only [Store.setState, if_pos hzx] at hz
    exact absurd hz.symm hne
  · simpa only [Store.setState, if_neg hzx] using hz

/-- The plugins other than `x` that are visited, in the store before `x` is marked. -/
theorem Prepared.others (h : Prepared lib x (s.setState x .loading) o) {w : Name} (hwx : w ≠ x)
    (hw : s.state w = .preloaded) :
    (o.1.state w ≠ .preloaded → TransGen (Edge lib s.plugins) x w ∧
      (Ready lib s w → o.1.state w = .loaded)) ∧
    (o.1.state w = .loaded → ∀ z, TransGen (Edge lib s.plugins) w z →
      s.state z = .loaded ∨ lib.ctr z = none) := by
  have hw' : (s.setState x .loading).state w = .preloaded := by
    simpa only [Store.setState, if_neg hwx] using hw
  refine ⟨fun hnew => ⟨h.below w hw' hnew, fun hready => ?_⟩, fun hloaded z hz => ?_⟩
  · refine h.ready w hw' hnew (hready.setLoading fun hback => ?_)
    exact hready.acyclic (hback.trans (h.below w hw' hnew))
  · exact (h.completed w hw' hloaded z hz).imp_left (state_setLoading nofun)

theorem Prepared.state_self (h : Prepared lib x (s.setState x .loading) o) :
    o.1.state x = .loading := by
  rw [h.moves.visited x (by simp [Store.setState])]
  simp [Store.setState]

/-- The loops throw, and `x` is left as it is. -/
theorem Prepared.thrown (h : Prepared lib x (s.setState x .loading) (s₁, some e))
    (hstate : s.state x = .preloaded) : Visited lib x s (s₁, some e) := by
  have hready (hready : Ready lib s x) : False :=
    nomatch h.clear (hready.setLoading hready.acyclic)
  refine ⟨⟨h.inv, (moves_setLoading hstate).trans h.moves, nofun, nofun, ?_, ?_⟩, nofun,
    h.genuine, ?_, fun hclear => (hready hclear.ready).elim⟩
  · intro w hw hnew hready'
    by_cases hwx : w = x
    · exact (hready (hwx ▸ hready')).elim
    · exact ((h.others hwx hw).1 hnew).2 hready'
  · intro w hw hloaded
    have hwx : w ≠ x := by
      rintro rfl
      exact nomatch h.state_self.symm.trans hloaded
    exact (h.others hwx hw).2 hloaded
  · intro w hw hnew
    by_cases hwx : w = x
    · rw [hwx]
    · exact ((h.others hwx hw).1 hnew).1.to_reflTransGen

/-- The constructor is called after the dependencies are loaded. -/
theorem Prepared.constructed (h : Prepared lib x (s.setState x .loading) (s₁, none))
    (hx : x ∈ s.plugins) (hstate : s.state x = .preloaded) :
    Visited lib x s (construct lib x s₁) := by
  have hmoves := (moves_setLoading hstate).trans h.moves
  have hplugins : s₁.plugins = s.plugins := hmoves.plugins
  have hx₁ : s₁.state x = .loading := h.state_self
  have hself : (construct lib x s₁).1.state x = .loaded := by simp [construct, Store.setState]
  have hset {z : Name} (hzx : z ≠ x) : (construct lib x s₁).1.state z = s₁.state z := by
    simp [construct, Store.setState, hzx]
  have hquiet (z : Name) (hz : s₁.state z = .loaded) : s.state z = .loaded ∨ lib.ctr z = none :=
    (h.quiet rfl z hz).imp_left (state_setLoading nofun)
  refine ⟨⟨?_, ?_, ?_, ?_, ?_, ?_⟩, fun _ => hself, ?_, ?_, ?_⟩
  · refine h.inv.construct (hplugins ▸ hx) hx₁ ?_ ?_
    · exact fun d hd => h.loaded rfl d (hplugins ▸ hd)
    · exact fun r hr => hplugins ▸ h.complete rfl r hr
  · refine ⟨hplugins, ?_, hmoves.log.trans (List.prefix_append _ _)⟩
    intro n hn
    have hnx : n ≠ x := by
      rintro rfl
      exact hn hstate
    rw [hset hnx]
    exact hmoves.visited n hn
  · intro _ z hz
    have hzx : z ≠ x := by
      rintro rfl
      exact nomatch hself.symm.trans hz
    rw [hset hzx] at hz
    simpa only [Store.setState, if_neg hzx] using h.unwound rfl z hz
  · intro hnone z hz
    by_cases hzx : z = x
    · exact .inr (hzx ▸ hnone)
    · exact hquiet z (hset hzx ▸ hz)
  · intro w hw hnew hready
    by_cases hwx : w = x
    · exact hwx ▸ hself
    · rw [hset hwx] at hnew ⊢
      exact ((h.others hwx hw).1 hnew).2 hready
  · intro w hw hloaded z hz
    by_cases hwx : w = x
    · -- what `x` leads to has been loaded by the two loops
      subst hwx
      obtain ⟨d, hd, hdz⟩ := TransGen.head'_iff.mp hz
      have hd₁ : d ∈ s₁.called := (h.inv.loaded_iff d).mp (h.loaded rfl d hd)
      exact hquiet z ((h.inv.loaded_iff z).mpr (h.inv.ordered.reaches hd₁ (hplugins ▸ hdz)))
    · exact (h.others hwx hw).2 (hset hwx ▸ hloaded) z hz
  · exact fun e he => .inr (.inr ⟨x, hx, he⟩)
  · intro w hw hnew
    by_cases hwx : w = x
    · rw [hwx]
    · exact ((h.others hwx hw).1 (hset hwx ▸ hnew)).1.to_reflTransGen
  · intro hclear
    exact (hclear x .refl).2.2.2.resolve_left (by rw [hstate]; nofun)

/-- By induction on the fuel, which is more than the number of plugins that are not
visited yet. -/
theorem visited {fuel : Nat} (hinv : Inv lib s) (hx : x ∈ s.plugins)
    (hfuel : s.unvisited < fuel) : Visited lib x s (ensureLoaded lib fuel x s) := by
  induction fuel generalizing x s with
  | zero => cases hfuel
  | succ fuel ih =>
    rw [ensureLoaded]
    split
    · next hstate =>
      exact ⟨.refl hinv _, fun _ => hstate, nofun, fun _ h h' => absurd h h', fun _ => rfl⟩
    · next hstate =>
      refine ⟨.refl hinv _, nofun, ?_, fun _ h h' => absurd h h', ?_⟩
      · rintro _ ⟨⟩
        exact .inl rfl
      · exact fun hclear => absurd hstate (hclear x .refl).2.2.1
    · next hstate =>
      have hprepared : Prepared lib x (s.setState x .loading) _ :=
        prepared (hinv.setLoading hstate) fun d hd s' hinv' hs' => by
          have hlt := unvisited_setState hx hstate
          have hle := hs'.unvisited_le
          exact ih hinv' (hs'.plugins ▸ hd) (by omega)
      generalize loadBoth lib (ensureLoaded lib fuel) x (s.setState x .loading) = o at hprepared
      obtain ⟨s₁, _ | e⟩ := o
      · exact hprepared.constructed hx hstate
      · exact hprepared.thrown hstate

end Visit

end Invariant

end Pdi.PluginStore
