import Pdi.Descriptor

/-!
# Callbacks and their removal

The context keeps the callbacks of each kind in a list, or in a multimap when they
are registered for one name. A notification first gathers references to the stored
functions and then calls one after the other. Between two calls, and inside of
them, other code may register callbacks, call the removal functions and notify in
turn.

What that code does is an arbitrary sequence of actions. Each call of a stored
function and each other access to its storage is recorded.
-/
namespace Pdi.Callbacks

open Pdi.Datatypes Pdi.Descriptor

inductive Kind where
  | data | dataRemove | event | missingData
  deriving DecidableEq, Repr

/-- What is put in front of the errors of a notification. -/
def Kind.context (kind : Kind) (name : String) : String :=
  match kind with
  | .data => "while sharing `" ++ name ++ "', "
  | .dataRemove => "while removing `" ++ name ++ "', "
  | .event => "while triggering `" ++ name ++ "', "
  | .missingData => "while populating `" ++ name ++ "', "

/-- A node of a list or of a multimap, which holds one function. -/
abbrev Node := Nat

/-- The multimap and the list for the callbacks of one kind. Those of one name are
in the order of their insertion. -/
structure Registry where
  named : List (String × Node)
  unnamed : List Node
  deriving DecidableEq, Repr

def Registry.nodes (r : Registry) : List Node := r.named.map Prod.snd ++ r.unnamed

def Registry.insert (r : Registry) (name : String) (node : Node) : Registry :=
  if name = "" then { r with unnamed := r.unnamed ++ [node] }
  else { r with named := r.named ++ [(name, node)] }

def Registry.erase (r : Registry) (node : Node) : Registry :=
  ⟨r.named.filter fun entry => entry.2 ≠ node, r.unnamed.filter fun n => n ≠ node⟩

/-- The references that a notification gathers. -/
def Registry.gather (r : Registry) (name : String) : List Node :=
  (r.named.filter fun entry => entry.1 = name).map Prod.snd ++ r.unnamed

/-- A notification in progress. -/
structure Frame where
  kind : Kind
  name : String
  running : Node
  /-- The functions that are gathered and not called yet. -/
  pending : List Node
  errors : List Failure
  deriving DecidableEq, Repr

structure State where
  registries : Kind → Registry
  /-- The number of callbacks registered so far. -/
  created : Node
  /-- The innermost notification comes first. -/
  frames : List Frame

inductive Event where
  | registered (node : Node)
  | removed (node : Node)
  | invoked (node : Node)
  /-- An access to the storage of a callback other than a call of it. -/
  | accessed (node : Node)
  | notified (kind : Kind) (name : String) (error : Option Failure)
  deriving DecidableEq, Repr

/-- What the code outside of the context does. -/
inductive Action where
  | on (kind : Kind) (name : String)
  /-- Calls the removal function of a callback. -/
  | remove (node : Node)
  | notify (kind : Kind) (name : String)
  /-- The running callback uses what it has captured. -/
  | capture
  /-- The running callback returns or throws. -/
  | leave (thrown : Option Failure)
  deriving DecidableEq, Repr

def kinds : List Kind := [.data, .dataRemove, .event, .missingData]

/-- The nodes that hold a function. -/
def State.nodes (s : State) : List Node := kinds.flatMap fun kind => (s.registries kind).nodes

/-- A new callback for one name, or for all if the name is empty. -/
def State.on (s : State) (kind : Kind) (name : String) : State × Node :=
  ({ s with
      registries := fun k =>
        if k = kind then (s.registries k).insert name s.created else s.registries k
      created := s.created + 1 }, s.created)

def State.onData (s : State) (name : String) : State × Node := s.on .data name
def State.onDataRemove (s : State) (name : String) : State × Node := s.on .dataRemove name
def State.onEvent (s : State) (name : String) : State × Node := s.on .event name
def State.onMissingData (s : State) (name : String) : State × Node := s.on .missingData name

/-- The removal function. A node is in one container only, and erasing it twice is
an access to an iterator that is not valid any more. -/
def State.remove (s : State) (node : Node) : State × Option Event :=
  if node ∈ s.nodes then
    ({ s with registries := fun kind => (s.registries kind).erase node }, some (.removed node))
  else if node < s.created then (s, some (.accessed node))
  else (s, none)

/-- Gathers the callbacks and calls the first one. -/
def State.notify (s : State) (kind : Kind) (name : String) : State × Option Event :=
  match (s.registries kind).gather name with
  | [] => (s, some (.notified kind name (rethrowAll (kind.context name) [])))
  | node :: pending =>
    ({ s with frames := ⟨kind, name, node, pending, []⟩ :: s.frames }, some (.invoked node))

def State.notifyData (s : State) (name : String) : State × Option Event := s.notify .data name
def State.notifyDataRemove (s : State) (name : String) : State × Option Event :=
  s.notify .dataRemove name
def State.notifyEvent (s : State) (name : String) : State × Option Event := s.notify .event name
def State.notifyMissingData (s : State) (name : String) : State × Option Event :=
  s.notify .missingData name

/-- The rest of the loop of the innermost notification: the next function is called
through its reference, or the errors are thrown. -/
def State.leave (s : State) (thrown : Option Failure) : State × Option Event :=
  match s.frames with
  | [] => (s, none)
  | ⟨kind, name, _, [], errors⟩ :: frames =>
    ({ s with frames := frames },
      some (.notified kind name (rethrowAll (kind.context name) (errors ++ thrown.toList))))
  | ⟨kind, name, _, node :: pending, errors⟩ :: frames =>
    ({ s with frames := ⟨kind, name, node, pending, errors ++ thrown.toList⟩ :: frames },
      some (.invoked node))

def State.capture (s : State) : Option Event :=
  s.frames.head?.map fun frame => .accessed frame.running

def step (s : State) : Action → State × Option Event
  | .on kind name => ((s.on kind name).1, some (.registered (s.on kind name).2))
  | .remove node => s.remove node
  | .notify kind name => s.notify kind name
  | .capture => (s, s.capture)
  | .leave thrown => s.leave thrown

def run (s : State) : List Action → State × List Event
  | [] => (s, [])
  | a :: actions =>
    let rest := run (step s a).1 actions
    (rest.1, (step s a).2.toList ++ rest.2)

def initial : State := ⟨fun _ => ⟨[], []⟩, 0, []⟩

/-! ## The property and its condition -/

/-- The event calls the function at `node` or accesses its storage. -/
def Event.Touches (node : Node) : Event → Prop
  | .invoked n | .accessed n => n = node
  | _ => False

/-- A callback that has been removed is neither called nor accessed. -/
def Definitive (events : List Event) : Prop :=
  events.Pairwise fun earlier later => ∀ node, earlier = .removed node → ¬ later.Touches node

/-- A callback is removed once and not while a notification is still to call it, and
one that has been removed while it runs does not use what it has captured. -/
def Allowed (s : State) : Action → Prop
  | .remove node => node < s.created →
      node ∈ s.nodes ∧ ∀ frame ∈ s.frames, node ∉ frame.pending
  | .capture => ∀ frame ∈ s.frames.head?, frame.running ∈ s.nodes
  | _ => True

def AllAllowed (s : State) : List Action → Prop
  | [] => True
  | a :: actions => Allowed s a ∧ AllAllowed (step s a).1 actions

section Nodes

variable {r : Registry} {s : State} {name : String} {node n : Node} {kind : Kind}

theorem mem_registry_insert : n ∈ (r.insert name node).nodes ↔ n ∈ r.nodes ∨ n = node := by
  unfold Registry.insert Registry.nodes
  split
  · simp [or_assoc]
  · simp only [List.map_append, List.map_cons, List.map_nil, List.mem_append, List.mem_singleton]
    tauto

theorem mem_registry_erase : n ∈ (r.erase node).nodes ↔ n ∈ r.nodes ∧ n ≠ node := by
  simp only [Registry.erase, Registry.nodes, List.mem_append, List.mem_map, List.mem_filter,
    decide_eq_true_eq, or_and_right]
  refine or_congr ?_ Iff.rfl
  constructor
  · rintro ⟨entry, ⟨hmem, hne⟩, rfl⟩
    exact ⟨⟨entry, hmem, rfl⟩, hne⟩
  · rintro ⟨⟨entry, hmem, rfl⟩, hne⟩
    exact ⟨entry, ⟨hmem, hne⟩, rfl⟩

theorem gather_subset : r.gather name ⊆ r.nodes := by
  intro n hn
  obtain hn | hn := List.mem_append.mp hn
  · obtain ⟨entry, hentry, rfl⟩ := List.mem_map.mp hn
    exact List.mem_append_left _ (List.mem_map_of_mem (List.mem_filter.mp hentry).1)
  · exact List.mem_append_right _ hn

theorem mem_nodes : n ∈ s.nodes ↔ ∃ kind, n ∈ (s.registries kind).nodes := by
  rw [State.nodes, List.mem_flatMap]
  refine exists_congr fun kind => and_iff_right ?_
  cases kind <;> decide

theorem mem_nodes_on : n ∈ (s.on kind name).1.nodes ↔ n ∈ s.nodes ∨ n = s.created := by
  simp only [mem_nodes, State.on]
  constructor
  · rintro ⟨k, hk⟩
    split at hk
    · exact (mem_registry_insert.mp hk).imp_left fun h => ⟨k, h⟩
    · exact .inl ⟨k, hk⟩
  · rintro (⟨k, hk⟩ | rfl)
    · refine ⟨k, ?_⟩
      split
      · exact mem_registry_insert.mpr (.inl hk)
      · exact hk
    · exact ⟨kind, by simp [mem_registry_insert]⟩

theorem mem_nodes_erase :
    n ∈ ({ s with registries := fun kind => (s.registries kind).erase node } : State).nodes ↔
      n ∈ s.nodes ∧ n ≠ node := by
  simp only [mem_nodes, mem_registry_erase, exists_and_right]

theorem mem_nodes_of_gather (hn : n ∈ (s.registries kind).gather name) : n ∈ s.nodes :=
  mem_nodes.mpr ⟨kind, gather_subset hn⟩

end Nodes

/-! ## What one action does -/

/-- The cases of a step. -/
inductive Stepped (s : State) : Action → State → Option Event → Prop
  | on (kind : Kind) (name : String) :
    Stepped s (.on kind name) (s.on kind name).1 (some (.registered s.created))
  | removed (n : Node) (hn : n ∈ s.nodes) :
    Stepped s (.remove n) { s with registries := fun kind => (s.registries kind).erase n }
      (some (.removed n))
  | again (n : Node) (hn : n ∉ s.nodes) (hlt : n < s.created) :
    Stepped s (.remove n) s (some (.accessed n))
  | unknown (n : Node) (hle : s.created ≤ n) : Stepped s (.remove n) s none
  | unheard (kind : Kind) (name : String) (error : Option Failure) :
    Stepped s (.notify kind name) s (some (.notified kind name error))
  | first (kind : Kind) (name : String) (n : Node) (pending : List Node)
    (hgather : (s.registries kind).gather name = n :: pending) :
    Stepped s (.notify kind name) { s with frames := ⟨kind, name, n, pending, []⟩ :: s.frames }
      (some (.invoked n))
  | idle (hframes : s.frames = []) : Stepped s .capture s none
  | capture (f : Frame) (frames : List Frame) (hframes : s.frames = f :: frames) :
    Stepped s .capture s (some (.accessed f.running))
  | outside (thrown : Option Failure) (hframes : s.frames = []) : Stepped s (.leave thrown) s none
  | last (thrown : Option Failure) (f : Frame) (frames : List Frame) (error : Option Failure)
    (hframes : s.frames = f :: frames) (hpending : f.pending = []) :
    Stepped s (.leave thrown) { s with frames := frames } (some (.notified f.kind f.name error))
  | next (thrown : Option Failure) (f : Frame) (frames : List Frame) (n : Node)
    (pending : List Node) (errors : List Failure) (hframes : s.frames = f :: frames)
    (hpending : f.pending = n :: pending) :
    Stepped s (.leave thrown)
      { s with frames := ⟨f.kind, f.name, n, pending, errors⟩ :: frames } (some (.invoked n))

theorem stepped (s : State) (a : Action) : Stepped s a (step s a).1 (step s a).2 := by
  cases a with
  | on kind name => exact .on kind name
  | remove n =>
    simp only [step, State.remove]
    split
    · next hn => exact .removed n hn
    · next hn =>
      split
      · next hlt => exact .again n hn hlt
      · next hlt => exact .unknown n (Nat.le_of_not_lt hlt)
  | notify kind name =>
    simp only [step, State.notify]
    split
    · exact .unheard kind name _
    · next n pending hgather => exact .first kind name n pending hgather
  | capture =>
    simp only [step, State.capture]
    cases hframes : s.frames with
    | nil => exact .idle hframes
    | cons f frames => exact .capture f frames hframes
  | leave thrown =>
    simp only [step, State.leave]
    split
    · next hframes => exact .outside thrown hframes
    · next frames hframes => exact .last thrown _ frames _ hframes rfl
    · next frames hframes => exact .next thrown _ frames _ _ _ hframes rfl

variable {past : List Event}

section Step

variable {s s' : State} {a : Action} {o : Option Event} {f : Frame} {n : Node}

/-- What is still to be called was so before, or has just been gathered. -/
theorem Stepped.pending (h : Stepped s a s' o) (hf : f ∈ s'.frames) (hn : n ∈ f.pending) :
    n ∈ s.nodes ∨ ∃ g ∈ s.frames, n ∈ g.pending := by
  cases h with
  | on | removed | again | unknown | unheard | idle | capture | outside => exact .inr ⟨f, hf, hn⟩
  | first kind name m pending hgather =>
    obtain rfl | hf := List.mem_cons.mp hf
    · exact .inl (mem_nodes_of_gather (hgather ▸ List.mem_cons_of_mem _ hn))
    · exact .inr ⟨f, hf, hn⟩
  | last thrown g frames _ hframes =>
    exact .inr ⟨f, hframes ▸ List.mem_cons_of_mem _ hf, hn⟩
  | next thrown g frames m pending _ hframes hpending =>
    obtain rfl | hf := List.mem_cons.mp hf
    · exact .inr ⟨g, hframes ▸ List.mem_cons_self, hpending ▸ List.mem_cons_of_mem _ hn⟩
    · exact .inr ⟨f, hframes ▸ List.mem_cons_of_mem _ hf, hn⟩

/-- What is still to be called remains so until it is called. -/
theorem Stepped.pending_kept (h : Stepped s a s' o) (hf : f ∈ s.frames) (hn : n ∈ f.pending) :
    o = some (.invoked n) ∨ ∃ g ∈ s'.frames, n ∈ g.pending := by
  cases h with
  | on | removed | again | unknown | unheard | idle | capture | outside => exact .inr ⟨f, hf, hn⟩
  | first => exact .inr ⟨f, List.mem_cons_of_mem _ hf, hn⟩
  | last thrown g frames _ hframes hpending =>
    rw [hframes] at hf
    obtain rfl | hf := List.mem_cons.mp hf
    · rw [hpending] at hn
      cases hn
    · exact .inr ⟨f, hf, hn⟩
  | next thrown g frames m pending _ hframes hpending =>
    rw [hframes] at hf
    obtain rfl | hf := List.mem_cons.mp hf
    · rw [hpending] at hn
      obtain rfl | hn := List.mem_cons.mp hn
      · exact .inl rfl
      · exact .inr ⟨_, List.mem_cons_self, hn⟩
    · exact .inr ⟨f, List.mem_cons_of_mem _ hf, hn⟩

/-- The callbacks and what has been recorded of them. -/
structure Sound (past : List Event) (s : State) : Prop where
  lt : ∀ n ∈ s.nodes, n < s.created
  removed_iff : ∀ n, .removed n ∈ past ↔ n < s.created ∧ n ∉ s.nodes
  frames_lt : ∀ f ∈ s.frames, ∀ n ∈ f.running :: f.pending, n < s.created

theorem sound_initial : Sound [] initial := by
  refine ⟨?_, ?_, ?_⟩
  · simp [State.nodes, kinds, initial, Registry.nodes]
  · simp [initial]
  · simp [initial]

/-- An event other than a removal, in a state with the same callbacks. -/
theorem Sound.same (h : Sound past s) (hnodes : s'.nodes = s.nodes)
    (hcreated : s'.created = s.created) (hevent : ∀ n, o ≠ some (.removed n))
    (hframes : ∀ f ∈ s'.frames, ∀ n ∈ f.running :: f.pending, n < s.created) :
    Sound (past ++ o.toList) s' := by
  refine ⟨?_, ?_, ?_⟩
  · rw [hnodes, hcreated]
    exact h.lt
  · intro n
    rw [hnodes, hcreated, ← h.removed_iff]
    simp [hevent n]
  · rw [hcreated]
    exact hframes

theorem Sound.step (h : Sound past s) (hstep : Stepped s a s' o) : Sound (past ++ o.toList) s' := by
  cases hstep with
  | on =>
    refine ⟨?_, ?_, ?_⟩
    · intro n hn
      obtain hn | rfl := mem_nodes_on.mp hn
      · exact Nat.lt_succ_of_lt (h.lt n hn)
      · exact Nat.lt_succ_self _
    · intro n
      have hpast : .removed n ∈ past ++ [.registered s.created] ↔ .removed n ∈ past := by simp
      refine hpast.trans ((h.removed_iff n).trans ?_)
      constructor
      · rintro ⟨hn, hdead⟩
        refine ⟨Nat.lt_succ_of_lt hn, fun hmem => ?_⟩
        exact (mem_nodes_on.mp hmem).elim hdead (Nat.ne_of_lt hn)
      · rintro ⟨hn, hdead⟩
        have hne : n ≠ s.created := fun heq => hdead (mem_nodes_on.mpr (.inr heq))
        exact ⟨Nat.lt_of_le_of_ne (Nat.le_of_lt_succ hn) hne,
          fun hmem => hdead (mem_nodes_on.mpr (.inl hmem))⟩
    · exact fun f hf n hn => Nat.lt_succ_of_lt (h.frames_lt f hf n hn)
  | removed m hm =>
    refine ⟨fun n hn => h.lt n (mem_nodes_erase.mp hn).1, ?_, h.frames_lt⟩
    intro n
    have hlt := h.lt m hm
    simp only [Option.toList, List.mem_append, h.removed_iff, mem_nodes_erase, List.mem_singleton,
      Event.removed.injEq]
    constructor
    · rintro (⟨hn, hdead⟩ | rfl)
      · exact ⟨hn, fun hmem => hdead hmem.1⟩
      · exact ⟨hlt, fun hmem => hmem.2 rfl⟩
    · rintro ⟨hn, hdead⟩
      by_cases heq : n = m
      · exact .inr heq
      · exact .inl ⟨hn, fun hmem => hdead ⟨hmem, heq⟩⟩
  | again | unknown | unheard | idle | capture | outside =>
    exact h.same rfl rfl nofun h.frames_lt
  | first kind name m pending hgather =>
    refine h.same rfl rfl nofun fun f hf n hn => ?_
    obtain rfl | hf := List.mem_cons.mp hf
    · exact h.lt n (mem_nodes_of_gather (hgather ▸ hn))
    · exact h.frames_lt f hf n hn
  | last thrown g frames _ hframes =>
    exact h.same rfl rfl nofun fun f hf => h.frames_lt f (hframes ▸ List.mem_cons_of_mem _ hf)
  | next thrown g frames m pending _ hframes hpending =>
    refine h.same rfl rfl nofun fun f hf n hn => ?_
    obtain rfl | hf := List.mem_cons.mp hf
    · refine h.frames_lt g (hframes ▸ List.mem_cons_self) n ?_
      rw [hpending]
      exact List.mem_cons_of_mem _ hn
    · exact h.frames_lt f (hframes ▸ List.mem_cons_of_mem _ hf) n hn

/-- All that is still to be called is registered. -/
def Live (s : State) : Prop := ∀ f ∈ s.frames, ∀ n ∈ f.pending, n ∈ s.nodes

/-- An allowed action only touches callbacks that are registered. -/
theorem Stepped.touches (h : Stepped s a s' o) (hlive : Live s) (hallowed : Allowed s a) :
    ∀ e ∈ o, ∀ n, e.Touches n → n ∈ s.nodes := by
  rintro e he n ht
  cases h with
  | on | removed | unheard | last =>
    cases he
    cases ht
  | unknown | idle | outside => cases he
  | again m hm hlt => exact absurd (hallowed hlt).1 hm
  | first kind name m pending hgather =>
    cases he
    cases ht
    exact mem_nodes_of_gather (hgather ▸ List.mem_cons_self)
  | capture f frames hframes =>
    cases he
    cases ht
    exact hallowed f (by rw [hframes]; rfl)
  | next thrown f frames m pending _ hframes hpending =>
    cases he
    cases ht
    exact hlive f (hframes ▸ List.mem_cons_self) n (hpending ▸ List.mem_cons_self)

theorem Live.step (hlive : Live s) (hsound : Sound past s) (h : Stepped s a s' o)
    (hallowed : Allowed s a) : Live s' := by
  intro f hf n hn
  have hbefore : n ∈ s.nodes := (h.pending hf hn).elim id fun ⟨g, hg, hmem⟩ => hlive g hg n hmem
  cases h with
  | on => exact mem_nodes_on.mpr (.inl hbefore)
  | removed m hm =>
    refine mem_nodes_erase.mpr ⟨hbefore, ?_⟩
    rintro rfl
    exact (hallowed (hsound.lt n hm)).2 f hf hn
  | _ => exact hbefore

end Step

/-! ## Whole runs -/

section Run

variable {s : State} {actions : List Action}

theorem definitive_append_toList {o : Option Event} : Definitive (past ++ o.toList) ↔
    Definitive past ∧ ∀ e ∈ o, ∀ n, .removed n ∈ past → ¬ e.Touches n := by
  cases o with
  | none => simp [Definitive]
  | some =>
    simp only [Definitive, Option.toList, List.pairwise_append, List.pairwise_singleton, true_and,
      List.mem_singleton, forall_eq, Option.mem_some_iff, forall_eq']
    refine and_congr_right fun _ => ⟨?_, ?_⟩
    · exact fun h n hn => h _ hn n rfl
    · rintro h _ hn n rfl
      exact h n hn

theorem run_cons (s : State) (a : Action) (actions : List Action) :
    run s (a :: actions) =
      ((run (step s a).1 actions).1, (step s a).2.toList ++ (run (step s a).1 actions).2) := rfl

theorem definitive_run (hsound : Sound past s) (hlive : Live s) (hpast : Definitive past)
    (hallowed : AllAllowed s actions) : Definitive (past ++ (run s actions).2) := by
  induction actions generalizing s past with
  | nil => simpa [run] using hpast
  | cons a actions ih =>
    have hstep := stepped s a
    rw [run_cons, ← List.append_assoc]
    refine ih (hsound.step hstep) (hlive.step hsound hstep hallowed.1) ?_ hallowed.2
    refine definitive_append_toList.mpr ⟨hpast, ?_⟩
    intro e he n hremoved htouches
    exact ((hsound.removed_iff n).mp hremoved).2
      (hstep.touches hlive hallowed.1 e he n htouches)

/-- When all notifications have ended, all that was gathered has been called. -/
theorem invoked_of_pending {f : Frame} {n : Node} (hend : (run s actions).1.frames = [])
    (hf : f ∈ s.frames) (hn : n ∈ f.pending) : .invoked n ∈ (run s actions).2 := by
  induction actions generalizing s f with
  | nil =>
    change s.frames = [] at hend
    rw [hend] at hf
    cases hf
  | cons a actions ih =>
    rw [run_cons] at hend ⊢
    obtain hinvoked | ⟨g, hg, hmem⟩ := (stepped s a).pending_kept hf hn
    · simp [hinvoked]
    · exact List.mem_append_right _ (ih hend hg hmem)

/-- An action that is not allowed touches a callback that has been removed, at once
or when the notification comes to it. -/
theorem allowed_of_definitive {a : Action} (hsound : Sound past s)
    (hend : (run s (a :: actions)).1.frames = [])
    (h : Definitive (past ++ (run s (a :: actions)).2)) : Allowed s a := by
  rw [run_cons] at hend h
  have hstep := stepped s a
  rw [← List.append_assoc] at h
  have hnow := (definitive_append_toList.mp (List.pairwise_append.mp h).1).2
  have hlater := (List.pairwise_append.mp h).2.2
  generalize step s a = r at *
  obtain ⟨s', o⟩ := r
  dsimp only at *
  have hdead (n : Node) (hlt : n < s.created) (ho : o = some (.accessed n)) : n ∈ s.nodes := by
    by_contra hn
    exact hnow _ ho n ((hsound.removed_iff n).mpr ⟨hlt, hn⟩) rfl
  cases hstep with
  | removed n hn =>
    refine fun _ => ⟨hn, fun f hf hmem => ?_⟩
    have hinvoked : Event.invoked n ∈ _ := invoked_of_pending hend hf hmem
    exact hlater (.removed n) (by simp) _ hinvoked n rfl rfl
  | again n hn hlt => exact absurd (hdead n hlt rfl) hn
  | unknown n hle => exact fun hlt => absurd hlt (Nat.not_lt_of_le hle)
  | idle hframes => simp [Allowed, hframes]
  | capture f frames hframes =>
    have hlt := hsound.frames_lt f (hframes ▸ List.mem_cons_self) f.running List.mem_cons_self
    simpa [Allowed, hframes] using hdead f.running hlt rfl
  | on | unheard | first | outside | last | next => trivial

theorem allAllowed_of_definitive (hsound : Sound past s) (hend : (run s actions).1.frames = [])
    (h : Definitive (past ++ (run s actions).2)) : AllAllowed s actions := by
  induction actions generalizing s past with
  | nil => trivial
  | cons a actions ih =>
    refine ⟨allowed_of_definitive hsound hend h, ih (hsound.step (stepped s a)) hend ?_⟩
    rwa [List.append_assoc]

end Run

/-- Whatever other code does, a removal is definitive if all actions are allowed. If
the last notification has ended, it is so only then. -/
theorem removal_definitive_iff (actions : List Action) :
    (AllAllowed initial actions → Definitive (run initial actions).2) ∧
      ((run initial actions).1.frames = [] →
        (Definitive (run initial actions).2 ↔ AllAllowed initial actions)) := by
  have hrun : AllAllowed initial actions → Definitive (run initial actions).2 :=
    definitive_run sound_initial nofun .nil
  refine ⟨hrun, fun hend => ⟨fun h => ?_, hrun⟩⟩
  exact allAllowed_of_definitive sound_initial hend h

/-- A callback that removes itself when it is called. -/
theorem removal_definitive_self :
    Definitive (run initial [.on .event "checkpoint", .on .event "", .notify .event "checkpoint",
      .capture, .remove 0, .leave none, .leave none, .notify .event "checkpoint"]).2 :=
  (removal_definitive_iff _).1 (by
    simp only [AllAllowed, Allowed, true_and, and_true]
    decide)

/-- A callback that removes another one which is called next. -/
theorem removed_and_called :
    ¬ Definitive (run initial [.on .dataRemove "field", .on .dataRemove "field",
      .notify .dataRemove "field", .remove 1, .leave none]).2 := by
  intro h
  have hevents : (run initial [.on .dataRemove "field", .on .dataRemove "field",
      .notify .dataRemove "field", .remove 1, .leave none]).2 =
      [.registered 0, .registered 1, .invoked 0, .removed 1, .invoked 1] := by decide
  rw [hevents] at h
  simp [Definitive, Event.Touches] at h

end Pdi.Callbacks
