import Mathlib.Data.List.Nodup
import Pdi.Callbacks

/-!
# What a notification does

A notification gathers the functions that are registered for its name and those that are
registered for all names, calls them, keeps what they throw and throws it together at the
end. Here the functions are arbitrary, and exceptions are kept whole: with the status of
the library's errors, with the exceptions in an aggregate, and with the one that a system
error was made for. Their messages are texts without a zero.
-/
namespace Pdi.Callbacks

open Pdi.Datatypes

/-! ## Exceptions -/

/-- What can be thrown. -/
inductive Exception where
  /-- `Error_impl<STATUS>` -/
  | error (status : Status) (what : String)
  | spectree (location : Option String) (what : String)
  | multiple (nested : List Exception) (what : String)
  /-- What `throw_with_nested` throws: a `System_error` with the exception it was made for. -/
  | system (nested : Exception) (what : String)
  /-- An exception that is no `Error`. -/
  | other (what : String)

namespace Exception

/-- `status()`, which only the errors of the library have. -/
def status : Exception → Option Status
  | .error status _ => some status
  | .spectree _ _ => some .spectree
  | .multiple _ _ => some .multiple
  | .system _ _ => some .system
  | .other _ => none

/-- `nested_ptrs()` -/
def nestedPtrs : Exception → List Exception
  | .multiple nested _ => nested
  | _ => []

/-- `rethrow_with_simple_context` of one exception: the virtual function
`rethrow_with_context` of an error, in which a system error loses what it was made for. -/
def rethrow (msg : String) : Exception → Exception
  | .error status what => .error status (msg ++ what)
  | .spectree location what => .spectree location (msg ++ what)
  | .multiple nested what => .multiple nested (msg ++ what)
  | .system _ what => .error .system (msg ++ what)
  | .other what => .system (.other what) msg

/-- `rethrow_with_simple_context` of several exceptions. -/
def rethrowAll (msg : String) : List Exception → Option Exception
  | [] => none
  | [e] => some (e.rethrow msg)
  | errors => some (.multiple errors msg)

/-- The status of an error of the library is kept. -/
theorem status_rethrow {msg : String} {e : Exception} {status : Status}
    (h : e.status = some status) : (e.rethrow msg).status = some status := by
  cases e with
  | other => cases h
  | error _ _ | spectree _ _ | multiple _ _ | system _ _ => exact h

end Exception

/-! ## The notification -/

/-- The registries, and all else that callbacks act on. -/
structure World (σ : Type) where
  registries : Kind → Registry
  rest : σ

/-- What the function in a node does when it is called for a name. The reference to the
data, which is the same for all functions that a notification calls, is part of it. -/
abbrev Functions (σ : Type) := Node → String → World σ → World σ × Option Exception

/-- A notification that has returned or thrown, with the calls it has made and what each
of them threw. -/
structure Notified (σ : Type) where
  world : World σ
  calls : List (Node × Option Exception)
  error : Option Exception

variable {σ : Type}

/-- The loop over the gathered functions. A reference to a function that is not in its
container any more cannot be called. -/
def callAll (call : Functions σ) (kind : Kind) (name : String) :
    List Node → World σ → List Exception → List (Node × Option Exception) →
      Option (World σ × List Exception × List (Node × Option Exception))
  | [], w, errors, calls => some (w, errors, calls)
  | node :: nodes, w, errors, calls =>
    if node ∈ (w.registries kind).nodes then
      let (w', thrown) := call node name w
      callAll call kind name nodes w' (errors ++ thrown.toList) (calls ++ [(node, thrown)])
    else none

/-- `notify_data`, `notify_data_remove`, `notify_event` and `notify_missing_data`. -/
def notify (call : Functions σ) (kind : Kind) (name : String) (w : World σ) :
    Option (Notified σ) := do
  let (w', errors, calls) ← callAll call kind name ((w.registries kind).gather name) w [] []
  pure ⟨w', calls, Exception.rethrowAll (kind.context name) errors⟩

/-! ## What it is for -/

structure Registration where
  kind : Kind
  name : String
  node : Node

/-- The callbacks that are registered after these actions, in the order of their
registration. The next one gets the number `created`. -/
def registrations : List Action → (created : Node) → List Registration → List Registration
  | [], _, book => book
  | .on kind name :: actions, created, book =>
    registrations actions (created + 1) (book ++ [⟨kind, name, created⟩])
  | .remove node :: actions, created, book =>
    registrations actions created (book.filter fun r => r.node ≠ node)
  | .notify _ _ :: actions, created, book => registrations actions created book
  | .capture :: actions, created, book => registrations actions created book
  | .leave _ :: actions, created, book => registrations actions created book

/-- Those registered for one name. -/
def registeredFor (kind : Kind) (name : String) (book : List Registration) : List Node :=
  (book.filter fun r => r.kind = kind ∧ r.name = name ∧ r.name ≠ "").map Registration.node

/-- Those registered for all names. -/
def registeredForAll (kind : Kind) (book : List Registration) : List Node :=
  (book.filter fun r => r.kind = kind ∧ r.name = "").map Registration.node

/-- The functions are called one after the other, and this is what they throw. -/
inductive Called (call : Functions σ) (name : String) :
    World σ → List (Node × Option Exception) → World σ → Prop
  | nil (w : World σ) : Called call name w [] w
  | cons {w w' w'' : World σ} {node : Node} {thrown : Option Exception}
      {calls : List (Node × Option Exception)} (h : call node name w = (w', thrown))
      (hrest : Called call name w' calls w'') : Called call name w ((node, thrown) :: calls) w''

/-- What is thrown for the exceptions of several functions. -/
structure Reports (thrown : List Exception) (error : Option Exception) : Prop where
  none : thrown = [] → error = none
  one : ∀ e, thrown = [e] → ∃ e', error = some e' ∧
    ∀ status, e.status = some status → e'.status = some status
  several : 2 ≤ thrown.length → ∃ e', error = some e' ∧ e'.status = some .multiple ∧
    e'.nestedPtrs = thrown

theorem reports_rethrowAll (msg : String) (thrown : List Exception) :
    Reports thrown (Exception.rethrowAll msg thrown) where
  none := by
    rintro rfl
    rfl
  one := by
    rintro e rfl
    exact ⟨e.rethrow msg, rfl, fun _ => Exception.status_rethrow⟩
  several := by
    intro h
    match thrown, h with
    | e :: e' :: rest, _ => exact ⟨.multiple (e :: e' :: rest) msg, rfl, rfl, rfl⟩

/-! ## The registries hold what is registered -/

/-- The containers of a state hold these registrations. -/
structure Holds (s : State) (book : List Registration) : Prop where
  named : ∀ kind, (s.registries kind).named =
    (book.filter fun r => r.kind = kind ∧ r.name ≠ "").map fun r => (r.name, r.node)
  unnamed : ∀ kind, (s.registries kind).unnamed = registeredForAll kind book
  fresh : ∀ r ∈ book, r.node < s.created
  nodup : (book.map Registration.node).Nodup

theorem holds_initial : Holds initial [] where
  named _ := rfl
  unnamed _ := rfl
  fresh := List.forall_mem_nil _
  nodup := List.nodup_nil

section Holds

variable {s : State} {book : List Registration}

theorem Holds.on (h : Holds s book) (kind : Kind) (name : String) :
    Holds (s.on kind name).1 (book ++ [⟨kind, name, s.created⟩]) where
  named k := by
    simp only [State.on, List.filter_append, List.map_append, ← h.named k]
    by_cases hk : k = kind
    · subst hk
      by_cases hname : name = ""
      · simp [Registry.insert, hname]
      · simp [Registry.insert, hname]
    · simp [hk, Ne.symm hk]
  unnamed k := by
    simp only [State.on, registeredForAll, List.filter_append, List.map_append]
    rw [← registeredForAll, ← h.unnamed k]
    by_cases hk : k = kind
    · subst hk
      by_cases hname : name = ""
      · simp [Registry.insert, hname]
      · simp [Registry.insert, hname]
    · simp [hk, Ne.symm hk]
  fresh := by
    intro r hr
    rcases List.mem_append.mp hr with hr | hr
    · exact Nat.lt_succ_of_lt (h.fresh r hr)
    · rw [List.mem_singleton.mp hr]
      exact Nat.lt_succ_self _
  nodup := by
    rw [List.map_append, List.nodup_append]
    refine ⟨h.nodup, by simp, ?_⟩
    intro n hn m hm
    obtain ⟨r, hr, rfl⟩ := List.mem_map.mp hn
    rw [List.mem_singleton.mp hm]
    exact Nat.ne_of_lt (h.fresh r hr)

theorem Holds.erase (h : Holds s book) (node : Node) :
    Holds { s with registries := fun kind => (s.registries kind).erase node }
      (book.filter fun r => r.node ≠ node) where
  named kind := by
    simp only [Registry.erase, h.named kind, List.filter_map, List.filter_filter]
    congr 2
    funext r
    simp only [Function.comp_apply]
    exact Bool.and_comm _ _
  unnamed kind := by
    simp only [Registry.erase, h.unnamed kind, registeredForAll, List.filter_map,
      List.filter_filter]
    congr 2
    funext r
    simp only [Function.comp_apply]
    exact Bool.and_comm _ _
  fresh r hr := h.fresh r (List.mem_filter.mp hr).1
  nodup := h.nodup.sublist (List.filter_sublist.map _)

theorem Holds.mem_nodes (h : Holds s book) {r : Registration} (hr : r ∈ book) :
    r.node ∈ (s.registries r.kind).nodes := by
  unfold Registry.nodes
  rw [h.named, h.unnamed, List.mem_append]
  by_cases hname : r.name = ""
  · exact .inr (List.mem_map_of_mem (List.mem_filter.mpr ⟨hr, by simp [hname]⟩))
  · refine .inl ?_
    rw [List.map_map]
    exact List.mem_map_of_mem (List.mem_filter.mpr ⟨hr, by simp [hname]⟩)

theorem Holds.remove (h : Holds s book) (node : Node) :
    Holds (s.remove node).1 (book.filter fun r => r.node ≠ node) := by
  by_cases hnode : node ∈ s.nodes
  · rw [State.remove, if_pos hnode]
    exact h.erase node
  · -- nothing is registered under this number
    have hbook : (book.filter fun r => r.node ≠ node) = book := by
      rw [List.filter_eq_self]
      intro r hr
      rw [decide_eq_true_eq]
      rintro rfl
      exact hnode (Callbacks.mem_nodes.mpr ⟨r.kind, h.mem_nodes hr⟩)
    have hstate : (s.remove node).1 = s := by
      rw [State.remove, if_neg hnode]
      split <;> rfl
    rw [hbook, hstate]
    exact h

/-- Only registrations and removals change what is registered. -/
theorem Holds.of_registries {s' : State} (h : Holds s book) (hr : s'.registries = s.registries)
    (hc : s'.created = s.created) : Holds s' book where
  named kind := by rw [hr, h.named]
  unnamed kind := by rw [hr, h.unnamed]
  fresh := by rw [hc]; exact h.fresh
  nodup := h.nodup

theorem notify_registries (kind : Kind) (name : String) :
    (s.notify kind name).1.registries = s.registries ∧
    (s.notify kind name).1.created = s.created := by
  unfold State.notify
  split <;> exact ⟨rfl, rfl⟩

theorem leave_registries (thrown : Option Failure) :
    (s.leave thrown).1.registries = s.registries ∧ (s.leave thrown).1.created = s.created := by
  unfold State.leave
  split <;> exact ⟨rfl, rfl⟩

theorem remove_created (node : Node) : (s.remove node).1.created = s.created := by
  unfold State.remove
  split_ifs <;> rfl

/-- After any actions the containers hold what is registered. -/
theorem Holds.run (h : Holds s book) (actions : List Action) :
    Holds (run s actions).1 (registrations actions s.created book) := by
  induction actions generalizing s book with
  | nil => exact h
  | cons a actions ih =>
    cases a with
    | on kind name => exact ih (h.on kind name)
    | remove node =>
      have hrest := ih (h.remove node)
      rw [remove_created] at hrest
      exact hrest
    | notify kind name =>
      have hsame := notify_registries (s := s) kind name
      have hrest := ih (h.of_registries hsame.1 hsame.2)
      rw [hsame.2] at hrest
      exact hrest
    | capture => exact ih h
    | leave thrown =>
      have hsame := leave_registries (s := s) thrown
      have hrest := ih (h.of_registries hsame.1 hsame.2)
      rw [hsame.2] at hrest
      exact hrest

/-- A notification gathers the callbacks for its name and then those for all names. -/
theorem Holds.gather (h : Holds s book) (kind : Kind) (name : String) :
    (s.registries kind).gather name =
      registeredFor kind name book ++ registeredForAll kind book := by
  unfold Registry.gather registeredFor
  rw [h.named, h.unnamed, List.filter_map, List.map_map, List.filter_filter]
  refine congrArg (· ++ registeredForAll kind book) (congrArg (List.map Registration.node) ?_)
  refine List.filter_congr fun r _ => ?_
  by_cases hkind : r.kind = kind <;> by_cases hname : r.name = name <;> simp [hkind, hname]

/-- No callback is gathered twice. -/
theorem Holds.nodup_gather (h : Holds s book) (kind : Kind) (name : String) :
    ((s.registries kind).gather name).Nodup := by
  rw [h.gather, List.nodup_append]
  refine ⟨h.nodup.sublist (List.filter_sublist.map _), h.nodup.sublist (List.filter_sublist.map _),
    ?_⟩
  rintro n hn m hm rfl
  obtain ⟨r, hr, hrnode⟩ := List.mem_map.mp hn
  obtain ⟨r', hr', hrnode'⟩ := List.mem_map.mp hm
  have hsame : r = r' := List.inj_on_of_nodup_map h.nodup (List.mem_filter.mp hr).1
    (List.mem_filter.mp hr').1 (hrnode.trans hrnode'.symm)
  subst hsame
  have hname := (of_decide_eq_true (List.mem_filter.mp hr).2).2.2
  exact hname (of_decide_eq_true (List.mem_filter.mp hr').2).2

end Holds

/-! ## The loop -/

/-- Callbacks that leave the registries alone. -/
def KeepsRegistries (call : Functions σ) : Prop :=
  ∀ node name w, (call node name w).1.registries = w.registries

/-- The loop calls all functions in their order, and collects what they throw. -/
theorem callAll_called {call : Functions σ} (hcall : KeepsRegistries call) (kind : Kind)
    (name : String) {nodes : List Node} {w : World σ} (errors : List Exception)
    (made : List (Node × Option Exception))
    (hnodes : ∀ node ∈ nodes, node ∈ (w.registries kind).nodes) :
    ∃ w' calls, callAll call kind name nodes w errors made =
        some (w', errors ++ calls.filterMap Prod.snd, made ++ calls) ∧
      calls.map Prod.fst = nodes ∧ Called call name w calls w' := by
  induction nodes generalizing w errors made with
  | nil => exact ⟨w, [], by simp [callAll], rfl, .nil w⟩
  | cons node nodes ih =>
    obtain ⟨hnode, hrest⟩ := List.forall_mem_cons.mp hnodes
    rcases hresult : call node name w with ⟨w₁, thrown⟩
    have hkept : w₁.registries = w.registries := by
      have hregistries := hcall node name w
      rw [hresult] at hregistries
      exact hregistries
    rw [← hkept] at hrest
    obtain ⟨w', calls, hloop, hcalls, hcalled⟩ :=
      ih (errors ++ thrown.toList) (made ++ [(node, thrown)]) hrest
    refine ⟨w', (node, thrown) :: calls, ?_, by rw [List.map_cons, hcalls], .cons hresult hcalled⟩
    rw [callAll, if_pos hnode, hresult]
    dsimp only
    rw [hloop]
    cases thrown <;> simp

/-! ## Notifications -/

/-- After any registrations and removals, a notification calls the callbacks registered
for the name in the order of their registration and then those for all names, each once,
and reports what they throw. -/
theorem notify_complete (actions : List Action) (kind : Kind) (name : String)
    (call : Functions σ) (hcall : KeepsRegistries call) (rest : σ) :
    let w : World σ := ⟨(run initial actions).1.registries, rest⟩
    let book := registrations actions 0 []
    ∃ out, notify call kind name w = some out ∧
      out.calls.map Prod.fst = registeredFor kind name book ++ registeredForAll kind book ∧
      (out.calls.map Prod.fst).Nodup ∧ Called call name w out.calls out.world ∧
      Reports (out.calls.filterMap Prod.snd) out.error := by
  intro w book
  have hholds : Holds (run initial actions).1 book := holds_initial.run actions
  have hnodes : ∀ node ∈ (w.registries kind).gather name, node ∈ (w.registries kind).nodes :=
    fun node hnode => gather_subset hnode
  obtain ⟨w', calls, hloop, hcalls, hcalled⟩ := callAll_called hcall kind name [] [] hnodes
  refine ⟨⟨w', calls, Exception.rethrowAll (kind.context name) (calls.filterMap Prod.snd)⟩,
    ?_, ?_, ?_, hcalled, reports_rethrowAll _ _⟩
  · unfold notify
    rw [hloop]
    rfl
  · rw [hcalls]
    exact hholds.gather kind name
  · rw [hcalls]
    exact hholds.nodup_gather kind name

/-- The callback for all names is called last, and the callback for events not at all. -/
theorem notify_complete_order :
    let actions : List Action := [.on .data "x", .on .data "", .on .event "x", .on .data "x"]
    let call : Functions Unit :=
      fun node _ w => (w, if node = 1 then none else some (.error .value "bad"))
    KeepsRegistries call ∧ ∃ out,
      notify call .data "x" ⟨(run initial actions).1.registries, ()⟩ = some out ∧
      out.calls.map Prod.fst = [0, 3, 1] ∧ Reports (out.calls.filterMap Prod.snd) out.error := by
  intro actions call
  have hcall : KeepsRegistries call := fun _ _ _ => rfl
  obtain ⟨out, hout, hcalls, -, -, hreports⟩ := notify_complete actions .data "x" call hcall ()
  exact ⟨hcall, out, hout, hcalls.trans (by decide), hreports⟩

end Pdi.Callbacks
