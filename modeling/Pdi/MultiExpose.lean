import Pdi.Access

/-!
# Exposing several data at once

The functions of the C interface catch every exception and return a status. What
the context and the callbacks do is given from outside, as functions on a state
that is not looked into. `PDI_multi_expose` shares its data one after the other,
triggers the event if all are shared, and takes back what it has shared. The calls
it makes are recorded with their status.
-/
namespace Pdi.Api

open Pdi.Datatypes

abbrev Name := String

/-- What a call into the library may throw: one of its errors, another exception
of the standard library, or anything else. -/
inductive Exception where
  | error (status : Status) (message : String)
  | standard (what : String)
  | other
  deriving DecidableEq, Repr

/-- `return_err` with an error handler that returns. -/
def returnErr : Exception → Status
  | .error status _ => status
  | .standard _ => .system
  | .other => .system

/-- What a function of the interface returns. `none` is `PDI_OK`. -/
abbrev PdiStatus := Option Status

/-- The data descriptors and plugins behind the interface. -/
structure Context (σ : Type) where
  share (name : Name) (data : Nat) (read write : Bool) : σ → σ × Option Exception
  event (name : Name) : σ → σ × Option Exception
  reclaim (name : Name) : σ → σ × Option Exception

inductive Call where
  | share (name : Name) (status : PdiStatus)
  | event (name : Name) (status : PdiStatus)
  | reclaim (name : Name) (status : PdiStatus)
  deriving DecidableEq, Repr

def Call.status : Call → PdiStatus
  | .share _ status | .event _ status | .reclaim _ status => status

/-- The status of the first call that failed. -/
def firstFailure : List Call → PdiStatus
  | [] => none
  | call :: calls => call.status.or (firstFailure calls)

structure Session (σ : Type) where
  env : σ
  calls : List Call

/-- One of the data in the arguments. The bits of the access are `PDI_IN` and
`PDI_OUT`. -/
structure Item where
  name : Name
  data : Nat
  access : Nat
  deriving DecidableEq, Repr

section Functions

variable {σ : Type}

/-- The handlers around the body of a function of the interface. -/
def Session.catching (s : Session σ) (call : PdiStatus → Call) (outcome : σ × Option Exception) :
    Session σ × PdiStatus :=
  let status := outcome.2.map returnErr
  (⟨outcome.1, s.calls ++ [call status]⟩, status)

def pdiShare (ctx : Context σ) (item : Item) (s : Session σ) : Session σ × PdiStatus :=
  s.catching (.share item.name)
    (ctx.share item.name item.data (item.access.testBit 1) (item.access.testBit 0) s.env)

def pdiEvent (ctx : Context σ) (name : Name) (s : Session σ) : Session σ × PdiStatus :=
  s.catching (.event name) (ctx.event name s.env)

def pdiReclaim (ctx : Context σ) (name : Name) (s : Session σ) : Session σ × PdiStatus :=
  s.catching (.reclaim name) (ctx.reclaim name s.env)

/-- The loop over the further data, with the names shared so far. -/
def shareRest (ctx : Context σ) : List Item → List Name → Session σ →
    Session σ × List Name × PdiStatus
  | [], names, s => (s, names, none)
  | item :: items, names, s =>
    match pdiShare ctx item s with
    | (s, some status) => (s, names, some status)
    | (s, none) => shareRest ctx items (names ++ [item.name]) s

/-- The loop that takes back the data, which keeps the first failure. -/
def reclaimAll (ctx : Context σ) : List Name → PdiStatus → Session σ → Session σ × PdiStatus
  | [], status, s => (s, status)
  | name :: names, status, s =>
    let reclaimed := pdiReclaim ctx name s
    reclaimAll ctx names (if status = none then reclaimed.2 else status) reclaimed.1

/-- What follows on the sharing: the event, if all is shared, and the reclaims. -/
def settle (ctx : Context σ) (event : Name) :
    Session σ × List Name × PdiStatus → Session σ × PdiStatus
  | (s, names, some status) => reclaimAll ctx names.reverse (some status) s
  | (s, names, none) =>
    let triggered := pdiEvent ctx event s
    reclaimAll ctx names.reverse triggered.2 triggered.1

def pdiMultiExpose (ctx : Context σ) (event : Name) (first : Item) (rest : List Item)
    (s : Session σ) : Session σ × PdiStatus :=
  match pdiShare ctx first s with
  | (s, some status) => (s, some status)
  | (s, none) => settle ctx event (shareRest ctx rest [first.name] s)

/-- The return after the first share does what the rest of the function would do. -/
theorem pdiMultiExpose_eq (ctx : Context σ) (event : Name) (first : Item) (rest : List Item)
    (s : Session σ) : pdiMultiExpose ctx event first rest s =
      settle ctx event (shareRest ctx (first :: rest) [] s) := by
  rw [pdiMultiExpose, shareRest]
  generalize pdiShare ctx first s = r
  obtain ⟨s', _ | status⟩ := r <;> rfl

end Functions

/-! ## The calls that are made -/

/-- The shares that succeed. -/
def sharesOf (items : List Item) : List Call := items.map fun item => .share item.name none

/-- The shares up to the first one that fails, or of all items. -/
inductive Shares : List Item → List Item → List Call → Prop
  | all (items : List Item) : Shares items items (sharesOf items)
  | failed (done : List Item) (item : Item) (todo : List Item) (status : Status) :
    Shares (done ++ item :: todo) done (sharesOf done ++ [.share item.name (some status)])

/-- The event is triggered when all data are shared. -/
inductive Triggers (event : Name) : PdiStatus → List Call → Prop
  | shared (status : PdiStatus) : Triggers event none [.event event status]
  | failed (status : Status) : Triggers event (some status) []

/-- The reclaims of `names`, with any statuses. -/
def Reclaims (names : List Name) (calls : List Call) : Prop :=
  List.Forall₂ (fun name call => ∃ status, call = .reclaim name status) names calls

/-- The number of reclaims of `n` that failed. -/
def failedReclaims (n : Name) : List Call → Nat
  | [] => 0
  | .reclaim name (some _) :: calls => failedReclaims n calls + if name = n then 1 else 0
  | _ :: calls => failedReclaims n calls

/-- The stacks of references on the descriptors of `names`, which callbacks leave
balanced: a share that succeeds adds a reference and one that fails none. A reclaim
takes the last one, which may also remain if the reclaim fails. -/
structure Balanced {σ ρ : Type} (ctx : Context σ) (stack : σ → Name → List ρ)
    (names : List Name) : Prop where
  share : ∀ name data read write s, ∀ n ∈ names,
    (stack (ctx.share name data read write s).1 n = stack s n ∧
        (n = name → (ctx.share name data read write s).2 ≠ none)) ∨
      n = name ∧ (ctx.share name data read write s).2 = none ∧
        ∃ r, stack (ctx.share name data read write s).1 n = r :: stack s n
  event : ∀ name s, ∀ n ∈ names, stack (ctx.event name s).1 n = stack s n
  reclaim : ∀ name s, ∀ n ∈ names,
    (stack (ctx.reclaim name s).1 n = stack s n ∧ (n = name → (ctx.reclaim name s).2 ≠ none)) ∨
      n = name ∧ ∃ r, stack s n = r :: stack (ctx.reclaim name s).1 n

/-- There are `k` references above those in `base`. -/
def Above {ρ : Type} (base : List ρ) (k : Nat) (refs : List ρ) : Prop :=
  ∃ above, refs = above ++ base ∧ above.length = k

section Calls

variable {σ ρ : Type} {ctx : Context σ} {stack : σ → Name → List ρ} {listed : List Name}

theorem Above.push {base refs : List ρ} {k : Nat} (h : Above base k refs) (r : ρ) :
    Above base (k + 1) (r :: refs) := by
  obtain ⟨above, rfl, rfl⟩ := h
  exact ⟨r :: above, rfl, rfl⟩

theorem Above.pop {base refs : List ρ} {k : Nat} {r : ρ} (h : Above base (k + 1) (r :: refs)) :
    Above base k refs := by
  obtain ⟨_ | ⟨a, above⟩, heq, hlength⟩ := h
  · cases hlength
  · exact ⟨above, (List.cons.inj heq).2, Nat.succ.inj hlength⟩

theorem firstFailure_append (calls calls' : List Call) :
    firstFailure (calls ++ calls') = (firstFailure calls).or (firstFailure calls') := by
  induction calls with
  | nil => rfl
  | cons call calls ih =>
    rw [List.cons_append, firstFailure, ih, ← Option.or_assoc]
    rfl

theorem keep_first (status status' : PdiStatus) :
    (if status = none then status' else status) = status.or status' := by
  cases status <;> rfl

theorem failedReclaims_cons (n name : Name) (status : PdiStatus) (calls : List Call) :
    failedReclaims n (.reclaim name status :: calls) =
      failedReclaims n calls + if name = n ∧ status ≠ none then 1 else 0 := by
  cases status <;> simp [failedReclaims]

/-- One reclaim takes a reference, or counts as one that failed. -/
theorem pdiReclaim_above (hbalanced : Balanced ctx stack listed) {n : Name} (hn : n ∈ listed)
    {base : List ρ} {k : Nat} {s : Session σ} (name : Name) (h : Above base k (stack s.env n))
    (hk : name = n → 0 < k) :
    ∃ k', Above base k' (stack (pdiReclaim ctx name s).1.env n) ∧
      k ≤ k' + (if name = n then 1 else 0) ∧
      k' + (if name = n then 1 else 0) ≤
        k + if name = n ∧ (pdiReclaim ctx name s).2 ≠ none then 1 else 0 := by
  obtain ⟨hsame, hfailed⟩ | ⟨rfl, r, hpop⟩ := hbalanced.reclaim name s.env n hn
  · refine ⟨k, hsame ▸ h, Nat.le_add_right _ _, ?_⟩
    have hne (hname : name = n) : (pdiReclaim ctx name s).2 ≠ none := by
      simpa [pdiReclaim, Session.catching] using hfailed hname.symm
    by_cases hname : name = n
    · rw [if_pos hname, if_pos ⟨hname, hne hname⟩]
    · simp [hname]
  · obtain ⟨j, rfl⟩ : ∃ j, k = j + 1 := ⟨k - 1, by have := hk rfl; omega⟩
    rw [hpop] at h
    exact ⟨j, h.pop, by simp, by simp⟩

theorem count_name_cons (n name : Name) (names : List Name) :
    (name :: names).count n = names.count n + if name = n then 1 else 0 := by
  simp [List.count_cons]

theorem reclaimAll_calls (names : List Name) (status : PdiStatus) (s : Session σ) :
    ∃ calls, Reclaims names calls ∧
      (reclaimAll ctx names status s).1.calls = s.calls ++ calls ∧
      (reclaimAll ctx names status s).2 = status.or (firstFailure calls) ∧
      (Balanced ctx stack listed → ∀ n ∈ listed, ∀ base k, Above base k (stack s.env n) →
        names.count n ≤ k →
        ∃ k', Above base k' (stack (reclaimAll ctx names status s).1.env n) ∧
          k' + names.count n ≤ k + failedReclaims n calls) := by
  induction names generalizing status s with
  | nil =>
    refine ⟨[], .nil, by simp [reclaimAll], by simp [reclaimAll, firstFailure], ?_⟩
    exact fun _ n _ base k h _ => ⟨k, h, Nat.le_refl _⟩
  | cons name names ih =>
    obtain ⟨calls, hcalls, hmade, hstatus, hstack⟩ :=
      ih (status.or (pdiReclaim ctx name s).2) (pdiReclaim ctx name s).1
    rw [reclaimAll, keep_first]
    refine ⟨.reclaim name (pdiReclaim ctx name s).2 :: calls, .cons ⟨_, rfl⟩ hcalls, ?_, ?_, ?_⟩
    · rw [hmade]
      simp [pdiReclaim, Session.catching]
    · rw [hstatus, Option.or_assoc]
      rfl
    · intro hbalanced n hn base k habove hle
      rw [count_name_cons] at hle ⊢
      rw [failedReclaims_cons]
      have hpositive (hname : name = n) : 0 < k := by
        rw [if_pos hname] at hle
        omega
      obtain ⟨k₁, habove₁, hge₁, hle₁⟩ := pdiReclaim_above hbalanced hn name habove hpositive
      obtain ⟨k₂, habove₂, hle₂⟩ := hstack hbalanced n hn base k₁ habove₁ (by omega)
      exact ⟨k₂, habove₂, by omega⟩

theorem Shares.cons {items done : List Item} {calls : List Call} (item : Item)
    (h : Shares items done calls) :
    Shares (item :: items) (item :: done) (.share item.name none :: calls) := by
  cases h with
  | all => exact .all (item :: items)
  | failed _ failed todo status => exact .failed (item :: done) failed todo status

theorem pdiShare_above (hbalanced : Balanced ctx stack listed) {n : Name} (hn : n ∈ listed)
    {base : List ρ} {k : Nat} {s : Session σ} (item : Item) (h : Above base k (stack s.env n)) :
    Above base (k + if item.name = n ∧ (pdiShare ctx item s).2 = none then 1 else 0)
      (stack (pdiShare ctx item s).1.env n) := by
  have hstatus : (pdiShare ctx item s).2 = none ↔ (ctx.share item.name item.data
      (item.access.testBit 1) (item.access.testBit 0) s.env).2 = none := by
    simp [pdiShare, Session.catching]
  obtain ⟨hsame, hfailed⟩ | ⟨rfl, hok, r, hpush⟩ := hbalanced.share item.name item.data
    (item.access.testBit 1) (item.access.testBit 0) s.env n hn
  · rw [if_neg fun hok => hfailed hok.1.symm (hstatus.mp hok.2)]
    exact hsame ▸ h
  · rw [if_pos ⟨rfl, hstatus.mpr hok⟩]
    exact hpush ▸ h.push r

theorem shareRest_calls (items : List Item) (names : List Name) (s : Session σ) :
    ∃ done calls, Shares items done calls ∧
      (shareRest ctx items names s).1.calls = s.calls ++ calls ∧
      (shareRest ctx items names s).2.1 = names ++ done.map Item.name ∧
      (shareRest ctx items names s).2.2 = firstFailure calls ∧
      (Balanced ctx stack listed → ∀ n ∈ listed, ∀ base k, Above base k (stack s.env n) →
        Above base (k + (done.map Item.name).count n)
          (stack (shareRest ctx items names s).1.env n)) := by
  induction items generalizing names s with
  | nil =>
    refine ⟨[], [], .all [], by simp [shareRest], by simp [shareRest], rfl, ?_⟩
    exact fun _ _ _ _ _ h => h
  | cons item items ih =>
    have hcalls : (pdiShare ctx item s).1.calls =
      s.calls ++ [.share item.name (pdiShare ctx item s).2] := rfl
    have habove (hbalanced : Balanced ctx stack listed) (n : Name) (hn : n ∈ listed)
      (base : List ρ) (k : Nat) := @pdiShare_above σ ρ ctx stack listed hbalanced n hn base k s item
    rw [shareRest]
    generalize pdiShare ctx item s = r at hcalls habove
    obtain ⟨s', _ | status⟩ := r
    · obtain ⟨done, calls, hshares, hmade, hnames, hstatus, hstack⟩ :=
        ih (names ++ [item.name]) s'
      dsimp only at hcalls ⊢
      refine ⟨item :: done, .share item.name none :: calls, hshares.cons item, ?_, ?_, hstatus, ?_⟩
      · rw [hmade, hcalls]
        simp
      · rw [hnames]
        simp
      · intro hbalanced n hn base k h
        have hrest := hstack hbalanced n hn base _ (habove hbalanced n hn base k h)
        rw [List.map_cons, count_name_cons]
        convert hrest using 1
        simp only [and_true]
        omega
    · refine ⟨[], [.share item.name (some status)],
        .failed [] item items status, hcalls, ?_, rfl, ?_⟩
      · simp
      · intro hbalanced n hn base k h
        simpa using habove hbalanced n hn base k h

theorem settle_calls (event : Name) (s : Session σ) (names : List Name) (status : PdiStatus) :
    ∃ triggered reclaims, Triggers event status triggered ∧ Reclaims names.reverse reclaims ∧
      (settle ctx event (s, names, status)).1.calls = s.calls ++ (triggered ++ reclaims) ∧
      (settle ctx event (s, names, status)).2 =
        status.or (firstFailure (triggered ++ reclaims)) ∧
      (Balanced ctx stack listed → ∀ n ∈ listed, ∀ base k, Above base k (stack s.env n) →
        names.count n ≤ k →
        ∃ k', Above base k' (stack (settle ctx event (s, names, status)).1.env n) ∧
          k' + names.count n ≤ k + failedReclaims n reclaims) := by
  cases status with
  | some status =>
    obtain ⟨reclaims, hreclaims, hmade, hstatus, hstack⟩ :=
      @reclaimAll_calls σ ρ ctx stack listed names.reverse (some status) s
    rw [settle]
    refine ⟨[], reclaims, .failed status, hreclaims, hmade, hstatus, ?_⟩
    simpa only [List.count_reverse] using hstack
  | none =>
    obtain ⟨reclaims, hreclaims, hmade, hstatus, hstack⟩ := @reclaimAll_calls σ ρ ctx stack listed
      names.reverse (pdiEvent ctx event s).2 (pdiEvent ctx event s).1
    rw [settle]
    refine ⟨_, reclaims, .shared (pdiEvent ctx event s).2, hreclaims, ?_, hstatus, ?_⟩
    · rw [hmade]
      simp [pdiEvent, Session.catching]
    · intro hbalanced n hn base k h
      rw [← List.count_reverse]
      refine hstack hbalanced n hn base k ?_
      change Above base k (stack (ctx.event event s.env).1 n)
      rwa [hbalanced.event event s.env n hn]

end Calls

/-- The data are shared up to the first that fails, the event is triggered if none
does, each datum that was shared is reclaimed once and in the reverse order, and the
status is the one of the first call that failed. On descriptors that callbacks leave
balanced, no more references remain than reclaims have failed. -/
theorem pdiMultiExpose_all_or_nothing {σ ρ : Type} (ctx : Context σ) (event : Name) (first : Item)
    (rest : List Item) (s : Session σ) (stack : σ → Name → List ρ) :
    ∃ done shares triggered reclaims,
      Shares (first :: rest) done shares ∧ Triggers event (firstFailure shares) triggered ∧
      Reclaims (done.map Item.name).reverse reclaims ∧
      (pdiMultiExpose ctx event first rest s).1.calls =
        s.calls ++ (shares ++ triggered ++ reclaims) ∧
      (pdiMultiExpose ctx event first rest s).2 = firstFailure (shares ++ triggered ++ reclaims) ∧
      (Balanced ctx stack ((first :: rest).map Item.name) →
        ∀ n ∈ (first :: rest).map Item.name, ∃ k ≤ failedReclaims n reclaims,
          Above (stack s.env n) k (stack (pdiMultiExpose ctx event first rest s).1.env n)) := by
  obtain ⟨done, shares, hshares, hmade, hnames, hstatus, hshared⟩ :=
    @shareRest_calls σ ρ ctx stack ((first :: rest).map Item.name) (first :: rest) [] s
  rw [pdiMultiExpose_eq]
  generalize shareRest ctx (first :: rest) [] s = r at hmade hnames hstatus hshared
  obtain ⟨s', names, status⟩ := r
  dsimp only [List.nil_append] at hmade hnames hstatus hshared
  obtain ⟨triggered, reclaims, htriggers, hreclaims, hsettled, hresult, hstack⟩ :=
    @settle_calls σ ρ ctx stack ((first :: rest).map Item.name) event s' names status
  refine ⟨done, shares, triggered, reclaims, hshares, hstatus ▸ htriggers, hnames ▸ hreclaims,
    ?_, ?_, ?_⟩
  · rw [hsettled, hmade]
    simp
  · rw [hresult, hstatus, List.append_assoc, firstFailure_append shares]
  · intro hbalanced n hn
    have hbefore := hshared hbalanced n hn (stack s.env n) 0 ⟨[], rfl, rfl⟩
    rw [← hnames, Nat.zero_add] at hbefore
    obtain ⟨k, hk, hle⟩ := hstack hbalanced n hn _ _ hbefore (Nat.le_refl _)
    exact ⟨k, by omega, hk⟩

/-- Descriptors without callbacks, some of which have no type. -/
def stacking (untyped : List Name) : Context (Name → List Nat) where
  share name data _ _ s :=
    if name ∈ untyped then (s, some (.error .type "no type"))
    else (fun n => if n = name then data :: s n else s n, none)
  event _ s := (s, none)
  reclaim name s :=
    match s name with
    | [] => (s, some (.error .state "not shared"))
    | _ :: refs => (fun n => if n = name then refs else s n, none)

theorem balanced_stacking (untyped names : List Name) :
    Balanced (stacking untyped) (fun s => s) names := by
  refine ⟨?_, fun _ _ _ _ => rfl, ?_⟩
  · intro name data read write s n _
    by_cases huntyped : name ∈ untyped
    · simp [stacking, huntyped]
    · by_cases hn : n = name <;> simp [stacking, huntyped, hn]
  · intro name s n _
    by_cases hn : n = name
    · subst hn
      cases hs : s n <;> simp [stacking, hs]
    · cases hs : s name <;> simp [stacking, hs, hn]

theorem pdiMultiExpose_all_or_nothing_untyped :
    let r := pdiMultiExpose (stacking ["b"]) "write" ⟨"a", 64, 2⟩ [⟨"a", 72, 2⟩, ⟨"b", 80, 2⟩]
      ⟨fun _ => [], []⟩
    r.1.calls = [.share "a" none, .share "a" none, .share "b" (some .type), .reclaim "a" none,
        .reclaim "a" none] ∧
      ∃ (done : List Item) (reclaims : List Call), Reclaims (done.map Item.name).reverse reclaims ∧
        ∃ k ≤ failedReclaims "a" reclaims, Above [] k (r.1.env "a") := by
  refine ⟨by decide, ?_⟩
  obtain ⟨done, -, -, reclaims, -, -, hreclaims, -, -, hstack⟩ :=
    pdiMultiExpose_all_or_nothing (stacking ["b"]) "write" ⟨"a", 64, 2⟩
      [⟨"a", 72, 2⟩, ⟨"b", 80, 2⟩] ⟨fun _ => [], []⟩ (fun s => s)
  exact ⟨done, reclaims, hreclaims, hstack (balanced_stacking _ _) "a" (by decide)⟩

end Pdi.Api
