import Pdi.DensePaths
import Pdi.Enumeration

/-!
# Destruction of data

`destroy_data` walks through a type and calls the destroy functions of its leaves, the
scalars and pointers, and it leaves out every part that is simple. What it has to call
is said without this walk: a leaf occurs in the data at each path of indices and member
names that leads to it.

The types that can be reached in one step from a type are its branches. The step, the
walk and the skipping are each described once in terms of them.
-/
namespace Pdi.Datatypes

open Pdi.Enumeration Pdi.Memory

variable {t : Datatype} {n : Nat}

/-- A call of a destroy function with an address. -/
abbrev DestroyCall := FunctionName × Nat

mutual
/-- `destroy_data`: the calls it makes, in their order. -/
def Datatype.destroyData : Datatype → Nat → List DestroyCall
  | .scalar s, ptr => (s.destroy.map (·, ptr)).toList
  | .array subtype _ start subsize _, ptr =>
    if subtype.simple then []
    else (List.range subsize).flatMap fun i =>
      subtype.destroyData (ptr + (start + i) * subtype.buffersize)
  | .record members _ _, ptr => if members.simple then [] else members.destroyData ptr
  | .tuple elements _ _, ptr => if elements.simple then [] else elements.destroyData ptr
  | .pointer _ _ destroy _, ptr => (destroy.map (·, ptr)).toList

def Members.destroyData : Members → Nat → List DestroyCall
  | .nil, _ => []
  | .cons displacement type _ rest, ptr =>
    type.destroyData (ptr + displacement) ++ rest.destroyData ptr
end

/-! ## Occurrences of leaves -/

def Datatype.isLeaf : Datatype → Bool
  | .scalar _ => true
  | .pointer _ _ _ _ => true
  | _ => false

def Datatype.destroyFunction : Datatype → Option FunctionName
  | .scalar s => s.destroy
  | .pointer _ _ destroy _ => destroy
  | _ => none

/-- The leaf that a path of indices and members leads to, with its address. What a
pointer points to is no part of the data. -/
def leafAt (mem : Mem Byte) : Path → Datatype → Nat → Option (Nat × Datatype)
  | [], t, data => if t.isLeaf then some (data, t) else none
  | step :: path, t, data =>
    if t.isLeaf then none
    else match t.step step data mem with
      | .ok (data', t') => leafAt mem path t' data'
      | .error _ => none

/-- The call that is due for the leaf at a path, if it has a destroy function. -/
def dueCall (mem : Mem Byte) (t : Datatype) (data : Nat) (path : Path) : Option DestroyCall :=
  (leafAt mem path t data).bind fun leaf => leaf.2.destroyFunction.map (·, leaf.1)

/-! ## Branches -/

structure Branch where
  step : Step
  offset : Nat
  type : Datatype

/-- The branches of a record. -/
def Members.named : Members → List Branch
  | .nil => []
  | .cons d type name rest => ⟨.member name, d, type⟩ :: rest.named

/-- The branches of a tuple whose first element has number `i`. -/
def Members.numbered : Members → Nat → List Branch
  | .nil, _ => []
  | .cons d type _ rest, i => ⟨.index i, d, type⟩ :: rest.numbered (i + 1)

def Datatype.branches : Datatype → List Branch
  | .array subtype _ start subsize _ => (List.range subsize).map fun i =>
      ⟨.index i, subtype.buffersize * (start + i), subtype⟩
  | .record members _ _ => members.named
  | .tuple elements _ _ => elements.numbered 0
  | _ => []

theorem Members.sizeOf_named : ∀ {ms : Members}, ∀ b ∈ ms.named, sizeOf b.type < sizeOf ms
  | .cons d type name rest, b, hb => by
    simp only [Members.named, List.mem_cons] at hb
    obtain rfl | hb := hb
    · simp only [Members.cons.sizeOf_spec]
      omega
    · have := Members.sizeOf_named b hb
      simp only [Members.cons.sizeOf_spec]
      omega

theorem Members.sizeOf_numbered : ∀ {ms : Members} (i : Nat), ∀ b ∈ ms.numbered i,
    sizeOf b.type < sizeOf ms
  | .cons d type name rest, i, b, hb => by
    simp only [Members.numbered, List.mem_cons] at hb
    obtain rfl | hb := hb
    · simp only [Members.cons.sizeOf_spec]
      omega
    · have := Members.sizeOf_numbered (i + 1) b hb
      simp only [Members.cons.sizeOf_spec]
      omega

theorem Datatype.sizeOf_branches : ∀ b ∈ t.branches, sizeOf b.type < sizeOf t := by
  intro b hb
  cases t with
  | scalar | pointer => cases hb
  | array =>
    obtain ⟨i, _, rfl⟩ := List.mem_map.mp hb
    simp only [Datatype.array.sizeOf_spec]
    omega
  | record =>
    have := Members.sizeOf_named b hb
    simp only [Datatype.record.sizeOf_spec]
    omega
  | tuple =>
    have := Members.sizeOf_numbered 0 b hb
    simp only [Datatype.tuple.sizeOf_spec]
    omega

/-- Induction along the branches. -/
theorem Datatype.branch_induction {P : Datatype → Prop}
    (h : ∀ t : Datatype, (∀ b ∈ t.branches, P b.type) → P t) (t : Datatype) : P t :=
  h t fun b hb =>
    have : sizeOf b.type < sizeOf t := Datatype.sizeOf_branches b hb
    Datatype.branch_induction h b.type
termination_by sizeOf t

/-! ### Steps -/

theorem mem_named_step : ∀ {ms : Members} {name : String},
    Step.member name ∈ ms.named.map Branch.step ↔ ms.HasName name
  | .nil, _ => by simp [Members.named, Members.HasName]
  | .cons _ _ n rest, name => by
    simp only [Members.named, List.map_cons, List.mem_cons, Members.HasName, mem_named_step,
      Step.member.injEq]
    rw [eq_comm]

theorem nodup_named : ∀ {ms : Members}, ms.DistinctNames → (ms.named.map Branch.step).Nodup
  | .nil, _ => List.nodup_nil
  | .cons _ _ _ _, h =>
    List.nodup_cons.mpr ⟨fun hmem => h.1 (mem_named_step.mp hmem), nodup_named h.2⟩

theorem step_of_mem_named {b : Branch} : ∀ {ms : Members}, ms.DistinctNames → b ∈ ms.named →
    ∃ name, b.step = .member name ∧ ms.find? name = some (b.offset, b.type)
  | .cons d type n rest, h, hb => by
    simp only [Members.named, List.mem_cons] at hb
    obtain rfl | hb := hb
    · exact ⟨n, rfl, by simp [Members.find?]⟩
    · obtain ⟨name, hstep, hfind⟩ := step_of_mem_named h.2 hb
      have hname : rest.HasName name :=
        mem_named_step.mp (hstep ▸ List.mem_map_of_mem (f := Branch.step) hb)
      have hne : n ≠ name := fun heq => h.1 (heq ▸ hname)
      exact ⟨name, hstep, by rw [Members.find?, if_neg hne, hfind]⟩

theorem mem_numbered {b : Branch} {ms : Members} {i : Nat} : b ∈ ms.numbered i ↔
    ∃ j, b.step = .index (i + j) ∧ ms.get? j = some (b.offset, b.type) := by
  cases ms with
  | nil => simp [Members.numbered, Members.get?]
  | cons =>
    rw [Members.numbered, List.mem_cons, mem_numbered]
    constructor
    · rintro (rfl | ⟨j, hstep, hget⟩)
      · exact ⟨0, rfl, rfl⟩
      · exact ⟨j + 1, by rw [hstep, Nat.add_assoc, Nat.add_comm 1], hget⟩
    · rintro ⟨j, hstep, hget⟩
      cases j with
      | zero =>
        obtain ⟨rfl, rfl⟩ := Prod.mk.inj (Option.some.inj hget)
        exact .inl (by cases b; simp_all)
      | succ j => exact .inr ⟨j, by rw [hstep, Nat.add_assoc, Nat.add_comm 1], hget⟩

theorem nodup_numbered {ms : Members} {i : Nat} : ((ms.numbered i).map Branch.step).Nodup := by
  cases ms with
  | nil => exact List.nodup_nil
  | cons =>
    refine List.nodup_cons.mpr ⟨fun hmem => ?_, nodup_numbered⟩
    obtain ⟨b, hb, hstep⟩ := List.mem_map.mp hmem
    obtain ⟨j, hj, _⟩ := mem_numbered.mp hb
    have := Step.index.inj (hj.symm.trans hstep)
    omega

section Steps

theorem Datatype.WellFormed.nodup_branches (h : t.WellFormed) :
    (t.branches.map Branch.step).Nodup := by
  cases t with
  | scalar | pointer => exact List.nodup_nil
  | array =>
    rw [Datatype.branches, List.map_map]
    exact List.nodup_range.map fun i j hij => Step.index.inj hij
  | record => exact nodup_named h.2
  | tuple => exact nodup_numbered

theorem Members.wellFormed_named : ∀ {ms : Members}, ms.WellFormed n →
    ∀ b ∈ ms.named, b.type.WellFormed
  | .cons _ _ _ _, h, b, hb => by
    simp only [Members.named, List.mem_cons] at hb
    obtain rfl | hb := hb
    · exact h.1
    · exact Members.wellFormed_named h.2.2.2 b hb

theorem Members.wellFormed_numbered : ∀ {ms : Members} {i : Nat}, ms.WellFormed n →
    ∀ b ∈ ms.numbered i, b.type.WellFormed
  | .cons _ _ _ _, _, h, b, hb => by
    simp only [Members.numbered, List.mem_cons] at hb
    obtain rfl | hb := hb
    · exact h.1
    · exact Members.wellFormed_numbered h.2.2.2 b hb

theorem Datatype.WellFormed.branches (h : t.WellFormed) : ∀ b ∈ t.branches, b.type.WellFormed := by
  intro b hb
  cases t with
  | scalar | pointer => cases hb
  | array =>
    obtain ⟨i, _, rfl⟩ := List.mem_map.mp hb
    exact h.1
  | record => exact Members.wellFormed_named h.1 b hb
  | tuple => exact Members.wellFormed_numbered h b hb

/-- A step goes to the branch of that name. -/
theorem Datatype.WellFormed.step_eq (h : t.WellFormed) (data : Nat) (mem : Mem Byte) :
    ∀ b ∈ t.branches, t.step b.step data mem = .ok (data + b.offset, b.type) := by
  intro b hb
  cases t with
  | scalar | pointer => cases hb
  | array =>
    obtain ⟨i, hi, rfl⟩ := List.mem_map.mp hb
    rw [Datatype.step, Datatype.index, if_pos (List.mem_range.mp hi)]
  | record =>
    obtain ⟨name, hstep, hfind⟩ := step_of_mem_named h.2 hb
    rw [hstep, Datatype.step, Datatype.member, hfind]
  | tuple =>
    obtain ⟨j, hstep, hget⟩ := mem_numbered.mp hb
    rw [hstep, Nat.zero_add, Datatype.step, Datatype.index, hget]

/-- And nowhere else, unless it is passed on by a pointer. -/
theorem Datatype.step_error (hleaf : t.isLeaf = false) {step : Step}
    (hstep : step ∉ t.branches.map Branch.step) (data : Nat) (mem : Mem Byte) :
    ∃ e, t.step step data mem = .error e := by
  cases t with
  | scalar | pointer => cases hleaf
  | array subtype size start subsize =>
    cases step with
    | member => exact ⟨_, rfl⟩
    | index i =>
      have hi : ¬ i < subsize := fun hi => hstep (by simpa [Datatype.branches] using hi)
      rw [Datatype.step, Datatype.index, if_neg hi]
      exact ⟨_, rfl⟩
  | record members =>
    cases step with
    | index => exact ⟨_, rfl⟩
    | member name =>
      have hfind : members.find? name = none := by
        by_contra hsome
        obtain ⟨x, hx⟩ := Option.ne_none_iff_exists'.mp hsome
        exact hstep (mem_named_step.mpr (Members.hasName_of_find? hx))
      rw [Datatype.step, Datatype.member, hfind]
      exact ⟨_, rfl⟩
  | tuple elements =>
    cases step with
    | member => exact ⟨_, rfl⟩
    | index i =>
      have hget : elements.get? i = none := by
        by_contra hsome
        obtain ⟨x, hx⟩ := Option.ne_none_iff_exists'.mp hsome
        refine hstep (List.mem_map.mpr ⟨⟨.index i, x.1, x.2⟩, mem_numbered.mpr ⟨i, ?_, hx⟩, rfl⟩)
        rw [Nat.zero_add]
      rw [Datatype.step, Datatype.index, hget]
      exact ⟨_, rfl⟩

end Steps

/-! ### The walk -/

theorem Members.destroyData_named (ptr : Nat) : ∀ ms : Members, ms.destroyData ptr =
    ms.named.flatMap fun b => b.type.destroyData (ptr + b.offset)
  | .nil => rfl
  | .cons _ _ _ rest => by
    rw [Members.destroyData, Members.named, List.flatMap_cons, rest.destroyData_named]

theorem Members.destroyData_numbered (ptr : Nat) (ms : Members) (i : Nat) : ms.destroyData ptr =
    (ms.numbered i).flatMap fun b => b.type.destroyData (ptr + b.offset) := by
  cases ms with
  | nil => rfl
  | cons _ _ _ rest =>
    rw [Members.destroyData, Members.numbered, List.flatMap_cons, rest.destroyData_numbered]

theorem Datatype.destroyData_simple (h : t.simple = true) (ptr : Nat) : t.destroyData ptr = [] := by
  cases t with
  | scalar s =>
    have hdestroy : s.destroy = none := by
      simp only [Datatype.simple, Bool.and_eq_true, Option.isNone_iff_eq_none] at h
      exact h.2
    simp [Datatype.destroyData, hdestroy]
  | array | record | tuple => exact if_pos h
  | pointer subtype copy destroy =>
    have hdestroy : destroy = none := by
      simp only [Datatype.simple, Bool.and_eq_true, Option.isNone_iff_eq_none] at h
      exact h.2
    simp [Datatype.destroyData, hdestroy]

theorem Members.destroyData_simple : ∀ {ms : Members}, ms.simple = true → ∀ ptr,
    ms.destroyData ptr = []
  | .nil, _, _ => rfl
  | .cons _ type _ rest, h, ptr => by
    simp only [Members.simple, Bool.and_eq_true] at h
    rw [Members.destroyData, type.destroyData_simple h.1, Members.destroyData_simple h.2]
    rfl

/-- Since nothing is called in a simple part, leaving it out makes no difference. -/
theorem Datatype.destroyData_branches (hleaf : t.isLeaf = false) (ptr : Nat) :
    t.destroyData ptr = t.branches.flatMap fun b => b.type.destroyData (ptr + b.offset) := by
  cases t with
  | scalar | pointer => cases hleaf
  | array subtype =>
    rw [Datatype.branches, List.flatMap_map, Datatype.destroyData]
    simp only [Nat.mul_comm subtype.buffersize]
    split
    · next hsimple => simp [subtype.destroyData_simple hsimple]
    · rfl
  | record members =>
    rw [Datatype.branches, ← members.destroyData_named, Datatype.destroyData]
    split
    · next hsimple => rw [Members.destroyData_simple hsimple]
    · rfl
  | tuple elements =>
    rw [Datatype.branches, ← elements.destroyData_numbered, Datatype.destroyData]
    split
    · next hsimple => rw [Members.destroyData_simple hsimple]
    · rfl

/-! ## Each leaf once -/

section Due

variable {mem : Mem Byte} {data : Nat}

theorem dueCall_leaf (h : t.isLeaf = true) (step : Step) (path : Path) :
    dueCall mem t data (step :: path) = none := by
  simp [dueCall, leafAt, h]

theorem destroyData_leaf (mem : Mem Byte) (h : t.isLeaf = true) :
    t.destroyData data = (dueCall mem t data []).toList := by
  cases t with
  | scalar | pointer => rfl
  | array | record | tuple => cases h

theorem dueCall_branch (hw : t.WellFormed) (h : t.isLeaf = false) :
    ∀ b ∈ t.branches, ∀ path, dueCall mem t data (b.step :: path) =
      dueCall mem b.type (data + b.offset) path := by
  intro b hb path
  simp [dueCall, leafAt, h, hw.step_eq data mem b hb]

theorem dueCall_other (h : t.isLeaf = false) (step : Step)
    (hstep : step ∉ t.branches.map Branch.step) (path : Path) :
    dueCall mem t data (step :: path) = none := by
  obtain ⟨e, he⟩ := t.step_error h hstep data mem
  simp [dueCall, leafAt, h, he]

/-- `destroy_data` makes one call for each path to a leaf that has a destroy function,
with the address that the path leads to, and no other call. -/
theorem destroyData_each_once (t : Datatype) (hw : t.WellFormed) (data : Nat) (mem : Mem Byte) :
    ∃ paths : List Path, paths.Nodup ∧
      (∀ path, path ∈ paths ↔ (dueCall mem t data path).isSome = true) ∧
      (t.destroyData data).map some = paths.map (dueCall mem t data) := by
  change Enumerates (dueCall mem t data) (t.destroyData data)
  induction t using Datatype.branch_induction generalizing data with
  | h t ih =>
    cases hleaf : t.isLeaf with
    | true =>
      rw [destroyData_leaf mem hleaf]
      exact .root (dueCall_leaf hleaf)
    | false =>
      rw [t.destroyData_branches hleaf]
      exact .of_branches hw.nodup_branches (by simp [dueCall, leafAt, hleaf])
        (dueCall_branch hw hleaf) (dueCall_other hleaf)
        fun b hb => ih b hb (hw.branches b hb) (data + b.offset)

end Due

/-- Two of three numbers of a window have to be destroyed, and a pointer after them. -/
def owning : Datatype :=
  .record
    (.cons 0 (.array (.scalar ⟨.signed, 4, 4, 4, none, some 7, [], .inr (by decide)⟩) 3 1 2 []) "a"
      (.cons 16 (.pointer typeForInt32 none (some 8) []) "p"
        (.cons 24 typeForInt32 "n" .nil))) 32 []

theorem owning_wellFormed : owning.WellFormed := by
  refine ⟨⟨⟨Nat.succ_pos 3, by decide⟩, by decide, ⟨?_, ?_, trivial⟩, Nat.succ_pos 3, by decide,
    ⟨?_, trivial⟩, Nat.succ_pos 3, by decide, trivial, trivial⟩, ?_, ?_, ?_⟩
  · change ∀ a, 0 ≤ a → a < 0 + 12 → 16 ≤ a → 16 + 8 ≤ a
    omega
  · change ∀ a, 0 ≤ a → a < 0 + 12 → 24 ≤ a → 24 + 4 ≤ a
    omega
  · change ∀ a, 16 ≤ a → a < 16 + 8 → 24 ≤ a → 24 + 4 ≤ a
    omega
  all_goals simp [Members.HasName, Members.DistinctNames]

theorem destroyData_owning :
    owning.destroyData 100 = [(7, 104), (7, 108), (8, 116)] ∧
      ∃ paths : List Path, paths.Nodup ∧
        (∀ path, path ∈ paths ↔ (dueCall (fun _ => 0) owning 100 path).isSome = true) ∧
        (owning.destroyData 100).map some = paths.map (dueCall (fun _ => 0) owning 100) :=
  ⟨by decide, destroyData_each_once owning owning_wellFormed 100 _⟩

end Pdi.Datatypes
