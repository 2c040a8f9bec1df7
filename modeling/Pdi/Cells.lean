import Pdi.DenseBounds

/-!
# The cells of a type

A cell is a scalar or a pointer, with its offset in the buffer. The cells of a
type are listed in the order of its members and elements, so that the cells of a
type and of its densified form correspond one by one.

A list of cells is tidy in a region when they follow each other in it, each at a
multiple of its alignment.
-/
namespace Pdi.Datatypes

open Pdi.Align Pdi.Memory

variable {sub t' t type : Datatype} {data data' x b d : Nat} {as : Attributes} {s : Scalar}
  {name : String} {mem : Mem Byte}

structure Cell where
  offset : Nat
  /-- A scalar or a pointer. -/
  type : Datatype
  deriving DecidableEq

def Cell.shift (d : Nat) (c : Cell) : Cell := { c with offset := d + c.offset }

mutual
def Datatype.cells : Datatype → List Cell
  | .scalar s => [⟨0, .scalar s⟩]
  | .array subtype _ start subsize _ => (List.range subsize).flatMap fun k =>
      subtype.cells.map (Cell.shift ((start + k) * subtype.buffersize))
  | .record members _ _ => members.cells
  | .tuple elements _ _ => elements.cells
  | .pointer subtype copy destroy attributes => [⟨0, .pointer subtype copy destroy attributes⟩]

def Members.cells : Members → List Cell
  | .nil => []
  | .cons d type _ rest => type.cells.map (Cell.shift d) ++ rest.cells
end

mutual
/-- The types that the pointers of a type lead to, at any depth. -/
def Datatype.targets : Datatype → List Datatype
  | .scalar _ => []
  | .array subtype _ _ _ _ => subtype.targets
  | .record members _ _ => members.targets
  | .tuple elements _ _ => elements.targets
  | .pointer subtype _ _ _ => subtype :: subtype.targets

def Members.targets : Members → List Datatype
  | .nil => []
  | .cons _ type _ rest => type.targets ++ rest.targets
end

mutual
theorem Datatype.targets_densify :
    ∀ t : Datatype, t.densify.targets = t.targets.map Datatype.densify
  | .scalar _ => rfl
  | .array subtype _ _ _ _ => subtype.targets_densify
  | .record members _ _ => members.targets_densify 0
  | .tuple elements _ _ => elements.targets_densify 0
  | .pointer subtype _ _ _ => by
    simp only [Datatype.densify, Datatype.targets, List.map_cons, subtype.targets_densify]

theorem Members.targets_densify :
    ∀ (ms : Members) (c : Nat), (ms.densify c).targets = ms.targets.map Datatype.densify
  | .nil, _ => rfl
  | .cons _ type _ rest, _ => by
    simp only [Members.densify, Members.targets, List.map_append, type.targets_densify,
      rest.targets_densify]
end

/-! ## Cells that follow each other -/

/-- The cells lie between `lo` and `hi`, in this order and apart, aligned where they
are, and with alignments that divide `a`. -/
structure Tidy (lo hi a : Nat) (cells : List Cell) : Prop where
  lower : ∀ c ∈ cells, lo ≤ c.offset
  upper : ∀ c ∈ cells, c.offset + c.type.buffersize ≤ hi
  nonempty : ∀ c ∈ cells, 0 < c.type.buffersize
  aligned : ∀ c ∈ cells, c.type.alignment ∣ c.offset
  divides : ∀ c ∈ cells, c.type.alignment ∣ a
  ordered : cells.Pairwise fun c c' => c.offset + c.type.buffersize ≤ c'.offset

section Tidy

variable {lo mid hi a : Nat} {cells cells' : List Cell}

theorem Tidy.nil (lo hi a : Nat) : Tidy lo hi a [] := by
  constructor <;> simp

theorem Tidy.single {c : Cell} (hpos : 0 < c.type.buffersize) (h0 : c.offset = 0) :
    Tidy 0 c.type.buffersize c.type.alignment [c] := by
  constructor <;> simp [h0, hpos]

theorem Tidy.append (h : Tidy lo mid a cells) (h' : Tidy mid hi a cells') (hlo : lo ≤ mid)
    (hhi : mid ≤ hi) : Tidy lo hi a (cells ++ cells') where
  lower c hc := (List.mem_append.mp hc).elim (h.lower c) fun hc => hlo.trans (h'.lower c hc)
  upper c hc := (List.mem_append.mp hc).elim (fun hc => (h.upper c hc).trans hhi) (h'.upper c)
  nonempty c hc := (List.mem_append.mp hc).elim (h.nonempty c) (h'.nonempty c)
  aligned c hc := (List.mem_append.mp hc).elim (h.aligned c) (h'.aligned c)
  divides c hc := (List.mem_append.mp hc).elim (h.divides c) (h'.divides c)
  ordered := List.pairwise_append.mpr ⟨h.ordered, h'.ordered,
    fun c hc c' hc' => (h.upper c hc).trans (h'.lower c' hc')⟩

theorem Tidy.shift (h : Tidy lo hi a cells) (hd : a ∣ d) :
    Tidy (d + lo) (d + hi) a (cells.map (Cell.shift d)) := by
  constructor
  · simp only [List.forall_mem_map, Cell.shift]
    intro c hc
    have := h.lower c hc
    omega
  · simp only [List.forall_mem_map, Cell.shift]
    intro c hc
    have := h.upper c hc
    omega
  · simpa only [List.forall_mem_map, Cell.shift] using h.nonempty
  · simp only [List.forall_mem_map, Cell.shift]
    intro c hc
    exact Nat.dvd_add ((h.divides c hc).trans hd) (h.aligned c hc)
  · simpa only [List.forall_mem_map, Cell.shift] using h.divides
  · rw [List.pairwise_map]
    refine h.ordered.imp fun {c c'} hcc => ?_
    simp only [Cell.shift]
    omega

theorem Tidy.weaken {lo' hi' a' : Nat} (h : Tidy lo hi a cells) (hlo : lo' ≤ lo) (hhi : hi ≤ hi')
    (ha : a ∣ a') : Tidy lo' hi' a' cells where
  lower c hc := hlo.trans (h.lower c hc)
  upper c hc := (h.upper c hc).trans hhi
  nonempty := h.nonempty
  aligned := h.aligned
  divides c hc := (h.divides c hc).trans ha
  ordered := h.ordered

/-- Elements of `size` bytes one after the other. -/
theorem Tidy.elements {size : Nat} (h : Tidy 0 size a cells) (hwhole : cells ≠ [] → a ∣ size)
    (n : Nat) :
    Tidy 0 (n * size) a ((List.range n).flatMap fun k =>
      cells.map (Cell.shift ((0 + k) * size))) := by
  by_cases hempty : cells = []
  · have hnone :
        ((List.range n).flatMap fun k => cells.map (Cell.shift ((0 + k) * size))) = [] := by
      rw [hempty, List.flatMap_eq_nil_iff]
      exact fun _ _ => rfl
    rw [hnone]
    exact .nil 0 (n * size) a
  · induction n with
    | zero => simpa using Tidy.nil 0 0 a
    | succ n ih =>
      have hlast := h.shift (d := n * size) ((hwhole hempty).mul_left n)
      rw [Nat.add_zero] at hlast
      rw [List.range_succ, List.flatMap_append, Nat.succ_mul]
      refine ih.append ?_ (Nat.zero_le _) (Nat.le_add_right _ _)
      simpa using hlast

end Tidy

/-! ## Every path leads to a cell -/

/-- What an address of the data of a type is followed by: `P o` holds of its offset `o`
in the buffer at `data` or in what a pointer leads to. -/
def Datatype.Within (t : Datatype) (data x : Nat) (P : Datatype → Nat → Prop) : Prop :=
  (∃ o, x = data + o ∧ P t o) ∨ ∃ r ∈ t.targets, ∃ base o, x = base + o ∧ P r o

/-- The scalar `s` at the address `x` is a cell of the type, in the buffer at `data` or
in what a pointer leads to. -/
def Datatype.HasCell (t : Datatype) (data x : Nat) (s : Scalar) : Prop :=
  t.Within data x fun r o => ⟨o, .scalar s⟩ ∈ r.cells

/-- A step leads to a type whose cells and targets are among those of the first. -/
structure StepsInto (t : Datatype) (data : Nat) (t' : Datatype) (b : Nat) : Prop where
  cells : t.Within data b fun r o => ∀ c ∈ t'.cells, c.shift o ∈ r.cells
  targets : ∀ r ∈ t'.targets, r ∈ t.targets

theorem Datatype.Within.pointer {P : Datatype → Nat → Prop} {copy destroy : Option FunctionName}
    (h : sub.Within data' x P) : (Datatype.pointer sub copy destroy as).Within data x P := by
  obtain ⟨o, rfl, hp⟩ | ⟨r, hr, hp⟩ := h
  · exact .inr ⟨sub, List.mem_cons_self, data', o, rfl, hp⟩
  · exact .inr ⟨r, List.mem_cons_of_mem _ hr, hp⟩

theorem StepsInto.pointer {copy destroy : Option FunctionName} (h : StepsInto sub data' t' b) :
    StepsInto (.pointer sub copy destroy as) data t' b :=
  ⟨h.cells.pointer, fun r hr => List.mem_cons_of_mem _ (h.targets r hr)⟩

theorem StepsInto.hasCell (h : StepsInto t data t' b) (hcell : t'.HasCell b x s) :
    t.HasCell data x s := by
  obtain ⟨o, rfl, hmem⟩ | ⟨r, hr, hmem⟩ := hcell
  · obtain ⟨o', rfl, hcells⟩ | ⟨r, hr, base, o', rfl, hcells⟩ := h.cells
    · exact .inl ⟨o' + o, Nat.add_assoc _ _ _, hcells _ hmem⟩
    · exact .inr ⟨r, hr, base, o' + o, Nat.add_assoc _ _ _, hcells _ hmem⟩
  · exact .inr ⟨r, h.targets r hr, hmem⟩

/-- The cells and the targets of a member are among those of the members. -/
structure Members.Holds (ms : Members) (d : Nat) (type : Datatype) : Prop where
  cells : ∀ c ∈ type.cells, c.shift d ∈ ms.cells
  targets : ∀ r ∈ type.targets, r ∈ ms.targets

theorem Members.holds_head (d : Nat) (type : Datatype) (name : String) (rest : Members) :
    (Members.cons d type name rest).Holds d type where
  cells _ hc := List.mem_append_left _ (List.mem_map_of_mem hc)
  targets _ hr := List.mem_append_left _ hr

theorem Members.Holds.cons {d d' : Nat} {type type' : Datatype} {name : String} {rest : Members}
    (h : rest.Holds d type) : (Members.cons d' type' name rest).Holds d type where
  cells c hc := List.mem_append_right _ (h.cells c hc)
  targets r hr := List.mem_append_right _ (h.targets r hr)

theorem Members.holds_of_get? :
    ∀ {ms : Members} {i : Nat}, ms.get? i = some (d, type) → ms.Holds d type
  | .cons d' type' name rest, 0, h => by
    simp only [Members.get?, Option.some.injEq, Prod.mk.injEq] at h
    obtain ⟨rfl, rfl⟩ := h
    exact rest.holds_head d' type' name
  | .cons _ _ _ rest, i + 1, h => by
    have hrest : rest.get? i = some (d, type) := h
    exact (Members.holds_of_get? hrest).cons

theorem Datatype.index_into {i : Nat} :
    ∀ {t : Datatype} {data : Nat}, t.index i data mem = .ok (b, t') → StepsInto t data t' b
  | .array subtype _ start subsize _, data, h => by
    rw [Datatype.index] at h
    split at h
    case isFalse => simp at h
    case isTrue hi =>
      simp only [Except.ok.injEq, Prod.mk.injEq] at h
      obtain ⟨rfl, rfl⟩ := h
      refine ⟨.inl ⟨_, rfl, fun c hc => List.mem_flatMap.mpr ⟨i, List.mem_range.mpr hi, ?_⟩⟩,
        fun _ hr => hr⟩
      rw [Nat.mul_comm]
      exact List.mem_map_of_mem hc
  | .tuple elements _ _, data, h => by
    rw [Datatype.index] at h
    split at h
    case h_2 => simp at h
    case h_1 offset type hget =>
      simp only [Except.ok.injEq, Prod.mk.injEq] at h
      obtain ⟨rfl, rfl⟩ := h
      have hholds := Members.holds_of_get? hget
      exact ⟨.inl ⟨offset, rfl, hholds.cells⟩, hholds.targets⟩
  | .pointer subtype _ _ _, data, h => by
    have hsub : subtype.index i (readPointer mem data) mem = .ok (b, t') := h
    exact (Datatype.index_into hsub).pointer

theorem Datatype.member_into :
    ∀ {t : Datatype} {data : Nat}, t.member name data mem = .ok (b, t') → StepsInto t data t' b
  | .record members _ _, data, h => by
    rw [Datatype.member] at h
    split at h
    case h_2 => simp at h
    case h_1 displacement type hfind =>
      simp only [Except.ok.injEq, Prod.mk.injEq] at h
      obtain ⟨rfl, rfl⟩ := h
      obtain ⟨i, hget⟩ := Members.get?_of_find? hfind
      have hholds := Members.holds_of_get? hget
      exact ⟨.inl ⟨displacement, rfl, hholds.cells⟩, hholds.targets⟩
  | .pointer subtype _ _ _, data, h => by
    have hsub : subtype.member name (readPointer mem data) mem = .ok (b, t') := h
    exact (Datatype.member_into hsub).pointer

theorem Datatype.step_into {step : Step} (h : t.step step data mem = .ok (b, t')) :
    StepsInto t data t' b := by
  cases step with
  | index => exact Datatype.index_into h
  | member => exact Datatype.member_into h

theorem hasCell_of_target :
    ∀ {t : Datatype} {data : Nat}, target t data mem = some (x, s) → t.HasCell data x s
  | .scalar s', data, h => by
    simp only [target, Option.some.injEq, Prod.mk.injEq] at h
    obtain ⟨rfl, rfl⟩ := h
    exact .inl ⟨0, rfl, List.mem_singleton_self _⟩
  | .pointer _ _ _ _, _, h => Datatype.Within.pointer (hasCell_of_target h)

theorem hasCell_of_locate (path : Path) :
    ∀ {t : Datatype} {data : Nat}, locate mem path t data = some (x, s) → t.HasCell data x s := by
  induction path with
  | nil => exact hasCell_of_target
  | cons step path ih =>
    intro t data h
    rw [locate] at h
    split at h
    case h_2 => simp at h
    case h_1 b t' hstep => exact (Datatype.step_into hstep).hasCell (ih h)

end Pdi.Datatypes
