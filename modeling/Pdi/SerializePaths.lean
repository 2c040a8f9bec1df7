import Pdi.DensePaths
import Pdi.SerializeLeaves

/-!
# Paths into serialized data

A path leads to the same scalar in data and in its serialized form, pointers
being followed in the data.
-/
namespace Pdi.Datatypes

open Pdi.Align Pdi.Memory

variable {t : Datatype} {as : Attributes} {ms : Members}

/-- A path to a scalar of the data, and to the same scalar under the serialized type. -/
structure Reaches (mem : Mem Byte) (path : Path) (t : Datatype) (x : Place) (l : Leaf) : Prop where
  data : locate mem path t x.source = some (l.source, l.scalar)
  serialized : ∀ mem', locate mem' path t.serializeType x.slot = some (l.slot, l.scalar)

structure ReachesNothing (mem : Mem Byte) (path : Path) (t : Datatype) (x : Place) : Prop where
  data : locate mem path t x.source = none
  serialized : ∀ mem', locate mem' path t.serializeType x.slot = none

/-- One step from the data at `x` to the part of it at `x'`. -/
structure StepReaches (mem : Mem Byte) (step : Step) (t : Datatype) (x : Place) (t' : Datatype)
    (x' : Place) : Prop where
  data : t.step step x.source mem = .ok (x'.source, t')
  serialized : ∀ mem', t.serializeType.step step x.slot mem' = .ok (x'.slot, t'.serializeType)

structure StepReachesNothing (mem : Mem Byte) (step : Step) (t : Datatype) (x : Place) : Prop where
  data : ∃ e, t.step step x.source mem = .error e
  serialized : ∀ mem', ∃ e, t.serializeType.step step x.slot mem' = .error e

variable {mem : Mem Byte}

theorem StepReaches.cons {step : Step} {path : Path} {t t' : Datatype} {x x' : Place} {l : Leaf}
    (h : StepReaches mem step t x t' x') (hl : Reaches mem path t' x' l) :
    Reaches mem (step :: path) t x l := by
  refine ⟨?_, fun mem' => ?_⟩
  · simp only [locate, h.data, hl.data]
  · simp only [locate, h.serialized, hl.serialized]

theorem StepReaches.cons_nothing {step : Step} {path : Path} {t' : Datatype} {x x' : Place}
    (h : StepReaches mem step t x t' x') (hl : ReachesNothing mem path t' x') :
    ReachesNothing mem (step :: path) t x := by
  refine ⟨?_, fun mem' => ?_⟩
  · simp only [locate, h.data, hl.data]
  · simp only [locate, h.serialized, hl.serialized]

theorem StepReachesNothing.cons {step : Step} {t : Datatype} {x : Place}
    (h : StepReachesNothing mem step t x) (path : Path) :
    ReachesNothing mem (step :: path) t x := by
  refine ⟨?_, fun mem' => ?_⟩
  · obtain ⟨e, he⟩ := h.data
    simp only [locate, he]
  · obtain ⟨e, he⟩ := h.serialized mem'
    simp only [locate, he]

theorem Members.lookup_serialize : ∀ (ms : Members) (offset : Nat) (step : Step),
    (ms.lookup step = none ∧ (ms.serialize offset).lookup step = none) ∨
    ∃ d d' t, ms.lookup step = some (d, t) ∧
      (ms.serialize offset).lookup step = some (d', t.serializeType) ∧
      ∀ x, ∀ l ∈ t.leaves mem (x.advance d d' d'), l ∈ ms.leaves mem offset x
  | .nil, _, step => by cases step <;> exact .inl ⟨rfl, rfl⟩
  | .cons d type n rest, offset, step => by
    rw [Members.serialize]
    obtain hfirst | ⟨next, hnext⟩ := Members.lookup_cons step n
    · exact .inr ⟨d, _, type, hfirst _ _ _, hfirst _ _ _, fun _ _ hl => List.mem_append_left _ hl⟩
    · simp only [hnext]
      obtain h | ⟨d, d', t, h, h', hleaf⟩ := rest.lookup_serialize _ next
      · exact .inl h
      · exact .inr ⟨d, d', t, h, h', fun x l hl => List.mem_append_right _ (hleaf x l hl)⟩

theorem stepReaches_index (mem : Mem Byte) {sub : Datatype} {size start n i : Nat} (hi : i < n)
    (x : Place) :
    StepReaches mem (.index i) (.array sub size start n as) x sub
      (sub.nextElement^[i] (sub.firstElement start x)) := by
  rw [Datatype.nextElement_iterate]
  refine ⟨?_, fun mem' => ?_⟩
  · simp only [Datatype.step, Datatype.index, hi, if_true, Place.advance, Datatype.firstElement]
    rw [Nat.mul_comm, Nat.add_mul, Nat.add_assoc]
  · simp only [Datatype.serializeType, Datatype.step, Datatype.index, hi, if_true, Place.advance,
      Datatype.firstElement, Nat.zero_add, Nat.mul_comm]

theorem stepReaches_element (mem : Mem Byte) {n i d d' : Nat} (h : ms.get? i = some (d, t))
    (h' : (ms.serialize 0).get? i = some (d', t.serializeType)) (x : Place) :
    StepReaches mem (.index i) (.tuple ms n as) x t (x.advance d d' d') := by
  refine ⟨?_, fun mem' => ?_⟩
  · simp only [Datatype.step, Datatype.index, h, Place.advance]
  · simp only [Datatype.serializeType, Datatype.step, Datatype.index, h', Place.advance]

theorem stepReaches_member (mem : Mem Byte) {n d d' : Nat} {name : String}
    (h : ms.find? name = some (d, t))
    (h' : (ms.serialize 0).find? name = some (d', t.serializeType)) (x : Place) :
    StepReaches mem (.member name) (.record ms n as) x t (x.advance d d' d') := by
  refine ⟨?_, fun mem' => ?_⟩
  · simp only [Datatype.step, Datatype.member, h, Place.advance]
  · simp only [Datatype.serializeType, Datatype.step, Datatype.member, h', Place.advance]

/-- A step leads to one part of both forms of the data, or fails in both. -/
theorem step_cases (mem : Mem Byte) (step : Step) : ∀ (t : Datatype) (x : Place),
    (∃ t' x', StepReaches mem step t x t' x' ∧ ∀ l ∈ t'.leaves mem x', l ∈ t.leaves mem x) ∨
    StepReachesNothing mem step t x
  | .scalar s, x => by
    cases step <;> exact .inr ⟨⟨_, rfl⟩, fun _ => ⟨_, rfl⟩⟩
  | .array sub size start n as, x => by
    cases step with
    | member => exact .inr ⟨⟨_, rfl⟩, fun _ => ⟨_, rfl⟩⟩
    | index i =>
      by_cases hi : i < n
      · refine .inl ⟨sub, _, stepReaches_index mem hi x, fun l hl => ?_⟩
        exact mem_elementLeaves.mpr ⟨i, hi, hl⟩
      · exact .inr ⟨by simp [Datatype.step, Datatype.index, hi],
          fun mem' => by simp [Datatype.serializeType, Datatype.step, Datatype.index, hi]⟩
  | .tuple ms n as, x => by
    cases step with
    | member => exact .inr ⟨⟨_, rfl⟩, fun _ => ⟨_, rfl⟩⟩
    | index i =>
      obtain ⟨h, h'⟩ | ⟨d, d', t, h, h', hleaf⟩ := ms.lookup_serialize 0 (.index i)
      · rw [Members.lookup] at h h'
        exact .inr ⟨by simp [Datatype.step, Datatype.index, h],
          fun mem' => by simp [Datatype.serializeType, Datatype.step, Datatype.index, h']⟩
      · exact .inl ⟨t, _, stepReaches_element mem h h' x, hleaf x⟩
  | .record ms n as, x => by
    cases step with
    | index => exact .inr ⟨⟨_, rfl⟩, fun _ => ⟨_, rfl⟩⟩
    | member name =>
      obtain ⟨h, h'⟩ | ⟨d, d', t, h, h', hleaf⟩ := ms.lookup_serialize 0 (.member name)
      · rw [Members.lookup] at h h'
        exact .inr ⟨by simp [Datatype.step, Datatype.member, h],
          fun mem' => by simp [Datatype.serializeType, Datatype.step, Datatype.member, h']⟩
      · exact .inl ⟨t, _, stepReaches_member mem h h' x, hleaf x⟩
  | .pointer sub copy destroy as, x => by
    -- a pointer passes the step on to what it points to
    have hpass : ∀ a mem', (Datatype.pointer sub copy destroy as).step step a mem' =
        sub.step step (readPointer mem' a) mem' := by
      intro a mem'
      cases step <;> rfl
    obtain ⟨t', x', h, hleaf⟩ | h := step_cases mem step sub
        { x with source := readPointer mem x.source }
    · exact .inl ⟨t', x', ⟨(hpass _ _).trans h.data, h.serialized⟩, hleaf⟩
    · obtain ⟨e, he⟩ := h.data
      exact .inr ⟨⟨e, (hpass _ _).trans he⟩, h.serialized⟩

/-- The end of a path: a scalar, or something that is none. -/
theorem target_cases (mem : Mem Byte) (t : Datatype) (x : Place) :
    (∃ l ∈ t.leaves mem x, Reaches mem [] t x l) ∨ ReachesNothing mem [] t x := by
  cases t with
  | scalar s => exact .inl ⟨⟨x, s⟩, List.mem_singleton_self _, rfl, fun _ => rfl⟩
  | array | record | tuple => exact .inr ⟨rfl, fun _ => rfl⟩
  | pointer sub =>
    obtain ⟨l, hl, h⟩ | h := target_cases mem sub { x with source := readPointer mem x.source }
    · exact .inl ⟨l, hl, h.data, h.serialized⟩
    · exact .inr ⟨h.data, h.serialized⟩

/-- Every path leads to one scalar in both forms of the data, or nowhere. -/
theorem reaches_cases (mem : Mem Byte) (path : Path) : ∀ (t : Datatype) (x : Place),
    (∃ l ∈ t.leaves mem x, Reaches mem path t x l) ∨ ReachesNothing mem path t x := by
  induction path with
  | nil => exact target_cases mem
  | cons step path ih =>
    intro t x
    obtain ⟨t', x', hstep, hleaf⟩ | hstep := step_cases mem step t x
    · obtain ⟨l, hl, h⟩ | h := ih t' x'
      · exact .inl ⟨l, hleaf l hl, hstep.cons h⟩
      · exact .inr (hstep.cons_nothing h)
    · exact .inr (hstep.cons path)

end Pdi.Datatypes
