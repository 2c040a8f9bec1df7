import Pdi.LayoutTotal
import Pdi.TypeEquality

/-!
# The serialized type is a dense normal form

`serialize_type` of the plugin and `densify` of the core lay out members each by its own
loop. The two agree on types without pointers in which everything takes memory: the plugin
keeps attributes, which `operator==` does not compare, and the core gives a record at least
one byte, which such a record has anyway. Both compute modulo 2^64, which changes nothing
as long as no part of the serialized type has that many bytes.
-/
namespace Pdi.Datatypes

open Pdi.Align

theorem Scalar.align_ne_zero {s : Scalar} (h : 0 < s.size) : s.align ≠ 0 := by
  obtain ⟨_, hzero, _⟩ | hpow := s.valid
  · omega
  · intro halign
    rw [halign] at hpow
    cases hpow

mutual
theorem Datatype.Occupied.aligned : ∀ {t : Datatype}, t.Occupied → t.Aligned
  | .scalar _, h => Scalar.align_ne_zero h.1
  | .array _ _ _ _ _, h => h.1.aligned
  | .record _ _ _, h | .tuple _ _ _, h => h.2.aligned
  | .pointer subtype _ _ _, h => Datatype.Occupied.aligned (t := subtype) h

theorem Members.Occupied.aligned : ∀ {m : Members}, m.Occupied → m.Aligned
  | .nil, _ => trivial
  | .cons _ _ _ _, h => ⟨h.1.aligned, h.2.aligned⟩
end

mutual
theorem Datatype.Occupied.filled : ∀ {t : Datatype}, t.Occupied → t.Filled
  | .scalar _, _ => trivial
  | .array _ _ _ _ _, h => h.1.filled
  | .record _ _ _, h | .tuple _ _ _, h => ⟨h.1, h.2.filled⟩
  | .pointer subtype _ _ _, h => Datatype.Occupied.filled (t := subtype) h

theorem Members.Occupied.filled : ∀ {m : Members}, m.Occupied → m.Filled
  | .nil, _ => trivial
  | .cons _ _ _ _, h => ⟨h.1.filled, h.2.filled⟩
end

/-! ## Without pointers -/

mutual
theorem Datatype.serializeType_pointerFree : ∀ t : Datatype, t.serializeType.PointerFree
  | .scalar _ => trivial
  | .array subtype _ _ _ _ | .pointer subtype _ _ _ => subtype.serializeType_pointerFree
  | .record members _ _ | .tuple members _ _ => members.serialize_pointerFree 0

theorem Members.serialize_pointerFree :
    ∀ (m : Members) (offset : Nat), (m.serialize offset).PointerFree
  | .nil, _ => trivial
  | .cons _ type _ rest, _ => ⟨type.serializeType_pointerFree, rest.serialize_pointerFree _⟩
end

/-! ## Serialized once and for all -/

mutual
theorem Datatype.serializeType_serializeType :
    ∀ t : Datatype, t.serializeType.serializeType = t.serializeType
  | .scalar _ => rfl
  | .array subtype _ _ _ _ => by
    simp only [Datatype.serializeType, subtype.serializeType_serializeType]
  | .record members _ _ | .tuple members _ _ => by
    simp only [Datatype.serializeType, members.serialize_serialize, members.serializedEnd_serialize,
      members.serializedAlignment_serialize]
  | .pointer subtype _ _ _ => by
    simp only [Datatype.serializeType, subtype.serializeType_serializeType]

theorem Members.serialize_serialize :
    ∀ (m : Members) (offset : Nat), (m.serialize offset).serialize offset = m.serialize offset
  | .nil, _ => rfl
  | .cons _ type _ rest, offset => by
    simp only [Members.serialize, type.serializeType_serializeType, rest.serialize_serialize]

theorem Members.serializedEnd_serialize : ∀ (m : Members) (offset : Nat),
    (m.serialize offset).serializedEnd offset = m.serializedEnd offset
  | .nil, _ => rfl
  | .cons _ type _ rest, offset => by
    simp only [Members.serialize, Members.serializedEnd, type.serializeType_serializeType,
      rest.serializedEnd_serialize]

theorem Members.serializedAlignment_serialize : ∀ (m : Members) (offset : Nat),
    (m.serialize offset).serializedAlignment = m.serializedAlignment
  | .nil, _ => rfl
  | .cons _ type _ rest, offset => by
    simp only [Members.serialize, Members.serializedAlignment, type.serializeType_serializeType,
      rest.serializedAlignment_serialize]
end

/-! ## Alignments and sizes -/

theorem Members.alignment_serialize : ∀ (m : Members) (offset : Nat),
    (m.serialize offset).alignment = max 1 m.serializedAlignment
  | .nil, _ => rfl
  | .cons _ type _ rest, offset => by
    rw [Members.serialize, Members.alignment, rest.alignment_serialize, Members.serializedAlignment]
    omega

/-- Members that there are have the alignment of the record. -/
theorem Members.Occupied.alignment_serialize {m : Members} (h : m.Occupied) (hne : m ≠ .nil)
    (offset : Nat) : (m.serialize offset).alignment = m.serializedAlignment := by
  have hpos := h.aligned.serializedAlignment_ne_zero.mpr hne
  rw [Members.alignment_serialize]
  omega

mutual
theorem Datatype.Occupied.buffersize_pos : ∀ {t : Datatype}, t.Occupied →
    0 < t.serializeType.buffersize
  | .scalar s, h => by
    change 0 < s.denseSize
    rw [h.2]
    exact h.1
  | .array _ _ _ _ _, h => Nat.mul_pos (Nat.pos_of_ne_zero h.2) h.1.buffersize_pos
  | .record _ _ _, h | .tuple _ _ _, h =>
    (h.2.serializedEnd_pos h.1).trans_le (le_alignUp _ _)
  | .pointer subtype _ _ _, h => Datatype.Occupied.buffersize_pos (t := subtype) h

theorem Members.Occupied.serializedEnd_pos : ∀ {m : Members}, m.Occupied → m ≠ .nil →
    0 < m.serializedEnd 0
  | .nil, _, hne => absurd rfl hne
  | .cons _ type _ rest, h, _ => by
    have htype := h.1.buffersize_pos
    have hrest := rest.le_serializedEnd
      (alignUp 0 type.serializeType.alignment + type.serializeType.buffersize)
    rw [Members.serializedEnd]
    omega
end

/-! ## Dense -/

mutual
theorem Datatype.Occupied.dense_serializeType : ∀ {t : Datatype}, t.Occupied →
    Machine.Measured t.serializeType → Machine.dense t.serializeType = true
  | .scalar s, h, _ => by simp [Datatype.serializeType, Machine.dense, h.2]
  | .array subtype _ _ _ _, h, hm => by
    simp [Datatype.serializeType, Machine.dense, h.1.dense_serializeType hm.2]
  | .record members _ _, h, hm | .tuple members _ _, h, hm => by
    obtain ⟨hsize, hmembers⟩ := hm
    obtain ⟨hlayOut, hend, -⟩ := Machine.serialized_eq hmembers
    rw [hend] at hsize
    obtain ⟨hmachine, hpadded⟩ := Machine.aligned_eq hsize
    rw [Datatype.serializeType, Machine.dense, h.2.alignment_serialize h.1,
      hlayOut, hend, ← hmachine,
      ← hpadded]
    exact Machine.denseIn_layOut (h.2.dense_serialized hmembers) (Nat.le_max_right _ _)
  | .pointer subtype _ _ _, h, hm => Datatype.Occupied.dense_serializeType (t := subtype) h hm

theorem Members.Occupied.dense_serialized : ∀ {m : Members} {offset : Nat}, m.Occupied →
    Machine.MembersMeasured (m.serialize offset) →
      ∀ x ∈ Machine.serialized m, Machine.dense x.2 = true
  | .nil, _, _, _ => List.forall_mem_nil _
  | .cons _ _ _ _, _, h, hm => by
    rw [Machine.serialized, List.forall_mem_cons, Machine.serializeType_eq hm.1]
    exact ⟨h.1.dense_serializeType hm.1, h.2.dense_serialized hm.2⟩
end

/-! ## The layout of the core -/

mutual
theorem Datatype.PointerFree.alignment_serializeType : ∀ {t : Datatype}, t.PointerFree →
    t.serializeType.alignment = t.alignment
  | .scalar _, _ => rfl
  | .array subtype _ _ _ _, h => Datatype.PointerFree.alignment_serializeType (t := subtype) h
  | .record _ _ _, h | .tuple _ _ _, h => Members.PointerFree.alignment_serialize h 0

theorem Members.PointerFree.alignment_serialize : ∀ {m : Members}, m.PointerFree → ∀ offset,
    (m.serialize offset).alignment = m.alignment
  | .nil, _, _ => rfl
  | .cons _ type _ _, h, offset => by
    rw [Members.serialize, Members.alignment, Members.alignment,
      h.1.alignment_serializeType,
      h.2.alignment_serialize]
end

/-- The plugin and the core align and pad a record alike. -/
theorem Members.Occupied.alignUp_eq {m : Members} (h : m.Occupied) (hne : m ≠ .nil)
    (hp : m.PointerFree) (hend : m.serializedEnd 0 = m.densifiedEnd 0) :
    alignUp (m.serializedEnd 0) m.serializedAlignment =
    paddedEnd (m.densifiedEnd 0) m.alignment := by
  have hpos := h.serializedEnd_pos hne
  have hle := le_alignUp (m.densifiedEnd 0) m.alignment
  rw [← h.alignment_serialize hne 0, hp.alignment_serialize, paddedEnd, hend]
  omega

mutual
theorem Datatype.Occupied.buffersize_eq : ∀ {t : Datatype}, t.Occupied → t.PointerFree →
    t.serializeType.buffersize = t.densify.buffersize
  | .scalar _, _, _ => rfl
  | .array subtype _ _ _ _, h, hp => by
    simp only [Datatype.serializeType, Datatype.densify, Datatype.buffersize,
      h.1.buffersize_eq hp]
  | .record _ _ _, h, hp | .tuple _ _ _, h, hp => h.2.alignUp_eq h.1 hp (h.2.serializedEnd_eq hp 0)

theorem Members.Occupied.serializedEnd_eq : ∀ {m : Members}, m.Occupied → m.PointerFree → ∀ offset,
    m.serializedEnd offset = m.densifiedEnd offset
  | .nil, _, _, _ => rfl
  | .cons _ type _ _, h, hp, offset => by
    rw [Members.serializedEnd, Members.densifiedEnd, h.2.serializedEnd_eq hp.2,
      h.1.buffersize_eq hp.1, hp.1.alignment_serializeType,
      Datatype.alignment_densify]
end

mutual
theorem Datatype.Occupied.same_densify : ∀ {t : Datatype}, t.Occupied → t.PointerFree →
    t.serializeType.same t.densify = true
  | .scalar s, h, _ => same_scalar.mpr ⟨s.densify, rfl, h.2.symm, rfl, rfl⟩
  | .array subtype _ _ _ _, h, hp =>
    same_array.mpr ⟨_, _, rfl, h.1.same_densify hp⟩
  | .record members _ _, h, hp => by
    have hsize := h.2.alignUp_eq h.1 hp (h.2.serializedEnd_eq hp 0)
    rw [Datatype.serializeType, Datatype.densify, hsize]
    exact same_record.mpr ⟨_, _, rfl, h.2.same_members hp true 0⟩
  | .tuple elements _ _, h, hp => by
    have hsize := h.2.alignUp_eq h.1 hp (h.2.serializedEnd_eq hp 0)
    rw [Datatype.serializeType, Datatype.densify, hsize]
    exact same_tuple.mpr ⟨_, _, rfl, h.2.same_members hp false 0⟩

theorem Members.Occupied.same_members : ∀ {m : Members}, m.Occupied → m.PointerFree →
    ∀ named offset, (m.serialize offset).same named (m.densify offset) = true
  | .nil, _, _, _, _ => same_nil.mpr rfl
  | .cons _ type name rest, h, hp, named, offset => by
    rw [Members.serialize, Members.densify, hp.1.alignment_serializeType,
      Datatype.alignment_densify,
      h.1.buffersize_eq hp.1]
    exact same_cons.mpr ⟨_, _, _, rfl, fun _ => rfl, h.1.same_densify hp.1,
      h.2.same_members hp.2 named _⟩
end

mutual
theorem Datatype.Occupied.measured_densify : ∀ {t : Datatype}, t.Occupied → t.PointerFree →
    Machine.Measured t.serializeType → Machine.Measured t.densify
  | .scalar _, _, _, hm => hm
  | .array _ _ _ _ _, h, hp, hm => by
    obtain ⟨hsize, hsubtype⟩ := hm
    rw [h.1.buffersize_eq hp] at hsize
    exact ⟨hsize, h.1.measured_densify hp hsubtype⟩
  | .record _ _ _, h, hp, hm | .tuple _ _ _, h, hp, hm => by
    obtain ⟨hsize, hmembers⟩ := hm
    rw [h.2.alignUp_eq h.1 hp (h.2.serializedEnd_eq hp 0)] at hsize
    exact ⟨hsize, h.2.measured_densify hp hmembers⟩

theorem Members.Occupied.measured_densify : ∀ {m : Members} {offset offset' : Nat}, m.Occupied →
    m.PointerFree → Machine.MembersMeasured (m.serialize offset) →
      Machine.MembersMeasured (m.densify offset')
  | .nil, _, _, _, _, _ => trivial
  | .cons _ _ _ _, _, _, h, hp, hm =>
    ⟨h.1.measured_densify hp.1 hm.1, h.2.measured_densify hp.2 hm.2⟩
end

/-! ## The normal form -/

/-- A sparse array of records with a pointer. -/
def sparsePairs : Datatype :=
  .array (.record (.cons 0 typeForInt8 "flag"
    (.cons 24 (.pointer typeForInt64 none none []) "next" .nil))
    32 []) 5 1 3 []

end Pdi.Datatypes
