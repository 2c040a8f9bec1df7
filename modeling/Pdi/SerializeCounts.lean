import Pdi.SerializeNormal
import Pdi.SerializePlugin
import Pdi.SerializeRoundTrip
import Pdi.TypeNodes

/-!
# The counts of serialized bytes

`serialize_copy` and `deserialize_copy` add up what they copied, each along its own
recursion, and the plugin compares the sums with the `datasize()` of the type that
`serialize_type` has laid out. The three agree on every type. Only the counter of
`deserialize_copy`, an `int`, does not reach the end of every array.
-/
namespace Pdi.Datatypes

open Pdi.Align Pdi.Memory

mutual
/-- What is copied is the data of the serialized type; padding is not counted. -/
theorem Datatype.copiedBytes_eq : ∀ {t : Datatype}, (∀ s ∈ t.scalars, s.denseSize = s.size) →
    t.copiedBytes = t.serializeType.datasize
  | .scalar s, h => h s (by simp)
  | .array subtype _ _ subsize _, h =>
    congrArg (subsize * ·) (Datatype.copiedBytes_eq (t := subtype) h)
  | .record _ _ _, h | .tuple _ _ _, h => Members.copiedBytes_eq h 0
  | .pointer subtype _ _ _, h => Datatype.copiedBytes_eq (t := subtype) h

theorem Members.copiedBytes_eq : ∀ {m : Members}, (∀ s ∈ m.scalars, s.denseSize = s.size) →
    ∀ offset, m.copiedBytes = (m.serialize offset).datasize
  | .nil, _, _ => rfl
  | .cons _ type _ rest, h, offset => by
    rw [scalars_cons, List.forall_mem_append] at h
    rw [Members.copiedBytes, Members.serialize, Members.datasize, Datatype.copiedBytes_eq h.1]
    exact congrArg _ (Members.copiedBytes_eq h.2 _)
end

theorem serializeElements_count {copy : Mem Byte → Nat → Nat → Mem Byte × Nat} {count : Nat}
    (hcopy : ∀ mem dest source, (copy mem dest source).2 = count) (stride n : Nat) (mem : Mem Byte)
    (dest source : Nat) : (serializeElements copy stride n mem dest source).2 = n * count := by
  induction n generalizing mem dest source with
  | zero => simp [serializeElements]
  | succ n ih =>
    simp only [serializeElements, hcopy, ih]
    rw [Nat.succ_mul, Nat.add_comm]

mutual
theorem Datatype.serializeCopy_count (old : Mem Byte) : ∀ (t : Datatype) (mem : Mem Byte)
    (dest source : Nat), (t.serializeCopy old mem dest source).2 = t.copiedBytes
  | .scalar _, _, _, _ => rfl
  | .array subtype _ _ subsize _, mem, _, _ =>
    serializeElements_count (subtype.serializeCopy_count old) _ subsize mem _ _
  | .record members _ _, mem, dest, source => members.serializeCopy_count old 0 mem dest source
  | .tuple elements _ _, mem, dest, source => elements.serializeCopy_count old 0 mem dest source
  | .pointer subtype _ _ _, mem, dest, _ => subtype.serializeCopy_count old mem dest _

theorem Members.serializeCopy_count (old : Mem Byte) : ∀ (m : Members) (offset : Nat)
    (mem : Mem Byte) (dest source : Nat),
      (m.serializeCopy old (m.serialize offset) mem dest source).2 = m.copiedBytes
  | .nil, _, _, _, _ => rfl
  | .cons _ type _ rest, offset, mem, dest, source => by
    simp only [Members.serialize, Members.serializeCopy, Members.copiedBytes,
      type.serializeCopy_count old, rest.serializeCopy_count old]
end

end Pdi.Datatypes

namespace Pdi.SerializePlugin

open Pdi.Memory Pdi.Datatypes Pdi.Reference

/-- Both copies return the size of the data of the serialized type `type`, and so neither check
of the plugin rejects a transfer. -/
structure CountsMatch (t type : Datatype) : Prop where
  serialized : ∀ (old mem : Mem Byte) (dest source : Nat),
    (t.serializeCopy old mem dest source).2 = type.datasize
  deserialized : ∀ (old mem : Mem Byte) (dest source : Nat), ∃ mem',
    t.deserializeCopy old mem dest source = .ok (mem', type.datasize)
  filled : ∀ (inout : Inout) (name : String) (k : Content) (buffer : Nat) (mem : Mem Byte),
    k.type = t → (fill inout name k buffer mem).2 = none
  readBack : ∀ (w : World) (k serialized : Content), k.type = t →
    serialized.type = type → (w.readBack k serialized).2 = none

/-- Over scalars without a dense size of their own, where `serialize_type` returns, the counts
match exactly if no array that is deserialized has `2 ^ 31` elements or more. -/
theorem counts_match_iff {t type : Datatype} (hscalars : ∀ s ∈ t.scalars, s.denseSize = s.size)
    (hreturns : t.serializeType? = some type) : CountsMatch t type ↔ t.Countable := by
  obtain rfl : t.serializeType = type := (serializeType?_eq_some.mp hreturns).2
  constructor
  · intro h
    obtain ⟨mem', hcopy⟩ := h.deserialized (fun _ => 0) (fun _ => 0) 0 0
    exact Datatype.countable_of_ok hcopy
  · intro hcount
    have hbytes := Datatype.copiedBytes_eq hscalars
    have hserialized : ∀ (old mem : Mem Byte) (dest source : Nat),
        (t.serializeCopy old mem dest source).2 = t.serializeType.datasize := by
      intro old mem dest source
      rw [t.serializeCopy_count, hbytes]
    have hdeserialized : ∀ (old mem : Mem Byte) (dest source : Nat), ∃ mem',
        t.deserializeCopy old mem dest source = .ok (mem', t.serializeType.datasize) := by
      intro old mem dest source
      rw [← hbytes]
      exact Datatype.deserializeCopy_count old hcount mem dest source
    refine ⟨hserialized, hdeserialized, ?_, ?_⟩
    · rintro inout name k buffer mem rfl
      unfold fill
      split
      · exact congrArg Prod.snd (if_pos (hserialized mem mem buffer k.data))
      · rfl
    · rintro w k serialized rfl hserializedType
      obtain ⟨mem', hcopy⟩ := hdeserialized w.heap.mem w.heap.mem k.data serialized.data
      rw [World.readBack, hcopy, hserializedType]
      exact if_pos rfl

/-- A sparse array of records with a pointer. -/
theorem counts_match_sparsePairs :
    CountsMatch sparsePairs sparsePairs.serializeType ∧ sparsePairs.serializeType.datasize = 27 ∧
      sparsePairs.serializeType.buffersize = 48 := by
  refine ⟨(counts_match_iff (by decide) rfl).mpr ?_, by decide, by decide⟩
  simp [sparsePairs, Datatype.Countable, Members.Countable, typeForInt8, typeForInt64, intRange]

/-- Two gigabytes of characters. -/
def manyChars : Datatype := .array typeForInt8 (2 ^ 31) 0 (2 ^ 31) []

/-- They are serialized, and deserializing them is undefined. -/
theorem manyChars_not_deserialized :
    manyChars.divisible = true ∧
      (manyChars.serializeCopy (fun _ => 7) (fun _ => 0) 64 64).2 = 2 ^ 31 ∧
      manyChars.deserializeCopy (fun _ => 7) (fun _ => 0) 64 64 =
        .error (.undefined "overflow of an int") := by
  refine ⟨rfl, (manyChars.serializeCopy_count _ _ _ _).trans (Nat.mul_one _), ?_⟩
  exact if_pos (Nat.le_refl _)

end Pdi.SerializePlugin
