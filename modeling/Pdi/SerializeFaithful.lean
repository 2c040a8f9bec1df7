import Pdi.SerializePaths

/-!
# Faithful serialization

The serialized data has at every path what the data has there if every array starts
at its alignment and its elements have no padding: then each scalar is written where
the serialized type has it. Pointers may lead to one object.
-/
namespace Pdi.Datatypes

open Pdi.Align Pdi.Memory

variable {mem mem' : Mem Byte} {data buffer : Nat} {t : Datatype} {x : Place} {l : Leaf}
  {path : Path}

/-- Data and the buffer for it. -/
def Place.start (data buffer : Nat) : Place := ⟨data, buffer, buffer, buffer⟩

mutual
/-- The bytes of a scalar are all copied, and the elements of an array of more than one are
as long in the serialized type as the count of their bytes. -/
def Datatype.Unpadded : Datatype → Prop
  | .scalar s => s.size ≤ s.denseSize
  | .array subtype _ _ subsize _ => subsize = 0 ∨ subtype.Unpadded ∧
      (1 < subsize → subtype.copiedBytes = subtype.serializeType.buffersize)
  | .record members _ _ => members.Unpadded
  | .tuple elements _ _ => elements.Unpadded
  | .pointer subtype _ _ _ => subtype.Unpadded

def Members.Unpadded : Members → Prop
  | .nil => True
  | .cons _ type _ rest => type.Unpadded ∧ rest.Unpadded
end

theorem Reaches.readScalar_eq (h : Reaches mem path t x l) :
    readScalar mem' path t.serializeType x.slot = readScalar mem path t x.source ↔
      ∀ i < l.scalar.size, mem' (l.slot + i) = mem (l.source + i) := by
  simp only [readScalar, h.data, h.serialized, Option.map_some, Option.some.injEq, bytes_eq_iff,
    true_and]

theorem ReachesNothing.readScalar_eq (h : ReachesNothing mem path t x) :
    readScalar mem' path t.serializeType x.slot = readScalar mem path t x.source := by
  simp only [readScalar, h.data, h.serialized, Option.map_none]

mutual
/-- Every scalar is written where the serialized type has it. -/
theorem Datatype.Unpadded.in_place : ∀ {t : Datatype} {x : Place}, t.Unpadded → t.Spread x.write →
    x.write = x.slot → ∀ l ∈ t.leaves mem x, l.scalar.size ≤ l.scalar.denseSize ∧ l.write = l.slot
  | .scalar s, x, h, _, hx => List.forall_mem_singleton.mpr ⟨h, hx⟩
  | .array subtype _ start subsize _, x, h, hspread, hx => by
    intro l hl
    obtain ⟨k, hk, hl⟩ := mem_elementLeaves.mp hl
    obtain ⟨hsub, hcount⟩ := h.resolve_left (by omega)
    obtain ⟨hdvd, -, hsubs⟩ := hspread.resolve_left (by omega)
    have hfirst : (subtype.firstElement start x).write = x.write := alignUp_of_dvd hdvd
    rw [Datatype.nextElement_iterate] at hl
    refine hsub.in_place ?_ ?_ l hl
    · simp only [Place.advance, hfirst]
      exact hsubs k hk
    · have hslot : (subtype.firstElement start x).slot = x.slot := rfl
      simp only [Place.advance, hfirst, hslot, hx]
      obtain rfl | hpos := Nat.eq_zero_or_pos k
      · simp only [Nat.zero_mul]
      · rw [hcount (by omega)]
  | .record members _ _, x, h, hspread, hx | .tuple members _ _, x, h, hspread, hx =>
    Members.Unpadded.in_place (m := members) h hspread hx
  | .pointer subtype _ _ _, x, h, hspread, hx =>
    Datatype.Unpadded.in_place (t := subtype) (x := { x with source := readPointer mem x.source })
      h hspread hx

theorem Members.Unpadded.in_place : ∀ {m : Members} {offset : Nat} {x : Place}, m.Unpadded →
    m.Spread offset x.write → x.write = x.slot →
      ∀ l ∈ m.leaves mem offset x, l.scalar.size ≤ l.scalar.denseSize ∧ l.write = l.slot
  | .nil, _, _, _, _, _ => List.forall_mem_nil _
  | .cons _ _ _ _, _, _, h, hspread, hx =>
    List.forall_mem_append.mpr ⟨h.1.in_place hspread.1 (congrArg (· + _) hx),
      h.2.in_place hspread.2 hx⟩
end

theorem serializeCopy_mem (ht : t.Serializable) (mem room : Mem Byte) (data buffer : Nat) :
    (t.serializeCopy mem room buffer data).1 =
      copyAll mem ((t.leaves mem (Place.start data buffer)).map Leaf.serialize) room :=
  congrArg Prod.fst (Datatype.serializeCopy_eq mem ht room (Place.start data buffer))

/-- What is written for a scalar stays there. -/
theorem Written.origin_eq {ls : List Leaf} {first stop : Nat} (h : Written ls first stop)
    (hl : l ∈ ls) {i : Nat} (hi : i < l.scalar.denseSize) :
    origin (ls.map Leaf.serialize) (l.write + i) = some (l.source + i) := by
  have hpair : ls.Pairwise fun l l' => ∀ a, l.serialize.Writes a → ¬ l'.serialize.Writes a := by
    refine h.ordered.imp fun hle a hw hw' => ?_
    simp only [Leaf.serialize, Block.Writes] at hw hw'
    omega
  have hw : l.serialize.Writes (l.write + i) := by
    simp only [Leaf.serialize, Block.Writes]
    omega
  rw [origin_of_pairwise hpair hl hw]
  simp only [Leaf.serialize, Nat.add_sub_cancel_left]

/-- A pointer to an integer and a sparse array of integers. -/
def pointerAndArray : Datatype :=
  .record (.cons 0 (.pointer typeForInt32 none none []) "first"
    (.cons 8 (.array typeForInt32 4 1 2 []) "others" .nil)) 24 []

/-- The pointer at address 64 has the value 128. -/
def pointerAt64 : Mem Byte := fun a => if a = 64 then 128 else 0

theorem leaves_pointerAndArray : pointerAndArray.leaves pointerAt64 (Place.start 64 4096) =
    [⟨⟨128, 4096, 4096, 4096⟩, Scalar.make .signed 4 4 (by decide)⟩,
      ⟨⟨76, 4100, 4100, 4100⟩, Scalar.make .signed 4 4 (by decide)⟩,
      ⟨⟨80, 4104, 4104, 4104⟩, Scalar.make .signed 4 4 (by decide)⟩] := by
  rfl

theorem serializable_pointerAndArray : pointerAndArray.Serializable := by
  simp [pointerAndArray, Datatype.Serializable, Members.Serializable, typeForInt32, Scalar.make]

theorem spread_pointerAndArray : pointerAndArray.Spread 4096 :=
  ⟨trivial, .inr ⟨by decide, fun _ => by decide, fun _ _ => trivial⟩, trivial⟩

end Pdi.Datatypes
