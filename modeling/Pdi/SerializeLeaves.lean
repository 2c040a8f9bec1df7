import Pdi.Blocks
import Pdi.Serialize

/-!
# The scalars of serialized data

The scalars of some data in the order in which they are serialized, each with
the places where it is found: in the data, in the buffer that is written, in the
buffer that is read back, and under the serialized type. The copies of the
plugin are the copies of these scalars one after the other. In a type whose arrays
start at their alignment and have elements without gaps, they lie there one after
the other, too.
-/
namespace Pdi.Datatypes

open Pdi.Align Pdi.Memory

variable {t : Datatype}

/-- Where some data is: in memory, where `serialize_copy` writes it, where
`deserialize_copy` reads it, and where the serialized type has it. -/
structure Place where
  source : Nat
  write : Nat
  read : Nat
  slot : Nat

/-- The place further on by some bytes of data, of copies and of the serialized type. -/
def Place.advance (x : Place) (source copied slot : Nat) : Place :=
  ⟨x.source + source, x.write + copied, x.read + copied, x.slot + slot⟩

structure Leaf extends Place where
  scalar : Scalar

mutual
/-- The count of bytes that a copy returns. -/
def Datatype.copiedBytes : Datatype → Nat
  | .scalar s => s.denseSize
  | .array subtype _ _ subsize _ => subsize * subtype.copiedBytes
  | .record members _ _ => members.copiedBytes
  | .tuple elements _ _ => elements.copiedBytes
  | .pointer subtype _ _ _ => subtype.copiedBytes

def Members.copiedBytes : Members → Nat
  | .nil => 0
  | .cons _ type _ rest => type.copiedBytes + rest.copiedBytes
end

/-- The first element of an array, where its start has been aligned for writing. -/
def Datatype.firstElement (subtype : Datatype) (start : Nat) (x : Place) : Place :=
  { x with
    source := x.source + start * subtype.buffersize
    write := alignUp x.write subtype.serializeType.alignment }

/-- The place of the next element. -/
def Datatype.nextElement (subtype : Datatype) (x : Place) : Place :=
  x.advance subtype.buffersize subtype.copiedBytes subtype.serializeType.buffersize

def elementLeaves (leaves : Place → List Leaf) (next : Place → Place) : Nat → Place → List Leaf
  | 0, _ => []
  | n + 1, x => leaves x ++ elementLeaves leaves next n (next x)

mutual
/-- All scalars of the data, pointers being followed in `mem`. -/
def Datatype.leaves (mem : Mem Byte) : Datatype → Place → List Leaf
  | .scalar s, x => [⟨x, s⟩]
  | .array subtype _ start subsize _, x =>
    elementLeaves (subtype.leaves mem) subtype.nextElement subsize (subtype.firstElement start x)
  | .record members _ _, x => members.leaves mem 0 x
  | .tuple elements _ _, x => elements.leaves mem 0 x
  | .pointer subtype _ _ _, x => subtype.leaves mem { x with source := readPointer mem x.source }

def Members.leaves (mem : Mem Byte) : Members → Nat → Place → List Leaf
  | .nil, _, _ => []
  | .cons displacement type _ rest, offset, x =>
    type.leaves mem (x.advance displacement (alignUp offset type.serializeType.alignment)
      (alignUp offset type.serializeType.alignment)) ++
    rest.leaves mem
      (alignUp offset type.serializeType.alignment + type.serializeType.buffersize) x
end

mutual
/-- What is asked of a type: every record and tuple has a member, and every scalar has an
alignment. -/
def Datatype.Serializable : Datatype → Prop
  | .scalar s => 0 < s.align
  | .array subtype _ _ _ _ => subtype.Serializable
  | .record members _ _ => members ≠ .nil ∧ members.Serializable
  | .tuple elements _ _ => elements ≠ .nil ∧ elements.Serializable
  | .pointer subtype _ _ _ => subtype.Serializable

def Members.Serializable : Members → Prop
  | .nil => True
  | .cons _ type _ rest => type.Serializable ∧ rest.Serializable
end

theorem Datatype.Serializable.alignment_pos : ∀ {t : Datatype}, t.Serializable →
    0 < t.serializeType.alignment
  | .scalar _, h => h
  | .array subtype _ _ _ _, h => Datatype.Serializable.alignment_pos (t := subtype) h
  | .record _ _ _, _ | .tuple _ _ _, _ => Members.alignment_pos _
  | .pointer subtype _ _ _, h => Datatype.Serializable.alignment_pos (t := subtype) h

/-- The copies that serialize the scalars. -/
def Leaf.serialize (l : Leaf) : Block := ⟨l.write, l.source, l.scalar.denseSize⟩

/-- The copies that deserialize the scalars. -/
def Leaf.deserialize (l : Leaf) : Block := ⟨l.source, l.read, l.scalar.denseSize⟩

variable {leaves : Place → List Leaf}

theorem serializeElements_eq (old : Mem Byte) {copy : Mem Byte → Nat → Nat → Mem Byte × Nat}
    (hcopy : ∀ mem (x : Place), copy mem x.write x.source =
      (copyAll old ((leaves x).map Leaf.serialize) mem, t.copiedBytes))
    (n : Nat) (mem : Mem Byte) (x : Place) :
    serializeElements copy t.buffersize n mem x.write x.source =
      (copyAll old ((elementLeaves leaves t.nextElement n x).map Leaf.serialize) mem,
        n * t.copiedBytes) := by
  induction n generalizing mem x with
  | zero => simp [serializeElements, elementLeaves, copyAll]
  | succ n ih =>
    have hnext := ih (copyAll old ((leaves x).map Leaf.serialize) mem) (t.nextElement x)
    simp only [serializeElements, hcopy]
    rw [show serializeElements copy t.buffersize n _ (x.write + t.copiedBytes)
      (x.source + t.buffersize) = _ from hnext]
    rw [elementLeaves, List.map_append, copyAll_append, Nat.succ_mul, Nat.add_comm]

mutual
/-- `serialize_copy` copies the scalars one after the other. -/
theorem Datatype.serializeCopy_eq (old : Mem Byte) : ∀ {t : Datatype}, t.Serializable →
    ∀ (mem : Mem Byte) (x : Place), t.serializeCopy old mem x.write x.source =
      (copyAll old ((t.leaves old x).map Leaf.serialize) mem, t.copiedBytes)
  | .scalar s, _, mem, x => rfl
  | .array subtype size start subsize attributes, h, mem, x => by
    have ha := Datatype.Serializable.alignment_pos (t := subtype) h
    simp only [Datatype.serializeCopy, Datatype.leaves, Datatype.copiedBytes]
    rw [stdAlign_zero_size _ ha]
    exact serializeElements_eq old (Datatype.serializeCopy_eq old (t := subtype) h) subsize mem
      (subtype.firstElement start x)
  | .record members _ _, h, mem, x | .tuple members _ _, h, mem, x =>
    Members.serializeCopy_eq old h.2 0 mem x
  | .pointer subtype _ _ _, h, mem, x =>
    Datatype.serializeCopy_eq old (t := subtype) h mem { x with source := readPointer old x.source }

theorem Members.serializeCopy_eq (old : Mem Byte) : ∀ {m : Members}, m.Serializable →
    ∀ (offset : Nat) (mem : Mem Byte) (x : Place),
      m.serializeCopy old (m.serialize offset) mem x.write x.source =
        (copyAll old ((m.leaves old offset x).map Leaf.serialize) mem, m.copiedBytes)
  | .nil, _, _, mem, x => rfl
  | .cons displacement type name rest, h, offset, mem, x => by
    simp only [Members.serialize, Members.serializeCopy, Members.leaves, Members.copiedBytes,
      List.map_append, copyAll_append]
    have hhead := Datatype.serializeCopy_eq old (t := type) h.1 mem
      (x.advance displacement (alignUp offset type.serializeType.alignment)
        (alignUp offset type.serializeType.alignment))
    simp only [Place.advance] at hhead ⊢
    rw [hhead]
    simp only [Members.serializeCopy_eq old (m := rest) h.2]
end

section Elements

variable {next : Place → Place}

theorem mem_elementLeaves {n : Nat} {x : Place} {l : Leaf} :
    l ∈ elementLeaves leaves next n x ↔ ∃ k < n, l ∈ leaves (next^[k] x) := by
  induction n generalizing x with
  | zero => simp [elementLeaves]
  | succ n ih =>
    rw [elementLeaves, List.mem_append, ih]
    constructor
    · rintro (h | ⟨k, hk, h⟩)
      · exact ⟨0, by omega, h⟩
      · exact ⟨k + 1, by omega, h⟩
    · rintro ⟨k, hk, h⟩
      cases k with
      | zero => exact .inl h
      | succ k => exact .inr ⟨k, by omega, h⟩

end Elements

theorem Datatype.nextElement_iterate (t : Datatype) (k : Nat) (x : Place) :
    t.nextElement^[k] x = x.advance (k * t.buffersize) (k * t.copiedBytes)
      (k * t.serializeType.buffersize) := by
  induction k generalizing x with
  | zero => simp [Place.advance]
  | succ k ih =>
    rw [Function.iterate_succ_apply, ih]
    simp only [Datatype.nextElement, Place.advance, Place.mk.injEq, Nat.succ_mul]
    omega

/-! ## Types that are written without gaps -/

mutual
/-- The bytes from the first to the last one that a copy writes. -/
def Datatype.extent : Datatype → Nat
  | .scalar s => s.denseSize
  | .array subtype _ _ subsize _ =>
    if subsize = 0 then 0 else (subsize - 1) * subtype.copiedBytes + subtype.extent
  | .record members _ _ => members.extent 0
  | .tuple elements _ _ => elements.extent 0
  | .pointer subtype _ _ _ => subtype.extent

def Members.extent : Members → Nat → Nat
  | .nil, _ => 0
  | .cons _ type _ rest, offset =>
    max (alignUp offset type.serializeType.alignment + type.extent)
      (rest.extent (alignUp offset type.serializeType.alignment + type.serializeType.buffersize))
end

mutual
/-- A copy to `address` has the start of every array at its alignment, and no array of more
than one element has an element that extends beyond the count of its bytes. -/
def Datatype.Spread : Datatype → Nat → Prop
  | .scalar _, _ => True
  | .array subtype _ _ subsize _, address =>
    subsize = 0 ∨ subtype.serializeType.alignment ∣ address ∧
      (1 < subsize → subtype.extent ≤ subtype.copiedBytes) ∧
      ∀ k < subsize, subtype.Spread (address + k * subtype.copiedBytes)
  | .record members _ _, address => members.Spread 0 address
  | .tuple elements _ _, address => elements.Spread 0 address
  | .pointer subtype _ _ _, address => subtype.Spread address

def Members.Spread : Members → Nat → Nat → Prop
  | .nil, _, _ => True
  | .cons _ type _ rest, offset, address =>
    type.Spread (address + alignUp offset type.serializeType.alignment) ∧
      rest.Spread (alignUp offset type.serializeType.alignment + type.serializeType.buffersize)
        address
end

mutual
theorem Datatype.copiedBytes_le : ∀ t : Datatype, t.copiedBytes ≤ t.serializeType.buffersize
  | .scalar _ => Nat.le_refl _
  | .array subtype _ _ subsize _ => Nat.mul_le_mul_left subsize subtype.copiedBytes_le
  | .record members _ _ | .tuple members _ _ => by
    have hmembers := members.copiedBytes_le 0
    have hpadded := le_alignUp (members.serializedEnd 0) members.serializedAlignment
    simp only [Datatype.copiedBytes, Datatype.serializeType, Datatype.buffersize]
    omega
  | .pointer subtype _ _ _ => subtype.copiedBytes_le

theorem Members.copiedBytes_le : ∀ (ms : Members) (offset : Nat),
    offset + ms.copiedBytes ≤ ms.serializedEnd offset
  | .nil, _ => Nat.le_refl _
  | .cons _ type _ rest, offset => by
    have htype := type.copiedBytes_le
    have hplace := le_alignUp offset type.serializeType.alignment
    have hrest := rest.copiedBytes_le
      (alignUp offset type.serializeType.alignment + type.serializeType.buffersize)
    rw [Members.copiedBytes, Members.serializedEnd]
    omega
end

mutual
theorem Datatype.extent_le : ∀ t : Datatype, t.extent ≤ t.serializeType.buffersize
  | .scalar _ => Nat.le_refl _
  | .array subtype _ _ subsize _ => by
    simp only [Datatype.extent, Datatype.serializeType, Datatype.buffersize]
    split
    · exact Nat.zero_le _
    · next hne =>
      obtain ⟨n, rfl⟩ := Nat.exists_eq_succ_of_ne_zero hne
      rw [Nat.succ_mul, Nat.succ_sub_one]
      exact Nat.add_le_add (Nat.mul_le_mul_left n subtype.copiedBytes_le) subtype.extent_le
  | .record members _ _ | .tuple members _ _ => (members.extent_le 0).trans (le_alignUp _ _)
  | .pointer subtype _ _ _ => subtype.extent_le

theorem Members.extent_le :
    ∀ (ms : Members) (offset : Nat), ms.extent offset ≤ ms.serializedEnd offset
  | .nil, _ => Nat.zero_le _
  | .cons _ type _ rest, offset => by
    have htype := type.extent_le
    have hend := rest.le_serializedEnd
      (alignUp offset type.serializeType.alignment + type.serializeType.buffersize)
    rw [Members.extent, Members.serializedEnd]
    exact Nat.max_le.mpr ⟨by omega, rest.extent_le _⟩
end

/-- The scalars are read where they are written, one after the other between two addresses. -/
structure Written (ls : List Leaf) (first stop : Nat) : Prop where
  readBack : ∀ l ∈ ls, l.read = l.write
  within : ∀ l ∈ ls, first ≤ l.write ∧ l.write + l.scalar.denseSize ≤ stop
  ordered : ls.Pairwise fun l l' => l.write + l.scalar.denseSize ≤ l'.write

theorem written_nil (first stop : Nat) : Written [] first stop :=
  ⟨List.forall_mem_nil _, List.forall_mem_nil _, List.Pairwise.nil⟩

variable {ls ls' : List Leaf} {first first' stop stop' lower upper : Nat}

theorem Written.append (h : Written ls first stop) (h' : Written ls' first' stop')
    (hle : stop ≤ first') (hlower : lower ≤ first ∧ lower ≤ first')
    (hupper : stop ≤ upper ∧ stop' ≤ upper) : Written (ls ++ ls') lower upper := by
  refine ⟨List.forall_mem_append.mpr ⟨h.readBack, h'.readBack⟩,
    List.forall_mem_append.mpr ⟨fun l hl => ?_, fun l hl => ?_⟩,
    List.pairwise_append.mpr ⟨h.ordered, h'.ordered, fun l hl l' hl' => ?_⟩⟩
  · have hl := h.within l hl
    omega
  · have hl := h'.within l hl
    omega
  · have hl := h.within l hl
    have hl' := h'.within l' hl'
    omega

theorem written_elements (n : Nat) (x : Place)
    (h : ∀ k < n, Written (leaves (t.nextElement^[k] x)) (t.nextElement^[k] x).write
      ((t.nextElement^[k] x).write + t.extent))
    (hextent : 1 < n → t.extent ≤ t.copiedBytes) :
    Written (elementLeaves leaves t.nextElement n x) x.write
      (x.write + if n = 0 then 0 else (n - 1) * t.copiedBytes + t.extent) := by
  induction n generalizing x with
  | zero => exact written_nil _ _
  | succ n ih =>
    have hhead := h 0 (Nat.succ_pos n)
    have hrest := ih (t.nextElement x)
      (fun k hk => h (k + 1) (by omega)) fun hn => hextent (by omega)
    simp only [Datatype.nextElement, Place.advance] at hrest
    simp only [Nat.succ_ne_zero, if_false, Nat.succ_sub_one]
    cases n with
    | zero =>
      simp only [Nat.zero_mul, Nat.zero_add]
      exact hhead.append (written_nil _ _) (Nat.le_refl _) ⟨Nat.le_refl _, Nat.le_add_right _ _⟩
        ⟨Nat.le_refl _, Nat.le_refl _⟩
    | succ n =>
      have hle := hextent (by omega)
      have hcount : (n + 1) * t.copiedBytes = n * t.copiedBytes + t.copiedBytes := Nat.succ_mul _ _
      simp only [Nat.succ_ne_zero, if_false, Nat.succ_sub_one] at hrest
      simp only [Function.iterate_zero, id] at hhead
      exact hhead.append hrest (by omega) ⟨by omega, by omega⟩ ⟨by omega, by omega⟩

mutual
theorem Datatype.Spread.written (mem : Mem Byte) : ∀ {t : Datatype} {x : Place}, t.Spread x.write →
    x.read = x.write → Written (t.leaves mem x) x.write (x.write + t.extent)
  | .scalar s, x, _, hread => by
    refine ⟨?_, ?_, List.pairwise_singleton _ _⟩
    · exact List.forall_mem_singleton.mpr hread
    · exact List.forall_mem_singleton.mpr ⟨Nat.le_refl _, Nat.le_refl _⟩
  | .array subtype _ start subsize _, x, h, hread => by
    simp only [Datatype.leaves, Datatype.extent]
    obtain rfl | ⟨hdvd, hextent, hsub⟩ := h
    · exact written_nil _ _
    · have hfirst : (subtype.firstElement start x).write = x.write := alignUp_of_dvd hdvd
      rw [← hfirst]
      refine written_elements subsize (subtype.firstElement start x) (fun k hk => ?_) hextent
      · rw [Datatype.nextElement_iterate]
        refine Datatype.Spread.written mem ?_ ?_
        · simp only [Place.advance, hfirst]
          exact hsub k hk
        · simp only [Place.advance, hfirst]
          exact congrArg (· + _) hread
  | .record members _ _, x, h, hread | .tuple members _ _, x, h, hread =>
    Members.Spread.written mem (m := members) h hread (Nat.zero_le _)
  | .pointer subtype _ _ _, x, h, hread =>
    Datatype.Spread.written mem (t := subtype) (x := { x with source := readPointer mem x.source })
      h hread

theorem Members.Spread.written (mem : Mem Byte) : ∀ {m : Members} {offset first : Nat} {x : Place},
    m.Spread offset x.write → x.read = x.write → first ≤ offset →
      Written (m.leaves mem offset x) (x.write + first) (x.write + m.extent offset)
  | .nil, _, _, _, _, _, _ => written_nil _ _
  | .cons displacement type _ rest, offset, first, x, h, hread, hfirst => by
    have hhead := Datatype.Spread.written mem (t := type) (x := x.advance displacement
      (alignUp offset type.serializeType.alignment) (alignUp offset type.serializeType.alignment))
      h.1 (congrArg (· + _) hread)
    have hrest := Members.Spread.written mem (m := rest) h.2 hread (Nat.le_refl _)
    have hextent := type.extent_le
    have hplace := le_alignUp offset type.serializeType.alignment
    simp only [Place.advance] at hhead
    simp only [Members.leaves, Members.extent]
    exact hhead.append hrest (by omega) ⟨by omega, by omega⟩ ⟨by omega, by omega⟩
end

end Pdi.Datatypes
