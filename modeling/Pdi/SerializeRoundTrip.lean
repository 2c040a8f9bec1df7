import Pdi.SerializeFaithful

/-!
# Serializing and deserializing

Deserializing puts back what was serialized if no array is moved by its alignment,
no element of an array extends over the next one, and no array has more elements
than the counter of its loop can count.
-/
namespace Pdi.Datatypes

open Pdi.Align Pdi.Memory

mutual
/-- The arrays that are deserialized have fewer elements than `intRange`. -/
def Datatype.Countable : Datatype → Prop
  | .scalar _ => True
  | .array subtype _ _ subsize _ => subsize < intRange ∧ (subsize = 0 ∨ subtype.Countable)
  | .record members _ _ => members.Countable
  | .tuple elements _ _ => elements.Countable
  | .pointer subtype _ _ _ => subtype.Countable

def Members.Countable : Members → Prop
  | .nil => True
  | .cons _ type _ rest => type.Countable ∧ rest.Countable
end

mutual
/-- Too many elements make the copy undefined. -/
theorem Datatype.countable_of_ok {old : Mem Byte} : ∀ {t : Datatype} {mem : Mem Byte}
    {dest source : Nat} {result : Mem Byte × Nat},
    t.deserializeCopy old mem dest source = .ok result → t.Countable
  | .scalar _, _, _, _, _, _ => trivial
  | .array sub _ start n _, mem, dest, source, result, h => by
    rw [Datatype.deserializeCopy] at h
    split at h
    · cases h
    · next hn =>
      refine ⟨Nat.lt_of_not_le hn, ?_⟩
      cases n with
      | zero => exact .inl rfl
      | succ =>
        rw [deserializeElements] at h
        cases hcopy : sub.deserializeCopy old mem (dest + start * sub.buffersize) source with
        | error =>
          rw [hcopy] at h
          cases h
        | ok => exact .inr (Datatype.countable_of_ok hcopy)
  | .record ms _ _, _, _, _, _, h => Members.countable_of_ok (m := ms) h
  | .tuple ms _ _, _, _, _, _, h => Members.countable_of_ok (m := ms) h
  | .pointer sub _ _ _, _, _, _, _, h => Datatype.countable_of_ok (t := sub) h

theorem Members.countable_of_ok {old : Mem Byte} : ∀ {m : Members} {offset : Nat} {mem : Mem Byte}
    {dest source : Nat} {result : Mem Byte × Nat},
    m.deserializeCopy old (m.serialize offset) mem dest source = .ok result → m.Countable
  | .nil, _, _, _, _, _, _ => trivial
  | .cons d type _ rest, offset, mem, dest, source, result, h => by
    rw [Members.serialize, Members.deserializeCopy] at h
    cases hcopy : type.deserializeCopy old mem (dest + d)
        (source + alignUp offset type.serializeType.alignment) with
    | error e =>
      rw [hcopy] at h
      cases h
    | ok first =>
      simp only [hcopy, bind, Except.bind] at h
      split at h
      · cases h
      · next others => exact ⟨Datatype.countable_of_ok hcopy,
          Members.countable_of_ok (m := rest) others⟩
end

theorem deserializeElements_count {copy : Mem Byte → Nat → Nat → DeserializeResult} {count : Nat}
    (n stride : Nat) (hcopy : n = 0 ∨ ∀ mem dest source, ∃ mem',
      copy mem dest source = .ok (mem', count)) (mem : Mem Byte) (dest source : Nat) :
    ∃ mem', deserializeElements copy stride n mem dest source = .ok (mem', n * count) := by
  induction n generalizing mem dest source with
  | zero => exact ⟨mem, by simp [deserializeElements]⟩
  | succ n ih =>
    have hcopy := hcopy.resolve_left (by omega)
    obtain ⟨mem₁, hfirst⟩ := hcopy mem dest source
    obtain ⟨mem₂, hrest⟩ := ih (.inr hcopy) mem₁ (dest + stride) (source + count)
    refine ⟨mem₂, ?_⟩
    simp only [deserializeElements, hfirst, bind, Except.bind, hrest]
    rw [Nat.succ_mul, Nat.add_comm]

mutual
/-- Otherwise it returns the count of bytes that `serialize_copy` does. -/
theorem Datatype.deserializeCopy_count (old : Mem Byte) : ∀ {t : Datatype}, t.Countable →
    ∀ (mem : Mem Byte) (dest source : Nat),
      ∃ mem', t.deserializeCopy old mem dest source = .ok (mem', t.copiedBytes)
  | .scalar s, _, mem, dest, source => ⟨_, rfl⟩
  | .array sub _ start n _, hcount, mem, dest, source => by
    rw [Datatype.deserializeCopy, if_neg (Nat.not_le_of_lt hcount.1)]
    exact deserializeElements_count n sub.buffersize
      (hcount.2.imp_right (Datatype.deserializeCopy_count old)) mem _ source
  | .record ms _ _, hcount, mem, dest, source | .tuple ms _ _, hcount, mem, dest, source =>
    Members.deserializeCopy_count old (m := ms) hcount 0 mem dest source
  | .pointer sub _ _ _, hcount, mem, dest, source =>
    Datatype.deserializeCopy_count old (t := sub) hcount mem (readPointer mem dest) source

theorem Members.deserializeCopy_count (old : Mem Byte) : ∀ {m : Members}, m.Countable →
    ∀ (offset : Nat) (mem : Mem Byte) (dest source : Nat), ∃ mem',
      m.deserializeCopy old (m.serialize offset) mem dest source = .ok (mem', m.copiedBytes)
  | .nil, _, _, mem, _, _ => ⟨mem, rfl⟩
  | .cons d type _ rest, hcount, offset, mem, dest, source => by
    obtain ⟨mem₁, hfirst⟩ := Datatype.deserializeCopy_count old hcount.1 mem (dest + d)
      (source + alignUp offset type.serializeType.alignment)
    obtain ⟨mem₂, hrest⟩ := Members.deserializeCopy_count old (m := rest) hcount.2
      (alignUp offset type.serializeType.alignment + type.serializeType.buffersize) mem₁ dest source
    refine ⟨mem₂, ?_⟩
    rw [Members.serialize, Members.deserializeCopy]
    simp only [hfirst, bind, Except.bind, hrest, Members.copiedBytes]
end

section Apart

variable {t : Datatype} {mem mem' : Mem Byte} {x : Place} {l : Leaf} {a : Nat}

/-- The memory a scalar may take in the data. -/
def Leaf.Covers (l : Leaf) (a : Nat) : Prop :=
  l.source ≤ a ∧ a < l.source + max l.scalar.size l.scalar.denseSize

mutual
/-- There is a pointer of the data at address `a`. -/
def Datatype.HasPointer (mem : Mem Byte) : Datatype → Nat → Nat → Prop
  | .scalar _, _, _ => False
  | .array subtype _ start subsize _, data, a =>
    ∃ k < subsize, subtype.HasPointer mem (data + (start + k) * subtype.buffersize) a
  | .record members _ _, data, a => members.HasPointer mem data a
  | .tuple elements _ _, data, a => elements.HasPointer mem data a
  | .pointer subtype _ _ _, data, a =>
    a = data ∨ subtype.HasPointer mem (readPointer mem data) a

def Members.HasPointer (mem : Mem Byte) : Members → Nat → Nat → Prop
  | .nil, _, _ => False
  | .cons displacement type _ rest, data, a =>
    type.HasPointer mem (data + displacement) a ∨ rest.HasPointer mem data a
end

/-- Another content of the same data: its pointers are the same. -/
def SamePointers (t : Datatype) (data : Nat) (mem mem' : Mem Byte) : Prop :=
  ∀ a, t.HasPointer mem data a → ∀ i < pointerSize, mem' (a + i) = mem (a + i)

theorem readPointer_congr (h : ∀ i < pointerSize, mem' (a + i) = mem (a + i)) :
    readPointer mem' a = readPointer mem a := by
  rw [readPointer, readPointer, (bytes_eq_iff mem' mem a a pointerSize pointerSize).mpr ⟨rfl, h⟩]

/-- The scalars of the data lie apart from each other and from its pointers. -/
structure Separated (mem : Mem Byte) (t : Datatype) (x : Place) : Prop where
  scalars : (t.leaves mem x).Pairwise fun l l' => ∀ a, l.Covers a → ¬ l'.Covers a
  pointers : ∀ l ∈ t.leaves mem x, ∀ a, t.HasPointer mem x.source a → ∀ i < pointerSize,
    ¬ l.Covers (a + i)

theorem Separated.eq (h : Separated mem t x) {l' : Leaf} (hl : l ∈ t.leaves mem x)
    (hl' : l' ∈ t.leaves mem x) (ha : l.Covers a) (ha' : l'.Covers a) : l = l' := by
  have : Std.Symm fun l l' : Leaf => ∀ a, l.Covers a → ¬ l'.Covers a :=
    ⟨fun _ _ h a ha ha' => h a ha' ha⟩
  by_contra hne
  exact h.scalars.forall hl hl' hne a ha ha'

end Apart

/-- Memory with the pointers `C` of some other memory. -/
def AgreeOn (C : Nat → Prop) (mem cur : Mem Byte) : Prop :=
  ∀ a, C a → ∀ i < pointerSize, cur (a + i) = mem (a + i)

section Deserialize

variable {mem : Mem Byte} {ls : List Leaf} {C : Nat → Prop}

/-- Deserializing scalars that lie apart from pointers leaves the pointers. -/
theorem AgreeOn.copyAll (hapart : ∀ l ∈ ls, ∀ a, C a → ∀ i < pointerSize, ¬ l.Covers (a + i))
    (old : Mem Byte) {part : List Leaf} (hpart : ∀ l ∈ part, l ∈ ls) {cur : Mem Byte}
    (h : AgreeOn C mem cur) : AgreeOn C mem (copyAll old (part.map Leaf.deserialize) cur) := by
  intro a ha i hi
  rw [copyAll_of_unwritten old cur, h a ha i hi]
  intro b hb hw
  obtain ⟨l, hl, rfl⟩ := List.mem_map.mp hb
  simp only [Leaf.deserialize, Block.Writes] at hw
  exact hapart l (hpart l hl) a ha i hi ⟨by omega, by omega⟩

variable (hapart : ∀ l ∈ ls, ∀ a, C a → ∀ i < pointerSize, ¬ l.Covers (a + i))
include hapart

theorem deserializeElements_eq (old : Mem Byte) {copy : Mem Byte → Nat → Nat → DeserializeResult}
    {t : Datatype} {leaves : Place → List Leaf} (n : Nat) (x : Place)
    (hcopy : ∀ k < n, ∀ cur, AgreeOn C mem cur →
      copy cur (t.nextElement^[k] x).source (t.nextElement^[k] x).read =
        .ok (copyAll old ((leaves (t.nextElement^[k] x)).map Leaf.deserialize) cur, t.copiedBytes))
    (hls : ∀ l ∈ elementLeaves leaves t.nextElement n x, l ∈ ls) (cur : Mem Byte)
    (hcur : AgreeOn C mem cur) :
    deserializeElements copy t.buffersize n cur x.source x.read =
      .ok (copyAll old ((elementLeaves leaves t.nextElement n x).map Leaf.deserialize) cur,
        n * t.copiedBytes) := by
  induction n generalizing x cur with
  | zero => simp [deserializeElements, elementLeaves, Pdi.Memory.copyAll]
  | succ n ih =>
    rw [elementLeaves] at hls
    have hfirst := hcopy 0 (by omega) cur hcur
    have hnext := ih (t.nextElement x) (fun k hk => hcopy (k + 1) (by omega))
      (fun l hl => hls l (List.mem_append_right _ hl)) _
      (hcur.copyAll hapart old fun l hl => hls l (List.mem_append_left _ hl))
    simp only [Function.iterate_zero, id] at hfirst
    simp only [deserializeElements, hfirst, bind, Except.bind]
    rw [show deserializeElements copy t.buffersize n _ (x.source + t.buffersize)
      (x.read + t.copiedBytes) = _ from hnext]
    simp only [elementLeaves, List.map_append, copyAll_append, Nat.succ_mul, Nat.add_comm]

mutual
/-- `deserialize_copy` copies the scalars one after the other, pointers staying
as they are. -/
theorem Datatype.deserializeCopy_eq (old : Mem Byte) : ∀ {t : Datatype}, t.Countable →
    ∀ (x : Place), (∀ l ∈ t.leaves mem x, l ∈ ls) → (∀ a, t.HasPointer mem x.source a → C a) →
    ∀ cur, AgreeOn C mem cur → t.deserializeCopy old cur x.source x.read =
      .ok (copyAll old ((t.leaves mem x).map Leaf.deserialize) cur, t.copiedBytes)
  | .scalar s, _, x, _, _, cur, _ => rfl
  | .array sub _ start n _, hcount, x, hls, hC, cur, hcur => by
    rw [Datatype.deserializeCopy, if_neg (Nat.not_le_of_lt hcount.1)]
    refine deserializeElements_eq hapart old n (sub.firstElement start x) ?_ hls cur hcur
    intro k hk cur hcur
    have hsub : sub.Countable := hcount.2.resolve_left (by omega)
    refine Datatype.deserializeCopy_eq old hsub _ (fun l hl => hls l ?_)
      (fun a ha => hC a ?_) cur hcur
    · exact mem_elementLeaves.mpr ⟨k, hk, hl⟩
    · rw [Datatype.nextElement_iterate] at ha
      refine ⟨k, hk, ?_⟩
      rw [Nat.add_mul, ← Nat.add_assoc]
      exact ha
  | .record ms _ _, hcount, x, hls, hC, cur, hcur | .tuple ms _ _, hcount, x, hls, hC, cur, hcur =>
    Members.deserializeCopy_eq old (m := ms) hcount 0 x hls hC cur hcur
  | .pointer sub _ _ _, hcount, x, hls, hC, cur, hcur => by
    rw [Datatype.deserializeCopy, readPointer_congr (hcur x.source (hC _ (.inl rfl)))]
    exact Datatype.deserializeCopy_eq old (t := sub) hcount
      { x with source := readPointer mem x.source } hls (fun a ha => hC a (.inr ha)) cur hcur

theorem Members.deserializeCopy_eq (old : Mem Byte) : ∀ {m : Members}, m.Countable →
    ∀ (offset : Nat) (x : Place), (∀ l ∈ m.leaves mem offset x, l ∈ ls) →
    (∀ a, m.HasPointer mem x.source a → C a) → ∀ cur, AgreeOn C mem cur →
    m.deserializeCopy old (m.serialize offset) cur x.source x.read =
      .ok (copyAll old ((m.leaves mem offset x).map Leaf.deserialize) cur, m.copiedBytes)
  | .nil, _, _, _, _, _, _, _ => rfl
  | .cons d type _ rest, hcount, offset, x, hls, hC, cur, hcur => by
    rw [Members.leaves] at hls
    have hhead := Datatype.deserializeCopy_eq old hcount.1
      (x.advance d (alignUp offset type.serializeType.alignment)
        (alignUp offset type.serializeType.alignment))
      (fun l hl => hls l (List.mem_append_left _ hl)) (fun a ha => hC a (.inl ha)) cur hcur
    have hrest := Members.deserializeCopy_eq old hcount.2
      (alignUp offset type.serializeType.alignment + type.serializeType.buffersize) x
      (fun l hl => hls l (List.mem_append_right _ hl)) (fun a ha => hC a (.inr ha)) _
      (hcur.copyAll hapart old fun l hl => hls l (List.mem_append_left _ hl))
    simp only [Place.advance] at hhead hrest
    simp only [Members.serialize, Members.deserializeCopy, hhead, hrest, bind, Except.bind,
      Members.leaves, Members.copiedBytes, List.map_append, copyAll_append, Place.advance]
end

end Deserialize

section Locate

variable {mem mem' : Mem Byte}

theorem Members.hasPointer_get? : ∀ {m : Members} {i d : Nat} {t : Datatype},
    m.get? i = some (d, t) → ∀ data a, t.HasPointer mem (data + d) a → m.HasPointer mem data a
  | .nil, _, _, _, h => by cases h
  | .cons _ _ _ _, 0, _, _, h => by
    cases h
    exact fun data a ha => .inl ha
  | .cons _ _ _ rest, _ + 1, _, _, h =>
    fun data a ha => .inr (Members.hasPointer_get? (m := rest) h data a ha)

/-- A step reads pointers only, and stays among the pointers of the data. -/
theorem step_congr (step : Step) : ∀ (t : Datatype) (data : Nat), SamePointers t data mem mem' →
    t.step step data mem' = t.step step data mem ∧
    ∀ a t', t.step step data mem = .ok (a, t') →
      ∀ p, t'.HasPointer mem a p → t.HasPointer mem data p
  | .scalar s, data, _ => by
    cases step <;> exact ⟨rfl, fun _ _ h => by cases h⟩
  | .array sub size start n as, data, _ => by
    cases step with
    | member => exact ⟨rfl, fun _ _ h => by cases h⟩
    | index i =>
      refine ⟨rfl, fun a t' h p hp => ?_⟩
      simp only [Datatype.step, Datatype.index] at h
      split at h
      · next hi =>
        cases h
        refine ⟨i, hi, ?_⟩
        rw [Nat.mul_comm]
        exact hp
      · cases h
  | .tuple ms n as, data, _ => by
    cases step with
    | member => exact ⟨rfl, fun _ _ h => by cases h⟩
    | index =>
      refine ⟨rfl, fun a t' h p hp => ?_⟩
      simp only [Datatype.step, Datatype.index] at h
      split at h
      · next hget =>
        cases h
        exact Members.hasPointer_get? hget data p hp
      · cases h
  | .record ms n as, data, _ => by
    cases step with
    | index => exact ⟨rfl, fun _ _ h => by cases h⟩
    | member =>
      refine ⟨rfl, fun a t' h p hp => ?_⟩
      simp only [Datatype.step, Datatype.member] at h
      split at h
      · next hfind =>
        cases h
        obtain ⟨i, hget⟩ := Members.get?_of_find? hfind
        exact Members.hasPointer_get? hget data p hp
      · cases h
  | .pointer sub copy destroy as, data, hsame => by
    have hp := readPointer_congr (hsame data (.inl rfl))
    obtain ⟨heq, hsub⟩ := step_congr step sub (readPointer mem data) fun a ha => hsame a (.inr ha)
    have hpass : ∀ m, (Datatype.pointer sub copy destroy as).step step data m =
        sub.step step (readPointer m data) m := by
      intro m
      cases step <;> rfl
    rw [hpass, hpass, hp]
    exact ⟨heq, fun a t' h p hp => .inr (hsub a t' h p hp)⟩

theorem target_congr : ∀ (t : Datatype) (data : Nat), SamePointers t data mem mem' →
    target t data mem' = target t data mem
  | .scalar _, _, _ | .array _ _ _ _ _, _, _ | .record _ _ _, _, _ | .tuple _ _ _, _, _ => rfl
  | .pointer sub _ _ _, data, h => by
    rw [target, target, readPointer_congr (h data (.inl rfl))]
    exact target_congr sub _ fun a ha => h a (.inr ha)

theorem locate_congr (path : Path) (t : Datatype) (data : Nat) (h : SamePointers t data mem mem') :
    locate mem' path t data = locate mem path t data := by
  induction path generalizing t data with
  | nil => exact target_congr t data h
  | cons step path ih =>
    obtain ⟨heq, hsub⟩ := step_congr step t data h
    rw [locate, locate, heq]
    cases hstep : t.step step data mem with
    | error => rfl
    | ok next => exact ih next.2 next.1 fun a ha => h a (hsub next.1 next.2 hstep a ha)

end Locate

section RoundTrip

/-- Deserializing what was serialized leaves the data as it was. -/
def RoundTrips (t : Datatype) (mem : Mem Byte) (data buffer : Nat) : Prop :=
  ∀ room, ∃ mem' copied,
    t.deserializeCopy (t.serializeCopy mem room buffer data).1 mem data buffer =
      .ok (mem', copied) ∧
    ∀ path, readScalar mem' path t data = readScalar mem path t data

variable {t : Datatype} {mem : Mem Byte} {data buffer : Nat}

/-- What is deserialized into a byte of the data. -/
theorem origin_deserialize (hs : Separated mem t (Place.start data buffer)) {l : Leaf}
    (hl : l ∈ t.leaves mem (Place.start data buffer)) {i : Nat} (hi : i < l.scalar.denseSize) :
    origin ((t.leaves mem (Place.start data buffer)).map Leaf.deserialize) (l.source + i) =
      some (l.read + i) := by
  have hcover : ∀ (l : Leaf) a, l.deserialize.Writes a → l.Covers a := by
    intro l a hw
    simp only [Leaf.deserialize, Block.Writes] at hw
    exact ⟨hw.1, by omega⟩
  have hw : l.deserialize.Writes (l.source + i) := by
    simp only [Leaf.deserialize, Block.Writes]
    omega
  rw [origin_of_pairwise (hs.scalars.imp fun hap a ha ha' =>
    hap a (hcover _ a ha) (hcover _ a ha')) hl hw]
  simp [Leaf.deserialize]

/-- The result of the round trip, byte by byte: a byte that is not deserialized stays. -/
theorem roundTrip_apply (ht : t.Serializable) (hcount : t.Countable)
    (hs : Separated mem t (Place.start data buffer)) (room : Mem Byte) : ∃ mem' copied,
    t.deserializeCopy (t.serializeCopy mem room buffer data).1 mem data buffer =
      .ok (mem', copied) ∧ SamePointers t data mem mem' ∧
    ∀ l ∈ t.leaves mem (Place.start data buffer), ∀ i < l.scalar.size, mem' (l.source + i) =
      if i < l.scalar.denseSize then
        copyAll mem ((t.leaves mem (Place.start data buffer)).map Leaf.serialize) room (l.read + i)
      else mem (l.source + i) := by
  have hsame : SamePointers t data mem mem := fun _ _ _ _ => rfl
  have hcopy := Datatype.deserializeCopy_eq hs.pointers
    (t.serializeCopy mem room buffer data).1 hcount (Place.start data buffer) (fun _ hl => hl)
    (fun _ ha => ha) mem hsame
  refine ⟨_, _, hcopy, ?_, fun l hl i hi => ?_⟩
  · exact AgreeOn.copyAll hs.pointers _ (fun _ hl => hl) hsame
  · rw [serializeCopy_mem ht]
    split
    · next hdense => rw [copyAll_apply, origin_deserialize hs hl hdense]
    · next hdense =>
      refine copyAll_of_unwritten _ mem fun b hb hw => ?_
      obtain ⟨l', hl', rfl⟩ := List.mem_map.mp hb
      simp only [Leaf.deserialize, Block.Writes] at hw
      obtain rfl := hs.eq hl hl' (a := l.source + i) ⟨by omega, by omega⟩ ⟨by omega, by omega⟩
      omega

end RoundTrip

/-- For every type and every data of it whose scalars and pointers lie apart: where no array
has too many elements for its loop, arrays start at their alignment and no element extends
over the next one, deserializing what was serialized leaves every scalar as it was. -/
theorem deserialize_serialize (t : Datatype) (ht : t.Serializable) (hcount : t.Countable)
    (mem : Mem Byte) (data buffer : Nat) (hs : Separated mem t (Place.start data buffer))
    (hspread : t.Spread buffer) : RoundTrips t mem data buffer := by
  intro room
  have hwritten := Datatype.Spread.written mem (x := Place.start data buffer) hspread rfl
  obtain ⟨mem', copied, hcopy, hsame, hbytes⟩ := roundTrip_apply ht hcount hs room
  refine ⟨mem', copied, hcopy, fun path => ?_⟩
  rw [readScalar, readScalar, locate_congr path t data hsame]
  obtain ⟨l, hl, hr⟩ | hr := reaches_cases mem path t (Place.start data buffer)
  · have hdata : locate mem path t data = some (l.source, l.scalar) := hr.data
    simp only [hdata, Option.map_some, Option.some.injEq, bytes_eq_iff, true_and]
    intro i hi
    rw [hbytes l hl i hi, hwritten.readBack l hl]
    split
    · next hdense => rw [copyAll_apply, hwritten.origin_eq hl hdense]
    · rfl
  · have hnone : locate mem path t data = none := hr.data
    simp only [hnone, Option.map_none]

theorem separated_pointerAndArray :
    Separated pointerAt64 pointerAndArray (Place.start 64 4096) := by
  have hpointer : ∀ a, pointerAndArray.HasPointer pointerAt64 64 a → a = 64 := by
    intro a ha
    simpa [pointerAndArray, Datatype.HasPointer, Members.HasPointer, typeForInt32] using ha
  refine ⟨?_, fun l hl a ha i hi => ?_⟩
  · rw [leaves_pointerAndArray]
    refine List.pairwise_cons.mpr ⟨?_, List.pairwise_pair.mpr ?_⟩
    · simp only [List.mem_cons, List.not_mem_nil, or_false]
      rintro l (rfl | rfl) a <;> simp [Leaf.Covers, Scalar.make] <;> omega
    · intro a
      simp [Leaf.Covers, Scalar.make]
      omega
  · rw [leaves_pointerAndArray] at hl
    rw [hpointer a ha]
    simp only [pointerSize] at hi
    simp only [List.mem_cons, List.not_mem_nil, or_false] at hl
    obtain rfl | rfl | rfl := hl <;> simp [Leaf.Covers, Scalar.make] <;> omega

theorem deserialize_serialize_pointerAndArray : RoundTrips pointerAndArray pointerAt64 64 4096 :=
  deserialize_serialize pointerAndArray serializable_pointerAndArray
    ⟨trivial, ⟨by decide, .inr trivial⟩, trivial⟩ pointerAt64 64 4096 separated_pointerAndArray
    spread_pointerAndArray

/-- Two records with seven bytes of padding before their second member. -/
def keysAfterFlags : Datatype :=
  .array (.record (.cons 0 typeForInt8 "flag" (.cons 8 typeForInt64 "key" .nil)) 16 []) 2 0 2 []

/-- The flag of the second record is written over the key of the first. -/
theorem deserialize_loses_first_key :
    ¬ RoundTrips keysAfterFlags (fun a => UInt8.ofNat a) 64 4096 := by
  intro h
  obtain ⟨mem', copied, hcopy, hread⟩ := h (fun _ => 0)
  have hlost : ((keysAfterFlags.deserializeCopy
      (keysAfterFlags.serializeCopy (fun a => UInt8.ofNat a) (fun _ => 0) 4096 64).1
      (fun a => UInt8.ofNat a) 64 4096).toOption.map fun result =>
        readScalar result.1 [.index 0, .member "key"] keysAfterFlags 64) ≠
      some (readScalar (fun a => UInt8.ofNat a) [.index 0, .member "key"] keysAfterFlags 64) := by
    decide +kernel
  rw [hcopy] at hlost
  exact hlost (congrArg some (hread [.index 0, .member "key"]))

end Pdi.Datatypes
