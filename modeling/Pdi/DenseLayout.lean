import Mathlib.Order.Interval.Finset.Nat
import Pdi.DenseCopy

/-!
# Well-formed layouts

What makes a datatype well formed, and the bounds that follow: the data fits in
the buffer, and what is copied is read inside it. `Leaf` lists the scalars of a
type with their offsets under the type and under its densified form.
-/
namespace Pdi.Datatypes

open Pdi.Align Pdi.Memory

variable {d n : Nat} {type : Datatype} {name : String} {rest : Members}

/-- The block of `n` bytes at `d` shares no byte with a member. -/
def Members.Apart (d n : Nat) : Members → Prop
  | .nil => True
  | .cons d' type _ rest =>
    (∀ a, d ≤ a → a < d + n → d' ≤ a → d' + type.buffersize ≤ a) ∧ rest.Apart d n

def Members.HasName (name : String) : Members → Prop
  | .nil => False
  | .cons _ _ n rest => n = name ∨ rest.HasName name

def Members.DistinctNames : Members → Prop
  | .nil => True
  | .cons _ _ name rest => ¬rest.HasName name ∧ rest.DistinctNames

mutual
/-- Arrays start and end within their size, members lie inside the buffer, do
not overlap and have different names, and every scalar has an alignment. -/
def Datatype.WellFormed : Datatype → Prop
  | .scalar s => 0 < s.align
  | .array subtype size start subsize _ => subtype.WellFormed ∧ start + subsize ≤ size
  | .record members buffersize _ => members.WellFormed buffersize ∧ members.DistinctNames
  | .tuple elements buffersize _ => elements.WellFormed buffersize
  | .pointer subtype _ _ _ => subtype.WellFormed

def Members.WellFormed (buffersize : Nat) : Members → Prop
  | .nil => True
  | .cons d type _ rest => type.WellFormed ∧ d + type.buffersize ≤ buffersize ∧
      rest.Apart d type.buffersize ∧ rest.WellFormed buffersize
end

mutual
/-- Scalars have a positive size and no separate dense size, arrays have elements, and
records and tuples have members. -/
def Datatype.Occupied : Datatype → Prop
  | .scalar s => 0 < s.size ∧ s.denseSize = s.size
  | .array subtype _ _ subsize _ => subtype.Occupied ∧ subsize ≠ 0
  | .record members _ _ => members ≠ .nil ∧ members.Occupied
  | .tuple elements _ _ => elements ≠ .nil ∧ elements.Occupied
  | .pointer subtype _ _ _ => subtype.Occupied

def Members.Occupied : Members → Prop
  | .nil => True
  | .cons _ type _ rest => type.Occupied ∧ rest.Occupied
end

mutual
/-- Neither pointers nor custom copy functions. -/
def Datatype.Plain : Datatype → Prop
  | .scalar s => s.copy = none
  | .array subtype _ _ _ _ => subtype.Plain
  | .record members _ _ => members.Plain
  | .tuple elements _ _ => elements.Plain
  | .pointer _ _ _ _ => False

def Members.Plain : Members → Prop
  | .nil => True
  | .cons _ type _ rest => type.Plain ∧ rest.Plain
end

mutual
def Datatype.PointerFree : Datatype → Prop
  | .scalar _ => True
  | .array subtype _ _ _ _ => subtype.PointerFree
  | .record members _ _ => members.PointerFree
  | .tuple elements _ _ => elements.PointerFree
  | .pointer _ _ _ _ => False

def Members.PointerFree : Members → Prop
  | .nil => True
  | .cons _ type _ rest => type.PointerFree ∧ rest.PointerFree
end

mutual
theorem Datatype.Plain.pointerFree : ∀ {t : Datatype}, t.Plain → t.PointerFree
  | .scalar _, _ => trivial
  | .array subtype _ _ _ _, h => Datatype.Plain.pointerFree (t := subtype) h
  | .record members _ _, h | .tuple members _ _, h => Members.Plain.pointerFree (m := members) h

theorem Members.Plain.pointerFree : ∀ {m : Members}, m.Plain → m.PointerFree
  | .nil, _ => trivial
  | .cons _ _ _ _, h => ⟨h.1.pointerFree, h.2.pointerFree⟩
end

theorem ispow2_eq_two_pow {v : Nat} (h : ispow2 v = true) : ∃ i, v = 2 ^ i := by
  simp only [ispow2, Bool.and_eq_true, bne_iff_ne, ne_eq, beq_iff_eq] at h
  exact (Nat.ne_zero_and_sub_one_eq_zero_iff_isPowerOfTwo).mp h

theorem max_two_pow {a b : Nat} (ha : ∃ i, a = 2 ^ i) (hb : ∃ i, b = 2 ^ i) :
    ∃ i, max a b = 2 ^ i := by
  obtain h | h := Nat.le_total a b
  · rwa [Nat.max_eq_right h]
  · rwa [Nat.max_eq_left h]

mutual
theorem Datatype.WellFormed.alignment_pow : ∀ {t : Datatype}, t.WellFormed →
    ∃ i, t.alignment = 2 ^ i
  | .scalar s, h => by
    obtain ⟨_, _, h0, _⟩ | hp := s.valid
    · simp only [Datatype.WellFormed] at h
      omega
    · exact ispow2_eq_two_pow hp
  | .array subtype _ _ _ _, h | .record members _ _, h => h.1.alignment_pow
  | .tuple elements _ _, h => Members.WellFormed.alignment_pow (m := elements) h
  | .pointer _ _ _ _, _ => ⟨3, rfl⟩

theorem Members.WellFormed.alignment_pow :
    ∀ {m : Members} {n : Nat}, m.WellFormed n → ∃ i, m.alignment = 2 ^ i
  | .nil, _, _ => ⟨0, rfl⟩
  | .cons _ _ _ _, _, h =>
    max_two_pow h.1.alignment_pow
      h.2.2.2.alignment_pow
end

theorem Datatype.WellFormed.alignment_pos {t : Datatype} (h : t.WellFormed) : 0 < t.alignment := by
  obtain ⟨i, hi⟩ := h.alignment_pow
  rw [hi]
  exact Nat.two_pow_pos i

theorem Members.alignment_pos : ∀ ms : Members, 0 < ms.alignment
  | .nil => Nat.one_pos
  | .cons _ _ _ rest => Nat.lt_of_lt_of_le rest.alignment_pos (Nat.le_max_right _ _)

theorem Members.WellFormed.head_dvd (h : (Members.cons d type name rest).WellFormed n) :
    type.alignment ∣ (Members.cons d type name rest).alignment :=
  two_pow_dvd_of_le h.1.alignment_pow (Members.WellFormed.alignment_pow h) (Nat.le_max_left _ _)

theorem Members.WellFormed.rest_dvd (h : (Members.cons d type name rest).WellFormed n) :
    rest.alignment ∣ (Members.cons d type name rest).alignment :=
  two_pow_dvd_of_le h.2.2.2.alignment_pow (Members.WellFormed.alignment_pow h)
    (Nat.le_max_right _ _)

mutual
/-- Scalar `s` lies at offset `o` of the data, and at `o'` of densified data. -/
def Datatype.Leaf : Datatype → Nat → Nat → Scalar → Prop
  | .scalar s, o, o', s' => o = 0 ∧ o' = 0 ∧ s' = s
  | .array subtype _ start subsize _, o, o', s => ∃ k < subsize, ∃ p p', subtype.Leaf p p' s ∧
      o = (start + k) * subtype.buffersize + p ∧ o' = k * subtype.densify.buffersize + p'
  | .record members _ _, o, o', s => members.Leaf 0 o o' s
  | .tuple elements _ _, o, o', s => elements.Leaf 0 o o' s
  | .pointer _ _ _ _, _, _, _ => False

/-- The same for members whose densified form starts at `c`. -/
def Members.Leaf : Members → Nat → Nat → Nat → Scalar → Prop
  | .nil, _, _, _, _ => False
  | .cons d type _ rest, c, o, o', s =>
    (∃ p p', type.Leaf p p' s ∧ o = d + p ∧ o' = alignUp c type.alignment + p') ∨
    rest.Leaf (alignUp c type.alignment + type.densify.buffersize) o o' s
end

mutual
/-- Every scalar of the data is as long as its densified form. -/
def Datatype.Sized : Datatype → Prop
  | .scalar s => s.size = s.denseSize
  | .array subtype _ _ subsize _ => subsize = 0 ∨ subtype.Sized
  | .record members _ _ => members.Sized
  | .tuple elements _ _ => elements.Sized
  | .pointer _ _ _ _ => True

def Members.Sized : Members → Prop
  | .nil => True
  | .cons _ type _ rest => type.Sized ∧ rest.Sized
end

mutual
theorem Datatype.sized_of_dense : ∀ {t : Datatype}, t.dense = true → t.Sized
  | .scalar s, h => by
    have : s.denseSize = s.size := by simpa [Datatype.dense] using h
    exact this.symm
  | .array subtype _ _ _ _, h => by
    simp only [Datatype.dense, Bool.and_eq_true] at h
    exact .inr (Datatype.sized_of_dense h.2)
  | .record members _ _, h | .tuple members _ _, h => Members.sized_of_dense (m := members) h
  | .pointer _ _ _ _, _ => trivial

theorem Members.sized_of_dense :
    ∀ {m : Members} {n a c : Nat}, m.denseIn n a c = true → m.Sized
  | .nil, _, _, _, _ => trivial
  | .cons _ type _ rest, _, _, _, h => by
    simp only [Members.denseIn, Bool.and_eq_true] at h
    exact ⟨Datatype.sized_of_dense h.1.1, Members.sized_of_dense h.2⟩
end

/-- The bytes of the members. -/
def Members.region : Members → Finset Nat
  | .nil => ∅
  | .cons d type _ rest => Finset.Ico d (d + type.buffersize) ∪ rest.region

def Members.buffersizes : Members → Nat
  | .nil => 0
  | .cons _ type _ rest => type.buffersize + rest.buffersizes

theorem Members.Apart.disjoint : ∀ {ms : Members} {d n : Nat}, ms.Apart d n →
    Disjoint (Finset.Ico d (d + n)) ms.region
  | .nil, _, _, _ => by simp [Members.region]
  | .cons d' type _ rest, d, n, h => by
    rw [Members.region, Finset.disjoint_union_right]
    refine ⟨?_, h.2.disjoint⟩
    rw [Finset.disjoint_left]
    intro a ha ha'
    rw [Finset.mem_Ico] at ha ha'
    have := h.1 a ha.1 ha.2 ha'.1
    omega

theorem Members.WellFormed.card_region : ∀ {ms : Members} {n : Nat}, ms.WellFormed n →
    ms.region.card = ms.buffersizes
  | .nil, _, _ => rfl
  | .cons d type _ rest, n, h => by
    rw [Members.region, Finset.card_union_of_disjoint h.2.2.1.disjoint,
      h.2.2.2.card_region]
    simp [Members.buffersizes]

theorem Members.WellFormed.region_subset : ∀ {ms : Members} {n : Nat}, ms.WellFormed n →
    ms.region ⊆ Finset.range n
  | .nil, _, _ => by simp [Members.region]
  | .cons d type _ rest, n, h => by
    rw [Members.region]
    refine Finset.union_subset ?_ h.2.2.2.region_subset
    intro a ha
    rw [Finset.mem_Ico] at ha
    rw [Finset.mem_range]
    have := h.2.1
    omega

/-- Members that do not overlap fit in the buffer together. -/
theorem Members.WellFormed.buffersizes_le {ms : Members} (h : ms.WellFormed n) :
    ms.buffersizes ≤ n := by
  have hcard := Finset.card_le_card h.region_subset
  rwa [h.card_region, Finset.card_range] at hcard

mutual
theorem Datatype.datasize_le : ∀ {t : Datatype}, t.WellFormed → t.Sized → t.datasize ≤ t.buffersize
  | .scalar s, _, h => Nat.le_of_eq h
  | .array subtype size start subsize _, hw, h => by
    simp only [Datatype.datasize, Datatype.buffersize]
    obtain rfl | h := h
    · simp
    · have hle := Datatype.datasize_le hw.1 h
      have := hw.2
      exact Nat.mul_le_mul (by omega) hle
  | .record members _ _, hw, h => (Members.datasize_le hw.1 h).trans hw.1.buffersizes_le
  | .tuple elements _ _, hw, h =>
    (Members.datasize_le hw h).trans (Members.WellFormed.buffersizes_le hw)
  | .pointer _ _ _ _, _, _ => Nat.le_refl _

theorem Members.datasize_le : ∀ {ms : Members} {n : Nat}, ms.WellFormed n → ms.Sized →
    ms.datasize ≤ ms.buffersizes
  | .nil, _, _, _ => Nat.le_refl _
  | .cons _ _ _ _, _, hw, h =>
    Nat.add_le_add (Datatype.datasize_le hw.1 h.1) (Members.datasize_le hw.2.2.2 h.2)
end

theorem add_lt_mul {k s u : Nat} (hk : k < n) (hu : u < s) : k * s + u < n * s := by
  have : (k + 1) * s ≤ n * s := Nat.mul_le_mul_right s hk
  rw [Nat.add_mul, Nat.one_mul] at this
  omega

theorem Members.le_copiedEnd (ms : Members) (c : Nat) : c ≤ ms.copiedEnd c := by
  cases ms with
  | nil => exact Nat.le_refl _
  | cons _ type _ rest =>
    have := rest.le_copiedEnd (alignUp c type.alignment + type.copiedSize)
    have := le_alignUp c type.alignment
    simp only [Members.copiedEnd]
    omega

mutual
/-- The copy is written between where it starts and where it ends. -/
theorem Datatype.Copied.lt_copiedSize :
    ∀ {t : Datatype} {x y : Nat}, t.Copied x y → x < t.copiedSize
  | .scalar _, _, _, h | .pointer _ _ _ _, _, _, h => h.2
  | .array subtype _ _ subsize _, x, y, h => by
    simp only [Datatype.Copied] at h
    simp only [Datatype.copiedSize]
    split at h
    · next hfast => simpa [hfast] using h.2
    · next hslow =>
      obtain ⟨k, hk, u, v, huv, rfl, _⟩ := h
      have hu := huv.lt_copiedSize
      have hle : k * subtype.copiedStride ≤ (subsize - 1) * subtype.copiedStride :=
        Nat.mul_le_mul_right _ (by omega)
      rw [if_neg hslow, if_neg (by omega)]
      exact Nat.lt_of_le_of_lt (Nat.add_le_add_right hle u) (Nat.add_lt_add_left hu _)
  | .record members _ _, x, y, h | .tuple elements _ _, x, y, h => by
    simp only [Datatype.Copied] at h
    simp only [Datatype.copiedSize]
    split at h
    · next hfast => simpa [hfast] using h.2
    · next hslow => simpa [hslow] using h.lt_copiedEnd.2

theorem Members.Copied.lt_copiedEnd : ∀ {ms : Members} {c x y : Nat}, ms.Copied c x y →
    c ≤ x ∧ x < ms.copiedEnd c
  | .nil, _, _, _, h => h.elim
  | .cons _ type _ rest, c, x, y, h => by
    have hc := le_alignUp c type.alignment
    simp only [Members.copiedEnd]
    obtain ⟨u, v, huv, rfl, _⟩ | h := h
    · have := huv.lt_copiedSize
      have := rest.le_copiedEnd (alignUp c type.alignment + type.copiedSize)
      omega
    · have := h.lt_copiedEnd
      omega
end

mutual
/-- What is copied is read inside the buffer. -/
theorem Datatype.Copied.lt_buffersize : ∀ {t : Datatype} {x y : Nat}, t.WellFormed → t.Sized →
    t.Copied x y → y < t.buffersize
  | .scalar s, x, y, _, hs, h => by
    have hlt := h.2
    simp only [Datatype.Sized] at hs
    simp only [Datatype.buffersize, ← h.1, ← hs]
    exact hlt
  | .array subtype size start subsize _, x, y, hw, hs, h => by
    simp only [Datatype.Copied] at h
    simp only [Datatype.buffersize]
    have hle := hw.2
    split at h
    · obtain ⟨rfl, hx⟩ := h
      obtain rfl | hs := hs
      · simp at hx
      · have hds := Nat.mul_le_mul_left subsize (Datatype.datasize_le hw.1 hs)
        have hmul : (start + subsize) * subtype.buffersize ≤ size * subtype.buffersize :=
          Nat.mul_le_mul_right _ hle
        rw [Nat.add_mul] at hmul
        omega
    · obtain ⟨k, hk, u, v, huv, _, rfl⟩ := h
      obtain rfl | hs := hs
      · omega
      · exact add_lt_mul (by omega) (huv.lt_buffersize hw.1 hs)
  | .record members _ _, x, y, ⟨hw, _⟩, hs, h | .tuple elements _ _, x, y, hw, hs, h => by
    simp only [Datatype.Copied] at h
    split at h
    · rw [← h.1]
      exact h.2
    · exact h.lt_buffersize hw hs
  | .pointer _ _ _ _, _, _, _, _, h => by
    rw [← h.1]
    exact h.2

theorem Members.Copied.lt_buffersize : ∀ {ms : Members} {n c x y : Nat}, ms.WellFormed n →
    ms.Sized → ms.Copied c x y → y < n
  | .nil, _, _, _, _, _, _, h => h.elim
  | .cons d type _ rest, n, c, x, y, hw, hs, h => by
    obtain ⟨u, v, huv, _, rfl⟩ | h := h
    · have := huv.lt_buffersize hw.1 hs.1
      have := hw.2.1
      omega
    · exact h.lt_buffersize hw.2.2.2 hs.2
end

end Pdi.Datatypes
