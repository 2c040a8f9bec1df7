import Pdi.DenseLayout

/-!
# What a dense copy leaves in memory

The copy of a plain, well-formed type to an aligned address never fails, ends
`copiedSize` bytes further on, and puts exactly the bytes in relation `Copied`.
-/
namespace Pdi.Datatypes

open Pdi.Align Pdi.Memory

/-- A copy that succeeds with the memory and the end that the relation and the
size predict. -/
def CopiesTo (result : CopyResult) (R : Nat → Nat → Prop) (old mem : Mem Byte)
    (stop : Nat) : Prop :=
  ∃ mem', result = .ok (mem', stop) ∧ Carries R old mem mem'

/-- The bytes of `n` elements copied one by one. -/
def ElementsCopied (t : Datatype) (n x y : Nat) : Prop :=
  ∃ k < n, ∃ u v, t.Copied u v ∧ x = k * t.copiedStride + u ∧ y = k * t.buffersize + v

/-- The first element and, one stride further on, the others. -/
theorem elementsCopied_succ (t : Datatype) (n x y : Nat) :
    ElementsCopied t (n + 1) x y ↔ t.Copied x y ∨
      ∃ u v, ElementsCopied t n u v ∧ x = t.copiedStride + u ∧ y = t.buffersize + v := by
  constructor
  · rintro ⟨k, hk, u, v, huv, rfl, rfl⟩
    cases k with
    | zero => exact .inl (by simpa using huv)
    | succ k =>
      refine .inr ⟨_, _, ⟨k, by omega, u, v, huv, rfl, rfl⟩, ?_, ?_⟩ <;>
        rw [Nat.add_mul] <;> omega
  · rintro (h | ⟨_, _, ⟨k, hk, u, v, huv, rfl, rfl⟩, rfl, rfl⟩)
    · exact ⟨0, by omega, x, y, h, by omega, by omega⟩
    · refine ⟨k + 1, by omega, u, v, huv, ?_, ?_⟩ <;> rw [Nat.add_mul] <;> omega

/-- The loop over elements, from any address: it is aligned before the first
element, and each element starts one stride after the one before. -/
theorem copyElements_spec {copy : Mem Byte → Nat → Nat → CopyResult} {t : Datatype} {old : Mem Byte}
    (ha : 0 < t.alignment)
    (hcopy : ∀ mem dest source, t.alignment ∣ dest →
      CopiesTo (copy mem dest source) (Placed dest source t.Copied) old mem (dest + t.copiedSize))
    (n : Nat) (mem : Mem Byte) (dest source : Nat) :
    CopiesTo (copyElements copy t.alignment t.buffersize n mem dest source)
      (Placed (alignUp dest t.alignment) source (ElementsCopied t n)) old mem
      (if n = 0 then dest else
        alignUp dest t.alignment + ((n - 1) * t.copiedStride + t.copiedSize)) := by
  induction n generalizing mem dest source with
  | zero =>
    refine ⟨mem, rfl, Carries.none old mem ?_⟩
    rintro a b ⟨x, y, ⟨k, hk, _⟩, _⟩
    omega
  | succ n ih =>
    have hdvd := dvd_alignUp dest ha
    obtain ⟨mem₁, he₁, hc₁⟩ := hcopy mem (alignUp dest t.alignment) source hdvd
    obtain ⟨mem₂, he₂, hc₂⟩ :=
      ih mem₁ (alignUp dest t.alignment + t.copiedSize) (source + t.buffersize)
    rw [alignUp_add hdvd] at he₂ hc₂
    refine ⟨mem₂, ?_, ?_⟩
    · rw [copyElements, stdAlign_zero_size _ ha, he₁]
      show copyElements copy t.alignment t.buffersize n mem₁ _ _ = _
      rw [he₂]
      cases n with
      | zero => simp
      | succ =>
        simp only [Nat.add_one_ne_zero, if_false, Nat.add_sub_cancel, Nat.add_mul, Nat.one_mul,
          Datatype.copiedStride]
        congr 2
        omega
    · refine (hc₁.append hc₂ ?_).congr ?_
      · rintro a b b' ⟨x, y, hx, rfl, rfl⟩ ⟨u, v, _, hu, _⟩
        have := hx.lt_copiedSize
        have := le_alignUp t.copiedSize t.alignment
        omega
      · intro a b
        constructor
        · rintro (⟨x, y, hx, rfl, rfl⟩ | ⟨u, v, huv, rfl, rfl⟩)
          · exact ⟨x, y, (elementsCopied_succ t n x y).mpr (.inl hx), rfl, rfl⟩
          · exact ⟨t.copiedStride + u, t.buffersize + v,
              (elementsCopied_succ t n _ _).mpr (.inr ⟨u, v, huv, rfl, rfl⟩),
              by rw [Datatype.copiedStride]; omega, by omega⟩
        · rintro ⟨x, y, hxy, rfl, rfl⟩
          obtain h | ⟨u, v, huv, rfl, rfl⟩ := (elementsCopied_succ t n x y).mp hxy
          · exact .inl ⟨x, y, h, rfl, rfl⟩
          · exact .inr ⟨u, v, huv, by rw [Datatype.copiedStride]; omega, by omega⟩

theorem copiesTo_memcpy (old mem : Mem Byte) (dest source n : Nat) :
    CopiesTo (.ok (memcpy old mem dest source n, dest + n))
      (Placed dest source (fun x y => x = y ∧ x < n)) old mem (dest + n) :=
  ⟨_, rfl, carries_memcpy old mem dest source n⟩

theorem CopiesTo.congr {result : CopyResult} {R S : Nat → Nat → Prop} {old mem : Mem Byte}
    {stop stop' : Nat} (h : CopiesTo result R old mem stop) (hRS : ∀ a b, R a b ↔ S a b)
    (hstop : stop = stop') : CopiesTo result S old mem stop' := by
  subst hstop
  obtain ⟨mem', he, hc⟩ := h
  exact ⟨mem', he, hc.congr hRS⟩

/-- Reading from further on, or relating the bytes from there on. -/
theorem placed_shift (dest source d : Nat) (R S : Nat → Nat → Prop)
    (hRS : ∀ x y, S x y ↔ ∃ v, R x v ∧ y = d + v) (a b : Nat) :
    Placed dest (source + d) R a b ↔ Placed dest source S a b := by
  constructor
  · rintro ⟨x, y, h, rfl, rfl⟩
    exact ⟨x, d + y, (hRS _ _).mpr ⟨y, h, rfl⟩, rfl, by omega⟩
  · rintro ⟨x, y, h, rfl, rfl⟩
    obtain ⟨v, hv, rfl⟩ := (hRS _ _).mp h
    exact ⟨x, v, hv, rfl, by omega⟩

mutual
theorem Datatype.dataToDenseCopy_spec (functions : CopyFunctions) (old : Mem Byte) :
    ∀ (t : Datatype), t.WellFormed → t.Plain → ∀ (mem : Mem Byte) (dest source : Nat),
      t.alignment ∣ dest →
      CopiesTo (t.dataToDenseCopy functions old mem dest source)
        (Placed dest source t.Copied) old mem
        (dest + t.copiedSize)
  | .scalar s, _, hp, mem, dest, source, _ => by
    have hcopy : s.copy = none := hp
    simp only [Datatype.dataToDenseCopy, hcopy]
    exact copiesTo_memcpy old mem dest source s.size
  | .array subtype size start subsize attributes, hw, hp, mem, dest, source, hd => by
    have ha : 0 < subtype.alignment := hw.1.alignment_pos
    simp only [Datatype.dataToDenseCopy]
    by_cases hfast : (subtype.simple && subtype.dense) = true
    · rw [if_pos hfast]
      refine (copiesTo_memcpy old mem dest (source + start * subtype.buffersize) _).congr
        (placed_shift _ _ _ _ _ ?_) (by simp [Datatype.copiedSize, hfast])
      intro x y
      simp only [Datatype.Copied, hfast, if_true]
      constructor
      · rintro ⟨rfl, hx⟩
        exact ⟨x, ⟨rfl, hx⟩, rfl⟩
      · rintro ⟨v, ⟨rfl, hx⟩, rfl⟩
        exact ⟨rfl, hx⟩
    · rw [if_neg hfast]
      have hloop := copyElements_spec ha
        (Datatype.dataToDenseCopy_spec functions old subtype hw.1 hp) subsize mem dest
        (source + start * subtype.buffersize)
      rw [alignUp_of_dvd (show subtype.alignment ∣ dest from hd)] at hloop
      refine hloop.congr (placed_shift _ _ _ _ _ ?_) ?_
      · intro x y
        simp only [Datatype.Copied, hfast]
        constructor
        · rintro ⟨k, hk, u, v, huv, rfl, rfl⟩
          exact ⟨_, ⟨k, hk, u, v, huv, rfl, rfl⟩, by rw [Nat.add_mul, Nat.add_assoc]⟩
        · rintro ⟨_, ⟨k, hk, u, v, huv, rfl, rfl⟩, rfl⟩
          exact ⟨k, hk, u, v, huv, rfl, by rw [Nat.add_mul, Nat.add_assoc]⟩
      · simp only [Datatype.copiedSize, hfast]
        cases subsize <;> simp [Datatype.copiedStride]
  | .record members buffersize _, ⟨hw, _⟩, hp, mem, dest, source, hd
  | .tuple members buffersize _, hw, hp, mem, dest, source, hd => by
    simp only [Datatype.dataToDenseCopy, Datatype.copiedSize]
    by_cases hfast : (members.simple && members.denseIn buffersize members.alignment 0) = true
    · rw [if_pos hfast, if_pos hfast]
      exact (copiesTo_memcpy old mem dest source buffersize).congr
        (by simp [Datatype.Copied, hfast]) rfl
    · rw [if_neg hfast, if_neg hfast]
      have := Members.dataToDenseCopy_spec functions old members hw hp mem dest source 0 hd
      exact this.congr (by simp [Datatype.Copied, hfast]) rfl
  | .pointer _ _ _ _, _, hp, _, _, _, _ => hp.elim

theorem Members.dataToDenseCopy_spec (functions : CopyFunctions) (old : Mem Byte) {n : Nat} :
    ∀ (ms : Members), ms.WellFormed n → ms.Plain →
      ∀ (mem : Mem Byte) (dest source c : Nat), ms.alignment ∣ dest →
      CopiesTo (ms.dataToDenseCopy functions old mem (dest + c) source)
        (Placed dest source (ms.Copied c)) old mem (dest + ms.copiedEnd c)
  | .nil, _, _, mem, dest, source, c, _ => by
    refine ⟨mem, rfl, Carries.none old mem ?_⟩
    rintro a b ⟨x, y, h, _⟩
    exact h
  | .cons d type name rest, hw, hp, mem, dest, source, c, hd => by
    have ha : 0 < type.alignment := hw.1.alignment_pos
    have hdvd : type.alignment ∣ dest := hw.head_dvd.trans hd
    have hal : alignUp (dest + c) type.alignment = dest + alignUp c type.alignment :=
      alignUp_add hdvd c
    obtain ⟨mem₁, he₁, hc₁⟩ := Datatype.dataToDenseCopy_spec functions old type hw.1 hp.1 mem
      (dest + alignUp c type.alignment) (source + d)
      ((Nat.dvd_add_right hdvd).mpr (dvd_alignUp c ha))
    obtain ⟨mem₂, he₂, hc₂⟩ := Members.dataToDenseCopy_spec functions old rest hw.2.2.2 hp.2 mem₁
      dest source (alignUp c type.alignment + type.copiedSize) (hw.rest_dvd.trans hd)
    refine ⟨mem₂, ?_, (hc₁.append hc₂ ?_).congr ?_⟩
    · rw [Members.dataToDenseCopy, stdAlign_zero_size _ ha, hal, he₁]
      show rest.dataToDenseCopy functions old mem₁ _ source = _
      rw [Nat.add_assoc, he₂]
      rfl
    · rintro a b b' ⟨x, y, hx, rfl, rfl⟩ ⟨u, v, huv, hu, _⟩
      have := hx.lt_copiedSize
      have := huv.lt_copiedEnd
      omega
    · intro a b
      constructor
      · rintro (⟨u, v, huv, rfl, rfl⟩ | ⟨x, y, hxy, rfl, rfl⟩)
        · exact ⟨alignUp c type.alignment + u, d + v,
            .inl ⟨u, v, huv, rfl, rfl⟩, by omega, by omega⟩
        · exact ⟨x, y, .inr hxy, rfl, rfl⟩
      · rintro ⟨x, y, ⟨u, v, huv, rfl, rfl⟩ | hxy, rfl, rfl⟩
        · exact .inl ⟨u, v, huv, by omega, by omega⟩
        · exact .inr ⟨x, y, hxy, rfl, rfl⟩
end

end Pdi.Datatypes
