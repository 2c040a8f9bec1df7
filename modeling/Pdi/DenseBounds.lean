import Pdi.DensePaths

/-!
# Copy and densified layout side by side

How the two walks over a type, the one that copies and the one that densifies,
compare: the copy of a part without data never gets ahead, a dense type is
nowhere behind its densified form, and a source byte is copied once. From these
it follows that no type can have all its bytes copied too far by one distance.
-/
namespace Pdi.Datatypes

open Pdi.Align Pdi.Memory

variable {n : Nat} {type : Datatype} {name : String} {rest : Members}

mutual
theorem Datatype.Leaf.size_le_datasize : ∀ {t : Datatype} {o o' : Nat} {s : Scalar}, t.Leaf o o' s →
    s.size ≤ t.datasize
  | .scalar _, _, _, _, h => by
    obtain ⟨-, -, rfl⟩ := h
    exact Nat.le_refl _
  | .array sub size start n as, o, o', s, h => by
    obtain ⟨k, hk, p, p', h, -, -⟩ := h
    have hle := h.size_le_datasize
    have : 1 * sub.datasize ≤ n * sub.datasize := Nat.mul_le_mul_right _ (by omega)
    simp only [Datatype.datasize]
    omega
  | .record ms n as, _, _, _, h => Members.Leaf.size_le_datasize (m := ms) h
  | .tuple ms n as, _, _, _, h => Members.Leaf.size_le_datasize (m := ms) h
  | .pointer _ _ _ _, _, _, _, h => h.elim

theorem Members.Leaf.size_le_datasize : ∀ {m : Members} {c o o' : Nat} {s : Scalar},
    m.Leaf c o o' s → s.size ≤ m.datasize
  | .nil, _, _, _, _, h => h.elim
  | .cons d type n rest, c, o, o', s, h => by
    simp only [Members.datasize]
    obtain ⟨p, p', h, _, _⟩ | h := h
    · have := h.size_le_datasize
      omega
    · have := Members.Leaf.size_le_datasize (m := rest) h
      omega
end

mutual
theorem Datatype.exists_leaf : ∀ {t : Datatype}, t.PointerFree → 0 < t.datasize →
    ∃ o o' s, t.Leaf o o' s ∧ 0 < s.size
  | .scalar s, _, h => ⟨0, 0, s, ⟨rfl, rfl, rfl⟩, h⟩
  | .array sub size start n as, hp, h => by
    simp only [Datatype.datasize] at h
    have hn : 0 < n := Nat.pos_of_mul_pos_right h
    obtain ⟨p, p', s, hs, hpos⟩ := Datatype.exists_leaf (t := sub) hp (Nat.pos_of_mul_pos_left h)
    exact ⟨_, _, s, ⟨0, hn, p, p', hs, rfl, rfl⟩, hpos⟩
  | .record ms n as, hp, h | .tuple ms n as, hp, h => Members.exists_leaf (m := ms) 0 hp h
  | .pointer _ _ _ _, hp, _ => hp.elim

theorem Members.exists_leaf : ∀ {m : Members} (c : Nat), m.PointerFree → 0 < m.datasize →
    ∃ o o' s, m.Leaf c o o' s ∧ 0 < s.size
  | .nil, _, _, h => by simp [Members.datasize] at h
  | .cons d type n rest, c, hp, h => by
    by_cases hd : 0 < type.datasize
    · obtain ⟨p, p', s, hs, hpos⟩ := Datatype.exists_leaf hp.1 hd
      exact ⟨_, _, s, .inl ⟨p, p', hs, rfl, rfl⟩, hpos⟩
    · simp only [Members.datasize] at h
      obtain ⟨p, p', s, hs, hpos⟩ := Members.exists_leaf (m := rest)
        (alignUp c type.alignment + type.densify.buffersize) hp.2 (by omega)
      exact ⟨p, p', s, .inr hs, hpos⟩
end

mutual
theorem Datatype.Sized.leaf : ∀ {t : Datatype} {o o' : Nat} {s : Scalar}, t.Sized → t.Leaf o o' s →
    s.size = s.denseSize
  | .scalar _, _, _, _, hs, h => by
    obtain ⟨-, -, rfl⟩ := h
    exact hs
  | .array sub size start n as, o, o', s, hs, h => by
    obtain ⟨k, hk, p, p', h, -, -⟩ := h
    obtain rfl | hs := hs
    · omega
    · exact hs.leaf h
  | .record ms n as, _, _, _, hs, h => Members.Sized.leaf (m := ms) hs h
  | .tuple ms n as, _, _, _, hs, h => Members.Sized.leaf (m := ms) hs h
  | .pointer _ _ _ _, _, _, _, _, h => h.elim

theorem Members.Sized.leaf : ∀ {m : Members} {c o o' : Nat} {s : Scalar}, m.Sized →
    m.Leaf c o o' s → s.size = s.denseSize
  | .nil, _, _, _, _, _, h => h.elim
  | .cons d type n rest, c, o, o', s, hs, h => by
    obtain ⟨p, p', h, _, _⟩ | h := h
    · exact hs.1.leaf h
    · exact hs.2.leaf h
end

mutual
theorem Datatype.sized_of_leaves : ∀ {t : Datatype}, t.PointerFree →
    (∀ o o' s, t.Leaf o o' s → s.size = s.denseSize) → t.Sized
  | .scalar s, _, h => h 0 0 s ⟨rfl, rfl, rfl⟩
  | .array sub size start n as, hp, h => by
    by_cases hn : n = 0
    · exact .inl hn
    · refine .inr (Datatype.sized_of_leaves hp fun p p' s hs => ?_)
      exact h _ _ s ⟨0, by omega, p, p', hs, rfl, rfl⟩
  | .record ms n as, hp, h | .tuple ms n as, hp, h => Members.sized_of_leaves (m := ms) 0 hp h
  | .pointer _ _ _ _, hp, _ => hp.elim

theorem Members.sized_of_leaves : ∀ {m : Members} (c : Nat), m.PointerFree →
    (∀ o o' s, m.Leaf c o o' s → s.size = s.denseSize) → m.Sized
  | .nil, _, _, _ => trivial
  | .cons d type n rest, c, hp, h => by
    refine ⟨Datatype.sized_of_leaves hp.1 fun p p' s hs => ?_,
      Members.sized_of_leaves (m := rest) _ hp.2 fun p p' s hs => h p p' s (.inr hs)⟩
    exact h _ _ s (.inl ⟨p, p', hs, rfl, rfl⟩)
end

mutual
/-- A scalar lies inside the buffer of its data. -/
theorem Datatype.Leaf.le_buffersize : ∀ {t : Datatype} {o o' : Nat} {s : Scalar}, t.WellFormed →
    t.Sized → t.Leaf o o' s → o + s.size ≤ t.buffersize
  | .scalar _, _, _, _, _, hs, h => by
    obtain ⟨ho, -, rfl⟩ := h
    simp only [Datatype.Sized] at hs
    simp only [Datatype.buffersize]
    omega
  | .array sub size start n as, o, o', s, hw, hs, h => by
    obtain ⟨k, hk, p, p', h, ho, -⟩ := h
    obtain rfl | hs := hs
    · omega
    · have hle := h.le_buffersize hw.1 hs
      have := hw.2
      have hmul : (start + k + 1) * sub.buffersize ≤ size * sub.buffersize :=
        Nat.mul_le_mul_right _ (by omega)
      rw [Nat.add_mul, Nat.one_mul] at hmul
      simp only [Datatype.buffersize]
      omega
  | .record ms n as, _, _, _, hw, hs, h => (Members.Leaf.le_buffersize (m := ms) hw.1 hs h).1
  | .tuple ms n as, _, _, _, hw, hs, h => (Members.Leaf.le_buffersize (m := ms) hw hs h).1
  | .pointer _ _ _ _, _, _, _, _, _, h => h.elim

theorem Members.Leaf.le_buffersize : ∀ {m : Members} {n c o o' : Nat} {s : Scalar},
    m.WellFormed n → m.Sized → m.Leaf c o o' s →
    o + s.size ≤ n ∧ ∀ i < s.size, o + i ∈ m.region
  | .nil, _, _, _, _, _, _, _, h => h.elim
  | .cons d type _ rest, n, c, o, o', s, hw, hs, h => by
    obtain ⟨p, p', h, rfl, _⟩ | h := h
    · have hle := h.le_buffersize hw.1 hs.1
      have hn := hw.2.1
      refine ⟨by omega, fun i hi => Finset.mem_union_left _ ?_⟩
      rw [Finset.mem_Ico]
      omega
    · obtain ⟨hle, hreg⟩ := Members.Leaf.le_buffersize (m := rest) hw.2.2.2 hs.2 h
      exact ⟨hle, fun i hi => Finset.mem_union_right _ (hreg i hi)⟩
end

theorem Members.Copied.mem_region {ms : Members} {n c x y : Nat} (hw : ms.WellFormed n)
    (hs : ms.Sized) (h : ms.Copied c x y) : y ∈ ms.region := by
  cases ms with
  | nil => exact h.elim
  | cons =>
    obtain ⟨u, v, huv, _, rfl⟩ | h := h
    · have := huv.lt_buffersize hw.1 hs.1
      refine Finset.mem_union_left _ (Finset.mem_Ico.mpr ?_)
      omega
    · exact Finset.mem_union_right _ (h.mem_region hw.2.2.2 hs.2)

/-- A byte of the first member is copied with the first member. -/
theorem Members.Copied.of_head {d c x y : Nat} (hw : (Members.cons d type name rest).WellFormed n)
    (hs : (Members.cons d type name rest).Sized) (hy : y < type.buffersize)
    (h : (Members.cons d type name rest).Copied c x (d + y)) :
    ∃ u, type.Copied u y ∧ x = alignUp c type.alignment + u := by
  obtain ⟨u, v, huv, hx, hv⟩ | h := h
  · obtain rfl : y = v := by omega
    exact ⟨u, huv, hx⟩
  · have hin : d + y ∈ Finset.Ico d (d + type.buffersize) := Finset.mem_Ico.mpr (by omega)
    exact absurd (h.mem_region hw.2.2.2 hs.2)
      (Finset.disjoint_left.mp hw.2.2.1.disjoint hin)

/-- A byte of a later member is copied with the later members. -/
theorem Members.Copied.of_rest {d c x y : Nat} (hw : (Members.cons d type name rest).WellFormed n)
    (hs : (Members.cons d type name rest).Sized) (hy : y ∈ rest.region)
    (h : (Members.cons d type name rest).Copied c x y) :
    rest.Copied (alignUp c type.alignment + type.copiedSize) x y := by
  obtain ⟨u, v, huv, _, rfl⟩ | h := h
  · have := huv.lt_buffersize hw.1 hs.1
    have hin : d + v ∈ Finset.Ico d (d + type.buffersize) := Finset.mem_Ico.mpr (by omega)
    exact absurd hy (Finset.disjoint_left.mp hw.2.2.1.disjoint hin)
  · exact h

theorem mul_add_inj {k k' b v v' : Nat} (hv : v < b) (hv' : v' < b) (h : k * b + v = k' * b + v') :
    k = k' ∧ v = v' := by
  have hb : 0 < b := by omega
  have hk : k = k' := by
    have := congrArg (· / b) h
    simpa [Nat.add_comm _ v, Nat.add_comm _ v', Nat.add_mul_div_right _ _ hb,
      Nat.div_eq_of_lt hv, Nat.div_eq_of_lt hv'] using this
  subst hk
  exact ⟨rfl, by omega⟩

/-- A byte of element `k` of an array copied element by element is copied with
that element. -/
theorem Datatype.Copied.of_element {sub : Datatype} {size start k x v : Nat} {as : Attributes}
    (hslow : (sub.simple && sub.dense) = false) (hw : sub.WellFormed) (hs : sub.Sized)
    (hv : v < sub.buffersize)
    (h : (Datatype.array sub size start n as).Copied x ((start + k) * sub.buffersize + v)) :
    ∃ u, sub.Copied u v ∧ x = k * sub.copiedStride + u := by
  simp only [Datatype.Copied, hslow] at h
  obtain ⟨k', _, u, v', huv, rfl, he⟩ := h
  obtain ⟨hk, rfl⟩ := mul_add_inj hv (huv.lt_buffersize hw hs) he
  obtain rfl : k = k' := by omega
  exact ⟨u, huv, rfl⟩

mutual
/-- A source byte is copied to one place only. -/
theorem Datatype.Copied.inj : ∀ {t : Datatype} {x x' y : Nat}, t.WellFormed → t.Sized →
    t.Copied x y → t.Copied x' y → x = x'
  | .scalar _, _, _, _, _, _, h, h' | .pointer _ _ _ _, _, _, _, _, _, h, h' => h.1.trans h'.1.symm
  | .array sub size start n as, x, x', y, hw, hs, h, h' => by
    cases hf : sub.simple && sub.dense with
    | true =>
      simp only [Datatype.Copied, hf] at h h'
      have h₁ := h.1
      have h₂ := h'.1
      omega
    | false =>
      have hslow := h
      simp only [Datatype.Copied, hf] at hslow
      obtain ⟨k, hk, u, v, huv, rfl, rfl⟩ := hslow
      obtain rfl | hs := hs
      · omega
      · obtain ⟨u', huv', rfl⟩ := h'.of_element hf hw.1 hs (huv.lt_buffersize hw.1 hs)
        rw [huv.inj hw.1 hs huv']
  | .record ms n as, x, x', y, ⟨hw, _⟩, hs, h, h' | .tuple ms n as, x, x', y, hw, hs, h, h' => by
    simp only [Datatype.Copied] at h h'
    split at h
    · next hf =>
      rw [if_pos hf] at h'
      exact h.1.trans h'.1.symm
    · next hf =>
      rw [if_neg hf] at h'
      exact Members.Copied.inj (m := ms) hw hs h h'

theorem Members.Copied.inj : ∀ {m : Members} {n c x x' y : Nat}, m.WellFormed n → m.Sized →
    m.Copied c x y → m.Copied c x' y → x = x'
  | .nil, _, _, _, _, _, _, _, h, _ => h.elim
  | .cons d type name rest, n, c, x, x', y, hw, hs, .inl ⟨u, v, huv, hx, hy⟩, h' => by
    subst hy
    obtain ⟨u', huv', rfl⟩ := h'.of_head hw hs (huv.lt_buffersize hw.1 hs.1)
    rw [hx, huv.inj hw.1 hs.1 huv']
  | .cons d type name rest, n, c, x, x', y, hw, hs, .inr h, h' =>
    h.inj hw.2.2.2 hs.2 (h'.of_rest hw hs (h.mem_region hw.2.2.2 hs.2))
end

theorem paddedEnd_mono {d d' a : Nat} (ha : 0 < a) (h : d ≤ d') :
    paddedEnd d a ≤ paddedEnd d' a := by
  have := alignUp_mono ha h
  simp only [paddedEnd]
  omega

mutual
/-- The densified form of a dense type is at least as large as the type. -/
theorem Datatype.buffersize_le_densify : ∀ {t : Datatype}, t.WellFormed → t.dense = true →
    t.buffersize ≤ t.densify.buffersize
  | .scalar _, _, _ | .pointer _ _ _ _, _, _ => Nat.le_refl _
  | .array sub size start n as, hw, h => by
    simp only [Datatype.dense, Bool.and_eq_true, beq_iff_eq] at h
    simp only [Datatype.densify, Datatype.buffersize, h.1]
    exact Nat.mul_le_mul_left n (Datatype.buffersize_le_densify hw.1 h.2)
  | .record ms n as, ⟨hw, _⟩, h | .tuple ms n as, hw, h =>
    Members.buffersize_le_densify (m := ms) hw (Nat.le_refl 0) (Members.alignment_pos ms) h

theorem Members.buffersize_le_densify : ∀ {m : Members} {n b a c c' : Nat}, m.WellFormed n →
    c ≤ c' → 0 < a → m.denseIn b a c = true → b ≤ paddedEnd (m.densifiedEnd c') a
  | .nil, _, b, a, c, c', _, hc, ha, h => by
    have hb : b ≤ paddedEnd c a := by simpa [Members.denseIn] using h
    exact hb.trans (paddedEnd_mono ha hc)
  | .cons d type _ rest, _, b, a, c, c', hw, hc, ha, h => by
    simp only [Members.denseIn, Bool.and_eq_true] at h
    have hle := Datatype.buffersize_le_densify hw.1 h.1.1
    have hal := alignUp_mono hw.1.alignment_pos hc
    refine Members.buffersize_le_densify (m := rest) hw.2.2.2 ?_ ha h.2
    rw [Datatype.alignment_densify]
    omega
end

mutual
/-- No scalar of a dense type lies behind its place in the densified form. -/
theorem Datatype.Leaf.le_of_dense : ∀ {t : Datatype} {o o' : Nat} {s : Scalar}, t.WellFormed →
    t.dense = true → t.Leaf o o' s → o ≤ o'
  | .scalar _, _, _, _, _, _, h => by
    obtain ⟨ho, -, -⟩ := h
    omega
  | .array sub size start n as, o, o', s, hw, hd, h => by
    obtain ⟨k, hk, p, p', h, ho, ho'⟩ := h
    simp only [Datatype.dense, Bool.and_eq_true, beq_iff_eq] at hd
    have hle := h.le_of_dense hw.1 hd.2
    have hstart : start = 0 := by have := hw.2; omega
    have hmul := Nat.mul_le_mul_left k (Datatype.buffersize_le_densify hw.1 hd.2)
    subst hstart
    rw [Nat.zero_add] at ho
    omega
  | .record ms n as, _, _, _, ⟨hw, _⟩, hd, h | .tuple ms n as, _, _, _, hw, hd, h =>
    Members.Leaf.le_of_dense (m := ms) hw (Nat.le_refl 0) hd h
  | .pointer _ _ _ _, _, _, _, _, _, h => h.elim

theorem Members.Leaf.le_of_dense : ∀ {m : Members} {n b a c c' o o' : Nat} {s : Scalar},
    m.WellFormed n → c ≤ c' → m.denseIn b a c = true → m.Leaf c' o o' s → o ≤ o'
  | .nil, _, _, _, _, _, _, _, _, _, _, _, h => h.elim
  | .cons d type _ rest, _, b, a, c, c', o, o', s, hw, hc, hd, h => by
    simp only [Members.denseIn, Bool.and_eq_true, decide_eq_true_eq] at hd
    have hal := alignUp_mono hw.1.alignment_pos hc
    obtain ⟨p, p', h, rfl, rfl⟩ | h := h
    · have := h.le_of_dense hw.1 hd.1.1
      omega
    · refine Members.Leaf.le_of_dense (m := rest) hw.2.2.2 ?_ hd.2 h
      have := Datatype.buffersize_le_densify hw.1 hd.1.1
      omega
end

mutual
theorem Datatype.datasize_le_densify : ∀ {t : Datatype}, t.Sized →
    t.datasize ≤ t.densify.buffersize
  | .scalar _, h => Nat.le_of_eq h
  | .array sub size start n as, h => by
    simp only [Datatype.densify, Datatype.buffersize, Datatype.datasize]
    obtain rfl | h := h
    · simp
    · exact Nat.mul_le_mul_left n (Datatype.datasize_le_densify h)
  | .record ms n as, h | .tuple ms n as, h => by
    have := Members.datasize_le_densify (m := ms) 0 h
    exact (show ms.datasize ≤ _ by omega).trans (le_paddedEnd _ _)
  | .pointer _ _ _ _, _ => Nat.le_refl _

theorem Members.datasize_le_densify : ∀ {m : Members} (c : Nat), m.Sized →
    c + m.datasize ≤ m.densifiedEnd c
  | .nil, _, _ => Nat.le_refl _
  | .cons d type _ rest, c, h => by
    have := Datatype.datasize_le_densify h.1
    have := Members.datasize_le_densify (m := rest)
      (alignUp c type.densify.alignment + type.densify.buffersize) h.2
    have := le_alignUp c type.densify.alignment
    simp only [Members.datasize, Members.densifiedEnd]
    omega
end

/-- `n` elements copied one by one end before `n` strides. -/
theorem elements_le {cs stride dsz : Nat} (hn : n ≠ 0) (hcs : cs ≤ dsz) (hst : stride ≤ dsz) :
    (n - 1) * stride + cs ≤ n * dsz := by
  obtain ⟨m, rfl⟩ : ∃ m, n = m + 1 := ⟨n - 1, by omega⟩
  have := Nat.mul_le_mul_left m hst
  rw [Nat.add_sub_cancel, Nat.add_mul, Nat.one_mul]
  omega

/-- The size and the stride of a copied record or tuple, when the walks over the
members compare. -/
theorem Members.copied_le_block {ms : Members} (hw : ms.WellFormed n)
    (hend : ms.copiedEnd 0 ≤ ms.densifiedEnd 0) :
    (if ms.simple && ms.denseIn n ms.alignment 0 then n else ms.copiedEnd 0) ≤
      paddedEnd (ms.densifiedEnd 0) ms.alignment ∧
    ((ms.simple && ms.denseIn n ms.alignment 0) = false →
      alignUp (if ms.simple && ms.denseIn n ms.alignment 0 then n else ms.copiedEnd 0)
        ms.alignment ≤
        paddedEnd (ms.densifiedEnd 0) ms.alignment) := by
  have ha := ms.alignment_pos
  cases hf : ms.simple && ms.denseIn n ms.alignment 0 with
  | true =>
    refine ⟨?_, fun hc => by simp at hc⟩
    rw [Bool.and_eq_true] at hf
    exact Members.buffersize_le_densify hw (Nat.le_refl 0) ha hf.2
  | false =>
    refine ⟨hend.trans (le_paddedEnd _ _), fun _ => ?_⟩
    exact (alignUp_mono ha hend).trans (Nat.le_max_right _ _)

mutual
/-- The copy of a part without data is not larger than its densified form, and
neither are the steps from element to element. -/
theorem Datatype.copied_le_of_no_data : ∀ {t : Datatype}, t.WellFormed → t.datasize = 0 →
    t.copiedSize ≤ t.densify.buffersize ∧
    ((t.simple && t.dense) = false → t.copiedStride ≤ t.densify.buffersize)
  | .scalar s, _, h => by
    have hs : s.size = 0 := h
    simp [Datatype.copiedStride, Datatype.copiedSize, hs]
  | .array sub size start n as, hw, h => by
    simp only [Datatype.datasize] at h
    have hcs : (Datatype.array sub size start n as).copiedSize =
        if sub.simple && sub.dense then 0
        else (n - 1) * sub.copiedStride + (if n = 0 then 0 else sub.copiedSize) := by
      simp only [Datatype.copiedSize, h]
      rfl
    simp only [Datatype.copiedStride, hcs]
    simp only [Datatype.densify, Datatype.buffersize, Datatype.alignment]
    split
    · simp
    · next hslow =>
      by_cases hn : n = 0
      · simp [hn]
      · have hz : sub.datasize = 0 := by
          obtain h | h := Nat.mul_eq_zero.mp h
          · exact absurd h hn
          · exact h
        obtain ⟨hc, hst⟩ := Datatype.copied_le_of_no_data hw.1 hz
        have hst' := hst (by simpa using hslow)
        have hdvd : sub.alignment ∣ alignUp sub.copiedSize sub.alignment :=
          dvd_alignUp _ hw.1.alignment_pos
        rw [if_neg hn]
        refine ⟨elements_le hn hc hst', fun _ => ?_⟩
        rw [alignUp_add (Nat.dvd_trans hdvd (Nat.dvd_mul_left _ _))]
        exact elements_le hn hst' hst'
  | .record ms n as, ⟨hw, _⟩, h | .tuple ms n as, hw, h =>
    Members.copied_le_block hw (Members.copied_le_of_no_data (m := ms) hw (Nat.le_refl 0) h)
  | .pointer _ _ _ _, _, h => by simp [Datatype.datasize, pointerSize] at h

theorem Members.copied_le_of_no_data : ∀ {m : Members} {n c c' : Nat}, m.WellFormed n → c ≤ c' →
    m.datasize = 0 → m.copiedEnd c ≤ m.densifiedEnd c'
  | .nil, _, _, _, _, hc, _ => hc
  | .cons d type _ rest, n, c, c', hw, hc, h => by
    simp only [Members.datasize] at h
    have := (Datatype.copied_le_of_no_data hw.1 (by omega)).1
    have := alignUp_mono hw.1.alignment_pos hc
    refine Members.copied_le_of_no_data (m := rest) hw.2.2.2 ?_ (by omega)
    rw [Datatype.alignment_densify]
    omega
end

end Pdi.Datatypes
