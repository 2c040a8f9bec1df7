import Pdi.DenseBounds

/-!
# When a copy is exact

`CopyExact` is the condition on a type under which its copies are faithful. A
part that is copied as one block must have its scalars where the densified type
has them, and the block must reach over all of them; where parts are copied one
by one, each part that has data must be exact itself and start where the
densified type has it start.
-/
namespace Pdi.Datatypes

open Pdi.Align Pdi.Memory

variable {t : Datatype} {base n : Nat} {ms : Members} {a : Attributes}

/-- One block of `n` bytes from offset `base` on has every scalar where the
densified type expects it. -/
def Datatype.BlockExact (t : Datatype) (base n : Nat) : Prop :=
  ∀ o o' s, t.Leaf o o' s → 0 < s.size → o = base + o' ∧ o' + s.size ≤ n

mutual
def Datatype.CopyExact : Datatype → Prop
  | .scalar s => s.size = s.denseSize
  | .array subtype size start subsize attributes =>
    if subtype.simple && subtype.dense then
      (Datatype.array subtype size start subsize attributes).BlockExact
        (start * subtype.buffersize) (subsize * subtype.datasize)
    else subsize = 0 ∨ (subtype.CopyExact ∧ (subsize = 1 ∨ subtype.datasize = 0 ∨
      subtype.copiedStride = subtype.densify.buffersize))
  | .record members buffersize attributes =>
    if members.simple && members.denseIn buffersize members.alignment 0 then
      (Datatype.record members buffersize attributes).BlockExact 0 buffersize
    else members.CopyExact 0 0
  | .tuple elements buffersize attributes =>
    if elements.simple && elements.denseIn buffersize elements.alignment 0 then
      (Datatype.tuple elements buffersize attributes).BlockExact 0 buffersize
    else elements.CopyExact 0 0
  | .pointer _ _ _ _ => False

/-- The same for members when the copy has come to `c` and the densified form to `c'`. -/
def Members.CopyExact : Members → Nat → Nat → Prop
  | .nil, _, _ => True
  | .cons _ type _ rest, c, c' => type.CopyExact ∧
      (type.datasize = 0 ∨ alignUp c type.alignment = alignUp c' type.alignment) ∧
      rest.CopyExact (alignUp c type.alignment + type.copiedSize)
        (alignUp c' type.alignment + type.densify.buffersize)
end

/-- Every byte of every member is copied to its place, when the copy has come to
`c` and the densified form to `c'`. -/
def Members.Preserved (ms : Members) (c c' : Nat) : Prop :=
  ∀ o o' s, ms.Leaf c' o o' s → s.size = s.denseSize ∧ ∀ i < s.size, ms.Copied c (o' + i) (o + i)

theorem Datatype.BlockExact.copied (h : t.BlockExact base n) {o o' : Nat} {s : Scalar}
    (hs : t.Leaf o o' s) {i : Nat} (hi : i < s.size) : o + i = base + (o' + i) ∧ o' + i < n := by
  obtain ⟨ho, hn⟩ := h o o' s hs (by omega)
  omega

/-- A block that is copied byte by byte to its place is exact. -/
theorem Datatype.blockExact_of_copied
    (h : ∀ o o' s, t.Leaf o o' s → ∀ i < s.size, o + i = base + (o' + i) ∧ o' + i < n) :
    t.BlockExact base n := by
  intro o o' s hs hpos
  have hfirst := h o o' s hs 0 hpos
  have hlast := h o o' s hs (s.size - 1) (by omega)
  omega

/-- A record or tuple copied as a block, or else member by member. -/
theorem Members.preserved_block (hslow : ms.CopyExact 0 0 → ms.Preserved 0 0)
    (h : (Datatype.tuple ms n a).CopyExact) : (Datatype.tuple ms n a).Preserved := by
  intro o o' s hs
  simp only [Datatype.CopyExact] at h
  simp only [Datatype.Copied]
  cases hf : ms.simple && ms.denseIn n ms.alignment 0 with
  | true =>
    rw [if_pos hf] at h
    rw [Bool.and_eq_true] at hf
    refine ⟨(Members.sized_of_dense hf.2).leaf hs, fun i hi => ?_⟩
    have := h.copied hs hi
    simp only [if_true]
    omega
  | false =>
    rw [hf] at h
    exact hslow h o o' s hs

mutual
/-- An exact type is copied without loss. -/
theorem Datatype.CopyExact.preserved : ∀ {t : Datatype}, t.CopyExact → t.Preserved
  | .scalar s, h => by
    rintro o o' s' ⟨rfl, rfl, rfl⟩
    exact ⟨h, fun i hi => ⟨rfl, by omega⟩⟩
  | .array sub size start n as, h => by
    intro o o' s hs
    simp only [Datatype.CopyExact] at h
    cases hf : sub.simple && sub.dense with
    | true =>
      rw [if_pos hf] at h
      have hdense : sub.dense = true := by
        rw [Bool.and_eq_true] at hf
        exact hf.2
      refine ⟨?_, fun i hi => ?_⟩
      · obtain ⟨k, hk, p, p', hp, _⟩ := hs
        exact (Datatype.sized_of_dense hdense).leaf hp
      · simp only [Datatype.Copied, hf, if_true]
        exact h.copied hs hi
    | false =>
      simp only [hf] at h
      obtain ⟨k, hk, p, p', hp, rfl, rfl⟩ := hs
      obtain rfl | ⟨hsub, hstride⟩ := h
      · omega
      · obtain ⟨hsize, hcop⟩ := hsub.preserved p p' s hp
        refine ⟨hsize, fun i hi => ?_⟩
        simp only [Datatype.Copied, hf]
        refine ⟨k, hk, p' + i, p + i, hcop i hi, ?_, by omega⟩
        have hle := hp.size_le_datasize
        obtain rfl | hz | hst := hstride
        · obtain rfl : k = 0 := by omega
          omega
        · omega
        · rw [hst]
          omega
  | .record ms n as, h | .tuple ms n as, h =>
    Members.preserved_block (n := n) (a := as)
      (fun h => Members.CopyExact.preserved (m := ms) h) h

theorem Members.CopyExact.preserved : ∀ {m : Members} {c c' : Nat}, m.CopyExact c c' →
    m.Preserved c c'
  | .nil, _, _, _ => fun _ _ _ hs => hs.elim
  | .cons d type _ rest, c, c', ⟨htype, hstart, hrest⟩ => by
    intro o o' s hs
    obtain ⟨p, p', hp, rfl, rfl⟩ | hs := hs
    · obtain ⟨hsize, hcop⟩ := htype.preserved p p' s hp
      refine ⟨hsize, fun i hi => .inl ⟨p' + i, p + i, hcop i hi, ?_, by omega⟩⟩
      have hle := hp.size_le_datasize
      obtain hz | hst := hstart
      · omega
      · omega
    · obtain ⟨hsize, hcop⟩ := hrest.preserved o o' s hs
      exact ⟨hsize, fun i hi => .inr (hcop i hi)⟩
end

mutual
/-- The copy of an exact type does not get ahead of the densified form. -/
theorem Datatype.CopyExact.copiedSize_le : ∀ {t : Datatype}, t.WellFormed → t.CopyExact →
    t.copiedSize ≤ t.densify.buffersize
  | .scalar _, _, h => Nat.le_of_eq h
  | .array sub size start n as, hw, h => by
    simp only [Datatype.CopyExact] at h
    simp only [Datatype.copiedSize, Datatype.densify, Datatype.buffersize]
    cases hf : sub.simple && sub.dense with
    | true =>
      have hdense : sub.dense = true := by
        rw [Bool.and_eq_true] at hf
        exact hf.2
      exact Nat.mul_le_mul_left n (Datatype.datasize_le_densify (Datatype.sized_of_dense hdense))
    | false =>
      simp only [hf] at h
      obtain rfl | ⟨hsub, hstride⟩ := h
      · simp
      · have hcs := hsub.copiedSize_le hw.1
        by_cases hn : n = 0
        · simp [hn]
        · simp only [hn, if_false]
          obtain rfl | hz | hst := hstride
          · simpa using hcs
          · exact elements_le hn hcs ((Datatype.copied_le_of_no_data hw.1 hz).2 hf)
          · exact elements_le hn hcs (Nat.le_of_eq hst)
  | .record ms n as, hw, h => by
    simp only [Datatype.CopyExact] at h
    simp only [Datatype.copiedSize]
    split at h
    · next hf =>
      rw [if_pos hf]
      rw [Bool.and_eq_true] at hf
      exact Datatype.buffersize_le_densify (t := .record ms n as) hw hf.2
    · next hf =>
      rw [if_neg hf]
      exact (Members.CopyExact.copiedEnd_le (m := ms) hw.1 (Nat.le_refl 0) h).trans
        (le_paddedEnd _ _)
  | .tuple ms n as, hw, h => by
    simp only [Datatype.CopyExact] at h
    simp only [Datatype.copiedSize]
    split at h
    · next hf =>
      rw [if_pos hf]
      rw [Bool.and_eq_true] at hf
      exact Datatype.buffersize_le_densify (t := .tuple ms n as) hw hf.2
    · next hf =>
      rw [if_neg hf]
      exact (Members.CopyExact.copiedEnd_le (m := ms) hw (Nat.le_refl 0) h).trans
        (le_paddedEnd _ _)
  | .pointer _ _ _ _, _, h => h.elim

theorem Members.CopyExact.copiedEnd_le : ∀ {m : Members} {n c c' : Nat}, m.WellFormed n →
    c ≤ c' → m.CopyExact c c' → m.copiedEnd c ≤ m.densifiedEnd c'
  | .nil, _, _, _, _, hc, _ => hc
  | .cons d type _ rest, n, c, c', hw, hc, ⟨htype, _, hrest⟩ => by
    have := htype.copiedSize_le hw.1
    have := alignUp_mono hw.1.alignment_pos hc
    simp only [Members.copiedEnd, Members.densifiedEnd, Datatype.alignment_densify]
    exact Members.CopyExact.copiedEnd_le (m := rest) hw.2.2.2 (by omega) hrest
end

theorem Members.no_shift_block {δ : Nat} (hw : ms.WellFormed n) (hp : ms.PointerFree)
    (hpos : 0 < ms.datasize)
    (hslow : (∀ o o' s, ms.Leaf 0 o o' s → ∀ i < s.size, ms.Copied 0 (o' + i + δ) (o + i)) → δ = 0)
    (h : ∀ o o' s, ms.Leaf 0 o o' s →
      ∀ i < s.size, (Datatype.tuple ms n a).Copied (o' + i + δ) (o + i)) :
    δ = 0 := by
  simp only [Datatype.Copied] at h
  cases hf : ms.simple && ms.denseIn n ms.alignment 0 with
  | true =>
    rw [hf] at h
    rw [Bool.and_eq_true] at hf
    obtain ⟨o, o', s, hleaf, hsize⟩ := Members.exists_leaf 0 hp hpos
    have hle := Members.Leaf.le_of_dense hw (Nat.le_refl 0) hf.2 hleaf
    have hcop := (h o o' s hleaf 0 hsize).1
    omega
  | false =>
    rw [hf] at h
    exact hslow h

mutual
/-- Data cannot be copied too far as a whole: the first scalar with data is not. -/
theorem Datatype.no_shift : ∀ {t : Datatype} {δ : Nat}, t.WellFormed → t.PointerFree → t.Sized →
    0 < t.datasize →
    (∀ o o' s, t.Leaf o o' s → ∀ i < s.size, t.Copied (o' + i + δ) (o + i)) → δ = 0
  | .scalar s, δ, _, _, _, hpos, h => by
    have h0 := h 0 0 s ⟨rfl, rfl, rfl⟩ 0 hpos
    have := h0.1
    omega
  | .array sub size start n as, δ, hw, hp, hs, hpos, h => by
    simp only [Datatype.datasize] at hpos
    have hn : 0 < n := Nat.pos_of_mul_pos_right hpos
    have hsub : 0 < sub.datasize := Nat.pos_of_mul_pos_left hpos
    obtain rfl | hs := hs
    · omega
    · cases hf : sub.simple && sub.dense with
      | true =>
        have hdense : sub.dense = true := by
          rw [Bool.and_eq_true] at hf
          exact hf.2
        obtain ⟨p, p', s, hleaf, hsize⟩ := Datatype.exists_leaf (t := sub) hp hsub
        have hle := hleaf.le_of_dense hw.1 hdense
        have hcop := h _ _ s ⟨0, hn, p, p', hleaf, rfl, rfl⟩ 0 hsize
        simp only [Datatype.Copied, hf, if_true] at hcop
        have := hcop.1
        simp only [Nat.add_zero, Nat.zero_mul, Nat.zero_add] at this
        omega
      | false =>
        refine Datatype.no_shift hw.1 hp hs hsub fun p p' s hleaf i hi => ?_
        have hle := hleaf.le_buffersize hw.1 hs
        have hcop := h _ _ s ⟨0, hn, p, p', hleaf, rfl, rfl⟩ i hi
        rw [Nat.add_assoc ((start + 0) * _)] at hcop
        obtain ⟨u, hu, hx⟩ := hcop.of_element hf hw.1 hs (by omega)
        rw [Nat.zero_mul, Nat.zero_add, Nat.zero_mul, Nat.zero_add] at hx
        rwa [hx]
  | .record ms n as, δ, ⟨hw, _⟩, hp, hs, hpos, h | .tuple ms n as, δ, hw, hp, hs, hpos, h =>
    Members.no_shift_block (a := as) hw hp hpos
      (Members.no_shift hw hp hs hpos (Nat.le_refl 0)) h
  | .pointer _ _ _ _, _, _, hp, _, _, _ => hp.elim

theorem Members.no_shift : ∀ {m : Members} {n c c' δ : Nat}, m.WellFormed n → m.PointerFree →
    m.Sized → 0 < m.datasize → c ≤ c' →
    (∀ o o' s, m.Leaf c' o o' s → ∀ i < s.size, m.Copied c (o' + i + δ) (o + i)) → δ = 0
  | .nil, _, _, _, _, _, _, _, hpos, _, _ => by simp [Members.datasize] at hpos
  | .cons d type name rest, n, c, c', δ, hw, hp, hs, hpos, hc, h => by
    have hal := alignUp_mono hw.1.alignment_pos hc
    by_cases hd : 0 < type.datasize
    · have hshift : alignUp c' type.alignment - alignUp c type.alignment + δ = 0 := by
        refine Datatype.no_shift hw.1 hp.1 hs.1 hd fun p p' s hleaf i hi => ?_
        have hle := hleaf.le_buffersize hw.1 hs.1
        have hcop := h _ _ s (.inl ⟨p, p', hleaf, rfl, rfl⟩) i hi
        rw [Nat.add_assoc d] at hcop
        obtain ⟨u, hu, hx⟩ := hcop.of_head hw hs (by omega)
        obtain rfl : u = p' + i + (alignUp c' type.alignment - alignUp c type.alignment + δ) := by
          omega
        exact hu
      omega
    · simp only [Members.datasize] at hpos
      have hcs := (Datatype.copied_le_of_no_data hw.1 (by omega)).1
      have hle : alignUp c type.alignment + type.copiedSize ≤
          alignUp c' type.alignment + type.densify.buffersize := by omega
      refine Members.no_shift (m := rest) hw.2.2.2 hp.2 hs.2 (by omega) hle
        fun o o' s hleaf i hi => ?_
      exact (h o o' s (.inr hleaf) i hi).of_rest hw hs
        ((Members.Leaf.le_buffersize (m := rest) hw.2.2.2 hs.2 hleaf).2 i hi)
end

theorem Datatype.Preserved.sized (hp : t.PointerFree) (h : t.Preserved) : t.Sized :=
  Datatype.sized_of_leaves hp fun o o' s hs => (h o o' s hs).1

theorem Members.copyExact_block (hslow : ms.Preserved 0 0 → ms.CopyExact 0 0)
    (h : (Datatype.tuple ms n a).Preserved) : (Datatype.tuple ms n a).CopyExact := by
  simp only [Datatype.CopyExact]
  simp only [Datatype.Preserved, Datatype.Copied] at h
  cases hf : ms.simple && ms.denseIn n ms.alignment 0 with
  | true =>
    simp only [hf, if_true] at h
    refine Datatype.blockExact_of_copied fun o o' s hs i hi => ?_
    have := (h o o' s hs).2 i hi
    omega
  | false =>
    rw [hf] at h
    exact hslow h

mutual
/-- A type copied without loss is exact. -/
theorem Datatype.Preserved.copyExact : ∀ {t : Datatype}, t.WellFormed →
    t.PointerFree → t.Preserved →
    t.CopyExact
  | .scalar s, _, _, h => (h 0 0 s ⟨rfl, rfl, rfl⟩).1
  | .array sub size start n as, hw, hp, h => by
    simp only [Datatype.CopyExact]
    cases hf : sub.simple && sub.dense with
    | true =>
      refine Datatype.blockExact_of_copied fun o o' s hs i hi => ?_
      have hcop := (h o o' s hs).2 i hi
      simpa only [Datatype.Copied, hf, if_true] using hcop
    | false =>
      obtain hn | hs := h.sized hp
      · exact .inl hn
      by_cases hn : n = 0
      · exact .inl hn
      -- Element `k` is copied to its place, whatever was copied before it.
      have helement : ∀ k < n, ∀ p p' s, sub.Leaf p p' s → ∀ i < s.size,
          ∃ u, sub.Copied u (p + i) ∧
            k * sub.densify.buffersize + p' + i = k * sub.copiedStride + u := by
        intro k hk p p' s hleaf i hi
        have hle := hleaf.le_buffersize hw.1 hs
        have hcop := (h _ _ s ⟨k, hk, p, p', hleaf, rfl, rfl⟩).2 i hi
        rw [Nat.add_assoc ((start + k) * _)] at hcop
        exact hcop.of_element hf hw.1 hs (by omega)
      have hsub : sub.Preserved := by
        intro p p' s hleaf
        refine ⟨hs.leaf hleaf, fun i hi => ?_⟩
        obtain ⟨u, hu, hx⟩ := helement 0 (by omega) p p' s hleaf i hi
        obtain rfl : u = p' + i := by omega
        exact hu
      refine .inr ⟨hsub.copyExact hw.1 hp, ?_⟩
      by_cases hone : n = 1
      · exact .inl hone
      · obtain hz | hz := Nat.eq_zero_or_pos sub.datasize
        · exact .inr (.inl hz)
        · obtain ⟨p, p', s, hleaf, hpos⟩ := Datatype.exists_leaf (t := sub) hp hz
          obtain ⟨u, hu, hx⟩ := helement 1 (by omega) p p' s hleaf 0 hpos
          have hinj := hu.inj hw.1 hs ((hsub p p' s hleaf).2 0 hpos)
          exact .inr (.inr (by omega))
  | .record ms n as, ⟨hw, _⟩, hp, h | .tuple ms n as, hw, hp, h =>
    Members.copyExact_block (n := n) (a := as)
      (fun h => Members.Preserved.copyExact (m := ms) hw hp (Nat.le_refl 0) h) h
  | .pointer _ _ _ _, _, hp, _ => hp.elim

theorem Members.Preserved.copyExact : ∀ {m : Members} {n c c' : Nat}, m.WellFormed n →
    m.PointerFree → c ≤ c' → m.Preserved c c' → m.CopyExact c c'
  | .nil, _, _, _, _, _, _, _ => trivial
  | .cons d type name rest, n, c, c', hw, hp, hc, h => by
    have hs : (Members.cons d type name rest).Sized :=
      Members.sized_of_leaves c' hp fun o o' s hs => (h o o' s hs).1
    have hal := alignUp_mono hw.1.alignment_pos hc
    -- The first member is copied with all its bytes too far by one distance.
    have hhead : ∀ p p' s, type.Leaf p p' s → ∀ i < s.size, type.Copied
        (p' + i + (alignUp c' type.alignment - alignUp c type.alignment)) (p + i) := by
      intro p p' s hleaf i hi
      have hle := hleaf.le_buffersize hw.1 hs.1
      have hcop := (h _ _ s (.inl ⟨p, p', hleaf, rfl, rfl⟩)).2 i hi
      rw [Nat.add_assoc d] at hcop
      obtain ⟨u, hu, hx⟩ := hcop.of_head hw hs (by omega)
      obtain rfl : u = p' + i + (alignUp c' type.alignment - alignUp c type.alignment) := by omega
      exact hu
    have hstart : type.datasize = 0 ∨ alignUp c type.alignment = alignUp c' type.alignment := by
      obtain hz | hz := Nat.eq_zero_or_pos type.datasize
      · exact .inl hz
      · have := Datatype.no_shift hw.1 hp.1 hs.1 hz hhead
        exact .inr (by omega)
    have htype : type.CopyExact := by
      refine Datatype.Preserved.copyExact hw.1 hp.1 fun p p' s hleaf => ⟨hs.1.leaf hleaf, ?_⟩
      intro i hi
      have hle := hleaf.size_le_datasize
      have hcop := hhead p p' s hleaf i hi
      obtain hz | heq := hstart
      · omega
      · rwa [heq, Nat.sub_self, Nat.add_zero] at hcop
    refine ⟨htype, hstart, ?_⟩
    have hcs := htype.copiedSize_le hw.1
    refine Members.Preserved.copyExact (m := rest) hw.2.2.2 hp.2 (by omega) fun o o' s hleaf => ?_
    refine ⟨hs.2.leaf hleaf, fun i hi => ?_⟩
    exact ((h o o' s (.inr hleaf)).2 i hi).of_rest hw hs
      ((Members.Leaf.le_buffersize (m := rest) hw.2.2.2 hs.2 hleaf).2 i hi)
end

/-- Copies of a plain, well-formed type are faithful, for every content, exactly
when the type is exact. -/
theorem doCopy_faithful_iff (functions : CopyFunctions) (t : Datatype) (hw : t.WellFormed)
    (hp : t.Plain) : CopyFaithful functions t ↔ t.CopyExact :=
  ⟨fun h => (h.preserved functions hw hp).copyExact hw hp.pointerFree,
    fun h => h.preserved.copyFaithful functions hw hp⟩

/-- A record with padding between its members and around them: it is copied
member by member. -/
def sparseRecord : Datatype :=
  .record (.cons 1 typeForInt8 "low" (.cons 16 typeForInt64 "high" .nil)) 32 []

theorem sparseRecord_wellFormed : sparseRecord.WellFormed := by
  simp [sparseRecord, Datatype.WellFormed, Members.WellFormed, Members.Apart,
    Members.DistinctNames, Members.HasName, typeForInt8, typeForInt64, Scalar.make,
    Datatype.buffersize]
  omega

theorem doCopy_faithful_sparseRecord :
    sparseRecord.WellFormed ∧ sparseRecord.Plain ∧
      CopyFaithful (fun _ _ _ _ _ => .error (.undefined "no copy function")) sparseRecord := by
  have hw := sparseRecord_wellFormed
  have hp : sparseRecord.Plain := ⟨rfl, rfl, trivial⟩
  refine ⟨hw, hp, (doCopy_faithful_iff _ _ hw hp).mpr ?_⟩
  exact ⟨rfl, .inr rfl, rfl, .inr rfl, trivial⟩

/-- Records of a 64-bit and an 8-bit integer are dense with seven bytes of
padding at their end, and nine of their sixteen bytes are data. -/
def paddedRecords : Datatype :=
  .array (.record (.cons 0 typeForInt64 "high" (.cons 8 typeForInt8 "low" .nil)) 16 []) 2 0 2 []

/-- The copy of two such records stops after eighteen bytes: the last byte that
is not zero is lost. -/
theorem doCopy_loses_second_record :
    paddedRecords.WellFormed ∧ paddedRecords.Plain ∧
    ∃ mem' data, doCopy (fun _ _ _ _ _ => .error (.undefined "no copy function")) paddedRecords
        (fun a => if a = 124 then 1 else 0) 100 200 =
          .ok (some (mem', data, paddedRecords.densify)) ∧
      readScalar (fun a => if a = 124 then 1 else 0) [.index 1, .member "low"] paddedRecords 100 =
        some [1] ∧
      readScalar mem' [.index 1, .member "low"] paddedRecords.densify data = some [0] := by
  refine ⟨?_, ⟨rfl, rfl, trivial⟩, _, _, rfl, by decide, by decide⟩
  simp [paddedRecords, Datatype.WellFormed, Members.WellFormed, Members.Apart,
    Members.DistinctNames, Members.HasName, typeForInt8, typeForInt64, Scalar.make,
    Datatype.buffersize]
  omega

end Pdi.Datatypes
