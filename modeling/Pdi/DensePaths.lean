import Pdi.DenseSpec

/-!
# Faithful copies

A path leads to the same scalar in data and in its densified copy, and the
scalars of a type are those that paths lead to. A copy is therefore faithful
exactly when every byte of every scalar is copied to the place that the
densified type gives it.
-/
namespace Pdi.Datatypes

open Pdi.Align Pdi.Memory

variable {step : Step} {t : Datatype} {path : Path} {as : Attributes} {ms : Members}

/-- A path to a scalar of plain data, and to the same scalar of densified data. -/
structure Leads (path : Path) (t : Datatype) (o o' : Nat) (s : Scalar) : Prop where
  data : ∀ mem a, locate mem path t a = some (a + o, s)
  densified : ∀ mem a, locate mem path t.densify a = some (a + o', s.densify)

/-- A path that leads nowhere, in densified data neither. -/
structure LeadsNowhere (path : Path) (t : Datatype) : Prop where
  data : ∀ mem a, locate mem path t a = none
  densified : ∀ mem a, locate mem path t.densify a = none

theorem Members.lookup_densify : ∀ (ms : Members) (c : Nat) (step : Step), ms.PointerFree →
    (ms.lookup step = none ∧ (ms.densify c).lookup step = none) ∨
    ∃ d d' t, ms.lookup step = some (d, t) ∧ (ms.densify c).lookup step = some (d', t.densify) ∧
      t.PointerFree ∧ ∀ p p' s, t.Leaf p p' s → ms.Leaf c (d + p) (d' + p') s
  | .nil, _, step, _ => by cases step <;> exact .inl ⟨rfl, rfl⟩
  | .cons d type n rest, c, step, hp => by
    simp only [Members.densify, Datatype.alignment_densify]
    obtain hfirst | ⟨next, hnext⟩ := Members.lookup_cons step n
    · exact .inr ⟨d, _, type, hfirst _ _ _, hfirst _ _ _, hp.1, fun p p' s h =>
        .inl ⟨p, p', h, rfl, rfl⟩⟩
    · simp only [hnext]
      obtain h | ⟨d, d', t, h, h', hp', hleaf⟩ := rest.lookup_densify _ next hp.2
      · exact .inl h
      · exact .inr ⟨d, d', t, h, h', hp', fun p p' s hs => .inr (hleaf p p' s hs)⟩

/-- One step from plain data, and the same step from densified data. -/
structure StepLeads (step : Step) (t : Datatype) (d d' : Nat) (t' : Datatype) : Prop where
  data : ∀ mem a, t.step step a mem = .ok (a + d, t')
  densified : ∀ mem a, t.densify.step step a mem = .ok (a + d', t'.densify)

structure StepFails (step : Step) (t : Datatype) : Prop where
  data : ∀ mem a, ∃ e, t.step step a mem = .error e
  densified : ∀ mem a, ∃ e, t.densify.step step a mem = .error e

theorem StepLeads.cons {step : Step} {t t' : Datatype} {d d' o o' : Nat} {path : Path} {s : Scalar}
    (h : StepLeads step t d d' t') (hl : Leads path t' o o' s) :
    Leads (step :: path) t (d + o) (d' + o') s := by
  refine ⟨fun mem a => ?_, fun mem a => ?_⟩
  · simp only [locate, h.data, hl.data, Nat.add_assoc]
  · simp only [locate, h.densified, hl.densified, Nat.add_assoc]

theorem StepLeads.cons_nowhere {t' : Datatype} {d d' : Nat} (h : StepLeads step t d d' t')
    (hl : LeadsNowhere path t') : LeadsNowhere (step :: path) t := by
  refine ⟨fun mem a => ?_, fun mem a => ?_⟩
  · simp only [locate, h.data, hl.data]
  · simp only [locate, h.densified, hl.densified]

theorem StepFails.nowhere (h : StepFails step t) (path : Path) : LeadsNowhere (step :: path) t := by
  refine ⟨fun mem a => ?_, fun mem a => ?_⟩
  · obtain ⟨e, he⟩ := h.data mem a
    simp only [locate, he]
  · obtain ⟨e, he⟩ := h.densified mem a
    simp only [locate, he]

theorem stepLeads_index {sub : Datatype} {size start n i : Nat} (hi : i < n) :
    StepLeads (.index i) (.array sub size start n as) ((start + i) * sub.buffersize)
      (i * sub.densify.buffersize) sub := by
  refine ⟨fun mem a => ?_, fun mem a => ?_⟩
  · simp only [Datatype.step, Datatype.index, hi, if_true, Nat.mul_comm]
  · simp only [Datatype.step, Datatype.densify, Datatype.index, hi, if_true, Nat.zero_add,
      Nat.mul_comm]

theorem stepLeads_element {n i d d' : Nat} (h : ms.get? i = some (d, t))
    (h' : (ms.densify 0).get? i = some (d', t.densify)) :
    StepLeads (.index i) (.tuple ms n as) d d' t := by
  refine ⟨fun mem a => ?_, fun mem a => ?_⟩
  · simp only [Datatype.step, Datatype.index, h]
  · simp only [Datatype.step, Datatype.densify, Datatype.index, h']

theorem stepLeads_member {n d d' : Nat} {name : String} (h : ms.find? name = some (d, t))
    (h' : (ms.densify 0).find? name = some (d', t.densify)) :
    StepLeads (.member name) (.record ms n as) d d' t := by
  refine ⟨fun mem a => ?_, fun mem a => ?_⟩
  · simp only [Datatype.step, Datatype.member, h]
  · simp only [Datatype.step, Datatype.densify, Datatype.member, h']

/-- A step leads to one part of both forms of the data, or fails in both. -/
theorem stepLeads_or_fails (step : Step) (t : Datatype) (hp : t.PointerFree) :
    (∃ d d' t', StepLeads step t d d' t' ∧ t'.PointerFree ∧
      ∀ p p' s, t'.Leaf p p' s → t.Leaf (d + p) (d' + p') s) ∨ StepFails step t := by
  cases t with
  | pointer => exact hp.elim
  | scalar => cases step <;> exact .inr ⟨fun _ _ => ⟨_, rfl⟩, fun _ _ => ⟨_, rfl⟩⟩
  | array sub size start n =>
    cases step with
    | member => exact .inr ⟨fun _ _ => ⟨_, rfl⟩, fun _ _ => ⟨_, rfl⟩⟩
    | index i =>
      by_cases hi : i < n
      · refine .inl ⟨_, _, sub, stepLeads_index hi, hp, ?_⟩
        intro p p' s h
        exact ⟨i, hi, p, p', h, rfl, rfl⟩
      · exact .inr ⟨fun mem a => by simp [Datatype.step, Datatype.index, hi],
          fun mem a => by simp [Datatype.step, Datatype.densify, Datatype.index, hi]⟩
  | tuple ms =>
    cases step with
    | member => exact .inr ⟨fun _ _ => ⟨_, rfl⟩, fun _ _ => ⟨_, rfl⟩⟩
    | index i =>
      obtain ⟨h, h'⟩ | ⟨d, d', t, h, h', hp', hms⟩ := ms.lookup_densify 0 (.index i) hp
      · rw [Members.lookup] at h h'
        exact .inr ⟨fun mem a => by simp [Datatype.step, Datatype.index, h],
          fun mem a => by simp [Datatype.step, Datatype.densify, Datatype.index, h']⟩
      · exact .inl ⟨d, d', t, stepLeads_element h h', hp', hms⟩
  | record ms =>
    cases step with
    | index => exact .inr ⟨fun _ _ => ⟨_, rfl⟩, fun _ _ => ⟨_, rfl⟩⟩
    | member name =>
      obtain ⟨h, h'⟩ | ⟨d, d', t, h, h', hp', hms⟩ := ms.lookup_densify 0 (.member name) hp
      · rw [Members.lookup] at h h'
        exact .inr ⟨fun mem a => by simp [Datatype.step, Datatype.member, h],
          fun mem a => by simp [Datatype.step, Datatype.densify, Datatype.member, h']⟩
      · exact .inl ⟨d, d', t, stepLeads_member h h', hp', hms⟩

/-- Every path leads to one scalar in both forms of the data, or nowhere. -/
theorem leads_or_nowhere (path : Path) : ∀ t : Datatype, t.PointerFree →
    (∃ o o' s, t.Leaf o o' s ∧ Leads path t o o' s) ∨ LeadsNowhere path t := by
  induction path with
  | nil =>
    intro t hp
    cases t with
    | scalar s => exact .inl ⟨0, 0, s, ⟨rfl, rfl, rfl⟩, fun _ _ => rfl, fun _ _ => rfl⟩
    | pointer => exact hp.elim
    | array | record | tuple => exact .inr ⟨fun _ _ => rfl, fun _ _ => rfl⟩
  | cons step path ih =>
    intro t hp
    obtain ⟨d, d', t', hstep, hp', hleaf⟩ | hfail := stepLeads_or_fails step t hp
    · obtain ⟨o, o', s, hs, hl⟩ | hl := ih t' hp'
      · exact .inl ⟨d + o, d' + o', s, hleaf o o' s hs, hstep.cons hl⟩
      · exact .inr (hstep.cons_nowhere hl)
    · exact .inr (hfail.nowhere path)

theorem Members.hasName_of_find? : ∀ {ms : Members} {name : String} {x : Nat × Datatype},
    ms.find? name = some x → ms.HasName name
  | .nil, _, _, h => by simp [Members.find?] at h
  | .cons _ _ n rest, name, x, h => by
    by_cases hn : n = name
    · exact .inl hn
    · exact .inr (Members.hasName_of_find? (x := x) (by simpa [Members.find?, hn] using h))

mutual
/-- Every scalar is at the end of a path. -/
theorem Datatype.Leaf.exists_path : ∀ {t : Datatype} {o o' : Nat} {s : Scalar}, t.WellFormed →
    t.Leaf o o' s → ∃ path, Leads path t o o' s
  | .scalar _, _, _, _, _, h => by
    obtain ⟨rfl, rfl, rfl⟩ := h
    exact ⟨[], fun _ _ => rfl, fun _ _ => rfl⟩
  | .array sub size start n as, o, o', s, hw, h => by
    obtain ⟨k, hk, p, p', h, ho, ho'⟩ := h
    obtain ⟨path, hl⟩ := h.exists_path hw.1
    exact ⟨.index k :: path, ho ▸ ho' ▸ (stepLeads_index hk).cons hl⟩
  | .record ms n as, o, o', s, hw, h => by
    obtain ⟨i, name, d, d', t, p, p', path, _, _, hfind, hl, rfl, rfl⟩ :=
      Members.Leaf.exists_path (m := ms) hw.1 h
    obtain ⟨hf, hf'⟩ := hfind hw.2
    exact ⟨.member name :: path, (stepLeads_member hf hf').cons hl⟩
  | .tuple ms n as, o, o', s, hw, h => by
    obtain ⟨i, name, d, d', t, p, p', path, hg, hg', _, hl, rfl, rfl⟩ :=
      Members.Leaf.exists_path (m := ms) hw h
    exact ⟨.index i :: path, (stepLeads_element hg hg').cons hl⟩
  | .pointer _ _ _ _, _, _, _, _, h => h.elim

theorem Members.Leaf.exists_path : ∀ {m : Members} {n c o o' : Nat} {s : Scalar},
    m.WellFormed n → m.Leaf c o o' s → ∃ i name d d' t p p' path,
      m.get? i = some (d, t) ∧ (m.densify c).get? i = some (d', t.densify) ∧
      (m.DistinctNames → m.find? name = some (d, t) ∧
        (m.densify c).find? name = some (d', t.densify)) ∧
      Leads path t p p' s ∧ o = d + p ∧ o' = d' + p'
  | .nil, _, _, _, _, _, _, h => h.elim
  | .cons d type n rest, _, c, o, o', s, hw, .inl ⟨p, p', h, ho, ho'⟩ => by
    obtain ⟨path, hl⟩ := h.exists_path hw.1
    refine ⟨0, n, d, alignUp c type.alignment, type, p, p', path, rfl, ?_, ?_, hl, ho, ho'⟩
    · simp [Members.densify, Members.get?]
    · intro _
      simp [Members.densify, Members.find?]
  | .cons d type n rest, _, c, o, o', s, hw, .inr h => by
    obtain ⟨i, name, d, d', t, p, p', path, hg, hg', hfind, hl, ho, ho'⟩ :=
      Members.Leaf.exists_path (m := rest) hw.2.2.2 h
    refine ⟨i + 1, name, d, d', t, p, p', path, hg, ?_, ?_, hl, ho, ho'⟩
    · simpa [Members.densify, Members.get?] using hg'
    · intro hdist
      obtain ⟨hf, hf'⟩ := hfind hdist.2
      have hne : n ≠ name := by
        rintro rfl
        exact hdist.1 (Members.hasName_of_find? hf)
      exact ⟨by simpa [Members.find?, hne] using hf,
        by simpa [Members.densify, Members.find?, hne] using hf'⟩
end

theorem Members.le_densifiedEnd (ms : Members) (c : Nat) : c ≤ ms.densifiedEnd c := by
  cases ms with
  | nil => exact Nat.le_refl _
  | cons _ type _ rest =>
    have := rest.le_densifiedEnd (alignUp c type.densify.alignment + type.densify.buffersize)
    have := le_alignUp c type.densify.alignment
    simp only [Members.densifiedEnd]
    omega

theorem le_paddedEnd (d a : Nat) : d ≤ paddedEnd d a :=
  (le_alignUp d a).trans (Nat.le_max_right _ _)

mutual
/-- A densified scalar lies inside the densified buffer. -/
theorem Datatype.Leaf.le_densified : ∀ {t : Datatype} {o o' : Nat} {s : Scalar}, t.Leaf o o' s →
    o' + s.denseSize ≤ t.densify.buffersize
  | .scalar s, _, _, _, h => by
    obtain ⟨-, rfl, rfl⟩ := h
    simp [Datatype.densify, Datatype.buffersize, Scalar.densify]
  | .array sub size start n as, o, o', s, h => by
    obtain ⟨k, hk, p, p', h, -, ho'⟩ := h
    have hle := h.le_densified
    have hmul : (k + 1) * sub.densify.buffersize ≤ n * sub.densify.buffersize :=
      Nat.mul_le_mul_right _ hk
    rw [Nat.add_mul, Nat.one_mul] at hmul
    simp only [Datatype.densify, Datatype.buffersize]
    omega
  | .record ms n as, o, o', s, h | .tuple ms n as, o, o', s, h =>
    (Members.Leaf.le_densified (m := ms) h).trans (le_paddedEnd _ _)
  | .pointer _ _ _ _, _, _, _, h => h.elim

theorem Members.Leaf.le_densified : ∀ {m : Members} {c o o' : Nat} {s : Scalar},
    m.Leaf c o o' s → o' + s.denseSize ≤ m.densifiedEnd c
  | .nil, _, _, _, _, h => h.elim
  | .cons d type n rest, c, o, o', s, h => by
    simp only [Members.densifiedEnd, Datatype.alignment_densify]
    obtain ⟨p, p', h, _, rfl⟩ | h := h
    · have := h.le_densified
      have := rest.le_densifiedEnd (alignUp c type.alignment + type.densify.buffersize)
      omega
    · exact Members.Leaf.le_densified (m := rest) h
end

/-- The result of `do_copy` on any content, in memory apart from it: read under
the densified type, it has at every path what the data has there. -/
def CopyFaithful (functions : CopyFunctions) (t : Datatype) : Prop :=
  ∀ (mem : Mem Byte) (source buffer : Nat),
    source + t.buffersize ≤ buffer ∨
      buffer + (t.densify.buffersize + (t.densify.alignment - 1)) ≤ source →
    match doCopy functions t mem source buffer with
    | .ok none => ∀ path, readScalar mem path t source = readScalar mem path t.densify 0
    | .ok (some (mem', data, t')) =>
      ∀ path, readScalar mem path t source = readScalar mem' path t' data
    | .error _ => False

/-- Every byte of every scalar is copied to where the densified type expects it. -/
def Datatype.Preserved (t : Datatype) : Prop :=
  ∀ o o' s, t.Leaf o o' s → s.size = s.denseSize ∧ ∀ i < s.size, t.Copied (o' + i) (o + i)

theorem doCopy_spec (functions : CopyFunctions) (hw : t.WellFormed) (hp : t.Plain)
    (hn : t.densify.buffersize ≠ 0) (mem : Mem Byte) (source buffer : Nat) :
    ∃ mem', doCopy functions t mem source buffer =
        .ok (some (mem', alignUp buffer t.alignment, t.densify)) ∧
      Carries (Placed (alignUp buffer t.alignment) source t.Copied) mem mem mem' := by
  have ha := hw.alignment_pos
  obtain ⟨mem', he, hc⟩ := Datatype.dataToDenseCopy_spec functions mem t hw hp mem
    (alignUp buffer t.alignment) source (dvd_alignUp buffer ha)
  refine ⟨mem', ?_, hc⟩
  simp only [doCopy, hn, if_false, Datatype.alignment_densify]
  rw [stdAlign_block buffer _ ha, he]
  rfl

/-- Reading a scalar before and after a copy. -/
theorem Leads.readScalar_eq {o o' : Nat} {s : Scalar} (h : Leads path t o o' s)
    (mem mem' : Mem Byte) (source data : Nat) :
    readScalar mem path t source = readScalar mem' path t.densify data ↔
      s.size = s.denseSize ∧ ∀ i < s.size, mem (source + o + i) = mem' (data + o' + i) := by
  simp only [readScalar, h.data, h.densified, Option.map_some, Option.some.injEq, Scalar.densify]
  exact bytes_eq_iff _ _ _ _ _ _

theorem LeadsNowhere.readScalar_eq (h : LeadsNowhere path t) (mem mem' : Mem Byte)
    (source data : Nat) : readScalar mem path t source = readScalar mem' path t.densify data := by
  simp only [readScalar, h.data, h.densified, Option.map_none]

theorem Datatype.Preserved.copyFaithful (functions : CopyFunctions) (hw : t.WellFormed)
    (hp : t.Plain) (h : t.Preserved) : CopyFaithful functions t := by
  intro mem source buffer _
  by_cases hn : t.densify.buffersize = 0
  · have he : doCopy functions t mem source buffer = .ok none := by simp [doCopy, hn]
    rw [he]
    intro path
    obtain ⟨o, o', s, hleaf, hl⟩ | hl := leads_or_nowhere path t hp.pointerFree
    · have hs := (h o o' s hleaf).1
      have hle := hleaf.le_densified
      refine (hl.readScalar_eq _ _ _ _).mpr ⟨hs, fun i hi => ?_⟩
      omega
    · exact hl.readScalar_eq _ _ _ _
  · obtain ⟨mem', he, hc⟩ := doCopy_spec functions hw hp hn mem source buffer
    rw [he]
    intro path
    obtain ⟨o, o', s, hleaf, hl⟩ | hl := leads_or_nowhere path t hp.pointerFree
    · obtain ⟨hs, hcopied⟩ := h o o' s hleaf
      refine (hl.readScalar_eq _ _ _ _).mpr ⟨hs, fun i hi => ?_⟩
      exact (hc.hit _ _ ⟨o' + i, o + i, hcopied i hi, by omega, by omega⟩).symm
    · exact hl.readScalar_eq _ _ _ _

theorem CopyFaithful.preserved (functions : CopyFunctions) (hw : t.WellFormed) (hp : t.Plain)
    (h : CopyFaithful functions t) : t.Preserved := by
  intro o o' s hleaf
  obtain ⟨path, hl⟩ := hleaf.exists_path hw
  by_cases hn : t.densify.buffersize = 0
  · have he : ∀ mem source buffer, doCopy functions t mem source buffer = .ok none := by
      intro mem source buffer
      simp [doCopy, hn]
    have hread := h (fun _ => 0) 0 t.buffersize (.inl (by omega))
    rw [he] at hread
    have hs := ((hl.readScalar_eq _ _ _ _).mp (hread path)).1
    have hle := hleaf.le_densified
    exact ⟨hs, fun i hi => by omega⟩
  · -- The byte at hand is the only one in memory that is not zero.
    have hread : ∀ i, s.size = s.denseSize ∧ (i < s.size → t.Copied (o' + i) (o + i)) := by
      intro i
      let source := alignUp 1 t.alignment + o' + i + 1 +
        (1 + (t.densify.buffersize + (t.densify.alignment - 1)))
      let mem : Mem Byte := fun a => if a = source + o + i then 1 else 0
      obtain ⟨mem', he, hc⟩ := doCopy_spec functions hw hp hn mem source 1
      have hread := h mem source 1 (.inr (by omega))
      rw [he] at hread
      obtain ⟨hs, hbytes⟩ := (hl.readScalar_eq _ _ _ _).mp (hread path)
      refine ⟨hs, fun hi => ?_⟩
      have hone : mem' (alignUp 1 t.alignment + o' + i) = 1 := by
        rw [← hbytes i hi]
        simp [mem]
      by_contra hcop
      have hzero : mem' (alignUp 1 t.alignment + o' + i) = 0 := by
        by_cases hex : ∃ b, Placed (alignUp 1 t.alignment) source t.Copied
            (alignUp 1 t.alignment + o' + i) b
        · obtain ⟨b, hb⟩ := hex
          rw [hc.hit _ _ hb]
          obtain ⟨x, y, hxy, hx, rfl⟩ := hb
          obtain rfl : x = o' + i := by omega
          have hne : source + y ≠ source + o + i := by
            intro heq
            obtain rfl : y = o + i := by omega
            exact hcop hxy
          exact if_neg hne
        · rw [hc.miss _ (fun b hb => hex ⟨b, hb⟩)]
          exact if_neg (by omega)
      rw [hone] at hzero
      exact absurd hzero (by decide)
    exact ⟨(hread 0).1, fun i hi => (hread i).2 hi⟩

end Pdi.Datatypes
