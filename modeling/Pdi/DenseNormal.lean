import Pdi.Cells
import Pdi.Sizes

/-!
# Densified types

`densify` is a normal form: what it answers is dense and its own densified form.
For scalars whose size is a multiple of their alignment it has all its cells
aligned and apart, and the same scalars at the same paths as the type. The code computes
it modulo 2^64, so this holds of a densified form without a part of that size.

A dense type is not always laid out as its densified form. `dense` accepts members
that start before the place where the densified form has them.
-/
namespace Pdi.Datatypes

open Pdi.Align Pdi.Memory

/-! ## Densified types are dense and densified -/

variable {s : Scalar} {d a : Nat} {type : Datatype} {name : String} {rest : Members}

mutual
theorem Datatype.dense_densify : ∀ t : Datatype, t.densify.dense = true
  | .scalar s => by simp [Datatype.densify, Datatype.dense, Scalar.densify]
  | .array subtype _ _ _ _ => by simp [Datatype.densify, Datatype.dense, subtype.dense_densify]
  | .record members _ _ | .tuple members _ _ => by
    rw [Datatype.densify, Datatype.dense, Members.alignment_densify]
    exact members.denseIn_densify 0 (Nat.le_refl _)
  | .pointer _ _ _ _ => rfl

theorem Members.denseIn_densify {b a : Nat} : ∀ (ms : Members) (c : Nat),
    b ≤ paddedEnd (ms.densifiedEnd c) a → (ms.densify c).denseIn b a c = true
  | .nil, c, h => by
    simpa [Members.densify, Members.denseIn, Members.densifiedEnd] using h
  | .cons _ type _ rest, c, h => by
    have hrest := rest.denseIn_densify
      (alignUp c type.densify.alignment + type.densify.buffersize) h
    simp only [Members.densify, Members.denseIn, type.dense_densify, Nat.le_refl, decide_true,
      Bool.and_self, Bool.true_and]
    exact hrest
end

mutual
theorem Datatype.densify_densify : ∀ t : Datatype, t.densify.densify = t.densify
  | .scalar _ => rfl
  | .array subtype _ _ _ _ => by simp only [Datatype.densify, subtype.densify_densify]
  | .record members _ _ | .tuple members _ _ => by
    simp only [Datatype.densify, members.densify_densify, members.densifiedEnd_densify,
      Members.alignment_densify]
  | .pointer subtype _ _ _ => by simp only [Datatype.densify, subtype.densify_densify]

theorem Members.densify_densify :
    ∀ (ms : Members) (c : Nat), (ms.densify c).densify c = ms.densify c
  | .nil, _ => rfl
  | .cons _ type _ rest, c => by
    simp only [Members.densify, type.densify_densify, rest.densify_densify]

theorem Members.densifiedEnd_densify :
    ∀ (ms : Members) (c : Nat), (ms.densify c).densifiedEnd c = ms.densifiedEnd c
  | .nil, _ => rfl
  | .cons _ type _ rest, c => by
    simp only [Members.densify, Members.densifiedEnd, type.densify_densify,
      rest.densifiedEnd_densify]
end

/-! ## Regular types -/

mutual
/-- Scalars have no separate dense size, and their size is a positive multiple of
their alignment, which is a power of two. -/
def Datatype.Regular : Datatype → Prop
  | .scalar s => s.denseSize = s.size ∧ 0 < s.size ∧ s.align ∣ s.size
  | .array subtype _ _ _ _ => subtype.Regular
  | .record members _ _ => members.Regular
  | .tuple elements _ _ => elements.Regular
  | .pointer subtype _ _ _ => subtype.Regular

def Members.Regular : Members → Prop
  | .nil => True
  | .cons _ type _ rest => type.Regular ∧ rest.Regular
end

theorem Scalar.align_pow (h : 0 < s.size) : ∃ i, s.align = 2 ^ i := by
  obtain ⟨_, hzero, _⟩ | hpow := s.valid
  · omega
  · exact ispow2_eq_two_pow hpow

mutual
theorem Datatype.Regular.alignment_pow : ∀ {t : Datatype}, t.Regular → ∃ i, t.alignment = 2 ^ i
  | .scalar _, h => Scalar.align_pow h.2.1
  | .array subtype _ _ _ _, h => Datatype.Regular.alignment_pow (t := subtype) h
  | .record members _ _, h | .tuple members _ _, h => Members.Regular.alignment_pow (m := members) h
  | .pointer _ _ _ _, _ => ⟨3, rfl⟩

theorem Members.Regular.alignment_pow : ∀ {m : Members}, m.Regular → ∃ i, m.alignment = 2 ^ i
  | .nil, _ => ⟨0, rfl⟩
  | .cons _ _ _ _, h => max_two_pow h.1.alignment_pow h.2.alignment_pow
end

theorem Members.Regular.head_dvd (h : (Members.cons d type name rest).Regular) :
    type.alignment ∣ (Members.cons d type name rest).alignment :=
  two_pow_dvd_of_le h.1.alignment_pow (Members.Regular.alignment_pow h) (Nat.le_max_left _ _)

theorem Members.Regular.rest_dvd (h : (Members.cons d type name rest).Regular) :
    rest.alignment ∣ (Members.cons d type name rest).alignment :=
  two_pow_dvd_of_le h.2.alignment_pow (Members.Regular.alignment_pow h)
    (Nat.le_max_right _ _)

/-- A record that has a cell ends at a multiple of its alignment. -/
theorem dvd_paddedEnd (ha : 0 < a) (hd : 0 < d) : a ∣ paddedEnd d a := by
  have hle := le_alignUp d a
  rw [paddedEnd, Nat.max_eq_right (by omega)]
  exact dvd_alignUp d ha

theorem Tidy.end_pos {lo hi : Nat} {cells : List Cell} (h : Tidy lo hi a cells)
    (hcells : cells ≠ []) : 0 < hi := by
  obtain ⟨c, hc⟩ := List.exists_mem_of_ne_nil cells hcells
  have hpos := h.nonempty c hc
  have hle := h.upper c hc
  omega

mutual
theorem Datatype.Regular.tidy : ∀ {t : Datatype}, t.Regular →
    Tidy 0 t.densify.buffersize t.alignment t.densify.cells ∧
      (t.densify.cells ≠ [] → t.alignment ∣ t.densify.buffersize)
  | .scalar s, h => by
    have hsize : (Datatype.scalar s).densify.buffersize = s.size := h.1
    have hpos : 0 < (Datatype.scalar s).densify.buffersize := by
      rw [hsize]
      exact h.2.1
    refine ⟨Tidy.single (c := ⟨0, (Datatype.scalar s).densify⟩) hpos rfl, fun _ => ?_⟩
    rw [hsize]
    exact h.2.2
  | .array subtype _ _ subsize _, h => by
    obtain ⟨htidy, hwhole⟩ := Datatype.Regular.tidy (t := subtype) h
    refine ⟨htidy.elements hwhole subsize, fun hcells => ?_⟩
    have hsub : subtype.densify.cells ≠ [] := by
      intro hempty
      refine hcells (List.flatMap_eq_nil_iff.mpr fun k _ => ?_)
      rw [hempty]
      rfl
    exact (hwhole hsub).mul_left subsize
  | .record members _ _, h | .tuple members _ _, h => by
    have htidy := Members.Regular.tidy (m := members) h 0
    refine ⟨htidy.weaken (Nat.le_refl _) (le_paddedEnd _ _) (Nat.dvd_refl _), fun hcells => ?_⟩
    exact dvd_paddedEnd members.alignment_pos (htidy.end_pos hcells)
  | .pointer subtype copy destroy attributes, _ =>
    ⟨Tidy.single (c := ⟨0, (Datatype.pointer subtype copy destroy attributes).densify⟩)
      (Nat.succ_pos 7) rfl, fun _ => Nat.dvd_refl _⟩

theorem Members.Regular.tidy : ∀ {m : Members}, m.Regular → ∀ c,
    Tidy c (m.densifiedEnd c) m.alignment (m.densify c).cells
  | .nil, _, c => .nil c c 1
  | .cons d type name rest, h, c => by
    have halign := type.alignment_densify
    have hle := le_alignUp c type.alignment
    have hend := rest.le_densifiedEnd (alignUp c type.alignment + type.densify.buffersize)
    have hhead := (h.1.tidy.1.shift (dvd_alignUp c (h.1.alignment_pow.elim fun i hi =>
      hi ▸ Nat.two_pow_pos i))).weaken (Nat.le_trans hle (Nat.le_add_right _ _)) (Nat.le_refl _)
      (Members.Regular.head_dvd h)
    have hrest := (h.2.tidy
      (alignUp c type.alignment + type.densify.buffersize)).weaken (Nat.le_refl _) (Nat.le_refl _)
      (Members.Regular.rest_dvd h)
    simp only [Members.densify, Members.cells, Members.densifiedEnd, halign]
    exact hhead.append hrest (by omega) hend
end

/-! ## The same data at the same paths -/

theorem Scalar.densify_eq (h : s.denseSize = s.size) : s.densify = s := by
  cases s
  simp only [Scalar.densify, Scalar.mk.injEq] at h ⊢
  simp [h]

mutual
theorem Datatype.Regular.datasize_densify : ∀ {t : Datatype}, t.Regular →
    t.densify.datasize = t.datasize
  | .scalar _, h => h.1
  | .array subtype _ _ _ _, h => by
    simp only [Datatype.densify, Datatype.datasize,
      Datatype.Regular.datasize_densify (t := subtype) h]
  | .record members _ _, h => Members.Regular.datasize_densify (m := members) h 0
  | .tuple elements _ _, h => Members.Regular.datasize_densify (m := elements) h 0
  | .pointer _ _ _ _, _ => rfl

theorem Members.Regular.datasize_densify : ∀ {m : Members}, m.Regular → ∀ c,
    (m.densify c).datasize = m.datasize
  | .nil, _, _ => rfl
  | .cons _ _ _ _, h, _ => by
    simp only [Members.densify, Members.datasize, h.1.datasize_densify,
      h.2.datasize_densify]
end

mutual
theorem Datatype.Regular.targets : ∀ {t : Datatype}, t.Regular → ∀ r ∈ t.targets, r.Regular
  | .scalar _, _ => List.forall_mem_nil _
  | .array subtype _ _ _ _, h => Datatype.Regular.targets (t := subtype) h
  | .record members _ _, h | .tuple members _ _, h => Members.Regular.targets (m := members) h
  | .pointer subtype _ _ _, h =>
    List.forall_mem_cons.mpr ⟨h, Datatype.Regular.targets (t := subtype) h⟩

theorem Members.Regular.targets : ∀ {m : Members}, m.Regular → ∀ r ∈ m.targets, r.Regular
  | .nil, _ => List.forall_mem_nil _
  | .cons _ _ _ _, h => List.forall_mem_append.mpr ⟨h.1.targets, h.2.targets⟩
end

/-- What is found in a type and in its densified form: nothing in both, or a type and
its densified form. -/
inductive Found : Option (Nat × Datatype) → Option (Nat × Datatype) → Prop
  | none : Found none none
  | some (d d' : Nat) {t : Datatype} : t.Regular → Found (some (d', t.densify)) (some (d, t))

theorem Members.Regular.found_lookup : ∀ {m : Members}, m.Regular → ∀ c step,
    Found ((m.densify c).lookup step) (m.lookup step)
  | .nil, _, _, step => by cases step <;> exact .none
  | .cons _ _ n _, h, _, step => by
    rw [Members.densify]
    obtain hfirst | ⟨next, hnext⟩ := Members.lookup_cons step n
    · rw [hfirst, hfirst]
      exact .some _ _ h.1
    · rw [hnext, hnext]
      exact h.2.found_lookup _ next

/-- Two accesses that both fail, or that answer a type and its densified form. -/
inductive Accessed : Except Failure (Nat × Datatype) → Except Failure (Nat × Datatype) → Prop
  | error (e' e : Failure) : Accessed (.error e') (.error e)
  | ok (b' b : Nat) {t : Datatype} : t.Regular → Accessed (.ok (b', t.densify)) (.ok (b, t))

theorem Datatype.Regular.accessed_index (i : Nat) (mem mem' : Mem Byte) :
    ∀ {t : Datatype} (a a' : Nat), t.Regular →
    Accessed (t.densify.index i a mem) (t.index i a' mem')
  | .scalar _, _, _, _ | .record _ _ _, _, _, _ => .error _ _
  | .array subtype _ _ subsize _, _, _, h => by
    simp only [Datatype.densify, Datatype.index]
    split
    · exact .ok _ _ h
    · exact .error _ _
  | .tuple elements _ _, _, _, h => by
    simp only [Datatype.densify, Datatype.index]
    have hfound := Members.Regular.found_lookup (m := elements) h 0 (.index i)
    simp only [Members.lookup] at hfound
    generalize (elements.densify 0).get? i = x', elements.get? i = x at hfound
    cases hfound with
    | none => exact .error _ _
    | some _ _ hreg => exact .ok _ _ hreg
  | .pointer subtype _ _ _, _, _, h =>
    Datatype.Regular.accessed_index i mem mem' (t := subtype) _ _ h

theorem Datatype.Regular.accessed_member (name : String) (mem mem' : Mem Byte) :
    ∀ {t : Datatype} (a a' : Nat), t.Regular →
      Accessed (t.densify.member name a mem) (t.member name a' mem')
  | .scalar _, _, _, _ | .array _ _ _ _ _, _, _, _ | .tuple _ _ _, _, _, _ => .error _ _
  | .record members _ _, _, _, h => by
    simp only [Datatype.densify, Datatype.member]
    have hfound := Members.Regular.found_lookup (m := members) h 0 (.member name)
    simp only [Members.lookup] at hfound
    generalize (members.densify 0).find? name = x', members.find? name = x at hfound
    cases hfound with
    | none => exact .error _ _
    | some _ _ hreg => exact .ok _ _ hreg
  | .pointer subtype _ _ _, _, _, h =>
    Datatype.Regular.accessed_member name mem mem' (t := subtype) _ _ h

theorem Datatype.Regular.accessed_step {t : Datatype} (h : t.Regular) (step : Step)
    (mem mem' : Mem Byte) (a a' : Nat) :
    Accessed (t.densify.step step a mem) (t.step step a' mem') := by
  cases step with
  | index i => exact h.accessed_index i mem mem' a a'
  | member name => exact h.accessed_member name mem mem' a a'

theorem Datatype.Regular.target_densify (mem mem' : Mem Byte) : ∀ {t : Datatype} (a a' : Nat),
    t.Regular → (target t.densify a mem).map Prod.snd = (target t a' mem').map Prod.snd
  | .scalar _, _, _, h => congrArg some (Scalar.densify_eq h.1)
  | .array _ _ _ _ _, _, _, _ | .record _ _ _, _, _, _ | .tuple _ _ _, _, _, _ => rfl
  | .pointer subtype _ _ _, _, _, h =>
    Datatype.Regular.target_densify mem mem' (t := subtype) _ _ h

/-- A path leads to the same scalar in the type and in its densified form. -/
theorem Datatype.Regular.locate_densify (mem mem' : Mem Byte) (path : Path) :
    ∀ {t : Datatype}, t.Regular → ∀ a a',
      (locate mem path t.densify a).map Prod.snd = (locate mem' path t a').map Prod.snd := by
  induction path with
  | nil => exact fun h a a' => h.target_densify mem mem' a a'
  | cons step path ih =>
    intro t h a a'
    have haccessed := h.accessed_step step mem mem' a a'
    rw [locate, locate]
    revert haccessed
    generalize t.densify.step step a mem = x'
    generalize t.step step a' mem' = x
    rintro ⟨⟩
    case error => rfl
    case ok hreg => exact ih hreg _ _

/-! ## The normal form -/

mutual
theorem dense_densify_measured : ∀ {t : Datatype}, Machine.Measured t.densify →
    Machine.dense t.densify = true
  | .scalar s, _ => by simp [Datatype.densify, Machine.dense, Scalar.densify]
  | .array subtype _ _ _ _, h => by
    simp [Datatype.densify, Machine.dense, dense_densify_measured (t := subtype) h.2]
  | .record members _ _, h | .tuple members _ _, h => by
    obtain ⟨hsize, hmembers⟩ := h
    obtain ⟨hlayOut, hend⟩ := Machine.densified_eq hmembers
    rw [hend] at hsize
    obtain ⟨hmachine, hpadded⟩ := Machine.padded_eq hsize
    rw [Datatype.densify, Machine.dense, Members.alignment_densify, hlayOut, hend, ← hmachine,
      ← hpadded]
    exact Machine.denseIn_layOut (dense_densified_measured hmembers) (Nat.le_refl _)
  | .pointer _ _ _ _, _ => rfl

theorem dense_densified_measured :
    ∀ {ms : Members} {c : Nat}, Machine.MembersMeasured (ms.densify c) →
    ∀ x ∈ Machine.densified ms, Machine.dense x.2 = true
  | .nil, _, _ => List.forall_mem_nil _
  | .cons _ type _ rest, _, h => by
    rw [Machine.densified, List.forall_mem_cons, Machine.densify_eq h.1]
    exact ⟨dense_densify_measured h.1, dense_densified_measured h.2⟩
end

mutual
theorem measured_targets : ∀ {t : Datatype}, Machine.Measured t →
    ∀ r ∈ t.targets, Machine.Measured r
  | .scalar _, _ => List.forall_mem_nil _
  | .array subtype _ _ _ _, h => measured_targets (t := subtype) h.2
  | .record _ _ _, h | .tuple _ _ _, h => measured_targets_members h.2
  | .pointer subtype _ _ _, h =>
    List.forall_mem_cons.mpr ⟨h, measured_targets (t := subtype) h⟩

theorem measured_targets_members : ∀ {ms : Members}, Machine.MembersMeasured ms →
    ∀ r ∈ ms.targets, Machine.Measured r
  | .nil, _ => List.forall_mem_nil _
  | .cons _ _ _ _, h =>
    List.forall_mem_append.mpr ⟨measured_targets h.1, measured_targets_members h.2⟩
end

theorem densify_normal_form {t : Datatype} (h : t.Regular) (hsize : Machine.Measured t.densify) :
    let dense := Machine.densify t
    Machine.dense dense = true ∧ Machine.densify dense = dense ∧
      dense.alignment = t.alignment ∧ Machine.datasize dense = Machine.datasize t ∧
      (∀ path mem mem' a a',
        (locate mem path dense a).map Prod.snd = (locate mem' path t a').map Prod.snd) ∧
      (∀ path mem a x s, locate mem path dense a = some (x, s) → dense.HasCell a x s) ∧
      ∀ r ∈ dense :: dense.targets,
        (∀ c ∈ r.cells, c.type.alignment ∣ c.offset ∧
          c.offset + c.type.buffersize ≤ Machine.buffersize r) ∧
        (r.cells.Pairwise fun c c' => c.offset + c.type.buffersize ≤ c'.offset) ∧
        Machine.datasize r ≤ Machine.buffersize r := by
  rw [Machine.densify_eq hsize]
  have hagain : Machine.densify t.densify = t.densify := by
    have htwice : Machine.Measured t.densify.densify := by rwa [t.densify_densify]
    rw [Machine.densify_eq htwice, t.densify_densify]
  have hdatasize : Machine.datasize t.densify = Machine.datasize t := by
    rw [Machine.datasize_eq, Machine.datasize_eq, h.datasize_densify]
  refine ⟨dense_densify_measured hsize, hagain, t.alignment_densify, hdatasize,
    fun path mem mem' => h.locate_densify mem mem' path,
    fun path mem a x s => hasCell_of_locate path, fun r hr => ?_⟩
  have hmeasured : Machine.Measured r :=
    List.forall_mem_cons.mpr ⟨hsize, measured_targets hsize⟩ r hr
  have hdensified : ∃ u : Datatype, u.Regular ∧ r = u.densify := by
    rw [t.targets_densify, ← List.map_cons] at hr
    obtain ⟨u, hu, rfl⟩ := List.mem_map.mp hr
    exact ⟨u, List.forall_mem_cons.mpr ⟨h, h.targets⟩ u hu, rfl⟩
  obtain ⟨u, hu, rfl⟩ := hdensified
  have htidy := hu.tidy.1
  rw [Machine.buffersize_of_measured hmeasured]
  refine ⟨fun c hc => ⟨htidy.aligned c hc, htidy.upper c hc⟩, htidy.ordered, ?_⟩
  have hsized := Datatype.sized_of_dense u.dense_densify
  have hle := Datatype.datasize_le_densify hsized
  rw [u.densify_densify] at hle
  rw [Machine.datasize_eq]
  exact (Machine.wrap_le _).trans hle

/-- A sparse window of pairs of a number and a pointer, behind a byte. -/
def sparseRows : Datatype :=
  .record (.cons 8 typeForInt8 "flag" (.cons 16 (.array (.tuple
    (.cons 4 typeForInt32 "" (.cons 16 (.pointer typeForInt64 none none []) "" .nil)) 24 [])
    5 1 3 []) "rows" .nil)) 160 []

theorem densify_normal_form_sparseRows :
    sparseRows.Regular ∧ Machine.dense sparseRows = false ∧ Machine.Measured sparseRows.densify ∧
      Machine.buffersize (Machine.densify sparseRows) = 56 ∧
      Machine.dense (Machine.densify sparseRows) = true ∧
      Machine.densify (Machine.densify sparseRows) = Machine.densify sparseRows := by
  have hregular : sparseRows.Regular := by
    simp [sparseRows, Datatype.Regular, Members.Regular, typeForInt8, typeForInt32, typeForInt64,
      Scalar.make]
  have hsize : Machine.Measured sparseRows.densify := by
    simp [sparseRows, Datatype.densify, Members.densify, Members.densifiedEnd, Scalar.densify,
      Machine.Measured, Machine.MembersMeasured, typeForInt8, typeForInt32, typeForInt64,
      Scalar.make, paddedEnd, alignUp, padding, Datatype.buffersize, Datatype.alignment,
      Members.alignment, pointerSize]
  have hnormal := densify_normal_form hregular hsize
  exact ⟨hregular, by decide, hsize, by decide, hnormal.1, hnormal.2.1⟩

/-- An array of 2^64 bytes, and a byte that is put in the same place. -/
theorem densify_overlaps :
    let t : Datatype := .record (.cons 0 (.array typeForInt64 (2 ^ 61) 0 (2 ^ 61) []) "a"
      (.cons 0 typeForInt8 "b" .nil)) 8 []
    t.Regular ∧ Machine.densify t = t := by
  refine ⟨?_, by decide⟩
  simp [Datatype.Regular, Members.Regular, typeForInt8, typeForInt64, Scalar.make]

/-! ## Dense types and their densified form -/

/-- Every cell is where the densified form has it, in a buffer of the same size. -/
def Datatype.SameLayout (t : Datatype) : Prop :=
  t.cells.map Cell.offset = t.densify.cells.map Cell.offset ∧
    t.buffersize = t.densify.buffersize

/-- The bytes of a type whose records are padded to their alignment, as C pads them. -/
def Datatype.padded : Datatype → Nat
  | .scalar s => s.denseSize
  | .array subtype size _ _ _ => size * subtype.padded
  | .record members n _ => alignUp n members.alignment
  | .tuple elements n _ => alignUp n elements.alignment
  | .pointer _ _ _ _ => pointerSize

mutual
/-- The layout of a C compiler: members come in order, each at a multiple of its alignment
behind the padded end of the one before. Arrays of more than one element have elements that
are padded, and no record is without a byte. -/
def Datatype.Natural : Datatype → Prop
  | .scalar _ => True
  | .array subtype size _ _ _ =>
    subtype.Natural ∧ (1 < size → subtype.buffersize = subtype.padded)
  | .record members n _ => members.Natural 0 ∧ 0 < n
  | .tuple elements n _ => elements.Natural 0 ∧ 0 < n
  | .pointer _ _ _ _ => True

def Members.Natural : Members → Nat → Prop
  | .nil, _ => True
  | .cons d type _ rest, c =>
    (c ≤ d ∧ type.alignment ∣ d ∧ type.Natural) ∧ rest.Natural (d + type.padded)
end

theorem Datatype.le_padded (t : Datatype) : t.buffersize ≤ t.padded := by
  cases t with
  | scalar | pointer => exact Nat.le_refl _
  | array subtype size => exact Nat.mul_le_mul_left size subtype.le_padded
  | record | tuple => exact le_alignUp _ _

/-- The padding does not go beyond the next multiple of the alignment. -/
theorem Datatype.Natural.padded_le : ∀ {t : Datatype}, t.Natural →
    t.padded ≤ alignUp t.buffersize t.alignment
  | .scalar _, _ | .pointer _ _ _ _, _ => le_alignUp _ _
  | .record _ _ _, _ | .tuple _ _ _, _ => Nat.le_refl _
  | .array subtype size _ _ _, h => by
    simp only [Datatype.padded, Datatype.buffersize, Datatype.alignment]
    obtain hsize | rfl | hsize : size = 0 ∨ 1 = size ∨ 1 < size := by omega
    · simp [hsize]
    · simpa using h.1.padded_le
    · rw [← h.2 hsize]
      exact le_alignUp _ _

/-- The offsets of cells that lie `d` bytes further on. -/
theorem offsets_shift (d : Nat) (cells : List Cell) :
    (cells.map (Cell.shift d)).map Cell.offset = (cells.map Cell.offset).map (d + ·) := by
  simp [Cell.shift]

section Sufficient

variable {n c c' c'' : Nat}

/-- Where `dense` expects a member at most, and the layout of C at least, `densify` puts it. -/
theorem place_eq (hpos : 0 < a) (hc : c ≤ c') (hc' : c' ≤ c'') (hdense : d ≤ alignUp c a)
    (hafter : c'' ≤ d) (hdvd : a ∣ d) : d = alignUp c' a := by
  have hmono := alignUp_mono hpos hc
  have hleast := alignUp_le hpos (hc'.trans hafter) hdvd
  omega

mutual
theorem Datatype.Natural.offsets_eq : ∀ {t : Datatype}, t.WellFormed → t.dense = true →
    t.Natural → t.cells.map Cell.offset = t.densify.cells.map Cell.offset ∧
      t.densify.buffersize ≤ t.padded
  | .scalar _, _, _, _ | .pointer _ _ _ _, _, _, _ => ⟨rfl, Nat.le_refl _⟩
  | .array subtype size start subsize _, hw, hd, h => by
    simp only [Datatype.dense, Bool.and_eq_true, beq_iff_eq] at hd
    obtain ⟨hoffsets, hle⟩ := h.1.offsets_eq hw.1 hd.2
    have hge := Datatype.buffersize_le_densify hw.1 hd.2
    have hstart : start = 0 := by have := hw.2; omega
    simp only [Datatype.densify, Datatype.cells, Datatype.buffersize, Datatype.padded, ← hd.1,
      hstart]
    refine ⟨?_, Nat.mul_le_mul_left size hle⟩
    rw [List.map_flatMap, List.map_flatMap]
    refine List.flatMap_congr fun k hk => ?_
    rw [List.mem_range] at hk
    have hplace : (0 + k) * subtype.buffersize = (0 + k) * subtype.densify.buffersize := by
      obtain rfl | hsize : k = 0 ∨ 1 < size := by omega
      · simp
      · rw [show subtype.buffersize = subtype.densify.buffersize by have := h.2 hsize; omega]
    rw [offsets_shift, offsets_shift, hoffsets, hplace]
  | .record members n _, ⟨hw, _⟩, hd, h | .tuple members n _, hw, hd, h => by
    have ha := members.alignment_pos
    obtain ⟨hoffsets, hend⟩ := Members.Natural.offsets_eq hw hd (Nat.le_refl 0) (Nat.le_refl 0)
      (Nat.dvd_refl members.alignment) ha h.1
    refine ⟨hoffsets, ?_⟩
    have hle := alignUp_le ha (hend.trans (Nat.max_le.mpr ⟨Nat.zero_le _, Nat.le_refl _⟩))
      (dvd_alignUp n ha)
    have hn := le_alignUp n members.alignment
    have hpos := h.2
    simp only [Datatype.densify, Datatype.buffersize, Datatype.padded, paddedEnd]
    omega

theorem Members.Natural.offsets_eq {A : Nat} : ∀ {m : Members} {n b a c c' c'' : Nat},
    m.WellFormed n → m.denseIn b a c = true → c ≤ c' → c' ≤ c'' → m.alignment ∣ A → 0 < A →
      m.Natural c'' → m.cells.map Cell.offset = (m.densify c').cells.map Cell.offset ∧
        m.densifiedEnd c' ≤ max c' (alignUp n A)
  | .nil, _, _, _, _, _, _, _, _, _, _, _, _, _ => ⟨rfl, Nat.le_max_left _ _⟩
  | .cons d type _ rest, n, b, a, c, c', c'', hw, hd, hc, hc', hA, hpos, h => by
    simp only [Members.denseIn, Bool.and_eq_true, decide_eq_true_eq] at hd
    obtain ⟨⟨hafter, hdvd, htype⟩, hrest⟩ := h
    have ha := hw.1.alignment_pos
    have hplace := place_eq ha hc hc' hd.1.2 hafter hdvd
    have hmono := alignUp_mono ha hc
    have hge := Datatype.buffersize_le_densify hw.1 hd.1.1
    obtain ⟨hoffsets, hle⟩ := htype.offsets_eq hw.1 hd.1.1
    have hfrom : alignUp c type.alignment + type.buffersize ≤ d + type.densify.buffersize := by
      omega
    have hto : d + type.densify.buffersize ≤ d + type.padded := by omega
    obtain ⟨hothers, hend⟩ := hrest.offsets_eq hw.2.2.2 hd.2 hfrom hto
      (hw.rest_dvd.trans hA) hpos
    simp only [Members.cells, Members.densify, Members.densifiedEnd, List.map_append, offsets_shift,
      Datatype.alignment_densify, ← hplace, hoffsets, hothers]
    refine ⟨trivial, hend.trans (Nat.max_le.mpr ⟨?_, Nat.le_max_right _ _⟩)⟩
    -- The padded end of the member is at most the padded end of the record.
    have hup : d + type.padded ≤ alignUp (d + type.buffersize) type.alignment := by
      rw [alignUp_add hdvd]
      exact Nat.add_le_add_left htype.padded_le d
    have hinside := alignUp_le (q := alignUp n A) ha (hw.2.1.trans (le_alignUp n A))
      ((hw.head_dvd.trans hA).trans (dvd_alignUp n hpos))
    omega
end

end Sufficient

/-! The other direction is about types in which everything takes memory. The first cell of
such a type is at its start, so that a member whose cells are at their places is at its own. -/

/-- There is a first cell, and it is at the start. -/
def Starts (cells : List Cell) : Prop := ∃ c cs, cells = c :: cs ∧ c.offset = 0

theorem Starts.shift_zero {cells rest : List Cell} (h : Starts cells) (hd : d = 0) :
    Starts (cells.map (Cell.shift d) ++ rest) := by
  obtain ⟨c, cs, rfl, hc⟩ := h
  exact ⟨c.shift d, _, rfl, by rw [Cell.shift, hc, hd]⟩

theorem Starts.elements {cells : List Cell} (h : Starts cells) {f : Nat → Nat} (hf : f 0 = 0)
    {n : Nat} (hn : n ≠ 0) :
    Starts ((List.range n).flatMap fun k => cells.map (Cell.shift (f k))) := by
  obtain ⟨n, rfl⟩ := Nat.exists_eq_succ_of_ne_zero hn
  rw [List.range_succ_eq_map, List.flatMap_cons]
  exact h.shift_zero hf

/-- Cells that are at the same places have the same start, and then the same offsets. -/
theorem Starts.eq_of_shift {cells cells' : List Cell} {d d' : Nat} (h : Starts cells)
    (h' : Starts cells')
    (heq : (cells.map Cell.offset).map (d + ·) = (cells'.map Cell.offset).map (d' + ·)) :
    d = d' ∧ cells.map Cell.offset = cells'.map Cell.offset := by
  obtain ⟨c, cs, rfl, hc⟩ := h
  obtain ⟨c', cs', rfl, hc'⟩ := h'
  have hhead := (List.cons.inj heq).1
  obtain rfl : d = d' := by
    simp only [hc, hc'] at hhead
    omega
  exact ⟨rfl, List.map_injective_iff.mpr (add_right_injective d) heq⟩

mutual
theorem Datatype.Occupied.starts : ∀ {t : Datatype}, t.Occupied → t.WellFormed → t.dense = true →
    Starts t.cells ∧ Starts t.densify.cells
  | .scalar _, _, _, _ | .pointer _ _ _ _, _, _, _ => ⟨⟨_, _, rfl, rfl⟩, ⟨_, _, rfl, rfl⟩⟩
  | .array _ size start subsize _, h, hw, hd => by
    simp only [Datatype.dense, Bool.and_eq_true, beq_iff_eq] at hd
    obtain ⟨hcells, hdense⟩ := h.1.starts hw.1 hd.2
    have hstart : start = 0 := by have := hw.2; omega
    exact ⟨hcells.elements (by simp [hstart]) h.2, hdense.elements (by simp) h.2⟩
  | .record _ _ _, h, ⟨hw, _⟩, hd | .tuple _ _ _, h, hw, hd => h.2.starts h.1 hw hd

theorem Members.Occupied.starts {n b a : Nat} : ∀ {m : Members}, m.Occupied → m ≠ .nil →
    m.WellFormed n → m.denseIn b a 0 = true → Starts m.cells ∧ Starts (m.densify 0).cells
  | .nil, _, hne, _, _ => absurd rfl hne
  | .cons d type _ _, h, _, hw, hd => by
    simp only [Members.denseIn, Bool.and_eq_true, decide_eq_true_eq, alignUp_zero] at hd
    obtain ⟨hcells, hdense⟩ := h.1.starts hw.1 hd.1.1
    exact ⟨hcells.shift_zero (by omega), hdense.shift_zero (alignUp_zero _)⟩
end

theorem flatMap_range_eq_iff {α : Type} {f g : Nat → List α}
    (hlength : ∀ k, (f k).length = (g k).length) (n : Nat) :
    (List.range n).flatMap f = (List.range n).flatMap g ↔ ∀ k < n, f k = g k := by
  constructor
  · induction n with
    | zero => simp
    | succ n ih =>
      intro h k hk
      rw [List.range_succ, List.flatMap_append, List.flatMap_append] at h
      obtain ⟨hinit, hlast⟩ := List.append_inj' h (by simp [hlength])
      obtain hk | rfl := Nat.lt_succ_iff_lt_or_eq.mp hk
      · exact ih hinit k hk
      · simpa using hlast
  · intro h
    exact List.flatMap_congr fun k hk => h k (List.mem_range.mp hk)

mutual
theorem Datatype.length_cells_densify : ∀ t : Datatype, t.densify.cells.length = t.cells.length
  | .scalar _ | .pointer _ _ _ _ => rfl
  | .array subtype _ _ _ _ => by
    simp [Datatype.densify, Datatype.cells, List.length_flatMap, subtype.length_cells_densify]
  | .record members _ _ | .tuple members _ _ => members.length_cells_densify 0

theorem Members.length_cells_densify :
    ∀ (ms : Members) (c : Nat), (ms.densify c).cells.length = ms.cells.length
  | .nil, _ => rfl
  | .cons _ type _ rest, c => by
    simp [Members.densify, Members.cells, type.length_cells_densify, rest.length_cells_densify]
end

theorem Datatype.Occupied.densify_pos : ∀ {t : Datatype}, t.Occupied → 0 < t.densify.buffersize
  | .scalar s, h => by
    change 0 < s.denseSize
    rw [h.2]
    exact h.1
  | .array _ _ _ _ _, h => Nat.mul_pos (Nat.pos_of_ne_zero h.2) h.1.densify_pos
  | .record _ _ _, _ | .tuple _ _ _, _ => Nat.le_max_left _ _
  | .pointer _ _ _ _, _ => Nat.succ_pos 7

mutual
theorem Datatype.Occupied.pos : ∀ {t : Datatype}, t.Occupied → t.WellFormed → 0 < t.buffersize
  | .scalar _, h, _ => h.densify_pos
  | .array _ size _ _ _, h, hw => by
    have hsize : 0 < size := by have := hw.2; have := h.2; omega
    exact Nat.mul_pos hsize (h.1.pos hw.1)
  | .record _ _ _, h, hw => h.2.pos h.1 hw.1
  | .tuple _ _ _, h, hw => h.2.pos h.1 hw
  | .pointer _ _ _ _, _, _ => Nat.succ_pos 7

theorem Members.Occupied.pos {n : Nat} : ∀ {m : Members}, m.Occupied → m ≠ .nil → m.WellFormed n →
    0 < n
  | .nil, _, hne, _ => absurd rfl hne
  | .cons _ _ _ _, h, _, hw => by
    have htype := h.1.pos hw.1
    have hinside := hw.2.1
    omega
end

/-- The padded size is at most what `densify` gives. -/
theorem Datatype.Occupied.padded_le : ∀ {t : Datatype}, t.Occupied → t.WellFormed →
    t.dense = true → t.padded ≤ t.densify.buffersize
  | .scalar _, _, _, _ | .pointer _ _ _ _, _, _, _ => Nat.le_refl _
  | .array _ size _ _ _, h, hw, hd => by
    simp only [Datatype.dense, Bool.and_eq_true, beq_iff_eq] at hd
    simp only [Datatype.padded, Datatype.densify, Datatype.buffersize, ← hd.1]
    exact Nat.mul_le_mul_left size (h.1.padded_le hw.1 hd.2)
  | .record .nil _ _, h, _, _ | .tuple .nil _ _, h, _, _ => absurd rfl h.1
  | .record (.cons d type name rest) n as, h, hw, hd
  | .tuple (.cons d type name rest) n as, h, hw, hd => by
    have hpos := h.2.1.densify_pos
    have hend := rest.le_densifiedEnd (alignUp 0 type.densify.alignment + type.densify.buffersize)
    have hle := Datatype.buffersize_le_densify hw hd
    refine alignUp_le (Members.alignment_pos _) hle (dvd_paddedEnd (Members.alignment_pos _) ?_)
    rw [Members.densifiedEnd]
    omega

mutual
theorem Datatype.Occupied.natural : ∀ {t : Datatype}, t.Occupied → t.WellFormed → t.dense = true →
    t.cells.map Cell.offset = t.densify.cells.map Cell.offset → t.Natural
  | .scalar _, _, _, _, _ | .pointer _ _ _ _, _, _, _, _ => trivial
  | .array subtype size start subsize _, h, hw, hd, heq => by
    simp only [Datatype.dense, Bool.and_eq_true, beq_iff_eq] at hd
    have hstart : start = 0 := by have := hw.2; omega
    obtain ⟨hcells, hdense⟩ := h.1.starts hw.1 hd.2
    simp only [Datatype.densify, Datatype.cells, List.map_flatMap] at heq
    rw [flatMap_range_eq_iff (by simp [subtype.length_cells_densify])] at heq
    simp only [offsets_shift, hstart] at heq
    have hfirst := hcells.eq_of_shift hdense (heq 0 (Nat.pos_of_ne_zero h.2))
    refine ⟨h.1.natural hw.1 hd.2 hfirst.2, fun hsize => ?_⟩
    have hsecond := (hcells.eq_of_shift hdense (heq 1 (by omega))).1
    have hle := subtype.le_padded
    have hge := h.1.padded_le hw.1 hd.2
    omega
  | .record _ _ _, h, ⟨hw, _⟩, hd, heq | .tuple _ _ _, h, hw, hd, heq =>
    ⟨h.2.natural hw hd (Nat.le_refl 0) (Nat.le_refl 0) heq, h.2.pos h.1 hw⟩

theorem Members.Occupied.natural : ∀ {m : Members} {n b a c c' c'' : Nat}, m.Occupied →
    m.WellFormed n → m.denseIn b a c = true → c ≤ c' → c'' ≤ c' →
      m.cells.map Cell.offset = (m.densify c').cells.map Cell.offset → m.Natural c''
  | .nil, _, _, _, _, _, _, _, _, _, _, _, _ => trivial
  | .cons d type _ rest, n, b, a, c, c', c'', h, hw, hd, hc, hc', heq => by
    simp only [Members.denseIn, Bool.and_eq_true, decide_eq_true_eq] at hd
    obtain ⟨hcells, hdense⟩ := h.1.starts hw.1 hd.1.1
    simp only [Members.cells, Members.densify, List.map_append, offsets_shift,
      Datatype.alignment_densify] at heq
    obtain ⟨hhead, htail⟩ := List.append_inj heq (by simp [type.length_cells_densify])
    obtain ⟨hplace, hoffsets⟩ := hcells.eq_of_shift hdense hhead
    have ha := hw.1.alignment_pos
    have hle := le_alignUp c' type.alignment
    have hmono := alignUp_mono ha hc
    have hsize := Datatype.buffersize_le_densify hw.1 hd.1.1
    have hpadded := h.1.padded_le hw.1 hd.1.1
    refine ⟨⟨by omega, ?_, h.1.natural hw.1 hd.1.1 hoffsets⟩, ?_⟩
    · rw [hplace]
      exact dvd_alignUp c' ha
    · exact h.2.natural hw.2.2.2 hd.2 (by omega) (by omega) htail
end

/-- A type that `dense` accepts is laid out as its densified form if it has the layout of C
with its last padding, and in a type in which everything takes memory only then. -/
theorem dense_licence_iff {t : Datatype} (hw : t.WellFormed) (hdense : t.dense = true) :
    (t.Natural ∧ t.buffersize = t.padded → t.SameLayout) ∧
      (t.Occupied → t.SameLayout → t.Natural ∧ t.buffersize = t.padded) := by
  have hge := Datatype.buffersize_le_densify hw hdense
  refine ⟨?_, ?_⟩
  · rintro ⟨hnatural, hsize⟩
    obtain ⟨hoffsets, hle⟩ := hnatural.offsets_eq hw hdense
    exact ⟨hoffsets, by omega⟩
  · rintro hoccupied ⟨hoffsets, hsize⟩
    have hle := t.le_padded
    have hpadded := hoccupied.padded_le hw hdense
    exact ⟨hoccupied.natural hw hdense hoffsets, by omega⟩

theorem dense_licence_alignedPair :
    let t : Datatype := .record (.cons 0 typeForInt8 "tag" (.cons 4 typeForInt32 "value" .nil)) 8 []
    t.dense = true ∧ t.SameLayout := by
  intro t
  have hw : t.WellFormed := by
    simp [t, Datatype.WellFormed, Members.WellFormed, Members.Apart, Members.DistinctNames,
      Members.HasName, typeForInt8, typeForInt32, Scalar.make, Datatype.buffersize]
  have hnatural : t.Natural :=
    ⟨⟨⟨Nat.le_refl 0, by decide, trivial⟩, ⟨by decide, by decide, trivial⟩, trivial⟩, by decide⟩
  exact ⟨by decide, (dense_licence_iff hw (by decide)).1 ⟨hnatural, by decide⟩⟩

/-- A byte and a number right behind it, as a packed structure has them. -/
def packedPair : Datatype :=
  .record (.cons 0 typeForInt8 "tag" (.cons 1 typeForInt32 "value" .nil)) 5 []

theorem packedPair_dense_moved :
    packedPair.WellFormed ∧ packedPair.Plain ∧ packedPair.dense = true ∧
      packedPair.cells.map Cell.offset = [0, 1] ∧
      packedPair.densify.cells.map Cell.offset = [0, 4] ∧
      packedPair.buffersize = 5 ∧ packedPair.densify.buffersize = 8 := by
  refine ⟨?_, ?_, by decide, by decide, by decide, rfl, by decide⟩
  · simp [packedPair, Datatype.WellFormed, Members.WellFormed, Members.Apart, Members.DistinctNames,
      Members.HasName, typeForInt8, typeForInt32, Scalar.make, Datatype.buffersize]
  · simp [packedPair, Datatype.Plain, Members.Plain, typeForInt8, typeForInt32, Scalar.make]

end Pdi.Datatypes
