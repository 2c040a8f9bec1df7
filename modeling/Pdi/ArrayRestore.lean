import Pdi.DenseRestore
import Pdi.NestedArrays

/-!
# Restoring a window of an array

An array of any rank whose window is filled from a dense buffer. Two cursors move
through the elements of the window: the source by the data size of a row, the
destination by the size that the restore of a row returns, rounded up to the alignment
of the scalar.

Which byte is copied where is computed from these distances, without any memory. The
window is filled as it should be exactly when every element is restored to its address
and takes no more bytes than it has there.
-/
namespace Pdi.Datatypes

open Pdi.Align Pdi.Memory Pdi.RowMajor

variable {source j dest : Nat} {s : Scalar} {ds : List Extent} {index : List Nat}

/-- Arrays of these extents around a scalar. -/
abbrev Scalar.nest (s : Scalar) (ds : List Extent) : Datatype := (Datatype.scalar s).nest ds

/-- Another byte of the result depends on the byte at `y`. -/
def Reads (copy : Mem Byte → CopyResult) (mem : Mem Byte) (y : Nat) : Prop :=
  ∃ (v : Byte) (mem₁ mem₂ : Mem Byte) (stop₁ stop₂ x : Nat), copy mem = .ok (mem₁, stop₁) ∧
    copy (Function.update mem y v) = .ok (mem₂, stop₂) ∧ x ≠ y ∧ mem₁ x ≠ mem₂ x

/-- The scalars of the source are in the elements of the window, and nothing else is
changed. -/
structure WindowRestored (s : Scalar) (ds : List Extent) (dest source : Nat)
    (mem mem' : Mem Byte) : Prop where
  element : ∀ index, Below index (subsizes ds) →
    ∃ address, follow mem (indexPath index) (s.nest ds) dest = .ok (address, .scalar s) ∧
      ∀ j < s.size, mem' (address + j) = mem (source + position (subsizes ds) index * s.size + j)
  other : ∀ x, (∀ index address, Below index (subsizes ds) →
      follow mem (indexPath index) (s.nest ds) dest = .ok (address, .scalar s) →
      ¬(address ≤ x ∧ x < address + s.size ∧ x < address + s.denseSize)) → mem' x = mem x

/-- For two buffers that are aligned and apart, whatever they hold. -/
def RestoresWindow (functions : CopyFunctions) (s : Scalar) (ds : List Extent) : Prop :=
  ∀ dest source, s.align ∣ dest → s.align ∣ source →
    dest + (s.nest ds).buffersize ≤ source ∨ source + (s.nest ds).datasize ≤ dest →
    ∀ mem : Mem Byte,
      (∃ mem' stop, (s.nest ds).dataFromDenseCopy functions mem dest source = .ok (mem', stop) ∧
        WindowRestored s ds dest source mem mem') ∧
      ∀ y, Reads (fun mem => (s.nest ds).dataFromDenseCopy functions mem dest source) mem y ↔
        source ≤ y ∧ y < source + (s.nest ds).datasize

/-- The elements of every dimension that is walked through are counted by an `int`. -/
def Counted (s : Scalar) : List Extent → Prop
  | [] => True
  | d :: ds => ((s.nest ds).simple && (s.nest ds).dense) = true ∨
      d.subsize < intRange ∧ (d.subsize = 0 ∨ Counted s ds)

/-- For a scalar that has less data than room: every window starts at a multiple of the
alignment, and where it has a second element, that is a row with a length which is a
multiple of the alignment. -/
def Straight (s : Scalar) : List Extent → Prop
  | [] => True
  | d :: ds => s.align ∣ d.start * (s.nest ds).buffersize ∧
      (2 ≤ d.subsize → ds ≠ [] ∧ s.align ∣ (s.nest ds).buffersize) ∧ Straight s ds

/-! ## Arrays around a scalar -/

section Nest

theorem wellFormed_nest (ha : 0 < s.align) (hfits : ∀ d ∈ ds, d.start + d.subsize ≤ d.size) :
    (s.nest ds).WellFormed := by
  induction ds with
  | nil => exact ha
  | cons d ds ih =>
    rw [List.forall_mem_cons] at hfits
    exact ⟨ih hfits.2, hfits.1⟩

theorem plain_nest (hcopy : s.copy = none) (ds : List Extent) : (s.nest ds).Plain := by
  induction ds with
  | nil => exact hcopy
  | cons d ds ih => exact ih

theorem dense_nest_iff :
    (s.nest ds).dense = true ↔ s.denseSize = s.size ∧ ∀ d ∈ ds, d.size = d.subsize := by
  induction ds with
  | nil => simp [Datatype.dense]
  | cons d ds ih =>
    rw [Scalar.nest, nest_cons, Datatype.dense, Bool.and_eq_true, ih, beq_iff_eq,
      List.forall_mem_cons]
    tauto

theorem dvd_datasize (hsize : s.align ∣ s.size) (ds : List Extent) :
    s.align ∣ (s.nest ds).datasize := by
  rw [datasize_nest]
  exact hsize.mul_left _

theorem buffersize_of_dense (h : (s.nest ds).dense = true) :
    (s.nest ds).buffersize = (s.nest ds).datasize := by
  obtain ⟨hscalar, hds⟩ := dense_nest_iff.mp h
  rw [buffersize_nest, datasize_nest, sizes, List.map_congr_left hds]
  exact congrArg _ hscalar

/-- The restore of a dense array moves on by its data. -/
theorem restoredSize_of_dense (h : (s.nest ds).dense = true) :
    (s.nest ds).restoredSize = (s.nest ds).datasize := by
  cases ds with
  | nil => rfl
  | cons => exact buffersize_of_dense h

end Nest

/-! ## Which byte goes where -/

/-- The offset to which an element of the window is restored. -/
def restoredOffset (s : Scalar) : List Extent → List Nat → Nat
  | d :: ds, k :: is =>
    alignUp (d.start * (s.nest ds).buffersize) s.align +
      k * alignUp (s.nest ds).restoredSize s.align + restoredOffset s ds is
  | _, _ => 0

/-- The byte `y` of the source goes to the byte `x` of the destination. -/
def Transfers (s : Scalar) (ds : List Extent) (x y : Nat) : Prop :=
  ∃ index, Below index (subsizes ds) ∧ ∃ j < s.size,
    x = restoredOffset s ds index + j ∧ y = position (subsizes ds) index * s.size + j

section Transfers

variable {d : Extent} {x y : Nat}

theorem transfers_nil : Transfers s [] x y ↔ x < s.size ∧ y = x := by
  constructor
  · rintro ⟨_, hindex, j, hj, rfl, rfl⟩
    cases hindex
    simpa [restoredOffset, position] using hj
  · rintro ⟨hx, rfl⟩
    exact ⟨[], .nil, y, hx, by simp [restoredOffset], by simp [position]⟩

theorem transfers_cons : Transfers s (d :: ds) x y ↔
    ∃ k < d.subsize, ∃ x' y', Transfers s ds x' y' ∧
      x = alignUp (d.start * (s.nest ds).buffersize) s.align +
        k * alignUp (s.nest ds).restoredSize s.align + x' ∧
      y = k * (s.nest ds).datasize + y' := by
  have hposition (k : Nat) (is : List Nat) (j : Nat) :
      position (subsizes (d :: ds)) (k :: is) * s.size + j =
        k * (s.nest ds).datasize + (position (subsizes ds) is * s.size + j) := by
    rw [subsizes_cons, position, datasize_nest, Datatype.datasize]
    ring
  constructor
  · rintro ⟨_, hindex, j, hj, rfl, rfl⟩
    cases hindex with
    | @cons k _ is _ hk his =>
      exact ⟨k, hk, _, _, ⟨is, his, j, hj, rfl, rfl⟩, Nat.add_assoc _ _ _, hposition k is j⟩
  · rintro ⟨k, hk, _, _, ⟨is, his, j, hj, rfl, rfl⟩, rfl, rfl⟩
    exact ⟨k :: is, .cons hk his, j, hj, (Nat.add_assoc _ _ _).symm, (hposition k is j).symm⟩

variable (hsize : s.align ∣ s.size)

include hsize

/-- Over dense rows nothing has to be aligned. -/
theorem transfers_cons_of_dense (hdense : (s.nest ds).dense = true)
    (hrow : ∀ x y, Transfers s ds x y ↔ x < (s.nest ds).datasize ∧ y = x) :
    Transfers s (d :: ds) x y ↔ ∃ i < d.subsize * (s.nest ds).datasize,
      x = d.start * (s.nest ds).buffersize + i ∧ y = i := by
  have hdvd := dvd_datasize hsize ds
  rw [transfers_cons, restoredSize_of_dense hdense, buffersize_of_dense hdense, alignUp_of_dvd hdvd,
    alignUp_of_dvd (hdvd.mul_left _)]
  constructor
  · rintro ⟨k, hk, x', y', hc, rfl, rfl⟩
    obtain ⟨hx, rfl⟩ := (hrow x' y').mp hc
    exact ⟨_, lt_mul_iff_exists_row.mpr ⟨k, hk, y', hx, rfl⟩, Nat.add_assoc _ _ _, rfl⟩
  · rintro ⟨i, hi, rfl, rfl⟩
    obtain ⟨k, hk, r, hr, hi⟩ := lt_mul_iff_exists_row.mp hi
    exact ⟨k, hk, r, r, (hrow r r).mpr ⟨hr, rfl⟩, by omega, hi⟩

theorem transfers_of_dense (hfits : ∀ d ∈ ds, d.start + d.subsize ≤ d.size)
    (hdense : (s.nest ds).dense = true) (x y : Nat) :
    Transfers s ds x y ↔ x < (s.nest ds).datasize ∧ y = x := by
  induction ds generalizing x y with
  | nil => exact transfers_nil
  | cons d ds ih =>
    rw [List.forall_mem_cons] at hfits
    obtain ⟨hscalar, hds⟩ := dense_nest_iff.mp hdense
    rw [List.forall_mem_cons] at hds
    have hrows := dense_nest_iff.mpr ⟨hscalar, hds.2⟩
    have hstart : d.start = 0 := by omega
    rw [transfers_cons_of_dense hsize hrows (ih hfits.2 hrows), hstart, Nat.zero_mul]
    constructor
    · rintro ⟨i, hi, rfl, rfl⟩
      exact ⟨by rwa [Nat.zero_add], (Nat.zero_add _).symm⟩
    · rintro ⟨hx, rfl⟩
      exact ⟨y, hx, (Nat.zero_add y).symm, rfl⟩

end Transfers

/-! ## The blocks of an array -/

section Blocks

variable {blocks : Nat → Nat → Option (List Block)} {a datasize : Nat} (stride : Nat)

theorem elementBlocks_none (ha : 0 < a)
    (hblocks : ∀ x y, a ∣ x → a ∣ y → blocks x y = (blocks 0 0).map (List.map (Block.shift x y)))
    (hfirst : blocks 0 0 = none) {n : Nat} (hn : n ≠ 0) (dest source : Nat) :
    elementBlocks blocks a stride datasize n dest source = none := by
  obtain ⟨n, rfl⟩ := Nat.exists_eq_succ_of_ne_zero hn
  rw [elementBlocks, hblocks _ _ (dvd_alignUp dest ha) (dvd_alignUp source ha), hfirst]
  split <;> rfl

theorem restoreBlocks_nest (ha : 0 < s.align) (hfits : ∀ d ∈ ds, d.start + d.subsize ≤ d.size)
    (x y : Nat) (hx : s.align ∣ x) (hy : s.align ∣ y) :
    (s.nest ds).restoreBlocks x y =
      ((s.nest ds).restoreBlocks 0 0).map (List.map (Block.shift x y)) := by
  have halign : (s.nest ds).alignment = s.align := alignment_nest _ ds
  rw [← halign] at hx hy
  exact (s.nest ds).restoreBlocks_shift (wellFormed_nest ha hfits) hx hy 0 0

end Blocks

section Counted

variable (ha : 0 < s.align) (hsize : s.align ∣ s.size)

include ha hsize

/-- The blocks bring every byte to its cell, and nothing else. -/
theorem Counted.exists_blocks (h : Counted s ds) (hfits : ∀ d ∈ ds, d.start + d.subsize ≤ d.size) :
    ∃ bs, (s.nest ds).restoreBlocks 0 0 = some bs ∧ ∀ x y, Brings bs x y ↔ Transfers s ds x y := by
  induction ds with
  | nil =>
    refine ⟨_, rfl, fun x y => ?_⟩
    rw [brings_singleton, transfers_nil]
    constructor
    · rintro ⟨i, hi, rfl, rfl⟩
      exact ⟨by rwa [Nat.zero_add], rfl⟩
    · rintro ⟨hx, rfl⟩
      exact ⟨y, hx, (Nat.zero_add y).symm, (Nat.zero_add y).symm⟩
  | cons d ds ih =>
    rw [List.forall_mem_cons] at hfits
    rw [Scalar.nest, nest_cons, Datatype.restoreBlocks, Nat.zero_add]
    split
    · next hrows =>
      rw [Bool.and_eq_true] at hrows
      refine ⟨_, rfl, fun x y => ?_⟩
      rw [brings_singleton,
        transfers_cons_of_dense hsize hrows.2 (transfers_of_dense hsize hfits.2 hrows.2)]
      simp only [Nat.zero_add]
    · next hrows =>
      obtain ⟨hcount, hrest⟩ := h.resolve_left hrows
      rw [if_neg (Nat.not_le.mpr hcount)]
      obtain hzero | hrest := hrest
      · refine ⟨[], by rw [hzero]; rfl, fun x y => ?_⟩
        rw [transfers_cons, hzero]
        simp [Brings]
      · obtain ⟨first, hfirst, hbrings⟩ := ih hrest hfits.2
        have hdvd := dvd_datasize hsize ds
        have hblocks := elementBlocks_eq (s.nest ds).restoredSize ha
          (restoreBlocks_nest ha hfits.2) hfirst d.subsize (d.start * (s.nest ds).buffersize) 0
          (fun _ => by simp [padding, intRange])
          (fun _ => by rw [padding_eq_zero hdvd]; decide)
        rw [alignUp_zero, alignUp_of_dvd hdvd] at hblocks
        rw [alignment_nest]
        refine ⟨_, hblocks, fun x y => ?_⟩
        simp only [brings_flatMap, brings_map_shift, transfers_cons, hbrings, List.mem_range,
          Nat.zero_add]

omit hsize in
theorem restoreBlocks_of_not_counted (h : ¬ Counted s ds)
    (hfits : ∀ d ∈ ds, d.start + d.subsize ≤ d.size) : (s.nest ds).restoreBlocks 0 0 = none := by
  induction ds with
  | nil => exact absurd trivial h
  | cons d ds ih =>
    rw [List.forall_mem_cons] at hfits
    rw [Counted, not_or, not_and_or, not_or] at h
    rw [Scalar.nest, nest_cons, Datatype.restoreBlocks, if_neg h.1]
    obtain hcount | ⟨hne, hrest⟩ := h.2
    · rw [if_pos (Nat.le_of_not_lt hcount)]
    · split
      · rfl
      · rw [alignment_nest]
        exact elementBlocks_none _ ha (restoreBlocks_nest ha hfits.2) (ih hrest hfits.2) hne _ _

end Counted

/-! ## Elements at their addresses -/

/-- Every element is restored to its address, and takes no more bytes than it has there. -/
def Placed (s : Scalar) (ds : List Extent) : Prop :=
  ∀ index, Below index (subsizes ds) → 0 < s.size →
    s.size ≤ s.denseSize ∧ restoredOffset s ds index = s.denseSize * elementNumber ds index

section Placed

/-- The address of an element, from the rows before it. -/
theorem address_cons (s : Scalar) (d : Extent) (ds : List Extent) (k : Nat) (is : List Nat) :
    s.denseSize * elementNumber (d :: ds) (k :: is) =
      d.start * (s.nest ds).buffersize + k * (s.nest ds).buffersize +
        s.denseSize * elementNumber ds is := by
  rw [elementNumber_cons, buffersize_nest, Datatype.buffersize]
  ring

theorem restoredOffset_of_dense (hsize : s.align ∣ s.size) (h : s.size = s.denseSize)
    (hindex : Below index (subsizes ds)) :
    restoredOffset s ds index = s.denseSize * elementNumber ds index := by
  induction ds generalizing index with
  | nil =>
    cases hindex
    rfl
  | cons d ds ih =>
    cases hindex with
    | @cons k _ is _ hk his =>
      have hdvd : s.align ∣ (s.nest ds).buffersize := by
        rw [buffersize_nest, Datatype.buffersize, ← h]
        exact hsize.mul_left _
      have hrestored : (s.nest ds).restoredSize = (s.nest ds).buffersize := by
        cases ds with
        | nil => exact h
        | cons => rfl
      rw [restoredOffset, hrestored, alignUp_of_dvd hdvd, alignUp_of_dvd (hdvd.mul_left _), ih his,
        address_cons]

theorem Straight.restoredOffset_eq (h : Straight s ds) (hindex : Below index (subsizes ds)) :
    restoredOffset s ds index = s.denseSize * elementNumber ds index := by
  induction ds generalizing index with
  | nil =>
    cases hindex
    rfl
  | cons d ds ih =>
    obtain ⟨hstart, hrow, hrest⟩ := h
    cases hindex with
    | @cons k _ is _ hk his =>
      have hwalked : k * alignUp (s.nest ds).restoredSize s.align = k * (s.nest ds).buffersize := by
        cases k with
        | zero => rw [Nat.zero_mul, Nat.zero_mul]
        | succ k =>
          -- only a second element is walked to
          obtain ⟨hne, hdvd⟩ := hrow (by change k + 1 < d.subsize at hk; omega)
          cases ds with
          | nil => exact absurd rfl hne
          | cons => exact congrArg _ (alignUp_of_dvd hdvd)
      rw [restoredOffset, alignUp_of_dvd hstart, hwalked, ih hrest his, address_cons]

theorem below_zeros (hpos : ∀ d ∈ ds, 0 < d.subsize) : Below (ds.map fun _ => 0) (subsizes ds) := by
  induction ds with
  | nil => exact .nil
  | cons d ds ih =>
    rw [List.forall_mem_cons] at hpos
    exact .cons hpos.1 (ih hpos.2)

theorem address_zeros_le (s : Scalar) (ds : List Extent) :
    s.denseSize * elementNumber ds (ds.map fun _ => 0) ≤
      restoredOffset s ds (ds.map fun _ => 0) := by
  induction ds with
  | nil => exact Nat.le_refl _
  | cons d ds =>
    rw [List.map_cons, address_cons, restoredOffset]
    have hle := le_alignUp (d.start * (s.nest ds).buffersize) s.align
    omega

/-- The first element and the second one of each dimension show the distances. -/
theorem straight_of_restoredOffset (ha : 0 < s.align) (hsize : s.align ∣ s.size)
    (hlt : s.size < s.denseSize) (hpos : ∀ d ∈ ds, 0 < d.subsize)
    (h : ∀ index, Below index (subsizes ds) →
      restoredOffset s ds index = s.denseSize * elementNumber ds index) : Straight s ds := by
  induction ds with
  | nil => trivial
  | cons d ds ih =>
    rw [List.forall_mem_cons] at hpos
    have hzeros := below_zeros hpos.2
    have hle := address_zeros_le s ds
    have hstartle := le_alignUp (d.start * (s.nest ds).buffersize) s.align
    have hfirst := h _ (.cons hpos.1 hzeros)
    rw [restoredOffset, address_cons, Nat.zero_mul, Nat.zero_mul] at hfirst
    have hstart : alignUp (d.start * (s.nest ds).buffersize) s.align =
        d.start * (s.nest ds).buffersize := by omega
    refine ⟨?_, fun htwo => ?_, ih hpos.2 fun is his => ?_⟩
    · rw [← hstart]
      exact dvd_alignUp _ ha
    · have hsecond := h _ (.cons htwo hzeros)
      rw [restoredOffset, address_cons, Nat.one_mul, Nat.one_mul] at hsecond
      have hrow : alignUp (s.nest ds).restoredSize s.align = (s.nest ds).buffersize := by omega
      cases ds with
      | nil =>
        have hscalar : alignUp s.size s.align = s.denseSize := hrow
        rw [alignUp_of_dvd hsize] at hscalar
        omega
      | cons =>
        refine ⟨List.cons_ne_nil _ _, ?_⟩
        rw [← hrow]
        exact dvd_alignUp _ ha
    · have hother := h _ (.cons hpos.1 his)
      rw [restoredOffset, address_cons, Nat.zero_mul, Nat.zero_mul] at hother
      omega

theorem datasize_ne_zero (h : (s.nest ds).datasize ≠ 0) : 0 < s.size ∧ ∀ d ∈ ds, 0 < d.subsize := by
  induction ds with
  | nil => exact ⟨Nat.pos_of_ne_zero h, by simp⟩
  | cons d ds ih =>
    rw [Scalar.nest, nest_cons, Datatype.datasize, Nat.mul_ne_zero_iff] at h
    obtain ⟨hscalar, hds⟩ := ih h.2
    exact ⟨hscalar, List.forall_mem_cons.mpr ⟨Nat.pos_of_ne_zero h.1, hds⟩⟩

/-- The bytes of a scalar are among those of the source. -/
theorem lt_datasize (hindex : Below index (subsizes ds)) (hj : j < s.size) :
    position (subsizes ds) index * s.size + j < (s.nest ds).datasize := by
  rw [datasize_nest]
  exact lt_mul_iff_exists_row.mpr ⟨_, position_lt hindex, j, hj, rfl⟩

theorem placed_iff (ha : 0 < s.align) (hsize : s.align ∣ s.size) :
    Placed s ds ↔ s.size = s.denseSize ∨ (s.nest ds).datasize = 0 ∨
      s.size < s.denseSize ∧ Straight s ds := by
  constructor
  · intro h
    by_cases hdata : (s.nest ds).datasize = 0
    · exact .inr (.inl hdata)
    · obtain ⟨hscalar, hpos⟩ := datasize_ne_zero hdata
      have hle := (h _ (below_zeros hpos) hscalar).1
      obtain hlt | heq := Nat.lt_or_eq_of_le hle
      · exact .inr (.inr ⟨hlt, straight_of_restoredOffset ha hsize hlt hpos fun index hindex =>
          (h index hindex hscalar).2⟩)
      · exact .inl heq
  · rintro (heq | hdata | ⟨hlt, hstraight⟩) index hindex hs
    · exact ⟨Nat.le_of_eq heq, restoredOffset_of_dense hsize heq hindex⟩
    · exact absurd hdata (Nat.ne_zero_of_lt (lt_datasize hindex hs))
    · exact ⟨Nat.le_of_lt hlt, hstraight.restoredOffset_eq hindex⟩

end Placed

/-! ## From a window to its bytes -/

/-- The window, with the addresses of its elements. -/
theorem windowRestored_iff {mem mem' : Mem Byte} : WindowRestored s ds dest source mem mem' ↔
      (∀ index, Below index (subsizes ds) → ∀ j < s.size,
        mem' (dest + s.denseSize * elementNumber ds index + j) =
          mem (source + position (subsizes ds) index * s.size + j)) ∧
      ∀ x, (∀ index, Below index (subsizes ds) → ∀ j < s.size, j < s.denseSize →
        x ≠ dest + s.denseSize * elementNumber ds index + j) → mem' x = mem x := by
  have hfollow {index : List Nat} (hindex : Below index (subsizes ds)) :
      follow mem (indexPath index) (s.nest ds) dest =
        .ok (dest + s.denseSize * elementNumber ds index, .scalar s) := follow_nest hindex dest
  constructor
  · intro h
    refine ⟨fun index hindex => ?_, fun x hx => h.other x fun index address hindex haddress => ?_⟩
    · obtain ⟨address, haddress, hbytes⟩ := h.element index hindex
      rw [hfollow hindex, Except.ok.injEq, Prod.mk.injEq] at haddress
      obtain ⟨rfl, _⟩ := haddress
      exact hbytes
    · rw [hfollow hindex, Except.ok.injEq, Prod.mk.injEq] at haddress
      obtain ⟨rfl, _⟩ := haddress
      rintro ⟨hle, hlt, hlt'⟩
      obtain ⟨j, rfl⟩ := Nat.exists_eq_add_of_le hle
      exact hx index hindex j (by omega) (by omega) rfl
  · rintro ⟨helement, hother⟩
    refine ⟨fun index hindex => ⟨_, hfollow hindex, helement index hindex⟩, fun x hx => ?_⟩
    refine hother x fun index hindex j hj hj' heq => hx index _ hindex (hfollow hindex) ?_
    omega

section Far

variable {t : Datatype} {functions : CopyFunctions} {mem : Mem Byte} {bs : List Block}

/-- A restore that returns has blocks to copy. -/
theorem Datatype.exists_blocks (hw : t.WellFormed) (hp : t.Plain) (hs : t.alignment ∣ source)
    {r : Mem Byte × Nat} (h : t.dataFromDenseCopy functions mem 0 source = .ok r) :
    ∃ bs, t.restoreBlocks 0 0 = some bs := by
  cases hbs : t.restoreBlocks 0 0 with
  | some bs => exact ⟨bs, rfl⟩
  | none =>
    have hruns := t.dataFromDenseCopy_runs functions hw hp mem 0 source
    have hshift := t.restoreBlocks_shift hw (Nat.dvd_zero _) hs 0 0
    rw [hbs, Nat.zero_add, Nat.add_zero] at hshift
    rw [hshift] at hruns
    obtain ⟨e, he⟩ := hruns
    rw [h] at he
    cases he

/-- A restore to address 0 from a buffer that nothing written comes near: every cell
shows where it comes from. -/
theorem Datatype.exists_far (functions : CopyFunctions) (hw : t.WellFormed) (hp : t.Plain)
    (hbs : t.restoreBlocks 0 0 = some bs) (bound : Nat) :
    ∃ source, bound ≤ source ∧ t.alignment ∣ source ∧ ∀ mem : Mem Byte,
      ∃ (mem' : Mem Byte) (stop : Nat),
      t.dataFromDenseCopy functions mem 0 source = .ok (mem', stop) ∧
      (∀ x y, origin bs x = some y → mem' x = mem (source + y)) ∧
      ∀ x, origin bs x = none → mem' x = mem x := by
  obtain ⟨m, hm⟩ := exists_writes_lt bs
  have hs := dvd_alignUp (m + bound) hw.alignment_pos
  have hle := le_alignUp (m + bound) t.alignment
  generalize alignUp (m + bound) t.alignment = source at hs hle
  refine ⟨source, by omega, hs, fun mem => ⟨_, _,
    t.dataFromDenseCopy_blocks functions hw hp (Nat.dvd_zero _) hs hbs mem, fun x y ho => ?_,
    fun x ho => ?_⟩⟩
  · have hshift := origin_shift 0 source bs x
    rw [Nat.zero_add, ho] at hshift
    refine runBlocks_of_origin mem hshift fun b hb hwr => ?_
    obtain ⟨b, hb, x, hx, heq⟩ := Block.writes_map_shift ⟨b, hb, hwr⟩
    have hlt := hm b hb x hx
    omega
  · have hshift := origin_shift 0 source bs x
    rw [Nat.zero_add, ho] at hshift
    exact runBlocks_of_unwritten mem (unwritten_of_origin hshift)

end Far

section Runs

variable {functions : CopyFunctions} (ha : 0 < s.align) (hsize : s.align ∣ s.size)
  (hcopy : s.copy = none) (hfits : ∀ d ∈ ds, d.start + d.subsize ≤ d.size)

include ha hcopy hfits

section

variable (h : RestoresWindow functions s ds)

include h

theorem RestoresWindow.counted : Counted s ds := by
  have hs := dvd_alignUp (s.nest ds).buffersize ha
  have hle := le_alignUp (s.nest ds).buffersize s.align
  obtain ⟨⟨mem', stop, hrun, _⟩, _⟩ := h 0 _ (Nat.dvd_zero _) hs (.inl (by omega)) fun _ => 0
  obtain ⟨bs, hbs⟩ := Datatype.exists_blocks (wellFormed_nest ha hfits) (plain_nest hcopy ds)
    (by rw [alignment_nest]; exact hs) hrun
  by_contra hnot
  rw [restoreBlocks_of_not_counted ha hnot hfits] at hbs
  cases hbs

/-- A window that is restored from far away. -/
theorem RestoresWindow.far {bs : List Block}
    (hbs : (s.nest ds).restoreBlocks 0 0 = some bs) (bound : Nat) :
    ∃ source, bound ≤ source ∧ ∀ mem : Mem Byte, ∃ mem' : Mem Byte,
      WindowRestored s ds 0 source mem mem' ∧
      (∀ x y, origin bs x = some y → mem' x = mem (source + y)) ∧
      ∀ x, origin bs x = none → mem' x = mem x := by
  obtain ⟨source, hsource, hs, hfar⟩ := Datatype.exists_far functions (wellFormed_nest ha hfits)
    (plain_nest hcopy ds) hbs ((s.nest ds).buffersize + bound)
  rw [alignment_nest] at hs
  refine ⟨source, by omega, fun mem => ?_⟩
  obtain ⟨mem', stop, hrun, hsome, hnone⟩ := hfar mem
  obtain ⟨⟨mem'', stop', hrun', hrestored⟩, _⟩ :=
    h 0 source (Nat.dvd_zero _) hs (.inl (by omega)) mem
  rw [hrun, Except.ok.injEq, Prod.mk.injEq] at hrun'
  obtain ⟨rfl, _⟩ := hrun'
  exact ⟨mem', hrestored, hsome, hnone⟩

end

include hsize

section

variable (h : RestoresWindow functions s ds)

include h

/-- The first byte of a scalar shows where the scalar is restored to. -/
theorem RestoresWindow.restoredOffset_eq (hindex : Below index (subsizes ds)) (hs : 0 < s.size) :
    restoredOffset s ds index = s.denseSize * elementNumber ds index := by
  obtain ⟨bs, hbs, hbrings⟩ := (h.counted ha hcopy hfits).exists_blocks ha hsize hfits
  obtain ⟨source, hsource, hfar⟩ :=
    h.far ha hcopy hfits hbs (s.denseSize * elementNumber ds index + 1)
  -- that byte is the only one that is not zero
  obtain ⟨mem', hrestored, hsome, hnone⟩ :=
    hfar fun a => if a = source + position (subsizes ds) index * s.size then 1 else 0
  have hone := (windowRestored_iff.mp hrestored).1 index hindex 0 hs
  rw [Nat.add_zero, Nat.add_zero, Nat.zero_add, if_pos rfl] at hone
  cases ho : origin bs (s.denseSize * elementNumber ds index) with
  | none =>
    rw [hnone _ ho, if_neg (by omega)] at hone
    exact absurd hone (by decide)
  | some y =>
    rw [hsome _ y ho] at hone
    by_cases hy : source + y = source + position (subsizes ds) index * s.size
    · obtain ⟨index', hindex', j, hj, hx, hy'⟩ := (hbrings _ _).mp (brings_of_origin ho)
      obtain ⟨hposition, rfl⟩ := row_unique hs hj (by omega :
        position (subsizes ds) index * s.size + 0 = position (subsizes ds) index' * s.size + j)
      obtain rfl := position_inj hindex hindex' hposition
      exact hx.symm
    · rw [if_neg hy] at hone
      exact absurd hone (by decide)

theorem RestoresWindow.placed : Placed s ds := by
  intro index hindex hs
  refine ⟨?_, h.restoredOffset_eq ha hsize hcopy hfits hindex hs⟩
  by_contra hgreater
  obtain ⟨bs, hbs, hbrings⟩ := (h.counted ha hcopy hfits).exists_blocks ha hsize hfits
  have hlast := below_last hindex
  have hoffset := h.restoredOffset_eq ha hsize hcopy hfits hlast hs
  -- the first byte behind the last element is written, too
  obtain ⟨b, hb, hwrites⟩ := ((hbrings _ _).mpr
    ⟨_, hlast, s.denseSize, Nat.lt_of_not_le hgreater, rfl, rfl⟩).writes
  rw [hoffset] at hwrites
  have hbehind : ∀ index', Below index' (subsizes ds) → ∀ j < s.size, j < s.denseSize →
      s.denseSize * elementNumber ds ((subsizes ds).map (· - 1)) + s.denseSize ≠
        0 + s.denseSize * elementNumber ds index' + j := by
    intro index' hindex' j _ hj
    have hle := Nat.mul_le_mul_left s.denseSize (elementNumber_le_last hindex')
    omega
  generalize s.denseSize * elementNumber ds ((subsizes ds).map (· - 1)) + s.denseSize = x
    at hwrites hbehind
  obtain ⟨source, hsource, hfar⟩ := h.far ha hcopy hfits hbs (x + 1)
  obtain ⟨mem', hrestored, hsome, _⟩ := hfar fun a => if a = x then 0 else 1
  have hkept := (windowRestored_iff.mp hrestored).2 x hbehind
  cases ho : origin bs x with
  | none => exact origin_ne_none hb hwrites ho
  | some y =>
    rw [hsome x y ho, if_pos rfl, if_neg (by omega)] at hkept
    exact absurd hkept (by decide)

end

end Runs

/-! ## From bytes to a window -/

section Placed

variable {functions : CopyFunctions} {bs : List Block}
  (hfits : ∀ d ∈ ds, d.start + d.subsize ≤ d.size) (hplaced : Placed s ds)

include hfits hplaced

theorem Placed.lt_buffersize (hindex : Below index (subsizes ds)) (hj : j < s.size) :
    s.denseSize * elementNumber ds index + j < (s.nest ds).buffersize := by
  have hle := (hplaced index hindex (Nat.zero_lt_of_lt hj)).1
  rw [buffersize_nest, Datatype.buffersize, Nat.mul_comm s.denseSize]
  exact lt_mul_iff_exists_row.mpr ⟨_, elementNumber_lt hfits hindex, j, by omega, rfl⟩

/-- No two bytes go to one cell. -/
theorem Placed.origin_eq (hbrings : ∀ x y, Brings bs x y ↔ Transfers s ds x y)
    (hindex : Below index (subsizes ds)) (hj : j < s.size) :
    origin bs (s.denseSize * elementNumber ds index + j) =
      some (position (subsizes ds) index * s.size + j) := by
  obtain ⟨hle, hoffset⟩ := hplaced index hindex (Nat.zero_lt_of_lt hj)
  refine origin_of_brings ((hbrings _ _).mpr ⟨index, hindex, j, hj, by rw [hoffset], rfl⟩) ?_
  intro y hy
  obtain ⟨index', hindex', j', hj', hx, rfl⟩ := (hbrings _ _).mp hy
  rw [(hplaced index' hindex' (Nat.zero_lt_of_lt hj')).2, Nat.mul_comm s.denseSize,
    Nat.mul_comm s.denseSize] at hx
  obtain ⟨hnumber, rfl⟩ := row_unique (by omega) (by omega) hx
  rw [elementNumber_inj hfits hindex hindex' hnumber]

theorem Placed.windowRestored (hbrings : ∀ x y, Brings bs x y ↔ Transfers s ds x y)
    (hapart : dest + (s.nest ds).buffersize ≤ source ∨ source + (s.nest ds).datasize ≤ dest)
    (mem : Mem Byte) :
    WindowRestored s ds dest source mem (runBlocks mem (bs.map (Block.shift dest source))) := by
  have hwrites : ∀ x, (∃ b ∈ bs.map (Block.shift dest source), b.Writes x) →
      ∃ index, Below index (subsizes ds) ∧ ∃ j < s.size,
        x = dest + s.denseSize * elementNumber ds index + j := by
    intro x hx
    obtain ⟨b, hb, x', hx', rfl⟩ := Block.writes_map_shift hx
    obtain ⟨y, hy⟩ := exists_brings hb hx'
    obtain ⟨index, hindex, j, hj, rfl, _⟩ := (hbrings _ _).mp hy
    rw [(hplaced index hindex (Nat.zero_lt_of_lt hj)).2]
    exact ⟨index, hindex, j, hj, (Nat.add_assoc _ _ _).symm⟩
  refine windowRestored_iff.mpr ⟨fun index hindex j hj => ?_, fun x hx => ?_⟩
  · have horigin := origin_shift dest source bs (s.denseSize * elementNumber ds index + j)
    rw [hplaced.origin_eq hfits hbrings hindex hj, Option.map_some, ← Nat.add_assoc,
      ← Nat.add_assoc] at horigin
    refine runBlocks_of_origin mem horigin fun b hb hb' => ?_
    -- the blocks stay inside the destination
    obtain ⟨index', hindex', j', hj', heq⟩ := hwrites _ ⟨b, hb, hb'⟩
    have hlt := hplaced.lt_buffersize hfits hindex' hj'
    have hlt' := lt_datasize hindex hj
    omega
  · refine runBlocks_of_unwritten mem fun b hb hb' => ?_
    obtain ⟨index, hindex, j, hj, heq⟩ := hwrites x ⟨b, hb, hb'⟩
    have hle := (hplaced index hindex (Nat.zero_lt_of_lt hj)).1
    exact hx index hindex j hj (by omega) heq

/-- Every byte of the source is found in the window, and no other. -/
theorem Placed.reads_iff {copy : Mem Byte → CopyResult}
    (hapart : dest + (s.nest ds).buffersize ≤ source ∨ source + (s.nest ds).datasize ≤ dest)
    (hrun : ∀ mem, ∃ mem' stop, copy mem = .ok (mem', stop) ∧
      WindowRestored s ds dest source mem mem')
    (mem : Mem Byte) (y : Nat) :
    Reads copy mem y ↔ source ≤ y ∧ y < source + (s.nest ds).datasize := by
  constructor
  · rintro ⟨v, mem₁, mem₂, stop₁, stop₂, x, h₁, h₂, hxy, hne⟩
    by_contra hout
    obtain ⟨_, _, h₁', hr₁⟩ := hrun mem
    obtain ⟨_, _, h₂', hr₂⟩ := hrun (Function.update mem y v)
    rw [h₁, Except.ok.injEq, Prod.mk.injEq] at h₁'
    rw [h₂, Except.ok.injEq, Prod.mk.injEq] at h₂'
    obtain ⟨rfl, _⟩ := h₁'
    obtain ⟨rfl, _⟩ := h₂'
    obtain ⟨helement₁, hother₁⟩ := windowRestored_iff.mp hr₁
    obtain ⟨helement₂, hother₂⟩ := windowRestored_iff.mp hr₂
    by_cases hx : ∀ index, Below index (subsizes ds) → ∀ j < s.size, j < s.denseSize →
        x ≠ dest + s.denseSize * elementNumber ds index + j
    · exact hne (by rw [hother₁ x hx, hother₂ x hx, Function.update_of_ne hxy])
    · push Not at hx
      obtain ⟨index, hindex, j, hj, _, rfl⟩ := hx
      have hlt := lt_datasize hindex hj
      refine hne ?_
      rw [helement₁ index hindex j hj, helement₂ index hindex j hj, Function.update_of_ne]
      rintro rfl
      exact hout ⟨by omega, by omega⟩
  · rintro ⟨hle, hlt⟩
    obtain ⟨y, rfl⟩ := Nat.exists_eq_add_of_le hle
    have hy := Nat.lt_of_add_lt_add_left hlt
    rw [datasize_nest] at hy
    obtain ⟨k, hk, j, hj, rfl⟩ := lt_mul_iff_exists_row.mp hy
    obtain ⟨index, hindex, rfl⟩ := exists_position hk
    have hinside := hplaced.lt_buffersize hfits hindex hj
    obtain ⟨mem₁, stop₁, h₁, hr₁⟩ := hrun mem
    obtain ⟨mem₂, stop₂, h₂, hr₂⟩ := hrun (Function.update mem
      (source + (position (subsizes ds) index * s.size + j))
      (mem (source + (position (subsizes ds) index * s.size + j)) + 1))
    refine ⟨_, mem₁, mem₂, stop₁, stop₂, dest + s.denseSize * elementNumber ds index + j, h₁, h₂,
      by omega, ?_⟩
    rw [(windowRestored_iff.mp hr₁).1 index hindex j hj,
      (windowRestored_iff.mp hr₂).1 index hindex j hj, Nat.add_assoc, Function.update_self]
    simp

end Placed

/-- The window is filled exactly when no `int` counts too many elements and the scalar has
one size, or nothing is copied, or every element happens to be found where it should be. -/
theorem restore_window_iff (functions : CopyFunctions) (s : Scalar) (ds : List Extent)
    (ha : 0 < s.align) (hsize : s.align ∣ s.size) (hcopy : s.copy = none)
    (hfits : ∀ d ∈ ds, d.start + d.subsize ≤ d.size) :
    RestoresWindow functions s ds ↔ Counted s ds ∧
      (s.size = s.denseSize ∨ (s.nest ds).datasize = 0 ∨
        s.size < s.denseSize ∧ Straight s ds) := by
  rw [← placed_iff ha hsize]
  constructor
  · intro h
    exact ⟨h.counted ha hcopy hfits, h.placed ha hsize hcopy hfits⟩
  · rintro ⟨hcounted, hplaced⟩ dest source hd hs hapart mem
    obtain ⟨bs, hbs, hbrings⟩ := hcounted.exists_blocks ha hsize hfits
    have halign : (s.nest ds).alignment = s.align := alignment_nest _ ds
    have hrun : ∀ mem : Mem Byte, ∃ mem' stop,
        (s.nest ds).dataFromDenseCopy functions mem dest source = .ok (mem', stop) ∧
          WindowRestored s ds dest source mem mem' := fun mem =>
      ⟨_, _, (s.nest ds).dataFromDenseCopy_blocks functions (wellFormed_nest ha hfits)
        (plain_nest hcopy ds) (by rwa [halign]) (by rwa [halign]) hbs mem,
        hplaced.windowRestored hfits hbrings hapart mem⟩
    exact ⟨hrun mem, hplaced.reads_iff hfits hapart hrun mem⟩

/-- Four rows of four numbers inside ten rows of ten. -/
theorem restore_window_square :
    let s : Scalar := Scalar.make .signed 4 4 (by decide)
    let ds : List Extent := [⟨10, 3, 4, []⟩, ⟨10, 3, 4, []⟩]
    0 < s.align ∧ s.align ∣ s.size ∧ s.copy = none ∧ (∀ d ∈ ds, d.start + d.subsize ≤ d.size) ∧
      RestoresWindow (fun _ _ _ _ _ => .error (.undefined "no copy function")) s ds := by
  intro s ds
  have hfits : ∀ d ∈ ds, d.start + d.subsize ≤ d.size := by decide
  have hcounted : Counted s ds := .inr ⟨by decide, .inr (.inl rfl)⟩
  exact ⟨by decide, by decide, rfl, hfits, (restore_window_iff _ s ds (by decide) (by decide) rfl
    hfits).mpr ⟨hcounted, .inl rfl⟩⟩

/-- Two numbers of four bytes with room for eight: the second one is written behind the
first and not to its address. Rows that are more than an `int` counts are not restored. -/
theorem restore_window_fails :
    (let s : Scalar := ⟨.signed, 4, 8, 4, none, none, [], .inr (by decide)⟩
      let mem : Mem Byte := fun a => if 100 ≤ a then 1 else 0
      follow mem [.index 1] (s.nest [⟨2, 0, 2, []⟩]) 0 = .ok (8, .scalar s) ∧
      ∃ mem' stop, (s.nest [⟨2, 0, 2, []⟩]).dataFromDenseCopy
          (fun _ _ _ _ _ => .error (.undefined "no copy function")) mem 0 100 = .ok (mem', stop) ∧
        mem' 8 = 0 ∧ mem 104 = 1 ∧ mem' 4 = 1 ∧ mem 4 = 0) ∧
    ∃ e, ((Scalar.make .signed 1 1 (by decide)).nest
        [⟨2147483648, 0, 2147483648, []⟩, ⟨2, 0, 1, []⟩]).dataFromDenseCopy
      (fun _ _ _ _ _ => .error (.undefined "no copy function")) (fun _ => 0) 0 4294967296 =
        .error e :=
  ⟨⟨rfl, _, _, rfl, by decide, by decide, by decide, by decide⟩, _, rfl⟩

end Pdi.Datatypes
