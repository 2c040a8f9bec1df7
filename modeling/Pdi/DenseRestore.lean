import Pdi.Blocks
import Pdi.DenseExact
import Pdi.Serialize

/-!
# Restoring data from its dense form

`data_from_dense_copy` of every datatype: it reads a buffer laid out as the
densified type has it and writes the data under the type. Between two parts the
source moves on by the data size of the part, not by its densified size.

`RestoreExact` is the condition on a type under which its data is restored. Where
parts are restored one by one, the data size of a part must take the source to
where the densified type has the next one, and the elements of an array must start
at their alignment. The blocks that a plain type copies then bring every byte of
every scalar from the place that the densified type gives it.
-/
namespace Pdi.Datatypes

open Pdi.Align Pdi.Memory

variable {α γ : Type} {result : Except Failure α} {mem : Mem Byte} {answer : Mem Byte → α}
  {blocks : Nat → Nat → Option (List Block)} {bs : List Block} {source a stride datasize : Nat}
  {t : Datatype}

/-- The source is moved on by a padding that is computed as an `int`. -/
def alignSource (source alignment : Nat) : Except Failure Nat :=
  if padding source alignment < intRange then .ok (alignUp source alignment)
  else .error (.undefined "padding outside the range of int")

/-- The loop over the `n` elements of an array. -/
def restoreElements (copy : Mem Byte → Nat → Nat → CopyResult) (alignment datasize : Nat) :
    Nat → Mem Byte → Nat → Nat → Except Failure (Mem Byte)
  | 0, mem, _, _ => .ok mem
  | n + 1, mem, dest, source => do
    let source ← alignSource source alignment
    let (mem, dest) ← copy mem (stdAlign alignment 0 dest alignment) source
    restoreElements copy alignment datasize n mem dest (source + datasize)

mutual
def Datatype.dataFromDenseCopy (functions : CopyFunctions) :
    Datatype → Mem Byte → Nat → Nat → CopyResult
  | .scalar s, mem, dest, source =>
    (Datatype.scalar s).dataToDenseCopy functions mem mem dest source
  | .array subtype size start subsize _, mem, dest, source =>
    if subtype.simple && subtype.dense then
      .ok (memcpy mem mem (dest + start * subtype.buffersize) source (subsize * subtype.datasize),
        dest + size * subtype.buffersize)
    else if intRange ≤ subsize then .error (.undefined "overflow of an int")
    else do
      let mem ← restoreElements (subtype.dataFromDenseCopy functions) subtype.alignment
        subtype.datasize subsize mem (dest + start * subtype.buffersize) source
      .ok (mem, dest + size * subtype.buffersize)
  | .record members buffersize _, mem, dest, source =>
    if members.simple && members.denseIn buffersize members.alignment 0 then
      .ok (memcpy mem mem dest source buffersize, dest + buffersize)
    else do
      let mem ← members.dataFromDenseCopy functions mem dest source
      .ok (mem, dest + buffersize)
  | .tuple elements buffersize _, mem, dest, source =>
    if elements.simple && elements.denseIn buffersize elements.alignment 0 then
      .ok (memcpy mem mem dest source buffersize, dest + buffersize)
    else do
      let mem ← elements.dataFromDenseCopy functions mem dest source
      .ok (mem, dest + buffersize)
  | .pointer subtype copy destroy attributes, mem, dest, source =>
    (Datatype.pointer subtype copy destroy attributes).dataToDenseCopy functions mem mem dest source

/-- The loop over the members of a record, or the elements of a tuple. -/
def Members.dataFromDenseCopy (functions : CopyFunctions) :
    Members → Mem Byte → Nat → Nat → Except Failure (Mem Byte)
  | .nil, mem, _, _ => .ok mem
  | .cons displacement type _ rest, mem, dest, source => do
    let source ← alignSource source type.alignment
    let (mem, _) ← type.dataFromDenseCopy functions mem (dest + displacement) source
    rest.dataFromDenseCopy functions mem dest (source + type.datasize)
end

/-! ## The blocks of a restore -/

def elementBlocks (blocks : Nat → Nat → Option (List Block)) (alignment stride datasize : Nat) :
    Nat → Nat → Nat → Option (List Block)
  | 0, _, _ => some []
  | n + 1, dest, source =>
    if padding source alignment < intRange then do
      let first ← blocks (alignUp dest alignment) (alignUp source alignment)
      let others ← elementBlocks blocks alignment stride datasize n
        (alignUp dest alignment + stride) (alignUp source alignment + datasize)
      some (first ++ others)
    else none

/-- The bytes that a restore moves the destination on by. -/
def Datatype.restoredSize : Datatype → Nat
  | .scalar s => s.size
  | t => t.buffersize

mutual
/-- The blocks copied when a plain type is restored, unless an `int` overflows. -/
def Datatype.restoreBlocks : Datatype → Nat → Nat → Option (List Block)
  | .scalar s, dest, source => some [⟨dest, source, s.size⟩]
  | .array subtype _ start subsize _, dest, source =>
    if subtype.simple && subtype.dense then
      some [⟨dest + start * subtype.buffersize, source, subsize * subtype.datasize⟩]
    else if intRange ≤ subsize then none
    else elementBlocks subtype.restoreBlocks subtype.alignment subtype.restoredSize subtype.datasize
      subsize (dest + start * subtype.buffersize) source
  | .record members buffersize _, dest, source =>
    if members.simple && members.denseIn buffersize members.alignment 0 then
      some [⟨dest, source, buffersize⟩]
    else members.restoreBlocks dest source
  | .tuple elements buffersize _, dest, source =>
    if elements.simple && elements.denseIn buffersize elements.alignment 0 then
      some [⟨dest, source, buffersize⟩]
    else elements.restoreBlocks dest source
  | .pointer _ _ _ _, dest, source => some [⟨dest, source, pointerSize⟩]

def Members.restoreBlocks : Members → Nat → Nat → Option (List Block)
  | .nil, _, _ => some []
  | .cons displacement type _ rest, dest, source =>
    if padding source type.alignment < intRange then do
      let first ← type.restoreBlocks (dest + displacement) (alignUp source type.alignment)
      let others ← rest.restoreBlocks dest (alignUp source type.alignment + type.datasize)
      some (first ++ others)
    else none
end

/-- A computation that copies the blocks, or fails when there are none. -/
def Runs {α : Type} (result : Except Failure α) (blocks : Option (List Block)) (mem : Mem Byte)
    (answer : Mem Byte → α) : Prop :=
  match blocks with
  | some bs => result = .ok (answer (runBlocks mem bs))
  | none => ∃ e, result = .error e

theorem alignSource_ok (h : padding source a < intRange) :
    alignSource source a = .ok (alignUp source a) := if_pos h

theorem alignSource_error (h : ¬padding source a < intRange) :
    ∃ e, alignSource source a = .error e := ⟨_, if_neg h⟩

/-- The blocks of one part and those of the parts after it. -/
theorem Runs.bind {first others : Option (List Block)} {next : α → Except Failure γ}
    {answer' : Mem Byte → γ} (h : Runs result first mem answer)
    (h' : ∀ mem, Runs (next (answer mem)) others mem answer') :
    Runs (result >>= next) (do some ((← first) ++ (← others))) mem answer' := by
  cases first with
  | none =>
    obtain ⟨e, rfl⟩ := h
    exact ⟨e, rfl⟩
  | some bs =>
    obtain rfl : result = _ := h
    have hnext := h' (runBlocks mem bs)
    cases others with
    | none =>
      obtain ⟨e, he⟩ := hnext
      exact ⟨e, he⟩
    | some =>
      refine Eq.trans hnext ?_
      rw [← runBlocks_append]

theorem Runs.map {blocks : Option (List Block)} (h : Runs result blocks mem answer) (f : α → γ) :
    Runs (result >>= fun x => .ok (f x)) blocks mem fun m => f (answer m) := by
  cases blocks with
  | none =>
    obtain ⟨e, rfl⟩ := h
    exact ⟨e, rfl⟩
  | some =>
    obtain rfl : result = _ := h
    rfl

theorem restoreElements_runs {copy : Mem Byte → Nat → Nat → CopyResult} (ha : 0 < a)
    (hcopy : ∀ mem dest source,
      Runs (copy mem dest source) (blocks dest source) mem fun m => (m, dest + stride))
    (n : Nat) (mem : Mem Byte) (dest source : Nat) :
    Runs (restoreElements copy a datasize n mem dest source)
      (elementBlocks blocks a stride datasize n dest source) mem fun m => m := by
  induction n generalizing mem dest source with
  | zero => rfl
  | succ n ih =>
    rw [restoreElements, elementBlocks, stdAlign_zero_size _ ha]
    by_cases hp : padding source a < intRange
    · rw [alignSource_ok hp, if_pos hp]
      exact (hcopy mem _ _).bind fun mem => ih mem _ _
    · obtain ⟨e, he⟩ := alignSource_error hp
      rw [he, if_neg hp]
      exact ⟨e, rfl⟩

mutual
theorem Datatype.dataFromDenseCopy_runs (functions : CopyFunctions) : ∀ (t : Datatype),
    t.WellFormed → t.Plain → ∀ (mem : Mem Byte) (dest source : Nat),
      Runs (t.dataFromDenseCopy functions mem dest source) (t.restoreBlocks dest source) mem
        fun m => (m, dest + t.restoredSize)
  | .scalar s, _, hp, mem, dest, source => by
    have hcopy : s.copy = none := hp
    simp only [Datatype.dataFromDenseCopy, Datatype.dataToDenseCopy, hcopy]
    rfl
  | .array subtype size start subsize attributes, hw, hp, mem, dest, source => by
    simp only [Datatype.dataFromDenseCopy, Datatype.restoreBlocks]
    split
    · rfl
    split
    · exact ⟨_, rfl⟩
    · exact (restoreElements_runs hw.1.alignment_pos
        (subtype.dataFromDenseCopy_runs functions hw.1 hp) subsize mem _ source).map _
  | .record members _ _, ⟨hw, _⟩, hp, mem, dest, source
  | .tuple members _ _, hw, hp, mem, dest, source => by
    simp only [Datatype.dataFromDenseCopy, Datatype.restoreBlocks]
    split
    · rfl
    · exact (members.dataFromDenseCopy_runs functions hw hp mem dest source).map _
  | .pointer _ _ _ _, _, hp, _, _, _ => hp.elim

theorem Members.dataFromDenseCopy_runs (functions : CopyFunctions) {n : Nat} : ∀ (ms : Members),
    ms.WellFormed n → ms.Plain → ∀ (mem : Mem Byte) (dest source : Nat),
      Runs (ms.dataFromDenseCopy functions mem dest source) (ms.restoreBlocks dest source) mem
        fun m => m
  | .nil, _, _, _, _, _ => rfl
  | .cons d type _ rest, hw, hp, mem, dest, source => by
    rw [Members.dataFromDenseCopy, Members.restoreBlocks]
    by_cases hpad : padding source type.alignment < intRange
    · rw [alignSource_ok hpad, if_pos hpad]
      exact (type.dataFromDenseCopy_runs functions hw.1 hp.1 mem _ _).bind fun mem =>
        rest.dataFromDenseCopy_runs functions hw.2.2.2 hp.2 mem _ _
    · obtain ⟨e, he⟩ := alignSource_error hpad
      rw [he, if_neg hpad]
      exact ⟨e, rfl⟩
end

/-! ## The blocks at other addresses -/

theorem padding_add {k : Nat} (hk : a ∣ k) (n : Nat) : padding (k + n) a = padding n a := by
  have h := alignUp_add hk n
  rw [alignUp, alignUp] at h
  omega

theorem elementBlocks_shift {d e : Nat} (hd : a ∣ d) (he : a ∣ e)
    (hblocks : ∀ x y, blocks (d + x) (e + y) = (blocks x y).map (List.map (Block.shift d e)))
    (n x y : Nat) :
    elementBlocks blocks a stride datasize n (d + x) (e + y) =
      (elementBlocks blocks a stride datasize n x y).map (List.map (Block.shift d e)) := by
  induction n generalizing x y with
  | zero => rfl
  | succ n ih =>
    rw [elementBlocks, elementBlocks, padding_add he, alignUp_add hd, alignUp_add he]
    split
    · rw [hblocks, Nat.add_assoc, Nat.add_assoc, ih]
      cases blocks (alignUp x a) (alignUp y a) with
      | none => rfl
      | some =>
        cases elementBlocks blocks a stride datasize n (alignUp x a + stride)
            (alignUp y a + datasize) with
        | none => rfl
        | some others => exact congrArg some List.map_append.symm
    · rfl

mutual
theorem Datatype.restoreBlocks_shift {d e : Nat} : ∀ (t : Datatype), t.WellFormed →
    t.alignment ∣ d → t.alignment ∣ e → ∀ x y,
      t.restoreBlocks (d + x) (e + y) = (t.restoreBlocks x y).map (List.map (Block.shift d e))
  | .scalar _, _, _, _, _, _ | .pointer _ _ _ _, _, _, _, _, _ => rfl
  | .array subtype _ start subsize _, hw, hd, he, x, y => by
    simp only [Datatype.restoreBlocks, Nat.add_assoc]
    split
    · rfl
    split
    · rfl
    · exact elementBlocks_shift hd he (subtype.restoreBlocks_shift hw.1 hd he) subsize _ _
  | .record members _ _, ⟨hw, _⟩, hd, he, x, y | .tuple members _ _, hw, hd, he, x, y => by
    simp only [Datatype.restoreBlocks]
    split
    · rfl
    · exact members.restoreBlocks_shift hw hd he x y

theorem Members.restoreBlocks_shift {d e n : Nat} : ∀ (ms : Members), ms.WellFormed n →
    ms.alignment ∣ d → ms.alignment ∣ e → ∀ x y,
      ms.restoreBlocks (d + x) (e + y) = (ms.restoreBlocks x y).map (List.map (Block.shift d e))
  | .nil, _, _, _, _, _ => rfl
  | .cons displacement type _ rest, hw, hd, he, x, y => by
    have he' : type.alignment ∣ e := hw.head_dvd.trans he
    rw [Members.restoreBlocks, Members.restoreBlocks, padding_add he', alignUp_add he',
      Nat.add_assoc, Nat.add_assoc]
    split
    · rw [type.restoreBlocks_shift hw.1 (hw.head_dvd.trans hd) he',
        rest.restoreBlocks_shift hw.2.2.2 (hw.rest_dvd.trans hd) (hw.rest_dvd.trans he)]
      cases type.restoreBlocks (x + displacement) (alignUp y type.alignment) with
      | none => rfl
      | some =>
        cases rest.restoreBlocks x (alignUp y type.alignment + type.datasize) with
        | none => rfl
        | some => exact congrArg some List.map_append.symm
    · rfl
end

/-- The blocks of all elements are those of the first one, at other addresses. -/
theorem elementBlocks_eq (stride : Nat) (ha : 0 < a)
    (hblocks : ∀ x y, a ∣ x → a ∣ y → blocks x y = (blocks 0 0).map (List.map (Block.shift x y)))
    {first : List Block} (hfirst : blocks 0 0 = some first) (n dest source : Nat)
    (hsource : n ≠ 0 → padding source a < intRange)
    (hnext : 1 < n → padding datasize a < intRange) :
    elementBlocks blocks a stride datasize n dest source =
      some ((List.range n).flatMap fun k => first.map
        (Block.shift (alignUp dest a + k * alignUp stride a)
          (alignUp source a + k * alignUp datasize a))) := by
  induction n generalizing dest source with
  | zero => rfl
  | succ n ih =>
    have hdest := dvd_alignUp dest ha
    have hfrom := dvd_alignUp source ha
    rw [elementBlocks, if_pos (hsource (Nat.succ_ne_zero n)), hblocks _ _ hdest hfrom, hfirst,
      ih _ _ (fun hn => by rw [padding_add hfrom]; exact hnext (by omega))
        (fun hn => hnext (by omega)),
      alignUp_add hdest, alignUp_add hfrom, List.range_succ_eq_map,
      List.flatMap_cons, List.flatMap_map]
    have hshift (k : Nat) :
        Block.shift (alignUp dest a + alignUp stride a + k * alignUp stride a)
            (alignUp source a + alignUp datasize a + k * alignUp datasize a) =
          Block.shift (alignUp dest a + k.succ * alignUp stride a)
            (alignUp source a + k.succ * alignUp datasize a) := by
      rw [Nat.succ_mul, Nat.succ_mul]
      congr 1 <;> omega
    simp only [hshift, Nat.zero_mul, Nat.add_zero]
    rfl

/-! ## Exact types -/

mutual
/-- What is copied as a block has its scalars where the densified type has them. Elements
that are restored one by one start at their alignment, and the data of one takes the source
to the next. -/
def Datatype.RestoreExact : Datatype → Prop
  | .scalar s => s.size = s.denseSize
  | .array subtype size start subsize attributes =>
    if subtype.simple && subtype.dense then
      (Datatype.array subtype size start subsize attributes).BlockExact
        (start * subtype.buffersize) (subsize * subtype.datasize)
    else subsize < intRange ∧ (subsize = 0 ∨
      subtype.RestoreExact ∧ subtype.alignment ∣ start * subtype.buffersize ∧
        (1 < subsize → subtype.alignment ∣ subtype.buffersize ∧
          padding subtype.datasize subtype.alignment < intRange ∧ (subtype.datasize = 0 ∨
            alignUp subtype.datasize subtype.alignment = subtype.densify.buffersize)))
  | .record members buffersize attributes =>
    if members.simple && members.denseIn buffersize members.alignment 0 then
      (Datatype.record members buffersize attributes).BlockExact 0 buffersize
    else members.RestoreExact 0 0
  | .tuple elements buffersize attributes =>
    if elements.simple && elements.denseIn buffersize elements.alignment 0 then
      (Datatype.tuple elements buffersize attributes).BlockExact 0 buffersize
    else elements.RestoreExact 0 0
  | .pointer _ _ _ _ => False

/-- The same for members when the source has come to `c` and the densified form to `c'`. -/
def Members.RestoreExact : Members → Nat → Nat → Prop
  | .nil, _, _ => True
  | .cons d type _ rest, c, c' =>
    (type.RestoreExact ∧ type.alignment ∣ d ∧ padding c type.alignment < intRange ∧
      (type.datasize = 0 ∨ alignUp c type.alignment = alignUp c' type.alignment)) ∧
    rest.RestoreExact (alignUp c type.alignment + type.datasize)
      (alignUp c' type.alignment + type.densify.buffersize)
end

theorem Datatype.RestoreExact.restoredSize : ∀ {t : Datatype}, t.RestoreExact →
    t.restoredSize = t.buffersize
  | .scalar _, h => h
  | .array _ _ _ _ _, _ | .record _ _ _, _ | .tuple _ _ _, _ => rfl

/-- The blocks write only where they may, and bring every byte of every scalar from its
place. -/
structure Delivers (leaf : Nat → Nat → Scalar → Prop) (region : Nat → Prop)
    (bs : List Block) : Prop where
  place : ∀ x y, Brings bs x y →
    region x ∧ ∀ o o' s, leaf o o' s → ∀ i < s.size, x = o + i → y = o' + i
  all : ∀ o o' s, leaf o o' s → s.size = s.denseSize ∧ ∀ i < s.size, ∃ y, Brings bs (o + i) y

theorem Delivers.inside {leaf : Nat → Nat → Scalar → Prop} {region : Nat → Prop}
    (h : Delivers leaf region bs) {o o' : Nat} {s : Scalar} (hleaf : leaf o o' s) {i : Nat}
    (hi : i < s.size) : region (o + i) := by
  obtain ⟨y, hy⟩ := (h.all o o' s hleaf).2 i hi
  exact (h.place _ y hy).1

/-- A type that is restored as one block. -/
theorem Datatype.BlockExact.delivers {base n : Nat} (h : t.BlockExact base n) (hsized : t.Sized)
    (hn : base + n ≤ t.buffersize) : Delivers t.Leaf (· < t.buffersize) [⟨base, 0, n⟩] := by
  refine ⟨fun x y hxy => ?_, fun o o' s hleaf => ⟨hsized.leaf hleaf, fun i hi => ?_⟩⟩
  · obtain ⟨j, hj, rfl, rfl⟩ := (brings_singleton _).mp hxy
    refine ⟨by simp only at hj ⊢; omega, fun o o' s hleaf i hi heq => ?_⟩
    have hcopied := h.copied hleaf hi
    simp only at heq ⊢
    omega
  · have hcopied := h.copied hleaf hi
    exact ⟨o' + i, (brings_singleton _).mpr ⟨o' + i, hcopied.2, hcopied.1, (Nat.zero_add _).symm⟩⟩

/-- Elements that are restored each at its place, from its place. -/
theorem Delivers.elements {size start n : Nat} {as : Attributes}
    (h : Delivers t.Leaf (· < t.buffersize) bs) (hfits : start + n ≤ size) {source : Nat → Nat}
    (hsource : ∀ k < n, t.datasize = 0 ∨ source k = k * t.densify.buffersize) :
    Delivers (Datatype.array t size start n as).Leaf (· < size * t.buffersize)
      ((List.range n).flatMap fun k =>
        bs.map (Block.shift ((start + k) * t.buffersize) (source k))) := by
  refine ⟨fun x y hxy => ?_, fun o o' s hleaf => ?_⟩
  · obtain ⟨k, hk, hxy⟩ := brings_flatMap.mp hxy
    obtain ⟨x', y', hbrings, rfl, rfl⟩ := (brings_map_shift _ _ _ _ _).mp hxy
    rw [List.mem_range] at hk
    obtain ⟨hx', hplace⟩ := h.place x' y' hbrings
    refine ⟨add_lt_mul (by omega) hx', ?_⟩
    rintro _ _ s ⟨j, hj, p, p', hleaf, rfl, rfl⟩ i hi heq
    have hlt := h.inside hleaf hi
    rw [Nat.add_assoc] at heq
    obtain ⟨hjk, hx⟩ := mul_add_inj hx' hlt heq
    obtain rfl : k = j := by omega
    have hdata := hleaf.size_le_datasize
    have hy := hplace p p' s hleaf i hi hx
    have hfrom := (hsource k hk).resolve_left (by omega)
    omega
  · obtain ⟨k, hk, p, p', hleaf, rfl, rfl⟩ := hleaf
    obtain ⟨hsize, hbrings⟩ := h.all p p' s hleaf
    refine ⟨hsize, fun i hi => ?_⟩
    obtain ⟨y, hy⟩ := hbrings i hi
    exact ⟨_, brings_flatMap.mpr ⟨k, List.mem_range.mpr hk, (brings_map_shift _ _ _ _ _).mpr
      ⟨p + i, y, hy, Nat.add_assoc _ _ _, rfl⟩⟩⟩

/-- A member that is restored at its place, and those after it. -/
theorem Delivers.member {d c c' e n : Nat} {type : Datatype} {name : String} {rest : Members}
    {bs' : List Block} (hw : (Members.cons d type name rest).WellFormed n)
    (h : Delivers type.Leaf (· < type.buffersize) bs)
    (he : type.datasize = 0 ∨ e = alignUp c' type.alignment)
    (hc : c = alignUp c' type.alignment + type.densify.buffersize)
    (h' : Delivers (rest.Leaf c) (· ∈ rest.region) bs') :
    Delivers ((Members.cons d type name rest).Leaf c')
      (· ∈ (Members.cons d type name rest).region) (bs.map (Block.shift d e) ++ bs') := by
  have hapart := Finset.disjoint_left.mp hw.2.2.1.disjoint
  have hmem : ∀ x < type.buffersize, d + x ∈ Finset.Ico d (d + type.buffersize) :=
    fun x hx => Finset.mem_Ico.mpr ⟨Nat.le_add_right d x, Nat.add_lt_add_left hx d⟩
  subst hc
  refine ⟨fun x y hxy => ?_, ?_⟩
  · obtain hxy | hxy := brings_append.mp hxy
    · obtain ⟨x', y', hbrings, rfl, rfl⟩ := (brings_map_shift _ _ _ _ _).mp hxy
      obtain ⟨hx', hplace⟩ := h.place x' y' hbrings
      refine ⟨Finset.mem_union_left _ (hmem x' hx'), ?_⟩
      rintro o o' s (⟨p, p', hleaf, rfl, rfl⟩ | hleaf) i hi heq
      · have hdata := hleaf.size_le_datasize
        have hy := hplace p p' s hleaf i hi (by omega)
        have hfrom := he.resolve_left (by omega)
        omega
      · exact absurd (heq ▸ h'.inside hleaf hi) (hapart (hmem x' hx'))
    · obtain ⟨hx, hplace⟩ := h'.place x y hxy
      refine ⟨Finset.mem_union_right _ hx, ?_⟩
      rintro o o' s (⟨p, p', hleaf, rfl, rfl⟩ | hleaf) i hi heq
      · rw [heq, Nat.add_assoc] at hx
        exact absurd hx (hapart (hmem _ (h.inside hleaf hi)))
      · exact hplace o o' s hleaf i hi heq
  · rintro o o' s (⟨p, p', hleaf, rfl, rfl⟩ | hleaf)
    · obtain ⟨hsize, hbrings⟩ := h.all p p' s hleaf
      refine ⟨hsize, fun i hi => ?_⟩
      obtain ⟨y, hy⟩ := hbrings i hi
      exact ⟨_, brings_append.mpr (.inl ((brings_map_shift _ _ _ _ _).mpr
        ⟨p + i, y, hy, Nat.add_assoc _ _ _, rfl⟩))⟩
    · obtain ⟨hsize, hbrings⟩ := h'.all o o' s hleaf
      refine ⟨hsize, fun i hi => ?_⟩
      obtain ⟨y, hy⟩ := hbrings i hi
      exact ⟨y, brings_append.mpr (.inr hy)⟩

/-- A record or tuple restored as a block, or else member by member. -/
theorem Members.delivers_block {ms : Members} {n : Nat} (as : Attributes) (hw : ms.WellFormed n)
    (hslow : ms.RestoreExact 0 0 →
      ∃ bs, ms.restoreBlocks 0 0 = some bs ∧ Delivers (ms.Leaf 0) (· ∈ ms.region) bs)
    (h : (Datatype.tuple ms n as).RestoreExact) :
    ∃ bs, (Datatype.tuple ms n as).restoreBlocks 0 0 = some bs ∧
      Delivers (Datatype.tuple ms n as).Leaf (· < n) bs := by
  simp only [Datatype.RestoreExact] at h
  simp only [Datatype.restoreBlocks]
  cases hf : ms.simple && ms.denseIn n ms.alignment 0 with
  | true =>
    rw [if_pos hf] at h
    rw [Bool.and_eq_true] at hf
    exact ⟨_, rfl, h.delivers (Members.sized_of_dense hf.2) (Nat.le_of_eq (Nat.zero_add n))⟩
  | false =>
    rw [hf] at h
    obtain ⟨bs, hbs, hdelivers⟩ := hslow h
    refine ⟨bs, hbs, ⟨fun x y hxy => ?_, hdelivers.all⟩⟩
    obtain ⟨hx, hplace⟩ := hdelivers.place x y hxy
    exact ⟨Finset.mem_range.mp (hw.region_subset hx), hplace⟩

mutual
theorem Datatype.RestoreExact.delivers : ∀ {t : Datatype}, t.WellFormed → t.RestoreExact →
    ∃ bs, t.restoreBlocks 0 0 = some bs ∧ Delivers t.Leaf (· < t.buffersize) bs
  | .scalar s, _, h => by
    refine ⟨_, rfl, Datatype.BlockExact.delivers ?_ h (Nat.le_of_eq ((Nat.zero_add _).trans h))⟩
    rintro o o' s' ⟨rfl, rfl, rfl⟩ _
    exact ⟨rfl, Nat.le_of_eq (Nat.zero_add _)⟩
  | .array subtype size start n as, hw, h => by
    simp only [Datatype.RestoreExact] at h
    simp only [Datatype.restoreBlocks, Nat.zero_add]
    cases hf : subtype.simple && subtype.dense with
    | true =>
      rw [if_pos hf] at h
      rw [Bool.and_eq_true] at hf
      have hsized := Datatype.sized_of_dense hf.2
      refine ⟨_, rfl, h.delivers (.inr hsized) ?_⟩
      have hdata := Nat.mul_le_mul_left n (Datatype.datasize_le hw.1 hsized)
      have hwindow := Nat.mul_le_mul_right subtype.buffersize hw.2
      rw [Nat.add_mul] at hwindow
      simp only [Datatype.buffersize]
      omega
    | false =>
      simp only [hf, Bool.false_eq_true, if_false] at h ⊢
      obtain ⟨hint, h⟩ := h
      rw [if_neg (Nat.not_le.mpr hint)]
      obtain rfl | ⟨hsub, hstart, hnext⟩ := h
      · refine ⟨[], rfl, ⟨fun x y hxy => ?_, ?_⟩⟩
        · obtain ⟨b, hb, _⟩ := hxy
          cases hb
        · rintro o o' s ⟨k, hk, _⟩
          omega
      · obtain ⟨bs, hbs, hdelivers⟩ := hsub.delivers hw.1
        have hblocks := elementBlocks_eq subtype.restoredSize hw.1.alignment_pos
          (fun x y hx hy => subtype.restoreBlocks_shift hw.1 hx hy 0 0) hbs n
          (start * subtype.buffersize) 0 (fun _ => by simp [padding, intRange])
          (fun hn => (hnext hn).2.1)
        refine ⟨_, hblocks, ?_⟩
        have hplaces : ∀ k ∈ List.range n,
            alignUp (start * subtype.buffersize) subtype.alignment +
              k * alignUp subtype.restoredSize subtype.alignment =
            (start + k) * subtype.buffersize := by
          intro k hk
          rw [alignUp_of_dvd hstart, Nat.add_mul, hsub.restoredSize]
          obtain rfl | hpos := Nat.eq_zero_or_pos k
          · simp
          · rw [List.mem_range] at hk
            rw [alignUp_of_dvd (hnext (by omega)).1]
        rw [List.flatMap_congr fun k hk => by rw [hplaces k hk]]
        refine hdelivers.elements hw.2 fun k hk => ?_
        obtain rfl | hpos := Nat.eq_zero_or_pos k
        · exact .inr (by simp)
        · obtain hz | hsize := (hnext (by omega)).2.2
          · exact .inl hz
          · exact .inr (by rw [hsize, alignUp_zero, Nat.zero_add])
  | .record ms n as, ⟨hw, _⟩, h | .tuple ms n as, hw, h =>
    Members.delivers_block as hw (fun h => Members.RestoreExact.delivers hw h) h

theorem Members.RestoreExact.delivers : ∀ {m : Members} {n c c' : Nat}, m.WellFormed n →
    m.RestoreExact c c' →
      ∃ bs, m.restoreBlocks 0 c = some bs ∧ Delivers (m.Leaf c') (· ∈ m.region) bs
  | .nil, _, _, _, _, _ => by
    refine ⟨[], rfl, ⟨fun x y hxy => ?_, fun _ _ _ h => h.elim⟩⟩
    obtain ⟨b, hb, _⟩ := hxy
    cases hb
  | .cons d type _ rest, n, c, c', hw, ⟨⟨htype, hd, hpad, hstart⟩, hrest⟩ => by
    obtain ⟨bs, hbs, hdelivers⟩ := htype.delivers hw.1
    obtain ⟨bs', hbs', hothers⟩ := hrest.delivers hw.2.2.2
    have hshift := type.restoreBlocks_shift hw.1 hd (dvd_alignUp c hw.1.alignment_pos) 0 0
    rw [hbs] at hshift
    refine ⟨_, ?_, hdelivers.member hw hstart rfl hothers⟩
    rw [Members.restoreBlocks, if_pos hpad, Nat.zero_add, hbs']
    exact congrArg (fun first => do some ((← first) ++ (← some bs'))) hshift
end

/-! ## Faithful restores -/

/-- Restoring any content, from a buffer apart from the data: nothing but the data is
changed, and read under the type it has at every path what the buffer has there under
the densified type. -/
def RestoreFaithful (functions : CopyFunctions) (t : Datatype) : Prop :=
  ∀ (mem : Mem Byte) (dest source : Nat), t.alignment ∣ dest → t.alignment ∣ source →
    dest + t.buffersize ≤ source ∨ source + t.densify.buffersize ≤ dest →
    ∃ mem' stop, t.dataFromDenseCopy functions mem dest source = .ok (mem', stop) ∧
      (∀ a, a < dest ∨ dest + t.buffersize ≤ a → mem' a = mem a) ∧
      ∀ path, readScalar mem' path t dest = readScalar mem path t.densify source

theorem Datatype.dataFromDenseCopy_blocks (functions : CopyFunctions) (hw : t.WellFormed)
    (hp : t.Plain) {dest : Nat} (hd : t.alignment ∣ dest) (hs : t.alignment ∣ source)
    (hbs : t.restoreBlocks 0 0 = some bs) (mem : Mem Byte) :
    t.dataFromDenseCopy functions mem dest source =
      .ok (runBlocks mem (bs.map (Block.shift dest source)), dest + t.restoredSize) := by
  have hruns := t.dataFromDenseCopy_runs functions hw hp mem dest source
  have hshift := t.restoreBlocks_shift hw hd hs 0 0
  rw [hbs] at hshift
  rw [Nat.add_zero, Nat.add_zero] at hshift
  rw [hshift] at hruns
  exact hruns

theorem Block.writes_map_shift {d e : Nat} (h : ∃ b ∈ bs.map (Block.shift d e), b.Writes a) :
    ∃ b ∈ bs, ∃ x, b.Writes x ∧ a = d + x := by
  obtain ⟨_, hmem, ha⟩ := h
  obtain ⟨b, hb, rfl⟩ := List.mem_map.mp hmem
  obtain ⟨x, rfl⟩ := Nat.exists_eq_add_of_le ((Nat.le_add_right d b.dest).trans ha.1)
  exact ⟨b, hb, x, (Block.writes_shift d e b x).mp ha, rfl⟩

/-- A plain, well-formed type that is exact is restored faithfully, for every content. -/
theorem dataFromDenseCopy_faithful (functions : CopyFunctions) (t : Datatype)
    (hw : t.WellFormed) (hp : t.Plain) (hexact : t.RestoreExact) : RestoreFaithful functions t := by
  intro mem dest source hd hs hapart
  obtain ⟨bs, hbs, hdelivers⟩ := hexact.delivers hw
  have hwrites : ∀ a, a < dest ∨ dest + t.buffersize ≤ a →
      ∀ b ∈ bs.map (Block.shift dest source), ¬b.Writes a := by
    intro a ha b hb hw
    obtain ⟨b, hb, x, hx, rfl⟩ := Block.writes_map_shift ⟨b, hb, hw⟩
    obtain ⟨y, hy⟩ := exists_brings hb hx
    have hlt := (hdelivers.place x y hy).1
    omega
  refine ⟨_, _, t.dataFromDenseCopy_blocks functions hw hp hd hs hbs mem, fun a ha => ?_,
    fun path => ?_⟩
  · exact runBlocks_of_unwritten mem (hwrites a ha)
  · obtain ⟨o, o', s, hleaf, hl⟩ | hl := leads_or_nowhere path t hp.pointerFree
    · obtain ⟨hsize, hbytes⟩ := hdelivers.all o o' s hleaf
      have hle := hleaf.le_densified
      refine (hl.readScalar_eq _ _ _ _).mpr ⟨hsize, fun i hi => ?_⟩
      obtain ⟨y, hy⟩ := hbytes i hi
      have hfrom : ∀ y', Brings bs (o + i) y' → y' = o' + i :=
        fun y' hy' => (hdelivers.place _ y' hy').2 o o' s hleaf i hi rfl
      have horigin := origin_shift dest source bs (o + i)
      rw [origin_of_brings (hfrom y hy ▸ hy) hfrom, Option.map_some, ← Nat.add_assoc,
        ← Nat.add_assoc] at horigin
      exact runBlocks_of_origin mem horigin (hwrites _ (by omega))
    · exact hl.readScalar_eq _ _ _ _

theorem sparseRecord_restores :
    sparseRecord.WellFormed ∧ sparseRecord.Plain ∧
      RestoreFaithful (fun _ _ _ _ _ => .error (.undefined "no copy function")) sparseRecord := by
  have hw := sparseRecord_wellFormed
  have hp : sparseRecord.Plain := ⟨rfl, rfl, trivial⟩
  refine ⟨hw, hp, dataFromDenseCopy_faithful _ _ hw hp ?_⟩
  exact ⟨⟨rfl, by decide, by decide, .inr rfl⟩, ⟨rfl, by decide, by decide, .inr rfl⟩, trivial⟩

/-- Records of two bytes around a number, with space behind them. -/
def spacedRecords : Datatype :=
  .array (.record (.cons 0 typeForInt8 "first" (.cons 4 typeForInt32 "second"
    (.cons 8 typeForInt8 "third" .nil))) 16 []) 2 0 2 []

/-- Six of the twelve bytes of a densified record are data: the second record is read
at the eighth byte of the buffer. -/
theorem dataFromDenseCopy_misreads_second_record :
    spacedRecords.WellFormed ∧ spacedRecords.Plain ∧
    ∃ mem' stop, spacedRecords.dataFromDenseCopy
        (fun _ _ _ _ _ => .error (.undefined "no copy function"))
        (fun a => if a = 212 then 1 else 0) 100 200 = .ok (mem', stop) ∧
      readScalar (fun a => if a = 212 then 1 else 0) [.index 1, .member "first"]
        spacedRecords.densify 200 = some [1] ∧
      readScalar mem' [.index 1, .member "first"] spacedRecords 100 = some [0] := by
  refine ⟨?_, ⟨rfl, rfl, rfl, trivial⟩, _, _, rfl, by decide, by decide⟩
  simp [spacedRecords, Datatype.WellFormed, Members.WellFormed, Members.Apart,
    Members.DistinctNames, Members.HasName, typeForInt8, typeForInt32, Scalar.make,
    Datatype.buffersize]
  omega

end Pdi.Datatypes
