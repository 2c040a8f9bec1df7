import Pdi.Memory
import Mathlib.Logic.Function.Basic

/-!
# Sequences of block copies

A sequence of blocks copied one after the other out of one memory into another,
where blocks may be written over one another. What a cell holds afterwards is
given by the cell it comes from, which is a matter of the blocks alone.
-/
namespace Pdi.Memory

variable {β : Type} {x y : Nat}

structure Block where
  dest : Nat
  source : Nat
  size : Nat

def Block.Writes (b : Block) (x : Nat) : Prop := b.dest ≤ x ∧ x < b.dest + b.size

instance (b : Block) (x : Nat) : Decidable (b.Writes x) :=
  inferInstanceAs (Decidable (_ ∧ _))

/-- The blocks, read in `old` and written into `mem` in this order. -/
def copyAll (old : Mem β) : List Block → Mem β → Mem β
  | [], mem => mem
  | b :: bs, mem => copyAll old bs (memcpy old mem b.dest b.source b.size)

/-- The cell that the last block to write `x` writes there. -/
def origin : List Block → Nat → Option Nat
  | [], _ => none
  | b :: bs, x =>
    match origin bs x with
    | some y => some y
    | none => if b.Writes x then some (b.source + (x - b.dest)) else none

theorem copyAll_append (old : Mem β) (bs bs' : List Block) (mem : Mem β) :
    copyAll old (bs ++ bs') mem = copyAll old bs' (copyAll old bs mem) := by
  induction bs generalizing mem with
  | nil => rfl
  | cons b bs ih => exact ih _

theorem copyAll_apply (old : Mem β) (bs : List Block) (mem : Mem β) (x : Nat) :
    copyAll old bs mem x = match origin bs x with
      | some y => old y
      | none => mem x := by
  induction bs generalizing mem with
  | nil => rfl
  | cons b bs ih =>
    rw [copyAll, ih, origin]
    cases origin bs x with
    | some => rfl
    | none =>
      by_cases hx : b.Writes x
      · rw [if_pos hx]
        exact if_pos hx
      · rw [if_neg hx]
        exact if_neg hx

variable {bs : List Block}

/-- What is written comes from a block that writes there. -/
theorem exists_of_origin (h : origin bs x = some y) :
    ∃ b ∈ bs, b.Writes x ∧ y = b.source + (x - b.dest) := by
  induction bs with
  | nil => cases h
  | cons b bs ih =>
    rw [origin] at h
    cases ho : origin bs x with
    | some =>
      rw [ho] at h
      cases h
      obtain ⟨b', hb', hx, hy⟩ := ih ho
      exact ⟨b', List.mem_cons_of_mem b hb', hx, hy⟩
    | none =>
      rw [ho] at h
      by_cases hx : b.Writes x
      · simp only [if_pos hx, Option.some.injEq] at h
        exact ⟨b, List.mem_cons_self, hx, h.symm⟩
      · simp only [if_neg hx] at h
        cases h

variable {b : Block}

theorem origin_ne_none (hb : b ∈ bs) (hx : b.Writes x) : origin bs x ≠ none := by
  induction bs with
  | nil => cases hb
  | cons b' bs ih =>
    rw [origin]
    cases ho : origin bs x with
    | some => simp
    | none =>
      obtain rfl | hb := List.mem_cons.mp hb
      · simp [hx]
      · exact absurd ho (ih hb)

/-- A cell that no later block writes keeps what a block has put there. -/
theorem origin_of_pairwise {ι : Type*} {block : ι → Block} {is : List ι}
    (hp : is.Pairwise fun i j => ∀ x, (block i).Writes x → ¬ (block j).Writes x) {i : ι}
    (hi : i ∈ is) (hx : (block i).Writes x) :
    origin (is.map block) x = some ((block i).source + (x - (block i).dest)) := by
  induction is with
  | nil => cases hi
  | cons j is ih =>
    obtain ⟨hhead, htail⟩ := List.pairwise_cons.mp hp
    rw [List.map_cons, origin]
    obtain rfl | hi := List.mem_cons.mp hi
    · cases ho : origin (is.map block) x with
      | none => exact if_pos hx
      | some =>
        obtain ⟨_, hb, hw, _⟩ := exists_of_origin ho
        obtain ⟨k, hk, rfl⟩ := List.mem_map.mp hb
        exact absurd hw (hhead k hk x hx)
    · rw [ih htail hi]

theorem copyAll_of_unwritten (old : Mem β) (mem : Mem β) (h : ∀ b ∈ bs, ¬ b.Writes x) :
    copyAll old bs mem x = mem x := by
  rw [copyAll_apply]
  cases ho : origin bs x with
  | none => rfl
  | some =>
    obtain ⟨b, hb, hx, _⟩ := exists_of_origin ho
    exact absurd hx (h b hb)

/-! ## Blocks copied within one memory -/

def runBlocks (mem : Mem β) : List Block → Mem β
  | [] => mem
  | b :: bs => runBlocks (memcpy mem mem b.dest b.source b.size) bs

theorem runBlocks_append (mem : Mem β) (bs bs' : List Block) :
    runBlocks mem (bs ++ bs') = runBlocks (runBlocks mem bs) bs' := by
  induction bs generalizing mem with
  | nil => rfl
  | cons b bs ih => exact ih _

theorem memcpy_of_not_writes (old mem : Mem β) (h : ¬b.Writes x) :
    memcpy old mem b.dest b.source b.size x = mem x := if_neg h

theorem runBlocks_of_unwritten (mem : Mem β) (h : ∀ b ∈ bs, ¬b.Writes x) :
    runBlocks mem bs x = mem x := by
  induction bs generalizing mem with
  | nil => rfl
  | cons b bs ih =>
    rw [List.forall_mem_cons] at h
    rw [runBlocks, ih _ h.2, memcpy_of_not_writes _ _ h.1]

theorem unwritten_of_origin (h : origin bs x = none) :
    ∀ b ∈ bs, ¬b.Writes x := fun _ hb hx => origin_ne_none hb hx h

/-- A cell that comes from one which no block writes. -/
theorem runBlocks_of_origin (mem : Mem β) (h : origin bs x = some y) (hy : ∀ b ∈ bs, ¬b.Writes y) :
    runBlocks mem bs x = mem y := by
  induction bs generalizing mem with
  | nil => cases h
  | cons b bs ih =>
    rw [List.forall_mem_cons] at hy
    rw [runBlocks]
    rw [origin] at h
    cases ho : origin bs x with
    | some =>
      rw [ho] at h
      rw [ih _ (ho.trans h) hy.2, memcpy_of_not_writes _ _ hy.1]
    | none =>
      rw [ho] at h
      rw [runBlocks_of_unwritten _ (unwritten_of_origin ho)]
      by_cases hx : b.Writes x
      · simp only [if_pos hx, Option.some.injEq] at h
        rw [← h]
        exact if_pos hx
      · simp only [if_neg hx] at h
        cases h

def Block.shift (d e : Nat) (b : Block) : Block := ⟨d + b.dest, e + b.source, b.size⟩

@[simp] theorem Block.writes_shift (d e : Nat) (b : Block) (x : Nat) :
    (b.shift d e).Writes (d + x) ↔ b.Writes x := by
  simp only [Block.Writes, Block.shift]
  omega

theorem origin_shift (d e : Nat) (bs : List Block) (x : Nat) :
    origin (bs.map (Block.shift d e)) (d + x) = (origin bs x).map (e + ·) := by
  induction bs with
  | nil => rfl
  | cons b bs ih =>
    simp only [List.map_cons, origin, ih, Block.writes_shift]
    cases origin bs x with
    | some => rfl
    | none =>
      simp only [Option.map_none, Block.shift]
      split
      · rw [Option.map_some, Nat.add_sub_add_left, Nat.add_assoc]
      · rfl

/-! ## Which cell goes where -/

/-- One of the blocks copies the cell `y` to the cell `x`. -/
def Brings (bs : List Block) (x y : Nat) : Prop :=
  ∃ b ∈ bs, ∃ i < b.size, x = b.dest + i ∧ y = b.source + i

section Brings

theorem brings_of_origin (h : origin bs x = some y) : Brings bs x y := by
  obtain ⟨b, hb, ⟨hle, hlt⟩, hy⟩ := exists_of_origin h
  exact ⟨b, hb, x - b.dest, by omega, by omega, hy⟩

theorem Brings.writes (h : Brings bs x y) : ∃ b ∈ bs, b.Writes x := by
  obtain ⟨b, hb, i, hi, rfl, _⟩ := h
  exact ⟨b, hb, Nat.le_add_right _ _, Nat.add_lt_add_left hi _⟩

theorem exists_brings (hb : b ∈ bs) (h : b.Writes x) : ∃ y, Brings bs x y := by
  obtain ⟨i, rfl⟩ := Nat.exists_eq_add_of_le h.1
  exact ⟨b.source + i, b, hb, i, Nat.lt_of_add_lt_add_left h.2, rfl, rfl⟩

/-- A cell that only one cell is copied to comes from there. -/
theorem origin_of_brings (h : Brings bs x y) (hunique : ∀ y', Brings bs x y' → y' = y) :
    origin bs x = some y := by
  obtain ⟨b, hb, hwrites⟩ := h.writes
  cases ho : origin bs x with
  | none => exact absurd ho (origin_ne_none hb hwrites)
  | some y' => rw [hunique y' (brings_of_origin ho)]

theorem brings_singleton (b : Block) :
    Brings [b] x y ↔ ∃ i < b.size, x = b.dest + i ∧ y = b.source + i := by
  simp [Brings]

theorem brings_append {bs' : List Block} : Brings (bs ++ bs') x y ↔
    Brings bs x y ∨ Brings bs' x y := by
  simp only [Brings, List.mem_append, or_and_right, exists_or]

theorem brings_map_shift (d e : Nat) (bs : List Block) (x y : Nat) :
    Brings (bs.map (Block.shift d e)) x y ↔ ∃ x' y', Brings bs x' y' ∧ x = d + x' ∧ y = e + y' := by
  constructor
  · rintro ⟨_, hmem, i, hi, rfl, rfl⟩
    obtain ⟨b, hb, rfl⟩ := List.mem_map.mp hmem
    exact ⟨b.dest + i, b.source + i, ⟨b, hb, i, hi, rfl, rfl⟩, Nat.add_assoc _ _ _,
      Nat.add_assoc _ _ _⟩
  · rintro ⟨_, _, ⟨b, hb, i, hi, rfl, rfl⟩, rfl, rfl⟩
    exact ⟨b.shift d e, List.mem_map_of_mem hb, i, hi, (Nat.add_assoc _ _ _).symm,
      (Nat.add_assoc _ _ _).symm⟩

theorem brings_flatMap {α : Type*} {l : List α} {f : α → List Block} :
    Brings (l.flatMap f) x y ↔ ∃ k ∈ l, Brings (f k) x y := by
  constructor
  · rintro ⟨b, hb, hcell⟩
    obtain ⟨k, hk, hb⟩ := List.mem_flatMap.mp hb
    exact ⟨k, hk, b, hb, hcell⟩
  · rintro ⟨k, hk, b, hb, hcell⟩
    exact ⟨b, List.mem_flatMap.mpr ⟨k, hk, hb⟩, hcell⟩

end Brings

/-- Some number is beyond all the cells that the blocks write. -/
theorem exists_writes_lt (bs : List Block) : ∃ m, ∀ b ∈ bs, ∀ x, b.Writes x → x < m := by
  induction bs with
  | nil => exact ⟨0, by simp⟩
  | cons b bs ih =>
    obtain ⟨m, hm⟩ := ih
    refine ⟨m + (b.dest + b.size), ?_⟩
    rw [List.forall_mem_cons]
    constructor
    · intro x hx
      have hlt := hx.2
      omega
    · intro b' hb' x hx
      have hlt := hm b' hb' x hx
      omega

end Pdi.Memory
