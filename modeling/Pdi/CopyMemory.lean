import Pdi.Destroy
import Pdi.Traced

/-!
# The memory of a copy

`do_copy` over-allocates, aligns an address in the block, and fills it with the data. The
block goes back to the allocator when the copy is destroyed, or at once if the data cannot
be copied. Both times it is the pointer that the block was obtained with that has to be
given back, and `std::align` moves that very pointer.
-/
namespace Pdi.Datatypes

open Pdi.Align Pdi.Memory Pdi.Trace

/-- The result of `std::align` with the two arguments that it changes. -/
structure AlignedPointer where
  result : Nat
  ptr : Nat
  space : Nat

/-- `std::align`: if the data fits, the pointer moves to the aligned address, and the space
shrinks by as much. Otherwise nothing changes. -/
def alignInPlace (alignment size ptr space : Nat) : AlignedPointer :=
  if padding ptr alignment + size ≤ space then
    ⟨ptr + padding ptr alignment, ptr + padding ptr alignment, space - padding ptr alignment⟩
  else ⟨0, ptr, space⟩

inductive MemoryEvent where
  | allocate (size address : Nat)
  /-- Data is copied to an address. -/
  | fill (address : Nat)
  | destroy (call : DestroyCall)
  | deallocate (address : Nat)
  deriving DecidableEq

/-- The reference that `do_copy` returns, with the pointer that its free function has
captured. -/
structure CopyRef where
  data : Nat
  captured : Nat
  type : Datatype

/-- What happens when the last reference to the copy goes away. -/
def CopyRef.release (r : CopyRef) : List MemoryEvent :=
  (r.type.destroyData r.data).map .destroy ++ [.deallocate r.captured]

/-- `do_copy` with its use of memory; `buffer` is the address that `operator new` returns. -/
def doCopyMemory (functions : CopyFunctions) (type : Datatype) (mem : Mem Byte)
    (source buffer : Nat) : Traced MemoryEvent Failure (Option (Mem Byte × CopyRef)) :=
  if type.densify.buffersize = 0 then pure none
  else do
    let size := type.densify.buffersize + (type.densify.alignment - 1)
    emit (.allocate size buffer)
    -- from here on, the variable `buffer` of the source is the `ptr` of this
    let aligned := alignInPlace type.densify.alignment type.densify.buffersize buffer size
    emit (.fill aligned.result)
    match type.dataToDenseCopy functions mem mem aligned.result source with
    | .ok (mem, _) => pure (some (mem, ⟨aligned.result, aligned.ptr, type.densify⟩))
    | .error e => do
      emit (.deallocate aligned.ptr)
      fail e

/-! ## What is allocated and what is given back -/

/-- All that happens with the memory of a copy until it is gone. -/
def lifetime (run : Traced MemoryEvent Failure (Option (Mem Byte × CopyRef))) : List MemoryEvent :=
  run.trace ++ match run.result with
    | .ok (some (_, ref)) => ref.release
    | _ => []

def allocations (events : List MemoryEvent) : List Nat :=
  events.filterMap fun
    | .allocate _ address => some address
    | _ => none

def deallocations (events : List MemoryEvent) : List Nat :=
  events.filterMap fun
    | .deallocate address => some address
    | _ => none

/-- All data is copied to an aligned address of an allocated block that holds it whole. -/
def BlockHoldsData (type : Datatype) (events : List MemoryEvent) : Prop :=
  ∀ data, .fill data ∈ events → ∃ size buffer, .allocate size buffer ∈ events ∧
    type.alignment ∣ data ∧ buffer ≤ data ∧ data + type.buffersize ≤ buffer + size

/-- Every pointer that is given back was obtained, and the other way round, in this order. -/
def GivenBack (events : List MemoryEvent) : Prop := deallocations events = allocations events

/-- Destroying data neither allocates nor gives back. -/
theorem filterMap_release {f : MemoryEvent → Option Nat} (hf : ∀ c, f (.destroy c) = none)
    (r : CopyRef) : r.release.filterMap f = (f (.deallocate r.captured)).toList := by
  have hdestroy : ((r.type.destroyData r.data).map MemoryEvent.destroy).filterMap f = [] := by
    simp [hf]
  rw [CopyRef.release, List.filterMap_append, hdestroy, List.nil_append]
  cases hcall : f (.deallocate r.captured) <;> simp [hcall]

theorem deallocations_release (r : CopyRef) : deallocations r.release = [r.captured] :=
  filterMap_release (fun _ => rfl) r

theorem allocations_release (r : CopyRef) : allocations r.release = [] :=
  filterMap_release (fun _ => rfl) r

theorem fill_notMem_release (r : CopyRef) (data : Nat) : .fill data ∉ r.release := by
  simp [CopyRef.release]

theorem alignInPlace_block (ptr size : Nat) {a : Nat} (ha : 0 < a) :
    (alignInPlace a size ptr (size + (a - 1))).result = alignUp ptr a ∧
      (alignInPlace a size ptr (size + (a - 1))).ptr = alignUp ptr a := by
  have hlt := padding_lt ptr ha
  have hfits : padding ptr a + size ≤ size + (a - 1) := by omega
  rw [alignInPlace, if_pos hfits]
  exact ⟨rfl, rfl⟩

theorem alignUp_eq_iff {n a : Nat} (ha : 0 < a) : alignUp n a = n ↔ a ∣ n := by
  constructor
  · intro h
    exact h ▸ dvd_alignUp n ha
  · exact alignUp_of_dvd

section Copy

variable (functions : CopyFunctions) (type : Datatype) (mem : Mem Byte) (source buffer : Nat)

/-- One block is allocated, its aligned part filled, and then, sooner or later, something
is given back: the aligned address. -/
theorem lifetime_doCopyMemory (hsize : type.densify.buffersize ≠ 0) (hpos : 0 < type.alignment) :
    ∃ rest, lifetime (doCopyMemory functions type mem source buffer) =
        .allocate (type.densify.buffersize + (type.alignment - 1)) buffer ::
          .fill (alignUp buffer type.alignment) :: rest ∧
      allocations rest = [] ∧ deallocations rest = [alignUp buffer type.alignment] ∧
      ∀ data, .fill data ∉ rest := by
  obtain ⟨hresult, hptr⟩ := alignInPlace_block buffer type.densify.buffersize hpos
  unfold doCopyMemory
  rw [if_neg hsize]
  simp only [Datatype.alignment_densify, hresult, hptr]
  cases type.dataToDenseCopy functions mem mem (alignUp buffer type.alignment) source with
  | error => exact ⟨[.deallocate (alignUp buffer type.alignment)], rfl, rfl, rfl, by simp⟩
  | ok =>
    exact ⟨CopyRef.release ⟨alignUp buffer type.alignment, alignUp buffer type.alignment,
      type.densify⟩, rfl, allocations_release _, deallocations_release _, fill_notMem_release _⟩

/-- The memory of a copy is used as it should be exactly when the address that was
allocated is already aligned, or no memory is needed at all. -/
theorem doCopyMemory_givesBack_iff (hpow : ∃ i, type.alignment = 2 ^ i) :
    (BlockHoldsData type.densify (lifetime (doCopyMemory functions type mem source buffer)) ∧
      GivenBack (lifetime (doCopyMemory functions type mem source buffer))) ↔
      type.densify.buffersize = 0 ∨ type.alignment ∣ buffer := by
  have hpos : 0 < type.alignment := by
    obtain ⟨i, hi⟩ := hpow
    rw [hi]
    exact Nat.two_pow_pos i
  by_cases hsize : type.densify.buffersize = 0
  · refine iff_of_true ?_ (.inl hsize)
    unfold doCopyMemory
    rw [if_pos hsize]
    exact ⟨fun data h => absurd h List.not_mem_nil, rfl⟩
  · obtain ⟨rest, hlife, hallocated, hfreed, hfill⟩ :=
      lifetime_doCopyMemory functions type mem source buffer hsize hpos
    rw [hlife]
    have hback : GivenBack (.allocate (type.densify.buffersize + (type.alignment - 1)) buffer ::
        .fill (alignUp buffer type.alignment) :: rest) ↔ type.alignment ∣ buffer := by
      change deallocations rest = buffer :: allocations rest ↔ _
      rw [hallocated, hfreed, List.cons_eq_cons, and_iff_left rfl, alignUp_eq_iff hpos]
    have hblock : BlockHoldsData type.densify
        (.allocate (type.densify.buffersize + (type.alignment - 1)) buffer ::
          .fill (alignUp buffer type.alignment) :: rest) := by
      intro data hdata
      obtain rfl : data = alignUp buffer type.alignment := by
        simpa [hfill] using hdata
      refine ⟨_, buffer, List.mem_cons_self, ?_, le_alignUp _ _, ?_⟩
      · rw [Datatype.alignment_densify]
        exact dvd_alignUp buffer hpos
      · have := alignUp_lt buffer hpos
        omega
    rw [hback, and_iff_right hblock, or_iff_right hsize]

end Copy

/-- Bytes that are aligned to 32. -/
def wideAligned : Datatype := .scalar ⟨.unsigned, 32, 32, 32, none, none, [], .inr (by decide)⟩

theorem doCopyMemory_givesBack_aligned :
    GivenBack (lifetime (doCopyMemory (fun _ _ mem dest _ => .ok (mem, dest)) wideAligned
      (fun _ => 0) 8 64)) :=
  ((doCopyMemory_givesBack_iff _ wideAligned _ 8 64 ⟨5, rfl⟩).mpr (.inr (by decide))).2

/-- From a block at 16, which is aligned for all standard types, the address 32 is given
back. -/
theorem doCopyMemory_gives_other :
    let events := lifetime (doCopyMemory (fun _ _ mem dest _ => .ok (mem, dest)) wideAligned
      (fun _ => 0) 8 16)
    allocations events = [16] ∧ deallocations events = [32] := by
  exact ⟨rfl, rfl⟩

end Pdi.Datatypes
