import Mathlib.Tactic.Common

/-!
# Byte-addressed memory

A memory is a total function from addresses to cells, over any type of cells.
The only operation is the block copy. Reading and writing are separated: a copy
takes the bytes from one memory and puts them into another, so that a sequence
of copies out of memory that is not written needs no frame argument.
-/
namespace Pdi.Memory

variable {β : Type}

/-- Total functions from addresses to cells. -/
abbrev Mem (β : Type) := Nat → β

/-- `memcpy(dest, source, n)`: bytes read in `old`, written into `mem`. -/
def memcpy (old mem : Mem β) (dest source n : Nat) : Mem β :=
  fun a => if dest ≤ a ∧ a < dest + n then old (source + (a - dest)) else mem a

/-- The `n` cells from address `a` on. -/
def bytes (mem : Mem β) (a n : Nat) : List β := (List.range n).map (fun i => mem (a + i))

@[simp] theorem memcpy_inside (old mem : Mem β) (dest source n i : Nat) (h : i < n) :
    memcpy old mem dest source n (dest + i) = old (source + i) := by
  have ha : dest ≤ dest + i ∧ dest + i < dest + n := by omega
  simp [memcpy, ha]

theorem memcpy_outside (old mem : Mem β) (dest source n a : Nat) (h : a < dest ∨ dest + n ≤ a) :
    memcpy old mem dest source n a = mem a := by
  have ha : ¬(dest ≤ a ∧ a < dest + n) := by omega
  simp only [memcpy, if_neg ha]

@[simp] theorem length_bytes (mem : Mem β) (a n : Nat) : (bytes mem a n).length = n := by
  simp [bytes]

/-- Two blocks read the same exactly when they have one length and agree cell by cell. -/
theorem bytes_eq_iff (mem mem' : Mem β) (a a' n n' : Nat) :
    bytes mem a n = bytes mem' a' n' ↔ n = n' ∧ ∀ i, i < n → mem (a + i) = mem' (a' + i) := by
  constructor
  · intro h
    have hn : n = n' := by simpa using congrArg List.length h
    subst hn
    refine ⟨rfl, fun i hi => ?_⟩
    have hg := congrArg (fun l => l[i]?) h
    simpa [bytes, hi] using hg
  · rintro ⟨rfl, h⟩
    exact List.map_congr_left (fun i hi => h i (List.mem_range.mp hi))

/-- `mem'` is `mem` with every cell `a` for which `R a b` holds taken from cell
`b` of `old`. -/
structure Carries (R : Nat → Nat → Prop) (old mem mem' : Mem β) : Prop where
  hit : ∀ a b, R a b → mem' a = old b
  miss : ∀ a, (∀ b, ¬R a b) → mem' a = mem a

/-- A relation between two blocks, placed at their addresses. -/
def Placed (dest source : Nat) (R : Nat → Nat → Prop) (a b : Nat) : Prop :=
  ∃ x y, R x y ∧ a = dest + x ∧ b = source + y

theorem Carries.congr {R S : Nat → Nat → Prop} {old mem mem' : Mem β} (h : Carries R old mem mem')
    (hRS : ∀ a b, R a b ↔ S a b) : Carries S old mem mem' :=
  ⟨fun a b hs => h.hit a b ((hRS a b).mpr hs),
    fun a hs => h.miss a (fun b hr => hs b ((hRS a b).mp hr))⟩

theorem Carries.none {R : Nat → Nat → Prop} (old mem : Mem β) (hR : ∀ a b, ¬R a b) :
    Carries R old mem mem := ⟨fun a b h => absurd h (hR a b), fun _ _ => rfl⟩

theorem carries_memcpy (old mem : Mem β) (dest source n : Nat) :
    Carries (Placed dest source (fun x y => x = y ∧ x < n)) old mem
      (memcpy old mem dest source n) := by
  constructor
  · rintro a b ⟨x, y, ⟨rfl, hx⟩, rfl, rfl⟩
    exact memcpy_inside old mem dest source n x hx
  · intro a h
    refine memcpy_outside old mem dest source n a ?_
    by_contra hin
    exact h (source + (a - dest)) ⟨a - dest, a - dest, ⟨rfl, by omega⟩, by omega, rfl⟩

/-- Two changes one after the other that write different cells. -/
theorem Carries.append {R S : Nat → Nat → Prop} {old mem mem' mem'' : Mem β}
    (hR : Carries R old mem mem') (hS : Carries S old mem' mem'')
    (hRS : ∀ a b b', R a b → ¬S a b') : Carries (fun a b => R a b ∨ S a b) old mem mem'' := by
  constructor
  · rintro a b (h | h)
    · rw [hS.miss a (fun b' => hRS a b b' h)]
      exact hR.hit a b h
    · exact hS.hit a b h
  · intro a h
    rw [hS.miss a (fun b hs => h b (.inr hs)), hR.miss a (fun b hr => h b (.inl hr))]

end Pdi.Memory
