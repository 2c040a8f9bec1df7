import Mathlib.Tactic.Common
import Mathlib.Algebra.Order.Group.Nat

/-!
# Alignment arithmetic

Rounding of a natural number up to a multiple, in the form in which layout code
writes it, and the standard pointer-alignment function with its two return
cases. Alignments are arbitrary positive numbers; the facts that need more
ask for a divisibility between the two alignments at hand.
-/
namespace Pdi.Align

variable {a n : Nat}

/-- Bytes to add to `n` to reach a multiple of `a`. -/
def padding (n a : Nat) : Nat := (a - n % a) % a

def alignUp (n a : Nat) : Nat := n + padding n a

/-- `std::align`: the first multiple of `alignment` from `ptr` on, or the null
pointer when `size` bytes do not fit behind it in `space`. -/
def stdAlign (alignment size ptr space : Nat) : Nat :=
  if padding ptr alignment + size ≤ space then ptr + padding ptr alignment else 0

theorem padding_lt (n : Nat) (ha : 0 < a) : padding n a < a := Nat.mod_lt _ ha

theorem padding_eq_zero (h : a ∣ n) : padding n a = 0 := by
  simp [padding, Nat.mod_eq_zero_of_dvd h]

theorem dvd_alignUp (n : Nat) (ha : 0 < a) : a ∣ alignUp n a := by
  have hlt := Nat.mod_lt n ha
  apply Nat.dvd_of_mod_eq_zero
  by_cases hz : n % a = 0
  · simp [alignUp, padding, hz]
  · have hp : padding n a = a - n % a := Nat.mod_eq_of_lt (by omega)
    have hs : n % a + (a - n % a) = a := by omega
    rw [alignUp, hp, Nat.add_mod, ← Nat.mod_eq_of_lt (show a - n % a < a by omega),
      Nat.mod_mod, Nat.mod_eq_of_lt (show a - n % a < a by omega), hs, Nat.mod_self]

theorem le_alignUp (n a : Nat) : n ≤ alignUp n a := Nat.le_add_right _ _

theorem alignUp_lt (n : Nat) (ha : 0 < a) : alignUp n a < n + a :=
  Nat.add_lt_add_left (padding_lt n ha) n

@[simp] theorem alignUp_zero (a : Nat) : alignUp 0 a = 0 := by simp [alignUp, padding]

theorem alignUp_of_dvd (h : a ∣ n) : alignUp n a = n := by
  simp [alignUp, padding_eq_zero h]

/-- The rounded number is the least multiple from `n` on. -/
theorem alignUp_le {q : Nat} (ha : 0 < a) (hn : n ≤ q) (hq : a ∣ q) : alignUp n a ≤ q := by
  obtain ⟨c, hc⟩ := dvd_alignUp n ha
  obtain ⟨d, rfl⟩ := hq
  have hlt := alignUp_lt n ha
  have hcd : a * c < a * (d + 1) := by rw [Nat.mul_succ]; omega
  have : c < d + 1 := Nat.lt_of_mul_lt_mul_left hcd
  rw [hc]
  exact Nat.mul_le_mul_left a (by omega)

theorem alignUp_mono {m : Nat} (ha : 0 < a) (h : m ≤ n) : alignUp m a ≤ alignUp n a :=
  alignUp_le ha (h.trans (le_alignUp n a)) (dvd_alignUp n ha)

/-- An aligned origin can be taken out of the rounding. -/
theorem alignUp_add {k : Nat} (hk : a ∣ k) (n : Nat) : alignUp (k + n) a = k + alignUp n a := by
  obtain ⟨c, rfl⟩ := hk
  simp [alignUp, padding, Nat.add_assoc]

/-- The callers give `alignment` bytes of room for no data, which always fits. -/
theorem stdAlign_zero_size (ptr : Nat) (ha : 0 < a) : stdAlign a 0 ptr a = alignUp ptr a := by
  have := padding_lt ptr ha
  simp [stdAlign, alignUp, show padding ptr a ≤ a by omega]

/-- A block over-allocated by `a - 1` bytes holds the aligned data. -/
theorem stdAlign_block (ptr size : Nat) (ha : 0 < a) :
    stdAlign a size ptr (size + (a - 1)) = alignUp ptr a := by
  have := padding_lt ptr ha
  have h : padding ptr a + size ≤ size + (a - 1) := by omega
  simp [stdAlign, alignUp, h]

theorem le_stdAlign_block (a size ptr : Nat) : ptr ≤ stdAlign a size ptr (size + (a - 1)) := by
  cases Nat.eq_zero_or_pos a with
  | inl h => simp [h, stdAlign, padding]
  | inr h =>
    rw [stdAlign_block ptr size h]
    exact le_alignUp ptr a

/-- Powers of two are totally ordered by divisibility. -/
theorem two_pow_dvd_of_le {b : Nat} (ha : ∃ i, a = 2 ^ i) (hb : ∃ j, b = 2 ^ j) (h : a ≤ b) :
    a ∣ b := by
  obtain ⟨i, rfl⟩ := ha
  obtain ⟨j, rfl⟩ := hb
  exact Nat.pow_dvd_pow 2 ((Nat.pow_le_pow_iff_right (by decide)).mp h)

end Pdi.Align
