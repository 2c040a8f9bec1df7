import Mathlib.Algebra.Order.Field.Rat
import Mathlib.Data.Nat.Log
import Mathlib.Tactic.FieldSimp
import Mathlib.Tactic.Linarith
import Mathlib.Tactic.Ring

/-!
# Binary interchange formats

A word of a format is a sign, an exponent and a fraction. It stands for a rational number
unless all bits of the exponent are set. The numbers of the narrower format are numbers of
the wider one, and no word but zero is the same number when it is read as an integer.
-/
namespace Pdi.Ieee

variable {n w : Nat}

structure Format where
  fractionBits : Nat
  exponentBits : Nat

def binary32 : Format := ⟨23, 8⟩
def binary64 : Format := ⟨52, 11⟩

/-- The three parts of a word. -/
structure Fields where
  negative : Bool
  exponent : Nat
  fraction : Nat
  deriving DecidableEq

variable {x : Fields}

namespace Format

variable (f : Format)

/-- The bias of the exponent together with the digits of the fraction. -/
def scale : Nat := 2 ^ (f.exponentBits - 1) - 1 + f.fractionBits

def fields (word : Nat) : Fields :=
  ⟨decide (word / 2 ^ (f.fractionBits + f.exponentBits) % 2 = 1),
    word / 2 ^ f.fractionBits % 2 ^ f.exponentBits, word % 2 ^ f.fractionBits⟩

def word (x : Fields) : Nat :=
  (if x.negative then 2 ^ (f.fractionBits + f.exponentBits) else 0) +
    x.exponent * 2 ^ f.fractionBits + x.fraction

/-- The fields are those of a word. -/
structure Fit (x : Fields) : Prop where
  exponent : x.exponent < 2 ^ f.exponentBits
  fraction : x.fraction < 2 ^ f.fractionBits

/-- The digits, with the leading one that a number other than the smallest has. -/
def significand (x : Fields) : Nat :=
  if x.exponent = 0 then x.fraction else 2 ^ f.fractionBits + x.fraction

def magnitude (x : Fields) : ℚ :=
  (f.significand x * 2 ^ max x.exponent 1 : Nat) / (2 ^ f.scale : Nat)

/-- The number, if the fields are those of a finite one. -/
def number (x : Fields) : Option ℚ :=
  if x.exponent = 2 ^ f.exponentBits - 1 then none
  else some (if x.negative then -f.magnitude x else f.magnitude x)

def value (w : Nat) : Option ℚ := f.number (f.fields w)

variable {f}

/-- An equation of natural numbers, in which no power of two has to be computed. -/
theorem magnitude_eq_natCast :
    f.magnitude x = n ↔ f.significand x * 2 ^ max x.exponent 1 = n * 2 ^ f.scale := by
  unfold magnitude
  rw [div_eq_iff (Nat.cast_ne_zero.mpr (Nat.two_pow_pos _).ne'), ← Nat.cast_mul]
  exact Nat.cast_inj

theorem magnitude_eq_zero (h : f.significand x = 0) : f.magnitude x = 0 := by
  have hzero : f.magnitude x = (0 : Nat) :=
    magnitude_eq_natCast.mpr (by rw [h, Nat.zero_mul, Nat.zero_mul])
  rw [hzero, Nat.cast_zero]

theorem word_lt (h : f.Fit x) : f.word x < 2 ^ (f.fractionBits + f.exponentBits + 1) := by
  have hbody : x.exponent * 2 ^ f.fractionBits + x.fraction <
      2 ^ (f.fractionBits + f.exponentBits) := by
    calc x.exponent * 2 ^ f.fractionBits + x.fraction
        < x.exponent * 2 ^ f.fractionBits + 2 ^ f.fractionBits := Nat.add_lt_add_left h.fraction _
      _ = (x.exponent + 1) * 2 ^ f.fractionBits := (Nat.succ_mul _ _).symm
      _ ≤ 2 ^ f.exponentBits * 2 ^ f.fractionBits := Nat.mul_le_mul_right _ h.exponent
      _ = 2 ^ (f.fractionBits + f.exponentBits) := by rw [← pow_add, Nat.add_comm]
  unfold word
  rw [pow_succ]
  split <;> omega

theorem fit_fields (w : Nat) : f.Fit (f.fields w) :=
  ⟨Nat.mod_lt _ (Nat.two_pow_pos _), Nat.mod_lt _ (Nat.two_pow_pos _)⟩

theorem word_eq (x : Fields) : f.word x =
    x.fraction + 2 ^ f.fractionBits * (x.exponent + 2 ^ f.exponentBits * x.negative.toNat) := by
  unfold word
  rw [pow_add]
  cases x.negative <;> simp <;> ring

/-- A word is made of its fields. -/
theorem word_fields (hw : w < 2 ^ (f.fractionBits + f.exponentBits + 1)) :
    f.word (f.fields w) = w := by
  have hsign : w / 2 ^ f.fractionBits / 2 ^ f.exponentBits < 2 := by
    rw [Nat.div_div_eq_div_mul, ← pow_add]
    refine Nat.div_lt_of_lt_mul ?_
    rwa [← pow_succ]
  have hbit : (decide (w / 2 ^ (f.fractionBits + f.exponentBits) % 2 = 1)).toNat =
      w / 2 ^ f.fractionBits / 2 ^ f.exponentBits := by
    rw [pow_add, ← Nat.div_div_eq_div_mul]
    rcases Nat.lt_or_ge (w / 2 ^ f.fractionBits / 2 ^ f.exponentBits) 1 with h | h
    · rw [Nat.lt_one_iff.mp h]
      rfl
    · rw [show w / 2 ^ f.fractionBits / 2 ^ f.exponentBits = 1 by omega]
      rfl
  rw [word_eq]
  change w % 2 ^ f.fractionBits +
    2 ^ f.fractionBits * (w / 2 ^ f.fractionBits % 2 ^ f.exponentBits +
    2 ^ f.exponentBits * (decide _).toNat) = w
  rw [hbit, Nat.mod_add_div, Nat.mod_add_div]

theorem fields_word (h : f.Fit x) : f.fields (f.word x) = x := by
  have hfraction : f.word x % 2 ^ f.fractionBits = x.fraction := by
    rw [word_eq, Nat.add_mul_mod_self_left, Nat.mod_eq_of_lt h.fraction]
  have hrest : f.word x / 2 ^ f.fractionBits =
      x.exponent + 2 ^ f.exponentBits * x.negative.toNat := by
    rw [word_eq, Nat.add_mul_div_left _ _ (Nat.two_pow_pos _), Nat.div_eq_of_lt h.fraction,
      Nat.zero_add]
  have hsign : f.word x / 2 ^ (f.fractionBits + f.exponentBits) = x.negative.toNat := by
    rw [pow_add, ← Nat.div_div_eq_div_mul, hrest, Nat.add_mul_div_left _ _ (Nat.two_pow_pos _),
      Nat.div_eq_of_lt h.exponent, Nat.zero_add]
  unfold fields
  rw [hfraction, hrest, hsign, Nat.add_mul_mod_self_left, Nat.mod_eq_of_lt h.exponent]
  obtain ⟨negative, exponent, fraction⟩ := x
  cases negative <;> rfl

theorem value_word (h : f.Fit x) : f.value (f.word x) = f.number x := by
  unfold value
  rw [fields_word h]

/-- No number has an exponent with all bits set. -/
theorem number_eq_some {q : ℚ} : f.number x = some q ↔
    x.exponent ≠ 2 ^ f.exponentBits - 1 ∧
      (if x.negative then -f.magnitude x else f.magnitude x) = q := by
  unfold number
  split
  · rename_i h
    exact ⟨fun hq => (by cases hq), fun hq => absurd h hq.1⟩
  · rename_i h
    exact ⟨fun hq => ⟨h, Option.some.inj hq⟩, fun hq => congrArg some hq.2⟩

end Format

/-! ## From the narrower to the wider format -/

open Format

/-- The digits of a number can be moved into the wider fraction if the exponent makes up
for it. -/
theorem magnitude_eq {f g : Format} {y : Fields}
    (hsignificand : ∃ k, g.significand y = f.significand x * 2 ^ k ∧
      k + max y.exponent 1 + f.scale = max x.exponent 1 + g.scale) :
    g.magnitude y = f.magnitude x := by
  obtain ⟨k, hk, hscale⟩ := hsignificand
  unfold magnitude
  have hne : ∀ n : Nat, ((2 ^ n : Nat) : ℚ) ≠ 0 := fun n =>
    Nat.cast_ne_zero.mpr (Nat.two_pow_pos n).ne'
  rw [hk, div_eq_div_iff (hne _) (hne _), ← Nat.cast_mul, ← Nat.cast_mul]
  refine congrArg Nat.cast ?_
  calc f.significand x * 2 ^ k * 2 ^ max y.exponent 1 * 2 ^ f.scale
      = f.significand x * 2 ^ (k + max y.exponent 1 + f.scale) := by
        rw [pow_add, pow_add]
        ring
    _ = f.significand x * 2 ^ max x.exponent 1 * 2 ^ g.scale := by
        rw [hscale, pow_add]
        ring

/-- Every finite word of 32 bits has the number of a word of 64 bits. -/
theorem exists_wide (hx : binary32.Fit x) :
    ∃ y, binary64.Fit y ∧ y.exponent ≠ 2047 ∧ y.negative = x.negative ∧
      binary64.magnitude y = binary32.magnitude x := by
  have hexponent : x.exponent < 256 := hx.exponent
  have hfraction : x.fraction < 2 ^ 23 := hx.fraction
  by_cases hzero : x.exponent = 0
  · by_cases hnothing : x.fraction = 0
    · refine ⟨⟨x.negative, 0, 0⟩, ⟨Nat.two_pow_pos _, Nat.two_pow_pos _⟩, Nat.zero_ne_add_one _,
        rfl, ?_⟩
      have hwide : binary64.magnitude ⟨x.negative, 0, 0⟩ = 0 := magnitude_eq_zero rfl
      have hnarrow : binary32.significand x = 0 := (if_pos hzero).trans hnothing
      rw [hwide, magnitude_eq_zero hnarrow]
    · -- the leading digit of the fraction becomes the one that is not written
      have hle : 2 ^ Nat.log 2 x.fraction ≤ x.fraction := Nat.pow_log_le_self 2 hnothing
      have hlt : x.fraction < 2 ^ (Nat.log 2 x.fraction + 1) :=
        Nat.lt_pow_succ_log_self (by decide) _
      have hlog : Nat.log 2 x.fraction < 23 := Nat.log_lt_of_lt_pow hnothing hfraction
      set k := Nat.log 2 x.fraction
      have hsplit : (2 : Nat) ^ 52 = 2 ^ k * 2 ^ (52 - k) := by
        rw [← pow_add]
        congr 1
        omega
      have hdigits : 2 ^ 52 + (x.fraction - 2 ^ k) * 2 ^ (52 - k) = x.fraction * 2 ^ (52 - k) := by
        rw [hsplit, ← Nat.add_mul, Nat.add_sub_of_le hle]
      have hfit : (x.fraction - 2 ^ k) * 2 ^ (52 - k) < 2 ^ 52 := by
        rw [hsplit]
        refine Nat.mul_lt_mul_of_pos_right ?_ (Nat.two_pow_pos _)
        rw [pow_succ] at hlt
        omega
      refine ⟨⟨x.negative, 874 + k, (x.fraction - 2 ^ k) * 2 ^ (52 - k)⟩, ⟨?_, hfit⟩, ?_, rfl,
        magnitude_eq ⟨52 - k, ?_, ?_⟩⟩
      · change 874 + k < 2048
        omega
      · change 874 + k ≠ 2047
        omega
      · unfold significand
        rw [if_neg (by simp), if_pos hzero]
        exact hdigits
      · change 52 - k + max (874 + k) 1 + 150 = max x.exponent 1 + 1075
        omega
  · refine ⟨⟨x.negative, x.exponent + 896, x.fraction * 2 ^ 29⟩, ⟨?_, ?_⟩, ?_, rfl,
      magnitude_eq ⟨29, ?_, ?_⟩⟩
    · change x.exponent + 896 < 2048
      omega
    · change x.fraction * 2 ^ 29 < 2 ^ 52
      omega
    · change x.exponent + 896 ≠ 2047
      omega
    · unfold significand
      rw [if_neg (by simp), if_neg hzero, Nat.add_mul]
      rfl
    · change 29 + max (x.exponent + 896) 1 + 150 = max x.exponent 1 + 1075
      omega

theorem exists_wide_number (hx : binary32.Fit x) :
    ∃ y, binary64.Fit y ∧ binary64.number y = binary32.number x := by
  by_cases hfinite : x.exponent = 2 ^ binary32.exponentBits - 1
  · refine ⟨⟨false, 2047, 0⟩, ⟨by decide, by decide⟩, ?_⟩
    unfold number
    rw [if_pos (by decide), if_pos hfinite]
  · obtain ⟨y, hy, hexponent, hsign, hmagnitude⟩ := exists_wide hx
    refine ⟨y, hy, ?_⟩
    unfold number
    rw [if_neg (show y.exponent ≠ 2 ^ binary64.exponentBits - 1 from hexponent), if_neg hfinite,
      hsign, hmagnitude]

/-! ## Words as integers -/

/-- A power of two on both sides is taken away. -/
theorem balance_cases {a e s : Nat} (h : a * 2 ^ e = n * 2 ^ s) :
    (e < s ∧ 2 * n ≤ a) ∨ ∃ k, e = s + k ∧ a * 2 ^ k = n := by
  rcases Nat.lt_or_ge e s with hlt | hge
  · refine .inl ⟨hlt, ?_⟩
    obtain ⟨j, rfl⟩ := Nat.exists_eq_add_of_lt hlt
    have ha : a = n * 2 ^ j * 2 := by
      refine Nat.eq_of_mul_eq_mul_right (Nat.two_pow_pos e) (h.trans ?_)
      rw [pow_succ, pow_add]
      ring
    have hpos : 0 < 2 ^ j := Nat.two_pow_pos j
    nlinarith
  · obtain ⟨k, rfl⟩ := Nat.exists_eq_add_of_le hge
    refine .inr ⟨k, rfl, Nat.eq_of_mul_eq_mul_right (Nat.two_pow_pos s) ((?_ : _ = _).trans h)⟩
    rw [pow_add]
    ring

variable {a m s d k l : Nat}

theorem half_bound (hm : m < a) (hlt : k < l) : (a + m) * 2 ^ k < a * 2 ^ l :=
  calc (a + m) * 2 ^ k < (a * 2) * 2 ^ k :=
        Nat.mul_lt_mul_of_pos_right (by omega) (Nat.two_pow_pos k)
    _ = a * 2 ^ (k + 1) := by rw [pow_succ, Nat.mul_comm (2 ^ k), Nat.mul_assoc]
    _ ≤ a * 2 ^ l := Nat.mul_le_mul_left a (Nat.pow_le_pow_right (by decide) hlt)

/-- The one exponent at which the growth of the numbers meets that of the words. -/
theorem exponent_of_positive (hm : m < a) (hs : 2 ^ l ≤ s) (htop : s + k < 2 ^ (l + 1))
    (h : (a + m) * 2 ^ k = (s + k) * a + m) : k = l := by
  rcases Nat.lt_trichotomy k l with hlt | heq | hgt
  · have hbound := half_bound hm hlt
    have hleast : a * 2 ^ l ≤ (s + k) * a := by
      rw [Nat.mul_comm]
      exact Nat.mul_le_mul_right a (by omega)
    omega
  · exact heq
  · have hpow : 2 ^ (l + 1) ≤ 2 ^ k := Nat.pow_le_pow_right (by decide) hgt
    nlinarith

theorem exponent_of_negative (hm : m < a) (hd : 2 ^ l + l ≤ d) (htop : d ≤ 2 ^ (l + 1))
    (h : (a + m) * 2 ^ k + m + k * a = d * a) : k = l := by
  rcases Nat.lt_trichotomy k l with hlt | heq | hgt
  · have hbound := half_bound hm hlt
    have hleast : a * 2 ^ l + (k * a + a) ≤ d * a := by
      rw [Nat.mul_comm a, ← Nat.succ_mul, ← Nat.add_mul]
      exact Nat.mul_le_mul_right a (by omega)
    omega
  · exact heq
  · have hpow : 2 ^ (l + 1) ≤ 2 ^ k := Nat.pow_le_pow_right (by decide) hgt
    nlinarith

section Integers

variable {f : Format}

/-- The formats in use. -/
def Common (f : Format) : Prop := f = binary32 ∨ f = binary64

/-- The rest of a word behind its sign. -/
def Format.body (f : Format) (x : Fields) : Nat := x.exponent * 2 ^ f.fractionBits + x.fraction

theorem body_eq_zero (hf : Common f) (hx : f.Fit x) (h : f.magnitude x = f.body x) :
    f.body x = 0 := by
  have hbalance := magnitude_eq_natCast.mp h
  unfold Format.body at hbalance ⊢
  unfold significand at hbalance
  by_cases hzero : x.exponent = 0
  · rw [if_pos hzero, hzero, Nat.zero_mul, Nat.zero_add] at hbalance
    rw [hzero, Nat.zero_mul, Nat.zero_add]
    rcases balance_cases hbalance with ⟨-, hle⟩ | ⟨k, hk, -⟩
    · omega
    · rcases hf with rfl | rfl
      · have hscale : binary32.scale = 150 := rfl
        omega
      · have hscale : binary64.scale = 1075 := rfl
        omega
  · rw [if_neg hzero, Nat.max_eq_left (Nat.one_le_iff_ne_zero.mpr hzero)] at hbalance
    have hone : 1 * 2 ^ f.fractionBits ≤ x.exponent * 2 ^ f.fractionBits :=
      Nat.mul_le_mul_right _ (Nat.one_le_iff_ne_zero.mpr hzero)
    rcases balance_cases hbalance with ⟨-, hle⟩ | ⟨k, hk, hbody⟩
    · omega
    · rw [hk] at hbody
      have hexponent := hx.exponent
      have hfraction := hx.fraction
      rcases hf with rfl | rfl
      · obtain rfl : k = 7 := exponent_of_positive (s := 150) hfraction (by decide)
          (by change x.exponent < 2 ^ 8 at hexponent; change x.exponent = 150 + k at hk; omega)
          hbody
        change (2 ^ 23 + x.fraction) * 2 ^ 7 = (150 + 7) * 2 ^ 23 + x.fraction at hbody
        omega
      · obtain rfl : k = 10 := exponent_of_positive (s := 1075) hfraction (by decide)
          (by change x.exponent < 2 ^ 11 at hexponent; change x.exponent = 1075 + k at hk; omega)
          hbody
        change (2 ^ 52 + x.fraction) * 2 ^ 10 = (1075 + 10) * 2 ^ 52 + x.fraction at hbody
        omega

theorem magnitude_ne_complement (hf : Common f) (hx : f.Fit x)
    (hn : n + f.body x = 2 ^ (f.fractionBits + f.exponentBits)) : f.magnitude x ≠ n := by
  intro h
  have hbalance := magnitude_eq_natCast.mp h
  unfold Format.body at hn
  have hfraction := hx.fraction
  have hsignificand : f.significand x < 2 * 2 ^ f.fractionBits := by
    unfold significand
    split <;> omega
  rcases balance_cases hbalance with ⟨hlt, hle⟩ | ⟨k, hk, hbody⟩
  · rcases hf with rfl | rfl
    · change max x.exponent 1 < 150 at hlt
      change n + (x.exponent * 2 ^ 23 + x.fraction) = 2 ^ 31 at hn
      change x.fraction < 2 ^ 23 at hfraction
      change _ < 2 * 2 ^ 23 at hsignificand
      omega
    · change max x.exponent 1 < 1075 at hlt
      change n + (x.exponent * 2 ^ 52 + x.fraction) = 2 ^ 63 at hn
      change x.fraction < 2 ^ 52 at hfraction
      change _ < 2 * 2 ^ 52 at hsignificand
      omega
  · rcases hf with rfl | rfl
    · change max x.exponent 1 = 150 + k at hk
      have hexponent : x.exponent = 150 + k := by omega
      unfold significand at hbody
      rw [if_neg (by omega)] at hbody
      change (2 ^ 23 + x.fraction) * 2 ^ k = n at hbody
      change n + (x.exponent * 2 ^ 23 + x.fraction) = 2 ^ 31 at hn
      obtain rfl : k = 6 := exponent_of_negative (a := 2 ^ 23) (d := 106) hfraction (by decide)
        (by decide) (by rw [hbody]; omega)
      omega
    · change max x.exponent 1 = 1075 + k at hk
      have hexponent : x.exponent = 1075 + k := by omega
      unfold significand at hbody
      rw [if_neg (by omega)] at hbody
      change (2 ^ 52 + x.fraction) * 2 ^ k = n at hbody
      change n + (x.exponent * 2 ^ 52 + x.fraction) = 2 ^ 63 at hn
      obtain rfl : k = 9 := exponent_of_negative (a := 2 ^ 52) (d := 973) hfraction (by decide)
        (by decide) (by rw [hbody]; omega)
      omega

theorem magnitude_nonneg (f : Format) (x : Fields) : 0 ≤ f.magnitude x :=
  div_nonneg (Nat.cast_nonneg _) (Nat.cast_nonneg _)

/-- The word of the zero. -/
theorem value_zero (hf : Common f) : f.value 0 = some 0 := by
  have hfields : f.fields 0 = ⟨false, 0, 0⟩ := by simp [fields]
  have hfinite : 0 ≠ 2 ^ f.exponentBits - 1 := by
    rcases hf with rfl | rfl <;> decide
  have hzero : f.magnitude ⟨false, 0, 0⟩ = 0 := magnitude_eq_zero rfl
  unfold value number
  rw [hfields, if_neg hfinite, hzero]
  rfl

/-- A word that is the same number as an integer, with its sign in two's complement or
without a sign, is zero. -/
theorem word_eq_zero (hf : Common f) (hw : w < 2 ^ (f.fractionBits + f.exponentBits + 1))
    {n : Int} (hn : n = w ∨ n = w - (2 ^ (f.fractionBits + f.exponentBits + 1) : Nat))
    (h : f.value w = some (n : ℚ)) : w = 0 := by
  have hx := fit_fields (f := f) w
  have hword := word_fields hw
  obtain ⟨-, hvalue⟩ := number_eq_some.mp h
  have hbody : f.word (f.fields w) =
      (if (f.fields w).negative then 2 ^ (f.fractionBits + f.exponentBits) else 0) +
        f.body (f.fields w) := by
    unfold Format.word Format.body
    rw [Nat.add_assoc]
  rw [hword] at hbody
  have hnonneg := magnitude_nonneg f (f.fields w)
  have htop : (2 ^ (f.fractionBits + f.exponentBits + 1) : Nat) =
    2 ^ (f.fractionBits + f.exponentBits) * 2 := pow_succ _ _
  cases hsign : (f.fields w).negative with
  | false =>
    rw [hsign, if_neg (by decide)] at hvalue
    rw [hsign, if_neg (by decide), Nat.zero_add] at hbody
    have hpositive : 0 ≤ n := by
      rw [hvalue] at hnonneg
      exact Int.cast_nonneg_iff.mp hnonneg
    have hsame : n = w := by omega
    rw [hbody]
    refine body_eq_zero hf hx ?_
    rw [hvalue, hsame, ← hbody]
    rfl
  | true =>
    rw [hsign, if_pos rfl] at hvalue
    rw [hsign, if_pos rfl] at hbody
    have hnegative : n ≤ 0 := by
      have hle : (n : ℚ) ≤ 0 := by
        rw [← hvalue]
        exact neg_nonpos.mpr hnonneg
      exact Int.cast_nonpos.mp hle
    have hpos : 0 < 2 ^ (f.fractionBits + f.exponentBits) := Nat.two_pow_pos _
    obtain ⟨k, hk⟩ := Int.eq_ofNat_of_zero_le (neg_nonneg.mpr hnegative)
    refine absurd ?_ (magnitude_ne_complement hf hx (n := k) (by omega))
    calc f.magnitude (f.fields w) = ((-n : Int) : ℚ) := by
          rw [Int.cast_neg, ← hvalue, neg_neg]
      _ = k := by
          rw [hk]
          rfl

end Integers

end Pdi.Ieee
