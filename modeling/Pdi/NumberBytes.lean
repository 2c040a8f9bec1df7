import Mathlib.Data.Nat.Digits.Lemmas
import Mathlib.Data.Rat.Defs
import Pdi.ExpressionDefined
import Pdi.ExpressionForms

/-!
# Numbers and their bytes

An integer is read back from its bytes, and different bytes are different integers. Of a
floating-point number this is a law of the platform, as is that the conversions are exact
where the number can be represented.
-/
namespace Pdi.Expression

open Pdi.Datatypes

/-! ## Integers -/

variable {type : IntegerType} {n : Int}

/-- The bytes as digits. -/
theorem fromLittleEndian_eq (content : List Byte) :
    fromLittleEndian content = (Nat.ofDigits 256 (content.map UInt8.toNat) : Nat) := by
  induction content with
  | nil => rfl
  | cons b content ih =>
    rw [List.map_cons, Nat.ofDigits_cons]
    change (b.toNat : Int) + 256 * fromLittleEndian content = _
    rw [ih]
    push_cast
    rfl

theorem digits_lt (content : List Byte) : ∀ d ∈ content.map UInt8.toNat, d < 256 := by
  intro d hd
  obtain ⟨b, -, rfl⟩ := List.mem_map.mp hd
  exact b.toNat_lt

theorem fromLittleEndian_lt (content : List Byte) :
    0 ≤ fromLittleEndian content ∧ fromLittleEndian content < (256 ^ content.length : Nat) := by
  rw [fromLittleEndian_eq]
  have h := Nat.ofDigits_lt_base_pow_length (by decide) (digits_lt content)
  rw [List.length_map] at h
  exact ⟨Int.natCast_nonneg _, Int.ofNat_lt.mpr h⟩

theorem fromLittleEndian_injective {a b : List Byte} (hlength : a.length = b.length)
    (h : fromLittleEndian a = fromLittleEndian b) : a = b := by
  rw [fromLittleEndian_eq, fromLittleEndian_eq, Int.natCast_inj] at h
  have hdigits := Nat.ofDigits_inj_of_len_eq (by decide) (by simpa using hlength) (digits_lt a)
    (digits_lt b) h
  exact (List.map_inj_right fun _ _ => UInt8.toNat_inj.mp).mp hdigits

theorem fromLittleEndian_append (a b : List Byte) : fromLittleEndian (a ++ b) =
    fromLittleEndian a + (256 ^ a.length : Nat) * fromLittleEndian b := by
  rw [fromLittleEndian_eq, fromLittleEndian_eq, fromLittleEndian_eq, List.map_append,
    Nat.ofDigits_append, List.length_map]
  push_cast
  rfl

theorem fromLittleEndian_littleEndian (k : Nat) (n : Int) :
    fromLittleEndian (littleEndian k n) = n % (256 ^ k : Nat) := by
  induction k generalizing n with
  | zero => simp [littleEndian, fromLittleEndian]
  | succ k ih =>
    have hbyte : ((UInt8.ofNat (n % 256).toNat).toNat : Int) = n % 256 := by
      rw [UInt8.toNat_ofNat']
      omega
    change ((UInt8.ofNat (n % 256).toNat).toNat : Int) +
      256 * fromLittleEndian (littleEndian k (n / 256)) = _
    have hquotient : n / ((256 ^ (k + 1) : Nat) : Int) = n / 256 / ((256 ^ k : Nat) : Int) := by
      rw [Int.ediv_ediv_of_nonneg (by decide), Nat.pow_succ, Nat.mul_comm]
      rfl
    rw [ih, hbyte, Int.emod_def, Int.emod_def, Int.emod_def, hquotient, Nat.pow_succ]
    push_cast
    ring

theorem values_eq (type : IntegerType) : type.values = (256 ^ type.size : Nat) := by
  cases type <;> rfl

/-- A number that the type holds is determined by its remainder. -/
theorem wrap_emod (type : IntegerType) (n : Int) : type.wrap (n % type.values) = type.wrap n := by
  unfold IntegerType.wrap
  rw [Int.emod_sub_emod]

/-- An integer is read back from its bytes. -/
theorem wrap_littleEndian (h : type.Holds n) :
    type.wrap (fromLittleEndian (littleEndian type.size n)) = n := by
  rw [fromLittleEndian_littleEndian, ← values_eq, wrap_emod, wrap_of_holds h]

/-- The numbers that two types of one size read from the same bytes are congruent. -/
theorem wrap_of_same_size {a b : IntegerType} (hsize : a.size = b.size) (h : b.Holds (a.wrap n)) :
    b.wrap n = a.wrap n := by
  have hvalues : a.values = b.values := by rw [values_eq, values_eq, hsize]
  have hmod : a.wrap n % b.values = n % b.values := by
    unfold IntegerType.wrap
    rw [hvalues, Int.add_emod_emod]
    congr 1
    omega
  calc b.wrap n = b.wrap (n % b.values) := (wrap_emod b n).symm
    _ = b.wrap (a.wrap n % b.values) := by rw [hmod]
    _ = b.wrap (a.wrap n) := wrap_emod b _
    _ = a.wrap n := wrap_of_holds h

/-- An integer that is read without a sign is the number itself or what is left of it below
the number of values. -/
theorem wrap_cases (type : IntegerType) (hn : 0 ≤ n ∧ n < type.values) :
    type.wrap n = n ∨ type.wrap n = n - type.values := by
  have hrange := holds_wrap type n
  have hmod : type.wrap n % type.values = n := by
    unfold IntegerType.wrap
    rw [Int.add_emod_emod, show type.min + (n - type.min) = n by omega]
    exact Int.emod_eq_of_lt hn.1 hn.2
  cases type <;>
    simp only [IntegerType.Holds, IntegerType.min, IntegerType.max, IntegerType.values,
      IntegerType.signed, IntegerType.size] at * <;> omega

/-- Different bytes are different integers. -/
theorem wrap_fromLittleEndian_injective {a b : List Byte} (ha : a.length = type.size)
    (hb : b.length = type.size)
    (h : type.wrap (fromLittleEndian a) = type.wrap (fromLittleEndian b)) : a = b := by
  refine fromLittleEndian_injective (ha.trans hb.symm) ?_
  have hremainder : ∀ n : Int, 0 ≤ n ∧ n < type.values → type.wrap n % type.values = n := by
    intro n hn
    unfold IntegerType.wrap
    rw [Int.add_emod_emod, show type.min + (n - type.min) = n by omega]
    exact Int.emod_eq_of_lt hn.1 hn.2
  have hlta := fromLittleEndian_lt a
  have hltb := fromLittleEndian_lt b
  rw [ha, ← values_eq] at hlta
  rw [hb, ← values_eq] at hltb
  rw [← hremainder _ hlta, h, hremainder _ hltb]

/-! ## Exact values -/

/-- The numbers of the platform, each with the number it stands for if it is finite. The
conversions are exact where they can be, and the bytes of a number give the number. -/
structure Exactness (P : Platform) where
  value : (type : FloatType) → P.Value type → Option ℚ
  ofInt : ∀ type (n : Int) x, value type x = some (n : ℚ) →
    value type (P.ofInt type n) = some (n : ℚ)
  integral : ∀ type (n : Int) x, value type x = some (n : ℚ) → P.integral type x = some n
  widen : ∀ x, value .double (P.widen x) = value .float x
  narrow : ∀ q x y, value .double x = some q → value .float y = some q →
    value .float (P.narrow x) = some q
  ofBytes : ∀ type x, P.ofBytes type (P.toBytes type x) = x
  /-- Whatever the lower half of a `double` is, its upper half can be such that it is not
  finite. -/
  upper : ∀ lower : List Byte, lower.length = 4 →
    ∃ upper : List Byte, upper.length = 4 ∧
      value .double (P.ofBytes .double (lower ++ upper)) = none
  /-- The bytes of an integer are those of the same floating-point number only if there is
  nothing but zeros. -/
  bits : ∀ type (t : IntegerType) content, content.length = type.size → t.size = type.size →
    (value type (P.ofBytes type content) = some (t.wrap (fromLittleEndian content) : ℚ) ↔
      ∀ b ∈ content, b = 0)

section Exact

variable {P : Platform} (E : Exactness P)

/-- The number that a number of a C++ type stands for. -/
def Exactness.number : Number P.toFloatingPoint → Option ℚ
  | .integer _ n => some (n : ℚ)
  | .floating type x => E.value type x

/-- The type has a number that stands for this one. -/
def Exactness.Represents : NumberType → ℚ → Prop
  | .integer type, q => ∃ n, type.Holds n ∧ (n : ℚ) = q
  | .floating type, q => ∃ x, E.value type x = some q

variable {E} {x m : Number P.toFloatingPoint} {c : NumberType} {q : ℚ}

/-- The conversion of a number to a type that can represent it is exact. -/
theorem exists_convert (hx : E.number x = some q) (hc : E.Represents c q) :
    ∃ m, x.convert c = .ok m ∧ E.number m = some q ∧ Number.read m.bytes c = m := by
  cases c with
  | integer type =>
    obtain ⟨n, hn, rfl⟩ := hc
    refine ⟨.integer type n, ?_, rfl, congrArg (Number.integer type) (wrap_littleEndian hn)⟩
    cases x with
    | integer source v =>
      have hv : v = n := Int.cast_injective (Option.some.inj hx)
      change Except.ok (Number.integer type (type.wrap v)) = _
      rw [hv, wrap_of_holds hn]
    | floating source y =>
      have hintegral : P.integral source y = some n := E.integral source n y hx
      unfold Number.convert
      dsimp only
      rw [hintegral]
      exact if_pos hn
  | floating type =>
    obtain ⟨z, hz⟩ := hc
    have hread : ∀ y : P.Value type,
        Number.read (Number.floating type y : Number P.toFloatingPoint).bytes (.floating type) =
          (Number.floating type y : Number P.toFloatingPoint) :=
      fun y => congrArg (Number.floating type) (E.ofBytes type y)
    cases x with
    | integer source v =>
      have hv : (v : ℚ) = q := Option.some.inj hx
      rw [← hv] at hz ⊢
      refine ⟨.floating type (P.ofInt type v), ?_, E.ofInt type v z hz, hread _⟩
      cases type <;> rfl
    | floating source y =>
      cases type with
      | float =>
        cases source with
        | float => exact ⟨.floating .float y, rfl, hx, hread y⟩
        | double => exact ⟨.floating .float (P.narrow y), rfl, E.narrow q y z hx hz, hread _⟩
      | double =>
        cases source with
        | float => exact ⟨.floating .double (P.widen y), rfl, (E.widen y).trans hx, hread _⟩
        | double => exact ⟨.floating .double y, rfl, hx, hread y⟩

end Exact

end Pdi.Expression
