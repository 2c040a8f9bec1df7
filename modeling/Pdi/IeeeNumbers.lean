import Mathlib.Data.Rat.Floor
import Pdi.Ieee
import Pdi.NumberBytes

/-!
# A platform with binary interchange formats

Its floating-point numbers are the words of 32 and 64 bits, lowest byte first. Where the
exact result of a conversion or an operation is a number of the type, it is the result;
other roundings are left open. This is all that the laws of exact values ask for.
-/
namespace Pdi.Expression

open Pdi.Datatypes Pdi.Ieee

variable {type : FloatType}

def FloatType.format : FloatType → Format
  | .float => binary32
  | .double => binary64

theorem FloatType.common (type : FloatType) : Common type.format := by
  cases type with
  | float => exact .inl rfl
  | double => exact .inr rfl

def FloatType.words (type : FloatType) : Nat := 256 ^ type.size

theorem FloatType.words_eq (type : FloatType) :
    type.words = 2 ^ (type.format.fractionBits + type.format.exponentBits + 1) := by
  cases type <;> rfl

theorem FloatType.words_pos (type : FloatType) : 0 < type.words := Nat.pow_pos (by decide)

@[ext] structure Word (type : FloatType) where
  bits : Nat
  bits_lt : bits < type.words

def Word.value {type : FloatType} (x : Word type) : Option ℚ := type.format.value x.bits

/-- A word with this value, if there is one. -/
noncomputable def Word.of (type : FloatType) (q : Option ℚ) : Word type :=
  open Classical in if h : ∃ x : Word type, x.value = q then h.choose else ⟨0, type.words_pos⟩

theorem Word.value_of {q : Option ℚ} (h : ∃ x : Word type, x.value = q) :
    (Word.of type q).value = q := by
  unfold Word.of
  rw [dif_pos h]
  exact h.choose_spec

/-- The integral part. -/
def truncate (q : ℚ) : Int := if 0 ≤ q then q.floor else q.ceil

theorem truncate_intCast (n : Int) : truncate n = n := by
  unfold truncate
  rw [Rat.floor_intCast, Rat.ceil_intCast, ite_self]

noncomputable def Word.arithmetic (op : ℚ → ℚ → ℚ) (type : FloatType) (x y : Word type) :
    Word type :=
  Word.of type (do pure (op (← x.value) (← y.value)))

def Word.compare (relation : ℚ → ℚ → Bool) (type : FloatType) (x y : Word type) : Bool :=
  match x.value, y.value with
  | some a, some b => relation a b
  | _, _ => false

def Word.ofBytes (type : FloatType) (content : List Byte) : Word type :=
  ⟨(fromLittleEndian content).toNat % type.words, Nat.mod_lt _ type.words_pos⟩

noncomputable def interchange : Platform where
  Value := Word
  ofText _ := Word.of .double none
  ofInt type n := Word.of type (some n)
  widen x := Word.of .double x.value
  add := Word.arithmetic (· + ·)
  sub := Word.arithmetic (· - ·)
  mul := Word.arithmetic (· * ·)
  div := Word.arithmetic (· / ·)
  eq := Word.compare (fun a b => decide (a = b))
  lt := Word.compare (fun a b => decide (a < b))
  zero _ x := decide (x.value = some 0)
  toLong _ x := (x.value.map truncate).filter (IntegerType.int64.Holds ·)
  narrow x := Word.of .float x.value
  integral _ x := x.value.map truncate
  toLong_eq _ _ := rfl
  ofBytes := Word.ofBytes
  toBytes type x := littleEndian type.size x.bits
  length_toBytes _ _ := length_littleEndian _ _
  text _ := []
  formatText _ text := .ok text
  formatLong _ n := .ok (decimal n)
  formatDouble _ _ := .ok []

/-! ## The laws -/

theorem ofBytes_littleEndian (x : Word type) :
    Word.ofBytes type (littleEndian type.size x.bits) = x := by
  refine Word.ext ?_
  change (fromLittleEndian (littleEndian type.size x.bits)).toNat % type.words = x.bits
  have hsame : (x.bits : Int) % (256 ^ type.size : Nat) = x.bits :=
    Int.emod_eq_of_lt (Int.natCast_nonneg _) (Int.ofNat_lt.mpr x.bits_lt)
  rw [fromLittleEndian_littleEndian, hsame, Int.toNat_natCast, Nat.mod_eq_of_lt x.bits_lt]

/-- The word of as many bytes as the type has. -/
theorem bits_ofBytes {content : List Byte} (h : content.length = type.size) :
    ((Word.ofBytes type content).bits : Int) = fromLittleEndian content := by
  obtain ⟨hnonneg, hlt⟩ := fromLittleEndian_lt content
  rw [h] at hlt
  change ((((fromLittleEndian content).toNat % type.words : Nat)) : Int) = _
  rw [Nat.mod_eq_of_lt (by unfold FloatType.words; omega), Int.toNat_of_nonneg hnonneg]

theorem exists_double (x : Word .float) : ∃ y : Word .double, y.value = x.value := by
  obtain ⟨y, hy, hnumber⟩ := exists_wide_number (Format.fit_fields x.bits)
  exact ⟨⟨binary64.word y, Format.word_lt hy⟩, (Format.value_word hy).trans hnumber⟩

/-- The upper half of the words whose exponent has all bits set. -/
theorem value_upper {lower : List Byte} (h : lower.length = 4) :
    (Word.ofBytes .double (lower ++ [0, 0, 240, 127])).value = none := by
  have hlt := fromLittleEndian_lt lower
  rw [h] at hlt
  have hlength : (lower ++ [0, 0, 240, 127]).length = FloatType.double.size := by
    rw [List.length_append, h]
    rfl
  have hword := bits_ofBytes hlength
  rw [fromLittleEndian_append, h] at hword
  change _ = fromLittleEndian lower + 4294967296 * 2146435072 at hword
  unfold Word.value Format.value Format.number
  refine if_pos ?_
  change (Word.ofBytes .double (lower ++ [0, 0, 240, 127])).bits / 2 ^ 52 % 2 ^ 11 = 2047
  omega

theorem forall_zero_iff (content : List Byte) :
    (∀ b ∈ content, b = 0) ↔ fromLittleEndian content = 0 := by
  induction content with
  | nil => exact iff_of_true (List.forall_mem_nil _) rfl
  | cons b content ih =>
    have hnonneg := (fromLittleEndian_lt content).1
    rw [List.forall_mem_cons, ih]
    change _ ↔ (b.toNat : Int) + 256 * fromLittleEndian content = 0
    rw [← UInt8.toNat_inj]
    change b.toNat = 0 ∧ _ ↔ _
    omega

theorem bits_iff (type : FloatType) (t : IntegerType) (content : List Byte)
    (hlength : content.length = type.size) (hsize : t.size = type.size) :
    (Word.ofBytes type content).value = some (t.wrap (fromLittleEndian content) : ℚ) ↔
      ∀ b ∈ content, b = 0 := by
  have hword := bits_ofBytes hlength
  have hrange := fromLittleEndian_lt content
  have hvalues : t.values = (type.words : Nat) := by rw [values_eq, hsize]; rfl
  rw [hlength, ← hsize, ← values_eq] at hrange
  rw [forall_zero_iff]
  constructor
  · intro h
    have hzero := word_eq_zero type.common (type.words_eq ▸ (Word.ofBytes type content).bits_lt)
      (n := t.wrap (fromLittleEndian content)) (by
        rw [← type.words_eq, hword, ← hvalues]
        exact wrap_cases t hrange) h
    omega
  · intro h
    have hzero : (Word.ofBytes type content).bits = 0 := by omega
    have hwrap : t.wrap (fromLittleEndian content) = 0 := by
      rw [h]
      cases t <;> decide
    rw [hwrap]
    unfold Word.value
    rw [hzero]
    exact value_zero type.common

/-- The laws of exact values. -/
def interchangeExact : Exactness interchange where
  value _ x := Word.value x
  ofInt _ _ x hx := Word.value_of ⟨x, hx⟩
  integral _ n x hx := by
    change (Word.value x).map truncate = some n
    rw [hx, Option.map_some, truncate_intCast]
  widen x := by
    change (Word.of .double (Word.value x)).value = Word.value x
    exact Word.value_of (exists_double x)
  narrow q x y hx hy := by
    change (Word.of .float (Word.value x)).value = some q
    rw [hx]
    exact Word.value_of ⟨y, hy⟩
  ofBytes _ x := ofBytes_littleEndian x
  upper lower h := ⟨[0, 0, 240, 127], rfl, value_upper h⟩
  bits := bits_iff

theorem interchangeExact_value (type : FloatType) (x : Word type) :
    interchangeExact.value type x = type.format.value x.bits := rfl

end Pdi.Expression
