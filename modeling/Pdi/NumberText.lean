import Pdi.Cursor
import Pdi.LongestMatch

/-!
# Numbers in a text

`strtol` in base 0 and `strtod` convert the longest beginning of a text that has
the form of a number, after white space. The forms are given by two automata. The
floating value of a text is left to it: `strtod` answers the text it converts.
-/
namespace Pdi.NumberText

open Pdi.Cursor Pdi.LongestMatch

variable {l : List Char} {c : Char} {t r w u : Text}

/-- `isspace` in the C locale. -/
def isSpace (c : Char) : Bool := [' ', '\t', '\n', '\x0b', '\x0c', '\r'].contains c

def isSign (c : Char) : Bool := c == '+' || c == '-'
def isOctalDigit (c : Char) : Bool := "01234567".toList.contains c
def isDigit (c : Char) : Bool := "0123456789".toList.contains c
def isHexDigit (c : Char) : Bool := "0123456789abcdefABCDEF".toList.contains c
def isLetter (c : Char) : Bool :=
  "abcdefghijklmnopqrstuvwxyzABCDEFGHIJKLMNOPQRSTUVWXYZ".toList.contains c

/-! ## Integers -/

inductive IntegerState where
  | start | signed | zero | octal | decimal | hexMark | hex
  deriving DecidableEq

def IntegerState.first (c : Char) : Option IntegerState :=
  if c == '0' then some .zero else if isDigit c then some .decimal else none

def integers : Automaton Char IntegerState where
  start := .start
  next
    | .start, c => if isSign c then some .signed else IntegerState.first c
    | .signed, c => IntegerState.first c
    | .zero, c =>
      if c == 'x' || c == 'X' then some .hexMark
      else if isOctalDigit c then some .octal else none
    | .octal, c => if isOctalDigit c then some .octal else none
    | .decimal, c => if isDigit c then some .decimal else none
    | .hexMark, c => if isHexDigit c then some .hex else none
    | .hex, c => if isHexDigit c then some .hex else none
  accepting
    | .zero | .octal | .decimal | .hex => true
    | _ => false

def digitValue (c : Char) : Nat :=
  if isDigit c then c.toNat - '0'.toNat
  else if c.toNat < 'a'.toNat then c.toNat - 'A'.toNat + 10 else c.toNat - 'a'.toNat + 10

def digitsValue (base : Nat) (digits : Text) : Nat :=
  digits.foldl (fun n c => base * n + digitValue c) 0

def magnitude : Text → Nat
  | '0' :: 'x' :: digits | '0' :: 'X' :: digits => digitsValue 16 digits
  | '0' :: digits => digitsValue 8 digits
  | digits => digitsValue 10 digits

/-- The number that an integer text stands for. -/
def integerValue : Text → Int
  | '-' :: u => -magnitude u
  | '+' :: u => magnitude u
  | u => magnitude u

/-- The number and what follows it, if there is one. -/
def strtol (t : Text) : Option (Int × Text) :=
  (integers.scan isSpace t).map fun (u, r) => (integerValue u, r)

/-! ## Floating-point numbers -/

/-- Decimal and hexadecimal numbers, each with a fraction and an exponent;
`infinity n` and `nan n` have read `n` letters of the word. -/
inductive FloatState where
  | start | signed
  | zero | digits | bare | point | fraction | exponentMark | exponentSign | exponent
  | hexMark | hexDigits | hexBare | hexPoint | hexFraction
  | binaryMark | binarySign | binaryExponent
  | infinity (n : Nat) | nan (n : Nat) | nanOpen | nanClosed
  deriving DecidableEq

def FloatState.letter (word : String) (n : Nat) (c : Char) (state : Nat → FloatState) :
    Option FloatState :=
  match word.toList[n]? with
  | some a => if c == a || c == a.toUpper then some (state (n + 1)) else none
  | none => none

def FloatState.first (c : Char) : Option FloatState :=
  if c == '0' then some .zero
  else if isDigit c then some .digits
  else if c == '.' then some .bare
  else (letter "infinity" 0 c .infinity).or (letter "nan" 0 c .nan)

/-- After the digits before the point. -/
def FloatState.decimal (c : Char) : Option FloatState :=
  if isDigit c then some .digits
  else if c == '.' then some .point
  else if c == 'e' || c == 'E' then some .exponentMark else none

/-- After the point. -/
def FloatState.decimalFraction (c : Char) : Option FloatState :=
  if isDigit c then some .fraction
  else if c == 'e' || c == 'E' then some .exponentMark else none

def FloatState.hexadecimal (c : Char) : Option FloatState :=
  if isHexDigit c then some .hexDigits
  else if c == '.' then some .hexPoint
  else if c == 'p' || c == 'P' then some .binaryMark else none

def FloatState.hexadecimalFraction (c : Char) : Option FloatState :=
  if isHexDigit c then some .hexFraction
  else if c == 'p' || c == 'P' then some .binaryMark else none

def floats : Automaton Char FloatState where
  start := .start
  next
    | .start, c => if isSign c then some .signed else FloatState.first c
    | .signed, c => FloatState.first c
    | .zero, c => if c == 'x' || c == 'X' then some .hexMark else FloatState.decimal c
    | .digits, c => FloatState.decimal c
    | .bare, c => if isDigit c then some .fraction else none
    | .point, c | .fraction, c => FloatState.decimalFraction c
    | .exponentMark, c =>
      if isSign c then some .exponentSign else if isDigit c then some .exponent else none
    | .exponentSign, c | .exponent, c => if isDigit c then some .exponent else none
    | .hexMark, c =>
      if isHexDigit c then some .hexDigits else if c == '.' then some .hexBare else none
    | .hexDigits, c => FloatState.hexadecimal c
    | .hexBare, c => if isHexDigit c then some .hexFraction else none
    | .hexPoint, c | .hexFraction, c => FloatState.hexadecimalFraction c
    | .binaryMark, c =>
      if isSign c then some .binarySign else if isDigit c then some .binaryExponent else none
    | .binarySign, c | .binaryExponent, c => if isDigit c then some .binaryExponent else none
    | .infinity n, c => FloatState.letter "infinity" n c .infinity
    | .nan n, c => if n = 3 && c == '(' then some .nanOpen else FloatState.letter "nan" n c .nan
    | .nanOpen, c =>
      if c == ')' then some .nanClosed
      else if isDigit c || isLetter c || c == '_' then some .nanOpen else none
    | .nanClosed, _ => none
  accepting
    | .zero | .digits | .point | .fraction | .exponent => true
    | .hexDigits | .hexPoint | .hexFraction | .binaryExponent => true
    | .infinity n => n == 3 || n == 8
    | .nan n => n == 3
    | .nanClosed => true
    | _ => false

/-- The text of a number and what follows it, if there is one. -/
def strtod (t : Text) : Option (Text × Text) := floats.scan isSpace t

/-! ## What ends a number -/

/-- A character that no number goes on with. -/
def delimiter (c : Char) : Bool := !(isDigit c || isLetter c || c == '.' || c == '(')

example : strtol "  -0x1F+1".toList = some (-31, "+1".toList) := by decide +kernel
example : strtol "08".toList = some (0, "8".toList) := by decide +kernel
example : strtod "1.5e+x".toList = some ("1.5".toList, "e+x".toList) := by decide +kernel

/-- What follows a number, if anything does, starts with a delimiter. -/
def Delimited (r : Text) : Prop := ∀ c, r.head? = some c → delimiter c = true

/-- The texts of integers and of floating-point numbers. -/
def IntegerText (u : Text) : Prop := ∃ q, integers.Accepts .start u q
def FloatText (u : Text) : Prop := ∃ q, floats.Accepts .start u q

/-- A check of a list's characters, by running over the list. Left to itself, `decide`
runs over every character there is. -/
theorem forall_mem_of_all {p : Char → Prop} [DecidablePred p]
    (h : (l.all fun a => decide (p a)) = true) : ∀ a ∈ l, p a := by
  intro a ha
  exact of_decide_eq_true (List.all_eq_true.mp h a ha)

/-- Characters that stand in numbers besides digits and words. -/
theorem mark_not_delimiter :
    ∀ a ∈ ['0', 'x', 'X', 'e', 'E', 'p', 'P', '.', '('], delimiter a = false :=
  forall_mem_of_all (by decide +kernel)

theorem infinity_letters :
    ∀ a ∈ "infinity".toList, delimiter a = false ∧ delimiter a.toUpper = false :=
  forall_mem_of_all (by decide +kernel)

theorem nan_letters : ∀ a ∈ "nan".toList, delimiter a = false ∧ delimiter a.toUpper = false :=
  forall_mem_of_all (by decide +kernel)

variable {q : IntegerState}

section Delimiters

variable (h : delimiter c = true)
include h

theorem not_isDigit : isDigit c = false := by
  simp_all [delimiter]

theorem not_isLetter : isLetter c = false := by
  simp_all [delimiter]

/-- Letters and digits have no delimiter among them. -/
theorem not_contains (hl : ∀ a ∈ l, isDigit a = true ∨ isLetter a = true) :
    l.contains c = false := by
  by_contra hc
  have hmem : c ∈ l := by simpa using hc
  have hword := hl c hmem
  simp [not_isDigit h, not_isLetter h] at hword

theorem not_isOctalDigit : isOctalDigit c = false :=
  not_contains h (forall_mem_of_all (by decide +kernel))

theorem not_isHexDigit : isHexDigit c = false :=
  not_contains h (forall_mem_of_all (by decide +kernel))

theorem ne_of_delimiter {a : Char} (ha : delimiter a = false) : c ≠ a := by
  rintro rfl
  rw [h] at ha
  cases ha

theorem integers_stop (hq : integers.accepting q = true) : integers.next q c = none := by
  have hx : c ≠ 'x' := ne_of_delimiter h (mark_not_delimiter 'x' (by decide))
  have hX : c ≠ 'X' := ne_of_delimiter h (mark_not_delimiter 'X' (by decide))
  cases q <;> simp_all [integers, not_isDigit, not_isOctalDigit, not_isHexDigit]

theorem letter_stop {word : String} {n : Nat} {state : Nat → FloatState}
    (hword : ∀ a ∈ word.toList, delimiter a = false ∧ delimiter a.toUpper = false) :
    FloatState.letter word n c state = none := by
  unfold FloatState.letter
  split
  · next a ha =>
    obtain ⟨hlower, hupper⟩ := hword a (List.mem_of_getElem? ha)
    simp [ne_of_delimiter h hlower, ne_of_delimiter h hupper]
  · rfl

theorem decimalFraction_stop : FloatState.decimalFraction c = none := by
  have he : c ≠ 'e' := ne_of_delimiter h (mark_not_delimiter 'e' (by decide))
  have hE : c ≠ 'E' := ne_of_delimiter h (mark_not_delimiter 'E' (by decide))
  simp [FloatState.decimalFraction, not_isDigit h, he, hE]

theorem decimal_stop : FloatState.decimal c = none := by
  have he : c ≠ 'e' := ne_of_delimiter h (mark_not_delimiter 'e' (by decide))
  have hE : c ≠ 'E' := ne_of_delimiter h (mark_not_delimiter 'E' (by decide))
  have hpoint : c ≠ '.' := ne_of_delimiter h (mark_not_delimiter '.' (by decide))
  simp [FloatState.decimal, not_isDigit h, he, hE, hpoint]

theorem hexadecimalFraction_stop : FloatState.hexadecimalFraction c = none := by
  have hp : c ≠ 'p' := ne_of_delimiter h (mark_not_delimiter 'p' (by decide))
  have hP : c ≠ 'P' := ne_of_delimiter h (mark_not_delimiter 'P' (by decide))
  simp [FloatState.hexadecimalFraction, not_isHexDigit h, hp, hP]

theorem hexadecimal_stop : FloatState.hexadecimal c = none := by
  have hp : c ≠ 'p' := ne_of_delimiter h (mark_not_delimiter 'p' (by decide))
  have hP : c ≠ 'P' := ne_of_delimiter h (mark_not_delimiter 'P' (by decide))
  have hpoint : c ≠ '.' := ne_of_delimiter h (mark_not_delimiter '.' (by decide))
  simp [FloatState.hexadecimal, not_isHexDigit h, hp, hP, hpoint]

theorem floats_stop {q : FloatState} (hq : floats.accepting q = true) : floats.next q c = none := by
  have hx : c ≠ 'x' := ne_of_delimiter h (mark_not_delimiter 'x' (by decide))
  have hX : c ≠ 'X' := ne_of_delimiter h (mark_not_delimiter 'X' (by decide))
  have hopen : c ≠ '(' := ne_of_delimiter h (mark_not_delimiter '(' (by decide))
  cases q with
  | zero => simp [floats, hx, hX, decimal_stop h]
  | digits => exact decimal_stop h
  | point | fraction => exact decimalFraction_stop h
  | hexDigits => exact hexadecimal_stop h
  | hexPoint | hexFraction => exact hexadecimalFraction_stop h
  | exponent | binaryExponent => simp [floats, not_isDigit h]
  | infinity => exact letter_stop h infinity_letters
  | nan => simp [floats, hopen, letter_stop h nan_letters]
  | nanClosed => rfl
  | start | signed | bare | exponentMark | exponentSign | hexMark | hexBare | binaryMark
  | binarySign | nanOpen => cases hq

end Delimiters

/-- White space does not start a number. -/
theorem not_of_isSpace (h : isSpace c = true) : isSign c = false ∧ delimiter c = true := by
  have hall : ∀ a ∈ [' ', '\t', '\n', '\x0b', '\x0c', '\r'],
      isSign a = false ∧ delimiter a = true := forall_mem_of_all (by decide +kernel)
  exact hall c (by simpa [isSpace] using h)

theorem integers_blank (h : isSpace c = true) : integers.next .start c = none := by
  obtain ⟨hsign, hc⟩ := not_of_isSpace h
  have hzero : c ≠ '0' := ne_of_delimiter hc (mark_not_delimiter '0' (by decide))
  simp [integers, IntegerState.first, hsign, not_isDigit hc, hzero]

theorem floats_blank (h : isSpace c = true) : floats.next .start c = none := by
  obtain ⟨hsign, hc⟩ := not_of_isSpace h
  have hzero : c ≠ '0' := ne_of_delimiter hc (mark_not_delimiter '0' (by decide))
  have hpoint : c ≠ '.' := ne_of_delimiter hc (mark_not_delimiter '.' (by decide))
  simp [floats, FloatState.first, hsign, not_isDigit hc, hzero, hpoint,
    letter_stop hc infinity_letters, letter_stop hc nan_letters]

/-! ## The conversions -/

/-- `strtol` takes white space and the text of an integer. -/
theorem strtol_eq_some {n : Int} (h : strtol t = some (n, r)) :
    ∃ w u, t = w ++ u ++ r ∧ (∀ c ∈ w, isSpace c = true) ∧ IntegerText u ∧ integerValue u = n := by
  unfold strtol at h
  obtain ⟨⟨u, r'⟩, hscan, heq⟩ := Option.map_eq_some_iff.mp h
  cases heq
  obtain ⟨⟨w, rfl, hw⟩, hu⟩ := scan_eq_some hscan
  exact ⟨w, u, rfl, hw, hu, rfl⟩

theorem strtol_of_text (hw : ∀ c ∈ w, isSpace c = true) (hu : IntegerText u) (hr : Delimited r) :
    strtol (w ++ u ++ r) = some (integerValue u, r) := by
  obtain ⟨q, hq⟩ := hu
  have hstop : integers.Stops q r := fun c hc => integers_stop (hr c hc) hq.2
  rw [strtol, scan_of_accepts rfl (fun c => integers_blank) hw hq hstop]
  rfl

theorem strtod_eq_some (h : strtod t = some (u, r)) :
    ∃ w, t = w ++ u ++ r ∧ (∀ c ∈ w, isSpace c = true) ∧ FloatText u := by
  obtain ⟨⟨w, rfl, hw⟩, hu⟩ := scan_eq_some h
  exact ⟨w, rfl, hw, hu⟩

theorem strtod_of_text (hw : ∀ c ∈ w, isSpace c = true) (hu : FloatText u) (hr : Delimited r) :
    strtod (w ++ u ++ r) = some (u, r) := by
  obtain ⟨q, hq⟩ := hu
  exact scan_of_accepts rfl (fun c => floats_blank) hw hq fun c hc => floats_stop (hr c hc) hq.2

theorem IntegerText.ne_nil (hu : IntegerText u) : u ≠ [] := by
  rintro rfl
  obtain ⟨q, hrun, hq⟩ := hu
  obtain rfl : IntegerState.start = q := Option.some.inj hrun
  cases hq

theorem integers_next_point (q : IntegerState) : integers.next q '.' = none := by
  cases q <;> decide +kernel

theorem IntegerText.not_point (hu : IntegerText u) : '.' ∉ u := by
  intro hmem
  obtain ⟨q, hrun, -⟩ := hu
  obtain ⟨q₁, q₂, hnext⟩ := next_of_mem hrun hmem
  rw [integers_next_point] at hnext
  cases hnext

/-- The text of an integer starts with a sign or a digit. -/
theorem IntegerText.first (hu : IntegerText u) :
    ∃ c u', u = c :: u' ∧ (isSign c = true ∨ isDigit c = true) := by
  obtain ⟨q, hrun, hq⟩ := hu
  cases u with
  | nil =>
    obtain rfl : IntegerState.start = q := Option.some.inj hrun
    cases hq
  | cons c u =>
    obtain ⟨q₁, hnext, -⟩ := Option.bind_eq_some_iff.mp hrun
    refine ⟨c, u, rfl, ?_⟩
    by_contra hc
    have hzero : c ≠ '0' := by
      rintro rfl
      exact hc (.inr rfl)
    simp_all [integers, IntegerState.first]

theorem FloatText.ne_nil (hu : FloatText u) : u ≠ [] := by
  rintro rfl
  obtain ⟨q, hrun, hq⟩ := hu
  obtain rfl : FloatState.start = q := Option.some.inj hrun
  cases hq

theorem floats_next_colon (q : FloatState) : floats.next q ':' = none := by
  have hcolon : delimiter ':' = true := by decide +kernel
  cases q with
  | infinity => exact letter_stop hcolon infinity_letters
  | nan n =>
    have hletter : FloatState.letter "nan" n ':' .nan = none := letter_stop hcolon nan_letters
    simp [floats, hletter]
  | _ => decide +kernel

theorem FloatText.not_colon (hu : FloatText u) : ':' ∉ u := by
  intro hmem
  obtain ⟨q, hrun, -⟩ := hu
  obtain ⟨q₁, q₂, hnext⟩ := next_of_mem hrun hmem
  rw [floats_next_colon] at hnext
  cases hnext

/-- Where the automaton of floating-point numbers is on the text of an integer. -/
def IntegerState.floating : IntegerState → FloatState
  | .start => .start
  | .signed => .signed
  | .zero => .zero
  | .octal | .decimal => .digits
  | .hexMark => .hexMark
  | .hex => .hexDigits

theorem isDigit_of_isOctalDigit (h : isOctalDigit c = true) : isDigit c = true := by
  have hsub : ∀ a ∈ "01234567".toList, isDigit a = true := forall_mem_of_all (by decide +kernel)
  exact hsub c (by simpa [isOctalDigit] using h)

theorem first_floating (h : IntegerState.first c = some q) :
    FloatState.first c = some q.floating := by
  unfold IntegerState.first at h
  unfold FloatState.first
  split at h
  · next hc =>
    cases h
    rw [if_pos hc]
    rfl
  · next hc =>
    split at h
    · next hd =>
      cases h
      rw [if_neg hc, if_pos hd]
      rfl
    · cases h

theorem next_floating {q' : IntegerState} (h : integers.next q c = some q') :
    floats.next q.floating c = some q'.floating := by
  cases q with
  | start =>
    simp only [integers] at h
    simp only [floats, IntegerState.floating]
    split at h
    · next hc =>
      cases h
      rw [if_pos hc]
    · next hc =>
      rw [if_neg hc]
      exact first_floating h
  | signed => exact first_floating h
  | zero =>
    simp only [integers] at h
    simp only [floats, IntegerState.floating]
    split at h
    · next hc =>
      cases h
      rw [if_pos hc]
    · next hc =>
      rw [if_neg hc]
      split at h
      · next hd =>
        cases h
        simp [FloatState.decimal, isDigit_of_isOctalDigit hd]
      · cases h
  | octal =>
    simp only [integers] at h
    split at h
    · next hd =>
      cases h
      simp [floats, IntegerState.floating, FloatState.decimal, isDigit_of_isOctalDigit hd]
    · cases h
  | decimal =>
    simp only [integers] at h
    split at h
    · next hd =>
      cases h
      simp [floats, IntegerState.floating, FloatState.decimal, hd]
    · cases h
  | hexMark | hex =>
    simp only [integers] at h
    split at h
    · next hd =>
      cases h
      simp [floats, IntegerState.floating, FloatState.hexadecimal, hd]
    · cases h

/-- The text of an integer is the text of a floating-point number too. -/
theorem IntegerText.floatText (hu : IntegerText u) : FloatText u := by
  obtain ⟨q, hq⟩ := hu
  refine ⟨q.floating, hq.map IntegerState.floating (fun q c q' => next_floating) ?_⟩
  intro q hq
  cases q <;> first | rfl | cases hq

end Pdi.NumberText
