import Mathlib.Data.List.TakeWhile
import Pdi.Access

/-!
# Lists of paths in one string

`PDI_PLUGIN_PATH` holds any number of paths with a colon between them. A colon or a
backslash inside of a path has a backslash before it.

The scanner works with an index into the text and a list to whose last string it
appends. It is compared with a reader that takes one character after the other.
-/
namespace Pdi.StringTools

open Pdi.Datatypes

/-! ## The scanner -/

variable {d c : Char} {i : Nat}

/-- The variables of the loop: `start`, and `result` as its last string and those before. -/
structure Scan where
  start : Nat
  front : List (List Char)
  back : List Char

/-- What one turn of the loop does. -/
inductive Turn where
  | again (scan : Scan)
  | leave (result : Except Failure (List (List Char)))

def special (c : Char) : Bool := c = '\\' || c = ':'

/-- `find_first_of("\\:", start)`, with the length of the text for `npos` -/
def findSpecial (text : List Char) (start : Nat) : Nat :=
  start + ((text.drop start).takeWhile (!special ·)).length

def endEscaped : Failure := valueError "Unable to escape content ending in \\"

def notEscapable (content : List Char) : Failure :=
  valueError ("Unable to escape `" ++ String.ofList content ++ "'")

def turn (text : List Char) (s : Scan) : Turn :=
  let stop := findSpecial text s.start
  let back := s.back ++ (text.drop s.start).take (stop - s.start)
  match text[stop]? with
  | none => .leave (.ok (s.front ++ [s.back ++ text.drop s.start]))
  | some c =>
    if c = ':' then .again ⟨stop + 1, s.front ++ [back], []⟩
    else if c = '\\' then
      match text[stop + 1]? with
      | none => .leave (.error endEscaped)
      | some d =>
        if d = '\\' || d = ':' then .again ⟨stop + 2, s.front, back ++ [d]⟩
        else .leave (.error (notEscapable (back ++ [d])))
    else .leave (.error (.undefined "only a backslash, a colon or the end should be found"))

/-- The loop, for so many turns. -/
def loop (text : List Char) : (turns : Nat) → Scan → Option (Except Failure (List (List Char)))
  | 0, _ => none
  | n + 1, s =>
    match turn text s with
    | .again s' => loop text n s'
    | .leave result => some result

/-- `string_array_parse`, stopped after as many turns as the text has characters and one
more. -/
def stringArrayParse (unescaped : List Char) : Option (Except Failure (List (List Char))) :=
  loop unescaped (unescaped.length + 1) ⟨0, [], []⟩

/-! ## The strings it is for -/

def escapeChar (c : Char) : List Char := if special c then ['\\', c] else [c]

def escape (s : List Char) : List Char := s.flatMap escapeChar

/-- The escaped strings with a colon between them. -/
def encode (strings : List (List Char)) : List Char := List.intercalate [':'] (strings.map escape)

/-- Read from the left, some backslash that escapes is at the end or before a character
that is neither a backslash nor a colon. -/
def BadEscape : List Char → Prop
  | [] => False
  | c :: rest =>
    if c = '\\' then
      match rest with
      | [] => True
      | d :: rest => special d = false ∨ BadEscape rest
    else BadEscape rest

/-! ## One character after the other -/

def decode (front : List (List Char)) (back : List Char) :
    List Char → Except Failure (List (List Char))
  | [] => .ok (front ++ [back])
  | c :: rest =>
    if c = ':' then decode (front ++ [back]) [] rest
    else if c = '\\' then
      match rest with
      | [] => .error endEscaped
      | d :: rest =>
        if special d then decode front (back ++ [d]) rest
        else .error (notEscapable (back ++ [d]))
    else decode front (back ++ [c]) rest

section Decode

variable {front : List (List Char)} {back rest : List Char}

theorem decode_colon : decode front back (':' :: rest) = decode (front ++ [back]) [] rest := by
  rw [decode.eq_def]
  exact if_pos rfl

theorem decode_escaped (hd : special d = true) :
    decode front back ('\\' :: d :: rest) = decode front (back ++ [d]) rest := by
  rw [decode, if_neg (by decide), if_pos rfl]
  exact if_pos hd

theorem decode_notEscapable (hd : special d = false) :
    decode front back ('\\' :: d :: rest) = .error (notEscapable (back ++ [d])) := by
  rw [decode, if_neg (by decide), if_pos rfl]
  exact if_neg (by rw [hd]; decide)

theorem decode_plain (hc : special c = false) :
    decode front back (c :: rest) = decode front (back ++ [c]) rest := by
  simp only [special, Bool.or_eq_false_iff, decide_eq_false_iff_not] at hc
  rw [decode.eq_def]
  dsimp only
  rw [if_neg hc.2, if_neg hc.1]

theorem decode_append_plain {plain : List Char} (h : ∀ c ∈ plain, special c = false) :
    decode front back (plain ++ rest) = decode front (back ++ plain) rest := by
  induction plain generalizing back with
  | nil => rw [List.nil_append, List.append_nil]
  | cons c plain ih =>
    rw [List.forall_mem_cons] at h
    rw [List.cons_append, decode_plain h.1, ih h.2, List.append_assoc, List.singleton_append]

end Decode

/-! ## The scanner is the reader -/

section Loop

variable {text : List Char} {s : Scan}

theorem take_findSpecial (text : List Char) (start : Nat) :
    (text.drop start).take (findSpecial text start - start) =
      (text.drop start).takeWhile (!special ·) := by
  rw [findSpecial, Nat.add_sub_cancel_left]
  exact (List.prefix_iff_eq_take.mp (List.takeWhile_prefix _)).symm

theorem drop_findSpecial (text : List Char) (start : Nat) :
    text.drop (findSpecial text start) = (text.drop start).dropWhile (!special ·) := by
  rw [findSpecial, ← List.drop_drop]
  have h := List.takeWhile_append_dropWhile (p := (!special ·)) (l := text.drop start)
  nth_rewrite 2 [← h]
  exact List.drop_left

/-- The text from `start` on: the characters that are passed over, and what was found. -/
theorem decode_drop (text : List Char) (front : List (List Char)) (back : List Char) (start : Nat) :
    decode front back (text.drop start) =
      decode front (back ++ (text.drop start).take (findSpecial text start - start))
        (text.drop (findSpecial text start)) := by
  rw [take_findSpecial, drop_findSpecial]
  have h := List.takeWhile_append_dropWhile (p := (!special ·)) (l := text.drop start)
  nth_rewrite 1 [← h]
  refine decode_append_plain fun c hc => ?_
  have := List.mem_takeWhile_imp hc
  simpa using this

theorem special_findSpecial {start : Nat} (h : text[findSpecial text start]? = some c) :
    special c = true := by
  have hhead : ((text.drop start).dropWhile (!special ·)).head? = some c := by
    rw [← drop_findSpecial, List.head?_drop, h]
  have := List.head?_dropWhile_not (!special ·) (text.drop start)
  rw [hhead] at this
  simpa using this

theorem drop_eq_cons (h : text[i]? = some c) : text.drop i = c :: text.drop (i + 1) := by
  obtain ⟨hi, rfl⟩ := List.getElem?_eq_some_iff.mp h
  exact List.drop_eq_getElem_cons hi

theorem drop_eq_nil (h : text[i]? = none) : text.drop i = [] :=
  List.drop_eq_nil_of_le (List.getElem?_eq_none_iff.mp h)

theorem le_findSpecial (text : List Char) (start : Nat) : start ≤ findSpecial text start :=
  Nat.le_add_right _ _

/-- One turn either leaves with what the reader gives for the text that is left, or goes on
behind what it has read. -/
theorem turn_decode (text : List Char) (s : Scan) :
    turn text s = .leave (decode s.front s.back (text.drop s.start)) ∨
      ∃ s', turn text s = .again s' ∧ s.start < s'.start ∧ s'.start ≤ text.length ∧
        decode s.front s.back (text.drop s.start) =
          decode s'.front s'.back (text.drop s'.start) := by
  obtain ⟨start, front, back⟩ := s
  have hstop := le_findSpecial text start
  rw [turn]
  dsimp only
  cases hc : text[findSpecial text start]? with
  | none =>
    refine .inl ?_
    have hnil := drop_eq_nil hc
    have hall : text.drop start = (text.drop start).takeWhile (!special ·) := by
      rw [drop_findSpecial] at hnil
      have h := List.takeWhile_append_dropWhile (p := (!special ·)) (l := text.drop start)
      rw [hnil, List.append_nil] at h
      exact h.symm
    rw [decode_drop, hnil, decode, take_findSpecial, ← hall]
  | some c =>
    have hlt : findSpecial text start < text.length := (List.getElem?_eq_some_iff.mp hc).1
    rw [decode_drop, drop_eq_cons hc]
    dsimp only
    by_cases hcolon : c = ':'
    · rw [if_pos hcolon, hcolon, decode_colon]
      exact .inr ⟨_, rfl, by dsimp only; omega, by dsimp only; omega, rfl⟩
    · have hback : c = '\\' := by
        have := special_findSpecial hc
        simpa [special, hcolon] using this
      rw [if_neg hcolon, if_pos hback, hback]
      cases hd : text[findSpecial text start + 1]? with
      | none =>
        rw [drop_eq_nil hd]
        exact .inl rfl
      | some =>
        have hlt' : findSpecial text start + 1 < text.length := (List.getElem?_eq_some_iff.mp hd).1
        rw [drop_eq_cons hd]
        dsimp only
        split
        · next hs =>
          rw [decode_escaped hs]
          exact .inr ⟨_, rfl, by dsimp only; omega, by dsimp only; omega, rfl⟩
        · next hs =>
          rw [decode_notEscapable (Bool.eq_false_iff.mpr hs)]
          exact .inl rfl

/-- The loop ends, and gives what the reader gives. -/
theorem loop_eq_decode {turns : Nat} (h : text.length < s.start + turns)
    (hs : s.start ≤ text.length) :
    loop text turns s = some (decode s.front s.back (text.drop s.start)) := by
  induction turns generalizing s with
  | zero => omega
  | succ n ih =>
    rw [loop]
    obtain hleave | ⟨s', hagain, hlt, hle, heq⟩ := turn_decode text s
    · rw [hleave]
    · rw [hagain, heq]
      exact ih (by omega) hle

theorem stringArrayParse_eq_decode (text : List Char) :
    stringArrayParse text = some (decode [] [] text) :=
  loop_eq_decode (by dsimp only; omega) (Nat.zero_le _)

end Loop

/-! ## Both directions -/

theorem escape_cons (c : Char) (s : List Char) : escape (c :: s) = escapeChar c ++ escape s := rfl

theorem decode_escape (front : List (List Char)) (back s rest : List Char) :
    decode front back (escape s ++ rest) = decode front (back ++ s) rest := by
  induction s generalizing back with
  | nil => rw [List.append_nil]; rfl
  | cons c s ih =>
    rw [escape_cons, List.append_assoc, escapeChar]
    cases hc : special c with
    | true =>
      rw [if_pos rfl, List.cons_append, List.singleton_append, decode_escaped hc, ih,
        List.append_assoc, List.singleton_append]
    | false =>
      rw [if_neg (by decide), List.singleton_append, decode_plain hc, ih, List.append_assoc,
        List.singleton_append]

theorem encode_singleton (s : List Char) : encode [s] = escape s := by
  simp [encode]

theorem encode_cons_cons (s t : List Char) (l : List (List Char)) :
    encode (s :: t :: l) = escape s ++ ':' :: encode (t :: l) := by
  simp [encode, List.intercalate]

theorem decode_encode (front : List (List Char)) (s : List Char) (l : List (List Char)) :
    decode front [] (encode (s :: l)) = .ok (front ++ s :: l) := by
  induction l generalizing front s with
  | nil =>
    rw [encode_singleton, ← List.append_nil (escape s), decode_escape]
    rfl
  | cons t l ih =>
    rw [encode_cons_cons, decode_escape, decode_colon, ih, List.append_assoc]
    rfl

theorem encode_cons_char (c : Char) (s : List Char) (l : List (List Char)) :
    encode ((c :: s) :: l) = escapeChar c ++ encode (s :: l) := by
  cases l with
  | nil => rw [encode_singleton, encode_singleton, escape_cons]
  | cons => rw [encode_cons_cons, encode_cons_cons, escape_cons, List.append_assoc]

/-- What the reader accepts is the encoding of what it gives. -/
theorem encode_of_decode {front : List (List Char)} {back text : List Char}
    {result : List (List Char)} (h : decode front back text = .ok result) :
    ∃ s l, result = front ++ (back ++ s) :: l ∧ encode (s :: l) = text := by
  fun_induction decode front back text with
  | case1 front back =>
    cases h
    exact ⟨[], [], by rw [List.append_nil], rfl⟩
  | case2 front back rest ih =>
    obtain ⟨s, l, rfl, rfl⟩ := ih h
    refine ⟨[], s :: l, by simp, ?_⟩
    rw [encode_cons_cons]
    rfl
  | case3 front back hne | case5 front back d rest hd hne => cases h
  | case4 front back d rest hd hne ih =>
    obtain ⟨s, l, rfl, rfl⟩ := ih h
    refine ⟨d :: s, l, by simp, ?_⟩
    rw [encode_cons_char, escapeChar, if_pos hd]
    rfl
  | case6 front back c rest hcolon hback ih =>
    obtain ⟨s, l, rfl, rfl⟩ := ih h
    have hc : ¬ special c = true := by simp [special, hcolon, hback]
    refine ⟨c :: s, l, by simp, ?_⟩
    rw [encode_cons_char, escapeChar, if_neg hc]
    rfl

theorem badEscape_cons (hc : c ≠ '\\') (rest : List Char) :
    BadEscape (c :: rest) ↔ BadEscape rest := by
  rw [BadEscape.eq_def]
  dsimp only
  rw [if_neg hc]

theorem badEscape_escape (d : Char) (rest : List Char) :
    BadEscape ('\\' :: d :: rest) ↔ special d = false ∨ BadEscape rest := by
  rw [BadEscape, if_pos rfl]

/-- The reader fails at the first bad escape, and for no other reason. -/
theorem decode_cases (front : List (List Char)) (back text : List Char) :
    (BadEscape text ∧ ∃ message, decode front back text = .error (valueError message)) ∨
      (¬ BadEscape text ∧ ∃ strings, decode front back text = .ok strings) := by
  fun_induction decode front back text with
  | case1 front back => exact .inr ⟨not_false, _, rfl⟩
  | case2 front back rest ih => simpa only [badEscape_cons (show ':' ≠ '\\' by decide)] using ih
  | case3 front back hne => exact .inl ⟨by simp [BadEscape], _, rfl⟩
  | case4 front back d rest hd hne ih => simpa [badEscape_escape, hd] using ih
  | case5 front back d rest hd hne =>
    exact .inl ⟨(badEscape_escape d rest).mpr (.inl (Bool.eq_false_iff.mpr hd)), _, rfl⟩
  | case6 front back c rest hcolon hback ih => simpa only [badEscape_cons hback] using ih

/-- On every text the scanner ends. It gives back the strings that were encoded, it accepts
only encodings, of what it gives, and what it rejects has a bad escape. -/
theorem stringArrayParse_bijective :
    (∀ strings, strings ≠ [] → stringArrayParse (encode strings) = some (.ok strings)) ∧
      (∀ text strings, stringArrayParse text = some (.ok strings) →
        strings ≠ [] ∧ encode strings = text) ∧
      (∀ text, (∃ message, stringArrayParse text = some (.error (valueError message))) ↔
        BadEscape text) ∧
      ∀ text, (∃ strings, stringArrayParse text = some (.ok strings)) ∨
        ∃ message, stringArrayParse text = some (.error (valueError message)) := by
  refine ⟨fun strings hne => ?_, fun text strings h => ?_, fun text => ?_, fun text => ?_⟩
  · obtain ⟨s, l, rfl⟩ := List.exists_cons_of_ne_nil hne
    rw [stringArrayParse_eq_decode, decode_encode]
    rfl
  · rw [stringArrayParse_eq_decode, Option.some.injEq] at h
    obtain ⟨s, l, rfl, rfl⟩ := encode_of_decode h
    exact ⟨List.cons_ne_nil _ _, rfl⟩
  · simp only [stringArrayParse_eq_decode, Option.some.injEq]
    obtain ⟨hbad, herror⟩ | ⟨hgood, strings, hok⟩ := decode_cases [] [] text
    · exact iff_of_true herror hbad
    · refine iff_of_false (fun herror => ?_) hgood
      rw [hok] at herror
      obtain ⟨message, h⟩ := herror
      cases h
  · simp only [stringArrayParse_eq_decode, Option.some.injEq]
    obtain ⟨-, herror⟩ | ⟨-, hok⟩ := decode_cases [] [] text
    · exact .inr herror
    · exact .inl hok

end Pdi.StringTools
