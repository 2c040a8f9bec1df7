import Pdi.BufferContents
import Pdi.ExpressionRoom

/-!
# The strings of character arrays

An array of one-byte integers is evaluated to a string by two functions: that of the
references, and that of the expressions which have none of their own. Both take as many
characters as the buffer has elements, from its start. An index reaches the elements of
the window instead.
-/
namespace Pdi.Expression

open Pdi.Cursor Pdi.Datatypes Pdi.Memory Pdi.Trace

/-- The byte that `operator[]` reaches, in a buffer whose first byte has address 0. -/
def Value.element (v : Value) (i : Nat) : Option Byte :=
  match v.type.index i 0 (fun _ => 0) with
  | .ok (a, _) => v.content[a]?
  | .error _ => none

/-- The text is made of the elements that the indices below `subsize` reach. -/
def Value.IsElements (v : Value) (subsize : Nat) (text : Text) : Prop :=
  text.length = subsize ∧ ∀ i < subsize, text[i]? = (v.element i).map charOf

/-- The expressions, told apart by how their string is made. -/
inductive StringKind where
  | number | text | reference | formatted | operation | sequence | mapping
  deriving DecidableEq

def Form.stringKind {P : Platform} : Form P → StringKind
  | .intLiteral _ | .floatLiteral _ => .number
  | .stringLiteral _ _ => .text
  | .reference _ format _ => if format = [] then .reference else .formatted
  | .operation _ _ => .operation
  | .sequence _ => .sequence
  | .mapping _ => .mapping

mutual
/-- As the parser builds them: an operation has an operand, and the names of a mapping are
keys of a table. -/
def Form.Built {P : Platform} : Form P → Prop
  | .operation _ .nil => False
  | .sequence elements => elements.Built
  | .mapping entries => entries.names.Nodup ∧ entries.Built
  | _ => True

def Forms.Built {P : Platform} : Forms P → Prop
  | .nil => True
  | .cons e rest => e.Built ∧ rest.Built

def Entries.Built {P : Platform} : Entries P → Prop
  | .nil => True
  | .cons _ e rest => e.Built ∧ rest.Built
end

/-- Every readable value of this type, however an expression of this kind comes to it,
has its elements for a string. -/
def StringIsElements (kind : StringKind) (t : Datatype) (subsize : Nat) : Prop :=
  ∀ (P : Platform) (ctx : DataContext) (e : Form P) (v : Value), e.Built → e.stringKind = kind →
    (e.impl ctx).toRef = .ok v → v.type = t → v.readable = true →
    ∃ text, (e.impl ctx).toString = .ok text ∧ v.IsElements subsize text

/-- When the strings are the elements. Numbers, operations and mappings are never arrays of
characters; a text evaluates to an array with a zero behind it, and a sequence to an array
over all of its elements. -/
def GivesElements (t : Datatype) (size start subsize : Nat) (attributes : Attributes) :
    StringKind → Prop
  | .reference => subsize = size ∧ (start = 0 ∨ size = 0)
  | .formatted => False
  | .text => ∀ n, t ≠ charsType (n + 1)
  | .sequence => ¬ (0 < size ∧ start = 0 ∧ subsize = size ∧ attributes = [])
  | .number | .operation | .mapping => True

section Chars

variable {P : Platform} {ctx : DataContext} {v : Value} {s : Scalar} {size start subsize i : Nat}
  {attributes : Attributes} {ref : DataRef} {toRef : Except Failure Value}
  {toLong : Except Failure Int} {toDouble : Except Failure (P.Value .double)} {t : Datatype}
  {e : Impl P}

theorem element_array (htype : v.type = .array (.scalar s) size start subsize attributes)
    (hbyte : s.denseSize = 1) (hi : i < subsize) : v.element i = v.content[start + i]? := by
  unfold Value.element
  rw [htype]
  simp [Datatype.index, Datatype.buffersize, hi, hbyte]

section

variable (htype : v.type = .array (.scalar s) size start subsize attributes)

include htype

theorem length_content_array (hbyte : s.denseSize = 1) : v.content.length = size := by
  rw [v.length_content, htype]
  simp [Datatype.buffersize, hbyte]

theorem chars_array (hbyte : s.denseSize = 1) : v.chars size = .ok (v.content.map charOf) := by
  have hlength := length_content_array htype hbyte
  unfold Value.chars
  rw [if_pos (le_of_eq hlength.symm), List.take_of_length_le (le_of_eq hlength)]

/-- The whole buffer is the elements if the window is all of it. -/
theorem isElements_buffer (hbyte : s.denseSize = 1) (hsize : subsize = size)
    (hstart : start = 0 ∨ size = 0) : v.IsElements subsize (v.content.map charOf) := by
  have hlength := length_content_array htype hbyte
  refine ⟨by rw [List.length_map, hlength, hsize], ?_⟩
  intro i hi
  have hzero : start = 0 := hstart.resolve_right (by omega)
  rw [element_array htype hbyte hi, hzero, Nat.zero_add, List.getElem?_map]

end

theorem referenceString_array {format : Text} (href : toRef = .ok v)
    (htype : v.type = .array (.scalar s) size start subsize attributes)
    (hread : v.readable = true) (hchar : isChar s = true) (hbyte : s.denseSize = 1) :
    referenceString format toRef toLong toDouble =
      if format = [] then .ok (v.content.map charOf)
      else (P.formatText format ((v.content.map charOf).takeWhile (· != '\x00'))).mapError
        .foreign := by
  unfold referenceString
  rw [href]
  simp only [Value.asRead, hread, if_true, bind, Except.bind, htype, hchar, chars_array htype hbyte]
  rfl

/-! ## Strings that are the elements -/

theorem sequenceType_array {types : List Datatype} (h : sequenceType types = .ok t)
    (ht : t = .array (.scalar s) size start subsize attributes) :
    0 < size ∧ start = 0 ∧ subsize = size ∧ attributes = [] := by
  subst ht
  cases types with
  | nil => cases h
  | cons =>
    rcases sequenceType_eq_ok.mp h with ⟨-, harray⟩ | ⟨-, -, htuple⟩
    · cases harray
      exact ⟨Nat.succ_pos _, rfl, rfl, rfl⟩
    · cases htuple

theorem applyOperator_number {computed operand value : Value} {op : Operator}
    (h : applyOperator P computed op operand = .ok value) :
    ∃ n : Number P.toFloatingPoint, value = .ofNumber n := by
  obtain ⟨a, -, h⟩ := bind_eq_ok.mp h
  obtain ⟨b, -, h⟩ := bind_eq_ok.mp h
  obtain ⟨n, -, h⟩ := bind_eq_ok.mp h
  exact ⟨n, (Except.ok.inj h).symm⟩

/-- The result of a loop with an operand is a number. -/
theorem applyAll_number : ∀ {operands : List (Operator × Impl P)} {computed v : Value},
    operands ≠ [] → applyAll operands computed = .ok v →
    ∃ n : Number P.toFloatingPoint, v = .ofNumber n
  | (op, e) :: rest, computed, v, _, h => by
    obtain ⟨_, -, h⟩ := bind_eq_ok.mp h
    obtain ⟨operand, -, h⟩ := bind_eq_ok.mp h
    obtain ⟨value, hvalue, h⟩ := bind_eq_ok.mp h
    by_cases hrest : rest = []
    · subst hrest
      obtain rfl : value = v := Except.ok.inj h
      exact applyOperator_number hvalue
    · exact applyAll_number hrest h

/-- The elements of what an expression of each kind evaluates to. -/
theorem stringIsElements_of_givesElements (hchar : isChar s = true) (hbyte : s.denseSize = 1)
    {kind : StringKind}
    (h : GivesElements (.array (.scalar s) size start subsize attributes) size start subsize
      attributes kind) :
    StringIsElements kind (.array (.scalar s) size start subsize attributes) subsize := by
  rintro P ctx e v hbuilt rfl href htype hread
  cases e with
  | intLiteral value =>
    have hallocate : allocate ctx (intLiteralCopy P value) (NumberType.integer .int64).datatype =
      .ok v := href
    rw [allocate_type hallocate] at htype
    cases htype
  | floatLiteral value =>
    have hallocate : allocate ctx (floatLiteralCopy value) (NumberType.floating .double).datatype =
      .ok v := href
    rw [allocate_type hallocate] at htype
    cases htype
  | stringLiteral =>
    obtain ⟨value, hvalue, hallocate⟩ := bind_eq_ok.mp href
    exact absurd (htype.symm.trans (allocate_type hallocate)) (h value.length)
  | reference name format =>
    by_cases hformat : format = []
    · simp only [Form.stringKind, if_pos hformat] at h
      refine ⟨_, ?_, isElements_buffer htype hbyte h.1 h.2⟩
      exact (referenceString_array href htype hread hchar hbyte).trans (if_pos hformat)
    · simp only [Form.stringKind, if_neg hformat] at h
      exact h.elim
  | operation first operands =>
    cases operands with
    | nil => exact hbuilt.elim
    | cons =>
      obtain ⟨computed, -, hall⟩ := bind_eq_ok.mp href
      obtain ⟨n, rfl⟩ := applyAll_number (List.cons_ne_nil _ _) hall
      cases htype
  | sequence elements =>
    change (if (elements.impls ctx).isEmpty then Except.ok Value.null else do
      let types ← elementTypes (elements.impls ctx)
      let type ← sequenceType types
      allocate ctx (sequenceCopy (elements.impls ctx)) type) = .ok v at href
    split_ifs at href
    · cases href
      cases htype
    · obtain ⟨types, -, href⟩ := bind_eq_ok.mp href
      obtain ⟨type, hsequence, hallocate⟩ := bind_eq_ok.mp href
      have ht := (allocate_type hallocate).symm.trans htype
      exact absurd (sequenceType_array hsequence ht) h
  | mapping =>
    obtain ⟨types, -, hallocate⟩ := bind_eq_ok.mp href
    rw [allocate_type hallocate] at htype
    cases htype

/-! ## Strings that are not -/

/-- All names lead to the same data. -/
def sharing (ref : DataRef) (mem : Mem Byte) : DataContext where
  desc _ := .ok (some ref)
  desc_error _ _ h := by cases h
  mem := mem
  fresh _ := 0

/-- Readable data at the start of the memory. -/
def dataOf (t : Datatype) : DataRef := ⟨t, 0, true, false⟩

/-- A memory in which the first byte differs from all others. -/
def marked : Mem Byte := fun a => if a = 0 then 1 else 0

variable {mem : Mem Byte}

theorem toRef_sharing (format : Text) :
    ((Form.reference [] format .nil : Form P).impl (sharing ref mem)).toRef =
      .ok ((sharing ref mem).value (some ref)) := rfl

theorem content_sharing (hbyte : s.denseSize = 1) (i : Nat) :
    ((sharing (dataOf (.array (.scalar s) size start subsize attributes)) mem).value
      (some (dataOf (.array (.scalar s) size start subsize attributes)))).content[i]? =
      if i < size then some (mem i) else none := by
  have hbytes : ((sharing (dataOf (.array (.scalar s) size start subsize attributes)) mem).value
      (some (dataOf (.array (.scalar s) size start subsize attributes)))).content =
      bytes mem 0 size := by
    simp [DataContext.value, dataOf, sharing, Datatype.buffersize, hbyte]
  rw [hbytes, bytes, List.getElem?_map]
  by_cases hi : i < size
  · rw [if_pos hi, List.getElem?_range hi, Option.map_some, Nat.zero_add]
  · rw [if_neg hi, List.getElem?_eq_none (by simpa using hi), Option.map_none]

/-- The whole buffer is the elements for a marked content only if the window is all of it. -/
theorem window_of_isElements (hbyte : s.denseSize = 1)
    (hv : v = (sharing (dataOf (.array (.scalar s) size start subsize attributes)) marked).value
      (some (dataOf (.array (.scalar s) size start subsize attributes))))
    (h : v.IsElements subsize (v.content.map charOf)) :
    subsize = size ∧ (start = 0 ∨ size = 0) := by
  have htype : v.type = .array (.scalar s) size start subsize attributes := by rw [hv]; rfl
  have hsize : subsize = size := by
    rw [← h.1, List.length_map, length_content_array htype hbyte]
  refine ⟨hsize, ?_⟩
  rcases Nat.eq_zero_or_pos size with hzero | hpos
  · exact .inr hzero
  -- the first character is the mark, so the first element is the start of the buffer
  have hfirst := h.2 0 (by omega)
  rw [element_array htype hbyte (by omega), List.getElem?_map, hv, content_sharing hbyte,
    content_sharing hbyte, if_pos hpos, Nat.add_zero] at hfirst
  by_cases hstart : start = 0
  · exact .inl hstart
  · simp only [marked, if_true, if_neg hstart] at hfirst
    split_ifs at hfirst
    · exact absurd (Option.some.inj hfirst) (by decide)
    · cases hfirst

/-- A platform that formats every text to one of this length. -/
def padding (length : Nat) : Platform :=
  { integersOnly with formatText := fun _ _ => .ok (List.replicate length ' ') }

/-- The text of a literal is shorter than the array that it is evaluated to. -/
theorem not_stringIsElements_text (n : Nat) :
    ¬ StringIsElements .text (charsType (n + 1)) (n + 1) := by
  intro h
  have hcopy : stringLiteralCopy (.ok (List.replicate n 'a')) (charsType (n + 1)) =
      ⟨[⟨0, (List.replicate n 'a').map byteOf ++ [0]⟩], .ok (charsType (n + 1)).buffersize⟩ := rfl
  have halign : (charsType (n + 1)).alignment ≠ 0 := Nat.one_ne_zero
  have hinside : ∀ w ∈ (stringLiteralCopy (.ok (List.replicate n 'a')) (charsType (n + 1))).trace,
      w.Inside (charsType (n + 1)).buffersize := by
    rw [hcopy]
    intro w hw
    rw [List.mem_singleton.mp hw]
    refine .inr ?_
    simp [charsType, NumberType.datatype, Scalar.make, Datatype.buffersize, NumberType.size,
      IntegerType.size]
  obtain ⟨v, hv, htype, hread⟩ := allocate_ok nothingShared _ _ halign hinside (by rw [hcopy])
  have href : ((Form.stringLiteral (List.replicate n 'a') .nil : Form integersOnly).impl
      nothingShared).toRef = .ok v := by
    refine bind_eq_ok.mpr ⟨List.replicate n 'a', rfl, ?_⟩
    rw [List.length_replicate]
    exact hv
  obtain ⟨text, hstring, helements⟩ := h integersOnly nothingShared
    (.stringLiteral (List.replicate n 'a') .nil) v trivial rfl href htype hread
  have htext : text = List.replicate n 'a' := (Except.ok.inj hstring).symm
  have hlength := helements.1
  rw [htext, List.length_replicate] at hlength
  omega

/-- The format of a reference may pad the text. -/
theorem not_stringIsElements_formatted (hchar : isChar s = true) (hbyte : s.denseSize = 1) :
    ¬ StringIsElements .formatted (.array (.scalar s) size start subsize attributes) subsize := by
  intro h
  set ref := dataOf (.array (.scalar s) size start subsize attributes)
  obtain ⟨text, hstring, helements⟩ := h (padding (subsize + 1)) (sharing ref marked)
    (.reference [] [' '] .nil) _ trivial rfl (toRef_sharing _) rfl rfl
  have hpadded : ((Form.reference [] [' '] .nil : Form (padding (subsize + 1))).impl
      (sharing ref marked)).toString = .ok (List.replicate (subsize + 1) ' ') :=
    referenceString_array (toRef_sharing [' ']) rfl rfl hchar hbyte
  have hlength := helements.1
  rw [← Except.ok.inj (hpadded.symm.trans hstring), List.length_replicate] at hlength
  omega

/-! ### Sequences

Their string is that of the elements one after the other, which are numbers here. -/

def copies (e : Form P) : Nat → Forms P
  | 0 => .nil
  | n + 1 => .cons e (copies e n)

theorem built_copies {e : Form P} (he : e.Built) : ∀ n, (copies e n).Built
  | 0 => trivial
  | n + 1 => ⟨he, built_copies he n⟩

theorem impls_copies (e : Form P) (n : Nat) :
    (copies e n).impls ctx = List.replicate n (e.impl ctx) := by
  induction n with
  | zero => rfl
  | succ n ih => rw [copies, Forms.impls, ih, List.replicate_succ]

theorem elementTypes_replicate (h : e.toRef = .ok v) (n : Nat) :
    elementTypes (List.replicate n e) = .ok (List.replicate n v.type) := by
  induction n with
  | zero => rfl
  | succ n ih =>
    rw [List.replicate_succ, elementTypes, h, ih]
    rfl

theorem sequenceText_replicate {text : Text} (h : e.toString = .ok text) (n : Nat) (result : Text) :
    ∃ all, sequenceText (List.replicate n e) result = .ok all ∧
      all.length = result.length + n * text.length := by
  induction n generalizing result with
  | zero => exact ⟨result, rfl, by omega⟩
  | succ n ih =>
    obtain ⟨all, hall, hlength⟩ := ih (result ++ text)
    refine ⟨all, ?_, ?_⟩
    · rw [List.replicate_succ, sequenceText, h]
      exact hall
    · rw [hlength, List.length_append, Nat.succ_mul]
      omega

theorem sequenceType_replicate (t : Datatype) (n : Nat) :
    sequenceType (List.replicate (n + 1) t) = .ok (.array t (n + 1) 0 (n + 1) []) := by
  have hsame : ∀ u ∈ List.replicate n t, t.same u = true := by
    intro u hu
    rw [List.eq_of_mem_replicate hu]
    exact t.same_refl
  refine sequenceType_eq_ok.mpr (.inl ⟨hsame, ?_⟩)
  rw [List.length_replicate]

/-- Elements of one byte are written one behind the other. -/
theorem copyArray_replicate {b : Byte} (h : e.copyValue t = ⟨[⟨0, [b]⟩], .ok 1⟩) (n offset : Nat) :
    (copyArray t (List.replicate n e) offset).result = .ok (offset + n) ∧
      ∀ w ∈ (copyArray t (List.replicate n e) offset).trace, w.Inside (offset + n) := by
  induction n generalizing offset with
  | zero => exact ⟨rfl, List.forall_mem_nil _⟩
  | succ n ih =>
    obtain ⟨hresult, hinside⟩ := ih (offset + 1)
    have hcopy : copyArray t (List.replicate (n + 1) e) offset =
        ⟨⟨offset, [b]⟩ :: (copyArray t (List.replicate n e) (offset + 1)).trace,
          (copyArray t (List.replicate n e) (offset + 1)).result⟩ := by
      rw [List.replicate_succ, copyArray, h]
      rfl
    have hend : offset + 1 + n = offset + (n + 1) := by omega
    rw [hcopy, ← hend]
    refine ⟨hresult, ?_⟩
    intro w hw
    rcases List.mem_cons.mp hw with rfl | hw
    · exact .inr (by simp only [List.length_singleton]; omega)
    · exact hinside w hw

/-- A memory full of the number 10. -/
def tens : Mem Byte := fun _ => 10

theorem isChar_kind (h : isChar s = true) : s.kind = .signed ∨ s.kind = .unsigned := by
  simp only [isChar, Bool.and_eq_true, Bool.or_eq_true, beq_iff_eq] at h
  exact h.2

theorem align_ne_zero_of_isChar (h : isChar s = true) : s.align ≠ 0 := by
  rcases s.valid with ⟨-, -, -, hkind⟩ | hpow
  · rcases isChar_kind h with hs | hs <;> rw [hs] at hkind <;> cases hkind
  · intro hzero
    rw [hzero] at hpow
    cases hpow

theorem wrap_ten (type : IntegerType) : type.wrap 10 = 10 :=
  wrap_of_holds (by cases type <;> decide)

theorem scalar_tens (hchar : isChar s = true) (hbyte : s.denseSize = 1) :
    ∃ type, ((sharing (dataOf (.scalar s)) tens).value (some (dataOf (.scalar s)))).scalar =
      .ok (.integer type 10 : Number integersOnly.toFloatingPoint) := by
  have hcontent : ((sharing (dataOf (.scalar s)) tens).value (some (dataOf (.scalar s)))).content =
      [10] := by
    simp [DataContext.value, dataOf, sharing, Datatype.buffersize, hbyte, bytes, tens]
  have hread : ∀ type : IntegerType,
      (Number.read [10] (.integer type) : Number integersOnly.toFloatingPoint) =
        .integer type 10 := by
    intro type
    exact congrArg (Number.integer type) (wrap_ten type)
  have htype : ((sharing (dataOf (.scalar s)) tens).value (some (dataOf (.scalar s)))).type =
    .scalar s := rfl
  rcases isChar_kind hchar with hs | hs
  · have hc : numberType s.kind s.denseSize = some (.integer .int8) := by rw [hs, hbyte]; rfl
    exact ⟨.int8, by rw [scalar_eq_read htype hc, hcontent, hread]⟩
  · have hc : numberType s.kind s.denseSize = some (.integer .uint8) := by rw [hs, hbyte]; rfl
    exact ⟨.uint8, by rw [scalar_eq_read htype hc, hcontent, hread]⟩

theorem toString_tens (hchar : isChar s = true) (hbyte : s.denseSize = 1) :
    ((Form.reference [] [] .nil : Form integersOnly).impl
      (sharing (dataOf (.scalar s)) tens)).toString = .ok ['1', '0'] := by
  obtain ⟨type, hscalar⟩ := scalar_tens hchar hbyte
  set v := (sharing (dataOf (.scalar s)) tens).value (some (dataOf (.scalar s)))
  have hlong : v.long integersOnly = .ok 10 := by
    unfold Value.long Value.scalarValue
    rw [hscalar]
    exact congrArg Except.ok (wrap_ten .int64)
  have hdouble : v.double integersOnly = .ok () := by
    unfold Value.double Value.scalarValue
    rw [hscalar]
    rfl
  have hten : decimal 10 = ['1', '0'] := by decide +kernel
  rw [← hten]
  change (do
    let lres ← Except.mapError (whileReferencing []) (v.long integersOnly)
    let dres ← Except.mapError (whileReferencing []) (v.double integersOnly)
    if isIntegral integersOnly lres dres then
      if [] = [] then pure (decimal lres)
      else (integersOnly.formatLong [] lres).mapError Failure.foreign
    else if [] = [] then pure (integersOnly.text dres)
    else (integersOnly.formatDouble [] dres).mapError Failure.foreign) = _
  rw [hlong, hdouble]
  rfl

/-- A last step that returns what it is given adds nothing. -/
theorem bind_eq_self {ω ε α : Type} {x : Traced ω ε α} {f : α → Traced ω ε α} {a : α}
    (h : x.result = .ok a) (hf : f a = pure a) : x >>= f = x := by
  obtain ⟨trace, result⟩ := x
  dsimp only at h
  subst h
  change (⟨trace ++ (f a).trace, (f a).result⟩ : Traced ω ε α) = _
  rw [hf]
  exact congrArg (Traced.mk · _) (List.append_nil trace)

/-- Two digits stand in the string for each element. -/
theorem not_stringIsElements_sequence (hchar : isChar s = true)
    (hbyte : s.denseSize = 1) (n : Nat) :
    ¬ StringIsElements .sequence (.array (.scalar s) (n + 1) 0 (n + 1) []) (n + 1) := by
  intro h
  set ctx := sharing (dataOf (.scalar s)) tens
  set e : Form integersOnly := .reference [] [] .nil
  set t : Datatype := .array (.scalar s) (n + 1) 0 (n + 1) []
  have hbuffersize : (Datatype.scalar s).buffersize = 1 := hbyte
  have hcopy : (e.impl ctx).copyValue (.scalar s) = ⟨[⟨0, [10]⟩], .ok 1⟩ := by
    change wholeCopy (ctx.value (some (dataOf (.scalar s)))) (.scalar s) = _
    have hput : wholeCopy (ctx.value (some (dataOf (.scalar s)))) (.scalar s) =
        ⟨[⟨0, bytes tens 0 (Datatype.scalar s).buffersize⟩],
          .ok (Datatype.scalar s).buffersize⟩ := by
      unfold wholeCopy
      exact if_pos rfl
    rw [hput, hbuffersize]
    rfl
  obtain ⟨hresult, hinside⟩ := copyArray_replicate hcopy (n + 1) 0
  rw [Nat.zero_add] at hresult hinside
  have hsequence : sequenceCopy (List.replicate (n + 1) (e.impl ctx)) t =
      copyArray (.scalar s) (List.replicate (n + 1) (e.impl ctx)) 0 :=
    bind_eq_self hresult (by rw [hbuffersize, Nat.mul_one, if_pos rfl])
  have hsize : t.buffersize = n + 1 := by
    rw [Datatype.buffersize, hbuffersize, Nat.mul_one]
  obtain ⟨v, hv, htype, hread⟩ := allocate_ok ctx
    (sequenceCopy (List.replicate (n + 1) (e.impl ctx))) t (align_ne_zero_of_isChar hchar)
    (by rw [hsequence, hsize]; exact hinside) (by rw [hsequence]; exact hresult)
  have href : ((Form.sequence (copies e (n + 1))).impl ctx).toRef = .ok v := by
    unfold Form.impl
    rw [impls_copies]
    refine bind_eq_ok.mpr ⟨_, elementTypes_replicate (toRef_sharing []) (n + 1), ?_⟩
    exact bind_eq_ok.mpr ⟨_, sequenceType_replicate _ n, hv⟩
  have he : e.Built := trivial
  obtain ⟨text, hstring, helements⟩ := h integersOnly ctx (.sequence (copies e (n + 1))) v
    (built_copies he (n + 1)) rfl href htype hread
  obtain ⟨all, hall, hlength⟩ := sequenceText_replicate (toString_tens hchar hbyte) (n + 1) []
  have htext : all = text := by
    unfold Form.impl at hstring
    rw [impls_copies] at hstring
    exact Except.ok.inj (hall.symm.trans hstring)
  have hcount := helements.1
  rw [← htext, hlength] at hcount
  simp only [List.length_cons, List.length_nil] at hcount
  omega

end Chars

/-- The strings of a kind of expressions are the elements of every value of a type. -/
theorem stringIsElements_iff (kind : StringKind) (s : Scalar) (hchar : isChar s = true)
    (hbyte : s.denseSize = 1) (size start subsize : Nat) (attributes : Attributes) :
    StringIsElements kind (.array (.scalar s) size start subsize attributes) subsize ↔
      GivesElements (.array (.scalar s) size start subsize attributes) size start subsize
        attributes kind := by
  refine ⟨?_, stringIsElements_of_givesElements hchar hbyte⟩
  intro h
  set ref := dataOf (.array (.scalar s) size start subsize attributes)
  cases kind with
  | number | operation | mapping => trivial
  | text =>
    intro n hn
    cases hn
    exact not_stringIsElements_text n h
  | reference =>
    obtain ⟨text, hstring, helements⟩ := h integersOnly (sharing ref marked)
      (.reference [] [] .nil) _ trivial rfl (toRef_sharing []) rfl rfl
    have hbuffer :=
      (referenceString_array (toRef_sharing []) rfl rfl hchar hbyte).symm.trans hstring
    rw [← Except.ok.inj hbuffer] at helements
    exact window_of_isElements hbyte rfl helements
  | formatted => exact not_stringIsElements_formatted hchar hbyte h
  | sequence =>
    rintro ⟨hpos, rfl, rfl, rfl⟩
    obtain ⟨n, rfl⟩ := Nat.exists_eq_succ_of_ne_zero (Nat.pos_iff_ne_zero.mp hpos)
    exact not_stringIsElements_sequence hchar hbyte n h

/-- References to an array without a window have its elements for a string, those to the
two elements behind the first of five have not. -/
theorem stringIsElements_iff_windows :
    let s := Scalar.make .unsigned 1 1 rfl
    isChar s = true ∧ s.denseSize = 1 ∧
      StringIsElements .reference (.array (.scalar s) 5 0 5 []) 5 ∧
      ¬ StringIsElements .reference (.array (.scalar s) 5 1 2 []) 2 := by
  refine ⟨rfl, rfl, ?_, ?_⟩
  · exact (stringIsElements_iff .reference _ rfl rfl 5 0 5 []).mpr ⟨rfl, .inl rfl⟩
  · intro h
    exact absurd ((stringIsElements_iff .reference _ rfl rfl 5 1 2 []).mp h).1 (by decide)

/-- The window `el` of `hello` is evaluated to all of `hello`. -/
theorem window_ignored :
    let t : Datatype := .array typeForInt8 5 1 2 []
    let ctx := sharing (dataOf t) (fun a => byteOf (("hello".toList[a]?).getD ' '))
    ((Form.reference "a".toList [] .nil : Form integersOnly).impl ctx).toString =
        .ok "hello".toList ∧
      (ctx.value (some (dataOf t))).element 0 = some (byteOf 'e') ∧
      (ctx.value (some (dataOf t))).element 1 = some (byteOf 'l') ∧
      ¬ (ctx.value (some (dataOf t))).IsElements 2 "hello".toList := by
  refine ⟨rfl, rfl, rfl, ?_⟩
  intro h
  exact absurd h.1 (by decide)

end Pdi.Expression
