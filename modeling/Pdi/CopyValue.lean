import Pdi.ExpressionCopy
import Pdi.Sizes

/-!
# Evaluation into a buffer, with sizes as the code computes them

`copy_value` of every class of expressions, where the size of a buffer and the running
offset of a sequence are `size_t`. `Accepts` says of an expression and a type whether the
copy returns; a copy that returns accounts for the size of the buffer modulo 2^64, and an
operation for that of the data.

Numbers and texts are evaluated as before; of their copies only the size that they return
is taken modulo 2^64. Where no size of the type reaches 2^64, a copy that returns is the one
of `ExpressionForms`.
-/
namespace Pdi.Machine

open Pdi.Datatypes Pdi.Expression Pdi.Trace

variable {P : Platform}

theorem wrap_zero : wrap 0 = 0 := rfl

theorem wrap_add_left (m n : Nat) : wrap (wrap m + n) = wrap (m + n) := Nat.mod_add_mod _ _ _

/-- A copy that computes with sizes only for what it returns. -/
def wrapped (copy : Copy Nat) : Copy Nat := do
  let n ← copy
  pure (wrap n)

/-- All of the data, byte for byte. -/
def wholeCopy (ref : Value) (type : Datatype) : Copy Nat :=
  if buffersize ref.type = buffersize type then do
    put (ref.content.take (buffersize type))
    pure (buffersize type)
  else fail (valueError ("Cannot copy reference expression value: reference buffersize (" ++
    ToString.toString (buffersize ref.type) ++ ") != type bufferize (" ++
    ToString.toString (buffersize type) ++ ")"))

def referenceCopy (P : Platform) (whole : Bool) (toRef : Except Failure Value) (type : Datatype) :
    Copy Nat := do
  let ref ← lift toRef
  if ref.readable then if whole then wholeCopy ref type else wrapped (indexedCopy P ref type)
  else fail (valueError
    "Cannot copy reference expression value: cannot get read access to reference")

variable (ctx : DataContext)

mutual
/-- `copy_value` -/
def copyValue : Form P → Datatype → Copy Nat
  | .intLiteral value, type => wrapped (intLiteralCopy P value type)
  | .floatLiteral value, type => wrapped (floatLiteralCopy value type)
  | .stringLiteral start values, type =>
    wrapped (stringLiteralCopy (stringText (values.impls ctx) start) type)
  | .reference referenced _ subelements, type =>
    referenceCopy P (subelements.impls ctx).isEmpty
      (referenceRef ctx referenced (subelements.impls ctx)) type
  | .operation first operands, type =>
    wrapped (operationCopy P (operationRef (first.impl ctx) (operands.impls ctx)) type)
  | .sequence elements, type =>
    match type with
    | .array subtype size _ _ _ => do
      let offset ← copyArray elements subtype 0
      if offset = wrap (size * buffersize subtype) then pure offset
      else fail (valueError ("Array literal copy incomplete: copied " ++ ToString.toString offset ++
        " B of " ++ ToString.toString (wrap (size * buffersize subtype)) ++ " B"))
    | .tuple types n _ => do
      copyTuple elements types
      pure (wrap n)
    | _ => fail (valueError
        "Sequence literal cannot copy a value whose type is neither array nor tuple")
  | .mapping entries, type =>
    match type with
    | .record members n _ => do
      copyRecord entries members
      pure (wrap n)
    | _ => fail (valueError "Map literal cannot copy value of not record datatype")

/-- The elements in an array, one after the other from `offset` on. -/
def copyArray : Forms P → Datatype → Nat → Copy Nat
  | .nil, _, offset => pure offset
  | .cons e rest, subtype, offset => do
    let copied ← (copyValue e subtype).relabel (Write.shift offset)
    copyArray rest subtype (wrap (offset + copied))

/-- The elements in a tuple. The vector of its elements is read past its end if the
sequence is longer, and what is found there is a place anywhere: it stands for one that is
behind every buffer. -/
def copyTuple : Forms P → Members → Copy Unit
  | .nil, _ => pure ()
  | .cons _ _, .nil => do
    emit ⟨2 ^ 64, [0]⟩
    fail outside
  | .cons e rest, .cons offset type _ elements => do
    let _ ← (copyValue e type).relabel (Write.shift offset)
    copyTuple rest elements

/-- The loop of `Mapping::copy_value`. -/
def copyRecord : Entries P → Members → Copy Unit
  | .nil, _ => pure ()
  | .cons name e rest, members =>
    match members.find? name with
    | some (displacement, type) => do
      let _ ← (copyValue e type).relabel (Write.shift displacement)
      copyRecord rest members
    | none => fail (valueError ("Trying to reference non-existing member: " ++ name))
end

/-! ## When a copy returns -/

mutual
def Accepts : Form P → Datatype → Prop
  | .reference referenced _ subelements, type =>
    ∃ ref, referenceRef ctx referenced (subelements.impls ctx) = .ok ref ∧ ref.readable ∧
      if (subelements.impls ctx).isEmpty then buffersize ref.type = buffersize type
      else ∃ c, bufferTarget type = some c ∧ ∃ n, ref.scalarValue (P := P) c = .ok n
  | .sequence elements, type =>
    match type with
    | .array subtype size _ _ _ =>
      AcceptArray elements subtype ∧
        wrap (elements.takes subtype) = wrap (size * buffersize subtype)
    | .tuple types _ _ => AcceptTuple elements types
    | _ => False
  | .mapping entries, type =>
    match type with
    | .record members _ _ => AcceptRecord entries members
    | _ => False
  | e, type => e.Accepts ctx type

def AcceptArray : Forms P → Datatype → Prop
  | .nil, _ => True
  | .cons e rest, subtype => Accepts e subtype ∧ AcceptArray rest subtype

/-- A sequence may be shorter than the tuple. -/
def AcceptTuple : Forms P → Members → Prop
  | .nil, _ => True
  | .cons _ _, .nil => False
  | .cons e rest, .cons _ type _ types => Accepts e type ∧ AcceptTuple rest types

def AcceptRecord : Entries P → Members → Prop
  | .nil, _ => True
  | .cons name e rest, members =>
    (∃ m, members.find? name = some m ∧ Accepts e m.2) ∧ AcceptRecord rest members
end

theorem result_wrapped {copy : Copy Nat} {accepted : Prop} {m : Nat}
    (h : ∀ n, copy.result = .ok n ↔ accepted ∧ n = m) (n : Nat) :
    (wrapped copy).result = .ok n ↔ accepted ∧ n = wrap m := by
  simp only [wrapped, result_bind_eq_ok, h, result_pure, Except.ok.injEq]
  constructor
  · rintro ⟨k, ⟨ha, rfl⟩, rfl⟩
    exact ⟨ha, rfl⟩
  · rintro ⟨ha, rfl⟩
    exact ⟨m, ⟨ha, rfl⟩, rfl⟩

theorem result_wholeCopy (ref : Value) (type : Datatype) (n : Nat) :
    (wholeCopy ref type).result = .ok n ↔
      buffersize ref.type = buffersize type ∧ n = buffersize type := by
  unfold wholeCopy
  split
  · rename_i h
    simp only [result_bind_eq_ok, put, result_emit, result_pure, Except.ok.injEq, h, true_and]
    exact ⟨fun ⟨_, hn⟩ => hn.symm, fun hn => ⟨(), hn.symm⟩⟩
  · rename_i h
    simp [h]

theorem result_referenceCopy (whole : Bool) (toRef : Except Failure Value) (type : Datatype)
    (n : Nat) : (referenceCopy P whole toRef type).result = .ok n ↔
      (∃ ref, toRef = .ok ref ∧ ref.readable ∧
        if whole then buffersize ref.type = buffersize type
        else ∃ c, bufferTarget type = some c ∧ ∃ m, ref.scalarValue (P := P) c = .ok m) ∧
      n = buffersize type := by
  refine result_readable (fun ref n => ?_) n
  cases whole with
  | true => exact result_wholeCopy ref type n
  | false =>
    rw [buffersize_eq type]
    exact result_wrapped (result_indexedCopy ref type) n

mutual
/-- A copy returns exactly for the types that the expression accepts, and then its
return value depends on the type alone. -/
theorem result_copyValue : ∀ (e : Form P) (type : Datatype) (n : Nat),
    (copyValue ctx e type).result = .ok n ↔ Accepts ctx e type ∧ n = wrap (e.takes type)
  | .intLiteral value, type, n => by
    rw [copyValue, Accepts]
    · exact result_wrapped (result_intLiteralCopy value type) n
    all_goals simp
  | .floatLiteral value, type, n => by
    rw [copyValue, Accepts]
    · exact result_wrapped (result_floatLiteralCopy value type) n
    all_goals simp
  | .stringLiteral _ _, type, n => by
    rw [copyValue, Accepts]
    · exact result_wrapped (result_stringLiteralCopy _ type) n
    all_goals simp
  | .operation _ _, type, n => by
    rw [copyValue, Accepts]
    · exact result_wrapped (result_operationCopy _ type) n
    all_goals simp
  | .reference _ _ _, type, n => by
    rw [copyValue, Accepts, result_referenceCopy, buffersize_eq type]
    rfl
  | .sequence elements, type, n => by
    cases type with
    | array subtype size start subsize attributes =>
      have htakes : wrap ((Form.sequence elements).takes (.array subtype size start subsize
          attributes)) = wrap (size * buffersize subtype) :=
        (buffersize_eq (.array subtype size start subsize attributes)).symm
      have harray := result_copyArray elements subtype 0
      simp only [Nat.zero_add, wrap_zero] at harray
      simp only [copyValue, result_bind_eq_ok, harray, Accepts, htakes]
      constructor
      · rintro ⟨offset, ⟨ha, rfl⟩, h⟩
        split at h
        · rename_i hsize
          exact ⟨⟨ha, hsize⟩, hsize ▸ (Except.ok.inj h).symm⟩
        · cases h
      · rintro ⟨⟨ha, hsize⟩, rfl⟩
        refine ⟨_, ⟨ha, rfl⟩, ?_⟩
        rw [if_pos hsize, hsize]
        rfl
    | tuple =>
      simp only [copyValue, result_bind_eq_ok, result_copyTuple elements, Accepts, Form.takes,
        Datatype.buffersize, result_pure, Except.ok.injEq]
      exact ⟨fun ⟨_, ha, hn⟩ => ⟨ha, hn.symm⟩, fun ⟨ha, hn⟩ => ⟨(), ha, hn.symm⟩⟩
    | _ => simp [copyValue, Accepts]
  | .mapping entries, type, n => by
    cases type with
    | record =>
      simp only [copyValue, result_bind_eq_ok, result_copyRecord entries, Accepts, Form.takes,
        Datatype.buffersize, result_pure, Except.ok.injEq]
      exact ⟨fun ⟨_, ha, hn⟩ => ⟨ha, hn.symm⟩, fun ⟨ha, hn⟩ => ⟨(), ha, hn.symm⟩⟩
    | _ => simp [copyValue, Accepts]

theorem result_copyArray : ∀ (es : Forms P) (subtype : Datatype) (offset n : Nat),
    (copyArray ctx es subtype (wrap offset)).result = .ok n ↔
      AcceptArray ctx es subtype ∧ n = wrap (offset + es.takes subtype)
  | .nil, subtype, offset, n => by
    simp only [copyArray, result_pure, Except.ok.injEq, AcceptArray, Forms.takes, true_and,
      Nat.add_zero]
    exact eq_comm
  | .cons e rest, subtype, offset, n => by
    simp only [copyArray, result_bind_eq_ok, result_relabel, result_copyValue e, AcceptArray,
      Forms.takes]
    have hrest := result_copyArray rest subtype (offset + e.takes subtype) n
    rw [Nat.add_assoc] at hrest
    constructor
    · rintro ⟨copied, ⟨he, rfl⟩, h⟩
      rw [wrap_add_wrap, wrap_add_left, hrest] at h
      exact ⟨⟨he, h.1⟩, h.2⟩
    · rintro ⟨⟨he, ha⟩, hn⟩
      refine ⟨_, ⟨he, rfl⟩, ?_⟩
      rw [wrap_add_wrap, wrap_add_left]
      exact hrest.mpr ⟨ha, hn⟩

theorem result_copyTuple : ∀ (es : Forms P) (types : Members) (u : Unit),
    (copyTuple ctx es types).result = .ok u ↔ AcceptTuple ctx es types
  | .nil, types, u | .cons e rest, .nil, u => by simp [copyTuple, AcceptTuple, result_bind_eq_ok]
  | .cons e rest, .cons d type name types, u => by
    simp only [copyTuple, result_bind_eq_ok, result_relabel, result_copyValue e,
      result_copyTuple rest, AcceptTuple]
    exact ⟨fun ⟨_, ⟨he, _⟩, ha⟩ => ⟨he, ha⟩, fun ⟨he, ha⟩ => ⟨_, ⟨he, rfl⟩, ha⟩⟩

theorem result_copyRecord : ∀ (es : Entries P) (members : Members) (u : Unit),
    (copyRecord ctx es members).result = .ok u ↔ AcceptRecord ctx es members
  | .nil, members, u => by simp [copyRecord, AcceptRecord]
  | .cons name e rest, members, u => by
    simp only [copyRecord, AcceptRecord]
    cases members.find? name with
    | none => simp
    | some =>
      simp only [result_bind_eq_ok, result_relabel, result_copyValue e, result_copyRecord rest,
        Option.some.injEq, exists_eq_left']
      exact ⟨fun ⟨_, ⟨he, _⟩, ha⟩ => ⟨he, ha⟩, fun ⟨he, ha⟩ => ⟨_, ⟨he, rfl⟩, ha⟩⟩
end

/-! ## Copies without a wrap -/

theorem wrapped_eq {copy : Copy Nat} {n : Nat} (h : copy.result = .ok n) (hn : n < 2 ^ 64) :
    wrapped copy = copy := by
  obtain ⟨trace, result⟩ := copy
  cases h
  change (⟨trace ++ [], .ok (wrap n)⟩ : Copy Nat) = _
  rw [List.append_nil, wrap_of_lt hn]

theorem wholeCopy_eq {ref : Value} {t : Datatype} (ht : Measured t)
    (h : ref.type.buffersize = t.buffersize) : wholeCopy ref t = Expression.wholeCopy ref t := by
  have hsize := buffersize_of_measured ht
  rw [wholeCopy, Expression.wholeCopy, if_pos h, if_pos (by rw [buffersize_eq, h, ← buffersize_eq]),
    hsize, ← h, ← ref.length_content, List.take_length]

theorem buffersize_lt (type : Datatype) : buffersize type < 2 ^ 64 := by
  rw [buffersize_eq]
  exact Nat.mod_lt _ (by decide)

theorem Measured.lt {t : Datatype} (ht : Measured t) : t.buffersize < 2 ^ 64 :=
  buffersize_of_measured ht ▸ buffersize_lt t

mutual
/-- For a type without a size of 2^64 bytes or more, a copy that returns is the one whose
sizes are numbers. -/
theorem copyValue_eq : ∀ (e : Form P) {t : Datatype}, Measured t → e.Accepts ctx t →
    copyValue ctx e t = (e.impl ctx).copyValue t
  | .intLiteral _, t, ht, h | .floatLiteral _, t, ht, h | .stringLiteral _ _, t, ht, h =>
    wrapped_eq ((Form.result_copyValue ctx _ t _).mpr ⟨h, rfl⟩) ht.lt
  | .operation first operands, t, ht, h => by
    have hresult := ((Form.operation first operands).result_copyValue ctx t _).mpr ⟨h, rfl⟩
    obtain ⟨-, -, c, hc, -⟩ := h
    have hsize : c.size ≤ 8 := by
      cases c with
      | integer type | floating type => cases type <;> decide
    rw [Form.takes, ← dataTarget_size hc] at hresult
    exact wrapped_eq hresult (by omega)
  | .reference referenced _ subelements, t, ht, h => by
    obtain ⟨ref, href, hread, hcopy⟩ := h
    change referenceCopy P _ _ t = Expression.referenceCopy P _ _ t
    rw [href]
    change (if ref.readable then _ else _ : Copy Nat) = if ref.readable then _ else _
    rw [if_pos hread, if_pos hread]
    split at hcopy
    · rename_i hwhole
      rw [if_pos hwhole, if_pos hwhole, wholeCopy_eq ht hcopy]
    · rename_i hpart
      rw [if_neg hpart, if_neg hpart]
      exact wrapped_eq ((result_indexedCopy ref t _).mpr ⟨hcopy, rfl⟩) ht.lt
  | .sequence elements, .array subtype size start subsize attributes, ht, h => by
    change _ = sequenceCopy (elements.impls ctx) (.array subtype size start subsize attributes)
    have htakes : 0 + elements.takes subtype < 2 ^ 64 := by
      rw [Nat.zero_add, h.2]
      exact ht.1
    rw [copyValue, sequenceCopy, copyArray_eq elements ht.2 h.1 htakes,
      buffersize_of_measured ht.2, wrap_of_lt ht.1]
  | .sequence elements, .tuple types n attributes, ht, h => by
    change _ = sequenceCopy (elements.impls ctx) (.tuple types n attributes)
    rw [copyValue, sequenceCopy, copyTuple_eq elements ht.2 h, wrap_of_lt ht.1]
  | .mapping entries, .record members n attributes, ht, h => by
    change _ = mappingCopy (entries.impls ctx) (.record members n attributes)
    rw [copyValue, mappingCopy, copyRecord_eq entries ht.2 h, wrap_of_lt ht.1]

theorem copyArray_eq : ∀ (es : Forms P) {subtype : Datatype} {offset : Nat}, Measured subtype →
    es.AcceptArray ctx subtype → offset + es.takes subtype < 2 ^ 64 →
    copyArray ctx es subtype offset = Expression.copyArray subtype (es.impls ctx) offset
  | .nil, _, _, _, _, _ => rfl
  | .cons e rest, subtype, offset, ht, h, hlt => by
    have hresult : (((e.impl ctx).copyValue subtype).relabel (Write.shift offset)).result =
      .ok (e.takes subtype) := (e.result_copyValue ctx subtype _).mpr ⟨h.1, rfl⟩
    rw [Forms.takes, ← Nat.add_assoc] at hlt
    rw [copyArray, Forms.impls, Expression.copyArray, copyValue_eq e ht h.1, bind_of_ok hresult,
      bind_of_ok hresult, wrap_of_lt (by omega), copyArray_eq rest ht h.2 hlt]

theorem copyTuple_eq : ∀ (es : Forms P) {types : Members}, MembersMeasured types →
    es.AcceptTuple ctx types → copyTuple ctx es types = Expression.copyTuple (es.impls ctx) types
  | .nil, _, _, _ => by rw [copyTuple, Forms.impls, Expression.copyTuple]
  | .cons e rest, .cons _ _ _ _, ht, h => by
    rw [copyTuple, Forms.impls, Expression.copyTuple, copyValue_eq e ht.1 h.1,
      copyTuple_eq rest ht.2 h.2]

theorem copyRecord_eq : ∀ (es : Entries P) {members : Members}, MembersMeasured members →
    es.AcceptRecord ctx members →
    copyRecord ctx es members = Expression.copyRecord members (es.impls ctx)
  | .nil, _, _, _ => rfl
  | .cons _ e rest, members, ht, h => by
    obtain ⟨⟨⟨d, t⟩, hfind, he⟩, hrest⟩ := h
    rw [copyRecord, Entries.impls, Expression.copyRecord, hfind]
    dsimp only
    obtain ⟨i, hget⟩ := Members.get?_of_find? hfind
    rw [copyValue_eq e (measured_of_get? ht hget) he, copyRecord_eq rest ht hrest]
end

end Pdi.Machine
