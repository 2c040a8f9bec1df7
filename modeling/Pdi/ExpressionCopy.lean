import Pdi.ExpressionForms

/-!
# When a copy into a buffer succeeds

`Accepts` says of an expression and a type whether the copy returns. A copy that
returns accounts for the bytes of the type's buffer; only an operation accounts for
those of the type's data.
-/
namespace Pdi.Expression

open Pdi.Cursor (Text)
open Pdi.Datatypes Pdi.Trace

variable {P : Platform} {type : Datatype} {c : NumberType}
  {x : Except Failure (Number P.toFloatingPoint)}

/-- What the switches on the size of the buffer pick. -/
def bufferTarget : Datatype → Option NumberType
  | .scalar s => numberType s.kind s.denseSize
  | _ => none

/-- What the switch on the size of the data picks. -/
def dataTarget : Datatype → Option NumberType
  | .scalar s => numberType s.kind s.size
  | _ => none

/-- What the switches for integers pick. -/
def integerTarget (type : Datatype) : Option NumberType :=
  match bufferTarget type with
  | some (.integer t) => some (.integer t)
  | _ => none

def floatTarget (type : Datatype) : Option NumberType :=
  match bufferTarget type with
  | some (.floating t) => some (.floating t)
  | _ => none

/-- The bytes that a successful copy accounts for. -/
def Form.takes : Form P → Datatype → Nat
  | .operation _ _, type => type.datasize
  | _, type => type.buffersize

def Forms.takes (subtype : Datatype) : Forms P → Nat
  | .nil => 0
  | .cons e rest => e.takes subtype + rest.takes subtype

mutual
def Form.Accepts (ctx : DataContext) : Form P → Datatype → Prop
  | .intLiteral _, type => (integerTarget type).isSome
  | .floatLiteral _, type => (floatTarget type).isSome
  | .stringLiteral start values, type =>
    holdsChars type ∧ ∃ text, stringText (values.impls ctx) start = .ok text
  | .reference referenced _ subelements, type =>
    ∃ ref, referenceRef ctx referenced (subelements.impls ctx) = .ok ref ∧ ref.readable ∧
      if (subelements.impls ctx).isEmpty then ref.type.buffersize = type.buffersize
      else ∃ c, bufferTarget type = some c ∧ ∃ n, ref.scalarValue (P := P) c = .ok n
  | .operation first operands, type =>
    ∃ value, operationRef (first.impl ctx) (operands.impls ctx) = .ok value ∧
      ∃ c, dataTarget type = some c ∧ ∃ n, value.asRead.scalarValue (P := P) c = .ok n
  | .sequence elements, type =>
    match type with
    | .array subtype size _ _ _ =>
      elements.AcceptArray ctx subtype ∧ elements.takes subtype = size * subtype.buffersize
    | .tuple types _ _ => elements.AcceptTuple ctx types
    | _ => False
  | .mapping entries, type =>
    match type with
    | .record members _ _ => entries.AcceptRecord ctx members
    | _ => False

def Forms.AcceptArray (ctx : DataContext) : Forms P → Datatype → Prop
  | .nil, _ => True
  | .cons e rest, subtype => e.Accepts ctx subtype ∧ rest.AcceptArray ctx subtype

/-- A sequence may be shorter than the tuple. -/
def Forms.AcceptTuple (ctx : DataContext) : Forms P → Members → Prop
  | .nil, _ => True
  | .cons _ _, .nil => False
  | .cons e rest, .cons _ type _ types => e.Accepts ctx type ∧ rest.AcceptTuple ctx types

def Entries.AcceptRecord (ctx : DataContext) : Entries P → Members → Prop
  | .nil, _ => True
  | .cons name e rest, members =>
    (∃ m, members.find? name = some m ∧ e.Accepts ctx m.2) ∧ rest.AcceptRecord ctx members
end

/-! ## Copies of single values -/

theorem bufferTarget_size (h : bufferTarget type = some c) : c.size = type.buffersize := by
  cases type with
  | scalar => exact numberType_size h
  | _ => cases h

theorem dataTarget_size (h : dataTarget type = some c) : c.size = type.datasize := by
  cases type with
  | scalar => exact numberType_size h
  | _ => cases h

theorem bufferTarget_of_integerTarget (h : integerTarget type = some c) :
    bufferTarget type = some c := by
  unfold integerTarget at h
  split at h
  · rename_i ht
    rw [ht, h]
  · cases h

theorem floatTarget_eq_some (h : floatTarget type = some c) :
    bufferTarget type = some c ∧ ∃ t, c = .floating t := by
  unfold floatTarget at h
  split at h
  · rename_i t ht
    cases h
    exact ⟨ht, t, rfl⟩
  · cases h

/-- A copy that stores a number as the type a switch picks, and throws otherwise. -/
def Stores (target : Option NumberType) (x : Except Failure (Number P.toFloatingPoint))
    (copy : Copy Nat) : Prop :=
  match target with
  | some c => copy = store c x
  | none => ∃ status message, copy = fail (.error status message)

theorem numberType_kind {kind : ScalarKind} {size : Nat} (h : numberType kind size = some c) :
    c.kind = kind := by
  unfold numberType at h
  split at h <;> first | cases h; rfl | cases h

theorem stores_intLiteral (value : Int) (type : Datatype) :
    Stores (P := P) (integerTarget type) (.ok (.integer .int64 value))
      (intLiteralCopy P value type) := by
  cases type with
  | scalar s =>
    cases hn : numberType s.kind s.denseSize with
    | none =>
      simp only [integerTarget, bufferTarget, intLiteralCopy, hn]
      cases s.kind <;> exact ⟨_, _, rfl⟩
    | some c =>
      have hk := numberType_kind hn
      simp only [integerTarget, bufferTarget, intLiteralCopy, hn]
      rw [← hk]
      cases c with
      | integer t => cases t <;> rfl
      | floating => exact ⟨_, _, rfl⟩
  | _ => exact ⟨_, _, rfl⟩

theorem stores_floatLiteral (value : P.Value .double) (type : Datatype) :
    Stores (floatTarget type) (.ok (.floating .double value)) (floatLiteralCopy value type) := by
  cases type with
  | scalar s =>
    cases hn : numberType s.kind s.denseSize with
    | none =>
      simp only [floatTarget, bufferTarget, floatLiteralCopy, hn]
      cases s.kind <;> exact ⟨_, _, rfl⟩
    | some c =>
      have hk := numberType_kind hn
      simp only [floatTarget, bufferTarget, floatLiteralCopy, hn]
      rw [← hk]
      cases c with
      | integer t => cases t <;> exact ⟨_, _, rfl⟩
      | floating => rfl
  | _ => exact ⟨_, _, rfl⟩

theorem stores_indexed (ref : Value) (type : Datatype) :
    Stores (P := P) (bufferTarget type) ref.scalar (indexedCopy P ref type) := by
  cases type with
  | scalar s =>
    simp only [bufferTarget, indexedCopy]
    cases numberType s.kind s.denseSize with
    | none => cases s.kind <;> exact ⟨_, _, rfl⟩
    | some => rfl
  | _ => exact ⟨_, _, rfl⟩

theorem stores_computed (value : Value) (type : Datatype) :
    Stores (P := P) (dataTarget type) value.scalar (computedCopy P value type) := by
  cases type with
  | scalar s =>
    simp only [dataTarget, computedCopy]
    cases numberType s.kind s.size with
    | none => cases s.kind <;> exact ⟨_, _, rfl⟩
    | some => rfl
  | _ => exact ⟨_, _, rfl⟩

theorem result_store {n : Nat} :
    (store c x).result = .ok n ↔ (∃ m, x >>= (fun a => a.convert c) = .ok m) ∧ n = c.size := by
  simp only [store, result_bind_eq_ok, result_lift, bind_eq_ok, result_pure, Except.ok.injEq, put,
    result_emit]
  constructor
  · rintro ⟨a, ha, b, hb, u, -, rfl⟩
    exact ⟨⟨b, a, ha, hb⟩, rfl⟩
  · rintro ⟨⟨b, a, ha, hb⟩, rfl⟩
    exact ⟨a, ha, b, hb, (), trivial, rfl⟩

/-- The type that the switch picks has the size that the copy returns. -/
theorem Stores.result {target : Option NumberType} {copy : Copy Nat} {size : Nat}
    (h : Stores target x copy) (hsize : ∀ {c}, target = some c → c.size = size) (n : Nat) :
    copy.result = .ok n ↔
      (∃ c, target = some c ∧ ∃ m, x >>= (fun a => a.convert c) = .ok m) ∧ n = size := by
  cases target with
  | none =>
    obtain ⟨status, message, rfl⟩ := h
    simp
  | some c =>
    have hc : copy = store c x := h
    rw [hc, result_store, hsize rfl]
    simp

/-- A scalar of a known kind and size is read as the number it is. -/
theorem scalar_eq_read {v : Value} {s : Scalar} (htype : v.type = .scalar s)
    (hc : numberType s.kind s.denseSize = some c) :
    (v.scalar : Except Failure (Number P.toFloatingPoint)) = .ok (.read v.content c) := by
  unfold Value.scalar
  rw [htype]
  dsimp only
  rw [hc]

/-- An integer converts to every type. -/
theorem convert_integer (type : IntegerType) (value : Int) (c : NumberType) :
    ∃ m, (Number.integer type value : Number P.toFloatingPoint).convert c = .ok m := by
  cases c with
  | integer => exact ⟨_, rfl⟩
  | floating t => cases t <;> exact ⟨_, rfl⟩

theorem convert_double (x : P.Value .double) (t : FloatType) :
    ∃ m, (Number.floating .double x : Number P.toFloatingPoint).convert (.floating t) = .ok m := by
  cases t <;> exact ⟨_, rfl⟩

theorem result_intLiteralCopy (value : Int) (type : Datatype) (n : Nat) :
    (intLiteralCopy P value type).result = .ok n ↔
      (integerTarget type).isSome ∧ n = type.buffersize := by
  have hsize {c : NumberType} (h : integerTarget type = some c) : c.size = type.buffersize :=
    bufferTarget_size (bufferTarget_of_integerTarget h)
  rw [(stores_intLiteral value type).result hsize, Option.isSome_iff_exists]
  exact and_congr_left fun _ => exists_congr fun c => and_iff_left (convert_integer .int64 value c)

theorem result_floatLiteralCopy (value : P.Value .double) (type : Datatype) (n : Nat) :
    (floatLiteralCopy value type).result = .ok n ↔
      (floatTarget type).isSome ∧ n = type.buffersize := by
  rw [(stores_floatLiteral value type).result fun h => bufferTarget_size (floatTarget_eq_some h).1,
    Option.isSome_iff_exists]
  refine and_congr_left fun _ => exists_congr fun c => and_iff_left_of_imp fun hc => ?_
  obtain ⟨-, t, rfl⟩ := floatTarget_eq_some hc
  exact convert_double value t

theorem result_stringLiteralCopy (toString : Except Failure Text) (type : Datatype) (n : Nat) :
    (stringLiteralCopy toString type).result = .ok n ↔
      (holdsChars type ∧ ∃ text, toString = .ok text) ∧ n = type.buffersize := by
  unfold stringLiteralCopy
  split
  · rename_i h
    simp only [result_bind_eq_ok, result_lift, put, result_emit, result_pure, Except.ok.injEq, h,
      true_and]
    constructor
    · rintro ⟨text, ht, -, rfl⟩
      exact ⟨⟨text, ht⟩, rfl⟩
    · rintro ⟨⟨text, ht⟩, rfl⟩
      exact ⟨text, ht, (), rfl⟩
  · rename_i h
    simp [h]

theorem result_wholeCopy (ref : Value) (type : Datatype) (n : Nat) :
    (wholeCopy ref type).result = .ok n ↔
      ref.type.buffersize = type.buffersize ∧ n = type.buffersize := by
  unfold wholeCopy
  split
  · rename_i h
    simp only [result_bind_eq_ok, put, result_emit, result_pure, Except.ok.injEq, h, true_and]
    constructor
    · rintro ⟨-, rfl⟩
      rfl
    · rintro rfl
      exact ⟨(), rfl⟩
  · rename_i h
    simp [h]

theorem result_indexedCopy (ref : Value) (type : Datatype) (n : Nat) :
    (indexedCopy P ref type).result = .ok n ↔
      (∃ c, bufferTarget type = some c ∧ ∃ m, ref.scalarValue (P := P) c = .ok m) ∧
        n = type.buffersize :=
  (stores_indexed ref type).result bufferTarget_size n

theorem result_computedCopy (value : Value) (type : Datatype) (n : Nat) :
    (computedCopy P value type).result = .ok n ↔
      (∃ c, dataTarget type = some c ∧ ∃ m, value.scalarValue (P := P) c = .ok m) ∧
        n = type.datasize :=
  (stores_computed value type).result dataTarget_size n

/-- A copy of what a reference gives read access to. -/
theorem result_readable {toRef : Except Failure Value} {copy : Value → Copy Nat} {f : Failure}
    {accepted : Value → Prop} {m : Nat}
    (h : ∀ ref n, (copy ref).result = .ok n ↔ accepted ref ∧ n = m) (n : Nat) :
    (do let ref ← lift toRef; if ref.readable then copy ref else fail f : Copy Nat).result =
        .ok n ↔ (∃ ref, toRef = .ok ref ∧ ref.readable ∧ accepted ref) ∧ n = m := by
  have hcopy (ref : Value) : (if ref.readable then copy ref else fail f).result = .ok n ↔
      (ref.readable ∧ accepted ref) ∧ n = m := by
    cases ref.readable with
    | false => simp
    | true => simpa using h ref n
  simp only [result_bind_eq_ok, result_lift, hcopy]
  constructor
  · rintro ⟨ref, href, hread, hn⟩
    exact ⟨⟨ref, href, hread⟩, hn⟩
  · rintro ⟨⟨ref, href, hread⟩, hn⟩
    exact ⟨ref, href, hread, hn⟩

theorem result_referenceCopy (whole : Bool) (toRef : Except Failure Value) (type : Datatype)
    (n : Nat) : (referenceCopy P whole toRef type).result = .ok n ↔
      (∃ ref, toRef = .ok ref ∧ ref.readable ∧
        if whole then ref.type.buffersize = type.buffersize
        else ∃ c, bufferTarget type = some c ∧ ∃ m, ref.scalarValue (P := P) c = .ok m) ∧
      n = type.buffersize := by
  refine result_readable (fun ref n => ?_) n
  cases whole with
  | true => exact result_wholeCopy ref type n
  | false => exact result_indexedCopy ref type n

theorem result_operationCopy (toRef : Except Failure Value) (type : Datatype) (n : Nat) :
    (operationCopy P toRef type).result = .ok n ↔
      (∃ value, toRef = .ok value ∧ ∃ c, dataTarget type = some c ∧
        ∃ m, value.asRead.scalarValue (P := P) c = .ok m) ∧ n = type.datasize := by
  simp only [operationCopy, result_bind_eq_ok, result_lift, result_computedCopy]
  constructor
  · rintro ⟨value, hv, hm, hn⟩
    exact ⟨⟨value, hv, hm⟩, hn⟩
  · rintro ⟨⟨value, hv, hm⟩, hn⟩
    exact ⟨value, hv, hm, hn⟩

/-! ## Copies of expressions -/

variable (ctx : DataContext)

mutual
/-- A copy returns exactly for the types that the expression accepts, and then its
return value depends on the type alone. -/
theorem Form.result_copyValue : ∀ (e : Form P) (type : Datatype) (n : Nat),
    ((e.impl ctx).copyValue type).result = .ok n ↔ e.Accepts ctx type ∧ n = e.takes type
  | .intLiteral value, type, n => result_intLiteralCopy value type n
  | .floatLiteral value, type, n => result_floatLiteralCopy value type n
  | .stringLiteral _ _, type, n => result_stringLiteralCopy _ type n
  | .reference _ _ _, type, n => result_referenceCopy _ _ type n
  | .operation _ _, type, n => result_operationCopy _ type n
  | .sequence elements, type, n => by
    change (sequenceCopy (elements.impls ctx) type).result = .ok n ↔ _
    cases type with
    | array =>
      simp only [sequenceCopy, result_bind_eq_ok, elements.result_copyArray, Form.Accepts,
        Form.takes, Datatype.buffersize, Nat.zero_add]
      constructor
      · rintro ⟨offset, ⟨ha, rfl⟩, h⟩
        split at h
        · rename_i hsize
          exact ⟨⟨ha, hsize⟩, by rw [← hsize]; exact (Except.ok.inj h).symm⟩
        · cases h
      · rintro ⟨⟨ha, hsize⟩, rfl⟩
        refine ⟨_, ⟨ha, rfl⟩, ?_⟩
        rw [if_pos hsize, hsize]
        rfl
    | tuple =>
      simp only [sequenceCopy, result_bind_eq_ok, elements.result_copyTuple, Form.Accepts,
        Form.takes, Datatype.buffersize, result_pure, Except.ok.injEq]
      constructor
      · rintro ⟨-, ha, rfl⟩
        exact ⟨ha, rfl⟩
      · rintro ⟨ha, rfl⟩
        exact ⟨(), ha, rfl⟩
    | _ => simp [sequenceCopy, Form.Accepts]
  | .mapping entries, type, n => by
    change (mappingCopy (entries.impls ctx) type).result = .ok n ↔ _
    cases type with
    | record =>
      simp only [mappingCopy, result_bind_eq_ok, entries.result_copyRecord, Form.Accepts,
        Form.takes, Datatype.buffersize, result_pure, Except.ok.injEq]
      constructor
      · rintro ⟨-, ha, rfl⟩
        exact ⟨ha, rfl⟩
      · rintro ⟨ha, rfl⟩
        exact ⟨(), ha, rfl⟩
    | _ => simp [mappingCopy, Form.Accepts]

theorem Forms.result_copyArray : ∀ (es : Forms P) (subtype : Datatype) (offset n : Nat),
    (copyArray subtype (es.impls ctx) offset).result = .ok n ↔
      es.AcceptArray ctx subtype ∧ n = offset + es.takes subtype
  | .nil, subtype, offset, n => by
    simp only [Forms.impls, copyArray, result_pure, Except.ok.injEq, Forms.AcceptArray,
      Forms.takes, true_and, Nat.add_zero]
    exact eq_comm
  | .cons e rest, subtype, offset, n => by
    simp only [Forms.impls, copyArray, result_bind_eq_ok, result_relabel, e.result_copyValue,
      rest.result_copyArray, Forms.AcceptArray, Forms.takes]
    constructor
    · rintro ⟨copied, ⟨he, rfl⟩, hrest, rfl⟩
      exact ⟨⟨he, hrest⟩, Nat.add_assoc _ _ _⟩
    · rintro ⟨⟨he, hrest⟩, rfl⟩
      exact ⟨_, ⟨he, rfl⟩, hrest, (Nat.add_assoc _ _ _).symm⟩

theorem Forms.result_copyTuple : ∀ (es : Forms P) (types : Members) (u : Unit),
    (copyTuple (es.impls ctx) types).result = .ok u ↔ es.AcceptTuple ctx types
  | .nil, types, u | .cons e rest, .nil, u => by simp [Forms.impls, copyTuple, Forms.AcceptTuple]
  | .cons e rest, .cons d type name types, u => by
    simp only [Forms.impls, copyTuple, result_bind_eq_ok, result_relabel, e.result_copyValue,
      rest.result_copyTuple, Forms.AcceptTuple]
    constructor
    · rintro ⟨copied, ⟨he, -⟩, hrest⟩
      exact ⟨he, hrest⟩
    · rintro ⟨he, hrest⟩
      exact ⟨_, ⟨he, rfl⟩, hrest⟩

theorem Entries.result_copyRecord : ∀ (es : Entries P) (members : Members) (u : Unit),
    (copyRecord members (es.impls ctx)).result = .ok u ↔ es.AcceptRecord ctx members
  | .nil, members, u => by simp [Entries.impls, copyRecord, Entries.AcceptRecord]
  | .cons name e rest, members, u => by
    simp only [Entries.impls, copyRecord, Entries.AcceptRecord]
    cases members.find? name with
    | none => simp
    | some =>
      simp only [result_bind_eq_ok, result_relabel, e.result_copyValue, rest.result_copyRecord,
        Option.some.injEq, exists_eq_left']
      constructor
      · rintro ⟨copied, ⟨he, -⟩, hrest⟩
        exact ⟨he, hrest⟩
      · rintro ⟨he, hrest⟩
        exact ⟨_, ⟨he, rfl⟩, hrest⟩
end

end Pdi.Expression
