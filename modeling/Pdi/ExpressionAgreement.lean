import Pdi.Composites
import Pdi.Interpolation

/-!
# Values in memory and their numbers

`Expr.toRef` computes with numbers, the methods of the same expression with values in
memory. Where data can be read and scalars fill their buffers, both evaluate an
expression to the same number or end it with the same error.
-/
namespace Pdi.Expression

open Pdi.Cursor Pdi.Datatypes Pdi.Memory Pdi.Trace

variable {P : Platform}

/-! ## The numbers in memory -/

/-- What an operation takes a value for. -/
def Value.datum (P : Platform) (v : Value) : Datum P.toFloatingPoint :=
  match v.type with
  | .scalar s =>
    match numberType s.kind s.size with
    | some c => .number (.read v.content c)
    | none => .scalar s.kind s.size
  | type => .other (debugString type)

/-- The data of a context, as numbers. -/
def DataContext.numbers (P : Platform) (ctx : DataContext) : Context P.toFloatingPoint where
  Reference := Option DataRef
  desc := ctx.desc
  index := ctx.index
  member := ctx.member
  datum ref := (ctx.value ref).datum P

/-- The value can be read, and a scalar fills its buffer. -/
structure Value.Legible (v : Value) : Prop where
  readable : v.readable = true
  filled : ∀ s, v.type = .scalar s → s.size = s.denseSize

/-- All data that the names of a context lead to is legible, and a floating-point number
is read back from its bytes. -/
structure DataContext.Legible (P : Platform) (ctx : DataContext)
    (known : Option DataRef → Prop) : Prop where
  bytes : ∀ type x, P.ofBytes type (P.toBytes type x) = x
  desc : ∀ name ref, ctx.desc name = .ok ref → known ref
  index : ∀ ref i ref', known ref → ctx.index ref i = .ok ref' → known ref'
  member : ∀ ref name ref', known ref → ctx.member ref name = .ok ref' → known ref'
  value : ∀ ref, known ref → (ctx.value ref).Legible

theorem convert_read_self (content : List Byte) (c : NumberType) :
    (Number.read content c : Number P.toFloatingPoint).convert c = .ok (.read content c) := by
  cases c with
  | integer t =>
    exact congrArg (fun n => Except.ok (Number.integer t n)) (wrap_of_holds (holds_wrap t _))
  | floating f => cases f <;> rfl

theorem checkScalar_datum (v : Value) : v.checkScalar = (v.datum P).checkScalar := by
  unfold Value.checkScalar Value.datum
  cases v.type with
  | scalar s =>
    dsimp only
    cases numberType s.kind s.size <;> rfl
  | _ => rfl

/-- `scalar_value<long>` of a number. -/
theorem convert_long (n : Number P.toFloatingPoint) :
    n.convert (.integer .int64) = n.toLong.map (Number.integer .int64) := by
  cases n with
  | integer => rfl
  | floating type x =>
    unfold Number.convert Number.toLong
    dsimp only
    rw [P.toLong_eq]
    cases P.integral type x with
    | none => rfl
    | some value =>
      by_cases hvalue : IntegerType.int64.Holds value
      · rw [Option.filter_some, if_pos (decide_eq_true hvalue)]
        exact if_pos hvalue
      · rw [Option.filter_some, if_neg (by simpa using hvalue)]
        exact if_neg hvalue

theorem long_of_scalar {v : Value} {n : Number P.toFloatingPoint} (h : v.scalar = .ok n) :
    v.long P = n.toLong := by
  unfold Value.long
  rw [scalarValue_eq h, convert_long]
  cases n.toLong <;> rfl

section Legible

variable {v : Value} (h : v.Legible)

include h

theorem Value.Legible.asRead : v.asRead = v := asRead_of_readable h.readable

theorem Value.Legible.operand : v.operand = (v.datum P).asNumber := by
  unfold Value.operand Value.datum
  cases htype : v.type with
  | scalar s =>
    dsimp only
    cases hc : numberType s.kind s.size with
    | some c =>
      have hscalar := scalar_eq_read (P := P) htype (h.filled s htype ▸ hc)
      exact (scalarValue_eq hscalar c).trans (convert_read_self _ c)
    | none => cases s.kind <;> rfl
  | _ => rfl

theorem Value.Legible.long : v.long P = (v.datum P).toLong := by
  unfold Value.datum
  cases htype : v.type with
  | scalar s =>
    have hfilled := h.filled s htype
    dsimp only
    cases hc : numberType s.kind s.size with
    | some c => exact long_of_scalar (scalar_eq_read htype (hfilled ▸ hc))
    | none =>
      unfold Value.long Value.scalarValue Value.scalar
      rw [htype]
      dsimp only
      rw [← hfilled, hc]
      cases s.kind <;> rfl
  | _ =>
    unfold Value.long Value.scalarValue Value.scalar
    rw [htype]
    rfl

end Legible

/-! ## The same evaluation -/

section Numbered

variable {α : Type} {value : Except Failure Value}
  {datum : Except Failure (Datum P.toFloatingPoint)}

/-- A legible value with this number, or the same error. -/
def Numbered (value : Except Failure Value) (datum : Except Failure (Datum P.toFloatingPoint)) :
    Prop :=
  value.map (Value.datum P) = datum ∧ ∀ v, value = .ok v → v.Legible

theorem Numbered.bind_eq (h : Numbered value datum) {f : Value → Except Failure α}
    {g : Datum P.toFloatingPoint → Except Failure α}
    (hf : ∀ v, v.Legible → f v = g (v.datum P)) : (value >>= f) = (datum >>= g) := by
  obtain ⟨rfl, hlegible⟩ := h
  cases value with
  | error => rfl
  | ok v => exact hf v (hlegible v rfl)

theorem numbered_bind {x : Except Failure α} {f : α → Except Failure Value}
    {g : α → Except Failure (Datum P.toFloatingPoint)}
    (h : ∀ a, x = .ok a → Numbered (f a) (g a)) : Numbered (x >>= f) (x >>= g) := by
  cases x with
  | error =>
    refine ⟨rfl, ?_⟩
    rintro v ⟨⟩
  | ok a => exact h a rfl

theorem Numbered.bind (h : Numbered value datum) {f : Value → Except Failure Value}
    {g : Datum P.toFloatingPoint → Except Failure (Datum P.toFloatingPoint)}
    (hf : ∀ v, v.Legible → Numbered (f v) (g (v.datum P))) :
    Numbered (value >>= f) (datum >>= g) := by
  obtain ⟨rfl, hlegible⟩ := h
  cases value with
  | error =>
    refine ⟨rfl, ?_⟩
    rintro v ⟨⟩
  | ok v => exact hf v (hlegible v rfl)

theorem bind_known {β : Type} {x : Except Failure α} {f g : α → Except Failure β} {p : β → Prop}
    (h : ∀ a, x = .ok a → f a = g a ∧ ∀ b, g a = .ok b → p b) :
    (x >>= f) = (x >>= g) ∧ ∀ b, (x >>= g) = .ok b → p b := by
  cases x with
  | error =>
    refine ⟨rfl, ?_⟩
    rintro b ⟨⟩
  | ok a => exact h a rfl

end Numbered

/-! ## Results of operations and literals -/

/-- The number is one of its type. -/
def Number.Within : Number P.toFloatingPoint → Prop
  | .integer type n => type.Holds n
  | .floating _ _ => True

theorem within_bool (b : Bool) : (Number.bool b : Number P.toFloatingPoint).Within := by
  cases b <;> exact ⟨by decide, by decide⟩

theorem within_result {type : IntegerType} {x : Int} {n : Number P.toFloatingPoint}
    (h : Number.result type x = .ok n) : n.Within := by
  unfold Number.result at h
  split at h
  · split at h
    · cases h
      assumption
    · cases h
  · cases h
    exact holds_wrap _ _

theorem within_evalInteger {type : IntegerType} {x y : Int} {op : Operator}
    {n : Number P.toFloatingPoint} (h : evalInteger type x op y = .ok n) : n.Within := by
  cases op with
  | plus | minus | mult => exact within_result h
  | div =>
    rw [evalInteger] at h
    split at h
    · cases h
    · exact within_result h
  | mod =>
    rw [evalInteger] at h
    split at h
    · cases h
    · split at h
      · cases h
      · exact within_result h
  | _ =>
    cases h
    exact within_bool _

theorem within_evalFloating {type : FloatType} {x y : P.Value type} {op : Operator}
    {n : Number P.toFloatingPoint} (h : evalFloating type x op y = .ok n) : n.Within := by
  cases op with
  | plus | minus | mult | div =>
    cases h
    trivial
  | mod => cases h
  | _ =>
    cases h
    exact within_bool _

theorem within_eval {a b n : Number P.toFloatingPoint} {op : Operator}
    (h : eval a op b = .ok n) : n.Within := by
  unfold eval at h
  split at h
  case h_1 | h_2 =>
    cases h
    exact within_bool _
  case h_3 => exact within_evalInteger h
  all_goals exact within_evalFloating h

theorem legible_store {v : Value} {n : Number P.toFloatingPoint} (htype : v.type = n.type.datatype)
    (hreadable : v.readable = true) : v.Legible where
  readable := hreadable
  filled s hs := by
    rw [htype] at hs
    cases hs
    rfl

section Bytes

variable {ctx : DataContext}
  (hbytes : ∀ type x, P.ofBytes type (P.toBytes type x) = x)

include hbytes

theorem read_bytes {n : Number P.toFloatingPoint} (hn : n.Within) : .read n.bytes n.type = n := by
  cases n with
  | integer type n => exact congrArg (Number.integer type) (wrap_littleEndian hn)
  | floating type x => exact congrArg (Number.floating type) (hbytes type x)

/-- A number that is stored as what it is. -/
theorem datum_store {v : Value} {n : Number P.toFloatingPoint} (hn : n.Within)
    (htype : v.type = n.type.datatype) (hcontent : v.content = n.bytes) :
    v.datum P = .number n := by
  unfold Value.datum
  rw [htype, hcontent]
  change (match numberType n.type.kind n.type.size with
    | some c => Datum.number (.read n.bytes c)
    | none => _) = _
  rw [numberType_datatype]
  exact congrArg Datum.number (read_bytes hbytes hn)

theorem numbered_number {v : Value} {n : Number P.toFloatingPoint} (hn : n.Within)
    (htype : v.type = n.type.datatype) (hcontent : v.content = n.bytes)
    (hreadable : v.readable = true) : Numbered (.ok v) (.ok (.number n)) := by
  refine ⟨congrArg Except.ok (datum_store hbytes hn htype hcontent), ?_⟩
  rintro _ ⟨⟩
  exact legible_store htype hreadable

/-- A literal in a block of its own. -/
theorem numbered_allocate {copyValue : Datatype → Copy Nat} {n : Number P.toFloatingPoint}
    (hn : n.Within) (hcopy : copyValue n.type.datatype = ⟨[⟨0, n.bytes⟩], .ok n.type.size⟩) :
    Numbered (allocate ctx copyValue n.type.datatype) (.ok (.number n)) := by
  have hsize : n.type.datatype.buffersize = n.bytes.length := (length_bytes_number n).symm
  have halign : n.type.datatype.alignment ≠ 0 := by
    cases n.type with
    | integer t | floating t => cases t <;> decide
  have hinside : ∀ w ∈ (copyValue n.type.datatype).trace,
      w.Inside n.type.datatype.buffersize := by
    rw [hcopy]
    intro w hw
    rw [List.mem_singleton.mp hw]
    exact .inr (by rw [Nat.zero_add, hsize])
  have hv : allocate ctx copyValue n.type.datatype = .ok _ :=
    allocate_eq_ok.mpr ⟨halign, hinside, ⟨n.type.size, by rw [hcopy]⟩, rfl⟩
  rw [hv]
  refine numbered_number hbytes hn rfl ?_ rfl
  dsimp only
  rw [hcopy, hsize]
  exact bytes_into_all _ _

theorem numbered_applyOperator {v w : Value} (hv : v.Legible) (hw : w.Legible) (op : Operator) :
    Numbered (applyOperator P v op w) (do
      let a ← (v.datum P).asNumber
      let b ← (w.datum P).asNumber
      let value ← eval a op b
      pure (.number value)) := by
  unfold applyOperator
  rw [hv.operand, hw.operand]
  refine numbered_bind fun a _ => numbered_bind fun b _ => numbered_bind fun n hn => ?_
  exact numbered_number hbytes (within_eval hn) rfl rfl rfl

end Bytes

/-! ## Expressions -/

mutual
/-- The integers of the expression are those of a `long`. -/
def Expr.Longs : Expr → Prop
  | .intLiteral value => IntegerType.int64.Holds value
  | .floatLiteral _ => True
  | .reference _ _ subelements => subelements.Longs
  | .operation first operands => first.Longs ∧ operands.Longs

def Operands.Longs : Operands → Prop
  | .nil => True
  | .cons _ operand rest => operand.Longs ∧ rest.Longs

def Accessors.Longs : Accessors → Prop
  | .nil => True
  | .index expression rest => expression.Longs ∧ rest.Longs
  | .member _ rest => rest.Longs
end

section Agreement

variable {ctx : DataContext} {known : Option DataRef → Prop}

theorem toLong_form {e : Expr}
    (h : Numbered ((e.form : Form P).impl ctx).toRef (e.toRef (ctx.numbers P))) :
    ((e.form : Form P).impl ctx).toLong = e.toLong (ctx.numbers P) := by
  cases e with
  | intLiteral | floatLiteral => rfl
  | reference =>
    refine congrArg (Except.mapError _) (h.bind_eq fun v hv => ?_)
    rw [if_pos hv.readable, hv.long]
  | operation =>
    refine h.bind_eq fun v hv => ?_
    rw [hv.asRead, if_pos hv.readable, hv.long]

variable (hctx : ctx.Legible P known)

include hctx

mutual
theorem Expr.numbered : ∀ e : Expr, e.Longs →
    Numbered ((e.form : Form P).impl ctx).toRef (e.toRef (ctx.numbers P))
  | .intLiteral value, h => by
    have hcopy : intLiteralCopy P value (NumberType.integer .int64).datatype =
      store (P := P) (.integer .int64) (.ok (.integer .int64 value)) := rfl
    have hconvert : (Number.integer .int64 value : Number P.toFloatingPoint).convert
        (.integer .int64) = .ok (.integer .int64 value) :=
      congrArg (fun n => Except.ok (Number.integer .int64 n)) (wrap_of_holds h)
    have hwithin : (Number.integer .int64 value : Number P.toFloatingPoint).Within := h
    exact numbered_allocate hctx.bytes hwithin (hcopy.trans (store_ok hconvert))
  | .floatLiteral text, _ => by
    have hcopy : floatLiteralCopy (P.ofText text) (NumberType.floating .double).datatype =
      store (P := P) (.floating .double) (.ok (.floating .double (P.ofText text))) := rfl
    have hwithin : (Number.floating .double (P.ofText text)).Within := trivial
    exact numbered_allocate hctx.bytes hwithin (hcopy.trans (store_ok rfl))
  | .reference referenced format subelements, h => by
    change Numbered (referenceRef ctx referenced (subelements.forms.impls ctx)) _
    unfold referenceRef
    rw [Expr.toRef]
    refine numbered_bind fun ref href => ?_
    obtain ⟨hequal, hknown⟩ := Accessors.numbered subelements h ref (hctx.desc _ _ href)
    rw [hequal]
    refine numbered_bind fun ref' href' => ⟨rfl, ?_⟩
    rintro _ ⟨⟩
    exact hctx.value ref' (hknown ref' href')
  | .operation first operands, h => by
    change Numbered (operationRef (first.form.impl ctx) (operands.forms.impls ctx)) _
    rw [Expr.toRef]
    refine (Expr.numbered first h.1).bind fun v hv => ?_
    rw [hv.asRead]
    exact Operands.numbered operands h.2 v hv

theorem Operands.numbered : ∀ operands : Operands, operands.Longs → ∀ v : Value, v.Legible →
    Numbered (applyAll ((operands.forms : FormOperands P).impls ctx) v)
      (operands.toRef (ctx.numbers P) (v.datum P))
  | .nil, _, v, hv => ⟨rfl, by rintro _ ⟨⟩; exact hv⟩
  | .cons op operand rest, h, v, hv => by
    rw [Operands.toRef, Operands.forms, FormOperands.impls, applyAll, checkScalar_datum (P := P)]
    simp only [combine, bind_assoc]
    refine numbered_bind fun _ _ => (Expr.numbered operand h.1).bind fun w hw => ?_
    rw [hw.asRead]
    have hnext := (numbered_applyOperator hctx.bytes hv hw op).bind fun u hu =>
      Operands.numbered rest h.2 u hu
    simpa only [bind_assoc] using hnext

theorem Accessors.numbered : ∀ accessors : Accessors, accessors.Longs →
    ∀ ref : (ctx.numbers P).Reference, known ref →
    accessAll ctx ((accessors.forms : Subelements P).impls ctx) ref =
        accessors.access (ctx.numbers P) ref ∧
      ∀ ref', accessors.access (ctx.numbers P) ref = .ok ref' → known ref'
  | .nil, _, ref, href => ⟨rfl, by rintro _ ⟨⟩; exact href⟩
  | .index expression rest, h, ref, href => by
    rw [Accessors.access]
    change (((expression.form : Form P).impl ctx).toLong >>= fun i => ctx.index ref i >>=
      accessAll ctx ((rest.forms : Subelements P).impls ctx)) = _ ∧ _
    rw [toLong_form (Expr.numbered expression h.1)]
    refine bind_known fun i _ => bind_known fun ref' href' => ?_
    exact Accessors.numbered rest h.2 ref' (hctx.index ref i ref' href href')
  | .member name rest, h, ref, href => by
    rw [Accessors.access]
    change (ctx.member ref name >>=
      accessAll ctx ((rest.forms : Subelements P).impls ctx)) = _ ∧ _
    refine bind_known fun ref' href' => ?_
    exact Accessors.numbered rest h ref' (hctx.member ref name ref' href href')
end

/-- The value of an expression in memory is the number it is evaluated to. -/
theorem toRef_form (e : Expr) (h : e.Longs) :
    ((e.form : Form P).impl ctx).toRef.map (Value.datum P) = e.toRef (ctx.numbers P) :=
  (Expr.numbered hctx e h).1

end Agreement

end Pdi.Expression
