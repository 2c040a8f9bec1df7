import Pdi.Expression

/-!
# The value of an expression

`to_ref` and `to_long` of each kind of expression. An operation evaluates its
operands from the left and picks the C++ types of both sides by the kind and size
of the scalars it finds, so its result has the type that C++ gives to that sum or
comparison. Floating-point arithmetic and the data that references lead to are
given from outside.
-/
namespace Pdi.Expression

open Pdi.Cursor Pdi.Datatypes

/-! ## Numbers of the C++ types -/

inductive IntegerType where
  | int8 | int16 | int32 | int64 | uint8 | uint16 | uint32 | uint64
  deriving DecidableEq, Repr

inductive FloatType where
  | float | double
  deriving DecidableEq, Repr

/-- `sizeof`, in bytes. -/
def IntegerType.size : IntegerType → Nat
  | .int8 | .uint8 => 1
  | .int16 | .uint16 => 2
  | .int32 | .uint32 => 4
  | .int64 | .uint64 => 8

def IntegerType.signed : IntegerType → Bool
  | .int8 | .int16 | .int32 | .int64 => true
  | .uint8 | .uint16 | .uint32 | .uint64 => false

/-- The number of values of a type. -/
def IntegerType.values (type : IntegerType) : Int := 2 ^ (8 * type.size)

def IntegerType.min (type : IntegerType) : Int := if type.signed then -(type.values / 2) else 0
def IntegerType.max (type : IntegerType) : Int :=
  if type.signed then type.values / 2 - 1 else type.values - 1

/-- The type can represent the number. -/
def IntegerType.Holds (type : IntegerType) (n : Int) : Prop := type.min ≤ n ∧ n ≤ type.max

instance (type : IntegerType) (n : Int) : Decidable (type.Holds n) :=
  inferInstanceAs (Decidable (_ ∧ _))

/-- Conversion to an integer type, which keeps the number modulo the type's values. -/
def IntegerType.wrap (type : IntegerType) (n : Int) : Int :=
  type.min + (n - type.min) % type.values

/-- Integral promotion. -/
def IntegerType.promote (type : IntegerType) : IntegerType :=
  if type.size < 4 then .int32 else type

/-- The usual arithmetic conversions of two integer types. -/
def IntegerType.common (a b : IntegerType) : IntegerType :=
  let a := a.promote
  let b := b.promote
  if a.signed = b.signed then if a.size < b.size then b else a
  else if a.signed then if b.size < a.size then a else b
  else if a.size < b.size then b else a

/-- Floating-point arithmetic of the platform. -/
structure FloatingPoint where
  Value : FloatType → Type
  ofText : Text → Value .double
  ofInt : (type : FloatType) → Int → Value type
  widen : Value .float → Value .double
  add : (type : FloatType) → Value type → Value type → Value type
  sub : (type : FloatType) → Value type → Value type → Value type
  mul : (type : FloatType) → Value type → Value type → Value type
  div : (type : FloatType) → Value type → Value type → Value type
  eq : (type : FloatType) → Value type → Value type → Bool
  lt : (type : FloatType) → Value type → Value type → Bool
  zero : (type : FloatType) → Value type → Bool
  /-- The integral part, where it is in the range of `long`. -/
  toLong : (type : FloatType) → Value type → Option Int

inductive Number (F : FloatingPoint) where
  | integer (type : IntegerType) (value : Int)
  | floating (type : FloatType) (value : F.Value type)

variable {F : FloatingPoint}

/-- `bool`, whose datatype is that of an unsigned integer of one byte. -/
def Number.bool (b : Bool) : Number F := .integer .uint8 (if b then 1 else 0)

/-- Conversion to `bool`. -/
def Number.isTrue : Number F → Bool
  | .integer _ n => n != 0
  | .floating type x => !F.zero type x

/-! ## One operation -/

def overflow : Failure := .undefined "signed integer overflow"
def zeroDivisor : Failure := .undefined "integer division by zero"

/-- A result of integer arithmetic in its type. -/
def Number.result (type : IntegerType) (n : Int) : Except Failure (Number F) :=
  if type.signed then if type.Holds n then .ok (.integer type n) else .error overflow
  else .ok (.integer type (type.wrap n))

/-- An operation on two integers of one type. -/
def evalInteger (type : IntegerType) (a : Int) (op : Operator) (b : Int) :
    Except Failure (Number F) :=
  match op with
  | .plus => Number.result type (a + b)
  | .minus => Number.result type (a - b)
  | .mult => Number.result type (a * b)
  | .div => if b = 0 then .error zeroDivisor else Number.result type (a.tdiv b)
  | .mod =>
    if b = 0 then .error zeroDivisor
    -- the remainder is undefined where the quotient is
    else if type.signed ∧ ¬ type.Holds (a.tdiv b) then .error overflow
    else Number.result type (a.tmod b)
  | .equal => .ok (.bool (a == b))
  | .gt => .ok (.bool (decide (b < a)))
  | .lt => .ok (.bool (decide (a < b)))
  | .and => .ok (.bool (a != 0 && b != 0))
  | .or => .ok (.bool (a != 0 || b != 0))

/-- An operation on two floating-point numbers of one type. -/
def evalFloating (type : FloatType) (a : F.Value type) (op : Operator) (b : F.Value type) :
    Except Failure (Number F) :=
  match op with
  | .plus => .ok (.floating type (F.add type a b))
  | .minus => .ok (.floating type (F.sub type a b))
  | .mult => .ok (.floating type (F.mul type a b))
  | .div => .ok (.floating type (F.div type a b))
  | .mod => .error (typeError "Invalid operands to modulo operation")
  | .equal => .ok (.bool (F.eq type a b))
  | .gt => .ok (.bool (F.lt type b a))
  | .lt => .ok (.bool (F.lt type a b))
  | .and => .ok (.bool (!F.zero type a && !F.zero type b))
  | .or => .ok (.bool (!F.zero type a || !F.zero type b))

/-- `Operation::eval` after the dispatch on both types. The logical operators
convert each side on its own, the others convert both to a common type. -/
def eval (a : Number F) (op : Operator) (b : Number F) : Except Failure (Number F) :=
  match op, a, b with
  | .and, a, b => .ok (.bool (a.isTrue && b.isTrue))
  | .or, a, b => .ok (.bool (a.isTrue || b.isTrue))
  | op, .integer s x, .integer t y =>
    let type := s.common t
    evalInteger type (type.wrap x) op (type.wrap y)
  | op, .integer _ x, .floating t y => evalFloating t (F.ofInt t x) op y
  | op, .floating s x, .integer _ y => evalFloating s x op (F.ofInt s y)
  | op, .floating .float x, .floating .double y => evalFloating .double (F.widen x) op y
  | op, .floating .double x, .floating .float y => evalFloating .double x op (F.widen y)
  | op, .floating .float x, .floating .float y => evalFloating .float x op y
  | op, .floating .double x, .floating .double y => evalFloating .double x op y

/-! ## Data -/

/-- What a reference with read access holds: a number of a C++ type, a scalar of
another size or kind, or data that is no scalar, with its debug string. -/
inductive Datum (F : FloatingPoint) where
  | number (n : Number F)
  | scalar (kind : ScalarKind) (size : Nat)
  | other (description : String)

/-- Where the names of an expression lead. -/
structure Context (F : FloatingPoint) where
  Reference : Type
  desc : Text → Except Failure Reference
  index : Reference → Int → Except Failure Reference
  member : Reference → Text → Except Failure Reference
  datum : Reference → Datum F

/-- The test that `Operation::to_ref` makes before it evaluates the next operand. -/
def Datum.checkScalar : Datum F → Except Failure Unit
  | .other _ => .error (typeError "Cannot apply operation on non-scalar value")
  | _ => .ok ()

/-- The dispatch of `Operation::to_ref` and `evalp` on kind and size. -/
def Datum.asNumber : Datum F → Except Failure (Number F)
  | .number n => .ok n
  | .scalar .float size =>
    .error (typeError ("Unable to compute on floating point data of size " ++ toString size))
  | .scalar .signed size =>
    .error (typeError ("Unable to compute on integer data of size " ++ toString size))
  | .scalar .unsigned size =>
    .error (typeError ("Unable to compute on unsigned data of size " ++ toString size))
  | .scalar .unknown _ => .error (typeError "Unable to compute on data of unknown type")
  | .other _ => .error (typeError "Cannot apply operation on non-scalar value")

def Number.toLong : Number F → Except Failure Int
  | .integer _ n => .ok (IntegerType.int64.wrap n)
  | .floating type x =>
    match F.toLong type x with
    | some n => .ok n
    | none => .error (.undefined "conversion of a floating-point number out of range")

/-- `scalar_value<long>` -/
def Datum.toLong : Datum F → Except Failure Int
  | .number n => n.toLong
  | .scalar .unsigned _ => .error (typeError "Unknown size of unsigned integer datatype")
  | .scalar .signed _ => .error (typeError "Unknown size of integer datatype")
  | .scalar .float _ => .error (typeError "Unknown size of float datatype")
  | .scalar .unknown _ => .error (typeError "Unknown datatype to get value")
  | .other description =>
    .error (typeError ("Expected scalar, found invalid type instead: " ++ description))

/-- One round of the loop in `Operation::to_ref`, for what the operand evaluates to. -/
def combine (computed : Datum F) (op : Operator) (operand : Except Failure (Datum F)) :
    Except Failure (Datum F) := do
  computed.checkScalar
  let operandRef ← operand
  let computedValue ← computed.asNumber
  let operandValue ← operandRef.asNumber
  let value ← eval computedValue op operandValue
  pure (.number value)

/-! ## Expressions -/

/-- `rethrow_with_context` for an error of the library or another exception. -/
def whileReferencing (name : Text) : Failure → Failure
  | .error status message =>
    .error status ("while referencing `" ++ String.ofList name ++ "', " ++ message)
  | e => e

/-- `to_long`, from what `to_ref` gives. A literal answers its own value. -/
def Expr.longOf (e : Expr) (ref : Except Failure (Datum F)) : Except Failure Int :=
  match e with
  | .intLiteral value => .ok value
  | .floatLiteral text => (Number.floating .double (F.ofText text)).toLong
  | .reference referenced _ _ =>
    (ref.bind Datum.toLong).mapError (whileReferencing referenced)
  | .operation _ _ => ref.bind Datum.toLong

mutual
def Expr.toRef (ctx : Context F) : Expr → Except Failure (Datum F)
  | .intLiteral value => .ok (.number (.integer .int64 value))
  | .floatLiteral text => .ok (.number (.floating .double (F.ofText text)))
  | .reference referenced _ subelements => do
    let ref ← ctx.desc referenced
    let ref ← subelements.access ctx ref
    pure (ctx.datum ref)
  | .operation first operands => do
    let computed ← first.toRef ctx
    operands.toRef ctx computed

/-- The loop of `Operation::to_ref`. -/
def Operands.toRef (ctx : Context F) : Operands → Datum F → Except Failure (Datum F)
  | .nil, computed => .ok computed
  | .cons op operand rest, computed => do
    let computed ← combine computed op (operand.toRef ctx)
    rest.toRef ctx computed

/-- The loop of `Reference_expression::to_ref`. -/
def Accessors.access (ctx : Context F) : Accessors → ctx.Reference → Except Failure ctx.Reference
  | .nil, ref => .ok ref
  | .index expression rest, ref => do
    let i ← expression.longOf (expression.toRef ctx)
    let ref ← ctx.index ref i
    rest.access ctx ref
  | .member name rest, ref => do
    let ref ← ctx.member ref name
    rest.access ctx ref
end

def Expr.toLong (ctx : Context F) (e : Expr) : Except Failure Int := e.longOf (e.toRef ctx)

/-! ## Equations -/

def Operands.append : Operands → Operands → Operands
  | .nil, more => more
  | .cons op operand rest, more => .cons op operand (rest.append more)

variable {ctx : Context F}

theorem toRef_append (operands more : Operands) (computed : Datum F) :
    (operands.append more).toRef ctx computed =
      (operands.toRef ctx computed).bind (more.toRef ctx) := by
  match operands with
  | .nil => rfl
  | .cons op operand rest =>
    rw [Operands.append, Operands.toRef, Operands.toRef]
    cases combine computed op (operand.toRef ctx) with
    | error => rfl
    | ok value => exact toRef_append rest more value

theorem toRef_build (first : Expr) (operands : Operands) :
    (first.build operands).toRef ctx = (first.toRef ctx).bind (operands.toRef ctx) := by
  cases operands with
  | nil =>
    rw [Expr.build]
    cases first.toRef ctx <;> rfl
  | cons =>
    rw [Expr.build, Expr.toRef]
    rfl

end Pdi.Expression
