import Pdi.ExpressionValue
import Pdi.Traced
import Pdi.TypeEquality

/-!
# Expressions of every form

All classes of expressions with all that they can be evaluated to: a `long`, a
`double`, a string, a reference, and bytes of a given type in a given buffer. Each
class is a function of the methods of its parts, like the virtual functions of the
source.

Evaluation into a buffer leaves the writes behind as a trace, whether it returns or
throws. A block that an evaluation allocates for itself is known with its size, so
a write outside of it ends the evaluation as undefined.
-/
namespace Pdi.Datatypes

/-- `UNDEF_TYPE`, the type of an empty reference. -/
def undefType : Datatype := .scalar ⟨.unknown, 0, 0, 0, none, none, [], .inl ⟨rfl, rfl, rfl, rfl⟩⟩

end Pdi.Datatypes

namespace Pdi.Expression

open Pdi.Cursor Pdi.Datatypes Pdi.Memory Pdi.Trace

/-! ## Numbers in memory -/

/-- The C++ types that scalars are read and written as. -/
inductive NumberType where
  | integer (type : IntegerType)
  | floating (type : FloatType)
  deriving DecidableEq, Repr

def FloatType.size : FloatType → Nat
  | .float => 4
  | .double => 8

def NumberType.size : NumberType → Nat
  | .integer type => type.size
  | .floating type => type.size

def NumberType.kind : NumberType → ScalarKind
  | .integer type => if type.signed then .signed else .unsigned
  | .floating _ => .float

/-- What a switch on the kind and a size picks, for the sizes it lists. -/
def numberType : ScalarKind → Nat → Option NumberType
  | .unsigned, 1 => some (.integer .uint8)
  | .unsigned, 2 => some (.integer .uint16)
  | .unsigned, 4 => some (.integer .uint32)
  | .unsigned, 8 => some (.integer .uint64)
  | .signed, 1 => some (.integer .int8)
  | .signed, 2 => some (.integer .int16)
  | .signed, 4 => some (.integer .int32)
  | .signed, 8 => some (.integer .int64)
  | .float, 4 => some (.floating .float)
  | .float, 8 => some (.floating .double)
  | _, _ => none

/-- What evaluation needs of the platform besides floating-point arithmetic: the
representation of floating-point numbers and their texts, and `fmt::format` with
the format of a reference, which may throw an exception of its own. -/
structure Platform extends FloatingPoint where
  narrow : Value .double → Value .float
  /-- The integral part of a finite number. -/
  integral : (type : FloatType) → Value type → Option Int
  toLong_eq : ∀ type x, toLong type x = (integral type x).filter (IntegerType.int64.Holds ·)
  ofBytes : (type : FloatType) → List Byte → Value type
  toBytes : (type : FloatType) → Value type → List Byte
  length_toBytes : ∀ type x, (toBytes type x).length = type.size
  /-- A stream with `setprecision(17)`. -/
  text : Value .double → Text
  formatText : Text → Text → Except String Text
  formatLong : Text → Int → Except String Text
  formatDouble : Text → Value .double → Except String Text

variable {P : Platform}

def Number.type : Number P.toFloatingPoint → NumberType
  | .integer type _ => .integer type
  | .floating type _ => .floating type

def outOfRange : Failure := .undefined "conversion of a floating-point number out of range"

/-- Conversion of a number to a C++ type. -/
def Number.convert (n : Number P.toFloatingPoint) :
    NumberType → Except Failure (Number P.toFloatingPoint)
  | .integer type =>
    match n with
    | .integer _ value => .ok (.integer type (type.wrap value))
    | .floating source x =>
      match P.integral source x with
      | some value => if type.Holds value then .ok (.integer type value) else .error outOfRange
      | none => .error outOfRange
  | .floating .float =>
    match n with
    | .integer _ value => .ok (.floating .float (P.ofInt .float value))
    | .floating .float x => .ok (.floating .float x)
    | .floating .double x => .ok (.floating .float (P.narrow x))
  | .floating .double =>
    match n with
    | .integer _ value => .ok (.floating .double (P.ofInt .double value))
    | .floating .float x => .ok (.floating .double (P.widen x))
    | .floating .double x => .ok (.floating .double x)

/-- The bytes of an integer, lowest first. -/
def littleEndian : Nat → Int → List Byte
  | 0, _ => []
  | k + 1, n => UInt8.ofNat (n % 256).toNat :: littleEndian k (n / 256)

def fromLittleEndian (content : List Byte) : Int :=
  content.foldr (fun b n => b.toNat + 256 * n) 0

def Number.bytes : Number P.toFloatingPoint → List Byte
  | .integer type value => littleEndian type.size value
  | .floating type x => P.toBytes type x

def Number.read (content : List Byte) : NumberType → Number P.toFloatingPoint
  | .integer type => .integer type (type.wrap (fromLittleEndian content))
  | .floating type => .floating type (P.ofBytes type content)

@[simp] theorem length_littleEndian (k : Nat) (n : Int) : (littleEndian k n).length = k := by
  induction k generalizing n with
  | zero => rfl
  | succ k ih => simp [littleEndian, ih]

theorem length_bytes_number (n : Number P.toFloatingPoint) : n.bytes.length = n.type.size := by
  cases n with
  | integer => exact length_littleEndian _ _
  | floating type x => exact P.length_toBytes type x

theorem NumberType.ispow2_size (c : NumberType) : ispow2 c.size = true := by
  cases c with
  | integer type | floating type => cases type <;> rfl

/-- `Scalar_datatype::type_for_v` -/
def NumberType.datatype (c : NumberType) : Datatype :=
  .scalar (Scalar.make c.kind c.size c.size c.ispow2_size)

theorem numberType_size {kind : ScalarKind} {size : Nat} {c : NumberType}
    (h : numberType kind size = some c) : c.size = size := by
  unfold numberType at h
  split at h <;> first | cases h; rfl | cases h

theorem convert_type {n m : Number P.toFloatingPoint} {c : NumberType}
    (h : n.convert c = .ok m) : m.type = c := by
  unfold Number.convert at h
  split at h <;> split at h <;> (try split at h) <;> (try split at h) <;> cases h <;> rfl

/-! ## What references give access to -/

/-- What is behind a reference, with the rights that can be had. -/
structure Value where
  type : Datatype
  content : List Byte
  readable : Bool
  writable : Bool
  length_content : content.length = type.buffersize

/-- An empty reference. -/
def Value.null : Value := ⟨undefType, [], false, false, rfl⟩

/-- `Ref_r`, which is empty without the right to read. -/
def Value.asRead (v : Value) : Value := if v.readable then v else .null

/-- `Ref_rw` -/
def Value.asReadWrite (v : Value) : Value := if v.readable && v.writable then v else .null

/-- A number in a block of its own, as operations return it. -/
def Value.ofNumber (n : Number P.toFloatingPoint) : Value :=
  ⟨n.type.datatype, n.bytes, true, false, length_bytes_number n⟩

/-- The value in `scalar_value`, before it is converted. -/
def Value.scalar (v : Value) : Except Failure (Number P.toFloatingPoint) :=
  match v.type with
  | .scalar s =>
    match numberType s.kind s.denseSize, s.kind with
    | some c, _ => .ok (.read v.content c)
    | none, .unsigned => .error (typeError "Unknown size of unsigned integer datatype")
    | none, .signed => .error (typeError "Unknown size of integer datatype")
    | none, .float => .error (typeError "Unknown size of float datatype")
    | none, .unknown => .error (typeError "Unknown datatype to get value")
  | type => .error (typeError ("Expected scalar, found invalid type instead: " ++ debugString type))

/-- `scalar_value` -/
def Value.scalarValue (v : Value) (c : NumberType) : Except Failure (Number P.toFloatingPoint) := do
  let n ← (v.scalar : Except Failure (Number P.toFloatingPoint))
  n.convert c

def Value.long (P : Platform) (v : Value) : Except Failure Int := do
  match ← (v.scalarValue (.integer .int64) : Except Failure (Number P.toFloatingPoint)) with
  | .integer _ n => pure n
  | .floating _ _ => .error outOfRange

def Value.double (P : Platform) (v : Value) : Except Failure (P.Value .double) := do
  match ← (v.scalarValue (.floating .double) : Except Failure (Number P.toFloatingPoint)) with
  | .floating .double x => pure x
  | _ => .error outOfRange

def isChar (s : Scalar) : Bool := s.size == 1 && (s.kind == .signed || s.kind == .unsigned)

def charOf (b : Byte) : Char := Char.ofNat b.toNat
def byteOf (c : Char) : Byte := UInt8.ofNat c.toNat

/-- A string made of the first characters of the data. -/
def Value.chars (v : Value) (size : Nat) : Except Failure Text :=
  if size ≤ v.content.length then .ok ((v.content.take size).map charOf)
  else .error (.undefined "read past the end of a block")

/-- A reference to shared data in memory. -/
structure DataRef where
  type : Datatype
  data : Nat
  readable : Bool
  writable : Bool

/-- The data that names lead to, an empty reference being none, and the memory. The
content of newly allocated memory is whatever was there before. -/
structure DataContext where
  desc : Text → Except Failure (Option DataRef)
  desc_error : ∀ name e, desc name = .error e → ∃ status message, e = .error status message
  mem : Mem Byte
  fresh : Mem Byte

def DataContext.value (ctx : DataContext) : Option DataRef → Value
  | none => .null
  | some ref =>
    ⟨ref.type, bytes ctx.mem ref.data ref.type.buffersize, ref.readable, ref.writable,
      length_bytes _ _ _⟩

/-- `operator[]` with an index, which becomes a `size_t`. -/
def DataContext.index (ctx : DataContext) (ref : Option DataRef) (i : Int) :
    Except Failure (Option DataRef) :=
  match ref with
  | none =>
    .error (typeError ("Cannot access array index from empty Ref: `" ++ toString i ++ "'"))
  | some ref => do
    let (data, type) ← ref.type.index (IntegerType.uint64.wrap i).toNat ref.data ctx.mem
    pure (some { ref with type := type, data := data })

/-- `operator[]` with a name, which ends at its first zero. -/
def DataContext.member (ctx : DataContext) (ref : Option DataRef) (name : Text) :
    Except Failure (Option DataRef) :=
  let name := String.ofList (name.takeWhile (· != '\x00'))
  match ref with
  | none => .error (typeError ("Cannot access member from empty Ref: `" ++ name ++ "'"))
  | some ref => do
    let (data, type) ← ref.type.member name ref.data ctx.mem
    pure (some { ref with type := type, data := data })

/-! ## Writes into a buffer -/

/-- Bytes written at an offset from the start of a buffer. -/
structure Write where
  offset : Nat
  data : List Byte
  deriving DecidableEq

/-- The same write, seen from a buffer that starts `offset` bytes earlier. -/
def Write.shift (offset : Nat) (w : Write) : Write := ⟨offset + w.offset, w.data⟩

def Write.into (w : Write) (mem : Mem Byte) : Mem Byte := fun a =>
  if w.offset ≤ a then (w.data[a - w.offset]?).getD (mem a) else mem a

/-- Room for `width` bytes at `offset` in a buffer of `total` bytes. -/
def Room (offset width total : Nat) : Prop := width = 0 ∨ offset + width ≤ total

instance (offset width total : Nat) : Decidable (Room offset width total) :=
  inferInstanceAs (Decidable (_ ∨ _))

def Write.Inside (total : Nat) (w : Write) : Prop := Room w.offset w.data.length total

instance (total : Nat) (w : Write) : Decidable (w.Inside total) :=
  inferInstanceAs (Decidable (Room _ _ _))

/-- An evaluation into a buffer, which returns the number of bytes it accounts for. -/
abbrev Copy := Traced Write Failure

def put (data : List Byte) : Copy Unit := emit ⟨0, data⟩

def outside : Failure := .undefined "write outside of a block of memory"

/-- A number, converted to the type it is stored as. -/
def store (c : NumberType) (n : Except Failure (Number P.toFloatingPoint)) : Copy Nat := do
  let n ← lift n
  let n ← lift (n.convert c)
  put n.bytes
  pure c.size

/-- The methods of an expression. -/
structure Impl (P : Platform) where
  toLong : Except Failure Int
  toDouble : Except Failure (P.Value .double)
  toString : Except Failure Text
  toRef : Except Failure Value
  copyValue : Datatype → Copy Nat

/-- `Impl::to_ref(ctx, type)` -/
def allocate (ctx : DataContext) (copyValue : Datatype → Copy Nat) (type : Datatype) :
    Except Failure Value :=
  if type.alignment = 0 then .error (.undefined "allocation with an alignment of 0")
  else if ∀ w ∈ (copyValue type).trace, w.Inside type.buffersize then
    (copyValue type).result.map fun _ =>
      ⟨type, bytes ((copyValue type).trace.foldl (fun mem w => w.into mem) ctx.fresh) 0
        type.buffersize, true, true, length_bytes _ _ _⟩
  else .error outside

def decimal (n : Int) : Text := (ToString.toString n).toList

/-- The number is printed as an integer if the `double` and the `long` are equal. -/
def isIntegral (P : Platform) (l : Int) (d : P.Value .double) : Bool :=
  P.eq .double (P.ofInt .double l) d

/-- `Impl::to_string` -/
def defaultToString (toRef : Except Failure Value) (toLong : Except Failure Int)
    (toDouble : Except Failure (P.Value .double)) : Except Failure Text := do
  let rawData := (← toRef).asRead
  let number : Except Failure Text := do
    let lres ← toLong
    let dres ← toDouble
    pure (if isIntegral P lres dres then decimal lres else P.text dres)
  match rawData.type with
  | .array (.scalar s) size _ _ _ => if isChar s then rawData.chars size else number
  | _ => number

/-! ## Literals -/

def intLiteralCopy (P : Platform) (value : Int) : Datatype → Copy Nat
  | .scalar s =>
    match numberType s.kind s.denseSize, s.kind with
    | some c, .unsigned => store (P := P) c (.ok (.integer .int64 value))
    | none, .unsigned => fail (typeError "Unknown size of integer datatype")
    | some c, .signed => store (P := P) c (.ok (.integer .int64 value))
    | _, _ => fail (valueError "Cannot copy Int_literal as a non integer datatype->")
  | _ => fail (valueError "Cannot copy Int_literal as a non integer datatype->")

def intLiteral (P : Platform) (ctx : DataContext) (value : Int) : Impl P :=
  let toRef := allocate ctx (intLiteralCopy P value) (NumberType.integer .int64).datatype
  { toLong := .ok value
    toDouble := .ok (P.ofInt .double value)
    toString := defaultToString toRef (.ok value) (.ok (P.ofInt .double value))
    toRef := toRef
    copyValue := intLiteralCopy P value }

def floatLiteralCopy (value : P.Value .double) : Datatype → Copy Nat
  | .scalar s =>
    match numberType s.kind s.denseSize, s.kind with
    | some c, .float => store (P := P) c (.ok (.floating .double value))
    | _, _ => fail (valueError "Cannot copy Float_literal as a non float datatype.")
  | _ => fail (valueError "Cannot copy Float_literal as a non float datatype.")

/-- `static_cast<long>` of a `double`. -/
def floatToLong (value : P.Value .double) : Except Failure Int :=
  (Number.floating .double value : Number P.toFloatingPoint).toLong

def floatLiteral (ctx : DataContext) (value : P.Value .double) : Impl P :=
  let toRef := allocate ctx (floatLiteralCopy value) (NumberType.floating .double).datatype
  { toLong := floatToLong value
    toDouble := .ok value
    toString := defaultToString toRef (floatToLong value) (.ok value)
    toRef := toRef
    copyValue := floatLiteralCopy value }

/-! ## Strings -/

/-- The loop of `String_literal::to_string`. -/
def stringText : List (Impl P × Text) → Text → Except Failure Text
  | [], result => .ok result
  | (e, text) :: rest, result => do
    let value ← e.toString
    stringText rest (result ++ value ++ text)

def trueValues : List String :=
  ["y", "Y", "yes", "Yes", "YES", "true", "True", "TRUE", "on", "On", "ON"]

/-- `off` is not among them. -/
def falseValues : List String :=
  ["n", "N", "no", "No", "NO", "false", "False", "FALSE", "Off", "Off", "OFF"]

def stringToLong (toString : Except Failure Text) : Except Failure Int := do
  let text := String.ofList (← toString)
  if text ∈ trueValues then pure 1
  else if text ∈ falseValues then pure 0
  else .error (valueError ("Can not interpret `" ++ text ++ "' as an integer value"))

/-- An array whose elements are scalars of one byte. -/
def holdsChars : Datatype → Bool
  | .array (.scalar s) _ _ _ _ => s.denseSize == 1
  | _ => false

/-- The text is written with the zero at its end, whatever the size of the array. -/
def stringLiteralCopy (toString : Except Failure Text) (type : Datatype) : Copy Nat :=
  if holdsChars type then do
    let value ← lift toString
    put (value.map byteOf ++ [0])
    pure type.buffersize
  else fail (valueError "Cannot copy String_literal as a non chars array datatype.")

def charsType (size : Nat) : Datatype :=
  .array (NumberType.integer .uint8).datatype size 0 size []

def stringLiteral (ctx : DataContext) (start : Text) (values : List (Impl P × Text)) : Impl P :=
  let toString := stringText values start
  { toLong := stringToLong toString
    toDouble := do
      let text ← toString
      .error (valueError ("Can not interpret `" ++ String.ofList text ++ "' as an double value"))
    toString := toString
    toRef := do
      let value ← toString
      allocate ctx (stringLiteralCopy toString) (charsType (value.length + 1))
    copyValue := stringLiteralCopy toString }

/-! ## References -/

inductive Accessor (P : Platform) where
  | index (expression : Impl P)
  | member (expression : Impl P)

/-- The loop of `Reference_expression::to_ref`. -/
def accessAll (ctx : DataContext) : List (Accessor P) → Option DataRef →
    Except Failure (Option DataRef)
  | [], ref => .ok ref
  | .index e :: rest, ref => do
    let i ← e.toLong
    let ref ← ctx.index ref i
    accessAll ctx rest ref
  | .member e :: rest, ref => do
    let name ← e.toString
    let ref ← ctx.member ref name
    accessAll ctx rest ref

def referenceRef (ctx : DataContext) (referenced : Text) (subelements : List (Accessor P)) :
    Except Failure Value := do
  let ref ← ctx.desc referenced
  let ref ← accessAll ctx subelements ref
  pure (ctx.value ref)

/-- `to_long` and `to_double`. -/
def referenceNumber {α : Type} (referenced : Text) (refusal : String)
    (toRef : Except Failure Value) (scalarValue : Value → Except Failure α) : Except Failure α :=
  Except.mapError (whileReferencing referenced) do
    let ref ← toRef
    if ref.readable then scalarValue ref else .error (.error .permission refusal)

def referenceString (format : Text) (toRef : Except Failure Value) (toLong : Except Failure Int)
    (toDouble : Except Failure (P.Value .double)) : Except Failure Text := do
  let rawData := (← toRef).asRead
  match rawData.type with
  | .array (.scalar s) size _ _ _ =>
    -- an array of scalars that are no characters gives the empty string
    if isChar s then do
      let result ← rawData.chars size
      if format = [] then pure result
      else (P.formatText format (result.takeWhile (· != '\x00'))).mapError .foreign
    else pure []
  | .array _ _ _ _ _ =>
    .error (typeError "Cannot evaluate as string an array of non char elements")
  | _ => do
    let lres ← toLong
    let dres ← toDouble
    if isIntegral P lres dres then
      if format = [] then pure (decimal lres) else (P.formatLong format lres).mapError .foreign
    else if format = [] then pure (P.text dres) else (P.formatDouble format dres).mapError .foreign

/-- A part of the data, converted to the type of the buffer. -/
def indexedCopy (P : Platform) (ref : Value) : Datatype → Copy Nat
  | .scalar s =>
    match numberType s.kind s.denseSize, s.kind with
    | some c, _ => store (P := P) c ref.scalar
    | none, .unsigned => fail (typeError "Unknown size of integer datatype")
    | none, _ => fail (valueError
        "Cannot copy reference expression value: non scalar datatype for indexed reference")
  | _ => fail (valueError
      "Cannot copy reference expression value: non scalar datatype for indexed reference")

/-- All of the data, byte for byte. -/
def wholeCopy (ref : Value) (type : Datatype) : Copy Nat :=
  if ref.type.buffersize = type.buffersize then do
    put ref.content
    pure type.buffersize
  else fail (valueError ("Cannot copy reference expression value: reference buffersize (" ++
    ToString.toString ref.type.buffersize ++ ") != type bufferize (" ++
    ToString.toString type.buffersize ++ ")"))

def referenceCopy (P : Platform) (whole : Bool) (toRef : Except Failure Value) (type : Datatype) :
    Copy Nat := do
  let ref ← lift toRef
  if ref.readable then if whole then wholeCopy ref type else indexedCopy P ref type
  else fail (valueError
    "Cannot copy reference expression value: cannot get read access to reference")

def reference (ctx : DataContext) (referenced format : Text) (subelements : List (Accessor P)) :
    Impl P :=
  let toRef := referenceRef ctx referenced subelements
  let toLong := referenceNumber referenced "Unable to grant access for value reference" toRef
    (Value.long P)
  let toDouble := referenceNumber referenced "Unable to grant read access for value reference" toRef
    (Value.double P)
  { toLong := toLong
    toDouble := toDouble
    toString := referenceString format toRef toLong toDouble
    toRef := toRef
    copyValue := referenceCopy P subelements.isEmpty toRef }

/-! ## Operations -/

/-- The test that the loop makes before it evaluates the next operand. -/
def Value.checkScalar (v : Value) : Except Failure Unit :=
  match v.type with
  | .scalar _ => .ok ()
  | _ => .error (typeError "Cannot apply operation on non-scalar value")

/-- The dispatch on kind and size of the data; the value is read by the size of the
buffer. -/
def Value.operand (v : Value) : Except Failure (Number P.toFloatingPoint) :=
  match v.type with
  | .scalar s =>
    match numberType s.kind s.size, s.kind with
    | some c, _ => v.scalarValue c
    | none, .float => .error (typeError
        ("Unable to compute on floating point data of size " ++ ToString.toString s.size))
    | none, .signed => .error (typeError
        ("Unable to compute on integer data of size " ++ ToString.toString s.size))
    | none, .unsigned => .error (typeError
        ("Unable to compute on unsigned data of size " ++ ToString.toString s.size))
    | none, .unknown => .error (typeError "Unable to compute on data of unknown type")
  | _ => .error (typeError "Cannot apply operation on non-scalar value")

/-- The value after one round of the loop, for the operand of that round. -/
def applyOperator (P : Platform) (computed : Value) (op : Operator) (operand : Value) :
    Except Failure Value := do
  let a ← (computed.operand : Except Failure (Number P.toFloatingPoint))
  let b ← operand.operand
  let value ← eval a op b
  pure (.ofNumber value)

/-- The loop of `Operation::to_ref`. -/
def applyAll : List (Operator × Impl P) → Value → Except Failure Value
  | [], computed => .ok computed
  | (op, e) :: rest, computed => do
    computed.checkScalar
    let operand ← e.toRef
    let computed ← applyOperator P computed op operand.asRead
    applyAll rest computed

def operationRef (first : Impl P) (operands : List (Operator × Impl P)) : Except Failure Value := do
  let computed ← first.toRef
  applyAll operands computed.asRead

/-- `to_long` and `to_double`. -/
def operationNumber {α : Type} (toRef : Except Failure Value)
    (scalarValue : Value → Except Failure α) : Except Failure α := do
  let value := (← toRef).asRead
  if value.readable then scalarValue value
  else .error (valueError "Unexpected null value for operation")

/-- The switch here is on the size of the data, not of the buffer. -/
def computedCopy (P : Platform) (value : Value) : Datatype → Copy Nat
  | .scalar s =>
    match numberType s.kind s.size, s.kind with
    | some c, _ => store (P := P) c value.scalar
    | none, .float => fail (typeError
        ("Cannot copy operation expression value to floating point data of size " ++
          ToString.toString s.size))
    | none, .signed => fail (typeError
        ("Cannot copy operation expression value to integer data of size " ++
          ToString.toString s.size))
    | none, .unsigned => fail (typeError
        ("Cannot copy operation expression value to unsigned data of size " ++
          ToString.toString s.size))
    | none, .unknown => fail (typeError "Cannot copy operation expression value: unknown type")
  | _ => fail (valueError "Cannot copy operation expression value to non scalar datatype")

def operationCopy (P : Platform) (toRef : Except Failure Value) (type : Datatype) : Copy Nat := do
  let value ← lift toRef
  computedCopy P value.asRead type

def operation (first : Impl P) (operands : List (Operator × Impl P)) : Impl P :=
  let toRef := operationRef first operands
  let toLong := operationNumber toRef (Value.long P)
  let toDouble := operationNumber toRef (Value.double P)
  { toLong := toLong
    toDouble := toDouble
    toString := defaultToString toRef toLong toDouble
    toRef := toRef
    copyValue := operationCopy P toRef }

/-! ## Sequences -/

/-- The loop of `Sequence::to_string`. -/
def sequenceText : List (Impl P) → Text → Except Failure Text
  | [], result => .ok result
  | e :: rest, result => do
    let value ← e.toString
    sequenceText rest (result ++ value)

/-- The types of the elements, each of which is evaluated for it. -/
def elementTypes : List (Impl P) → Except Failure (List Datatype)
  | [] => .ok []
  | e :: rest => do
    let value ← e.toRef
    let types ← elementTypes rest
    pure (value.type :: types)

/-- The type of a sequence with elements of these types. -/
def sequenceType : List Datatype → Except Failure Datatype
  | [] => .ok undefType
  | type :: rest =>
    if rest.all type.same then .ok (.array type (rest.length + 1) 0 (rest.length + 1) [])
    else if (type :: rest).any (·.alignment == 0) then .error zeroDivisor
    else
      let elements := (type :: rest).map (fun t => ("", t))
      let alignment := (type :: rest).foldl (fun a t => max a t.alignment) 0
      .ok (.tuple (layOut elements 0) (paddedEnd (layOutEnd elements 0) alignment) [])

/-- The type of a sequence with elements. -/
theorem sequenceType_eq_ok {first t : Datatype} {rest : List Datatype} :
    sequenceType (first :: rest) = .ok t ↔
      ((∀ u ∈ rest, first.same u = true) ∧
        t = .array first (rest.length + 1) 0 (rest.length + 1) []) ∨
      ((¬ ∀ u ∈ rest, first.same u = true) ∧ (∀ u ∈ first :: rest, u.alignment ≠ 0) ∧
        t = .tuple (layOut ((first :: rest).map fun u => ("", u)) 0)
          (paddedEnd (layOutEnd ((first :: rest).map fun u => ("", u)) 0)
            ((first :: rest).foldl (fun a u => max a u.alignment) 0)) []) := by
  have hany : ((first :: rest).any (·.alignment == 0)) = true ↔
      ¬ ∀ u ∈ first :: rest, u.alignment ≠ 0 := by
    rw [List.any_eq_true]
    simp only [beq_iff_eq, ne_eq, not_forall, not_not, exists_prop]
  have hall : (rest.all first.same) = true ↔ ∀ u ∈ rest, first.same u = true := List.all_eq_true
  dsimp only [sequenceType]
  by_cases hsame : ∀ u ∈ rest, first.same u = true
  · rw [if_pos (hall.mpr hsame), or_iff_left fun h => h.1 hsame, and_iff_right hsame,
      Except.ok.injEq]
    exact eq_comm
  · rw [if_neg fun h => hsame (hall.mp h), or_iff_right fun h => hsame h.1, and_iff_right hsame]
    by_cases halign : ∀ u ∈ first :: rest, u.alignment ≠ 0
    · rw [if_neg fun h => hany.mp h halign, and_iff_right halign, Except.ok.injEq]
      exact eq_comm
    · rw [if_pos (hany.mpr halign)]
      exact ⟨fun h => (by cases h), fun h => absurd h.1 halign⟩

/-- The elements in an array, one after the other from `offset` on. -/
def copyArray (subtype : Datatype) : List (Impl P) → Nat → Copy Nat
  | [], offset => pure offset
  | e :: rest, offset => do
    let copied ← (e.copyValue subtype).relabel (Write.shift offset)
    copyArray subtype rest (offset + copied)

/-- The elements in a tuple. The vector of its elements is read past its end if the
sequence is longer. -/
def copyTuple : List (Impl P) → Members → Copy Unit
  | [], _ => pure ()
  | _ :: _, .nil => fail outside
  | e :: rest, .cons offset type _ elements => do
    let _ ← (e.copyValue type).relabel (Write.shift offset)
    copyTuple rest elements

def sequenceCopy (elements : List (Impl P)) : Datatype → Copy Nat
  | .array subtype size _ _ _ => do
    let offset ← copyArray subtype elements 0
    if offset = size * subtype.buffersize then pure offset
    else fail (valueError ("Array literal copy incomplete: copied " ++ ToString.toString offset ++
      " B of " ++ ToString.toString (size * subtype.buffersize) ++ " B"))
  | .tuple types buffersize _ => do
    copyTuple elements types
    pure buffersize
  | _ => fail (valueError
      "Sequence literal cannot copy a value whose type is neither array nor tuple")

def sequence (ctx : DataContext) (elements : List (Impl P)) : Impl P where
  toLong := .error (valueError "Cannot interpret Array_expression as a long value")
  toDouble := .error (valueError "Cannot interpret Array_expression as a double value")
  toString := sequenceText elements []
  toRef :=
    if elements.isEmpty then .ok .null
    else do
      let types ← elementTypes elements
      let type ← sequenceType types
      allocate ctx (sequenceCopy elements) type
  copyValue := sequenceCopy elements

/-! ## Mappings -/

/-- The members of the record for a mapping. Only values with the right to write have
a type here; the next member is aligned to the alignment of the type. -/
def memberTypes : List (String × Impl P) → Except Failure (List (String × Datatype))
  | [] => .ok []
  | (name, e) :: rest => do
    let value ← e.toRef
    let type := value.asReadWrite.type
    if type.alignment = 0 then .error zeroDivisor
    else do
      let types ← memberTypes rest
      pure ((name, type) :: types)

def mappingType (members : List (String × Datatype)) : Datatype :=
  let alignment := members.foldl (fun a m => max a m.2.alignment) 1
  .record (layOut members 0) (Align.alignUp (layOutEnd members 0) alignment) []

/-- The loop of `Mapping::copy_value`. -/
def copyRecord (members : Members) : List (String × Impl P) → Copy Unit
  | [] => pure ()
  | (name, e) :: rest =>
    match members.find? name with
    | some (displacement, type) => do
      let _ ← (e.copyValue type).relabel (Write.shift displacement)
      copyRecord members rest
    | none => fail (valueError ("Trying to reference non-existing member: " ++ name))

def mappingCopy (entries : List (String × Impl P)) : Datatype → Copy Nat
  | .record members buffersize _ => do
    copyRecord members entries
    pure buffersize
  | _ => fail (valueError "Map literal cannot copy value of not record datatype")

def mapping (ctx : DataContext) (entries : List (String × Impl P)) : Impl P where
  toLong := .error (valueError "Cannot interpret Map_expression as a long value")
  toDouble := .error (valueError "Cannot interpret Map_expression as a double value")
  toString := .error (valueError "Cannot interpret Map_expression as a string value")
  toRef := do
    let types ← memberTypes entries
    allocate ctx (mappingCopy entries) (mappingType types)
  copyValue := mappingCopy entries

/-! ## Expressions -/

mutual
/-- The entries of a mapping are in the order in which the table is walked through. -/
inductive Form (P : Platform) where
  | intLiteral (value : Int)
  | floatLiteral (value : P.Value .double)
  | stringLiteral (start : Text) (values : Values P)
  | reference (referenced format : Text) (subelements : Subelements P)
  | operation (first : Form P) (operands : FormOperands P)
  | sequence (elements : Forms P)
  | mapping (entries : Entries P)

/-- The expressions in a string, each with the text behind it. -/
inductive Values (P : Platform) where
  | nil
  | cons (expression : Form P) (text : Text) (rest : Values P)

inductive Subelements (P : Platform) where
  | nil
  | index (expression : Form P) (rest : Subelements P)
  | member (expression : Form P) (rest : Subelements P)

inductive FormOperands (P : Platform) where
  | nil
  | cons (op : Operator) (operand : Form P) (rest : FormOperands P)

inductive Forms (P : Platform) where
  | nil
  | cons (element : Form P) (rest : Forms P)

inductive Entries (P : Platform) where
  | nil
  | cons (name : String) (value : Form P) (rest : Entries P)
end

mutual
def Form.impl (ctx : DataContext) : Form P → Impl P
  | .intLiteral value => Expression.intLiteral P ctx value
  | .floatLiteral value => Expression.floatLiteral ctx value
  | .stringLiteral start values => Expression.stringLiteral ctx start (values.impls ctx)
  | .reference referenced format subelements =>
    Expression.reference ctx referenced format (subelements.impls ctx)
  | .operation first operands => Expression.operation (first.impl ctx) (operands.impls ctx)
  | .sequence elements => Expression.sequence ctx (elements.impls ctx)
  | .mapping entries => Expression.mapping ctx (entries.impls ctx)

def Values.impls (ctx : DataContext) : Values P → List (Impl P × Text)
  | .nil => []
  | .cons e text rest => (e.impl ctx, text) :: rest.impls ctx

def Subelements.impls (ctx : DataContext) : Subelements P → List (Accessor P)
  | .nil => []
  | .index e rest => .index (e.impl ctx) :: rest.impls ctx
  | .member e rest => .member (e.impl ctx) :: rest.impls ctx

def FormOperands.impls (ctx : DataContext) : FormOperands P → List (Operator × Impl P)
  | .nil => []
  | .cons op e rest => (op, e.impl ctx) :: rest.impls ctx

def Forms.impls (ctx : DataContext) : Forms P → List (Impl P)
  | .nil => []
  | .cons e rest => e.impl ctx :: rest.impls ctx

def Entries.impls (ctx : DataContext) : Entries P → List (String × Impl P)
  | .nil => []
  | .cons name e rest => (name, e.impl ctx) :: rest.impls ctx
end

def Entries.names : Entries P → List String
  | .nil => []
  | .cons name _ rest => name :: rest.names

theorem names_impls (ctx : DataContext) : ∀ entries : Entries P,
    (entries.impls ctx).map Prod.fst = entries.names
  | .nil => rfl
  | .cons name _ rest => congrArg (name :: ·) (names_impls ctx rest)

end Pdi.Expression
