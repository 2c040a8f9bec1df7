import Pdi.ExpressionPrint
import Pdi.Traced

/-!
# Operations without undefined arithmetic

Which operations can be evaluated without a division by zero or an overflow. The values
that the condition speaks of are those of a second semantics, which takes every integer
result modulo the values of its type and never fails to compute one.
-/
namespace Pdi.Expression

open Pdi.Cursor Pdi.Datatypes Pdi.Trace

/-- An error of the library. -/
def IsThrown (e : Failure) : Prop := ∃ status message, e = .error status message

variable {F : FloatingPoint}

/-! ## Exact arithmetic -/

/-- The operator is defined on two integers of a type. -/
def Operator.Defined (op : Operator) (type : IntegerType) (x y : Int) : Prop :=
  match op with
  | .plus => type.signed = true → type.Holds (x + y)
  | .minus => type.signed = true → type.Holds (x - y)
  | .mult => type.signed = true → type.Holds (x * y)
  | .div | .mod => y ≠ 0 ∧ ¬ (type.signed = true ∧ x = type.min ∧ y = -1)
  | _ => True

/-- The result of an operator on two integers of a type, modulo the values of the type. -/
def Operator.exact (op : Operator) (type : IntegerType) (x y : Int) : Number F :=
  match op with
  | .plus => .integer type (type.wrap (x + y))
  | .minus => .integer type (type.wrap (x - y))
  | .mult => .integer type (type.wrap (x * y))
  | .div => .integer type (type.wrap (x.tdiv y))
  | .mod => .integer type (type.wrap (x.tmod y))
  | .equal => .bool (x == y)
  | .gt => .bool (decide (y < x))
  | .lt => .bool (decide (x < y))
  | .and => .bool (x != 0 && y != 0)
  | .or => .bool (x != 0 || y != 0)

theorem holds_wrap (type : IntegerType) (n : Int) : type.Holds (type.wrap n) := by
  have hvalues : 0 < type.values ∧ type.max = type.min + type.values - 1 := by
    cases type <;> decide
  have hnonneg := Int.emod_nonneg (n - type.min) (Int.ne_of_gt hvalues.1)
  have hlt := Int.emod_lt_of_pos (n - type.min) hvalues.1
  unfold IntegerType.Holds IntegerType.wrap
  omega

theorem not_thrown_undefined (what : String) : ¬ IsThrown (.undefined what) := by
  rintro ⟨status, message, h⟩
  cases h

theorem agrees_result (type : IntegerType) (n : Int) :
    Agrees IsThrown (Number.result type n : Except Failure (Number F))
      (some (.integer type (type.wrap n))) (type.signed = true → type.Holds n) := by
  unfold Number.result
  by_cases hsigned : type.signed = true
  · rw [if_pos hsigned]
    by_cases hn : type.Holds n
    · rw [if_pos hn, wrap_of_holds hn]
      exact (agrees_ok _).congr (by simp [hn])
    · rw [if_neg hn]
      exact agrees_lost (not_thrown_undefined _) fun h => hn (h hsigned)
  · rw [if_neg hsigned]
    exact (agrees_ok _).congr (by simp [hsigned])

/-- The only quotient that leaves a signed type is that of the smallest number by -1. -/
theorem tdiv_holds_iff {type : IntegerType} {x y : Int} (hsigned : type.signed = true)
    (hx : type.Holds x) (hy : y ≠ 0) : type.Holds (x.tdiv y) ↔ ¬ (x = type.min ∧ y = -1) := by
  have hmin : type.min = -type.max - 1 ∧ 0 ≤ type.max := by
    cases type <;> first | decide | cases hsigned
  obtain ⟨hlow, hhigh⟩ := hx
  unfold IntegerType.Holds
  by_cases hminus : y = -1
  · subst hminus
    rw [Int.tdiv_neg, Int.tdiv_one]
    omega
  · have habs : (x.tdiv y).natAbs ≤ x.natAbs := by
      rw [Int.natAbs_tdiv]
      exact Nat.div_le_self _ _
    by_cases hone : y = 1
    · subst hone
      rw [Int.tdiv_one]
      omega
    · have hhalf : (x.tdiv y).natAbs ≤ x.natAbs / 2 := by
        rw [Int.natAbs_tdiv]
        exact Nat.div_le_div_left (by omega) (by decide)
      omega

theorem agrees_evalInteger (type : IntegerType) {x y : Int} (hx : type.Holds x) (op : Operator) :
    Agrees IsThrown (evalInteger type x op y : Except Failure (Number F))
      (some (op.exact type x y)) (op.Defined type x y) := by
  have hquotient (hy : y ≠ 0) : (type.signed = true → type.Holds (x.tdiv y)) ↔
      y ≠ 0 ∧ ¬ (type.signed = true ∧ x = type.min ∧ y = -1) := by
    rw [not_and, and_iff_right hy]
    exact forall_congr' fun hsigned => tdiv_holds_iff hsigned hx hy
  cases op with
  | plus => exact agrees_result type (x + y)
  | minus => exact agrees_result type (x - y)
  | mult => exact agrees_result type (x * y)
  | div =>
    unfold evalInteger
    dsimp only
    by_cases hy : y = 0
    · rw [if_pos hy]
      exact agrees_lost (not_thrown_undefined _) fun h => h.1 hy
    · rw [if_neg hy]
      exact (agrees_result type (x.tdiv y)).congr (hquotient hy)
  | mod =>
    unfold evalInteger
    dsimp only
    by_cases hy : y = 0
    · rw [if_pos hy]
      exact agrees_lost (not_thrown_undefined _) fun h => h.1 hy
    · rw [if_neg hy]
      by_cases hholds : type.signed = true → type.Holds (x.tdiv y)
      · rw [if_neg (by rwa [not_and_not_right])]
        refine (agrees_result type (x.tmod y)).congr ?_
        exact iff_of_true (fun _ => tmod_holds hx) ((hquotient hy).mp hholds)
      · rw [if_pos (Classical.not_imp.mp hholds)]
        exact agrees_lost (not_thrown_undefined _) fun h => hholds ((hquotient hy).mpr h)
  | equal | gt | lt | and | or => exact agrees_ok _

/-! ## Numbers -/

/-- The result of an operator on two numbers. -/
def Number.exact (a : Number F) (op : Operator) (b : Number F) : Option (Number F) :=
  match op, a, b with
  | .and, a, b => some (.bool (a.isTrue && b.isTrue))
  | .or, a, b => some (.bool (a.isTrue || b.isTrue))
  | op, .integer s x, .integer t y =>
    some (op.exact (s.common t) ((s.common t).wrap x) ((s.common t).wrap y))
  | op, a, b => (eval a op b).toOption

/-- The operator is defined on two numbers: always, unless both are integers. -/
def Number.Defined (a : Number F) (op : Operator) (b : Number F) : Prop :=
  match a, b with
  | .integer s x, .integer t y =>
    op.Defined (s.common t) ((s.common t).wrap x) ((s.common t).wrap y)
  | _, _ => True

theorem fails_evalFloating (type : FloatType) (a b : F.Value type) (op : Operator) :
    Fails IsThrown (evalFloating type a op b) := by
  cases op with
  | mod => exact (fails_error _).mpr ⟨_, _, rfl⟩
  | _ => exact fails_ok _

theorem agrees_eval (a : Number F) (op : Operator) (b : Number F) :
    Agrees IsThrown (eval a op b) (a.exact op b) (a.Defined op b) := by
  cases a with
  | integer s x =>
    cases b with
    | integer t y =>
      have hinteger := agrees_evalInteger (F := F) (y := (s.common t).wrap y) (s.common t)
        (holds_wrap (s.common t) x) op
      cases op with
      | and | or => exact agrees_ok _
      | _ => exact hinteger
    | floating t y =>
      have hfloating := fails_evalFloating t (F.ofInt t x) y op
      cases op with
      | and | or => exact agrees_ok _
      | _ => exact agrees_toOption hfloating
  | floating s x =>
    cases b with
    | integer t y =>
      have hfloating := fails_evalFloating s x (F.ofInt s y) op
      cases op with
      | and | or => exact agrees_ok _
      | _ => exact agrees_toOption hfloating
    | floating t y =>
      have hfloating : Fails IsThrown (eval (.floating s x) op (.floating t y)) := by
        cases op with
        | mod => cases s <;> cases t <;> exact (fails_error _).mpr ⟨_, _, rfl⟩
        | _ => cases s <;> cases t <;> exact fails_ok _
      cases op with
      | and | or => exact agrees_ok _
      | _ => exact agrees_toOption hfloating

/-! ## Data -/

def Datum.number? : Datum F → Option (Number F)
  | .number n => some n
  | _ => none

/-- The `long` that a number is converted to. -/
def Datum.long? : Datum F → Option Int
  | .number (.integer _ n) => some (IntegerType.int64.wrap n)
  | .number (.floating type x) => F.toLong type x
  | _ => none

/-- The conversion to `long` is defined: always, for integers. -/
def Datum.InRange : Datum F → Prop
  | .number (.floating type x) => (F.toLong type x).isSome
  | _ => True

theorem agrees_asNumber (d : Datum F) : Agrees IsThrown d.asNumber d.number? True := by
  cases d with
  | number n => exact agrees_ok n
  | scalar kind => cases kind <;> exact agrees_error ⟨_, _, rfl⟩
  | other => exact agrees_error ⟨_, _, rfl⟩

theorem agrees_toLong (d : Datum F) : Agrees IsThrown d.toLong d.long? d.InRange := by
  cases d with
  | number n =>
    cases n with
    | integer => exact agrees_ok _
    | floating type x =>
      simp only [Datum.toLong, Number.toLong, Datum.long?, Datum.InRange]
      cases F.toLong type x with
      | none => exact agrees_lost (not_thrown_undefined _) (by simp)
      | some n => exact (agrees_ok n).congr (by simp)
  | scalar kind => cases kind <;> exact agrees_error ⟨_, _, rfl⟩
  | other => exact agrees_error ⟨_, _, rfl⟩

/-! ## Expressions -/

/-- The value of an index, for the datum that the expression evaluates to. -/
def Expr.long? (e : Expr) (d : Option (Datum F)) : Option Int :=
  match e with
  | .intLiteral value => some value
  | _ => d.bind Datum.long?

section Value

variable (ctx : Context F)

mutual
/-- The value of an expression with exact arithmetic, if it is not an error. -/
def Expr.value : Expr → Option (Datum F)
  | .intLiteral value => some (.number (.integer .int64 value))
  | .floatLiteral text => some (.number (.floating .double (F.ofText text)))
  | .reference referenced _ subelements =>
    (ctx.desc referenced).toOption.bind fun ref =>
      (subelements.reached ref).bind fun ref => some (ctx.datum ref)
  | .operation first operands => first.value.bind operands.value

def Operands.value : Operands → Datum F → Option (Datum F)
  | .nil, computed => some computed
  | .cons op operand rest, computed =>
    operand.value.bind fun d => computed.number?.bind fun a => d.number?.bind fun b =>
      (a.exact op b).bind fun n => rest.value (.number n)

def Accessors.reached : Accessors → ctx.Reference → Option ctx.Reference
  | .nil, ref => some ref
  | .index expression rest, ref =>
    (expression.long? expression.value).bind fun i => (ctx.index ref i).toOption.bind rest.reached
  | .member name rest, ref => (ctx.member ref name).toOption.bind rest.reached
end

mutual
/-- No division by zero and no overflow is reached. -/
def Expr.WellDefined : Expr → Prop
  | .intLiteral _ | .floatLiteral _ => True
  | .reference referenced _ subelements =>
    ∀ ref, (ctx.desc referenced).toOption = some ref → subelements.WellDefined ref
  | .operation first operands =>
    first.WellDefined ∧ ∀ d, first.value ctx = some d → operands.WellDefined d

/-- The operand is evaluated if what has been computed is a scalar. -/
def Operands.WellDefined : Operands → Datum F → Prop
  | .nil, _ => True
  | .cons op operand rest, computed =>
    (∀ description, computed ≠ .other description) →
      operand.WellDefined ∧ ∀ d, operand.value ctx = some d →
        ∀ a, computed.number? = some a → ∀ b, d.number? = some b →
          a.Defined op b ∧ ∀ n, a.exact op b = some n → rest.WellDefined (.number n)

def Accessors.WellDefined : Accessors → ctx.Reference → Prop
  | .nil, _ => True
  | .index expression rest, ref =>
    (expression.WellDefined ∧ ∀ d, expression.value ctx = some d → d.InRange) ∧
      ∀ i, expression.long? (expression.value ctx) = some i →
        ∀ r, (ctx.index ref i).toOption = some r → rest.WellDefined r
  | .member name rest, ref =>
    ∀ r, (ctx.member ref name).toOption = some r → rest.WellDefined r
end

end Value

/-- What names lead to is found, or an error of the library is thrown. -/
structure Context.Throws (ctx : Context F) : Prop where
  desc : ∀ name, Fails IsThrown (ctx.desc name)
  index : ∀ ref i, Fails IsThrown (ctx.index ref i)
  member : ∀ ref name, Fails IsThrown (ctx.member ref name)

section Agreement

variable {ctx : Context F}

theorem agrees_longOf {e : Expr}
    (h : Agrees IsThrown (e.toRef ctx) (e.value ctx) (e.WellDefined ctx)) :
    Agrees IsThrown (e.longOf (e.toRef ctx)) (e.long? (e.value ctx))
      (e.WellDefined ctx ∧ ∀ d, e.value ctx = some d → d.InRange) := by
  have hbind := h.bind agrees_toLong
  cases e with
  | intLiteral value =>
    refine (agrees_ok value).congr (iff_of_true trivial ⟨trivial, ?_⟩)
    rintro d ⟨⟩
    trivial
  | floatLiteral | operation => exact hbind
  | reference referenced format subelements =>
    refine ⟨?_, fun hsafe => ?_⟩
    · rw [← hbind.fails]
      exact fails_mapError _ _ _ _ (fun e => by cases e <;> simp [whileReferencing, IsThrown])
    · refine Eq.trans ?_ (hbind.value hsafe)
      rw [Expr.longOf]
      change (Except.mapError _ ((Expr.reference referenced format subelements).toRef ctx >>=
        Datum.toLong)).toOption = _
      cases ((Expr.reference referenced format subelements).toRef ctx >>= Datum.toLong) <;> rfl

mutual
theorem Expr.agrees (hctx : ctx.Throws) :
    ∀ e : Expr, Agrees IsThrown (e.toRef ctx) (e.value ctx) (e.WellDefined ctx)
  | .intLiteral value | .floatLiteral text => agrees_ok _
  | .reference referenced format subelements => by
    have hreached (ref : ctx.Reference) :=
      ((Accessors.agrees hctx subelements ref).bind fun r => agrees_ok (ctx.datum r)).congr
        (and_iff_left fun _ _ => trivial)
    exact (agrees_toOption (hctx.desc referenced)).bind_total hreached
  | .operation first operands => (Expr.agrees hctx first).bind (Operands.agrees hctx operands)

theorem Operands.agrees (hctx : ctx.Throws) : ∀ (operands : Operands) (computed : Datum F),
    Agrees IsThrown (operands.toRef ctx computed) (operands.value ctx computed)
      (operands.WellDefined ctx computed)
  | .nil, computed => agrees_ok computed
  | .cons op operand rest, computed => by
    have hrest := (Expr.agrees hctx operand).bind fun d =>
      (agrees_asNumber computed).bind_total fun a => (agrees_asNumber d).bind_total fun b =>
        (agrees_eval a op b).bind fun n => Operands.agrees hctx rest (.number n)
    rw [Operands.toRef]
    simp only [combine, bind_assoc, pure_bind]
    cases computed with
    | other =>
      refine ⟨iff_of_true ((fails_error _).mpr ⟨_, _, rfl⟩) fun h => absurd rfl (h _), fun _ => ?_⟩
      rw [Operands.value]
      cases operand.value ctx <;> rfl
    | number | scalar => exact hrest.congr ⟨fun h _ => h, fun h => h nofun⟩

theorem Accessors.agrees (hctx : ctx.Throws) : ∀ (accessors : Accessors) (ref : ctx.Reference),
    Agrees IsThrown (accessors.access ctx ref) (accessors.reached ctx ref)
      (accessors.WellDefined ctx ref)
  | .nil, ref => agrees_ok ref
  | .index expression rest, ref =>
    (agrees_longOf (Expr.agrees hctx expression)).bind fun i =>
      (agrees_toOption (hctx.index ref i)).bind_total (Accessors.agrees hctx rest)
  | .member name rest, ref =>
    (agrees_toOption (hctx.member ref name)).bind_total (Accessors.agrees hctx rest)
end

end Agreement

/-- An expression is evaluated to a value or an error of the library exactly when no
division by zero and no overflow is reached with exact arithmetic. -/
theorem toRef_defined_iff (ctx : Context F) (hctx : ctx.Throws) (e : Expr) :
    Fails IsThrown (e.toRef ctx) ↔ e.WellDefined ctx := (e.agrees hctx).fails

theorem toRef_defined_quotient :
    parseText "7/2".toList =
        some (.operation (.intLiteral 7) (.cons .div (.intLiteral 2) .nil)) ∧
      Fails IsThrown ((Expr.operation (.intLiteral 7) (.cons .div (.intLiteral 2) .nil)).toRef
        noData) := by
  refine ⟨by decide +kernel, (toRef_defined_iff noData ?_ _).mpr ⟨trivial, ?_⟩⟩
  · refine ⟨fun name => ?_, nofun, nofun⟩
    exact (fails_error _).mpr ⟨_, _, rfl⟩
  · rintro _ ⟨⟩ -
    refine ⟨trivial, ?_⟩
    rintro _ ⟨⟩ _ ⟨⟩ _ ⟨⟩
    exact ⟨⟨by decide, by decide⟩, fun _ _ => trivial⟩

/-- The divisor is the result of a subtraction. -/
theorem toRef_zero_divisor :
    parseText "1/(2-2)".toList =
        some (.operation (.intLiteral 1) (.cons .div
          (.operation (.intLiteral 2) (.cons .minus (.intLiteral 2) .nil)) .nil)) ∧
      (Expr.operation (.intLiteral 1) (.cons .div
          (.operation (.intLiteral 2) (.cons .minus (.intLiteral 2) .nil)) .nil)).toRef noData =
        .error zeroDivisor := by
  exact ⟨by decide +kernel, rfl⟩

end Pdi.Expression
