import Pdi.ExpressionReads
import Pdi.ExpressionValue

/-!
# Printed operations

An operation on integers as a tree, its value, and all the texts that print it:
any parentheses that the precedence of the operators needs or allows, any white
space, and any text for a literal that `strtol` takes. Reading such a text and
evaluating what was read gives the value of the tree.

The parser keeps the operators of one level in a list, the tree nests them to the
left. `Spine` relates the two: the left operands of a tree are the beginning of
the list.
-/
namespace Pdi.Expression

open Pdi.Cursor Pdi.NumberText Pdi.Datatypes

variable {w s : Text} {n : Int} {op : Operator} {level : Nat}

inductive Tree where
  | literal (n : Int)
  | operation (op : Operator) (a b : Tree)

/-- The arithmetic operators; the others answer a `bool`. -/
def Operator.arithmetic : Operator → Bool
  | .plus | .minus | .mult | .div | .mod => true
  | .equal | .and | .or | .gt | .lt => false

/-- The integer that an operator gives for two integers. -/
def Operator.apply : Operator → Int → Int → Int
  | .plus, x, y => x + y
  | .minus, x, y => x - y
  | .mult, x, y => x * y
  | .div, x, y => x.tdiv y
  | .mod, x, y => x.tmod y
  | .equal, x, y => if x = y then 1 else 0
  | .gt, x, y => if x > y then 1 else 0
  | .lt, x, y => if x < y then 1 else 0
  | .and, x, y => if x ≠ 0 ∧ y ≠ 0 then 1 else 0
  | .or, x, y => if x ≠ 0 ∨ y ≠ 0 then 1 else 0

def Tree.value : Tree → Int
  | .literal n => n
  | .operation op a b => op.apply a.value b.value

/-- The C++ type of an intermediate result: `long` for a literal, `bool` for a
comparison, and for arithmetic `int` unless there is a `long` on one side. -/
def Tree.type : Tree → IntegerType
  | .literal _ => .int64
  | .operation op a b =>
    if op.arithmetic then if a.type = .int64 ∨ b.type = .int64 then .int64 else .int32
    else .uint8

/-- The result of an operator is in the range of its type; the quotient too where
only the remainder is asked for. -/
def Operator.Fits (op : Operator) (type : IntegerType) (x y : Int) : Prop :=
  match op with
  | .plus | .minus | .mult => type.Holds (op.apply x y)
  | .div | .mod => y ≠ 0 ∧ type.Holds (x.tdiv y)
  | _ => True

/-- No intermediate result leaves the range of its type, and no divisor is zero. -/
def Tree.Fits : Tree → Prop
  | .literal n => IntegerType.int64.Holds n
  | .operation op a b =>
    a.Fits ∧ b.Fits ∧ op.Fits (Tree.operation op a b).type a.value b.value

def Spaces (w : Text) : Prop := ∀ c ∈ w, isSpace c = true

/-- The texts of a tree where an operand of the given level is expected. White
space stands after a number, a parenthesis or an operator. -/
inductive Prints : Nat → Tree → Text → Prop where
  | literal {u w : Text} (hu : IntegerText u) (hw : Spaces w) :
    Prints 7 (.literal (integerValue u)) (u ++ w)
  | paren {a : Tree} {s w w' : Text} (hw : Spaces w) (h : Prints 1 a s) (hw' : Spaces w') :
    Prints 7 a ('(' :: w ++ s ++ ')' :: w')
  | weaker {level : Nat} {a : Tree} {s : Text} (hlevel : 1 ≤ level) (h : Prints (level + 1) a s) :
    Prints level a s
  /-- The operators of a level nest to the left. -/
  | operation {op : Operator} {a b : Tree} {s s' w : Text} (ha : Prints op.level a s)
    (hw : Spaces w) (hb : Prints (op.level + 1) b s') :
    Prints op.level (.operation op a b) (s ++ op.char :: w ++ s')

theorem Spaces.not_point (hw : Spaces w) : '.' ∉ w := by
  intro hmem
  have hspace := hw _ hmem
  revert hspace
  decide

/-! ## Evaluation -/

variable {t : Tree}

section Evaluation

variable {F : FloatingPoint}

theorem wrap_of_holds {type : IntegerType} (h : type.Holds n) : type.wrap n = n := by
  obtain ⟨hmin, hmax⟩ := h
  unfold IntegerType.wrap
  have hrange : (n - type.min) % type.values = n - type.min := by
    refine Int.emod_eq_of_lt (by omega) ?_
    have hvalues : type.max - type.min < type.values := by cases type <;> decide
    omega
  omega

/-- The types that intermediate results can have. -/
def Computed (type : IntegerType) : Prop := type = .int64 ∨ type = .int32 ∨ type = .uint8

theorem Tree.computed (t : Tree) : Computed t.type := by
  cases t with
  | literal => exact .inl rfl
  | operation =>
    unfold Tree.type
    split
    · split
      · exact .inl rfl
      · exact .inr (.inl rfl)
    · exact .inr (.inr rfl)

theorem common_computed {s t : IntegerType} (hs : Computed s) (ht : Computed t) :
    s.common t = if s = .int64 ∨ t = .int64 then .int64 else .int32 := by
  rcases hs with rfl | rfl | rfl <;> rcases ht with rfl | rfl | rfl <;> rfl

/-- Converting to the common type of two sides changes neither of them. -/
theorem common_holds {s t : IntegerType} (hs : Computed s) (ht : Computed t)
    (h : s.Holds n ∨ t.Holds n) : (s.common t).Holds n := by
  rw [common_computed hs ht]
  unfold IntegerType.Holds at h ⊢
  rcases hs with rfl | rfl | rfl <;> rcases ht with rfl | rfl | rfl <;>
    simp [IntegerType.min, IntegerType.max, IntegerType.values, IntegerType.signed,
      IntegerType.size] at h ⊢ <;> omega

theorem tmod_holds {type : IntegerType} {x y : Int} (hx : type.Holds x) :
    type.Holds (x.tmod y) := by
  obtain ⟨hmin, hmax⟩ := hx
  have hzero : type.min ≤ 0 ∧ 0 ≤ type.max := by cases type <;> decide
  have habs : (x.tmod y).natAbs ≤ x.natAbs := by
    rw [Int.natAbs_tmod]
    exact Nat.mod_le _ _
  obtain h | h := Int.le_total 0 x
  · have hnonneg := Int.tmod_nonneg y h
    exact ⟨by omega, by omega⟩
  · have hneg := Int.tmod_nonneg y (Int.neg_nonneg.mpr h)
    rw [Int.neg_tmod] at hneg
    exact ⟨by omega, by omega⟩

theorem result_of_holds {type : IntegerType} (hsigned : type.signed = true) (h : type.Holds n) :
    Number.result type n = .ok (.integer type n : Number F) := by
  rw [Number.result, if_pos hsigned, if_pos h]

/-- The evaluator computes an operator on integers that fit. -/
theorem eval_integers {s t : IntegerType} (hs : Computed s) (ht : Computed t) (op : Operator)
    {x y : Int} (hx : s.Holds x) (hy : t.Holds y) (hfits : op.Fits (s.common t) x y) :
    eval (.integer s x : Number F) op (.integer t y) =
      .ok (.integer (if op.arithmetic then s.common t else .uint8) (op.apply x y)) := by
  have hsigned : (s.common t).signed = true := by
    rw [common_computed hs ht]
    split <;> rfl
  have hx' := common_holds hs ht (.inl hx)
  have hwx := wrap_of_holds hx'
  have hwy := wrap_of_holds (common_holds hs ht (.inr hy))
  cases op with
  | plus | minus | mult =>
    simp only [eval, hwx, hwy, evalInteger, Operator.arithmetic, if_true, Operator.apply]
    exact result_of_holds hsigned hfits
  | div =>
    simp only [eval, hwx, hwy, evalInteger, Operator.arithmetic, if_true, Operator.apply]
    rw [if_neg hfits.1]
    exact result_of_holds hsigned hfits.2
  | mod =>
    simp only [eval, hwx, hwy, evalInteger, Operator.arithmetic, if_true, Operator.apply]
    rw [if_neg hfits.1, if_neg (fun h => h.2 hfits.2)]
    exact result_of_holds hsigned (tmod_holds hx')
  | equal | gt | lt =>
    simp [eval, hwx, hwy, evalInteger, Operator.arithmetic, Operator.apply, Number.bool]
  | and | or =>
    simp [eval, Number.isTrue, Operator.arithmetic, Operator.apply, Number.bool]

theorem Tree.type_operation (op : Operator) (a b : Tree) :
    (Tree.operation op a b).type = if op.arithmetic then a.type.common b.type else .uint8 := by
  rw [common_computed a.computed b.computed]
  rfl

theorem Operator.fits_common {a b : Tree}
    (h : op.Fits (Tree.operation op a b).type a.value b.value) :
    op.Fits (a.type.common b.type) a.value b.value := by
  rw [Tree.type_operation] at h
  cases op <;> exact h

theorem bool_holds (p : Prop) [Decidable p] : IntegerType.uint8.Holds (if p then 1 else 0) := by
  split <;> decide

/-- The value of a tree is in the range of its type. -/
theorem Tree.Fits.holds (h : t.Fits) : t.type.Holds t.value := by
  induction t with
  | literal => exact h
  | operation op a b iha =>
    obtain ⟨ha, hb, hop⟩ := h
    have hop' := Operator.fits_common hop
    have hmod := tmod_holds (y := b.value) (common_holds a.computed b.computed (.inl (iha ha)))
    rw [Tree.type_operation, Tree.value]
    cases op with
    | plus | minus | mult => exact hop'
    | div => exact hop'.2
    | mod => exact hmod
    | equal | gt | lt | and | or => exact bool_holds _

theorem int64_holds {type : IntegerType} (htype : Computed type) (h : type.Holds n) :
    IntegerType.int64.Holds n := by
  have hcommon := common_holds htype (.inl rfl : Computed .int64) (.inl h)
  rwa [common_computed htype (.inl rfl), if_pos (.inr rfl)] at hcommon

/-- The expression evaluates to the value of the tree, with the type of the tree. -/
structure Computes (ctx : Context F) (e : Expr) (t : Tree) : Prop where
  ref : e.toRef ctx = .ok (.number (.integer t.type t.value))
  long : e.toLong ctx = .ok t.value

variable {ctx : Context F}

theorem computes_literal (n : Int) : Computes ctx (.intLiteral n) (.literal n) := ⟨rfl, rfl⟩

/-- One more operand behind those of a tree. -/
theorem computes_operation {first e : Expr} {operands : Operands} {a b : Tree}
    (hfits : (Tree.operation op a b).Fits) (ha : Computes ctx (first.build operands) a)
    (hb : Computes ctx e b) :
    Computes ctx (first.build (operands.append (.cons op e .nil))) (.operation op a b) := by
  obtain ⟨hfa, hfb, hop⟩ := hfits
  have heval := eval_integers (F := F) a.computed b.computed op hfa.holds hfb.holds
    (Operator.fits_common hop)
  have href : (first.build (operands.append (.cons op e .nil))).toRef ctx =
      .ok (.number (.integer (Tree.operation op a b).type (Tree.operation op a b).value)) := by
    have hcombine : combine (.number (.integer a.type a.value)) op (e.toRef ctx) =
        .ok (.number (.integer (Tree.operation op a b).type (op.apply a.value b.value))) := by
      rw [hb.ref, Tree.type_operation]
      simp only [combine, Datum.checkScalar, Datum.asNumber, bind, Except.bind, heval]
      rfl
    have hfold : (first.toRef ctx).bind (operands.toRef ctx) =
        .ok (.number (.integer a.type a.value)) := by
      rw [← toRef_build]
      exact ha.ref
    have happend : (operands.append (.cons op e .nil)).toRef ctx =
        fun v => (operands.toRef ctx v).bind ((Operands.cons op e .nil).toRef ctx) :=
      funext (toRef_append operands _)
    rw [toRef_build, happend]
    cases hfirst : first.toRef ctx with
    | error => simp [hfirst, Except.bind] at hfold
    | ok v =>
      rw [hfirst] at hfold
      change (operands.toRef ctx v).bind _ = _
      change operands.toRef ctx v = _ at hfold
      rw [hfold]
      change (combine _ op (e.toRef ctx)).bind _ = _
      rw [hcombine]
      rfl
  refine ⟨href, ?_⟩
  have hlong (op : Operator) (e : Expr) (rest : Operands) :
      (first.build (.cons op e rest)).toLong ctx =
        ((first.build (.cons op e rest)).toRef ctx).bind Datum.toLong := rfl
  have hwrap := wrap_of_holds (int64_holds (Tree.computed _)
    (Tree.Fits.holds (t := .operation op a b) ⟨hfa, hfb, hop⟩))
  cases operands with
  | nil | cons =>
    rw [Operands.append] at href ⊢
    rw [hlong, href]
    exact congrArg Except.ok hwrap

end Evaluation

/-! ## Reading -/

section Texts

theorem spaces_append {r : Text} (hw : Spaces w) (hr : ∀ c, r.head? = some c → isSpace c = false) :
    (w ++ r).dropWhile isSpace = r := by
  rw [List.dropWhile_append_of_pos hw]
  cases r with
  | nil => rfl
  | cons c => rw [List.dropWhile_cons_of_neg (by simp [hr c rfl])]

/-- A printed text has no point and starts with a number or a parenthesis. -/
theorem Prints.shape (h : Prints level t s) :
    '.' ∉ s ∧ ∃ c s', s = c :: s' ∧ isSpace c = false := by
  induction h with
  | literal hu hw =>
    refine ⟨by simp only [List.mem_append, not_or]; exact ⟨hu.not_point, hw.not_point⟩, ?_⟩
    obtain ⟨c, u', rfl, hc⟩ := hu.first
    refine ⟨c, _, rfl, ?_⟩
    cases hspace : isSpace c with
    | false => rfl
    | true =>
      obtain ⟨hsign, hdelimiter⟩ := not_of_isSpace hspace
      rw [hsign, not_isDigit hdelimiter] at hc
      rcases hc with hc | hc <;> cases hc
  | paren hw _ hw' ih =>
    refine ⟨?_, '(', _, rfl, by decide⟩
    simp [hw.not_point, hw'.not_point, ih.1]
  | weaker _ _ ih => exact ih
  | @operation op _ _ _ _ _ _ hw _ iha ihb =>
    have hop : '.' ≠ op.char := by cases op <;> decide
    constructor
    · simp only [List.mem_append, List.mem_cons, not_or]
      exact ⟨⟨iha.1, hop, hw.not_point⟩, ihb.1⟩
    · obtain ⟨-, c, s', rfl, hc⟩ := iha
      exact ⟨c, _, rfl, hc⟩

/-- What can follow an operand of the given level in a printed text: nothing, a
closing parenthesis, or an operator that binds less. -/
structure Ends (level : Nat) (r : Text) : Prop where
  not_point : '.' ∉ r
  next : ∀ c, r.head? = some c → c = ')' ∨ ∃ op : Operator, c = op.char ∧ op.level < level

variable {r : Text}

theorem Ends.delimiter (h : Ends level r) {c : Char} (hc : r.head? = some c) :
    delimiter c = true ∧ isSpace c = false := by
  obtain rfl | ⟨op, rfl, -⟩ := h.next c hc
  · decide
  · cases op <;> decide

theorem Ends.opLevel_lt (h : Ends level r) (hlevel : 1 ≤ level) : opLevel r.head? < level := by
  cases hhead : r.head? with
  | none => exact hlevel
  | some c =>
    obtain rfl | ⟨op, rfl, hop⟩ := h.next c hhead
    · exact hlevel
    · rwa [opLevel_char]

theorem ends_operator {t : Text} (hpoint : '.' ∉ t) : Ends (op.level + 1) (op.char :: t) := by
  refine ⟨?_, ?_⟩
  · have hop : '.' ≠ op.char := by cases op <;> decide
    simp only [List.mem_cons, not_or]
    exact ⟨hop, hpoint⟩
  · intro c hc
    cases hc
    exact .inr ⟨op, rfl, Nat.lt_succ_self _⟩

/-- A literal is read as a number, up to the white space after it. -/
theorem reads_literal {u : Text} (hu : IntegerText u) (hw : Spaces w)
    (hn : IntegerType.int64.Holds (integerValue u)) (hr : Ends level r) :
    TermReads (u ++ w ++ r) (.intLiteral (integerValue u)) r := by
  have hdelimited : Delimited (w ++ r) := by
    intro c hc
    cases w with
    | nil => exact (hr.delimiter hc).1
    | cons =>
      obtain rfl := Option.some.inj hc
      exact (not_of_isSpace (hw _ List.mem_cons_self)).2
  have hpoint : '.' ∉ u ++ w ++ r := by
    simp only [List.mem_append, not_or]
    exact ⟨⟨hu.not_point, hw.not_point⟩, hr.not_point⟩
  have hstrtol := strtol_of_text (w := []) (by simp) hu hdelimited
  rw [List.nil_append, ← List.append_assoc] at hstrtol
  have hnumber : NumberReads (u ++ w ++ r) (.intLiteral (integerValue u)) r := by
    unfold NumberReads
    rw [if_neg hpoint, parseInt_ok]
    refine ⟨_, _, hstrtol, hn.1, hn.2, ?_, rfl⟩
    exact (spaces_append hw fun c hc => (hr.delimiter hc).2).symm
  refine (termReads_number ?_ ?_).mpr hnumber
  all_goals
    obtain ⟨c, u', rfl, hc⟩ := hu.first
    intro heq
    obtain rfl := Option.some.inj heq
    revert hc
    decide

theorem reads_paren {w' : Text} {e : Expr} (hw : Spaces w) (hw' : Spaces w')
    (hfirst : ∃ c s', s = c :: s' ∧ isSpace c = false) (hr : Ends level r)
    (h : Reads 1 (s ++ ')' :: (w' ++ r)) e (')' :: (w' ++ r))) :
    TermReads ('(' :: w ++ s ++ ')' :: w' ++ r) e r := by
  have htext : '(' :: w ++ s ++ ')' :: w' ++ r = '(' :: (w ++ (s ++ ')' :: (w' ++ r))) := by
    simp
  rw [htext, termReads_paren]
  refine ⟨w' ++ r, ?_, (spaces_append hw' fun c hc => (hr.delimiter hc).2).symm⟩
  rw [spaces_append hw]
  · exact h
  · obtain ⟨c, s', rfl, hc⟩ := hfirst
    intro c' hc'
    cases hc'
    exact hc

end Texts

/-! ## Printed texts are read back -/

section Printed

variable {F : FloatingPoint} (ctx : Context F)

/-- A text of a tree is read where an operand of the level is expected. -/
def Operand (level : Nat) (t : Tree) (s : Text) : Prop :=
  ∃ e, Computes ctx e t ∧ ∀ r, Ends level r → Reads level (s ++ r) e r

/-- A text of a tree is read as the first operands of a level, with more to come. -/
def Spine (level : Nat) (t : Tree) (s : Text) : Prop :=
  ∃ first operands, Computes ctx (first.build operands) t ∧
    ∀ r more r', Ends (level + 1) r → OperandsRead level r more r' →
      ∃ r₁, Reads (level + 1) (s ++ r) first r₁ ∧ OperandsRead level r₁ (operands.append more) r'

variable {ctx}

theorem append_nil (operands : Operands) : operands.append .nil = operands := by
  match operands with
  | .nil => rfl
  | .cons op e rest => rw [Operands.append, append_nil rest]

theorem Operands.append_assoc (a b c : Operands) :
    (a.append b).append c = a.append (b.append c) := by
  match a with
  | .nil => rfl
  | .cons op e rest =>
    simp only [Operands.append]
    rw [Operands.append_assoc rest b c]

/-- A spine that nothing is added to is an operand. -/
theorem Spine.operand (hlevel : 1 ≤ level) (h7 : level < 7) (h : Spine ctx level t s) :
    Operand ctx level t s := by
  obtain ⟨first, operands, hcomputes, hspine⟩ := h
  refine ⟨first.build operands, hcomputes, ?_⟩
  intro r hr
  have hstop : OperandsRead level r .nil r :=
    operandsRead_iff.mpr (.inl ⟨(hr.opLevel_lt hlevel).ne, rfl, rfl⟩)
  have hr' : Ends (level + 1) r :=
    ⟨hr.not_point, fun c hc => (hr.next c hc).imp id fun ⟨op, hop, hlt⟩ => ⟨op, hop, by omega⟩⟩
  obtain ⟨r₁, hfirst, hoperands⟩ := hspine r .nil r hr' hstop
  rw [append_nil] at hoperands
  exact (reads_level (by omega)).mpr ⟨first, r₁, operands, hfirst, hoperands, rfl⟩

theorem Operand.spine (h : Operand ctx (level + 1) t s) : Spine ctx level t s := by
  obtain ⟨e, hcomputes, hreads⟩ := h
  refine ⟨e, .nil, hcomputes, ?_⟩
  intro r more r' hr hmore
  exact ⟨r, hreads r hr, hmore⟩

theorem Spine.operation {op : Operator} {a b : Tree} {s s' w : Text}
    (hfits : (Tree.operation op a b).Fits) (ha : Spine ctx op.level a s) (hw : Spaces w)
    (hb : Operand ctx (op.level + 1) b s') (hpoint : '.' ∉ w ++ s')
    (hfirst : ∃ c s'', s' = c :: s'' ∧ isSpace c = false) :
    Spine ctx op.level (.operation op a b) (s ++ op.char :: w ++ s') := by
  obtain ⟨first, operands, hcomputes, hspine⟩ := ha
  obtain ⟨e, he, hreads⟩ := hb
  refine ⟨first, operands.append (.cons op e .nil), computes_operation hfits hcomputes he, ?_⟩
  intro r more r' hr hmore
  have htext : s ++ op.char :: w ++ s' ++ r = s ++ op.char :: (w ++ (s' ++ r)) := by simp
  have hends : Ends (op.level + 1) (op.char :: (w ++ (s' ++ r))) := by
    refine ends_operator ?_
    rw [← List.append_assoc, List.mem_append, not_or]
    exact ⟨hpoint, hr.not_point⟩
  have hoperand : Reads (op.level + 1) ((w ++ (s' ++ r)).dropWhile isSpace) e r := by
    rw [spaces_append hw]
    · exact hreads r hr
    · obtain ⟨c, s'', rfl, hc⟩ := hfirst
      intro c' hc'
      cases hc'
      exact hc
  have hcons : OperandsRead op.level (op.char :: (w ++ (s' ++ r))) (.cons op e more) r' :=
    operandsRead_iff.mpr (.inr ⟨op, _, e, r, more, rfl, rfl, hoperand, hmore, rfl⟩)
  rw [htext, Operands.append_assoc]
  exact hspine _ _ _ hends hcons

theorem Prints.level_bounds (h : Prints level t s) : 1 ≤ level ∧ level ≤ 7 := by
  induction h with
  | literal | paren => decide
  | weaker => omega
  | @operation op => cases op <;> decide

/-- By induction on how the text is printed. At each level below the last the text
is a spine, which is what the left operand of an operator has to be. -/
theorem Prints.read (h : Prints level t s) (hfits : t.Fits) :
    Operand ctx level t s ∧ (level < 7 → Spine ctx level t s) := by
  induction h with
  | @literal u w hu hw =>
    refine ⟨⟨_, computes_literal _, fun r hr => ?_⟩, fun h => absurd h (by decide)⟩
    exact reads_seven.mpr (reads_literal hu hw hfits hr)
  | @paren a s w w' hw h hw' ih =>
    obtain ⟨⟨e, he, hreads⟩, -⟩ := ih hfits
    refine ⟨⟨e, he, fun r hr => ?_⟩, fun h => absurd h (by decide)⟩
    refine reads_seven.mpr (reads_paren hw hw' h.shape.2 hr (hreads _ ?_))
    refine ⟨?_, fun c hc => .inl (Option.some.inj hc).symm⟩
    simp only [List.mem_cons, List.mem_append, not_or]
    exact ⟨by decide, hw'.not_point, hr.not_point⟩
  | @weaker level a s hlevel h ih =>
    have hspine := (ih hfits).1.spine
    have h7 : level < 7 := by
      have := h.level_bounds
      omega
    exact ⟨hspine.operand hlevel h7, fun _ => hspine⟩
  | @operation op a b s s' w ha hw hb iha ihb =>
    have hlevel : 1 ≤ op.level ∧ op.level < 7 := by cases op <;> decide
    have hpoint : '.' ∉ w ++ s' := by
      rw [List.mem_append, not_or]
      exact ⟨hw.not_point, hb.shape.1⟩
    have hspine := Spine.operation hfits ((iha hfits.1).2 hlevel.2) hw (ihb hfits.2.1).1 hpoint
      hb.shape.2
    exact ⟨hspine.operand hlevel.1 hlevel.2, fun _ => hspine⟩

end Printed

/-- Parsing any printed text of a tree and evaluating the result gives the value of
the tree. -/
theorem parse_printed_value {F : FloatingPoint} (ctx : Context F) (t : Tree) (w s : Text)
    (hw : Spaces w) (hs : Prints 1 t s) (hfits : t.Fits) :
    ∃ e, parseText (w ++ s) = some e ∧ e.toLong ctx = .ok t.value := by
  obtain ⟨⟨e, he, hreads⟩, -⟩ : Operand ctx 1 t s ∧ _ := hs.read hfits
  refine ⟨e, parseText_eq_some.mpr ⟨[], ?_, rfl⟩, he.long⟩
  have hempty : Ends 1 [] := ⟨by simp, by simp⟩
  have hdrop : (w ++ s).dropWhile isSpace = s := by
    refine spaces_append hw ?_
    obtain ⟨c, s', rfl, hc⟩ := hs.shape.2
    intro c' hc'
    cases hc'
    exact hc
  rw [hdrop]
  simpa using hreads [] hempty

/-- A platform without floating-point numbers. -/
def noFloats : FloatingPoint where
  Value _ := Unit
  ofText _ := ()
  ofInt _ _ := ()
  widen _ := ()
  add _ _ _ := ()
  sub _ _ _ := ()
  mul _ _ _ := ()
  div _ _ _ := ()
  eq _ _ _ := true
  lt _ _ _ := false
  zero _ _ := true
  toLong _ _ := none

def noData : Context noFloats where
  Reference := Empty
  desc name := .error (valueError ("no data " ++ String.ofList name))
  index ref _ := nomatch ref
  member ref _ := nomatch ref
  datum ref := nomatch ref

/-- A comparison of a number with the sum of a truth value and a number. -/
theorem parse_printed_value_mixed :
    ∃ e, parseText " 2 > (1 =1)+ 0x1".toList = some e ∧ e.toLong noData = .ok 0 := by
  have hspace : Spaces [' '] := by
    intro c hc
    rw [List.mem_singleton.mp hc]
    rfl
  have hnone : Spaces [] := by simp [Spaces]
  have h₁ : IntegerText ['1'] := ⟨.decimal, rfl, rfl⟩
  have h₂ : IntegerText ['2'] := ⟨.decimal, rfl, rfl⟩
  have hx : IntegerText "0x1".toList := ⟨.hex, rfl, rfl⟩
  have hequal : Prints 3 (.operation .equal (.literal 1) (.literal 1)) "1 =1".toList :=
    @Prints.operation .equal _ _ _ _ []
      (.weaker (by decide) (.weaker (by decide) (.weaker (by decide) (.weaker (by decide)
        (.literal h₁ hspace))))) hnone
      (.weaker (by decide) (.weaker (by decide) (.weaker (by decide) (.literal h₁ hnone))))
  have hparen : Prints 7 (.operation .equal (.literal 1) (.literal 1)) "(1 =1)".toList :=
    @Prints.paren _ _ [] [] hnone (.weaker (by decide) (.weaker (by decide) hequal)) hnone
  have hsum : Prints 5 (.operation .plus (.operation .equal (.literal 1) (.literal 1))
      (.literal 1)) "(1 =1)+ 0x1".toList :=
    @Prints.operation .plus _ _ _ _ _ (.weaker (by decide) (.weaker (by decide) hparen)) hspace
      (.weaker (by decide) (.literal hx hnone))
  have htext : Prints 1 (.operation .gt (.literal 2) (.operation .plus
      (.operation .equal (.literal 1) (.literal 1)) (.literal 1))) "2 > (1 =1)+ 0x1".toList :=
    .weaker (by decide) (.weaker (by decide) (.weaker (by decide)
      (@Prints.operation .gt _ _ _ _ _
        (.weaker (by decide) (.weaker (by decide) (.weaker (by decide) (.literal h₂ hspace))))
        hspace hsum)))
  refine parse_printed_value noData _ [' '] _ hspace htext ?_
  simp only [Tree.Fits, Operator.Fits, and_true]
  decide

/-- The least `long` has a remainder by -1, but no quotient, and C++ leaves the remainder
undefined. -/
theorem remainder_of_least_undefined :
    let t : Tree := .operation .mod (.literal (-2 ^ 63)) (.literal (-1))
    Prints 1 t "-9223372036854775808%-1".toList ∧
      IntegerType.int64.Holds (-2 ^ 63) ∧ IntegerType.int64.Holds t.value ∧
      ∃ e, parseText "-9223372036854775808%-1".toList = some e ∧
        e.toLong noData = .error overflow := by
  have hnone : Spaces [] := by simp [Spaces]
  have hleast : IntegerText "-9223372036854775808".toList := ⟨.decimal, rfl, rfl⟩
  have hone : IntegerText "-1".toList := ⟨.decimal, rfl, rfl⟩
  have hmod : Prints 6 (.operation .mod (.literal (-2 ^ 63)) (.literal (-1)))
      "-9223372036854775808%-1".toList :=
    @Prints.operation .mod _ _ _ _ [] (.weaker (by decide) (.literal hleast hnone)) hnone
      (.literal hone hnone)
  refine ⟨?_, by decide, by decide, _, rfl, rfl⟩
  exact .weaker (by decide) (.weaker (by decide) (.weaker (by decide) (.weaker (by decide)
    (.weaker (by decide) hmod))))

end Pdi.Expression
