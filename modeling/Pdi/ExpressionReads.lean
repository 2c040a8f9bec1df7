import Pdi.ExpressionCursor

/-!
# What the parser reads

The parsing functions without their fuel: a relation for each of them, between the
text it starts on, the value it returns and the text it leaves. More fuel does not
change a result, so each relation satisfies the equation of its function.
-/
namespace Pdi.Expression

open Pdi.Cursor Pdi.NumberText Pdi.Datatypes

/-! ## More fuel -/

variable {e : Expr} {operands : Operands} {accessors : Accessors} {op : Operator} {curly : Bool}

/-- No result of the source: the cursor has left the text, or fuel has run out. -/
def Lost (e : Failure) : Prop := ∃ what, e = .undefined what

/-- One more unit of fuel changes no result. -/
structure Grows (fuel : Nat) : Prop where
  operation : ∀ level, Refines Lost (parseOperation fuel level) (parseOperation (fuel + 1) level)
  operands : ∀ level, Refines Lost (parseOperands fuel level) (parseOperands (fuel + 1) level)
  term : Refines Lost (parseTerm fuel) (parseTerm (fuel + 1))
  reference : Refines Lost (parseReference fuel) (parseReference (fuel + 1))
  accessors : Refines Lost (parseAccessors fuel) (parseAccessors (fuel + 1))

theorem grows (fuel : Nat) : Grows fuel := by
  induction fuel with
  | zero =>
    have hlost : Lost noEnd := ⟨_, rfl⟩
    constructor
    · intro level
      rw [parseOperation]
      exact refines_fail hlost _
    · intro level
      rw [parseOperands]
      exact refines_fail hlost _
    · rw [parseTerm]
      exact refines_fail hlost _
    · rw [parseReference]
      exact refines_fail hlost _
    · rw [parseAccessors]
      exact refines_fail hlost _
  | succ fuel ih =>
    constructor
    · intro level
      rw [parseOperation.eq_2 level fuel, parseOperation.eq_2 level (fuel + 1)]
      split
      · exact ih.term
      · exact ((ih.operation _).bind fun _ => (ih.operands _).bind fun _ => .refl _).commit
    · intro level
      rw [parseOperands.eq_2 level fuel, parseOperands.eq_2 level (fuel + 1)]
      refine (Refines.refl _).bind fun c => ?_
      split
      · exact (Refines.refl _).bind fun _ => (ih.operation _).bind fun _ =>
          (ih.operands _).bind fun _ => .refl _
      · exact .refl _
    · rw [parseTerm.eq_2 fuel, parseTerm.eq_2 (fuel + 1)]
      refine (Refines.refl _).bind fun c => ?_
      split
      · exact ((Refines.refl _).bind fun _ => (Refines.refl _).bind fun _ =>
          (ih.operation _).bind fun _ => .refl _).commit
      · exact ih.reference
      · exact .refl _
    · rw [parseReference.eq_2 fuel, parseReference.eq_2 (fuel + 1)]
      exact ((Refines.refl _).bind fun _ => (Refines.refl _).bind fun _ =>
        (Refines.refl _).bind fun _ => (Refines.refl _).bind fun _ =>
        ih.accessors.bind fun _ => .refl _).commit
    · rw [parseAccessors.eq_2 fuel, parseAccessors.eq_2 (fuel + 1)]
      refine (Refines.refl _).bind fun c => ?_
      split
      · exact (Refines.refl _).bind fun _ => (Refines.refl _).bind fun _ =>
          (ih.operation _).bind fun _ => (Refines.refl _).bind fun _ =>
          (Refines.refl _).bind fun _ => ih.accessors.bind fun _ => .refl _
      · exact (Refines.refl _).bind fun _ => (Refines.refl _).bind fun _ =>
          (Refines.refl _).bind fun _ => (Refines.refl _).bind fun _ =>
          ih.accessors.bind fun _ => .refl _
      · exact .refl _

/-! ## The relations -/

def Reads (level : Nat) (t : Text) (e : Expr) (r : Text) : Prop :=
  ∃ fuel, (parseOperation fuel level).run t = (r, .ok e)

def OperandsRead (level : Nat) (t : Text) (operands : Operands) (r : Text) : Prop :=
  ∃ fuel, (parseOperands fuel level).run t = (r, .ok operands)

def TermReads (t : Text) (e : Expr) (r : Text) : Prop :=
  ∃ fuel, (parseTerm fuel).run t = (r, .ok e)

def ReferenceReads (t : Text) (e : Expr) (r : Text) : Prop :=
  ∃ fuel, (parseReference fuel).run t = (r, .ok e)

def AccessorsRead (t : Text) (accessors : Accessors) (r : Text) : Prop :=
  ∃ fuel, (parseAccessors fuel).run t = (r, .ok accessors)

section Fuel

variable {level m n : Nat} {t r : Text}

theorem operation_le (h : m ≤ n) (he : (parseOperation m level).run t = (r, .ok e)) :
    (parseOperation n level).run t = (r, .ok e) :=
  (Refines.rising (fun n => (grows n).operation level) h).ok he

theorem operands_le (h : m ≤ n) (he : (parseOperands m level).run t = (r, .ok operands)) :
    (parseOperands n level).run t = (r, .ok operands) :=
  (Refines.rising (fun n => (grows n).operands level) h).ok he

theorem accessors_le (h : m ≤ n) (he : (parseAccessors m).run t = (r, .ok accessors)) :
    (parseAccessors n).run t = (r, .ok accessors) :=
  (Refines.rising (fun n => (grows n).accessors) h).ok he

/-- What is read at all is read with the fuel that is enough for the text. -/
theorem Reads.run (h : Reads level t e r) (hlevel : level ≤ 7) (hn : fuelFor t ≤ n) :
    (parseOperation n level).run t = (r, .ok e) := by
  obtain ⟨m, hm⟩ := h
  have hsafe := (bounded n).operation t level hlevel (by unfold fuelFor at hn; omega)
  have hmax := operation_le (le_max_left m n) hm
  have hrising := Refines.rising (fun n => (grows n).operation level) (le_max_right m n) t
  unfold Safe wp at hsafe
  unfold wp at hrising
  generalize hrun : (parseOperation n level).run t = result at hsafe hrising ⊢
  obtain ⟨r', e' | e'⟩ := result
  · obtain ⟨-, message, rfl⟩ := hsafe
    obtain ⟨what, hwhat⟩ | heq := hrising
    · cases hwhat
    · rw [hmax] at heq
      cases heq
  · dsimp only at hrising
    rw [hmax] at hrising
    cases hrising
    rfl

end Fuel

/-! ## Single calls -/

variable {level : Nat} {t r : Text}

section Steps

variable {α : Type} {f : Option Char → Parser Failure α} {g : Unit → Parser Failure α}

theorem run_peek_bind : (peek >>= f).run t = (f t.head?).run t := rfl

theorem run_remaining_bind {f : Text → Parser Failure α} : (remaining >>= f).run t = (f t).run t :=
  rfl

theorem run_moveTo_bind {t' : Text} : (moveTo t' >>= g).run t = (g ()).run t' := rfl

theorem run_advance_bind {c : Char} : (advance pastEnd >>= g).run (c :: t) = (g ()).run t := rfl

theorem run_skipSpaces_bind : (skipSpaces >>= g).run t = (g ()).run (t.dropWhile isSpace) := rfl

end Steps

theorem run_pure_ok {α : Type} {a b : α} :
    (pure a : Parser Failure α).run t = (r, .ok b) ↔ r = t ∧ b = a := by
  simp [eq_comm]

theorem expect_ok {c : Char} {complaint : String → String} {a : Unit} :
    (expect c complaint).run t = (r, .ok a) ↔ t = c :: r := by
  rw [expect, run_peek_bind]
  constructor
  · intro h
    split at h
    · next hc =>
      obtain ⟨t', rfl⟩ := List.head?_eq_some_iff.mp hc
      cases h
      rfl
    · cases h
  · rintro rfl
    simp

theorem operatorAt_eq_some {c : Option Char} : operatorAt c = some op ↔ c = some op.char := by
  constructor
  · intro h
    unfold operatorAt at h
    split at h <;> cases h <;> rfl
  · rintro rfl
    cases op <;> rfl

theorem opLevel_char (op : Operator) : opLevel (some op.char) = op.level := by
  cases op <;> rfl

theorem parseOperator_ok :
    (parseOperator level).run t = (r, .ok op) ↔
      ∃ t', t = op.char :: t' ∧ op.level = level ∧ r = t'.dropWhile isSpace := by
  simp only [parseOperator, commit_eq_ok, run_peek_bind]
  constructor
  · intro h
    split at h
    · cases h
    · next op' hop =>
      split at h
      · cases h
      · next hlevel =>
        obtain ⟨t', rfl⟩ := List.head?_eq_some_iff.mp (operatorAt_eq_some.mp hop)
        cases h
        exact ⟨t', rfl, by simpa using hlevel, rfl⟩
  · rintro ⟨t', rfl, hlevel, rfl⟩
    rw [List.head?_cons, operatorAt_eq_some.mpr rfl]
    simp [hlevel, run_advance_bind, run_skipSpaces_bind]

theorem parseInt_ok :
    parseInt.run t = (r, .ok e) ↔
      ∃ n rest, strtol t = some (n, rest) ∧ longMin ≤ n ∧ n ≤ longMax ∧
        r = rest.dropWhile isSpace ∧ e = .intLiteral n := by
  simp only [parseInt, commit_eq_ok, run_remaining_bind]
  constructor
  · intro h
    split at h
    · cases h
    · next n rest hn =>
      split at h
      · cases h
      · next hrange =>
        cases h
        exact ⟨n, rest, hn, by omega, by omega, rfl, rfl⟩
  · rintro ⟨n, rest, hn, hmin, hmax, rfl, rfl⟩
    have hrange : ¬ (n < longMin ∨ longMax < n) := by omega
    simp [hn, hrange, run_moveTo_bind, run_skipSpaces_bind]

theorem parseFloat_ok :
    parseFloat.run t = (r, .ok e) ↔
      ∃ u rest, strtod t = some (u, rest) ∧ r = rest.dropWhile isSpace ∧ e = .floatLiteral u := by
  simp only [parseFloat, commit_eq_ok, run_remaining_bind]
  constructor
  · intro h
    split at h
    · cases h
    · next u rest hu =>
      cases h
      exact ⟨u, rest, hu, rfl, rfl⟩
  · rintro ⟨u, rest, hu, rfl, rfl⟩
    simp [hu, run_moveTo_bind, run_skipSpaces_bind]

theorem parseId_ok {name : Text} :
    parseId.run t = (r, .ok name) ↔
      ∃ c rest, t = c :: rest ∧ idStart c = true ∧ r = rest.dropWhile idPart ∧
        name = c :: rest.takeWhile idPart := by
  simp only [parseId, commit_eq_ok, run_remaining_bind]
  constructor
  · intro h
    split at h
    · cases h
    · next c rest =>
      split at h
      · next hc =>
        cases h
        exact ⟨c, rest, rfl, hc, rfl, rfl⟩
      · cases h
  · rintro ⟨c, rest, rfl, hc, rfl, rfl⟩
    simp [hc, run_moveTo_bind]

theorem parseCurly_ok :
    parseCurly.run t = (r, .ok curly) ↔
      (∃ t', t = '\x7b' :: t' ∧ curly = true ∧ r = t'.dropWhile isSpace) ∨
        (t.head? ≠ some '\x7b' ∧ curly = false ∧ r = t) := by
  rw [parseCurly, run_peek_bind]
  by_cases hc : t.head? = some '\x7b'
  · obtain ⟨t', rfl⟩ := List.head?_eq_some_iff.mp hc
    simp [run_advance_bind, run_skipSpaces_bind, and_comm, eq_comm (a := r)]
  · have hne (t' : Text) : t ≠ '\x7b' :: t' := fun h => hc (by rw [h]; rfl)
    simp [hc, hne, and_comm, eq_comm (a := r)]

theorem parseFormat_ok {format : Text} :
    parseFormat.run t = (r, .ok format) ↔
      (t.head? = some ':' ∧ format = t.takeWhile (· != '\x7d') ∧ r = t.dropWhile (· != '\x7d')) ∨
        (t.head? ≠ some ':' ∧ format = [] ∧ r = t) := by
  rw [parseFormat, run_peek_bind]
  by_cases hc : t.head? = some ':'
  · simp only [if_pos hc, run_remaining_bind, run_moveTo_bind, run_pure_ok]
    simp [hc, and_comm]
  · simp [hc, and_comm, eq_comm (a := r)]

theorem closeCurly_ok :
    (closeCurly curly).run t = (r, .ok ()) ↔
      if curly then ∃ t', t = '\x7d' :: t' ∧ r = t'.dropWhile isSpace else r = t := by
  unfold closeCurly
  cases curly with
  | false => simp [eq_comm]
  | true => simp [bind_eq_ok, expect_ok, skipSpaces, eq_comm (a := r)]

/-! ## The equations

Each relation unfolds with one more unit of fuel than its parts, of which the larger fuel
is enough for both. -/

theorem reads_seven : Reads 7 t e r ↔ TermReads t e r := by
  rw [Reads, ← Nat.or_exists_add_one]
  simp [parseOperation, TermReads]

theorem reads_level (hlevel : level ≠ 7) :
    Reads level t e r ↔
      ∃ first r₁ operands, Reads (level + 1) t first r₁ ∧ OperandsRead level r₁ operands r ∧
        e = first.build operands := by
  rw [Reads, ← Nat.or_exists_add_one]
  simp only [parseOperation, run_fail, Prod.mk.injEq, reduceCtorEq, and_false, false_or,
    if_neg hlevel, commit_eq_ok, bind_eq_ok, run_pure_ok]
  constructor
  · rintro ⟨fuel, first, r₁, hfirst, operands, _, hoperands, rfl, rfl⟩
    exact ⟨first, r₁, operands, ⟨fuel, hfirst⟩, ⟨fuel, hoperands⟩, rfl⟩
  · rintro ⟨first, r₁, operands, ⟨m, hm⟩, ⟨n, hn⟩, rfl⟩
    exact ⟨max m n, first, r₁, operation_le (le_max_left m n) hm, operands, r,
      operands_le (le_max_right m n) hn, rfl, rfl⟩

theorem operandsRead_iff :
    OperandsRead level t operands r ↔
      (opLevel t.head? ≠ level ∧ operands = .nil ∧ r = t) ∨
      ∃ op t' operand r₁ rest, t = op.char :: t' ∧ op.level = level ∧
        Reads (level + 1) (t'.dropWhile isSpace) operand r₁ ∧ OperandsRead level r₁ rest r ∧
        operands = .cons op operand rest := by
  rw [OperandsRead, ← Nat.or_exists_add_one]
  simp only [parseOperands, run_fail, Prod.mk.injEq, reduceCtorEq, and_false, false_or,
    run_peek_bind]
  constructor
  · rintro ⟨fuel, h⟩
    split at h
    · simp only [bind_eq_ok, run_pure_ok, parseOperator_ok] at h
      obtain ⟨op, _, ⟨t', rfl, hlevel, rfl⟩, operand, r₁, hoperand, rest, _, hrest, rfl, rfl⟩ := h
      exact .inr ⟨op, t', operand, r₁, rest, rfl, hlevel, ⟨fuel, hoperand⟩, ⟨fuel, hrest⟩, rfl⟩
    · next hlevel =>
      cases h
      exact .inl ⟨hlevel, rfl, rfl⟩
  · rintro (⟨hlevel, rfl, rfl⟩ | ⟨op, t', operand, r₁, rest, rfl, hlevel, ⟨m, hm⟩, ⟨n, hn⟩, rfl⟩)
    · exact ⟨0, by rw [if_neg hlevel, run_pure]⟩
    · refine ⟨max m n, ?_⟩
      rw [List.head?_cons, opLevel_char, if_pos hlevel,
        bind_of_ok (parseOperator_ok.mpr ⟨t', rfl, hlevel, rfl⟩),
        bind_of_ok (operation_le (le_max_left m n) hm),
        bind_of_ok (operands_le (le_max_right m n) hn), run_pure]

/-- A number is floating when there is a point anywhere in what is left. -/
def NumberReads (t : Text) (e : Expr) (r : Text) : Prop :=
  if '.' ∈ t then parseFloat.run t = (r, .ok e) else parseInt.run t = (r, .ok e)

theorem termReads_paren :
    TermReads ('(' :: t) e r ↔
      ∃ r₁, Reads 1 (t.dropWhile isSpace) e (')' :: r₁) ∧ r = r₁.dropWhile isSpace := by
  rw [TermReads, ← Nat.or_exists_add_one]
  simp only [parseTerm, run_fail, Prod.mk.injEq, reduceCtorEq, and_false, false_or, run_peek_bind,
    List.head?_cons, commit_eq_ok, run_advance_bind, run_skipSpaces_bind, bind_eq_ok, expect_ok,
    run_pure_ok]
  constructor
  · rintro ⟨fuel, _, _, hresult, _, r₁, rfl, rfl, rfl⟩
    exact ⟨r₁, ⟨fuel, hresult⟩, rfl⟩
  · rintro ⟨r₁, ⟨m, hm⟩, rfl⟩
    exact ⟨m, e, _, hm, (), r₁, rfl, rfl, rfl⟩

theorem termReads_reference : TermReads ('$' :: t) e r ↔ ReferenceReads ('$' :: t) e r := by
  rw [TermReads, ← Nat.or_exists_add_one]
  simp [parseTerm, run_peek_bind, ReferenceReads]

theorem termReads_number (hparen : t.head? ≠ some '(') (hdollar : t.head? ≠ some '$') :
    TermReads t e r ↔ NumberReads t e r := by
  have hterm (fuel : Nat) : (parseTerm (fuel + 1)).run t =
      (if '.' ∈ t then parseFloat else parseInt).run t := by
    rw [parseTerm, run_peek_bind]
    split
    · next h => exact absurd h hparen
    · next h => exact absurd h hdollar
    · rw [run_remaining_bind]
  rw [TermReads, ← Nat.or_exists_add_one, NumberReads]
  simp only [hterm, exists_const]
  split <;> simp [parseTerm]

theorem referenceReads_iff :
    ReferenceReads t e r ↔
      ∃ t₁ curly t₂ name t₃ accessors t₄ format t₅, t = '$' :: t₁ ∧
        parseCurly.run t₁ = (t₂, .ok curly) ∧ parseId.run t₂ = (t₃, .ok name) ∧
        AccessorsRead (t₃.dropWhile isSpace) accessors t₄ ∧
        parseFormat.run t₄ = (t₅, .ok format) ∧ (closeCurly curly).run t₅ = (r, .ok ()) ∧
        e = .reference name format accessors := by
  rw [ReferenceReads, ← Nat.or_exists_add_one]
  simp only [parseReference, run_fail, Prod.mk.injEq, reduceCtorEq, and_false, false_or,
    commit_eq_ok, expect_ok, run_skipSpaces_bind, bind_eq_ok, run_pure_ok]
  constructor
  · rintro ⟨fuel, _, t₁, rfl, curly, t₂, hcurly, name, t₃, hname, accessors, t₄,
      haccessors, format, t₅,
      hformat, _, _, hclose, rfl, rfl⟩
    exact ⟨t₁, curly, t₂, name, t₃, accessors, t₄, format, t₅, rfl, hcurly, hname,
      ⟨fuel, haccessors⟩, hformat, hclose, rfl⟩
  · rintro ⟨t₁, curly, t₂, name, t₃, accessors, t₄, format, t₅, rfl, hcurly, hname, ⟨m, hm⟩,
      hformat, hclose, rfl⟩
    exact ⟨m, (), t₁, rfl, curly, t₂, hcurly, name, t₃, hname, accessors, t₄,
      hm, format, t₅, hformat,
      (), r, hclose, rfl, rfl⟩

theorem accessorsRead_index :
    AccessorsRead ('[' :: t) accessors r ↔
      ∃ e r₁ rest, Reads 1 (t.dropWhile isSpace) e (']' :: r₁) ∧
        AccessorsRead (r₁.dropWhile isSpace) rest r ∧ accessors = .index e rest := by
  rw [AccessorsRead, ← Nat.or_exists_add_one]
  simp only [parseAccessors, run_fail, Prod.mk.injEq, reduceCtorEq, and_false, false_or,
    run_peek_bind, List.head?_cons, run_advance_bind, run_skipSpaces_bind, bind_eq_ok,
    expect_ok, run_pure_ok]
  constructor
  · rintro ⟨fuel, e, _, he, _, r₁, rfl, rest, _, hrest, rfl, rfl⟩
    exact ⟨e, r₁, rest, ⟨fuel, he⟩, ⟨fuel, hrest⟩, rfl⟩
  · rintro ⟨e, r₁, rest, ⟨m, hm⟩, ⟨n, hn⟩, rfl⟩
    exact ⟨max m n, e, _, operation_le (le_max_left m n) hm, (), r₁, rfl, rest, r,
      accessors_le (le_max_right m n) hn, rfl, rfl⟩

theorem accessorsRead_member :
    AccessorsRead ('.' :: t) accessors r ↔
      ∃ name r₁ rest, parseId.run (t.dropWhile isSpace) = (r₁, .ok name) ∧
        AccessorsRead (r₁.dropWhile isSpace) rest r ∧ accessors = .member name rest := by
  rw [AccessorsRead, ← Nat.or_exists_add_one]
  simp only [parseAccessors, run_fail, Prod.mk.injEq, reduceCtorEq, and_false, false_or,
    run_peek_bind, List.head?_cons, run_advance_bind, run_skipSpaces_bind, bind_eq_ok, run_pure_ok]
  constructor
  · rintro ⟨fuel, name, r₁, hname, rest, _, hrest, rfl, rfl⟩
    exact ⟨name, r₁, rest, hname, ⟨fuel, hrest⟩, rfl⟩
  · rintro ⟨name, r₁, rest, hname, ⟨n, hn⟩, rfl⟩
    exact ⟨n, name, r₁, hname, rest, r, hn, rfl, rfl⟩

theorem accessorsRead_nil (hindex : t.head? ≠ some '[') (hmember : t.head? ≠ some '.') :
    AccessorsRead t accessors r ↔ accessors = .nil ∧ r = t := by
  have hrun (fuel : Nat) : (parseAccessors (fuel + 1)).run t = (t, .ok .nil) := by
    rw [parseAccessors, run_peek_bind]
    split
    · next h => exact absurd h hindex
    · next h => exact absurd h hmember
    · rfl
  rw [AccessorsRead, ← Nat.or_exists_add_one]
  simp only [hrun, exists_const]
  simp [parseAccessors, eq_comm, and_comm]

theorem accessorsRead_cases (h : AccessorsRead t accessors r) :
    (∃ t' e r₁ rest, t = '[' :: t' ∧ Reads 1 (t'.dropWhile isSpace) e (']' :: r₁) ∧
        AccessorsRead (r₁.dropWhile isSpace) rest r ∧ accessors = .index e rest) ∨
      (∃ t' name r₁ rest, t = '.' :: t' ∧ parseId.run (t'.dropWhile isSpace) = (r₁, .ok name) ∧
        AccessorsRead (r₁.dropWhile isSpace) rest r ∧ accessors = .member name rest) ∨
      (t.head? ≠ some '[' ∧ t.head? ≠ some '.' ∧ accessors = .nil ∧ r = t) := by
  by_cases hindex : t.head? = some '['
  · obtain ⟨t', rfl⟩ := List.head?_eq_some_iff.mp hindex
    obtain ⟨e, r₁, rest, h⟩ := accessorsRead_index.mp h
    exact .inl ⟨t', e, r₁, rest, rfl, h⟩
  · by_cases hmember : t.head? = some '.'
    · obtain ⟨t', rfl⟩ := List.head?_eq_some_iff.mp hmember
      obtain ⟨name, r₁, rest, h⟩ := accessorsRead_member.mp h
      exact .inr (.inl ⟨t', name, r₁, rest, rfl, h⟩)
    · exact .inr (.inr ⟨hindex, hmember, (accessorsRead_nil hindex hmember).mp h⟩)

theorem termReads_cases (h : TermReads t e r) :
    (∃ t' r₁, t = '(' :: t' ∧ Reads 1 (t'.dropWhile isSpace) e (')' :: r₁) ∧
        r = r₁.dropWhile isSpace) ∨
      (∃ t', t = '$' :: t' ∧ ReferenceReads t e r) ∨
      (t.head? ≠ some '(' ∧ t.head? ≠ some '$' ∧ NumberReads t e r) := by
  by_cases hparen : t.head? = some '('
  · obtain ⟨t', rfl⟩ := List.head?_eq_some_iff.mp hparen
    obtain ⟨r₁, h⟩ := termReads_paren.mp h
    exact .inl ⟨t', r₁, rfl, h⟩
  · by_cases hdollar : t.head? = some '$'
    · obtain ⟨t', rfl⟩ := List.head?_eq_some_iff.mp hdollar
      exact .inr (.inl ⟨t', rfl, termReads_reference.mp h⟩)
    · exact .inr (.inr ⟨hparen, hdollar, (termReads_number hparen hdollar).mp h⟩)

/-- A whole text is read as an operation with white space around it. -/
theorem parseText_eq_some :
    parseText t = some e ↔ ∃ r, Reads 1 (t.dropWhile isSpace) e r ∧ r.dropWhile isSpace = [] := by
  have hfuel : fuelFor (t.dropWhile isSpace) ≤ fuelFor t := by
    have hlength := (List.dropWhile_suffix isSpace (l := t)).length_le
    unfold fuelFor
    omega
  unfold parseText parseWhole
  constructor
  · intro h
    split at h
    · next e' hrun =>
      cases h
      simp only [bind_eq_ok, skipSpaces, run_skipWhile, run_pure, Prod.mk.injEq,
        Except.ok.injEq] at hrun
      obtain ⟨_, _, ⟨rfl, -⟩, result, r, hresult, _, _, ⟨hr, -⟩, rfl, rfl⟩ := hrun
      exact ⟨r, ⟨_, hresult⟩, hr⟩
    · cases h
  · rintro ⟨r, hreads, hr⟩
    have hrun := hreads.run (by decide) hfuel
    rw [skipSpaces, bind_of_ok (run_skipWhile _ _), bind_of_ok hrun,
      bind_of_ok (run_skipWhile _ _), hr]
    rfl

end Pdi.Expression
