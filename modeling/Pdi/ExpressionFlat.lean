import Pdi.ExpressionReads

/-!
# Operations as flat sequences

Which terms an operation is made of does not depend on the levels of its
operators: an operation at a level is a term followed by terms behind operators of
that level or a higher one. The literals of what is read are those of the terms, in
their order.
-/
namespace Pdi.Expression

open Pdi.Cursor Pdi.NumberText Pdi.Datatypes

inductive Literal where
  | integer (value : Int)
  | floating (text : Text)
  deriving DecidableEq, Repr

mutual
/-- The literals of an expression as they stand in its text. -/
def Expr.literals : Expr → List Literal
  | .intLiteral value => [.integer value]
  | .floatLiteral text => [.floating text]
  | .reference _ _ subelements => subelements.literals
  | .operation first operands => first.literals ++ operands.literals

def Operands.literals : Operands → List Literal
  | .nil => []
  | .cons _ operand rest => operand.literals ++ rest.literals

def Accessors.literals : Accessors → List Literal
  | .nil => []
  | .index expression rest => expression.literals ++ rest.literals
  | .member _ rest => rest.literals
end

theorem literals_build (first : Expr) (operands : Operands) :
    (first.build operands).literals = first.literals ++ operands.literals := by
  cases operands with
  | nil => simp [Expr.build, Operands.literals]
  | cons => rw [Expr.build, Expr.literals]

/-! ## The cursor of what is read -/

section Cursor

variable {level : Nat} {t r r' : Text} {e e' : Expr}

theorem Reads.ahead (h : Reads level t e r) (hlevel : level ≤ 7) : Ahead t r := by
  have hsafe := (bounded (fuelFor t)).operation t level hlevel (by unfold fuelFor; omega)
  unfold Safe wp at hsafe
  rwa [h.run hlevel (le_refl _)] at hsafe

theorem TermReads.ahead (h : TermReads t e r) : Ahead t r := (reads_seven.mpr h).ahead (by decide)

/-- There is only one way to read a text. -/
theorem Reads.unique (h : Reads level t e r) (h' : Reads level t e' r') (hlevel : level ≤ 7) :
    e = e' ∧ r = r' := by
  have hrun := h.run hlevel (le_refl _)
  rw [h'.run hlevel (le_refl _)] at hrun
  cases hrun
  exact ⟨rfl, rfl⟩

end Cursor

/-! ## Flat reading -/

/-- Terms behind operators of a level or a higher one, up to an operator of a
lower level or something that is no operator. -/
inductive Tail (level : Nat) : Text → List Literal → Text → Prop where
  | stop {t : Text} (h : opLevel t.head? < level) : Tail level t [] t
  | more {op : Operator} {t r₁ r : Text} {e : Expr} {ls : List Literal} (hlevel : level ≤ op.level)
    (hterm : TermReads (t.dropWhile isSpace) e r₁) (hrest : Tail level r₁ ls r) :
    Tail level (op.char :: t) (e.literals ++ ls) r

def Flat (level : Nat) (t : Text) (ls : List Literal) (r : Text) : Prop :=
  ∃ e r₁ ls', TermReads t e r₁ ∧ Tail level r₁ ls' r ∧ ls = e.literals ++ ls'

section Tail

variable {level : Nat} {t r r' : Text} {ls ls' : List Literal}

theorem opLevel_le (c : Option Char) : opLevel c ≤ 6 := by
  unfold opLevel
  split
  · next op _ => cases op <;> decide
  · decide

theorem Tail.ends (h : Tail level t ls r) : opLevel r.head? < level := by
  induction h with
  | stop h => exact h
  | more _ _ _ ih => exact ih

theorem Tail.append (h : Tail (level + 1) t ls r) (h' : Tail level r ls' r') :
    Tail level t (ls ++ ls') r' := by
  induction h with
  | stop => exact h'
  | more hlevel hterm _ ih =>
    rw [List.append_assoc]
    exact .more (by omega) hterm (ih h')

/-- Levels below 7 that are flat at the next level. -/
def FlatAt (level : Nat) : Prop :=
  ∀ t ls r, (∃ e, Reads level t e r ∧ e.literals = ls) ↔ Flat level t ls r

theorem flatAt_seven : FlatAt 7 := by
  intro t ls r
  have hstop (r : Text) : opLevel r.head? < 7 := Nat.lt_succ_of_le (opLevel_le _)
  constructor
  · rintro ⟨e, he, rfl⟩
    exact ⟨e, r, [], reads_seven.mp he, .stop (hstop r), (List.append_nil _).symm⟩
  · rintro ⟨e, r₁, ls', he, htail, rfl⟩
    cases htail with
    | stop => exact ⟨e, reads_seven.mpr he, (List.append_nil _).symm⟩
    | @more op _ _ _ _ _ hlevel _ _ =>
      cases op <;> exact absurd hlevel (by decide)

/-- The operators of one level, with the terms between them. -/
theorem tail_of_operands (hflat : FlatAt (level + 1)) {t r : Text} {operands : Operands}
    (h : OperandsRead level t operands r) (hlevel : opLevel t.head? ≤ level) :
    Tail level t operands.literals r := by
  match operands with
  | .nil =>
    obtain ⟨hne, -, rfl⟩ | ⟨_, _, _, _, _, _, _, _, _, heq⟩ := operandsRead_iff.mp h
    · exact .stop (by omega)
    · cases heq
  | .cons op operand rest =>
    have ih {t : Text} (hrest : OperandsRead level t rest r) (ht : opLevel t.head? ≤ level) :=
      tail_of_operands hflat hrest ht
    obtain ⟨-, heq, -⟩ | ⟨_, t', _, r₁, _, rfl, hop, hoperand, hrest, heq⟩ := operandsRead_iff.mp h
    · cases heq
    · cases heq
      obtain ⟨e, r₀, ls', he, htail, hliterals⟩ := (hflat _ _ _).mp ⟨_, hoperand, rfl⟩
      have hrest' := ih hrest (Nat.le_of_lt_succ htail.ends)
      rw [Operands.literals, hliterals, List.append_assoc]
      exact .more hop.ge he (htail.append hrest')

theorem Tail.operands (hflat : FlatAt (level + 1)) (h : Tail level t ls r) :
    ∃ ls₁ r₁ operands, Tail (level + 1) t ls₁ r₁ ∧ OperandsRead level r₁ operands r ∧
      ls = ls₁ ++ operands.literals := by
  induction h with
  | @stop t h =>
    exact ⟨[], t, .nil, .stop (by omega), operandsRead_iff.mpr (.inl ⟨h.ne, rfl, rfl⟩), rfl⟩
  | @more op t r₁ r e ls hlevel hterm hrest ih =>
    obtain ⟨ls₁, r₂, operands, htail, hoperands, rfl⟩ := ih
    rcases Nat.lt_or_eq_of_le hlevel with hlt | heq
    · exact ⟨e.literals ++ ls₁, r₂, operands, .more hlt hterm htail, hoperands,
        (List.append_assoc ..).symm⟩
    · -- the operator is of this very level: what follows it is one operand of the next
      obtain ⟨e', he', hliterals⟩ := (hflat _ _ _).mpr ⟨e, r₁, ls₁, hterm, htail, rfl⟩
      refine ⟨[], op.char :: t, .cons op e' operands, .stop ?_, ?_, ?_⟩
      · rw [List.head?_cons, opLevel_char]
        omega
      · exact operandsRead_iff.mpr
          (.inr ⟨op, t, e', r₂, operands, rfl, heq.symm, he', hoperands, rfl⟩)
      · rw [Operands.literals, hliterals, List.nil_append, List.append_assoc]

theorem flatAt_level (hlevel : level ≠ 7) (hflat : FlatAt (level + 1)) : FlatAt level := by
  intro t ls r
  constructor
  · rintro ⟨e, he, rfl⟩
    obtain ⟨first, r₁, operands, hfirst, hoperands, rfl⟩ := (reads_level hlevel).mp he
    obtain ⟨e₀, r₀, ls', he₀, htail, hliterals⟩ := (hflat _ _ _).mp ⟨_, hfirst, rfl⟩
    refine ⟨e₀, r₀, ls' ++ operands.literals, he₀, ?_, ?_⟩
    · exact htail.append (tail_of_operands hflat hoperands (Nat.le_of_lt_succ htail.ends))
    · rw [literals_build, hliterals, List.append_assoc]
  · rintro ⟨e₀, r₀, ls', he₀, htail, rfl⟩
    obtain ⟨ls₁, r₁, operands, htail₁, hoperands, rfl⟩ := htail.operands hflat
    obtain ⟨first, hfirst, hliterals⟩ := (hflat _ _ _).mpr ⟨e₀, r₀, ls₁, he₀, htail₁, rfl⟩
    refine ⟨first.build operands, ?_, ?_⟩
    · exact (reads_level hlevel).mpr ⟨first, r₁, operands, hfirst, hoperands, rfl⟩
    · rw [literals_build, hliterals, List.append_assoc]

/-- What is read at a level is a flat sequence of terms. -/
theorem reads_iff_flat (hlevel : level ≤ 7) : FlatAt level := by
  induction hlevel using Nat.decreasingInduction with
  | self => exact flatAt_seven
  | of_succ k hk ih => exact flatAt_level hk.ne ih

end Tail

end Pdi.Expression
