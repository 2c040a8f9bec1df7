import Pdi.Expression

/-!
# Where the parser leaves the cursor

A parsing function that returns has moved the cursor forward and not past the end
of the text; one that throws leaves the caller's cursor where it was. Neither can
run out of fuel when it has ten units for each character that is left: between two
calls at the same level a character is consumed, and a level costs one unit.
-/
namespace Pdi.Expression

open Pdi.Cursor Pdi.NumberText Pdi.Datatypes

variable {t r r' : Text}

/-- The cursor is at a later place of the same text, which has not ended before. -/
def Ahead (t r : Text) : Prop := r <:+ t ∧ r.length < t.length

/-- An error of the library, as opposed to behaviour that is not defined. -/
def IsValueError (e : Failure) : Prop := ∃ message, e = valueError message

/-- The function returns with the cursor ahead, or throws with the cursor unmoved. -/
def Safe {α : Type} (p : Parser Failure α) (t : Text) : Prop :=
  wp p t (fun _ r => Ahead t r) (fun e r => r = t ∧ IsValueError e)

/-- A function that works on a copy only has to move the copy. -/
theorem safe_commit {α : Type} {p : Parser Failure α} :
    Safe (commit p) t ↔ wp p t (fun _ r => Ahead t r) (fun e _ => IsValueError e) := by
  unfold Safe
  simp only [wp_commit, true_and]

theorem isValueError (message : String) : IsValueError (valueError message) := ⟨message, rfl⟩

theorem ahead_cons (c : Char) (h : r <:+ t) : Ahead (c :: t) r :=
  ⟨h.trans (List.suffix_cons c t), Nat.lt_succ_of_le h.length_le⟩

theorem Ahead.then (h : Ahead t r) (h' : r' <:+ r) : Ahead t r' :=
  ⟨h'.trans h.1, Nat.lt_of_le_of_lt h'.length_le h.2⟩

theorem Ahead.trans (h : Ahead t r) (h' : Ahead r r') : Ahead t r' := h.then h'.1

/-! ## Single calls -/

@[simp] theorem wp_skipSpaces {returns : Unit → Text → Prop} {throws : Failure → Text → Prop} :
    wp skipSpaces t returns throws ↔ returns () (t.dropWhile isSpace) := Iff.rfl

theorem expect_safe (c : Char) (complaint : String → String) (t : Text) :
    Safe (expect c complaint) t := by
  unfold Safe expect
  simp only [wp_bind, wp_peek]
  split
  · next h =>
    cases t with
    | nil => cases h
    | cons a => exact ahead_cons a List.suffix_rfl
  · exact ⟨rfl, isValueError _⟩

theorem parseOperator_safe (level : Nat) (t : Text) : Safe (parseOperator level) t := by
  rw [parseOperator, safe_commit]
  simp only [wp_bind, wp_peek]
  split
  · exact isValueError _
  · next op hop =>
    split
    · exact isValueError _
    · cases t with
      | nil => cases hop
      | cons a =>
        simp only [wp_bind, wp_advance_cons, wp_skipSpaces, wp_pure]
        exact ahead_cons a (List.dropWhile_suffix _)

theorem parseId_safe (t : Text) : Safe parseId t := by
  rw [parseId, safe_commit]
  simp only [wp_bind, wp_remaining]
  cases t with
  | nil => exact isValueError _
  | cons c =>
    dsimp only
    split
    · exact ahead_cons c (List.dropWhile_suffix _)
    · exact isValueError _

/-- What is left after white space and a number. -/
theorem ahead_of_number {w u : Text} (ht : t = w ++ u ++ r) (hu : u ≠ []) : Ahead t r := by
  subst ht
  refine ⟨List.suffix_append _ _, ?_⟩
  have hpos : 0 < u.length := List.length_pos_iff.mpr hu
  simp only [List.length_append]
  omega

theorem parseInt_safe (t : Text) : Safe parseInt t := by
  rw [parseInt, safe_commit]
  simp only [wp_bind, wp_remaining]
  split
  · exact isValueError _
  · next n rest h =>
    obtain ⟨w, u, ht, -, hu, -⟩ := strtol_eq_some h
    split
    · exact isValueError _
    · exact (ahead_of_number ht hu.ne_nil).then (List.dropWhile_suffix _)

theorem parseFloat_safe (t : Text) : Safe parseFloat t := by
  rw [parseFloat, safe_commit]
  simp only [wp_bind, wp_remaining]
  split
  · exact isValueError _
  · next number rest h =>
    obtain ⟨w, ht, -, hu⟩ := strtod_eq_some h
    exact (ahead_of_number ht hu.ne_nil).then (List.dropWhile_suffix _)

/-! ## The recursive functions -/

/-- Parts of a function that works on a copy of the cursor: the copy does not move
back, and where it is left by an error does not matter. -/
def Onward {α : Type} (p : Parser Failure α) (t : Text) : Prop :=
  wp p t (fun _ r => r <:+ t) (fun e _ => IsValueError e)

theorem parseCurly_onward (t : Text) : Onward parseCurly t := by
  unfold Onward parseCurly
  simp only [wp_bind, wp_peek]
  split
  · next h =>
    cases t with
    | nil => cases h
    | cons c => exact (ahead_cons c (List.dropWhile_suffix _)).1
  · exact List.suffix_rfl

theorem parseFormat_onward (t : Text) : Onward parseFormat t := by
  unfold Onward parseFormat
  simp only [wp_bind, wp_peek]
  split
  · exact List.dropWhile_suffix _
  · exact List.suffix_rfl

theorem closeCurly_onward (curly : Bool) (t : Text) : Onward (closeCurly curly) t := by
  unfold Onward closeCurly
  split
  · simp only [wp_bind, wp_skipSpaces]
    refine wp_mono (expect_safe _ _ t) ?_ (fun _ _ h => h.2)
    intro _ r hr
    exact (hr.then (List.dropWhile_suffix _)).1
  · exact List.suffix_rfl

/-- What a call of each function needs and does with a given amount of fuel. -/
structure Bounded (fuel : Nat) : Prop where
  operation : ∀ t level, level ≤ 7 → 10 * t.length + 10 ≤ fuel + level →
    Safe (parseOperation fuel level) t
  operands : ∀ t level, level < 7 → 10 * t.length + 10 ≤ fuel → Onward (parseOperands fuel level) t
  term : ∀ t : Text, 10 * t.length + 2 ≤ fuel → Safe (parseTerm fuel) t
  reference : ∀ t : Text, 10 * t.length + 1 ≤ fuel → Safe (parseReference fuel) t
  accessors : ∀ t : Text, 10 * t.length + 5 ≤ fuel → Onward (parseAccessors fuel) t

section Step

variable {fuel : Nat} (ih : Bounded fuel)
include ih

theorem operation_step (t : Text) (level : Nat) (hlevel : level ≤ 7)
    (hfuel : 10 * t.length + 10 ≤ fuel + 1 + level) : Safe (parseOperation (fuel + 1) level) t := by
  rw [parseOperation]
  split
  · exact ih.term t (by omega)
  · rw [safe_commit]
    simp only [wp_bind, wp_pure]
    refine wp_mono (ih.operation t (level + 1) (by omega) (by omega)) ?_ (fun _ _ h => h.2)
    intro first r hr
    have hlength := hr.2
    refine wp_mono (ih.operands r level (by omega) (by omega)) ?_ (fun _ _ h => h)
    intro operands r' hr'
    exact hr.then hr'

theorem operands_step (t : Text) (level : Nat) (hlevel : level < 7)
    (hfuel : 10 * t.length + 10 ≤ fuel + 1) : Onward (parseOperands (fuel + 1) level) t := by
  unfold Onward
  rw [parseOperands]
  simp only [wp_bind, wp_peek]
  split
  · simp only [wp_bind, wp_pure]
    refine wp_mono (parseOperator_safe level t) ?_ (fun _ _ h => h.2)
    intro op r₁ h₁
    have hlength₁ := h₁.2
    refine wp_mono (ih.operation r₁ (level + 1) (by omega) (by omega)) ?_ (fun _ _ h => h.2)
    intro operand r₂ h₂
    have hlength₂ := h₂.2
    refine wp_mono (ih.operands r₂ level hlevel (by omega)) ?_ (fun _ _ h => h)
    intro rest r₃ h₃
    exact ((h₁.trans h₂).then h₃).1
  · exact List.suffix_rfl

theorem term_step (t : Text) (hfuel : 10 * t.length + 2 ≤ fuel + 1) :
    Safe (parseTerm (fuel + 1)) t := by
  unfold Safe
  rw [parseTerm]
  simp only [wp_bind, wp_peek]
  split
  · next hhead =>
    obtain ⟨t, rfl⟩ : ∃ t', t = '(' :: t' := List.head?_eq_some_iff.mp hhead
    rw [List.length_cons] at hfuel
    have hspaces := List.dropWhile_suffix isSpace (l := t)
    have hlength := hspaces.length_le
    change Safe (commit _) _
    rw [safe_commit]
    simp only [wp_bind, wp_advance_cons, wp_skipSpaces, wp_pure]
    refine wp_mono (ih.operation _ 1 (by omega) (by omega)) ?_ (fun _ _ h => h.2)
    intro result r hr
    refine wp_mono (expect_safe _ _ r) ?_ (fun _ _ h => h.2)
    intro _ r' hr'
    exact (ahead_cons '(' (hr.1.trans hspaces)).then ((hr'.then (List.dropWhile_suffix _)).1)
  · exact ih.reference t (by omega)
  · simp only [wp_bind, wp_remaining]
    split
    · exact parseFloat_safe t
    · exact parseInt_safe t

theorem reference_step (t : Text) (hfuel : 10 * t.length + 1 ≤ fuel + 1) :
    Safe (parseReference (fuel + 1)) t := by
  rw [parseReference, safe_commit]
  simp only [wp_bind, wp_skipSpaces, wp_pure]
  refine wp_mono (expect_safe _ _ t) ?_ (fun _ _ h => h.2)
  intro _ r₁ h₁
  refine wp_mono (parseCurly_onward r₁) ?_ (fun _ _ h => h)
  intro curly r₂ h₂
  refine wp_mono (parseId_safe r₂) ?_ (fun _ _ h => h.2)
  intro referenced r₃ h₃
  have h₄ := (h₁.then h₂).trans (h₃.then (List.dropWhile_suffix isSpace))
  have hlength₁ := (h₁.then h₂).2
  have hlength₄ := (h₃.then (List.dropWhile_suffix isSpace)).2
  refine wp_mono (ih.accessors _ (by omega)) ?_ (fun _ _ h => h)
  intro subelements r₅ h₅
  refine wp_mono (parseFormat_onward r₅) ?_ (fun _ _ h => h)
  intro format r₆ h₆
  refine wp_mono (closeCurly_onward curly r₆) ?_ (fun _ _ h => h)
  intro _ r₇ h₇
  exact h₄.then (h₇.trans (h₆.trans h₅))

theorem accessors_step (t : Text) (hfuel : 10 * t.length + 5 ≤ fuel + 1) :
    Onward (parseAccessors (fuel + 1)) t := by
  unfold Onward
  rw [parseAccessors]
  simp only [wp_bind, wp_peek]
  split
  · next hhead =>
    obtain ⟨t, rfl⟩ : ∃ t', t = '[' :: t' := List.head?_eq_some_iff.mp hhead
    rw [List.length_cons] at hfuel
    have h₁ := ahead_cons '[' (List.dropWhile_suffix isSpace (l := t))
    have hlength₁ := h₁.2
    rw [List.length_cons] at hlength₁
    simp only [wp_bind, wp_advance_cons, wp_skipSpaces, wp_pure]
    refine wp_mono (ih.operation _ 1 (by omega) (by omega)) ?_ (fun _ _ h => h.2)
    intro expression r₂ h₂
    refine wp_mono (expect_safe _ _ r₂) ?_ (fun _ _ h => h.2)
    intro _ r₃ h₃
    have h₄ := h₂.trans (h₃.then (List.dropWhile_suffix isSpace))
    have hlength₄ := h₄.2
    refine wp_mono (ih.accessors _ (by omega)) ?_ (fun _ _ h => h)
    intro rest r₅ h₅
    exact (h₁.then (h₅.trans h₄.1)).1
  · next hhead =>
    obtain ⟨t, rfl⟩ : ∃ t', t = '.' :: t' := List.head?_eq_some_iff.mp hhead
    rw [List.length_cons] at hfuel
    have h₁ := ahead_cons '.' (List.dropWhile_suffix isSpace (l := t))
    have hlength₁ := h₁.2
    rw [List.length_cons] at hlength₁
    simp only [wp_bind, wp_advance_cons, wp_skipSpaces, wp_pure]
    refine wp_mono (parseId_safe _) ?_ (fun _ _ h => h.2)
    intro name r₂ h₂
    have h₃ := h₂.then (List.dropWhile_suffix isSpace)
    have hlength₃ := h₃.2
    refine wp_mono (ih.accessors _ (by omega)) ?_ (fun _ _ h => h)
    intro rest r₄ h₄
    exact (h₁.then (h₄.trans h₃.1)).1
  · exact List.suffix_rfl

end Step

theorem bounded (fuel : Nat) : Bounded fuel := by
  induction fuel with
  | zero =>
    constructor
    all_goals intros; omega
  | succ fuel ih =>
    exact ⟨operation_step ih, operands_step ih, term_step ih, reference_step ih,
      accessors_step ih⟩

section Enough

variable {fuel : Nat} (hfuel : fuelFor t ≤ fuel)

include hfuel

theorem operation_safe {level : Nat} (hlevel : level ≤ 7) : Safe (parseOperation fuel level) t := by
  unfold fuelFor at hfuel
  exact (bounded fuel).operation t level hlevel (by omega)

theorem term_safe : Safe (parseTerm fuel) t := by
  unfold fuelFor at hfuel
  exact (bounded fuel).term t (by omega)

theorem reference_safe : Safe (parseReference fuel) t := by
  unfold fuelFor at hfuel
  exact (bounded fuel).reference t (by omega)

end Enough

/-- A text that is taken as a string has been refused with an error of the library, or goes on
behind an operation. -/
theorem parseText_eq_none (h : parseText t = none) :
    wp (parseWhole (fuelFor t)) t (fun _ r => r ≠ []) fun e _ => IsValueError e := by
  have hfuel : fuelFor (t.dropWhile isSpace) ≤ fuelFor t := by
    have hlength := (List.dropWhile_suffix isSpace (l := t)).length_le
    unfold fuelFor
    omega
  have hsafe : wp (parseWhole (fuelFor t)) t (fun _ _ => True) fun e _ => IsValueError e := by
    unfold parseWhole
    simp only [wp_bind, wp_skipSpaces, wp_pure]
    exact wp_mono (operation_safe hfuel (by decide)) (fun _ _ _ => trivial) fun _ _ h => h.2
  unfold parseText at h
  unfold wp at hsafe ⊢
  rcases hrun : (parseWhole (fuelFor t)).run t with ⟨r, e | e⟩
  · rwa [hrun] at hsafe
  · cases r with
    | nil =>
      rw [hrun] at h
      cases h
    | cons => exact List.cons_ne_nil _ _

/-- With enough fuel each parsing function comes to an end, returns with the cursor
ahead and inside the text, or throws with the cursor where it was. -/
theorem parsers_safe (t : Text) (fuel : Nat) (hfuel : fuelFor t ≤ fuel) :
    (∀ level, 1 ≤ level → level ≤ 7 → Safe (parseOperation fuel level) t) ∧
      Safe (parseTerm fuel) t ∧ Safe (parseReference fuel) t ∧ Safe parseId t :=
  ⟨fun _ _ hlevel => operation_safe hfuel hlevel, term_safe hfuel, reference_safe hfuel,
    parseId_safe t⟩

/-- An error inside the index of a member of a parenthesis. -/
theorem parsers_safe_nested :
    (parseOperation 200 1).run "(1+$a.b[(2])".toList =
        ("(1+$a.b[(2])".toList, .error (valueError "Expected ')', found ']'")) ∧
      Safe (parseOperation 200 1) "(1+$a.b[(2])".toList :=
  ⟨by rfl, (parsers_safe "(1+$a.b[(2])".toList 200 (by decide)).1 1 (by decide) (by decide)⟩

end Pdi.Expression
