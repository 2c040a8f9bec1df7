import Mathlib.Data.List.DropRight
import Mathlib.Data.List.Infix
import Pdi.Expression

/-!
# References in the pattern of a logger

A pattern is searched for `%{` from its start, the reference found there is replaced by
its value, and the new pattern is searched again. So the text of a value is searched as
well, and what it makes of the text around it. The parser of a reference also skips the
white space behind the closing brace, and this white space is lost.
-/
namespace Pdi.Logger

open Pdi.Cursor Pdi.NumberText Pdi.Datatypes Pdi.Expression

def marker : Text := ['%', '\x7b']

/-- `find` of a marker: the text in front of it, and the text from its brace on. -/
def findReference : Text → Option (Text × Text)
  | c :: d :: rest =>
    if c = '%' ∧ d = '\x7b' then some ([], d :: rest)
    else (findReference (d :: rest)).map fun found => (c :: found.1, found.2)
  | _ => none

/-- `Expression::parse_reference`: the expression and the number of characters it takes. The
text ends at its first zero. -/
def parseReferenceAt (text : Text) : Except Failure (Expr × Nat) :=
  let text := text.takeWhile (· != '\x00')
  match (parseReference (fuelFor text)).run text with
  | (rest, .ok e) => .ok (e, text.length - rest.length)
  | (_, .error e) => .error e

/-- `evaluate_refs_in_pattern`, with the texts that `parse_reference` was called with. There
is no result if the rounds are not enough. -/
def evaluateRefsInPattern (value : Expr → Except Failure Text) :
    (rounds : Nat) → Text → Option (Except Failure (Text × List Text))
  | 0, _ => none
  | rounds + 1, pattern =>
    match findReference pattern with
    | none => some (.ok (pattern, []))
    | some (before, behind) =>
      match parseReferenceAt ('$' :: behind) with
      | .error e => some (.error e)
      | .ok (e, taken) =>
        match value e with
        | .error e => some (.error e)
        | .ok v =>
          (evaluateRefsInPattern value rounds (before ++ v ++ ('$' :: behind).drop taken)).map
            fun result => result.map fun (text, calls) => (text, ('$' :: behind) :: calls)

/-- `evaluate_refs_in_pattern` without a context: the references are removed. -/
def removeRefsInPattern : Nat → Text → Option (Except Failure (Text × List Text)) :=
  evaluateRefsInPattern fun _ => .ok []

/-! ## What a pattern stands for -/

/-- A reference of a pattern: the text from it on, its value, the white space behind its
brace, and the text up to the next reference. -/
structure Occurrence where
  call : Text
  value : Text
  spaces : Text
  text : Text

/-- The references of a pattern all parse and evaluate. -/
inductive Splits (value : Expr → Except Failure Text) : Text → Text → List Occurrence → Prop
  | raw {t : Text} (h : findReference t = none) : Splits value t t []
  | reference {t before behind v start : Text} {e : Expr} {taken : Nat} {os : List Occurrence}
    (hfind : findReference t = some (before, behind))
    (hparse : parseReferenceAt ('$' :: behind) = .ok (e, taken)) (hvalue : value e = .ok v)
    (hrest : Splits value (('$' :: behind).drop taken) start os) :
    Splits value t before
      (⟨'$' :: behind, v, (('$' :: behind).take taken).rtakeWhile isSpace, start⟩ :: os)

/-- The values, and behind each the white space and the text that follow it. -/
def substituted : List Occurrence → Text
  | [] => []
  | o :: os => o.value ++ (o.spaces ++ (o.text ++ substituted os))

/-- The same without the white space. -/
def squeezed : List Occurrence → Text
  | [] => []
  | o :: os => o.value ++ (o.text ++ squeezed os)

theorem length_substituted (os : List Occurrence) : (substituted os).length =
    (squeezed os).length + (os.flatMap Occurrence.spaces).length := by
  induction os with
  | nil => rfl
  | cons o os ih =>
    simp only [substituted, squeezed, List.length_append, List.flatMap_cons, ih]
    omega

theorem substituted_eq_squeezed {os : List Occurrence} (h : ∀ o ∈ os, o.spaces = []) :
    substituted os = squeezed os := by
  induction os with
  | nil => rfl
  | cons o os ih =>
    rw [List.forall_mem_cons] at h
    rw [substituted, squeezed, h.1, ih h.2, List.nil_append]

/-! ## The search -/

theorem findReference_eq {t before behind : Text} (h : findReference t = some (before, behind)) :
    t = before ++ '%' :: behind ∧ ∃ rest, behind = '\x7b' :: rest := by
  induction t generalizing before with
  | nil => cases h
  | cons c t ih =>
    cases t with
    | nil => cases h
    | cons d rest =>
      rw [findReference] at h
      split at h
      · next hmarker =>
        cases h
        rw [hmarker.1, hmarker.2]
        exact ⟨rfl, rest, rfl⟩
      · obtain ⟨found, hfound, heq⟩ := Option.map_eq_some_iff.mp h
        cases heq
        exact ⟨congrArg _ (ih hfound).1, (ih hfound).2⟩

theorem findReference_eq_none {t : Text} : findReference t = none ↔ ¬ marker <:+: t := by
  induction t with
  | nil => exact iff_of_true rfl (by decide)
  | cons c t ih =>
    rw [List.infix_cons_iff]
    cases t with
    | nil => exact iff_of_true rfl (by simp [marker])
    | cons d rest =>
      rw [findReference, not_or, ← ih]
      by_cases hmarker : c = '%' ∧ d = '\x7b'
      · rw [if_pos hmarker, hmarker.1, hmarker.2]
        exact iff_of_false (by simp) fun h => h.1 ⟨rest, rfl⟩
      · rw [if_neg hmarker, Option.map_eq_none_iff, iff_and_self]
        rintro - ⟨rest', heq⟩
        cases heq
        exact hmarker ⟨rfl, rfl⟩

/-- Behind a text without a marker the next marker is found. -/
theorem findReference_append {before rest : Text} (h : ¬ marker <:+: before) :
    findReference (before ++ '%' :: '\x7b' :: rest) = some (before, '\x7b' :: rest) := by
  induction before with
  | nil => rfl
  | cons c before ih =>
    have hnext := ih fun hpart => h (hpart.trans (List.suffix_cons _ _).isInfix)
    cases before with
    | nil => simp [findReference] at hnext ⊢
    | cons d before =>
      rw [List.cons_append, List.cons_append, findReference, ← List.cons_append, hnext, if_neg]
      · rfl
      · rintro ⟨rfl, rfl⟩
        exact h ⟨[], before, rfl⟩

/-! ## The rounds -/

variable {value : Expr → Except Failure Text} {t start : Text} {os : List Occurrence}

/-- One round per reference, if no marker comes up but theirs. -/
theorem Splits.evaluate (h : Splits value t start os) (acc : Text)
    (hfree : ¬ marker <:+: acc ++ (start ++ squeezed os)) :
    evaluateRefsInPattern value (os.length + 1) (acc ++ t) =
      some (.ok (acc ++ (start ++ squeezed os), os.map Occurrence.call)) := by
  induction h generalizing acc with
  | @raw t hraw =>
    rw [squeezed, List.append_nil] at hfree ⊢
    rw [evaluateRefsInPattern, findReference_eq_none.mpr hfree]
    rfl
  | @reference t before behind v start e taken os hfind hparse hvalue hrest ih =>
    obtain ⟨rfl, rest, rfl⟩ := findReference_eq hfind
    rw [squeezed] at hfree ⊢
    have hbefore : ¬ marker <:+: acc ++ before := by
      intro hpart
      rw [← List.append_assoc] at hfree
      exact hfree (hpart.trans (List.prefix_append _ _).isInfix)
    have hnext := ih (acc ++ before ++ v) (by simpa only [List.append_assoc] using hfree)
    rw [← List.append_assoc, List.length_cons, evaluateRefsInPattern, findReference_append hbefore]
    dsimp only
    rw [hparse]
    dsimp only
    rw [hvalue]
    dsimp only
    rw [hnext]
    simp [Except.map]

/-- The last round finds no marker, every other round puts the value of a reference in its
place. -/
theorem evaluate_eq_ok {pattern result : Text} {calls : List Text} {rounds : Nat}
    (h : evaluateRefsInPattern value rounds pattern = some (.ok (result, calls))) :
    (findReference pattern = none ∧ result = pattern ∧ calls = []) ∨
      ∃ before behind e taken v calls' rounds', findReference pattern = some (before, behind) ∧
        parseReferenceAt ('$' :: behind) = .ok (e, taken) ∧ value e = .ok v ∧
        calls = ('$' :: behind) :: calls' ∧
        evaluateRefsInPattern value rounds' (before ++ v ++ ('$' :: behind).drop taken) =
          some (.ok (result, calls')) := by
  cases rounds with
  | zero => cases h
  | succ rounds =>
    rw [evaluateRefsInPattern] at h
    split at h
    · next hnone =>
      cases h
      exact .inl ⟨hnone, rfl, rfl⟩
    · next before behind hfind =>
      split at h
      · cases h
      · next e taken hparse =>
        split at h
        · cases h
        · next v hvalue =>
          obtain ⟨x, hx, hmap⟩ := Option.map_eq_some_iff.mp h
          cases x with
          | error => cases hmap
          | ok x =>
            cases hmap
            exact .inr ⟨before, behind, e, taken, v, x.2, rounds, hfind, hparse, hvalue, rfl, hx⟩

/-- If `parse_reference` is called for the references of the pattern only, their values are
put in their place and the white space behind them is gone. -/
theorem Splits.of_calls (h : Splits value t start os) (acc : Text) {result : Text} {rounds : Nat}
    (hrun : evaluateRefsInPattern value rounds (acc ++ t) =
      some (.ok (result, os.map Occurrence.call))) :
    result = acc ++ (start ++ squeezed os) ∧ ¬ marker <:+: result := by
  induction h generalizing acc rounds with
  | @raw t hraw =>
    obtain ⟨hnone, rfl, -⟩ | ⟨_, _, _, _, _, _, _, _, _, _, hcalls, _⟩ := evaluate_eq_ok hrun
    · exact ⟨by rw [squeezed, List.append_nil], findReference_eq_none.mp hnone⟩
    · cases hcalls
  | @reference t before behind v start e taken os hfind hparse hvalue hrest ih =>
    obtain ⟨-, -, hcalls⟩ | ⟨before', behind', e', taken', v', calls', rounds', hfind', hparse',
      hvalue', hcalls, hrun'⟩ := evaluate_eq_ok hrun
    · cases hcalls
    · cases hcalls
      -- the text that is parsed is the same, so it is also found at the same place
      have hplace := (findReference_eq hfind').1
      rw [(findReference_eq hfind).1, ← List.append_assoc] at hplace
      obtain rfl := List.append_cancel_right hplace
      rw [hparse] at hparse'
      cases hparse'
      rw [hvalue] at hvalue'
      cases hvalue'
      obtain ⟨hresult, hfree⟩ := ih _ hrun'
      refine ⟨hresult.trans ?_, hfree⟩
      simp only [squeezed, List.append_assoc]

/-- The pattern is evaluated to the substituted text, by its own references alone, exactly
if no reference is followed by white space and the substituted text has no marker. -/
theorem evaluateRefs_substitutes_iff (h : Splits value t start os) :
    (∃ rounds, evaluateRefsInPattern value rounds t =
      some (.ok (start ++ substituted os, os.map Occurrence.call))) ↔
      (∀ o ∈ os, o.spaces = []) ∧ ¬ marker <:+: start ++ substituted os := by
  constructor
  · rintro ⟨rounds, hrun⟩
    obtain ⟨hresult, hfree⟩ := h.of_calls [] hrun
    refine ⟨fun o ho => ?_, hfree⟩
    have hlength := congrArg List.length (List.append_cancel_left hresult)
    rw [length_substituted] at hlength
    have hzero : (os.flatMap Occurrence.spaces).length = 0 := by omega
    exact List.flatMap_eq_nil_iff.mp (List.eq_nil_of_length_eq_zero hzero) o ho
  · rintro ⟨hspaces, hfree⟩
    rw [substituted_eq_squeezed hspaces] at hfree ⊢
    exact ⟨_, h.evaluate [] hfree⟩

theorem evaluateRefs_substitutes_digit :
    ∃ rounds, evaluateRefsInPattern (fun _ => .ok ['7']) rounds "[%\x7bx\x7d]".toList =
      some (.ok ("[7]".toList, ["$\x7bx\x7d]".toList])) := by
  have hfind : findReference "[%\x7bx\x7d]".toList = some (['['], "\x7bx\x7d]".toList) := by decide
  have hparse : parseReferenceAt ('$' :: "\x7bx\x7d]".toList) =
    .ok (.reference ['x'] [] .nil, 4) := by
    decide
  have hrest : Splits (fun _ => .ok ['7']) (('$' :: "\x7bx\x7d]".toList).drop 4) [']'] [] :=
    .raw (by decide)
  exact (evaluateRefs_substitutes_iff (.reference hfind hparse rfl hrest)).mpr
    ⟨by decide, by decide⟩

/-- The value of a reference to itself is substituted for ever. The white space behind a
reference gets lost. -/
theorem evaluateRefs_not_substituting :
    (∀ rounds, evaluateRefsInPattern (fun _ => .ok "%\x7bx\x7d".toList) rounds
      "%\x7bx\x7d".toList = none) ∧
    evaluateRefsInPattern (fun _ => .ok ['7']) 2 "[%\x7bx\x7d ]".toList =
      some (.ok ("[7]".toList, ["$\x7bx\x7d ]".toList])) := by
  refine ⟨fun rounds => ?_, by decide⟩
  have hfind : findReference "%\x7bx\x7d".toList = some ([], "\x7bx\x7d".toList) := by decide
  have hparse : parseReferenceAt ('$' :: "\x7bx\x7d".toList) =
    .ok (.reference ['x'] [] .nil, 4) := by
    decide
  induction rounds with
  | zero => rfl
  | succ rounds ih =>
    rw [evaluateRefsInPattern, hfind]
    dsimp only
    rw [hparse]
    exact congrArg (Option.map _) ih

end Pdi.Logger
