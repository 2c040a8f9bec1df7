import Mathlib.Data.List.Forall2
import Pdi.ExpressionFlat

/-!
# Literals in a longer text

What becomes of the terms of a text when an operator and more text are added
behind it. Two things reach beyond a term. A number is floating when there is a
point anywhere behind it, so integers turn into floating-point numbers when the
added text has a point. And the format of a reference without braces goes on to
the next closing brace or to the end of the text, so it swallows the operator and
what follows. Every other term is read in the same way.
-/
namespace Pdi.Expression

open Pdi.Cursor Pdi.NumberText Pdi.Datatypes

/-! ## Formats that are left open -/

variable {c : Char} {p : Char → Bool} {r t s name u format : Text} {level : Nat}
  {ls ls' : List Literal} {e : Expr} {curly : Bool}

/-- Between the two places every colon has a closing brace behind it. -/
def Sealed (t r : Text) : Prop := ∃ p, t = p ++ r ∧ ∀ u v, p = u ++ ':' :: v → '\x7d' ∈ v

/-- There is a colon without a closing brace behind it. -/
def OpenFormat (t : Text) : Prop := ∃ u v, t = u ++ ':' :: v ∧ '\x7d' ∉ v

section Sealed

variable {r' : Text}

theorem sealed_of_not_mem {p : Text} (hp : ':' ∉ p) (r : Text) : Sealed (p ++ r) r := by
  refine ⟨p, rfl, fun u v hu => absurd ?_ hp⟩
  simp [hu]

theorem Sealed.refl (t : Text) : Sealed t t := by
  have hp : ':' ∉ ([] : Text) := by simp
  exact sealed_of_not_mem hp t

theorem sealed_cons (hc : c ≠ ':') (t : Text) : Sealed (c :: t) t := by
  have hp : ':' ∉ [c] := by simpa using hc.symm
  exact sealed_of_not_mem hp t

theorem sealed_dropWhile (hp : p ':' = false) (t : Text) : Sealed t (t.dropWhile p) := by
  have hmem : ':' ∉ t.takeWhile p := by
    intro h
    have := List.mem_takeWhile_imp h
    rw [hp] at this
    cases this
  have hsealed := sealed_of_not_mem hmem (t.dropWhile p)
  rwa [List.takeWhile_append_dropWhile] at hsealed

theorem sealed_spaces (t : Text) : Sealed t (t.dropWhile isSpace) := sealed_dropWhile (by decide) t

theorem sealed_brace (p t : Text) : Sealed (p ++ '\x7d' :: t) t := by
  refine ⟨p ++ ['\x7d'], by simp, ?_⟩
  intro u v hu
  obtain ⟨a, rfl, ha⟩ | ⟨c, rfl, hc⟩ := List.append_eq_append_iff.mp hu
  · cases a with
    | nil | cons => simp at ha
  · cases c with
    | nil => simp at hc
    | cons =>
      simp only [List.cons_append, List.cons.injEq] at hc
      rw [hc.2]
      simp

theorem Sealed.trans (h : Sealed t r) (h' : Sealed r r') : Sealed t r' := by
  obtain ⟨p, rfl, hp⟩ := h
  obtain ⟨p', rfl, hp'⟩ := h'
  refine ⟨p ++ p', by simp, ?_⟩
  intro u v hu
  obtain ⟨a, rfl, ha⟩ | ⟨c, rfl, hc⟩ := List.append_eq_append_iff.mp hu
  · exact hp' a v ha
  · cases c with
    | nil => exact hp' [] v (by simpa using hc.symm)
    | cons b c =>
      simp only [List.cons_append, List.cons.injEq] at hc
      obtain ⟨rfl, rfl⟩ := hc
      exact List.mem_append_left _ (hp u c rfl)

theorem Sealed.suffix (h : Sealed t r) : r <:+ t := by
  obtain ⟨p, rfl, -⟩ := h
  exact List.suffix_append p r

theorem OpenFormat.of_suffix (h : OpenFormat r) (ht : r <:+ t) : OpenFormat t := by
  obtain ⟨p, rfl⟩ := ht
  obtain ⟨u, v, rfl, hv⟩ := h
  exact ⟨p ++ u, v, by simp, hv⟩

theorem Sealed.not_open (h : Sealed t []) : ¬ OpenFormat t := by
  rintro ⟨u, v, rfl, hv⟩
  obtain ⟨p, hp, hsealed⟩ := h
  rw [List.append_nil] at hp
  exact hv (hsealed u v hp.symm)

end Sealed

/-! ## What follows a term -/

/-- The end of an operation: the end of the text or a closing bracket. -/
def Closes (r : Text) : Prop := ∀ c, r.head? = some c → c = ')' ∨ c = ']'

/-- The end of a term: the end of an operation or an operator. -/
def Follows (r : Text) : Prop :=
  ∀ c, r.head? = some c → c = ')' ∨ c = ']' ∨ ∃ op : Operator, c = op.char

theorem Closes.follows (h : Closes r) : Follows r := fun c hc =>
  (h c hc).imp id Or.inl

theorem Tail.follows (h : Tail level t ls r) (hr : Closes r) : Follows t := by
  cases h with
  | stop => exact hr.follows
  | @more op _ _ _ _ _ _ _ _ => exact fun c hc => .inr (.inr ⟨op, (Option.some.inj hc).symm⟩)

theorem Follows.delimiter (h : Follows r) (hc : r.head? = some c) : delimiter c = true := by
  obtain rfl | rfl | ⟨op, rfl⟩ := h c hc
  · decide
  · decide
  · cases op <;> decide

/-! ## Literals -/

/-- What a literal is read as when the text `s` is added behind. -/
inductive Becomes (s : Text) : Literal → Literal → Prop where
  | kept {n : Int} (h : '.' ∉ s) : Becomes s (.integer n) (.integer n)
  | turned {n : Int} {u : Text} (h : '.' ∈ s) : Becomes s (.integer n) (.floating u)
  | floating {u : Text} : Becomes s (.floating u) (.floating u)

abbrev Become (s : Text) (ls ls' : List Literal) : Prop := List.Forall₂ (Becomes s) ls ls'

def Literal.isInteger : Literal → Bool
  | .integer _ => true
  | .floating _ => false

/-- The literals stay what they are exactly when no integer turns floating. -/
theorem Become.eq_iff (h : Become s ls ls') :
    ls' = ls ↔ '.' ∉ s ∨ ∀ l ∈ ls, l.isInteger = false := by
  induction h with
  | nil => simp
  | @cons l l' ls ls' hl _ ih =>
    rw [List.cons.injEq, ih]
    cases hl with
    | kept hs => simp [hs]
    | turned hs => simp [Literal.isInteger, hs]
    | floating => simp [Literal.isInteger]

/-- None of the literals turns floating when `s` is added behind. -/
def Unturned (s : Text) (ls : List Literal) : Prop := '.' ∉ s ∨ ∀ l ∈ ls, l.isInteger = false

/-- What is read when `s` is added behind: the literals become others, and nothing else
changes. -/
def Turned {α : Type} (literals : α → List Literal) (s : Text) (a a' : α) : Prop :=
  Become s (literals a) (literals a') ∧ (Unturned s (literals a) → a' = a)

abbrev TurnedExpr (s : Text) (e e' : Expr) : Prop := Turned Expr.literals s e e'

theorem unturned_append : Unturned s (ls ++ ls') ↔ Unturned s ls ∧ Unturned s ls' := by
  unfold Unturned
  rw [List.forall_mem_append, or_and_left]

theorem Turned.pair {α β γ : Type} {la : α → List Literal} {lb : β → List Literal}
    {lc : γ → List Literal} {a a' : α} {b b' : β} (f : α → β → γ)
    (hf : ∀ a b, lc (f a b) = la a ++ lb b) (ha : Turned la s a a') (hb : Turned lb s b b') :
    Turned lc s (f a b) (f a' b') := by
  unfold Turned
  rw [hf, hf, unturned_append]
  refine ⟨List.rel_append ha.1 hb.1, ?_⟩
  rintro ⟨hka, hkb⟩
  rw [ha.2 hka, hb.2 hkb]

/-- What was read is read again exactly when its literals stay what they are. -/
theorem Turned.eq_iff {e' : Expr} (h : TurnedExpr s e e') : e' = e ↔ Unturned s e.literals :=
  ⟨fun heq => h.1.eq_iff.mp (congrArg _ heq), h.2⟩

/-! ## Adding text

Text is added behind what is left of a text. Where nothing is left it has to start with
an operator. -/

def Cut (r s : Text) : Prop := r = [] → ∃ (op : Operator) (b : Text), s = op.char :: b

section Extended

theorem cut_operator (r : Text) (op : Operator) (b : Text) : Cut r (op.char :: b) :=
  fun _ => ⟨op, b, rfl⟩

theorem cut_cons (c : Char) (r : Text) : Cut (c :: r) s := nofun

theorem Cut.of_suffix {r₁ : Text} (h : Cut r s) (hr : r <:+ r₁) : Cut r₁ s := by
  rintro rfl
  exact h (List.suffix_nil.mp hr)

theorem dropWhile_extended (hp : ∀ op : Operator, p op.char = false)
    (hcut : Cut (t.dropWhile p) s) : (t ++ s).dropWhile p = t.dropWhile p ++ s := by
  rw [List.dropWhile_append]
  split
  · next hnil =>
    rw [List.isEmpty_iff] at hnil
    obtain ⟨op, b, rfl⟩ := hcut hnil
    rw [hnil, List.nil_append, List.dropWhile_cons_of_neg (by simp [hp op])]
  · rfl

theorem takeWhile_extended (hp : ∀ op : Operator, p op.char = false)
    (hcut : Cut (t.dropWhile p) s) : (t ++ s).takeWhile p = t.takeWhile p := by
  have hsplit : (t ++ s).takeWhile p ++ (t ++ s).dropWhile p =
      t.takeWhile p ++ (t.dropWhile p ++ s) := by
    rw [List.takeWhile_append_dropWhile, ← List.append_assoc, List.takeWhile_append_dropWhile]
  rw [dropWhile_extended hp hcut] at hsplit
  exact List.append_cancel_right hsplit

theorem dropSpaces_extended (hcut : Cut (t.dropWhile isSpace) s) :
    (t ++ s).dropWhile isSpace = t.dropWhile isSpace ++ s :=
  dropWhile_extended (fun op => by cases op <;> rfl) hcut

theorem head_extended (hc : ∀ op : Operator, c ≠ op.char) (hcut : Cut t s) :
    (t ++ s).head? = some c ↔ t.head? = some c := by
  cases t with
  | nil =>
    obtain ⟨op, b, rfl⟩ := hcut rfl
    simp [(hc op).symm]
  | cons => simp

theorem parseId_extended (h : parseId.run t = (r, .ok name)) (hcut : Cut r s) :
    parseId.run (t ++ s) = (r ++ s, .ok name) := by
  have hop (op : Operator) : idPart op.char = false := by cases op <;> decide
  obtain ⟨c, rest, rfl, hc, rfl, rfl⟩ := parseId_ok.mp h
  exact parseId_ok.mpr ⟨c, rest ++ s, rfl, hc, (dropWhile_extended hop hcut).symm,
    by rw [takeWhile_extended hop hcut]⟩

theorem sealed_parseId (h : parseId.run t = (r, .ok name)) : Sealed t r := by
  obtain ⟨c, rest, rfl, hc, rfl, -⟩ := parseId_ok.mp h
  have hcolon : c ≠ ':' := by
    rintro rfl
    revert hc
    decide
  exact (sealed_cons hcolon rest).trans (sealed_dropWhile (by decide) rest)

theorem parseCurly_extended (h : parseCurly.run t = (r, .ok curly)) (hcut : Cut r s) :
    parseCurly.run (t ++ s) = (r ++ s, .ok curly) := by
  have hop (op : Operator) : '\x7b' ≠ op.char := by cases op <;> decide
  obtain ⟨t', rfl, rfl, rfl⟩ | ⟨hhead, rfl, rfl⟩ := parseCurly_ok.mp h
  · exact parseCurly_ok.mpr (.inl ⟨t' ++ s, rfl, rfl, (dropSpaces_extended hcut).symm⟩)
  · exact parseCurly_ok.mpr (.inr ⟨fun heq => hhead ((head_extended hop hcut).mp heq), rfl, rfl⟩)

theorem sealed_parseCurly (h : parseCurly.run t = (r, .ok curly)) : Sealed t r := by
  obtain ⟨t', rfl, -, rfl⟩ | ⟨-, -, rfl⟩ := parseCurly_ok.mp h
  · exact (sealed_cons (by decide) t').trans (sealed_spaces t')
  · exact .refl _

/-! ### Numbers -/

theorem delimited_of_spaces {rest : Text} (h : Follows (rest.dropWhile isSpace))
    (hcut : Cut (rest.dropWhile isSpace) s) : Delimited (rest ++ s) := by
  intro c hc
  cases rest with
  | nil =>
    obtain ⟨op, b, rfl⟩ := hcut rfl
    obtain rfl := Option.some.inj hc
    cases op <;> decide
  | cons a =>
    obtain rfl := Option.some.inj hc
    by_cases ha : isSpace a = true
    · exact (not_of_isSpace ha).2
    · rw [List.dropWhile_cons_of_neg ha] at h
      exact h.delimiter rfl

theorem sealed_number {w rest : Text} (ht : t = w ++ u ++ rest) (hw : ∀ c ∈ w, isSpace c = true)
    (hu : FloatText u) : Sealed t (rest.dropWhile isSpace) := by
  subst ht
  have hp : ':' ∉ w ++ u := by
    rw [List.mem_append, not_or]
    refine ⟨fun hmem => ?_, hu.not_colon⟩
    have := hw _ hmem
    revert this
    decide
  exact (sealed_of_not_mem hp rest).trans (sealed_spaces rest)

theorem number_extended (h : NumberReads t e r) (hr : Follows r) (hcut : Cut r s) :
    Sealed t r ∧ ∃ e', NumberReads (t ++ s) e' (r ++ s) ∧ TurnedExpr s e e' := by
  unfold NumberReads at h
  split at h
  · next hpoint =>
    obtain ⟨u, rest, hstrtod, rfl, rfl⟩ := parseFloat_ok.mp h
    obtain ⟨w, ht, hw, hu⟩ := strtod_eq_some hstrtod
    refine ⟨sealed_number ht hw hu, .floatLiteral u, ?_, .cons .floating .nil, fun _ => rfl⟩
    unfold NumberReads
    rw [if_pos (List.mem_append_left _ hpoint), parseFloat_ok]
    refine ⟨u, rest ++ s, ?_, (dropSpaces_extended hcut).symm, rfl⟩
    rw [ht, List.append_assoc (w ++ u)]
    exact strtod_of_text hw hu (delimited_of_spaces hr hcut)
  · next hpoint =>
    obtain ⟨n, rest, hstrtol, hmin, hmax, rfl, rfl⟩ := parseInt_ok.mp h
    obtain ⟨w, u, ht, hw, hu, rfl⟩ := strtol_eq_some hstrtol
    refine ⟨sealed_number ht hw hu.floatText, ?_⟩
    have hadded : t ++ s = w ++ u ++ (rest ++ s) := by
      rw [ht, List.append_assoc (w ++ u)]
    by_cases hs : '.' ∈ s
    · refine ⟨.floatLiteral u, ?_, .cons (.turned hs) .nil, ?_⟩
      · unfold NumberReads
        rw [if_pos (List.mem_append_right _ hs), parseFloat_ok]
        refine ⟨u, rest ++ s, ?_, (dropSpaces_extended hcut).symm, rfl⟩
        rw [hadded]
        exact strtod_of_text hw hu.floatText (delimited_of_spaces hr hcut)
      · intro hkept
        simp [Unturned, Expr.literals, Literal.isInteger, hs] at hkept
    · refine ⟨.intLiteral (integerValue u), ?_, .cons (.kept hs) .nil, fun _ => rfl⟩
      unfold NumberReads
      rw [if_neg (by rw [List.mem_append, not_or]; exact ⟨hpoint, hs⟩), parseInt_ok]
      refine ⟨_, rest ++ s, ?_, hmin, hmax, (dropSpaces_extended hcut).symm, rfl⟩
      rw [hadded]
      exact strtol_of_text hw hu (delimited_of_spaces hr hcut)

/-! ### Terms and operations -/

/-- What becomes of a term at the beginning of a text when more text is added: it
is read as before up to the same place, or it is a reference whose format now goes
on to a closing brace or the end. -/
def TermExtended (s t : Text) : Prop :=
  ∀ e r, TermReads t e r → Follows r → Cut r s →
    (Sealed t r ∧ ∃ e', TermReads (t ++ s) e' (r ++ s) ∧ TurnedExpr s e e') ∨
      (r = [] ∧ OpenFormat t ∧
        ∃ e', TermReads (t ++ s) e' (s.dropWhile (· != '\x7d')) ∧ Become s e.literals e'.literals)

/-- An operation at a level that does not end with the text. -/
def LevelExtended (s : Text) (level : Nat) (t : Text) : Prop :=
  ∀ e r, Reads level t e r → Follows r → r ≠ [] →
    Sealed t r ∧ ∃ e', Reads level (t ++ s) e' (r ++ s) ∧ TurnedExpr s e e'

/-- What is behind an operand, where it does not end with the text. -/
theorem OperandsRead.follows {operands : Operands} (h : OperandsRead level t operands r)
    (hr : Follows r) (hne : r ≠ []) : Follows t ∧ t ≠ [] := by
  obtain ⟨-, -, rfl⟩ | ⟨op, t', _, _, _, rfl, -⟩ := operandsRead_iff.mp h
  · exact ⟨hr, hne⟩
  · exact ⟨fun c hc => .inr (.inr ⟨op, (Option.some.inj hc).symm⟩), List.cons_ne_nil _ _⟩

theorem operands_extended {level : Nat} (hlevel : level < 7) {t r : Text} {operands : Operands}
    (h : OperandsRead level t operands r) (hr : Follows r) (hne : r ≠ [])
    (hread : ∀ t', t'.length < t.length → LevelExtended s (level + 1) t') :
    Sealed t r ∧ ∃ operands', OperandsRead level (t ++ s) operands' (r ++ s) ∧
      Turned Operands.literals s operands operands' := by
  obtain ⟨hstop, rfl, rfl⟩ | ⟨op, t', operand, r₁, rest, rfl, hop, hoperand, hrest, rfl⟩ :=
    operandsRead_iff.mp h
  · refine ⟨.refl _, .nil, operandsRead_iff.mpr (.inl ⟨?_, rfl, rfl⟩), .nil, fun _ => rfl⟩
    rwa [List.head?_append_of_ne_nil _ hne]
  · obtain ⟨hr₁, hne₁⟩ := hrest.follows hr hne
    have hspaces := (List.dropWhile_suffix isSpace (l := t')).length_le
    have hahead := (hoperand.ahead (by omega)).2
    rw [List.length_cons] at hread
    obtain ⟨hsealed, operand', hoperand', hturned⟩ :=
      hread _ (by omega) operand r₁ hoperand hr₁ hne₁
    obtain ⟨hsealed', rest', hrest', hturned'⟩ :=
      operands_extended hlevel hrest hr hne fun t'' ht'' => hread t'' (by omega)
    have hcut : Cut (t'.dropWhile isSpace) s := by
      intro hnil
      rw [hnil] at hahead
      exact absurd hahead (Nat.not_lt_zero _)
    refine ⟨?_, .cons op operand' rest', ?_, hturned.pair (Operands.cons op)
      (fun _ _ => rfl) hturned'⟩
    · exact (sealed_cons (by cases op <;> decide) t').trans
        ((sealed_spaces t').trans (hsealed.trans hsealed'))
    · refine operandsRead_iff.mpr (.inr ⟨op, t' ++ s, operand', r₁ ++ s, rest', rfl, hop, ?_,
        hrest', rfl⟩)
      rwa [dropSpaces_extended hcut]
termination_by operands

/-- By induction from the terms, which are the operations of the highest level. -/
theorem level_extended (hlevel : level ≤ 7)
    (hterm : ∀ t', t'.length ≤ t.length → TermExtended s t') : LevelExtended s level t := by
  induction hk : 7 - level generalizing level t with
  | zero =>
    obtain rfl : level = 7 := by omega
    intro e r h hr hne
    rw [reads_seven] at h
    obtain ⟨hsealed, e', he', hturned⟩ | ⟨hnil, -⟩ :=
      hterm t (le_refl _) e r h hr fun hnil => absurd hnil hne
    · exact ⟨hsealed, e', reads_seven.mpr he', hturned⟩
    · exact absurd hnil hne
  | succ k ih =>
    intro e r h hr hne
    have hlt : level ≠ 7 := by omega
    obtain ⟨first, r₁, operands, hfirst, hoperands, rfl⟩ := (reads_level hlt).mp h
    obtain ⟨hr₁, hne₁⟩ := hoperands.follows hr hne
    have hahead := (hfirst.ahead (by omega)).2
    have hnext (t' : Text) (ht' : t'.length ≤ t.length) : LevelExtended s (level + 1) t' :=
      ih (by omega) (fun t'' ht'' => hterm t'' (by omega)) (by omega)
    obtain ⟨hsealed, first', hfirst', hturned⟩ := hnext t (le_refl _) first r₁ hfirst hr₁ hne₁
    obtain ⟨hsealed', operands', hoperands', hturned'⟩ :=
      operands_extended (by omega) hoperands hr hne fun t' ht' => hnext t' (by omega)
    refine ⟨hsealed.trans hsealed', first'.build operands', ?_,
      hturned.pair Expr.build literals_build hturned'⟩
    exact (reads_level hlt).mpr ⟨first', _, operands', hfirst', hoperands', rfl⟩

/-- An operation in parentheses or brackets is sealed by the closing one. -/
theorem reads_extended (hc : c = ')' ∨ c = ']') (h : Reads 1 t e (c :: r))
    (hterm : ∀ t', t'.length ≤ t.length → TermExtended s t') :
    Sealed t (c :: r) ∧ ∃ e', Reads 1 (t ++ s) e' (c :: (r ++ s)) ∧ TurnedExpr s e e' := by
  have hcloses : Closes (c :: r) := fun c' hc' => Option.some.inj hc' ▸ hc
  exact level_extended (by decide) hterm e _ h hcloses.follows (List.cons_ne_nil _ _)

theorem accessors_extended {t r : Text} {accessors : Accessors} (h : AccessorsRead t accessors r)
    (hcut : Cut r s) (hterm : ∀ t', t'.length < t.length → TermExtended s t') :
    Sealed t r ∧ ∃ accessors', AccessorsRead (t ++ s) accessors' (r ++ s) ∧
      Turned Accessors.literals s accessors accessors' := by
  have hbracket (op : Operator) : '[' ≠ op.char := by cases op <;> decide
  have hpoint (op : Operator) : '.' ≠ op.char := by cases op <;> decide
  obtain ⟨t', e, r₁, rest, rfl, he, hrest, rfl⟩ | ⟨t', name, r₁, rest, rfl, hname, hrest, rfl⟩ |
    ⟨hindex, hmember, rfl, rfl⟩ := accessorsRead_cases h
  · have hspaces := (List.dropWhile_suffix isSpace (l := t')).length_le
    have hahead := (he.ahead (by decide)).2
    have hspaces' := (List.dropWhile_suffix isSpace (l := r₁)).length_le
    simp only [List.length_cons] at hterm hahead
    obtain ⟨hsealed, e', he', hturned⟩ :=
      reads_extended (.inr rfl) he fun t'' ht'' => hterm t'' (by omega)
    obtain ⟨hsealed', rest', hrest', hturned'⟩ :=
      accessors_extended hrest hcut fun t'' ht'' => hterm t'' (by omega)
    have hcut₁ : Cut (r₁.dropWhile isSpace) s := hcut.of_suffix hsealed'.suffix
    have hcut' : Cut (t'.dropWhile isSpace) s := (cut_cons ']' r₁).of_suffix hsealed.suffix
    refine ⟨?_, .index e' rest', ?_, hturned.pair Accessors.index (fun _ _ => rfl) hturned'⟩
    · exact (sealed_cons (by decide) t').trans ((sealed_spaces t').trans (hsealed.trans
        ((sealed_cons (by decide) r₁).trans ((sealed_spaces r₁).trans hsealed'))))
    · rw [List.cons_append, accessorsRead_index]
      refine ⟨e', r₁ ++ s, rest', ?_, ?_, rfl⟩
      · rwa [dropSpaces_extended hcut']
      · rwa [dropSpaces_extended hcut₁]
  · have hspaces := (List.dropWhile_suffix isSpace (l := t')).length_le
    have hahead := (sealed_parseId hname).suffix.length_le
    have hspaces' := (List.dropWhile_suffix isSpace (l := r₁)).length_le
    simp only [List.length_cons] at hterm
    obtain ⟨hsealed', rest', hrest', hturned'⟩ :=
      accessors_extended hrest hcut fun t'' ht'' => hterm t'' (by omega)
    have hcut₁ : Cut (r₁.dropWhile isSpace) s := hcut.of_suffix hsealed'.suffix
    have hcut₂ : Cut r₁ s := hcut₁.of_suffix (List.dropWhile_suffix _)
    have hcut' : Cut (t'.dropWhile isSpace) s := hcut₂.of_suffix (sealed_parseId hname).suffix
    refine ⟨?_, .member name rest', ?_, hturned'.1, fun hkept => by rw [hturned'.2 hkept]⟩
    · exact (sealed_cons (by decide) t').trans ((sealed_spaces t').trans
        ((sealed_parseId hname).trans ((sealed_spaces r₁).trans hsealed')))
    · rw [List.cons_append, accessorsRead_member]
      refine ⟨name, r₁ ++ s, rest', ?_, ?_, rfl⟩
      · rw [dropSpaces_extended hcut']
        exact parseId_extended hname hcut₂
      · rwa [dropSpaces_extended hcut₁]
  · refine ⟨.refl _, .nil, (accessorsRead_nil ?_ ?_).mpr ⟨rfl, rfl⟩, .nil, fun _ => rfl⟩
    · exact fun h => hindex ((head_extended hbracket hcut).mp h)
    · exact fun h => hmember ((head_extended hpoint hcut).mp h)
termination_by accessors

theorem ne_brace (hu : '\x7d' ∉ u) : ∀ c ∈ u, (c != '\x7d') = true := by
  intro c hc
  have hne : c ≠ '\x7d' := by
    rintro rfl
    exact hu hc
  simpa using hne

theorem dropWhile_brace (hu : '\x7d' ∉ u) (x : Text) :
    (u ++ '\x7d' :: x).dropWhile (· != '\x7d') = '\x7d' :: x := by
  rw [List.dropWhile_append_of_pos (ne_brace hu)]
  simp

theorem takeWhile_brace (hu : '\x7d' ∉ u) (x : Text) :
    (u ++ '\x7d' :: x).takeWhile (· != '\x7d') = u := by
  rw [List.takeWhile_append_of_pos (ne_brace hu)]
  simp

theorem dropWhile_brace_nil (h : '\x7d' ∉ t) : t.dropWhile (· != '\x7d') = [] := by
  have hdrop : (t ++ []).dropWhile (· != '\x7d') = _ := List.dropWhile_append_of_pos (ne_brace h)
  simpa using hdrop

theorem dropWhile_brace_cons (h : '\x7d' ∈ t) : ∃ v, t.dropWhile (· != '\x7d') = '\x7d' :: v := by
  obtain ⟨u, v, rfl, hu⟩ := List.eq_append_cons_of_mem h
  exact ⟨v, dropWhile_brace hu v⟩

theorem closeCurly_extended (h : (closeCurly curly).run t = (r, .ok ())) (hcut : Cut r s) :
    (closeCurly curly).run (t ++ s) = (r ++ s, .ok ()) := by
  cases curly with
  | false =>
    obtain rfl : r = t := closeCurly_ok.mp h
    exact closeCurly_ok.mpr rfl
  | true =>
    obtain ⟨t', rfl, rfl⟩ := closeCurly_ok.mp h
    exact closeCurly_ok.mpr ⟨_, rfl, (dropSpaces_extended hcut).symm⟩

theorem sealed_closeCurly (h : (closeCurly curly).run t = (r, .ok ())) : Sealed t r := by
  cases curly with
  | false =>
    obtain rfl : r = t := closeCurly_ok.mp h
    exact .refl r
  | true =>
    obtain ⟨t', rfl, rfl⟩ := closeCurly_ok.mp h
    exact (sealed_brace [] t').trans (sealed_spaces t')

theorem parseFormat_suffix (h : parseFormat.run t = (r, .ok format)) : r <:+ t := by
  obtain ⟨-, -, rfl⟩ | ⟨-, -, rfl⟩ := parseFormat_ok.mp h
  · exact List.dropWhile_suffix _
  · exact List.suffix_rfl

/-- The format and the closing brace of a reference. -/
theorem format_extended {t₅ : Text} (hformat : parseFormat.run t = (t₅, .ok format))
    (hclose : (closeCurly curly).run t₅ = (r, .ok ())) (hr : Follows r) (hcut : Cut r s) :
    (∃ t₅', Sealed t r ∧ parseFormat.run (t ++ s) = (t₅', .ok format) ∧
        (closeCurly curly).run t₅' = (r ++ s, .ok ())) ∨
      (curly = false ∧ r = [] ∧ OpenFormat t ∧ ∃ format',
        parseFormat.run (t ++ s) = (s.dropWhile (· != '\x7d'), .ok format')) := by
  have hcolon (op : Operator) : ':' ≠ op.char := by cases op <;> decide
  obtain ⟨hhead, rfl, rfl⟩ | ⟨hhead, rfl, rfl⟩ := parseFormat_ok.mp hformat
  · obtain ⟨v, rfl⟩ := List.head?_eq_some_iff.mp hhead
    have hhead' : (':' :: v ++ s).head? = some ':' := rfl
    by_cases hmem : '\x7d' ∈ ':' :: v
    · -- the brace is in the text, so that the format ends where it did
      obtain ⟨u, w, huw, hu⟩ := List.eq_append_cons_of_mem hmem
      rw [huw] at hclose hhead' ⊢
      rw [dropWhile_brace hu] at hclose
      rw [takeWhile_brace hu]
      rw [List.append_assoc, List.cons_append] at hhead' ⊢
      cases curly with
      | false =>
        obtain rfl : r = '\x7d' :: w := closeCurly_ok.mp hclose
        obtain h | h | ⟨op', h⟩ := hr _ rfl
        · cases h
        · cases h
        · cases op' <;> cases h
      | true =>
        have hclose' := closeCurly_extended hclose hcut
        obtain ⟨t', heq, rfl⟩ := closeCurly_ok.mp hclose
        cases heq
        refine .inl ⟨_, (sealed_brace u w).trans (sealed_spaces w), ?_, hclose'⟩
        exact parseFormat_ok.mpr
          (.inl ⟨hhead', (takeWhile_brace hu _).symm, (dropWhile_brace hu _).symm⟩)
    · rw [dropWhile_brace_nil hmem] at hclose
      cases curly with
      | true =>
        obtain ⟨t', heq, -⟩ := closeCurly_ok.mp hclose
        cases heq
      | false =>
        obtain rfl : r = [] := closeCurly_ok.mp hclose
        refine .inr ⟨rfl, rfl, ⟨[], v, rfl, fun h => hmem (List.mem_cons_of_mem _ h)⟩, ?_⟩
        exact ⟨_, parseFormat_ok.mpr (.inl ⟨hhead', rfl,
          (List.dropWhile_append_of_pos (ne_brace hmem)).symm⟩)⟩
  · have hcut' : Cut t₅ s := hcut.of_suffix (sealed_closeCurly hclose).suffix
    have hformat' : parseFormat.run (t₅ ++ s) = (t₅ ++ s, .ok []) :=
      parseFormat_ok.mpr (.inr ⟨fun h => hhead ((head_extended hcolon hcut').mp h), rfl, rfl⟩)
    exact .inl ⟨_, sealed_closeCurly hclose, hformat', closeCurly_extended hclose hcut⟩

theorem reference_extended (h : ReferenceReads t e r) (hr : Follows r) (hcut : Cut r s)
    (hterm : ∀ t', t'.length < t.length → TermExtended s t') :
    (Sealed t r ∧ ∃ e', ReferenceReads (t ++ s) e' (r ++ s) ∧ TurnedExpr s e e') ∨
      (r = [] ∧ OpenFormat t ∧
        ∃ e', ReferenceReads (t ++ s) e' (s.dropWhile (· != '\x7d')) ∧
          Become s e.literals e'.literals) := by
  obtain ⟨t₁, curly, t₂, name, t₃, accessors, t₄, format, t₅, rfl, hcurly, hname, haccessors,
    hformat, hclose, rfl⟩ := referenceReads_iff.mp h
  have hstart : Sealed ('$' :: t₁) (t₃.dropWhile isSpace) :=
    (sealed_cons (by decide) t₁).trans ((sealed_parseCurly hcurly).trans
      ((sealed_parseId hname).trans (sealed_spaces t₃)))
  have hlength := hstart.suffix.length_le
  have hcut₅ : Cut t₅ s := hcut.of_suffix (sealed_closeCurly hclose).suffix
  have hcut₄ : Cut t₄ s := hcut₅.of_suffix (parseFormat_suffix hformat)
  obtain ⟨hsealed, accessors', haccessors', hturned⟩ :=
    accessors_extended haccessors hcut₄ fun t' ht' => hterm t' (by omega)
  have hcut₃ : Cut (t₃.dropWhile isSpace) s := hcut₄.of_suffix hsealed.suffix
  have hcut₃' : Cut t₃ s := hcut₃.of_suffix (List.dropWhile_suffix _)
  have hname' := parseId_extended hname hcut₃'
  have hcurly' := parseCurly_extended hcurly (hcut₃'.of_suffix (sealed_parseId hname).suffix)
  rw [← dropSpaces_extended hcut₃] at haccessors'
  obtain ⟨t₅', hsealed', hformat', hclose'⟩ | ⟨rfl, rfl, hopen, format', hformat'⟩ :=
    format_extended hformat hclose hr hcut
  · refine .inl ⟨hstart.trans (hsealed.trans hsealed'), .reference name format accessors', ?_,
      hturned.1, fun hkept => by rw [hturned.2 hkept]⟩
    exact referenceReads_iff.mpr ⟨_, curly, _, name, _, accessors', _, format, t₅', rfl, hcurly',
      hname', haccessors', hformat', hclose', rfl⟩
  · refine .inr ⟨rfl, hopen.of_suffix (hstart.trans hsealed).suffix,
      .reference name format' accessors', ?_, hturned.1⟩
    exact referenceReads_iff.mpr ⟨_, false, _, name, _, accessors', _, format', _, rfl, hcurly',
      hname', haccessors', hformat', closeCurly_ok.mpr rfl, rfl⟩

theorem term_extended (t : Text) : TermExtended s t := by
  -- by induction on the length: what stands in parentheses or indices is shorter
  induction hn : t.length using Nat.strong_induction_on generalizing t with
  | _ n ih =>
  intro e r h hr hcut
  have hterm (t' : Text) (ht' : t'.length < t.length) : TermExtended s t' :=
    ih t'.length (hn ▸ ht') t' rfl
  have hparen (op : Operator) : '(' ≠ op.char := by cases op <;> decide
  have hdollar (op : Operator) : '$' ≠ op.char := by cases op <;> decide
  obtain ⟨t', r₁, rfl, he, rfl⟩ | ⟨t', rfl, href⟩ | ⟨hp, hd, hnumber⟩ := termReads_cases h
  · have hspaces := (List.dropWhile_suffix isSpace (l := t')).length_le
    obtain ⟨hsealed, e', he', hturned⟩ := reads_extended (.inl rfl) he
      fun t'' ht'' => hterm t'' (by simp only [List.length_cons]; omega)
    refine .inl ⟨?_, e', ?_, hturned⟩
    · exact (sealed_cons (by decide) t').trans ((sealed_spaces t').trans (hsealed.trans
        ((sealed_cons (by decide) r₁).trans (sealed_spaces r₁))))
    · rw [List.cons_append, termReads_paren]
      refine ⟨r₁ ++ s, ?_, (dropSpaces_extended hcut).symm⟩
      rwa [dropSpaces_extended ((cut_cons ')' r₁).of_suffix hsealed.suffix)]
  · obtain ⟨hsealed, e', he', hturned⟩ | ⟨rfl, hopen, e', he', hbecome⟩ :=
      reference_extended href hr hcut hterm
    · exact .inl ⟨hsealed, e', termReads_reference.mpr he', hturned⟩
    · exact .inr ⟨rfl, hopen, e', termReads_reference.mpr he', hbecome⟩
  · obtain ⟨hsealed, e', he', hturned⟩ := number_extended hnumber hr hcut
    have hcut' : Cut t s := hcut.of_suffix hsealed.suffix
    refine .inl ⟨hsealed, e', (termReads_number ?_ ?_).mpr he', hturned⟩
    · exact fun h => hp ((head_extended hparen hcut').mp h)
    · exact fun h => hd ((head_extended hdollar hcut').mp h)

end Extended

/-! ## Adding an operator and more text -/

section Added

variable {op : Operator} {b : Text}

theorem opLevel_dropWhile (s : Text) : opLevel (s.dropWhile (· != '\x7d')).head? < 1 := by
  cases hhead : (s.dropWhile (· != '\x7d')).head? with
  | none => decide
  | some c =>
    have hc := List.head?_dropWhile_not (· != '\x7d') s
    rw [hhead] at hc
    obtain rfl : c = '\x7d' := by simpa using hc
    decide

/-- What becomes of terms that are read at the beginning of a text, as `reads` says. In
the first case what is added is read as if it had stood behind `r`. -/
def Added (op : Operator) (b : Text) (reads : Text → List Literal → Text → Prop) (t : Text)
    (ls : List Literal) (r : Text) : Prop :=
  (Sealed t r ∧ ∃ ls', Become (op.char :: b) ls ls' ∧
      ∀ more r', Tail 1 (r ++ op.char :: b) more r' →
        reads (t ++ op.char :: b) (ls' ++ more) r') ∨
    (r = [] ∧ OpenFormat t ∧ ∃ ls', Become (op.char :: b) ls ls' ∧
      reads (t ++ op.char :: b) ls' ((op.char :: b).dropWhile (· != '\x7d')))

/-- A term in front of the terms behind it. -/
theorem flat_added_of_tail {r₁ : Text} (he : TermReads t e r₁) (htail : Tail 1 r₁ ls r)
    (hr : Closes r) (hadded : Added op b (Tail 1) r₁ ls r) :
    Added op b (Flat 1) t (e.literals ++ ls) r := by
  obtain ⟨hsealed, e', he', hbecome, -⟩ | ⟨rfl, hopen, e', he', hbecome⟩ :=
    term_extended t e r₁ he (htail.follows hr) (cut_operator r₁ op b)
  · obtain ⟨hsealed', ls', hls', htail'⟩ | ⟨rfl, hopen, ls', hls', htail'⟩ := hadded
    · refine .inl ⟨hsealed.trans hsealed', e'.literals ++ ls', List.rel_append hbecome hls', ?_⟩
      intro more r' h
      exact ⟨e', _, ls' ++ more, he', htail' more r' h, List.append_assoc ..⟩
    · exact .inr ⟨rfl, hopen.of_suffix he.ahead.1, e'.literals ++ ls',
        List.rel_append hbecome hls', e', _, ls', he', htail', rfl⟩
  · -- nothing is left behind an open format
    cases htail with
    | stop =>
      exact .inr ⟨rfl, hopen, e'.literals ++ [], List.rel_append hbecome .nil, e', _, [], he',
        .stop (opLevel_dropWhile _), rfl⟩

/-- The terms behind the first one. -/
theorem tail_added (h : Tail 1 t ls r) (hr : Closes r) : Added op b (Tail 1) t ls r := by
  induction h with
  | stop => exact .inl ⟨.refl _, [], .nil, fun more r' h => h⟩
  | @more op' t r₁ r e ls hlevel hread hrest ih =>
    have hstart : Sealed (op'.char :: t) (t.dropWhile isSpace) :=
      (sealed_cons (by cases op' <;> decide) t).trans (sealed_spaces t)
    have hmore {ls' : List Literal} {r' : Text}
        (h : Flat 1 (t.dropWhile isSpace ++ op.char :: b) ls' r') :
        Tail 1 (op'.char :: t ++ op.char :: b) ls' r' := by
      obtain ⟨e', r₂, ls₂, he', htail, rfl⟩ := h
      rw [← dropSpaces_extended (cut_operator _ op b)] at he'
      exact .more hlevel he' htail
    obtain ⟨hsealed, ls', hls', hadded⟩ | ⟨rfl, hopen, ls', hls', hadded⟩ :=
      flat_added_of_tail hread hrest hr (ih hr)
    · exact .inl ⟨hstart.trans hsealed, ls', hls', fun more r' h => hmore (hadded more r' h)⟩
    · exact .inr ⟨rfl, hopen.of_suffix hstart.suffix, ls', hls', hmore hadded⟩

theorem flat_added (h : Flat 1 t ls r) (hr : Closes r) : Added op b (Flat 1) t ls r := by
  obtain ⟨e, r₁, ls₁, he, htail, rfl⟩ := h
  exact flat_added_of_tail he htail hr (tail_added htail hr)

end Added

/-! ## Whole texts -/

theorem dropSpaces_head (t : Text) (hc : (t.dropWhile isSpace).head? = some c) :
    isSpace c = false := by
  have hhead := List.head?_dropWhile_not isSpace t
  rw [hc] at hhead
  exact hhead

theorem accessors_rest {t r : Text} {accessors : Accessors} (h : AccessorsRead t accessors r)
    (ht : ∀ c, t.head? = some c → isSpace c = false) :
    ∀ c, r.head? = some c → isSpace c = false := by
  obtain ⟨_, _, t₁, _, -, -, hrest, rfl⟩ | ⟨_, _, t₁, _, -, -, hrest, rfl⟩ | ⟨-, -, rfl, rfl⟩ :=
    accessorsRead_cases h
  · exact accessors_rest hrest fun _ => dropSpaces_head t₁
  · exact accessors_rest hrest fun _ => dropSpaces_head t₁
  · exact ht
termination_by accessors

/-- White space behind a term is skipped with it. -/
theorem termReads_rest (h : TermReads t e r) : ∀ c, r.head? = some c → isSpace c = false := by
  obtain ⟨t', r₁, -, -, rfl⟩ | ⟨t', rfl, href⟩ | ⟨-, -, hnumber⟩ := termReads_cases h
  · exact fun _ => dropSpaces_head r₁
  · obtain ⟨_, curly, _, _, t₃, _, t₄, _, t₅, -, -, -, haccessors, hformat, hclose, -⟩ :=
      referenceReads_iff.mp href
    cases curly with
    | true =>
      obtain ⟨t', -, rfl⟩ := closeCurly_ok.mp hclose
      exact fun _ => dropSpaces_head t'
    | false =>
      obtain rfl : r = t₅ := closeCurly_ok.mp hclose
      obtain ⟨-, -, rfl⟩ | ⟨-, -, rfl⟩ := parseFormat_ok.mp hformat
      · intro c hc
        have hhead := List.head?_dropWhile_not (· != '\x7d') t₄
        rw [hc] at hhead
        obtain rfl : c = '\x7d' := by simpa using hhead
        decide
      · exact accessors_rest haccessors fun _ => dropSpaces_head t₃
  · unfold NumberReads at hnumber
    split at hnumber
    · obtain ⟨_, rest, -, rfl, -⟩ := parseFloat_ok.mp hnumber
      exact fun _ => dropSpaces_head rest
    · obtain ⟨_, rest, -, -, -, rfl, -⟩ := parseInt_ok.mp hnumber
      exact fun _ => dropSpaces_head rest

theorem Tail.rest (h : Tail level t ls r) (ht : ∀ c, t.head? = some c → isSpace c = false) :
    ∀ c, r.head? = some c → isSpace c = false := by
  induction h with
  | stop => exact ht
  | more _ hterm _ ih => exact ih (termReads_rest hterm)

/-- A text that is read as a whole is a flat sequence of terms up to its end. -/
theorem parseText_flat :
    (∃ e, parseText t = some e ∧ e.literals = ls) ↔ Flat 1 (t.dropWhile isSpace) ls [] := by
  constructor
  · rintro ⟨e, he, rfl⟩
    obtain ⟨r, hreads, hr⟩ := parseText_eq_some.mp he
    have hflat := (reads_iff_flat (by decide) _ _ _).mp ⟨e, hreads, rfl⟩
    obtain ⟨e₁, r₁, ls₁, hterm, htail, heq⟩ := hflat
    have hrest := htail.rest (termReads_rest hterm)
    obtain rfl : r = [] := by
      cases r with
      | nil => rfl
      | cons c =>
        rw [List.dropWhile_cons_of_neg (by simp [hrest c rfl])] at hr
        cases hr
    exact ⟨e₁, r₁, ls₁, hterm, htail, heq⟩
  · intro h
    obtain ⟨e, hreads, rfl⟩ := (reads_iff_flat (by decide) _ _ _).mpr h
    exact ⟨e, parseText_eq_some.mpr ⟨[], hreads, rfl⟩, rfl⟩

/-- A text and an operator in front of another text: the terms of both, unless a
format that is open at the end of the first swallows the second. -/
theorem parseText_added (op : Operator) {b : Text} {e₂ : Expr} (ht : parseText t = some e)
    (hb : parseText b = some e₂) :
    ∃ ls', Become (op.char :: b) e.literals ls' ∧
      ((¬ OpenFormat t ∧ ∃ c, parseText (t ++ op.char :: b) = some c ∧
          c.literals = ls' ++ e₂.literals) ∨
        (OpenFormat t ∧ if '\x7d' ∈ b then parseText (t ++ op.char :: b) = none
          else ∃ c, parseText (t ++ op.char :: b) = some c ∧ c.literals = ls')) := by
  have hflat := parseText_flat.mp ⟨e, ht, rfl⟩
  have hflat₂ := parseText_flat.mp ⟨e₂, hb, rfl⟩
  obtain ⟨hsealed, ls', hls', hadded⟩ | ⟨-, hopen, ls', hls', hadded⟩ :=
    flat_added hflat (fun c hc => nomatch hc)
  · refine ⟨ls', hls', .inl ⟨((sealed_spaces t).trans hsealed).not_open, ?_⟩⟩
    obtain ⟨e₃, r₃, ls₃, hterm, htail, heq⟩ := hflat₂
    have hlevel : 1 ≤ op.level := by cases op <;> decide
    obtain ⟨c, hc, hliterals⟩ := parseText_flat.mpr (by
      rw [dropSpaces_extended (cut_operator _ op b)]
      exact hadded _ _ (.more hlevel hterm htail))
    exact ⟨c, hc, by rw [hliterals, heq]⟩
  · refine ⟨ls', hls', .inr ⟨hopen.of_suffix (List.dropWhile_suffix _), ?_⟩⟩
    rw [← dropSpaces_extended (cut_operator _ op b)] at hadded
    split
    · next hmem =>
      -- what is left starts with the brace, and reading is unique
      cases hparse : parseText (t ++ op.char :: b) with
      | none => rfl
      | some =>
        obtain ⟨r, hreads, hr⟩ := parseText_eq_some.mp hparse
        obtain ⟨c', hreads', -⟩ := (reads_iff_flat (by decide) _ _ _).mpr hadded
        obtain ⟨-, rfl⟩ := hreads.unique hreads' (by decide)
        obtain ⟨v, hv⟩ := dropWhile_brace_cons (List.mem_cons_of_mem op.char hmem)
        rw [hv, List.dropWhile_cons_of_neg (by decide)] at hr
        cases hr
    · next hmem =>
      have hnot : '\x7d' ∉ op.char :: b := by
        rw [List.mem_cons, not_or]
        exact ⟨by cases op <;> decide, hmem⟩
      rw [dropWhile_brace_nil hnot] at hadded
      exact parseText_flat.mpr hadded

theorem becomes_prefix_iff (h : Become s ls ls') (more : List Literal) :
    ls <+: ls' ++ more ↔ '.' ∉ s ∨ ∀ l ∈ ls, l.isInteger = false := by
  rw [← h.eq_iff]
  constructor
  · intro hprefix
    exact (List.IsPrefix.eq_of_length (List.prefix_of_prefix_length_le hprefix
      (List.prefix_append ls' more) h.length_eq.le) h.length_eq).symm
  · rintro rfl
    exact List.prefix_append _ _

/-- The literals of a text keep their places and kinds when an operator and another
text follow, exactly when no integer among them is made floating by a point and no
open format of the first text runs into a closing brace of the second. -/
theorem literals_in_context_iff (op : Operator) (a b : Text) (e e₂ : Expr)
    (ha : parseText a = some e) (hb : parseText b = some e₂) :
    (∃ c, parseText (a ++ op.char :: b) = some c ∧ e.literals <+: c.literals) ↔
      ('.' ∉ b ∨ ∀ l ∈ e.literals, l.isInteger = false) ∧ (¬ OpenFormat a ∨ '\x7d' ∉ b) := by
  have hpoint : '.' ∈ op.char :: b ↔ '.' ∈ b := by
    have hop : '.' ≠ op.char := by cases op <;> decide
    simp [hop]
  obtain ⟨ls', hls', ⟨hclosed, c, hc, hliterals⟩ | ⟨hopen, hadded⟩⟩ := parseText_added op ha hb
  · have hiff := becomes_prefix_iff hls' e₂.literals
    rw [hpoint] at hiff
    rw [hc, ← hiff, ← hliterals]
    simp [hclosed]
  · have hiff := becomes_prefix_iff hls' []
    rw [hpoint, List.append_nil] at hiff
    split at hadded
    · next hmem => simp [hadded, hopen, hmem]
    · next hmem =>
      obtain ⟨c, hc, rfl⟩ := hadded
      rw [hc, ← hiff]
      simp [hmem]

theorem literals_in_context_product :
    ∃ c, parseText ("1.5+2".toList ++ Operator.mult.char :: "$y-4".toList) = some c ∧
      [Literal.floating "1.5".toList, .integer 2] <+: c.literals :=
  (literals_in_context_iff .mult "1.5+2".toList "$y-4".toList
    (.operation (.floatLiteral "1.5".toList) (.cons .plus (.intLiteral 2) .nil))
    (.operation (.reference ['y'] [] .nil) (.cons .minus (.intLiteral 4) .nil))
    (by decide +kernel) (by decide +kernel)).mpr ⟨.inl (by decide), .inr (by decide)⟩

/-- The integer in front of a sum turns into a floating-point number. -/
theorem integer_before_point :
    parseText "1".toList = some (.intLiteral 1) ∧
      parseText "2.5".toList = some (.floatLiteral "2.5".toList) ∧
      parseText ("1".toList ++ Operator.plus.char :: "2.5".toList) =
        some (.operation (.floatLiteral "1".toList)
          (.cons .plus (.floatLiteral "2.5".toList) .nil)) := by
  decide +kernel

end Pdi.Expression
