import Pdi.ExpressionContext
import Pdi.ExpressionForms
import Pdi.StringLiteral

/-!
# Strings with references in them

A text made of raw texts and references in turn. It is read as the string that it looks
like when each reference ends where it was written to end. But the parser of a reference
goes on: a name takes the letters behind it, white space, indices, members and a format;
the white space behind a closing brace or parenthesis is skipped; and a point anywhere
behind an operation turns its integers into floating-point numbers.
-/
namespace Pdi.Expression

open Pdi.Cursor Pdi.NumberText Pdi.Datatypes

/-! ## Texts -/

variable {c : Char} {e : Expr} {u : Text}

/-- A reference as it is written in a string. -/
inductive Embedding where
  | name (n : Text)
  | braced (n : Text)
  | formatted (n format : Text)
  | operation (text : Text)

/-- What is behind the dollar sign. -/
def Embedding.body : Embedding → Text
  | .name n => n
  | .braced n => '\x7b' :: (n ++ ['\x7d'])
  | .formatted n format => '\x7b' :: (n ++ (':' :: format ++ ['\x7d']))
  | .operation text => '(' :: (text ++ [')'])

def IsName (n : Text) : Prop :=
  ∃ c rest, n = c :: rest ∧ idStart c = true ∧ ∀ x ∈ rest, idPart x = true

/-- The expression that a reference is on its own. -/
inductive Denotes : Embedding → Expr → Prop where
  | name {n : Text} (h : IsName n) : Denotes (.name n) (.reference n [] .nil)
  | braced {n : Text} (h : IsName n) : Denotes (.braced n) (.reference n [] .nil)
  | formatted {n format : Text} (h : IsName n) (hformat : '\x7d' ∉ format) :
    Denotes (.formatted n format) (.reference n (':' :: format) .nil)
  | operation {text : Text} {e : Expr} (h : TermReads ('(' :: (text ++ [')'])) e []) :
    Denotes (.operation text) e

/-- A reference and the raw text behind it. -/
structure Piece where
  embedding : Embedding
  value : Expr
  text : Text
  denotes : Denotes embedding value
  raw : ∀ c ∈ text, plain c = true

/-- Raw texts and references in turn. -/
structure Interpolation where
  start : Text
  pieces : List Piece
  raw : ∀ c ∈ start, plain c = true

def piecesSource : List Piece → Text
  | [] => []
  | p :: rest => '$' :: (p.embedding.body ++ (p.text ++ piecesSource rest))

def Interpolation.source (i : Interpolation) : Text := i.start ++ piecesSource i.pieces

/-- The values of the references and the raw texts behind them, in order. -/
def piecesText (value : Expr → Except Failure Text) : List Piece → Except Failure Text
  | [] => .ok []
  | p :: rest => do
    let v ← value p.value
    let more ← piecesText value rest
    pure (v ++ p.text ++ more)

/-- All raw texts and the values of all references, in order. -/
def Interpolation.text (value : Expr → Except Failure Text) (i : Interpolation) :
    Except Failure Text := do
  let more ← piecesText value i.pieces
  pure (i.start ++ more)

/-- What does not start with white space. -/
def NoSpace (s : Text) : Prop := ∀ c, s.head? = some c → isSpace c = false

/-- The text `s` behind a reference is not taken for a part of it. -/
def Embedding.Separated (e : Expr) (s : Text) : Embedding → Prop
  | .name _ => NoSpace s ∧
      ∀ c, s.head? = some c → idPart c = false ∧ c ≠ '[' ∧ c ≠ '.' ∧ c ≠ ':'
  | .braced _ | .formatted _ _ => NoSpace s
  | .operation _ => NoSpace s ∧ ('.' ∉ s ∨ ∀ l ∈ e.literals, l.isInteger = false)

/-- Each reference is separated from all the text behind it. -/
def Separated : List Piece → Prop
  | [] => True
  | p :: rest =>
    p.embedding.Separated p.value (p.text ++ piecesSource rest) ∧ Separated rest

/-! ## What a reference takes -/

variable {i : Embedding}

section Reads

variable {s r n : Text}

theorem NoSpace.dropWhile (h : NoSpace s) : s.dropWhile isSpace = s := by
  cases s with
  | nil => rfl
  | cons c => exact List.dropWhile_cons_of_neg (by simp [h c rfl])

theorem noSpace_dropWhile (s : Text) : NoSpace (s.dropWhile isSpace) := fun _ => dropSpaces_head s

theorem dropSpaces_eq_self_iff : s.dropWhile isSpace = s ↔ NoSpace s :=
  ⟨fun h => h ▸ noSpace_dropWhile s, NoSpace.dropWhile⟩

/-- A name is read with all that can be a part of it. -/
theorem IsName.parseId {name : Text} (h : IsName n) :
    parseId.run (n ++ s) = (r, .ok name) ↔
      r = s.dropWhile idPart ∧ name = n ++ s.takeWhile idPart := by
  obtain ⟨c, rest, rfl, hc, hrest⟩ := h
  rw [parseId_ok]
  constructor
  · rintro ⟨c', rest', heq, -, rfl, rfl⟩
    obtain ⟨rfl, rfl⟩ := List.cons.inj heq
    refine ⟨List.dropWhile_append_of_pos hrest, ?_⟩
    exact congrArg (c :: ·) (List.takeWhile_append_of_pos hrest)
  · rintro ⟨rfl, rfl⟩
    refine ⟨c, rest ++ s, rfl, hc, (List.dropWhile_append_of_pos hrest).symm, ?_⟩
    exact congrArg (c :: ·) (List.takeWhile_append_of_pos hrest).symm

theorem IsName.head_ne (h : IsName n) (hc : idStart c = false) : (n ++ s).head? ≠ some c := by
  obtain ⟨c', rest, rfl, hc', -⟩ := h
  rintro ⟨⟩
  rw [hc] at hc'
  cases hc'

theorem idStart_not_space (h : idStart c = true) : isSpace c = false := by
  have hall : ∀ a ∈ [' ', '\t', '\n', '\x0b', '\x0c', '\r'], idStart a = false :=
    forall_mem_of_all (by decide +kernel)
  refine Bool.eq_false_iff.mpr fun hspace => ?_
  rw [hall c (by simpa [isSpace] using hspace)] at h
  cases h

/-- What a name is read as without an index, a member and a format. -/
theorem name_reads (h : IsName n) :
    ReferenceReads ('$' :: (n ++ s)) (.reference n [] .nil) r ↔
      (∀ c, s.head? = some c → idPart c = false) ∧ r = s.dropWhile isSpace ∧
        r.head? ≠ some '[' ∧ r.head? ≠ some '.' ∧ r.head? ≠ some ':' := by
  rw [referenceReads_iff]
  constructor
  · rintro ⟨t₁, curly, t₂, name, t₃, accessors, t₄, format, t₅, heq, hcurly, hname, haccessors,
      hformat, hclose, he⟩
    cases heq
    cases he
    obtain ⟨t', heq, -⟩ | ⟨-, rfl, rfl⟩ := parseCurly_ok.mp hcurly
    · exact absurd (by rw [heq]; rfl) (h.head_ne (s := s) (c := '\x7b') (by decide))
    obtain rfl : r = t₅ := closeCurly_ok.mp hclose
    obtain ⟨rfl, hn⟩ := h.parseId.mp hname
    have hpart : s.takeWhile idPart = [] :=
      List.append_cancel_left ((List.append_nil n).trans hn).symm
    have hs : s.dropWhile idPart = s := by
      have happend := List.takeWhile_append_dropWhile (p := idPart) (l := s)
      rwa [hpart, List.nil_append] at happend
    rw [hs] at haccessors
    obtain ⟨_, _, _, _, -, -, -, hnil⟩ | ⟨_, _, _, _, -, -, -, hnil⟩ | ⟨hindex, hmember, -, rfl⟩ :=
      accessorsRead_cases haccessors
    · cases hnil
    · cases hnil
    obtain ⟨hhead, hnil, -⟩ | ⟨hhead, -, rfl⟩ := parseFormat_ok.mp hformat
    · obtain ⟨v, hv⟩ := List.head?_eq_some_iff.mp hhead
      rw [hv] at hnil
      cases hnil
    · refine ⟨fun c hc => ?_, rfl, hindex, hmember, hhead⟩
      obtain ⟨v, rfl⟩ := List.head?_eq_some_iff.mp hc
      by_contra hpartc
      rw [List.takeWhile_cons_of_pos (by simpa using hpartc)] at hpart
      cases hpart
  · rintro ⟨hpart, rfl, hindex, hmember, hcolon⟩
    have hs : s.dropWhile idPart = s ∧ s.takeWhile idPart = [] := by
      cases s with
      | nil => exact ⟨rfl, rfl⟩
      | cons c =>
        have hc : ¬ idPart c = true := by simp [hpart c rfl]
        exact ⟨List.dropWhile_cons_of_neg hc, List.takeWhile_cons_of_neg hc⟩
    exact ⟨n ++ s, false, n ++ s, n, s, .nil, _, [], _, rfl,
      parseCurly_ok.mpr (.inr ⟨h.head_ne (by decide), rfl, rfl⟩),
      h.parseId.mpr ⟨hs.1.symm, by rw [hs.2, List.append_nil]⟩,
      (accessorsRead_nil hindex hmember).mpr ⟨rfl, rfl⟩,
      parseFormat_ok.mpr (.inr ⟨hcolon, rfl, rfl⟩), closeCurly_ok.mpr rfl, rfl⟩

/-- A reference in braces, with the text `format` up to the closing one. -/
theorem braced_reads (h : IsName n) {format : Text}
    (hformat : format = [] ∨ format.head? = some ':')
    (hbrace : '\x7d' ∉ format) :
    ReferenceReads ('$' :: '\x7b' :: (n ++ (format ++ '\x7d' :: s))) (.reference n format .nil)
      (s.dropWhile isSpace) := by
  -- the text behind the name starts with a colon or the brace
  obtain ⟨c, rest, hrest, hc⟩ : ∃ c rest, format ++ '\x7d' :: s = c :: rest ∧
    (c = ':' ∨ c = '\x7d') := by
    cases format with
    | nil => exact ⟨_, _, rfl, .inr rfl⟩
    | cons c =>
      obtain h | h := hformat
      · cases h
      · exact ⟨c, _, rfl, .inl (Option.some.inj h)⟩
  have hspace : isSpace c = false := by rcases hc with rfl | rfl <;> decide
  have hpart : idPart c = false := by rcases hc with rfl | rfl <;> decide
  have hn : (n ++ (format ++ '\x7d' :: s)).dropWhile isSpace = n ++ (format ++ '\x7d' :: s) := by
    obtain ⟨c', rest', rfl, hc', -⟩ := h
    refine List.dropWhile_cons_of_neg ?_
    intro hspace'
    rw [idStart_not_space hc'] at hspace'
    cases hspace'
  have hid : parseId.run (n ++ (format ++ '\x7d' :: s)) = (format ++ '\x7d' :: s, .ok n) := by
    rw [h.parseId, hrest, List.dropWhile_cons_of_neg (by simp [hpart]),
      List.takeWhile_cons_of_neg (by simp [hpart]), List.append_nil]
    exact ⟨rfl, rfl⟩
  have haccessors : AccessorsRead ((format ++ '\x7d' :: s).dropWhile isSpace) .nil
      (format ++ '\x7d' :: s) := by
    rw [hrest, List.dropWhile_cons_of_neg (by simp [hspace])]
    refine (accessorsRead_nil ?_ ?_).mpr ⟨rfl, rfl⟩
    · rcases hc with rfl | rfl <;> simp
    · rcases hc with rfl | rfl <;> simp
  have hread : parseFormat.run (format ++ '\x7d' :: s) = ('\x7d' :: s, .ok format) := by
    rw [parseFormat_ok]
    cases format with
    | nil => exact .inr ⟨by simp, rfl, rfl⟩
    | cons =>
      refine .inl ⟨hformat.resolve_left (List.cons_ne_nil _ _), ?_, ?_⟩
      · exact (takeWhile_brace hbrace s).symm
      · exact (dropWhile_brace hbrace s).symm
  exact referenceReads_iff.mpr ⟨_, true, _, n, _, .nil, _, format, _, rfl,
    parseCurly_ok.mpr (.inl ⟨_, rfl, rfl, hn.symm⟩), hid, haccessors, hread,
    closeCurly_ok.mpr ⟨s, rfl, rfl⟩, rfl⟩

theorem TermReads.unique {t r' : Text} {e' : Expr} (h : TermReads t e r) (h' : TermReads t e' r') :
    e = e' ∧ r = r' := (reads_seven.mpr h).unique (reads_seven.mpr h') (by decide)

/-- White space is not the end of a text that ends in something else. -/
theorem eq_nil_of_spaces (hc : isSpace c = false) (hr : r <:+ u ++ [c])
    (hspaces : r.dropWhile isSpace = []) : r = [] := by
  obtain ⟨w, hw⟩ := hr
  obtain rfl | ⟨r', x, rfl⟩ := List.eq_nil_or_concat r
  · rfl
  · rw [List.concat_eq_append, ← List.append_assoc] at hw
    obtain ⟨-, hx⟩ := List.append_inj' hw rfl
    cases hx
    have hall := List.dropWhile_eq_nil_iff.mp hspaces c (by simp)
    rw [hc] at hall
    cases hall

/-- An operation in parentheses is read up to the closing one, whatever is behind it. -/
theorem operation_reads (h : TermReads ('(' :: (u ++ [')'])) e []) (s : Text) :
    ∃ e', TermReads ('(' :: (u ++ ')' :: s)) e' (s.dropWhile isSpace) ∧ TurnedExpr s e e' := by
  obtain ⟨r₁, hreads, hr₁⟩ := termReads_paren.mp h
  have hsuffix : ')' :: r₁ <:+ u ++ [')'] :=
    (hreads.ahead (by decide)).1.trans (List.dropWhile_suffix _)
  obtain rfl : r₁ = [] :=
    eq_nil_of_spaces (by decide) ((List.suffix_cons _ _).trans hsuffix) hr₁.symm
  obtain ⟨hsealed, e', he', hturned⟩ :=
    reads_extended (.inl rfl) hreads fun t' _ => term_extended t'
  have hcut : Cut ((u ++ [')']).dropWhile isSpace) s := (cut_cons ')' []).of_suffix hsealed.suffix
  refine ⟨e', ?_, hturned⟩
  rw [termReads_paren]
  refine ⟨s, ?_, rfl⟩
  rw [← dropSpaces_extended hcut, List.append_assoc] at he'
  exact he'

theorem name_embedded (h : IsName n) :
    EmbeddedReads (n ++ s) (.reference n [] .nil) r ↔
      (∀ c, s.head? = some c → idPart c = false) ∧ r = s.dropWhile isSpace ∧
        r.head? ≠ some '[' ∧ r.head? ≠ some '.' ∧ r.head? ≠ some ':' := by
  have hparen : (n ++ s).head? ≠ some '(' := h.head_ne (by decide)
  rw [EmbeddedReads, if_neg hparen, name_reads h]

theorem braced_embedded (h : IsName n) (format : Text)
    (hformat : format = [] ∨ format.head? = some ':') (hbrace : '\x7d' ∉ format) :
    EmbeddedReads ('\x7b' :: (n ++ (format ++ '\x7d' :: s))) (.reference n format .nil) r ↔
      r = s.dropWhile isSpace := by
  have hreads : EmbeddedReads ('\x7b' :: (n ++ (format ++ '\x7d' :: s))) (.reference n format .nil)
      (s.dropWhile isSpace) := by
    rw [EmbeddedReads, if_neg (by simp)]
    exact braced_reads h hformat hbrace
  constructor
  · intro h'
    exact (h'.unique hreads).2
  · rintro rfl
    exact hreads

theorem operation_embedded (h : TermReads ('(' :: (u ++ [')'])) e []) :
    EmbeddedReads ('(' :: (u ++ ')' :: s)) e r ↔
      r = s.dropWhile isSpace ∧ Unturned s e.literals := by
  obtain ⟨e', he', hturned⟩ := operation_reads h s
  rw [EmbeddedReads, if_pos (by rfl), ← hturned.eq_iff]
  constructor
  · intro h'
    obtain ⟨rfl, rfl⟩ := h'.unique he'
    exact ⟨rfl, rfl⟩
  · rintro ⟨rfl, rfl⟩
    exact he'

/-- A reference that is read as what it is on its own leaves all the text behind it, up
to white space. -/
theorem Denotes.rest (h : Denotes i e) (hreads : EmbeddedReads (i.body ++ s) e r) :
    r = s.dropWhile isSpace := by
  cases h with
  | name h => exact ((name_embedded h).mp hreads).2.1
  | braced h =>
    simp only [Embedding.body, List.cons_append, List.append_assoc] at hreads
    exact (braced_embedded h [] (.inl rfl) (by simp)).mp hreads
  | formatted h hformat =>
    simp only [Embedding.body, List.cons_append, List.append_assoc] at hreads
    exact (braced_embedded h (':' :: _) (.inr rfl) (by simpa using hformat)).mp hreads
  | operation h =>
    simp only [Embedding.body, List.cons_append, List.append_assoc] at hreads
    exact ((operation_embedded h).mp hreads).1

theorem Denotes.reads_iff (h : Denotes i e) :
    EmbeddedReads (i.body ++ s) e s ↔ i.Separated e s := by
  have hspace : s = s.dropWhile isSpace ↔ NoSpace s := eq_comm.trans dropSpaces_eq_self_iff
  cases h with
  | name h =>
    rw [Embedding.body, name_embedded h, hspace, Embedding.Separated]
    constructor
    · rintro ⟨hpart, hs, hindex, hmember, hcolon⟩
      refine ⟨hs, fun c hc => ⟨hpart c hc, ?_, ?_, ?_⟩⟩
      · rintro rfl
        exact hindex hc
      · rintro rfl
        exact hmember hc
      · rintro rfl
        exact hcolon hc
    · rintro ⟨hs, hc⟩
      exact ⟨fun c h => (hc c h).1, hs, fun h => (hc _ h).2.1 rfl, fun h => (hc _ h).2.2.1 rfl,
        fun h => (hc _ h).2.2.2 rfl⟩
  | braced h =>
    simp only [Embedding.body, List.cons_append, List.append_assoc]
    exact (braced_embedded h [] (.inl rfl) (by simp)).trans hspace
  | formatted h hformat =>
    simp only [Embedding.body, List.cons_append, List.append_assoc]
    exact (braced_embedded h (':' :: _) (.inr rfl) (by simpa using hformat)).trans hspace
  | operation h =>
    simp only [Embedding.body, List.cons_append, List.append_assoc]
    exact (operation_embedded h).trans (and_congr_left' hspace)

end Reads

/-! ## Whole strings -/

/-- The string that the text looks like. -/
def Interpolation.literal (i : Interpolation) : StringLiteral :=
  ⟨i.start, i.pieces.map fun p => (p.value, p.text)⟩

section Strings

variable {t r : Text} {s : StringLiteral}

theorem stringReads_raw (ht : ∀ c ∈ t, plain c = true) :
    StringReads (t ++ r) s ↔ ∃ s', StringReads r s' ∧ s = ⟨t ++ s'.start, s'.values⟩ := by
  induction t generalizing s with
  | nil => simp
  | cons c t ih =>
    rw [List.cons_append, stringReads_plain (ht c List.mem_cons_self)]
    constructor
    · rintro ⟨s', h, rfl⟩
      obtain ⟨s'', hr, rfl⟩ := (ih fun x hx => ht x (List.mem_cons_of_mem _ hx)).mp h
      exact ⟨s'', hr, rfl⟩
    · rintro ⟨s', h, rfl⟩
      exact ⟨_, (ih fun x hx => ht x (List.mem_cons_of_mem _ hx)).mpr ⟨s', h, rfl⟩, rfl⟩

theorem stringReads_behind_raw (ht : ∀ c ∈ t, plain c = true) {values : List (Expr × Text)} :
    StringReads (t ++ r) ⟨t, values⟩ ↔ StringReads r ⟨[], values⟩ := by
  rw [stringReads_raw ht]
  constructor
  · rintro ⟨⟨start, values⟩, h, heq⟩
    obtain ⟨hstart, rfl⟩ := StringLiteral.mk.inj heq
    obtain rfl : start = [] := List.append_cancel_left ((List.append_nil t).trans hstart).symm
    exact h
  · intro h
    exact ⟨_, h, by rw [List.append_nil]⟩

/-- A string starts with what its text starts with, or with a backslash. -/
theorem StringReads.head (h : StringReads t s) (hc : s.start.head? = some c) :
    t.head? = some c ∨ c = '\\' := by
  cases h with
  | nil | embedded => cases hc
  | raw => exact .inl hc
  | escape => exact .inr (Option.some.inj hc).symm

/-- No white space is lost in front of a text that is read as itself. -/
theorem noSpace_of_reads {p : Piece} {ps : List Piece}
    (h : StringReads ((p.text ++ piecesSource ps).dropWhile isSpace) s) (hs : s.start = p.text) :
    NoSpace (p.text ++ piecesSource ps) := by
  intro c hc
  cases htext : p.text with
  | nil =>
    rw [htext] at hc
    cases ps with
    | nil => cases hc
    | cons =>
      cases hc
      decide
  | cons =>
    rw [htext] at hs hc
    cases hc
    obtain hhead | rfl := h.head (c := c) (by rw [hs]; rfl)
    · exact noSpace_dropWhile _ c hhead
    · decide

theorem pieces_read (ps : List Piece) :
    StringReads (piecesSource ps) ⟨[], ps.map fun p => (p.value, p.text)⟩ ↔ Separated ps := by
  induction ps with
  | nil => exact iff_of_true .nil trivial
  | cons p ps ih =>
    rw [piecesSource, Separated, ← p.denotes.reads_iff, ← ih, stringReads_embedded]
    constructor
    · rintro ⟨e, r, s', he, hr, heq⟩
      simp only [StringLiteral.embed, List.map_cons, StringLiteral.mk.injEq, List.cons.injEq,
        Prod.mk.injEq, true_and] at heq
      obtain ⟨⟨rfl, hstart⟩, hvalues⟩ := heq
      obtain rfl := p.denotes.rest he
      have hspace := noSpace_of_reads hr hstart.symm
      rw [hspace.dropWhile] at he hr
      refine ⟨he, (stringReads_behind_raw p.raw).mp ?_⟩
      rw [hstart] at hr
      rwa [hstart, hvalues]
    · rintro ⟨he, hps⟩
      exact ⟨_, _, _, he, (stringReads_behind_raw p.raw).mpr hps, rfl⟩

/-- A text is read as the string it looks like exactly when its references are separated
from what follows them. -/
theorem source_reads (i : Interpolation) : StringReads i.source i.literal ↔ Separated i.pieces := by
  rw [← pieces_read]
  exact stringReads_behind_raw i.raw

end Strings

/-! ## The value of a string -/

section Values

/-- Characters and expressions in their order. -/
def StringLiteral.tokens (s : StringLiteral) : List (Char ⊕ Expr) :=
  s.start.map .inl ++ s.values.flatMap fun v => .inr v.1 :: v.2.map .inl

/-- The text of a token, for some texts of the expressions. -/
def tokenText (f : Expr → Text) : Char ⊕ Expr → Text
  | .inl c => [c]
  | .inr e => f e

theorem flatMap_inl (f : Expr → Text) (t : Text) : (t.map .inl).flatMap (tokenText f) = t := by
  induction t with
  | nil => rfl
  | cons c t ih =>
    rw [List.map_cons, List.flatMap_cons, ih]
    rfl

theorem concatenate_ok (f : Expr → Text) (values : List (Expr × Text)) (result : Text) :
    concatenate (fun e => .ok (f e)) values result =
      .ok (result ++ values.flatMap fun v => f v.1 ++ v.2) := by
  induction values generalizing result with
  | nil => rw [concatenate, List.flatMap_nil, List.append_nil]
  | cons v values ih =>
    obtain ⟨e, text⟩ := v
    rw [concatenate]
    change concatenate _ values (result ++ f e ++ text) = _
    rw [ih, List.flatMap_cons]
    simp only [List.append_assoc]

theorem text_tokens (f : Expr → Text) (s : StringLiteral) :
    s.text (fun e => .ok (f e)) = .ok (s.tokens.flatMap (tokenText f)) := by
  rw [StringLiteral.text, concatenate_ok, StringLiteral.tokens, List.flatMap_append, flatMap_inl,
    List.flatMap_assoc]
  simp only [List.flatMap_cons, flatMap_inl, tokenText]

/-- Sequences of characters and expressions with the same text, whatever the texts of
the expressions are. -/
theorem tokens_eq {l l' : List (Char ⊕ Expr)}
    (h : ∀ f, l.flatMap (tokenText f) = l'.flatMap (tokenText f)) : l = l' := by
  induction l generalizing l' with
  | nil =>
    cases l' with
    | nil => rfl
    | cons x =>
      have hx := h fun _ => ['a']
      cases x <;> cases hx
  | cons x l ih =>
    cases l' with
    | nil =>
      have hx := h fun _ => ['a']
      cases x <;> cases hx
    | cons y =>
      simp only [List.flatMap_cons] at h
      obtain rfl : x = y := by
        match x, y with
        | .inl c, .inl d => exact congrArg _ (List.cons.inj (h fun _ => [])).1
        | .inl c, .inr e =>
          have ha : c = 'a' := (List.cons.inj (h fun _ => ['a'])).1
          have hb : c = 'b' := (List.cons.inj (h fun _ => ['b'])).1
          rw [ha] at hb
          cases hb
        | .inr e, .inl c =>
          have ha : 'a' = c := (List.cons.inj (h fun _ => ['a'])).1
          have hb : 'b' = c := (List.cons.inj (h fun _ => ['b'])).1
          rw [← ha] at hb
          cases hb
        | .inr e, .inr e' =>
          have he := (List.cons.inj (h fun x => [if x = e then 'a' else 'b'])).1
          simp only [if_true] at he
          split at he
          · next heq => rw [heq]
          · cases he
      rw [ih fun f => List.append_cancel_left (h f)]

/-- The string that a sequence of characters and expressions makes. -/
def ofTokens : List (Char ⊕ Expr) → StringLiteral
  | [] => ⟨[], []⟩
  | .inl c :: rest => (ofTokens rest).push c
  | .inr e :: rest => (ofTokens rest).embed e

theorem ofTokens_raw (t : Text) (l : List (Char ⊕ Expr)) :
    ofTokens (t.map .inl ++ l) = ⟨t ++ (ofTokens l).start, (ofTokens l).values⟩ := by
  induction t with
  | nil => rfl
  | cons c t ih =>
    rw [List.map_cons, List.cons_append, ofTokens, ih]
    rfl

theorem ofTokens_tokens (s : StringLiteral) : ofTokens s.tokens = s := by
  obtain ⟨start, values⟩ := s
  have hvalues : ofTokens (values.flatMap fun v => .inr v.1 :: v.2.map .inl) = ⟨[], values⟩ := by
    induction values with
    | nil => rfl
    | cons v values ih =>
      rw [List.flatMap_cons, List.cons_append, ofTokens, ofTokens_raw, ih, List.append_nil]
      rfl
  rw [StringLiteral.tokens, ofTokens_raw, hvalues, List.append_nil]

/-- A string is known by its value, whatever the values of its expressions are. -/
theorem text_injective {s s' : StringLiteral} (h : ∀ value, s.text value = s'.text value) :
    s = s' := by
  have htokens : s.tokens = s'.tokens := by
    refine tokens_eq fun f => ?_
    have hf := h fun e => .ok (f e)
    rw [text_tokens, text_tokens] at hf
    exact Except.ok.inj hf
  rw [← ofTokens_tokens s, htokens, ofTokens_tokens]

theorem concatenate_pieces (value : Expr → Except Failure Text) (ps : List Piece) (result : Text) :
    concatenate value (ps.map fun p => (p.value, p.text)) result =
      (piecesText value ps).map (result ++ ·) := by
  induction ps generalizing result with
  | nil => simp [concatenate, piecesText, Except.map]
  | cons p ps ih =>
    rw [List.map_cons, concatenate, piecesText]
    cases value p.value with
    | error => rfl
    | ok v =>
      change concatenate value _ (result ++ v ++ p.text) = _
      rw [ih]
      cases piecesText value ps with
      | error => rfl
      | ok =>
        exact congrArg Except.ok (by simp only [List.append_assoc])

theorem text_literal (value : Expr → Except Failure Text) (i : Interpolation) :
    i.literal.text value = i.text value := by
  rw [StringLiteral.text, Interpolation.literal, concatenate_pieces, Interpolation.text]
  cases piecesText value i.pieces <;> rfl

end Values

/-- The text is read as a string whose value is made of all the raw texts and of the
values of the references, in order and whatever these values are. -/
def Concatenates (i : Interpolation) : Prop :=
  ∃ s, parse i.source = .ok (.string s) ∧ ∀ value, s.text value = i.text value

/-- A text that is no operation is concatenated exactly when each reference in it is
separated from what is behind it. -/
theorem interpolation_iff (i : Interpolation) (h : parseText i.source = none) :
    Concatenates i ↔ Separated i.pieces := by
  rw [← source_reads]
  constructor
  · rintro ⟨s, hs, htext⟩
    obtain rfl : s = i.literal :=
      text_injective fun value => (htext value).trans (text_literal value i).symm
    exact (parse_string h).mp hs
  · intro hreads
    exact ⟨i.literal, (parse_string h).mpr hreads, fun value => text_literal value i⟩

theorem interpolation_iff_line :
    let x : Piece := ⟨.name ['x'], .reference ['x'] [] .nil, ", y: ".toList,
      .name ⟨'x', [], rfl, rfl, nofun⟩, List.all_eq_true.mp (by decide)⟩
    let y : Piece := ⟨.formatted ['y'] "03d".toList, .reference ['y'] ":03d".toList .nil,
      "!".toList, .formatted ⟨'y', [], rfl, rfl, nofun⟩ (by decide),
      List.all_eq_true.mp (by decide)⟩
    Concatenates ⟨"x: ".toList, [x, y], List.all_eq_true.mp (by decide)⟩ := by
  refine (interpolation_iff _ (by decide +kernel)).mpr ⟨⟨?_, ?_⟩, ?_, trivial⟩
  · rintro c ⟨⟩
    decide
  · rintro c ⟨⟩
    decide
  · rintro c ⟨⟩
    decide

/-- The space behind a name is lost. -/
theorem space_behind_name :
    parseText "$a b".toList = none ∧
      parse "$a b".toList = .ok (.string ⟨[], [(.reference ['a'] [] .nil, ['b'])]⟩) ∧
      (StringLiteral.mk [] [(.reference ['a'] [] .nil, ['b'])]).text (fun _ => .ok ['1']) =
        .ok "1b".toList := by
  decide +kernel

/-- A point behind an integer division makes it a division of floating-point numbers. -/
example : parse "$(7/2).".toList = .ok (.string ⟨[],
    [(.operation (.floatLiteral ['7']) (.cons .div (.floatLiteral ['2']) .nil), ['.'])]⟩) := by
  decide +kernel

/-! ## The value in a context -/

mutual
/-- The expression that has been parsed, with what it evaluates to. -/
def Expr.form {P : Platform} : Expr → Form P
  | .intLiteral value => .intLiteral value
  | .floatLiteral text => .floatLiteral (P.ofText text)
  | .reference referenced format subelements =>
    .reference referenced format subelements.forms
  | .operation first operands => .operation first.form operands.forms

def Operands.forms {P : Platform} : Operands → FormOperands P
  | .nil => .nil
  | .cons op operand rest => .cons op operand.form rest.forms

def Accessors.forms {P : Platform} : Accessors → Subelements P
  | .nil => .nil
  | .index expression rest => .index expression.form rest.forms
  -- the name is parsed once more, as an expression of its own
  | .member name rest => .member (.stringLiteral name .nil) rest.forms
end

def StringLiteral.form {P : Platform} (s : StringLiteral) : Form P :=
  .stringLiteral s.start (s.values.foldr (fun v rest => .cons v.1.form v.2 rest) .nil)

section Context

variable {P : Platform} (ctx : DataContext)

/-- The string value of a reference in a context. -/
def stringIn (P : Platform) (e : Expr) : Except Failure Text :=
  ((e.form : Form P).impl ctx).toString

theorem stringText_values (values : List (Expr × Text)) (result : Text) :
    stringText
      ((values.foldr (fun v rest => Values.cons v.1.form v.2 rest) .nil : Values P).impls ctx)
      result = concatenate (stringIn ctx P) values result := by
  induction values generalizing result with
  | nil => rfl
  | cons v values ih =>
    rw [List.foldr_cons, Values.impls, stringText, concatenate]
    exact bind_congr fun v' => ih _

theorem toString_form (s : StringLiteral) :
    ((s.form : Form P).impl ctx).toString = s.text (stringIn ctx P) :=
  stringText_values ctx s.values s.start

/-- In every context the string is the raw texts and the string values of the references,
in order. -/
theorem toString_interpolation (i : Interpolation) (h : parseText i.source = none)
    (hseparated : Separated i.pieces) :
    ∃ s, parse i.source = .ok (.string s) ∧
      ((s.form : Form P).impl ctx).toString = i.text (stringIn ctx P) :=
  ⟨i.literal, (parse_string h).mpr ((source_reads i).mpr hseparated),
    (toString_form ctx i.literal).trans (text_literal _ i)⟩

end Context

end Pdi.Expression
