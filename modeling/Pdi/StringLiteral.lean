import Pdi.ExpressionFlat

/-!
# String literals

A text that is no operation is a string: raw texts, escapes and the references and
operations behind dollar signs. The parser scans a run of raw characters, then takes
an escape or hands the cursor to the parser of the embedded expression.

An escape moves the cursor by two and leaves a backslash, whatever its second
character is. At the end of the text there is no second character.
-/
namespace Pdi.Expression

open Pdi.Cursor Pdi.NumberText Pdi.Datatypes

variable {e : Expr} {t : Text}

/-- `String_literal`: the text in front, and each embedded expression with the text
behind it. -/
structure StringLiteral where
  start : Text
  values : List (Expr × Text)
  deriving DecidableEq

/-- A character that the scan for raw text goes over. -/
def plain (c : Char) : Bool := c != '\\' && c != '$'

/-- The expression behind a dollar sign: an operation in parentheses, or else a
reference, which starts with the dollar sign itself. -/
def parseEmbedded : Parser Failure Expr := do
  let text ← remaining
  match text.tail.head? with
  | some '(' => do
    advance pastEnd
    parseTerm (fuelFor text)
  | _ => parseReference (fuelFor text)

/-- The loop of `String_literal::parse`. -/
def parsePieces : Nat → Parser Failure StringLiteral
  | 0 => fail noEnd
  | fuel + 1 => do
    let text ← remaining
    moveTo (text.dropWhile plain)
    match ← peek with
    | some '\\' => do
      advance pastEnd
      advance pastEnd
      let rest ← parsePieces fuel
      pure ⟨text.takeWhile plain ++ '\\' :: rest.start, rest.values⟩
    | some '$' => do
      let value ← parseEmbedded
      let rest ← parsePieces fuel
      pure ⟨text.takeWhile plain, (value, rest.start) :: rest.values⟩
    | _ => pure ⟨text.takeWhile plain, []⟩

/-- `String_literal::parse` -/
def parseString : Parser Failure StringLiteral := commit do
  let text ← remaining
  parsePieces (text.length + 1)

/-- What a scalar of the specification tree is. -/
inductive Parsed where
  | operation (e : Expr)
  | string (s : StringLiteral)
  deriving DecidableEq

/-- `Impl::parse` -/
def parse (t : Text) : Except Failure Parsed :=
  match parseText t with
  | some e => .ok (.operation e)
  | none => (parseString.run t).2.map .string

/-- The loop of `String_literal::to_string`, for what the embedded expressions are. -/
def concatenate (value : Expr → Except Failure Text) :
    List (Expr × Text) → Text → Except Failure Text
  | [], result => .ok result
  | (e, text) :: rest, result => do
    let v ← value e
    concatenate value rest (result ++ v ++ text)

/-- `String_literal::to_string` -/
def StringLiteral.text (value : Expr → Except Failure Text) (s : StringLiteral) :
    Except Failure Text :=
  concatenate value s.values s.start

/-! ## Embedded expressions -/

section Embedded

variable {r : Text} {n : Nat}

theorem TermReads.run (h : TermReads t e r) (hn : fuelFor t ≤ n) :
    (parseTerm n).run t = (r, .ok e) := by
  have hrun := (reads_seven.mpr h).run (by decide) (Nat.le_succ_of_le hn)
  rwa [parseOperation, if_pos rfl] at hrun

theorem ReferenceReads.run (h : ReferenceReads ('$' :: t) e r) (hn : fuelFor ('$' :: t) ≤ n) :
    (parseReference n).run ('$' :: t) = (r, .ok e) := by
  have hrun := (termReads_reference.mpr h).run (Nat.le_succ_of_le hn)
  rwa [parseTerm, bind_of_ok (run_peek _)] at hrun

/-- The expression that is read behind the dollar sign. -/
def EmbeddedReads (t : Text) (e : Expr) (r : Text) : Prop :=
  if t.head? = some '(' then TermReads t e r else ReferenceReads ('$' :: t) e r

theorem run_parseEmbedded (t : Text) :
    parseEmbedded.run ('$' :: t) =
      if t.head? = some '(' then (parseTerm (fuelFor ('$' :: t))).run t
      else (parseReference (fuelFor ('$' :: t))).run ('$' :: t) := by
  unfold parseEmbedded
  rw [bind_of_ok (run_remaining _), List.tail_cons]
  split
  · next h => rw [if_pos h, bind_of_ok (run_advance_cons _ _ _)]
  · next h => rw [if_neg h]

theorem parseEmbedded_ok : parseEmbedded.run ('$' :: t) = (r, .ok e) ↔ EmbeddedReads t e r := by
  rw [run_parseEmbedded, EmbeddedReads]
  split
  · have hfuel : fuelFor t ≤ fuelFor ('$' :: t) := by
      unfold fuelFor
      rw [List.length_cons]
      omega
    exact ⟨fun h => ⟨_, h⟩, fun h => h.run hfuel⟩
  · exact ⟨fun h => ⟨_, h⟩, fun h => h.run (le_refl _)⟩

theorem EmbeddedReads.unique {r' : Text} {e' : Expr} (h : EmbeddedReads t e r)
    (h' : EmbeddedReads t e' r') : e = e' ∧ r = r' := by
  have hrun := parseEmbedded_ok.mpr h
  rw [parseEmbedded_ok.mpr h'] at hrun
  cases hrun
  exact ⟨rfl, rfl⟩

/-- The embedded expression ends ahead and inside the text, or an error is thrown. -/
theorem parseEmbedded_inside (t : Text) :
    wp parseEmbedded ('$' :: t) (fun _ r => Ahead ('$' :: t) r) (fun e _ => IsValueError e) := by
  unfold wp
  rw [run_parseEmbedded]
  by_cases hparen : t.head? = some '('
  · have hfuel : fuelFor t ≤ fuelFor ('$' :: t) := by
      unfold fuelFor
      rw [List.length_cons]
      omega
    rw [if_pos hparen]
    exact wp_mono (term_safe hfuel) (fun _ r hr => ahead_cons '$' hr.1)
      (fun _ _ h => h.2)
  · rw [if_neg hparen]
    exact wp_mono (reference_safe (le_refl _)) (fun _ _ h => h) (fun _ _ h => h.2)

theorem parseEmbedded_spec (t : Text) :
    wp parseEmbedded ('$' :: t) (fun e r => EmbeddedReads t e r ∧ Ahead ('$' :: t) r)
      (fun error _ => IsValueError error ∧ ∀ e r, ¬ EmbeddedReads t e r) := by
  have hinside := parseEmbedded_inside t
  have hreads (e : Expr) (r : Text) := parseEmbedded_ok (t := t) (e := e) (r := r)
  unfold wp at hinside ⊢
  generalize parseEmbedded.run ('$' :: t) = result at hinside hreads ⊢
  obtain ⟨r, error | e⟩ := result
  · refine ⟨hinside, fun e r' h => ?_⟩
    cases (hreads e r').mpr h
  · exact ⟨(hreads e r).mp rfl, hinside⟩

end Embedded

/-! ## What a text is read as -/

/-- One more character in front. -/
def StringLiteral.push (c : Char) (s : StringLiteral) : StringLiteral := ⟨c :: s.start, s.values⟩

/-- An embedded expression in front. -/
def StringLiteral.embed (e : Expr) (s : StringLiteral) : StringLiteral :=
  ⟨[], (e, s.start) :: s.values⟩

/-- The string that a text is read as, character by character. -/
inductive StringReads : Text → StringLiteral → Prop where
  | nil : StringReads [] ⟨[], []⟩
  | raw {c : Char} {t : Text} {s : StringLiteral} (hc : plain c = true) (h : StringReads t s) :
    StringReads (c :: t) (s.push c)
  | escape {c : Char} {t : Text} {s : StringLiteral} (h : StringReads t s) :
    StringReads ('\\' :: c :: t) (s.push '\\')
  | embedded {t r : Text} {e : Expr} {s : StringLiteral} (he : EmbeddedReads t e r)
    (h : StringReads r s) : StringReads ('$' :: t) (s.embed e)

/-- The text ends in a backslash that starts an escape. -/
inductive Dangling : Text → Prop where
  | backslash : Dangling ['\\']
  | raw {c : Char} {t : Text} (hc : plain c = true) (h : Dangling t) : Dangling (c :: t)
  | escape {c : Char} {t : Text} (h : Dangling t) : Dangling ('\\' :: c :: t)
  | embedded {t r : Text} {e : Expr} (he : EmbeddedReads t e r) (h : Dangling r) :
    Dangling ('$' :: t)

section Scan

variable {r : Text} {c : Char} {s : StringLiteral} {n : Nat}

theorem special_of_not_plain (h : ¬ plain c = true) : c = '\\' ∨ c = '$' := by
  unfold plain at h
  simp only [bne_iff_ne, ne_eq, Bool.and_eq_true, not_and_or, not_not] at h
  exact h

section Pieces

variable {returns : StringLiteral → Text → Prop} {throws : Failure → Text → Prop}

theorem wp_pieces_nil : wp (parsePieces (n + 1)) [] returns throws ↔ returns ⟨[], []⟩ [] := Iff.rfl

theorem wp_pieces_backslash :
    wp (parsePieces (n + 1)) ['\\'] returns throws ↔ throws pastEnd [] := Iff.rfl

theorem wp_pieces_plain (hc : plain c = true) :
    wp (parsePieces (n + 1)) (c :: t) returns throws ↔
      wp (parsePieces (n + 1)) t (fun s r => returns (s.push c) r) throws := by
  rw [parsePieces]
  simp only [wp_bind, wp_remaining, wp_moveTo, wp_peek, List.takeWhile_cons_of_pos hc,
    List.dropWhile_cons_of_pos hc]
  split
  · simp only [wp_bind, wp_pure]
    exact Iff.rfl
  · simp only [wp_bind, wp_pure]
    exact Iff.rfl
  · exact Iff.rfl

theorem wp_pieces_escape :
    wp (parsePieces (n + 1)) ('\\' :: c :: t) returns throws ↔
      wp (parsePieces n) t (fun s r => returns (s.push '\\') r) throws := by
  have hrun : (parsePieces (n + 1)).run ('\\' :: c :: t) =
      (parsePieces n >>= fun s => pure (s.push '\\')).run t := by
    rw [parsePieces, bind_of_ok (run_remaining _), bind_of_ok (run_moveTo _ _),
      bind_of_ok (run_peek _), List.dropWhile_cons_of_neg (by decide)]
    rfl
  rw [wp_congr hrun, wp_bind]
  simp only [wp_pure]

theorem wp_pieces_embedded :
    wp (parsePieces (n + 1)) ('$' :: t) returns throws ↔
      wp parseEmbedded ('$' :: t) (fun e r =>
        wp (parsePieces n) r (fun s r' => returns (s.embed e) r') throws) throws := by
  have hrun : (parsePieces (n + 1)).run ('$' :: t) =
      (parseEmbedded >>= fun e => parsePieces n >>= fun s => pure (s.embed e)).run ('$' :: t) := by
    rw [parsePieces, bind_of_ok (run_remaining _), bind_of_ok (run_moveTo _ _),
      bind_of_ok (run_peek _), List.dropWhile_cons_of_neg (by decide)]
    rfl
  rw [wp_congr hrun]
  simp only [wp_bind, wp_pure]

end Pieces

theorem stringReads_plain (hc : plain c = true) :
    StringReads (c :: t) s ↔ ∃ s', StringReads t s' ∧ s = s'.push c := by
  constructor
  · intro h
    cases h with
    | raw _ h => exact ⟨_, h, rfl⟩
    | escape | embedded => cases hc
  · rintro ⟨s', h, rfl⟩
    exact .raw hc h

theorem stringReads_escape :
    StringReads ('\\' :: c :: t) s ↔ ∃ s', StringReads t s' ∧ s = s'.push '\\' := by
  constructor
  · intro h
    cases h with
    | raw hc => cases hc
    | escape h => exact ⟨_, h, rfl⟩
  · rintro ⟨s', h, rfl⟩
    exact .escape h

theorem stringReads_embedded :
    StringReads ('$' :: t) s ↔
      ∃ e r s', EmbeddedReads t e r ∧ StringReads r s' ∧ s = s'.embed e := by
  constructor
  · intro h
    cases h with
    | raw hc => cases hc
    | embedded he h => exact ⟨_, _, _, he, h, rfl⟩
  · rintro ⟨e, r, s', he, h, rfl⟩
    exact .embedded he h

theorem dangling_plain (hc : plain c = true) : Dangling (c :: t) ↔ Dangling t := by
  constructor
  · intro h
    cases h with
    | backslash | escape | embedded => cases hc
    | raw _ h => exact h
  · exact .raw hc

theorem dangling_escape : Dangling ('\\' :: c :: t) ↔ Dangling t := by
  constructor
  · intro h
    cases h with
    | raw hc => cases hc
    | escape h => exact h
  · exact .escape

theorem dangling_embedded : Dangling ('$' :: t) ↔ ∃ e r, EmbeddedReads t e r ∧ Dangling r := by
  constructor
  · intro h
    cases h with
    | raw hc => cases hc
    | embedded he h => exact ⟨_, _, he, h⟩
  · rintro ⟨e, r, he, h⟩
    exact .embedded he h

theorem stringReads_of_embedded (he : EmbeddedReads t e r) :
    StringReads ('$' :: t) s ↔ ∃ s', StringReads r s' ∧ s = s'.embed e := by
  rw [stringReads_embedded]
  constructor
  · rintro ⟨e', r', s', he', h, rfl⟩
    obtain ⟨rfl, rfl⟩ := he.unique he'
    exact ⟨s', h, rfl⟩
  · rintro ⟨s', h, rfl⟩
    exact ⟨e, r, s', he, h, rfl⟩

theorem dangling_of_embedded (he : EmbeddedReads t e r) : Dangling ('$' :: t) ↔ Dangling r := by
  rw [dangling_embedded]
  constructor
  · rintro ⟨e', r', he', h⟩
    obtain ⟨-, rfl⟩ := he.unique he'
    exact h
  · exact fun h => ⟨e, r, he, h⟩

/-- There is only one way to read a text as a string. -/
theorem StringReads.unique {s' : StringLiteral} (h : StringReads t s) (h' : StringReads t s') :
    s = s' := by
  induction h generalizing s' with
  | nil =>
    cases h'
    rfl
  | raw hc _ ih =>
    obtain ⟨s'', hrest, rfl⟩ := (stringReads_plain hc).mp h'
    rw [ih hrest]
  | escape _ ih =>
    obtain ⟨s'', hrest, rfl⟩ := stringReads_escape.mp h'
    rw [ih hrest]
  | embedded he _ ih =>
    obtain ⟨s'', hrest, rfl⟩ := (stringReads_of_embedded he).mp h'
    rw [ih hrest]

/-- What is known when the loop has gone through a text: the cursor is at its end. -/
def ReturnedOn (t : Text) (s : StringLiteral) (r : Text) : Prop :=
  r = [] ∧ StringReads t s ∧ ¬ Dangling t

/-- What is known when the loop throws, or runs past the end. -/
def ThrownOn (t : Text) (e : Failure) : Prop :=
  (∀ s, ¬ StringReads t s) ∧ (Dangling t ∧ e = pastEnd ∨ ¬ Dangling t ∧ IsValueError e)

/-- One round of the loop, which leaves the text `r` of `t`. -/
theorem pieces_round {p : Parser Failure StringLiteral} {f : StringLiteral → StringLiteral}
    (hreads : ∀ s, StringReads t s ↔ ∃ s', StringReads r s' ∧ s = f s')
    (hdangling : Dangling t ↔ Dangling r) (h : wp p r (ReturnedOn r) fun e _ => ThrownOn r e) :
    wp p r (fun s r' => ReturnedOn t (f s) r') fun e _ => ThrownOn t e := by
  refine wp_mono h ?_ ?_
  · rintro s r' ⟨rfl, hs, hnot⟩
    exact ⟨rfl, (hreads _).mpr ⟨s, hs, rfl⟩, fun h => hnot (hdangling.mp h)⟩
  · rintro e r' ⟨hnone, hend⟩
    unfold ThrownOn
    rw [hdangling]
    refine ⟨fun s hs => ?_, hend⟩
    obtain ⟨s', hs', -⟩ := (hreads s).mp hs
    exact hnone s' hs'

/-- The loop ends at the end of the text with what the text is read as, or it throws,
or it runs past the end of a text with a dangling backslash. -/
theorem parsePieces_spec (hn : t.length < n) :
    wp (parsePieces n) t (ReturnedOn t) fun e _ => ThrownOn t e := by
  -- by induction on the text: each round takes something from it
  induction hlength : t.length using Nat.strong_induction_on generalizing t n with
  | _ length ih =>
  obtain ⟨n, rfl⟩ : ∃ m, n = m + 1 := ⟨n - 1, by omega⟩
  cases t with
  | nil => exact wp_pieces_nil.mpr ⟨rfl, .nil, nofun⟩
  | cons c t =>
    rw [List.length_cons] at hn hlength
    by_cases hc : plain c = true
    · rw [wp_pieces_plain hc]
      exact pieces_round (fun _ => stringReads_plain hc) (dangling_plain hc)
        (ih t.length (by omega) (by omega) rfl)
    · obtain rfl | rfl := special_of_not_plain hc
      · cases t with
        | nil =>
          refine wp_pieces_backslash.mpr ⟨fun s h => ?_, .inl ⟨.backslash, rfl⟩⟩
          cases h with
          | raw hc => cases hc
        | cons c t =>
          rw [List.length_cons] at hn hlength
          rw [wp_pieces_escape]
          exact pieces_round (fun _ => stringReads_escape) dangling_escape
            (ih t.length (by omega) (by omega) rfl)
      · rw [wp_pieces_embedded]
        refine wp_mono (parseEmbedded_spec t) ?_ ?_
        · rintro e r ⟨he, hahead⟩
          have hshorter := hahead.2
          rw [List.length_cons] at hshorter
          exact pieces_round (fun _ => stringReads_of_embedded he) (dangling_of_embedded he)
            (ih r.length (by omega) (by omega) rfl)
        · rintro error r ⟨herror, hnone⟩
          refine ⟨fun s h => ?_, .inr ⟨fun h => ?_, herror⟩⟩
          · obtain ⟨e, r, -, he, -⟩ := stringReads_embedded.mp h
            exact hnone e r he
          · obtain ⟨e, r, he, -⟩ := dangling_embedded.mp h
            exact hnone e r he

end Scan

/-! ## Whole texts -/

theorem parseString_spec (t : Text) : wp parseString t (ReturnedOn t) fun e _ => ThrownOn t e := by
  unfold parseString
  rw [wp_commit, wp_bind, wp_remaining]
  exact parsePieces_spec (Nat.lt_succ_self _)

variable {s : StringLiteral}

theorem parseString_ok {r : Text} : parseString.run t = (r, .ok s) ↔ r = [] ∧ StringReads t s := by
  have hspec := parseString_spec t
  unfold wp at hspec
  generalize parseString.run t = result at hspec ⊢
  obtain ⟨r', e | s'⟩ := result
  · refine ⟨nofun, fun h => absurd h.2 (hspec.1 s)⟩
  · obtain ⟨rfl, hreads, -⟩ := hspec
    constructor
    · rintro ⟨⟩
      exact ⟨rfl, hreads⟩
    · rintro ⟨rfl, h⟩
      rw [hreads.unique h]

/-- A text that is no operation is what it is read as. -/
theorem parse_string (h : parseText t = none) : parse t = .ok (.string s) ↔ StringReads t s := by
  have hspec := parseString_spec t
  unfold wp at hspec
  unfold parse
  rw [h]
  generalize parseString.run t = result at hspec ⊢
  obtain ⟨r, e | s'⟩ := result
  · exact ⟨nofun, fun hs => absurd hs (hspec.1 s)⟩
  · obtain ⟨rfl, hreads, -⟩ := hspec
    constructor
    · rintro ⟨⟩
      exact hreads
    · intro hs
      rw [hreads.unique hs]
      rfl

/-- The parser of strings ends, throws an error of the library or leaves the cursor on
the terminator, and never moves it behind that. -/
def InsideText (t : Text) : Prop :=
  wp parseString t (fun _ r => r = []) fun e _ => IsValueError e

/-- Parsing a scalar does nothing that is left undefined. -/
def MemorySafe (t : Text) : Prop := ∀ what, parse t ≠ .error (.undefined what)

theorem insideText_iff : InsideText t ↔ ¬ Dangling t := by
  have hspec := parseString_spec t
  unfold InsideText
  unfold wp at hspec ⊢
  generalize parseString.run t = result at hspec ⊢
  obtain ⟨r, e | s⟩ := result
  · obtain ⟨-, ⟨hdangling, rfl⟩ | ⟨hdangling, he⟩⟩ := hspec
    · refine iff_of_false ?_ (not_not_intro hdangling)
      rintro ⟨message, h⟩
      cases h
    · exact iff_of_true he hdangling
  · exact iff_of_true hspec.1 hspec.2.2

theorem InsideText.memorySafe (h : InsideText t) : MemorySafe t := by
  intro what
  unfold parse
  split
  · exact nofun
  · unfold InsideText wp at h
    generalize parseString.run t = result at h ⊢
    obtain ⟨r, e | s⟩ := result
    · obtain ⟨message, rfl⟩ := h
      exact nofun
    · exact nofun

/-- The cursor stays inside the text, and parsing a scalar is safe with it, exactly when
the text does not end in a backslash that starts an escape. -/
theorem parseString_inside_iff (t : Text) : InsideText t ∧ MemorySafe t ↔ ¬ Dangling t := by
  rw [← insideText_iff]
  exact ⟨And.left, fun h => ⟨h, h.memorySafe⟩⟩

/-- A path of a system with backslashes. -/
theorem parseString_past_end :
    parse "C:\\".toList = .error pastEnd ∧ ¬ InsideText "C:\\".toList := by
  refine ⟨by decide +kernel, ?_⟩
  rw [insideText_iff, not_not]
  exact .raw rfl (.raw rfl .backslash)

/-! ## Escapes -/

/-- A backslash before each backslash and each dollar sign. -/
def escape (s : Text) : Text := s.flatMap fun c => if plain c then [c] else ['\\', c]

/-- What a function sees that gets the text as a `char const*`. -/
def cString (s : Text) : Text := s.takeWhile (· != '\x00')

/-- Every escape is read as a backslash. -/
def unescaped (c : Char) : Char := if plain c then c else '\\'

theorem escape_cons (c : Char) (s : Text) :
    escape (c :: s) = (if plain c then [c] else ['\\', c]) ++ escape s := rfl

theorem cString_cons {c : Char} (hc : c ≠ '\x00') (s : Text) : cString (c :: s) = c :: cString s :=
  List.takeWhile_cons_of_pos (by simpa using hc)

theorem cString_escape (s : Text) : cString (escape s) = escape (cString s) := by
  induction s with
  | nil => rfl
  | cons c s ih =>
    by_cases hc : c = '\x00'
    · subst hc
      rfl
    · rw [cString_cons hc, escape_cons, escape_cons, ← ih]
      split
      · exact cString_cons hc _
      · exact (cString_cons (by decide) _).trans (congrArg _ (cString_cons hc _))

theorem cString_eq_iff {s : Text} : cString s = s ↔ '\x00' ∉ s := by
  unfold cString
  rw [List.takeWhile_eq_self_iff]
  constructor
  · intro h hmem
    exact absurd (h _ hmem) (by decide)
  · intro h c hc
    have hne : c ≠ '\x00' := by
      rintro rfl
      exact h hc
    simpa using hne

theorem map_unescaped_eq_iff {s : Text} : s.map unescaped = s ↔ '$' ∉ s := by
  induction s with
  | nil => simp
  | cons c s ih =>
    rw [List.map_cons, List.cons.injEq, ih, List.mem_cons, not_or]
    refine and_congr_left fun _ => ?_
    unfold unescaped
    split
    · next hc =>
      refine iff_of_true rfl ?_
      rintro rfl
      cases hc
    · next hc =>
      obtain rfl | rfl := special_of_not_plain hc
      · decide
      · decide

theorem stringReads_escaped (s : Text) : StringReads (escape s) ⟨s.map unescaped, []⟩ := by
  induction s with
  | nil => exact .nil
  | cons c s ih =>
    rw [escape_cons, List.map_cons, unescaped]
    split
    · next hc => exact .raw hc ih
    · exact .escape ih

/-- The string is read back as a string without references. -/
def RoundTrips (s : Text) : Prop :=
  ∃ literal, parseString.run (cString (escape s)) = ([], .ok literal) ∧ literal.values = [] ∧
    ∀ value, literal.text value = .ok s

/-- Escapes are read back exactly in the strings without a dollar sign, and without a
zero, which would end the text. -/
theorem escape_roundTrips_iff (s : Text) : RoundTrips s ↔ '$' ∉ s ∧ '\x00' ∉ s := by
  have hreads := stringReads_escaped (cString s)
  rw [← cString_escape] at hreads
  constructor
  · rintro ⟨literal, hrun, -, htext⟩
    obtain rfl := (parseString_ok.mp hrun).2.unique hreads
    have heq : (cString s).map unescaped = s := Except.ok.inj (htext fun _ => .ok [])
    have hlength : cString s = s := by
      refine List.IsPrefix.eq_of_length (List.takeWhile_prefix _) ?_
      rw [← List.length_map unescaped, heq]
    rw [hlength] at heq
    exact ⟨map_unescaped_eq_iff.mp heq, cString_eq_iff.mp hlength⟩
  · rintro ⟨hdollar, hzero⟩
    rw [cString_eq_iff.mpr hzero, map_unescaped_eq_iff.mpr hdollar] at hreads
    exact ⟨_, parseString_ok.mpr ⟨rfl, hreads⟩, rfl, fun _ => rfl⟩

/-- The price of something. -/
theorem escaped_dollar_lost :
    escape "5 $".toList = "5 \\$".toList ∧
      parseString.run (cString (escape "5 $".toList)) = ([], .ok ⟨"5 \\".toList, []⟩) ∧
      ¬ RoundTrips "5 $".toList := by
  refine ⟨by decide +kernel, by decide +kernel, ?_⟩
  rintro ⟨literal, hrun, -, htext⟩
  have heq : parseString.run (cString (escape "5 $".toList)) = ([], .ok ⟨"5 \\".toList, []⟩) := by
    decide +kernel
  rw [heq] at hrun
  cases hrun
  exact absurd (htext fun _ => .ok []) (by decide +kernel)

end Pdi.Expression
