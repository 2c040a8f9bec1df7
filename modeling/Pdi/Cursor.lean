import Mathlib.Tactic.Common

/-!
# Code that moves a cursor

A parser works on a cursor into a text that ends somewhere. It moves the cursor
and returns a value or throws, and the cursor keeps its place in both cases. The
cursor is represented by the text that is left.

`wp` says what holds when a parser is done, and its equations take a parser
apart one call after the other.
-/
namespace Pdi.Cursor

abbrev Text := List Char

structure Parser (ε α : Type) where
  run : Text → Text × Except ε α

variable {ε α β : Type}

instance : Monad (Parser ε) where
  pure a := ⟨fun t => (t, .ok a)⟩
  bind p f := ⟨fun t =>
    match p.run t with
    | (t', .ok a) => (f a).run t'
    | (t', .error e) => (t', .error e)⟩

/-- The character at the cursor, none at the end. -/
def peek : Parser ε (Option Char) := ⟨fun t => (t, .ok t.head?)⟩

/-- All that is left. -/
def remaining : Parser ε Text := ⟨fun t => (t, .ok t)⟩

/-- The cursor is set to another place. -/
def moveTo (t : Text) : Parser ε Unit := ⟨fun _ => (t, .ok ())⟩

/-- The cursor moves by one; at the end that is the error `overrun`. -/
def advance (overrun : ε) : Parser ε Unit := ⟨fun t =>
  match t with
  | [] => ([], .error overrun)
  | _ :: t => (t, .ok ())⟩

def fail (e : ε) : Parser ε α := ⟨fun t => (t, .error e)⟩

/-- The cursor moves as long as the characters are `p`. -/
def skipWhile (p : Char → Bool) : Parser ε Unit := ⟨fun t => (t.dropWhile p, .ok ())⟩

/-- A function that works on a copy of the cursor and moves the caller's cursor
when it returns. -/
def commit (p : Parser ε α) : Parser ε α := ⟨fun t =>
  match p.run t with
  | (t', .ok a) => (t', .ok a)
  | (_, .error e) => (t, .error e)⟩

@[simp] theorem run_pure (a : α) (t : Text) : (pure a : Parser ε α).run t = (t, .ok a) := rfl
@[simp] theorem run_peek (t : Text) : (peek : Parser ε _).run t = (t, .ok t.head?) := rfl
@[simp] theorem run_remaining (t : Text) : (remaining : Parser ε _).run t = (t, .ok t) := rfl
@[simp] theorem run_moveTo (t t' : Text) : (moveTo t' : Parser ε _).run t = (t', .ok ()) := rfl
@[simp] theorem run_fail (e : ε) (t : Text) : (fail e : Parser ε α).run t = (t, .error e) := rfl
@[simp] theorem run_skipWhile (p : Char → Bool) (t : Text) :
    (skipWhile p : Parser ε _).run t = (t.dropWhile p, .ok ()) := rfl
@[simp] theorem run_advance_cons (overrun : ε) (c : Char) (t : Text) :
    (advance overrun).run (c :: t) = (t, .ok ()) := rfl

theorem run_bind (p : Parser ε α) (f : α → Parser ε β) (t : Text) :
    (p >>= f).run t =
      match p.run t with
      | (t', .ok a) => (f a).run t'
      | (t', .error e) => (t', .error e) := rfl

variable {p : Parser ε α} {f : α → Parser ε β} {t t' : Text} {a : α}

theorem bind_of_ok (h : p.run t = (t', .ok a)) : (p >>= f).run t = (f a).run t' := by
  rw [run_bind, h]

variable {r : Text}

theorem bind_eq_ok {b : β} :
    (p >>= f).run t = (r, .ok b) ↔ ∃ a t', p.run t = (t', .ok a) ∧ (f a).run t' = (r, .ok b) := by
  constructor
  · intro h
    rw [run_bind] at h
    split at h
    · next t' a he => exact ⟨a, t', he, h⟩
    · cases h
  · rintro ⟨a, t', hp, hf⟩
    rw [bind_of_ok hp, hf]

@[simp] theorem commit_eq_ok : (commit p).run t = (r, .ok a) ↔ p.run t = (r, .ok a) := by
  unfold commit
  dsimp only
  split <;> simp_all

/-- What holds of the value and the cursor, or of the error and the cursor, when
the parser is done. -/
def wp (p : Parser ε α) (t : Text) (returns : α → Text → Prop) (throws : ε → Text → Prop) : Prop :=
  match p.run t with
  | (t', .ok a) => returns a t'
  | (t', .error e) => throws e t'

variable {returns : α → Text → Prop} {throws : ε → Text → Prop}

theorem wp_mono {returns' : α → Text → Prop} {throws' : ε → Text → Prop}
    (h : wp p t returns throws) (hr : ∀ a t', returns a t' → returns' a t')
    (ht : ∀ e t', throws e t' → throws' e t') : wp p t returns' throws' := by
  unfold wp at h ⊢
  split at h
  · exact hr _ _ h
  · exact ht _ _ h

/-- Only the run of a parser matters. -/
theorem wp_congr {q : Parser ε α} (h : p.run t = q.run t') :
    wp p t returns throws ↔ wp q t' returns throws := by
  unfold wp
  rw [h]

@[simp] theorem wp_pure (a : α) : wp (pure a : Parser ε α) t returns throws ↔ returns a t := Iff.rfl

@[simp] theorem wp_bind {p : Parser ε β} {f : β → Parser ε α} :
    wp (p >>= f) t returns throws ↔ wp p t (fun b t' => wp (f b) t' returns throws) throws := by
  unfold wp
  rw [run_bind]
  generalize p.run t = result
  obtain ⟨t', e | a⟩ := result <;> exact Iff.rfl

@[simp] theorem wp_peek {returns : Option Char → Text → Prop} :
    wp (peek : Parser ε _) t returns throws ↔ returns t.head? t := Iff.rfl

@[simp] theorem wp_remaining {returns : Text → Text → Prop} :
    wp (remaining : Parser ε _) t returns throws ↔ returns t t := Iff.rfl

theorem wp_moveTo {returns : Unit → Text → Prop} :
    wp (moveTo t' : Parser ε _) t returns throws ↔ returns () t' := Iff.rfl

@[simp] theorem wp_advance_cons {overrun : ε} {c : Char} {returns : Unit → Text → Prop} :
    wp (advance overrun) (c :: t) returns throws ↔ returns () t := Iff.rfl

/-- A function that commits leaves the cursor where it was when it throws. -/
@[simp] theorem wp_commit :
    wp (commit p) t returns throws ↔ wp p t returns (fun e _ => throws e t) := by
  unfold wp commit
  dsimp only
  generalize p.run t = result
  obtain ⟨t', e | a⟩ := result <;> exact Iff.rfl

/-! ## More and more of a parser

A recursive parser is approached by parsers that give up after some number of
calls. Each of them agrees with the next one wherever it does not give up. -/

/-- `q` does what `p` does unless `p` ends in an error that is `lost`. -/
def Refines (lost : ε → Prop) (p q : Parser ε α) : Prop :=
  ∀ t, wp p t (fun a r => q.run t = (r, .ok a)) (fun e r => lost e ∨ q.run t = (r, .error e))

variable {lost : ε → Prop} {q : Parser ε α}

theorem Refines.refl (p : Parser ε α) : Refines lost p p := by
  intro t
  unfold wp
  split
  · next h => exact h
  · next h => exact .inr h

theorem refines_fail {e : ε} (h : lost e) (q : Parser ε α) : Refines lost (fail e) q :=
  fun _ => .inl h

theorem Refines.bind {g : α → Parser ε β} (h : Refines lost p q)
    (hf : ∀ a, Refines lost (f a) (g a)) : Refines lost (p >>= f) (q >>= g) := by
  intro t
  rw [wp_bind]
  refine wp_mono (h t) ?_ ?_
  · intro a r hq
    rw [bind_of_ok hq]
    exact hf a r
  · rintro e r (he | hq)
    · exact .inl he
    · refine .inr ?_
      rw [run_bind, hq]

theorem Refines.commit (h : Refines lost p q) : Refines lost (commit p) (Cursor.commit q) := by
  intro t
  rw [wp_commit]
  refine wp_mono (h t) (fun a r hq => commit_eq_ok.mpr hq) ?_
  rintro e r (he | hq)
  · exact .inl he
  · refine .inr ?_
    unfold Cursor.commit
    dsimp only
    rw [hq]

theorem Refines.ok (h : Refines lost p q) (hp : p.run t = (r, .ok a)) : q.run t = (r, .ok a) := by
  have hq := h t
  unfold wp at hq
  rwa [hp] at hq

theorem Refines.trans {q' : Parser ε α} (h : Refines lost p q) (h' : Refines lost q q') :
    Refines lost p q' := by
  intro t
  have hq' := h' t
  refine wp_mono (h t) (fun a r hq => h'.ok hq) ?_
  rintro e r (he | hq)
  · exact .inl he
  · unfold wp at hq'
    rw [hq] at hq'
    exact hq'

/-- Results are kept from one parser of a sequence to all later ones. -/
theorem Refines.rising {p : Nat → Parser ε α} (h : ∀ n, Refines lost (p n) (p (n + 1)))
    {m n : Nat} (hmn : m ≤ n) : Refines lost (p m) (p n) := by
  induction hmn with
  | refl => exact .refl _
  | step _ ih => exact ih.trans (h _)

end Pdi.Cursor
