import Mathlib.Data.List.TakeWhile

/-!
# The longest accepted beginning of a text

A deterministic automaton reads a text from the left. `longest` is the longest
beginning of the text that it accepts. What follows that beginning matters only
by its first character.
-/
namespace Pdi.LongestMatch

structure Automaton (κ σ : Type) where
  start : σ
  next : σ → κ → Option σ
  accepting : σ → Bool

variable {κ σ τ : Type}

/-- The state after a whole text. -/
def Automaton.run (m : Automaton κ σ) : σ → List κ → Option σ
  | q, [] => some q
  | q, c :: t => (m.next q c).bind fun q' => m.run q' t

/-- The longest beginning accepted from state `q`, and what is left. -/
def Automaton.longest (m : Automaton κ σ) : σ → List κ → Option (List κ × List κ)
  | q, [] => if m.accepting q then some ([], []) else none
  | q, c :: t =>
    match (m.next q c).bind fun q' => m.longest q' t with
    | some (u, r) => some (c :: u, r)
    | none => if m.accepting q then some ([], c :: t) else none

/-- The longest accepted beginning after blanks. -/
def Automaton.scan (m : Automaton κ σ) (blank : κ → Bool) (t : List κ) :
    Option (List κ × List κ) :=
  m.longest m.start (t.dropWhile blank)

/-- Nothing can follow in state `q`. -/
def Automaton.Stops (m : Automaton κ σ) (q : σ) (r : List κ) : Prop :=
  ∀ c, r.head? = some c → m.next q c = none

/-- The text is accepted from state `q`, and ends in state `q'`. -/
def Automaton.Accepts (m : Automaton κ σ) (q : σ) (u : List κ) (q' : σ) : Prop :=
  m.run q u = some q' ∧ m.accepting q' = true

variable {m : Automaton κ σ} {q : σ} {t u r : List κ}

theorem longest_eq_some (h : m.longest q t = some (u, r)) :
    t = u ++ r ∧ ∃ q', m.Accepts q u q' := by
  induction t generalizing q u r with
  | nil =>
    rw [Automaton.longest] at h
    split at h
    · next ha =>
      cases h
      exact ⟨rfl, q, rfl, ha⟩
    · cases h
  | cons c t ih =>
    rw [Automaton.longest] at h
    split at h
    · next u' r' he =>
      cases h
      obtain ⟨q₁, hnext, hlongest⟩ := Option.bind_eq_some_iff.mp he
      obtain ⟨rfl, q', hrun, ha⟩ := ih hlongest
      refine ⟨rfl, q', ?_, ha⟩
      rw [Automaton.run, hnext]
      exact hrun
    · split at h
      · next ha =>
        cases h
        exact ⟨rfl, q, rfl, ha⟩
      · cases h

theorem longest_of_stops (ha : m.accepting q = true) (hr : m.Stops q r) :
    m.longest q r = some ([], r) := by
  cases r with
  | nil => rw [Automaton.longest, if_pos ha]
  | cons c =>
    rw [Automaton.longest, hr c rfl]
    simp [ha]

variable {q' : σ}

/-- An accepted text is the longest one when nothing can follow it. -/
theorem longest_of_accepts (hu : m.Accepts q u q') (hr : m.Stops q' r) :
    m.longest q (u ++ r) = some (u, r) := by
  induction u generalizing q with
  | nil =>
    obtain rfl : q = q' := Option.some.inj hu.1
    exact longest_of_stops hu.2 hr
  | cons c u ih =>
    obtain ⟨hrun, ha⟩ := hu
    rw [Automaton.run] at hrun
    obtain ⟨q₁, hnext, hrun⟩ := Option.bind_eq_some_iff.mp hrun
    rw [List.cons_append, Automaton.longest, hnext, Option.bind_some, ih ⟨hrun, ha⟩]

/-- Every character of a text that is read moves the automaton somewhere. -/
theorem next_of_mem (h : m.run q u = some q') {c : κ} (hc : c ∈ u) :
    ∃ q₁ q₂, m.next q₁ c = some q₂ := by
  induction u generalizing q with
  | nil => cases hc
  | cons a u ih =>
    rw [Automaton.run] at h
    obtain ⟨q₁, hq, hrun⟩ := Option.bind_eq_some_iff.mp h
    cases hc with
    | head => exact ⟨q, q₁, hq⟩
    | tail _ hc => exact ih hrun hc

variable {blank : κ → Bool}

theorem scan_eq_some (h : m.scan blank t = some (u, r)) :
    (∃ w, t = w ++ u ++ r ∧ ∀ c ∈ w, blank c = true) ∧ ∃ q, m.Accepts m.start u q := by
  obtain ⟨ht, hu⟩ := longest_eq_some h
  refine ⟨⟨t.takeWhile blank, ?_, fun c hc => List.mem_takeWhile_imp hc⟩, hu⟩
  rw [List.append_assoc, ← ht, List.takeWhile_append_dropWhile]

theorem scan_of_accepts (hstart : m.accepting m.start = false)
    (hblank : ∀ c, blank c = true → m.next m.start c = none) {w : List κ}
    (hw : ∀ c ∈ w, blank c = true) (hu : m.Accepts m.start u q) (hr : m.Stops q r) :
    m.scan blank (w ++ u ++ r) = some (u, r) := by
  have hfirst : (u ++ r).dropWhile blank = u ++ r := by
    cases u with
    | nil =>
      obtain rfl : m.start = q := Option.some.inj hu.1
      rw [hu.2] at hstart
      cases hstart
    | cons c =>
      rw [List.cons_append, List.dropWhile_cons_of_neg]
      intro hc
      have hrun := hu.1
      rw [Automaton.run, hblank c hc] at hrun
      cases hrun
  rw [Automaton.scan, List.append_assoc, List.dropWhile_append_of_pos hw, hfirst]
  exact longest_of_accepts hu hr

/-- An automaton that can follow another one accepts what it accepts. -/
theorem Automaton.Accepts.map {m' : Automaton κ τ} (f : σ → τ)
    (hnext : ∀ q c q', m.next q c = some q' → m'.next (f q) c = some (f q'))
    (haccepting : ∀ q, m.accepting q = true → m'.accepting (f q) = true) (hu : m.Accepts q u q') :
    m'.Accepts (f q) u (f q') := by
  refine ⟨?_, haccepting q' hu.2⟩
  have hrun := hu.1
  clear hu
  induction u generalizing q with
  | nil =>
    obtain rfl : q = q' := Option.some.inj hrun
    rfl
  | cons c u ih =>
    rw [Automaton.run] at hrun ⊢
    obtain ⟨q₁, hq, hrun⟩ := Option.bind_eq_some_iff.mp hrun
    rw [hnext q c q₁ hq]
    exact ih hrun

end Pdi.LongestMatch
