import Mathlib.Tactic.Common

/-!
# Computations that leave a trace

A computation returns or throws, and what it did up to then is a list of events.
`Keeps p q` says that every event is `p` and that every error is `q`. It is a
property of the parts of a computation, one after the other: what comes after a
part that throws does not count.
-/
namespace Pdi.Trace

/-- The errors of a result are `q`. -/
def Fails {ε α : Type} (q : ε → Prop) (x : Except ε α) : Prop := ∀ e, x = .error e → q e

section Result

variable {ε α β : Type} {q : ε → Prop} {safe safe' returns returns' : Prop}

@[simp] theorem fails_ok (a : α) : Fails q (.ok a : Except ε α) := by
  intro e h
  cases h

@[simp] theorem fails_error (e : ε) : Fails q (.error e : Except ε α) ↔ q e := by
  constructor
  · intro h
    exact h e rfl
  · intro h e' he
    cases he
    exact h

theorem fails_bind (x : Except ε α) (f : α → Except ε β) :
    Fails q (x >>= f) ↔ Fails q x ∧ ∀ a, x = .ok a → Fails q (f a) := by
  cases x with
  | ok a =>
    constructor
    · intro h
      refine ⟨fails_ok a, ?_⟩
      intro b hb
      cases hb
      exact h
    · intro h
      exact h.2 a rfl
  | error e =>
    change Fails q (.error e : Except ε β) ↔ _
    simp

theorem fails_mapError {ε' : Type} (q : ε → Prop) (q' : ε' → Prop) (x : Except ε α)
    (f : ε → ε') (h : ∀ e, q' (f e) ↔ q e) : Fails q' (x.mapError f) ↔ Fails q x := by
  cases x with
  | ok => simp [Except.mapError]
  | error => simp [Except.mapError, h]

variable {x : Except ε α} {f : α → Except ε β}

theorem bind_eq_ok {b : β} : x >>= f = .ok b ↔ ∃ a, x = .ok a ∧ f a = .ok b := by
  cases x with
  | ok a =>
    constructor
    · intro h
      exact ⟨a, rfl, h⟩
    · rintro ⟨a', ha, h⟩
      cases ha
      exact h
  | error =>
    constructor
    · intro h
      cases h
    · rintro ⟨a, ha, _⟩
      cases ha

/-- All errors of `x` are `q` exactly if `safe`, and then `x` has the value `v`, which is
none where there is an error. -/
structure Agrees (q : ε → Prop) (x : Except ε α) (v : Option α) (safe : Prop) : Prop where
  fails : Fails q x ↔ safe
  value : safe → x.toOption = v

theorem toOption_eq_some {a : α} : x.toOption = some a ↔ x = .ok a := by
  cases x with
  | error => exact ⟨nofun, nofun⟩
  | ok => exact ⟨fun h => congrArg _ (Option.some.inj h), fun h => congrArg _ (Except.ok.inj h)⟩

theorem agrees_ok (a : α) : Agrees q (.ok a) (some a) True :=
  ⟨iff_of_true (fails_ok a) trivial, fun _ => rfl⟩

variable {e : ε}

theorem agrees_error (he : q e) : Agrees q (.error e : Except ε α) none True :=
  ⟨iff_of_true ((fails_error e).mpr he) trivial, fun _ => rfl⟩

variable {v : Option α}

theorem agrees_lost (he : ¬ q e) (hsafe : ¬ safe) : Agrees q (.error e) v safe :=
  ⟨iff_of_false (fun h => he ((fails_error e).mp h)) hsafe, fun h => absurd h hsafe⟩

/-- A computation all of whose errors are `q`. -/
theorem agrees_toOption (h : Fails q x) : Agrees q x x.toOption True :=
  ⟨iff_of_true h trivial, fun _ => rfl⟩

variable {g : α → Option β} {next : α → Prop}

theorem Agrees.bind (hx : Agrees q x v safe) (hf : ∀ a, Agrees q (f a) (g a) (next a)) :
    Agrees q (x >>= f) (v.bind g) (safe ∧ ∀ a, v = some a → next a) := by
  refine ⟨?_, ?_⟩
  · rw [fails_bind, hx.fails]
    refine and_congr_right fun hsafe => forall_congr' fun a => ?_
    rw [← hx.value hsafe, toOption_eq_some, (hf a).fails]
  · rintro ⟨hsafe, hnext⟩
    rw [← hx.value hsafe] at hnext ⊢
    cases x with
    | error => rfl
    | ok a => exact (hf a).value (hnext a rfl)

/-- A first part with nothing to ask for. -/
theorem Agrees.bind_total (hx : Agrees q x v True) (hf : ∀ a, Agrees q (f a) (g a) (next a)) :
    Agrees q (x >>= f) (v.bind g) (∀ a, v = some a → next a) :=
  ⟨by simpa using (hx.bind hf).fails, fun h => (hx.bind hf).value ⟨trivial, h⟩⟩

theorem Agrees.congr (h : Agrees q x v safe) (hsafe : safe ↔ safe') : Agrees q x v safe' :=
  ⟨h.fails.trans hsafe, fun h' => h.value (hsafe.mpr h')⟩

/-- All errors of `x` are `q` exactly if `safe`, and `x` has a value exactly if
`returns`. -/
structure Behaves (q : ε → Prop) (x : Except ε α) (safe returns : Prop) : Prop where
  fails : Fails q x ↔ safe
  value : (∃ a, x = .ok a) ↔ returns

theorem behaves_ok (a : α) : Behaves q (.ok a) True True :=
  ⟨iff_of_true (fails_ok a) trivial, iff_of_true ⟨a, rfl⟩ trivial⟩

theorem behaves_error (he : q e) : Behaves q (.error e : Except ε α) True False :=
  ⟨iff_of_true ((fails_error e).mpr he) trivial, iff_of_false (fun ⟨_, h⟩ => by cases h) id⟩

theorem behaves_lost (he : ¬ q e) : Behaves q (.error e : Except ε α) False False :=
  ⟨iff_of_false (fun h => he ((fails_error e).mp h)) id, iff_of_false (fun ⟨_, h⟩ => by cases h) id⟩

/-- The second part counts where the first has a value. -/
theorem Behaves.bind (hx : Behaves q x safe returns)
    (hf : ∀ a, x = .ok a → Behaves q (f a) safe' returns') :
    Behaves q (x >>= f) (safe ∧ (returns → safe')) (returns ∧ returns') := by
  rw [← hx.fails, ← hx.value]
  refine ⟨?_, ?_⟩
  · rw [fails_bind]
    refine and_congr_right fun _ => ?_
    constructor
    · rintro h ⟨a, ha⟩
      exact (hf a ha).fails.mp (h a ha)
    · intro h a ha
      exact (hf a ha).fails.mpr (h ⟨a, ha⟩)
  · constructor
    · rintro ⟨b, hb⟩
      obtain ⟨a, ha, hfa⟩ := bind_eq_ok.mp hb
      exact ⟨⟨a, ha⟩, (hf a ha).value.mp ⟨b, hfa⟩⟩
    · rintro ⟨⟨a, ha⟩, h⟩
      obtain ⟨b, hb⟩ := (hf a ha).value.mpr h
      exact ⟨b, bind_eq_ok.mpr ⟨a, ha, hb⟩⟩

/-- A first part that always has a value. -/
theorem Behaves.bind_total (hx : Behaves q x True True)
    (hf : ∀ a, x = .ok a → Behaves q (f a) safe returns) : Behaves q (x >>= f) safe returns := by
  have h := hx.bind hf
  rw [true_imp_iff, true_and, true_and] at h
  exact h

/-- What is returned in the end changes nothing. -/
theorem Behaves.map (hx : Behaves q x safe returns) (f : α → β) :
    Behaves q (x >>= fun a => .ok (f a)) safe returns := by
  have h := hx.bind fun a _ => behaves_ok (f a)
  rw [forall_true_iff, and_true, and_true] at h
  exact h

theorem Behaves.congr (hx : Behaves q x safe returns) (hsafe : safe ↔ safe')
    (hreturns : returns ↔ returns') : Behaves q x safe' returns' :=
  ⟨hx.fails.trans hsafe, hx.value.trans hreturns⟩

end Result

structure Traced (ω ε α : Type) where
  trace : List ω
  result : Except ε α

variable {ω ω' ε α β : Type}

instance : Monad (Traced ω ε) where
  pure a := ⟨[], .ok a⟩
  bind x f :=
    match x.result with
    | .ok a => ⟨x.trace ++ (f a).trace, (f a).result⟩
    | .error e => ⟨x.trace, .error e⟩

def emit (w : ω) : Traced ω ε Unit := ⟨[w], .ok ()⟩
def fail (e : ε) : Traced ω ε α := ⟨[], .error e⟩
def lift (x : Except ε α) : Traced ω ε α := ⟨[], x⟩

/-- The same computation with other names for what it does. -/
def Traced.relabel (x : Traced ω ε α) (f : ω → ω') : Traced ω' ε α := ⟨x.trace.map f, x.result⟩

@[simp] theorem result_pure (a : α) : (pure a : Traced ω ε α).result = .ok a := rfl
@[simp] theorem result_emit (w : ω) : (emit w : Traced ω ε Unit).result = .ok () := rfl
@[simp] theorem result_fail (e : ε) : (fail e : Traced ω ε α).result = .error e := rfl
@[simp] theorem result_lift (x : Except ε α) : (lift x : Traced ω ε α).result = x := rfl
@[simp] theorem result_relabel (x : Traced ω ε α) (f : ω → ω') : (x.relabel f).result = x.result :=
  rfl

variable {x : Traced ω ε α}

/-- What comes after a part that returns. -/
theorem bind_of_ok {a : α} (h : x.result = .ok a) (f : α → Traced ω ε β) :
    x >>= f = ⟨x.trace ++ (f a).trace, (f a).result⟩ := by
  obtain ⟨trace, result⟩ := x
  cases h
  rfl

/-- The result of a sequence is that of the sequence of the results. -/
theorem result_bind (x : Traced ω ε α) (f : α → Traced ω ε β) :
    (x >>= f).result = x.result >>= fun a => (f a).result := by
  change (match x.result with
    | .ok a => (⟨x.trace ++ (f a).trace, (f a).result⟩ : Traced ω ε β)
    | .error e => ⟨x.trace, .error e⟩).result = _
  cases x.result with
  | ok | error => rfl

theorem result_bind_eq_ok {f : α → Traced ω ε β} {b : β} :
    (x >>= f).result = .ok b ↔ ∃ a, x.result = .ok a ∧ (f a).result = .ok b := by
  rw [result_bind, bind_eq_ok]

def Keeps (p : ω → Prop) (q : ε → Prop) (x : Traced ω ε α) : Prop :=
  (∀ w ∈ x.trace, p w) ∧ Fails q x.result

variable {p : ω → Prop} {q : ε → Prop}

@[simp] theorem keeps_pure (a : α) : Keeps p q (pure a : Traced ω ε α) :=
  ⟨List.forall_mem_nil _, fails_ok a⟩

@[simp] theorem keeps_fail (e : ε) : Keeps p q (fail e : Traced ω ε α) ↔ q e := by
  simp [Keeps, fail]

@[simp] theorem keeps_emit (w : ω) : Keeps p q (emit w : Traced ω ε Unit) ↔ p w := by
  simp [Keeps, emit]

@[simp] theorem keeps_lift (x : Except ε α) : Keeps p q (lift x : Traced ω ε α) ↔ Fails q x := by
  simp [Keeps, lift]

theorem keeps_relabel {p' : ω' → Prop} (x : Traced ω ε α) (f : ω → ω') :
    Keeps p' q (x.relabel f) ↔ Keeps (fun w => p' (f w)) q x := by
  simp [Keeps, Traced.relabel]

theorem keeps_bind (x : Traced ω ε α) (f : α → Traced ω ε β) :
    Keeps p q (x >>= f) ↔ Keeps p q x ∧ ∀ a, x.result = .ok a → Keeps p q (f a) := by
  obtain ⟨trace, result⟩ := x
  cases result with
  | ok a =>
    change ((∀ w ∈ trace ++ (f a).trace, p w) ∧ Fails q (f a).result) ↔ _
    simp only [Keeps, List.forall_mem_append, fails_ok, and_true, Except.ok.injEq, forall_eq']
    exact and_assoc
  | error e =>
    change ((∀ w ∈ trace, p w) ∧ Fails q (.error e : Except ε β)) ↔ _
    simp [Keeps]

end Pdi.Trace
