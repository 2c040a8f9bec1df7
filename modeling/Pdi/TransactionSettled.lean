import Mathlib.Data.List.Count
import Pdi.Transaction

/-!
# What a transaction does with its data

In a transaction every exposure that succeeds leaves one reference on its descriptor
and its name in the list of the transaction. The end reclaims once for each name, in
the reverse order in which the exposures were completed.

Two things go wrong. When a share fails, the reference on top is taken off the
descriptor, and this is not its own if a callback has exposed data of the same name
meanwhile. And the status of the event replaces the one that failed exposures of its
callbacks have left.
-/
namespace Pdi.Transaction

open Pdi.Datatypes Pdi.Api

/-! ## Exposures and the calls they make -/

mutual

/-- The names of the exposures that succeed, in the order of their completion. -/
def Exposure.completed : Exposure → List Name
  | .refused _ before _ => completedAll before
  | .shared name before nested thrown _ =>
    completedAll before ++ completedAll nested ++ if thrown = none then [name] else []

def completedAll : List Exposure → List Name
  | [] => []
  | e :: es => e.completed ++ completedAll es

end

mutual

/-- The status of the first share that fails. -/
def Exposure.failure : Exposure → PdiStatus
  | .refused _ before thrown => (failureAll before).or (some (returnErr thrown))
  | .shared _ before nested thrown _ =>
    ((failureAll before).or (failureAll nested)).or (thrown.map returnErr)

def failureAll : List Exposure → PdiStatus
  | [] => none
  | e :: es => e.failure.or (failureAll es)

end

mutual

/-- No share fails after a callback has exposed data of the same name. -/
def Exposure.Untangled : Exposure → Prop
  | .refused _ before _ => UntangledAll before
  | .shared name before nested thrown _ =>
    UntangledAll before ∧ UntangledAll nested ∧ (thrown ≠ none → name ∉ completedAll nested)

def UntangledAll : List Exposure → Prop
  | [] => True
  | e :: es => e.Untangled ∧ UntangledAll es

end

def Entry.status : Entry → PdiStatus
  | .shared _ _ => none
  | .refused _ status => some status
  | .event _ status | .reclaimed _ status => status

def firstFailure : List Entry → PdiStatus
  | [] => none
  | entry :: log => entry.status.or (firstFailure log)

/-- The references shared on the descriptor `n`. -/
def references (n : Name) : List Entry → List Nat
  | [] => []
  | .shared name r :: log => if name = n then r :: references n log else references n log
  | _ :: log => references n log

/-- The names of the shares that succeeded. -/
def completed : List Entry → List Name
  | [] => []
  | .shared name _ :: log => name :: completed log
  | _ :: log => completed log

def Entry.IsShare : Entry → Prop
  | .shared _ _ | .refused _ _ => True
  | _ => False

section Log

variable {n : Name} {r : Nat} (log log' : List Entry)

theorem firstFailure_append :
    firstFailure (log ++ log') = (firstFailure log).or (firstFailure log') := by
  induction log with
  | nil => rfl
  | cons entry log ih =>
    rw [List.cons_append, firstFailure, ih, ← Option.or_assoc]
    rfl

theorem references_append : references n (log ++ log') = references n log ++ references n log' := by
  induction log with
  | nil => rfl
  | cons entry log ih =>
    cases entry with
    | shared =>
      simp only [List.cons_append, references, ih]
      split <;> rfl
    | refused | event | reclaimed => exact ih

theorem completed_append : completed (log ++ log') = completed log ++ completed log' := by
  induction log with
  | nil => rfl
  | cons entry log ih =>
    cases entry with
    | shared name => exact congrArg (name :: ·) ih
    | refused | event | reclaimed => exact ih

theorem mem_references : r ∈ references n log ↔ .shared n r ∈ log := by
  induction log with
  | nil => simp [references]
  | cons entry log ih =>
    cases entry with
    | shared =>
      simp only [references, List.mem_cons, Entry.shared.injEq]
      split
      · next h => simp [ih, h]
      · next h => simp [ih, Ne.symm h]
    | refused | event | reclaimed => simpa [references] using ih

theorem length_references : (references n log).length = (completed log).count n := by
  induction log with
  | nil => rfl
  | cons entry log ih =>
    cases entry with
    | shared =>
      simp only [references, completed, List.count_cons, beq_iff_eq]
      split <;> simp [ih]
    | refused | event | reclaimed => exact ih

end Log

/-! ## References on the descriptors -/

/-- The references of each descriptor are in the order of their numbers. -/
structure Fresh (w : World) : Prop where
  sorted : ∀ n, (w.stack n).Pairwise (· > ·)
  lt : ∀ n, ∀ r ∈ w.stack n, r < w.next

section Stack

variable {w : World} {name : Name}

theorem stack_push (n : Name) :
    (w.push name).stack n = if n = name then w.next :: w.stack n else w.stack n := by
  by_cases h : n = name <;> simp [World.push, World.setStack, h]

theorem stack_pop (n : Name) :
    (w.pop name).stack n = if n = name then (w.stack n).tail else w.stack n := by
  by_cases h : n = name <;> simp [World.pop, World.setStack, h]

theorem fresh_initial : Fresh initial := ⟨fun _ => .nil, fun _ _ h => nomatch h⟩

theorem Fresh.push (h : Fresh w) (name : Name) : Fresh (w.push name) := by
  constructor
  · intro n
    rw [stack_push]
    split
    · exact .cons (h.lt n) (h.sorted n)
    · exact h.sorted n
  · intro n r hr
    have hnext : (w.push name).next = w.next + 1 := rfl
    rw [stack_push] at hr
    split at hr
    · obtain rfl | hr := List.mem_cons.mp hr
      · omega
      · have := h.lt n r hr
        omega
    · have := h.lt n r hr
      omega

theorem Fresh.pop (h : Fresh w) (name : Name) : Fresh (w.pop name) := by
  have hsub (n : Name) : ((w.pop name).stack n).Sublist (w.stack n) := by
    rw [stack_pop]
    split
    · exact List.tail_sublist _
    · exact List.Sublist.refl _
  exact ⟨fun n => (h.sorted n).sublist (hsub n), fun n r hr => h.lt n r ((hsub n).subset hr)⟩

end Stack

/-! ## Exposures in a transaction -/

/-- What a sequence of exposures does in a transaction, where `names` are those that
succeed and `first` is the status of the first that does not. -/
structure Exposed (w w' : World) (names : List Name) (first : PdiStatus) (log : List Entry) :
    Prop where
  transaction : w'.transaction = w.transaction
  calls : w'.calls = w.calls ++ log
  shares : ∀ e ∈ log, e.IsShare
  completed : completed log = names
  failure : firstFailure log = first
  data : w'.transactionData = w.transactionData ++ names
  status : w'.transactionStatus = w.transactionStatus.or first
  grows : w.next ≤ w'.next
  shared_lt : ∀ n r, .shared n r ∈ log → r < w'.next
  stack : ∀ n, ∃ above, w'.stack n = above ++ w.stack n ∧ above.length = names.count n ∧
    ∀ r ∈ above, w.next ≤ r
  fresh : Fresh w'

section InTransaction

variable {w w₁ w₂ : World} {names names' : List Name} {f f' : PdiStatus} {log log' : List Entry}
  {name : Name}

theorem Exposed.refl (h : Fresh w) : Exposed w w [] none [] where
  transaction := rfl
  calls := by simp
  shares := nofun
  completed := rfl
  failure := rfl
  data := by simp
  status := by simp
  grows := Nat.le_refl _
  shared_lt := nofun
  stack n := ⟨[], rfl, rfl, nofun⟩
  fresh := h

theorem Exposed.trans (h : Exposed w w₁ names f log) (h' : Exposed w₁ w₂ names' f' log') :
    Exposed w w₂ (names ++ names') (f.or f') (log ++ log') where
  transaction := h'.transaction.trans h.transaction
  calls := by rw [h'.calls, h.calls, List.append_assoc]
  shares e he := (List.mem_append.mp he).elim (h.shares e) (h'.shares e)
  completed := by rw [completed_append, h.completed, h'.completed]
  failure := by rw [firstFailure_append, h.failure, h'.failure]
  data := by rw [h'.data, h.data, List.append_assoc]
  status := by rw [h'.status, h.status, Option.or_assoc]
  grows := h.grows.trans h'.grows
  shared_lt n r hr := (List.mem_append.mp hr).elim
    (fun hr => (h.shared_lt n r hr).trans_le h'.grows) (h'.shared_lt n r)
  stack n := by
    obtain ⟨above, hstack, hlength, hge⟩ := h.stack n
    obtain ⟨above', hstack', hlength', hge'⟩ := h'.stack n
    refine ⟨above' ++ above, by rw [hstack', hstack, List.append_assoc], ?_, ?_⟩
    · rw [List.length_append, List.count_append, hlength, hlength', Nat.add_comm]
    · intro r hr
      exact (List.mem_append.mp hr).elim (fun hr => h.grows.trans (hge' r hr)) (hge r)
  fresh := h'.fresh

/-- A failed share is noted. -/
theorem Exposed.failed (hw : w.transaction ≠ "") (h : Fresh w) (name : Name) (status : Status) :
    Exposed w ((w.record (.refused name status)).noteFailure status) [] (some status)
      [.refused name status] := by
  have hnote : (w.record (.refused name status)).noteFailure status =
      { w with
        calls := w.calls ++ [.refused name status]
        transactionStatus := w.transactionStatus.or (some status) } := by
    cases hstatus : w.transactionStatus <;>
      simp [World.noteFailure, World.record, hw, hstatus]
  rw [hnote]
  refine ⟨rfl, rfl, ?_, rfl, rfl, ?_, rfl, Nat.le_refl _, ?_, ?_, ⟨h.sorted, h.lt⟩⟩
  · simp [Entry.IsShare]
  · simp
  · simp
  · exact fun n => ⟨[], rfl, rfl, nofun⟩

/-- After the exposures made while data was being shared, its own reference is there,
below theirs. -/
theorem Exposed.above_push (h : Exposed (w.push name) w₁ names f log) (n : Name) :
    ∃ above, w₁.stack n = above ++ (if n = name then [w.next] else []) ++ w.stack n ∧
      above.length = names.count n ∧ ∀ r ∈ above, w.next < r := by
  obtain ⟨above, hstack, hlength, hge⟩ := h.stack n
  refine ⟨above, ?_, hlength, hge⟩
  rw [hstack, stack_push]
  split <;> simp

theorem Exposed.completes (h : Exposed (w.push name) w₁ names f log) :
    Exposed w { w₁.record (.shared name w.next) with
        transactionData := w₁.transactionData ++ [name] }
      (names ++ [name]) f (log ++ [.shared name w.next]) where
  transaction := h.transaction
  calls := by
    change w₁.calls ++ _ = _
    rw [h.calls, List.append_assoc]
    rfl
  shares e he := by
    obtain he | he := List.mem_append.mp he
    · exact h.shares e he
    · rw [List.mem_singleton.mp he]
      trivial
  completed := by rw [completed_append, h.completed]; rfl
  failure := by
    rw [firstFailure_append, h.failure]
    exact Option.or_none
  data := by
    change w₁.transactionData ++ _ = _
    rw [h.data, List.append_assoc]
    rfl
  status := h.status
  grows := (Nat.le_succ _).trans h.grows
  shared_lt n r hr := by
    obtain hr | hr := List.mem_append.mp hr
    · exact h.shared_lt n r hr
    · obtain ⟨rfl, rfl⟩ := Entry.shared.inj (List.mem_singleton.mp hr)
      exact h.grows
  stack n := by
    obtain ⟨above, hstack, hlength, hge⟩ := h.above_push n
    refine ⟨_, hstack, ?_, ?_⟩
    · rw [List.length_append, List.count_append, hlength]
      by_cases hn : n = name
      · simp [hn]
      · simp [hn, Ne.symm hn]
    · intro r hr
      obtain hr | hr := List.mem_append.mp hr
      · exact Nat.le_of_lt (hge r hr)
      · split at hr
        · rw [List.mem_singleton.mp hr]
        · cases hr
  fresh := ⟨h.fresh.sorted, h.fresh.lt⟩

/-- The reference on top is taken off, be it the own one or not. -/
theorem Exposed.pop (h : Exposed (w.push name) w₁ names f log) :
    Exposed w (w₁.pop name) names f log where
  transaction := h.transaction
  calls := h.calls
  shares := h.shares
  completed := h.completed
  failure := h.failure
  data := h.data
  status := h.status
  grows := (Nat.le_succ _).trans h.grows
  shared_lt := h.shared_lt
  stack n := by
    obtain ⟨above, hstack, hlength, hge⟩ := h.above_push n
    rw [stack_pop, hstack]
    split
    · next hn =>
      cases above with
      | nil => exact ⟨[], by simp, hlength, nofun⟩
      | cons a above =>
        refine ⟨above ++ [w.next], by simp, by simpa using hlength, ?_⟩
        intro r hr
        obtain hr | hr := List.mem_append.mp hr
        · exact Nat.le_of_lt (hge r (List.mem_cons_of_mem _ hr))
        · rw [List.mem_singleton.mp hr]
    · exact ⟨above, by simp, hlength, fun r hr => Nat.le_of_lt (hge r hr)⟩
  fresh := h.fresh.pop name

/-! ## References that are lost -/

/-- The references added are those of the shares that succeeded. -/
def Matched (w w' : World) (log : List Entry) : Prop :=
  ∀ n, ∃ above, w'.stack n = above ++ w.stack n ∧ above.Perm (references n log)

/-- A reference that has been shared is not there any more. -/
def Lost (w : World) (log : List Entry) : Prop := ∃ n r, .shared n r ∈ log ∧ r ∉ w.stack n

/-- All references are there, or one is lost, depending on a condition. -/
structure Verdict (p : Prop) (w w' : World) (log : List Entry) : Prop where
  matched : p → Matched w w' log
  lost : ¬ p → Lost w' log

variable {p q : Prop}

theorem Matched.not_lost (h : Matched w w₁ log) : ¬ Lost w₁ log := by
  rintro ⟨n, r, hr, hlost⟩
  obtain ⟨above, hstack, hperm⟩ := h n
  rw [hstack] at hlost
  exact hlost (List.mem_append_left _ (hperm.mem_iff.mpr ((mem_references log).mpr hr)))

theorem Verdict.not_lost_iff (h : Verdict p w w₁ log) : ¬ Lost w₁ log ↔ p := by
  constructor
  · intro hkept
    by_contra hp
    exact hkept (h.lost hp)
  · exact fun hp => (h.matched hp).not_lost

theorem Verdict.refl : Verdict True w w [] :=
  ⟨fun _ _ => ⟨[], rfl, .nil⟩, fun h => absurd trivial h⟩

theorem Verdict.trans (h : Verdict p w w₁ log) (h' : Verdict q w₁ w₂ log')
    (he : Exposed w w₁ names f log) (he' : Exposed w₁ w₂ names' f' log') :
    Verdict (p ∧ q) w w₂ (log ++ log') := by
  constructor
  · rintro ⟨hp, hq⟩ n
    obtain ⟨above, hstack, hperm⟩ := h.matched hp n
    obtain ⟨above', hstack', hperm'⟩ := h'.matched hq n
    refine ⟨above' ++ above, by rw [hstack', hstack, List.append_assoc], ?_⟩
    rw [references_append]
    exact (hperm'.append hperm).trans List.perm_append_comm
  · intro hpq
    by_cases hp : p
    · obtain ⟨n, r, hr, hlost⟩ := h'.lost fun hq => hpq ⟨hp, hq⟩
      exact ⟨n, r, List.mem_append_right _ hr, hlost⟩
    · -- what is added later has other numbers
      obtain ⟨n, r, hr, hlost⟩ := h.lost hp
      obtain ⟨above, hstack, -, hge⟩ := he'.stack n
      refine ⟨n, r, List.mem_append_left _ hr, ?_⟩
      rw [hstack]
      intro hmem
      obtain hmem | hmem := List.mem_append.mp hmem
      · exact absurd (he.shared_lt n r hr) (Nat.not_lt_of_le (hge r hmem))
      · exact hlost hmem

/-- A failure that is noted changes no reference. -/
theorem Verdict.failed (name : Name) (status : Status) :
    Verdict True w ((w.record (.refused name status)).noteFailure status)
      [.refused name status] := by
  have hstack : ((w.record (.refused name status)).noteFailure status).stack = w.stack := by
    unfold World.noteFailure
    split <;> rfl
  refine ⟨fun _ n => ⟨[], by rw [hstack]; rfl, .nil⟩, fun h => absurd trivial h⟩

theorem Verdict.completes (h : Verdict p (w.push name) w₁ log) :
    Verdict p w { w₁.record (.shared name w.next) with
        transactionData := w₁.transactionData ++ [name] } (log ++ [.shared name w.next]) := by
  constructor
  · intro hp n
    obtain ⟨above, hstack, hperm⟩ := h.matched hp n
    rw [stack_push] at hstack
    rw [references_append]
    by_cases hn : n = name
    · refine ⟨above ++ [w.next], ?_, ?_⟩
      · change w₁.stack n = _
        rw [hstack, if_pos hn]
        simp
      · rw [references, if_pos hn.symm]
        exact hperm.append_right _
    · refine ⟨above, ?_, ?_⟩
      · change w₁.stack n = _
        rw [hstack, if_neg hn]
      · rw [references, if_neg (Ne.symm hn)]
        simpa [references] using hperm
  · intro hp
    obtain ⟨n, r, hr, hlost⟩ := h.lost hp
    exact ⟨n, r, List.mem_append_left _ hr, hlost⟩

/-- The reference that is taken off is the own one if no callback has exposed data of
the same name, and one of those otherwise. -/
theorem Verdict.pop (h : Verdict p (w.push name) w₁ log)
    (he : Exposed (w.push name) w₁ names f log) :
    Verdict (p ∧ name ∉ names) w (w₁.pop name) log := by
  constructor
  · rintro ⟨hp, hname⟩ n
    obtain ⟨above, hstack, hperm⟩ := h.matched hp n
    rw [stack_push] at hstack
    rw [stack_pop, hstack]
    refine ⟨above, ?_, hperm⟩
    by_cases hn : n = name
    · have hempty : above = [] := by
        rw [← List.length_eq_zero_iff, hperm.length_eq, length_references, he.completed, hn]
        exact List.count_eq_zero.mpr hname
      simp [hn, hempty]
    · simp [hn]
  · intro hnot
    by_cases hp : p
    · have hname : name ∈ names := by
        by_contra hname
        exact hnot ⟨hp, hname⟩
      obtain ⟨above, hstack, hperm⟩ := h.matched hp name
      have hlength : 0 < above.length := by
        rw [hperm.length_eq, length_references, he.completed]
        exact List.count_pos_iff.mpr hname
      obtain ⟨a, above, rfl⟩ := List.exists_cons_of_length_pos hlength
      have hshared : .shared name a ∈ log :=
        (mem_references log).mp (hperm.mem_iff.mp List.mem_cons_self)
      refine ⟨name, a, hshared, ?_⟩
      rw [stack_pop, if_pos rfl]
      have hsorted := he.fresh.sorted name
      rw [hstack] at hsorted ⊢
      exact fun hmem => absurd (List.rel_of_pairwise_cons hsorted hmem) (Nat.lt_irrefl a)
    · obtain ⟨n, r, hr, hlost⟩ := h.lost hp
      refine ⟨n, r, hr, fun hmem => hlost ?_⟩
      rw [stack_pop] at hmem
      split at hmem
      · exact List.mem_of_mem_tail hmem
      · exact hmem

end InTransaction

/-! ## All exposures in a transaction -/

section Equations

variable (name : Name) (before nested : List Exposure) (removal : Removal) (w : World)

theorem pdiExpose_refused (thrown : Exception) : (pdiExpose (.refused name before thrown) w).1 =
    ((exposeAll before w).record (.refused name (returnErr thrown))).noteFailure
      (returnErr thrown) := by
  rw [pdiExpose, pdiShare]
  rfl

theorem pdiExpose_thrown (e : Exception) :
    (pdiExpose (.shared name before nested (some e) removal) w).1 =
      (((exposeAll nested ((exposeAll before w).push name)).pop name).record
        (.refused name (returnErr e))).noteFailure (returnErr e) := by
  rw [pdiExpose, pdiShare]
  rfl

theorem pdiExpose_deferred
    (hw : (exposeAll nested ((exposeAll before w).push name)).transaction ≠ "") :
    (pdiExpose (.shared name before nested none removal) w).1 =
      { (exposeAll nested ((exposeAll before w).push name)).record
          (.shared name (exposeAll before w).next) with
        transactionData :=
          (exposeAll nested ((exposeAll before w).push name)).transactionData ++ [name] } := by
  rw [pdiExpose, pdiShare]
  exact congrArg Prod.fst (if_pos hw)

end Equations

mutual

theorem exposes (e : Exposure) {w : World} (hw : w.transaction ≠ "") (hfresh : Fresh w) :
    ∃ log, Exposed w (pdiExpose e w).1 e.completed e.failure log ∧
      Verdict e.Untangled w (pdiExpose e w).1 log := by
  match e with
  | .refused name before thrown =>
    obtain ⟨log, hexposed, hverdict⟩ := exposesAll before hw hfresh
    have hw' : (exposeAll before w).transaction ≠ "" := hexposed.transaction ▸ hw
    have hfailed := Exposed.failed hw' hexposed.fresh name (returnErr thrown)
    rw [pdiExpose_refused]
    refine ⟨log ++ [.refused name (returnErr thrown)], ?_, ?_⟩
    · simpa [Exposure.completed, Exposure.failure] using hexposed.trans hfailed
    · simpa [Exposure.Untangled] using
        hverdict.trans (.failed name (returnErr thrown)) hexposed hfailed
  | .shared name before nested thrown removal =>
    obtain ⟨log, hexposed, hverdict⟩ := exposesAll before hw hfresh
    have hw' : (exposeAll before w).transaction ≠ "" := hexposed.transaction ▸ hw
    obtain ⟨log', hnested, hverdict'⟩ :=
      exposesAll nested (w := (exposeAll before w).push name) hw' (hexposed.fresh.push name)
    have hw'' : (exposeAll nested ((exposeAll before w).push name)).transaction ≠ "" :=
      hnested.transaction ▸ hw'
    cases thrown with
    | none =>
      rw [pdiExpose_deferred name before nested removal w hw'']
      refine ⟨log ++ (log' ++ [.shared name (exposeAll before w).next]), ?_, ?_⟩
      · simpa [Exposure.completed, Exposure.failure] using hexposed.trans hnested.completes
      · simpa [Exposure.Untangled] using
          hverdict.trans hverdict'.completes hexposed hnested.completes
    | some e =>
      have hpop : ((exposeAll nested ((exposeAll before w).push name)).pop name).transaction ≠ "" :=
        hw''
      have hfailed := Exposed.failed hpop hnested.pop.fresh name (returnErr e)
      have hrest := hnested.pop.trans hfailed
      have hverdict'' := (hverdict'.pop hnested).trans
        (.failed name (returnErr e)) hnested.pop hfailed
      rw [pdiExpose_thrown]
      refine ⟨log ++ (log' ++ [.refused name (returnErr e)]), ?_, ?_⟩
      · simpa [Exposure.completed, Exposure.failure, Option.or_assoc] using hexposed.trans hrest
      · simpa [Exposure.Untangled] using hverdict.trans hverdict'' hexposed hrest

theorem exposesAll (es : List Exposure) {w : World} (hw : w.transaction ≠ "") (hfresh : Fresh w) :
    ∃ log, Exposed w (exposeAll es w) (completedAll es) (failureAll es) log ∧
      Verdict (UntangledAll es) w (exposeAll es w) log := by
  match es with
  | [] =>
    rw [exposeAll]
    exact ⟨[], .refl hfresh, .refl⟩
  | e :: es =>
    obtain ⟨log, hexposed, hverdict⟩ := exposes e hw hfresh
    obtain ⟨log', hexposed', hverdict'⟩ :=
      exposesAll es (w := (pdiExpose e w).1) (hexposed.transaction ▸ hw) hexposed.fresh
    rw [exposeAll]
    exact ⟨_, hexposed.trans hexposed', hverdict.trans hverdict' hexposed hexposed'⟩

end

end Pdi.Transaction
