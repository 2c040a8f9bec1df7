import Pdi.TransactionSettled

/-!
# Runs with transactions

Whatever was done before, a transaction starts without data and without a failure.
What its end does is described by the calls made since the begin: the shares, the
event, and the reclaims.
-/
namespace Pdi.Transaction

open Pdi.Datatypes Pdi.Api

/-! ## Calls outside of a transaction -/

variable {w : World} {es : List Exposure}

/-- What all calls but the begin and the end of a transaction keep. -/
structure Steady (w w' : World) : Prop where
  fresh : Fresh w → Fresh w'
  transaction : w'.transaction = w.transaction
  data : w.transaction = "" → w'.transactionData = w.transactionData

section Steady

variable {w' w'' : World}

theorem Steady.refl (w : World) : Steady w w := ⟨id, rfl, fun _ => rfl⟩

theorem Steady.trans (h : Steady w w') (h' : Steady w' w'') : Steady w w'' where
  fresh hw := h'.fresh (h.fresh hw)
  transaction := h'.transaction.trans h.transaction
  data hw := (h'.data (h.transaction.trans hw)).trans (h.data hw)

theorem steady_push (w : World) (name : Name) : Steady w (w.push name) :=
  ⟨fun h => h.push name, rfl, fun _ => rfl⟩

theorem steady_pop (w : World) (name : Name) : Steady w (w.pop name) :=
  ⟨fun h => h.pop name, rfl, fun _ => rfl⟩

theorem steady_record (w : World) (entry : Entry) : Steady w (w.record entry) :=
  ⟨fun h => ⟨h.sorted, h.lt⟩, rfl, fun _ => rfl⟩

theorem steady_setStatus (w : World) (status : PdiStatus) :
    Steady w { w with transactionStatus := status } :=
  ⟨fun h => ⟨h.sorted, h.lt⟩, rfl, fun _ => rfl⟩

theorem steady_noteFailure (w : World) (status : Status) : Steady w (w.noteFailure status) := by
  unfold World.noteFailure
  split
  · exact steady_setStatus w (some status)
  · exact .refl w

theorem steady_pdiReclaim (name : Name) (removal : Removal) (w : World) :
    Steady w (pdiReclaim name removal w).1 := by
  refine Steady.trans ?_ (steady_record _ _)
  unfold World.reclaim
  split
  · exact .refl w
  · cases removal with
    | done | lost => exact steady_pop w name
    | kept => exact .refl w

theorem steady_afterShare (name : Name) (removal : Removal) (o : World × PdiStatus) :
    Steady o.1 (afterShare name removal o).1 := by
  obtain ⟨w, _ | status⟩ := o
  · rw [afterShare]
    split
    · next hw => exact ⟨fun h => ⟨h.sorted, h.lt⟩, rfl, fun hidle => absurd hidle hw⟩
    · exact steady_pdiReclaim name removal w
  · exact steady_noteFailure w status

theorem steady_failedShare (w : World) (name : Name) (e : Exception) :
    Steady w (failedShare w name e).1 := steady_record w _

end Steady

mutual

theorem steady_pdiShare (e : Exposure) (w : World) : Steady w (pdiShare e w).1 := by
  match e with
  | .refused name before thrown =>
    rw [pdiShare]
    exact (steady_exposeAll before w).trans (steady_failedShare _ name thrown)
  | .shared name before nested thrown removal =>
    have hnotified := ((steady_exposeAll before w).trans (steady_push _ name)).trans
      (steady_exposeAll nested _)
    cases thrown with
    | none =>
      rw [pdiShare]
      exact hnotified.trans (steady_record _ _)
    | some e =>
      rw [pdiShare]
      exact (hnotified.trans (steady_pop _ name)).trans (steady_failedShare _ name e)

theorem steady_exposeAll (es : List Exposure) (w : World) : Steady w (exposeAll es w) := by
  match es with
  | [] =>
    rw [exposeAll]
    exact .refl w
  | e :: es =>
    rw [exposeAll]
    exact ((steady_pdiShare e w).trans (steady_afterShare _ _ _)).trans (steady_exposeAll es _)

end

theorem steady_reclaimAll (names : List Name) (removals : List Removal) (w : World) :
    Steady w (reclaimAll names removals w) := by
  induction names generalizing removals w with
  | nil => exact .refl w
  | cons name names ih =>
    exact ((steady_pdiReclaim name _ w).trans (steady_setStatus _ _)).trans (ih _ _)

theorem steady_triggerEvent (event : List Exposure) (thrown : Option Exception) (w : World) :
    Steady w (triggerEvent event thrown w) := by
  unfold triggerEvent
  split
  · exact ((steady_exposeAll event w).trans (steady_record _ _)).trans (steady_setStatus _ _)
  · exact .refl w

/-- What holds between the calls. -/
structure Inv (w : World) : Prop where
  fresh : Fresh w
  idle : w.transaction = "" → w.transactionData = []

theorem Inv.steady {w' : World} (h : Inv w) (hs : Steady w w') : Inv w' where
  fresh := hs.fresh h.fresh
  idle hw := by
    rw [hs.transaction] at hw
    rw [hs.data hw, h.idle hw]

theorem inv_step (h : Inv w) (a : Action) : Inv (step w a).1 := by
  cases a with
  | start =>
    simp only [step, pdiTransactionBegin]
    split
    · exact h
    · next hw => exact ⟨⟨h.fresh.sorted, h.fresh.lt⟩, fun _ => h.idle (not_not.mp hw)⟩
  | expose e => exact h.steady ((steady_pdiShare e w).trans (steady_afterShare _ _ _))
  | finish event thrown removals =>
    simp only [step, pdiTransactionEnd]
    split
    · exact ⟨⟨h.fresh.sorted, h.fresh.lt⟩, h.idle⟩
    · have hfresh := (steady_reclaimAll (triggerEvent event thrown w).transactionData.reverse
        removals _).fresh ((steady_triggerEvent event thrown w).fresh h.fresh)
      exact ⟨⟨hfresh.sorted, hfresh.lt⟩, fun _ => rfl⟩

theorem inv_run (h : Inv w) (actions : List Action) : Inv (run w actions) := by
  induction actions generalizing w with
  | nil => exact h
  | cons a actions ih => exact ih (inv_step h a)

theorem inv_initial : Inv initial := ⟨fresh_initial, fun _ => rfl⟩

/-! ## The reclaims at the end -/

def Removal.status : Removal → PdiStatus
  | .done => none
  | .kept e | .lost e => some (returnErr e)

/-- The first failure of the next `k` reclaims. -/
def removalFailure : Nat → List Removal → PdiStatus
  | 0, _ => none
  | k + 1, removals => (removals.headD .done).status.or (removalFailure k removals.tail)

/-- The reclaims of `names`, with any statuses. -/
def Reclaims (names : List Name) (log : List Entry) : Prop :=
  List.Forall₂ (fun name entry => ∃ status, entry = .reclaimed name status) names log

/-- A reclaim of a descriptor that has a reference. -/
theorem pdiReclaim_shared {name : Name} (removal : Removal) (h : w.stack name ≠ []) :
    (pdiReclaim name removal w).2 = removal.status ∧
      (pdiReclaim name removal w).1.calls = w.calls ++ [.reclaimed name removal.status] ∧
      (pdiReclaim name removal w).1.transactionStatus = w.transactionStatus ∧
      (∀ n, (w.stack n).length ≤
        ((pdiReclaim name removal w).1.stack n).length + if name = n then 1 else 0) ∧
      (removal.status = none → ∀ n, (pdiReclaim name removal w).1.stack n =
        (w.stack n).drop (if name = n then 1 else 0)) := by
  have hpop (n : Name) : (w.pop name).stack n = (w.stack n).drop (if name = n then 1 else 0) := by
    rw [stack_pop]
    by_cases hn : n = name
    · simp [hn]
    · simp [hn, Ne.symm hn]
  have hlength (n : Name) : (w.stack n).length ≤
      ((w.pop name).stack n).length + if name = n then 1 else 0 := by
    rw [hpop, List.length_drop]
    omega
  have hreclaim : w.reclaim name removal = match removal with
      | .done => (w.pop name, none)
      | .kept e => (w, some e)
      | .lost e => (w.pop name, some e) := by
    unfold World.reclaim
    split
    · next hempty => exact absurd hempty h
    · rfl
  unfold pdiReclaim
  rw [hreclaim]
  cases removal with
  | done => exact ⟨rfl, rfl, rfl, hlength, fun _ => hpop⟩
  | kept => exact ⟨rfl, rfl, rfl, fun n => Nat.le_add_right _ _, nofun⟩
  | lost => exact ⟨rfl, rfl, rfl, hlength, nofun⟩

theorem reclaimAll_log (names : List Name) (removals : List Removal) (w : World)
    (h : ∀ n, names.count n ≤ (w.stack n).length) :
    ∃ log, Reclaims names log ∧ (reclaimAll names removals w).calls = w.calls ++ log ∧
      firstFailure log = removalFailure names.length removals ∧
      (reclaimAll names removals w).transactionStatus =
        w.transactionStatus.or (firstFailure log) ∧
      ((∀ e ∈ log, e.status = none) →
        ∀ n, (reclaimAll names removals w).stack n = (w.stack n).drop (names.count n)) := by
  induction names generalizing removals w with
  | nil =>
    exact ⟨[], .nil, by simp [reclaimAll], rfl, by simp [reclaimAll, firstFailure],
      by simp [reclaimAll]⟩
  | cons name names ih =>
    have hname : w.stack name ≠ [] := by
      have := h name
      rw [count_name_cons, if_pos rfl] at this
      intro hempty
      simp [hempty] at this
    obtain ⟨hstatus, hcalls, hkept, hlength, hdrop⟩ :=
      pdiReclaim_shared (removals.headD .done) hname
    rw [reclaimAll, keep_first]
    generalize pdiReclaim name (removals.headD .done) w = reclaimed at *
    obtain ⟨w₁, status⟩ := reclaimed
    dsimp only at *
    obtain ⟨log, hreclaims, hmade, hfailure, hafter, hstack⟩ :=
      ih removals.tail { w₁ with transactionStatus := w₁.transactionStatus.or status } (by
        intro n
        have hn := h n
        have hn₁ := hlength n
        rw [count_name_cons] at hn
        dsimp only
        omega)
    refine ⟨.reclaimed name status :: log, .cons ⟨status, rfl⟩ hreclaims, ?_, ?_, ?_, ?_⟩
    · rw [hmade, hcalls, hstatus]
      simp
    · rw [firstFailure, hfailure, Entry.status, hstatus]
      rfl
    · rw [hafter, hkept, Option.or_assoc]
      rfl
    · intro hall n
      obtain ⟨hfirst, hrest⟩ := List.forall_mem_cons.mp hall
      rw [hstack hrest n, hdrop (hstatus ▸ hfirst) n, List.drop_drop, count_name_cons, Nat.add_comm]

/-! ## The whole transaction -/

/-- The calls that have ended since `w`. -/
def since (w w' : World) : List Entry := w'.calls.drop w.calls.length

/-- The event is triggered, once and last, when no expose has failed. -/
inductive Triggered (name : Name) : PdiStatus → List Entry → Prop
  | event (during : List Entry) (status : PdiStatus) (h : ∀ e ∈ during, e.IsShare) :
    Triggered name none (during ++ [.event name status])
  | skipped (status : Status) : Triggered name (some status) []

/-- A transaction that begins in `w₀`, where `w₂` is the state before its end, `w₃`
the one when its end starts to reclaim, and `w₄` the one after it. -/
structure Settled (name : Name) (w₀ w₂ w₃ w₄ : World) (status : PdiStatus) : Prop where
  deferred : ∀ e ∈ since w₀ w₃, ∀ n r, e ≠ .reclaimed n r
  held : ∀ n r, .shared n r ∈ since w₀ w₃ → r ∈ w₃.stack n
  event : Triggered name (firstFailure (since w₀ w₂)) (since w₂ w₃)
  reclaimed : Reclaims (completed (since w₀ w₃)).reverse (since w₃ w₄)
  restored : (∀ e ∈ since w₃ w₄, e.status = none) → ∀ n, w₄.stack n = w₀.stack n
  status : status = firstFailure (since w₀ w₄)
  ended : w₄.transaction = "" ∧ w₄.transactionData = []

/-- No share fails after a callback has exposed data of the same name in it, and if an
exposure by a callback of the event fails, the event or else the first reclaim that
fails has the same status. -/
def Orderly (es event : List Exposure) (thrown : Option Exception) (removals : List Removal) :
    Prop :=
  UntangledAll es ∧
    (failureAll es = none → UntangledAll event ∧
      (failureAll event = none ∨
        (thrown.map returnErr).or
          (removalFailure (completedAll es ++ completedAll event).length removals) =
            failureAll event))

/-- The exposures among some calls. -/
def exposures : List Action → List Exposure
  | [] => []
  | .expose e :: actions => e :: exposures actions
  | _ :: actions => exposures actions

def NoFinish (actions : List Action) : Prop :=
  ∀ event thrown removals, .finish event thrown removals ∉ actions

section Settle

variable {w₀ w₁ w₂ w₃ : World} {name : Name} {log log' : List Entry} {names names' : List Name}
  {f f' : PdiStatus} {event : List Exposure} {thrown : Option Exception} {removals : List Removal}

theorem since_eq (h : w₁.calls = w.calls ++ log) : since w w₁ = log := by
  rw [since, h, List.drop_left]

/-- Another begin is refused, so only the exposures count. -/
theorem run_body {body : List Action} (hw : w.transaction ≠ "") (hbody : NoFinish body) :
    run w body = exposeAll (exposures body) w := by
  induction body generalizing w with
  | nil =>
    rw [exposures, exposeAll]
    rfl
  | cons a body ih =>
    have hrest : NoFinish body := fun event thrown removals hmem =>
      hbody event thrown removals (List.mem_cons_of_mem _ hmem)
    cases a with
    | start name =>
      have hrefused : (step w (.start name)).1 = w := congrArg Prod.fst (if_pos hw)
      change run (step w (.start name)).1 body = _
      rw [hrefused]
      exact ih hw hrest
    | expose e =>
      rw [exposures, exposeAll]
      have hsteady := (steady_pdiShare e w).trans (steady_afterShare e.name e.removal _)
      exact ih (hsteady.transaction ▸ hw) hrest
    | finish event thrown removals => exact absurd List.mem_cons_self (hbody event thrown removals)

/-- What is there when the end starts to reclaim. -/
structure Pending (w₀ w₃ : World) (log : List Entry) : Prop where
  calls : w₃.calls = w₀.calls ++ log
  data : w₃.transactionData = completed log
  stack : ∀ n, ∃ above, w₃.stack n = above ++ w₀.stack n ∧ above.length = (completed log).count n

theorem Exposed.pending (h : Exposed w w₁ names f log) (hdata : w.transactionData = []) :
    Pending w w₁ log where
  calls := h.calls
  data := by rw [h.data, hdata, h.completed, List.nil_append]
  stack n := by
    obtain ⟨above, hstack, hlength, -⟩ := h.stack n
    exact ⟨above, hstack, by rw [hlength, h.completed]⟩

/-- The reclaims that an end makes, and what it returns. -/
theorem Pending.finish (h : Pending w₀ (triggerEvent event thrown w₂) log)
    (hw : w₂.transaction ≠ "") (removals : List Removal) :
    ∃ log', Reclaims (completed log).reverse log' ∧
      (pdiTransactionEnd event thrown removals w₂).1.calls =
        (triggerEvent event thrown w₂).calls ++ log' ∧
      firstFailure log' = removalFailure (completed log).length removals ∧
      (pdiTransactionEnd event thrown removals w₂).2 =
        (triggerEvent event thrown w₂).transactionStatus.or (firstFailure log') ∧
      ((∀ e ∈ log', e.status = none) →
        ∀ n, (pdiTransactionEnd event thrown removals w₂).1.stack n = w₀.stack n) ∧
      (pdiTransactionEnd event thrown removals w₂).1.transaction = "" ∧
      (pdiTransactionEnd event thrown removals w₂).1.transactionData = [] := by
  rw [pdiTransactionEnd, if_neg hw]
  generalize triggerEvent event thrown w₂ = w₃ at h
  have hcount (n : Name) : w₃.transactionData.reverse.count n ≤ (w₃.stack n).length := by
    obtain ⟨above, hstack, hlength⟩ := h.stack n
    rw [List.count_reverse, h.data, hstack, List.length_append, hlength]
    exact Nat.le_add_right _ _
  obtain ⟨log', hreclaims, hcalls, hfailure, hstatus, hstack⟩ :=
    reclaimAll_log w₃.transactionData.reverse removals w₃ hcount
  rw [h.data] at hreclaims
  rw [List.length_reverse, h.data] at hfailure
  refine ⟨log', hreclaims, hcalls, hfailure, hstatus, ?_, rfl, rfl⟩
  intro hall n
  obtain ⟨above, habove, hlength⟩ := h.stack n
  change (reclaimAll w₃.transactionData.reverse removals w₃).stack n = _
  rw [hstack hall n, List.count_reverse, h.data, ← hlength, habove, List.drop_left]

/-- All but two parts of the description hold in any case. -/
theorem settled_iff (hpending : Pending w₀ (triggerEvent event thrown w₂) (log ++ log'))
    (hw : w₂.transaction ≠ "") (hcalls : w₂.calls = w₀.calls ++ log)
    (htriggered : Triggered name (firstFailure log) log')
    (hshares : ∀ e ∈ log ++ log', ∀ n r, e ≠ .reclaimed n r) :
    Settled name w₀ w₂ (triggerEvent event thrown w₂)
        (pdiTransactionEnd event thrown removals w₂).1
        (pdiTransactionEnd event thrown removals w₂).2 ↔
      ¬ Lost (triggerEvent event thrown w₂) (log ++ log') ∧
        (triggerEvent event thrown w₂).transactionStatus.or
            (removalFailure (completed (log ++ log')).length removals) =
          (firstFailure (log ++ log')).or
            (removalFailure (completed (log ++ log')).length removals) := by
  obtain ⟨reclaims, hreclaims, hmade, hfailure, hstatus, hrestored, hended⟩ :=
    hpending.finish hw removals
  generalize pdiTransactionEnd event thrown removals w₂ = r at *
  generalize triggerEvent event thrown w₂ = w₃ at *
  have h₂ : since w₀ w₂ = log := since_eq hcalls
  have h₃ : since w₀ w₃ = log ++ log' := since_eq hpending.calls
  have h₂₃ : since w₂ w₃ = log' := since_eq (by rw [hpending.calls, hcalls, List.append_assoc])
  have h₃₄ : since w₃ r.1 = reclaims := since_eq hmade
  have h₀₄ : since w₀ r.1 = log ++ log' ++ reclaims :=
    since_eq (by rw [hmade, hpending.calls, List.append_assoc])
  have hlost : ¬ Lost w₃ (log ++ log') ↔ ∀ n r, .shared n r ∈ log ++ log' → r ∈ w₃.stack n := by
    simp [Lost]
  rw [← hfailure, ← hstatus, ← firstFailure_append, hlost]
  constructor
  · intro h
    exact ⟨h₃ ▸ h.held, h₀₄ ▸ h.status⟩
  · rintro ⟨hheld, hresult⟩
    exact ⟨h₃ ▸ hshares, h₃ ▸ hheld, h₂ ▸ h₂₃ ▸ htriggered, h₃ ▸ h₃₄ ▸ hreclaims,
      h₃₄ ▸ hrestored, h₀₄ ▸ hresult, hended⟩

theorem not_reclaimed {e : Entry} (h : e.IsShare) (n : Name) (r : PdiStatus) :
    e ≠ .reclaimed n r := by
  rintro rfl
  exact h

/-- The event is not triggered when an expose has failed. -/
theorem settled_iff_of_failed {status : Status}
    (h : Exposed w₁ w₂ (completedAll es) (failureAll es) log)
    (hverdict : Verdict (UntangledAll es) w₁ w₂ log) (hw : w₂.transaction ≠ "")
    (hdata : w₁.transactionData = []) (hstatus : w₁.transactionStatus = none)
    (hfailed : failureAll es = some status) :
    Settled name w₁ w₂ (triggerEvent event thrown w₂)
        (pdiTransactionEnd event thrown removals w₂).1
        (pdiTransactionEnd event thrown removals w₂).2 ↔ UntangledAll es := by
  have hafter : w₂.transactionStatus = some status := by
    rw [h.status, hstatus, hfailed]
    rfl
  have hskipped : triggerEvent event thrown w₂ = w₂ := by
    rw [triggerEvent, if_neg (by simp [hafter])]
  have hfailure : firstFailure log = some status := by rw [h.failure, hfailed]
  have hpending : Pending w₁ (triggerEvent event thrown w₂) (log ++ []) := by
    rw [hskipped, List.append_nil]
    exact h.pending hdata
  rw [settled_iff hpending hw h.calls (hfailure ▸ .skipped status)
    fun e he n r => not_reclaimed (h.shares e (by simpa using he)) n r]
  rw [hskipped, List.append_nil, hafter, hfailure, hverdict.not_lost_iff]
  simp

/-- The event is recorded after the exposures in it. -/
def World.endEvent (w : World) (name : Name) (status : PdiStatus) : World :=
  { w.record (.event name status) with transactionStatus := status }

theorem completed_event (status : PdiStatus) :
    completed (log ++ [.event name status]) = completed log := by
  simp [completed_append, completed]

theorem firstFailure_event (status : PdiStatus) :
    firstFailure (log ++ [.event name status]) = (firstFailure log).or status := by
  rw [firstFailure_append, firstFailure, Entry.status, firstFailure, Option.or_none]

theorem lost_event (status : PdiStatus) :
    Lost (w.endEvent name status) (log ++ [.event name status]) ↔ Lost w log := by
  simp [Lost, World.endEvent, World.record]

theorem Exposed.pending_event (h : Exposed w w₁ names f log) (hdata : w.transactionData = [])
    (name : Name) (status : PdiStatus) :
    Pending w (w₁.endEvent name status) (log ++ [.event name status]) := by
  have hpending := h.pending hdata
  refine ⟨?_, ?_, ?_⟩
  · change w₁.calls ++ _ = _
    rw [hpending.calls, List.append_assoc]
  · rw [completed_event]
    exact hpending.data
  · rw [completed_event]
    exact hpending.stack

/-- The status of the event hides the failures of the exposures in it. -/
theorem settled_iff_of_event (h : Exposed w₁ w₂ (completedAll es) (failureAll es) log)
    (hverdict : Verdict (UntangledAll es) w₁ w₂ log) (hw : w₂.transaction = name)
    (hname : name ≠ "") (hdata : w₁.transactionData = []) (hstatus : w₁.transactionStatus = none)
    (hshared : failureAll es = none) :
    Settled name w₁ w₂ (triggerEvent event thrown w₂)
        (pdiTransactionEnd event thrown removals w₂).1
        (pdiTransactionEnd event thrown removals w₂).2 ↔
      UntangledAll es ∧ UntangledAll event ∧
        (failureAll event = none ∨
          (thrown.map returnErr).or
            (removalFailure (completedAll es ++ completedAll event).length removals) =
              failureAll event) := by
  have hw' : w₂.transaction ≠ "" := hw ▸ hname
  have hafter : w₂.transactionStatus = none := by
    rw [h.status, hstatus, hshared]
    rfl
  obtain ⟨during, hevent, hverdict'⟩ := exposesAll event hw' h.fresh
  let status := thrown.map returnErr
  have htriggered : triggerEvent event thrown w₂ = (exposeAll event w₂).endEvent name status := by
    rw [triggerEvent, if_pos hafter, hw]
    rfl
  have hall := h.trans hevent
  have hpending := hall.pending_event hdata name status
  rw [← htriggered, List.append_assoc] at hpending
  have hshares : ∀ e ∈ log ++ (during ++ [.event name status]), ∀ n r, e ≠ .reclaimed n r := by
    intro e he n r
    rw [← List.append_assoc] at he
    obtain he | he := List.mem_append.mp he
    · exact not_reclaimed (hall.shares e he) n r
    · rw [List.mem_singleton.mp he]
      nofun
  have hevents : Triggered name (firstFailure log) (during ++ [.event name status]) := by
    rw [h.failure, hshared]
    exact .event during status hevent.shares
  rw [settled_iff hpending hw' h.calls hevents hshares, htriggered, ← List.append_assoc, lost_event,
    completed_event, firstFailure_event, hall.completed, hall.failure, hshared, Option.none_or,
    (hverdict.trans hverdict' h hevent).not_lost_iff, and_assoc]
  refine and_congr_right fun _ => and_congr_right fun _ => ?_
  change status.or _ = _ ↔ _ ∨ status.or _ = _
  cases failureAll event with
  | none | some => simp

end Settle

/-- For every transaction in a run: it is settled exactly when it is orderly. -/
theorem transaction_settled_iff (earlier body : List Action) (name : Name) (hname : name ≠ "")
    (hidle : (run initial earlier).transaction = "") (hbody : NoFinish body)
    (event : List Exposure) (thrown : Option Exception) (removals : List Removal) :
    let w₀ := run initial earlier
    let w₂ := run (step w₀ (.start name)).1 body
    let finished := step w₂ (.finish event thrown removals)
    Settled name w₀ w₂ (triggerEvent event thrown w₂) finished.1 finished.2 ↔
      Orderly (exposures body) event thrown removals := by
  have hinv : Inv (run initial earlier) := inv_run inv_initial earlier
  generalize run initial earlier = w₀ at hidle hinv
  let w₁ : World := { w₀ with transaction := name, transactionStatus := none }
  have hstart : (step w₀ (.start name)).1 = w₁ :=
    congrArg Prod.fst (if_neg (not_not.mpr hidle))
  have hfresh : Fresh w₁ := ⟨hinv.fresh.sorted, hinv.fresh.lt⟩
  obtain ⟨log, hexposed, hverdict⟩ := exposesAll (exposures body) (w := w₁) hname hfresh
  dsimp only
  rw [hstart, run_body hname hbody]
  generalize exposeAll (exposures body) w₁ = w₂ at hexposed hverdict
  -- the begin makes no call and leaves the references alone
  have hbegin (w₃ w₄ : World) (status : PdiStatus) :
      Settled name w₀ w₂ w₃ w₄ status ↔ Settled name w₁ w₂ w₃ w₄ status :=
    ⟨fun h => ⟨h.deferred, h.held, h.event, h.reclaimed, h.restored, h.status, h.ended⟩,
      fun h => ⟨h.deferred, h.held, h.event, h.reclaimed, h.restored, h.status, h.ended⟩⟩
  rw [hbegin, Orderly]
  have hw : w₂.transaction = name := hexposed.transaction
  cases hfailure : failureAll (exposures body) with
  | none =>
    exact (settled_iff_of_event hexposed hverdict hw hname (hinv.idle hidle) rfl
      hfailure).trans (by simp)
  | some =>
    exact (settled_iff_of_failed hexposed hverdict (hw ▸ hname) (hinv.idle hidle) rfl
      hfailure).trans (by simp)

/-- A callback exposes `size` while `field` is shared, another one fails in the event,
and the event fails in the same way. -/
theorem transaction_settled_nested :
    let w₂ := run (step initial (.start "write")).1
      [.expose (.shared "field" [] [.shared "size" [] [] none .done] none .done)]
    let event := [Exposure.refused "norm" [] (.error .type "no type")]
    let finished := step w₂ (.finish event (some (.error .type "no norm")) [])
    Settled "write" initial w₂ (triggerEvent event (some (.error .type "no norm")) w₂) finished.1
      finished.2 := by
  refine (transaction_settled_iff [] _ "write" (by decide) rfl ?_ _ _ _).mpr ?_
  · intro event thrown removals
    simp
  · simp [Orderly, exposures, Exposure.Untangled, UntangledAll, failureAll, Exposure.failure,
      returnErr]

/-- An exposure fails in the event without a trace. A share fails after a callback has
exposed data of the same name, and takes its reference away. -/
theorem transaction_not_settled :
    (let w₂ := run (step initial (.start "write")).1 [.expose (.shared "field" [] [] none .done)]
      let event := [Exposure.refused "norm" [] (.error .type "no type")]
      let finished := step w₂ (.finish event none [])
      finished.2 = none ∧
        ¬ Settled "write" initial w₂ (triggerEvent event none w₂) finished.1 finished.2) ∧
      (let w₂ := run (step initial (.start "write")).1
        [.expose (.shared "field" [] [.shared "field" [] [] none .done]
          (some (.error .value "no value")) .done)]
      let finished := step w₂ (.finish [] none [])
      .shared "field" 1 ∈ w₂.calls ∧ w₂.stack "field" = [0] ∧
        ¬ Settled "write" initial w₂ (triggerEvent [] none w₂) finished.1 finished.2) := by
  refine ⟨⟨by decide +kernel, fun h => ?_⟩, by decide +kernel, by decide +kernel, fun h => ?_⟩
  · have hstatus := h.status
    revert hstatus
    decide +kernel
  · have hheld := h.held "field" 1 (by decide +kernel)
    revert hheld
    decide +kernel

end Pdi.Transaction
