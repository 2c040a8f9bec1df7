import Pdi.Hdf5Ops
import Pdi.Lockstep

/-!
# Collision policies with a warning

Two runs of the same operations, where some policies of the second have a warning that
those of the first do not have. The files, the data and the outcomes are the same, and
the log has the same messages, as long as no dataset that exists is written with the
policy `REPLACE` in the first run and `REPLACE_AND_WARN` in the second: the test for
`REPLACE` compares the whole policy, and with the warning the dataset is kept.
-/
namespace Pdi.Hdf5

open Pdi.Datatypes Pdi.Memory Pdi.Effect

variable {p p' : CollisionPolicy}

/-! ## The same operations with warnings -/

variable {α : Type} {R : State → State → Prop}

/-- A policy as it is, or its variant with a warning. -/
def CollisionPolicy.Warned (p p' : CollisionPolicy) : Prop :=
  p' = p ∨ ∃ name ∈ ["SKIP", "REPLACE", "WRITE_INTO"],
    toCollisionPolicy name = .ok p ∧ toCollisionPolicy (name ++ "_AND_WARN") = .ok p'

theorem CollisionPolicy.Warned.cases (h : p.Warned p') :
    p' = p ∨ (p = .skip ∧ p' = .skip ||| .warning) ∨ (p = .replace ∧ p' = .replace ||| .warning) ∨
      (p = .writeInto ∧ p' = .writeInto ||| .warning) := by
  obtain h | ⟨name, hname, hp, hp'⟩ := h
  · exact .inl h
  · simp only [List.mem_cons, List.not_mem_nil, or_false] at hname
    obtain rfl | rfl | rfl := hname
    · have hskip : toCollisionPolicy "SKIP" = .ok .skip := by decide
      have hwarn : toCollisionPolicy ("SKIP" ++ "_AND_WARN") = .ok (.skip ||| .warning) := by decide
      exact .inr (.inl ⟨Except.ok.inj (hp.symm.trans hskip), Except.ok.inj (hp'.symm.trans hwarn)⟩)
    · have hreplace : toCollisionPolicy "REPLACE" = .ok .replace := by decide
      have hwarn : toCollisionPolicy ("REPLACE" ++ "_AND_WARN") = .ok (.replace ||| .warning) := by
        decide
      exact .inr (.inr (.inl
        ⟨Except.ok.inj (hp.symm.trans hreplace), Except.ok.inj (hp'.symm.trans hwarn)⟩))
    · have hinto : toCollisionPolicy "WRITE_INTO" = .ok .writeInto := by decide
      have hwarn : toCollisionPolicy ("WRITE_INTO" ++ "_AND_WARN") =
        .ok (.writeInto ||| .warning) := by
        decide
      exact .inr (.inr (.inr
        ⟨Except.ok.inj (hp.symm.trans hinto), Except.ok.inj (hp'.symm.trans hwarn)⟩))

/-- The masks that the code tests do not see the warning. -/
theorem CollisionPolicy.Warned.has (h : p.Warned p') :
    p'.has .skip = p.has .skip ∧ p'.has .replace = p.has .replace ∧
    p'.has .error = p.has .error := by
  obtain rfl | ⟨rfl, rfl⟩ | ⟨rfl, rfl⟩ | ⟨rfl, rfl⟩ := h.cases
  · exact ⟨rfl, rfl, rfl⟩
  · decide
  · decide
  · decide

/-- No policy becomes `ERROR` by a warning, and `REPLACE` loses its value. -/
theorem CollisionPolicy.Warned.eq_iff (h : p.Warned p') :
    (p' = .error ↔ p = .error) ∧
    (¬(p = .replace ∧ p' ≠ .replace) → (p' = .replace ↔ p = .replace)) := by
  obtain rfl | ⟨rfl, rfl⟩ | ⟨rfl, rfl⟩ | ⟨rfl, rfl⟩ := h.cases
  · exact ⟨Iff.rfl, fun _ => Iff.rfl⟩
  · decide
  · decide
  · decide

section

variable {κ : Type}

structure DatasetOp.Warned (o o' : DatasetOp κ) : Prop where
  policy : o.collisionPolicy.Warned o'.collisionPolicy
  rest : o' = { o with collisionPolicy := o'.collisionPolicy }

structure FileOp.Warned (op op' : FileOp κ) : Prop where
  policy : op.collisionPolicy.Warned op'.collisionPolicy
  datasetOps : List.Forall₂ DatasetOp.Warned op.datasetOps op'.datasetOps
  rest : op' = { op with collisionPolicy := op'.collisionPolicy, datasetOps := op'.datasetOps }

/-- What happens to the plugin: user code changes the data, or a file operation runs. -/
inductive Step (κ : Type) where
  | user (change : Mem Byte → Mem Byte)
  | execute (ctx : κ) (op : FileOp κ)

inductive Step.Warned : Step κ → Step κ → Prop
  | user (change : Mem Byte → Mem Byte) : Step.Warned (.user change) (.user change)
  | execute (ctx : κ) {op op' : FileOp κ} (h : op.Warned op') :
    Step.Warned (.execute ctx op) (.execute ctx op')

variable (lib : Library) (share : Sharing κ)

def Step.action : Step κ → Driver Unit
  | .user change => onStorage (modify fun s => { s with memory := change s.memory })
  | .execute ctx op => op.execute lib share ctx

/-- The outcomes of the steps and the final state; an error does not end the run. -/
def runSteps : List (Step κ) → State → List (Except Failure Unit) × State
  | [], s => ([], s)
  | step :: steps, s =>
    match (step.action lib share).run s with
    | .ok _ s' => ((.ok ()) :: (runSteps steps s').1, (runSteps steps s').2)
    | .error e s' => ((.error e) :: (runSteps steps s').1, (runSteps steps s').2)

/-! ## Where the warning is seen -/

/-- The dataset write does not change its policy from `REPLACE`, or its dataset does not
exist. -/
def DatasetOp.Safe (o o' : DatasetOp κ) (ctx : κ) (file : String) (s : State) : Prop :=
  o.collisionPolicy = .replace ∧ o'.collisionPolicy ≠ .replace →
    ∀ name, o.dataset ctx = .ok name → s.storage.datasets file name = none

/-- Each of the writes is safe in the state in which it is run. -/
def WritesSafe (dsets : List (ExplicitType κ)) (ctx : κ) (file : String) :
    List (DatasetOp κ) → List (DatasetOp κ) → State → Prop
  | o :: os, o' :: os', s => o.Safe o' ctx file s ∧
    ∀ s', (o.execute lib share dsets ctx file).run s = .ok () s' →
      WritesSafe dsets ctx file os os' s'
  | _, _, _ => True

/-- The operations whose condition holds. -/
def chosen {α : Type} (when : α → Except Failure Int) (l : List α) : List α :=
  l.filter fun a => match when a with
    | .ok n => n != 0
    | .error _ => false

def FileOp.writes (op : FileOp κ) (ctx : κ) : List (DatasetOp κ) :=
  (chosen (fun o => o.when ctx) op.datasetOps).filter fun o => o.direction = .write

def FileOp.Safe (op op' : FileOp κ) (ctx : κ) (s : State) : Prop :=
  ∀ plan s₁, (op.openFile ctx).run s = .ok (some plan) s₁ →
    WritesSafe lib share op.datasets ctx plan.filename (op.writes ctx) (op'.writes ctx) s₁

def StepsSafe : List (Step κ) → List (Step κ) → State → Prop
  | .execute ctx op :: steps, .execute _ op' :: steps', s =>
    op.Safe lib share op' ctx s ∧ StepsSafe steps steps' (runSteps lib share [.execute ctx op] s).2
  | .user change :: steps, _ :: steps', s =>
    StepsSafe steps steps' (runSteps lib share [.user change] s).2
  | _, _, _ => True

end

/-! ## The two runs -/

/-- The same files, data and messages. -/
structure SameStored (s t : State) : Prop where
  storage : s.storage = t.storage
  messages : s.log.map Prod.snd = t.log.map Prod.snd

section Runs

variable {κ : Type} {s t : State}

/-- A relation of states that looks at the storage, and at the log only line by line. -/
structure Blind (R : State → State → Prop) : Prop where
  storage : ∀ s t, R s t → s.storage = t.storage
  note : ∀ s t level level' message, R s t →
    R { s with log := s.log ++ [(level, message)] } { t with log := t.log ++ [(level', message)] }
  update : ∀ s t storage, R s t → R { s with storage := storage } { t with storage := storage }

theorem blind_sameStored : Blind SameStored where
  storage _ _ h := h.storage
  note _ _ _ _ _ h := ⟨h.storage, by simp [h.messages]⟩
  update _ _ _ h := ⟨rfl, h.messages⟩

section Blind

theorem Blind.alike_note (hR : Blind R) (level level' : Level) (message : String) (h : R s t) :
    Alike Eq R (Hdf5.note level message) (Hdf5.note level' message) s t :=
  ⟨rfl, hR.note s t level level' message h⟩

theorem Blind.alike_onStorage (hR : Blind R) (x : EStateM Failure Storage α) (h : R s t) :
    Alike Eq R (onStorage x) (onStorage x) s t := by
  change SameEnd Eq R (onStorage x s) (onStorage x t)
  rw [onStorage, onStorage, hR.storage s t h]
  cases x.run t.storage with
  | ok a storage => exact ⟨rfl, hR.update s t storage h⟩
  | error e storage => exact ⟨rfl, hR.update s t storage h⟩

end Blind

theorem alike_note (level level' : Level) (message : String) (h : SameStored s t) :
    Alike Eq SameStored (note level message) (note level' message) s t :=
  blind_sameStored.alike_note level level' message h

theorem alike_onStorage (x : EStateM Failure Storage α) (h : SameStored s t) :
    Alike Eq SameStored (onStorage x) (onStorage x) s t := blind_sameStored.alike_onStorage x h

theorem alike_attributes (ctx : κ) (file : String) (attributes : List (AttributeOp κ))
    (h : SameStored s t) :
    Alike Eq SameStored (each (fun attr => onStorage (attr.execute ctx file)) attributes)
      (each (fun attr => onStorage (attr.execute ctx file)) attributes) s t :=
  Alike.each (fun _ _ _ h => alike_onStorage _ h) attributes h

variable {lib : Library} {share : Sharing κ}

theorem alike_openForWriting {o o' : DatasetOp κ} (h : o.Warned o') {ctx : κ} {file name : String}
    (hname : o.dataset ctx = .ok name) (tr : Transfer) (hst : SameStored s t)
    (hsafe : o.Safe o' ctx file s) :
    Alike Eq SameStored (o.openForWriting file name tr) (o'.openForWriting file name tr) s t := by
  rw [DatasetOp.openForWriting, DatasetOp.openForWriting]
  obtain ⟨hskip, -, -⟩ := h.policy.has
  obtain ⟨herror, hreplace⟩ := h.policy.eq_iff
  refine (alike_onStorage (lookupDataset file name) hst).bind fun set _ s₁ t₁ hrun hset hst₁ => ?_
  subst hset
  cases set with
  | none =>
    exact (alike_onStorage _ hst₁).bind fun _ _ s₂ t₂ _ _ hst₂ => .pure rfl hst₂
  | some old =>
    have hthere : s.storage.datasets file name = some old :=
      (EStateM.Result.ok.inj ((run_lookupDataset file name s).symm.trans hrun)).1
    have hsame : o'.collisionPolicy = .replace ↔ o.collisionPolicy = .replace :=
      hreplace fun hdiff => by simp [hsafe hdiff name hname] at hthere
    simp only [hskip, hsame, herror]
    by_cases hs : o.collisionPolicy.has .skip = true
    · rw [if_pos hs, if_pos hs]
      exact (alike_note _ _ _ hst₁).bind fun _ _ s₂ t₂ _ _ hst₂ => .pure rfl hst₂
    by_cases hr : o.collisionPolicy = .replace
    · rw [if_neg hs, if_neg hs, if_pos hr, if_pos hr]
      refine (alike_note _ _ _ hst₁).bind fun _ _ s₂ t₂ _ _ hst₂ => ?_
      refine (alike_onStorage _ hst₂).bind fun _ _ s₃ t₃ _ _ hst₃ => ?_
      exact (alike_onStorage _ hst₃).bind fun _ _ s₄ t₄ _ _ hst₄ => .pure rfl hst₄
    rw [if_neg hs, if_neg hs, if_neg hr, if_neg hr]
    by_cases he : o.collisionPolicy = .error
    · rw [if_pos he, if_pos he]
      exact .throw _ hst₁
    · rw [if_neg he, if_neg he]
      exact (alike_note _ _ _ hst₁).bind fun _ _ s₂ t₂ _ _ hst₂ => .pure rfl hst₂

/-- A dataset write looks at its policy in one place. -/
theorem alike_doWrite {o o' : DatasetOp κ} (h : o.Warned o') (dsets : List (ExplicitType κ))
    (ctx : κ) (file : String) (hst : SameStored s t) (hsafe : o.Safe o' ctx file s) :
    Alike Eq SameStored (o.doWrite lib share dsets ctx file) (o'.doWrite lib share dsets ctx file)
      s t := by
  have hrest := h.rest
  rw [DatasetOp.doWrite, DatasetOp.doWrite, show o'.dataset = o.dataset by rw [hrest],
    show o'.value = o.value by rw [hrest], show o'.attributes = o.attributes by rw [hrest],
    show o'.prepareWrite = o.prepareWrite by rw [hrest]; rfl]
  refine (Alike.outcome (o.dataset ctx) hst).bind fun name _ s₁ t₁ hrun heq hst₁ => ?_
  subst heq
  obtain ⟨hname, rfl⟩ := run_outcome_eq_ok hrun
  refine (Alike.outcome (share.readable ctx o.value) hst₁).bind fun ref _ s₂ t₂ hrun heq hst₂ => ?_
  subst heq
  obtain ⟨-, rfl⟩ := run_outcome_eq_ok hrun
  cases ref with
  | none => exact alike_note _ _ _ hst₂
  | some ref =>
    refine (Alike.outcome (o.prepareWrite dsets ctx name ref) hst₂).bind
      fun tr _ s₃ t₃ hrun heq hst₃ => ?_
    subst heq
    obtain ⟨-, rfl⟩ := run_outcome_eq_ok hrun
    refine (alike_openForWriting h hname tr hst₃ hsafe).bind fun go _ s₄ t₄ _ heq hst₄ => ?_
    subst heq
    cases go with
    | false => exact .pure rfl hst₄
    | true =>
      exact (alike_onStorage _ hst₄).bind fun _ _ s₅ t₅ _ _ hst₅ => alike_attributes ctx file _ hst₅

theorem alike_doRead {o o' : DatasetOp κ} (h : o.Warned o') (ctx : κ) (file : String)
    (hst : SameStored s t) :
    Alike Eq SameStored (o.doRead lib share ctx file) (o'.doRead lib share ctx file) s t := by
  have hsame : o'.doRead lib share ctx file = o.doRead lib share ctx file := by
    rw [h.rest]
    rfl
  rw [hsame, DatasetOp.doRead]
  refine (Alike.outcome (o.dataset ctx) hst).bind fun name _ s₁ t₁ _ heq hst₁ => ?_
  subst heq
  refine (Alike.outcome (share.writable ctx o.value) hst₁).bind fun ref _ s₂ t₂ _ heq hst₂ => ?_
  subst heq
  cases ref with
  | none => exact alike_note _ _ _ hst₂
  | some ref =>
    refine (Alike.outcome (space ref.type false) hst₂).bind fun sp _ s₃ t₃ _ heq hst₃ => ?_
    subst heq
    refine (Alike.outcome (o.memorySelection.apply ctx sp.1 none) hst₃).bind
      fun memSpace _ s₄ t₄ _ heq hst₄ => ?_
    subst heq
    refine (alike_onStorage (lookupDataset file name) hst₄).bind fun set _ s₅ t₅ _ heq hst₅ => ?_
    subst heq
    cases set with
    | none => exact .throw _ hst₅
    | some set =>
      refine (Alike.outcome (o.prepareRead ctx name ref memSpace sp.2 set) hst₅).bind
        fun tr _ s₆ t₆ _ heq hst₆ => ?_
      subst heq
      exact (alike_onStorage _ hst₆).bind fun _ _ s₇ t₇ _ _ hst₇ => alike_attributes ctx file _ hst₇

theorem alike_datasetOp {o o' : DatasetOp κ} (h : o.Warned o') (dsets : List (ExplicitType κ))
    (ctx : κ) (file : String) (hst : SameStored s t) (hsafe : o.Safe o' ctx file s) :
    Alike Eq SameStored (o.execute lib share dsets ctx file) (o'.execute lib share dsets ctx file)
      s t := by
  rw [DatasetOp.execute, DatasetOp.execute, show o'.direction = o.direction by rw [h.rest]]
  cases o.direction with
  | read => exact alike_doRead h ctx file hst
  | write => exact alike_doWrite h dsets ctx file hst hsafe

theorem alike_writes {os os' : List (DatasetOp κ)} (h : List.Forall₂ DatasetOp.Warned os os')
    (dsets : List (ExplicitType κ)) (ctx : κ) (file : String) (hst : SameStored s t)
    (hsafe : WritesSafe lib share dsets ctx file os os' s) :
    Alike Eq SameStored (each (fun o => o.execute lib share dsets ctx file) os)
      (each (fun o => o.execute lib share dsets ctx file) os') s t := by
  induction h generalizing s t with
  | nil => exact .pure rfl hst
  | cons ho _ ih =>
    exact (alike_datasetOp ho dsets ctx file hst hsafe.1).bind
      fun _ _ s₁ t₁ hrun _ hst₁ => ih hst₁ (hsafe.2 s₁ hrun)

theorem alike_reads {os os' : List (DatasetOp κ)} (h : List.Forall₂ DatasetOp.Warned os os')
    (hread : ∀ o ∈ os, o.direction = .read) (dsets : List (ExplicitType κ))
    (ctx : κ) (file : String)
    (hst : SameStored s t) :
    Alike Eq SameStored (each (fun o => o.execute lib share dsets ctx file) os)
      (each (fun o => o.execute lib share dsets ctx file) os') s t := by
  induction h generalizing s t with
  | nil => exact .pure rfl hst
  | @cons o o' os os' ho _ ih =>
    rw [List.forall_mem_cons] at hread
    have halike : Alike Eq SameStored (o.execute lib share dsets ctx file)
        (o'.execute lib share dsets ctx file) s t := by
      rw [DatasetOp.execute, DatasetOp.execute, show o'.direction = o.direction by rw [ho.rest],
        hread.1]
      exact alike_doRead ho ctx file hst
    exact halike.bind fun _ _ s₁ t₁ _ _ hst₁ => ih hread.2 hst₁

theorem alike_getSizes (ctx : κ) (file : String) (ops : List (String × (κ → Except Failure String)))
    (hst : SameStored s t) :
    Alike Eq SameStored (getSizes share ctx file ops) (getSizes share ctx file ops) s t := by
  induction ops generalizing s t with
  | nil => exact .pure rfl hst
  | cons x ops ih =>
    obtain ⟨desc, dataset⟩ := x
    rw [getSizes]
    refine (Alike.outcome (dataset ctx) hst).bind fun name _ s₁ t₁ _ heq hst₁ => ?_
    subst heq
    refine (Alike.outcome (share.writable ctx desc) hst₁).bind fun ref _ s₂ t₂ _ heq hst₂ => ?_
    subst heq
    cases ref with
    | none => exact alike_note _ _ _ hst₂
    | some =>
      refine (alike_onStorage (lookupDataset file name) hst₂).bind fun set _ s₃ t₃ _ heq hst₃ => ?_
      subst heq
      cases set with
      | none => exact (Alike.throw (V := Eq) _ hst₃).bind fun _ _ s₄ t₄ _ _ hst₄ => ih hst₄
      | some => exact (alike_onStorage _ hst₃).bind fun _ _ s₄ t₄ _ _ hst₄ => ih hst₄

/-- Lists of operations with the same conditions and names are selected from alike. -/
theorem alike_selected {when when' : α → Except Failure Int} {name name' : α → String}
    {as as' : List α} (h : List.Forall₂ (fun a b => when a = when' b ∧ name a = name' b) as as')
    (hst : SameStored s t) :
    Alike (fun l l' => l = chosen when as ∧ l' = chosen when' as') SameStored
      (selected when name as) (selected when' name' as') s t := by
  induction h generalizing s t with
  | nil => exact .pure ⟨rfl, rfl⟩ hst
  | @cons a b as as' hab _ ih =>
    rw [selected, selected, ← hab.1, ← hab.2]
    cases hwhen : when a with
    | ok n =>
      refine (ih hst).bind fun l l' s₁ t₁ _ hl hst₁ => .pure ?_ hst₁
      rw [hl.1, hl.2, chosen, chosen, chosen, chosen, List.filter_cons, List.filter_cons, ← hab.1,
        hwhen]
      by_cases hn : n = 0
      · simp [hn]
      · simp [hn]
    | error e =>
      have hchosen : chosen when (a :: as) = chosen when as ∧
          chosen when' (b :: as') = chosen when' as' := by
        rw [chosen, chosen, chosen, chosen, List.filter_cons, List.filter_cons, ← hab.1, hwhen]
        exact ⟨rfl, rfl⟩
      rw [hchosen.1, hchosen.2]
      cases hvalue : valueMessage e with
      | some =>
        simp only [hvalue]
        exact (alike_note _ _ _ hst).bind fun _ _ s₁ t₁ _ _ hst₁ => ih hst₁
      | none =>
        simp only [hvalue]
        exact .throw e hst

theorem alike_openFileForWriting (hR : Blind R) {op op' : FileOp κ}
    (h : op.collisionPolicy.Warned op'.collisionPolicy) (filename : String) (hst : R s t) :
    Alike Eq R (op.openForWriting filename) (op'.openForWriting filename) s t := by
  obtain ⟨hskip, hreplace, herror⟩ := h.has
  rw [FileOp.openForWriting, FileOp.openForWriting]
  refine (hR.alike_onStorage _ hst).bind fun there _ s₁ t₁ _ heq hst₁ => ?_
  subst heq
  simp only [hskip, hreplace, herror]
  cases there with
  | false => exact (hR.alike_onStorage _ hst₁).bind fun _ _ s₂ t₂ _ _ hst₂ => .pure rfl hst₂
  | true =>
    cases op.collisionPolicy.has .skip with
    | true => exact (hR.alike_note _ _ _ hst₁).bind fun _ _ s₂ t₂ _ _ hst₂ => .pure rfl hst₂
    | false =>
      cases op.collisionPolicy.has .replace with
      | true =>
        refine (hR.alike_note _ _ _ hst₁).bind fun _ _ s₂ t₂ _ _ hst₂ => ?_
        exact (hR.alike_onStorage _ hst₂).bind fun _ _ s₃ t₃ _ _ hst₃ => .pure rfl hst₃
      | false =>
        cases op.collisionPolicy.has .error with
        | true => exact .throw _ hst₁
        | false => exact (hR.alike_note _ _ _ hst₁).bind fun _ _ s₂ t₂ _ _ hst₂ => .pure rfl hst₂

theorem alike_openFor (hR : Blind R) {op op' : FileOp κ}
    (h : op.collisionPolicy.Warned op'.collisionPolicy) (filename : String)
    (writing reading : Bool) (hst : R s t) :
    Alike Eq R (op.openFor filename writing reading) (op'.openFor filename writing reading)
      s t := by
  rw [FileOp.openFor, FileOp.openFor]
  split
  · exact alike_openFileForWriting hR h filename hst
  · exact (hR.alike_onStorage _ hst).bind fun _ _ _ _ _ _ hst₁ => .pure rfl hst₁

/-- Two plans for the same file. -/
structure Plan.Warned (op op' : FileOp κ) (ctx : κ) (plan plan' : Plan κ) : Prop where
  filename : plan.filename = plan'.filename
  writes : plan.writes = op.writes ctx
  writes' : plan'.writes = op'.writes ctx
  reads : List.Forall₂ DatasetOp.Warned plan.reads plan'.reads
  reading : ∀ o ∈ plan.reads, o.direction = .read
  attributeWrites : plan.attributeWrites = plan'.attributeWrites
  attributeReads : plan.attributeReads = plan'.attributeReads

theorem forall₂_chosen {os os' : List (DatasetOp κ)} (h : List.Forall₂ DatasetOp.Warned os os')
    (ctx : κ) :
    List.Forall₂ DatasetOp.Warned (chosen (fun o => o.when ctx) os)
      (chosen (fun o => o.when ctx) os') := by
  refine List.rel_filter (fun o o' ho => ?_) h
  rw [ho.rest]

theorem forall₂_direction {os os' : List (DatasetOp κ)} (h : List.Forall₂ DatasetOp.Warned os os')
    (d : Direction) :
    List.Forall₂ DatasetOp.Warned (os.filter fun o => o.direction = d)
      (os'.filter fun o => o.direction = d) := by
  refine List.rel_filter (fun o o' ho => ?_) h
  rw [ho.rest]

theorem isEmpty_eq {β : Type} {R : α → β → Prop} {l : List α} {l' : List β}
    (h : List.Forall₂ R l l') : l.isEmpty = l'.isEmpty := by
  cases h with
  | nil => rfl
  | cons => rfl

theorem alike_openFile {op op' : FileOp κ} (h : op.Warned op') (ctx : κ) (hst : SameStored s t) :
    Alike (Option.Rel (Plan.Warned op op' ctx)) SameStored (op.openFile ctx) (op'.openFile ctx)
      s t := by
  have hops : List.Forall₂ (fun o o' : DatasetOp κ => o.when ctx = o'.when ctx ∧ o.value = o'.value)
      op.datasetOps op'.datasetOps := by
    refine h.datasetOps.imp fun o o' ho => ?_
    rw [ho.rest]
    exact ⟨rfl, rfl⟩
  have hattributes : op'.attributeOps = op.attributeOps := by rw [h.rest]
  have hchosen := forall₂_chosen h.datasetOps ctx
  have hwrites := forall₂_direction hchosen .write
  have hreads := forall₂_direction hchosen .read
  rw [FileOp.openFile, FileOp.openFile, hattributes, show op'.datasetSizeOps = op.datasetSizeOps by
    rw [h.rest], show op'.file = op.file by rw [h.rest]]
  refine (alike_selected hops hst).bind fun l l' s₁ t₁ _ hl hst₁ => ?_
  obtain ⟨rfl, rfl⟩ := hl
  refine (alike_selected (List.forall₂_same.mpr fun o _ => ⟨rfl, rfl⟩) hst₁).bind
    fun a a' s₂ t₂ _ ha hst₂ => ?_
  obtain ⟨rfl, rfl⟩ := ha
  simp only [← isEmpty_eq hchosen, ← isEmpty_eq hwrites, ← isEmpty_eq hreads]
  split
  · exact .pure .none hst₂
  refine (Alike.outcome (op.file ctx) hst₂).bind fun filename _ s₃ t₃ _ heq hst₃ => ?_
  subst heq
  refine (alike_openFor blind_sameStored h.policy filename _ _ hst₃).bind
    fun opened _ s₄ t₄ _ heq hst₄ => ?_
  subst heq
  cases opened with
  | false => exact .pure .none hst₄
  | true =>
    refine .pure (.some ⟨rfl, rfl, rfl, hreads, fun o ho => ?_, rfl, rfl⟩) hst₄
    exact of_decide_eq_true (List.mem_filter.mp ho).2

theorem alike_execute {op op' : FileOp κ} (h : op.Warned op') (ctx : κ) (hst : SameStored s t)
    (hsafe : op.Safe lib share op' ctx s) :
    Alike Eq SameStored (op.execute lib share ctx) (op'.execute lib share ctx) s t := by
  rw [FileOp.execute, FileOp.execute]
  refine (alike_openFile h ctx hst).bind fun plan plan' s₁ t₁ hrun hplan hst₁ => ?_
  cases hplan with
  | none => exact .pure rfl hst₁
  | @some plan plan' hplan =>
    have hwrites := forall₂_direction (forall₂_chosen h.datasetOps ctx) .write
    have hsafe' := hsafe plan s₁ hrun
    simp only [FileOp.perform]
    rw [← hplan.filename, hplan.writes, hplan.writes', ← hplan.attributeWrites,
      ← hplan.attributeReads, show op'.datasets = op.datasets by rw [h.rest],
      show op'.datasetSizeOps = op.datasetSizeOps by rw [h.rest]]
    refine (alike_writes hwrites op.datasets ctx _ hst₁ hsafe').bind fun _ _ s₂ t₂ _ _ hst₂ => ?_
    refine (alike_reads hplan.reads hplan.reading op.datasets ctx _ hst₂).bind
      fun _ _ s₃ t₃ _ _ hst₃ => ?_
    refine (alike_attributes ctx _ _ hst₃).bind fun _ _ s₄ t₄ _ _ hst₄ => ?_
    refine (alike_attributes ctx _ _ hst₄).bind fun _ _ s₅ t₅ _ _ hst₅ => ?_
    exact alike_getSizes ctx _ _ hst₅

end Runs

section Main

variable {κ : Type} {lib : Library} {share : Sharing κ} {step : Step κ}

theorem runSteps_cons_ok {s s' : State} (h : (step.action lib share).run s = .ok () s')
    (steps : List (Step κ)) :
    runSteps lib share (step :: steps) s =
      (.ok () :: (runSteps lib share steps s').1, (runSteps lib share steps s').2) := by
  rw [runSteps, h]

theorem runSteps_cons_error {s s' : State} {e : Failure}
    (h : (step.action lib share).run s = .error e s') (steps : List (Step κ)) :
    runSteps lib share (step :: steps) s =
      (.error e :: (runSteps lib share steps s').1, (runSteps lib share steps s').2) := by
  rw [runSteps, h]

/-- The runs agree step by step. -/
theorem sameStored_runSteps {steps steps' : List (Step κ)}
    (h : List.Forall₂ Step.Warned steps steps')
    {s t : State} (hst : SameStored s t) (hsafe : StepsSafe lib share steps steps' s) :
    (runSteps lib share steps s).1 = (runSteps lib share steps' t).1 ∧
    SameStored (runSteps lib share steps s).2 (runSteps lib share steps' t).2 := by
  induction h generalizing s t with
  | nil => exact ⟨rfl, hst⟩
  | @cons step step' steps steps' hstep _ ih =>
    have halike : Alike Eq SameStored (step.action lib share) (step'.action lib share) s t := by
      cases hstep with
      | user =>
        rw [Step.action]
        exact alike_onStorage _ hst
      | execute ctx hop => exact alike_execute hop ctx hst hsafe.1
    have hrest : StepsSafe lib share steps steps' (runSteps lib share [step] s).2 := by
      cases hstep with
      | user => exact hsafe
      | execute => exact hsafe.2
    rw [Alike] at halike
    cases hx : (step.action lib share).run s with
    | ok =>
      cases hy : (step'.action lib share).run t with
      | ok =>
        rw [hx, hy] at halike
        rw [runSteps_cons_ok hx] at hrest ⊢
        rw [runSteps_cons_ok hy]
        obtain ⟨hout, hstored⟩ := ih halike.2 hrest
        exact ⟨congrArg (.ok () :: ·) hout, hstored⟩
      | error =>
        rw [hx, hy] at halike
        exact halike.elim
    | error e =>
      cases hy : (step'.action lib share).run t with
      | ok =>
        rw [hx, hy] at halike
        exact halike.elim
      | error =>
        rw [hx, hy] at halike
        rw [runSteps_cons_error hx] at hrest ⊢
        rw [runSteps_cons_error hy, ← halike.1]
        obtain ⟨hout, hstored⟩ := ih halike.2 hrest
        exact ⟨congrArg (.error e :: ·) hout, hstored⟩

/-- With warnings the same is stored, the same operations fail and the log has the same
messages, in every run that writes over no dataset whose policy is `REPLACE` in one run
and `REPLACE_AND_WARN` in the other. -/
theorem warnings_only_logged (lib : Library) (share : Sharing κ) {steps steps' : List (Step κ)}
    (h : List.Forall₂ Step.Warned steps steps') (s : State)
    (hsafe : StepsSafe lib share steps steps' s) :
    (runSteps lib share steps s).1 = (runSteps lib share steps' s).1 ∧
    (runSteps lib share steps s).2.storage = (runSteps lib share steps' s).2.storage ∧
    (runSteps lib share steps s).2.log.map Prod.snd =
      (runSteps lib share steps' s).2.log.map Prod.snd := by
  obtain ⟨hout, hstored⟩ := sameStored_runSteps h ⟨rfl, rfl⟩ hsafe
  exact ⟨hout, hstored.storage, hstored.messages⟩

end Main

/-! ## A dataset that is not replaced -/

/-- One byte is shared, as an array of one element. -/
def oneByte : Sharing Unit where
  readable _ _ := .ok (some ⟨0, .array typeForInt8 1 0 1 []⟩)
  writable _ _ := .ok none

def writeByte (policy : CollisionPolicy) : FileOp Unit where
  collisionPolicy := .writeInto
  file _ := .ok "data.h5"
  datasets := []
  datasetOps := [⟨policy, .write, fun _ => .ok "level", "level", fun _ => .ok 1,
    ⟨[], []⟩, ⟨[], []⟩, []⟩]
  attributeOps := []
  datasetSizeOps := []

/-- The dataset is there, with two elements. -/
def twoBytes : State where
  storage := {
    files := fun _ => some fun _ => some ⟨.integer true 1, [2], fun _ => [0]⟩
    memory := fun _ => 7 }
  log := []

def extentAfter (policy : CollisionPolicy) : Option (List Nat) :=
  ((runSteps plainLibrary oneByte [.execute () (writeByte policy)] twoBytes).2.storage.datasets
    "data.h5" "level").map Dataset.extent

theorem writeByte_warned (h : p.Warned p') :
    (writeByte p).Warned (writeByte p') := ⟨.inl rfl, .cons ⟨h, rfl⟩ .nil, rfl⟩

theorem warnings_only_logged_skip :
    (runSteps plainLibrary oneByte [.execute () (writeByte .skip)] twoBytes).2.storage =
      (runSteps plainLibrary oneByte [.execute () (writeByte (.skip ||| .warning))]
        twoBytes).2.storage := by
  have hwarned : CollisionPolicy.skip.Warned (.skip ||| .warning) :=
    .inr ⟨"SKIP", by decide, by decide, by decide⟩
  refine (warnings_only_logged plainLibrary oneByte
    (.cons (.execute () (writeByte_warned hwarned)) .nil) twoBytes
    ⟨fun plan s₁ _ => ?_, trivial⟩).2.1
  exact ⟨fun h => absurd h.1 (by decide), fun _ _ => trivial⟩

/-- `REPLACE` makes a new dataset of one element. `REPLACE_AND_WARN` keeps the old one. -/
theorem replace_and_warn_keeps :
    CollisionPolicy.replace.Warned (.replace ||| .warning) ∧
    extentAfter .replace = some [1] ∧ extentAfter (.replace ||| .warning) = some [2] :=
  ⟨.inr ⟨"REPLACE", by decide, by decide, by decide⟩, by decide, by decide⟩

end Pdi.Hdf5
