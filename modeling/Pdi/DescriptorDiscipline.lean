import Pdi.DescriptorStack

/-!
# Stack discipline of a descriptor

The depth of the stack is what the successful calls make it, and a call that
throws leaves the stack as it was, except for one: a reclaim of metadata whose
copy throws.
-/
namespace Pdi.Descriptor

open Pdi.Memory Pdi.Datatypes Pdi.Reference Pdi.Run

variable {s s' : State} {functions : CopyFunctions} {c : Call} {reaction : Reaction}
  {e : Option Failure} {heap : Heap}

/-- The references on the stack as they are. -/
def State.stack (s : State) : List (Nat × Option Ref) := s.holders.map fun r => (r, s.heap.ref? r)

theorem stack_moves (hv : Valid s) (hm : Moves (fun op _ => Foreign s.holders op) s s') :
    s'.stack = s.stack := by
  have hh : s'.holders = s.holders := by rw [hm.same]
  rw [State.stack, State.stack, hh]
  refine List.map_congr_left fun r hr => ?_
  rw [(hm.steps.ref? (fun _ _ hf => hf) hr (hv.exist r hr)).2]

/-- What a call does to the stack of a valid descriptor. -/
inductive StackChange (functions : CopyFunctions) (s : State) :
    Call → State → Option Failure → Prop where
  | thrown (c : Call) (s' : State) (e : Failure)
      (hm : Moves (fun op _ => Foreign s.holders op) s s') : StackChange functions s c s' (some e)
  | lost (reaction : Reaction) (buffer : Nat) (s' : State) (e : Failure) (hl : s.last = true)
      (herrors : reaction.errors = [])
      (hthrows : CopyThrows functions (s.notified reaction) buffer)
      (hh : s'.toDataDescriptor = { s.toDataDescriptor with holders := [] })
      (hs : Steps (fun _ _ => True) s.heap s'.heap) :
      StackChange functions s (.reclaim reaction buffer) s' (some e)
  | other (ops : List Op) (s' : State) (hm : Moves (fun op _ => Foreign s.holders op) s s') :
      StackChange functions s (.other ops) s' none
  | ordinary (s' : State) (hh : s.holders = [])
      (hs : s' = { s with metadata := false }) : StackChange functions s (.metadata false) s' none
  | placeholder (s' : State) (n : Nat) (hh : s.holders = [])
      (hp : Replaced { s with metadata := true } s' n) :
      StackChange functions s (.metadata true) s' none
  | share (r : Nat) (read write : Bool) (reaction : Reaction) (s' : State) (n : Nat)
      (hp : Pushed (fun op _ => Foreign s.holders op) s s' n read write) :
      StackChange functions s (.share r read write reaction) s' none
  | shareData (data : Nat) (type : Except Failure Datatype) (read write : Bool)
      (reaction : Reaction) (s' : State) (n : Nat)
      (hp : Pushed (fun op _ => Foreign s.holders op) s s' n false false) :
      StackChange functions s (.shareData data type read write reaction) s' none
  | release (reaction : Reaction) (s' : State) (hs : s.shared = true) (hr : Removes s s') :
      StackChange functions s (.release reaction) s' none
  | reclaim (reaction : Reaction) (buffer : Nat) (s' : State) (hs : s.shared = true)
      (hr : Removes s s') : StackChange functions s (.reclaim reaction buffer) s' none

theorem Removes.of_moves {s₁ : State} (hm : Moves (fun op _ => Foreign s.holders op) s s₁)
    (hr : Removes s₁ s') : Removes s s' := by
  have hh : s₁.holders = s.holders := by rw [hm.same]
  have hl : s₁.last = s.last := by simp [State.last, hm.same]
  obtain ⟨hlast, hp⟩ | ⟨hlast, n, hr⟩ := hr
  · refine .inl ⟨hl ▸ hlast, ?_⟩
    rw [hh] at hp
    have hm' : Moves (fun op _ => Foreign s.holders.tail op) s s₁ :=
      ⟨hm.same, hm.steps.mono fun _ _ hf => hf.mono fun _ h => List.mem_of_mem_tail h⟩
    exact hm'.popped hp
  · exact .inr ⟨hl ▸ hlast, n, hm.replaced hr⟩

theorem replaced_setMetadata (s : State) (hh : s.holders = []) :
    ∃ s', s.setMetadata true = (s', .ok ()) ∧
      Replaced { s with metadata := true } s' (s.heap.refs.length + 1) := by
  refine ⟨_, by simp only [State.setMetadata, hh]; rfl, ?_, ?_, ?_⟩
  · simp [State.push, State.leave, Heap.newRef]
  · exact ((steps_newRef (allowsQuiet_any []) _ false false).trans
      (steps_copyRef (allowsQuiet_any []) _ _ true false)).trans
        (steps_destroy (allowsQuiet_any []) _ (by simp))
  · have hn := hasRights_linkNew (s.heap.newRef false false) true false
      ((s.heap.newRef false false).getContent s.heap.refs.length)
    rw [show (s.heap.newRef false false).refs.length = s.heap.refs.length + 1 by
      simp [Heap.newRef]] at hn
    exact hn.steps (fun _ _ hf => hf) (List.mem_singleton.mpr rfl)
      (steps_destroy (allowsQuiet_foreign _) _ (by simp))

theorem stackChange_of_shares {α : Type} {read write : Bool} {outcome : Outcome α}
    (h : Shares (fun op _ => Foreign s.holders op) s read write outcome)
    (hok : ∀ s' n, Pushed (fun op _ => Foreign s.holders op) s s' n read write →
      StackChange functions s c s' none) :
    StackChange functions s c (thrown outcome).1 (thrown outcome).2 := by
  obtain ⟨s', e | a⟩ := outcome
  · exact .thrown c s' e h
  · obtain ⟨n, hp⟩ := h
    exact hok s' n hp

theorem stackChange_takeBack (functions : CopyFunctions) (hv : Valid s)
    (hm : Moves (fun op _ => Foreign s.holders op) s (s.notified reaction)) (hs : s.shared = true)
    (herrors : reaction.errors = []) (buffer : Nat) {result : Except Failure Nat}
    (he : (s.notified reaction).takeBack functions buffer = (s', result)) (context : String) :
    StackChange functions s (.reclaim reaction buffer) (thrown (inContext context (s', result))).1
      (thrown (inContext context (s', result))).2 := by
  cases result with
  | ok address =>
    refine .reclaim reaction buffer s' hs (Removes.of_moves hm ?_)
    have hok : ((s.notified reaction).takeBack functions buffer).2 = .ok address := by rw [he]
    have hr := removes_takeBack functions (hv.moves hm) (holders_of_shared hs) hok
    rwa [he] at hr
  | error =>
    obtain ⟨top, rest, hh⟩ : ∃ top rest, (s.notified reaction).holders = top :: rest :=
      List.exists_cons_of_ne_nil (holders_of_shared hs)
    cases hl : (s.notified reaction).last with
    | false =>
      rw [takeBack_above functions hh hl, giveBack_eq] at he
      cases he
    | true =>
      cases hc : ((s.notified reaction).copied functions buffer).2 with
      | ok =>
        rw [takeBack_ok functions hl hc, giveBack_eq] at he
        cases he
      | error =>
        rw [takeBack_error functions hl hc] at he
        cases he
        refine .lost reaction buffer _ _ hl herrors ?_ rfl ?_
        · exact (copied_error_iff functions (hv.moves hm) hl buffer).mp ⟨_, hc⟩
        · exact ((Steps.any hm.steps).trans (steps_copied functions _ buffer)).trans
            (steps_destroy (allowsQuiet_any []) _ (by simp))

/-- Every call on a valid descriptor is one of these changes. -/
theorem stackChange_call (functions : CopyFunctions) (hv : Valid s) (hc : c.Respects s) :
    StackChange functions s c (call functions s c).1 (call functions s c).2 := by
  cases c with
  | metadata metadata =>
    cases hh : s.holders with
    | cons =>
      obtain ⟨e, he⟩ : ∃ e, s.setMetadata metadata = (s, .error e) :=
        ⟨_, by simp only [State.setMetadata, hh]; rfl⟩
      simp only [call, he]
      exact .thrown _ s _ (Moves.refl s)
    | nil =>
      cases metadata with
      | false =>
        have he : s.setMetadata false = ({ s with metadata := false }, .ok ()) := by
          simp [State.setMetadata, hh]
        simp only [call, he]
        exact .ordinary _ hh rfl
      | true =>
        obtain ⟨s', he, hr⟩ := replaced_setMetadata s hh
        simp only [call, he]
        exact .placeholder s' _ hh hr
  | share r read write reaction =>
    exact stackChange_of_shares (shares_of_respects hv hc)
      fun s' n hp => .share r read write reaction s' n hp
  | shareData data type read write reaction =>
    exact stackChange_of_shares (shareData_of_respects hv hc)
      fun s' n hp => .shareData data type read write reaction s' n hp
  | release reaction =>
    have hm := moves_notified hv hc
    obtain ⟨e, he⟩ | ⟨e, he⟩ | ⟨hs, he⟩ := release_cases s reaction
    · simp only [call, he]
      exact .thrown _ s _ (Moves.refl s)
    · simp only [call, he]
      exact .thrown _ _ _ hm
    · simp only [call, he]
      exact .release reaction _ hs
        ((removes_drop (hv.moves hm) (holders_of_shared hs)).of_moves hm)
  | reclaim reaction buffer =>
    have hm := moves_notified hv hc
    obtain ⟨⟨e, he⟩, _⟩ | ⟨⟨e, he⟩, _⟩ | ⟨hs, herrors, he⟩ :=
      reclaim_cases functions s reaction buffer
    · simp only [call, he]
      exact .thrown _ s _ (Moves.refl s)
    · simp only [call, he]
      exact .thrown _ _ _ hm
    · simp only [call, he]
      exact stackChange_takeBack functions hv hm hs herrors buffer rfl _
  | other ops =>
    exact .other ops _ ⟨rfl, steps_run _ _ (permitted_of_forall _ _ hc)⟩

theorem Valid.change (hv : Valid s) (hc : StackChange functions s c s' e) : Valid s' := by
  cases hc with
  | thrown _ _ e hm | other ops _ hm => exact hv.moves hm
  | lost reaction buffer _ e hl _ _ hh hs =>
    have hnil : s'.holders = [] := by rw [hh]
    exact ⟨managed_steps hs hv.managed, by simp [hnil], by simp [hnil]⟩
  | ordinary _ hh hs =>
    rw [hs]
    exact ⟨hv.managed, hv.live, hv.nodup⟩
  | placeholder _ n hh hp =>
    have hv' : Valid { s with metadata := true } := ⟨hv.managed, hv.live, hv.nodup⟩
    exact hv'.replaced hp
  | share r read write reaction _ n hp => exact hv.pushed hp
  | shareData data type read write reaction _ n hp => exact hv.pushed hp
  | release reaction _ hs hr | reclaim reaction buffer _ hs hr => exact hv.removes hr

theorem valid_call (functions : CopyFunctions) (hv : Valid s) (hc : c.Respects s) :
    Valid (after functions c s) := hv.change (stackChange_call functions hv hc)

theorem valid_new (name : String) (hm : Managed heap) : Valid (State.new name heap) :=
  ⟨hm, by simp [State.new], by simp [State.new]⟩

def Call.isShare : Call → Bool
  | .share _ _ _ _ | .shareData _ _ _ _ _ => true
  | _ => false

def Call.isRemoval : Call → Bool
  | .release _ | .reclaim _ _ => true
  | _ => false

/-- A descriptor together with the number of its successful calls. -/
structure History where
  state : State
  shares : Nat
  removals : Nat

def History.record (functions : CopyFunctions) (c : Call) (past : History) : History :=
  let (s, e) := call functions past.state c
  ⟨s, past.shares + (c.isShare && e.isNone).toNat, past.removals + (c.isRemoval && e.isNone).toNat⟩

/-- The copy for a placeholder, if the call makes one, does not throw. -/
def Call.CopySucceeds (functions : CopyFunctions) (s : State) : Call → Prop
  | .reclaim reaction buffer => s.last = true → ¬ CopyThrows functions (s.notified reaction) buffer
  | _ => True

/-- The stack has the depth that the successful calls have given it. -/
structure Disciplined (past : History) : Prop where
  valid : Valid past.state
  placeholder : past.state.metadata = true → past.state.holders ≠ []
  depth : past.state.holders.length + past.removals =
    past.shares + past.state.metadata.toNat

theorem shared_length (hs : s.shared = true) : 1 + s.metadata.toNat ≤ s.holders.length := by
  have hne := List.length_pos_iff.mpr (holders_of_shared hs)
  cases hm : s.metadata with
  | false =>
    simp only [Bool.toNat_false]
    omega
  | true =>
    simp only [State.shared, hm, Bool.and_true, Bool.not_eq_true', Bool.or_eq_false_iff,
      beq_eq_false_iff_ne] at hs
    simp only [Bool.toNat_true]
    omega

theorem length_removes (hr : Removes s s') (hs : s.shared = true) :
    s'.metadata = s.metadata ∧ s'.holders.length + 1 = s.holders.length := by
  have hlen := shared_length hs
  obtain ⟨_, hp⟩ | ⟨hl, n, hr⟩ := hr
  · rw [hp.same]
    refine ⟨rfl, ?_⟩
    rw [List.length_tail]
    omega
  · rw [hr.same]
    exact ⟨rfl, (last_iff.mp hl).2.symm⟩

/-- One call moves the depth by what it adds to the numbers of successful calls. -/
theorem depth_change (hchange : StackChange functions s c s' e) (hc : c.CopySucceeds functions s)
    (hplaceholder : s.metadata = true → s.holders ≠ []) :
    (s'.metadata = true → s'.holders ≠ []) ∧
      s'.holders.length + s.metadata.toNat + (c.isRemoval && e.isNone).toNat =
        s.holders.length + s'.metadata.toNat + (c.isShare && e.isNone).toNat := by
  have hordinary : s.holders = [] → s.metadata = false := fun hh => by
    cases hm : s.metadata with
    | false => rfl
    | true => exact absurd hh (hplaceholder hm)
  have hremoves : s.shared = true → Removes s s' → (s'.metadata = true → s'.holders ≠ []) ∧
      s'.holders.length + s.metadata.toNat + 1 = s.holders.length + s'.metadata.toNat := by
    intro hs hr
    have hlen := shared_length hs
    obtain ⟨hm, hlen'⟩ := length_removes hr hs
    rw [hm]
    refine ⟨fun hmeta hnil => ?_, by omega⟩
    rw [hmeta, Bool.toNat_true] at hlen
    rw [hnil, List.length_nil] at hlen'
    omega
  cases hchange with
  | thrown _ _ e hm => simpa [hm.same] using hplaceholder
  | other ops _ hm => simpa [hm.same, Call.isRemoval, Call.isShare] using hplaceholder
  | lost reaction buffer _ e hl _ hthrows => exact absurd hthrows (hc hl)
  | ordinary _ hh hs => simp [hs, hordinary hh, Call.isRemoval, Call.isShare]
  | placeholder _ n hh hp => simp [hp.same, hh, hordinary hh, Call.isRemoval, Call.isShare]
  | share r read write reaction _ n hp | shareData data type read write reaction _ n hp =>
    simp [hp.same, Call.isRemoval, Call.isShare]
    omega
  | release reaction _ hs hr | reclaim reaction buffer _ hs hr => exact hremoves hs hr

theorem disciplined_record (functions : CopyFunctions) (c : Call) (past : History)
    (hc : c.Respects past.state ∧ c.CopySucceeds functions past.state) (hd : Disciplined past) :
    Disciplined (past.record functions c) := by
  have hchange := stackChange_call functions hd.valid hc.1
  obtain ⟨hplaceholder, hdepth⟩ := depth_change hchange hc.2 hd.placeholder
  refine ⟨hd.valid.change hchange, hplaceholder, ?_⟩
  have := hd.depth
  simp only [History.record]
  omega

theorem disciplined_new (name : String) (hm : Managed heap) :
    Disciplined ⟨State.new name heap, 0, 0⟩ :=
  ⟨valid_new name hm, by simp [State.new], by simp [State.new]⟩

/-- For every sequence of calls whose callbacks leave the stack alone and whose
copies do not fail: a metadata descriptor has a reference on its stack, the depth
is the number of shares less the number of removals, with one more for metadata,
and a share that then fails leaves the stack exactly as it was. -/
theorem run_stack_discipline (functions : CopyFunctions) (mem : Mem Byte) (ops : List Op)
    (name : String) (calls : List Call)
    (hcalls : Permitted
      (fun c past => c.Respects past.state ∧ c.CopySucceeds functions past.state)
      (History.record functions) calls ⟨State.new name (runFrom mem ops), 0, 0⟩) :
    let past := run (History.record functions) calls ⟨State.new name (runFrom mem ops), 0, 0⟩
    (past.state.metadata = true → past.state.holders ≠ []) ∧
    past.state.holders.length + past.removals = past.shares + past.state.metadata.toNat ∧
    ∀ c e, c.isShare = true → c.Respects past.state → (call functions past.state c).2 = some e →
      (call functions past.state c).1.stack = past.state.stack := by
  intro past
  have hd : Disciplined past := permitted_invariant (disciplined_record functions) calls _ hcalls
    (disciplined_new name (managed_runFrom mem ops))
  refine ⟨hd.placeholder, hd.depth, fun c e hshare hc he => ?_⟩
  have hchange := stackChange_call functions hd.valid hc
  rw [he] at hchange
  cases hchange with
  | thrown _ _ _ hm => exact stack_moves hd.valid hm
  | lost => cases hshare

/-- Callbacks that do nothing. -/
def silent : Reaction := ⟨[], []⟩

def failingCopies : CopyFunctions := fun _ _ _ _ _ => .error (.foreign "copy")

def metadataReleased : List Call :=
  [.metadata true, .shareData 4096 (.ok typeForInt32) true false silent, .release silent]

def newValue : State := State.new "value" (runFrom (fun _ => 0) [])

theorem run_stack_discipline_metadata :
    (run (History.record failingCopies) metadataReleased ⟨newValue, 0, 0⟩).removals = 1 ∧
    ((run (History.record failingCopies) metadataReleased ⟨newValue, 0, 0⟩).state.metadata = true →
      (run (History.record failingCopies) metadataReleased ⟨newValue, 0, 0⟩).state.holders ≠
        []) := by
  refine ⟨by decide +kernel, ?_⟩
  refine (run_stack_discipline failingCopies (fun _ => 0) [] "value" metadataReleased ?_).1
  refine ⟨⟨?_, trivial⟩, ⟨?_, trivial⟩, ⟨?_, trivial⟩, trivial⟩ <;> intro op hop <;> cases hop

/-- The one removal that throws and loses the stack: the last reclaim of a
metadata descriptor, when its callbacks do not throw and its copy does. -/
def Call.LosesStack (functions : CopyFunctions) (s : State) : Call → Prop
  | .reclaim reaction buffer => s.metadata = true ∧ s.holders.length = 2 ∧
      reaction.errors = [] ∧ CopyThrows functions (s.notified reaction) buffer
  | _ => False

/-- The stack is as before the call, and no data on it has been freed. -/
def Restored (s s' : State) : Prop :=
  s'.stack = s.stack ∧
  ∀ r k, r ∈ s.holders → s.heap.content? r = some k → k.buffer ∉ s'.heap.freed

theorem restored_moves (hv : Valid s) (hm : Moves (fun op _ => Foreign s.holders op) s s') :
    Restored s s' := by
  refine ⟨stack_moves hv hm, fun r k hr hk => ?_⟩
  obtain ⟨x, c, hx, hc, hcon⟩ := content?_eq_some.mp hk
  have hbuffer := content_buffer_steps hm.steps (c := c) (b := k.buffer) (by simp [hcon])
  obtain ⟨k', hk', hkb⟩ := Option.map_eq_some_iff.mp hbuffer
  have hx' : s'.heap.ref? r = some x := by
    rw [(hm.steps.ref? (fun _ _ hf => hf) hr (hv.exist r hr)).2, hx]
  have hheld : s'.heap.Held k.buffer :=
    ⟨r, k', content?_eq_some.mpr ⟨x, c, hx', hc, hk'⟩, hkb⟩
  have hmanaged := managed_steps hm.steps hv.managed
  have hcount : s'.heap.freed.count k.buffer = 0 :=
    (hmanaged.owned.sound _ (hmanaged.locked.held_lt hheld)).owned (links_pos_of_held hheld)
  exact List.count_eq_zero.mp hcount

theorem reclaim_loses (hv : Valid s) {buffer : Nat} (hc : (Call.reclaim reaction buffer).Respects s)
    (hl : (Call.reclaim reaction buffer).LosesStack functions s) :
    ∃ e, (call functions s (.reclaim reaction buffer)).2 = some e ∧
      (call functions s (.reclaim reaction buffer)).1.holders = [] := by
  obtain ⟨hmeta, hlen, herrors, hthrows⟩ := hl
  have hlast : (s.notified reaction).last = true := last_iff.mpr ⟨hmeta, hlen⟩
  have hshared : s.shared = true := by
    obtain ⟨top, p, hh⟩ := State.last.holders (last_iff.mpr ⟨hmeta, hlen⟩)
    simp [State.shared, hh]
  have hv' := hv.moves (moves_notified hv hc)
  obtain ⟨e, he⟩ := (copied_error_iff functions hv' hlast buffer).mpr hthrows
  obtain ⟨_, hf⟩ | ⟨_, hne⟩ | ⟨_, _, heq⟩ := reclaim_cases functions s reaction buffer
  · rw [hshared] at hf
    cases hf
  · exact absurd herrors hne
  · rw [takeBack_error functions hlast he] at heq
    simp only [call, heq]
    exact ⟨_, rfl, rfl⟩

/-- In every state a descriptor can be in: a `release` or `reclaim` that throws
leaves the stack as it was and the data unfreed, exactly unless it is the last
reclaim of metadata and the copy for the placeholder throws. -/
theorem removal_restores_iff (functions : CopyFunctions) (mem : Mem Byte) (ops : List Op)
    (name : String) (calls : List Call)
    (hcalls : Permitted Call.Respects (after functions) calls (State.new name (runFrom mem ops)))
    (c : Call) (hremoval : c.isRemoval = true)
    (hc : c.Respects (run (after functions) calls (State.new name (runFrom mem ops)))) :
    let s := run (after functions) calls (State.new name (runFrom mem ops))
    (∀ e, (call functions s c).2 = some e → Restored s (call functions s c).1) ↔
      ¬ c.LosesStack functions s := by
  intro s
  have hv : Valid s := permitted_invariant (P := Valid)
    (fun _ _ hc hv => valid_call functions hv hc) calls _ hcalls
    (valid_new name (managed_runFrom mem ops))
  constructor
  · intro hrestored hl
    cases c with
    | reclaim =>
      obtain ⟨e, he, hnil⟩ := reclaim_loses hv hc hl
      have hstack := congrArg List.length (hrestored e he).1
      have hlen : s.holders.length = 2 := hl.2.1
      simp [State.stack, hnil, hlen] at hstack
    | _ => exact hl
  · intro hl e he
    have hchange := stackChange_call functions hv hc
    rw [he] at hchange
    cases hchange with
    | thrown _ _ _ hm => exact restored_moves hv hm
    | lost reaction buffer _ _ hlast herrors hthrows =>
      have hlast := last_iff.mp hlast
      exact absurd ⟨hlast.1, hlast.2, herrors, hthrows⟩ hl

theorem ispow2_four : ispow2 4 = true := by decide

/-- An integer with a copy function of its own. -/
def copiedInt : Datatype := .scalar { Scalar.make .signed 4 4 ispow2_four with copy := some 0 }

def sharedCopiedInt : State :=
  run (after failingCopies)
    [.metadata true, .shareData 4096 (.ok copiedInt) true false silent] newValue

/-- A reclaim that throws leaves an empty stack and has freed the data of the user. -/
theorem reclaim_frees_on_failed_copy :
    ¬ ∀ e, (call failingCopies sharedCopiedInt (.reclaim silent 8192)).2 = some e →
      Restored sharedCopiedInt (call failingCopies sharedCopiedInt (.reclaim silent 8192)).1 := by
  intro hrestored
  have hthrown : (call failingCopies sharedCopiedInt (.reclaim silent 8192)).2 =
      some (.error .system "Unable to reclaim `value', ") := by decide +kernel
  have hcontent : (sharedCopiedInt.heap.content? sharedCopiedInt.top).map Content.buffer =
    some 0 := by
    decide +kernel
  have hfreed : 0 ∈ (call failingCopies sharedCopiedInt (.reclaim silent 8192)).1.heap.freed := by
    decide +kernel
  obtain ⟨k, hk, hbuffer⟩ := Option.map_eq_some_iff.mp hcontent
  exact (hrestored _ hthrown).2 sharedCopiedInt.top k (by decide +kernel) hk (hbuffer ▸ hfreed)

theorem removal_restores_shared_int :
    (call failingCopies sharedCopiedInt (.release ⟨[], [.foreign "callback"]⟩)).2 =
        some (.error .system "Unable to release `value', while removing `value', ") ∧
      Restored sharedCopiedInt
        (call failingCopies sharedCopiedInt (.release ⟨[], [.foreign "callback"]⟩)).1 := by
  have hthrown : (call failingCopies sharedCopiedInt (.release ⟨[], [.foreign "callback"]⟩)).2 =
      some (.error .system "Unable to release `value', while removing `value', ") := by
    decide +kernel
  refine ⟨hthrown, (removal_restores_iff failingCopies (fun _ => 0) [] "value"
    [.metadata true, .shareData 4096 (.ok copiedInt) true false silent] ?_
    (.release ⟨[], [.foreign "callback"]⟩) rfl ?_).mpr id _ hthrown⟩
  · refine ⟨?_, ?_, trivial⟩ <;> intro op hop <;> cases hop
  · intro op hop
    cases hop

end Pdi.Descriptor
