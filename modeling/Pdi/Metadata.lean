import Pdi.DescriptorDiscipline
import Pdi.Placeholder

/-!
# Persistence of metadata

The placeholder of a metadata descriptor keeps the value of the reference that
was removed last. What that value was is recorded beside the state of the
descriptor, at the moment of each removal.
-/
namespace Pdi.Descriptor

open Pdi.Memory Pdi.Datatypes Pdi.Reference Pdi.Run

variable {s s' : State} {k : Content} {functions : CopyFunctions} {c : Call} {b : Bool}
  {e : Failure} {given : Option Deallocator} {v : Value} {reaction : Reaction} {buffer : Nat}

/-- The content of the top reference, if nothing but its own right to write
keeps others from reading it. -/
def State.readableTop (s : State) : Option Content :=
  match s.heap.ref? s.top, s.heap.content? s.top with
  | some x, some k =>
    if k.data != 0 && (s.heap.buffers[k.buffer]?).any (fun b =>
        b.readLocks == (x.write.toNat : Int)) then some k
    else none
  | _, _ => none

def State.topValue (s : State) : Option Value :=
  s.readableTop.map fun k => k.value s.heap.mem

/-- Copying the data yields the same value, in memory of its own. -/
def FaithfulCopy (functions : CopyFunctions) (k : Content) (mem : Mem Byte) (buffer : Nat) : Prop :=
  ∀ mem' data type, doCopy functions k.type mem k.data buffer = .ok (some (mem', data, type)) →
    (∀ path, readScalar mem' path type data = readScalar mem path k.type k.data) ∧
    (∀ b o, Within ⟨data, type⟩ ⟨b, data, type, o⟩ mem') ∧
    ∀ a, Deallocator.Covers ⟨data, type⟩ a → ¬ Deallocator.Covers ⟨k.data, k.type⟩ a

/-- Readable data on top lies in memory of the library. -/
def State.Releasable (s : State) : Prop :=
  ∀ k, s.readableTop = some k → ∃ d, s.heap.Owns k.buffer d ∧ Within d k s.heap.mem

/-- Readable data on top has a size and is copied faithfully. -/
def State.Reclaimable (functions : CopyFunctions) (s : State) (buffer : Nat) : Prop :=
  ∀ k, s.readableTop = some k →
    k.type.densify.buffersize ≠ 0 ∧ FaithfulCopy functions k s.heap.mem buffer

/-- A descriptor, the value of the reference removed last if it could be read,
the value its placeholder holds, the memory given back when the placeholder
was made by a reclaim, and what is asked of the data that the placeholder was made
from. -/
structure Chronicle where
  state : State
  last : Option Value
  kept : Option Value
  given : Option Deallocator
  keepable : Prop

def Chronicle.start (s : State) : Chronicle := ⟨s, none, none, none, True⟩

def Chronicle.record (functions : CopyFunctions) (c : Call) (past : Chronicle) : Chronicle :=
  match c, call functions past.state c with
  | .metadata _, (s, none) => .start s
  | .release reaction, (s, none) =>
    let before := past.state.notified reaction
    if before.last then ⟨s, before.topValue, before.topValue, none, before.Releasable⟩
    else { past with state := s, last := before.topValue }
  | .reclaim reaction buffer, (s, none) =>
    let before := past.state.notified reaction
    if before.last then
      ⟨s, before.topValue, before.topValue, before.readableTop.map fun k => ⟨k.data, k.type⟩,
        before.Reclaimable functions buffer⟩
    else
      { past with
        state := s
        last := before.topValue
        kept := if before.overPlaceholder then none else past.kept }
  | _, (s, _) => { past with state := s }

theorem readableTop_eq_some (hk : s.readableTop = some k) :
    ∃ x b, s.heap.ref? s.top = some x ∧ s.heap.content? s.top = some k ∧ k.data ≠ 0 ∧
      s.heap.buffers[k.buffer]? = some b ∧ b.readLocks = x.write.toNat := by
  unfold State.readableTop at hk
  split at hk
  · next x k' hx hk' =>
    split at hk
    · next hcond =>
      cases hk
      simp only [Bool.and_eq_true, bne_iff_ne, ne_eq, Option.any_eq_true, beq_iff_eq] at hcond
      obtain ⟨hd, b, hb, hlocks⟩ := hcond
      exact ⟨x, b, hx, hk', hd, hb, hlocks⟩
    · cases hk
  · cases hk

/-- What is readable on top is so for good: once the stack is gone nobody has
the right to write it. -/
theorem readable_top (hv : Valid s) (hh : s.holders ≠ []) (hk : s.readableTop = some k) :
    s.heap.content? s.top = some k ∧ k.data ≠ 0 ∧ Readable s k.buffer := by
  obtain ⟨top, rest, hh⟩ := List.exists_cons_of_ne_nil hh
  have htop : s.top ∈ s.holders := by simp [State.top, hh]
  obtain ⟨x, b, hx, hcontent, hd, hb, hlocks⟩ := readableTop_eq_some hk
  obtain ⟨x', c, hx', hc, hcon⟩ := content?_eq_some.mp hcontent
  obtain rfl : x' = x := Option.some.inj (hx'.symm.trans hx)
  have hon : onBuffer s.heap.contents k.buffer x' = true := by simp [onBuffer, hc, hcon]
  have hsum := hv.managed.locked.readLocks k.buffer b hb
  have hpos : x'.write.toNat ≤ s.heap.writers k.buffer := by
    cases hw : x'.write with
    | false => exact Nat.zero_le _
    | true =>
      exact List.countP_pos_iff.mpr
        ⟨_, List.mem_of_getElem? (ref?_eq_some.mp hx), by simp [hw, hon]⟩
  refine ⟨hcontent, hd, ⟨b, hb, ?_⟩, fun r y hy hyw hyb => ?_⟩
  · cases hr : b.readable with
    | true => rfl
    | false =>
      rw [hr] at hsum
      simp only [closed, Bool.false_eq_true, if_false] at hsum
      omega
  · by_contra hr
    have hne : r ≠ s.top := fun he => hr (he ▸ htop)
    -- a writer besides the top is the second one, or the only one where none is allowed
    have hwrite := (hv.managed.locked.no_conflict hne hy hx hyb hon hyw).2
    rw [hwrite, Bool.toNat_false] at hlocks
    have hclosed : 0 ≤ closed b.readable := by
      unfold closed
      split <;> omega
    have hzero : s.heap.writers k.buffer = 0 := by omega
    rw [writers_eq_zero.mp hzero r y hy hyw] at hyb
    cases hyb


structure Call.Considerate (functions : CopyFunctions) (c : Call) (s : State) : Prop where
  respects : c.Respects s
  courteous : c.Courteous s
  copySucceeds : c.CopySucceeds functions s

/-- The placeholder keeps what it is said to keep. -/
structure Remembers (past : Chronicle) : Prop where
  valid : Valid past.state
  placeholder : past.state.metadata = true → past.state.holders ≠ []
  kept : past.keepable → ∀ v, past.kept = some v → Keeps past.state past.given v
  last : past.state.metadata = true → past.state.holders.length = 1 → past.kept = past.last

variable {past : Chronicle}

theorem Remembers.gentle (hr : Remembers past) (hv : Valid s')
    (hp : s'.metadata = true → s'.holders ≠ []) (hm : s'.metadata = past.state.metadata)
    (hg : past.state.metadata = true → Gentle past.state s')
    (hl : s'.metadata = true → s'.holders.length = 1 → past.state.holders.length = 1) :
    Remembers { past with state := s' } where
  valid := hv
  placeholder := hp
  kept hkeep v hk :=
    (hr.kept hkeep v hk).gentle hr.valid.managed (hg (hr.kept hkeep v hk).1)
  last hmeta hlen := hr.last (hm ▸ hmeta) (hl hmeta hlen)

theorem metadata_change {e : Option Failure} (hc : StackChange functions s c s' e)
    (hset : ∀ b, c ≠ .metadata b) : s'.metadata = s.metadata := by
  cases hc with
  | thrown _ _ e hm | other ops _ hm => rw [hm.same]
  | lost reaction buffer _ e _ _ _ hh => rw [hh]
  | ordinary | placeholder => exact absurd rfl (hset _)
  | share r read write reaction _ n hp => rw [hp.same]
  | shareData data type read write reaction _ n hp => rw [hp.same]
  | release reaction _ hs hr | reclaim reaction buffer _ hs hr => exact (length_removes hr hs).1

/-- A call that does not remove anything, or throws. -/
theorem Remembers.unremoved (functions : CopyFunctions) (hr : Remembers past)
    (hc : c.Considerate functions past.state) (hset : ∀ b, c ≠ .metadata b)
    (hremoval : (c.isRemoval && (call functions past.state c).2.isNone) = false)
    (hg : past.state.metadata = true → Gentle past.state (call functions past.state c).1) :
    Remembers { past with state := (call functions past.state c).1 } := by
  have hchange := stackChange_call functions hr.valid hc.respects
  have hm := metadata_change hchange hset
  obtain ⟨hp, hdepth⟩ := depth_change hchange hc.copySucceeds hr.placeholder
  refine hr.gentle (hr.valid.change hchange) hp hm hg fun hmeta hlen => ?_
  have hpos := List.length_pos_iff.mpr (hr.placeholder (hm ▸ hmeta))
  rw [hm, hremoval, Bool.toNat_false] at hdepth
  omega

theorem setMetadata_thrown (h : thrown (s.setMetadata b) = (s', some e)) : s' = s := by
  unfold State.setMetadata at h
  split at h
  · cases h
    rfl
  · split at h <;> cases h

theorem remembers_metadata (functions : CopyFunctions) (hr : Remembers past)
    (hc : (Call.metadata b).Considerate functions past.state) :
    Remembers (past.record functions (.metadata b)) := by
  have hchange := stackChange_call functions hr.valid hc.respects
  obtain ⟨hp, _⟩ := depth_change hchange hc.copySucceeds hr.placeholder
  have hv := hr.valid.change hchange
  unfold Chronicle.record
  generalize hcall : call functions past.state (.metadata b) = outcome at hp hv ⊢
  obtain ⟨s', _ | e⟩ := outcome
  · exact ⟨hv, hp, by simp [Chronicle.start], fun _ _ => rfl⟩
  · obtain rfl := setMetadata_thrown hcall
    exact hr

theorem record_thrown (hcall : call functions past.state c = (s', some e)) :
    past.record functions c = { past with state := s' } := by
  unfold Chronicle.record
  rw [hcall]
  cases c <;> rfl

/-- A removal that throws. -/
theorem Remembers.thrown (hr : Remembers past) (hc : c.Considerate functions past.state)
    (hcall : call functions past.state c = (s', some e)) (hset : ∀ b, c ≠ .metadata b)
    (hg : past.state.metadata = true → Gentle past.state s') :
    Remembers (past.record functions c) := by
  have hkept := hr.unremoved functions hc hset
  rw [hcall] at hkept
  rw [record_thrown hcall]
  exact hkept (Bool.and_false _) hg

/-- A removal that returns, with what it does to the record. -/
theorem Remembers.removed (hr : Remembers past) (hc : c.Considerate functions past.state)
    (hcall : call functions past.state c = (s', none)) (hremoval : c.isRemoval = true)
    {last kept : Option Value} {keepable : Prop}
    (hkept : keepable → ∀ v, kept = some v → Keeps s' given v)
    (hlast : past.state.last = true → kept = last) :
    Remembers ⟨s', last, kept, given, keepable⟩ := by
  have hchange := stackChange_call functions hr.valid hc.respects
  obtain ⟨hp, hdepth⟩ := depth_change hchange hc.copySucceeds hr.placeholder
  have hset : ∀ b, c ≠ .metadata b := by
    rintro b rfl
    cases hremoval
  have hshare : c.isShare = false := by
    cases c with
    | release | reclaim => rfl
    | _ => cases hremoval
  have hm := metadata_change hchange hset
  have hv := hr.valid.change hchange
  rw [hcall] at hp hdepth hm hv
  refine ⟨hv, hp, hkept, fun hmeta hlen => hlast ?_⟩
  dsimp only at hdepth hm hlen
  rw [hm, hremoval, hshare, Option.isNone_none, Bool.and_true, Bool.and_true, Bool.toNat_true,
    Bool.toNat_false] at hdepth
  exact last_iff.mpr ⟨hm ▸ hmeta, by omega⟩

/-- The value of the data on top can be kept when the placeholder is replaced. -/
theorem topValue_eq_some (h : s.topValue = some v) :
    ∃ k, s.readableTop = some k ∧ k.value s.heap.mem = v := Option.map_eq_some_iff.mp h

theorem remembers_release (functions : CopyFunctions) (hr : Remembers past)
    (hc : (Call.release reaction).Considerate functions past.state) :
    Remembers (past.record functions (.release reaction)) := by
  have hv := hr.valid
  have hvn : Valid (past.state.notified reaction) := hv.moves (moves_notified hv hc.respects)
  have hgn : past.state.metadata = true → Gentle past.state (past.state.notified reaction) :=
    fun hmeta => gentle_notified hv (hr.placeholder hmeta) hc.courteous
  obtain ⟨e, he⟩ | ⟨e, he⟩ | ⟨hs, he⟩ := release_cases past.state reaction
  · have hcall : call functions past.state (.release reaction) = (past.state, some e) :=
      congrArg thrown he
    rw [record_thrown hcall]
    exact hr
  · exact hr.thrown hc (congrArg thrown he) nofun hgn
  · have hcall : call functions past.state (.release reaction) =
        ((past.state.notified reaction).drop, none) := congrArg thrown he
    simp only [Chronicle.record, hcall]
    cases hl : (past.state.notified reaction).last with
    | false =>
      refine hr.removed hc hcall rfl (fun hkeep v hk => ?_) fun hlast => ?_
      · obtain hkeeps := hr.kept hkeep v hk
        have hlen := shared_length hs
        rw [hkeeps.1] at hlen
        exact hkeeps.gentle hv.managed ((hgn hkeeps.1).trans (gentle_drop hvn hlen hl))
      · rw [last_notified, hlast] at hl
        cases hl
    | true =>
      refine hr.removed hc hcall rfl (fun hkeep v hk => ?_) fun _ => rfl
      obtain ⟨k, htop, rfl⟩ := topValue_eq_some hk
      obtain ⟨hcontent, hd, hread⟩ := readable_top hvn (holders_of_shared hs) htop
      obtain ⟨d, hown, hin⟩ := hkeep k htop
      exact keeps_drop hvn hl hcontent hd hread hown hin

theorem doCopy_eq_none {type : Datatype} {mem : Mem Byte} {source : Nat}
    (hc : doCopy functions type mem source buffer = .ok none) : type.densify.buffersize = 0 := by
  by_contra hz
  simp only [doCopy, hz, if_false, bind, Except.bind] at hc
  split at hc <;> cases hc

/-- A copy that does not throw yields the data that is kept. -/
theorem keeps_copied (functions : CopyFunctions) (hv : Valid s) (hl : s.last = true)
    (hthrows : ¬ CopyThrows functions s buffer) (htop : s.heap.content? s.top = some k)
    (hd : k.data ≠ 0) (hread : Readable s k.buffer) (hsize : k.type.densify.buffersize ≠ 0)
    (hf : FaithfulCopy functions k s.heap.mem buffer) :
    Keeps (s.takeBack functions buffer).1 (some ⟨k.data, k.type⟩) (k.value s.heap.mem) := by
  have hm : ¬ outOfMemory k.type buffer = true :=
    fun hm => hthrows ⟨k, htop, hd, hread, .inl hm⟩
  cases hcopy : doCopy functions k.type s.heap.mem k.data buffer with
  | error e => exact absurd ⟨k, htop, hd, hread, .inr ⟨e, hcopy⟩⟩ hthrows
  | ok result =>
    match result with
    | none => exact absurd (doCopy_eq_none hcopy) hsize
    | some (mem, data, type) =>
      obtain ⟨hsame, hin, hapart⟩ := hf mem data type hcopy
      have hvalue : k.value s.heap.mem = fun path => readScalar mem path type data :=
        funext fun path => (hsame path).symm
      rw [hvalue]
      exact keeps_takeBack hv hl htop hd hread hm hcopy hin hapart

theorem takeBack_returns (functions : CopyFunctions) (hv : Valid s) (hh : s.holders ≠ [])
    (buffer : Nat) (hc : s.last = true → ¬ CopyThrows functions s buffer) :
    ∃ address, s.takeBack functions buffer = ((s.takeBack functions buffer).1, .ok address) := by
  obtain ⟨top, rest, hh⟩ := List.exists_cons_of_ne_nil hh
  cases hl : s.last with
  | false =>
    rw [takeBack_above functions hh hl, giveBack_eq]
    exact ⟨_, rfl⟩
  | true =>
    cases hcopied : (s.copied functions buffer).2 with
    | error e => exact absurd ((copied_error_iff functions hv hl buffer).mp ⟨e, hcopied⟩) (hc hl)
    | ok =>
      rw [takeBack_ok functions hl hcopied, giveBack_eq]
      exact ⟨_, rfl⟩

theorem remembers_reclaim (functions : CopyFunctions) (hr : Remembers past)
    (hc : (Call.reclaim reaction buffer).Considerate functions past.state) :
    Remembers (past.record functions (.reclaim reaction buffer)) := by
  have hv := hr.valid
  have hvn : Valid (past.state.notified reaction) := hv.moves (moves_notified hv hc.respects)
  have hgn : past.state.metadata = true → Gentle past.state (past.state.notified reaction) :=
    fun hmeta => gentle_notified hv (hr.placeholder hmeta) hc.courteous
  obtain ⟨⟨e, he⟩, _⟩ | ⟨⟨e, he⟩, _⟩ | ⟨hs, _, he⟩ :=
    reclaim_cases functions past.state reaction buffer
  · have hcall : call functions past.state (.reclaim reaction buffer) = (past.state, some e) :=
      congrArg thrown he
    rw [record_thrown hcall]
    exact hr
  · exact hr.thrown hc (congrArg thrown he) nofun hgn
  · obtain ⟨address, hback⟩ := takeBack_returns functions hvn (holders_of_shared hs)
      buffer hc.copySucceeds
    have hcall : call functions past.state (.reclaim reaction buffer) =
        (((past.state.notified reaction).takeBack functions buffer).1, none) := by
      rw [call, he, hback]
      rfl
    simp only [Chronicle.record, hcall]
    cases hl : (past.state.notified reaction).last with
    | false =>
      refine hr.removed hc hcall rfl (fun hkeep v hk => ?_) fun hlast => ?_
      · cases hover : (past.state.notified reaction).overPlaceholder with
        | true =>
          rw [hover] at hk
          cases hk
        | false =>
          rw [hover] at hk
          have hkeeps := hr.kept hkeep v hk
          have hlen := shared_length hs
          rw [hkeeps.1] at hlen
          exact hkeeps.gentle hv.managed
            ((hgn hkeeps.1).trans (gentle_takeBack functions hvn hlen hl hover buffer))
      · rw [last_notified, hlast] at hl
        cases hl
    | true =>
      refine hr.removed hc hcall rfl (fun hkeep v hk => ?_) fun _ => rfl
      obtain ⟨k, htop, rfl⟩ := topValue_eq_some hk
      obtain ⟨hcontent, hd, hread⟩ := readable_top hvn (holders_of_shared hs) htop
      obtain ⟨hsize, hf⟩ := hkeep k htop
      rw [htop]
      exact keeps_copied functions hvn hl (hc.copySucceeds hl) hcontent hd hread hsize hf

theorem remembers_record (functions : CopyFunctions) (c : Call) (past : Chronicle)
    (hc : c.Considerate functions past.state) (hr : Remembers past) :
    Remembers (past.record functions c) := by
  cases c with
  | metadata => exact remembers_metadata functions hr hc
  | release => exact remembers_release functions hr hc
  | reclaim => exact remembers_reclaim functions hr hc
  | share =>
    exact hr.unremoved functions hc nofun rfl fun hmeta =>
      gentle_share hr.valid (hr.placeholder hmeta) hc.respects hc.courteous
  | shareData =>
    exact hr.unremoved functions hc nofun rfl fun hmeta =>
      gentle_shareData hr.valid (hr.placeholder hmeta) hc.respects hc.courteous
  | other =>
    exact hr.unremoved functions hc nofun rfl fun hmeta =>
      gentle_other (hr.placeholder hmeta) hc.courteous

/-- `Ref_r(ref())` refers to data of value `v`. -/
def State.Reads (s : State) (v : Value) : Prop :=
  ∃ s' r k, s.ref = (s', .ok r) ∧
    (s'.heap.copyRef r true false).content? s'.heap.refs.length = some k ∧ k.value s'.heap.mem = v

/-- Nobody may write the data of reference `r`, and no reference made from one
to the same buffer gets the right to. -/
def Protected (h : Heap) (r : Nat) : Prop :=
  ∀ k, h.content? r = some k → h.writers k.buffer = 0 ∧
    ∀ r' k' read, h.content? r' = some k' → k'.buffer = k.buffer →
      (h.copyRef r' read true).content? h.refs.length = none

theorem Keeps.reads (hk : Keeps s given v) (hm : Managed s.heap) (hlen : s.holders.length = 1) :
    s.Reads v := by
  obtain ⟨_, c, k, d, hr, _⟩ := hk
  obtain ⟨p, hh⟩ := List.length_eq_one_iff.mp hlen
  have htop : s.top = s.bottom := by simp [State.top, State.bottom, hh]
  have hcopy : Courteous [s.bottom] (.copy s.top false false) s.heap :=
    ⟨by simp [Foreign, Op.touches], trivial⟩
  have hr' : Retains s.referring s.bottom c k d v := hr.exec hm.locked hcopy (by simp)
  have hl : Locked s.referring := locked_exec (.copy s.top false false) hm.locked
  have hnew := ref?_copyRef_free hm.locked s.top
  rw [htop, getContent_of hr.ref rfl hr.content hr.nonNull, ← htop] at hnew
  refine ⟨{ s with heap := s.referring }, s.heap.refs.length,
    k, by simp [State.ref, hh], ?_, hr'.value⟩
  exact hr'.read hl (getContent_of hnew rfl hr'.content hr'.nonNull)

theorem protected_of_retains {h : Heap} {p c : Nat} {d : Deallocator} (hr : Retains h p c k d v)
    (hl : Locked h) : Protected h p := by
  intro k₀ hk₀
  obtain rfl : k = k₀ := Option.some.inj (hr.content?.symm.trans hk₀)
  exact ⟨hr.writers hl, fun r' k' read hk' hb => hr.no_write hl hk' hb read⟩

/-- For every sequence of calls, with other code that is courteous and copies
that do not throw: when only the placeholder is left, what `ref()` gives can be
read and has the value that the data removed last had, if that could be read and
kept. That value stays with the placeholder until it is replaced, cannot be written,
and does not change with the memory that a reclaim gave back. -/
theorem run_metadata_persistence (functions : CopyFunctions) (mem : Mem Byte) (ops : List Op)
    (name : String) (calls : List Call)
    (hcalls : Permitted (fun c past => c.Considerate functions past.state)
      (Chronicle.record functions) calls (.start (State.new name (runFrom mem ops)))) :
    let past := run (Chronicle.record functions) calls (.start (State.new name (runFrom mem ops)))
    (past.state.metadata = true → past.state.holders.length = 1 → past.kept = past.last ∧
      (past.keepable → ∀ v, past.last = some v → past.state.Reads v)) ∧
    (past.keepable → ∀ v, past.kept = some v →
      ∃ k, past.state.heap.content? past.state.bottom = some k ∧
        k.data ≠ 0 ∧ k.value past.state.heap.mem = v ∧
        Protected past.state.heap past.state.bottom ∧
        ∀ given mem', past.given = some given →
          (∀ a, ¬ given.Covers a → mem' a = past.state.heap.mem a) → k.value mem' = v) := by
  intro past
  have hr : Remembers past := permitted_invariant (remembers_record functions) calls _ hcalls
    ⟨valid_new name (managed_runFrom mem ops), by simp [Chronicle.start, State.new],
      by simp [Chronicle.start], by simp [Chronicle.start, State.new]⟩
  refine ⟨fun hmeta hlen => ⟨hr.last hmeta hlen, fun hkeep v hlast => ?_⟩, fun hkeep v hk => ?_⟩
  · rw [← hr.last hmeta hlen] at hlast
    exact (hr.kept hkeep v hlast).reads hr.valid.managed hlen
  · obtain ⟨_, c, k, d, hret, hapart⟩ := hr.kept hkeep v hk
    refine ⟨k, hret.content?, hret.nonNull, hret.value,
      protected_of_retains hret hr.valid.managed.locked, fun given mem' hgiven hsame => ?_⟩
    rw [← hret.value]
    exact hret.inside mem' fun a ha => hsame a (hapart given hgiven a ha)

def intReclaimed : List Call :=
  [.metadata true, .shareData 4096 (.ok typeForInt32) true false silent, .reclaim silent 8192]

def intHistory : Chronicle :=
  run (Chronicle.record failingCopies) intReclaimed (.start newValue)

def intShared : State :=
  run (after failingCopies) [.metadata true, .shareData 4096 (.ok typeForInt32) true false silent]
    newValue

theorem readableTop_intShared :
    (intShared.notified silent).readableTop = some ⟨0, 4096, typeForInt32, 0⟩ := by decide +kernel

theorem readScalar_scalar_congr {mem mem' : Mem Byte} {s : Scalar} {data data' : Nat}
    (h : ∀ i, i < s.size → mem (data + i) = mem' (data' + i)) (path : Path) :
    readScalar mem path (.scalar s) data = readScalar mem' path (.scalar s) data' := by
  cases path with
  | nil => exact congrArg some ((bytes_eq_iff _ _ _ _ _ _).mpr ⟨rfl, h⟩)
  | cons step => cases step <;> rfl

theorem faithfulCopy_int (mem : Mem Byte) :
    FaithfulCopy failingCopies ⟨0, 4096, typeForInt32, 0⟩ mem 8192 := by
  intro mem' data type hcopy
  obtain ⟨rfl, rfl, rfl⟩ : mem' = memcpy mem mem 8192 4096 4 ∧ data = 8192 ∧
    type = typeForInt32 := by
    have : doCopy failingCopies typeForInt32 mem 4096 8192 =
      .ok (some (memcpy mem mem 8192 4096 4, 8192, typeForInt32)) := rfl
    rw [this] at hcopy
    cases hcopy
    exact ⟨rfl, rfl, rfl⟩
  refine ⟨fun path => ?_, fun b o mem' hsame => ?_, fun a ha hb => ?_⟩
  · exact readScalar_scalar_congr (fun i hi => memcpy_inside mem mem 8192 4096 4 i hi) path
  · exact funext (readScalar_scalar_congr fun i hi => hsame (8192 + i)
      ⟨Nat.le_add_right _ _, Nat.add_lt_add_left hi 8192⟩)
  · have hsize : typeForInt32.buffersize = 4 := rfl
    simp only [Deallocator.Covers, hsize] at ha hb
    omega

theorem run_metadata_persistence_int :
    intHistory.last.isSome = true ∧ ∀ v, intHistory.last = some v → intHistory.state.Reads v := by
  refine ⟨by decide +kernel, ?_⟩
  refine ((run_metadata_persistence failingCopies (fun _ => 0) [] "value" intReclaimed ?_).1
    (by decide +kernel) (by decide +kernel)).2 ?_
  · refine ⟨⟨?_, trivial, trivial⟩, ⟨?_, ?_, trivial⟩, ⟨?_, trivial, ?_⟩, trivial⟩
    · intro op hop
      cases hop
    · intro op hop
      cases hop
    · trivial
    · intro op hop
      cases hop
    · rintro _ ⟨k, htop, _, _, hfails⟩
      have hcontent : (intShared.notified silent).heap.content? (intShared.notified silent).top =
          some ⟨0, 4096, typeForInt32, 0⟩ := by decide +kernel
      obtain rfl : k = ⟨0, 4096, typeForInt32, 0⟩ := Option.some.inj (htop.symm.trans hcontent)
      obtain hmemory | ⟨e, he⟩ := hfails
      · exact absurd hmemory (by decide)
      · cases he
  · intro k hk
    obtain rfl : k = ⟨0, 4096, typeForInt32, 0⟩ :=
      Option.some.inj (hk.symm.trans readableTop_intShared)
    exact ⟨by decide, faithfulCopy_int _⟩

/-- No data at all, which can be read all the same. -/
def emptyReclaimed : List Call :=
  [.metadata true, .shareData 4096 (.ok (.array typeForInt32 0 0 0 [])) true false silent,
    .reclaim silent 8192]

def emptyHistory : Chronicle :=
  run (Chronicle.record failingCopies) emptyReclaimed (.start newValue)

theorem empty_metadata_lost :
    emptyHistory.state.metadata = true ∧ emptyHistory.state.holders.length = 1 ∧
    ∃ v, emptyHistory.last = some v ∧ ¬ emptyHistory.state.Reads v := by
  refine ⟨by decide +kernel, by decide +kernel, ?_⟩
  have hlast : emptyHistory.last.isSome = true := by decide +kernel
  obtain ⟨v, hv⟩ := Option.isSome_iff_exists.mp hlast
  refine ⟨v, hv, ?_⟩
  rintro ⟨s', r, k, hs, hk, _⟩
  have hnull : ∀ s' r, emptyHistory.state.ref = (s', .ok r) →
      (s'.heap.copyRef r true false).content? s'.heap.refs.length = none := by
    rintro _ _ hs
    cases hs
    decide +kernel
  rw [hnull s' r hs] at hk
  cases hk

end Pdi.Descriptor
