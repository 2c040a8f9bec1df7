import Pdi.Descriptor
import Pdi.ReferenceFrame

/-!
# What a share consists of

Every call on a descriptor is a sequence of operations on references. Most of them are `quiet`
and name only references that the call has made itself or that are popped; the
others are those of the callbacks, the two operations behind a copy and the
release behind a reclaim. Which operations are allowed is left open as `ok`, and
`kept` are the references that must be left alone.
-/
namespace Pdi.Descriptor

open Pdi.Memory Pdi.Datatypes Pdi.Reference Pdi.Run

variable {s s' s'' : State} {h h' : Heap} {r data n : Nat} {read write : Bool} {α : Type}

/-- Whatever else is allowed, quiet operations on other references than `kept` are. -/
def AllowsQuiet (ok : Op → Heap → Prop) (kept : List Nat) : Prop :=
  ∀ op h, op.effect = .quiet → Foreign kept op → ok op h

def Exist (kept : List Nat) (h : Heap) : Prop := ∀ r ∈ kept, r < h.refs.length

/-- The heap is changed by operations that are `ok`, the descriptor is not. -/
structure Moves (ok : Op → Heap → Prop) (s s' : State) : Prop where
  same : s'.toDataDescriptor = s.toDataDescriptor
  steps : Steps ok s.heap s'.heap

variable {ok : Op → Heap → Prop} {kept : List Nat}

theorem Moves.refl (s : State) : Moves ok s s := ⟨rfl, .refl⟩

theorem Moves.trans (h : Moves ok s s') (h' : Moves ok s' s'') :
    Moves ok s s'' := ⟨h'.same.trans h.same, h.steps.trans h'.steps⟩

theorem length_refs_steps (hs : Steps ok h h') : h.refs.length ≤ h'.refs.length := by
  refine Steps.invariant (P := fun g => h.refs.length ≤ g.refs.length) ?_ hs (Nat.le_refl _)
  intro op g _ hg
  exact hg.trans (length_refs_exec op g)

theorem Exist.steps (he : Exist kept h) (hs : Steps ok h h') : Exist kept h' :=
  fun r hr => Nat.lt_of_lt_of_le (he r hr) (length_refs_steps hs)

/-- The number of a new reference is none of `kept`. -/
theorem Exist.fresh (he : Exist kept h) (hr : h.refs.length ≤ r) : r ∉ kept :=
  fun hmem => by have := he r hmem; omega

section

variable (hq : AllowsQuiet ok kept)

include hq

theorem steps_newRef (h : Heap) (read write : Bool) : Steps ok h (h.newRef read write) :=
  Steps.one (.null read write) (hq _ _ rfl (by simp [Foreign, Op.touches]))

theorem steps_copyRef (h : Heap) (r : Nat) (read write : Bool) :
    Steps ok h (h.copyRef r read write) :=
  Steps.one (.copy r read write) (hq _ _ rfl (by simp [Foreign, Op.touches]))

theorem steps_destroy (h : Heap) (hr : r ∉ kept) : Steps ok h (h.destroy r) :=
  Steps.one (.destroy r) (hq _ _ rfl (by simpa [Foreign, Op.touches] using hr))

theorem steps_isNull (h : Heap) (hr : r ∉ kept) : Steps ok h (h.isNull r).1 :=
  Steps.one (.isNull r) (hq _ _ rfl (by simpa [Foreign, Op.touches] using hr))

theorem steps_peek (he : Exist kept h) (r : Nat) (read write : Bool) :
    Steps ok h (peek h r read write).1 :=
  (steps_copyRef hq h r read write).trans (steps_destroy hq _ (he.fresh (Nat.le_refl _)))

theorem steps_referring (s : State) : Steps ok s.heap s.referring :=
  steps_copyRef hq s.heap s.top false false

theorem moves_leave (s : State) (hr : r ∉ kept) :
    Moves ok s (s.leave r) := ⟨rfl, steps_destroy hq s.heap hr⟩

theorem moves_lacksRead (s : State) (he : Exist kept s.heap)
    (data : Nat) : Moves ok s (s.lacksRead data).1 := by
  unfold State.lacksRead
  split
  · exact ⟨rfl, steps_peek hq he data true false⟩
  · exact Moves.refl s

theorem moves_refused (s : State) (he : Exist kept s.heap)
    (hdata : data ∉ kept) : Moves ok s (s.refused data).1 := by
  have hnull := steps_isNull hq s.heap hdata
  unfold State.refused
  split
  · next h e =>
    rw [e] at hnull
    exact ⟨rfl, hnull⟩
  · next h e =>
    rw [e] at hnull
    exact ⟨rfl, hnull.trans (steps_peek hq (he.steps hnull) s.top false false)⟩

theorem moves_notify (s : State) (he : Exist kept s.heap) (doing : String) (reaction : Reaction)
    (hops : Permitted ok exec reaction.ops s.referring) : Moves ok s (s.notify doing reaction).1 :=
  ⟨rfl, ((steps_referring hq s).trans (steps_run _ _ hops)).trans
    (steps_destroy hq _ (he.fresh (Nat.le_refl _)))⟩

end

/-- A reference with the given rights, linked or not. -/
def HasRights (h : Heap) (r : Nat) (read write : Bool) : Prop :=
  ∃ x, h.ref? r = some x ∧ x.read = read ∧ x.write = write

theorem hasRights_linkNew (h : Heap) (read write : Bool) (c : Option Nat) :
    HasRights (h.linkNew read write c) h.refs.length read write := by
  cases c with
  | none => exact ⟨_, ref?_newRef_self h read write, rfl, rfl⟩
  | some c =>
    have hnew := ref?_newRef_self h read write
    obtain e | ⟨x, k, b, hx, _, _, _, _, _, e⟩ := link_cases (h.newRef read write) h.refs.length c
    · exact ⟨_, by rw [Heap.linkNew, e, hnew], rfl, rfl⟩
    · rw [hnew] at hx
      cases hx
      refine ⟨⟨read, write, some c⟩, ?_, rfl, rfl⟩
      rw [Heap.linkNew, e]
      exact ref?_setRef_self hnew _

theorem HasRights.lt (hr : HasRights h r read write) : r < h.refs.length := by
  obtain ⟨x, hx, _⟩ := hr
  exact (List.getElem?_eq_some_iff.mp (ref?_eq_some.mp hx)).1

theorem HasRights.steps (hr : HasRights h r read write) (hok : ∀ op h, ok op h → Foreign kept op)
    (hmem : r ∈ kept) (hs : Steps ok h h') : HasRights h' r read write := by
  obtain ⟨x, hx, hread, hwrite⟩ := hr
  have hlt : r < h.refs.length := (List.getElem?_eq_some_iff.mp (ref?_eq_some.mp hx)).1
  exact ⟨x, by rw [(hs.ref? hok hmem hlt).2, hx], hread, hwrite⟩

/-- A new reference on the stack, with the rights it was asked to have. -/
structure Pushed (ok : Op → Heap → Prop) (s s' : State) (n : Nat) (read write : Bool) : Prop where
  same : s'.toDataDescriptor = { s.toDataDescriptor with holders := n :: s.holders }
  steps : Steps ok s.heap s'.heap
  fresh : s.heap.refs.length ≤ n
  rights : HasRights s'.heap n read write

theorem pushed_push (hq : AllowsQuiet ok kept) (s : State) (r : Nat) (read write : Bool) :
    Pushed ok s (s.push r read write) s.heap.refs.length read write :=
  ⟨rfl, steps_copyRef hq s.heap r read write, Nat.le_refl _, hasRights_linkNew s.heap read write _⟩

theorem Moves.pushed (hm : Moves ok s s') (hp : Pushed ok s' s'' n read write) :
    Pushed ok s s'' n read write := by
  refine ⟨?_, hm.steps.trans hp.steps, (length_refs_steps hm.steps).trans hp.fresh, hp.rights⟩
  rw [hp.same, hm.same]

/-- The new reference is left alone afterwards. -/
theorem Pushed.moves (hp : Pushed ok s s' n read write) (hm : Moves ok s' s'')
    (hn : Moves (fun op _ => Foreign [n] op) s' s'') : Pushed ok s s'' n read write := by
  refine ⟨hm.same.trans hp.same, hp.steps.trans hm.steps, hp.fresh, ?_⟩
  exact hp.rights.steps (fun _ _ hf => hf) (by simp) hn.steps

theorem Pushed.pop (hq : AllowsQuiet ok kept) (he : Exist kept s.heap)
    (hp : Pushed ok s s' n read write) : Moves ok s s'.pop := by
  obtain ⟨d, h⟩ := s'
  obtain rfl : d = _ := hp.same
  exact ⟨rfl, hp.steps.trans (steps_destroy hq h (he.fresh hp.fresh))⟩

theorem allowsQuiet_foreign (kept : List Nat) :
    AllowsQuiet (fun op _ => Foreign kept op) kept := fun _ _ _ hf => hf

theorem HasRights.exist (hr : HasRights h n read write) : Exist [n] h := by
  intro r hmem
  rw [List.mem_singleton.mp hmem]
  exact hr.lt

theorem pushed_hold (hq : AllowsQuiet ok kept) (s : State) (he : Exist kept s.heap) (data : Nat)
    (read write : Bool) : ∃ n, Pushed ok s (s.hold data read write).1 n read write := by
  unfold State.hold
  split
  next h address e =>
  have hm : Moves ok s { s with heap := h } := by
    split at e
    · have hpeek := steps_peek hq he data read write
      rw [e] at hpeek
      exact ⟨rfl, hpeek⟩
    · cases e
      exact Moves.refl s
  exact ⟨_, hm.pushed (pushed_push hq _ data read write)⟩

/-- What a share leaves behind: the stack as it was, or one more reference on it. -/
def Shares {α : Type} (ok : Op → Heap → Prop) (s : State) (read write : Bool) : Outcome α → Prop
  | (s', .error _) => Moves ok s s'
  | (s', .ok _) => ∃ n, Pushed ok s s' n read write

section

variable (hq : AllowsQuiet ok kept)

include hq

theorem shares_accept (s : State) (he : Exist kept s.heap)
    (hdata : data ∉ kept) (hlt : data < s.heap.refs.length) (read write : Bool) :
    Shares ok s read write (s.accept data read write) := by
  have hlack := moves_lacksRead hq s he data
  unfold State.accept
  split
  · next s₁ e =>
    rw [e] at hlack
    exact hlack
  · next s₁ e =>
    rw [e] at hlack
    obtain ⟨n, hpush⟩ := pushed_hold hq s₁ (he.steps hlack.steps) data read write
    have hpush := hlack.pushed hpush
    split
    next s₂ address e₂ =>
    rw [e₂] at hpush
    have href := moves_refused hq s₂ (he.steps hpush.steps) hdata
    have hne : data ∉ [n] := by
      have := hpush.fresh
      simp
      omega
    have hrefn := moves_refused (allowsQuiet_foreign [n]) s₂ hpush.rights.exist hne
    split
    · next s₃ e₃ =>
      rw [e₃] at href hrefn
      exact (hpush.moves href hrefn).pop hq he
    · next s₃ e₃ =>
      rw [e₃] at href hrefn
      exact ⟨n, hpush.moves href hrefn⟩

theorem shares_shareRef (s : State) (he : Exist kept s.heap) (hdata : data ∉ kept)
    (hlt : data < s.heap.refs.length) (read write : Bool) (reaction : Reaction)
    (hops : Permitted ok exec reaction.ops (s.accept data read write).1.referring)
    (hnew : ∀ op ∈ reaction.ops, Foreign (s.accept data read write).1.holders op) :
    Shares ok s read write (s.shareRef data read write reaction) := by
  have haccept := shares_accept hq s he hdata hlt read write
  unfold State.shareRef
  split
  · next s₁ e h₁ =>
    rw [h₁] at haccept
    exact haccept
  · next s₁ address h₁ =>
    rw [h₁] at haccept hops hnew
    obtain ⟨n, hpush⟩ := haccept
    have hnot := moves_notify hq s₁ (he.steps hpush.steps) "sharing" reaction hops
    have hforeign : ∀ op ∈ reaction.ops, Foreign [n] op := by
      intro op hop r hr hmem
      refine hnew op hop r hr ?_
      rw [hpush.same, List.mem_singleton.mp hmem]
      exact List.mem_cons_self
    have hnotn := moves_notify (allowsQuiet_foreign [n]) s₁ hpush.rights.exist "sharing" reaction
      (permitted_of_forall _ _ hforeign)
    split
    · next s₂ e h₂ =>
      rw [h₂] at hnot hnotn
      exact (hpush.moves hnot hnotn).pop hq he
    · next s₂ h₂ =>
      rw [h₂] at hnot hnotn
      exact ⟨n, hpush.moves hnot hnotn⟩

end

theorem Shares.inContext {outcome : Outcome α} (h : Shares ok s read write outcome)
    (context : String) : Shares ok s read write (inContext context outcome) := by
  obtain ⟨s', e | a⟩ := outcome <;> exact h

section

variable (hq : AllowsQuiet ok kept)

include hq

/-- A local reference made before the share ends its life after it. -/
theorem Shares.leave {s₀ : State} {result : Except Failure α} (he : Exist kept s₀.heap)
    (hm : Moves ok s₀ s) (h : Shares ok s read write (s', result)) (hr : s₀.heap.refs.length ≤ r)
    (hlt : r < s.heap.refs.length) : Shares ok s₀ read write (s'.leave r, result) := by
  have hleave := moves_leave hq s' (he.fresh hr)
  cases result with
  | error => exact (hm.trans h).trans hleave
  | ok =>
    obtain ⟨n, hpush⟩ := h
    have hne : r ∉ [n] := by
      have := hpush.fresh
      simp
      omega
    exact ⟨n, (hm.pushed hpush).moves hleave (moves_leave (allowsQuiet_foreign [n]) s' hne)⟩

theorem shares_share (s : State) (he : Exist kept s.heap) (r : Nat) (read write : Bool)
    (reaction : Reaction) (hops : Permitted ok exec reaction.ops (s.sharing r read write).referring)
    (hnew : ∀ op ∈ reaction.ops, Foreign (s.sharing r read write).holders op) :
    Shares ok s read write (s.share r read write reaction) := by
  have hcopy : Moves ok s { s with heap := s.heap.copyRef r false false } :=
    ⟨rfl, steps_copyRef hq s.heap r false false⟩
  have hlt := (hasRights_linkNew s.heap false false (s.heap.getContent r)).lt
  have hshare := shares_shareRef hq { s with heap := s.heap.copyRef r false false }
    (he.steps hcopy.steps) (he.fresh (Nat.le_refl s.heap.refs.length)) hlt read write reaction
    hops hnew
  exact (hshare.leave hq he hcopy (Nat.le_refl _) hlt).inContext _

end

theorem create_eq_ok {made : Heap} {readable writable : Bool} {type : Datatype}
    (he : h.create read write data type readable writable = .ok made) :
    made = exec (.create read write data type readable writable) h ∧
      made.refs.length = h.refs.length + 1 := by
  refine ⟨by simp only [exec, he], ?_⟩
  unfold Heap.create at he
  split at he
  · cases he
  · split at he <;> cases he
    · simp [Heap.newRef]
    · simp

theorem shares_shareData (hq : AllowsQuiet ok kept) (s : State) (he : Exist kept s.heap)
    (data : Nat) (type : Except Failure Datatype) (read write : Bool) (reaction : Reaction)
    (hcreate : ∀ t, type = .ok t → ok (.create false false data t read write) s.heap)
    (hrelease : ∀ t made, type = .ok t → s.heap.create false false data t read write = .ok made →
      ok (.release s.heap.refs.length)
        (({ s with heap := made } : State).share s.heap.refs.length false false reaction).1.heap)
    (hops : Permitted ok exec (Call.callbacks s (.shareData data type read write reaction)).2
      (Call.callbacks s (.shareData data type read write reaction)).1.referring)
    (hnew : ∀ op ∈ (Call.callbacks s (.shareData data type read write reaction)).2,
      Foreign (Call.callbacks s (.shareData data type read write reaction)).1.holders op) :
    Shares ok s false false (s.shareData data type read write reaction) := by
  cases type with
  | error => exact Moves.refl s
  | ok t =>
    unfold State.shareData
    apply Shares.inContext
    dsimp only
    split
    · exact Moves.refl s
    · next made hmade =>
      simp only [Call.callbacks, hmade] at hops hnew
      obtain ⟨hexec, hlen⟩ := create_eq_ok hmade
      have hmove : Moves ok s { s with heap := made } :=
        ⟨rfl, by rw [hexec]; exact Steps.one _ (hcreate t rfl)⟩
      have hshare := shares_share hq { s with heap := made } (he.steps hmove.steps)
        s.heap.refs.length false false reaction hops hnew
      split
      · next s₁ address h₁ =>
        rw [h₁] at hshare
        have := hshare.leave hq he hmove (Nat.le_refl s.heap.refs.length)
          (show _ < made.refs.length by omega)
        exact this
      · next s₁ e h₁ =>
        rw [h₁] at hshare
        have hm := hmove.trans hshare
        have hok := hrelease t made rfl hmade
        rw [h₁] at hok
        have hrel : Moves ok s₁ { s₁ with heap := (s₁.heap.release s.heap.refs.length).1 } :=
          ⟨rfl, Steps.one (.release s.heap.refs.length) hok⟩
        exact (hm.trans hrel).trans (moves_leave hq _ (he.fresh (Nat.le_refl _)))

end Pdi.Descriptor
