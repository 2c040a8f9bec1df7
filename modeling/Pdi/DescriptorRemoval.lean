import Pdi.DescriptorSteps
import Pdi.ReferenceQuiet

/-!
# What a removal consists of

`release` and `reclaim` after their notification, taken apart: either the top of
the stack is popped, or the last reference and the placeholder are both popped
and a new placeholder is made. A reclaim makes it from a copy of the data, and
it is known beforehand when that copy throws.
-/
namespace Pdi.Descriptor

open Pdi.Align Pdi.Memory Pdi.Datatypes Pdi.Reference Pdi.Run

variable {ok : Op → Heap → Prop} {kept rest : List Nat} {s : State}
  {top buffer copy source data : Nat} {h : Heap} {functions : CopyFunctions}

theorem allowsQuiet_any (kept : List Nat) : AllowsQuiet (fun _ _ => True) kept :=
  fun _ _ _ _ => trivial

/-- Whether a removal leaves nothing but the placeholder. -/
def State.last (s : State) : Bool := s.metadata && s.holders.length == 2

theorem takeTop_eq (hh : s.holders = top :: rest) :
    s.takeTop = { s with heap := s.referring.destroy top, holders := rest } := by
  simp [State.takeTop, State.pop, hh]

theorem placeholderLeft_takeTop (hh : s.holders = top :: rest) :
    s.takeTop.placeholderLeft = s.last := by
  rw [takeTop_eq hh, State.placeholderLeft, State.last, hh]
  cases s.metadata <;> simp [Bool.beq_eq_decide_eq]

theorem last_iff : s.last = true ↔ s.metadata = true ∧ s.holders.length = 2 := by
  simp [State.last]

theorem State.last.holders (h : s.last = true) : ∃ top p, s.holders = [top, p] := by
  have hlen := (last_iff.mp h).2
  match hh : s.holders with
  | [top, p] => exact ⟨top, p, rfl⟩
  | [] | [_] | _ :: _ :: _ :: _ => simp [hh] at hlen

theorem drop_above (hh : s.holders = top :: rest) (hl : s.last = false) :
    s.drop = { s with
      heap := (s.referring.destroy top).destroy s.heap.refs.length
      holders := rest } := by
  simp only [State.drop, placeholderLeft_takeTop hh, hl]
  rw [takeTop_eq hh]
  rfl

/-- The heap when the last reference and the placeholder have been popped. -/
def State.emptied (s : State) : Heap :=
  (s.referring.destroy s.top).destroy (s.holders.getLastD 0)

@[simp] theorem length_refs_emptied (s : State) :
    s.emptied.refs.length = s.heap.refs.length + 1 := by
  simp [State.emptied, State.referring]

theorem pop_takeTop (hl : s.last = true) :
    s.takeTop.pop = { s with heap := s.emptied, holders := [] } := by
  obtain ⟨top, p, hh⟩ := State.last.holders hl
  rw [takeTop_eq hh]
  simp [State.pop, State.emptied, State.top, hh]

theorem drop_last (hl : s.last = true) :
    s.drop = { s with
      heap := (s.emptied.copyRef s.heap.refs.length true false).destroy s.heap.refs.length
      holders := [s.heap.refs.length + 1] } := by
  obtain ⟨top, p, hh⟩ := State.last.holders hl
  simp only [State.drop, placeholderLeft_takeTop hh, hl, pop_takeTop hl, State.push, State.leave,
    length_refs_emptied]
  rfl

theorem giveBack_eq (s : State) (oldref : Nat) :
    s.giveBack oldref = ({ s with heap := (s.heap.release oldref).1.destroy oldref },
      .ok (s.heap.release oldref).2) := rfl

theorem takeBack_above (functions : CopyFunctions) (hh : s.holders = top :: rest)
    (hl : s.last = false) (buffer : Nat) :
    s.takeBack functions buffer =
      ({ s with heap := s.referring.destroy top, holders := rest } : State).giveBack
        s.heap.refs.length := by
  simp only [State.takeBack, placeholderLeft_takeTop hh, hl]
  rw [takeTop_eq hh]
  rfl

/-- The copy made for a placeholder, in the heap it is made in. -/
def State.copied (functions : CopyFunctions) (s : State) (buffer : Nat) :
    Heap × Except Failure Nat :=
  copyData functions s.emptied s.heap.refs.length buffer

theorem takeBack_error (functions : CopyFunctions) (hl : s.last = true) {e : Failure}
    (he : (s.copied functions buffer).2 = .error e) :
    s.takeBack functions buffer =
      ({ s with
        heap := (s.copied functions buffer).1.destroy s.heap.refs.length
        holders := [] }, .error e) := by
  obtain ⟨top, p, hh⟩ := State.last.holders hl
  unfold State.copied at he ⊢
  generalize hc : copyData functions s.emptied s.heap.refs.length buffer = c at he ⊢
  obtain ⟨h, result⟩ := c
  obtain rfl : result = .error e := he
  simp only [State.takeBack, placeholderLeft_takeTop hh, hl, pop_takeTop hl, hc]
  rfl

theorem takeBack_ok (functions : CopyFunctions) (hl : s.last = true)
    (he : (s.copied functions buffer).2 = .ok copy) :
    s.takeBack functions buffer =
      ({ s with
        heap := ((s.copied functions buffer).1.copyRef copy true false).destroy copy
        holders := [(s.copied functions buffer).1.refs.length] } : State).giveBack
          s.heap.refs.length := by
  obtain ⟨top, p, hh⟩ := State.last.holders hl
  unfold State.copied at he ⊢
  generalize hc : copyData functions s.emptied s.heap.refs.length buffer = c at he ⊢
  obtain ⟨h, result⟩ := c
  obtain rfl : result = .ok copy := he
  simp only [State.takeBack, placeholderLeft_takeTop hh, hl, pop_takeTop hl, hc]
  rfl

/-- The top of the stack is gone. -/
structure Popped (ok : Op → Heap → Prop) (s s' : State) : Prop where
  same : s'.toDataDescriptor = { s.toDataDescriptor with holders := s.holders.tail }
  steps : Steps ok s.heap s'.heap

/-- The last reference and the placeholder are gone, and there is a new placeholder. -/
structure Replaced (s s' : State) (n : Nat) : Prop where
  same : s'.toDataDescriptor = { s.toDataDescriptor with holders := [n] }
  steps : Steps (fun _ _ => True) s.heap s'.heap
  rights : HasRights s'.heap n true false

theorem Steps.any {h' : Heap} (hs : Steps ok h h') : Steps (fun _ _ => True) h h' :=
  hs.mono fun _ _ _ => trivial

theorem Moves.popped {s' s'' : State} (hm : Moves ok s s') (hp : Popped ok s' s'') :
    Popped ok s s'' := by
  refine ⟨?_, hm.steps.trans hp.steps⟩
  rw [hp.same, hm.same]

theorem Moves.replaced {s' s'' : State} {n : Nat} (hm : Moves ok s s') (hr : Replaced s' s'' n) :
    Replaced s s'' n := by
  refine ⟨?_, (Steps.any hm.steps).trans hr.steps, hr.rights⟩
  rw [hr.same, hm.same]

theorem popped_drop (hq : AllowsQuiet ok kept) (he : Exist kept s.heap)
    (hh : s.holders = top :: rest) (hl : s.last = false) (htop : top ∉ kept) :
    Popped ok s s.drop := by
  rw [drop_above hh hl]
  refine ⟨by rw [hh]; rfl, ?_⟩
  exact ((steps_referring hq s).trans (steps_destroy hq _ htop)).trans
    (steps_destroy hq _ (he.fresh (Nat.le_refl _)))

theorem steps_emptied (s : State) : Steps (fun _ _ => True) s.heap s.emptied :=
  ((steps_referring (allowsQuiet_any []) s).trans
    (steps_destroy (allowsQuiet_any []) _ (by simp))).trans
      (steps_destroy (allowsQuiet_any []) _ (by simp))

theorem replaced_drop (hl : s.last = true) : Replaced s s.drop (s.heap.refs.length + 1) := by
  have hn := hasRights_linkNew s.emptied true false (s.emptied.getContent s.heap.refs.length)
  rw [length_refs_emptied] at hn
  rw [drop_last hl]
  refine ⟨rfl, ?_, ?_⟩
  · exact ((steps_emptied s).trans (steps_copyRef (allowsQuiet_any []) _ _ true false)).trans
      (steps_destroy (allowsQuiet_any []) _ (by simp))
  · exact hn.steps (fun _ _ hf => hf) (List.mem_singleton.mpr rfl)
      (steps_destroy (allowsQuiet_foreign _) _ (by simp))

theorem popped_takeBack (functions : CopyFunctions) (hq : AllowsQuiet ok kept)
    (he : Exist kept s.heap) (hh : s.holders = top :: rest) (hl : s.last = false)
    (htop : top ∉ kept) (buffer : Nat)
    (hrelease : ok (.release s.heap.refs.length) (s.referring.destroy top)) :
    Popped ok s (s.takeBack functions buffer).1 := by
  rw [takeBack_above functions hh hl, giveBack_eq]
  refine ⟨by rw [hh]; rfl, ?_⟩
  exact (((steps_referring hq s).trans (steps_destroy hq _ htop)).trans
    (Steps.one _ hrelease)).trans (steps_destroy hq _ (he.fresh (Nat.le_refl _)))

theorem steps_copyData (functions : CopyFunctions) (he : Exist kept h) (r buffer : Nat) :
    Steps (fun op _ => Foreign kept op) h (copyData functions h r buffer).1 := by
  have hq := allowsQuiet_foreign kept
  have hread := steps_copyRef hq h r true false
  have hleave : ∀ g : Heap, Steps (fun op _ => Foreign kept op) g (g.destroy h.refs.length) :=
    fun g => steps_destroy hq g (he.fresh (Nat.le_refl _))
  have hnull := (hread.trans (steps_newRef hq _ false false)).trans (hleave _)
  unfold copyData
  dsimp only
  split
  · exact hnull
  · split
    · exact hread.trans (hleave _)
    · split
      · exact hread.trans (hleave _)
      · exact hnull
      · next mem data type _ =>
        have hstore := hread.trans (Steps.one (.store mem) (by simp [Foreign, Op.touches]))
        split
        · exact hstore.trans (hleave _)
        · next made hmade =>
          rw [(create_eq_ok hmade).1]
          exact (hstore.trans (Steps.one _ (by simp [Foreign, Op.touches]))).trans (hleave _)

theorem steps_copied (functions : CopyFunctions) (s : State) (buffer : Nat) :
    Steps (fun _ _ => True) s.heap (s.copied functions buffer).1 := by
  have hnone : Exist [] s.emptied := by simp [Exist]
  exact (steps_emptied s).trans (Steps.any (steps_copyData functions hnone _ buffer))

theorem copyData_lt (functions : CopyFunctions) {r : Nat}
    (hc : (copyData functions h r buffer).2 = .ok copy) :
    h.refs.length < copy ∧ copy < (copyData functions h r buffer).1.refs.length := by
  unfold copyData at hc ⊢
  dsimp only at hc ⊢
  split at hc
  · cases hc
    simp [Heap.newRef]
  · split at hc
    · cases hc
    · next hm =>
      rw [if_neg hm]
      split at hc
      · cases hc
      · cases hc
        simp [Heap.newRef]
      · split at hc
        · cases hc
        · next made hmade =>
          cases hc
          simp [(create_eq_ok hmade).2]

theorem replaced_takeBack (functions : CopyFunctions) (hl : s.last = true)
    (hc : (s.copied functions buffer).2 = .ok copy) :
    Replaced s (s.takeBack functions buffer).1 (s.copied functions buffer).1.refs.length := by
  have hlt : s.heap.refs.length + 1 < copy ∧ copy < (s.copied functions buffer).1.refs.length := by
    rw [← length_refs_emptied s]
    exact copyData_lt functions hc
  have hn := hasRights_linkNew (s.copied functions buffer).1 true false
    ((s.copied functions buffer).1.getContent copy)
  have hcopied := steps_copied functions s buffer
  rw [takeBack_ok functions hl hc, giveBack_eq]
  refine ⟨rfl, ?_, ?_⟩
  · exact (((hcopied.trans (steps_copyRef (allowsQuiet_any []) _ _ true false)).trans
      (steps_destroy (allowsQuiet_any []) _ (by simp))).trans
        (Steps.one (.release s.heap.refs.length) trivial)).trans
          (steps_destroy (allowsQuiet_any []) _ (by simp))
  · have hne : ∀ r, r < (s.copied functions buffer).1.refs.length →
        r ∉ [(s.copied functions buffer).1.refs.length] := by
      intro r hr
      simp
      omega
    refine hn.steps (fun _ _ hf => hf) (List.mem_singleton.mpr rfl) ?_
    have hq := allowsQuiet_foreign [(s.copied functions buffer).1.refs.length]
    refine ((steps_destroy hq _ (hne copy hlt.2)).trans (Steps.one (.release s.heap.refs.length)
      ?_)).trans (steps_destroy hq _ (hne _ (by omega)))
    intro r hr
    rw [List.mem_singleton.mp hr]
    exact hne _ (by omega)

theorem le_doCopy {type type' : Datatype} {mem mem' : Mem Byte}
    (hc : doCopy functions type mem source buffer = .ok (some (mem', data, type'))) :
    buffer ≤ data := by
  unfold doCopy at hc
  split at hc
  · cases hc
  · cases hcopy : type.dataToDenseCopy functions mem mem (stdAlign type.densify.alignment
        type.densify.buffersize buffer
        (type.densify.buffersize + (type.densify.alignment - 1))) source with
    | error e =>
      simp only [hcopy, bind, Except.bind] at hc
      cases hc
    | ok result =>
      simp only [hcopy, bind, Except.bind, Except.ok.injEq, Option.some.injEq, Prod.mk.injEq] at hc
      rw [← hc.2.1]
      exact le_stdAlign_block _ _ _

theorem doCopy_ne_zero {type type' : Datatype} {mem mem' : Mem Byte}
    (hm : ¬ outOfMemory type buffer = true)
    (hc : doCopy functions type mem source buffer = .ok (some (mem', data, type'))) : data ≠ 0 := by
  have hle := le_doCopy hc
  have hsize : type.densify.buffersize ≠ 0 := by
    intro hz
    simp [doCopy, hz] at hc
  simp only [outOfMemory, Bool.and_eq_true, bne_iff_ne, ne_eq, hsize, not_false_eq_true,
    true_and, beq_iff_eq] at hm
  omega

/-- Copying data at an address throws: there is no memory left, or `do_copy` throws. -/
def CopyFails (functions : CopyFunctions) (k : Content) (mem : Mem Byte) (buffer : Nat) : Prop :=
  outOfMemory k.type buffer = true ∨ ∃ e, doCopy functions k.type mem k.data buffer = .error e

theorem copyData_error_iff (functions : CopyFunctions) (h : Heap) (r buffer : Nat) :
    (∃ e, (copyData functions h r buffer).2 = .error e) ↔
      ∃ k, (h.copyRef r true false).content? h.refs.length = some k ∧
        CopyFails functions k (h.copyRef r true false).mem buffer := by
  unfold copyData CopyFails
  dsimp only
  split
  · next hnone => simp [hnone]
  · next k hk =>
    simp only [hk, Option.some.injEq, exists_eq_left']
    split
    · next hm => simp [hm]
    · next hm =>
      split
      · next e he => simp [he]
      · next he => simp [he, hm]
      · next mem data type he =>
        have hdata : data ≠ 0 := doCopy_ne_zero hm he
        have hmade : ∃ made, ({ h.copyRef r true false with mem := mem } : Heap).create false false
            data type true true = .ok made := by
          simp [Heap.create, hdata]
        obtain ⟨made, hmade⟩ := hmade
        dsimp only at hmade
        simp only [he, hmade, hm, reduceCtorEq, exists_false, Bool.false_eq_true, or_self]

end Pdi.Descriptor
