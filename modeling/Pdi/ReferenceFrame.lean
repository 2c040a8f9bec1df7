import Pdi.ReferenceSteps

/-!
# What operations leave alone

An operation changes the references it names and makes new ones; every other
reference stays as it is. `Steps ok` relates two heaps when operations that are
`ok` where they are carried out lead from one to the other.
-/
namespace Pdi.Reference

open Pdi.Memory Pdi.Datatypes Pdi.Run

variable {s r : Nat} {q : Effect} {ok : Op → Heap → Prop} {kept : List Nat}

/-- The references that an operation may change. -/
def Op.touches : Op → List Nat
  | .null _ _ | .create _ _ _ _ _ _ | .copy _ _ _ | .store _ => []
  | .move source => [source]
  | .moveAssign target source => [target, source]
  | .copyAssign target _ => [target]
  | .reset r | .destroy r | .isNull r | .onNullify r | .access r _ | .release r => [r]

section

variable (h : Heap)

include h

theorem ref?_newRef_old (read write : Bool) (hs : s < h.refs.length) :
    (h.newRef read write).ref? s = h.ref? s := by
  simp [Heap.ref?, Heap.newRef, List.getElem?_append_left hs]

theorem ref?_link_ne (c : Nat) (hne : s ≠ r) : (h.link r c).ref? s = h.ref? s := by
  obtain e | ⟨_, _, _, _, _, _, _, _, _, e⟩ := link_cases h r c
  · rw [e]
  · rw [e]
    exact ref?_setRef_ne h _ hne

theorem ref?_steal_ne {target source : Nat} (ht : s ≠ target) (hs : s ≠ source) :
    (h.steal target source).ref? s = h.ref? s := by
  unfold Heap.steal
  split
  · rw [ref?_setRef_ne _ _ hs, ref?_setRef_ne _ _ ht]
    rfl
  · rfl

theorem ref?_isNull_ne (hne : s ≠ r) : (h.isNull r).1.ref? s = h.ref? s := by
  obtain ⟨_, e⟩ | ⟨_, _, ⟨_, e⟩ | ⟨_, e⟩⟩ := isNull_cases h r <;> rw [e]
  exact ref?_unlink_ne h hne

theorem ref?_destroy_ne (hne : s ≠ r) : (h.destroy r).ref? s = h.ref? s := by
  rw [Heap.destroy, ref?_setRef_ne _ _ hne]
  exact ref?_unlink_ne h hne

theorem ref?_linkNew_old (read write : Bool) (c : Option Nat) (hs : s < h.refs.length) :
    (h.linkNew read write c).ref? s = h.ref? s := by
  cases c with
  | none => exact ref?_newRef_old h read write hs
  | some c =>
    rw [Heap.linkNew, ref?_link_ne _ c (by omega)]
    exact ref?_newRef_old h read write hs

theorem ref?_copyRef_old (source : Nat) (read write : Bool) (hs : s < h.refs.length) :
    (h.copyRef source read write).ref? s = h.ref? s := ref?_linkNew_old h read write _ hs

theorem ref?_allocRef_old (read write : Bool) (data : Nat) (type : Datatype)
    (readable writable : Bool) (hs : s < h.refs.length) :
    (h.allocRef read write data type readable writable).ref? s = h.ref? s := by
  rw [Heap.allocRef, ref?_collect]
  exact ref?_linkNew_old (h.alloc data type readable writable) read write _ hs

theorem ref?_release_ne (hne : s ≠ r) : (h.release r).1.ref? s = h.ref? s := by
  obtain ⟨e, _⟩ | ⟨_, c, k, _, _, _, _, e⟩ := release_cases h r <;> rw [e]
  · exact ref?_isNull_ne h hne
  · exact ref?_unlink_ne (h.nullify c k.buffer) hne

theorem ref?_subRef_old (k : Content) (a : Access) (hs : s < h.refs.length) :
    (h.subRef k a).1.ref? s = h.ref? s := by
  unfold Heap.subRef
  split
  · rfl
  · exact ref?_linkNew_old (h.addContent _) false false _ hs

@[simp] theorem length_refs_link (r c : Nat) : (h.link r c).refs.length = h.refs.length := by
  obtain e | ⟨_, _, _, _, _, _, _, _, _, e⟩ := link_cases h r c <;> rw [e]
  simp [Heap.modifyBuffer, Heap.setRef]

@[simp] theorem length_refs_linkNew (read write : Bool) (c : Option Nat) :
    (h.linkNew read write c).refs.length = h.refs.length + 1 := by
  cases c <;> simp [Heap.linkNew] <;> simp [Heap.newRef]

@[simp] theorem length_refs_copyRef (source : Nat) (read write : Bool) :
    (h.copyRef source read write).refs.length = h.refs.length + 1 := by
  simp [Heap.copyRef]

@[simp] theorem length_refs_unlink (r : Nat) : (h.unlink r).refs.length = h.refs.length := by
  obtain ⟨_, e⟩ | ⟨_, _, _, _, _, _, e⟩ := unlink_cases h r <;> rw [e]
  simp [Heap.modifyBuffer, Heap.setRef]

@[simp] theorem length_refs_destroy (r : Nat) : (h.destroy r).refs.length = h.refs.length := by
  simp [Heap.destroy, Heap.reset, Heap.setRef]

@[simp] theorem length_refs_allocRef (read write : Bool) (data : Nat) (type : Datatype)
    (readable writable : Bool) :
    (h.allocRef read write data type readable writable).refs.length = h.refs.length + 1 := by
  simp [Heap.allocRef, Heap.alloc, Heap.addContent]

end

theorem length_refs_primitive {h h' : Heap} (hs : Primitive q h h') :
    h.refs.length ≤ h'.refs.length := by
  cases hs with
  | newRef | drop => simp [Heap.newRef, Heap.setRef]
  | link | unlink | allocRef => simp
  | steal =>
    unfold Heap.steal
    split <;> simp [Heap.modifyBuffer, Heap.setRef]
  | store | notify | addContent | nullify => exact Nat.le_refl _

theorem length_refs_primitives {h h' : Heap} (hs : Primitives q h h') :
    h.refs.length ≤ h'.refs.length := by
  induction hs with
  | refl => exact Nat.le_refl _
  | tail _ hlast ih => exact ih.trans (length_refs_primitive hlast)

theorem length_refs_exec (op : Op) (h : Heap) : h.refs.length ≤ (exec op h).refs.length :=
  length_refs_primitives (primitives_exec op h)

theorem ref?_dereference_old (h : Heap) (r : Nat) (x : Ref) (k : Content) (hs : s < h.refs.length) :
    (h.dereference r x k).1.ref? s = h.ref? s := by
  have hcopy := ref?_copyRef_old h r true false hs
  have hs' : s < (h.copyRef r true false).refs.length :=
    Nat.lt_of_lt_of_le hs (length_refs_primitives (q := .quiet) (primitives_copyRef h r true false))
  unfold Heap.dereference
  split
  · rfl
  · split
    · exact ref?_subRef_old h k _ hs
    · dsimp only
      split
      · rw [ref?_destroy_ne _ (by omega), hcopy]
      · rw [ref?_destroy_ne _ (by omega), ref?_subRef_old _ _ _ hs', hcopy]

theorem ref?_access_ne (h : Heap) (r : Nat) (a : Access) (hne : s ≠ r) (hs : s < h.refs.length) :
    (h.access r a).1.ref? s = h.ref? s := by
  have hnull := ref?_isNull_ne h hne
  have hlen := length_refs_primitives (q := .quiet) (primitives_isNull h r)
  unfold Heap.access
  split
  · next h' e => rwa [e] at hnull
  · next h' e =>
    rw [e] at hnull hlen
    have hs' : s < h'.refs.length := by simp only at hlen; omega
    split
    · next x k _ hk =>
      split
      · rw [ref?_dereference_old h' r x k hs']
        exact hnull
      · rw [ref?_subRef_old h' k _ hs']
        exact hnull
    · exact hnull

/-- An operation leaves every reference alone that it does not name. -/
theorem ref?_exec (op : Op) (h : Heap) (hs : s < h.refs.length) (hop : s ∉ op.touches) :
    (exec op h).ref? s = h.ref? s := by
  cases op with
  | null read write => exact ref?_newRef_old h read write hs
  | create read write data type readable writable =>
    simp only [exec, Heap.create]
    split
    · next he =>
      split at he
      · cases he
      · split at he <;> cases he
        · exact ref?_newRef_old h read write hs
        · exact ref?_allocRef_old h read write data type readable writable hs
    · rfl
  | copy source read write => exact ref?_copyRef_old h source read write hs
  | move source =>
    have hne : s ≠ source := by simpa [Op.touches] using hop
    simp only [exec, Heap.moveRef]
    split
    · rw [ref?_steal_ne _ (by omega) hne]
      exact ref?_newRef_old h _ _ hs
    · rfl
  | moveAssign target source =>
    have hne : s ≠ target ∧ s ≠ source := by simpa [Op.touches] using hop
    simp only [exec, Heap.moveAssign]
    split
    · rfl
    · split
      · rw [ref?_isNull_ne _ hne.2]
        exact ref?_unlink_ne h hne.1
      · rw [ref?_steal_ne _ hne.1 hne.2, ref?_isNull_ne _ hne.2]
        exact ref?_unlink_ne h hne.1
  | copyAssign target =>
    have hne : s ≠ target := by simpa [Op.touches] using hop
    simp only [exec, Heap.copyAssign]
    split
    · rfl
    · split
      · rw [ref?_link_ne _ _ hne]
        exact ref?_unlink_ne h hne
      · exact ref?_unlink_ne h hne
  | reset => exact ref?_unlink_ne h (by simpa [Op.touches] using hop)
  | destroy => exact ref?_destroy_ne h (by simpa [Op.touches] using hop)
  | isNull => exact ref?_isNull_ne h (by simpa [Op.touches] using hop)
  | onNullify r =>
    have hnull := ref?_isNull_ne h (s := s) (r := r) (by simpa [Op.touches] using hop)
    simp only [exec, Heap.onNullify]
    split
    · next e => rwa [e] at hnull
    · next e =>
      rw [e] at hnull
      split <;> exact hnull
  | access r a => exact ref?_access_ne h r a (by simpa [Op.touches] using hop) hs
  | release => exact ref?_release_ne h (by simpa [Op.touches] using hop)
  | store => rfl

/-- Some operations, each `ok` in the heap it is carried out in, lead from one
heap to the other. -/
abbrev Steps (ok : Op → Heap → Prop) : Heap → Heap → Prop :=
  Relation.ReflTransGen (fun h h' => ∃ op, ok op h ∧ exec op h = h')

theorem Steps.one {ok : Op → Heap → Prop} {h : Heap} (op : Op) (hop : ok op h) :
    Steps ok h (exec op h) := .single ⟨op, hop, rfl⟩

theorem Steps.invariant {P : Heap → Prop} (hstep : ∀ op h, ok op h → P h → P (exec op h))
    {h h' : Heap} (hs : Steps ok h h') (hp : P h) : P h' := by
  induction hs with
  | refl => exact hp
  | tail _ hlast ih =>
    obtain ⟨op, hop, rfl⟩ := hlast
    exact hstep op _ hop ih

theorem Steps.mono {ok' : Op → Heap → Prop} (hok : ∀ op h, ok op h → ok' op h) {h h' : Heap}
    (hs : Steps ok h h') : Steps ok' h h' := by
  induction hs with
  | refl => exact .refl
  | tail _ hlast ih =>
    obtain ⟨op, hop, rfl⟩ := hlast
    exact ih.trans (Steps.one op (hok op _ hop))

/-- A run whose operations are all `ok` where they are carried out. -/
theorem steps_run (ops : List Op) (h : Heap) (hops : Permitted ok exec ops h) :
    Steps ok h (run exec ops h) := by
  induction ops generalizing h with
  | nil => exact .refl
  | cons op ops ih => exact (Steps.one op hops.1).trans (ih _ hops.2)

/-- The operation changes none of the references `kept`. -/
def Foreign (kept : List Nat) (op : Op) : Prop := ∀ r ∈ op.touches, r ∉ kept

theorem Foreign.mono {kept' : List Nat} {op : Op} (hf : Foreign kept op)
    (h : ∀ r ∈ kept', r ∈ kept) : Foreign kept' op := fun r hr hmem => hf r hr (h r hmem)

/-- Operations that change none of the references `kept` leave them as they are. -/
theorem Steps.ref? (hok : ∀ op h, ok op h → Foreign kept op) {h h' : Heap} (hs : Steps ok h h')
    (hr : r ∈ kept) (hlt : r < h.refs.length) : r < h'.refs.length ∧ h'.ref? r = h.ref? r := by
  refine Steps.invariant (P := fun g => r < g.refs.length ∧ g.ref? r = h.ref? r) ?_ hs ⟨hlt, rfl⟩
  intro op g hop ⟨hlen, hg⟩
  refine ⟨Nat.lt_of_lt_of_le hlen (length_refs_exec op g), ?_⟩
  rw [ref?_exec op g hlen (fun hmem => hok op g hop r hmem hr), hg]

end Pdi.Reference
