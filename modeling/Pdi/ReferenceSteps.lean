import Mathlib.Logic.Relation
import Pdi.Reference

/-!
# What an operation on references consists of

Every operation is a sequence of ten primitive changes of the heap. An invariant
is therefore shown for the primitive changes, each under the condition it is made
under, and holds after every operation.
-/
namespace Pdi.Reference

open Pdi.Memory Pdi.Datatypes

variable {h : Heap} {r s c : Nat} {x : Ref} {k : Content} {P : Heap → Prop}

theorem ref?_eq_some : h.ref? r = some x ↔ h.refs[r]? = some (some x) := by
  simp [Heap.ref?, Option.join_eq_some_iff]

theorem content?_eq_some :
    h.content? r = some k ↔
      ∃ x c, h.ref? r = some x ∧ x.content = some c ∧ h.contents[c]? = some k := by
  simp [Heap.content?, Option.bind_eq_some_iff]

theorem ref?_setRef_ne (h : Heap) (y : Option Ref) (hne : s ≠ r) :
    (h.setRef r y).ref? s = h.ref? s := by
  simp [Heap.ref?, Heap.setRef, hne.symm]

theorem ref?_setRef_self (hx : h.ref? r = some x) (y : Option Ref) : (h.setRef r y).ref? r = y := by
  have hlt : r < h.refs.length := (List.getElem?_eq_some_iff.mp (ref?_eq_some.mp hx)).1
  simp [Heap.ref?, Heap.setRef, hlt]

theorem ref?_setRef {y : Option Ref} (hx : (h.setRef r y).ref? s = some x) :
    (s = r ∧ y = some x) ∨ (s ≠ r ∧ h.ref? s = some x) := by
  by_cases he : s = r
  · subst he
    rw [ref?_eq_some, Heap.setRef, List.getElem?_set] at hx
    by_cases hlt : s < h.refs.length <;> simp [hlt] at hx
    exact .inl ⟨rfl, hx⟩
  · rw [ref?_setRef_ne h y he] at hx
    exact .inr ⟨he, hx⟩

theorem ref?_newRef_self (h : Heap) (read write : Bool) :
    (h.newRef read write).ref? h.refs.length = some ⟨read, write, none⟩ := by
  simp [ref?_eq_some, Heap.newRef]

theorem ref?_newRef_lt (read write : Bool) (hx : h.ref? r = some x) :
    (h.newRef read write).ref? r = some x := by
  have hr := ref?_eq_some.mp hx
  rw [ref?_eq_some, Heap.newRef, List.getElem?_append_left (List.getElem?_eq_some_iff.mp hr).1]
  exact hr

theorem ref?_newRef {read write : Bool} (hx : (h.newRef read write).ref? r = some x) :
    h.ref? r = some x ∨ (r = h.refs.length ∧ x = ⟨read, write, none⟩) := by
  rw [ref?_eq_some, Heap.newRef, List.getElem?_append] at hx
  split at hx
  · exact .inl (ref?_eq_some.mpr hx)
  · next hr =>
    by_cases he : r - h.refs.length = 0
    · simp only [he, List.getElem?_cons_zero, Option.some.injEq] at hx
      exact .inr ⟨by omega, hx.symm⟩
    · rw [List.getElem?_eq_none (by simp; omega)] at hx
      simp at hx

theorem content?_newRef_self (h : Heap) (read write : Bool) :
    (h.newRef read write).content? h.refs.length = none := by
  simp [Heap.content?, ref?_newRef_self]

theorem content?_newRef (read write : Bool) (hk : h.content? r = some k) :
    (h.newRef read write).content? r = some k := by
  obtain ⟨x, c, hx, hc, hcon⟩ := content?_eq_some.mp hk
  exact content?_eq_some.mpr ⟨x, c, ref?_newRef_lt read write hx, hc, hcon⟩

theorem content?_addContent (k' : Content) (hk : h.content? r = some k) :
    (h.addContent k').content? r = some k := by
  obtain ⟨x, c, hx, hc, hcon⟩ := content?_eq_some.mp hk
  refine content?_eq_some.mpr ⟨x, c, hx, hc, ?_⟩
  rw [Heap.addContent, List.getElem?_append_left (List.getElem?_eq_some_iff.mp hcon).1]
  exact hcon

theorem collect_cases (h : Heap) (b : Nat) :
    h.collect b = h ∨ h.collect b = { h with freed := b :: h.freed } := by
  unfold Heap.collect
  split
  · exact .inl rfl
  · split
    · split
      · exact .inr rfl
      · exact .inl rfl
    · exact .inl rfl

@[simp] theorem collect_refs (h : Heap) (b : Nat) : (h.collect b).refs = h.refs := by
  obtain e | e := collect_cases h b <;> rw [e]
@[simp] theorem collect_contents (h : Heap) (b : Nat) : (h.collect b).contents = h.contents := by
  obtain e | e := collect_cases h b <;> rw [e]
@[simp] theorem collect_buffers (h : Heap) (b : Nat) : (h.collect b).buffers = h.buffers := by
  obtain e | e := collect_cases h b <;> rw [e]
@[simp] theorem collect_released (h : Heap) (b : Nat) : (h.collect b).released = h.released := by
  obtain e | e := collect_cases h b <;> rw [e]
@[simp] theorem collect_mem (h : Heap) (b : Nat) : (h.collect b).mem = h.mem := by
  obtain e | e := collect_cases h b <;> rw [e]
@[simp] theorem ref?_collect (h : Heap) (b r : Nat) : (h.collect b).ref? r = h.ref? r := by
  simp [Heap.ref?]

/-- The inversion of `unlink`: nothing was linked, or its locks are given back. -/
theorem unlink_cases (h : Heap) (r : Nat) :
    (h.content? r = none ∧ h.unlink r = h) ∨
    ∃ x c k, h.ref? r = some x ∧ x.content = some c ∧ h.contents[c]? = some k ∧
      h.unlink r = ((h.modifyBuffer k.buffer (fun b => addLocks x (-1) (forget r b))).setRef r
        (some { x with content := none })).collect k.buffer := by
  cases hk : h.content? r with
  | none =>
    refine .inl ⟨rfl, ?_⟩
    unfold Heap.unlink
    rw [hk]
    cases h.ref? r <;> rfl
  | some k =>
    obtain ⟨x, c, hx, hc, hcon⟩ := content?_eq_some.mp hk
    refine .inr ⟨x, c, k, hx, hc, hcon, ?_⟩
    simp only [Heap.unlink, hx, hk]

/-- The inversion of `link`: nothing happens, or no lock stood against the
rights of the reference and it gets the content. -/
theorem link_cases (h : Heap) (r c : Nat) :
    h.link r c = h ∨
    ∃ x k b, h.ref? r = some x ∧ h.contents[c]? = some k ∧ h.buffers[k.buffer]? = some b ∧
      k.data ≠ 0 ∧ (x.read = true → b.readLocks = 0) ∧ (x.write = true → b.writeLocks = 0) ∧
      h.link r c =
        (h.setRef r (some { x with content := some c })).modifyBuffer k.buffer (addLocks x 1) := by
  unfold Heap.link
  split
  · next x k hx hk =>
    split
    · next b hb =>
      split
      · exact .inl rfl
      · next hd =>
        split
        · exact .inl rfl
        · next hl =>
          simp only [Bool.or_eq_true, Bool.and_eq_true, bne_iff_ne, ne_eq, not_or, not_and,
            not_not] at hl
          exact .inr ⟨x, k, b, hx, hk, hb, hd, hl.1, hl.2, rfl⟩
    · exact .inl rfl
  · exact .inl rfl

theorem isNull_cases (h : Heap) (r : Nat) :
    (h.content? r = none ∧ h.isNull r = (h, true)) ∨
    ∃ k, h.content? r = some k ∧
      ((k.data = 0 ∧ h.isNull r = (h.unlink r, true)) ∨
        (k.data ≠ 0 ∧ h.isNull r = (h, false))) := by
  unfold Heap.isNull
  cases hk : h.content? r with
  | none => exact .inl ⟨rfl, rfl⟩
  | some k =>
    refine .inr ⟨k, rfl, ?_⟩
    by_cases hd : k.data = 0
    · exact .inl ⟨hd, by simp [hd]⟩
    · exact .inr ⟨hd, by simp [hd]⟩

/-- The inversion of `release`: a null reference is at most unlinked, any other
one is unlinked from its content, nullified before. -/
theorem release_cases (h : Heap) (r : Nat) :
    (h.release r = ((h.isNull r).1, 0) ∧ (h.isNull r).2 = true) ∨
    ∃ x c k, h.ref? r = some x ∧ x.content = some c ∧ h.contents[c]? = some k ∧ k.data ≠ 0 ∧
      h.release r = ((h.nullify c k.buffer).unlink r, k.data) := by
  obtain ⟨_, e⟩ | ⟨k, hk, ⟨_, e⟩ | ⟨hd, e⟩⟩ := isNull_cases h r
  · exact .inl (by simp [Heap.release, e])
  · exact .inl (by simp [Heap.release, e])
  · obtain ⟨⟨read, write, content⟩, c, hx, hc, hcon⟩ := content?_eq_some.mp hk
    obtain rfl : content = some c := hc
    refine .inr ⟨_, c, k, hx, rfl, hcon, hd, ?_⟩
    simp [Heap.release, e, hx, hk]

theorem ref?_unlink_ne (h : Heap) (hne : s ≠ r) : (h.unlink r).ref? s = h.ref? s := by
  obtain ⟨_, e⟩ | ⟨x, c, k, _, _, _, e⟩ := unlink_cases h r
  · rw [e]
  · rw [e, ref?_collect, ref?_setRef_ne _ _ hne]
    rfl

theorem ref?_unlink_self (hx : h.ref? r = some x) :
    ∃ y, (h.unlink r).ref? r = some y ∧ y.read = x.read ∧ y.write = x.write := by
  obtain ⟨_, e⟩ | ⟨x', c, k, hx', _, _, e⟩ := unlink_cases h r
  · exact ⟨x, by rw [e, hx], rfl, rfl⟩
  · obtain rfl : x = x' := by rw [hx] at hx'; exact Option.some.inj hx'
    refine ⟨{ x with content := none }, ?_, rfl, rfl⟩
    rw [e, ref?_collect]
    exact ref?_setRef_self (h := h.modifyBuffer _ _) hx _

theorem content?_unlink_self (h : Heap) (r : Nat) : (h.unlink r).content? r = none := by
  obtain ⟨hn, e⟩ | ⟨x, c, k, hx, _, _, e⟩ := unlink_cases h r
  · rw [e, hn]
  · have hs : (h.unlink r).ref? r = some { x with content := none } := by
      rw [e, ref?_collect]
      exact ref?_setRef_self (h := h.modifyBuffer _ _) hx _
    simp [Heap.content?, hs]

/-- What `sameRights` says about two references. -/
theorem sameRights_eq_true (hs : h.sameRights r s = true) :
    ∃ x y, h.ref? r = some x ∧ h.ref? s = some y ∧ x.read = y.read ∧ x.write = y.write := by
  unfold Heap.sameRights at hs
  split at hs
  · next x y hx hy =>
    simp only [Bool.and_eq_true, beq_iff_eq] at hs
    exact ⟨x, y, hx, hy, hs⟩
  · simp at hs

/-- Some reference is linked to buffer `b`. -/
def Heap.Held (h : Heap) (b : Nat) : Prop := ∃ r k, h.content? r = some k ∧ k.buffer = b

/-- What an operation may do besides linking and unlinking references. -/
inductive Effect where
  | quiet | store | alloc | release
  deriving DecidableEq

/-- The primitive changes, with what is known where the operations make them.
Memory is written, data added and a content nullified only by an operation that
is there for it. -/
inductive Primitive (q : Effect) : Heap → Heap → Prop where
  | store (h : Heap) (mem : Mem Byte) (hq : q = .store) : Primitive q h { h with mem := mem }
  | newRef (h : Heap) (read write : Bool) : Primitive q h (h.newRef read write)
  | link (h : Heap) (r c : Nat) (hnull : h.content? r = none)
      (hheld : ∀ k, h.contents[c]? = some k → h.Held k.buffer) : Primitive q h (h.link r c)
  | unlink (h : Heap) (r : Nat) : Primitive q h (h.unlink r)
  | steal (h : Heap) (target source : Nat) (x y : Ref) (hy : h.ref? target = some y)
      (hx : h.ref? source = some x) (hne : target ≠ source) (hnull : h.content? target = none)
      (hread : y.read = x.read) (hwrite : y.write = x.write) : Primitive q h (h.steal target source)
  | drop (h : Heap) (r : Nat) (hnull : h.content? r = none) : Primitive q h (h.setRef r none)
  | notify (h : Heap) (b : Nat) (f : Buffer → List Nat) :
      Primitive q h (h.modifyBuffer b (fun buffer => { buffer with notifications := f buffer }))
  | addContent (h : Heap) (k : Content) (hheld : h.Held k.buffer) : Primitive q h (h.addContent k)
  | allocRef (h : Heap) (read write : Bool) (data : Nat) (type : Datatype)
      (readable writable : Bool) (hq : q = .alloc) :
      Primitive q h (h.allocRef read write data type readable writable)
  | nullify (h : Heap) (r c : Nat) (k : Content) (x : Ref) (hx : h.ref? r = some x)
      (hc : x.content = some c) (hk : h.contents[c]? = some k) (hq : q = .release) :
      Primitive q h (h.nullify c k.buffer)

abbrev Primitives (q : Effect) : Heap → Heap → Prop := Relation.ReflTransGen (Primitive q)

variable {q : Effect}

theorem primitives_isNull (h : Heap) (r : Nat) : Primitives q h (h.isNull r).1 := by
  obtain ⟨_, e⟩ | ⟨k, _, ⟨_, e⟩ | ⟨_, e⟩⟩ := isNull_cases h r
  · rw [e]
  · rw [e]
    exact .single (.unlink h r)
  · rw [e]

theorem primitives_linkNew (h : Heap) (read write : Bool) (c : Option Nat)
    (hheld : ∀ i k, c = some i → h.contents[i]? = some k → h.Held k.buffer) :
    Primitives q h (h.linkNew read write c) := by
  cases c with
  | none => exact .single (.newRef h read write)
  | some c =>
    refine .tail (.single (.newRef h read write)) (.link _ _ c (content?_newRef_self h _ _) ?_)
    intro k hk
    obtain ⟨r, k', hr, hb⟩ := hheld c k rfl hk
    exact ⟨r, k', content?_newRef read write hr, hb⟩

theorem getContent_eq_some (hc : h.getContent r = some c) :
    ∃ x k, h.ref? r = some x ∧ x.content = some c ∧ h.contents[c]? = some k ∧ k.data ≠ 0 := by
  unfold Heap.getContent at hc
  split at hc
  · next x k hx hk =>
    split at hc
    · simp at hc
    · next hd =>
      obtain ⟨x', d, hx', hd', hcon⟩ := content?_eq_some.mp hk
      obtain rfl : x = x' := by rw [hx] at hx'; exact Option.some.inj hx'
      obtain rfl : c = d := by rw [hc] at hd'; exact Option.some.inj hd'
      exact ⟨x, k, hx, hc, hcon, hd⟩
  · simp at hc

theorem held_of_getContent (hc : h.getContent r = some c) (hk : h.contents[c]? = some k) :
    h.Held k.buffer := by
  obtain ⟨x, _, hx, hxc, _, _⟩ := getContent_eq_some hc
  exact ⟨r, k, content?_eq_some.mpr ⟨x, c, hx, hxc, hk⟩, rfl⟩

theorem primitives_copyRef (h : Heap) (source : Nat) (read write : Bool) :
    Primitives q h (h.copyRef source read write) :=
  primitives_linkNew h read write _ (fun _ _ => held_of_getContent)

theorem primitives_destroy (h : Heap) (r : Nat) : Primitives q h (h.destroy r) :=
  .tail (.single (.unlink h r)) (.drop _ r (content?_unlink_self h r))

theorem primitives_moveRef (h : Heap) (source : Nat) : Primitives q h (h.moveRef source) := by
  unfold Heap.moveRef
  cases hx : h.ref? source with
  | none => exact .refl
  | some x =>
    have hlt : source < h.refs.length := (List.getElem?_eq_some_iff.mp (ref?_eq_some.mp hx)).1
    exact .tail (.single (.newRef h x.read x.write))
      (.steal _ _ _ x _ (ref?_newRef_self h _ _) (ref?_newRef_lt _ _ hx) (by omega)
        (content?_newRef_self h _ _) rfl rfl)

theorem primitives_moveAssign (h : Heap) (target source : Nat) :
    Primitives q h (h.moveAssign target source) := by
  unfold Heap.moveAssign
  split
  · exact .refl
  · next hcond =>
    simp only [Bool.or_eq_true, decide_eq_true_eq, Bool.not_eq_true', not_or,
      Bool.not_eq_false] at hcond
    obtain ⟨hne, hsame⟩ := hcond
    obtain ⟨x, y, hx, hy, hread, hwrite⟩ := sameRights_eq_true hsame
    obtain ⟨x', hx', hread', hwrite'⟩ := ref?_unlink_self hx
    have hreset : Primitives q h (h.reset target) := .single (.unlink h target)
    obtain ⟨_, e⟩ | ⟨k, _, ⟨_, e⟩ | ⟨_, e⟩⟩ := isNull_cases (h.reset target) source <;> rw [e]
    · exact hreset
    · exact hreset.tail (.unlink _ source)
    · refine hreset.tail (.steal _ target source y x' hx' ?_ hne (content?_unlink_self h target)
        (hread'.trans hread) (hwrite'.trans hwrite))
      rw [Heap.reset, ref?_unlink_ne h (Ne.symm hne)]
      exact hy

theorem primitives_copyAssign (h : Heap) (target source : Nat) :
    Primitives q h (h.copyAssign target source) := by
  unfold Heap.copyAssign
  split
  · exact .refl
  · have hreset : Primitives q h (h.reset target) := .single (.unlink h target)
    split
    · next c hc =>
      exact hreset.tail (.link _ target c (content?_unlink_self h target)
        (fun _ => held_of_getContent hc))
    · exact hreset

theorem primitives_release (h : Heap) (r : Nat) : Primitives .release h (h.release r).1 := by
  obtain ⟨e, _⟩ | ⟨x, c, k, hx, hc, hk, _, e⟩ := release_cases h r <;> rw [e]
  · exact primitives_isNull h r
  · exact .tail (.single (.nullify h r c k x hx hc hk rfl)) (.unlink _ r)

theorem primitives_onNullify (h : Heap) (r : Nat) : Primitives q h (h.onNullify r) := by
  have hnull := primitives_isNull (q := q) h r
  unfold Heap.onNullify
  split
  · next e => rwa [e] at hnull
  · next e =>
    rw [e] at hnull
    split
    · exact hnull.tail (.notify _ _ (fun b => r :: (forget r b).notifications))
    · exact hnull

theorem primitives_subRef (h : Heap) (r : Nat) (k : Content) (hk : h.content? r = some k)
    (a : Access) : Primitives q h (h.subRef k a).1 := by
  unfold Heap.subRef
  split
  · exact .refl
  · next data type _ =>
    dsimp only
    refine .head (.addContent h ⟨k.buffer, data, type, a.origin k.origin h.contents.length⟩
      ⟨r, k, hk, rfl⟩) (primitives_linkNew _ _ _ _ ?_)
    intro i k' hi hk'
    cases hi
    obtain rfl : ⟨k.buffer, data, type, a.origin k.origin h.contents.length⟩ = k' := by
      simpa [Heap.addContent] using hk'
    exact ⟨r, k, content?_addContent _ hk, rfl⟩

theorem primitives_dereference (h : Heap) (r : Nat) (x : Ref) (k : Content)
    (hk : h.content? r = some k) : Primitives q h (h.dereference r x k).1 := by
  unfold Heap.dereference
  split
  · exact .refl
  · split
    · exact primitives_subRef h r k hk _
    · have hcopy := primitives_copyRef (q := q) h r true false
      dsimp only
      split
      · exact hcopy.trans (primitives_destroy _ _)
      · next k' hk' =>
        exact (hcopy.trans (primitives_subRef _ _ k' hk' _)).trans (primitives_destroy _ _)

theorem primitives_access (h : Heap) (r : Nat) (a : Access) : Primitives q h (h.access r a).1 := by
  have hnull := primitives_isNull (q := q) h r
  unfold Heap.access
  split
  · next e => rwa [e] at hnull
  · next e =>
    rw [e] at hnull
    split
    · next x k _ hk =>
      split
      · exact hnull.trans (primitives_dereference _ r x k hk)
      · exact hnull.trans (primitives_subRef _ r k hk _)
    · exact hnull

def Op.effect : Op → Effect
  | .store _ => .store
  | .create _ _ _ _ _ _ => .alloc
  | .release _ => .release
  | _ => .quiet

/-- Every operation is a sequence of primitive changes. -/
theorem primitives_exec (op : Op) (h : Heap) : Primitives op.effect h (exec op h) := by
  cases op with
  | null read write => exact .single (.newRef h read write)
  | create read write data type readable writable =>
    simp only [exec, Heap.create]
    split
    · next he =>
      split at he
      · cases he
      · split at he <;> cases he
        · exact .single (.newRef h read write)
        · exact .single (.allocRef h read write data type readable writable rfl)
    · exact .refl
  | copy source read write => exact primitives_copyRef h source read write
  | move source => exact primitives_moveRef h source
  | moveAssign target source => exact primitives_moveAssign h target source
  | copyAssign target source => exact primitives_copyAssign h target source
  | reset r => exact .single (.unlink h r)
  | destroy r => exact primitives_destroy h r
  | isNull r => exact primitives_isNull h r
  | onNullify r => exact primitives_onNullify h r
  | access r a => exact primitives_access h r a
  | release r => exact primitives_release h r
  | store mem => exact .single (.store h mem rfl)

theorem invariant_primitives (hstep : ∀ h h', Primitive q h h' → P h → P h') {h' : Heap}
    (hs : Primitives q h h') (hp : P h) : P h' := by
  induction hs with
  | refl => exact hp
  | tail _ hlast ih => exact hstep _ _ hlast ih

/-- What every primitive change keeps, every sequence of operations keeps. -/
theorem invariant_run (hstep : ∀ q h h', Primitive q h h' → P h → P h') (ops : List Op) (h : Heap)
    (hp : P h) : P (Pdi.Run.run exec ops h) := by
  refine Pdi.Run.run_invariant ?_ ops h hp
  intro op g hg
  exact invariant_primitives (hstep op.effect) (primitives_exec op g) hg

end Pdi.Reference
