import Pdi.ReferenceQuiet

/-!
# The rights that can be had

Whether a copy of a reference with other rights is null is known beforehand from
the locks of the data.
-/
namespace Pdi.Reference

open Pdi.Datatypes

variable {h : Heap} {r : Nat} {read write : Bool}

/-- The data of reference `r` is not null and not locked against these rights. -/
def unlocked (h : Heap) (r : Nat) (read write : Bool) : Bool :=
  match h.content? r with
  | none => false
  | some k =>
    match h.buffers[k.buffer]? with
    | none => false
    | some b => k.data != 0 && !((read && b.readLocks != 0) || (write && b.writeLocks != 0))

theorem unlocked_iff :
    unlocked h r read write = true ↔ ∃ k b, h.content? r = some k ∧
      h.buffers[k.buffer]? = some b ∧ k.data ≠ 0 ∧
      ((read && b.readLocks != 0) || (write && b.writeLocks != 0)) = false := by
  unfold unlocked
  cases h.content? r with
  | none => simp
  | some k => cases hb : h.buffers[k.buffer]? <;> cases read <;> cases write <;> simp [hb]

theorem unlocked_mono (hu : unlocked h r read write = true) : unlocked h r false false = true := by
  obtain ⟨k, b, hk, hb, hd, _⟩ := unlocked_iff.mp hu
  exact unlocked_iff.mpr ⟨k, b, hk, hb, hd, rfl⟩

theorem copyRef_unlocked (hu : unlocked h r read write = true) : ∃ c k, h.content? r = some k ∧
      h.contents[c]? = some k ∧ h.copyRef r read write =
        ((h.newRef read write).setRef h.refs.length (some ⟨read, write, some c⟩)).modifyBuffer
          k.buffer (addLocks ⟨read, write, none⟩ 1) := by
  obtain ⟨k, b, hk, hb, hd, hlocks⟩ := unlocked_iff.mp hu
  obtain ⟨x, c, hx, hc, hcon⟩ := content?_eq_some.mp hk
  refine ⟨c, k, hk, hcon, ?_⟩
  rw [Heap.copyRef, getContent_of hx hc hcon hd, linkNew_eq read write hcon hd hb, hlocks]
  rfl

theorem copyRef_locked (hu : unlocked h r read write = false) :
    h.copyRef r read write = h.newRef read write := by
  unfold Heap.copyRef
  cases hc : h.getContent r with
  | none => rfl
  | some c =>
    obtain ⟨x, k, hx, hxc, hcon, hd⟩ := getContent_eq_some hc
    have hk : h.content? r = some k := content?_eq_some.mpr ⟨x, c, hx, hxc, hcon⟩
    cases hb : h.buffers[k.buffer]? with
    | none =>
      rw [Heap.linkNew, Heap.link, ref?_newRef_self]
      simp [Heap.newRef, hcon, hb]
    | some b =>
      have hlocks : ((read && b.readLocks != 0) || (write && b.writeLocks != 0)) = true := by
        cases he : (read && b.readLocks != 0) || (write && b.writeLocks != 0) with
        | true => rfl
        | false => exact absurd (unlocked_iff.mpr ⟨k, b, hk, hb, hd, he⟩) (by simp [hu])
      rw [linkNew_eq read write hcon hd hb, hlocks]
      rfl

/-- A reference is null exactly when the data is locked. -/
theorem content?_copyRef (h : Heap) (r : Nat) (read write : Bool) :
    (h.copyRef r read write).content? h.refs.length =
      if unlocked h r read write then h.content? r else none := by
  split
  · next hu =>
    obtain ⟨c, k, hk, hcon, e⟩ := copyRef_unlocked hu
    rw [e, hk]
    exact content?_eq_some.mpr ⟨_, c, ref?_setRef_self (ref?_newRef_self h read write) _, rfl, hcon⟩
  · next hu =>
    rw [copyRef_locked (by simpa using hu)]
    exact content?_newRef_self h read write

/-- One that is null is no obstacle to others. -/
theorem unlocked_newRef (h : Heap) (read write : Bool) (r : Nat) (read' write' : Bool) :
    unlocked (h.newRef read write) r read' write' = unlocked h r read' write' := by
  have hcon : (h.newRef read write).content? r = h.content? r := by
    obtain hlt | hlt := Nat.lt_or_ge r h.refs.length
    · rw [Heap.content?, Heap.content?, ref?_newRef_old h read write hlt]
      rfl
    · have hnone : h.content? r = none := by
        simp [Heap.content?, Heap.ref?, List.getElem?_eq_none hlt]
      cases hnew : (h.newRef read write).content? r with
      | none => exact hnone.symm
      | some =>
        obtain ⟨x, c, hx, hc, hk⟩ := content?_eq_some.mp hnew
        obtain hx | ⟨rfl, rfl⟩ := ref?_newRef hx
        · rw [content?_eq_some.mpr ⟨x, c, hx, hc, hk⟩] at hnone
          cases hnone
        · cases hc
  rw [unlocked, unlocked, hcon]
  rfl

/-- A copy without rights can be given the same rights. -/
theorem unlocked_copyRef_free (hu : unlocked h r read write = true) :
    unlocked (h.copyRef r false false) h.refs.length read write = true := by
  have hcopy := content?_copyRef h r false false
  rw [unlocked_mono hu, if_pos rfl] at hcopy
  obtain ⟨_, k', hk', _, e⟩ := copyRef_unlocked (unlocked_mono hu)
  obtain ⟨k, b, hk, hb, hd, hlocks⟩ := unlocked_iff.mp hu
  obtain rfl : k' = k := Option.some.inj (hk'.symm.trans hk)
  refine unlocked_iff.mpr ⟨k', b, hcopy.trans hk, ?_, hd, hlocks⟩
  rw [e]
  simp [Heap.modifyBuffer, Heap.setRef, Heap.newRef, hb, addLocks]

end Pdi.Reference
