import Pdi.ReferenceLifetime

/-!
# Freeing and releasing

The free function of a buffer and the effect of `release`, stated for whole
sequences of operations. Freeing is exact. Releasing is not: it nullifies one
content, and a reference that has another content on the same memory survives.
-/
namespace Pdi.Reference

open Pdi.Memory Pdi.Datatypes Pdi.Ownership

variable {h : Heap} {r : Nat} {k : Content}

/-- Reference `r` is not null, and `k` is its content. -/
def Heap.NonNull (h : Heap) (r : Nat) (k : Content) : Prop := h.content? r = some k ∧ k.data ≠ 0

theorem isNull_eq_false_iff : (h.isNull r).2 = false ↔ ∃ k, h.NonNull r k := by
  obtain ⟨hn, e⟩ | ⟨k, hk, ⟨hd, e⟩ | ⟨hd, e⟩⟩ := isNull_cases h r
  · simp [e, hn, Heap.NonNull]
  · simp [e, hk, Heap.NonNull, hd]
  · simp [e, hk, Heap.NonNull, hd]

theorem release_of_nonNull (hr : h.NonNull r k) :
    ∃ x c, h.ref? r = some x ∧ x.content = some c ∧ h.contents[c]? = some k ∧
      h.release r = ((h.nullify c k.buffer).unlink r, k.data) := by
  obtain ⟨_, hnull⟩ | ⟨x, c, k', hx, hc, hk, _, e⟩ := release_cases h r
  · rw [isNull_eq_false_iff.mpr ⟨k, hr⟩] at hnull
    simp at hnull
  · have hk' : h.content? r = some k' := content?_eq_some.mpr ⟨x, c, hx, hc, hk⟩
    obtain rfl : k' = k := by rw [hr.1] at hk'; exact (Option.some.inj hk').symm
    exact ⟨x, c, hx, hc, hk, e⟩

theorem released_quiet {q : Effect} (hq : q ≠ .release) {h' : Heap} (hs : Primitives q h h') :
    h'.released = h.released := by
  induction hs with
  | refl => rfl
  | tail _ hlast ih =>
    obtain ⟨hrel, _⟩ | ⟨hr, _⟩ := deallocators_primitive hlast
    · rw [hrel, ih]
    · exact absurd hr hq

theorem unlink_released (h : Heap) (r : Nat) : (h.unlink r).released = h.released :=
  released_quiet (q := .quiet) (by decide) (.single (.unlink h r))

theorem mem_released_release (h : Heap) (r b : Nat) :
    b ∈ (h.release r).1.released ↔ b ∈ h.released ∨ ∃ k, h.NonNull r k ∧ k.buffer = b := by
  cases hn : (h.isNull r).2 with
  | true =>
    have hsame : (h.release r).1.released = h.released := by
      obtain ⟨e, _⟩ | ⟨_, _, k, hx, hc, hk, hd, _⟩ := release_cases h r
      · rw [e]
        exact released_quiet (q := .quiet) (by decide) (primitives_isNull h r)
      · have := isNull_eq_false_iff.mpr ⟨k, content?_eq_some.mpr ⟨_, _, hx, hc, hk⟩, hd⟩
        simp [this] at hn
    rw [hsame]
    constructor
    · exact .inl
    · rintro (hb | ⟨k, hk, _⟩)
      · exact hb
      · rw [isNull_eq_false_iff.mpr ⟨k, hk⟩] at hn
        simp at hn
  | false =>
    obtain ⟨k, hk⟩ := isNull_eq_false_iff.mp hn
    obtain ⟨x, c, _, _, _, e⟩ := release_of_nonNull hk
    simp only [e, unlink_released, Heap.nullify, List.mem_cons]
    constructor
    · rintro (rfl | hb)
      · exact .inr ⟨k, hk, rfl⟩
      · exact .inl hb
    · rintro (hb | ⟨k', hk', rfl⟩)
      · exact .inr hb
      · obtain rfl : k = k' := Option.some.inj (hk.1.symm.trans hk'.1)
        exact .inl rfl

/-- An operation puts a buffer on record exactly when it is a release that
returns a pointer. -/
theorem mem_released_exec (op : Op) (h : Heap) (b : Nat) :
    b ∈ (exec op h).released ↔
      b ∈ h.released ∨ ∃ r k, op = .release r ∧ h.NonNull r k ∧ k.buffer = b := by
  by_cases hop : op.effect = .release
  · cases op with
    | release => simp [exec, mem_released_release]
    | _ => simp [Op.effect] at hop
  · rw [released_quiet hop (primitives_exec op h)]
    constructor
    · exact .inl
    · rintro (hb | ⟨r, _, rfl, _⟩)
      · exact hb
      · exact absurd rfl hop

theorem mem_released_run (ops : List Op) (h : Heap) (b : Nat) :
    b ∈ (Pdi.Run.run exec ops h).released ↔ b ∈ h.released ∨
      ∃ before r after k, ops = before ++ .release r :: after ∧
        (Pdi.Run.run exec before h).NonNull r k ∧ k.buffer = b := by
  induction ops generalizing h with
  | nil => simp
  | cons op ops ih =>
    rw [Pdi.Run.run_cons, ih, mem_released_exec]
    constructor
    · rintro ((hb | ⟨r, k, rfl, hk, hkb⟩) | ⟨before, r, after, k, rfl, hk, hkb⟩)
      · exact .inl hb
      · exact .inr ⟨[], r, ops, k, rfl, hk, hkb⟩
      · exact .inr ⟨op :: before, r, after, k, rfl, hk, hkb⟩
    · rintro (hb | ⟨before, r, after, k, hops, hk, hkb⟩)
      · exact .inl (.inl hb)
      · cases before with
        | nil =>
          obtain ⟨rfl, _⟩ := List.cons.inj hops
          exact .inl (.inr ⟨r, k, rfl, hk, hkb⟩)
        | cons op' before =>
          obtain ⟨rfl, rfl⟩ := List.cons.inj hops
          exact .inr ⟨before, r, after, k, rfl, hk, hkb⟩

/-- In the course of `ops`, a release of a reference of buffer `b` has returned
a pointer. -/
def ReleasedDuring (mem : Mem Byte) (ops : List Op) (b : Nat) : Prop :=
  ∃ before r after k, ops = before ++ .release r :: after ∧
    (runFrom mem before).content? r = some k ∧ k.buffer = b ∧
    ((runFrom mem before).release r).2 ≠ 0

theorem releasedDuring_iff (mem : Mem Byte) (ops : List Op) (b : Nat) :
    ReleasedDuring mem ops b ↔ b ∈ (runFrom mem ops).released := by
  have hempty : (Heap.empty mem).released = [] := rfl
  rw [runFrom, mem_released_run, hempty]
  simp only [List.not_mem_nil, false_or]
  constructor
  · rintro ⟨before, r, after, k, hops, hk, hkb, hp⟩
    refine ⟨before, r, after, k, hops, ⟨hk, ?_⟩, hkb⟩
    intro hd
    obtain ⟨e, _⟩ | ⟨x, c, k', hx, hc, hcon, hd', _⟩ := release_cases (runFrom mem before) r
    · simp [e] at hp
    · have hk' := content?_eq_some.mpr ⟨x, c, hx, hc, hcon⟩
      rw [hk] at hk'
      exact hd' (by rw [← Option.some.inj hk']; exact hd)
  · rintro ⟨before, r, after, k, hops, hk, hkb⟩
    obtain ⟨_, _, _, _, _, e⟩ := release_of_nonNull hk
    refine ⟨before, r, after, k, hops, hk.1, hkb, ?_⟩
    rw [runFrom, e]
    exact hk.2

/-- The free function of a buffer is called at most once, not while a reference
of the buffer is not null, not after a release has returned its memory, and
without such a release it has been called once no reference is left. -/
theorem runFrom_deallocation (mem : Mem Byte) (ops : List Op) (b : Nat)
    (hb : b < (runFrom mem ops).buffers.length) :
    (runFrom mem ops).freed.count b ≤ 1 ∧
    (∀ r k, (runFrom mem ops).NonNull r k → k.buffer = b → b ∉ (runFrom mem ops).freed) ∧
    (ReleasedDuring mem ops b → b ∉ (runFrom mem ops).freed) ∧
    (¬ReleasedDuring mem ops b → (∀ r k, (runFrom mem ops).NonNull r k → k.buffer ≠ b) →
      (runFrom mem ops).freed.count b = 1) := by
  have hm := managed_runFrom mem ops
  have hsound := hm.owned.sound b hb
  refine ⟨hsound.at_most_once, ?_, ?_, ?_⟩
  · rintro r k ⟨hk, _⟩ rfl
    exact List.count_eq_zero.mp (hsound.owned (links_pos_of_held ⟨r, k, hk, rfl⟩))
  · intro hrel
    have hnone := (hm.recorded b).mp ((releasedDuring_iff mem ops b).mp hrel)
    refine List.count_eq_zero.mp (hsound.disarmed ?_)
    rw [Heap.deallocators, List.getElem?_map] at hnone
    obtain ⟨buffer, hbuf, hd⟩ := Option.map_eq_some_iff.mp hnone
    simp [Heap.cell, Heap.armed, hbuf, hd]
  · intro hrel hnull
    have hrel' := fun hmem => hrel ((releasedDuring_iff mem ops b).mpr hmem)
    refine hsound.abandoned ?_ ?_
    · by_contra hpos
      obtain ⟨r, k, hk, rfl⟩ := held_of_links (Nat.pos_of_ne_zero hpos)
      have hd : k.data ≠ 0 := fun hd => hrel' (hm.lazilyNull r k hk hd)
      exact hnull r k ⟨hk, hd⟩ rfl
    · have hsome : (runFrom mem ops).buffers[b].deallocator ≠ none := by
        intro hd
        refine hrel' ((hm.recorded b).mpr ?_)
        simp [Heap.deallocators, hb, hd]
      simpa [Heap.cell, Heap.armed, hb, Option.isSome_iff_ne_none] using hsome

/-- A reference and a reader of its second half, both gone in the end. -/
def abandonedArray : List Op :=
  [.create false false 64 (.array typeForInt64 2 0 2 []) true true, .access 0 (.index 1),
    .copy 1 true false, .destroy 0, .destroy 1, .reset 2]

theorem runFrom_deallocation_abandoned :
    (runFrom (fun _ => 0) abandonedArray).freed.count 0 ≤ 1 ∧
      0 < (runFrom (fun _ => 0) abandonedArray).buffers.length ∧
      (runFrom (fun _ => 0) abandonedArray).freed = [0] :=
  ⟨(runFrom_deallocation (fun _ => 0) abandonedArray 0 (by decide)).1, by decide, by decide⟩

/-- The contents of two references lie in the memory of one content, reached
from it by indices, slices and members. -/
def Heap.SameMemory (h : Heap) (r s : Nat) : Prop :=
  ∃ k k', h.content? r = some k ∧ h.content? s = some k' ∧ k'.origin = k.origin

theorem getContent_of_nonNull {c : Nat} {x : Ref} (hr : h.NonNull r k) (hx : h.ref? r = some x)
    (hc : x.content = some c) : h.getContent r = some c := by
  simp [Heap.getContent, hx, hr.1, hr.2, hc]

theorem content?_unlink_ne (h : Heap) {s : Nat} (hne : s ≠ r) :
    (h.unlink r).content? s = h.content? s := by
  have hcon : (h.unlink r).contents = h.contents := by
    obtain ⟨_, e⟩ | ⟨_, _, _, _, _, _, e⟩ := unlink_cases h r <;> simp [e]
  simp only [Heap.content?, ref?_unlink_ne h hne, hcon]

theorem contents_nullify (h : Heap) (c b d : Nat) : (h.nullify c b).contents[d]? =
    h.contents[d]?.map (fun k => if c = d then { k with data := 0 } else k) := by
  simp only [Heap.nullify, Heap.modifyBuffer, Heap.modifyContent, List.getElem?_modify]
  rfl

/-- After a release, the references that are not null are those that were and
have another content than the released one. -/
theorem nonNull_after_release {x : Nat} (hx : h.NonNull x k) (s : Nat) (k' : Content) :
    (h.release x).1.NonNull s k' ↔ h.NonNull s k' ∧ h.getContent s ≠ h.getContent x := by
  obtain ⟨y, c, hy, hc, hcon, e⟩ := release_of_nonNull hx
  rw [e, getContent_of_nonNull hx hy hc]
  constructor
  · rintro ⟨hk', hd'⟩
    have hne : s ≠ x := by
      rintro rfl
      rw [content?_unlink_self] at hk'
      simp at hk'
    rw [content?_unlink_ne _ hne] at hk'
    obtain ⟨z, d, hz, hd, hcon'⟩ := content?_eq_some.mp hk'
    rw [contents_nullify, Option.map_eq_some_iff] at hcon'
    obtain ⟨old, hold, rfl⟩ := hcon'
    by_cases hcd : c = d
    · simp [hcd] at hd'
    · simp only [hcd, if_false] at hd' ⊢
      have hs : h.NonNull s old := ⟨content?_eq_some.mpr ⟨z, d, hz, hd, hold⟩, hd'⟩
      refine ⟨hs, ?_⟩
      rw [getContent_of_nonNull hs hz hd]
      simpa using Ne.symm hcd
  · rintro ⟨hs, hcd⟩
    obtain ⟨z, d, hz, hd, hold⟩ := content?_eq_some.mp hs.1
    rw [getContent_of_nonNull hs hz hd] at hcd
    have hcd' : c ≠ d := fun he => hcd (by rw [he])
    have hne : s ≠ x := by
      rintro rfl
      rw [hy] at hz
      obtain rfl := Option.some.inj hz
      exact hcd (by rw [← hd, hc])
    refine ⟨?_, hs.2⟩
    rw [content?_unlink_ne _ hne]
    refine content?_eq_some.mpr ⟨z, d, hz, hd, ?_⟩
    rw [contents_nullify, hold]
    simp [hcd']

/-- A release nullifies all references to the memory exactly when before it all
of them that are not null compare equal to the released one, that is, have its
content. -/
theorem release_nullifies_iff (mem : Mem Byte) (ops : List Op) (x : Nat) (k : Content)
    (hx : (runFrom mem ops).NonNull x k) :
    (∀ s, (runFrom mem ops).SameMemory x s →
      ((runFrom mem (ops ++ [.release x])).isNull s).2 = true) ↔
    (∀ s, (runFrom mem ops).SameMemory x s → ((runFrom mem ops).isNull s).2 = false →
      (runFrom mem ops).getContent s = (runFrom mem ops).getContent x) := by
  have hrun : runFrom mem (ops ++ [.release x]) = ((runFrom mem ops).release x).1 := by
    rw [runFrom, Pdi.Run.run_append]
    rfl
  rw [hrun]
  refine forall_congr' fun s => imp_congr_right fun hs => ?_
  constructor
  · intro hnull hs'
    obtain ⟨k', hk'⟩ := isNull_eq_false_iff.mp hs'
    by_contra hne
    have := isNull_eq_false_iff.mpr ⟨k', (nonNull_after_release hx s k').mpr ⟨hk', hne⟩⟩
    simp [this] at hnull
  · intro hsame
    by_contra hnull
    obtain ⟨k', hk'⟩ := isNull_eq_false_iff.mp (by simpa using hnull)
    obtain ⟨hk, hne⟩ := (nonNull_after_release hx s k').mp hk'
    exact hne (hsame (isNull_eq_false_iff.mpr ⟨k', hk⟩))

/-- A reference to an array and a sub-reference to its second element. -/
def elementOfArray : List Op :=
  [.create false false 64 (.array typeForInt64 2 0 2 []) true true, .access 0 (.index 1)]

/-- The release of the array hands out address 64, and the sub-reference still
hands out address 72. -/
theorem release_leaves_element :
    ((runFrom (fun _ => 0) elementOfArray).release 0).2 = 64 ∧
    (runFrom (fun _ => 0) elementOfArray).SameMemory 0 1 ∧
    ((runFrom (fun _ => 0) (elementOfArray ++ [.release 0])).isNull 1).2 = false ∧
    ((runFrom (fun _ => 0) (elementOfArray ++ [.release 0])).content? 1).map Content.data =
    some 72 :=
  ⟨rfl, ⟨_, _, rfl, rfl, rfl⟩, rfl, rfl⟩

/-- A reference to an array and a copy of it with the right to read. -/
def copyOfArray : List Op :=
  [.create false false 64 (.array typeForInt64 2 0 2 []) true true, .copy 0 true false]

theorem release_nullifies_copies :
    ((runFrom (fun _ => 0) copyOfArray).isNull 1).2 = false ∧
    ((runFrom (fun _ => 0) (copyOfArray ++ [.release 0])).isNull 1).2 = true := by
  refine ⟨rfl, (release_nullifies_iff (fun _ => 0) copyOfArray 0 _ ⟨rfl, by decide⟩).mpr ?_ 1
    ⟨_, _, rfl, rfl, rfl⟩⟩
  intro t ht _
  match t with
  | 0 | 1 => rfl
  | t + 2 =>
    obtain ⟨_, _, _, hk, _⟩ := ht
    cases hk

end Pdi.Reference
