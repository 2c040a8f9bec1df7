import Pdi.ReferenceQuiet

/-!
# Data that stays as it is

A reference that may read keeps the value it refers to: nobody gets the right to
write the data, and whoever writes memory without such a right leaves alone what
the library still has to free. This is stated for what all code outside does,
operation by operation.
-/
namespace Pdi.Reference

open Pdi.Memory Pdi.Datatypes

variable {kept : List Nat} {op : Op} {h' : Heap} {k' : Content} {r : Nat}

/-- The bytes of the data that a deallocator was made for. -/
def Deallocator.Covers (d : Deallocator) (a : Nat) : Prop :=
  d.data ≤ a ∧ a < d.data + d.type.buffersize

/-- The library has to free the data of `d` some day. -/
def Heap.Owns (h : Heap) (b : Nat) (d : Deallocator) : Prop :=
  h.Held b ∧ ∃ x, h.buffers[b]? = some x ∧ x.deallocator = some d

/-- What the data is: the scalar at every path. -/
abbrev Value := Path → Option (List Byte)

def Content.value (k : Content) (mem : Mem Byte) : Value :=
  fun path => readScalar mem path k.type k.data

/-- All that the value depends on lies in the memory of `d`. -/
def Within (d : Deallocator) (k : Content) (mem : Mem Byte) : Prop :=
  ∀ mem' : Mem Byte, (∀ a, d.Covers a → mem' a = mem a) → k.value mem' = k.value mem

/-- What other code may do: it leaves the references `kept` alone, does not
write memory of the library that no reference may write, and does not release
the data that the references `kept` have. -/
def Courteous (kept : List Nat) (op : Op) (h : Heap) : Prop :=
  Foreign kept op ∧
  match op with
  | .store mem => ∀ b d, h.Owns b d → h.writers b = 0 → ∀ a, d.Covers a → mem a = h.mem a
  | .release r => ∀ p ∈ kept, ∀ k k', h.content? p = some k → h.content? r = some k' →
      k.buffer ≠ k'.buffer
  | _ => True

theorem Courteous.mono {kept' : List Nat} {h : Heap} (hc : Courteous kept op h)
    (hsub : ∀ r ∈ kept', r ∈ kept) : Courteous kept' op h := by
  refine ⟨hc.1.mono hsub, ?_⟩
  cases op with
  | store => exact hc.2
  | release => exact fun p hp => hc.2 p (hsub p hp)
  | _ => trivial

/-- Reference `p` may read the value `v`, which the library owns in the memory of `d`. -/
structure Retains (h : Heap) (p c : Nat) (k : Content) (d : Deallocator) (v : Value) : Prop where
  ref : h.ref? p = some ⟨true, false, some c⟩
  content : h.contents[c]? = some k
  nonNull : k.data ≠ 0
  buffer : ∃ x, h.buffers[k.buffer]? = some x ∧ x.readable = true ∧ x.deallocator = some d
  value : k.value h.mem = v
  inside : Within d k h.mem

variable {h : Heap} {p c : Nat} {k : Content} {d : Deallocator} {v : Value}

section

variable (hr : Retains h p c k d v)

include hr

theorem Retains.content? : h.content? p = some k :=
  content?_eq_some.mpr ⟨_, c, hr.ref, rfl, hr.content⟩

theorem Retains.linked : onBuffer h.contents k.buffer ⟨true, false, some c⟩ = true := by
  simp [onBuffer, hr.content]

theorem Retains.owns : h.Owns k.buffer d := by
  obtain ⟨x, hx, _, hd⟩ := hr.buffer
  exact ⟨⟨p, k, hr.content?, rfl⟩, x, hx, hd⟩

/-- A reader keeps writers away. -/
theorem Retains.writers (hl : Locked h) : h.writers k.buffer = 0 := by
  refine writers_eq_zero.mpr fun r x hx hw => ?_
  cases hb : onBuffer h.contents k.buffer x with
  | false => rfl
  | true =>
    have hne : r ≠ p := by
      rintro rfl
      rw [hr.ref] at hx
      cases hx
      cases hw
    exact absurd (hl.no_conflict hne hx hr.ref hb hr.linked hw) (by simp)

theorem Retains.lt : p < h.refs.length := (List.getElem?_eq_some_iff.mp (ref?_eq_some.mp hr.ref)).1

theorem Retains.extend (he : Extends h h')
    (href : h'.ref? p = h.ref? p) : Retains h' p c k d v := by
  obtain ⟨x, hx, hread, hd⟩ := hr.buffer
  obtain ⟨y, hy, hconst⟩ := he.buffer hx
  refine ⟨href.trans hr.ref, he.content hr.content, hr.nonNull, ⟨y, hy, ?_, ?_⟩, ?_, ?_⟩
  · rw [← hread]
    exact congrArg (fun t => t.2.1) hconst
  · rw [← hd]
    exact congrArg Prod.fst hconst
  · rw [he.mem]
    exact hr.value
  · rw [he.mem]
    exact hr.inside

theorem Retains.store {mem : Mem Byte}
    (hmem : ∀ a, d.Covers a → mem a = h.mem a) : Retains { h with mem := mem } p c k d v := by
  have hv : k.value mem = k.value h.mem := hr.inside mem hmem
  refine ⟨hr.ref, hr.content, hr.nonNull, hr.buffer, hv.trans hr.value, fun mem' hmem' => ?_⟩
  rw [hr.inside mem' fun a ha => (hmem' a ha).trans (hmem a ha)]
  exact hv.symm

/-- Releasing the data of another buffer. -/
theorem Retains.nullify {c' b' : Nat} (hk' : h.contents[c']? = some k')
    (hb' : k'.buffer = b') (hne : k.buffer ≠ b') : Retains (h.nullify c' b') p c k d v := by
  have hcc : c' ≠ c := by
    rintro rfl
    rw [hr.content] at hk'
    cases hk'
    exact hne hb'
  refine ⟨hr.ref, ?_, hr.nonNull, ?_, hr.value, hr.inside⟩
  · simp only [Heap.nullify, Heap.modifyBuffer, Heap.modifyContent, List.getElem?_modify, hcc,
      if_false, Option.map_eq_map, Option.map_id']
    exact hr.content
  · obtain ⟨x, hx, hxx⟩ := hr.buffer
    refine ⟨x, ?_, hxx⟩
    simp only [Heap.nullify, Heap.modifyBuffer, Heap.modifyContent, List.getElem?_modify,
      Ne.symm hne, if_false, Option.map_eq_map, Option.map_id']
    exact hx

/-- Courteous operations leave a retained value where it is. -/
theorem Retains.exec (hl : Locked h) (hc : Courteous kept op h)
    (hp : p ∈ kept) : Retains (exec op h) p c k d v := by
  have href := ref?_exec op h hr.lt fun hmem => hc.1 p hmem hp
  by_cases hst : op.effect = .store
  · cases op with
    | store => exact hr.store (hc.2 k.buffer d hr.owns (hr.writers hl))
    | _ => cases hst
  · by_cases hrel : op.effect = .release
    · cases op with
      | release r =>
        simp only [Pdi.Reference.exec] at href ⊢
        obtain ⟨e, _⟩ | ⟨x, c', k', hx, hxc, hk', _, e⟩ := release_cases h r
        · rw [e] at href ⊢
          exact hr.extend (extends_exec (.isNull r) (by simp [Op.effect])
            (by simp [Op.effect]) h) href
        · have hne := hc.2 p hp k k' hr.content? (content?_eq_some.mpr ⟨x, c', hx, hxc, hk'⟩)
          rw [e] at href ⊢
          exact (hr.nullify hk' rfl hne).extend
            (extends_exec (.reset r) (by simp [Op.effect]) (by simp [Op.effect]) _) href
      | _ => cases hrel
    · exact hr.extend (extends_exec op hst hrel h) href

theorem Retains.steps (hm : Managed h)
    (hs : Steps (Courteous kept) h h') (hp : p ∈ kept) : Retains h' p c k d v := by
  refine (Steps.invariant (P := fun g => Managed g ∧ Retains g p c k d v) ?_ hs ⟨hm, hr⟩).2
  intro op g hop ⟨hg, hgr⟩
  exact ⟨managed_exec op hg, hgr.exec hg.locked hop hp⟩

/-- No reference with the right to write gets the data. -/
theorem Retains.no_write (hl : Locked h) (hk' : h.content? r = some k') (hb : k'.buffer = k.buffer)
    (read : Bool) : (h.copyRef r read true).content? h.refs.length = none := by
  unfold Heap.copyRef
  cases hc : h.getContent r with
  | none => exact content?_linkNew_none h read true
  | some c' =>
    obtain ⟨x, k'', hx, hxc, hk'', hd⟩ := getContent_eq_some hc
    obtain rfl : k' = k'' := by
      rw [content?_eq_some.mpr ⟨x, c', hx, hxc, hk''⟩] at hk'
      exact (Option.some.inj hk').symm
    obtain ⟨b, hbuf, _⟩ := hr.buffer
    have hlocks := hl.writeLocks k.buffer b hbuf
    have huser : 0 < h.users k.buffer :=
      List.countP_pos_iff.mpr ⟨_, List.mem_of_getElem? (ref?_eq_some.mp hr.ref), by
        simp [hr.linked]⟩
    have hne : b.writeLocks ≠ 0 := by
      have : 0 ≤ closed b.writable := by
        unfold closed
        split <;> omega
      omega
    rw [content?_linkNew read true hk'' hd (hb ▸ hbuf)]
    simp [hne]

/-- A reference that may read gets the data. -/
theorem Retains.read (hl : Locked h) (hc : h.getContent r = some c) :
    (h.copyRef r true false).content? h.refs.length = some k := by
  obtain ⟨b, hb, hread, _⟩ := hr.buffer
  have hz := (hl.readLocks_eq_zero hb).mpr ⟨hread, hr.writers hl⟩
  rw [Heap.copyRef, hc, content?_linkNew true false hr.content hr.nonNull hb]
  simp [hz]

end

end Pdi.Reference
