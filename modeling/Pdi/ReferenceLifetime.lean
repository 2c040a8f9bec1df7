import Pdi.Ownership
import Pdi.ReferenceLocks

/-!
# Lifetime of referenced memory

Each buffer is an object shared by the references linked to it, and the primitive
changes act on it as the owners of such an object may. What follows for the free
function is stated in terms of the operations: when it is called, and what a
release does to the references that remain.
-/
namespace Pdi.Reference

open Pdi.Memory Pdi.Datatypes Pdi.Ownership

variable {h h' : Heap} {b r c b₀ s : Nat} {q : Effect} {k : Content}

/-- Whether the destructor of the buffer would free the memory. -/
def Heap.armed (h : Heap) (b : Nat) : Bool := (h.buffers[b]?.bind Buffer.deallocator).isSome

/-- A buffer as a shared object. -/
def Heap.cell (h : Heap) (b : Nat) : Ownership.Cell := ⟨h.links b, h.armed b, h.freed.count b⟩

theorem links_pos_of_held (hb : h.Held b) : 0 < h.links b := by
  obtain ⟨r, k, hk, rfl⟩ := hb
  obtain ⟨x, c, hx, hc, hcon⟩ := content?_eq_some.mp hk
  refine List.countP_pos_iff.mpr ⟨some x, List.mem_of_getElem? (ref?_eq_some.mp hx), ?_⟩
  simp [onBuffer, hc, hcon]

theorem held_of_links (hb : 0 < h.links b) : h.Held b := by
  obtain ⟨slot, hmem, hs⟩ := List.countP_pos_iff.mp hb
  obtain ⟨r, hr⟩ := List.getElem?_of_mem hmem
  cases slot with
  | none => simp at hs
  | some x =>
    simp only [Option.any_some, Bool.true_and, onBuffer, Option.any_eq_true] at hs
    obtain ⟨c, hc, k, hk, hkb⟩ := hs
    exact ⟨r, k, content?_eq_some.mpr ⟨x, c, ref?_eq_some.mpr hr, hc, hk⟩, by simpa using hkb⟩

theorem armed_modifyBuffer (h : Heap) (b₀ : Nat) (f : Buffer → Buffer)
    (hf : ∀ x, (f x).deallocator = x.deallocator) (b : Nat) :
    (h.modifyBuffer b₀ f).armed b = h.armed b := by
  simp only [Heap.armed, Heap.modifyBuffer, List.getElem?_modify]
  cases h.buffers[b]? with
  | none => rfl
  | some => by_cases hb : b₀ = b <;> simp [hb, hf]

theorem cell_collect (h : Heap) (b₀ b : Nat) :
    (h.collect b₀).cell b = { h.cell b with finalized := (h.cell b).finalized +
      (decide (b₀ = b) && decide ((h.cell b).owners = 0) && (h.cell b).armed).toNat } := by
  have hlinks : (h.collect b₀).links b = h.links b := count_collect h b₀ _ b
  have harmed : (h.collect b₀).armed b = h.armed b := by simp [Heap.armed]
  rw [Heap.cell, Heap.cell, hlinks, harmed]
  by_cases hb : b₀ = b
  · subst hb
    by_cases hz : h.links b₀ = 0
    · unfold Heap.collect Heap.armed
      rw [links_eq_zero.mp hz]
      cases h.buffers[b₀]? with
      | none => simp
      | some x => cases hd : x.deallocator <;> simp [hz, hd]
    · have hany : h.refs.any (h.linked b₀) = true := by
        by_contra hn
        exact hz (links_eq_zero.mpr (by simpa using hn))
      simp [Heap.collect, hany, hz]
  · obtain e | e := collect_cases h b₀ <;> simp [e, hb]

theorem cell_eq {n f : Nat} {a : Bool} (hn : h.links b = n) (ha : h.armed b = a)
    (hf : h.freed.count b = f) : h.cell b = ⟨n, a, f⟩ := by
  rw [Heap.cell, hn, ha, hf]

/-- Nothing changes for a buffer when its links, its deallocator and the record
of the calls stay. -/
theorem step_stay (hlinks : h'.links b = h.links b) (harmed : h'.armed b = h.armed b)
    (hfreed : h'.freed = h.freed) : Step (h.cell b) (h'.cell b) := by
  rw [cell_eq hlinks harmed (congrArg (List.count b) hfreed)]
  exact .stay _

/-- Of the buffers only the one that is linked changes, by one more owner. -/
theorem cell_link (hl : Locked h) (hnull : h.content? r = none) :
    h.link r c = h ∨ ∃ k, h.contents[c]? = some k ∧
      ∀ b, (h.link r c).cell b =
        { h.cell b with owners := (h.cell b).owners + (k.buffer == b).toNat } := by
  obtain e | ⟨x, k, buf, hx, hk, hbuf, _, _, _, e⟩ := link_cases h r c
  · exact .inl e
  refine .inr ⟨k, hk, fun b => ?_⟩
  rw [e]
  refine cell_eq ?_ (armed_modifyBuffer _ k.buffer (addLocks x 1) (fun _ => rfl) b) rfl
  have hcount := count_attach hx (hl.content_none hx hnull) hk (fun _ _ => true) b
  rwa [Bool.true_and] at hcount

theorem step_link (hl : Locked h) (hnull : h.content? r = none)
    (hheld : ∀ k, h.contents[c]? = some k → h.Held k.buffer) (b : Nat) :
    Step (h.cell b) ((h.link r c).cell b) := by
  obtain e | ⟨k, hk, hcell⟩ := cell_link hl hnull (c := c)
  · rw [e]
    exact .stay _
  rw [hcell]
  by_cases hb : k.buffer = b
  · subst hb
    rw [beq_self_eq_true]
    exact .acquire (h.cell k.buffer) (links_pos_of_held (hheld k hk))
  · rw [beq_eq_false_iff_ne.mpr hb]
    exact .stay (h.cell b)

/-- One owner of `b₀` less, and the destructor of `b₀` if it was the last one. -/
theorem step_detach {g : Heap} (hlinks : g.links b + (b₀ == b).toNat = h.links b)
    (harmed : g.armed b = h.armed b) (hfreed : g.freed = h.freed) :
    Step (h.cell b) ((g.collect b₀).cell b) := by
  rw [cell_collect, cell_eq rfl harmed (congrArg (List.count b) hfreed)]
  by_cases hb : b₀ = b
  · subst hb
    rw [beq_self_eq_true] at hlinks
    simp only [decide_true, Bool.true_and]
    exact .drop (h.cell b₀) (g.links b₀) hlinks.symm
  · rw [beq_eq_false_iff_ne.mpr hb] at hlinks
    simp only [hb, decide_false, Bool.false_and, Bool.toNat_false]
    rw [show g.links b = h.links b from hlinks]
    exact .stay (h.cell b)

theorem step_unlink (h : Heap) (r b : Nat) : Step (h.cell b) ((h.unlink r).cell b) := by
  obtain ⟨_, e⟩ | ⟨x, c, k, hx, hc, hk, e⟩ := unlink_cases h r <;> rw [e]
  · exact .stay _
  refine step_detach ?_ (armed_modifyBuffer h k.buffer (fun b => addLocks x (-1) (forget r b))
    (fun _ => rfl) b) rfl
  have hcount := count_detach hx hc hk (some { x with content := none }) (by simp)
    (fun _ _ => true) b
  rwa [Bool.true_and] at hcount

/-- A release disarms the buffer of its content. -/
theorem step_nullify (hheld : h.Held b₀) (b : Nat) : Step (h.cell b) ((h.nullify c b₀).cell b) := by
  have hlinks : (h.nullify c b₀).links b = h.links b :=
    count_modifyContent h c (fun k => { k with data := 0 }) (fun _ => rfl) (fun _ _ => true) b
  by_cases hb : b₀ = b
  · subst hb
    have harmed : (h.nullify c b₀).armed b₀ = false := by
      simp only [Heap.armed, Heap.nullify, Heap.modifyBuffer, List.getElem?_modify]
      cases (h.modifyContent c fun k => { k with data := 0 }).buffers[b₀]? <;> simp
    rw [cell_eq hlinks harmed rfl]
    exact .disarm (h.cell b₀) (links_pos_of_held hheld)
  · refine step_stay hlinks ?_ rfl
    simp [Heap.armed, Heap.nullify, Heap.modifyBuffer, Heap.modifyContent, hb]

@[simp] theorem length_buffers_link (h : Heap) (r c : Nat) :
    (h.link r c).buffers.length = h.buffers.length := by
  obtain e | ⟨_, _, _, _, _, _, _, _, _, e⟩ := link_cases h r c <;> rw [e]
  simp [Heap.modifyBuffer]

theorem length_buffers_allocRef (h : Heap) (read write : Bool) (data : Nat) (type : Datatype)
    (readable writable : Bool) :
    (h.allocRef read write data type readable writable).buffers.length = h.buffers.length + 1 := by
  simp [Heap.allocRef, Heap.linkNew, Heap.alloc]

/-- A primitive change that makes no buffer acts on every buffer as its owners may. -/
theorem step_primitive (hs : Primitive q h h') (hl : Locked h)
    (hlen : h'.buffers.length = h.buffers.length) (b : Nat) : Step (h.cell b) (h'.cell b) := by
  cases hs with
  | store => exact .stay _
  | newRef read write => exact step_stay (count_newRef h read write _ b) rfl rfl
  | link r c hnull hheld => exact step_link hl hnull hheld b
  | unlink r => exact step_unlink h r b
  | steal target source x y hy hx hne hnull hread hwrite =>
    have hcount := count_steal hy hx hne (hl.content_none hy hnull) hread hwrite (fun _ _ => true) b
    obtain e | ⟨_, _, k, _, _, _, e⟩ := steal_cases h target source <;> rw [e] at hcount ⊢
    · exact .stay _
    · exact step_stay hcount (armed_modifyBuffer h k.buffer (forget source) (fun _ => rfl) b) rfl
  | drop r hnull => exact step_stay (hl.count_drop hnull _ b) rfl rfl
  | notify b₀ f =>
    exact step_stay rfl (armed_modifyBuffer h b₀ (fun x => { x with notifications := f x })
      (fun _ => rfl) b) rfl
  | addContent k => exact step_stay (hl.count_addContent k _ b) rfl rfl
  | allocRef =>
    rw [length_buffers_allocRef] at hlen
    omega
  | nullify r c k x hx hc hk =>
    exact step_nullify ⟨r, k, content?_eq_some.mpr ⟨x, c, hx, hc, hk⟩, rfl⟩ b

/-- Every other primitive change leaves the number of buffers alone. -/
theorem length_buffers_primitive (hs : Primitive q h h') :
    h'.buffers.length = h.buffers.length ∨ q = .alloc ∧ ∃ read write data type readable writable,
      h' = h.allocRef read write data type readable writable := by
  cases hs with
  | allocRef read write data type readable writable hq =>
    exact .inr ⟨hq, read, write, data, type, readable, writable, rfl⟩
  | link r c => exact .inl (length_buffers_link h r c)
  | unlink r =>
    obtain ⟨_, e⟩ | ⟨_, _, _, _, _, _, e⟩ := unlink_cases h r <;> simp [e, Heap.modifyBuffer]
  | steal target source =>
    obtain e | ⟨_, _, _, _, _, _, e⟩ := steal_cases h target source <;> simp [e, Heap.modifyBuffer]
  | nullify => simp [Heap.nullify, Heap.modifyBuffer, Heap.modifyContent]
  | notify => simp [Heap.modifyBuffer]
  | store | newRef | drop | addContent => exact .inl rfl

/-- What is known of a buffer in any reachable heap. -/
structure Owned (h : Heap) : Prop where
  sound : ∀ b, b < h.buffers.length → Sound (h.cell b)
  fresh : ∀ b, h.buffers.length ≤ b → h.freed.count b = 0

/-- A buffer that does not exist has no owner, so nothing happens to it. -/
theorem Owned.of_steps (ho : Owned h) (hl : Locked h) (hlen : h'.buffers.length = h.buffers.length)
    (hstep : ∀ b, Step (h.cell b) (h'.cell b)) : Owned h' := by
  constructor
  · intro b hb
    exact (ho.sound b (by omega)).step (hstep b)
  · intro b hb
    have hnew : (h.cell b).owners = 0 := hl.count_new (fun _ _ => true) (by omega)
    have hsame := congrArg Ownership.Cell.finalized ((hstep b).eq_of_unowned hnew)
    exact hsame.trans (ho.fresh b (by omega))

/-- Newly allocated data seen by its owners: nobody owns it, or the reference
made with it does; the other buffers are as before. -/
theorem cell_linkNew_alloc (hl : Locked h) (read write : Bool) (data : Nat) (type : Datatype)
    (readable writable : Bool) :
    ∃ n ≤ 1, ∀ b, ((h.alloc data type readable writable).linkNew read write
        (some h.contents.length)).cell b =
      if b = h.buffers.length then ⟨n, true, h.freed.count b⟩ else h.cell b := by
  have hl₁ := (hl.alloc data type readable writable).newRef read write
  have hcell : ∀ b, ((h.alloc data type readable writable).newRef read write).cell b =
      if b = h.buffers.length then ⟨0, true, h.freed.count b⟩ else h.cell b := by
    intro b
    have hlinks : ((h.alloc data type readable writable).newRef read write).links b = h.links b :=
      (count_newRef _ read write _ b).trans
        (hl.count_addContent ⟨h.buffers.length, data, type, h.contents.length⟩ (fun _ _ => true) b)
    by_cases hb : b = h.buffers.length
    · rw [if_pos hb]
      refine cell_eq (hlinks.trans (hl.count_new _ (by omega))) ?_ rfl
      simp [Heap.armed, Heap.alloc, hb]
    · rw [if_neg hb]
      refine cell_eq hlinks ?_ rfl
      rw [Heap.armed, Heap.armed, newRef_buffers, Heap.alloc, List.getElem?_append]
      split
      · rfl
      · next hge =>
        rw [List.getElem?_eq_none (by simp; omega), List.getElem?_eq_none (by omega)]
  obtain e | ⟨k, hk, e⟩ := cell_link hl₁ (content?_newRef_self _ read write)
    (c := h.contents.length)
  · exact ⟨0, by omega, fun b => by rw [Heap.linkNew, e, hcell]⟩
  · have hkb : k.buffer = h.buffers.length := by
      have : k = ⟨h.buffers.length, data, type, h.contents.length⟩ := by
        simpa [Heap.alloc, Heap.addContent] using hk.symm
      rw [this]
    refine ⟨1, by omega, fun b => ?_⟩
    rw [Heap.linkNew, e, hkb, hcell]
    by_cases hb : b = h.buffers.length
    · simp [hb]
    · simp [hb, beq_eq_false_iff_ne.mpr (Ne.symm hb)]

/-- The buffer made for new data: one owner if the reference could be linked, or
freed on the spot. -/
theorem Owned.allocRef (ho : Owned h) (hl : Locked h) (read write : Bool) (data : Nat)
    (type : Datatype) (readable writable : Bool) :
    Owned (h.allocRef read write data type readable writable) := by
  obtain ⟨n, hn, hcell⟩ := cell_linkNew_alloc hl read write data type readable writable
  have hdrop : ∀ b, (h.allocRef read write data type readable writable).cell b =
      if b = h.buffers.length then ⟨n, true, h.freed.count b + (decide (n = 0)).toNat⟩
      else h.cell b := by
    intro b
    rw [Heap.allocRef, cell_collect, hcell]
    by_cases hb : b = h.buffers.length
    · simp [hb]
    · simp [hb, Ne.symm hb]
  constructor
  · intro b hb
    rw [hdrop]
    split
    · next hbl =>
      rw [ho.fresh b (by omega)]
      obtain rfl | rfl : n = 0 ∨ n = 1 := by omega
      · exact ⟨by simp, by simp, by simp⟩
      · exact ⟨by simp, by simp, by simp⟩
    · rw [length_buffers_allocRef] at hb
      exact ho.sound b (by omega)
  · intro b hb
    rw [length_buffers_allocRef] at hb
    have := congrArg Ownership.Cell.finalized (hdrop b)
    rw [if_neg (by omega)] at this
    exact this.trans (ho.fresh b (by omega))

theorem owned_primitive (hs : Primitive q h h') (hl : Locked h) (ho : Owned h) : Owned h' := by
  obtain hlen | ⟨_, read, write, data, type, readable, writable, rfl⟩ :=
    length_buffers_primitive hs
  · exact ho.of_steps hl hlen (step_primitive hs hl hlen)
  · exact ho.allocRef hl read write data type readable writable

/-- The deallocators of the buffers, in their order. -/
def Heap.deallocators (h : Heap) : List (Option Deallocator) := h.buffers.map Buffer.deallocator

theorem deallocators_modifyBuffer (h : Heap) (b : Nat) (f : Buffer → Buffer)
    (hf : ∀ x, (f x).deallocator = x.deallocator) :
    (h.modifyBuffer b f).deallocators = h.deallocators := by
  refine List.ext_getElem? fun i => ?_
  simp only [Heap.deallocators, Heap.modifyBuffer, List.getElem?_map, List.getElem?_modify]
  cases h.buffers[i]? with
  | none => rfl
  | some => by_cases hb : b = i <;> simp [hb, hf]

@[simp] theorem deallocators_setRef (h : Heap) (r : Nat) (x : Option Ref) :
    (h.setRef r x).deallocators = h.deallocators := rfl
@[simp] theorem deallocators_collect (h : Heap) (b : Nat) :
    (h.collect b).deallocators = h.deallocators := by simp [Heap.deallocators]

theorem deallocators_link (h : Heap) (r c : Nat) :
    (h.link r c).deallocators = h.deallocators ∧ (h.link r c).released = h.released := by
  obtain e | ⟨x, _, _, _, _, _, _, _, _, e⟩ := link_cases h r c <;> rw [e]
  · exact ⟨rfl, rfl⟩
  · exact ⟨deallocators_modifyBuffer _ _ (addLocks x 1) (fun _ => rfl), rfl⟩

/-- Only a release takes a deallocator away, and it is put on record; new
buffers come with theirs. -/
theorem deallocators_primitive (hs : Primitive q h h') :
    (h'.released = h.released ∧
      ∃ new, h'.deallocators = h.deallocators ++ new ∧ ∀ d ∈ new, d ≠ none) ∨
    (q = .release ∧ ∃ c b, h.Held b ∧ h' = h.nullify c b) := by
  have same : ∀ {g : Heap}, g.released = h.released → g.deallocators = h.deallocators →
      (g.released = h.released ∧
        ∃ new, g.deallocators = h.deallocators ++ new ∧ ∀ d ∈ new, d ≠ none) ∨
      (q = .release ∧ ∃ c b, h.Held b ∧ g = h.nullify c b) :=
    fun hr hd => .inl ⟨hr, [], by simpa using hd, by simp⟩
  cases hs with
  | store | newRef | drop | addContent => exact same rfl rfl
  | link r c => exact same (deallocators_link h r c).2 (deallocators_link h r c).1
  | unlink r =>
    obtain ⟨_, e⟩ | ⟨x, c, k, _, _, _, e⟩ := unlink_cases h r <;> rw [e]
    · exact same rfl rfl
    · refine same (by simp [Heap.setRef, Heap.modifyBuffer]) ?_
      rw [deallocators_collect, deallocators_setRef]
      exact deallocators_modifyBuffer h k.buffer (fun b => addLocks x (-1) (forget r b))
        (fun _ => rfl)
  | steal target source =>
    obtain e | ⟨_, _, k, _, _, _, e⟩ := steal_cases h target source <;> rw [e]
    · exact same rfl rfl
    · exact same rfl (deallocators_modifyBuffer h k.buffer (forget source) (fun _ => rfl))
  | notify b f =>
    exact same rfl (deallocators_modifyBuffer h b (fun x => { x with notifications := f x })
      (fun _ => rfl))
  | allocRef read write data type readable writable =>
    have hlink := deallocators_link ((h.alloc data type readable writable).newRef read write)
      h.refs.length h.contents.length
    refine .inl ⟨?_, [some ⟨data, type⟩], ?_, by simp⟩
    · rw [Heap.allocRef, collect_released]
      exact hlink.2
    · rw [Heap.allocRef, deallocators_collect]
      exact hlink.1.trans (by simp [Heap.deallocators, Heap.alloc])
  | nullify r c k x hx hc hk hq =>
    exact .inr ⟨hq, c, k.buffer, ⟨r, k, content?_eq_some.mpr ⟨x, c, hx, hc, hk⟩, rfl⟩, rfl⟩

/-- The record of releases names the buffers without deallocator. -/
def Recorded (h : Heap) : Prop := ∀ b, b ∈ h.released ↔ h.deallocators[b]? = some none

theorem recorded_primitive (hs : Primitive q h h') (hl : Locked h) (hr : Recorded h) :
    Recorded h' := by
  intro b
  obtain ⟨hrel, new, hnew, hsome⟩ | ⟨_, c, b₀, hheld, rfl⟩ := deallocators_primitive hs
  · rw [hrel, hr b, hnew, List.getElem?_append]
    split
    · rfl
    · next hge =>
      constructor
      · intro hnone
        rw [List.getElem?_eq_none (by omega)] at hnone
        simp at hnone
      · intro hnone
        exact absurd rfl (hsome none (List.mem_of_getElem? hnone))
  · have hlt := hl.held_lt hheld
    have hds : (h.nullify c b₀).deallocators[b]? = (h.deallocators[b]?).map
        (fun d => if b₀ = b then none else d) := by
      simp only [Heap.deallocators, Heap.nullify, Heap.modifyBuffer, Heap.modifyContent,
        List.getElem?_map, List.getElem?_modify]
      cases h.buffers[b]? with
      | none => rfl
      | some => by_cases hb : b₀ = b <;> simp [hb]
    rw [hds]
    by_cases hb : b₀ = b
    · subst hb
      simp [Heap.nullify, Heap.deallocators, hlt]
    · simp [Heap.nullify, hb, Ne.symm hb, hr b]

theorem content?_of_link (hk : (h.link r c).content? s = some k) :
    h.content? s = some k ∨ k.data ≠ 0 := by
  obtain e | ⟨x, k₀, _, _, hk₀, _, hd, _, _, e⟩ := link_cases h r c <;> rw [e] at hk
  · exact .inl hk
  obtain ⟨y, d, hy, hd', hcon⟩ := content?_eq_some.mp hk
  obtain ⟨_, hy'⟩ | ⟨_, hy'⟩ := ref?_setRef (h := h) (y := some _) hy
  · cases hy'
    obtain rfl : c = d := by simpa using hd'
    obtain rfl : k₀ = k := by
      have hcon' : h.contents[c]? = some k := hcon
      rw [hk₀] at hcon'
      exact Option.some.inj hcon'
    exact .inr hd
  · exact .inl (content?_eq_some.mpr ⟨y, d, hy', hd', hcon⟩)

theorem content?_of_newRef {read write : Bool} (hk : (h.newRef read write).content? s = some k) :
    h.content? s = some k := by
  obtain ⟨y, d, hy, hd, hcon⟩ := content?_eq_some.mp hk
  obtain hy' | ⟨_, rfl⟩ := ref?_newRef hy
  · exact content?_eq_some.mpr ⟨y, d, hy', hd, hcon⟩
  · simp at hd

theorem content?_of_setRef {x : Option Ref} (hx : x.all (fun z => z.content.isNone) = true)
    (hk : (h.setRef r x).content? s = some k) : h.content? s = some k := by
  obtain ⟨y, d, hy, hd, hcon⟩ := content?_eq_some.mp hk
  obtain ⟨_, rfl⟩ | ⟨_, hy'⟩ := ref?_setRef hy
  · simp [hd] at hx
  · exact content?_eq_some.mpr ⟨y, d, hy', hd, hcon⟩

theorem Locked.content?_of_addContent (hl : Locked h) {k' : Content}
    (hk : (h.addContent k').content? s = some k) : h.content? s = some k := by
  obtain ⟨y, d, hy, hd, hcon⟩ := content?_eq_some.mp hk
  refine content?_eq_some.mpr ⟨y, d, hy, hd, ?_⟩
  rwa [Heap.addContent, List.getElem?_append_left (hl.content_lt s y d hy hd)] at hcon

/-- The contents references are linked to: known before, not null, or released. -/
theorem linked_primitive (hs : Primitive q h h') (hl : Locked h) (hk : h'.content? s = some k) :
    (∃ t, h.content? t = some k) ∨ k.data ≠ 0 ∨ k.buffer ∈ h'.released := by
  cases hs with
  | store | notify => exact .inl ⟨s, hk⟩
  | newRef => exact .inl ⟨s, content?_of_newRef hk⟩
  | link =>
    obtain hk' | hd := content?_of_link hk
    · exact .inl ⟨s, hk'⟩
    · exact .inr (.inl hd)
  | unlink r =>
    obtain ⟨_, e⟩ | ⟨x, c, k₀, hx, _, _, e⟩ := unlink_cases h r <;> rw [e] at hk
    · exact .inl ⟨s, hk⟩
    · rw [Heap.content?, ref?_collect, collect_contents] at hk
      exact .inl ⟨s, content?_of_setRef (h := h.modifyBuffer _ _) (x := some _) (by simp) hk⟩
  | steal target source x y =>
    obtain e | ⟨x', y', k₀, _, hx', _, e⟩ := steal_cases h target source <;> rw [e] at hk
    · exact .inl ⟨s, hk⟩
    · have hk' := content?_of_setRef (x := some _) (by simp) hk
      obtain ⟨z, d, hz, hd, hcon⟩ := content?_eq_some.mp hk'
      obtain ⟨_, hz'⟩ | ⟨_, hz'⟩ := ref?_setRef (h := h.modifyBuffer _ _) (y := some _) hz
      · cases hz'
        exact .inl ⟨source, content?_eq_some.mpr ⟨x', d, hx', hd, hcon⟩⟩
      · exact .inl ⟨s, content?_eq_some.mpr ⟨z, d, hz', hd, hcon⟩⟩
  | drop => exact .inl ⟨s, content?_of_setRef (by simp) hk⟩
  | addContent => exact .inl ⟨s, hl.content?_of_addContent hk⟩
  | allocRef =>
    rw [Heap.allocRef, Heap.content?, ref?_collect, collect_contents] at hk
    obtain hk' | hd := content?_of_link hk
    · exact .inl ⟨s, hl.content?_of_addContent (content?_of_newRef hk')⟩
    · exact .inr (.inl hd)
  | nullify r c k₀ x _ _ hk₀ =>
    obtain ⟨y, d, hy, hd, hcon⟩ := content?_eq_some.mp hk
    simp only [Heap.nullify, Heap.modifyBuffer, Heap.modifyContent, List.getElem?_modify,
      Option.map_eq_map, Option.map_eq_some_iff] at hcon
    obtain ⟨old, hold, rfl⟩ := hcon
    by_cases hcd : c = d
    · subst hcd
      obtain rfl : k₀ = old := by rw [hk₀] at hold; exact Option.some.inj hold
      exact .inr (.inr (by simp [Heap.nullify]))
    · simp only [hcd, if_false]
      exact .inl ⟨s, content?_eq_some.mpr ⟨y, d, hy, hd, hold⟩⟩

/-- A reference linked to a null content is one of a released buffer. -/
def LazilyNull (h : Heap) : Prop :=
  ∀ s k, h.content? s = some k → k.data = 0 → k.buffer ∈ h.released

theorem released_subset_primitive (hs : Primitive q h h') : h.released ⊆ h'.released := by
  obtain ⟨hrel, _⟩ | ⟨_, c, b, _, rfl⟩ := deallocators_primitive hs
  · rw [hrel]
    exact fun _ hb => hb
  · exact List.subset_cons_self _ _

theorem lazilyNull_primitive (hs : Primitive q h h') (hl : Locked h) (hn : LazilyNull h) :
    LazilyNull h' := by
  intro s k hk hd
  obtain ⟨t, ht⟩ | hd' | hrel := linked_primitive hs hl hk
  · exact released_subset_primitive hs (hn t k ht hd)
  · exact absurd hd hd'
  · exact hrel

/-- All that is known of the lifetime of buffers in a reachable heap. -/
structure Managed (h : Heap) : Prop where
  locked : Locked h
  owned : Owned h
  recorded : Recorded h
  lazilyNull : LazilyNull h

theorem managed_empty (mem : Mem Byte) : Managed (Heap.empty mem) := by
  refine ⟨locked_empty mem, ⟨?_, ?_⟩, ?_, ?_⟩
  · intro b hb
    simp [Heap.empty] at hb
  · intro b _
    rfl
  · intro b
    simp [Heap.empty, Heap.deallocators]
  · intro s k hk
    simp [Heap.empty, Heap.content?, Heap.ref?] at hk

theorem managed_primitive (q : Effect) (h h' : Heap) (hs : Primitive q h h') (hm : Managed h) :
    Managed h' :=
  ⟨locked_primitive q h h' hs hm.locked, owned_primitive hs hm.locked hm.owned,
    recorded_primitive hs hm.locked hm.recorded, lazilyNull_primitive hs hm.locked hm.lazilyNull⟩

theorem managed_runFrom (mem : Mem Byte) (ops : List Op) : Managed (runFrom mem ops) :=
  invariant_run managed_primitive ops _ (managed_empty mem)

end Pdi.Reference
