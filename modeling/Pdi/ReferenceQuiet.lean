import Pdi.ReferenceFrame
import Pdi.ReferenceLifetime

/-!
# Quiet operations

Operations that only link and unlink references leave the memory, the contents
and the constant part of the buffers alone, and no buffer without references
gets one again. Whether a reference can be linked is read off its buffer.
-/
namespace Pdi.Reference

open Pdi.Memory Pdi.Datatypes Pdi.Ownership

variable {h h' h'' : Heap} {c b : Nat} {k : Content} {x : Buffer} {q : Effect}

/-- The part of a buffer that linking and unlinking do not change. -/
def Buffer.constant (b : Buffer) : Option Deallocator × Bool × Bool :=
  (b.deallocator, b.readable, b.writable)

/-- The memory is as it was, and contents and buffers have at most been added. -/
structure Extends (h h' : Heap) : Prop where
  mem : h'.mem = h.mem
  contents : ∃ new, h'.contents = h.contents ++ new
  buffers : ∃ new, h'.buffers.map Buffer.constant = h.buffers.map Buffer.constant ++ new

theorem Extends.refl (h : Heap) : Extends h h := ⟨rfl, ⟨[], by simp⟩, ⟨[], by simp⟩⟩

theorem Extends.trans (e : Extends h h') (e' : Extends h' h'') : Extends h h'' := by
  obtain ⟨new, hnew⟩ := e.contents
  obtain ⟨new', hnew'⟩ := e'.contents
  obtain ⟨more, hmore⟩ := e.buffers
  obtain ⟨more', hmore'⟩ := e'.buffers
  exact ⟨e'.mem.trans e.mem, ⟨new ++ new', by rw [hnew', hnew, List.append_assoc]⟩,
    ⟨more ++ more', by rw [hmore', hmore, List.append_assoc]⟩⟩

theorem Extends.content (e : Extends h h') (hk : h.contents[c]? = some k) :
    h'.contents[c]? = some k := by
  obtain ⟨new, hnew⟩ := e.contents
  rw [hnew, List.getElem?_append_left (List.getElem?_eq_some_iff.mp hk).1]
  exact hk

theorem Extends.buffer (e : Extends h h') (hx : h.buffers[b]? = some x) :
    ∃ y, h'.buffers[b]? = some y ∧ y.constant = x.constant := by
  obtain ⟨new, hnew⟩ := e.buffers
  have hmap := congrArg (fun l => l[b]?) hnew
  have hlt : b < (h.buffers.map Buffer.constant).length := by
    simpa using (List.getElem?_eq_some_iff.mp hx).1
  rw [List.getElem?_append_left hlt] at hmap
  simp only [List.getElem?_map, hx, Option.map_some, Option.map_eq_some_iff] at hmap
  exact hmap

/-- What is left alone when references are linked and unlinked. -/
structure Quiet (h h' : Heap) : Prop extends Extends h h' where
  held : ∀ b, h'.Held b → h.Held b

theorem Quiet.refl (h : Heap) : Quiet h h := ⟨Extends.refl h, fun _ hb => hb⟩

theorem Quiet.trans (q : Quiet h h') (q' : Quiet h' h'') : Quiet h h'' :=
  ⟨q.toExtends.trans q'.toExtends, fun b hb => q.held b (q'.held b hb)⟩

theorem constant_modifyBuffer (h : Heap) (b : Nat) (f : Buffer → Buffer)
    (hf : ∀ x, (f x).constant = x.constant) :
    (h.modifyBuffer b f).buffers.map Buffer.constant = h.buffers.map Buffer.constant := by
  refine List.ext_getElem? fun i => ?_
  simp only [Heap.modifyBuffer, List.getElem?_map, List.getElem?_modify]
  cases h.buffers[i]? with
  | none => rfl
  | some => by_cases hb : b = i <;> simp [hb, hf]

theorem held_of_primitive (hs : Primitive q h h') (hl : Locked h)
    (hlen : h'.buffers.length = h.buffers.length) (hb : h'.Held b) : h.Held b := by
  by_contra hn
  have hzero : h.links b = 0 := by
    by_contra hpos
    exact hn (held_of_links (by omega))
  have hcell := (step_primitive hs hl hlen b).eq_of_unowned hzero
  have hsame : h'.links b = h.links b := congrArg Ownership.Cell.owners hcell
  have := links_pos_of_held hb
  omega

theorem extends_primitive (hs : Primitive q h h') (hst : q ≠ .store) (hrel : q ≠ .release) :
    Extends h h' := by
  have same : ∀ g : Heap, g.mem = h.mem → g.contents = h.contents →
      g.buffers.map Buffer.constant = h.buffers.map Buffer.constant → Extends h g :=
    fun g hm hc hb => ⟨hm, ⟨[], by simpa using hc⟩, ⟨[], by simpa using hb⟩⟩
  cases hs with
  | store mem hq => exact absurd hq hst
  | nullify _ _ _ _ _ _ _ hq => exact absurd hq hrel
  | newRef | drop => exact same _ rfl rfl rfl
  | link r c =>
    obtain e | ⟨x, k, _, _, _, _, _, _, _, e⟩ := link_cases h r c <;> rw [e]
    · exact Extends.refl h
    · exact same _ rfl rfl
        (constant_modifyBuffer (h.setRef r _) k.buffer (addLocks x 1) fun _ => rfl)
  | unlink r =>
    obtain ⟨_, e⟩ | ⟨x, c, k, _, _, _, e⟩ := unlink_cases h r <;> rw [e]
    · exact Extends.refl h
    · refine same _ (by simp [Heap.setRef, Heap.modifyBuffer]) (by simp) ?_
      rw [collect_buffers]
      exact constant_modifyBuffer h k.buffer (fun b => addLocks x (-1) (forget r b)) fun _ => rfl
  | steal target source =>
    obtain e | ⟨_, _, k, _, _, _, e⟩ := steal_cases h target source <;> rw [e]
    · exact Extends.refl h
    · exact same _ rfl rfl (constant_modifyBuffer h k.buffer (forget source) fun _ => rfl)
  | notify b f =>
    exact same _ rfl rfl
      (constant_modifyBuffer h b (fun x => { x with notifications := f x }) fun _ => rfl)
  | addContent k => exact ⟨rfl, ⟨[k], rfl⟩, ⟨[], by simp [Heap.addContent]⟩⟩
  | allocRef read write data type readable writable =>
    have hlink : ∀ g : Heap, g.mem = h.mem →
        g.contents = h.contents ++ [⟨h.buffers.length, data, type, h.contents.length⟩] →
        g.buffers.map Buffer.constant =
          h.buffers.map Buffer.constant ++ [(some ⟨data, type⟩, readable, writable)] →
        Extends h g := fun g hm hc hb => ⟨hm, ⟨_, hc⟩, ⟨_, hb⟩⟩
    obtain e | ⟨x, k, _, _, _, _, _, _, _, e⟩ := link_cases
      ((h.alloc data type readable writable).newRef read write)
      (h.alloc data type readable writable).refs.length h.contents.length
    all_goals
      rw [Heap.allocRef, Heap.linkNew, e]
      refine hlink _ (by simp [Heap.newRef, Heap.alloc, Heap.addContent, Heap.setRef,
        Heap.modifyBuffer]) (by simp [Heap.alloc, Heap.addContent]) ?_
      rw [collect_buffers]
    · simp [Heap.newRef, Heap.alloc, Buffer.constant]
    · refine (constant_modifyBuffer _ k.buffer (addLocks x 1) fun _ => rfl).trans ?_
      simp [Heap.newRef, Heap.alloc, Buffer.constant]

theorem quiet_primitive (hs : Primitive .quiet h h') (hl : Locked h) : Quiet h h' := by
  refine ⟨extends_primitive hs (by decide) (by decide), fun b hb => held_of_primitive hs hl ?_ hb⟩
  obtain hlen | ⟨hq, _⟩ := length_buffers_primitive hs
  · exact hlen
  · cases hq

/-- A content stays on the buffer it was made for. -/
theorem content_buffer_primitive (hs : Primitive q h h')
    (hc : h.contents[c]?.map Content.buffer = some b) :
    h'.contents[c]?.map Content.buffer = some b := by
  have append : ∀ k : Content, (h.contents ++ [k])[c]?.map Content.buffer = some b := by
    intro k
    obtain ⟨k₀, hk₀, _⟩ := Option.map_eq_some_iff.mp hc
    rw [List.getElem?_append_left (List.getElem?_eq_some_iff.mp hk₀).1]
    exact hc
  cases hs with
  | store | newRef | drop | notify => exact hc
  | link r c' =>
    obtain e | ⟨_, _, _, _, _, _, _, _, _, e⟩ := link_cases h r c' <;> rw [e] <;> exact hc
  | unlink r =>
    obtain ⟨_, e⟩ | ⟨_, _, _, _, _, _, e⟩ := unlink_cases h r <;> rw [e]
    · exact hc
    · rw [collect_contents]
      exact hc
  | steal target source =>
    obtain e | ⟨_, _, _, _, _, _, e⟩ := steal_cases h target source <;> rw [e] <;> exact hc
  | addContent k => exact append k
  | allocRef read write data type readable writable =>
    rw [Heap.allocRef, collect_contents, Heap.linkNew]
    obtain e | ⟨_, _, _, _, _, _, _, _, _, e⟩ := link_cases
      ((h.alloc data type readable writable).newRef read write)
      (h.alloc data type readable writable).refs.length h.contents.length <;> rw [e] <;>
      exact append _
  | nullify r c' k =>
    simp only [Heap.nullify, Heap.modifyBuffer, Heap.modifyContent, List.getElem?_modify]
    rw [← hc]
    cases h.contents[c]? with
    | none => rfl
    | some => by_cases he : c' = c <;> simp [he]

theorem content_buffer_steps {ok : Op → Heap → Prop} (hs : Steps ok h h')
    (hc : h.contents[c]?.map Content.buffer = some b) :
    h'.contents[c]?.map Content.buffer = some b := by
  refine Steps.invariant (P := fun g => g.contents[c]?.map Content.buffer = some b) ?_ hs hc
  intro op g _ hg
  exact invariant_primitives (P := fun g => g.contents[c]?.map Content.buffer = some b)
    (fun _ _ hp => content_buffer_primitive hp) (primitives_exec op g) hg

theorem quiet_exec (op : Op) (hop : op.effect = .quiet) (hl : Locked h) : Quiet h (exec op h) := by
  have hs := primitives_exec op h
  rw [hop] at hs
  refine (invariant_primitives (P := fun g => Locked g ∧ Quiet h g) ?_ hs ⟨hl, Quiet.refl h⟩).2
  intro g g' hp ⟨hg, hq⟩
  exact ⟨locked_primitive _ g g' hp hg, hq.trans (quiet_primitive hp hg)⟩

theorem locked_exec (op : Op) (hl : Locked h) : Locked (exec op h) :=
  invariant_primitives (locked_primitive op.effect) (primitives_exec op h) hl

theorem managed_exec (op : Op) (hm : Managed h) : Managed (exec op h) :=
  invariant_primitives (managed_primitive op.effect) (primitives_exec op h) hm

theorem extends_exec (op : Op) (hst : op.effect ≠ .store) (hrel : op.effect ≠ .release) (h : Heap) :
    Extends h (exec op h) := by
  refine invariant_primitives (P := Extends h) ?_ (primitives_exec op h) (Extends.refl h)
  intro g g' hp hg
  exact hg.trans (extends_primitive hp hst hrel)

@[simp] theorem contents_link (h : Heap) (r c : Nat) : (h.link r c).contents = h.contents := by
  obtain e | ⟨_, _, _, _, _, _, _, _, _, e⟩ := link_cases h r c <;> rw [e]
  rfl

@[simp] theorem contents_copyRef (h : Heap) (r : Nat) (read write : Bool) :
    (h.copyRef r read write).contents = h.contents := by
  unfold Heap.copyRef
  cases h.getContent r <;> simp [Heap.linkNew]

@[simp] theorem contents_destroy (h : Heap) (r : Nat) : (h.destroy r).contents = h.contents := by
  obtain ⟨_, e⟩ | ⟨_, _, _, _, _, _, e⟩ := unlink_cases h r <;> simp [Heap.destroy, Heap.reset, e]

/-- A new reference is linked unless a lock stands against one of its rights. -/
theorem linkNew_eq {b : Buffer} (read write : Bool) (hk : h.contents[c]? = some k)
    (hd : k.data ≠ 0) (hb : h.buffers[k.buffer]? = some b) :
    h.linkNew read write (some c) =
      if (read && b.readLocks != 0) || (write && b.writeLocks != 0) then h.newRef read write
      else ((h.newRef read write).setRef h.refs.length (some ⟨read, write, some c⟩)).modifyBuffer
        k.buffer (addLocks ⟨read, write, none⟩ 1) := by
  simp [Heap.linkNew, Heap.link, ref?_newRef_self, hk, hb, hd]

theorem content?_linkNew {b : Buffer} (read write : Bool) (hk : h.contents[c]? = some k)
    (hd : k.data ≠ 0) (hb : h.buffers[k.buffer]? = some b) :
    (h.linkNew read write (some c)).content? h.refs.length =
      if (read && b.readLocks != 0) || (write && b.writeLocks != 0) then none else some k := by
  rw [linkNew_eq read write hk hd hb]
  split
  · exact content?_newRef_self h read write
  · refine content?_eq_some.mpr ⟨⟨read, write, some c⟩, c, ?_, rfl, hk⟩
    exact ref?_setRef_self (ref?_newRef_self h read write) _

theorem content?_linkNew_none (h : Heap) (read write : Bool) :
    (h.linkNew read write none).content? h.refs.length = none := content?_newRef_self h read write

theorem getContent_of {r : Nat} {x : Ref} (hx : h.ref? r = some x) (hc : x.content = some c)
    (hk : h.contents[c]? = some k) (hd : k.data ≠ 0) : h.getContent r = some c := by
  simp [Heap.getContent, hx, content?_eq_some.mpr ⟨x, c, hx, hc, hk⟩, hd, hc]

theorem Locked.buffer_of_content (hl : Locked h) (hk : h.contents[c]? = some k) :
    ∃ b, h.buffers[k.buffer]? = some b := ⟨_, List.getElem?_eq_getElem (hl.buffer_lt c k hk)⟩

/-- A copy without rights is never refused. -/
theorem ref?_copyRef_free (hl : Locked h) (r : Nat) :
    (h.copyRef r false false).ref? h.refs.length = some ⟨false, false, h.getContent r⟩ := by
  unfold Heap.copyRef
  cases hc : h.getContent r with
  | none => exact ref?_newRef_self h false false
  | some c =>
    obtain ⟨x, k, _, _, hk, hd⟩ := getContent_eq_some hc
    obtain ⟨b, hb⟩ := hl.buffer_of_content hk
    have hlink := content?_linkNew false false hk hd hb
    simp only [Bool.false_and, Bool.or_self, Bool.false_eq_true, if_false] at hlink
    have hnew := ref?_newRef_self h false false
    obtain e | ⟨y, _, _, hy, _, _, _, _, _, e⟩ := link_cases (h.newRef false false) h.refs.length c
    · rw [Heap.linkNew, e, content?_newRef_self] at hlink
      cases hlink
    · rw [hnew] at hy
      cases hy
      rw [Heap.linkNew, e]
      exact ref?_setRef_self hnew _

/-- A reference without rights to new data is linked. -/
theorem allocRef_free (h : Heap) {data : Nat} (hd : data ≠ 0) (type : Datatype)
    (readable writable : Bool) :
    (h.allocRef false false data type readable writable).ref? h.refs.length =
        some ⟨false, false, some h.contents.length⟩ ∧
    (h.allocRef false false data type readable writable).contents[h.contents.length]? =
        some ⟨h.buffers.length, data, type, h.contents.length⟩ ∧
    (h.allocRef false false data type readable writable).buffers[h.buffers.length]? =
        some ⟨some ⟨data, type⟩, if readable then 0 else 1, if writable then 0 else 1, [],
          readable, writable⟩ := by
  have hnew := ref?_newRef_self (h.alloc data type readable writable) false false
  have hlink : ((h.alloc data type readable writable).newRef false false).link h.refs.length
      h.contents.length =
      (((h.alloc data type readable writable).newRef false false).setRef h.refs.length
        (some ⟨false, false, some h.contents.length⟩)).modifyBuffer h.buffers.length
          (addLocks ⟨false, false, none⟩ 1) := by
    rw [Heap.link, show h.refs.length = (h.alloc data type readable writable).refs.length from rfl,
      hnew]
    simp [Heap.alloc, Heap.addContent, hd]
  rw [Heap.allocRef, Heap.linkNew,
    show (h.alloc data type readable writable).refs.length = h.refs.length from rfl, hlink]
  refine ⟨?_, ?_, ?_⟩
  · rw [ref?_collect]
    exact ref?_setRef_self hnew _
  · simp [Heap.alloc, Heap.addContent]
  · simp [Heap.alloc, Heap.modifyBuffer, addLocks]

theorem writers_eq_zero :
    h.writers b = 0 ↔
      ∀ r x, h.ref? r = some x → x.write = true → onBuffer h.contents b x = false := by
  simp only [Heap.writers, Heap.count, List.countP_eq_zero]
  constructor
  · intro hz r x hx hw
    have := hz (some x) (List.mem_of_getElem? (ref?_eq_some.mp hx))
    simpa [hw] using this
  · intro hz slot hmem
    obtain ⟨r, hr⟩ := List.getElem?_of_mem hmem
    cases slot with
    | none => simp
    | some x =>
      simp only [Option.any_some, Bool.and_eq_true, not_and, Bool.not_eq_true]
      exact hz r x (ref?_eq_some.mpr hr)

/-- A readable buffer can be read when nobody may write it. -/
theorem Locked.readLocks_eq_zero (hl : Locked h) (hx : h.buffers[b]? = some x) :
    x.readLocks = 0 ↔ x.readable = true ∧ h.writers b = 0 := by
  rw [hl.readLocks b x hx, closed]
  cases x.readable with
  | true => simp
  | false =>
    simp
    omega

end Pdi.Reference
