import Pdi.ReferenceCounts

/-!
# Lock accounting of references

The locks of a buffer count its linked references exactly, whatever was done
with references before, and no reference that may write a buffer shares it with
another one that may read or write it.
-/
namespace Pdi.Reference

open Pdi.Memory Pdi.Datatypes

variable {h h' : Heap} {r b₀ b target source s : Nat} {x y : Ref} {q : Bool}

/-- The lock a buffer is created with when an access is not allowed at all. -/
def closed (allowed : Bool) : Int := if allowed then 0 else 1

structure Locked (h : Heap) : Prop where
  content_lt : ∀ (r : Nat) (x : Ref) (c : Nat),
    h.ref? r = some x → x.content = some c → c < h.contents.length
  buffer_lt : ∀ (c : Nat) (k : Content), h.contents[c]? = some k → k.buffer < h.buffers.length
  readLocks : ∀ (b : Nat) (buffer : Buffer), h.buffers[b]? = some buffer →
    buffer.readLocks = closed buffer.readable + (h.writers b : Int)
  writeLocks : ∀ (b : Nat) (buffer : Buffer), h.buffers[b]? = some buffer →
    buffer.writeLocks = closed buffer.writable + (h.users b : Int)
  exclusive : ∀ b : Nat, h.writers b = 0 ∨ h.users b ≤ 1

theorem locked_empty (mem : Mem Byte) : Locked (Heap.empty mem) := by
  constructor <;> simp [Heap.empty, Heap.ref?, Heap.writers, Heap.users, Heap.count]

/-- The invariant looks at references, contents and buffers only. -/
theorem Locked.congr (hl : Locked h) (hr : h'.refs = h.refs) (hc : h'.contents = h.contents)
    (hb : h'.buffers = h.buffers) : Locked h' := by
  have hcount : ∀ p b, h'.count p b = h.count p b := by intro p b; simp [Heap.count, hr, hc]
  have href : ∀ r, h'.ref? r = h.ref? r := by intro r; simp [Heap.ref?, hr]
  constructor
  · intro r x c hx hcx; rw [hc]; exact hl.content_lt r x c (by rw [← href]; exact hx) hcx
  · intro c k hk; rw [hb]; exact hl.buffer_lt c k (by rw [← hc]; exact hk)
  · intro b buffer h'b
    rw [Heap.writers, hcount]
    exact hl.readLocks b buffer (by rw [← hb]; exact h'b)
  · intro b buffer h'b
    rw [Heap.users, hcount]
    exact hl.writeLocks b buffer (by rw [← hb]; exact h'b)
  · intro b; rw [Heap.writers, Heap.users, hcount, hcount]; exact hl.exclusive b

theorem Locked.collect (hl : Locked h) (b : Nat) : Locked (h.collect b) :=
  hl.congr (by simp) (by simp) (by simp)

theorem Locked.newRef (hl : Locked h) (read write : Bool) : Locked (h.newRef read write) := by
  constructor
  · intro r x c hx hc
    obtain h' | ⟨_, rfl⟩ := ref?_newRef hx
    · exact hl.content_lt r x c h' hc
    · simp at hc
  · exact hl.buffer_lt
  · intro b buffer hb
    rw [Heap.writers, count_newRef]
    exact hl.readLocks b buffer hb
  · intro b buffer hb
    rw [Heap.users, count_newRef]
    exact hl.writeLocks b buffer hb
  · intro b
    rw [Heap.writers, Heap.users, count_newRef, count_newRef]
    exact hl.exclusive b

/-- One buffer changes its locks by as much as its counts change; nothing else moves. -/
theorem Locked.rebalance (hl : Locked h) (b₀ : Nat) (f : Buffer → Buffer) (dr dw : Int)
    (hbuf : h'.buffers = h.buffers.modify b₀ f)
    (hf : ∀ b, (f b).readable = b.readable ∧ (f b).writable = b.writable ∧
      (f b).readLocks = b.readLocks + dr ∧ (f b).writeLocks = b.writeLocks + dw)
    (hw : ∀ b, (h'.writers b : Int) = h.writers b + if b₀ = b then dr else 0)
    (hu : ∀ b, (h'.users b : Int) = h.users b + if b₀ = b then dw else 0)
    (hcon : ∀ (r : Nat) (x : Ref) (c : Nat), h'.ref? r = some x → x.content = some c →
      c < h'.contents.length)
    (hblt : ∀ (c : Nat) (k : Content), h'.contents[c]? = some k → k.buffer < h.buffers.length)
    (hex : ∀ b, h'.writers b = 0 ∨ h'.users b ≤ 1) : Locked h' := by
  have hold : ∀ b buffer, h'.buffers[b]? = some buffer →
      ∃ old, h.buffers[b]? = some old ∧ buffer = if b₀ = b then f old else old := by
    intro b buffer hb
    rw [hbuf, List.getElem?_modify] at hb
    simp only [Option.map_eq_map, Option.map_eq_some_iff] at hb
    obtain ⟨old, hold, rfl⟩ := hb
    exact ⟨old, hold, by split <;> rfl⟩
  refine ⟨hcon, ?_, ?_, ?_, hex⟩
  · intro c k hk
    rw [hbuf, List.length_modify]
    exact hblt c k hk
  · intro b buffer hb
    obtain ⟨old, ho, rfl⟩ := hold b buffer hb
    have hr := hl.readLocks b old ho
    have hwb := hw b
    by_cases hbb : b₀ = b
    · simp only [if_pos hbb, hf old] at hwb ⊢; omega
    · simp only [if_neg hbb] at hwb ⊢; omega
  · intro b buffer hb
    obtain ⟨old, ho, rfl⟩ := hold b buffer hb
    have hr := hl.writeLocks b old ho
    have hub := hu b
    by_cases hbb : b₀ = b
    · simp only [if_pos hbb, hf old] at hub ⊢; omega
    · simp only [if_neg hbb] at hub ⊢; omega

theorem addLocks_spec (x : Ref) (delta : Int) (b : Buffer) :
    (addLocks x delta b).readable = b.readable ∧ (addLocks x delta b).writable = b.writable ∧
    (addLocks x delta b).readLocks = b.readLocks + (if x.write then delta else 0) ∧
    (addLocks x delta b).writeLocks = b.writeLocks + (if x.read || x.write then delta else 0) := by
  simp only [addLocks]
  refine ⟨trivial, trivial, ?_, ?_⟩ <;> split <;> simp

/-- A reference linked to nothing by a heap that keeps the accounting has no content. -/
theorem Locked.content_none (hl : Locked h) (hx : h.ref? r = some x) (hnull : h.content? r = none) :
    x.content = none := by
  cases hc : x.content with
  | none => rfl
  | some d =>
    have hd := hl.content_lt r x d hx hc
    simp [Heap.content?, hx, hc, hd] at hnull

/-- Locks at zero mean that no right is taken that would stand against `x`. -/
theorem Locked.link_exclusive (hl : Locked h) {buffer : Buffer}
    (hb : h.buffers[b₀]? = some buffer) (hread : x.read = true → buffer.readLocks = 0)
    (hwrite : x.write = true → buffer.writeLocks = 0) (b : Nat) :
    h.writers b + (x.write && b₀ == b).toNat = 0 ∨
      h.users b + ((x.read || x.write) && b₀ == b).toNat ≤ 1 := by
  have hex := hl.exclusive b
  by_cases hkb : b₀ = b
  · subst hkb
    have hr := hl.readLocks _ buffer hb
    have hw := hl.writeLocks _ buffer hb
    cases hxw : x.write with
    | true =>
      have h0 := hwrite hxw
      have : 0 ≤ closed buffer.writable := by unfold closed; split <;> decide
      right
      simp
      omega
    | false =>
      cases hxr : x.read with
      | true =>
        have h0 := hread hxr
        have : 0 ≤ closed buffer.readable := by unfold closed; split <;> decide
        left
        simp
        omega
      | false => simpa using hex
  · have hne : (b₀ == b) = false := by simpa using hkb
    simpa [hne] using hex

theorem cast_add_toNat {m n : Nat} (h : m = n + (q && b₀ == b).toNat) :
    (m : Int) = n + if b₀ = b then (if q then 1 else 0) else 0 := by
  subst h
  by_cases hb : b₀ = b
  · cases q <;> simp [hb]
  · simp [hb, beq_eq_false_iff_ne.mpr hb]

theorem cast_sub_toNat {m n : Nat} (h : m + (q && b₀ == b).toNat = n) :
    (m : Int) = n + if b₀ = b then (if q then -1 else 0) else 0 := by
  subst h
  by_cases hb : b₀ = b
  · cases q with
    | false => simp [hb]
    | true =>
      have hone : (true && b₀ == b).toNat = 1 := by simp [hb]
      rw [hone, if_pos hb, if_pos rfl]
      omega
  · simp [hb, beq_eq_false_iff_ne.mpr hb]

/-- Linking a null reference keeps the accounting: its rights are counted where
its locks are added, and the locks that stood at zero rule out a conflict. -/
theorem Locked.link (hl : Locked h) {c : Nat} (hnull : h.content? r = none) :
    Locked (h.link r c) := by
  obtain e | ⟨x, k, buf, hx, hk, hbuf, _, hread, hwrite, e⟩ := link_cases h r c
  · rwa [e]
  have hcount := count_attach hx (hl.content_none hx hnull) hk
  rw [e]
  refine hl.rebalance k.buffer (addLocks x 1) _ _ rfl (addLocks_spec x 1)
    (fun b => cast_add_toNat (hcount (fun _ write => write) b))
    (fun b => cast_add_toNat (hcount (fun read write => read || write) b)) ?_ hl.buffer_lt ?_
  · intro s y d hy hd
    obtain ⟨_, hy'⟩ | ⟨_, hy'⟩ := ref?_setRef (h := h) (y := some _) hy
    · cases hy'
      obtain rfl : c = d := by simpa using hd
      exact (List.getElem?_eq_some_iff.mp hk).1
    · exact hl.content_lt s y d hy' hd
  · intro b
    rw [Heap.writers, Heap.users, count_modifyBuffer, count_modifyBuffer, hcount, hcount]
    exact hl.link_exclusive hbuf hread hwrite b

/-- Fewer references cannot conflict where more did not. -/
theorem exclusive_mono {w w' u u' n m : Nat} (h : w = 0 ∨ u ≤ 1) (hw : w' + n = w)
    (hu : u' + m = u) : w' = 0 ∨ u' ≤ 1 := by omega

theorem Locked.unlink (hl : Locked h) (r : Nat) : Locked (h.unlink r) := by
  obtain ⟨_, e⟩ | ⟨x, c, k, hx, hc, hk, e⟩ := unlink_cases h r
  · rwa [e]
  have hcount := count_detach hx hc hk (some { x with content := none }) (by simp)
  rw [e]
  apply Locked.collect
  refine hl.rebalance k.buffer (fun b => addLocks x (-1) (forget r b)) _ _ rfl
    (fun b => addLocks_spec x (-1) (forget r b))
    (fun b => cast_sub_toNat (hcount (fun _ write => write) b))
    (fun b => cast_sub_toNat (hcount (fun read write => read || write) b)) ?_ hl.buffer_lt
    (fun b => exclusive_mono (hl.exclusive b) (hcount (fun _ write => write) b)
      (hcount (fun read write => read || write) b))
  intro s y d hy hd
  obtain ⟨_, hy'⟩ | ⟨_, hy'⟩ := ref?_setRef (h := h.modifyBuffer _ _) (y := some _) hy
  · cases hy'
    simp at hd
  · exact hl.content_lt s y d hy' hd

/-- A change of one buffer that leaves its locks alone, with all counts as before. -/
theorem Locked.same_counts (hl : Locked h) (b₀ : Nat) (f : Buffer → Buffer)
    (hbuf : h'.buffers = h.buffers.modify b₀ f)
    (hf : ∀ b, (f b).readable = b.readable ∧ (f b).writable = b.writable ∧
      (f b).readLocks = b.readLocks ∧ (f b).writeLocks = b.writeLocks)
    (hc : ∀ p b, h'.count p b = h.count p b)
    (hcon : ∀ (r : Nat) (x : Ref) (c : Nat), h'.ref? r = some x → x.content = some c →
      c < h'.contents.length)
    (hblt : ∀ (c : Nat) (k : Content), h'.contents[c]? = some k → k.buffer < h.buffers.length) :
    Locked h' := by
  refine hl.rebalance b₀ f 0 0 hbuf (by simpa using hf) ?_ ?_ hcon hblt ?_
  · intro b; simp [Heap.writers, hc]
  · intro b; simp [Heap.users, hc]
  · intro b; simpa [Heap.writers, Heap.users, hc] using hl.exclusive b

/-- Stealing moves a link between two references of the same rights. -/
theorem count_steal (hy : h.ref? target = some y) (hx : h.ref? source = some x)
    (hne : target ≠ source) (hnull : y.content = none) (hr : y.read = x.read)
    (hw : y.write = x.write) (p : Bool → Bool → Bool) (b : Nat) :
    (h.steal target source).count p b = h.count p b := by
  obtain ⟨yread, ywrite, ycontent⟩ := y
  subst hr hw
  unfold Heap.steal
  rw [hy, hx]
  cases hk : h.content? source with
  | none => rfl
  | some =>
    obtain ⟨x', c, hx', hc, hcon⟩ := content?_eq_some.mp hk
    obtain rfl : x = x' := by rw [hx] at hx'; exact Option.some.inj hx'
    have hx₁ : (h.setRef target (some ⟨x.read, x.write, x.content⟩)).ref? source = some x := by
      rw [ref?_setRef_ne _ _ (Ne.symm hne), hx]
    have h₁ := count_attach hy hnull hcon p b
    have h₂ := count_detach hx₁ hc hcon (some { x with content := none }) (by simp) p b
    rw [← hc] at h₁
    rw [h₁] at h₂
    exact Nat.add_right_cancel h₂

theorem steal_cases (h : Heap) (target source : Nat) :
    h.steal target source = h ∨
    ∃ x y k, h.ref? target = some y ∧ h.ref? source = some x ∧ h.content? source = some k ∧
      h.steal target source = ((h.modifyBuffer k.buffer (forget source)).setRef target
        (some { y with content := x.content })).setRef source
          (some { x with content := none }) := by
  unfold Heap.steal
  split
  · next y x k hy hx hk => exact .inr ⟨x, y, k, hy, hx, hk, rfl⟩
  · exact .inl rfl

theorem Locked.steal (hl : Locked h) (hy : h.ref? target = some y) (hx : h.ref? source = some x)
    (hne : target ≠ source) (hnull : h.content? target = none) (hr : y.read = x.read)
    (hw : y.write = x.write) : Locked (h.steal target source) := by
  have hcount := count_steal hy hx hne (hl.content_none hy hnull) hr hw
  obtain e | ⟨x', y', k, _, hx', _, e⟩ := steal_cases h target source <;> rw [e] at hcount ⊢
  · exact hl
  · refine hl.same_counts k.buffer (forget source) rfl (fun b => ⟨rfl, rfl, rfl, rfl⟩) hcount ?_
      hl.buffer_lt
    intro s z d hz hd
    obtain ⟨_, hz'⟩ | ⟨_, hz'⟩ := ref?_setRef (y := some _) hz
    · cases hz'
      simp at hd
    · obtain ⟨_, hz''⟩ | ⟨_, hz''⟩ := ref?_setRef (h := h) (y := some _) hz'
      · cases hz''
        exact hl.content_lt source x' d hx' hd
      · exact hl.content_lt s z d hz'' hd

/-- The changes of one buffer that concern neither its locks nor how it was created. -/
theorem Locked.modifyBuffer (hl : Locked h) (b : Nat) (f : Buffer → Buffer)
    (hf : ∀ b, (f b).readable = b.readable ∧ (f b).writable = b.writable ∧
      (f b).readLocks = b.readLocks ∧ (f b).writeLocks = b.writeLocks) :
    Locked (h.modifyBuffer b f) :=
  hl.same_counts b f rfl hf (fun _ _ => rfl) hl.content_lt hl.buffer_lt

theorem Locked.modifyContent (hl : Locked h) (c : Nat) (f : Content → Content)
    (hf : ∀ k, (f k).buffer = k.buffer) : Locked (h.modifyContent c f) := by
  refine hl.same_counts h.buffers.length id (by simp [Heap.modifyContent]) (by simp)
    (count_modifyContent h c f hf) ?_ ?_
  · intro r x d hx hd
    simpa [Heap.modifyContent] using hl.content_lt r x d hx hd
  · intro d k hk
    simp only [Heap.modifyContent, List.getElem?_modify, Option.map_eq_map,
      Option.map_eq_some_iff] at hk
    obtain ⟨old, hold, rfl⟩ := hk
    have := hl.buffer_lt d old hold
    split <;> simpa [hf] using this

/-- A new content is not counted before a reference is linked to it. -/
theorem Locked.count_addContent (hl : Locked h) (k : Content) (p : Bool → Bool → Bool) (b : Nat) :
    (h.addContent k).count p b = h.count p b := by
  refine List.countP_congr ?_
  intro slot hs
  cases slot with
  | none => simp
  | some x =>
    obtain ⟨r, hr⟩ := List.getElem?_of_mem hs
    have hlt := fun c => hl.content_lt r x c (ref?_eq_some.mpr hr)
    simp [Heap.addContent, onBuffer_append k b hlt]

/-- No reference is linked to a buffer that does not exist yet. -/
theorem Locked.count_new (hl : Locked h) (p : Bool → Bool → Bool) (hb : h.buffers.length ≤ b) :
    h.count p b = 0 := by
  refine List.countP_eq_zero.mpr ?_
  intro slot _
  cases slot with
  | none => simp
  | some x =>
    have hoff : onBuffer h.contents b x = false := by
      cases hc : x.content with
      | none => simp [onBuffer, hc]
      | some c =>
        cases hk : h.contents[c]? with
        | none => simp [onBuffer, hc, hk]
        | some k =>
          have := hl.buffer_lt c k hk
          have hne : k.buffer ≠ b := by omega
          simp [onBuffer, hc, hk, hne]
    simp [hoff]

theorem Locked.extend (hl : Locked h) (k : Content) (new : List Buffer)
    (hk : k.buffer < h.buffers.length + new.length)
    (hnew : ∀ b ∈ new, b.readLocks = closed b.readable ∧ b.writeLocks = closed b.writable) :
    Locked { h with contents := h.contents ++ [k], buffers := h.buffers ++ new } := by
  have hcount : ∀ p b, Heap.count
      { h with contents := h.contents ++ [k], buffers := h.buffers ++ new } p b = h.count p b :=
    hl.count_addContent k
  refine ⟨?_, ?_, ?_, ?_, ?_⟩
  · intro r x c hx hc
    have := hl.content_lt r x c hx hc
    simp only [List.length_append]
    omega
  · intro c k' hk'
    simp only [List.length_append]
    rw [List.getElem?_append] at hk'
    split at hk'
    · have := hl.buffer_lt c k' hk'
      omega
    · obtain rfl := List.mem_singleton.mp (List.mem_of_getElem? hk')
      exact hk
  · intro b buffer hb
    rw [Heap.writers, hcount]
    rw [List.getElem?_append] at hb
    split at hb
    · exact hl.readLocks b buffer hb
    · rw [hl.count_new _ (by omega)]
      simpa using (hnew buffer (List.mem_of_getElem? hb)).1
  · intro b buffer hb
    rw [Heap.users, hcount]
    rw [List.getElem?_append] at hb
    split at hb
    · exact hl.writeLocks b buffer hb
    · rw [hl.count_new _ (by omega)]
      simpa using (hnew buffer (List.mem_of_getElem? hb)).2
  · intro b
    rw [Heap.writers, Heap.users, hcount, hcount]
    exact hl.exclusive b

/-- Destroying a reference that does not exist changes nothing. -/
theorem set_none_of_ref? (hx : h.ref? r = none) : (h.setRef r none).refs = h.refs := by
  refine List.ext_getElem? fun s => ?_
  simp only [Heap.setRef, List.getElem?_set]
  by_cases he : r = s
  · subst he
    cases hr : h.refs[r]? with
    | none => simpa using hr
    | some slot =>
      have : slot = none := by simpa [Heap.ref?, hr] using hx
      simp [this, (List.getElem?_eq_some_iff.mp hr).1]
  · simp [he]

theorem Locked.count_drop (hl : Locked h) (hnull : h.content? r = none) (p : Bool → Bool → Bool)
    (b : Nat) : (h.setRef r none).count p b = h.count p b := by
  cases hx : h.ref? r with
  | none => simp [Heap.count, set_none_of_ref? hx]
  | some =>
    have hnone := hl.content_none hx hnull
    have := count_setRef hx none p b
    simpa [onBuffer, hnone] using this

theorem Locked.drop (hl : Locked h) (hnull : h.content? r = none) : Locked (h.setRef r none) := by
  refine hl.same_counts h.buffers.length id (by simp) (by simp) (hl.count_drop hnull) ?_
    hl.buffer_lt
  intro s z d hz hd
  obtain ⟨_, hz'⟩ | ⟨_, hz'⟩ := ref?_setRef hz
  · simp at hz'
  · exact hl.content_lt s z d hz' hd

theorem Locked.held_lt (hl : Locked h) (hb : h.Held b) : b < h.buffers.length := by
  obtain ⟨r, k, hk, rfl⟩ := hb
  obtain ⟨_, c, _, _, hcon⟩ := content?_eq_some.mp hk
  exact hl.buffer_lt c k hcon

theorem Locked.alloc (hl : Locked h) (data : Nat) (type : Datatype) (readable writable : Bool) :
    Locked (h.alloc data type readable writable) := hl.extend _ _ (by simp) (by simp [closed])

/-- Every primitive change keeps the accounting. -/
theorem locked_primitive (q : Effect) (h h' : Heap) (hs : Primitive q h h') (hl : Locked h) :
    Locked h' := by
  cases hs with
  | store => exact hl.congr rfl rfl rfl
  | newRef read write => exact hl.newRef read write
  | link r c hnull => exact hl.link hnull
  | unlink r => exact hl.unlink r
  | steal target source x y hy hx hne hnull hread hwrite =>
    exact hl.steal hy hx hne hnull hread hwrite
  | drop r hnull => exact hl.drop hnull
  | notify b => exact hl.modifyBuffer b _ (fun _ => ⟨rfl, rfl, rfl, rfl⟩)
  | addContent k hheld =>
    exact (hl.extend k [] (by simpa using hl.held_lt hheld) (by simp)).congr rfl rfl
      (by simp [Heap.addContent])
  | allocRef read write data type readable writable =>
    exact (((hl.alloc data type readable writable).newRef read write).link
      (content?_newRef_self _ _ _)).collect _
  | nullify r c k =>
    exact ((hl.modifyContent c (fun k => { k with data := 0 }) (fun _ => rfl)).modifyBuffer k.buffer
      (fun b => { b with notifications := [], deallocator := none })
      (fun _ => ⟨rfl, rfl, rfl, rfl⟩)).congr rfl rfl rfl

theorem locked_runFrom (mem : Mem Byte) (ops : List Op) : Locked (runFrom mem ops) :=
  invariant_run locked_primitive ops _ (locked_empty mem)

/-- Two different references that are counted make the count at least two. -/
theorem two_le_count {p : Bool → Bool → Bool} (hne : r ≠ s) (hx : h.ref? r = some x)
    (hy : h.ref? s = some y) (hpx : (p x.read x.write && onBuffer h.contents b x) = true)
    (hpy : (p y.read y.write && onBuffer h.contents b y) = true) : 2 ≤ h.count p b := by
  have hset := count_setRef hx none p b
  have hrest : 0 < (h.setRef r none).count p b := by
    refine List.countP_pos_iff.mpr ⟨some y, ?_, by simpa using hpy⟩
    exact List.mem_of_getElem? (ref?_eq_some.mp (by rw [ref?_setRef_ne h _ hne.symm]; exact hy))
  rw [hpx] at hset
  simp at hset
  omega

theorem Locked.no_conflict (hl : Locked h) (hne : r ≠ s) (hx : h.ref? r = some x)
    (hy : h.ref? s = some y) (hbx : onBuffer h.contents b x = true)
    (hby : onBuffer h.contents b y = true) (hw : x.write = true) :
    y.read = false ∧ y.write = false := by
  have hwriters : 0 < h.writers b :=
    List.countP_pos_iff.mpr ⟨some x, List.mem_of_getElem? (ref?_eq_some.mp hx), by simp [hw, hbx]⟩
  by_contra hcon
  have huser : (y.read || y.write) = true := by
    cases hyr : y.read <;> cases hyw : y.write <;> simp_all
  have htwo : 2 ≤ h.users b := two_le_count hne hx hy (by simp [hw, hbx]) (by simp [huser, hby])
  have := hl.exclusive b
  omega

/-- After any sequence of operations the locks of every buffer count its linked
references exactly, so that they never fall below zero, and a reference with the
right to write is alone among those with a right. -/
theorem runFrom_lock_accounting (mem : Mem Byte) (ops : List Op) (b : Nat) (buffer : Buffer)
    (hb : (runFrom mem ops).buffers[b]? = some buffer) :
    buffer.readLocks = closed buffer.readable + ((runFrom mem ops).writers b : Int) ∧
    buffer.writeLocks = closed buffer.writable + ((runFrom mem ops).users b : Int) ∧
    0 ≤ buffer.readLocks ∧ 0 ≤ buffer.writeLocks ∧
    ∀ (r s : Nat) (x y : Ref), r ≠ s →
      (runFrom mem ops).ref? r = some x → (runFrom mem ops).ref? s = some y →
      onBuffer (runFrom mem ops).contents b x = true →
      onBuffer (runFrom mem ops).contents b y = true →
      x.write = true → y.read = false ∧ y.write = false := by
  have hl := locked_runFrom mem ops
  have hr := hl.readLocks b buffer hb
  have hw := hl.writeLocks b buffer hb
  have hr0 : 0 ≤ closed buffer.readable := by unfold closed; split <;> decide
  have hw0 : 0 ≤ closed buffer.writable := by unfold closed; split <;> decide
  refine ⟨hr, hw, by omega, by omega, ?_⟩
  intro r s x y hne hx hy hbx hby hwrite
  exact hl.no_conflict hne hx hy hbx hby hwrite

/-- A reader, its sub-reference and a second reader of the sub-reference. -/
def readersOfArray : List Op :=
  [.create true false 64 (.array typeForInt64 2 0 2 []) true true, .access 0 (.index 1),
    .copy 1 true false]

theorem runFrom_lock_accounting_readers :
    ∃ buffer, (runFrom (fun _ => 0) readersOfArray).buffers[0]? = some buffer ∧
      buffer.writeLocks =
        closed buffer.writable + ((runFrom (fun _ => 0) readersOfArray).users 0 : Int) ∧
      (runFrom (fun _ => 0) readersOfArray).users 0 = 2 :=
  ⟨_, rfl, (runFrom_lock_accounting (fun _ => 0) readersOfArray 0 _ rfl).2.1, by decide⟩

end Pdi.Reference
