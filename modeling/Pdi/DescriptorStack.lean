import Pdi.DescriptorRemoval

/-!
# The stack of a descriptor

What holds of the reference stack after any sequence of calls, as long as the
callbacks leave its references alone, and what is left of it when a call throws.
-/
namespace Pdi.Descriptor

open Pdi.Align Pdi.Memory Pdi.Datatypes Pdi.Reference Pdi.Run

variable {s : State} {ok : Op → Heap → Prop} {r n : Nat} {reaction : Reaction}

/-- What is known of a descriptor whatever was called before. -/
structure Valid (s : State) : Prop where
  managed : Managed s.heap
  live : ∀ r ∈ s.holders, ∃ x, s.heap.ref? r = some x
  nodup : s.holders.Nodup

theorem Valid.exist (hv : Valid s) : Exist s.holders s.heap := by
  intro r hr
  obtain ⟨x, hx⟩ := hv.live r hr
  exact (List.getElem?_eq_some_iff.mp (ref?_eq_some.mp hx)).1

theorem managed_steps {h h' : Heap} (hs : Steps ok h h') (hm : Managed h) : Managed h' :=
  Steps.invariant (fun op _ _ hg => managed_exec op hg) hs hm

/-- The buffer can be read as far as references outside the stack are concerned. -/
def Readable (s : State) (b : Nat) : Prop :=
  (∃ x, s.heap.buffers[b]? = some x ∧ x.readable = true) ∧
  ∀ r y, s.heap.ref? r = some y → y.write = true → onBuffer s.heap.contents b y = true →
    r ∈ s.holders

section Emptied

theorem quiet_emptied (hm : Managed s.heap) : Quiet s.heap s.emptied ∧ Managed s.emptied := by
  have hstep : ∀ op g, op.effect = .quiet → Quiet s.heap g ∧ Managed g →
      Quiet s.heap (exec op g) ∧ Managed (exec op g) :=
    fun op g hop ⟨hq, hg⟩ => ⟨hq.trans (quiet_exec op hop hg.locked), managed_exec op hg⟩
  have href := hstep (.copy s.top false false) s.heap rfl ⟨Quiet.refl _, hm⟩
  exact hstep (.destroy (s.holders.getLastD 0)) _ rfl (hstep (.destroy s.top) _ rfl href)

theorem ref?_destroy_self (h : Heap) (r : Nat) : (h.destroy r).ref? r = none := by
  simp [Heap.destroy, Heap.setRef, Heap.ref?, List.getElem?_set]
  split <;> simp

/-- The references after both have been popped: those outside the stack and `oldref`. -/
theorem ref?_emptied (hv : Valid s) (hl : s.last = true) (r : Nat) :
    s.emptied.ref? r =
      if r ∈ s.holders then none
      else if r = s.heap.refs.length then some ⟨false, false, s.heap.getContent s.top⟩
      else s.heap.ref? r := by
  obtain ⟨top, p, hh⟩ := State.last.holders hl
  have hfree := ref?_copyRef_free hv.managed.locked s.top
  have hex := hv.exist
  have he : s.emptied = (s.referring.destroy top).destroy p := by
    simp [State.emptied, State.top, hh]
  rw [hh] at hex ⊢
  rw [he]
  by_cases hp : r = p
  · subst hp
    simp [ref?_destroy_self]
  · rw [ref?_destroy_ne _ hp]
    by_cases ht : r = top
    · subst ht
      simp [ref?_destroy_self]
    · rw [ref?_destroy_ne _ ht]
      simp only [List.mem_cons, ht, hp, List.not_mem_nil, or_self, if_false]
      split
      · next hr =>
        rw [hr]
        exact hfree
      · next hr =>
        by_cases hlt : r < s.heap.refs.length
        · exact ref?_copyRef_old _ _ _ _ hlt
        · have : s.referring.refs.length ≤ r := by
            simp [State.referring]
            omega
          simp [Heap.ref?, List.getElem?_eq_none this,
            List.getElem?_eq_none (show s.heap.refs.length ≤ r by omega)]

@[simp] theorem contents_emptied (s : State) : s.emptied.contents = s.heap.contents := by
  simp [State.emptied, State.referring]

theorem writers_emptied (hv : Valid s) (hl : s.last = true) (b : Nat) :
    s.emptied.writers b = 0 ↔ ∀ r y, s.heap.ref? r = some y → y.write = true →
      onBuffer s.heap.contents b y = true → r ∈ s.holders := by
  rw [writers_eq_zero, contents_emptied]
  constructor
  · intro hz r y hy hw hb
    by_contra hr
    have hlt : r < s.heap.refs.length := (List.getElem?_eq_some_iff.mp (ref?_eq_some.mp hy)).1
    have := hz r y (by rw [ref?_emptied hv hl, if_neg hr, if_neg (by omega), hy]) hw
    rw [hb] at this
    cases this
  · intro hz r y hy hw
    rw [ref?_emptied hv hl] at hy
    split at hy
    · cases hy
    · next hr =>
      split at hy
      · cases hy
        cases hw
      · cases hb : onBuffer s.heap.contents b y with
        | false => rfl
        | true => exact absurd (hz r y hy hw hb) hr

/-- A reader for `oldref` when both have been popped. -/
theorem content?_emptied (hv : Valid s) (hl : s.last = true) (k : Content) :
    (s.emptied.copyRef s.heap.refs.length true false).content? s.emptied.refs.length = some k ↔
      s.heap.content? s.top = some k ∧ k.data ≠ 0 ∧ Readable s k.buffer := by
  obtain ⟨hq, hm⟩ := quiet_emptied hv.managed
  have hold : s.emptied.ref? s.heap.refs.length =
      some ⟨false, false, s.heap.getContent s.top⟩ := by
    have hnew : s.heap.refs.length ∉ s.holders := hv.exist.fresh (Nat.le_refl _)
    rw [ref?_emptied hv hl, if_neg hnew, if_pos rfl]
  cases hc : s.heap.getContent s.top with
  | none =>
    rw [hc] at hold
    have hnone : s.emptied.getContent s.heap.refs.length = none := by
      simp [Heap.getContent, Heap.content?, hold]
    rw [Heap.copyRef, hnone, content?_linkNew_none]
    constructor
    · intro h
      cases h
    · rintro ⟨hk, hd, _⟩
      obtain ⟨x, c, hx, hxc, hcon⟩ := content?_eq_some.mp hk
      rw [getContent_of hx hxc hcon hd] at hc
      cases hc
  | some c =>
    rw [hc] at hold
    obtain ⟨x, k₀, hx, hxc, hk₀, hd⟩ := getContent_eq_some hc
    have hk₀' := hq.content hk₀
    obtain ⟨b, hb⟩ := hv.managed.locked.buffer_of_content hk₀
    obtain ⟨b', hb', hconst⟩ := hq.buffer hb
    have hread : b'.readLocks = 0 ↔ Readable s k₀.buffer := by
      have hr : b'.readable = b.readable := congrArg (fun t => t.2.1) hconst
      rw [hm.locked.readLocks_eq_zero hb', hr, writers_emptied hv hl, Readable, hb]
      simp
    rw [Heap.copyRef, getContent_of hold rfl hk₀' hd, content?_linkNew true false hk₀' hd hb']
    have htop : s.heap.content? s.top = some k₀ := content?_eq_some.mpr ⟨x, c, hx, hxc, hk₀⟩
    rw [htop]
    by_cases hz : b'.readLocks = 0
    · have := hread.mp hz
      simp only [hz, bne_self_eq_false, Bool.and_false, Bool.false_and, Bool.or_self,
        Bool.false_eq_true, if_false, Option.some.injEq]
      constructor
      · rintro rfl
        exact ⟨rfl, hd, this⟩
      · exact fun h => h.1
    · have hn : ¬ Readable s k₀.buffer := fun h => hz (hread.mpr h)
      simp only [Bool.true_and, Bool.false_and, Bool.or_false, bne_iff_ne, ne_eq, hz,
        not_false_eq_true, if_true, Option.some.injEq, reduceCtorEq, false_iff, not_and]
      rintro rfl _
      exact hn

end Emptied

/-- The copy for the placeholder throws: the data on top can be read once the
references on the stack are gone, and copying it throws. -/
def CopyThrows (functions : CopyFunctions) (s : State) (buffer : Nat) : Prop :=
  ∃ k, s.heap.content? s.top = some k ∧ k.data ≠ 0 ∧ Readable s k.buffer ∧
    CopyFails functions k s.heap.mem buffer

theorem copied_error_iff (functions : CopyFunctions) (hv : Valid s) (hl : s.last = true)
    (buffer : Nat) :
    (∃ e, (s.copied functions buffer).2 = .error e) ↔ CopyThrows functions s buffer := by
  obtain ⟨hq, hm⟩ := quiet_emptied hv.managed
  have hcopy : Quiet s.emptied (s.emptied.copyRef s.heap.refs.length true false) :=
    quiet_exec (.copy s.heap.refs.length true false) rfl hm.locked
  rw [State.copied, copyData_error_iff functions, hcopy.mem, hq.mem, CopyThrows]
  constructor
  · rintro ⟨k, hk, he⟩
    obtain ⟨htop, hd, hr⟩ := (content?_emptied hv hl k).mp hk
    exact ⟨k, htop, hd, hr, he⟩
  · rintro ⟨k, htop, hd, hr, he⟩
    exact ⟨k, (content?_emptied hv hl k).mpr ⟨htop, hd, hr⟩, he⟩

section Validity

variable {s' : State}

theorem valid_of_kept {kept : List Nat} (hv : Valid s) (hok : ∀ op h, ok op h → Foreign kept op)
    (hs : Steps ok s.heap s'.heap) (hsub : ∀ r ∈ kept, r ∈ s.holders) (hr : r ∈ kept) :
    ∃ x, s'.heap.ref? r = some x := by
  obtain ⟨x, hx⟩ := hv.live r (hsub r hr)
  exact ⟨x, by rw [(hs.ref? hok hr (hv.exist r (hsub r hr))).2, hx]⟩

theorem Valid.moves (hv : Valid s) (hm : Moves (fun op _ => Foreign s.holders op) s s') :
    Valid s' := by
  have hh : s'.holders = s.holders := by rw [hm.same]
  refine ⟨managed_steps hm.steps hv.managed, ?_, by rw [hh]; exact hv.nodup⟩
  rw [hh]
  exact fun r hr => valid_of_kept hv (fun _ _ hf => hf) hm.steps (fun _ h => h) hr

theorem Valid.pushed (hv : Valid s) {read write : Bool}
    (hp : Pushed (fun op _ => Foreign s.holders op) s s' n read write) : Valid s' := by
  have hh : s'.holders = n :: s.holders := by rw [hp.same]
  refine ⟨managed_steps hp.steps hv.managed, ?_, ?_⟩
  · rw [hh]
    intro r hr
    obtain rfl | hr := List.mem_cons.mp hr
    · obtain ⟨x, hx, _⟩ := hp.rights
      exact ⟨x, hx⟩
    · exact valid_of_kept hv (fun _ _ hf => hf) hp.steps (fun _ h => h) hr
  · rw [hh]
    exact List.nodup_cons.mpr ⟨hv.exist.fresh hp.fresh, hv.nodup⟩

theorem Valid.popped (hv : Valid s)
    (hp : Popped (fun op _ => Foreign s.holders.tail op) s s') : Valid s' := by
  have hh : s'.holders = s.holders.tail := by rw [hp.same]
  refine ⟨managed_steps hp.steps hv.managed, ?_, ?_⟩
  · rw [hh]
    exact fun r hr => valid_of_kept hv (fun _ _ hf => hf) hp.steps
      (fun _ h => List.mem_of_mem_tail h) hr
  · rw [hh]
    exact hv.nodup.tail

theorem Valid.replaced (hv : Valid s) (hr : Replaced s s' n) : Valid s' := by
  have hh : s'.holders = [n] := by rw [hr.same]
  refine ⟨managed_steps hr.steps hv.managed, ?_, by rw [hh]; simp⟩
  rw [hh]
  intro r hmem
  obtain ⟨x, hx, _⟩ := hr.rights
  exact ⟨x, by rw [List.mem_singleton.mp hmem, hx]⟩

end Validity

/-- The callbacks of the call change no reference of the stack. -/
def Call.Respects (c : Call) (s : State) : Prop :=
  ∀ op ∈ (c.callbacks s).2, Foreign (c.callbacks s).1.holders op

/-- The state after the callbacks of a removal. -/
def State.notified (s : State) (reaction : Reaction) : State := (s.notify "removing" reaction).1

theorem holders_sharing (s : State) (r : Nat) (read write : Bool) :
    ∀ n ∈ s.holders, n ∈ (s.sharing r read write).holders := by
  have haccept := shares_accept (allowsQuiet_any []) { s with heap := s.heap.copyRef r false false }
    (by simp [Exist]) (List.not_mem_nil (a := s.heap.refs.length)) (by simp) read write
  intro n hn
  unfold State.sharing
  generalize ({ s with heap := s.heap.copyRef r false false } : State).accept
    s.heap.refs.length read write = outcome at haccept
  obtain ⟨s', e | a⟩ := outcome
  · rw [haccept.same]
    exact hn
  · obtain ⟨m, hp⟩ := haccept
    rw [hp.same]
    exact List.mem_cons_of_mem m hn

theorem shares_of_respects (hv : Valid s) {read write : Bool}
    (hc : (Call.share r read write reaction).Respects s) :
    Shares (fun op _ => Foreign s.holders op) s read write (s.share r read write reaction) := by
  refine shares_share (allowsQuiet_foreign s.holders) s hv.exist r read write reaction ?_ hc
  exact permitted_of_forall _ _ fun op hop => (hc op hop).mono (holders_sharing s r read write)

theorem shareData_of_respects (hv : Valid s) {data : Nat} {type : Except Failure Datatype}
    {read write : Bool} (hc : (Call.shareData data type read write reaction).Respects s) :
    Shares (fun op _ => Foreign s.holders op) s false false
      (s.shareData data type read write reaction) := by
  have hsub : ∀ n ∈ s.holders,
      n ∈ (Call.callbacks s (.shareData data type read write reaction)).1.holders := by
    intro n hn
    cases type with
    | error => exact hn
    | ok =>
      simp only [Call.callbacks]
      split
      · exact hn
      · exact holders_sharing { s with heap := _ } s.heap.refs.length false false n hn
  refine shares_shareData (allowsQuiet_foreign s.holders) s hv.exist data type read write reaction
    ?_ ?_ ?_ hc
  · exact fun t _ => by simp [Foreign, Op.touches]
  · intro t made _ _ r hr
    rw [List.mem_singleton.mp hr]
    exact hv.exist.fresh (Nat.le_refl _)
  · exact permitted_of_forall _ _ fun op hop => (hc op hop).mono hsub

theorem moves_notified (hv : Valid s) (hc : ∀ op ∈ reaction.ops, Foreign s.holders op) :
    Moves (fun op _ => Foreign s.holders op) s (s.notified reaction) :=
  moves_notify (allowsQuiet_foreign s.holders) s hv.exist "removing" reaction
    (permitted_of_forall _ _ hc)

theorem holders_of_shared (hs : s.shared = true) : s.holders ≠ [] := by
  intro hn
  simp [State.shared, hn] at hs

theorem last_notified (s : State) (reaction : Reaction) : (s.notified reaction).last = s.last := rfl

theorem notify_removing (s : State) (reaction : Reaction) : s.notify "removing" reaction =
    (s.notified reaction, rethrowAll ("while removing `" ++ s.name ++ "', ") reaction.errors) := rfl

/-- The inversion of `release`: an exception with the stack as it was, or the
removal of the top in the state the callbacks leave behind. -/
theorem release_cases (s : State) (reaction : Reaction) :
    (∃ e, s.release reaction = (s, .error e)) ∨
    (∃ e, s.release reaction = (s.notified reaction, .error e)) ∨
    (s.shared = true ∧ s.release reaction = ((s.notified reaction).drop, .ok ())) := by
  unfold State.release
  cases hs : s.shared with
  | false => exact .inl ⟨_, rfl⟩
  | true =>
    refine .inr ?_
    rw [notify_removing]
    cases rethrowAll ("while removing `" ++ s.name ++ "', ") reaction.errors with
    | some => exact .inl ⟨_, rfl⟩
    | none => exact .inr ⟨rfl, rfl⟩

/-- The inversion of `reclaim`, up to the removal itself. -/
theorem reclaim_cases (functions : CopyFunctions) (s : State) (reaction : Reaction) (buffer : Nat) :
    (∃ e, s.reclaim functions reaction buffer = (s, .error e)) ∧ s.shared = false ∨
    (∃ e, s.reclaim functions reaction buffer = (s.notified reaction, .error e)) ∧
      reaction.errors ≠ [] ∨
    (s.shared = true ∧ reaction.errors = [] ∧
      s.reclaim functions reaction buffer = inContext ("Unable to reclaim `" ++ s.name ++ "', ")
        ((s.notified reaction).takeBack functions buffer)) := by
  unfold State.reclaim
  cases hs : s.shared with
  | false => exact .inl ⟨⟨_, rfl⟩, rfl⟩
  | true =>
    refine .inr ?_
    rw [notify_removing]
    cases he : rethrowAll ("while removing `" ++ s.name ++ "', ") reaction.errors with
    | some =>
      refine .inl ⟨⟨_, rfl⟩, fun hnil => ?_⟩
      rw [rethrowAll_eq_none.mpr hnil] at he
      cases he
    | none => exact .inr ⟨rfl, rethrowAll_eq_none.mp he, rfl⟩

/-- What a successful removal does to the stack. -/
def Removes (s s' : State) : Prop :=
  (s.last = false ∧ Popped (fun op _ => Foreign s.holders.tail op) s s') ∨
  (s.last = true ∧ ∃ n, Replaced s s' n)

theorem Valid.removes {s' : State} (hv : Valid s) (hr : Removes s s') : Valid s' := by
  obtain ⟨_, hp⟩ | ⟨_, n, hr⟩ := hr
  · exact hv.popped hp
  · exact hv.replaced hr

theorem top_not_mem_tail (hv : Valid s) {top : Nat} {rest : List Nat}
    (hh : s.holders = top :: rest) : top ∉ s.holders.tail := by
  have := hv.nodup
  rw [hh] at this ⊢
  exact (List.nodup_cons.mp this).1

theorem Valid.exist_tail (hv : Valid s) : Exist s.holders.tail s.heap :=
  fun r hr => hv.exist r (List.mem_of_mem_tail hr)

theorem removes_drop (hv : Valid s) (hh : s.holders ≠ []) : Removes s s.drop := by
  obtain ⟨top, rest, hh⟩ := List.exists_cons_of_ne_nil hh
  cases hl : s.last with
  | false =>
    exact .inl ⟨hl, popped_drop (allowsQuiet_foreign _) hv.exist_tail hh hl
      (top_not_mem_tail hv hh)⟩
  | true => exact .inr ⟨hl, _, replaced_drop hl⟩

theorem removes_takeBack (functions : CopyFunctions) (hv : Valid s) (hh : s.holders ≠ [])
    {buffer address : Nat} (hok : (s.takeBack functions buffer).2 = .ok address) :
    Removes s (s.takeBack functions buffer).1 := by
  obtain ⟨top, rest, hh⟩ := List.exists_cons_of_ne_nil hh
  cases hl : s.last with
  | false =>
    refine .inl ⟨hl, popped_takeBack functions (allowsQuiet_foreign _) hv.exist_tail hh hl
      (top_not_mem_tail hv hh) buffer ?_⟩
    intro r hr
    rw [List.mem_singleton.mp hr]
    exact hv.exist_tail.fresh (Nat.le_refl _)
  | true =>
    cases hc : (s.copied functions buffer).2 with
    | error =>
      rw [takeBack_error functions hl hc] at hok
      cases hok
    | ok => exact .inr ⟨hl, _, replaced_takeBack functions hl hc⟩

end Pdi.Descriptor
