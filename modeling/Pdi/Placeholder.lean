import Pdi.DescriptorStack
import Pdi.Retention

/-!
# The placeholder of a metadata descriptor

Calls on a descriptor that do not replace its placeholder leave it alone, and
what it retains stays as it is. A removal that does replace it makes it retain
the data removed, or a copy of it.
-/
namespace Pdi.Descriptor

open Pdi.Memory Pdi.Datatypes Pdi.Reference Pdi.Run

variable {s s' : State} {α : Type} {read write : Bool} {outcome : Outcome α} {ops : List Op}
  {h : Heap} {r data buffer : Nat} {reaction : Reaction} {type : Datatype} {k : Content} {v : Value}
  {d : Deallocator} {functions : CopyFunctions} {mem : Mem Byte}

/-- The placeholder. -/
def State.bottom (s : State) : Nat := s.holders.getLastD 0

/-- Whether the top reference and the placeholder have the same buffer. -/
def State.overPlaceholder (s : State) : Bool :=
  (s.heap.content? s.top).any fun k => (s.heap.content? s.bottom).any fun k' =>
    k'.buffer == k.buffer

theorem allowsQuiet_courteous (kept : List Nat) : AllowsQuiet (Courteous kept) kept := by
  intro op h hq hf
  refine ⟨hf, ?_⟩
  cases op with
  | store | release => cases hq
  | _ => trivial

/-- A change of the descriptor that leaves its placeholder alone. -/
structure Gentle (s s' : State) : Prop where
  metadata : s'.metadata = s.metadata
  bottom : s'.bottom = s.bottom
  steps : Steps (Courteous [s.bottom]) s.heap s'.heap

theorem Gentle.trans {s'' : State} (h : Gentle s s') (h' : Gentle s' s'') : Gentle s s'' :=
  ⟨h'.metadata.trans h.metadata, h'.bottom.trans h.bottom,
    h.steps.trans (h.bottom ▸ h'.steps)⟩

theorem Gentle.of_moves (hm : Moves (Courteous [s.bottom]) s s') : Gentle s s' :=
  ⟨by rw [hm.same], by simp [State.bottom, hm.same], hm.steps⟩

theorem bottom_mem (hh : s.holders ≠ []) : s.bottom ∈ s.holders := by
  obtain ⟨top, rest, hh⟩ := List.exists_cons_of_ne_nil hh
  rw [State.bottom, hh, List.getLastD_cons]
  exact List.getLastD_mem_cons

theorem Valid.exist_bottom (hv : Valid s) (hh : s.holders ≠ []) : Exist [s.bottom] s.heap := by
  intro r hr
  rw [List.mem_singleton.mp hr]
  exact hv.exist _ (bottom_mem hh)

theorem Gentle.of_shares (hh : s.holders ≠ [])
    (h : Shares (Courteous [s.bottom]) s read write outcome) : Gentle s (thrown outcome).1 := by
  obtain ⟨s', e | a⟩ := outcome
  · exact .of_moves h
  · obtain ⟨n, hp⟩ := h
    obtain ⟨top, rest, hh⟩ := List.exists_cons_of_ne_nil hh
    refine ⟨by rw [thrown, hp.same], ?_, hp.steps⟩
    rw [thrown, State.bottom, State.bottom, hp.same, hh, List.getLastD_cons, List.getLastD_cons,
      List.getLastD_cons]

theorem Gentle.of_popped (hlen : 2 ≤ s.holders.length) (hp : Popped (Courteous [s.bottom]) s s') :
    Gentle s s' := by
  refine ⟨by rw [hp.same], ?_, hp.steps⟩
  rw [State.bottom, State.bottom, hp.same]
  match s.holders, hlen with
  | top :: p :: rest, _ => rw [List.tail_cons, List.getLastD_cons, List.getLastD_cons,
      List.getLastD_cons]

/-- What other code does during a call is courteous to the references on the
stack and to the first reference that the call makes. -/
def Call.Courteous (s : State) : Call → Prop
  | .other ops => Permitted (Reference.Courteous s.holders) exec ops s.heap
  | c => Permitted (Reference.Courteous (s.heap.refs.length :: s.holders)) exec (c.callbacks s).2
      (c.callbacks s).1.referring

theorem permitted_bottom (hh : s.holders ≠ [])
    (hops : Permitted (Courteous (s.heap.refs.length :: s.holders)) exec ops h) :
    Permitted (Courteous [s.bottom]) exec ops h := by
  refine permitted_mono (fun op g hc => hc.mono fun r hr => ?_) ops h hops
  rw [List.mem_singleton.mp hr]
  exact List.mem_cons_of_mem _ (bottom_mem hh)

theorem gentle_share (hv : Valid s) (hh : s.holders ≠ [])
    (hr : (Call.share r read write reaction).Respects s)
    (hc : (Call.share r read write reaction).Courteous s) :
    Gentle s (thrown (s.share r read write reaction)).1 :=
  .of_shares hh (shares_share (allowsQuiet_courteous _) s (hv.exist_bottom hh) r read write reaction
    (permitted_bottom hh hc) hr)

/-- New data is on a new buffer. -/
theorem buffer_create {made : Heap} {readable writable : Bool}
    (he : h.create false false data type readable writable = .ok made)
    (hk : made.content? h.refs.length = some k) : k.buffer = h.buffers.length := by
  unfold Heap.create at he
  split at he
  · cases he
  · split at he
    · cases he
      rw [content?_newRef_self] at hk
      cases hk
    · next hd =>
      cases he
      obtain ⟨href, hcontent, _⟩ := allocRef_free h hd type readable writable
      rw [content?_eq_some.mpr ⟨_, _, href, rfl, hcontent⟩] at hk
      cases hk
      rfl

/-- A reference that is left alone stays on its buffer. -/
theorem buffer_steps {kept : List Nat} {h' : Heap} (hs : Steps (fun op _ => Foreign kept op) h h')
    (hl : Locked h) (hr : r ∈ kept) (hlt : r < h.refs.length) (hk : h'.content? r = some k) :
    ∃ k₀, h.content? r = some k₀ ∧ k.buffer = k₀.buffer := by
  obtain ⟨x, c, hx, hc, hcon⟩ := content?_eq_some.mp hk
  rw [(hs.ref? (fun _ _ hf => hf) hr hlt).2] at hx
  have hk₀ := List.getElem?_eq_getElem (hl.content_lt r x c hx hc)
  refine ⟨_, content?_eq_some.mpr ⟨x, c, hx, hc, hk₀⟩, ?_⟩
  have hbuffer := content_buffer_steps hs (congrArg (Option.map Content.buffer) hk₀)
  rw [hcon] at hbuffer
  exact Option.some.inj hbuffer

theorem steps_of_shares {ok : Op → Heap → Prop} (h : Shares ok s read write outcome) :
    Steps ok s.heap outcome.1.heap := by
  obtain ⟨s', e | a⟩ := outcome
  · exact Moves.steps h
  · obtain ⟨n, hp⟩ := h
    exact hp.steps

theorem gentle_shareData (hv : Valid s) (hh : s.holders ≠ []) {type : Except Failure Datatype}
    (hr : (Call.shareData data type read write reaction).Respects s)
    (hc : (Call.shareData data type read write reaction).Courteous s) :
    Gentle s (thrown (s.shareData data type read write reaction)).1 := by
  have hlt : s.bottom < s.heap.refs.length := hv.exist _ (bottom_mem hh)
  refine .of_shares hh (shares_shareData (allowsQuiet_courteous _) s (hv.exist_bottom hh) data type
    read write reaction ?_ ?_ (permitted_bottom hh hc) hr)
  · exact fun t _ => ⟨by simp [Foreign, Op.touches], trivial⟩
  · rintro t made rfl hmade
    obtain ⟨hexec, hlen⟩ := create_eq_ok hmade
    refine ⟨?_, fun p hp k k' hk hk' => ?_⟩
    · intro r hmem
      rw [List.mem_singleton.mp hmem]
      exact (hv.exist_bottom hh).fresh (Nat.le_refl _)
    · -- the share leaves both references alone, and the data shared is on a buffer of its own
      rw [List.mem_singleton.mp hp] at hk
      have hsteps : Steps (fun op _ => Foreign [s.bottom, s.heap.refs.length] op) made
          (({ s with heap := made } : State).share s.heap.refs.length false false
            reaction).1.heap := by
        simp only [Call.Courteous, Call.Respects, Call.callbacks, hmade] at hc hr
        refine steps_of_shares (shares_share (allowsQuiet_foreign _) { s with heap := made } ?_
          s.heap.refs.length false false reaction ?_ hr)
        · intro r hmem
          simp only [List.mem_cons, List.not_mem_nil, or_false] at hmem
          dsimp only
          omega
        · refine permitted_mono (fun op g hcourt => hcourt.1.mono fun r hmem => ?_) _ _ hc
          simp only [List.mem_cons, List.not_mem_nil, or_false] at hmem ⊢
          obtain rfl | rfl := hmem
          · exact .inr (bottom_mem hh)
          · exact .inl rfl
      have hcreate : Steps (fun op _ => Foreign [s.bottom, s.heap.refs.length] op) s.heap made := by
        rw [hexec]
        exact Steps.one _ (by simp [Foreign, Op.touches])
      have hlocked := hv.managed.locked
      obtain ⟨k₀, hk₀, hb⟩ := buffer_steps (hcreate.trans hsteps) hlocked (by simp) hlt hk
      obtain ⟨k₁, hk₁, hb'⟩ := buffer_steps hsteps
        (hexec ▸ locked_exec (.create false false data t read write) hlocked)
        (by simp) (by omega) hk'
      have hnew := buffer_create hmade hk₁
      obtain ⟨_, c, _, _, hcon⟩ := content?_eq_some.mp hk₀
      have := hlocked.buffer_lt c k₀ hcon
      omega

theorem gentle_notified (hv : Valid s) (hh : s.holders ≠ [])
    (hops : Permitted (Courteous (s.heap.refs.length :: s.holders)) exec reaction.ops s.referring) :
    Gentle s (s.notified reaction) :=
  .of_moves (moves_notify (allowsQuiet_courteous _) s (hv.exist_bottom hh) "removing" reaction
    (permitted_bottom hh hops))

theorem gentle_other (hh : s.holders ≠ [])
    (hops : Permitted (Courteous s.holders) exec ops s.heap) :
    Gentle s { s with heap := run exec ops s.heap } := by
  refine .of_moves ⟨rfl, steps_run _ _ (permitted_mono (fun op g hc => hc.mono fun r hr => ?_) _ _
    hops)⟩
  rw [List.mem_singleton.mp hr]
  exact bottom_mem hh

theorem top_not_bottom (hv : Valid s) {top : Nat} {rest : List Nat} (hh : s.holders = top :: rest)
    (hlen : 2 ≤ s.holders.length) : top ∉ [s.bottom] := by
  have hnot := top_not_mem_tail hv hh
  intro hmem
  apply hnot
  rw [List.mem_singleton.mp hmem, State.bottom, hh]
  match rest, hh with
  | [], hh => simp [hh] at hlen
  | p :: rest, _ =>
    rw [List.getLastD_cons, List.getLastD_cons]
    exact List.getLastD_mem_cons

theorem gentle_drop (hv : Valid s) (hlen : 2 ≤ s.holders.length) (hl : s.last = false) :
    Gentle s s.drop := by
  obtain ⟨top, rest, hh⟩ : ∃ top rest, s.holders = top :: rest :=
    List.exists_cons_of_length_pos (by omega)
  exact .of_popped hlen (popped_drop (allowsQuiet_courteous _)
    (hv.exist_bottom (by simp [hh])) hh hl
    (top_not_bottom hv hh hlen))

/-- A reclaim above the placeholder that gives back other data. -/
theorem gentle_takeBack (functions : CopyFunctions) (hv : Valid s) (hlen : 2 ≤ s.holders.length)
    (hl : s.last = false) (hover : s.overPlaceholder = false) (buffer : Nat) :
    Gentle s (s.takeBack functions buffer).1 := by
  obtain ⟨top, rest, hh⟩ : ∃ top rest, s.holders = top :: rest :=
    List.exists_cons_of_length_pos (by omega)
  have hne := top_not_bottom hv hh hlen
  have hexist := hv.exist_bottom (by simp [hh])
  have hfresh := hexist.fresh (Nat.le_refl _)
  refine .of_popped hlen
    (popped_takeBack functions (allowsQuiet_courteous _) hexist hh hl hne buffer
    ⟨?_, fun p hp k k' hk hk' hb => ?_⟩)
  · intro r hmem
    rw [List.mem_singleton.mp hmem]
    exact hfresh
  · rw [List.mem_singleton] at hp hne hfresh
    subst hp
    have hbottom : s.heap.content? s.bottom = some k := by
      rw [← hk, Heap.content?, Heap.content?, ref?_destroy_ne _ (Ne.symm hne), contents_destroy,
        State.referring, contents_copyRef, ref?_copyRef_old _ _ _ _ (hexist _ (by simp))]
    have htop : s.heap.content? s.top = some k' := by
      have htop : s.heap.refs.length ≠ top := by
        have := hv.exist top (by simp [hh])
        omega
      rw [Heap.content?, ref?_destroy_ne _ htop, contents_destroy, State.referring,
        contents_copyRef, ref?_copyRef_free hv.managed.locked] at hk'
      simp only [Option.bind_some] at hk'
      obtain ⟨c, hc, hcon⟩ := Option.bind_eq_some_iff.mp hk'
      obtain ⟨x, k₀, hx, hxc, hk₀, _⟩ := getContent_eq_some hc
      exact content?_eq_some.mpr ⟨x, c, hx, hxc, hcon⟩
    simp [State.overPlaceholder, hbottom, htop, hb] at hover

/-- The placeholder has the value `v`, outside of the memory given back. -/
def Keeps (s : State) (given : Option Deallocator) (v : Value) : Prop :=
  s.metadata = true ∧ ∃ c k d, Retains s.heap s.bottom c k d v ∧
    ∀ g, given = some g → ∀ a, d.Covers a → ¬ g.Covers a

theorem Keeps.gentle {given : Option Deallocator} (hk : Keeps s given v) (hm : Managed s.heap)
    (hg : Gentle s s') : Keeps s' given v := by
  obtain ⟨hmeta, c, k, d, hr, hapart⟩ := hk
  refine ⟨hg.metadata.trans hmeta, c, k, d, ?_, hapart⟩
  rw [hg.bottom]
  exact hr.steps hm hg.steps (by simp)

/-- A new reader of owned data retains its value. -/
theorem retains_copyRef {x : Buffer} (hk : (h.copyRef r true false).content? h.refs.length = some k)
    (hd : k.data ≠ 0) (hx : h.buffers[k.buffer]? = some x) (hread : x.readable = true)
    (hdealloc : x.deallocator = some d) (hin : Within d k h.mem) :
    ∃ c, Retains (h.copyRef r true false) h.refs.length c k d (k.value h.mem) := by
  obtain ⟨y, c, hy, hyc, hcon⟩ := content?_eq_some.mp hk
  have hext : Extends h (h.copyRef r true false) :=
    extends_exec (.copy r true false) (by simp [Op.effect]) (by simp [Op.effect]) h
  obtain ⟨y', hy', hyr, hyw⟩ := hasRights_linkNew h true false (h.getContent r)
  obtain rfl : y' = y := Option.some.inj (hy'.symm.trans hy)
  obtain ⟨x', hx', hconst⟩ := hext.buffer hx
  obtain ⟨yread, ywrite, ycontent⟩ := y'
  dsimp only at hyr hyw hyc
  subst hyr hyw hyc
  refine ⟨c, hy, hcon, hd, ⟨x', hx', ?_, ?_⟩, ?_, ?_⟩
  · exact (congrArg (fun t => t.2.1) hconst).trans hread
  · exact (congrArg Prod.fst hconst).trans hdealloc
  · rw [hext.mem]
  · rw [hext.mem]
    exact hin

/-- A release with nothing above it but the top: the placeholder becomes a reader
of the data released. -/
theorem keeps_drop (hv : Valid s) (hl : s.last = true) (htop : s.heap.content? s.top = some k)
    (hd : k.data ≠ 0) (hread : Readable s k.buffer) (hown : s.heap.Owns k.buffer d)
    (hin : Within d k s.heap.mem) : Keeps s.drop none (k.value s.heap.mem) := by
  obtain ⟨hq, hm⟩ := quiet_emptied hv.managed
  have hk := (content?_emptied hv hl k).mpr ⟨htop, hd, hread⟩
  obtain ⟨_, x, hx, hdealloc⟩ := hown
  obtain ⟨y, hy, hconst⟩ := hq.buffer hx
  obtain ⟨⟨x', hx', hxread⟩, _⟩ := hread
  obtain rfl : x' = x := Option.some.inj (hx'.symm.trans hx)
  have hyread : y.readable = true := (congrArg (fun t => t.2.1) hconst).trans hxread
  have hyd : y.deallocator = some d := (congrArg Prod.fst hconst).trans hdealloc
  obtain ⟨c, hr⟩ := retains_copyRef hk hd hy hyread hyd (hq.mem ▸ hin)
  rw [hq.mem, length_refs_emptied] at hr
  rw [drop_last hl]
  refine ⟨(last_iff.mp hl).1, c, k, d, ?_, by simp⟩
  have hleave : Courteous [s.heap.refs.length + 1] (.destroy s.heap.refs.length)
      (s.emptied.copyRef s.heap.refs.length true false) :=
    ⟨by simp [Foreign, Op.touches], trivial⟩
  exact hr.exec (locked_exec (.copy _ true false) hm.locked) hleave (by simp)

theorem writers_destroy {b : Nat} (hz : h.writers b = 0) (r : Nat) :
    (h.destroy r).writers b = 0 := by
  rw [writers_eq_zero] at hz ⊢
  intro r' x hx hw
  rw [contents_destroy]
  by_cases he : r' = r
  · rw [he, ref?_destroy_self] at hx
    cases hx
  · rw [ref?_destroy_ne _ he] at hx
    exact hz r' x hx hw

/-- The copy of data that can be read. -/
theorem copyData_eq (hk : (h.copyRef r true false).content? h.refs.length = some k)
    (hm : ¬ outOfMemory k.type buffer = true)
    (hcopy : doCopy functions k.type (h.copyRef r true false).mem k.data buffer =
      .ok (some (mem, data, type))) :
    copyData functions h r buffer =
      ((({ h.copyRef r true false with mem := mem } : Heap).allocRef false false data type
        true true).destroy h.refs.length, .ok (h.refs.length + 1)) := by
  have hd := doCopy_ne_zero hm hcopy
  have hcreate : ({ h.copyRef r true false with mem := mem } : Heap).create false false data type
      true true = .ok (({ h.copyRef r true false with mem := mem } : Heap).allocRef false false data
        type true true) := by
    simp [Heap.create, hd]
  dsimp only at hcreate
  simp only [copyData, hk, hm, hcopy, hcreate, Bool.false_eq_true, if_false]

/-- A reader of the copy retains its value. -/
theorem retains_copyData (hmanaged : Managed h)
    (hk : (h.copyRef r true false).content? h.refs.length = some k)
    (hm : ¬ outOfMemory k.type buffer = true)
    (hcopy : doCopy functions k.type (h.copyRef r true false).mem k.data buffer =
      .ok (some (mem, data, type)))
    (hin : ∀ b o, Within ⟨data, type⟩ ⟨b, data, type, o⟩ mem) :
    ∃ c o, Retains ((copyData functions h r buffer).1.copyRef (h.refs.length + 1) true false)
      (copyData functions h r buffer).1.refs.length c
      ⟨(h.copyRef r true false).buffers.length, data, type, o⟩ ⟨data, type⟩
      (fun path => readScalar mem path type data) := by
  have hd := doCopy_ne_zero hm hcopy
  have hcreate : ∀ g : Heap, g.allocRef false false data type true true =
      exec (.create false false data type true true) g := fun g => by
    simp [exec, Heap.create, hd]
  have hread : Managed ({ h.copyRef r true false with mem := mem } : Heap) :=
    managed_exec (.store mem) (managed_exec (.copy r true false) hmanaged)
  rw [copyData_eq hk hm hcopy]
  generalize hg : ({ h.copyRef r true false with mem := mem } : Heap) = g at hread ⊢
  have hlen : g.refs.length = h.refs.length + 1 := by
    rw [← hg]
    simp
  have hbuffers : (h.copyRef r true false).buffers.length = g.buffers.length := by rw [← hg]
  have hmem : g.mem = mem := by rw [← hg]
  obtain ⟨href, hcon, hbuf⟩ := allocRef_free g hd type true true
  have hlocked : Locked (g.allocRef false false data type true true) := by
    rw [hcreate]
    exact locked_exec _ hread.locked
  have hext : Extends g (g.allocRef false false data type true true) := by
    rw [hcreate]
    exact extends_exec _ (by simp [Op.effect]) (by simp [Op.effect]) g
  generalize g.allocRef false false data type true true = made at href hcon hbuf hlocked hext ⊢
  have hleave : Extends made (made.destroy h.refs.length) :=
    extends_exec (.destroy h.refs.length) (by simp [Op.effect]) (by simp [Op.effect]) made
  obtain ⟨b, hb, hconst⟩ := hleave.buffer hbuf
  have hreadable : b.readable = true := congrArg (fun t => t.2.1) hconst
  have hlocks : b.readLocks = 0 := by
    have hlocked' := locked_exec (.destroy h.refs.length) hlocked
    refine (hlocked'.readLocks_eq_zero hb).mpr ⟨hreadable, writers_destroy ?_ _⟩
    exact ((hlocked.readLocks_eq_zero hbuf).mp rfl).2
  have href' : (made.destroy h.refs.length).ref? (h.refs.length + 1) =
      some ⟨false, false, some g.contents.length⟩ := by
    rw [ref?_destroy_ne _ (by omega), ← hlen]
    exact href
  have hcon' := hleave.content hcon
  have hcontent : ((made.destroy h.refs.length).copyRef (h.refs.length + 1) true false).content?
      (made.destroy h.refs.length).refs.length =
      some ⟨g.buffers.length, data, type, g.contents.length⟩ := by
    rw [Heap.copyRef, getContent_of href' rfl hcon' hd, content?_linkNew true false hcon' hd hb]
    simp [hlocks]
  have hsame : (made.destroy h.refs.length).mem = mem := (hleave.mem.trans hext.mem).trans hmem
  obtain ⟨c, hr⟩ := retains_copyRef hcontent hd hb hreadable (congrArg Prod.fst hconst)
    (hsame ▸ hin _ _)
  rw [hsame] at hr
  rw [hbuffers]
  exact ⟨c, _, hr⟩

/-- The data that is given back is another's. -/
theorem retains_giveBack {n c : Nat} (hr : Retains h n c k d v) (hm : Managed h)
    {copy oldref : Nat} (hcopy : copy ≠ n) (hold : oldref ≠ n)
    (hb : ∀ k', (h.destroy copy).content? oldref = some k' → k'.buffer ≠ k.buffer) :
    Retains (((h.destroy copy).release oldref).1.destroy oldref) n c k d v := by
  have hq := allowsQuiet_courteous [n]
  have hrelease : Courteous [n] (.release oldref) (h.destroy copy) := by
    refine ⟨by simpa [Foreign, Op.touches] using hold, fun p hp k₁ k₂ hk₁ hk₂ => ?_⟩
    have hr' := hr.steps hm (steps_destroy hq h (by simpa using hcopy)) (by simp)
    rw [List.mem_singleton.mp hp, hr'.content?] at hk₁
    cases hk₁
    exact (hb k₂ hk₂).symm
  exact hr.steps hm (((steps_destroy hq h (by simpa using hcopy)).trans
    (Steps.one _ hrelease)).trans (steps_destroy hq _ (by simpa using hold))) (by simp)

/-- A reclaim with nothing above it but the top: the placeholder becomes a
reader of a copy, apart from the memory given back. -/
theorem keeps_takeBack (hv : Valid s) (hl : s.last = true) (htop : s.heap.content? s.top = some k)
    (hd : k.data ≠ 0) (hread : Readable s k.buffer) (hm : ¬ outOfMemory k.type buffer = true)
    (hcopy : doCopy functions k.type s.heap.mem k.data buffer = .ok (some (mem, data, type)))
    (hin : ∀ b o, Within ⟨data, type⟩ ⟨b, data, type, o⟩ mem) {given : Deallocator}
    (hapart : ∀ a, Deallocator.Covers ⟨data, type⟩ a → ¬ given.Covers a) :
    Keeps (s.takeBack functions buffer).1 (some given)
    (fun path => readScalar mem path type data) := by
  obtain ⟨hq, hmanaged⟩ := quiet_emptied hv.managed
  have hk := (content?_emptied hv hl k).mpr ⟨htop, hd, hread⟩
  have hreader : Extends s.emptied (s.emptied.copyRef s.heap.refs.length true false) :=
    extends_exec (.copy s.heap.refs.length true false) (by simp [Op.effect]) (by simp [Op.effect]) _
  rw [← hq.mem, ← hreader.mem] at hcopy
  have hok : (s.copied functions buffer).2 = .ok (s.emptied.refs.length + 1) := by
    rw [State.copied, copyData_eq hk hm hcopy]
  obtain ⟨c, o, hr⟩ := retains_copyData hmanaged hk hm hcopy hin
  rw [← State.copied] at hr
  have hlen := length_refs_emptied s
  have hlt : s.emptied.refs.length + 1 < (s.copied functions buffer).1.refs.length :=
    (copyData_lt functions hok).2
  have hcopied : Managed ((s.copied functions buffer).1.copyRef (s.emptied.refs.length + 1)
      true false) :=
    managed_exec (.copy _ true false) (managed_steps (steps_copied functions s buffer) hv.managed)
  have hsteps : Steps (fun op _ => Foreign [s.heap.refs.length] op) s.emptied
      (((s.copied functions buffer).1.copyRef (s.emptied.refs.length + 1) true false).destroy
        (s.emptied.refs.length + 1)) := by
    have hallow := allowsQuiet_foreign [s.heap.refs.length]
    have hexist : Exist [s.heap.refs.length] s.emptied := by
      intro r hmem
      rw [List.mem_singleton.mp hmem]
      omega
    exact ((steps_copyData functions hexist _ buffer).trans (steps_copyRef hallow _ _ true
      false)).trans (steps_destroy hallow _ (hexist.fresh (by omega)))
  have hback := retains_giveBack hr hcopied
    (show s.emptied.refs.length + 1 ≠ _ by omega) (show s.heap.refs.length ≠ _ by omega)
    fun k' hk' => by
      obtain ⟨k₀, hk₀, hb⟩ := buffer_steps hsteps hmanaged.locked (by simp) (by omega) hk'
      obtain ⟨_, c₀, _, _, hcon⟩ := content?_eq_some.mp hk₀
      have hlt :=
        (locked_exec (.copy s.heap.refs.length true false) hmanaged.locked).buffer_lt c₀ k₀
        (hreader.content hcon)
      simp only [exec] at hlt
      dsimp only
      omega
  rw [takeBack_ok functions hl hok, giveBack_eq]
  refine ⟨(last_iff.mp hl).1, c, _, _, hback, fun g hg => ?_⟩
  cases hg
  exact hapart

end Pdi.Descriptor
