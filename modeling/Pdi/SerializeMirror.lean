import Pdi.SerializeRoundTrip
import Pdi.SerializeShare

/-!
# The serialized data mirrors the shared data

As many references are shared on the serialized descriptor as on its source, as
long as every share offers the plugin a right to the data and no more than one
share is there when data is removed. The placeholders of metadata descriptors are
not counted.
-/
namespace Pdi.SerializePlugin

open Pdi.Memory Pdi.Datatypes Pdi.Reference Pdi.Run Pdi.Descriptor

variable {ref : Nat} {others : Others}

section Remove

variable {w : World}

/-- The user's data and, with it locked, the serialized data can be written, and
`deserialize_copy` counts the bytes that are expected. -/
def Restorable (w : World) (ref : Nat) : Prop :=
  ∃ k k', w.heap.content? ref = some k ∧ unlocked w.heap ref false true = true ∧
    (w.heap.copyRef ref false true).content? w.onSerialized.top = some k' ∧
    unlocked (w.heap.copyRef ref false true) w.onSerialized.top false true = true ∧
    k.type.Countable ∧ k.type.copiedBytes = k'.type.datasize

theorem deserialize_ok (hz : w.serialized.holders ≠ []) (hr : Restorable w ref) :
    ∃ h, w.deserialize ref = ({ w with heap := h }, none) := by
  obtain ⟨k, k', hk, hu, hk', hu', hcount, hbytes⟩ := hr
  have hown := content?_copyRef w.heap ref false true
  rw [hu, if_pos rfl, hk] at hown
  unfold World.deserialize World.scoped
  dsimp only
  rw [hown]
  dsimp only
  have href : ({ w with heap := w.heap.copyRef ref false true } : World).onSerialized.ref =
      (⟨w.serialized, (w.heap.copyRef ref false true).copyRef w.onSerialized.top false false⟩,
        .ok (w.heap.copyRef ref false true).refs.length) := by
    rw [State.ref, if_neg (by simpa [World.onSerialized] using hz)]
    rfl
  rw [href]
  have htheirs := content?_copyRef ((w.heap.copyRef ref false true).copyRef w.onSerialized.top
    false false) (w.heap.copyRef ref false true).refs.length false true
  have hfree := content?_copyRef (w.heap.copyRef ref false true) w.onSerialized.top false false
  rw [unlocked_mono hu', if_pos rfl, hk'] at hfree
  rw [unlocked_copyRef_free hu', if_pos rfl, hfree] at htheirs
  dsimp only [World.setSerialized]
  rw [htheirs]
  dsimp only
  obtain ⟨mem, hcopy⟩ := Datatype.deserializeCopy_count
    (((w.heap.copyRef ref false true).copyRef w.onSerialized.top false false).copyRef
      (w.heap.copyRef ref false true).refs.length false true).mem hcount
    (((w.heap.copyRef ref false true).copyRef w.onSerialized.top false false).copyRef
      (w.heap.copyRef ref false true).refs.length false true).mem k.data k'.data
  rw [World.readBack]
  dsimp only
  rw [hcopy]
  dsimp only
  rw [if_pos hbytes]
  exact ⟨_, rfl⟩

/-- The only share is removed with callbacks that do not throw. -/
structure Removable (w : World) (others : Others) : Prop where
  one : depth w.source = 1
  quiet : others.Quiet
  nested : others.nested.errors = []
  restorable : ∀ entry ∈ w.entries, entry.inout.writes = true →
    Restorable (w.notifying others) w.heap.refs.length

/-- Both descriptors have as many shares as the plugin has callbacks. -/
structure Mirrors (w : World) : Prop where
  source_placed : Placed w.source
  serialized_placed : Placed w.serialized
  depth_eq : depth w.serialized = depth w.source
  entries : w.entries.length = depth w.source
  callbacks : w.callbacks = (w.entries.map Entry.callback).reverse
  numbered : ∀ c ∈ w.callbacks, c < w.made
  distinct : w.callbacks.Nodup

theorem shared_heap {d : DataDescriptor} {h : Heap}
    (hs : (⟨d, h⟩ : State).shared = true) (h' : Heap) :
    (⟨d, h'⟩ : State).shared = true := hs

theorem releaseSerialized_one {entry : Entry} (hentries : w.entries = [entry])
    (hcallbacks : w.callbacks = [entry.callback]) (hs : w.onSerialized.shared = true)
    {reaction : Reaction} (hquiet : reaction.errors = [])
    (hrestore : entry.inout.writes = true → Restorable w ref) :
    ∃ h d, Shrinks w.serialized d ∧ w.releaseSerialized ref reaction =
      ({ w with heap := h, serialized := d, callbacks := [], entries := [] }, none) := by
  have hread : ∃ h, (if entry.inout.writes = true then
      ({ w with callbacks := [] } : World).deserialize ref
      else ({ w with callbacks := [] }, none)) =
      ({ w with heap := h, callbacks := [] }, none) := by
    split
    · next hwrites => exact deserialize_ok (holders_of_shared hs) (hrestore hwrites)
    · exact ⟨w.heap, rfl⟩
  obtain ⟨h, hread⟩ := hread
  have hrelease := release_silent (shared_heap hs h) hquiet
  have hshrinks := shrinks_drop (s := (⟨w.serialized, h⟩ : State).notified reaction) hs
  have herase : w.callbacks.erase entry.callback = [] := by rw [hcallbacks, List.erase_cons_head]
  refine ⟨((⟨w.serialized, h⟩ : State).notified reaction).drop.heap, _, hshrinks, ?_⟩
  rw [hentries] at hread
  rw [World.releaseSerialized, hentries]
  dsimp only
  rw [if_neg (by simp [hcallbacks]), herase, hread]
  dsimp only [World.onSerialized]
  rw [hrelease]
  rfl

/-- The one callback of the plugin is called, and takes the serialized data away. -/
theorem notifyRemove_one (hm : Mirrors w) (hr : Removable w others) :
    ∃ h d, Shrinks w.serialized d ∧ w.notifyRemove others =
      ({ w with heap := h, serialized := d, callbacks := [], entries := [] }, none) := by
  obtain ⟨entry, hentries⟩ := List.length_eq_one_iff.mp (hm.entries.trans hr.one)
  have hcallbacks : w.callbacks = [entry.callback] := by
    rw [hm.callbacks, hentries]
    rfl
  have hshared : w.onSerialized.shared = true :=
    shared_iff.mpr (by rw [World.onSerialized, hm.depth_eq, hr.one]; exact Nat.one_pos)
  obtain ⟨h, d, hd, hrelease⟩ := releaseSerialized_one (w := w.notifying others) hentries hcallbacks
    hshared hr.nested (hr.restorable entry (by simp [hentries]))
  refine ⟨((run exec others.after.ops h).destroy w.heap.refs.length), d, hd, ?_⟩
  have hgathered : (w.notifying others).callbacks = [entry.callback] := hcallbacks
  unfold World.notifyRemove World.notify
  dsimp only
  simp only [hgathered, World.callGathered, List.mem_singleton,
    not_true_eq_false, if_false, hrelease]
  refine Prod.ext rfl (raise_eq_none.mpr ?_)
  simp [hr.quiet.1, hr.quiet.2]

theorem moved_release (hm : Mirrors w) (hr : w.onSource.shared = true → Removable w others) :
    Moved w (w.release others).1 := by
  unfold World.release inContext
  dsimp only
  cases hs : w.onSource.shared with
  | false => exact .same w.heap
  | true =>
    obtain ⟨h, d, hd, hnot⟩ := notifyRemove_one hm (hr hs)
    rw [hnot]
    exact .emptied _ _ d (hr hs).one (shrinks_drop (shared_heap hs h)) hd

theorem moved_reclaim (functions : CopyFunctions) (hm : Mirrors w) {buffer : Nat}
    (hr : w.onSource.shared = true → Removable w others)
    (hcopy : w.onSource.last = true →
      ∀ e, ((w.notifyRemove others).1.onSource.copied functions buffer).2 ≠ .error e) :
    Moved w (w.reclaim functions others buffer).1 := by
  unfold World.reclaim inContext
  dsimp only
  cases hs : w.onSource.shared with
  | false => exact .same w.heap
  | true =>
    obtain ⟨h, d, hd, hnot⟩ := notifyRemove_one hm (hr hs)
    rw [hnot] at hcopy ⊢
    exact .emptied _ _ d (hr hs).one (shrinks_takeBack functions (shared_heap hs h) hcopy) hd

end Remove

theorem Mirrors.moved {w w' : World} (hm : Mirrors w) (hw : Moved w w') : Mirrors w' := by
  cases hw with
  | same => exact ⟨hm.1, hm.2, hm.3, hm.4, hm.5, hm.6, hm.7⟩
  | grown h n m =>
    refine ⟨placed_pushed _ n, placed_pushed _ m, ?_, ?_, ?_, ?_, ?_⟩
    · simp only [World.register, depth_pushed hm.source_placed, depth_pushed hm.serialized_placed,
        hm.depth_eq]
    · simp only [World.register, depth_pushed hm.source_placed, List.length_cons, hm.entries]
    · simp [World.register, hm.callbacks]
    · intro c hc
      simp only [World.register, List.mem_append, List.mem_singleton] at hc ⊢
      obtain hc | rfl := hc
      · exact Nat.lt_succ_of_lt (hm.numbered c hc)
      · exact Nat.lt_succ_self _
    · simp only [World.register]
      refine List.nodup_append.mpr ⟨hm.distinct, by simp, ?_⟩
      intro c hc c' hc' he
      have := hm.numbered c hc
      rw [List.mem_singleton] at hc'
      omega
  | emptied h d d' hone hd hd' =>
    have := hd.2
    have := hd'.2
    have := hm.depth_eq
    refine ⟨hd.1, hd'.1, ?_, ?_, rfl, by simp, by simp⟩
    · dsimp only
      omega
    · simp only [List.length_nil]
      omega

/-- The condition under which a call keeps the two descriptors alike. -/
def Call.Mirrored (functions : CopyFunctions) (c : Call) (w : World) : Prop :=
  match c with
  | .share r read write others _ => ShareOffers w r read write others
  | .shareData data type read write others _ => ShareDataOffers w data type read write others
  | .release others => w.onSource.shared = true → Removable w others
  | .reclaim others buffer => (w.onSource.shared = true → Removable w others) ∧
      (w.onSource.last = true →
        ∀ e, ((w.notifyRemove others).1.onSource.copied functions buffer).2 ≠ .error e)
  | .other _ => True

theorem fst_thrown {α : Type} (outcome : Outcome α) : (thrown outcome).1 = outcome.1 := by
  obtain ⟨w, e | a⟩ := outcome <;> rfl

theorem moved_after (functions : CopyFunctions) (c : Call) {w : World} (hm : Mirrors w)
    (hc : c.Mirrored functions w) : Moved w (after functions c w) := by
  cases c with
  | share r read write others buffer =>
    rw [after, call, fst_thrown]
    exact moved_share hc buffer
  | shareData data type read write others buffer =>
    rw [after, call, fst_thrown]
    exact moved_shareData hc buffer
  | release =>
    rw [after, call, fst_thrown]
    exact moved_release hm hc
  | reclaim =>
    rw [after, call, fst_thrown]
    exact moved_reclaim functions hm hc.1 hc.2
  | other => exact .same _

theorem mirrors_new {source serialized : DataDescriptor} (hs : Unshared source)
    (hz : Unshared serialized) (heap : Heap) : Mirrors (World.new source serialized heap) := by
  refine ⟨hs.placed, hz.placed, ?_, ?_, rfl, by simp [World.new], by simp [World.new]⟩
  · simp [World.new, depth, show source.holders.length = _ from hs,
      show serialized.holders.length = _ from hz]
  · simp [World.new, depth, show source.holders.length = _ from hs]

/-- After every call of every run whose calls meet the condition, as many
references are shared on the serialized descriptor as on the source. -/
theorem run_serialized_mirrors (functions : CopyFunctions) (source serialized : DataDescriptor)
    (heap : Heap) (hs : Unshared source) (hz : Unshared serialized) (calls : List Call)
    (hcalls : Permitted (Call.Mirrored functions) (after functions) calls
      (World.new source serialized heap)) :
    depth (run (after functions) calls (World.new source serialized heap)).serialized =
      depth (run (after functions) calls (World.new source serialized heap)).source := by
  have hm : Mirrors (run (after functions) calls (World.new source serialized heap)) :=
    permitted_invariant (fun c w hc hm => hm.moved (moved_after functions c hm hc)) calls _ hcalls
      (mirrors_new hs hz heap)
  exact hm.depth_eq

/-- Callbacks of others that do nothing. -/
def quietOthers : Others := ⟨silent, silent, silent⟩

def newWorld : World := World.new ⟨"data", false, []⟩ ⟨"bytes", false, []⟩ (Heap.empty fun _ => 0)

def sharedAndReclaimed : List Call :=
  [.shareData 4096 (.ok typeForInt32) true true quietOthers 8192, .reclaim quietOthers 0]

theorem run_serialized_mirrors_reclaimed :
    (run (after failingCopies) (sharedAndReclaimed.take 1) newWorld).source.holders.length = 1 ∧
    depth (run (after failingCopies) sharedAndReclaimed newWorld).serialized =
      depth (run (after failingCopies) sharedAndReclaimed newWorld).source := by
  refine ⟨by decide +kernel, run_serialized_mirrors failingCopies ⟨"data", false, []⟩
    ⟨"bytes", false, []⟩ _ rfl rfl sharedAndReclaimed ⟨?_, ⟨fun _ => ?_, fun hlast => ?_⟩, trivial⟩⟩
  · rintro t made ⟨⟩ hmade s address haccept
    obtain rfl : (exec (.create false false 4096 typeForInt32 true true) newWorld.heap) = made :=
      (create_eq_ok hmade).1.symm
    obtain rfl := congrArg Prod.fst haccept
    refine ⟨fun k hk _ => ?_, fun _ => ⟨rfl, rfl⟩, fun _ => by decide +kernel⟩
    have hcontent : some k = some ⟨0, 4096, typeForInt32, 0⟩ := hk.symm.trans (by decide +kernel)
    rw [Option.some.inj hcontent]
    decide
  · refine ⟨by decide +kernel, ⟨rfl, rfl⟩, rfl, fun _ _ _ => ?_⟩
    exact ⟨⟨0, 4096, typeForInt32, 0⟩, ⟨1, 8192, typeForInt32, 1⟩, by decide +kernel,
      by decide +kernel, by decide +kernel, by decide +kernel, trivial, rfl⟩
  · exact absurd hlast (by decide +kernel)

/-- Data shared without any right is not serialized at all; of two shares, one in
the other, neither can be removed. -/
theorem serialized_not_mirrored :
    depth (after failingCopies (.shareData 4096 (.ok typeForInt32) false false quietOthers 8192)
      newWorld).source = 1 ∧
    depth (after failingCopies (.shareData 4096 (.ok typeForInt32) false false quietOthers 8192)
      newWorld).serialized = 0 ∧
    (call failingCopies (run (after failingCopies)
      [.shareData 4096 (.ok typeForInt32) true true quietOthers 8192,
        .shareData 4104 (.ok typeForInt32) true true quietOthers 8200] newWorld)
      (.release quietOthers)).2 = some (.undefined "call of an erased callback") := by
  decide +kernel

end Pdi.SerializePlugin
