import Pdi.DescriptorDepth
import Pdi.ReferenceRights
import Pdi.SerializePlugin

/-!
# What the plugin does when data is shared

Data that offers the plugin some right is serialized and shared, or the plugin
throws; other data is passed over. A share therefore moves both stacks or none of
them, if the plugin is offered a right exactly when no other callback throws.
-/
namespace Pdi.SerializePlugin

open Pdi.Memory Pdi.Datatypes Pdi.Reference Pdi.Run Pdi.Descriptor

variable {r ref : Nat} {h : Heap} {w w' : World} {others : Others}

section Share

/-- The plugin throws with the serialized descriptor as it was, or it puts one
reference on it and registers one callback. -/
inductive Published (w : World) : World × Option Failure → Prop
  | failed (h : Heap) (e : Failure) : Published w ({ w with heap := h }, some e)
  | shared (h : Heap) (n : Nat) (inout : Inout) :
      Published w
        (({ w with heap := h, serialized := pushed w.serialized n } : World).register inout,
        none)

theorem published_publish (w : World) (inout : Inout) (k : Content) (buffer : Nat)
    (reaction : Reaction) : Published w (w.publish inout k buffer reaction) := by
  unfold World.publish
  split
  · exact .failed w.heap _
  · split
    · exact .failed w.heap _
    · next made _ =>
      dsimp only
      split
      · exact .failed _ _
      · next mem _ =>
        have hshare := grows_share
          ({ w with heap := { made with mem := mem } } : World).onSerialized
          w.heap.refs.length (inout == .output) false reaction
        generalize State.share _ _ _ _ _ = outcome at hshare ⊢
        obtain ⟨⟨d, h⟩, e | a⟩ := outcome
        · obtain rfl : d = w.serialized := hshare
          exact .failed _ _
        · obtain ⟨n, hn⟩ := hshare
          obtain rfl : d = pushed w.serialized n := hn
          exact .shared _ n inout

/-- A local reference does not matter to that. -/
theorem Published.scoped {read write : Bool}
    {body : World → Option Content → World × Option Failure}
    (hbody : Published { w with heap := w.heap.copyRef r read write }
      (body { w with heap := w.heap.copyRef r read write }
        ((w.heap.copyRef r read write).content? w.heap.refs.length))) :
    Published w (w.scoped r read write body) := by
  unfold World.scoped
  dsimp only
  generalize body _ _ = result at hbody
  cases hbody with
  | failed h e => exact .failed _ e
  | shared h n inout => exact .shared _ n inout

/-- The first right that can be had decides. -/
theorem published_firstAccess (ref buffer : Nat) (reaction : Reaction) (rights : List Inout)
    (hu : ∃ inout ∈ rights, unlocked w.heap ref inout.reads inout.writes = true) :
    Published w (w.firstAccess ref buffer reaction rights) := by
  induction rights generalizing w with
  | nil => simp at hu
  | cons inout others ih =>
    rw [World.firstAccess]
    apply Published.scoped
    rw [content?_copyRef]
    cases hfirst : unlocked w.heap ref inout.reads inout.writes with
    | true =>
      obtain ⟨k, _, hk, _⟩ := unlocked_iff.mp hfirst
      rw [if_pos rfl, hk]
      exact published_publish _ inout k buffer reaction
    | false =>
      rw [if_neg (by simp), copyRef_locked hfirst]
      apply ih
      obtain ⟨inout', hmem, hu⟩ := hu
      obtain rfl | hmem := List.mem_cons.mp hmem
      · simp [hfirst] at hu
      · exact ⟨inout', hmem, by rw [unlocked_newRef, hu]⟩

/-- Data without any right to be had is passed over. -/
theorem firstAccess_locked (ref buffer : Nat) (reaction : Reaction) (rights : List Inout)
    (hu : ∀ inout ∈ rights, unlocked w.heap ref inout.reads inout.writes = false) :
    ∃ h, w.firstAccess ref buffer reaction rights = ({ w with heap := h }, none) := by
  induction rights generalizing w with
  | nil => exact ⟨w.heap, rfl⟩
  | cons inout others ih =>
    have hfirst := hu inout List.mem_cons_self
    have hcontent := content?_copyRef w.heap ref inout.reads inout.writes
    rw [hfirst, if_neg (by simp)] at hcontent
    rw [World.firstAccess, World.scoped]
    dsimp only
    rw [hcontent, copyRef_locked hfirst]
    obtain ⟨h, e⟩ := ih (w := { w with heap := w.heap.newRef inout.reads inout.writes })
      fun inout' hmem => by
        rw [unlocked_newRef]
        exact hu inout' (List.mem_cons_of_mem _ hmem)
    dsimp only
    rw [e]
    exact ⟨_, rfl⟩

/-- The plugin is offered a right to the data. -/
def accessible (h : Heap) (ref : Nat) : Bool :=
  unlocked h ref true false || unlocked h ref false true

theorem unlocked_output (hu : unlocked h ref true true = true) :
    unlocked h ref true false = true := by
  obtain ⟨k, b, hk, hb, hd, hlocks⟩ := unlocked_iff.mp hu
  refine unlocked_iff.mpr ⟨k, b, hk, hb, hd, ?_⟩
  simp_all

/-- `serialize_type` of the data of a reference divides by no zero. -/
def Aligned (h : Heap) (ref : Nat) : Prop :=
  ∀ k, h.content? ref = some k → k.data ≠ 0 → k.type.divisible = true

theorem shareSerialized_eq (ha : Aligned w.heap ref) (buffer : Nat) (reaction : Reaction) :
    w.shareSerialized ref buffer reaction =
      w.firstAccess ref buffer reaction [.both, .output, .input] := by
  rw [World.shareSerialized, if_neg]
  cases hk : w.heap.content? ref with
  | none => simp
  | some k => simpa using ha k hk

theorem published_shareSerialized (ha : Aligned w.heap ref) (hacc : accessible w.heap ref = true)
    (buffer : Nat) (reaction : Reaction) : Published w (w.shareSerialized ref buffer reaction) := by
  rw [shareSerialized_eq ha]
  apply published_firstAccess
  obtain hu | hu := Bool.or_eq_true_iff.mp hacc
  · exact ⟨.output, by simp, hu⟩
  · exact ⟨.input, by simp, hu⟩

theorem shareSerialized_locked (ha : Aligned w.heap ref) (hacc : accessible w.heap ref = false)
    (buffer : Nat) (reaction : Reaction) :
    ∃ h, w.shareSerialized ref buffer reaction = ({ w with heap := h }, none) := by
  obtain ⟨hread, hwrite⟩ := Bool.or_eq_false_iff.mp hacc
  rw [shareSerialized_eq ha]
  apply firstAccess_locked
  simp only [List.forall_mem_cons, List.not_mem_nil, false_implies, implies_true, and_true]
  refine ⟨?_, hread, hwrite⟩
  cases hu : unlocked w.heap ref true true with
  | false => exact hu
  | true => simp [unlocked_output hu] at hread

end Share

theorem raise_eq_none {context : String} {errors : List Failure} :
    raise context errors = none ↔ errors = [] := by
  rw [raise, Option.or_eq_none_iff, rethrowAll_eq_none]
  constructor
  · exact And.right
  · rintro rfl
    exact ⟨rfl, rfl⟩

/-- No other callback of the source throws. -/
def Others.Quiet (others : Others) : Prop := others.before.errors = [] ∧ others.after.errors = []

/-- Data that has been put on the source is offered to the plugin with some right
exactly when no other callback refuses it. -/
structure Offered (w : World) (others : Others) : Prop where
  aligned : Aligned (w.notifying others).heap w.heap.refs.length
  accessible_iff : accessible (w.notifying others).heap w.heap.refs.length = true ↔ others.Quiet

/-- The condition for a share, with the rights it is given. -/
def ShareOffers (w : World) (r : Nat) (read write : Bool) (others : Others) : Prop :=
  ∀ s address, ({ w with heap := w.heap.copyRef r false false } : World).onSource.accept
    w.heap.refs.length read write = (s, .ok address) → Offered (w.setSource s) others

/-- What becomes of both stacks in one call. -/
inductive Moved (w : World) : World → Prop
  | same (h : Heap) : Moved w { w with heap := h }
  | grown (h : Heap) (n m : Nat) (inout : Inout) :
      Moved w (({ w with
        heap := h
        source := pushed w.source n
        serialized := pushed w.serialized m } : World).register inout)
  | emptied (h : Heap) (d d' : DataDescriptor) (hone : depth w.source = 1)
      (hd : Shrinks w.source d) (hd' : Shrinks w.serialized d') :
      Moved w { w with heap := h, source := d, serialized := d', callbacks := [], entries := [] }

theorem Moved.leave (hm : Moved w w') (r : Nat) : Moved w (w'.leave r) := by
  cases hm with
  | same => exact .same _
  | grown h n m inout => exact .grown _ n m inout
  | emptied h d d' hone hd hd' => exact .emptied _ d d' hone hd hd'

theorem Moved.from_heap (hm : Moved { w with heap := h } w') : Moved w w' := by
  cases hm with
  | same => exact .same _
  | grown h n m inout => exact .grown _ n m inout
  | emptied h d d' hone hd hd' => exact .emptied _ d d' hone hd hd'

/-- The notification throws and nothing is serialized, or neither. -/
theorem notifyShare_cases (ho : Offered w others) (buffer : Nat) :
    (∃ h e, w.notifyShare others buffer = ({ w with heap := h }, some e)) ∨
    ∃ h n inout, w.notifyShare others buffer =
      (({ w with heap := h, serialized := pushed w.serialized n } : World).register inout,
        none) := by
  unfold World.notifyShare World.notify
  dsimp only
  cases hacc : accessible (w.notifying others).heap w.heap.refs.length with
  | true =>
    obtain ⟨hbefore, hafter⟩ := ho.accessible_iff.mp hacc
    have hpub := published_shareSerialized ho.aligned hacc buffer others.nested
    generalize (w.notifying others).shareSerialized _ _ _ = result at hpub
    cases hpub with
    | failed =>
      refine .inl ⟨_, _, Prod.ext rfl (Option.eq_some_of_isSome (Option.isSome_iff_ne_none.mpr ?_))⟩
      rw [ne_eq, raise_eq_none]
      simp
    | shared h n inout =>
      refine .inr ⟨_, n, inout, Prod.ext rfl (raise_eq_none.mpr ?_)⟩
      simp [hbefore, hafter]
  | false =>
    obtain ⟨h, e⟩ := shareSerialized_locked ho.aligned hacc buffer others.nested
    rw [e]
    refine .inl ⟨_, _, Prod.ext rfl (Option.eq_some_of_isSome (Option.isSome_iff_ne_none.mpr ?_))⟩
    rw [ne_eq, raise_eq_none]
    intro hnil
    have hquiet : others.Quiet := by simpa [Others.Quiet] using hnil
    simp [ho.accessible_iff.mpr hquiet] at hacc

theorem moved_share {read write : Bool} (ho : ShareOffers w r read write others) (buffer : Nat) :
    Moved w (w.share r read write others buffer).1 := by
  have haccept := grows_accept ({ w with heap := w.heap.copyRef r false false } : World).onSource
    w.heap.refs.length (by simp [World.onSource]) read write
  unfold World.share World.shareRef inContext
  unfold ShareOffers at ho
  dsimp only at ho ⊢
  refine Moved.leave ?_ w.heap.refs.length
  generalize State.accept _ _ _ _ = outcome at haccept ho ⊢
  obtain ⟨⟨d, h⟩, e | address⟩ := outcome
  · obtain rfl : d = w.source := haccept
    exact .same h
  · obtain ⟨n, hn⟩ := haccept
    obtain rfl : d = pushed w.source n := hn
    have hworld : ({ w with heap := w.heap.copyRef r false false } : World).setSource
      ⟨pushed w.source n, h⟩ = w.setSource ⟨pushed w.source n, h⟩ := rfl
    dsimp only
    rw [hworld]
    obtain ⟨h', e, hnot⟩ | ⟨h', m, inout, hnot⟩ := notifyShare_cases (ho _ _ rfl) buffer
    · rw [hnot]
      exact .same _
    · rw [hnot]
      exact .grown h' n m inout

def ShareDataOffers (w : World) (data : Nat) (type : Except Failure Datatype) (read write : Bool)
    (others : Others) : Prop :=
  ∀ t made, type = .ok t → w.heap.create false false data t read write = .ok made →
    ShareOffers { w with heap := made } w.heap.refs.length false false others

theorem moved_shareData {data : Nat} {type : Except Failure Datatype} {read write : Bool}
    (ho : ShareDataOffers w data type read write others) (buffer : Nat) :
    Moved w (w.shareData data type read write others buffer).1 := by
  unfold World.shareData inContext
  dsimp only
  cases type with
  | error => exact .same w.heap
  | ok t =>
    dsimp only
    split
    · exact .same w.heap
    · next made hmade =>
      have hshare := (moved_share (ho t made rfl hmade) buffer).from_heap
      generalize World.share _ _ _ _ _ _ = outcome at hshare ⊢
      obtain ⟨w', e | a⟩ := outcome
      · refine Moved.leave ?_ w.heap.refs.length
        cases hshare with
        | same => exact .same _
        | grown h n m inout => exact .grown _ n m inout
        | emptied h d d' hone hd hd' => exact .emptied _ d d' hone hd hd'
      · exact hshare.leave w.heap.refs.length

end Pdi.SerializePlugin
