import Pdi.DescriptorDiscipline

/-!
# The depth of a stack

How many references are shared on a descriptor, and how the calls change that,
whatever the callbacks do to references.
-/
namespace Pdi.Descriptor

open Pdi.Memory Pdi.Datatypes Pdi.Reference

variable {d : DataDescriptor} {s : State}

/-- How many references are shared on a descriptor. -/
def depth (d : DataDescriptor) : Nat := d.holders.length - d.metadata.toNat

/-- A metadata descriptor has its placeholder. -/
def Placed (d : DataDescriptor) : Prop := d.metadata = true → d.holders ≠ []

def pushed (d : DataDescriptor) (n : Nat) : DataDescriptor := { d with holders := n :: d.holders }

/-- One reference less is shared. -/
def Shrinks (d d' : DataDescriptor) : Prop := Placed d' ∧ depth d' + 1 = depth d

theorem Placed.toNat_le (hp : Placed d) : d.metadata.toNat ≤ d.holders.length := by
  cases hm : d.metadata with
  | false => simp
  | true => exact List.length_pos_iff.mpr (hp hm)

theorem placed_pushed (d : DataDescriptor) (n : Nat) : Placed (pushed d n) := by
  simp [Placed, pushed]

theorem depth_pushed (hp : Placed d) (n : Nat) : depth (pushed d n) = depth d + 1 := by
  have := hp.toNat_le
  simp only [depth, pushed, List.length_cons]
  omega

theorem shared_iff : s.shared = true ↔ 0 < depth s.toDataDescriptor := by
  constructor
  · intro hs
    have := shared_length hs
    rw [depth]
    omega
  · intro hd
    have hlen : 0 < s.holders.length := by
      rw [depth] at hd
      omega
    have hne : s.holders.isEmpty = false := by simpa using List.length_pos_iff.mp hlen
    rw [State.shared, hne]
    cases hm : s.metadata with
    | false => simp
    | true =>
      simp only [depth, hm, Bool.toNat_true] at hd
      simp
      omega

theorem shrinks_tail (hs : s.shared = true) (hl : s.last = false) :
    Shrinks s.toDataDescriptor { s.toDataDescriptor with holders := s.holders.tail } := by
  have hlen := shared_length hs
  refine ⟨fun hm hnil => ?_, ?_⟩
  · have hlast : s.last = true := by
      refine last_iff.mpr ⟨hm, ?_⟩
      have htail := congrArg List.length hnil
      simp only [List.length_tail, List.length_nil] at htail
      dsimp only at hm
      rw [hm, Bool.toNat_true] at hlen
      omega
    simp [hlast] at hl
  · simp only [depth, List.length_tail]
    omega

theorem shrinks_placeholder (hl : s.last = true) (n : Nat) :
    Shrinks s.toDataDescriptor { s.toDataDescriptor with holders := [n] } := by
  obtain ⟨hm, hlen⟩ := last_iff.mp hl
  refine ⟨by simp [Placed], ?_⟩
  simp [depth, hm, hlen]

theorem shrinks_drop (hs : s.shared = true) :
    Shrinks s.toDataDescriptor s.drop.toDataDescriptor := by
  obtain ⟨top, rest, hh⟩ := List.exists_cons_of_ne_nil (holders_of_shared hs)
  cases hl : s.last with
  | false =>
    have htail := shrinks_tail hs hl
    rw [hh] at htail
    rw [drop_above hh hl]
    exact htail
  | true =>
    rw [drop_last hl]
    exact shrinks_placeholder hl _

theorem shrinks_takeBack (functions : CopyFunctions) (hs : s.shared = true) {buffer : Nat}
    (hcopy : s.last = true → ∀ e, (s.copied functions buffer).2 ≠ .error e) :
    Shrinks s.toDataDescriptor (s.takeBack functions buffer).1.toDataDescriptor := by
  obtain ⟨top, rest, hh⟩ := List.exists_cons_of_ne_nil (holders_of_shared hs)
  cases hl : s.last with
  | false =>
    have htail := shrinks_tail hs hl
    rw [hh] at htail
    rw [takeBack_above functions hh hl, giveBack_eq]
    exact htail
  | true =>
    cases hc : (s.copied functions buffer).2 with
    | error e => exact absurd hc (hcopy hl e)
    | ok =>
      rw [takeBack_ok functions hl hc, giveBack_eq]
      exact shrinks_placeholder hl _

/-- A share that throws leaves the stack as it was, another puts one reference on it. -/
def Grows {α : Type} (d : DataDescriptor) : Outcome α → Prop
  | (s, .error _) => s.toDataDescriptor = d
  | (s, .ok _) => ∃ n, s.toDataDescriptor = pushed d n

theorem grows_accept (s : State) (data : Nat) (hlt : data < s.heap.refs.length)
    (read write : Bool) :
    Grows s.toDataDescriptor (s.accept data read write) := by
  have haccept := shares_accept (allowsQuiet_any []) s (by simp [Exist])
    (List.not_mem_nil (a := data))
    hlt read write
  generalize s.accept data read write = outcome at haccept
  obtain ⟨s', e | a⟩ := outcome
  · exact haccept.same
  · obtain ⟨n, hp⟩ := haccept
    exact ⟨n, hp.same⟩

theorem grows_share (s : State) (r : Nat) (read write : Bool) (reaction : Reaction) :
    Grows s.toDataDescriptor (s.share r read write reaction) := by
  have haccept := grows_accept { s with heap := s.heap.copyRef r false false }
    s.heap.refs.length (by simp) read write
  rw [State.share, State.shareRef]
  generalize ({ s with heap := s.heap.copyRef r false false } : State).accept
    s.heap.refs.length read write = outcome at haccept ⊢
  obtain ⟨s', e | a⟩ := outcome
  · exact haccept
  · obtain ⟨n, hn⟩ := haccept
    have hnot : (s'.notify "sharing" reaction).1.toDataDescriptor =
      pushed s.toDataDescriptor n := hn
    dsimp only
    generalize s'.notify "sharing" reaction = notified at hnot ⊢
    obtain ⟨⟨d, h⟩, e | e⟩ := notified
    · exact ⟨n, hnot⟩
    · obtain rfl : d = _ := hnot
      rfl

theorem release_silent (hs : s.shared = true) {reaction : Reaction} (hr : reaction.errors = []) :
    s.release reaction = ((s.notified reaction).drop, .ok ()) := by
  have hnot : s.notify "removing" reaction = (s.notified reaction, none) := by
    simp [State.notified, State.notify, hr, rethrowAll]
  rw [State.release, hs, hnot]
  rfl

/-- A descriptor on which nothing is shared. -/
def Unshared (d : DataDescriptor) : Prop := d.holders.length = d.metadata.toNat

theorem Unshared.placed (hu : Unshared d) : Placed d := by
  intro hm hnil
  rw [Unshared, hm, hnil] at hu
  cases hu

end Pdi.Descriptor
