import Mathlib.Order.Bounds.Basic
import Pdi.TemplateEvaluate
import Pdi.TypeEquality

/-!
# The layout of structs and tuples

A struct, and a tuple whose elements have no displacements, is laid out when its template
is evaluated, and laid out again by `densify`, in code of its own. The first layout is the
one of C, as long as it ends below 2^64: each member is at the least place that its
alignment allows, and so is the end. The second one agrees with it as soon as it does for
the members.
-/
namespace Pdi.Templates

open Pdi.Datatypes Pdi.Align

variable {alignment : Nat} {types : List (String × Datatype)}

/-- Each member comes at the least multiple of its alignment that is not before the end of
the one before it; the last one ends at `stop`. -/
def InOrder : List (String × Datatype) → Nat → Members → Nat → Prop
  | [], after, .nil, stop => stop = after
  | (name, type) :: rest, after, .cons d type' name' members, stop =>
    type' = type ∧ name' = name ∧ IsLeast {x | type.alignment ∣ x ∧ after ≤ x} d ∧
      InOrder rest (d + type.buffersize) members stop
  | _, _, _, _ => False

/-- The members have one end only. -/
theorem InOrder.stop_unique : ∀ {types : List (String × Datatype)} {after : Nat} {ms ms' : Members}
    {stop stop' : Nat}, InOrder types after ms stop → InOrder types after ms' stop' → stop = stop'
  | [], _, .nil, .nil, _, _, h, h' => h.trans h'.symm
  | _ :: _, _, .cons _ _ _ _, .cons _ _ _ _, _, _, ⟨_, _, hleast, h⟩, ⟨_, _, hleast', h'⟩ => by
    rw [hleast.unique hleast'] at h
    exact h.stop_unique h'

/-- The rules of C for a struct of members of these types, with `n` bytes. -/
def FollowsC (types : List (String × Datatype)) (members : Members) (n : Nat) : Prop :=
  ∃ stop largest, InOrder types 0 members stop ∧
    IsGreatest {a | ∃ t ∈ types, t.2.alignment = a} largest ∧
    IsLeast {x | 0 < x ∧ largest ∣ x ∧ stop ≤ x} n

/-! ## The two loops -/

section Loops

variable {ν ε : Type} {ev : Evaluator ν ε}

/-- The largest alignment, as the loops compute it from a first one on. -/
def largestFrom (alignment : Nat) (types : List (String × Datatype)) : Nat :=
  types.foldl (fun a t => max a t.2.alignment) alignment

theorem aligned_ok {displacement : Nat} (h : 0 < alignment) :
    aligned displacement alignment = .ok (Machine.wrap (alignUp displacement alignment)) :=
  if_neg (Nat.pos_iff_ne_zero.mp h)

theorem evaluateStruct_eq {members : List (Template ε × String)}
    (h : List.Forall₂ (fun m t => m.1.evaluate ev = .ok t.2 ∧ m.2 = t.1) members types)
    (hpos : ∀ t ∈ types, 0 < t.2.alignment) (displacement alignment : Nat) :
    evaluateStruct ev members displacement alignment =
      .ok ⟨Machine.layOut types displacement, Machine.layOutEnd types displacement,
        largestFrom alignment types⟩ := by
  induction h generalizing displacement alignment with
  | nil => rfl
  | @cons m t members types hm _ ih =>
    obtain ⟨heval, hname⟩ := hm
    rw [List.forall_mem_cons] at hpos
    rw [evaluateStruct, heval, ok_bind, aligned_ok hpos.1, ok_bind, ih hpos.2, hname]
    rfl

theorem evaluateTuple_eq {elements : List (Option ε × Template ε)}
    (h : List.Forall₂ (fun e t => e.2.evaluate ev = .ok t.2 ∧ t.1 = "") elements types)
    (hpos : ∀ t ∈ types, 0 < t.2.alignment) (displacement alignment : Nat) :
    evaluateTuple ev elements displacement alignment =
      .ok ⟨Machine.layOut types displacement, Machine.layOutEnd types displacement,
        largestFrom alignment types⟩ := by
  induction h generalizing displacement alignment with
  | nil => rfl
  | @cons m t members types hm _ ih =>
    obtain ⟨heval, hname⟩ := hm
    rw [List.forall_mem_cons] at hpos
    rw [evaluateTuple, heval, ok_bind, aligned_ok hpos.1, ok_bind, ih hpos.2, ← hname]
    rfl

/-- On members with alignments, both computations of the largest alignment agree. -/
theorem largestFrom_eq (hpos : ∀ t ∈ types, 0 < t.2.alignment) (h : 0 < alignment ∨ types ≠ [])
    (displacement : Nat) :
    largestFrom alignment types = max alignment (layOut types displacement).alignment := by
  induction types generalizing alignment displacement with
  | nil =>
    have halignment : 0 < alignment := h.resolve_right (fun hne => hne rfl)
    exact (Nat.max_eq_left halignment).symm
  | cons t types ih =>
    rw [List.forall_mem_cons] at hpos
    have hmax : 0 < max alignment t.2.alignment := Nat.lt_of_lt_of_le hpos.1 (Nat.le_max_right _ _)
    rw [layOut, Members.alignment, ← Nat.max_assoc]
    exact ih hpos.2 (.inl hmax) _

end Loops

/-! ## The rules of C -/

section Rules

theorem isLeast_alignUp (h : 0 < alignment) (after : Nat) :
    IsLeast {x | alignment ∣ x ∧ after ≤ x} (alignUp after alignment) :=
  ⟨⟨dvd_alignUp after h, le_alignUp after alignment⟩, fun _ hx => alignUp_le h hx.2 hx.1⟩

theorem inOrder_layOut (hpos : ∀ t ∈ types, 0 < t.2.alignment) (after : Nat) :
    InOrder types after (layOut types after) (layOutEnd types after) := by
  induction types generalizing after with
  | nil => rfl
  | cons t types ih =>
    rw [List.forall_mem_cons] at hpos
    exact ⟨rfl, rfl, isLeast_alignUp hpos.1 after, ih hpos.2 _⟩

theorem isGreatest_alignment (hpos : ∀ t ∈ types, 0 < t.2.alignment) (hne : types ≠ [])
    (after : Nat) :
    IsGreatest {a | ∃ t ∈ types, t.2.alignment = a} (layOut types after).alignment := by
  induction types generalizing after with
  | nil => exact absurd rfl hne
  | cons t types ih =>
    rw [List.forall_mem_cons] at hpos
    rw [layOut, Members.alignment]
    by_cases hrest : types = []
    · subst hrest
      rw [layOut, Members.alignment, Nat.max_eq_left hpos.1]
      exact ⟨⟨t, List.mem_cons_self, rfl⟩, by simp⟩
    · obtain ⟨⟨t', ht', heq⟩, hupper⟩ :=
        ih hpos.2 hrest (alignUp after t.2.alignment + t.2.buffersize)
      constructor
      · obtain hmax | hmax := max_choice t.2.alignment
          (layOut types (alignUp after t.2.alignment + t.2.buffersize)).alignment
        · exact ⟨t, List.mem_cons_self, hmax.symm⟩
        · exact ⟨t', List.mem_cons_of_mem t ht', heq.trans hmax.symm⟩
      · rintro a ⟨u, hu, rfl⟩
        obtain rfl | hu := List.mem_cons.mp hu
        · exact Nat.le_max_left _ _
        · exact (hupper ⟨u, hu, rfl⟩).trans (Nat.le_max_right _ _)

theorem lt_layOutEnd (hsize : ∀ t ∈ types, 0 < t.2.buffersize) (hne : types ≠ []) (after : Nat) :
    after < layOutEnd types after := by
  induction types generalizing after with
  | nil => exact absurd rfl hne
  | cons t types ih =>
    rw [List.forall_mem_cons] at hsize
    rw [layOutEnd]
    have hle := le_alignUp after t.2.alignment
    by_cases hrest : types = []
    · subst hrest
      rw [layOutEnd]
      omega
    · have := ih hsize.2 hrest (alignUp after t.2.alignment + t.2.buffersize)
      omega

theorem isLeast_paddedEnd {stop : Nat} (hstop : 0 < stop) (h : 0 < alignment) :
    IsLeast {x | 0 < x ∧ alignment ∣ x ∧ stop ≤ x} (paddedEnd stop alignment) := by
  have hle := le_alignUp stop alignment
  have heq : paddedEnd stop alignment = alignUp stop alignment := Nat.max_eq_right (by omega)
  rw [heq]
  exact ⟨⟨by omega, dvd_alignUp stop h, hle⟩, fun x hx => alignUp_le h hx.2.2 hx.2.1⟩

theorem followsC_layOut (hne : types ≠ []) (hsize : ∀ t ∈ types, 0 < t.2.buffersize)
    (hpos : ∀ t ∈ types, 0 < t.2.alignment) :
    FollowsC types (layOut types 0) (paddedEnd (layOutEnd types 0) (layOut types 0).alignment) :=
  ⟨layOutEnd types 0, (layOut types 0).alignment, inOrder_layOut hpos 0,
    isGreatest_alignment hpos hne 0,
    isLeast_paddedEnd (lt_layOutEnd hsize hne 0) (Members.alignment_pos _)⟩

end Rules

/-! ## The densified form -/

mutual
theorem denseSizes_densify : ∀ t : Datatype,
    denseSizes (Machine.densify t).scalars = denseSizes t.scalars
  | .scalar _ => rfl
  | .array subtype _ _ _ _ | .pointer subtype _ _ _ => denseSizes_densify subtype
  | .record members _ _ | .tuple members _ _ => denseSizes_densified members 0

theorem denseSizes_densified : ∀ (ms : Members) (c : Nat),
    denseSizes (Machine.layOut (Machine.densified ms) c).scalars = denseSizes ms.scalars
  | .nil, _ => rfl
  | .cons _ type _ rest, c => by
    have htype := denseSizes_densify type
    simp only [Machine.densified, Machine.layOut, denseSizes, scalars_cons, List.map_append]
      at htype ⊢
    rw [htype]
    exact congrArg _ (denseSizes_densified rest _)
end

/-- A type that is equal to its densified form is laid out as that is. -/
theorem layout_of_same {t : Datatype} (h : t.same (Machine.densify t) = true) :
    (Machine.densify t).buffersize = t.buffersize ∧
    (Machine.densify t).alignment = t.alignment := by
  obtain ⟨hsize, -, halignment, -⟩ := Datatype.Alike.layout ⟨h, (denseSizes_densify t).symm⟩
  exact ⟨hsize.symm, halignment.symm⟩

section Densify

variable (hsame : ∀ t ∈ types, t.2.same (Machine.densify t.2) = true)

include hsame

theorem layOut_same_densified (named : Bool) (after : Nat) :
    (layOut types after).same named
      (layOut (Machine.densified (layOut types after)) after) = true := by
  induction types generalizing after with
  | nil => rfl
  | cons t types ih =>
    rw [List.forall_mem_cons] at hsame
    obtain ⟨hsize, halignment⟩ := layout_of_same hsame.1
    rw [layOut, Machine.densified, layOut, hsize, halignment]
    exact same_cons.mpr ⟨_, _, _, rfl, fun _ => rfl, hsame.1, ih hsame.2 _⟩

theorem layOutEnd_densified (after : Nat) :
    layOutEnd (Machine.densified (layOut types after)) after = layOutEnd types after := by
  induction types generalizing after with
  | nil => rfl
  | cons t types ih =>
    rw [List.forall_mem_cons] at hsame
    obtain ⟨hsize, halignment⟩ := layout_of_same hsame.1
    rw [layOut, Machine.densified, layOutEnd, hsize, halignment]
    exact ih hsame.2 _

variable (hroom : paddedEnd (layOutEnd types 0) (layOut types 0).alignment < 2 ^ 64)

include hroom

theorem record_same_densify (attributes : Attributes) :
    let t : Datatype := .record (layOut types 0)
      (paddedEnd (layOutEnd types 0) (layOut types 0).alignment) attributes
    t.same (Machine.densify t) = true := by
  intro t
  rw [← layOutEnd_densified hsame] at hroom
  obtain ⟨hmembers, hend⟩ := Machine.padded_eq hroom
  refine same_record.mpr ⟨_, [], ?_, layOut_same_densified hsame true 0⟩
  simp only [t, Machine.densify, hmembers, hend, layOutEnd_densified hsame]

theorem tuple_same_densify (attributes : Attributes) :
    let t : Datatype := .tuple (layOut types 0)
      (paddedEnd (layOutEnd types 0) (layOut types 0).alignment) attributes
    t.same (Machine.densify t) = true := by
  intro t
  rw [← layOutEnd_densified hsame] at hroom
  obtain ⟨hmembers, hend⟩ := Machine.padded_eq hroom
  refine same_tuple.mpr ⟨_, [], ?_, layOut_same_densified hsame false 0⟩
  simp only [t, Machine.densify, hmembers, hend, layOutEnd_densified hsame]

end Densify

/-! ## Structs and tuples -/

theorem buffersize_laidOut (hne : types ≠ []) (hpos : ∀ t ∈ types, 0 < t.2.alignment)
    (hroom : paddedEnd (layOutEnd types 0) (layOut types 0).alignment < 2 ^ 64) :
    LaidOut.buffersize
        ⟨Machine.layOut types 0, Machine.layOutEnd types 0, largestFrom 0 types⟩ =
      .ok (paddedEnd (layOutEnd types 0) (layOut types 0).alignment) := by
  rw [LaidOut.buffersize, largestFrom_eq hpos (.inr hne) 0, Nat.zero_max,
    aligned_ok (Members.alignment_pos _), ← (Machine.padded_eq hroom).2]
  rfl

section Evaluate

variable {ν ε : Type} (ev : Evaluator ν ε)

/-- A struct is laid out by the rules of C where these end below 2^64, and so is a tuple
without displacements. Either is equal to its densified form if all its members are. -/
theorem struct_tuple_layout {types : List (String × Datatype)} (hne : types ≠ [])
    (hsize : ∀ t ∈ types, 0 < t.2.buffersize) (hpow : ∀ t ∈ types, ∃ i, t.2.alignment = 2 ^ i)
    (hend : ∀ ms n, FollowsC types ms n → n < 2 ^ 64) (attributes : List (String × ε)) :
    (∀ members : List (Template ε × String),
      List.Forall₂ (fun m t => m.1.evaluate ev = .ok t.2 ∧ m.2 = t.1) members types →
      ∃ ms n as, (Template.struct members attributes).evaluate ev = .ok (.record ms n as) ∧
        FollowsC types ms n ∧
        ((∀ t ∈ types, t.2.same (Machine.densify t.2) = true) →
          (Datatype.record ms n as).same (Machine.densify (.record ms n as)) = true)) ∧
    (∀ (elements : List (Option ε × Template ε)) (buffersize : Option ε),
      List.Forall₂ (fun e t => e.1 = none ∧ e.2.evaluate ev = .ok t.2 ∧ t.1 = "") elements types →
      ∃ ms n as, (Template.tuple elements buffersize attributes).evaluate ev =
          .ok (.tuple ms n as) ∧
        FollowsC types ms n ∧
        ((∀ t ∈ types, t.2.same (Machine.densify t.2) = true) →
          (Datatype.tuple ms n as).same (Machine.densify (.tuple ms n as)) = true)) := by
  have hpos : ∀ t ∈ types, 0 < t.2.alignment := by
    intro t ht
    obtain ⟨i, hi⟩ := hpow t ht
    rw [hi]
    exact Nat.two_pow_pos i
  have hfollows := followsC_layOut hne hsize hpos
  have hroom := hend _ _ hfollows
  have hmachine := (Machine.padded_eq hroom).1
  refine ⟨fun members hmembers => ?_, fun elements buffersize helements => ?_⟩
  · refine ⟨layOut types 0, paddedEnd (layOutEnd types 0) (layOut types 0).alignment,
      ev.attributes attributes, ?_, hfollows, fun hsame => record_same_densify hsame hroom _⟩
    rw [Template.evaluate, evaluateStruct_eq hmembers hpos, ok_bind,
      buffersize_laidOut hne hpos hroom, hmachine]
    rfl
  · refine ⟨layOut types 0, paddedEnd (layOutEnd types 0) (layOut types 0).alignment,
      ev.attributes attributes, ?_, hfollows, fun hsame => tuple_same_densify hsame hroom _⟩
    have heval := evaluateTuple_eq (helements.imp fun _ _ h => h.2) hpos 0 0
    cases helements with
    | nil => exact absurd rfl hne
    | @cons e t elements types he _ =>
      obtain ⟨disp, type⟩ := e
      obtain rfl : disp = none := he.1
      rw [Template.evaluate, List.head?_cons]
      dsimp only
      rw [heval, ok_bind, buffersize_laidOut hne hpos hroom, hmachine]
      rfl

end Evaluate

/-- The rules of C leave no choice of the size. -/
theorem FollowsC.size_unique {types : List (String × Datatype)} {ms ms' : Members} {n n' : Nat}
    (h : FollowsC types ms n) (h' : FollowsC types ms' n') : n = n' := by
  obtain ⟨stop, largest, horder, hlargest, hleast⟩ := h
  obtain ⟨stop', largest', horder', hlargest', hleast'⟩ := h'
  obtain rfl := hlargest.unique hlargest'
  obtain rfl := horder.stop_unique horder'
  exact hleast.unique hleast'

/-- A byte and a number after it take eight bytes. -/
theorem struct_layout_sample :
    let longs : Evaluator Unit Int := .numbers fun _ => 0
    let members : List (Template Int × String) :=
      [(.scalar .signed 1 [], "c"), (.scalar .signed 4 [], "n")]
    ∃ ms n as, (Template.struct members []).evaluate longs = .ok (.record ms n as) ∧
      FollowsC [("c", typeForInt8), ("n", typeForInt32)] ms n ∧
      (Datatype.record ms n as).same (Machine.densify (.record ms n as)) = true := by
  intro longs members
  have hmembers : List.Forall₂ (fun (m : Template Int × String) t =>
      m.1.evaluate longs = .ok t.2 ∧ m.2 = t.1) members
      [("c", typeForInt8), ("n", typeForInt32)] :=
    .cons ⟨rfl, rfl⟩ (.cons ⟨rfl, rfl⟩ .nil)
  have hpow : ∀ t ∈ [("c", typeForInt8), ("n", typeForInt32)], ∃ i, t.2.alignment = 2 ^ i := by
    simpa using ⟨⟨0, rfl⟩, ⟨2, rfl⟩⟩
  have hend : ∀ ms n, FollowsC [("c", typeForInt8), ("n", typeForInt32)] ms n → n < 2 ^ 64 := by
    intro ms n h
    have hsize := h.size_unique (followsC_layOut (by simp) (by decide) (by decide))
    rw [hsize]
    decide
  obtain ⟨ms, n, as, heval, hlayout, hsame⟩ :=
    (struct_tuple_layout longs (by simp) (by decide) hpow hend []).1 members hmembers
  exact ⟨ms, n, as, heval, hlayout, hsame (by decide)⟩

/-- Two members of 2^63 bytes each, and a third one: it comes to lie on the first. -/
theorem struct_layout_wraps :
    let longs : Evaluator Unit Int := .numbers fun _ => 0
    let half : Template Int := .array (.scalar .signed 1 []) (2 ^ 63) 0 (2 ^ 63) []
    let type : Datatype := .array typeForInt8 (2 ^ 63) 0 (2 ^ 63) []
    let ms : Members := .cons 0 type "a" (.cons (2 ^ 63) type "b" (.cons 0 typeForInt8 "c" .nil))
    (Template.struct [(half, "a"), (half, "b"), (.scalar .signed 1 [], "c")] []).evaluate longs =
        .ok (.record ms 1 []) ∧
      ∀ n, ¬ FollowsC [("a", type), ("b", type), ("c", typeForInt8)] ms n := by
  constructor
  · rfl
  · rintro n ⟨stop, largest, ⟨_, _, _, _, _, _, _, _, hleast, _⟩, _⟩
    have hafter : 2 ^ 63 + 2 ^ 63 ≤ 0 := hleast.1.2
    omega

end Pdi.Templates
