import Pdi.Serialize
import Pdi.TemplateAccepted

/-!
# Layouts of structs and tuples without members

Four loops lay out members: those of a struct and of a tuple template, and those of
`serialize_type` for a record and a tuple. Each pads the end to the largest alignment of
the members, which starts at zero, so that a list without members makes it a division by
zero; and a tuple template first looks at its first element.

The templates are those that the specification tree gives. Every scalar they come to has
an alignment, and so has everything made of such scalars.
-/
namespace Pdi.Datatypes

open Pdi.Align

mutual
/-- Every scalar has an alignment. -/
def Datatype.Aligned : Datatype → Prop
  | .scalar s => s.align ≠ 0
  | .array subtype _ _ _ _ => subtype.Aligned
  | .record members _ _ | .tuple members _ _ => members.Aligned
  | .pointer subtype _ _ _ => subtype.Aligned

def Members.Aligned : Members → Prop
  | .nil => True
  | .cons _ type _ rest => type.Aligned ∧ rest.Aligned
end

mutual
/-- No record or tuple is without members. -/
def Datatype.Filled : Datatype → Prop
  | .scalar _ => True
  | .array subtype _ _ _ _ => subtype.Filled
  | .record members _ _ | .tuple members _ _ => members ≠ .nil ∧ members.Filled
  | .pointer subtype _ _ _ => subtype.Filled

def Members.Filled : Members → Prop
  | .nil => True
  | .cons _ type _ rest => type.Filled ∧ rest.Filled
end

theorem Datatype.Aligned.alignment_ne_zero : ∀ {t : Datatype}, t.Aligned → t.alignment ≠ 0
  | .scalar _, h => h
  | .array subtype _ _ _ _, h => Datatype.Aligned.alignment_ne_zero (t := subtype) h
  | .record members _ _, _ | .tuple members _ _, _ => Nat.pos_iff_ne_zero.mp members.alignment_pos
  | .pointer _ _ _ _, _ => Nat.succ_ne_zero _

theorem Datatype.Aligned.serialized_ne_zero :
    ∀ {t : Datatype}, t.Aligned → t.serializeType.alignment ≠ 0
  | .scalar _, h => h
  | .array subtype _ _ _ _, h => Datatype.Aligned.serialized_ne_zero (t := subtype) h
  | .record _ _ _, _ | .tuple _ _ _, _ => Nat.pos_iff_ne_zero.mp (Members.alignment_pos _)
  | .pointer subtype _ _ _, h => Datatype.Aligned.serialized_ne_zero (t := subtype) h

/-- The largest alignment in a serialized type is zero where there is no member. -/
theorem Members.Aligned.serializedAlignment_ne_zero {ms : Members} (h : ms.Aligned) :
    ms.serializedAlignment ≠ 0 ↔ ms ≠ .nil := by
  cases ms with
  | nil => simp [Members.serializedAlignment]
  | cons =>
    have htype := h.1.serialized_ne_zero
    refine iff_of_true ?_ (by simp)
    rw [Members.serializedAlignment]
    omega

mutual
/-- `serialize_type` divides by zero exactly for the types with a record or tuple without
members in them. -/
theorem Datatype.Aligned.divisible_iff : ∀ {t : Datatype}, t.Aligned →
    (t.divisible = true ↔ t.Filled)
  | .scalar _, _ => by simp [Datatype.divisible, Datatype.Filled]
  | .array subtype _ _ _ _, h => Datatype.Aligned.divisible_iff (t := subtype) h
  | .record members _ _, h | .tuple elements _ _, h => by
    rw [Datatype.divisible, Bool.and_eq_true, bne_iff_ne, h.serializedAlignment_ne_zero,
      h.divisible_members_iff, and_comm, Datatype.Filled]
  | .pointer subtype _ _ _, h => Datatype.Aligned.divisible_iff (t := subtype) h

theorem Members.Aligned.divisible_members_iff : ∀ {ms : Members}, ms.Aligned →
    (ms.divisible = true ↔ ms.Filled)
  | .nil, _ => by simp [Members.divisible, Members.Filled]
  | .cons _ type _ rest, h => by
    rw [Members.divisible, Bool.and_eq_true, Bool.and_eq_true, bne_iff_ne,
      h.1.divisible_iff, h.2.divisible_members_iff, Members.Filled]
    exact and_congr_left' (and_iff_left h.1.serialized_ne_zero)
end

end Pdi.Datatypes

namespace Pdi.Templates

open Pdi.Datatypes Pdi.Align Pdi.Trace

variable {ν ε : Type} {filled empty : Prop} {kind : ScalarKind} {n alignment : Nat}
  {attributes : Attributes}

section Conditions

variable (ev : Evaluator ν ε)

/-- The evaluation of the expression returns or throws. -/
def Evaluator.Sized (e : ε) : Prop := Fails Failure.Raised (ev.toLong e)

/-- Whichever failure is met is an error that is thrown. -/
def Raises (failures : List Failure) : Prop := ∀ f ∈ failures, f.Raised

/-- The expression has a value. -/
def Evaluator.Known (e : ε) : Prop := ∃ n, ev.toLong e = .ok n

/-! ## Templates that come to a type -/

mutual
/-- All expressions have a value, the sizes of scalars are powers of two, and structs and
tuples have a member. -/
def Template.Returns : Template ε → Prop
  | .scalar _ size _ => ∃ n, ev.toLong size = .ok n ∧ ispow2 (toSize n) = true
  | .array subtype size start subsize _ =>
    (subtype.Returns ∧ ev.Known size) ∧ ev.Known start ∧ ev.Known subsize
  | .record members buffersize _ => ReturnsRecord members ∧ ev.Known buffersize
  | .struct members _ => members ≠ [] ∧ ReturnsStruct members
  | .tuple elements buffersize _ =>
    elements ≠ [] ∧ (∀ e ∈ buffersize, ev.Known e) ∧ ReturnsTuple elements
  | .pointer subtype _ => subtype.Returns

def ReturnsRecord : List (ε × Template ε × String) → Prop
  | [] => True
  | (displacement, type, _) :: rest =>
    (ev.Known displacement ∧ type.Returns) ∧ ReturnsRecord rest

def ReturnsStruct : List (Template ε × String) → Prop
  | [] => True
  | (type, _) :: rest => type.Returns ∧ ReturnsStruct rest

def ReturnsTuple : List (Option ε × Template ε) → Prop
  | [] => True
  | (displacement, type) :: rest =>
    ((∀ e ∈ displacement, ev.Known e) ∧ type.Returns) ∧ ReturnsTuple rest
end

mutual
/-- Every struct and tuple that the evaluation may come to has a member. The arguments of a
call may be evaluated in any order, so it may come to each of them, but it does not come to
the members after one that throws. -/
def Template.Sound : Template ε → Prop
  | .scalar _ size _ => ev.Sized size
  | .array subtype size start subsize _ =>
    (subtype.Sound ∧ ev.Sized size) ∧ ev.Sized start ∧ ev.Sized subsize
  | .record members buffersize _ =>
    SoundRecord members ∧ (ReturnsRecord ev members → ev.Sized buffersize)
  | .struct members _ => members ≠ [] ∧ SoundStruct members
  | .tuple elements buffersize _ =>
    elements ≠ [] ∧ (∀ e ∈ buffersize, ev.Sized e) ∧
      ((∀ e ∈ buffersize, ev.Known e) → SoundTuple elements)
  | .pointer subtype _ => subtype.Sound

def SoundRecord : List (ε × Template ε × String) → Prop
  | [] => True
  | (displacement, type, _) :: rest =>
    (ev.Sized displacement ∧ type.Sound) ∧
      (ev.Known displacement ∧ type.Returns ev → SoundRecord rest)

def SoundStruct : List (Template ε × String) → Prop
  | [] => True
  | (type, _) :: rest => type.Sound ∧ (type.Returns ev → SoundStruct rest)

def SoundTuple : List (Option ε × Template ε) → Prop
  | [] => True
  | (displacement, type) :: rest =>
    ((∀ e ∈ displacement, ev.Sized e) ∧ type.Sound) ∧
      ((∀ e ∈ displacement, ev.Known e) ∧ type.Returns ev → SoundTuple rest)
end

end Conditions

mutual
/-- No record in the template is without members. -/
def Template.Filled : Template ε → Prop
  | .scalar _ _ _ => True
  | .array subtype _ _ _ _ => subtype.Filled
  | .record members _ _ => members ≠ [] ∧ FilledRecord members
  | .struct members _ => FilledStruct members
  | .tuple elements _ _ => FilledTuple elements
  | .pointer subtype _ => subtype.Filled

def FilledRecord : List (ε × Template ε × String) → Prop
  | [] => True
  | (_, type, _) :: rest => type.Filled ∧ FilledRecord rest

def FilledStruct : List (Template ε × String) → Prop
  | [] => True
  | (type, _) :: rest => type.Filled ∧ FilledStruct rest

def FilledTuple : List (Option ε × Template ε) → Prop
  | [] => True
  | (_, type) :: rest => type.Filled ∧ FilledTuple rest
end

/-- In whichever order arguments are evaluated, the template is evaluated to a type or an
error is thrown, and so it is with the serialized type of the type. -/
def Total (ev : Evaluator ν ε) (template : Template ε) : Prop :=
  Fails Raises (template.evaluate ev) ∧
    ∀ type, template.evaluate ev = .ok type → type.divisible = true

/-! ## Arguments in any order -/

section Outcomes

variable {α β : Type} {x : Outcome α} {y : Outcome β}

theorem of_eq_ok {z : Except Failure α} {a : α} : Outcome.of z = .ok a ↔ z = .ok a := by
  cases z with
  | ok => exact ⟨fun h => congrArg _ (Except.ok.inj h), fun h => congrArg _ (Except.ok.inj h)⟩
  | error => exact ⟨nofun, nofun⟩

theorem fails_of (z : Except Failure α) : Fails Raises (Outcome.of z) ↔ Fails Failure.Raised z :=
  fails_mapError _ _ z _ fun _ => List.forall_mem_singleton

theorem both_eq_ok {a : α} {b : β} : both x y = .ok (a, b) ↔ x = .ok a ∧ y = .ok b := by
  cases x with
  | error => cases y <;> exact ⟨nofun, nofun⟩
  | ok =>
    cases y with
    | error => exact ⟨nofun, nofun⟩
    | ok => simp [both]

/-- Both arguments count. -/
theorem behaves_both {safe safe' returns returns' : Prop} (hx : Behaves Raises x safe returns)
    (hy : Behaves Raises y safe' returns') :
    Behaves Raises (both x y) (safe ∧ safe') (returns ∧ returns') := by
  rw [← hx.fails, ← hx.value, ← hy.fails, ← hy.value]
  refine ⟨?_, ?_⟩
  · cases x with
    | ok => cases y <;> simp [both]
    | error => cases y <;> simp [both, Raises, or_imp, forall_and]
  · constructor
    · rintro ⟨⟨a, b⟩, hab⟩
      obtain ⟨ha, hb⟩ := both_eq_ok.mp hab
      exact ⟨⟨a, ha⟩, ⟨b, hb⟩⟩
    · rintro ⟨⟨a, ha⟩, ⟨b, hb⟩⟩
      exact ⟨(a, b), both_eq_ok.mpr ⟨ha, hb⟩⟩

end Outcomes

/-! ## The types that templates come to -/

section Types

variable {ev : Evaluator ν ε}

/-- What is said of the members that a list of templates comes to. -/
def Laid (filled empty : Prop) (ms : Members) : Prop :=
  ms.Aligned ∧ (ms.Filled ↔ filled) ∧ (ms = .nil ↔ empty)

theorem Laid.cons {displacement : Nat} {type : Datatype} {name : String} {ms : Members}
    {typeFilled filled empty empty' : Prop} (htype : type.Aligned ∧ (type.Filled ↔ typeFilled))
    (hms : Laid filled empty ms) (hempty : ¬ empty') :
    Laid (typeFilled ∧ filled) empty' (.cons displacement type name ms) :=
  ⟨⟨htype.1, hms.1⟩, and_congr htype.2 hms.2.1, iff_of_false (by simp) hempty⟩

theorem laid_nil (hfilled : filled) (hempty : empty) : Laid filled empty .nil :=
  ⟨trivial, iff_of_true trivial hfilled, iff_of_true rfl hempty⟩

/-- A list with members gives a record or a tuple with members. -/
theorem Laid.composite {ms : Members} (h : Laid filled empty ms) (hempty : ¬ empty) :
    ms.Aligned ∧ (ms ≠ .nil ∧ ms.Filled ↔ filled) :=
  ⟨h.1, (and_iff_right fun hnil => hempty (h.2.2.mp hnil)).trans h.2.1⟩

theorem aligned_makeScalar {d : Datatype} (hunknown : kind = .unknown → n = 1)
    (h : makeScalar kind n n attributes = .ok d) : d.Aligned ∧ (d.Filled ↔ True) := by
  unfold makeScalar at h
  split_ifs at h with hvalid
  cases h
  refine ⟨?_, iff_of_true trivial trivial⟩
  change n ≠ 0
  rintro rfl
  rcases hvalid with ⟨-, -, -, hkind⟩ | hpow
  · cases hunknown hkind
  · cases hpow

/-- The largest alignment is zero where there are no members, and it was so before. -/
theorem max_eq_zero_iff {a : Nat} (h : a ≠ 0) {rest : Prop} (hempty : ¬ empty) :
    (max alignment a = 0 ∧ rest) ↔ (alignment = 0 ∧ empty) := by
  refine iff_of_false ?_ fun h' => hempty h'.2
  rintro ⟨hmax, -⟩
  omega

mutual
/-- Every type that a template comes to has its scalars aligned, and a record or tuple
without members in it only where the template has such a record. -/
theorem Template.evaluate_type : ∀ {t : Template ε} {d : Datatype}, t.Accepted ev →
    t.evaluate ev = .ok d → d.Aligned ∧ (d.Filled ↔ t.Filled)
  | .scalar kind size attributes, d, ha, h => by
    obtain ⟨n, hn, h⟩ := bind_eq_ok.mp h
    refine aligned_makeScalar ?_ (of_eq_ok.mp h)
    intro hunknown
    obtain ⟨m, hm, hn⟩ := bind_eq_ok.mp hn
    cases hn
    rw [of_eq_ok, ha hunknown, ev.toLong_ofLong] at hm
    cases hm
    rfl
  | .array subtype _ _ _ _, d, ha, h => by
    obtain ⟨⟨⟨t, size⟩, start, subsize⟩, hargs, h⟩ := bind_eq_ok.mp h
    cases h
    have ht := (both_eq_ok.mp (both_eq_ok.mp hargs).1).1
    have hsubtype := Template.evaluate_type (t := subtype) ha ht
    exact hsubtype
  | .record members _ _, d, ha, h => by
    obtain ⟨ms, hms, h⟩ := bind_eq_ok.mp h
    obtain ⟨buffersize, -, h⟩ := bind_eq_ok.mp h
    cases h
    obtain ⟨haligned, hfilled, hempty⟩ := evaluateRecord_laid ha hms
    exact ⟨haligned, and_congr (not_congr hempty) hfilled⟩
  | .struct members _, d, ha, h => by
    obtain ⟨l, hl, h⟩ := bind_eq_ok.mp h
    obtain ⟨buffersize, hsize, h⟩ := bind_eq_ok.mp h
    cases h
    obtain ⟨hlaid, hzero⟩ := evaluateStruct_laid ha hl
    refine hlaid.composite ?_
    rintro rfl
    rw [LaidOut.buffersize, aligned, if_pos (hzero.mpr ⟨rfl, rfl⟩)] at hsize
    cases hsize
  | .tuple elements buffersize _, d, ha, h => by
    unfold Template.evaluate at h
    split at h
    next => cases h
    next hhead =>
      obtain ⟨n, -, h⟩ := bind_eq_ok.mp h
      obtain ⟨ms, hms, h⟩ := bind_eq_ok.mp h
      cases h
      refine (evaluateDisplaced_laid ha.2 hms).composite ?_
      rintro rfl
      cases hhead
    next hhead =>
      obtain ⟨l, hl, h⟩ := bind_eq_ok.mp h
      obtain ⟨n, -, h⟩ := bind_eq_ok.mp h
      cases h
      refine (evaluateTuple_laid ha.2 hl).1.composite ?_
      rintro rfl
      cases hhead
  | .pointer subtype _, d, ha, h => by
    obtain ⟨t, ht, h⟩ := bind_eq_ok.mp h
    cases h
    have hsubtype := Template.evaluate_type (t := subtype) ha ht
    exact hsubtype

theorem evaluateRecord_laid : ∀ {members : List (ε × Template ε × String)} {ms : Members},
    AcceptedRecord ev members → evaluateRecord ev members = .ok ms →
      Laid (FilledRecord members) (members = []) ms
  | [], ms, _, h => by
    cases h
    exact laid_nil trivial rfl
  | (displacement, type, name) :: rest, ms, ha, h => by
    obtain ⟨⟨n, t⟩, hargs, h⟩ := bind_eq_ok.mp h
    obtain ⟨others, hothers, h⟩ := bind_eq_ok.mp h
    cases h
    have htype := type.evaluate_type ha.1 (both_eq_ok.mp hargs).2
    exact (evaluateRecord_laid ha.2 hothers).cons htype (by simp)

theorem evaluateStruct_laid : ∀ {members : List (Template ε × String)} {d a : Nat} {l : LaidOut},
    AcceptedStruct ev members → evaluateStruct ev members d a = .ok l →
      Laid (FilledStruct members) (members = []) l.members ∧
        (l.alignment = 0 ↔ a = 0 ∧ members = [])
  | [], d, a, l, _, h => by
    cases h
    exact ⟨laid_nil trivial rfl, (and_iff_left rfl).symm⟩
  | (type, name) :: rest, d, a, l, ha, h => by
    obtain ⟨t, ht, h⟩ := bind_eq_ok.mp h
    obtain ⟨displacement, -, h⟩ := bind_eq_ok.mp h
    obtain ⟨others, hothers, h⟩ := bind_eq_ok.mp h
    cases h
    have htype := type.evaluate_type ha.1 ht
    obtain ⟨hlaid, hzero⟩ := evaluateStruct_laid ha.2 hothers
    exact ⟨hlaid.cons htype (by simp),
      hzero.trans (max_eq_zero_iff htype.1.alignment_ne_zero (by simp))⟩

theorem evaluateDisplaced_laid : ∀ {elements : List (Option ε × Template ε)} {ms : Members},
    AcceptedTuple ev elements → evaluateDisplaced ev elements = .ok ms →
      Laid (FilledTuple elements) (elements = []) ms
  | [], ms, _, h => by
    cases h
    exact laid_nil trivial rfl
  | (displacement, type) :: rest, ms, ha, h => by
    obtain ⟨⟨n, t⟩, hargs, h⟩ := bind_eq_ok.mp h
    obtain ⟨others, hothers, h⟩ := bind_eq_ok.mp h
    cases h
    have htype := type.evaluate_type ha.1 (both_eq_ok.mp hargs).2
    exact (evaluateDisplaced_laid ha.2 hothers).cons htype (by simp)

theorem evaluateTuple_laid : ∀ {elements : List (Option ε × Template ε)} {d a : Nat} {l : LaidOut},
    AcceptedTuple ev elements → evaluateTuple ev elements d a = .ok l →
      Laid (FilledTuple elements) (elements = []) l.members ∧
        (l.alignment = 0 ↔ a = 0 ∧ elements = [])
  | [], d, a, l, _, h => by
    cases h
    exact ⟨laid_nil trivial rfl, (and_iff_left rfl).symm⟩
  | (displacement, type) :: rest, d, a, l, ha, h => by
    obtain ⟨t, ht, h⟩ := bind_eq_ok.mp h
    obtain ⟨displacement, -, h⟩ := bind_eq_ok.mp h
    obtain ⟨others, hothers, h⟩ := bind_eq_ok.mp h
    cases h
    have htype := type.evaluate_type ha.1 ht
    obtain ⟨hlaid, hzero⟩ := evaluateTuple_laid ha.2 hothers
    exact ⟨hlaid.cons htype (by simp),
      hzero.trans (max_eq_zero_iff htype.1.alignment_ne_zero (by simp))⟩
end

/-! ## What the evaluation of a template does -/

theorem Evaluator.behaves_size (e : ε) :
    Behaves Raises (ev.size e) (ev.Sized e) (ev.Known e) :=
  Behaves.map ⟨fails_of _, exists_congr fun _ => of_eq_ok⟩ toSize

theorem behaves_makeScalar (hunknown : kind = .unknown → n = 1) :
    Behaves Raises (Outcome.of (makeScalar kind n n attributes)) True (ispow2 n = true) := by
  unfold makeScalar
  split_ifs with hvalid
  · refine (behaves_ok _).congr Iff.rfl (iff_of_true trivial ?_)
    rcases hvalid with ⟨hzero, -, -, hkind⟩ | hpow
    · rw [hunknown hkind]
      rfl
    · exact hpow
  · refine (behaves_error ?_).congr Iff.rfl (iff_of_false id fun hpow => hvalid (.inr hpow))
    exact List.forall_mem_singleton.mpr trivial

/-- The size of a scalar of unknown kind is one. -/
theorem behaves_scalar {size : ε} {attributes : List (String × ε)}
    (ha : (Template.scalar kind size attributes).Accepted ev) :
    Behaves Raises ((Template.scalar kind size attributes).evaluate ev)
      ((Template.scalar kind size attributes).Sound ev)
      ((Template.scalar kind size attributes).Returns ev) := by
  have hunknown : ∀ n, ev.toLong size = .ok n → kind = .unknown → toSize n = 1 := by
    intro n hn hkind
    rw [ha hkind, ev.toLong_ofLong] at hn
    cases hn
    rfl
  have hsize : ∀ n, ev.toLong size = .ok n → ev.size size = .ok (toSize n) := by
    intro n hn
    rw [Evaluator.size, hn]
    rfl
  have hvalue : ∀ m, ev.size size = .ok m → ∃ n, ev.toLong size = .ok n ∧ toSize n = m := by
    intro m hm
    obtain ⟨n, hn, hnm⟩ := bind_eq_ok.mp hm
    exact ⟨n, of_eq_ok.mp hn, Except.ok.inj hnm⟩
  unfold Template.evaluate
  refine ⟨?_, ?_⟩
  · rw [fails_bind, (ev.behaves_size size).fails]
    refine and_iff_left fun m hm => ?_
    obtain ⟨n, hn, rfl⟩ := hvalue m hm
    exact (behaves_makeScalar (hunknown n hn)).fails.mpr trivial
  · constructor
    · rintro ⟨type, htype⟩
      obtain ⟨m, hm, htype⟩ := bind_eq_ok.mp htype
      obtain ⟨n, hn, rfl⟩ := hvalue m hm
      exact ⟨n, hn, (behaves_makeScalar (hunknown n hn)).value.mp ⟨type, htype⟩⟩
    · rintro ⟨n, hn, hpow⟩
      obtain ⟨type, htype⟩ := (behaves_makeScalar (hunknown n hn)).value.mpr hpow
      exact ⟨type, bind_eq_ok.mpr ⟨toSize n, hsize n hn, htype⟩⟩

/-- The padding at the end. -/
theorem LaidOut.behaves_buffersize (l : LaidOut) :
    Behaves Raises l.buffersize (l.alignment ≠ 0) (l.alignment ≠ 0) := by
  unfold LaidOut.buffersize aligned
  split_ifs with hzero
  · exact (behaves_lost fun h => h _ List.mem_cons_self).congr
      (iff_of_false id (not_not.mpr hzero))
      (iff_of_false id (not_not.mpr hzero))
  · exact (behaves_ok _).congr (iff_of_true trivial hzero) (iff_of_true trivial hzero)

theorem behaves_aligned {displacement : Nat} (h : alignment ≠ 0) :
    Behaves Raises (aligned displacement alignment) True True := by
  unfold aligned
  rw [if_neg h]
  exact behaves_ok _

mutual
theorem Template.behaves : ∀ {t : Template ε}, t.Accepted ev →
    Behaves Raises (t.evaluate ev) (t.Sound ev) (t.Returns ev)
  | .scalar kind size attributes, ha => behaves_scalar ha
  | .array subtype size start subsize attributes, ha =>
    (behaves_both (behaves_both (Template.behaves (t := subtype) ha) (ev.behaves_size size))
      (behaves_both (ev.behaves_size start) (ev.behaves_size subsize))).map _
  | .record members buffersize attributes, ha =>
    (behaves_evaluateRecord ha).bind fun _ _ => (ev.behaves_size buffersize).map _
  | .struct members attributes, ha => by
    have hlist := behaves_evaluateStruct (d := 0) (a := 0) ha
    have hstruct := hlist.bind fun l hl =>
      ((LaidOut.behaves_buffersize l).congr (not_congr (evaluateStruct_laid ha hl).2)
        (not_congr (evaluateStruct_laid ha hl).2)).map fun buffersize =>
          Datatype.record l.members buffersize (ev.attributes attributes)
    rcases members with _ | ⟨member, rest⟩
    · refine hstruct.congr ?_ ?_
      · simp [Template.Sound, SoundStruct, ReturnsStruct]
      · simp [Template.Returns]
    · refine hstruct.congr ?_ ?_
      · simp [Template.Sound]
      · simp [Template.Returns]
  | .tuple elements buffersize attributes, ha => by
    obtain ⟨⟨hsize, hall, hne⟩ | ⟨rfl, hall⟩, hlist⟩ := ha
    · obtain ⟨e, rfl⟩ := Option.isSome_iff_exists.mp hsize
      have htuple := (ev.behaves_size e).bind fun n _ =>
        (behaves_evaluateDisplaced hall hlist).map fun ms =>
          Datatype.tuple ms n (ev.attributes attributes)
      have hevaluate : (Template.tuple elements (some e) attributes).evaluate ev =
          ev.size e >>= fun n => evaluateDisplaced ev elements >>= fun ms =>
            .ok (Datatype.tuple ms n (ev.attributes attributes)) := by
        obtain _ | ⟨⟨displacement, type⟩, rest⟩ := elements
        · exact absurd rfl hne
        · obtain ⟨d, rfl⟩ := Option.isSome_iff_exists.mp (hall _ List.mem_cons_self)
          rfl
      rw [hevaluate]
      refine htuple.congr ?_ ?_
      · simp [Template.Sound, hne]
      · simp [Template.Returns, hne]
    · have hlaid := behaves_evaluateTuple (d := 0) (a := 0) hall hlist
      have htuple := hlaid.bind fun l hl =>
        ((LaidOut.behaves_buffersize l).congr (not_congr (evaluateTuple_laid hlist hl).2)
          (not_congr (evaluateTuple_laid hlist hl).2)).map fun buffersize =>
            Datatype.tuple l.members buffersize (ev.attributes attributes)
      obtain _ | ⟨⟨displacement, type⟩, rest⟩ := elements
      · refine (behaves_lost fun h => h _ List.mem_cons_self).congr ?_ ?_
        · simp [Template.Sound]
        · simp [Template.Returns]
      · obtain rfl : displacement = none := hall _ List.mem_cons_self
        refine Behaves.congr htuple ?_ ?_
        · simp [Template.Sound]
        · simp [Template.Returns]
  | .pointer subtype attributes, ha => (Template.behaves (t := subtype) ha).map _

theorem behaves_evaluateRecord : ∀ {members : List (ε × Template ε × String)},
    AcceptedRecord ev members →
      Behaves Raises (evaluateRecord ev members) (SoundRecord ev members) (ReturnsRecord ev members)
  | [], _ => behaves_ok _
  | (displacement, type, _) :: _, ha =>
    (behaves_both (ev.behaves_size displacement) (type.behaves ha.1)).bind fun _ _ =>
      (behaves_evaluateRecord ha.2).map _

theorem behaves_evaluateStruct : ∀ {members : List (Template ε × String)} {d a : Nat},
    AcceptedStruct ev members →
      Behaves Raises (evaluateStruct ev members d a) (SoundStruct ev members)
        (ReturnsStruct ev members)
  | [], _, _, _ => behaves_ok _
  | (type, _) :: _, _, _, ha =>
    (type.behaves ha.1).bind fun _ ht =>
      (behaves_aligned (type.evaluate_type ha.1 ht).1.alignment_ne_zero).bind_total fun _ _ =>
        (behaves_evaluateStruct ha.2).map _

theorem behaves_evaluateDisplaced : ∀ {elements : List (Option ε × Template ε)},
    (∀ e ∈ elements, e.1.isSome) → AcceptedTuple ev elements →
      Behaves Raises (evaluateDisplaced ev elements) (SoundTuple ev elements)
        (ReturnsTuple ev elements)
  | [], _, _ => behaves_ok _
  | (none, _) :: _, hall, _ => by cases hall _ List.mem_cons_self
  | (some displacement, type) :: rest, hall, ha => by
    refine Behaves.congr ((behaves_both (ev.behaves_size displacement) (type.behaves ha.1)).bind
      fun n _ => (behaves_evaluateDisplaced (List.forall_mem_cons.mp hall).2 ha.2).map _) ?_ ?_
    · simp [SoundTuple]
    · simp [ReturnsTuple]

theorem behaves_evaluateTuple : ∀ {elements : List (Option ε × Template ε)} {d a : Nat},
    (∀ e ∈ elements, e.1 = none) → AcceptedTuple ev elements →
      Behaves Raises (evaluateTuple ev elements d a) (SoundTuple ev elements)
        (ReturnsTuple ev elements)
  | [], _, _, _, _ => behaves_ok _
  | (some _, _) :: _, _, _, hall, _ => by cases hall _ List.mem_cons_self
  | (none, type) :: rest, d, a, hall, ha => by
    refine Behaves.congr ((type.behaves ha.1).bind fun t ht =>
      (behaves_aligned (type.evaluate_type ha.1 ht).1.alignment_ne_zero).bind_total
        fun _ _ => (behaves_evaluateTuple (List.forall_mem_cons.mp hall).2 ha.2).map _) ?_ ?_
    · simp [SoundTuple]
    · simp [ReturnsTuple]
end

end Types

/-- The layout of a type of the specification tree is computed without anything undefined
exactly if every struct and tuple that the evaluation comes to has a member and, where it
comes to a type, every record has one. -/
theorem layout_total_iff {size : Nat} (doc : Fin size → Node (Fin size))
    (ev : Evaluator (Fin size) ε) (types : Tree (Fin size)) (fuel : Nat) (node : Fin size)
    (template : Template ε)
    (h : datatypeOf doc ev.toExpressions types fuel node = some (.ok template)) :
    Total ev template ↔ template.Sound ev ∧ (template.Returns ev → template.Filled) := by
  have haccepted : template.Accepted ev := by
    unfold datatypeOf at h
    cases hload : loadUserDatatypes doc types basicDatatypes with
    | error =>
      rw [hload] at h
      cases h
    | ok =>
      rw [hload] at h
      exact accepted_resolve (proper_loadUserDatatypes hload) h
  have hbehaves := template.behaves haccepted
  refine and_congr hbehaves.fails ?_
  rw [← hbehaves.value]
  constructor
  · rintro hdivisible ⟨type, htype⟩
    obtain ⟨haligned, hfilled⟩ := template.evaluate_type haccepted htype
    exact hfilled.mp (haligned.divisible_iff.mp (hdivisible type htype))
  · intro hfilled type htype
    obtain ⟨haligned, hfilled'⟩ := template.evaluate_type haccepted htype
    exact haligned.divisible_iff.mpr (hfilled'.mpr (hfilled ⟨type, htype⟩))

/-- The types `{type: struct, members: [x: int]}`, the same without members, and
`{type: tuple, elements: []}`. -/
def fewMembers : Fin 14 → Node (Fin 14)
  | 0 => .mapping [(3, 4), (5, 9)]
  | 1 => .mapping [(3, 4), (5, 8)]
  | 2 => .mapping [(3, 6), (7, 8)]
  | 3 => .scalar "type"
  | 4 => .scalar "struct"
  | 5 => .scalar "members"
  | 6 => .scalar "tuple"
  | 7 => .scalar "elements"
  | 8 => .sequence []
  | 9 => .sequence [10]
  | 10 => .mapping [(11, 12)]
  | 11 => .scalar "x"
  | 12 => .scalar "int"
  | 13 => .scalar ""

def lengths : Evaluator (Fin 14) Int := .numbers fun _ => 0

theorem layout_total_one :
    let template : Template Int := .struct [(.scalar .signed 4 [], "x")] []
    datatypeOf fewMembers lengths.toExpressions (.error "") 2 0 = some (.ok template) ∧
      Total lengths template := by
  intro template
  have hresolved : datatypeOf fewMembers lengths.toExpressions (.error "") 2 0 =
    some (.ok template) := rfl
  refine ⟨hresolved, (layout_total_iff _ lengths _ _ _ _ hresolved).mpr ⟨?_, fun _ => ?_⟩⟩
  · exact ⟨List.cons_ne_nil _ _, fails_ok _, fun _ => trivial⟩
  · exact ⟨trivial, trivial⟩

/-- A struct without members is accepted, and laid out with a division by zero; a tuple
without elements is accepted, and its first element looked at. -/
theorem empty_layouts :
    datatypeOf fewMembers lengths.toExpressions (.error "") 1 1 = some (.ok (.struct [] [])) ∧
      (Template.struct [] [] : Template Int).evaluate lengths =
        .error [.undefined "division by zero"] ∧
      datatypeOf fewMembers lengths.toExpressions (.error "") 1 2 =
        some (.ok (.tuple [] none [])) ∧
      (Template.tuple [] none [] : Template Int).evaluate lengths =
        .error [.undefined "first element of an empty tuple"] :=
  ⟨rfl, rfl, rfl, rfl⟩

end Pdi.Templates
