import Pdi.TemplateEvaluate
import Pdi.TemplateResolution
import Pdi.Traced

/-!
# What the specification tree gives

The templates that a type node of the specification tree is resolved to, with the basic
types and those of a types section: a scalar of unknown kind is a byte, and a tuple has
displacements for all of its elements or for none.
-/
namespace Pdi.Templates

open Pdi.Datatypes Pdi.OpenRecursion Pdi.Trace

variable {ν ε : Type} {items : List ν} {elements : List (Option ε × Template ε)}
  {registry : Registry ν} {name : String} {node : ν} {template : Template ε}

section Accepted

variable (ev : Evaluator ν ε)

mutual
/-- The only scalar of unknown kind has a size of one. Either all elements of a tuple have
a displacement, and there is a size of the buffer, or there is neither. -/
def Template.Accepted : Template ε → Prop
  | .scalar kind size _ => kind = .unknown → size = ev.ofLong 1
  | .array subtype _ _ _ _ => subtype.Accepted
  | .record members _ _ => AcceptedRecord members
  | .struct members _ => AcceptedStruct members
  | .tuple elements buffersize _ =>
    (buffersize.isSome ∧ (∀ e ∈ elements, e.1.isSome) ∧ elements ≠ [] ∨
      buffersize = none ∧ ∀ e ∈ elements, e.1 = none) ∧ AcceptedTuple elements
  | .pointer subtype _ => subtype.Accepted

def AcceptedRecord : List (ε × Template ε × String) → Prop
  | [] => True
  | (_, type, _) :: rest => type.Accepted ∧ AcceptedRecord rest

def AcceptedStruct : List (Template ε × String) → Prop
  | [] => True
  | (type, _) :: rest => type.Accepted ∧ AcceptedStruct rest

def AcceptedTuple : List (Option ε × Template ε) → Prop
  | [] => True
  | (_, type) :: rest => type.Accepted ∧ AcceptedTuple rest
end

end Accepted

section Parsers

variable {ev : Evaluator ν ε} {doc : ν → Node ν} {answer : ν → Option (Except Failure (Template ε))}
  (hanswer : ∀ n t, answer n = some (.ok t) → t.Accepted ev)

theorem accepted_dimensions {subtype : Template ε} (attributes : List (String × ε))
    (dimensions : List (ε × ε × ε)) (h : subtype.Accepted ev) :
    Template.Accepted ev
      (dimensions.foldr (fun d t => .array t d.1 d.2.1 d.2.2 attributes) subtype) := by
  induction dimensions with
  | nil => exact h
  | cons d dimensions ih => exact ih

include hanswer

theorem accepted_toArray
    (h : (toArray doc ev.toExpressions node).runWith answer = some (.ok template)) :
    template.Accepted ev := by
  obtain ⟨dimensions, -, h⟩ := runWith_bind_ok.mp h
  cases hsubtype : pcGet doc (.ok node) "subtype" with
  | error =>
    rw [hsubtype] at h
    cases h
  | ok n =>
    rw [hsubtype] at h
    obtain ⟨subtype, hask, h⟩ := runWith_bind_ok.mp h
    obtain ⟨attributes, -, h⟩ := runWith_bind_ok.mp h
    cases h
    exact accepted_dimensions attributes dimensions (hanswer n subtype (runWith_ask_ok.mp hask))

theorem accepted_toPointer
    (h : (toPointer doc ev.toExpressions node).runWith answer = some (.ok template)) :
    template.Accepted ev := by
  unfold toPointer at h
  cases hsubtype : pcGet doc (.ok node) "subtype" with
  | error =>
    rw [hsubtype] at h
    cases h
  | ok n =>
    rw [hsubtype] at h
    obtain ⟨subtype, hask, h⟩ := runWith_bind_ok.mp h
    obtain ⟨attributes, -, h⟩ := runWith_bind_ok.mp h
    cases h
    exact hanswer n subtype (runWith_ask_ok.mp hask)

theorem accepted_structMembers {members : List (Template ε × String)}
    (h : (structMembers doc items : Resolver ν ε _).runWith answer = some (.ok members)) :
    AcceptedStruct ev members := by
  induction items generalizing members with
  | nil =>
    cases h
    trivial
  | cons element rest ih =>
    unfold structMembers at h
    split at h
    next key value heq =>
      obtain ⟨type, hask, h⟩ := runWith_bind_ok.mp h
      obtain ⟨name, -, h⟩ := runWith_bind_ok.mp h
      obtain ⟨others, hothers, h⟩ := runWith_bind_ok.mp h
      cases h
      exact ⟨hanswer _ _ (runWith_ask_ok.mp hask), ih hothers⟩
    next => cases h
    next => cases h

theorem accepted_toStruct
    (h : (toStruct doc ev.toExpressions node).runWith answer = some (.ok template)) :
    template.Accepted ev := by
  unfold toStruct at h
  cases hlist : pcGet doc (.ok node) "members" with
  | error =>
    rw [hlist] at h
    cases h
  | ok list =>
    rw [hlist] at h
    cases hitems : doc list with
    | scalar | mapping =>
      simp only [hitems] at h
      cases h
    | sequence =>
      simp only [hitems] at h
      obtain ⟨members, hmembers, h⟩ := runWith_bind_ok.mp h
      obtain ⟨attributes, -, h⟩ := runWith_bind_ok.mp h
      cases h
      exact accepted_structMembers hanswer hmembers

theorem accepted_recordMembers {list : Tree ν} {indices : List Nat}
    {members : List (ε × Template ε × String)}
    (h : (recordMembers doc ev.toExpressions list indices).runWith answer = some (.ok members)) :
    AcceptedRecord ev members := by
  induction indices generalizing members with
  | nil =>
    cases h
    trivial
  | cons i rest ih =>
    obtain ⟨pair, -, h⟩ := runWith_bind_ok.mp h
    obtain ⟨name, -, h⟩ := runWith_bind_ok.mp h
    split at h
    next => cases h
    next value hvalue =>
      obtain ⟨disp, -, h⟩ := runWith_bind_ok.mp h
      obtain ⟨type, hask, h⟩ := runWith_bind_ok.mp h
      obtain ⟨others, hothers, h⟩ := runWith_bind_ok.mp h
      cases h
      exact ⟨hanswer _ _ (runWith_ask_ok.mp hask), ih hothers⟩

theorem accepted_toRecord
    (h : (toRecord doc ev.toExpressions node).runWith answer = some (.ok template)) :
    template.Accepted ev := by
  unfold toRecord at h
  cases hsize : pcGet doc (.ok node) "buffersize" with
  | error =>
    rw [hsize] at h
    cases h
  | ok =>
    rw [hsize] at h
    obtain ⟨buffersize, -, h⟩ := runWith_bind_ok.mp h
    obtain ⟨members, hmembers, h⟩ := runWith_bind_ok.mp h
    obtain ⟨attributes, -, h⟩ := runWith_bind_ok.mp h
    cases h
    exact accepted_recordMembers hanswer hmembers

theorem accepted_tupleElements
    (h : (tupleElements doc ev.toExpressions items).runWith answer = some (.ok elements)) :
    AcceptedTuple ev elements := by
  induction items generalizing elements with
  | nil =>
    cases h
    trivial
  | cons element rest ih =>
    obtain ⟨disp, -, h⟩ := runWith_bind_ok.mp h
    obtain ⟨type, hask, h⟩ := runWith_bind_ok.mp h
    obtain ⟨others, hothers, h⟩ := runWith_bind_ok.mp h
    cases h
    exact ⟨hanswer _ _ (runWith_ask_ok.mp hask), ih hothers⟩

omit hanswer in
/-- Displacements are given for all elements and with a size of the buffer, or not at all. -/
theorem checkDisplacements_ok {buffersize : Option ε}
    (h : checkDisplacements elements buffersize.isSome = .ok ()) :
    buffersize.isSome ∧ (∀ e ∈ elements, e.1.isSome) ∧ elements ≠ [] ∨
      buffersize = none ∧ ∀ e ∈ elements, e.1 = none := by
  unfold checkDisplacements at h
  dsimp only at h
  split_ifs at h with hsome hdefined hundefined
  rw [Classical.not_and_iff_not_or_not] at hsome hdefined hundefined
  by_cases hzero : elements.countP (·.1.isSome) = 0
  · refine .inr ⟨?_, ?_⟩
    · have hnot : buffersize.isSome ≠ true := hdefined.resolve_right (not_not.mpr hzero)
      simpa using hnot
    · intro e he
      have hnone := List.countP_eq_zero.mp hzero e he
      simpa using hnone
  · refine .inl ⟨?_, ?_, ?_⟩
    · have hdef := hundefined.resolve_right (not_not.mpr hzero)
      exact Bool.not_eq_false _ ▸ hdef
    · have hall := not_not.mp (hsome.resolve_left (not_not.mpr hzero))
      exact fun e he => List.countP_eq_length.mp hall e he
    · rintro rfl
      exact hzero rfl

theorem accepted_toTuple
    (h : (toTuple doc ev.toExpressions node).runWith answer = some (.ok template)) :
    template.Accepted ev := by
  obtain ⟨buffersize, -, h⟩ := runWith_bind_ok.mp h
  cases hlist : pcGet doc (.ok node) "elements" with
  | error =>
    rw [hlist] at h
    cases h
  | ok list =>
    rw [hlist] at h
    cases hitems : doc list with
    | scalar | mapping =>
      simp only [hitems] at h
      cases h
    | sequence =>
      simp only [hitems] at h
      obtain ⟨elements, helements, h⟩ := runWith_bind_ok.mp h
      obtain ⟨⟨⟩, hcheck, h⟩ := runWith_bind_ok.mp h
      obtain ⟨attributes, -, h⟩ := runWith_bind_ok.mp h
      cases h
      exact ⟨checkDisplacements_ok (runWith_ofExcept_ok.mp hcheck),
        accepted_tupleElements hanswer helements⟩

end Parsers

/-! ## Types of a specification tree -/

/-- The parsers of scalars make no scalar of unknown kind but the byte. -/
def Parser.Proper : Parser ν → Prop
  | .scalar kind size => kind = .unknown → size = 1
  | .fortran kind _ => kind ≠ .unknown
  | _ => True

theorem proper_basicDatatypes : ∀ entry ∈ (basicDatatypes : Registry ν), entry.2.Proper := by
  unfold basicDatatypes
  simp only [List.forall_mem_append, List.forall_mem_map, List.forall_mem_cons]
  simp [Parser.Proper]

theorem proper_addDatatype {registry' : Registry ν} {definition : ν}
    (hproper : ∀ entry ∈ registry, entry.2.Proper)
    (h : addDatatype registry name (.user definition) = .ok registry') :
    ∀ entry ∈ registry', entry.2.Proper := by
  unfold addDatatype at h
  split_ifs at h
  cases h
  rw [List.forall_mem_append]
  exact ⟨hproper, by simp [Parser.Proper]⟩

theorem proper_loadUserDatatypes {doc : ν → Node ν} {types : Tree ν}
    (h : loadUserDatatypes doc types basicDatatypes = .ok registry) :
    ∀ entry ∈ registry, entry.2.Proper := by
  unfold loadUserDatatypes at h
  cases types with
  | error =>
    cases h
    exact proper_basicDatatypes
  | ok section' =>
    dsimp only at h
    -- the types are added one after the other to those that are there
    generalize List.range (orElse (pcLen doc (.ok section')) 0) = indices at h
    generalize hstart : (basicDatatypes : Registry ν) = start at h
    have hproper : ∀ entry ∈ start, entry.2.Proper := hstart ▸ proper_basicDatatypes
    clear hstart
    induction indices generalizing start with
    | nil =>
      cases h
      exact hproper
    | cons i rest ih =>
      rw [List.foldlM_cons] at h
      obtain ⟨next, hnext, h⟩ := bind_eq_ok.mp h
      obtain ⟨pair, -, hnext⟩ := bind_eq_ok.mp hnext
      obtain ⟨name, -, hadd⟩ := bind_eq_ok.mp hnext
      exact ih next h (proper_addDatatype hproper hadd)

theorem mem_of_lookup {parser : Parser ν} (h : registry.lookup name = some parser) :
    (name, parser) ∈ registry := by
  induction registry with
  | nil => cases h
  | cons entry rest ih =>
    obtain ⟨key, value⟩ := entry
    rw [List.lookup_cons] at h
    split at h
    · cases h
      rename_i heq
      rw [beq_iff_eq.mp heq]
      exact List.mem_cons_self
    · exact List.mem_cons_of_mem _ (ih h)

section Resolve

variable {ev : Evaluator ν ε} {doc : ν → Node ν}

theorem accepted_toScalar {kind : ScalarKind} {size : Except Failure Int}
    {answer : ν → Option (Except Failure (Template ε))} (hkind : kind = .unknown → size = .ok 1)
    (h : (toScalar doc ev.toExpressions node kind size).runWith answer = some (.ok template)) :
    template.Accepted ev := by
  obtain ⟨n, hsize, h⟩ := runWith_bind_ok.mp h
  obtain ⟨attributes, -, h⟩ := runWith_bind_ok.mp h
  cases h
  intro hunknown
  have hn := (runWith_ofExcept_ok.mp hsize).symm.trans (hkind hunknown)
  cases hn
  rfl

/-- Every template that the resolution of a type node comes to is of this kind. -/
theorem accepted_resolve (hproper : ∀ entry ∈ registry, entry.2.Proper) {fuel : Nat}
    (h : resolve (datatype doc ev.toExpressions registry) fuel node = some (.ok template)) :
    template.Accepted ev := by
  induction fuel generalizing node template with
  | zero => cases h
  | succ fuel ih =>
    have hanswer : ∀ n t, resolve (datatype doc ev.toExpressions registry) fuel n = some (.ok t) →
        t.Accepted ev := fun _ _ => ih
    rw [resolve] at h
    obtain ⟨name, -, h⟩ := runWith_bind_ok.mp h
    cases hparser : registry.lookup name with
    | none =>
      rw [hparser] at h
      cases h
    | some parser =>
      rw [hparser] at h
      have hp := hproper _ (mem_of_lookup hparser)
      cases parser with
      | array => exact accepted_toArray hanswer h
      | struct => exact accepted_toStruct hanswer h
      | record => exact accepted_toRecord hanswer h
      | pointer => exact accepted_toPointer hanswer h
      | tuple => exact accepted_toTuple hanswer h
      | scalar =>
        refine accepted_toScalar ?_ h
        intro hunknown
        rw [hp hunknown]
        rfl
      | fortran => exact accepted_toScalar (fun hunknown => absurd hunknown hp) h
      | user => exact hanswer _ _ (runWith_ask_ok.mp h)

end Resolve

end Pdi.Templates
