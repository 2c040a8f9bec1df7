import Pdi.BufferContents
import Pdi.NumberBytes

/-!
# Equal values

Two blocks hold the same value of a type if all their scalars are the same numbers,
whatever is between the scalars. Types that can stand for each other have the same values,
and an expression is copied into them in the same way.
-/
namespace Pdi.Expression

open Pdi.Datatypes Pdi.Memory Pdi.Trace

variable {P : Platform}

/-- A part of the content. -/
def part (content : List Byte) (offset size : Nat) : List Byte := (content.drop offset).take size

mutual
/-- Scalars are compared as numbers if they are numbers, and byte by byte otherwise, as
pointers are. -/
def SameValue (P : Platform) : Datatype → List Byte → List Byte → Prop
  | .scalar s, a, b =>
    match numberType s.kind s.denseSize with
    | some c => (Number.read a c : Number P.toFloatingPoint) = .read b c
    | none => a = b
  | .array subtype size _ _ _, a, b => ∀ i < size,
    SameValue P subtype (part a (i * subtype.buffersize) subtype.buffersize)
      (part b (i * subtype.buffersize) subtype.buffersize)
  | .record members _ _, a, b => SameMembers P members a b
  | .tuple elements _ _, a, b => SameMembers P elements a b
  | .pointer _ _ _ _, a, b => a = b

def SameMembers (P : Platform) : Members → List Byte → List Byte → Prop
  | .nil, _, _ => True
  | .cons d type _ rest, a, b =>
    SameValue P type (part a d type.buffersize) (part b d type.buffersize) ∧ SameMembers P rest a b
end

/-! ## An equivalence -/

mutual
theorem sameValue_refl : ∀ (t : Datatype) (a : List Byte), SameValue P t a a
  | .scalar s, a => by
    unfold SameValue
    split <;> rfl
  | .array subtype _ _ _ _, a => fun _ _ => sameValue_refl subtype _
  | .record members _ _, a | .tuple members _ _, a => sameMembers_refl members a
  | .pointer _ _ _ _, _ => rfl

theorem sameMembers_refl : ∀ (ms : Members) (a : List Byte), SameMembers P ms a a
  | .nil, _ => trivial
  | .cons _ type _ rest, a => ⟨sameValue_refl type _, sameMembers_refl rest a⟩
end

mutual
theorem sameValue_symm : ∀ {t : Datatype} {a b : List Byte}, SameValue P t a b → SameValue P t b a
  | .scalar s, a, b, h => by
    unfold SameValue at h ⊢
    split <;> rename_i hc <;> rw [hc] at h <;> exact h.symm
  | .array _ _ _ _ _, _, _, h => fun i hi => sameValue_symm (h i hi)
  | .record _ _ _, _, _, h | .tuple _ _ _, _, _, h => sameMembers_symm h
  | .pointer _ _ _ _, _, _, h => Eq.symm h

theorem sameMembers_symm : ∀ {ms : Members} {a b : List Byte}, SameMembers P ms a b →
    SameMembers P ms b a
  | .nil, _, _, _ => trivial
  | .cons _ _ _ _, _, _, h => ⟨sameValue_symm h.1, sameMembers_symm h.2⟩
end

mutual
theorem sameValue_trans : ∀ {t : Datatype} {a b c : List Byte}, SameValue P t a b →
    SameValue P t b c → SameValue P t a c
  | .scalar s, a, b, c, h, h' => by
    unfold SameValue at h h' ⊢
    split <;> rename_i hc <;> rw [hc] at h h' <;> exact h.trans h'
  | .array _ _ _ _ _, _, _, _, h, h' => fun i hi => sameValue_trans (h i hi) (h' i hi)
  | .record _ _ _, _, _, _, h, h' | .tuple _ _ _, _, _, _, h, h' => sameMembers_trans h h'
  | .pointer _ _ _ _, _, _, _, h, h' => Eq.trans h h'

theorem sameMembers_trans : ∀ {ms : Members} {a b c : List Byte}, SameMembers P ms a b →
    SameMembers P ms b c → SameMembers P ms a c
  | .nil, _, _, _, _, _ => trivial
  | .cons _ _ _ _, _, _, _, h, h' => ⟨sameValue_trans h.1 h'.1, sameMembers_trans h.2 h'.2⟩
end

/-! ## Types that stand for each other -/

theorem alike_scalar {s : Scalar} {t' : Datatype} (h : (Datatype.scalar s).Alike t') :
    ∃ s', t' = .scalar s' ∧ s.kind = s'.kind ∧ s.size = s'.size ∧ s.denseSize = s'.denseSize := by
  obtain ⟨s', rfl, hsize, -, hkind⟩ := same_scalar.mp h.1
  exact ⟨s', rfl, hkind, hsize, h.layout.1⟩

theorem alike_symm {t t' : Datatype} (h : t.Alike t') : t'.Alike t :=
  ⟨Datatype.same_symm h.1, h.2.symm⟩

mutual
theorem sameValue_alike : ∀ {t t' : Datatype}, t.Alike t' → ∀ {a b : List Byte},
    SameValue P t a b → SameValue P t' a b
  | .scalar s, _, h, a, b, hab => by
    obtain ⟨s', rfl, hkind, -, hdense⟩ := alike_scalar h
    unfold SameValue at hab ⊢
    rw [← hkind, ← hdense]
    exact hab
  | .array subtype size _ _ _, _, h, a, b, hab => by
    obtain ⟨u, _, rfl, hu⟩ := same_array.mp h.1
    have hsub : subtype.Alike u := ⟨hu, h.2⟩
    intro i hi
    rw [← hsub.layout.1]
    exact sameValue_alike hsub (hab i hi)
  | .record _ _ _, _, h, _, _, hab => by
    obtain ⟨ms', _, rfl, hms⟩ := same_record.mp h.1
    have hmembers : Members.Alike true _ ms' := ⟨hms, h.2⟩
    exact sameMembers_alike hmembers hab
  | .tuple _ _ _, _, h, _, _, hab => by
    obtain ⟨ms', _, rfl, hms⟩ := same_tuple.mp h.1
    have hmembers : Members.Alike false _ ms' := ⟨hms, h.2⟩
    exact sameMembers_alike hmembers hab
  | .pointer _ _ _ _, _, h, _, _, hab => by
    obtain ⟨_, _, _, _, rfl, _⟩ := same_pointer.mp h.1
    exact hab

theorem sameMembers_alike : ∀ {ms ms' : Members} {named : Bool}, ms.Alike named ms' →
    ∀ {a b : List Byte}, SameMembers P ms a b → SameMembers P ms' a b
  | .nil, _, _, h, _, _, _ => by
    obtain rfl := same_nil.mp h.1
    trivial
  | .cons _ _ _ _, _, _, h, _, _, hab => by
    obtain ⟨type', _, _, rfl, _, htype, hrest⟩ := h.cons
    unfold SameMembers at hab ⊢
    rw [← htype.layout.1]
    exact ⟨sameValue_alike htype hab.1, sameMembers_alike hrest hab.2⟩
end

/-! ## Copies into types that stand for each other -/

theorem find?_alike (name : String) : ∀ {ms ms' : Members}, ms.Alike true ms' →
    (ms.find? name = none ∧ ms'.find? name = none) ∨ ∃ d t t', ms.find? name = some (d, t) ∧
      ms'.find? name = some (d, t') ∧ t.Alike t'
  | .nil, _, h => by
    obtain rfl := same_nil.mp h.1
    exact .inl ⟨rfl, rfl⟩
  | .cons d type n _, _, h => by
    obtain ⟨type', _, _, rfl, hname, htype, hrest⟩ := h.cons
    obtain rfl := hname rfl
    by_cases hn : n = name
    · exact .inr ⟨d, type, type', if_pos hn, if_pos hn, htype⟩
    · simp only [Members.find?, if_neg hn]
      exact find?_alike name hrest

/-- What looks only at the kind and the sizes of a scalar. -/
theorem copy_alike {F : Datatype → Copy Nat}
    (hscalar : ∀ s s' : Scalar, s.kind = s'.kind → s.size = s'.size → s.denseSize = s'.denseSize →
      F (.scalar s) = F (.scalar s'))
    (hother : ∀ t, (∀ s, t ≠ .scalar s) → F t = F (.tuple .nil 0 [])) {t t' : Datatype}
    (h : t.Alike t') : F t = F t' := by
  cases t with
  | scalar s =>
    obtain ⟨s', rfl, hkind, hsize, hdense⟩ := alike_scalar h
    exact hscalar s s' hkind hsize hdense
  | _ =>
    rw [hother _ (by intro s hs; cases hs), hother t']
    intro s hs
    obtain ⟨s', hs', -⟩ := same_scalar.mp (Datatype.same_symm (hs ▸ h.1))
    cases hs'

theorem holdsChars_of_alike {t t' : Datatype} (h : t.Alike t') (ht : holdsChars t = true) :
    holdsChars t' = true := by
  unfold holdsChars at ht
  split at ht
  · rename_i s _ _ _ _
    obtain ⟨u, _, rfl, hu⟩ := same_array.mp h.1
    have hsub : (Datatype.scalar s).Alike u := ⟨hu, h.2⟩
    obtain ⟨s', rfl, -, -, hdense⟩ := alike_scalar hsub
    rw [hdense] at ht
    exact ht
  · cases ht

theorem holdsChars_alike {t t' : Datatype} (h : t.Alike t') : holdsChars t = holdsChars t' :=
  Bool.eq_iff_iff.mpr ⟨holdsChars_of_alike h, holdsChars_of_alike (alike_symm h)⟩

section Single

variable {t t' : Datatype} (h : t.Alike t')
include h

theorem intLiteralCopy_alike (value : Int) :
    intLiteralCopy P value t = intLiteralCopy P value t' := by
  refine copy_alike ?_ (fun t ht => by cases t <;> first | rfl | exact absurd rfl (ht _)) h
  intro s s' hkind _ hdense
  simp only [intLiteralCopy, hkind, hdense]

theorem floatLiteralCopy_alike (value : P.Value .double) :
    floatLiteralCopy value t = floatLiteralCopy value t' := by
  refine copy_alike ?_ (fun t ht => by cases t <;> first | rfl | exact absurd rfl (ht _)) h
  intro s s' hkind _ hdense
  simp only [floatLiteralCopy, hkind, hdense]

theorem indexedCopy_alike (ref : Value) : indexedCopy P ref t = indexedCopy P ref t' := by
  refine copy_alike ?_ (fun t ht => by cases t <;> first | rfl | exact absurd rfl (ht _)) h
  intro s s' hkind _ hdense
  simp only [indexedCopy, hkind, hdense]

theorem computedCopy_alike (value : Value) : computedCopy P value t = computedCopy P value t' := by
  refine copy_alike ?_ (fun t ht => by cases t <;> first | rfl | exact absurd rfl (ht _)) h
  intro s s' hkind hsize _
  simp only [computedCopy, hkind, hsize]

theorem stringLiteralCopy_alike (toString : Except Failure Cursor.Text) :
    stringLiteralCopy toString t = stringLiteralCopy toString t' := by
  unfold stringLiteralCopy
  rw [holdsChars_alike h, h.layout.1]

theorem wholeCopy_alike (ref : Value) : wholeCopy ref t = wholeCopy ref t' := by
  unfold wholeCopy
  rw [h.layout.1]

theorem referenceCopy_alike (whole : Bool) (toRef : Except Failure Value) :
    referenceCopy P whole toRef t = referenceCopy P whole toRef t' := by
  unfold referenceCopy
  simp only [wholeCopy_alike h, indexedCopy_alike h]

theorem operationCopy_alike (toRef : Except Failure Value) :
    operationCopy P toRef t = operationCopy P toRef t' := by
  unfold operationCopy
  simp only [computedCopy_alike h]

end Single

variable (ctx : DataContext)

mutual
/-- An expression is copied in the same way into types that stand for each other. -/
theorem Form.copyValue_alike : ∀ (e : Form P) {t t' : Datatype}, t.Alike t' →
    (e.impl ctx).copyValue t = (e.impl ctx).copyValue t'
  | .intLiteral value, _, _, h => intLiteralCopy_alike h value
  | .floatLiteral value, _, _, h => floatLiteralCopy_alike h value
  | .stringLiteral _ _, _, _, h => stringLiteralCopy_alike h _
  | .reference _ _ _, _, _, h => referenceCopy_alike h _ _
  | .operation _ _, _, _, h => operationCopy_alike h _
  | .sequence elements, t, t', h => by
    change sequenceCopy (elements.impls ctx) t = sequenceCopy (elements.impls ctx) t'
    cases t with
    | array subtype =>
      obtain ⟨u, _, rfl, hu⟩ := same_array.mp h.1
      have hsub : subtype.Alike u := ⟨hu, h.2⟩
      simp only [sequenceCopy, elements.copyArray_alike hsub, hsub.layout.1]
    | tuple =>
      obtain ⟨ms', _, rfl, hms⟩ := same_tuple.mp h.1
      simp only [sequenceCopy, elements.copyTuple_alike ⟨hms, h.2⟩]
    | scalar =>
      obtain ⟨s', rfl, -⟩ := alike_scalar h
      rfl
    | record =>
      obtain ⟨_, _, rfl, -⟩ := same_record.mp h.1
      rfl
    | pointer =>
      obtain ⟨_, _, _, _, rfl, -⟩ := same_pointer.mp h.1
      rfl
  | .mapping entries, t, t', h => by
    change mappingCopy (entries.impls ctx) t = mappingCopy (entries.impls ctx) t'
    cases t with
    | record =>
      obtain ⟨ms', _, rfl, hms⟩ := same_record.mp h.1
      simp only [mappingCopy, entries.copyRecord_alike ⟨hms, h.2⟩]
    | scalar =>
      obtain ⟨s', rfl, -⟩ := alike_scalar h
      rfl
    | array =>
      obtain ⟨_, _, rfl, -⟩ := same_array.mp h.1
      rfl
    | tuple =>
      obtain ⟨_, _, rfl, -⟩ := same_tuple.mp h.1
      rfl
    | pointer =>
      obtain ⟨_, _, _, _, rfl, -⟩ := same_pointer.mp h.1
      rfl

theorem Forms.copyArray_alike : ∀ (es : Forms P) {t t' : Datatype}, t.Alike t' →
    ∀ offset, copyArray t (es.impls ctx) offset = copyArray t' (es.impls ctx) offset
  | .nil, _, _, _, _ => rfl
  | .cons e rest, t, t', h, offset => by
    simp only [Forms.impls, copyArray, e.copyValue_alike h, rest.copyArray_alike h]

theorem Forms.copyTuple_alike : ∀ (es : Forms P) {ms ms' : Members}, ms.Alike false ms' →
    copyTuple (es.impls ctx) ms = copyTuple (es.impls ctx) ms'
  | .nil, _, _, _ => rfl
  | .cons e rest, .nil, _, h => by
    obtain rfl := same_nil.mp h.1
    rfl
  | .cons e rest, .cons _ _ _ _, _, h => by
    obtain ⟨_, _, _, rfl, _, htype, hrest⟩ := h.cons
    simp only [Forms.impls, copyTuple, e.copyValue_alike htype, rest.copyTuple_alike hrest]

theorem Entries.copyRecord_alike : ∀ (es : Entries P) {ms ms' : Members}, ms.Alike true ms' →
    copyRecord ms (es.impls ctx) = copyRecord ms' (es.impls ctx)
  | .nil, _, _, _ => rfl
  | .cons name e rest, ms, ms', h => by
    simp only [Entries.impls, copyRecord]
    rcases find?_alike name h with ⟨hnone, hnone'⟩ | ⟨d, t, t', hsome, hsome', ht⟩
    · rw [hnone, hnone']
    · rw [hsome, hsome']
      simp only [e.copyValue_alike ht, rest.copyRecord_alike h]
end

end Pdi.Expression
