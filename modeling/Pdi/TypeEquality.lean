import Pdi.TypeNodes

/-!
# Equality of types

`operator==` of every class compares its own selection of fields. It is an equivalence.
Whether equal types can stand for each other is a question about all their layout
functions and accesses, at every pair of corresponding nodes, and comes down to the one
field of a scalar that is not compared.
-/
namespace Pdi.Datatypes

open Pdi.Align Pdi.Memory

variable {as : Attributes} {n : Nat}

mutual
/-- `operator==`, which does not look at the dense size of a scalar. -/
def Datatype.same : Datatype → Datatype → Bool
  | .scalar s, .scalar s' => s.size == s'.size && s.align == s'.align && s.kind == s'.kind
  | .array t size start subsize _, .array t' size' start' subsize' _ =>
    t.same t' && size == size' && start == start' && subsize == subsize'
  | .record members buffersize _, .record members' buffersize' _ =>
    buffersize == buffersize' && members.same true members'
  | .tuple elements buffersize _, .tuple elements' buffersize' _ =>
    buffersize == buffersize' && elements.same false elements'
  | .pointer t _ _ _, .pointer t' _ _ _ => t.same t'
  | _, _ => false

def Members.same (named : Bool) : Members → Members → Bool
  | .nil, .nil => true
  | .cons d type name rest, .cons d' type' name' rest' =>
    d == d' && (!named || name == name') && type.same type' && rest.same named rest'
  | _, _ => false
end

section Same

variable {t t' : Datatype} {ms ms' : Members} {named : Bool}

theorem same_scalar {s : Scalar} : (Datatype.scalar s).same t' = true ↔
    ∃ s', t' = .scalar s' ∧ s.size = s'.size ∧ s.align = s'.align ∧ s.kind = s'.kind := by
  cases t' <;> simp [Datatype.same, and_assoc]

theorem same_array {size start subsize : Nat} :
    (Datatype.array t size start subsize as).same t' = true ↔
      ∃ u as', t' = .array u size start subsize as' ∧ t.same u = true := by
  cases t' <;> simp [Datatype.same]
  grind

theorem same_record : (Datatype.record ms n as).same t' = true ↔
    ∃ ms' as', t' = .record ms' n as' ∧ ms.same true ms' = true := by
  cases t' <;> simp [Datatype.same]
  grind

theorem same_tuple : (Datatype.tuple ms n as).same t' = true ↔
    ∃ ms' as', t' = .tuple ms' n as' ∧ ms.same false ms' = true := by
  cases t' <;> simp [Datatype.same]
  grind

theorem same_pointer {copy destroy : Option FunctionName} :
    (Datatype.pointer t copy destroy as).same t' = true ↔
      ∃ u copy' destroy' as', t' = .pointer u copy' destroy' as' ∧ t.same u = true := by
  cases t' <;> simp [Datatype.same]

theorem same_nil : Members.nil.same named ms' = true ↔ ms' = .nil := by
  cases ms' <;> simp [Members.same]

theorem same_cons {d : Nat} {name : String} : (Members.cons d t name ms).same named ms' = true ↔
    ∃ t' name' rest, ms' = .cons d t' name' rest ∧ (named = true → name = name') ∧
      t.same t' = true ∧ ms.same named rest = true := by
  cases ms' <;> cases named <;> simp [Members.same]
  all_goals grind

end Same

/-! ## An equivalence -/

mutual
theorem Datatype.same_refl : ∀ t : Datatype, t.same t = true
  | .scalar s => same_scalar.mpr ⟨s, rfl, rfl, rfl, rfl⟩
  | .array subtype _ _ _ attributes => same_array.mpr ⟨subtype, attributes, rfl, subtype.same_refl⟩
  | .record members _ attributes =>
    same_record.mpr ⟨members, attributes, rfl, members.same_refl true⟩
  | .tuple elements _ attributes =>
    same_tuple.mpr ⟨elements, attributes, rfl, elements.same_refl false⟩
  | .pointer subtype copy destroy attributes =>
    same_pointer.mpr ⟨subtype, copy, destroy, attributes, rfl, subtype.same_refl⟩

theorem Members.same_refl : ∀ (ms : Members) (named : Bool), ms.same named ms = true
  | .nil, _ => same_nil.mpr rfl
  | .cons _ type name rest, named =>
    same_cons.mpr ⟨type, name, rest, rfl, fun _ => rfl, type.same_refl, rest.same_refl named⟩
end

mutual
theorem Datatype.same_symm : ∀ {t t' : Datatype}, t.same t' = true → t'.same t = true
  | .scalar s, t', h => by
    obtain ⟨s', rfl, hsize, halign, hkind⟩ := same_scalar.mp h
    exact same_scalar.mpr ⟨s, rfl, hsize.symm, halign.symm, hkind.symm⟩
  | .array _ _ _ _ _, t', h => by
    obtain ⟨u, _, rfl, hu⟩ := same_array.mp h
    exact same_array.mpr ⟨_, _, rfl, Datatype.same_symm hu⟩
  | .record _ _ _, t', h => by
    obtain ⟨ms', _, rfl, hms⟩ := same_record.mp h
    exact same_record.mpr ⟨_, _, rfl, Members.same_symm hms⟩
  | .tuple _ _ _, t', h => by
    obtain ⟨ms', _, rfl, hms⟩ := same_tuple.mp h
    exact same_tuple.mpr ⟨_, _, rfl, Members.same_symm hms⟩
  | .pointer _ _ _ _, t', h => by
    obtain ⟨u, _, _, _, rfl, hu⟩ := same_pointer.mp h
    exact same_pointer.mpr ⟨_, _, _, _, rfl, Datatype.same_symm hu⟩

theorem Members.same_symm : ∀ {ms ms' : Members} {named : Bool}, ms.same named ms' = true →
    ms'.same named ms = true
  | .nil, ms', _, h => by
    obtain rfl := same_nil.mp h
    exact h
  | .cons _ _ _ _, ms', _, h => by
    obtain ⟨_, _, _, rfl, hname, htype, hrest⟩ := same_cons.mp h
    exact same_cons.mpr ⟨_, _, _, rfl, fun hn => (hname hn).symm, Datatype.same_symm htype,
      Members.same_symm hrest⟩
end

mutual
theorem Datatype.same_trans : ∀ {t t' t'' : Datatype}, t.same t' = true → t'.same t'' = true →
    t.same t'' = true
  | .scalar s, t', t'', h, h' => by
    obtain ⟨s', rfl, hsize, halign, hkind⟩ := same_scalar.mp h
    obtain ⟨s'', rfl, hsize', halign', hkind'⟩ := same_scalar.mp h'
    exact same_scalar.mpr
      ⟨s'', rfl, hsize.trans hsize', halign.trans halign', hkind.trans hkind'⟩
  | .array _ _ _ _ _, t', t'', h, h' => by
    obtain ⟨_, _, rfl, hu⟩ := same_array.mp h
    obtain ⟨_, _, rfl, hu'⟩ := same_array.mp h'
    exact same_array.mpr ⟨_, _, rfl, Datatype.same_trans hu hu'⟩
  | .record _ _ _, t', t'', h, h' => by
    obtain ⟨_, _, rfl, hms⟩ := same_record.mp h
    obtain ⟨_, _, rfl, hms'⟩ := same_record.mp h'
    exact same_record.mpr ⟨_, _, rfl, Members.same_trans hms hms'⟩
  | .tuple _ _ _, t', t'', h, h' => by
    obtain ⟨_, _, rfl, hms⟩ := same_tuple.mp h
    obtain ⟨_, _, rfl, hms'⟩ := same_tuple.mp h'
    exact same_tuple.mpr ⟨_, _, rfl, Members.same_trans hms hms'⟩
  | .pointer _ _ _ _, t', t'', h, h' => by
    obtain ⟨_, _, _, _, rfl, hu⟩ := same_pointer.mp h
    obtain ⟨_, _, _, _, rfl, hu'⟩ := same_pointer.mp h'
    exact same_pointer.mpr ⟨_, _, _, _, rfl, Datatype.same_trans hu hu'⟩

theorem Members.same_trans : ∀ {ms ms' ms'' : Members} {named : Bool}, ms.same named ms' = true →
    ms'.same named ms'' = true → ms.same named ms'' = true
  | .nil, ms', ms'', _, h, h' => by
    obtain rfl := same_nil.mp h
    exact h'
  | .cons _ _ _ _, ms', ms'', _, h, h' => by
    obtain ⟨_, _, _, rfl, hname, htype, hrest⟩ := same_cons.mp h
    obtain ⟨_, _, _, rfl, hname', htype', hrest'⟩ := same_cons.mp h'
    exact same_cons.mpr ⟨_, _, _, rfl, fun hn => (hname hn).trans (hname' hn),
      Datatype.same_trans htype htype', Members.same_trans hrest hrest'⟩
end

/-! ## Layouts of equal types -/

/-- Both accesses fail, or they lead to one address and to equal types. -/
def SameAccess : Except Failure (Nat × Datatype) → Except Failure (Nat × Datatype) → Prop
  | .ok (a, t), .ok (a', t') => a = a' ∧ t.same t' = true
  | .error _, .error _ => True
  | _, _ => False

/-- Data of one type can be used as data of the other. -/
structure Interchangeable (t t' : Datatype) : Prop where
  buffersize : t.buffersize = t'.buffersize
  datasize : t.datasize = t'.datasize
  alignment : t.alignment = t'.alignment
  dense : t.dense = t'.dense
  index : ∀ i data mem, SameAccess (t.index i data mem) (t'.index i data mem)
  member : ∀ name data mem, SameAccess (t.member name data mem) (t'.member name data mem)

def denseSizes (scalars : List Scalar) : List Nat := scalars.map Scalar.denseSize

/-- Equal types, with scalars of equal dense sizes. -/
def Datatype.Alike (t t' : Datatype) : Prop :=
  t.same t' = true ∧ denseSizes t.scalars = denseSizes t'.scalars

def Members.Alike (named : Bool) (ms ms' : Members) : Prop :=
  ms.same named ms' = true ∧ denseSizes ms.scalars = denseSizes ms'.scalars

mutual
theorem Datatype.same_nodes : ∀ {t t' : Datatype}, t.same t' = true →
    List.Forall₂ (fun n n' => n.same n' = true) t.nodes t'.nodes
  | .scalar _, _, h => by
    obtain ⟨_, rfl, _⟩ := same_scalar.mp h
    exact .cons h .nil
  | .array _ _ _ _ _, _, h => by
    obtain ⟨_, _, rfl, hu⟩ := same_array.mp h
    exact .cons h (Datatype.same_nodes hu)
  | .record _ _ _, _, h => by
    obtain ⟨_, _, rfl, hms⟩ := same_record.mp h
    exact .cons h (Members.same_nodes hms)
  | .tuple _ _ _, _, h => by
    obtain ⟨_, _, rfl, hms⟩ := same_tuple.mp h
    exact .cons h (Members.same_nodes hms)
  | .pointer _ _ _ _, _, h => by
    obtain ⟨_, _, _, _, rfl, hu⟩ := same_pointer.mp h
    exact .cons h (Datatype.same_nodes hu)

theorem Members.same_nodes : ∀ {ms ms' : Members} {named : Bool}, ms.same named ms' = true →
    List.Forall₂ (fun n n' => n.same n' = true) ms.nodes ms'.nodes
  | .nil, _, _, h => by
    obtain rfl := same_nil.mp h
    exact .nil
  | .cons _ _ _ _, _, _, h => by
    obtain ⟨_, _, _, rfl, _, htype, hrest⟩ := same_cons.mp h
    exact List.rel_append (Datatype.same_nodes htype) (Members.same_nodes hrest)
end

/-- What two nodes have to do with each other is passed on to their scalars. -/
theorem forall₂_scalars {R : Scalar → Scalar → Prop} {ns ns' : List Datatype}
    (h : List.Forall₂ (fun n n' => n.same n' = true) ns ns')
    (hR : ∀ s s', (Datatype.scalar s, Datatype.scalar s') ∈ ns.zip ns' → R s s') :
    List.Forall₂ R (ns.filterMap Datatype.scalar?) (ns'.filterMap Datatype.scalar?) := by
  induction h with
  | nil => exact .nil
  | @cons n n' ns ns' hn _ ih =>
    have ih := ih fun s s' hs => hR s s' (List.mem_cons_of_mem _ hs)
    cases n with
    | scalar s =>
      obtain ⟨s', rfl, _⟩ := same_scalar.mp hn
      exact .cons (hR s s' List.mem_cons_self) ih
    | array =>
      obtain ⟨_, _, rfl, _⟩ := same_array.mp hn
      exact ih
    | record =>
      obtain ⟨_, _, rfl, _⟩ := same_record.mp hn
      exact ih
    | tuple =>
      obtain ⟨_, _, rfl, _⟩ := same_tuple.mp hn
      exact ih
    | pointer =>
      obtain ⟨_, _, _, _, rfl, _⟩ := same_pointer.mp hn
      exact ih

theorem Members.Alike.cons {d : Nat} {type : Datatype} {name : String} {rest ms' : Members}
    {named : Bool} (h : (Members.cons d type name rest).Alike named ms') :
    ∃ type' name' rest', ms' = .cons d type' name' rest' ∧ (named = true → name = name') ∧
      type.Alike type' ∧ rest.Alike named rest' := by
  obtain ⟨hsame, hsizes⟩ := h
  obtain ⟨type', name', rest', rfl, hname, htype, hrest⟩ := same_cons.mp hsame
  have hlength : type.scalars.length = type'.scalars.length :=
    (forall₂_scalars (R := fun _ _ => True) (Datatype.same_nodes htype)
      fun _ _ _ => trivial).length_eq
  simp only [denseSizes, scalars_cons, List.map_append] at hsizes
  obtain ⟨h1, h2⟩ := List.append_inj hsizes (by simpa using hlength)
  exact ⟨type', name', rest', rfl, hname, ⟨htype, h1⟩, hrest, h2⟩

mutual
theorem Datatype.Alike.layout : ∀ {t t' : Datatype}, t.Alike t' →
    t.buffersize = t'.buffersize ∧ t.datasize = t'.datasize ∧ t.alignment = t'.alignment ∧
      t.dense = t'.dense
  | .scalar s, _, ⟨h, hsizes⟩ => by
    obtain ⟨s', rfl, hsize, halign, _⟩ := same_scalar.mp h
    have hdense : s.denseSize = s'.denseSize := by simpa [denseSizes] using hsizes
    simp only [Datatype.buffersize, Datatype.datasize, Datatype.alignment, Datatype.dense]
    exact ⟨hdense, hsize, halign, by rw [hdense, hsize]⟩
  | .array _ _ _ _ _, _, ⟨h, hsizes⟩ => by
    obtain ⟨_, _, rfl, hu⟩ := same_array.mp h
    obtain ⟨hb, hd, ha, he⟩ := Datatype.Alike.layout ⟨hu, hsizes⟩
    simp only [Datatype.buffersize, Datatype.datasize, Datatype.alignment, Datatype.dense]
    exact ⟨by rw [hb], by rw [hd], ha, by rw [he]⟩
  | .record _ _ _, _, ⟨h, hsizes⟩ => by
    obtain ⟨_, _, rfl, hms⟩ := same_record.mp h
    obtain ⟨hd, ha, he⟩ := Members.Alike.layout ⟨hms, hsizes⟩
    refine ⟨rfl, hd, ha, ?_⟩
    simp only [Datatype.dense, he, ha]
  | .tuple _ _ _, _, ⟨h, hsizes⟩ => by
    obtain ⟨_, _, rfl, hms⟩ := same_tuple.mp h
    obtain ⟨hd, ha, he⟩ := Members.Alike.layout ⟨hms, hsizes⟩
    refine ⟨rfl, hd, ha, ?_⟩
    simp only [Datatype.dense, he, ha]
  | .pointer _ _ _ _, _, ⟨h, _⟩ => by
    obtain ⟨_, _, _, _, rfl, _⟩ := same_pointer.mp h
    exact ⟨rfl, rfl, rfl, rfl⟩

theorem Members.Alike.layout : ∀ {ms ms' : Members} {named : Bool}, ms.Alike named ms' →
    ms.datasize = ms'.datasize ∧ ms.alignment = ms'.alignment ∧
      ∀ n a c, ms.denseIn n a c = ms'.denseIn n a c
  | .nil, _, _, ⟨h, _⟩ => by
    obtain rfl := same_nil.mp h
    exact ⟨rfl, rfl, fun _ _ _ => rfl⟩
  | .cons _ _ _ _, _, _, h => by
    obtain ⟨_, _, _, rfl, _, htype, hrest⟩ := h.cons
    obtain ⟨hb, hd, ha, he⟩ := Datatype.Alike.layout htype
    obtain ⟨hd', ha', he'⟩ := Members.Alike.layout hrest
    simp only [Members.datasize, Members.alignment, Members.denseIn]
    exact ⟨by rw [hd, hd'], by rw [ha, ha'], fun n a c => by rw [hb, ha, he, he']⟩
end

/-! ## Accesses to equal types -/

/-- Two members, or none twice. -/
def SameMember : Option (Nat × Datatype) → Option (Nat × Datatype) → Prop
  | some (d, t), some (d', t') => d = d' ∧ t.same t' = true
  | none, none => True
  | _, _ => False

theorem same_get? {named : Bool} : ∀ {ms ms' : Members}, ms.same named ms' = true →
    ms.length = ms'.length ∧ ∀ i, SameMember (ms.get? i) (ms'.get? i)
  | .nil, _, h => by
    obtain rfl := same_nil.mp h
    exact ⟨rfl, fun i => trivial⟩
  | .cons _ _ _ _, _, h => by
    obtain ⟨_, _, _, rfl, _, htype, hrest⟩ := same_cons.mp h
    obtain ⟨hlength, hget⟩ := same_get? hrest
    refine ⟨congrArg (· + 1) hlength, fun i => ?_⟩
    cases i with
    | zero => exact ⟨rfl, htype⟩
    | succ i => exact hget i

theorem same_find? (name : String) : ∀ {ms ms' : Members}, ms.same true ms' = true →
    SameMember (ms.find? name) (ms'.find? name)
  | .nil, _, h => by
    obtain rfl := same_nil.mp h
    trivial
  | .cons _ _ n _, _, h => by
    obtain ⟨_, n', _, rfl, hname, htype, hrest⟩ := same_cons.mp h
    obtain rfl := hname rfl
    simp only [Members.find?]
    split
    · exact ⟨rfl, htype⟩
    · exact same_find? name hrest

theorem Datatype.Alike.index (mem : Mem Byte) (i : Nat) : ∀ {t t' : Datatype} (data : Nat),
    t.Alike t' → SameAccess (t.index i data mem) (t'.index i data mem)
  | .scalar _, _, _, ⟨h, _⟩ => by
    obtain ⟨_, rfl, _⟩ := same_scalar.mp h
    trivial
  | .array _ _ _ subsize _, _, data, ⟨h, hsizes⟩ => by
    obtain ⟨u, _, rfl, hu⟩ := same_array.mp h
    have halike : Datatype.Alike _ u := ⟨hu, hsizes⟩
    simp only [Datatype.index]
    split
    · exact ⟨by rw [halike.layout.1], hu⟩
    · trivial
  | .record _ _ _, _, _, ⟨h, _⟩ => by
    obtain ⟨_, _, rfl, _⟩ := same_record.mp h
    trivial
  | .tuple ms _ _, _, data, ⟨h, _⟩ => by
    obtain ⟨ms', _, rfl, hms⟩ := same_tuple.mp h
    have hget := (same_get? hms).2 i
    simp only [Datatype.index]
    cases hm : ms.get? i <;> cases hm' : ms'.get? i <;> rw [hm, hm'] at hget
    · trivial
    · exact hget.elim
    · exact hget.elim
    · exact ⟨by rw [hget.1], hget.2⟩
  | .pointer _ _ _ _, _, data, ⟨h, hsizes⟩ => by
    obtain ⟨_, _, _, _, rfl, hu⟩ := same_pointer.mp h
    rw [Datatype.index, Datatype.index]
    exact Datatype.Alike.index mem i (readPointer mem data) ⟨hu, hsizes⟩

theorem Datatype.Alike.member (mem : Mem Byte) (name : String) : ∀ {t t' : Datatype} (data : Nat),
    t.Alike t' → SameAccess (t.member name data mem) (t'.member name data mem)
  | .scalar _, _, _, ⟨h, _⟩ => by
    obtain ⟨_, rfl, _⟩ := same_scalar.mp h
    trivial
  | .array _ _ _ _ _, _, _, ⟨h, _⟩ => by
    obtain ⟨_, _, rfl, _⟩ := same_array.mp h
    trivial
  | .record ms _ _, _, data, ⟨h, _⟩ => by
    obtain ⟨ms', _, rfl, hms⟩ := same_record.mp h
    have hfind := same_find? name hms
    simp only [Datatype.member]
    cases hm : ms.find? name <;> cases hm' : ms'.find? name <;> rw [hm, hm'] at hfind
    · trivial
    · exact hfind.elim
    · exact hfind.elim
    · exact ⟨by rw [hfind.1], hfind.2⟩
  | .tuple _ _ _, _, _, ⟨h, _⟩ => by
    obtain ⟨_, _, rfl, _⟩ := same_tuple.mp h
    trivial
  | .pointer _ _ _ _, _, data, ⟨h, hsizes⟩ => by
    obtain ⟨_, _, _, _, rfl, hu⟩ := same_pointer.mp h
    rw [Datatype.member, Datatype.member]
    exact Datatype.Alike.member mem name (readPointer mem data) ⟨hu, hsizes⟩

theorem Datatype.Alike.interchangeable {t t' : Datatype} (h : t.Alike t') :
    Interchangeable t t' where
  buffersize := h.layout.1
  datasize := h.layout.2.1
  alignment := h.layout.2.2.1
  dense := h.layout.2.2.2
  index i data mem := h.index mem i data
  member name data mem := h.member mem name data

mutual
theorem Datatype.Alike.nodes : ∀ {t t' : Datatype}, t.Alike t' →
    List.Forall₂ Datatype.Alike t.nodes t'.nodes
  | .scalar _, _, h => by
    obtain ⟨_, rfl, _⟩ := same_scalar.mp h.1
    exact .cons h .nil
  | .array _ _ _ _ _, _, h => by
    obtain ⟨_, _, rfl, hu⟩ := same_array.mp h.1
    exact .cons h (Datatype.Alike.nodes ⟨hu, h.2⟩)
  | .record _ _ _, _, h => by
    obtain ⟨_, _, rfl, hms⟩ := same_record.mp h.1
    exact .cons h (Members.Alike.nodes ⟨hms, h.2⟩)
  | .tuple _ _ _, _, h => by
    obtain ⟨_, _, rfl, hms⟩ := same_tuple.mp h.1
    exact .cons h (Members.Alike.nodes ⟨hms, h.2⟩)
  | .pointer _ _ _ _, _, h => by
    obtain ⟨_, _, _, _, rfl, hu⟩ := same_pointer.mp h.1
    exact .cons h (Datatype.Alike.nodes ⟨hu, h.2⟩)

theorem Members.Alike.nodes : ∀ {ms ms' : Members} {named : Bool}, ms.Alike named ms' →
    List.Forall₂ Datatype.Alike ms.nodes ms'.nodes
  | .nil, _, _, h => by
    obtain rfl := same_nil.mp h.1
    exact .nil
  | .cons _ _ _ _, _, _, h => by
    obtain ⟨_, _, _, rfl, _, htype, hrest⟩ := h.cons
    exact List.rel_append (Datatype.Alike.nodes htype) (Members.Alike.nodes hrest)
end

/-- Equal types that can be interchanged node by node have equal dense sizes. -/
theorem denseSizes_eq {t t' : Datatype} (h : t.same t' = true)
    (hnodes : List.Forall₂ Interchangeable t.nodes t'.nodes) :
    denseSizes t.scalars = denseSizes t'.scalars := by
  have hscalars : List.Forall₂ (fun s s' : Scalar => s.denseSize = s'.denseSize)
      t.scalars t'.scalars :=
    forall₂_scalars (Datatype.same_nodes h) fun s s' hs =>
      (List.forall₂_iff_zip.mp hnodes).2 hs |>.buffersize
  rw [← List.forall₂_eq_eq_eq, denseSizes, denseSizes, List.forall₂_map_left_iff,
    List.forall₂_map_right_iff]
  exact hscalars

/-- Equality of types is an equivalence. Two equal types, with all the types they are
built from, can be interchanged exactly when their scalars have equal dense sizes. -/
theorem same_congruence_iff (t t' t'' : Datatype) :
    t.same t = true ∧
    (t.same t' = true → t'.same t = true) ∧
    (t.same t' = true → t'.same t'' = true → t.same t'' = true) ∧
    (t.same t' = true →
      (List.Forall₂ Interchangeable t.nodes t'.nodes ↔
        t.scalars.map Scalar.denseSize = t'.scalars.map Scalar.denseSize)) := by
  refine ⟨t.same_refl, Datatype.same_symm, Datatype.same_trans,
    fun h => ⟨denseSizes_eq h, fun hsizes => ?_⟩⟩
  have halike : t.Alike t' := ⟨h, hsizes⟩
  exact halike.nodes.imp fun _ _ => Datatype.Alike.interchangeable

/-- Numbers of eight bytes that are stored in eight bytes and in four are equal, but
elements of arrays of them are eight and four bytes apart. -/
theorem same_not_interchangeable :
    let stored (n : Nat) : Datatype := .scalar ⟨.signed, 8, n, 4, none, none, [], .inr (by decide)⟩
    (stored 8).same (stored 4) = true ∧
      (stored 8).buffersize = 8 ∧ (stored 4).buffersize = 4 ∧
      (stored 8).dense = true ∧ (stored 4).dense = false ∧
      (Datatype.array (stored 8) 2 0 2 []).same (.array (stored 4) 2 0 2 []) = true ∧
      (Datatype.array (stored 8) 2 0 2 []).index 1 100 (fun _ => 0) = .ok (108, stored 8) ∧
      (Datatype.array (stored 4) 2 0 2 []).index 1 100 (fun _ => 0) = .ok (104, stored 4) := by
  refine ⟨rfl, rfl, rfl, rfl, rfl, rfl, rfl, rfl⟩

end Pdi.Datatypes
