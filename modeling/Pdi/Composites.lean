import Pdi.CompositeCopy
import Pdi.TypedEvaluation

/-!
# Composite literals member by member

A sequence becomes an array if `operator==` takes the types of its elements for equal, and
a tuple otherwise; a mapping becomes a record. The types are those that the elements
evaluate to, for a mapping only where the value may also be written. The elements are then
evaluated again, into the block, where references to parts of data can only be numbers.
-/
namespace Pdi.Expression

open Pdi.Align Pdi.Datatypes Pdi.Memory Pdi.Trace

variable {P : Platform} {t : Datatype} {data : List Byte} {ctx : DataContext} {ws : List Value}
  {e : Form P} {w : Value}

mutual
/-- The elements at every depth evaluate to values that can be read. -/
def Form.Evaluates (ctx : DataContext) : Form P → Prop
  | .sequence elements => elements.Evaluate ctx
  | .mapping entries => entries.Evaluate ctx
  | _ => True

def Forms.Evaluate (ctx : DataContext) : Forms P → Prop
  | .nil => True
  | .cons e rest => (∃ w, (e.impl ctx).toRef = .ok w ∧ w.readable = true) ∧ e.Evaluates ctx ∧
    rest.Evaluate ctx

def Entries.Evaluate (ctx : DataContext) : Entries P → Prop
  | .nil => True
  | .cons _ e rest => (∃ w, (e.impl ctx).toRef = .ok w ∧ w.readable = true) ∧ e.Evaluates ctx ∧
    rest.Evaluate ctx
end

/-- What the elements evaluate to. -/
def HaveValues (es : List (Impl P)) (ws : List Value) : Prop :=
  List.Forall₂ (fun e w => e.toRef = .ok w) es ws

mutual
/-- Each composite, at every depth, evaluates to one that holds what its elements evaluate
to, each at its index or under its name. -/
def Form.ByMembers (ctx : DataContext) : Form P → Prop
  | .sequence elements =>
    (∃ v ws, ((Form.sequence elements).impl ctx).toRef = .ok v ∧
      HaveValues (elements.impls ctx) ws ∧ v.HoldsAll P ws) ∧ elements.ByMembers ctx
  | .mapping entries =>
    (∃ v ws, ((Form.mapping entries).impl ctx).toRef = .ok v ∧
      HaveValues ((entries.impls ctx).map Prod.snd) ws ∧ v.HoldsNamed P entries.names ws) ∧
    entries.ByMembers ctx
  | _ => True

def Forms.ByMembers (ctx : DataContext) : Forms P → Prop
  | .nil => True
  | .cons e rest => e.ByMembers ctx ∧ rest.ByMembers ctx

def Entries.ByMembers (ctx : DataContext) : Entries P → Prop
  | .nil => True
  | .cons _ e rest => e.ByMembers ctx ∧ rest.ByMembers ctx
end

/-- A reference to a part of some data. -/
def Form.Selects : Form P → Prop
  | .reference _ _ (.index _ _) => True
  | .reference _ _ (.member _ _) => True
  | _ => False

/-- The value has a type with an alignment, and is a number if it is a part of some data. -/
def Form.Copies (e : Form P) (w : Value) : Prop :=
  w.type.alignment ≠ 0 ∧ (e.Selects → (bufferTarget w.type).isSome)

def Forms.Copy (ctx : DataContext) : Forms P → Prop
  | .nil => True
  | .cons e rest => (∀ w, (e.impl ctx).toRef = .ok w → e.Copies w) ∧ rest.Copy ctx

/-- In a mapping the values are also writable. -/
def Entries.Copy (ctx : DataContext) : Entries P → Prop
  | .nil => True
  | .cons _ e rest =>
    (∀ w, (e.impl ctx).toRef = .ok w → w.writable = true ∧ e.Copies w) ∧ rest.Copy ctx

/-- If `operator==` takes the types of all elements for equal, then their scalars have equal
dense sizes. -/
def Forms.Uniform (ctx : DataContext) (es : Forms P) : Prop :=
  ∀ first rest, elementTypes (es.impls ctx) = .ok (first :: rest) →
    (∀ t ∈ rest, first.same t = true) → ∀ t ∈ rest, denseSizes first.scalars = denseSizes t.scalars

mutual
def Form.Composable (ctx : DataContext) : Form P → Prop
  | .sequence elements =>
    (elements ≠ .nil ∧ elements.Uniform ctx ∧ elements.Copy ctx) ∧ elements.Composable ctx
  | .mapping entries => entries.Copy ctx ∧ entries.Composable ctx
  | _ => True

def Forms.Composable (ctx : DataContext) : Forms P → Prop
  | .nil => True
  | .cons e rest => e.Composable ctx ∧ rest.Composable ctx

def Entries.Composable (ctx : DataContext) : Entries P → Prop
  | .nil => True
  | .cons _ e rest => e.Composable ctx ∧ rest.Composable ctx
end

/-! ## Single values -/

section Single

theorem settles_put {copy : Copy Nat} {content : List Byte}
    (hcopy : copy = ⟨[⟨0, data⟩], .ok t.buffersize⟩) (hlength : data.length = t.buffersize)
    (hsame : SameValue P t data content) : Settles P copy t content := by
  subst hcopy
  refine ⟨?_, rfl, ?_⟩
  · intro w hw
    rw [List.mem_singleton.mp hw]
    exact .inr (by rw [Nat.zero_add, hlength])
  · intro mem
    have hbytes := bytes_into_all data mem
    rw [hlength] at hbytes
    change SameValue P t (bytes ((⟨0, data⟩ : Write).into mem) 0 t.buffersize) content
    rw [hbytes]
    exact hsame

/-- What is evaluated into a block of its own. -/
theorem settles_allocate {copyValue : Datatype → Copy Nat} (hw : allocate ctx copyValue t = .ok w)
    (hcopy : copyValue t = ⟨[⟨0, data⟩], .ok t.buffersize⟩) (hlength : data.length = t.buffersize) :
    Settles P (copyValue w.type) w.type w.content := by
  obtain ⟨-, -, -, rfl⟩ := allocate_eq_ok.mp hw
  refine settles_put hcopy hlength ?_
  have hbytes := bytes_into_all data ctx.fresh
  rw [hlength] at hbytes
  rw [hcopy]
  change SameValue P t data (bytes ((⟨0, data⟩ : Write).into ctx.fresh) 0 t.buffersize)
  rw [hbytes]
  exact sameValue_refl t data

theorem settles_intLiteral {value : Int}
    (hw : ((Form.intLiteral value : Form P).impl ctx).toRef = .ok w) :
    Settles P (intLiteralCopy P value w.type) w.type w.content := by
  have hallocate : allocate ctx (intLiteralCopy P value) (NumberType.integer .int64).datatype =
    .ok w := hw
  have hcopy : intLiteralCopy P value (NumberType.integer .int64).datatype =
    store (P := P) (.integer .int64) (.ok (.integer .int64 value)) := rfl
  exact settles_allocate hallocate (hcopy.trans (store_ok rfl)) (length_littleEndian _ _)

theorem settles_floatLiteral {value : P.Value .double}
    (hw : ((Form.floatLiteral value : Form P).impl ctx).toRef = .ok w) :
    Settles P (floatLiteralCopy value w.type) w.type w.content := by
  have hallocate : allocate ctx (floatLiteralCopy value) (NumberType.floating .double).datatype =
    .ok w := hw
  have hcopy : floatLiteralCopy value (NumberType.floating .double).datatype =
    store (P := P) (.floating .double) (.ok (.floating .double value)) := rfl
  exact settles_allocate hallocate (hcopy.trans (store_ok rfl)) (P.length_toBytes _ _)

theorem settles_stringLiteral {start : Cursor.Text} {values : Values P}
    (hw : ((Form.stringLiteral start values).impl ctx).toRef = .ok w) :
    Settles P (stringLiteralCopy (stringText (values.impls ctx) start) w.type)
      w.type w.content := by
  obtain ⟨text, htext, hallocate⟩ := bind_eq_ok.mp hw
  rw [htext] at hallocate ⊢
  have hbuffer : (charsType (text.length + 1)).buffersize = (text.map byteOf ++ [0]).length := by
    simp [charsType, NumberType.datatype, Scalar.make, Datatype.buffersize, NumberType.size,
      IntegerType.size]
  exact settles_allocate hallocate rfl hbuffer.symm

/-- All of the data. -/
theorem settles_wholeCopy (w : Value) : Settles P (wholeCopy w w.type) w.type w.content := by
  refine settles_put ?_ w.length_content (sameValue_refl _ _)
  unfold wholeCopy
  rw [if_pos rfl]
  rfl

section

variable (hbytes : ∀ type x, P.ofBytes type (P.toBytes type x) = x)

include hbytes

/-- A number is read back from its bytes, which may be others than those it was read from. -/
theorem convert_read (content : List Byte) (c : NumberType) :
    ∃ m : Number P.toFloatingPoint, (Number.read content c).convert c = .ok m ∧
      (Number.read m.bytes c : Number P.toFloatingPoint) = .read content c := by
  cases c with
  | integer t =>
    have hholds := holds_wrap t (fromLittleEndian content)
    refine ⟨.integer t (t.wrap (fromLittleEndian content)), ?_, ?_⟩
    · exact congrArg (fun n => Except.ok (Number.integer t n)) (wrap_of_holds hholds)
    · exact congrArg (Number.integer t) (wrap_littleEndian hholds)
  | floating f =>
    refine ⟨.floating f (P.ofBytes f content), by cases f <;> rfl, ?_⟩
    exact congrArg (Number.floating f) (hbytes f _)

/-- A number that is stored as its own type. -/
theorem settles_store {s : Scalar} {c : NumberType} {copy : Copy Nat} (htype : w.type = .scalar s)
    (hc : numberType s.kind s.denseSize = some c)
    (hcopy : copy = store c (.ok (.read w.content c : Number P.toFloatingPoint))) :
    Settles P copy w.type w.content := by
  obtain ⟨m, hm, hread⟩ := convert_read hbytes w.content c
  rw [store_ok hm] at hcopy
  have hsize : (Datatype.scalar s).buffersize = c.size := by
    rw [numberType_size hc]
    simp only [Datatype.buffersize]
  rw [htype]
  rw [← hsize] at hcopy
  refine settles_put hcopy ?_ ?_
  · rw [length_bytes_convert hm, hsize]
  · unfold SameValue
    rw [hc]
    exact hread

theorem settles_indexedCopy
    (htarget : (bufferTarget w.type).isSome) :
    Settles P (indexedCopy P w w.type) w.type w.content := by
  obtain ⟨c, hc⟩ := Option.isSome_iff_exists.mp htarget
  have hstores := stores_indexed (P := P) w w.type
  rw [hc] at hstores
  cases htype : w.type with
  | scalar =>
    rw [htype] at hc hstores
    rw [scalar_eq_read htype hc] at hstores
    rw [← htype] at hstores ⊢
    exact settles_store hbytes htype hc hstores
  | _ =>
    rw [htype] at hc
    cases hc

end

theorem numberType_datatype (c : NumberType) : numberType c.kind c.size = some c := by
  cases c with
  | integer t | floating t => cases t <;> rfl

theorem settles_operation (hbytes : ∀ type x, P.ofBytes type (P.toBytes type x) = x)
    {first : Form P} {operands : FormOperands P} (hoperands : operands ≠ .nil)
    (hw : ((Form.operation first operands).impl ctx).toRef = .ok w) :
    Settles P (((Form.operation first operands).impl ctx).copyValue w.type) w.type w.content := by
  obtain ⟨computed, -, hall⟩ := bind_eq_ok.mp hw
  have hne : operands.impls ctx ≠ [] := by
    cases operands with
    | nil => exact absurd rfl hoperands
    | cons => exact List.cons_ne_nil _ _
  obtain ⟨n, rfl⟩ := applyAll_number hne hall
  have htype : (Value.ofNumber n).type =
    .scalar (Scalar.make n.type.kind n.type.size n.type.size n.type.ispow2_size) := rfl
  have hc := numberType_datatype n.type
  refine settles_store hbytes htype hc ?_
  have hcopy : ((Form.operation first operands).impl ctx).copyValue (Value.ofNumber n).type =
      computedCopy P (Value.ofNumber n) (Value.ofNumber n).type := by
    change operationCopy P (operationRef (first.impl ctx) (operands.impls ctx)) _ = _
    rw [show operationRef (first.impl ctx) (operands.impls ctx) = .ok (Value.ofNumber n) from hw]
    rfl
  have hstores := stores_computed (P := P) (Value.ofNumber n) (Value.ofNumber n).type
  rw [show dataTarget (Value.ofNumber n).type = some n.type from hc,
    scalar_eq_read htype hc, ← hcopy] at hstores
  exact hstores

end Single

/-! ## Elements that are copied as what they are -/

theorem Forms.block {es : Forms P} (hne : es ≠ .nil) (huniform : es.Uniform ctx)
    (h : List.Forall₂ (Element P) (es.impls ctx) ws) :
    ∃ v, ((Form.sequence es).impl ctx).toRef = .ok v ∧ v.HoldsAll P ws ∧
      Settles P (sequenceCopy (es.impls ctx) v.type) v.type v.content := by
  have hnonempty : es.impls ctx ≠ [] := by
    cases es with
    | nil => exact absurd rfl hne
    | cons => exact List.cons_ne_nil _ _
  have htypes := elementTypes_eq (h.imp fun _ _ he => he.ref)
  obtain ⟨v, hv, -, hholds, hsettles⟩ := sequence_block ctx h hnonempty fun first rest hws =>
    huniform first rest (htypes.trans (congrArg Except.ok hws))
  exact ⟨v, hv, hholds, hsettles⟩

theorem Entries.block {es : Entries P} (hnodup : es.names.Nodup)
    (h : List.Forall₂ (Element P) ((es.impls ctx).map Prod.snd) ws)
    (hrights : ∀ w ∈ ws, w.readable = true ∧ w.writable = true) :
    ∃ v, ((Form.mapping es).impl ctx).toRef = .ok v ∧ v.HoldsNamed P es.names ws ∧
      Settles P (mappingCopy (es.impls ctx) v.type) v.type v.content := by
  rw [← names_impls ctx] at hnodup ⊢
  obtain ⟨v, hv, -, hholds, hsettles⟩ := mapping_block ctx h hrights hnodup
  exact ⟨v, hv, hholds, hsettles⟩

mutual
theorem Form.settles (hbytes : ∀ type x, P.ofBytes type (P.toBytes type x) = x)
    (ctx : DataContext) : ∀ e : Form P, e.Built → e.Evaluates ctx → e.Composable ctx → ∀ w,
    (e.impl ctx).toRef = .ok w → w.readable = true → (e.Selects → (bufferTarget w.type).isSome) →
    Settles P ((e.impl ctx).copyValue w.type) w.type w.content
  | .intLiteral _, _, _, _, _, hw, _, _ => settles_intLiteral hw
  | .floatLiteral _, _, _, _, _, hw, _, _ => settles_floatLiteral hw
  | .stringLiteral _ _, _, _, _, _, hw, _, _ => settles_stringLiteral hw
  | .reference referenced format .nil, _, _, _, w, hw, hread, _ => by
    rw [copyValue_reference hw hread]
    exact settles_wholeCopy w
  | .reference referenced format (.index e rest), _, _, _, w, hw, hread, hselects
  | .reference referenced format (.member e rest), _, _, _, w, hw, hread, hselects => by
    rw [copyValue_reference hw hread]
    exact settles_indexedCopy hbytes (hselects trivial)
  | .operation first operands, hbuilt, _, _, w, hw, _, _ => by
    refine settles_operation hbytes ?_ hw
    rintro rfl
    exact hbuilt
  | .sequence elements, hbuilt, hevaluates, hcomposable, w, hw, _, _ => by
    obtain ⟨⟨hne, huniform, hcopy⟩, hnested⟩ := hcomposable
    obtain ⟨ws, hws⟩ := elements.elements hbytes ctx hbuilt hevaluates hcopy hnested
    obtain ⟨v, hv, -, hsettles⟩ := Forms.block hne huniform hws
    obtain rfl := Except.ok.inj (hv.symm.trans hw)
    exact hsettles
  | .mapping entries, hbuilt, hevaluates, hcomposable, w, hw, _, _ => by
    obtain ⟨ws, hws, hrights⟩ :=
      entries.elements hbytes ctx hbuilt.2 hevaluates hcomposable.1 hcomposable.2
    obtain ⟨v, hv, -, hsettles⟩ := Entries.block hbuilt.1 hws hrights
    obtain rfl := Except.ok.inj (hv.symm.trans hw)
    exact hsettles

theorem Forms.elements (hbytes : ∀ type x, P.ofBytes type (P.toBytes type x) = x)
    (ctx : DataContext) : ∀ es : Forms P, es.Built → es.Evaluate ctx → es.Copy ctx →
    es.Composable ctx → ∃ ws, List.Forall₂ (Element P) (es.impls ctx) ws
  | .nil, _, _, _, _ => ⟨[], .nil⟩
  | .cons e rest, hbuilt, ⟨⟨w, hw, hread⟩, hevaluates, hrest⟩, hcopy, hcomposable => by
    obtain ⟨ws, hws⟩ := rest.elements hbytes ctx hbuilt.2 hrest hcopy.2 hcomposable.2
    obtain ⟨halign, hselects⟩ := hcopy.1 w hw
    have hsettles := e.settles hbytes ctx hbuilt.1 hevaluates hcomposable.1 w hw hread hselects
    exact ⟨w :: ws, .cons ⟨hw, halign, hsettles, fun t ht => e.copyValue_alike ctx ht⟩ hws⟩

theorem Entries.elements (hbytes : ∀ type x, P.ofBytes type (P.toBytes type x) = x)
    (ctx : DataContext) : ∀ es : Entries P, es.Built → es.Evaluate ctx → es.Copy ctx →
    es.Composable ctx → ∃ ws, List.Forall₂ (Element P) ((es.impls ctx).map Prod.snd) ws ∧
      ∀ w ∈ ws, w.readable = true ∧ w.writable = true
  | .nil, _, _, _, _ => ⟨[], .nil, List.forall_mem_nil _⟩
  | .cons _ e rest, hbuilt, ⟨⟨w, hw, hread⟩, hevaluates, hrest⟩, hcopy, hcomposable => by
    obtain ⟨ws, hws, hrights⟩ := rest.elements hbytes ctx hbuilt.2 hrest hcopy.2 hcomposable.2
    obtain ⟨hwrite, halign, hselects⟩ := hcopy.1 w hw
    have hsettles := e.settles hbytes ctx hbuilt.1 hevaluates hcomposable.1 w hw hread hselects
    exact ⟨w :: ws, .cons ⟨hw, halign, hsettles, fun t ht => e.copyValue_alike ctx ht⟩ hws,
      List.forall_mem_cons.mpr ⟨⟨hread, hwrite⟩, hrights⟩⟩
end

/-! ## What an evaluation that returns asks of the elements -/

section Necessary

theorem Form.Selects.target (hselects : e.Selects) (h : e.Accepts ctx t) :
    (bufferTarget t).isSome := by
  cases e with
  | reference referenced format subelements =>
    obtain ⟨ref, -, -, h⟩ := h
    cases subelements with
    | nil => exact hselects.elim
    | index | member =>
      obtain ⟨c, hc, -⟩ := h
      exact Option.isSome_iff_exists.mpr ⟨c, hc⟩
  | _ => exact hselects.elim

theorem bufferTarget_alike {t' : Datatype} (h : t.Alike t') (ht : (bufferTarget t).isSome) :
    (bufferTarget t').isSome := by
  cases t with
  | scalar =>
    obtain ⟨s', rfl, hkind, -, hdense⟩ := alike_scalar h
    change (numberType s'.kind s'.denseSize).isSome = true
    rw [← hkind, ← hdense]
    exact ht
  | _ => cases ht

theorem Form.copies_of_accepts (h : e.Accepts ctx t) (ht : t.Alike w.type)
    (halign : w.type.alignment ≠ 0) : e.Copies w :=
  ⟨halign, fun hselects => bufferTarget_alike ht (hselects.target h)⟩

theorem Forms.copy_of_array (halign : t.alignment ≠ 0) : ∀ {es : Forms P}
    {ws : List Value}, HaveValues (es.impls ctx) ws → es.AcceptArray ctx t →
    (∀ w ∈ ws, t.Alike w.type) → es.Copy ctx
  | .nil, _, _, _, _ => trivial
  | .cons e rest, _, .cons hw hws, haccept, hlike => by
    rw [List.forall_mem_cons] at hlike
    refine ⟨?_, Forms.copy_of_array halign hws haccept.2 hlike.2⟩
    intro w' hw'
    obtain rfl := Except.ok.inj (hw.symm.trans hw')
    exact Form.copies_of_accepts haccept.1 hlike.1 (hlike.1.layout.2.2.1 ▸ halign)

theorem Forms.copy_of_tuple : ∀ {es : Forms P} {ws : List Value} {start : Nat},
    HaveValues (es.impls ctx) ws →
    es.AcceptTuple ctx (layOut (ws.map fun w => ("", w.type)) start) →
    (∀ w ∈ ws, w.type.alignment ≠ 0) → es.Copy ctx
  | .nil, _, _, _, _, _ => trivial
  | .cons e rest, _, _, .cons hw hws, haccept, halign => by
    rw [List.forall_mem_cons] at halign
    refine ⟨?_, Forms.copy_of_tuple hws haccept.2 halign.2⟩
    intro w' hw'
    obtain rfl := Except.ok.inj (hw.symm.trans hw')
    exact Form.copies_of_accepts haccept.1 (alike_refl _) halign.1

/-- The elements of an array of one type can all stand for it. -/
theorem alike_of_holdsAll {v : Value} {size start subsize : Nat} {attributes : Attributes}
    (htype : v.type = .array t size start subsize attributes) (h : v.HoldsAll P ws) :
    ∀ w ∈ ws, t.Alike w.type := by
  intro w hw
  obtain ⟨j, hj⟩ := List.mem_iff_getElem?.mp hw
  obtain ⟨d, t', hindex, hlike, -⟩ := h.2 j w hj
  rw [htype] at hindex
  unfold Datatype.index at hindex
  split at hindex
  · cases hindex
    exact hlike
  · cases hindex

theorem sequence_necessary {es : Forms P} {v : Value}
    (hv : ((Form.sequence es).impl ctx).toRef = .ok v) (hws : HaveValues (es.impls ctx) ws)
    (hholds : v.HoldsAll P ws) : es ≠ .nil ∧ es.Uniform ctx ∧ es.Copy ctx := by
  cases es with
  | nil =>
    obtain rfl : Value.null = v := Except.ok.inj hv
    exact hholds.1.elim
  | cons e rest =>
    have htypes := elementTypes_eq hws
    obtain ⟨types, hsome, hv⟩ := bind_eq_ok.mp hv
    obtain rfl := Except.ok.inj (htypes.symm.trans hsome)
    obtain ⟨t, ht, hallocate⟩ := bind_eq_ok.mp hv
    obtain ⟨halign, -, ⟨n, hn⟩, -⟩ := allocate_eq_ok.mp hallocate
    have haccepts := ((Form.result_copyValue ctx (.sequence (.cons e rest)) t n).mp hn).1
    refine ⟨fun h => (by cases h), ?_⟩
    cases ws with
    | nil => cases hws
    | cons w ws =>
      rcases sequenceType_eq_ok.mp ht with ⟨hsame, rfl⟩ | ⟨hdiffer, haligns, rfl⟩
      · -- in an array every element has to be of a type for which the first one can stand
        have hlike := alike_of_holdsAll (allocate_type hallocate) hholds
        have helement : w.type.alignment ≠ 0 := halign
        refine ⟨?_, Forms.copy_of_array helement hws haccepts.1 hlike⟩
        intro first others helements hsames u hu
        obtain ⟨rfl, rfl⟩ := List.cons.inj (Except.ok.inj (htypes.symm.trans helements))
        obtain ⟨w', hw', rfl⟩ := List.mem_map.mp hu
        exact (hlike w' (List.mem_cons_of_mem w hw')).2
      · -- a tuple has each element's own type
        refine ⟨?_, ?_⟩
        · intro first others helements hsames
          obtain ⟨rfl, rfl⟩ := List.cons.inj (Except.ok.inj (htypes.symm.trans helements))
          exact absurd hsames hdiffer
        · have hmap : ((w :: ws).map Value.type).map (fun u => ("", u)) =
            (w :: ws).map fun w => ("", w.type) := List.map_map
          have haccept : (Forms.cons e rest).AcceptTuple ctx
              (layOut ((w :: ws).map fun w => ("", w.type)) 0) := by
            rw [← hmap]
            exact haccepts
          exact Forms.copy_of_tuple hws haccept fun w' hw' =>
            haligns _ (List.mem_map_of_mem (f := Value.type) hw')

theorem asReadWrite_eq (h : w.asReadWrite.type.alignment ≠ 0) :
    w.asReadWrite = w ∧ w.writable = true := by
  unfold Value.asReadWrite at h ⊢
  split at h
  · rename_i hrights
    rw [Bool.and_eq_true] at hrights
    exact ⟨if_pos (by rw [hrights.1, hrights.2]; rfl), hrights.2⟩
  · exact absurd rfl h

/-- The values of a mapping that has a type may be read and written. -/
theorem memberTypes_rights : ∀ {entries : List (String × Impl P)} {ws : List Value}
    {types : List (String × Datatype)}, HaveValues (entries.map Prod.snd) ws →
    memberTypes entries = .ok types → ∀ w ∈ ws, w.writable = true ∧ w.type.alignment ≠ 0
  | [], _, _, .nil, _ => List.forall_mem_nil _
  | (name, e) :: rest, _, _, .cons hw hws, h => by
    obtain ⟨w, hw', h⟩ := bind_eq_ok.mp h
    obtain rfl := Except.ok.inj (hw.symm.trans hw')
    dsimp only at h
    split at h
    · cases h
    · rename_i halign
      obtain ⟨types, htypes, -⟩ := bind_eq_ok.mp h
      obtain ⟨hsame, hwrite⟩ := asReadWrite_eq halign
      rw [hsame] at halign
      exact List.forall_mem_cons.mpr ⟨⟨hwrite, halign⟩, memberTypes_rights hws htypes⟩

/-- The record has a member for each name that can stand for the value. -/
theorem Entries.copy_of_record {members : Members} : ∀ {es : Entries P} {ws : List Value},
    HaveValues ((es.impls ctx).map Prod.snd) ws → es.AcceptRecord ctx members →
    (∀ w ∈ ws, w.writable = true ∧ w.type.alignment ≠ 0) →
    (∀ (j : Nat) name w d t, es.names[j]? = some name → ws[j]? = some w →
      members.find? name = some (d, t) → t.Alike w.type) → es.Copy ctx
  | .nil, _, _, _, _, _ => trivial
  | .cons name e rest, _, .cons hw hws, ⟨⟨(d, t), hfind, haccepts⟩, hrest⟩, hrights, hlike => by
    rw [List.forall_mem_cons] at hrights
    refine ⟨?_, Entries.copy_of_record hws hrest hrights.2 ?_⟩
    · intro w' hw'
      obtain rfl := Except.ok.inj (hw.symm.trans hw')
      have ht : t.Alike _ := hlike 0 name _ d t rfl rfl hfind
      exact ⟨hrights.1.1, Form.copies_of_accepts haccepts ht hrights.1.2⟩
    · intro j name' w' d' t' hname hw' hfind'
      exact hlike (j + 1) name' w' d' t' hname hw' hfind'

theorem mapping_necessary {es : Entries P} {v : Value}
    (hv : ((Form.mapping es).impl ctx).toRef = .ok v)
    (hws : HaveValues ((es.impls ctx).map Prod.snd) ws)
    (hholds : v.HoldsNamed P es.names ws) : es.Copy ctx := by
  obtain ⟨types, htypes, hallocate⟩ := bind_eq_ok.mp hv
  obtain ⟨-, -, ⟨n, hn⟩, -⟩ := allocate_eq_ok.mp hallocate
  have haccepts := ((Form.result_copyValue ctx (.mapping es) (mappingType types) n).mp hn).1
  refine Entries.copy_of_record hws haccepts (memberTypes_rights hws htypes) ?_
  intro j name w d t hname hw hfind
  obtain ⟨d', t', hmember, hlike, -⟩ := hholds.2 j name w hname hw
  rw [allocate_type hallocate] at hmember
  unfold mappingType Datatype.member at hmember
  rw [hfind] at hmember
  cases hmember
  exact hlike

end Necessary

/-! ## Composites at every depth -/

mutual
theorem Form.byMembers_composable {ctx : DataContext} : ∀ e : Form P, e.ByMembers ctx →
    e.Composable ctx
  | .intLiteral _, _ | .floatLiteral _, _ | .stringLiteral _ _, _ | .reference _ _ _, _
  | .operation _ _, _ => trivial
  | .sequence elements, ⟨⟨_, _, hv, hws, hholds⟩, hnested⟩ =>
    ⟨sequence_necessary hv hws hholds, elements.byMembers_composable hnested⟩
  | .mapping entries, ⟨⟨_, _, hv, hws, hholds⟩, hnested⟩ =>
    ⟨mapping_necessary hv hws hholds, entries.byMembers_composable hnested⟩

theorem Forms.byMembers_composable {ctx : DataContext} : ∀ es : Forms P, es.ByMembers ctx →
    es.Composable ctx
  | .nil, _ => trivial
  | .cons e rest, h => ⟨e.byMembers_composable h.1, rest.byMembers_composable h.2⟩

theorem Entries.byMembers_composable {ctx : DataContext} : ∀ es : Entries P, es.ByMembers ctx →
    es.Composable ctx
  | .nil, _ => trivial
  | .cons _ e rest, h => ⟨e.byMembers_composable h.1, rest.byMembers_composable h.2⟩
end

mutual
theorem Form.composable_byMembers (hbytes : ∀ type x, P.ofBytes type (P.toBytes type x) = x)
    {ctx : DataContext} : ∀ e : Form P, e.Built → e.Evaluates ctx → e.Composable ctx →
    e.ByMembers ctx
  | .intLiteral _, _, _, _ | .floatLiteral _, _, _, _ | .stringLiteral _ _, _, _, _
  | .reference _ _ _, _, _, _ | .operation _ _, _, _, _ => trivial
  | .sequence elements, hbuilt, hevaluates, ⟨⟨hne, huniform, hcopy⟩, hnested⟩ => by
    obtain ⟨ws, hws⟩ := elements.elements hbytes ctx hbuilt hevaluates hcopy hnested
    obtain ⟨v, hv, hholds, -⟩ := Forms.block hne huniform hws
    exact ⟨⟨v, ws, hv, hws.imp fun _ _ he => he.ref, hholds⟩,
      elements.composable_byMembers hbytes hbuilt hevaluates hnested⟩
  | .mapping entries, hbuilt, hevaluates, ⟨hcopy, hnested⟩ => by
    obtain ⟨ws, hws, hrights⟩ := entries.elements hbytes ctx hbuilt.2 hevaluates hcopy hnested
    obtain ⟨v, hv, hholds, -⟩ := Entries.block hbuilt.1 hws hrights
    exact ⟨⟨v, ws, hv, hws.imp fun _ _ he => he.ref, hholds⟩,
      entries.composable_byMembers hbytes hbuilt.2 hevaluates hnested⟩

theorem Forms.composable_byMembers (hbytes : ∀ type x, P.ofBytes type (P.toBytes type x) = x)
    {ctx : DataContext} : ∀ es : Forms P, es.Built → es.Evaluate ctx → es.Composable ctx →
    es.ByMembers ctx
  | .nil, _, _, _ => trivial
  | .cons e rest, hbuilt, ⟨_, hevaluates, hrest⟩, hcomposable =>
    ⟨e.composable_byMembers hbytes hbuilt.1 hevaluates hcomposable.1,
      rest.composable_byMembers hbytes hbuilt.2 hrest hcomposable.2⟩

theorem Entries.composable_byMembers (hbytes : ∀ type x, P.ofBytes type (P.toBytes type x) = x)
    {ctx : DataContext} : ∀ es : Entries P, es.Built → es.Evaluate ctx → es.Composable ctx →
    es.ByMembers ctx
  | .nil, _, _, _ => trivial
  | .cons _ e rest, hbuilt, ⟨_, hevaluates, hrest⟩, hcomposable =>
    ⟨e.composable_byMembers hbytes hbuilt.1 hevaluates hcomposable.1,
      rest.composable_byMembers hbytes hbuilt.2 hrest hcomposable.2⟩
end

theorem byMembers_iff (hbytes : ∀ type x, P.ofBytes type (P.toBytes type x) = x)
    (ctx : DataContext) (e : Form P) (hbuilt : e.Built) (hevaluates : e.Evaluates ctx) :
    e.ByMembers ctx ↔ e.Composable ctx :=
  ⟨e.byMembers_composable, e.composable_byMembers hbytes hbuilt hevaluates⟩

/-- The literal `[1, {a: 2}]`. -/
theorem byMembers_nested :
    (Form.sequence (.cons (.intLiteral 1)
      (.cons (.mapping (.cons "a" (.intLiteral 2) .nil)) .nil)) :
      Form interchange).ByMembers nothingShared := by
  refine (byMembers_iff interchangeExact.ofBytes nothingShared _ ?_ ?_).mpr ?_
  · exact ⟨trivial, ⟨List.nodup_singleton _, trivial, trivial⟩, trivial⟩
  · exact ⟨⟨_, rfl, rfl⟩, trivial, ⟨_, rfl, rfl⟩, ⟨⟨_, rfl, rfl⟩, trivial, trivial⟩, trivial⟩
  · refine ⟨⟨fun h => (by cases h), ?_, ?_⟩, trivial, ⟨⟨?_, trivial⟩, trivial, trivial⟩, trivial⟩
    · intro first rest htypes hsame
      cases htypes
      have h := hsame _ (List.mem_singleton_self _)
      cases h
    · refine ⟨?_, ?_, trivial⟩ <;>
      · intro w hw
        cases hw
        exact ⟨by decide, False.elim⟩
    · intro w hw
      cases hw
      exact ⟨rfl, by decide, False.elim⟩

/-- The literal `{a: 1 + 1}`: the sum alone is a number, but without the right to write, so that
its type as a member is undefined. -/
theorem sum_in_mapping :
    let e : Form integersOnly := .operation (.intLiteral 1) (.cons .plus (.intLiteral 1) .nil)
    let literal : Form integersOnly := .mapping (.cons "a" e .nil)
    literal.Built ∧ literal.Evaluates nothingShared ∧
      (literal.impl nothingShared).toRef = .error zeroDivisor ∧
      ¬ literal.ByMembers nothingShared := by
  intro e literal
  have href : (literal.impl nothingShared).toRef = .error zeroDivisor := rfl
  refine ⟨⟨List.nodup_singleton _, trivial, trivial⟩, ⟨⟨_, rfl, rfl⟩, trivial, trivial⟩, href, ?_⟩
  rintro ⟨⟨v, ws, hv, -⟩, -⟩
  cases hv.symm.trans href

end Pdi.Expression
