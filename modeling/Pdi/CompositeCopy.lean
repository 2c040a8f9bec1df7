import Pdi.DenseLayout
import Pdi.SameValue

/-!
# Copies of composite literals

A sequence and a mapping are evaluated twice: for the types of their elements, and into a
block that is laid out for these types. If each element, copied as what it is, leaves its
value behind, then so does the composite, with each element in its own place.
-/
namespace Pdi.Expression

open Pdi.Align Pdi.Datatypes Pdi.Memory Pdi.Trace

variable {P : Platform} {t : Datatype} {stop d j total : Nat} {entries : List (String × Impl P)}
  {types : List (String × Datatype)}

/-- A copy fills the buffer of the type with the value of the content, whatever the buffer
held before. -/
structure Settles (P : Platform) (copy : Copy Nat) (t : Datatype) (content : List Byte) : Prop where
  inside : ∀ w ∈ copy.trace, w.Inside t.buffersize
  returns : copy.result = .ok t.buffersize
  leaves : ∀ mem, SameValue P t (bytes (written mem copy.trace) 0 t.buffersize) content

theorem Settles.alike {copy : Copy Nat} {t' : Datatype} {content : List Byte}
    (h : Settles P copy t content) (ht : t.Alike t') : Settles P copy t' content := by
  have hsize := ht.layout.1
  refine ⟨?_, ?_, ?_⟩
  · rw [← hsize]
    exact h.inside
  · rw [← hsize]
    exact h.returns
  · rw [← hsize]
    exact fun mem => sameValue_alike ht (h.leaves mem)

/-! ## Places -/

/-- The members follow each other from `start` on and end before `stop`. -/
def Spans : Members → (start stop : Nat) → Prop
  | .nil, start, stop => start ≤ stop
  | .cons d t _ rest, start, stop => start ≤ d ∧ Spans rest (d + t.buffersize) stop

theorem spans_layOut (types : List (String × Datatype)) (start : Nat) :
    Spans (layOut types start) start (layOutEnd types start) := by
  induction types generalizing start with
  | nil => exact le_rfl
  | cons t types ih => exact ⟨le_alignUp _ _, ih _⟩

theorem Spans.mono {stop' : Nat} (hstop : stop ≤ stop') : ∀ {ms : Members} {start : Nat},
    Spans ms start stop → Spans ms start stop'
  | .nil, _, h => Nat.le_trans h hstop
  | .cons _ _ _ _, _, h => ⟨h.1, h.2.mono hstop⟩

theorem Spans.le : ∀ {ms : Members} {start : Nat}, Spans ms start stop → start ≤ stop
  | .nil, _, h => h
  | .cons _ _ _ _, _, h => by
    have := h.1
    have := h.2.le
    omega

theorem Spans.get? : ∀ {ms : Members} {start j : Nat},
    Spans ms start stop → ms.get? j = some (d, t) → start ≤ d ∧ d + t.buffersize ≤ stop
  | .cons _ _ _ _, _, 0, h, hj => by
    cases hj
    exact ⟨h.1, h.2.le⟩
  | .cons _ _ _ _, _, j + 1, h, hj => by
    have hrest := h.2.get? hj
    have := h.1
    omega

/-- The elements of an array, as places. -/
def spread (t : Datatype) : (size offset : Nat) → Members
  | 0, _ => .nil
  | n + 1, offset => .cons offset t "" (spread t n (offset + t.buffersize))

theorem spans_spread (t : Datatype) (n offset : Nat) :
    Spans (spread t n offset) offset (offset + n * t.buffersize) := by
  induction n generalizing offset with
  | zero => exact Nat.le_add_right _ _
  | succ n ih =>
    refine ⟨le_rfl, ?_⟩
    rw [Nat.succ_mul, Nat.add_comm (n * _), ← Nat.add_assoc]
    exact ih _

theorem get?_spread (t : Datatype) {n offset : Nat} (hj : j < n) :
    (spread t n offset).get? j = some (offset + j * t.buffersize, t) := by
  induction n generalizing offset j with
  | zero => omega
  | succ n ih =>
    cases j with
    | zero => simp [spread, Members.get?]
    | succ j =>
      rw [spread, Members.get?, ih (by omega), Nat.succ_mul, Nat.add_comm (j * _), Nat.add_assoc]

/-- The writes of the elements, each in its place. -/
def slots : List (Impl P) → Members → List Slot
  | e :: rest, .cons d t _ ms => ⟨d, t.buffersize, (e.copyValue t).trace⟩ :: slots rest ms
  | _, _ => []

theorem mem_slots {p : Slot} : ∀ {es : List (Impl P)} {ms : Members} {start : Nat},
    Spans ms start stop → p ∈ slots es ms → start ≤ p.offset ∧ p.offset + p.size ≤ stop
  | e :: es, .cons _ _ _ _, _, h, hp => by
    rcases List.mem_cons.mp hp with rfl | hp
    · exact ⟨h.1, h.2.le⟩
    · have hrest := mem_slots h.2 hp
      have := h.1
      omega
  | [], .nil, _, _, hp | [], .cons _ _ _ _, _, _, hp | _ :: _, .nil, _, _, hp => by cases hp

theorem pairwise_slots : ∀ {es : List (Impl P)} {ms : Members} {start : Nat},
    Spans ms start stop → (slots es ms).Pairwise Slot.Apart
  | _ :: _, .cons _ _ _ _, _, h =>
    List.pairwise_cons.mpr ⟨fun _ hp => .inl (mem_slots h.2 hp).1, pairwise_slots h.2⟩
  | [], .nil, _, _ | [], .cons _ _ _ _, _, _ | _ :: _, .nil, _, _ => List.Pairwise.nil

/-- Each element is copied into its place as a type that can stand for its own. -/
inductive Fill (P : Platform) : List (Impl P) → List Value → Members → Prop
  | nil : Fill P [] [] .nil
  | cons {e : Impl P} {es : List (Impl P)} {w : Value} {ws : List Value} {d : Nat} {t : Datatype}
      {name : String} {ms : Members} (type : t.Alike w.type)
      (settles : Settles P (e.copyValue t) t w.content) (rest : Fill P es ws ms) :
      Fill P (e :: es) (w :: ws) (.cons d t name ms)

variable {es : List (Impl P)} {ws : List Value} {ms : Members}

theorem Fill.inside (h : Fill P es ws ms) : ∀ p ∈ slots es ms, p.Inside := by
  induction h with
  | nil => exact List.forall_mem_nil _
  | cons type settles _ ih => exact List.forall_mem_cons.mpr ⟨settles.inside, ih⟩

theorem Fill.slot (h : Fill P es ws ms) (hj : ms.get? j = some (d, t)) :
    ∃ w e, ws[j]? = some w ∧ t.Alike w.type ∧ Settles P ((e : Impl P).copyValue t) t w.content ∧
      ⟨d, t.buffersize, (e.copyValue t).trace⟩ ∈ slots es ms := by
  induction h generalizing j with
  | nil => cases hj
  | @cons e es w ws d' t' name ms type settles _ ih =>
    cases j with
    | zero =>
      cases hj
      exact ⟨w, e, rfl, type, settles, List.mem_cons_self⟩
    | succ =>
      obtain ⟨w, e, hw, htype, hsettles, hmem⟩ := ih hj
      exact ⟨w, e, hw, htype, hsettles, List.mem_cons_of_mem _ hmem⟩

/-- The content has the value of each element in its place, with a type that can stand for
the element's own. -/
def Placed (P : Platform) (ms : Members) (ws : List Value) (content : List Byte) : Prop :=
  ∀ j d t, ms.get? j = some (d, t) → ∃ w, ws[j]? = some w ∧ t.Alike w.type ∧
    d + t.buffersize ≤ content.length ∧ SameValue P t (part content d t.buffersize) w.content

/-- The writes of all elements leave each of them in its place. -/
theorem Fill.leaves (h : Fill P es ws ms) (hspans : Spans ms 0 total) (mem : Mem Byte) :
    Placed P ms ws (bytes (written mem (placed (slots es ms))) 0 total) := by
  intro j d t hj
  obtain ⟨w, e, hw, htype, hsettles, hmem⟩ := h.slot hj
  have hend := (hspans.get? hj).2
  obtain ⟨before, hbefore⟩ := bytes_placed h.inside (pairwise_slots hspans) hmem mem
  refine ⟨w, hw, htype, by rwa [length_bytes], ?_⟩
  unfold part
  rw [drop_take_bytes _ hend, Nat.zero_add, hbefore]
  exact hsettles.leaves before

theorem sameMembers_of_get? {a b : List Byte} : ∀ {ms : Members}, (∀ j d t,
    ms.get? j = some (d, t) → SameValue P t (part a d t.buffersize) (part b d t.buffersize)) →
    SameMembers P ms a b
  | .nil, _ => trivial
  | .cons d t _ _, h => ⟨h 0 d t rfl, sameMembers_of_get? fun j => h (j + 1)⟩

/-- Two contents with the same elements have the same value. -/
theorem Placed.same {a b : List Byte} (ha : Placed P ms ws a) (hb : Placed P ms ws b) :
    ∀ j d t, ms.get? j = some (d, t) →
      SameValue P t (part a d t.buffersize) (part b d t.buffersize) := by
  intro j d t hj
  obtain ⟨w, hw, -, -, hwa⟩ := ha j d t hj
  obtain ⟨w', hw', -, -, hwb⟩ := hb j d t hj
  obtain rfl := Option.some.inj (hw.symm.trans hw')
  exact sameValue_trans hwa (sameValue_symm hwb)

/-! ## The three loops -/

theorem Fill.tuple (h : Fill P es ws ms) : copyTuple es ms = ⟨placed (slots es ms), .ok ()⟩ := by
  induction h with
  | nil => rfl
  | @cons e es w ws d t name ms type settles _ ih =>
    unfold copyTuple
    rw [bind_of_ok (x := (e.copyValue t).relabel (Write.shift d)) settles.returns, ih]
    rfl

theorem Fill.array {t : Datatype} {offset : Nat} (h : Fill P es ws (spread t es.length offset)) :
    copyArray t es offset = ⟨placed (slots es (spread t es.length offset)),
      .ok (offset + es.length * t.buffersize)⟩ := by
  induction es generalizing offset ws with
  | nil =>
    rw [List.length_nil, Nat.zero_mul]
    rfl
  | cons e es ih =>
    cases h with
    | cons type settles rest =>
      unfold copyArray
      rw [bind_of_ok (x := (e.copyValue t).relabel (Write.shift offset)) settles.returns, ih rest,
        List.length_cons, Nat.succ_mul, Nat.add_comm (es.length * _), ← Nat.add_assoc]
      rfl

/-- The members that the names of the entries lead to are the places in their order. -/
theorem Fill.record {all : Members} (h : Fill P (entries.map Prod.snd) ws ms)
    (hfind : ∀ j name, (entries.map Prod.fst)[j]? = some name → all.find? name = ms.get? j) :
    copyRecord all entries = ⟨placed (slots (entries.map Prod.snd) ms), .ok ()⟩ := by
  induction entries generalizing ws ms with
  | nil => rfl
  | cons entry entries ih =>
    obtain ⟨name, e⟩ := entry
    cases h with
    | @cons _ _ _ _ d t _ _ type settles rest =>
      have hhead : all.find? name = some (d, t) := hfind 0 name rfl
      unfold copyRecord
      rw [hhead]
      dsimp only
      rw [bind_of_ok (x := (e.copyValue t).relabel (Write.shift d)) settles.returns,
        ih rest fun j => hfind (j + 1)]
      rfl

/-! ## Blocks for composites -/

/-- An evaluation to a value that can be read and that a copy leaves behind. -/
def Evaluates (P : Platform) (toRef : Except Failure Value) (copyValue : Datatype → Copy Nat)
    (holds : Value → Prop) : Prop :=
  ∃ v, toRef = .ok v ∧ v.readable = true ∧ holds v ∧ Settles P (copyValue v.type) v.type v.content

/-- A block of a type whose value is that of its places. -/
theorem Fill.block (h : Fill P es ws ms) (copyValue : Datatype → Copy Nat) (type : Datatype)
    (hspans : Spans ms 0 type.buffersize) (halign : type.alignment ≠ 0)
    (hcopy : copyValue type = ⟨placed (slots es ms), .ok type.buffersize⟩)
    (hvalue : ∀ a b, (∀ j d t, ms.get? j = some (d, t) →
      SameValue P t (part a d t.buffersize) (part b d t.buffersize)) → SameValue P type a b)
    {holds : Value → Prop} (hholds : ∀ v, v.type = type → Placed P ms ws v.content → holds v)
    (ctx : DataContext) : Evaluates P (allocate ctx copyValue type) copyValue holds := by
  have hinside : ∀ w ∈ (copyValue type).trace, w.Inside type.buffersize := by
    rw [hcopy]
    exact inside_placed h.inside fun p hp => (mem_slots hspans hp).2
  have hplaced : ∀ mem, Placed P ms ws
      (bytes (written mem (copyValue type).trace) 0 type.buffersize) := by
    rw [hcopy]
    exact h.leaves hspans
  refine ⟨_, allocate_eq_ok.mpr ⟨halign, hinside, ⟨type.buffersize, by rw [hcopy]⟩, rfl⟩, rfl,
    hholds _ rfl (hplaced ctx.fresh), hinside, by rw [hcopy], ?_⟩
  intro mem
  exact hvalue _ _ ((hplaced mem).same (hplaced ctx.fresh))

/-- An element with its own value, which it leaves behind when it is copied as what it is. -/
structure Element (P : Platform) (e : Impl P) (w : Value) : Prop where
  ref : e.toRef = .ok w
  alignment : w.type.alignment ≠ 0
  settles : Settles P (e.copyValue w.type) w.type w.content
  alike : ∀ t, t.Alike w.type → e.copyValue t = e.copyValue w.type

theorem Element.settlesAs {e : Impl P} {w : Value} (h : Element P e w) (ht : t.Alike w.type) :
    Settles P (e.copyValue t) t w.content := by
  rw [h.alike t ht]
  exact h.settles.alike (alike_symm ht)

theorem alike_refl (t : Datatype) : t.Alike t := ⟨t.same_refl, rfl⟩

theorem fill_layOut (h : List.Forall₂ (Element P) es ws)
    (htypes : types.map Prod.snd = ws.map Value.type) (start : Nat) :
    Fill P es ws (layOut types start) := by
  induction h generalizing types start with
  | nil =>
    rw [List.map_nil, List.map_eq_nil_iff] at htypes
    rw [htypes]
    exact .nil
  | @cons e w es ws he _ ih =>
    cases types with
    | nil => cases htypes
    | cons type =>
      obtain ⟨hhead, htail⟩ := List.cons.inj htypes
      have htype : type.2.Alike w.type := by
        rw [hhead]
        exact alike_refl _
      exact .cons htype (he.settlesAs htype) (ih htail _)

theorem fill_spread (h : List.Forall₂ (Element P) es ws) (ht : ∀ w ∈ ws, t.Alike w.type)
    (offset : Nat) : Fill P es ws (spread t es.length offset) := by
  induction h generalizing offset with
  | nil => exact .nil
  | cons he _ ih =>
    rw [List.forall_mem_cons] at ht
    exact .cons ht.1 (he.settlesAs ht.1) (ih ht.2 _)

theorem elementTypes_eq (h : List.Forall₂ (fun (e : Impl P) w => e.toRef = .ok w) es ws) :
    elementTypes es = .ok (ws.map Value.type) := by
  induction h with
  | nil => rfl
  | cons he _ ih =>
    unfold elementTypes
    rw [he, ih]
    rfl

/-- The value at a place of a composite is that of an element, with a type that can stand
for the element's own. -/
def Value.Holds (P : Platform) (v : Value) (place : Except Failure (Nat × Datatype)) (w : Value) :
    Prop :=
  ∃ d t, place = .ok (d, t) ∧ t.Alike w.type ∧ d + t.buffersize ≤ v.content.length ∧
    SameValue P t (part v.content d t.buffersize) w.content

/-- An array or a tuple of so many elements. -/
def IsSequence : Datatype → Nat → Prop
  | .array _ size start subsize _, n => size = n ∧ start = 0 ∧ subsize = n
  | .tuple elements _ _, n => elements.length = n
  | _, _ => False

/-- The values of the elements, each at its index. -/
def Value.HoldsAll (P : Platform) (v : Value) (ws : List Value) : Prop :=
  IsSequence v.type ws.length ∧
    ∀ j w, ws[j]? = some w → v.Holds P (v.type.index j 0 (fun _ => 0)) w

theorem Placed.holds {v w : Value} (h : Placed P ms ws v.content) (hj : ms.get? j = some (d, t))
    (hw : ws[j]? = some w) {place : Except Failure (Nat × Datatype)} (hplace : place = .ok (d, t)) :
    v.Holds P place w := by
  obtain ⟨w', hw', htype, hend, hvalue⟩ := h j d t hj
  obtain rfl := Option.some.inj (hw.symm.trans hw')
  exact ⟨d, t, hplace, htype, hend, hvalue⟩

/-- A sequence of elements with types that can stand for each other. -/
theorem array_block (ctx : DataContext) (h : List.Forall₂ (Element P) es ws)
    (ht : ∀ w ∈ ws, t.Alike w.type) (halign : t.alignment ≠ 0) :
    Evaluates P (allocate ctx (sequenceCopy es) (.array t es.length 0 es.length []))
      (sequenceCopy es) (·.HoldsAll P ws) := by
  have hfill := fill_spread h ht 0
  have hspans := spans_spread t es.length 0
  rw [Nat.zero_add] at hspans
  have hcopy : sequenceCopy es (.array t es.length 0 es.length []) =
      ⟨placed (slots es (spread t es.length 0)),
        .ok (Datatype.array t es.length 0 es.length []).buffersize⟩ := by
    have hloop := hfill.array
    rw [Nat.zero_add] at hloop
    have hresult : (copyArray t es 0).result = .ok (es.length * t.buffersize) := by rw [hloop]
    dsimp only [sequenceCopy]
    rw [bind_of_ok hresult, if_pos rfl, hloop]
    simp [pure, Datatype.buffersize]
  have hlength := h.length_eq
  refine hfill.block (sequenceCopy es) (.array t es.length 0 es.length [])
    (by simpa only [Datatype.buffersize] using hspans) halign hcopy ?_ ?_ ctx
  · intro a b hab i hi
    have hi' := hab i _ t (get?_spread t hi)
    rwa [Nat.zero_add] at hi'
  · intro v htype hplaced
    rw [Value.HoldsAll, htype]
    refine ⟨⟨hlength, rfl, hlength⟩, fun j w hw => ?_⟩
    have hj : j < es.length := by
      rw [hlength]
      exact (List.getElem?_eq_some_iff.mp hw).1
    exact hplaced.holds (get?_spread t hj) hw (by simp [Datatype.index, hj, Nat.mul_comm])

theorem length_layOut (types : List (String × Datatype)) (start : Nat) :
    (layOut types start).length = types.length := by
  induction types generalizing start with
  | nil => rfl
  | cons t types ih => exact congrArg (· + 1) (ih _)

theorem length_layOut_values (htypes : types.map Prod.snd = ws.map Value.type) (start : Nat) :
    (layOut types start).length = ws.length := by
  rw [length_layOut, ← List.length_map (f := Prod.snd), htypes, List.length_map]

theorem exists_get? : ∀ {ms : Members} {j : Nat}, j < ms.length → ∃ d t, ms.get? j = some (d, t)
  | .cons d t _ _, 0, _ => ⟨d, t, rfl⟩
  | .cons _ _ _ rest, j + 1, h => by
    have hrest : j < rest.length := by
      change j + 1 < rest.length + 1 at h
      omega
    obtain ⟨d, t, hj⟩ := exists_get? hrest
    exact ⟨d, t, hj⟩

/-- Every element has a member, and its value is there. -/
theorem Placed.at {v w : Value} (h : Placed P ms ws v.content) (hlength : ms.length = ws.length)
    (hw : ws[j]? = some w) :
    ∃ d t, ms.get? j = some (d, t) ∧ ∀ place, place = .ok (d, t) → v.Holds P place w := by
  have hlt : j < ms.length := by
    rw [hlength]
    exact (List.getElem?_eq_some_iff.mp hw).1
  obtain ⟨d, t, hj⟩ := exists_get? hlt
  exact ⟨d, t, hj, fun place hplace => h.holds hj hw hplace⟩

/-- A sequence of elements with different types. -/
theorem tuple_block (ctx : DataContext) (h : List.Forall₂ (Element P) es ws)
    (htypes : types.map Prod.snd = ws.map Value.type) (htotal : layOutEnd types 0 ≤ total) :
    Evaluates P (allocate ctx (sequenceCopy es) (.tuple (layOut types 0) total []))
      (sequenceCopy es) (·.HoldsAll P ws) := by
  have hfill := fill_layOut h htypes 0
  have hcopy : sequenceCopy es (.tuple (layOut types 0) total []) =
      ⟨placed (slots es (layOut types 0)), .ok total⟩ := by
    have hloop := hfill.tuple
    have hresult : (copyTuple es (layOut types 0)).result = .ok () := by rw [hloop]
    dsimp only [sequenceCopy]
    rw [bind_of_ok hresult, hloop]
    simp [pure]
  have halign : (Datatype.tuple (layOut types 0) total []).alignment ≠ 0 :=
    ((layOut types 0).alignment_pos).ne'
  have hlength := length_layOut_values htypes 0
  refine hfill.block (sequenceCopy es) (.tuple (layOut types 0) total [])
    ((spans_layOut types 0).mono htotal) halign hcopy
    (fun a b hab => sameMembers_of_get? hab) ?_ ctx
  intro v htype hplaced
  rw [Value.HoldsAll, htype]
  refine ⟨hlength, fun j w hw => ?_⟩
  obtain ⟨d, t, hj, hholds⟩ := hplaced.at hlength hw
  exact hholds _ (by simp [Datatype.index, hj])

/-! ### Mappings -/

theorem find?_layOut (hnodup : (types.map Prod.fst).Nodup) (start : Nat) {name : String}
    (hj : (types.map Prod.fst)[j]? = some name) :
    (layOut types start).find? name = (layOut types start).get? j := by
  induction types generalizing start j with
  | nil => cases hj
  | cons t types ih =>
    rw [List.map_cons, List.nodup_cons] at hnodup
    cases j with
    | zero =>
      obtain rfl : t.1 = name := Option.some.inj hj
      exact if_pos rfl
    | succ =>
      have hmem : name ∈ types.map Prod.fst := List.mem_of_getElem? hj
      have hne : t.1 ≠ name := fun heq => hnodup.1 (heq ▸ hmem)
      exact (if_neg hne).trans (ih hnodup.2 _ hj)

/-- The values of the elements, each under its name in a record of these names. -/
def Value.HoldsNamed (P : Platform) (v : Value) (names : List String) (ws : List Value) : Prop :=
  (∃ ms total, v.type = .record ms total [] ∧ ms.length = names.length) ∧
    ∀ (j : Nat) name w, names[j]? = some name → ws[j]? = some w →
      v.Holds P (v.type.member name 0 (fun _ => 0)) w

theorem record_block (ctx : DataContext) (h : List.Forall₂ (Element P) (entries.map Prod.snd) ws)
    (htypes : types.map Prod.snd = ws.map Value.type)
    (hnames : types.map Prod.fst = entries.map Prod.fst) (hnodup : (entries.map Prod.fst).Nodup)
    (htotal : layOutEnd types 0 ≤ total) :
    Evaluates P (allocate ctx (mappingCopy entries) (.record (layOut types 0) total []))
      (mappingCopy entries) (·.HoldsNamed P (entries.map Prod.fst) ws) := by
  have hfill := fill_layOut h htypes 0
  have hfind : ∀ (j : Nat) name, (entries.map Prod.fst)[j]? = some name →
      (layOut types 0).find? name = (layOut types 0).get? j := by
    rw [← hnames] at hnodup ⊢
    exact fun j name => find?_layOut hnodup 0
  have hcopy : mappingCopy entries (.record (layOut types 0) total []) =
      ⟨placed (slots (entries.map Prod.snd) (layOut types 0)), .ok total⟩ := by
    have hloop := hfill.record hfind
    have hresult : (copyRecord (layOut types 0) entries).result = .ok () := by rw [hloop]
    dsimp only [mappingCopy]
    rw [bind_of_ok hresult, hloop]
    simp [pure]
  have hlength : (layOut types 0).length = (entries.map Prod.fst).length := by
    rw [length_layOut, ← hnames, List.length_map]
  refine hfill.block (mappingCopy entries) (.record (layOut types 0) total [])
    ((spans_layOut types 0).mono htotal) ((layOut types 0).alignment_pos).ne' hcopy
    (fun a b hab => sameMembers_of_get? hab) ?_ ctx
  intro v htype hplaced
  refine ⟨⟨_, _, htype, hlength⟩, fun j name w hname hw => ?_⟩
  obtain ⟨d, t, hj, hholds⟩ := hplaced.at (length_layOut_values htypes 0) hw
  rw [htype]
  exact hholds _ (by simp [Datatype.member, hfind j name hname, hj])

/-! ## Both kinds of composites -/

theorem all_alignment (h : List.Forall₂ (Element P) es ws) :
    ∀ t ∈ ws.map Value.type, t.alignment ≠ 0 := by
  induction h with
  | nil => exact List.forall_mem_nil _
  | cons he _ ih => exact List.forall_mem_cons.mpr ⟨he.alignment, ih⟩

theorem sequence_block (ctx : DataContext) (h : List.Forall₂ (Element P) es ws) (hne : es ≠ [])
    (huniform : ∀ first rest, ws.map Value.type = first :: rest →
      (∀ t ∈ rest, first.same t = true) →
      ∀ t ∈ rest, denseSizes first.scalars = denseSizes t.scalars) :
    Evaluates P (sequence ctx es).toRef (sequenceCopy es) (·.HoldsAll P ws) := by
  have halign := all_alignment h
  have hlength : (ws.map Value.type).length = es.length := by
    rw [List.length_map, h.length_eq]
  obtain ⟨first, rest, htypes⟩ : ∃ first rest, ws.map Value.type = first :: rest := by
    refine List.exists_cons_of_ne_nil fun hnil => hne ?_
    rwa [hnil, List.length_nil, eq_comm, List.length_eq_zero_iff] at hlength
  have href : (sequence ctx es).toRef =
      (sequenceType (first :: rest) >>= allocate ctx (sequenceCopy es)) := by
    change (if es.isEmpty then _ else _) = _
    rw [if_neg (by simpa using hne), elementTypes_eq (h.imp fun _ _ he => he.ref), htypes]
    rfl
  rw [htypes] at halign hlength
  by_cases hsame : ∀ t ∈ rest, first.same t = true
  · have hlike : ∀ w ∈ ws, first.Alike w.type := by
      intro w hw
      have hmem : w.type ∈ first :: rest := htypes ▸ List.mem_map_of_mem hw
      rcases List.mem_cons.mp hmem with heq | hrest
      · rw [heq]
        exact alike_refl first
      · exact ⟨hsame _ hrest, huniform first rest htypes hsame _ hrest⟩
    rw [List.length_cons] at hlength
    rw [href, sequenceType_eq_ok.mpr (.inl ⟨hsame, rfl⟩), hlength]
    exact array_block ctx h hlike (halign _ List.mem_cons_self)
  · have hnamed : ((first :: rest).map fun u => ("", u)).map Prod.snd = ws.map Value.type := by
      rw [htypes, List.map_map]
      exact List.map_id _
    rw [href, sequenceType_eq_ok.mpr (.inr ⟨hsame, halign, rfl⟩)]
    exact tuple_block ctx h hnamed (Nat.le_trans (le_alignUp _ _) (Nat.le_max_right 1 _))

/-- The types of the members, where all values may be written. -/
theorem memberTypes_eq (h : List.Forall₂ (Element P) (entries.map Prod.snd) ws)
    (hrights : ∀ w ∈ ws, w.readable = true ∧ w.writable = true) :
    memberTypes entries = .ok ((entries.map Prod.fst).zip (ws.map Value.type)) := by
  induction entries generalizing ws with
  | nil => rfl
  | cons entry entries ih =>
    obtain ⟨name, e⟩ := entry
    cases h with
    | @cons _ w _ _ he rest =>
      rw [List.forall_mem_cons] at hrights
      have hwrite : w.asReadWrite = w := by
        unfold Value.asReadWrite
        rw [hrights.1.1, hrights.1.2]
        rfl
      unfold memberTypes
      rw [he.ref]
      change (if w.asReadWrite.type.alignment = 0 then _ else _) = _
      rw [hwrite, if_neg he.alignment, ih rest hrights.2]
      rfl

theorem mapping_block (ctx : DataContext) (h : List.Forall₂ (Element P) (entries.map Prod.snd) ws)
    (hrights : ∀ w ∈ ws, w.readable = true ∧ w.writable = true)
    (hnodup : (entries.map Prod.fst).Nodup) :
    Evaluates P (mapping ctx entries).toRef (mappingCopy entries)
      (·.HoldsNamed P (entries.map Prod.fst) ws) := by
  have hlength := h.length_eq
  rw [List.length_map] at hlength
  change Evaluates P (memberTypes entries >>= fun types =>
    allocate ctx (mappingCopy entries) (mappingType types)) _ _
  rw [memberTypes_eq h hrights]
  exact record_block ctx h (List.map_snd_zip (by simp [hlength]))
    (List.map_fst_zip (by simp [hlength])) hnodup (le_alignUp _ _)

end Pdi.Expression
