import Pdi.BufferContents
import Pdi.ExpressionRoom

/-!
# Setting a part of a record

The set operation of the set_value plugin evaluates a value into newly allocated memory
and copies all of it over the data. A mapping fills the members that it names. The bytes
of the other members are whatever the memory held when it was allocated, and they are
copied as well.
-/
namespace Pdi.SetValue

open Pdi.Cursor (Text)
open Pdi.Datatypes Pdi.Expression Pdi.Machine Pdi.Memory Pdi.Trace

variable {P : Platform} {members : Members} {e : Form P} {t : Datatype} {a d n : Nat}
  {name : String} {content : List Byte}

/-- A value to set, with what the memory holds that will be allocated for it. -/
structure Setting (P : Platform) where
  name : Text
  value : Form P
  room : Mem Byte

/-- The block that a value is evaluated into. -/
def block (ctx : DataContext) (room : Mem Byte) (e : Form P) (type : Datatype) : List Byte :=
  bytes (written room (copyValue ctx e type).trace) 0 (buffersize type)

/-- `Impl::to_ref(ctx, type)`: the type and the content. -/
def toRef (ctx : DataContext) (room : Mem Byte) (e : Form P) (type : Datatype) :
    Except Failure (Datatype × List Byte) :=
  if type.alignment = 0 then .error (.undefined "allocation with an alignment of 0")
  else if ∀ w ∈ (copyValue ctx e type).trace, w.Inside (buffersize type) then
    (copyValue ctx e type).result.map fun _ => (type, block ctx room e type)
  else .error outside

/-- One round of the loop: the memory after it. -/
def Setting.apply (ctx : DataContext) (x : Setting P) : Except Failure (Mem Byte) := do
  let existing ← ctx.desc x.name
  let type := (ctx.value existing).type
  let value ← toRef ctx x.room x.value type
  match existing.filter (·.writable) with
  | some ref =>
    if buffersize type ≠ buffersize value.1 then
      .error (valueError ("Cannot set value to exisitng reference. Existing buffersize = " ++
        toString (buffersize type) ++ ", value buffersize = " ++ toString (buffersize value.1)))
    else .ok ((⟨ref.data, value.2⟩ : Write).into ctx.mem)
  | none => .error (.error .permission
      ("Cannot get write access for `" ++ String.ofList x.name ++ "' to set values"))

/-- `Set_operation::execute` -/
def execute (ctx : DataContext) : List (Setting P) → Except Failure (Mem Byte)
  | [] => .ok ctx.mem
  | x :: rest => do
    let mem ← x.apply ctx
    execute { ctx with mem := mem } rest

/-! ## The members that are named -/

/-- The byte belongs to a member. -/
def Members.Covers : Members → Nat → Prop
  | .nil, _ => False
  | .cons d type _ rest, a => (d ≤ a ∧ a < d + buffersize type) ∨ Members.Covers rest a

mutual
/-- The byte belongs to a member, and the value names no member that it belongs to, or
spares it there. -/
def Spares : Form P → Datatype → Nat → Prop
  | .mapping entries, .record members _ _, a =>
    Members.Covers members a ∧ AllSpare entries members a
  | _, _, _ => False

def AllSpare : Entries P → Members → Nat → Prop
  | .nil, _, _ => True
  | .cons name e rest, members, a =>
    (∀ d t, members.find? name = some (d, t) → d ≤ a → a < d + buffersize t → Spares e t (a - d)) ∧
      AllSpare rest members a
end

mutual
/-- As in a table, the names of every mapping are different; and there is room for every
value in the member that it is for. -/
def Settable (ctx : DataContext) : Form P → Datatype → Prop
  | .mapping entries, .record members _ _ => entries.names.Nodup ∧ AllSettable ctx entries members
  | _, _ => True

def AllSettable (ctx : DataContext) : Entries P → Members → Prop
  | .nil, _ => True
  | .cons name e rest, members =>
    (∀ d t, members.find? name = some (d, t) → e.Fits ctx (buffersize t) t 0 ∧ Settable ctx e t) ∧
      AllSettable ctx rest members
end

/-! ## New values -/

/-- The bytes of a number that is stored as what a switch picks. -/
def stored (target : Option NumberType) (x : Except Failure (Number P.toFloatingPoint)) :
    Option (List Byte) :=
  target.bind fun c => (x >>= fun n => n.convert c).toOption.map Number.bytes

/-- The bytes of a value that has no parts. -/
def storedValue (ctx : DataContext) : Form P → Datatype → Option (List Byte)
  | .intLiteral value, t => stored (P := P) (integerTarget t) (.ok (.integer .int64 value))
  | .floatLiteral value, t => stored (P := P) (floatTarget t) (.ok (.floating .double value))
  | .stringLiteral start values, _ =>
    (stringText (values.impls ctx) start).toOption.map fun text => text.map byteOf ++ [0]
  | .reference referenced _ subelements, t =>
    (referenceRef ctx referenced (subelements.impls ctx)).toOption.bind fun ref =>
      if (subelements.impls ctx).isEmpty then some (ref.content.take (buffersize t))
      else stored (P := P) (bufferTarget t) ref.scalar
  | .operation first operands, t =>
    (operationRef (first.impl ctx) (operands.impls ctx)).toOption.bind fun value =>
      stored (P := P) (dataTarget t) value.asRead.scalar
  | _, _ => none

/-- The value, evaluated into a block of its own, puts the byte there whatever the block
held before. -/
def Decides (ctx : DataContext) (e : Form P) (t : Datatype) (i : Nat) (b : Byte) : Prop :=
  ∀ room, written room (copyValue ctx e t).trace i = b

mutual
/-- The memory has the value from `a` on: that of each entry in its member, and elsewhere
all the bytes that the value decides, which are those it is stored as if it has no parts. -/
def Has (ctx : DataContext) (mem : Mem Byte) : Form P → Datatype → (a : Nat) → Prop
  | .mapping entries, .record members _ _, a => HasAll ctx mem entries members a
  | e, t, a => (∀ i b, Decides ctx e t i b → mem (a + i) = b) ∧
      ∀ content, storedValue ctx e t = some content → bytes mem a content.length = content

def HasAll (ctx : DataContext) (mem : Mem Byte) : Entries P → Members → (a : Nat) → Prop
  | .nil, _, _ => True
  | .cons name e rest, members, a =>
    (∀ d t, members.find? name = some (d, t) → Has ctx mem e t (a + d)) ∧
      HasAll ctx mem rest members a
end

variable {ctx : DataContext}

theorem trace_store {c : NumberType} {x : Except Failure (Number P.toFloatingPoint)}
    {m : Number P.toFloatingPoint} (h : x >>= (fun n => n.convert c) = .ok m) :
    (store c x).trace = [⟨0, m.bytes⟩] := by
  obtain ⟨n, rfl, hconvert⟩ := bind_eq_ok.mp h
  have hresult : (lift (n.convert c) : Copy _).result = .ok m := hconvert
  change (lift (n.convert c) >>= fun n => put n.bytes >>= fun _ => pure c.size : Copy Nat).trace = _
  rw [bind_of_ok hresult]
  rfl

theorem trace_wrapped (copy : Copy Nat) : (wrapped copy).trace = copy.trace := by
  obtain ⟨trace, result⟩ := copy
  cases result with
  | ok => exact List.append_nil trace
  | error => rfl

/-- A copy that stores a number writes nothing else. -/
theorem trace_of_stores {target : Option NumberType} {x : Except Failure (Number P.toFloatingPoint)}
    {copy : Copy Nat} (h : Stores target x copy)
    (hcontent : stored target x = some content) : copy.trace = [⟨0, content⟩] := by
  obtain ⟨c, rfl, hc⟩ := Option.bind_eq_some_iff.mp hcontent
  obtain ⟨m, hm, rfl⟩ := Option.map_eq_some_iff.mp hc
  have hcopy : copy = store c x := h
  rw [hcopy, trace_store (toOption_eq_some.mp hm)]

/-- A value without parts writes the bytes it is stored as, and nothing else. -/
theorem trace_storedValue (haccepts : Accepts ctx e t)
    (h : storedValue ctx e t = some content) : (copyValue ctx e t).trace = [⟨0, content⟩] := by
  cases e with
  | intLiteral value =>
    rw [copyValue, trace_wrapped]
    exact trace_of_stores (stores_intLiteral value t) h
  | floatLiteral value =>
    rw [copyValue, trace_wrapped]
    exact trace_of_stores (stores_floatLiteral value t) h
  | stringLiteral =>
    obtain ⟨text, htext, rfl⟩ := Option.map_eq_some_iff.mp h
    obtain ⟨hchars, -⟩ := haccepts
    rw [copyValue, trace_wrapped, stringLiteralCopy, if_pos hchars, toOption_eq_some.mp htext]
    rfl
  | reference =>
    obtain ⟨ref, href, hread, hcopy⟩ := haccepts
    obtain ⟨ref', href', hcontent⟩ := Option.bind_eq_some_iff.mp h
    obtain rfl : ref = ref' := Except.ok.inj (href.symm.trans (toOption_eq_some.mp href'))
    rw [copyValue, href]
    change (if ref.readable then _ else _ : Copy Nat).trace = _
    rw [if_pos hread]
    split at hcontent
    · rename_i hwhole
      rw [if_pos hwhole] at hcopy ⊢
      rw [Machine.wholeCopy, if_pos hcopy]
      cases hcontent
      rfl
    · rename_i hwhole
      rw [if_neg hwhole, trace_wrapped]
      exact trace_of_stores (stores_indexed ref t) hcontent
  | operation =>
    obtain ⟨value, hvalue, hcontent⟩ := Option.bind_eq_some_iff.mp h
    rw [copyValue, trace_wrapped, operationCopy, toOption_eq_some.mp hvalue]
    exact trace_of_stores (stores_computed value.asRead t) hcontent
  | sequence | mapping => cases h

theorem decides_storedValue (haccepts : Accepts ctx e t)
    (h : storedValue ctx e t = some content) {i : Nat} (hi : i < content.length) :
    Decides ctx e t i content[i] := by
  intro room
  rw [trace_storedValue haccepts h]
  have hhit := into_hit (⟨0, content⟩ : Write) room hi
  rwa [Nat.zero_add] at hhit

/-! ## What is written for each entry -/

theorem inside_of_fits (h : e.Fits ctx (buffersize t) t 0) :
    ∀ w ∈ (copyValue ctx e t).trace, w.Inside (buffersize t) :=
  (e.inside_iff ctx (buffersize_lt t).le t).mpr h

/-- A value decides only bytes of its block. -/
theorem Decides.lt {i : Nat} {b : Byte} (h : Decides ctx e t i b)
    (hinside : ∀ w ∈ (copyValue ctx e t).trace, w.Inside (buffersize t)) : i < buffersize t := by
  by_contra hi
  have hroom (room : Mem Byte) : room i = b := by
    rw [← h room]
    have hout : i < 0 ∨ 0 + buffersize t ≤ i := by omega
    have hsame := written_shift_outside hout _ hinside room
    have hshift : Write.shift 0 = id := by
      funext w
      simp [Write.shift]
    rw [hshift, List.map_id] at hsame
    exact hsame.symm
  have hne : (0 : Byte) = 1 := (hroom fun _ => 0).trans (hroom fun _ => 1).symm
  exact absurd hne (by decide)

/-- The writes for an entry come before those for the entries behind it. -/
theorem trace_copyRecord_cons {rest : Entries P} (hfind : members.find? name = some (d, t))
    (haccepts : Accepts ctx e t) :
    (Machine.copyRecord ctx (.cons name e rest) members).trace =
      (copyValue ctx e t).trace.map (Write.shift d) ++
        (Machine.copyRecord ctx rest members).trace := by
  have hresult : ((copyValue ctx e t).relabel (Write.shift d)).result = .ok (wrap (e.takes t)) :=
    (result_copyValue ctx e t _).mpr ⟨haccepts, rfl⟩
  rw [Machine.copyRecord, hfind]
  dsimp only
  rw [bind_of_ok hresult]
  rfl

theorem trace_mapping {es : Entries P} {attributes : Attributes} (h : AcceptRecord ctx es members) :
    (copyValue ctx (.mapping es) (.record members n attributes)).trace =
      (Machine.copyRecord ctx es members).trace := by
  rw [copyValue, bind_of_ok ((result_copyRecord ctx es members ()).mpr h)]
  exact List.append_nil _

/-- Entries leave the bytes alone that are in none of their members. -/
theorem written_elsewhere : ∀ {es : Entries P}, AcceptRecord ctx es members →
    AllSettable ctx es members → (∀ name ∈ es.names, ∀ d t, members.find? name = some (d, t) →
      ¬ (d ≤ a ∧ a < d + buffersize t)) →
    ∀ mem, written mem (Machine.copyRecord ctx es members).trace a = mem a
  | .nil, _, _, _, _ => rfl
  | .cons name e rest, h, hset, hout, mem => by
    obtain ⟨⟨⟨d, t⟩, hfind, haccepts⟩, hrest⟩ := h
    have hmiss := hout name List.mem_cons_self d t hfind
    rw [trace_copyRecord_cons hfind haccepts, written_append, written_elsewhere hrest hset.2
      fun other hother => hout other (List.mem_cons_of_mem _ hother)]
    exact written_shift_outside (by omega) _ (inside_of_fits (hset.1 d t hfind).1) mem

mutual
/-- The copy leaves the bytes it spares as they were. -/
theorem written_spared : ∀ {e : Form P} {type : Datatype} {a : Nat}, Accepts ctx e type →
    Settable ctx e type → Spares e type a →
    ∀ mem, written mem (copyValue ctx e type).trace a = mem a
  | .mapping entries, .record members _ _, a, haccepts, hset, hspares, mem => by
    rw [trace_mapping haccepts]
    exact written_allSpared haccepts hset.2 hspares.2 mem

theorem written_allSpared : ∀ {es : Entries P} {members : Members} {a : Nat},
    AcceptRecord ctx es members → AllSettable ctx es members → AllSpare es members a →
    ∀ mem, written mem (Machine.copyRecord ctx es members).trace a = mem a
  | .nil, _, _, _, _, _, _ => rfl
  | .cons name e rest, members, a, h, hset, hspare, mem => by
    obtain ⟨⟨⟨d, t⟩, hfind, haccepts⟩, hrest⟩ := h
    obtain ⟨hfits, hnested⟩ := hset.1 d t hfind
    rw [trace_copyRecord_cons hfind haccepts, written_append,
      written_allSpared hrest hset.2 hspare.2]
    by_cases ha : d ≤ a ∧ a < d + buffersize t
    · obtain ⟨i, rfl⟩ := Nat.exists_eq_add_of_le ha.1
      have hspared := hspare.1 d t hfind ha.1 ha.2
      rw [Nat.add_sub_cancel_left] at hspared
      exact (written_shift d _ mem i).trans (written_spared haccepts hnested hspared _)
    · exact written_shift_outside (by omega) _ (inside_of_fits hfits) mem
end

theorem apart_find? : ∀ {ms : Members} {other : String} {d' : Nat} {t' : Datatype},
    ms.Apart d t.buffersize → ms.find? other = some (d', t') → d ≤ a → a < d + buffersize t →
    ¬ (d' ≤ a ∧ a < d' + buffersize t')
  | .cons d₀ t₀ name₀ rest, other, d', t', h, hfind, hle, hlt => by
    have hsize : buffersize t ≤ t.buffersize := buffersize_eq t ▸ wrap_le _
    have hsize₀ : buffersize t₀ ≤ t₀.buffersize := buffersize_eq t₀ ▸ wrap_le _
    rw [Members.find?] at hfind
    split at hfind
    · cases hfind
      have hend := h.1 a hle (by omega)
      omega
    · exact apart_find? h.2 hfind hle hlt

/-- The blocks of members with different names share no byte. -/
theorem find?_apart : ∀ {ms : Members} {other : String} {d' : Nat} {t' : Datatype},
    ms.WellFormed n → ms.find? name = some (d, t) → ms.find? other = some (d', t') → name ≠ other →
    d ≤ a → a < d + buffersize t → ¬ (d' ≤ a ∧ a < d' + buffersize t')
  | .cons d₀ t₀ name₀ rest, other, d', t', h, hname, hother, hne, hle, hlt => by
    obtain ⟨-, -, hapart, hrest⟩ := h
    rw [Members.find?] at hname hother
    split at hname
    · rename_i heq
      cases hname
      rw [if_neg fun h => hne (heq.symm.trans h)] at hother
      exact apart_find? hapart hother hle hlt
    · split at hother
      · cases hother
        intro hin
        exact apart_find? hapart hname hin.1 hin.2 ⟨hle, hlt⟩
      · exact find?_apart hrest hname hother hne hle hlt

/-! ## What the members hold -/

variable {mem : Mem Byte}

theorem wellFormed_find? : ∀ {ms : Members}, ms.WellFormed n → ms.find? name = some (d, t) →
    t.WellFormed
  | .cons d₀ t₀ name₀ rest, h, hfind => by
    rw [Members.find?] at hfind
    split at hfind
    · cases hfind
      exact h.1
    · exact wellFormed_find? h.2.2.2 hfind

theorem bytes_storedValue (haccepts : Accepts ctx e t)
    (h : ∀ i b, Decides ctx e t i b → mem (a + i) = b)
    (hcontent : storedValue ctx e t = some content) : bytes mem a content.length = content := by
  refine List.ext_getElem (length_bytes _ _ _) fun i _ hi => ?_
  have hbyte := h i _ (decides_storedValue haccepts hcontent hi)
  simpa [bytes] using hbyte

mutual
/-- Where the memory has all bytes that a value decides, it has the value. -/
theorem has_of_decided : ∀ {e : Form P} {t : Datatype} {a : Nat}, Accepts ctx e t →
    Settable ctx e t → t.WellFormed → (∀ i b, Decides ctx e t i b → mem (a + i) = b) →
    Has ctx mem e t a
  | .mapping entries, .record members n attributes, a, haccepts, hset, hformed, h => by
    refine hasAll_of_decided haccepts hset.2 hset.1 hformed.1 fun i b hwritten =>
      h i b fun room => ?_
    rw [trace_mapping haccepts]
    exact hwritten room
  | .mapping _, .scalar _, _, haccepts, _, _, h | .mapping _, .array _ _ _ _ _, _, haccepts, _, _, h
  | .mapping _, .tuple _ _ _, _, haccepts, _, _, h
  | .mapping _, .pointer _ _ _ _, _, haccepts, _, _, h
  | .intLiteral _, _, _, haccepts, _, _, h | .floatLiteral _, _, _, haccepts, _, _, h
  | .stringLiteral _ _, _, _, haccepts, _, _, h | .reference _ _ _, _, _, haccepts, _, _, h
  | .operation _ _, _, _, haccepts, _, _, h | .sequence _, _, _, haccepts, _, _, h =>
    ⟨h, fun _ => bytes_storedValue haccepts h⟩

theorem hasAll_of_decided : ∀ {es : Entries P} {members : Members} {n a : Nat},
    AcceptRecord ctx es members → AllSettable ctx es members → es.names.Nodup →
    members.WellFormed n →
    (∀ i b, (∀ room, written room (Machine.copyRecord ctx es members).trace i = b) →
      mem (a + i) = b) →
    HasAll ctx mem es members a
  | .nil, _, _, _, _, _, _, _, _ => trivial
  | .cons name e rest, members, n, a, haccepts, hset, hnodup, hformed, h => by
    obtain ⟨⟨⟨d, t⟩, hfind, he⟩, hrest⟩ := haccepts
    obtain ⟨hfits, hnested⟩ := hset.1 d t hfind
    obtain ⟨hnew, hnodup⟩ := List.nodup_cons.mp hnodup
    refine ⟨fun d' t' hfind' => ?_, ?_⟩
    · obtain ⟨rfl, rfl⟩ := Prod.mk.inj (Option.some.inj (hfind.symm.trans hfind'))
      refine has_of_decided he hnested (wellFormed_find? hformed hfind) fun i b hb => ?_
      rw [Nat.add_assoc]
      refine h (d + i) b fun room => ?_
      have hi := hb.lt (inside_of_fits hfits)
      -- the entries behind are for other members
      rw [trace_copyRecord_cons hfind he, written_append, written_elsewhere hrest hset.2
        fun other hother d' t' hother' => find?_apart hformed hfind hother'
          (fun heq => hnew (heq ▸ hother)) (by omega) (by omega), written_shift]
      exact hb _
    · refine hasAll_of_decided hrest hset.2 hnodup hformed fun i b hb => h i b fun room => ?_
      rw [trace_copyRecord_cons hfind he, written_append]
      exact hb _
end

/-! ## The set operation -/

/-- Two numbers. -/
def pair : DataRef :=
  ⟨.record (.cons 0 typeForInt32 "x" (.cons 4 typeForInt32 "y" .nil)) 8 [], 64, true, true⟩

end Pdi.SetValue
