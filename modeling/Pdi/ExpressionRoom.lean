import Pdi.CopyValue
import Pdi.ExpressionPrint

/-!
# Evaluation into a buffer stays inside it where there is room

The conditions here are on expressions, types and the data they are evaluated on.
`Fits` follows the copy through the expression and the type: what is written has to
end before the end of the buffer, and this is asked only of the parts that are
reached because all before them were accepted.
-/
namespace Pdi.Expression

open Pdi.Cursor (Text)
open Pdi.Datatypes Pdi.Machine Pdi.Trace

variable {P : Platform} {offset total : Nat} {x : Except Failure (Number P.toFloatingPoint)}
  {α : Type}

mutual
/-- The copy into a type at `offset` in a buffer that ends after `total` bytes. -/
def Form.Fits (ctx : DataContext) : Form P → (total : Nat) → Datatype → (offset : Nat) → Prop
  | .stringLiteral start values, total, type, offset =>
    holdsChars type → ∀ text, stringText (values.impls ctx) start = .ok text →
      Room offset (text.length + 1) total
  | .sequence elements, total, type, offset =>
    match type with
    | .array subtype _ _ _ _ => elements.FitArray ctx total subtype offset 0
    | .tuple types _ _ => elements.FitTuple ctx total types offset
    | _ => True
  | .mapping entries, total, type, offset =>
    match type with
    | .record members _ _ => entries.FitRecord ctx total members offset
    | _ => True
  | e, total, type, offset => Machine.Accepts ctx e type → Room offset (wrap (e.takes type)) total

/-- The elements of the sequence before have taken `done` bytes. -/
def Forms.FitArray (ctx : DataContext) :
    Forms P → (total : Nat) → Datatype → (offset done : Nat) → Prop
  | .nil, _, _, _, _ => True
  | .cons e rest, total, subtype, offset, done =>
    e.Fits ctx total subtype (offset + done) ∧
      (Machine.Accepts ctx e subtype →
        rest.FitArray ctx total subtype offset (wrap (done + wrap (e.takes subtype))))

/-- No element is left over. -/
def Forms.FitTuple (ctx : DataContext) : Forms P → (total : Nat) → Members → (offset : Nat) → Prop
  | .nil, _, _, _ => True
  | .cons _ _, _, .nil, _ => False
  | .cons e rest, total, .cons displacement type _ types, offset =>
    e.Fits ctx total type (offset + displacement) ∧
      (Machine.Accepts ctx e type → rest.FitTuple ctx total types offset)

def Entries.FitRecord (ctx : DataContext) :
    Entries P → (total : Nat) → Members → (offset : Nat) → Prop
  | .nil, _, _, _ => True
  | .cons name e rest, total, members, offset =>
    match members.find? name with
    | some (displacement, type) =>
      e.Fits ctx total type (offset + displacement) ∧
        (Machine.Accepts ctx e type → rest.FitRecord ctx total members offset)
    | none => True
end

/-! ## What a copy writes -/

/-- All that a copy writes, `offset` bytes into a buffer of `total` bytes, is inside the
buffer. -/
def KeptAt {α : Type} (offset total : Nat) (x : Copy α) : Prop :=
  Keeps (fun w => (w.shift offset).Inside total) (fun _ => True) x

section KeptAt

variable {β : Type}

@[simp] theorem keptAt_pure (a : α) : KeptAt offset total (pure a) := keeps_pure a

@[simp] theorem keptAt_fail (e : Failure) : KeptAt offset total (fail e : Copy α) :=
  (keeps_fail e).mpr trivial

@[simp] theorem keptAt_lift (x : Except Failure α) : KeptAt offset total (lift x) :=
  (keeps_lift x).mpr fun _ _ => trivial

theorem keptAt_emit (w : Write) :
    KeptAt offset total (emit w) ↔ (w.shift offset).Inside total := keeps_emit w

@[simp] theorem keptAt_put (data : List Byte) :
    KeptAt offset total (put data) ↔ Room offset data.length total := keptAt_emit _

theorem keptAt_bind (x : Copy α) (f : α → Copy β) :
    KeptAt offset total (x >>= f) ↔
      KeptAt offset total x ∧ ∀ a, x.result = .ok a → KeptAt offset total (f a) := keeps_bind x f

theorem keptAt_relabel (x : Copy α) (displacement : Nat) :
    KeptAt offset total (x.relabel (Write.shift displacement)) ↔
      KeptAt (offset + displacement) total x := by
  simp only [KeptAt, keeps_relabel, Write.shift, Nat.add_assoc]

/-- What is returned in the end writes nothing. -/
theorem keptAt_wrapped (copy : Copy Nat) :
    KeptAt offset total (wrapped copy) ↔ KeptAt offset total copy := by
  simp [wrapped, keptAt_bind]

end KeptAt

theorem keptAt_store {c : NumberType} :
    KeptAt offset total (store c x) ↔
      ((∃ m, x >>= (fun a => a.convert c) = .ok m) → Room offset c.size total) := by
  simp only [store, keptAt_bind, keptAt_lift, result_lift, keptAt_put, keptAt_pure, true_and,
    implies_true, and_true, bind_eq_ok]
  constructor
  · rintro h ⟨m, a, ha, hm⟩
    have hroom := h a ha m hm
    rwa [length_bytes_number, convert_type hm] at hroom
  · intro h a ha m hm
    rw [length_bytes_number, convert_type hm]
    exact h ⟨m, a, ha, hm⟩

/-- The copy needs as much room as it returns. -/
def NeedsRoom (offset total : Nat) (copy : Copy Nat) : Prop :=
  KeptAt offset total copy ↔ ∀ n, copy.result = .ok n → Room offset n total

theorem needsRoom_fail (e : Failure) : NeedsRoom offset total (fail e) := by
  simp [NeedsRoom]

theorem NumberType.size_lt (c : NumberType) : c.size < 2 ^ 64 := by
  cases c with
  | integer type | floating type => cases type <;> decide

/-- The size of a number is one that a `size_t` has room for. -/
theorem Stores.needsRoom {target : Option NumberType} {copy : Copy Nat} (h : Stores target x copy) :
    NeedsRoom offset total (wrapped copy) := by
  rw [NeedsRoom, keptAt_wrapped]
  cases target with
  | none =>
    obtain ⟨status, message, rfl⟩ := h
    simp [wrapped, result_bind_eq_ok]
  | some c =>
    have hc : copy = store c x := h
    rw [hc, keptAt_store]
    simp only [result_wrapped fun n => result_store, wrap_of_lt c.size_lt]
    exact ⟨fun hroom n hn => hn.2 ▸ hroom hn.1, fun hroom hm => hroom _ ⟨hm, rfl⟩⟩

/-- A copy of a value that is evaluated first. -/
theorem NeedsRoom.lift {toRef : Except Failure Value} {copy : Value → Copy Nat}
    (h : ∀ v, NeedsRoom offset total (copy v)) :
    NeedsRoom offset total (Trace.lift toRef >>= copy) := by
  simp only [NeedsRoom, keptAt_bind, keptAt_lift, result_lift, true_and, result_bind_eq_ok] at h ⊢
  simp only [h]
  constructor
  · rintro hroom n ⟨v, hv, hn⟩
    exact hroom v hv n hn
  · intro hroom v hv n hn
    exact hroom n ⟨v, hv, hn⟩

theorem keptAt_stringLiteralCopy (toString : Except Failure Text) (type : Datatype) :
    KeptAt offset total (stringLiteralCopy toString type) ↔
      (holdsChars type → ∀ text, toString = .ok text → Room offset (text.length + 1) total) := by
  unfold stringLiteralCopy
  split
  · rename_i h
    simp [keptAt_bind, h]
  · rename_i h
    simp [h]

theorem needsRoom_wholeCopy (ref : Value) (type : Datatype) :
    NeedsRoom offset total (Machine.wholeCopy ref type) := by
  unfold Machine.wholeCopy
  split
  · rename_i h
    have hlength :
        (ref.content.take (Machine.buffersize type)).length = Machine.buffersize type := by
      rw [List.length_take, ref.length_content, ← h, buffersize_eq, Nat.min_eq_left (wrap_le _)]
    have hput : (put (ref.content.take (Machine.buffersize type))).result = .ok () := rfl
    simp [NeedsRoom, keptAt_bind, hlength, result_bind_eq_ok, hput]
  · exact needsRoom_fail _

theorem needsRoom_referenceCopy (whole : Bool) (toRef : Except Failure Value) (type : Datatype) :
    NeedsRoom offset total (Machine.referenceCopy P whole toRef type) := by
  refine NeedsRoom.lift fun ref => ?_
  split
  · split
    · exact needsRoom_wholeCopy ref type
    · exact (stores_indexed ref type).needsRoom
  · exact needsRoom_fail _

theorem needsRoom_operationCopy (toRef : Except Failure Value) (type : Datatype) :
    NeedsRoom offset total (wrapped (operationCopy P toRef type)) := by
  have hlift : wrapped (operationCopy P toRef type) =
      Trace.lift toRef >>= fun value => wrapped (computedCopy P value.asRead type) := by
    cases toRef <;> rfl
  rw [hlift]
  exact NeedsRoom.lift fun value => (stores_computed _ type).needsRoom

variable (ctx : DataContext)

theorem forall_copied_iff (e : Form P) (type : Datatype) {p : Nat → Prop} :
    (∀ n, (copyValue ctx e type).result = .ok n → p n) ↔
      (Machine.Accepts ctx e type → p (wrap (e.takes type))) := by
  simp only [result_copyValue]
  exact ⟨fun h ha => h _ ⟨ha, rfl⟩, fun h n hn => hn.2 ▸ h hn.1⟩

theorem NeedsRoom.fits {e : Form P} {type : Datatype}
    (h : NeedsRoom offset total (copyValue ctx e type)) :
    KeptAt offset total (copyValue ctx e type) ↔
      (Machine.Accepts ctx e type → Room offset (wrap (e.takes type)) total) :=
  h.trans (forall_copied_iff ctx e type)

/-! ## Each class of expressions -/

mutual
theorem Form.keptAt_iff (htotal : total ≤ 2 ^ 64) : ∀ (e : Form P) (type : Datatype) (offset : Nat),
    KeptAt offset total (copyValue ctx e type) ↔ e.Fits ctx total type offset
  | .intLiteral value, type, offset => by
    rw [Form.Fits]
    · exact NeedsRoom.fits ctx ((stores_intLiteral value type).needsRoom)
    all_goals simp
  | .floatLiteral value, type, offset => by
    rw [Form.Fits]
    · exact NeedsRoom.fits ctx ((stores_floatLiteral value type).needsRoom)
    all_goals simp
  | .stringLiteral start values, type, offset => by
    rw [copyValue, keptAt_wrapped, keptAt_stringLiteralCopy, Form.Fits]
  | .reference _ _ _, type, offset => by
    rw [Form.Fits]
    · exact NeedsRoom.fits ctx (needsRoom_referenceCopy _ _ type)
    all_goals simp
  | .operation _ _, type, offset => by
    rw [Form.Fits]
    · exact NeedsRoom.fits ctx (needsRoom_operationCopy _ type)
    all_goals simp
  | .sequence elements, type, offset => by
    cases type with
    | array subtype size =>
      -- once the elements are copied, the test of the size writes nothing
      rw [copyValue, keptAt_bind, elements.keptAt_array htotal, Form.Fits]
      refine and_iff_left fun done _ => ?_
      split <;> simp
    | tuple =>
      rw [copyValue, keptAt_bind, elements.keptAt_tuple htotal, Form.Fits]
      exact and_iff_left fun _ _ => keptAt_pure _
    | _ => simp [copyValue, Form.Fits]
  | .mapping entries, type, offset => by
    cases type with
    | record =>
      rw [copyValue, keptAt_bind, entries.keptAt_record htotal, Form.Fits]
      exact and_iff_left fun _ _ => keptAt_pure _
    | _ => simp [copyValue, Form.Fits]

theorem Forms.keptAt_array (htotal : total ≤ 2 ^ 64) : ∀ (es : Forms P) (subtype : Datatype)
    (offset done : Nat), KeptAt offset total (Machine.copyArray ctx es subtype done) ↔
      es.FitArray ctx total subtype offset done
  | .nil, _, _, _ => iff_of_true (keptAt_pure _) trivial
  | .cons e rest, subtype, offset, done => by
    simp only [Machine.copyArray, keptAt_bind, keptAt_relabel, e.keptAt_iff htotal, result_relabel,
      rest.keptAt_array htotal, Forms.FitArray, forall_copied_iff]

theorem Forms.keptAt_tuple (htotal : total ≤ 2 ^ 64) : ∀ (es : Forms P) (types : Members)
    (offset : Nat), KeptAt offset total (Machine.copyTuple ctx es types) ↔
      es.FitTuple ctx total types offset
  | .nil, _, _ => iff_of_true (keptAt_pure _) trivial
  | .cons _ _, .nil, offset => by
    refine iff_of_false (fun h => ?_) not_false
    rw [Machine.copyTuple, keptAt_bind, keptAt_emit] at h
    have hroom : Room (offset + 2 ^ 64) 1 total := h.1
    unfold Room at hroom
    omega
  | .cons e rest, .cons displacement type name types, offset => by
    simp only [Machine.copyTuple, keptAt_bind, keptAt_relabel, e.keptAt_iff htotal, result_relabel,
      rest.keptAt_tuple htotal, Forms.FitTuple, forall_copied_iff]

theorem Entries.keptAt_record (htotal : total ≤ 2 ^ 64) : ∀ (es : Entries P) (members : Members)
    (offset : Nat), KeptAt offset total (Machine.copyRecord ctx es members) ↔
      es.FitRecord ctx total members offset
  | .nil, _, _ => iff_of_true (keptAt_pure _) trivial
  | .cons name e rest, members, offset => by
    simp only [Machine.copyRecord, Entries.FitRecord]
    cases members.find? name with
    | none => simp
    | some =>
      simp only [keptAt_bind, keptAt_relabel, e.keptAt_iff htotal, result_relabel,
        rest.keptAt_record htotal, forall_copied_iff]
end

/-- At the start of a buffer. -/
theorem Form.inside_iff (htotal : total ≤ 2 ^ 64) (e : Form P) (type : Datatype) :
    (∀ w ∈ (copyValue ctx e type).trace, w.Inside total) ↔ e.Fits ctx total type 0 := by
  have hshift : ∀ w : Write, w.shift 0 = w := by
    intro w
    simp [Write.shift]
  rw [← e.keptAt_iff ctx htotal, KeptAt, Keeps]
  simp only [hshift]
  exact (and_iff_left fun _ _ => trivial).symm

/-- A platform whose floating-point numbers are not used. -/
def integersOnly : Platform where
  toFloatingPoint := noFloats
  narrow _ := ()
  integral _ _ := none
  toLong_eq _ _ := rfl
  ofBytes _ _ := ()
  toBytes type _ := List.replicate type.size 0
  length_toBytes _ _ := List.length_replicate
  text _ := []
  formatText _ text := .ok text
  formatLong _ n := .ok (decimal n)
  formatDouble _ _ := .ok []

/-- Nothing is shared. -/
def nothingShared : DataContext where
  desc name := .error (valueError
    ("Cannot access a non shared value: `" ++ String.ofList name ++ "'"))
  desc_error _ _ h := by
    cases h
    exact ⟨_, _, rfl⟩
  mem _ := 0
  fresh _ := 0

/-- The third of three numbers is written behind an array of two before the copy throws. -/
example :
    (copyValue nothingShared (.sequence (.cons (.intLiteral 1) (.cons (.intLiteral 2)
      (.cons (.intLiteral 3) .nil))) : Form integersOnly) (.array typeForInt64 2 0 2 [])).trace.map
        (fun w => (w.offset, w.data.length)) = [(0, 8), (8, 8), (16, 8)] := rfl

/-- So is the second of two, where the size of the array is one number modulo 2^64. -/
example :
    let type : Datatype := .array typeForInt64 (2 ^ 61 + 1) 0 (2 ^ 61 + 1) []
    (copyValue nothingShared (.sequence (.cons (.intLiteral 1) (.cons (.intLiteral 2) .nil)) :
      Form integersOnly) type).trace.map (fun w => (w.offset, w.data.length)) = [(0, 8), (8, 8)] ∧
      Machine.buffersize type = 8 := ⟨rfl, rfl⟩

end Pdi.Expression
