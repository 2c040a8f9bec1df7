import Pdi.BufferContents
import Pdi.CharArrays
import Pdi.IeeeNumbers

/-!
# Evaluation as a given type

`to_ref` with a type evaluates into a new block of that type. Literals, operations and
parts of data convert the number to the type; a reference to the whole of some data
copies its bytes, if there are as many as the type has. Operations convert to the type
that the size of the data stands for, while the number is read back by the size of the
buffer.
-/
namespace Pdi.Expression

open Pdi.Datatypes Pdi.Memory Pdi.Trace

variable {P : Platform} {α : Type} {toRef : Except Failure Value} {n : Int} {data : List Byte}
  {m : Number P.toFloatingPoint} {f : Failure} {c' : NumberType}

/-- `Expression::to_ref` with a type, where the new block holds `fresh` at first. -/
def Form.toRefAs (ctx : DataContext) (fresh : Mem Byte) (e : Form P) (type : Datatype) :
    Except Failure Value :=
  allocate { ctx with fresh := fresh } (e.impl ctx).copyValue type

/-- The number that the expression has before it is converted. -/
def Form.HasNumber (ctx : DataContext) (e : Form P) (x : Number P.toFloatingPoint) : Prop :=
  match e with
  | .intLiteral value => x = .integer .int64 value
  | .floatLiteral value => x = .floating .double value
  | .reference _ _ _ | .operation _ _ =>
    ∃ v, (e.impl ctx).toRef = .ok v ∧ v.asRead.scalar = .ok x
  | _ => False

/-- Evaluation as a type throws, or gives the number that `to_long` and `to_double` give
where they can represent it. -/
structure Form.KeepsNumber (E : Exactness P) (ctx : DataContext) (e : Form P) (s : Scalar)
    (q : ℚ) : Prop where
  long : ∀ n : Int, IntegerType.int64.Holds n → (n : ℚ) = q → (e.impl ctx).toLong = .ok n
  double : E.Represents (.floating .double) q →
    ∃ d, (e.impl ctx).toDouble = .ok d ∧ E.value .double d = some q
  throws : ∀ fresh, Fails Failure.Raised (e.toRefAs ctx fresh (.scalar s))
  reads : ∀ fresh v, e.toRefAs ctx fresh (.scalar s) = .ok v →
    ∃ m, v.scalar = .ok m ∧ E.number m = some q

/-- Bytes are copied only between integers, between floating-point numbers, or if all of
them are zero; and the data of what an operation is evaluated as fills its buffer. -/
def Form.Converts (ctx : DataContext) (s : Scalar) : Form P → Prop
  | .reference referenced _ .nil => ∀ ref source, ctx.desc referenced = .ok (some ref) →
    ref.type = .scalar source → source.denseSize = s.denseSize →
      (source.kind = .float ↔ s.kind = .float) ∨ ∀ b ∈ bytes ctx.mem ref.data s.denseSize, b = 0
  | .operation _ _ => numberType s.kind s.size = none ∨ s.size = s.denseSize
  | _ => True

variable {E : Exactness P} {ctx : DataContext} {e : Form P} {s : Scalar} {q : ℚ}
  {x : Number P.toFloatingPoint} {c : NumberType} {v : Value}

/-! ## Numbers as `long` and as `double` -/

theorem asRead_of_readable (h : v.readable = true) : v.asRead = v := if_pos h

/-- A null reference has no scalar. -/
theorem scalar_of_asRead (h : v.asRead.scalar = .ok x) : v.readable = true ∧ v.scalar = .ok x := by
  by_cases hread : v.readable = true
  · rw [asRead_of_readable hread] at h
    exact ⟨hread, h⟩
  · unfold Value.asRead at h
    rw [if_neg hread] at h
    cases h

theorem scalarValue_eq (hv : v.scalar = .ok x) (c : NumberType) :
    v.scalarValue c = x.convert c := by
  unfold Value.scalarValue
  rw [hv]
  rfl

theorem referenceNumber_eq (href : toRef = .ok v) (hread : v.readable = true)
    (referenced : Cursor.Text) (refusal : String) (scalarValue : Value → Except Failure α) :
    referenceNumber referenced refusal toRef scalarValue =
      (scalarValue v).mapError (whileReferencing referenced) := by
  unfold referenceNumber
  rw [href]
  exact congrArg _ (if_pos hread)

theorem operationNumber_eq (href : toRef = .ok v) (hread : v.readable = true)
    (scalarValue : Value → Except Failure α) :
    operationNumber toRef scalarValue = scalarValue v := by
  unfold operationNumber
  rw [href]
  change (if v.asRead.readable then scalarValue v.asRead else _) = _
  rw [asRead_of_readable hread, if_pos hread]

theorem long_exact (hv : v.scalar = .ok x) (hx : E.number x = some q)
    (hn : IntegerType.int64.Holds n) (hq : (n : ℚ) = q) : v.long P = .ok n := by
  obtain ⟨m, hm, hvalue, -⟩ := exists_convert (c := .integer .int64) hx ⟨n, hn, hq⟩
  have htype := convert_type hm
  unfold Value.long
  rw [scalarValue_eq hv, hm]
  cases m with
  | floating => cases htype
  | integer =>
    exact congrArg Except.ok (Int.cast_injective ((Option.some.inj hvalue).trans hq.symm))

theorem double_exact (hv : v.scalar = .ok x) (hx : E.number x = some q)
    (hq : E.Represents (.floating .double) q) :
    ∃ d, v.double P = .ok d ∧ E.value .double d = some q := by
  obtain ⟨m, hm, hvalue, -⟩ := exists_convert (c := .floating .double) hx hq
  have htype := convert_type hm
  unfold Value.double
  rw [scalarValue_eq hv, hm]
  cases m with
  | integer => cases htype
  | floating type y =>
    cases htype
    exact ⟨y, rfl, hvalue⟩

/-- `to_long` gives the number if it is in the range of `long`. -/
theorem toLong_exact (hnumber : e.HasNumber ctx x) (hx : E.number x = some q)
    (hn : IntegerType.int64.Holds n) (hq : (n : ℚ) = q) : (e.impl ctx).toLong = .ok n := by
  cases e with
  | intLiteral value =>
    obtain rfl : x = .integer .int64 value := hnumber
    exact congrArg Except.ok (Int.cast_injective ((Option.some.inj hx).trans hq.symm))
  | floatLiteral value =>
    obtain rfl : x = .floating .double value := hnumber
    have hintegral := E.integral .double n value (hx.trans (congrArg some hq.symm))
    change (Number.floating .double value : Number P.toFloatingPoint).toLong = .ok n
    unfold Number.toLong
    dsimp only
    rw [P.toLong_eq, hintegral, Option.filter_some, if_pos (decide_eq_true hn)]
  | reference referenced =>
    obtain ⟨v, hv, hnumber⟩ := hnumber
    obtain ⟨hread, hscalar⟩ := scalar_of_asRead hnumber
    refine (referenceNumber_eq hv hread referenced _ _).trans ?_
    rw [long_exact hscalar hx hn hq]
    rfl
  | operation =>
    obtain ⟨v, hv, hnumber⟩ := hnumber
    obtain ⟨hread, hscalar⟩ := scalar_of_asRead hnumber
    exact (operationNumber_eq hv hread _).trans (long_exact hscalar hx hn hq)
  | stringLiteral | sequence | mapping => exact hnumber.elim

/-- `to_double` gives the number if it is one of the numbers of `double`. -/
theorem toDouble_exact (hnumber : e.HasNumber ctx x) (hx : E.number x = some q)
    (hq : E.Represents (.floating .double) q) :
    ∃ d, (e.impl ctx).toDouble = .ok d ∧ E.value .double d = some q := by
  cases e with
  | intLiteral value =>
    obtain rfl : x = .integer .int64 value := hnumber
    obtain ⟨y, hy⟩ := hq
    have hvalue : (value : ℚ) = q := Option.some.inj hx
    rw [← hvalue] at hy ⊢
    exact ⟨_, rfl, E.ofInt .double value y hy⟩
  | floatLiteral value =>
    obtain rfl : x = .floating .double value := hnumber
    exact ⟨value, rfl, hx⟩
  | reference referenced =>
    obtain ⟨v, hv, hnumber⟩ := hnumber
    obtain ⟨hread, hscalar⟩ := scalar_of_asRead hnumber
    obtain ⟨d, hd, hvalue⟩ := double_exact hscalar hx hq
    refine ⟨d, (referenceNumber_eq hv hread referenced _ _).trans ?_, hvalue⟩
    rw [hd]
    rfl
  | operation =>
    obtain ⟨v, hv, hnumber⟩ := hnumber
    obtain ⟨hread, hscalar⟩ := scalar_of_asRead hnumber
    obtain ⟨d, hd, hvalue⟩ := double_exact hscalar hx hq
    exact ⟨d, (operationNumber_eq hv hread _).trans hd, hvalue⟩
  | stringLiteral | sequence | mapping => exact hnumber.elim

/-! ## What is left in the block -/

/-- A copy into a block for a scalar throws, or leaves the number there. -/
def Delivers (E : Exactness P) (ctx : DataContext) (copyValue : Datatype → Copy Nat) (s : Scalar)
    (q : ℚ) : Prop :=
  ∀ fresh, Fails Failure.Raised (allocate { ctx with fresh := fresh } copyValue (.scalar s)) ∧
    ∀ v, allocate { ctx with fresh := fresh } copyValue (.scalar s) = .ok v →
      ∃ m, v.scalar = .ok m ∧ E.number m = some q

theorem alignment_ne_zero (hc : numberType s.kind s.denseSize = some c) :
    (Datatype.scalar s).alignment ≠ 0 := by
  intro hzero
  simp only [Datatype.alignment] at hzero
  rcases s.valid with ⟨-, -, -, hkind⟩ | hpow
  · rw [hkind] at hc
    cases hc
  · rw [hzero] at hpow
    cases hpow

variable {copyValue : Datatype → Copy Nat}

section

variable (hc : numberType s.kind s.denseSize = some c)

include hc

theorem delivers_fail {status : Status} {message : String}
    (hcopy : copyValue (.scalar s) = fail (.error status message)) :
    Delivers E ctx copyValue s q := by
  intro fresh
  have hallocate : allocate { ctx with fresh := fresh } copyValue (.scalar s) =
      .error (.error status message) :=
    allocate_error _ _ (alignment_ne_zero hc) (by rw [hcopy]; exact List.forall_mem_nil _)
      (by rw [hcopy]; rfl)
  rw [hallocate]
  exact ⟨(fails_error _).mpr trivial, fun v hv => by cases hv⟩

/-- Bytes at the start of the block leave the number that is read from them and from what
was there behind them. -/
theorem delivers_put {n : Nat}
    (hcopy : copyValue (.scalar s) = ⟨[⟨0, data⟩], .ok n⟩) (hlength : data.length ≤ s.denseSize) :
    Delivers E ctx copyValue s q ↔ ∀ fresh : Mem Byte,
      E.number (.read (data ++ bytes fresh data.length (s.denseSize - data.length)) c) =
        some q := by
  refine forall_congr' fun fresh => ?_
  have hinside : ∀ w ∈ (copyValue (.scalar s)).trace, w.Inside (Datatype.scalar s).buffersize := by
    rw [hcopy]
    intro w hw
    rw [List.mem_singleton.mp hw]
    exact .inr (by simpa [Datatype.buffersize] using hlength)
  have hcontent : bytes (written fresh (copyValue (.scalar s)).trace) 0
      (Datatype.scalar s).buffersize =
      data ++ bytes fresh data.length (s.denseSize - data.length) := by
    rw [hcopy]
    exact bytes_into data fresh hlength
  obtain ⟨v, hallocate, htype, hv⟩ : ∃ v, allocate { ctx with fresh := fresh } copyValue
      (.scalar s) = .ok v ∧ v.type = .scalar s ∧
      v.content = data ++ bytes fresh data.length (s.denseSize - data.length) :=
    ⟨_, allocate_eq_ok.mpr ⟨alignment_ne_zero hc, hinside, ⟨n, by rw [hcopy]⟩, rfl⟩, rfl, hcontent⟩
  have hscalar := scalar_eq_read (P := P) htype hc
  rw [hallocate, ← hv]
  constructor
  · rintro ⟨-, h⟩
    obtain ⟨m, hm, hq⟩ := h v rfl
    rw [Except.ok.inj (hscalar.symm.trans hm)]
    exact hq
  · intro h
    refine ⟨fails_ok _, ?_⟩
    rintro v' hv'
    cases hv'
    exact ⟨_, hscalar, h⟩

/-- Bytes that fill the block. -/
theorem delivers_all {n : Nat}
    (hcopy : copyValue (.scalar s) = ⟨[⟨0, data⟩], .ok n⟩) (hlength : data.length = s.denseSize) :
    Delivers E ctx copyValue s q ↔ E.number (.read data c) = some q := by
  rw [delivers_put hc hcopy hlength.le]
  simp [hlength, bytes]

end

theorem store_ok (h : x.convert c = .ok m) : store c (.ok x) = ⟨[⟨0, m.bytes⟩], .ok c.size⟩ := by
  change (do let n ← lift (x.convert c); put n.bytes; pure c.size : Copy Nat) = _
  rw [h]
  rfl

theorem store_error (h : x.convert c = .error f) : store c (.ok x) = ⟨[], .error f⟩ := by
  change (do let n ← lift (x.convert c); put n.bytes; pure c.size : Copy Nat) = _
  rw [h]
  rfl

theorem length_bytes_convert (h : x.convert c = .ok m) : m.bytes.length = c.size := by
  rw [length_bytes_number, convert_type h]

/-- A number that is stored as the type of the block is read back from it. -/
theorem delivers_store (hc : numberType s.kind s.denseSize = some c)
    (hcopy : copyValue (.scalar s) = store c (.ok x)) (hx : E.number x = some q)
    (hq : E.Represents c q) : Delivers E ctx copyValue s q := by
  obtain ⟨m, hm, hvalue, hread⟩ := exists_convert hx hq
  rw [store_ok hm] at hcopy
  rw [delivers_all hc hcopy ((length_bytes_convert hm).trans (numberType_size hc)), hread]
  exact hvalue

/-! ## Whole data -/

theorem integer_kind (t : IntegerType) : (NumberType.integer t).kind ≠ .float := by
  cases t <;> decide

theorem float_size (h : c.kind = .float) : c.size = 4 ∨ c.size = 8 := by
  cases c with
  | integer t => exact absurd h (integer_kind t)
  | floating f => cases f <;> decide

/-- The bytes of one number as another type are the same number if both are integers, or
both are not, or there is nothing but zeros. -/
theorem read_iff (hlength : data.length = c.size) (hsize : c'.size = c.size)
    (hx : E.number (.read data c') = some q) (hq : E.Represents c q) :
    E.number (.read data c) = some q ↔
      (c'.kind = .float ↔ c.kind = .float) ∨ ∀ b ∈ data, b = 0 := by
  cases c' with
  | integer t' =>
    have hvalue : (t'.wrap (fromLittleEndian data) : ℚ) = q := Option.some.inj hx
    cases c with
    | integer t =>
      obtain ⟨n, hn, hnq⟩ := hq
      have hholds : t.Holds (t'.wrap (fromLittleEndian data)) := by
        rw [← Int.cast_injective (hnq.trans hvalue.symm)]
        exact hn
      refine iff_of_true ?_ (.inl (iff_of_false (integer_kind t') (integer_kind t)))
      change some (t.wrap (fromLittleEndian data) : ℚ) = some q
      rw [wrap_of_same_size hsize hholds, hvalue]
    | floating f =>
      rw [← hvalue, or_iff_right fun h => integer_kind t' (h.mpr rfl)]
      exact E.bits f t' data hlength hsize
  | floating f' =>
    cases c with
    | integer t =>
      rw [or_iff_right fun h => integer_kind t (h.mp rfl),
        ← E.bits f' t data (hlength.trans hsize.symm) hsize.symm]
      change some _ = some q ↔ E.value f' _ = some _
      rw [show E.value f' (P.ofBytes f' data) = some q from hx]
      exact eq_comm
    | floating f =>
      refine iff_of_true ?_ (.inl Iff.rfl)
      obtain rfl : f' = f := by cases f' <;> cases f <;> cases hsize <;> rfl
      exact hx

theorem delivers_whole {ref : Value} {source : Scalar} (hc : numberType s.kind s.denseSize = some c)
    (hsource : ref.type = .scalar source) (hc' : numberType source.kind source.denseSize = some c')
    (hcopy : copyValue (.scalar s) = wholeCopy ref (.scalar s))
    (hx : E.number (.read ref.content c') = some q) (hq : E.Represents c q) :
    Delivers E ctx copyValue s q ↔ (source.denseSize = s.denseSize →
      (source.kind = .float ↔ s.kind = .float) ∨ ∀ b ∈ ref.content, b = 0) := by
  have hbuffer : ref.type.buffersize = source.denseSize := by
    rw [hsource]
    simp only [Datatype.buffersize]
  have hlength : ref.content.length = source.denseSize := ref.length_content.trans hbuffer
  have htarget : (Datatype.scalar s).buffersize = s.denseSize := by simp only [Datatype.buffersize]
  unfold wholeCopy at hcopy
  by_cases hsize : source.denseSize = s.denseSize
  · rw [if_pos (hbuffer.trans (hsize.trans htarget.symm))] at hcopy
    rw [delivers_all hc hcopy (hlength.trans hsize), ← numberType_kind hc, ← numberType_kind hc']
    have hsizes : c'.size = c.size := by rw [numberType_size hc, numberType_size hc', hsize]
    rw [read_iff (by rw [hlength, numberType_size hc, hsize]) hsizes hx hq]
    exact ⟨fun h _ => h, fun h => h hsize⟩
  · rw [if_neg fun h => hsize (hbuffer.symm.trans (h.trans htarget))] at hcopy
    exact iff_of_true (delivers_fail hc hcopy) fun h => absurd h hsize

/-! ## Operations -/

theorem exists_fresh (tail : List Byte) (n : Nat) :
    ∃ fresh : Mem Byte, bytes fresh n tail.length = tail := by
  refine ⟨fun a => (tail[a - n]?).getD 0, List.ext_getElem (by simp) ?_⟩
  intro i hi hi'
  simp [bytes, List.getElem?_eq_getElem hi']

/-- Where the bytes behind the first ones are those that were there, they can be such that
the number is another one. -/
theorem exists_fresh_ne (hlength : data.length < c.size)
    (hfloat : c.kind = .float → data.length = 4) :
    ∃ fresh : Mem Byte,
      E.number (.read (data ++ bytes fresh data.length (c.size - data.length)) c) ≠ some q := by
  cases c with
  | integer t =>
    by_contra hall
    simp only [not_exists, not_not] at hall
    -- zeros and ones behind the first bytes are two numbers
    have hread : ∀ b : Byte, (t.wrap (fromLittleEndian (data ++ bytes (fun _ => b) data.length
        (t.size - data.length))) : ℚ) = q := fun b => Option.some.inj (hall fun _ => b)
    have hlengths : ∀ b : Byte, (data ++ bytes (fun _ => b) data.length
        (t.size - data.length)).length = t.size := by
      intro b
      rw [List.length_append, length_bytes]
      exact Nat.add_sub_of_le hlength.le
    have hsame := wrap_fromLittleEndian_injective (hlengths 0) (hlengths 1)
      (Int.cast_injective ((hread 0).trans (hread 1).symm))
    have htails := (bytes_eq_iff _ _ _ _ _ _).mp (List.append_cancel_left hsame)
    exact absurd (htails.2 0 (Nat.sub_pos_of_lt hlength)) (by decide)
  | floating f =>
    have hfour := hfloat rfl
    cases f with
    | float =>
      rw [hfour] at hlength
      exact absurd hlength (by decide)
    | double =>
      obtain ⟨upper, hupper, hnone⟩ := E.upper data hfour
      obtain ⟨fresh, hfresh⟩ := exists_fresh upper data.length
      refine ⟨fresh, ?_⟩
      rw [hfour, show (NumberType.floating .double).size - 4 = upper.length from hupper.symm,
        ← hfour, hfresh]
      change E.value .double (P.ofBytes .double (data ++ upper)) ≠ some q
      rw [hnone]
      exact Option.some_ne_none q |>.symm

theorem convert_undefined (h : x.convert c = .error f) : ¬ f.Raised := by
  unfold Number.convert at h
  split at h <;> split at h <;> (try split at h) <;> (try split at h) <;> cases h <;> exact id

/-- A number that is stored as a type of another size than the block is not kept there. -/
theorem not_delivers_store (hc : numberType s.kind s.denseSize = some c)
    (hc' : numberType s.kind s.size = some c') (hsize : s.size ≠ s.denseSize)
    (hcopy : copyValue (.scalar s) = store c' (.ok x)) : ¬ Delivers E ctx copyValue s q := by
  intro h
  cases hm : x.convert c' with
  | error f =>
    rw [store_error hm] at hcopy
    have hallocate := allocate_error ctx copyValue (alignment_ne_zero hc)
      (by rw [hcopy]; exact List.forall_mem_nil _) (by rw [hcopy])
    exact convert_undefined hm ((h ctx.fresh).1 f hallocate)
  | ok m =>
    rw [store_ok hm] at hcopy
    have hlength : m.bytes.length = s.size := (length_bytes_convert hm).trans (numberType_size hc')
    rcases Nat.lt_or_gt_of_ne hsize with hlt | hgt
    · rw [delivers_put hc hcopy (hlength.trans_le hlt.le), ← numberType_size hc] at h
      have hfloat : c.kind = .float → m.bytes.length = 4 := by
        intro hkind
        have hkind' : c'.kind = .float := by
          rw [numberType_kind hc', ← numberType_kind hc, hkind]
        have hsizes := float_size hkind
        have hsizes' := float_size hkind'
        rw [numberType_size hc] at hsizes
        rw [numberType_size hc'] at hsizes'
        omega
      obtain ⟨fresh, hne⟩ := exists_fresh_ne (E := E) (q := q)
        (by rw [hlength, numberType_size hc]; exact hlt) hfloat
      exact hne (h fresh)
    · have hnot : ¬ (⟨0, m.bytes⟩ : Write).Inside (Datatype.scalar s).buffersize := by
        simp only [Write.Inside, Room, Datatype.buffersize, hlength]
        omega
      have hallocate := allocate_outside ctx copyValue (alignment_ne_zero hc)
        ⟨_, by rw [hcopy]; exact List.mem_singleton_self _, hnot⟩
      exact (h ctx.fresh).1 _ hallocate

/-! ## Expressions -/

/-- What converts the number to the type of the block, or throws. -/
theorem Stores.delivers {target : Option NumberType}
    (h : Stores target (.ok x) (copyValue (.scalar s)))
    (htarget : target = none ∨ target = some c) (hc : numberType s.kind s.denseSize = some c)
    (hx : E.number x = some q) (hq : E.Represents c q) : Delivers E ctx copyValue s q := by
  rcases htarget with rfl | rfl
  · obtain ⟨status, message, hcopy⟩ := h
    exact delivers_fail hc hcopy
  · exact delivers_store hc h hx hq

section

variable (hc : numberType s.kind s.denseSize = some c)

include hc

theorem integerTarget_scalar :
    integerTarget (.scalar s) = none ∨ integerTarget (.scalar s) = some c := by
  unfold integerTarget
  rw [show bufferTarget (.scalar s) = some c from hc]
  cases c with
  | integer => exact .inr rfl
  | floating => exact .inl rfl

theorem floatTarget_scalar : floatTarget (.scalar s) = none ∨ floatTarget (.scalar s) = some c := by
  unfold floatTarget
  rw [show bufferTarget (.scalar s) = some c from hc]
  cases c with
  | integer => exact .inl rfl
  | floating => exact .inr rfl

end

theorem scalar_eq_ok (h : v.scalar = .ok x) : ∃ source c, v.type = .scalar source ∧
    numberType source.kind source.denseSize = some c ∧ x = .read v.content c := by
  have h' := h
  unfold Value.scalar at h
  split at h
  · rename_i source htype
    cases hc : numberType source.kind source.denseSize with
    | none =>
      rw [hc] at h
      cases hkind : source.kind <;> rw [hkind] at h <;> cases h
    | some c =>
      exact ⟨source, c, htype, hc, Except.ok.inj (h'.symm.trans (scalar_eq_read htype hc))⟩
  · cases h

theorem copyValue_reference {referenced format : Cursor.Text} {subelements : Subelements P}
    (hv : ((Form.reference referenced format subelements).impl ctx).toRef = .ok v)
    (hread : v.readable = true) (type : Datatype) :
    ((Form.reference referenced format subelements).impl ctx).copyValue type =
      if (subelements.impls ctx).isEmpty then wholeCopy v type else indexedCopy P v type := by
  change referenceCopy P _ (referenceRef ctx referenced (subelements.impls ctx)) type = _
  rw [show referenceRef ctx referenced (subelements.impls ctx) = .ok v from hv]
  change (if v.readable then _ else _ : Copy Nat) = _
  rw [if_pos hread]

/-- A reference to the whole of some data. -/
theorem delivers_name_iff {referenced format : Cursor.Text}
    (hv : ((Form.reference referenced format .nil : Form P).impl ctx).toRef = .ok v)
    (hread : v.readable = true) (hscalar : v.scalar = .ok x) (hx : E.number x = some q)
    (hc : numberType s.kind s.denseSize = some c) (hq : E.Represents c q) :
    Delivers E ctx ((Form.reference referenced format .nil : Form P).impl ctx).copyValue s q ↔
      (Form.reference referenced format .nil : Form P).Converts ctx s := by
  obtain ⟨source, c', htype, hc', rfl⟩ := scalar_eq_ok hscalar
  obtain ⟨ref, href, hvalue⟩ := bind_eq_ok.mp hv
  obtain rfl : ctx.value ref = v := Except.ok.inj hvalue
  cases ref with
  | none => cases hread
  | some ref =>
    rw [delivers_whole hc htype hc' (copyValue_reference hv hread _) hx hq]
    have hcontent : source.denseSize = s.denseSize →
        (ctx.value (some ref)).content = bytes ctx.mem ref.data s.denseSize := by
      intro hsize
      change bytes ctx.mem ref.data ref.type.buffersize = _
      rw [show ref.type = .scalar source from htype, ← hsize]
      simp only [Datatype.buffersize]
    constructor
    · rintro h ref' source' href' htype' hsize
      obtain rfl : ref = ref' := Option.some.inj (Except.ok.inj (href.symm.trans href'))
      obtain rfl : source = source' := Datatype.scalar.inj (htype.symm.trans htype')
      rw [← hcontent hsize]
      exact h hsize
    · intro h hsize
      rw [hcontent hsize]
      exact h ref source href htype hsize

theorem delivers_operation_iff {first : Form P} {operands : FormOperands P}
    (hv : ((Form.operation first operands).impl ctx).toRef = .ok v)
    (hscalar : v.asRead.scalar = .ok x)
    (hx : E.number x = some q) (hc : numberType s.kind s.denseSize = some c)
    (hq : E.Represents c q) :
    Delivers E ctx ((Form.operation first operands).impl ctx).copyValue s q ↔
      (Form.operation first operands).Converts ctx s := by
  have hcopy : ((Form.operation first operands).impl ctx).copyValue (.scalar s) =
      computedCopy P v.asRead (.scalar s) := by
    change operationCopy P (operationRef (first.impl ctx) (operands.impls ctx)) (.scalar s) = _
    rw [show operationRef (first.impl ctx) (operands.impls ctx) = .ok v from hv]
    rfl
  have hstores := stores_computed (P := P) v.asRead (.scalar s)
  rw [hscalar, ← hcopy] at hstores
  cases hc' : numberType s.kind s.size with
  | none => exact iff_of_true (hstores.delivers (.inl hc') hc hx hq) (.inl hc')
  | some c' =>
    by_cases hsize : s.size = s.denseSize
    · have htarget : dataTarget (.scalar s) = some c := by
        rw [← hc, ← hsize]
        rfl
      exact iff_of_true (hstores.delivers (.inr htarget) hc hx hq) (.inr hsize)
    · rw [show dataTarget (.scalar s) = some c' from hc'] at hstores
      refine iff_of_false (not_delivers_store hc hc' hsize hstores) ?_
      rintro (hnone | hsame)
      · cases hc'.symm.trans hnone
      · exact hsize hsame

theorem keepsNumber_iff_delivers (hnumber : e.HasNumber ctx x) (hx : E.number x = some q) :
    e.KeepsNumber E ctx s q ↔ Delivers E ctx (e.impl ctx).copyValue s q := by
  constructor
  · intro h fresh
    exact ⟨h.throws fresh, h.reads fresh⟩
  · intro h
    exact ⟨fun n hn hq => toLong_exact hnumber hx hn hq, fun hq => toDouble_exact hnumber hx hq,
      fun fresh => (h fresh).1, fun fresh => (h fresh).2⟩

/-- Evaluation as a type that can represent the number keeps it exactly if bytes are
copied between numbers of one kind only, and the data of the type of an operation fills
its buffer. -/
theorem keepsNumber_iff (E : Exactness P) (ctx : DataContext) (e : Form P)
    (x : Number P.toFloatingPoint) (q : ℚ) (s : Scalar) (c : NumberType)
    (hnumber : e.HasNumber ctx x) (hx : E.number x = some q)
    (hc : numberType s.kind s.denseSize = some c) (hq : E.Represents c q) :
    e.KeepsNumber E ctx s q ↔ e.Converts ctx s := by
  rw [keepsNumber_iff_delivers hnumber hx]
  cases e with
  | intLiteral value =>
    obtain rfl : x = .integer .int64 value := hnumber
    exact iff_of_true ((stores_intLiteral (P := P) value (.scalar s)).delivers
      (integerTarget_scalar hc) hc hx hq) trivial
  | floatLiteral value =>
    obtain rfl : x = .floating .double value := hnumber
    exact iff_of_true ((stores_floatLiteral value (.scalar s)).delivers
      (floatTarget_scalar hc) hc hx hq) trivial
  | reference referenced format subelements =>
    obtain ⟨v, hv, hnumber⟩ := hnumber
    obtain ⟨hread, hscalar⟩ := scalar_of_asRead hnumber
    cases subelements with
    | nil => exact delivers_name_iff hv hread hscalar hx hc hq
    | index | member =>
      have hstores := stores_indexed (P := P) v (.scalar s)
      rw [hscalar, ← show _ = indexedCopy P v _ from copyValue_reference hv hread (.scalar s)]
        at hstores
      exact iff_of_true (hstores.delivers (.inr hc) hc hx hq) trivial
  | operation =>
    obtain ⟨v, hv, hscalar⟩ := hnumber
    exact delivers_operation_iff hv hscalar hx hc hq
  | stringLiteral | sequence | mapping => exact hnumber.elim

/-- The literal 7 as an integer of four bytes. -/
theorem keepsNumber_literal :
    (Form.intLiteral 7 : Form interchange).KeepsNumber interchangeExact nothingShared
      (Scalar.make .signed 4 4 (by decide)) 7 :=
  (keepsNumber_iff interchangeExact nothingShared (.intLiteral 7) (.integer .int64 7) 7
    (Scalar.make .signed 4 4 (by decide)) (.integer .int32) rfl rfl rfl
    ⟨7, by decide, rfl⟩).mpr trivial

/-- The number 5 in eight bytes. -/
def five : Mem Byte := fun a => if a = 0 then 5 else 0

theorem wrap_five : IntegerType.int64.wrap (fromLittleEndian (bytes five 0 8)) = 5 := by
  have hbytes : fromLittleEndian (bytes five 0 8) = 5 := by decide
  rw [hbytes, wrap_of_holds (by decide)]

theorem read_five : (Number.read (bytes five 0 8) (.integer .int64) :
    Number interchange.toFloatingPoint) = .integer .int64 5 :=
  congrArg (Number.integer .int64) wrap_five

theorem represents_five : interchangeExact.Represents (.floating .double) 5 := by
  have hfit : Ieee.binary64.Fit ⟨false, 1025, 2 ^ 50⟩ := ⟨by decide, by decide⟩
  refine ⟨⟨Ieee.binary64.word ⟨false, 1025, 2 ^ 50⟩, Ieee.Format.word_lt hfit⟩, ?_⟩
  rw [interchangeExact_value, show FloatType.double.format = Ieee.binary64 from rfl,
    Ieee.Format.value_word hfit]
  refine Ieee.Format.number_eq_some.mpr ⟨by decide, ?_⟩
  have hsignificand : Ieee.binary64.significand ⟨false, 1025, 2 ^ 50⟩ = 5 * 2 ^ 50 := by decide
  have hscale : Ieee.binary64.scale = 50 + 1025 := by decide
  have hexponent : max (⟨false, 1025, 2 ^ 50⟩ : Ieee.Fields).exponent 1 = 1025 := rfl
  refine (Ieee.Format.magnitude_eq_natCast.mpr ?_ : _ = ((5 : Nat) : ℚ))
  rw [hsignificand, hscale, hexponent, Nat.pow_add, Nat.mul_assoc]

/-- The number 5 in an integer of eight bytes, evaluated as a `double`. Its bytes are those of
another number, while 5 is a number of `double`. -/
theorem bytes_of_integer_as_double :
    let ctx := sharing (dataOf (NumberType.integer .int64).datatype) five
    let e : Form interchange := .reference ['n'] [] .nil
    (e.impl ctx).toLong = .ok 5 ∧ interchangeExact.Represents (.floating .double) 5 ∧
      ∃ v m, e.toRefAs ctx (fun _ => 0) (NumberType.floating .double).datatype = .ok v ∧
        v.scalar = .ok m ∧ interchangeExact.number m ≠ some 5 := by
  have hnumber : (Form.reference ['n'] [] .nil : Form interchange).HasNumber
      (sharing (dataOf (NumberType.integer .int64).datatype) five) (.integer .int64 5) :=
    ⟨_, rfl, (scalar_eq_read (P := interchange) rfl rfl).trans (congrArg Except.ok read_five)⟩
  refine ⟨toLong_exact (E := interchangeExact) hnumber rfl (by decide) rfl, represents_five, ?_⟩
  refine ⟨_, _, rfl, scalar_eq_read (P := interchange) rfl rfl, ?_⟩
  intro h
  have hzeros := (interchangeExact.bits .double .int64 (bytes five 0 8) rfl rfl).mp (by
    rw [wrap_five]
    exact h)
  exact absurd (hzeros 5 List.mem_cons_self) (by decide)

end Pdi.Expression
