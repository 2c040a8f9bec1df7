import Pdi.Reference
import Pdi.Sizes

/-!
# Sub-access and the region of the parent

A sub-reference has an address and a type, and with it a region of `buffersize()`
bytes. For data without pointers it should lie inside the region that it was taken
from. All sizes are `size_t`: the region of an array of 2^64 bytes or more is too
small for its elements. Otherwise indices and members lie inside, and a slice of an
array does if its bounds are in order. A slice of a tuple ends where the element after
the next one starts: it is bad if there is no such element, or if the elements are not
in the order of their offsets.
-/
namespace Pdi.SubAccess

open Pdi.Datatypes Pdi.Reference Pdi.Memory Pdi.Machine

variable {n d base last stop first size start subsize data : Nat} {type subtype t : Datatype}
  {elements : Members} {attributes : Attributes} {mem : Mem Byte} {accesses : List Access}

mutual

/-- No pointers, array windows within their sizes, and members inside the buffer.
Sizes are of type `size_t`. -/
def Contained : Datatype → Prop
  | .scalar _ => True
  | .array subtype size start subsize _ =>
    Contained subtype ∧ start + subsize ≤ size ∧ size < 2 ^ 64
  | .record members buffersize _ => MembersContained buffersize members ∧ buffersize < 2 ^ 64
  | .tuple elements buffersize _ => MembersContained buffersize elements ∧ buffersize < 2 ^ 64
  | .pointer _ _ _ _ => False

def MembersContained (n : Nat) : Members → Prop
  | .nil => True
  | .cons d type _ rest => d + buffersize type ≤ n ∧ Contained type ∧ MembersContained n rest

end

/-- An access where the offset of an element of an array is a product of type `size_t`. -/
def access (a : Access) (t : Datatype) (data : Nat) (mem : Mem Byte) :
    Except Failure (Nat × Datatype) :=
  match t, a with
  | .array subtype _ start _ _, .index i => (a.apply t data mem).map fun part =>
      (data + wrap (buffersize subtype * wrap (start + i)), part.2)
  | .array subtype _ start _ _, .slice first _ => (a.apply t data mem).map fun part =>
      (data + wrap (buffersize subtype * wrap (start + first)), part.2)
  | _, _ => a.apply t data mem

/-- The arguments are of type `size_t`. -/
def Unsigned : Access → Prop
  | .index i => i < 2 ^ 64
  | .slice first stop => first < 2 ^ 64 ∧ stop < 2 ^ 64
  | _ => True

/-- The region of the part at `data'` lies inside the region of the data at `data`. -/
def RegionInside (data : Nat) (t : Datatype) (data' : Nat) (t' : Datatype) : Prop :=
  data ≤ data' ∧ data' + buffersize t' ≤ data + buffersize t

/-- The access throws, as opposed to doing something undefined. -/
def Throws : Failure → Prop
  | .undefined _ => False
  | _ => True

/-- Every step of a chain throws or stays inside what it was taken from. -/
def AllInside (mem : Mem Byte) : List Access → Datatype → Nat → Prop
  | [], _, _ => True
  | a :: rest, t, data =>
    match access a t data mem with
    | .ok (data', t') => RegionInside data t data' t' ∧ AllInside mem rest t' data'
    | .error e => Throws e

/-- The displacement at which a slice of a tuple ends. -/
def sliceEnd (elements : Members) (buffersize stop : Nat) : Option Nat :=
  if stop = elements.length then some buffersize else (elements.get? (stop + 1)).map Prod.fst

/-- An array has less than 2^64 bytes, and a slice of it has its bounds in order, or starts
so far behind its end that the start wraps around to a place in front of it. A slice of a
tuple starts at an element, and ends somewhere unless it is refused; its elements lie between
the start of the first one and its end. -/
def Allowed : Datatype → Access → Prop
  | .array subtype size _ subsize _, .index i => i < subsize → size * buffersize subtype < 2 ^ 64
  | .array subtype size start subsize _, .slice first stop => stop ≤ subsize →
      size * buffersize subtype < 2 ^ 64 ∧
        (first ≤ stop ∨ 2 ^ 64 ≤ start + first ∨ buffersize subtype = 0)
  | .tuple elements n _, .slice first stop =>
    ∃ base type, elements.get? first = some (base, type) ∧
      (stop ≤ elements.length → ∃ last, sliceEnd elements n stop = some last ∧
        base ≤ last ∧ ∀ i d type, first ≤ i → i < stop → elements.get? i = some (d, type) →
          base ≤ d ∧ d + buffersize type ≤ last)
  | _, _ => True

def AllAllowed (mem : Mem Byte) : List Access → Datatype → Nat → Prop
  | [], _, _ => True
  | a :: rest, t, data =>
    Allowed t a ∧
      match access a t data mem with
      | .ok (data', t') => AllAllowed mem rest t' data'
      | .error _ => True

/-! ## Members and windows -/

theorem membersContained_iff {m : Members} : MembersContained n m ↔
    ∀ i d type, m.get? i = some (d, type) → d + buffersize type ≤ n ∧ Contained type := by
  cases m with
  | nil => simp [MembersContained, Members.get?]
  | cons d type =>
    rw [MembersContained, membersContained_iff]
    constructor
    · rintro ⟨hle, hcontained, hrest⟩ (_ | i) d' type' hget
      · obtain ⟨rfl, rfl⟩ := Prod.mk.inj (Option.some.inj hget)
        exact ⟨hle, hcontained⟩
      · exact hrest i d' type' hget
    · intro h
      obtain ⟨hle, hcontained⟩ := h 0 d type rfl
      exact ⟨hle, hcontained, fun i d' type' hget => h (i + 1) d' type' hget⟩

theorem membersMeasured_window : ∀ {m : Members} (first stop : Nat), MembersMeasured m →
    MembersMeasured (m.window base first stop)
  | .nil, _, _, _ => trivial
  | .cons _ _ _ _, _, 0, _ => trivial
  | .cons _ _ _ _, 0, stop + 1, h => ⟨h.1, membersMeasured_window 0 stop h.2⟩
  | .cons _ _ _ _, first + 1, stop + 1, h => membersMeasured_window first stop h.2

/-- The elements of a window are displaced ones of the whole. -/
theorem get?_window (base : Nat) : ∀ (m : Members) (first stop j : Nat),
    (m.window base first stop).get? j =
      if first + j < stop then (m.get? (first + j)).map fun x => (sizeSub x.1 base, x.2) else none
  | .nil, first, stop, j | .cons d type name rest, first, 0, j
  | .cons d type name rest, 0, stop + 1, 0 => by simp [Members.window, Members.get?]
  | .cons d type name rest, 0, stop + 1, j + 1 => by
    have h := get?_window base rest 0 stop j
    simp only [Nat.zero_add, Members.window, Members.get?] at h ⊢
    rw [h]
    simp
  | .cons d type name rest, first + 1, stop + 1, j => by
    have h := get?_window base rest first stop j
    have hadd : first + 1 + j = first + j + 1 := by omega
    simp only [Members.window, hadd, Members.get?, h]
    simp

theorem sizeSub_of_le {a b : Nat} (h : b ≤ a) : sizeSub a b = a - b := if_pos h

theorem sizeSub_of_lt {a b : Nat} (h : a < b) : sizeSub a b = a + 2 ^ 64 - b :=
  if_neg (Nat.not_le_of_lt h)

/-- Elements lie inside the window exactly when their displacements do not wrap. -/
theorem displaced_le_iff (hbase : base ≤ last) (hlast : last < 2 ^ 64) :
    sizeSub d base + n ≤ last - base ↔ base ≤ d ∧ d + n ≤ last := by
  by_cases h : base ≤ d
  · rw [sizeSub_of_le h]
    omega
  · rw [sizeSub_of_lt (Nat.lt_of_not_le h)]
    omega

/-! ## One access -/

section Access

variable {t' : Datatype} {data' : Nat} {a : Access}

theorem sliceEnd_le (h : MembersContained n elements)
    (hend : sliceEnd elements n stop = some last) : last ≤ n := by
  unfold sliceEnd at hend
  split at hend
  · exact Nat.le_of_eq (Option.some.inj hend).symm
  · obtain ⟨x, hx, rfl⟩ := Option.map_eq_some_iff.mp hend
    have := (membersContained_iff.mp h _ x.1 x.2 hx).1
    omega

/-- What a slice of a tuple does. -/
theorem tupleSlice_eq (hfirst : elements.get? first = some (base, type)) :
    tupleSlice elements n first stop data =
      if stop ≤ elements.length then
        match sliceEnd elements n stop with
        | some last =>
          .ok (data + base, .tuple (elements.window base first stop) (sizeSub last base) [])
        | none => .error (.undefined "offset of an element that does not exist")
      else .error (valueError ("Subaccess tuple slice out of range: [" ++ toString first ++ ":" ++
        toString stop ++ "] > " ++ toString elements.length)) := by
  simp only [tupleSlice, hfirst, sliceEnd]
  split
  · split
    · rfl
    · cases elements.get? (stop + 1) with
      | none | some => rfl
  · rfl

/-- A step throws, or stays inside and gives a type that is contained again. -/
def Stays (t : Datatype) (data : Nat) : Except Failure (Nat × Datatype) → Prop
  | .ok (data', t') => RegionInside data t data' t' ∧ Contained t'
  | .error e => Throws e

theorem stays_index (ht : Contained t) (i : Nat) (hallowed : Allowed t (.index i)) :
    Stays t data (access (.index i) t data mem) := by
  cases t with
  | scalar | record => trivial
  | pointer => exact absurd ht id
  | array subtype size start =>
    obtain ⟨hsub, hwindow, hsize⟩ := ht
    rw [access, Access.apply, Datatype.index]
    split
    · next hi =>
      refine ⟨⟨Nat.le_add_right _ _, ?_⟩, hsub⟩
      have hwhole := hallowed hi
      have hle : (start + i + 1) * buffersize subtype ≤ size * buffersize subtype :=
        Nat.mul_le_mul_right _ (by omega)
      rw [Nat.add_mul, Nat.one_mul] at hle
      rw [buffersize, wrap_of_lt hwhole, wrap_of_lt (by omega : start + i < 2 ^ 64),
        Nat.mul_comm, wrap_of_lt (by omega)]
      dsimp only
      omega
    · trivial
  | tuple =>
    rw [access, Access.apply, Datatype.index]
    · split
      · next offset type hget =>
        obtain ⟨hle, hcontained⟩ := membersContained_iff.mp ht.1 i offset type hget
        refine ⟨⟨Nat.le_add_right _ _, ?_⟩, hcontained⟩
        rw [buffersize, wrap_of_lt ht.2]
        omega
      · trivial
    all_goals
      intros
      contradiction

theorem stays_member (ht : Contained t) (name : String) :
    Stays t data (access (.member name) t data mem) := by
  cases t with
  | scalar | array | tuple => trivial
  | pointer => exact absurd ht id
  | record =>
    rw [access, Access.apply, Datatype.member]
    · split
      · next d type hfind =>
        obtain ⟨i, hget⟩ := Members.get?_of_find? hfind
        obtain ⟨hle, hcontained⟩ := membersContained_iff.mp ht.1 i d type hget
        refine ⟨⟨Nat.le_add_right _ _, ?_⟩, hcontained⟩
        rw [buffersize, wrap_of_lt ht.2]
        omega
      · trivial
    all_goals
      intros
      contradiction

theorem sizeSub_lt (hstop : stop < 2 ^ 64) : sizeSub stop first < 2 ^ 64 := by
  by_cases h : first ≤ stop
  · rw [sizeSub_of_le h]
    omega
  · rw [sizeSub_of_lt (Nat.lt_of_not_le h)]
    omega

/-- The elements of an allowed slice are some of the array. -/
theorem wrap_start_add (hfirst : first < 2 ^ 64) (hend : start + stop ≤ size)
    (hsize : size < 2 ^ 64) (horder : first ≤ stop ∨ 2 ^ 64 ≤ start + first) :
    wrap (start + first) + sizeSub stop first = start + stop := by
  by_cases h : first ≤ stop
  · rw [sizeSub_of_le h, wrap_of_lt (by omega)]
    omega
  · have hwrap : wrap (start + first) = start + first - 2 ^ 64 := by
      rw [wrap, Nat.mod_eq_sub_mod (by omega), Nat.mod_eq_of_lt (by omega)]
    rw [sizeSub_of_lt (Nat.lt_of_not_le h), hwrap]
    omega

theorem stays_slice_array (ht : Contained (.array subtype size start subsize attributes))
    (hargs : Unsigned (.slice first stop))
    (hallowed : Allowed (.array subtype size start subsize attributes) (.slice first stop)) :
    Stays (.array subtype size start subsize attributes) data
      (access (.slice first stop) (.array subtype size start subsize attributes) data mem) := by
  obtain ⟨hsub, hwindow, hsize⟩ := ht
  rw [access, Access.apply, Datatype.slice]
  split
  · next hstop =>
    refine ⟨⟨Nat.le_add_right _ _, ?_⟩, hsub, by simp, sizeSub_lt (by omega)⟩
    obtain ⟨hwhole, horder⟩ := hallowed hstop
    simp only [buffersize, wrap_of_lt hwhole]
    obtain hzero | hpos := Nat.eq_zero_or_pos (buffersize subtype)
    · simp [hzero, wrap]
    · have hplace := wrap_start_add hargs.1 (by omega) hsize
        (horder.imp_right (Or.resolve_right · (by omega)))
      have hle : (wrap (start + first) + sizeSub stop first) * buffersize subtype ≤
          size * buffersize subtype := Nat.mul_le_mul_right _ (by omega)
      rw [Nat.add_mul] at hle
      have hoffset : wrap (buffersize subtype * wrap (start + first)) =
          wrap (start + first) * buffersize subtype := by
        rw [Nat.mul_comm]
        exact wrap_of_lt (by omega)
      rw [hoffset, wrap_of_lt (by omega : sizeSub stop first * buffersize subtype < 2 ^ 64)]
      omega
  · trivial

theorem stays_slice_tuple (ht : Contained (.tuple elements n attributes))
    (hallowed : Allowed (.tuple elements n attributes) (.slice first stop)) :
    Stays (.tuple elements n attributes) data
      (access (.slice first stop) (.tuple elements n attributes) data mem) := by
  obtain ⟨helements, hn⟩ := ht
  obtain ⟨base, type, hfirst, hwindow⟩ := hallowed
  change Stays _ _ (tupleSlice elements n first stop data)
  rw [tupleSlice_eq hfirst]
  split
  · next hstop =>
    obtain ⟨last, hlast, hle, hinside⟩ := hwindow hstop
    have hlast_le := sliceEnd_le helements hlast
    rw [hlast]
    refine ⟨⟨Nat.le_add_right _ _, ?_⟩, membersContained_iff.mpr ?_, ?_⟩
    · rw [buffersize, buffersize, sizeSub_of_le hle, wrap_of_lt hn, wrap_of_lt (by omega)]
      omega
    · intro j d type hget
      rw [get?_window] at hget
      split at hget
      · next hj =>
        obtain ⟨x, hx, heq⟩ := Option.map_eq_some_iff.mp hget
        obtain ⟨rfl, rfl⟩ := Prod.mk.inj heq
        have hx' := hinside (first + j) x.1 x.2 (Nat.le_add_right _ _) hj hx
        refine ⟨?_, (membersContained_iff.mp helements _ x.1 x.2 hx).2⟩
        rw [sizeSub_of_le hle]
        exact (displaced_le_iff hle (by omega)).mpr hx'
      · cases hget
    · rw [sizeSub_of_le hle]
      omega
  · trivial

theorem stays_of_allowed (ht : Contained t) (hargs : Unsigned a) (hallowed : Allowed t a) :
    Stays t data (access a t data mem) := by
  cases a with
  | index i => exact stays_index ht i hallowed
  | member name => exact stays_member ht name
  | slice =>
    cases t with
    | scalar | record => trivial
    | pointer => exact absurd ht id
    | array => exact stays_slice_array ht hargs hallowed
    | tuple => exact stays_slice_tuple ht hallowed
  | dereference =>
    cases t with
    | scalar | array | record | tuple => trivial
    | pointer => exact absurd ht id

/-- If the bounds are not in order, the slice has 2^64 bytes or more and some element of it
lies behind its region, or it ends behind the array. -/
theorem wrapped_slice_outside {b : Nat} (hb : 0 < b) (hwhole : size * b < 2 ^ 64)
    (horder : stop < first) (hstart : start + first < 2 ^ 64)
    (hindex : ∀ i < sizeSub stop first, wrap (b * i) + b ≤ wrap (sizeSub stop first * b)) :
    size * b < wrap (b * (start + first)) + wrap (sizeSub stop first * b) := by
  rw [sizeSub_of_lt horder] at hindex ⊢
  obtain ⟨n, hn⟩ : ∃ n, n = stop + 2 ^ 64 - first := ⟨_, rfl⟩
  rw [← hn] at hindex ⊢
  by_cases hlarge : n * b < 2 ^ 64
  · -- the start is `n - (start + stop)` elements in front of 2^64
    obtain ⟨q, hq⟩ : ∃ q, n = start + stop + q := ⟨n - (start + stop), by omega⟩
    have hplace : start + first + q = 2 ^ 64 := by omega
    have hqb : q * b ≤ n * b := Nat.mul_le_mul_right _ (by omega)
    have hqpos : 0 < q * b := Nat.mul_pos (by omega) hb
    have hmul : b * (start + first) + q * b = b * 2 ^ 64 := by
      rw [← hplace, Nat.mul_add b (start + first), Nat.mul_comm q]
    have hfirst : wrap (b * (start + first)) = 2 ^ 64 - q * b := by
      have hsplit : b * (start + first) = (b - 1) * 2 ^ 64 + (2 ^ 64 - q * b) := by
        obtain ⟨c, rfl⟩ : ∃ c, b = c + 1 := ⟨b - 1, by omega⟩
        have hturns : (c + 1) * 2 ^ 64 = c * 2 ^ 64 + 2 ^ 64 := Nat.succ_mul c _
        rw [Nat.add_sub_cancel]
        omega
      rw [hsplit, wrap, Nat.mul_add_mod_self_right, Nat.mod_eq_of_lt (by omega)]
    rw [hfirst, wrap_of_lt hlarge]
    omega
  · obtain ⟨i, hi⟩ : ∃ i, i = (2 ^ 64 - 1) / b := ⟨_, rfl⟩
    have hdiv := Nat.div_add_mod (2 ^ 64 - 1) b
    have hmod := Nat.mod_lt (2 ^ 64 - 1) hb
    rw [← hi] at hdiv
    have hlt : i < n := by
      by_contra hge
      have := Nat.mul_le_mul_left b (Nat.le_of_not_lt hge)
      rw [Nat.mul_comm b n] at this
      omega
    have hle := hindex i hlt
    rw [wrap_of_lt (by omega : b * i < 2 ^ 64)] at hle
    have := Nat.mod_lt (n * b) (Nat.two_pow_pos 64)
    unfold wrap at hle
    omega

theorem allowed_slice_array (ht : Contained (.array subtype size start subsize attributes))
    (hwhole : size * buffersize subtype < 2 ^ 64)
    (h : ∀ i, AllInside mem [.slice first stop, .index i]
      (.array subtype size start subsize attributes) data) :
    Allowed (.array subtype size start subsize attributes) (.slice first stop) := by
  intro hstop
  refine ⟨hwhole, ?_⟩
  obtain ⟨-, hwindow, hsize⟩ := ht
  by_contra hnot
  simp only [not_or, Nat.not_le] at hnot
  obtain ⟨horder, hstart, hzero⟩ := hnot
  simp only [AllInside, access, Access.apply, Datatype.slice, if_pos hstop, Except.map] at h
  have hle := (h 0).1.2
  simp only [buffersize, wrap_of_lt hwhole, wrap_of_lt hstart] at hle
  have hout := wrapped_slice_outside (Nat.pos_of_ne_zero hzero) hwhole horder hstart
    fun i hi => ?_
  · omega
  · have hindex := (h i).2
    simp only [Datatype.index, if_pos hi, and_true, Nat.zero_add] at hindex
    have hinside := hindex.2
    have hlt : i < 2 ^ 64 := hi.trans (sizeSub_lt (by omega))
    simp only [buffersize, wrap_of_lt hlt] at hinside
    omega

theorem allowed_slice_tuple (ht : Contained (.tuple elements n attributes))
    (h : ∀ i, AllInside mem [.slice first stop, .index i] (.tuple elements n attributes) data) :
    Allowed (.tuple elements n attributes) (.slice first stop) := by
  simp only [AllInside, access, Access.apply, Datatype.slice] at h
  cases hfirst : elements.get? first with
  | none =>
    simp only [tupleSlice, hfirst] at h
    exact absurd (h 0) id
  | some x =>
    obtain ⟨base, type⟩ := x
    refine ⟨base, type, hfirst, fun hstop => ?_⟩
    simp only [tupleSlice_eq hfirst, if_pos hstop] at h
    cases hlast : sliceEnd elements n stop with
    | none =>
      simp only [hlast] at h
      exact absurd (h 0) id
    | some last =>
      have hlast_le := sliceEnd_le ht.1 hlast
      simp only [hlast] at h
      have hle : base ≤ last := by
        by_contra hlt
        have hinside := (h 0).1.2
        have hn := ht.2
        rw [buffersize, buffersize, sizeSub_of_lt (Nat.lt_of_not_le hlt), wrap_of_lt hn,
          wrap_of_lt (by omega)] at hinside
        omega
      refine ⟨last, rfl, hle, fun i d type' hi hlt hget => ?_⟩
      have hwindow : (elements.window base first stop).get? (i - first) =
          some (sizeSub d base, type') := by
        rw [get?_window, Nat.add_sub_of_le hi, if_pos hlt, hget]
        rfl
      have hindex := (h (i - first)).2
      simp only [Datatype.index, hwindow, and_true] at hindex
      have hinside := hindex.2
      have hn := ht.2
      rw [buffersize, sizeSub_of_le hle, wrap_of_lt (by omega)] at hinside
      exact (displaced_le_iff hle (by omega)).mp (by omega)

/-- Otherwise the slice, or an index into it, leaves the region. -/
theorem allowed_of_inside (ht : Contained t) (hsize : Measured t)
    (h : ∀ i, AllInside mem [a, .index i] t data) : Allowed t a := by
  have hwhole {subtype : Datatype} {size start subsize : Nat} {attributes : Attributes}
      (hsize : Measured (.array subtype size start subsize attributes)) :
      size * buffersize subtype < 2 ^ 64 := by
    rw [buffersize_of_measured hsize.2]
    exact hsize.1
  cases a with
  | member | dereference => cases t <;> trivial
  | index =>
    cases t with
    | scalar | record | tuple | pointer => trivial
    | array => exact fun _ => hwhole hsize
  | slice =>
    cases t with
    | scalar | record | pointer => trivial
    | array => exact allowed_slice_array ht (hwhole hsize) h
    | tuple => exact allowed_slice_tuple ht h

/-- An allowed access leads to a type of less than 2^64 bytes again. -/
theorem measured_access (ht : Contained t) (hsize : Measured t) (hargs : Unsigned a)
    (hallowed : Allowed t a) : ∀ part, access a t data mem = .ok part → Measured part.2 := by
  intro part h
  cases t with
  | scalar | pointer => cases a <;> first | exact absurd ht id | cases h
  | record members n attributes =>
    cases a with
    | index | slice | dereference => cases h
    | member name =>
      change (Datatype.record members n attributes).member name data mem = _ at h
      rw [Datatype.member] at h
      split at h
      · next hfind =>
        cases h
        obtain ⟨i, hget⟩ := Members.get?_of_find? hfind
        exact measured_of_get? hsize.2 hget
      · cases h
  | tuple elements n attributes =>
    cases a with
    | member | dereference => cases h
    | index i =>
      change (Datatype.tuple elements n attributes).index i data mem = _ at h
      rw [Datatype.index] at h
      split at h
      · next hget =>
        cases h
        exact measured_of_get? hsize.2 hget
      · cases h
    | slice first stop =>
      obtain ⟨base, type, hfirst, hwindow⟩ := hallowed
      change tupleSlice elements n first stop data = _ at h
      rw [tupleSlice_eq hfirst] at h
      split at h
      · next hstop =>
        obtain ⟨last, hlast, -⟩ := hwindow hstop
        rw [hlast] at h
        cases h
        exact ⟨sizeSub_lt ((sliceEnd_le ht.1 hlast).trans_lt ht.2),
          membersMeasured_window first stop hsize.2⟩
      · cases h
  | array subtype =>
    cases a with
    | member | dereference => cases h
    | index =>
      rw [access, Access.apply, Datatype.index] at h
      split at h
      · cases h
        exact hsize.2
      · cases h
    | slice =>
      rw [access, Access.apply, Datatype.slice] at h
      split at h
      · next hstop =>
        cases h
        refine ⟨?_, hsize.2⟩
        obtain ⟨hwhole, horder⟩ := hallowed hstop
        rw [buffersize_of_measured hsize.2] at hwhole horder
        obtain ⟨-, hwindow, hlt⟩ := ht
        obtain hzero | hpos := Nat.eq_zero_or_pos subtype.buffersize
        · simp [hzero]
        · have hplace := wrap_start_add hargs.1 (by omega) hlt
            (horder.imp_right (Or.resolve_right · (by omega)))
          exact (Nat.mul_le_mul_right _ (by omega)).trans_lt hwhole
      · cases h

end Access

/-! ## Chains of accesses -/

theorem inside_of_allowed (ht : Contained t) (hargs : ∀ a ∈ accesses, Unsigned a)
    (h : AllAllowed mem accesses t data) : AllInside mem accesses t data := by
  induction accesses generalizing t data with
  | nil => trivial
  | cons a accesses ih =>
    obtain ⟨hallowed, hrest⟩ := h
    obtain ⟨ha, hargs⟩ := List.forall_mem_cons.mp hargs
    have hstays : Stays t data (access a t data mem) := stays_of_allowed ht ha hallowed
    rw [AllInside]
    generalize access a t data mem = r at hrest hstays
    obtain e | ⟨data', t'⟩ := r
    · exact hstays
    · exact ⟨hstays.1, ih hstays.2 hargs hrest⟩

/-- A chain of accesses with arguments of type `size_t` stays inside if all of them are
allowed. For a type that has no part of 2^64 bytes or more, it and all indices that may follow
on each of its steps stay inside only then. -/
theorem subaccess_inside_iff (mem : Mem Byte) (accesses : List Access)
    (hargs : ∀ a ∈ accesses, Unsigned a) (t : Datatype) (ht : Contained t) (data : Nat) :
    (AllAllowed mem accesses t data → AllInside mem accesses t data) ∧
      (Measured t → (∀ k i, AllInside mem (accesses.take k ++ [.index i]) t data) →
        AllAllowed mem accesses t data) := by
  refine ⟨inside_of_allowed ht hargs, ?_⟩
  induction accesses generalizing t data with
  | nil => exact fun _ _ => trivial
  | cons a accesses ih =>
    intro hsize h
    obtain ⟨ha, hargs⟩ := List.forall_mem_cons.mp hargs
    have hallowed : Allowed t a := allowed_of_inside ht hsize (h 1)
    refine ⟨hallowed, ?_⟩
    have hstays : Stays t data (access a t data mem) := stays_of_allowed ht ha hallowed
    have hmeasured : ∀ part, access a t data mem = .ok part → Measured part.2 :=
      measured_access ht hsize ha hallowed
    have hrest (k i : Nat) := h (k + 1) i
    simp only [List.take_succ_cons, List.cons_append, AllInside] at hrest
    generalize access a t data mem = r at hrest hstays hmeasured
    obtain e | ⟨data', t'⟩ := r
    · trivial
    · exact ih hargs t' hstays.2 data' (hmeasured _ rfl) fun k i => (hrest k i).2

/-- A number, and the middle of four numbers. -/
def sample : Datatype :=
  .tuple (.cons 0 typeForInt32 "" (.cons 4 (.array typeForInt32 4 1 2 []) "" .nil)) 20 []

theorem subaccess_inside_sample :
    AllInside (fun _ => 0) [.slice 0 2, .index 1, .slice 0 1, .index 0] sample 64 := by
  refine (subaccess_inside_iff (fun _ => 0) _ ?_ sample ?_ 64).1 ?_
  · simp [Unsigned]
  · simp [sample, Contained, MembersContained, typeForInt32, buffersize, wrap, Scalar.make]
  · refine ⟨⟨0, typeForInt32, rfl, fun _ => ⟨20, rfl, by decide, ?_⟩⟩, trivial,
      fun _ => ⟨by decide, .inl (by decide)⟩, fun _ => by decide, trivial⟩
    intro i d type _ hi hget
    obtain rfl | rfl : i = 0 ∨ i = 1 := by omega
    · obtain ⟨rfl, rfl⟩ := Prod.mk.inj (Option.some.inj hget)
      decide
    · obtain ⟨rfl, rfl⟩ := Prod.mk.inj (Option.some.inj hget)
      decide

/-- A slice whose bounds are not in order is as large as the memory, the end of a slice
before the last element of a tuple is read behind its elements, and the size of an array
of 2^64 bytes or more is too small. -/
theorem subaccess_outside :
    ¬ AllInside (fun _ => 0) [.slice 2 1] (.array typeForInt32 4 0 4 []) 64 ∧
      ¬ AllInside (fun _ => 0) [.slice 0 1] sample 64 ∧
      ¬ AllInside (fun _ => 0) [.index 5] (.array typeForInt32 (2 ^ 62 + 1) 0 (2 ^ 62 + 1) []) 64 :=
    by
  refine ⟨fun h => ?_, fun h => h, fun h => ?_⟩
  · have hle := h.1.2
    revert hle
    decide
  · have hle := h.1.2
    revert hle
    decide

end Pdi.SubAccess
