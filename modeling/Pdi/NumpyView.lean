import Mathlib.Algebra.BigOperators.Ring.List
import Mathlib.Algebra.GroupWithZero.Nat
import Pdi.NestedArrays

/-!
# Arrays in Python

`to_python` hands an array to Python as a numpy array over the same memory: with a shape,
with a stride for each dimension and with the address of its first element. `python_type`
is the way back: the sizes of the dimensions are found again as quotients of strides.

The strides are made of the buffer size of the scalar. What is rebuilt from the numpy
array has the item size of its data type, which is the data size of the scalar.
-/
namespace Pdi.Python

open Pdi.Datatypes Pdi.Memory Pdi.RowMajor

variable {index extents : List Nat} {s : Scalar}

/-- The `dtype` of a numpy array. -/
structure Dtype where
  kind : Char
  itemsize : Nat
  deriving DecidableEq

structure NumpyArray where
  dtype : Dtype
  shape : List Nat
  strides : List Nat
  data : Nat
  deriving DecidableEq

inductive Object where
  /-- A `Python_ref_wrapper`. -/
  | wrapper
  | array (a : NumpyArray)
  | none
  deriving DecidableEq

/-- Where numpy finds the element at an index. -/
def NumpyArray.address (a : NumpyArray) (index : List Nat) : Nat :=
  a.data + (List.zipWith (· * ·) index a.strides).sum

/-! ## Conversions -/

/-- `has_record_inside` -/
def hasRecordInside : Datatype → Bool
  | .array subtype _ _ _ _ => hasRecordInside subtype
  | .pointer subtype _ _ _ => hasRecordInside subtype
  | .record _ _ _ => true
  | _ => false

/-- `to_python` of a scalar type. -/
def dtypeOf (s : Scalar) : Except Failure Dtype :=
  match s.kind with
  | .float =>
    if s.size ∈ [4, 8] then .ok ⟨'f', s.size⟩
    else .error (typeError ("Unable to pass " ++ toString s.size ++
      " bytes floating point value to python"))
  | .signed =>
    if s.size ∈ [1, 2, 4, 8] then .ok ⟨'i', s.size⟩
    else .error (typeError ("Unable to pass " ++ toString s.size ++
      " bytes integer value to python"))
  | .unsigned =>
    if s.size ∈ [1, 2, 4, 8] then .ok ⟨'u', s.size⟩
    else .error (typeError ("Unable to pass " ++ toString s.size ++
      " bytes unsigned integer value to python"))
  | .unknown => .error (typeError "Unable to pass value of unexpected type to python")

/-- The dimensions of an array, and the type inside of it. -/
def peel : Datatype → List Extent × Datatype
  | .array subtype size start subsize attributes =>
    (⟨size, start, subsize, attributes⟩ :: (peel subtype).1, (peel subtype).2)
  | t => ([], t)

/-- Every stride is multiplied with the ones after it. -/
def cumulate : List Nat → List Nat
  | [] => []
  | stride :: rest => stride * (cumulate rest).headD 1 :: cumulate rest

/-- The numpy array for arrays of these dimensions of a scalar. -/
def view (dtype : Dtype) (ds : List Extent) (buffersize data : Nat) : NumpyArray :=
  let strides := if ds = [] then [] else cumulate ((sizes ds).tail ++ [buffersize])
  { dtype
    shape := subsizes ds
    strides
    data := data + (List.zipWith (· * ·) (starts ds) strides).sum }

/-- `to_python` of a reference, with the rights that it can be accessed with. -/
def toPython (type : Datatype) (data : Nat) (forceConst writable readable : Bool) :
    Except Failure Object :=
  if hasRecordInside type then .ok .wrapper
  else match (peel type).2 with
    | .scalar s => do
      let a := view (← dtypeOf s) (peel type).1 (Datatype.scalar s).buffersize data
      if !forceConst && writable then return .array a
      else if readable then return .array a
      else return .none
    | _ => .error (.undefined "access to a scalar type that is null")

/-- The quotients of successive strides. -/
def quotients : List Nat → Except Failure (List Nat)
  | stride :: stride' :: rest =>
    if stride' = 0 then .error (.undefined "division by zero")
    else do
      return stride / stride' :: (← quotients (stride' :: rest))
  | _ => .ok []

/-- The switch of `python_type` over the kind of the data type. -/
def kindOf : Char → Except Failure ScalarKind
  | 'i' => .ok .signed
  | 'u' => .ok .unsigned
  | 'b' => .ok .unsigned
  | 'f' => .ok .float
  | other => .error (.error .impl ("Unexpected python type descriptor: " ++ toString other))

/-- `python_type` -/
def pythonType (a : NumpyArray) : Except Failure Datatype := do
  let quotients ← quotients a.strides
  let kind ← kindOf a.dtype.kind
  let scalar ← makeScalar kind a.dtype.itemsize a.dtype.itemsize []
  return scalar.nest (List.zipWith (fun size subsize => ⟨size, 0, subsize, []⟩)
    (a.shape.take 1 ++ quotients) a.shape)

/-! ## Strides -/

/-- The bytes between two neighbours in each dimension. -/
def stridesOf (buffersize : Nat) : List Extent → List Nat
  | [] => []
  | _ :: ds => (sizes ds).prod * buffersize :: stridesOf buffersize ds

section Strides

variable {b : Nat}

theorem cumulate_sizes : ∀ (d : Extent) (ds : List Extent),
    cumulate (sizes ds ++ [b]) = stridesOf b (d :: ds)
  | _, [] => by simp [cumulate, stridesOf]
  | _, d :: ds => by
    rw [sizes_cons, List.cons_append, cumulate, cumulate_sizes d ds, stridesOf, List.headD_cons,
      ← Nat.mul_assoc]
    rfl

theorem strides_view (dtype : Dtype) (ds : List Extent) (data : Nat) :
    (view dtype ds b data).strides = stridesOf b ds := by
  cases ds with
  | nil => rfl
  | cons d ds => exact cumulate_sizes d ds

/-- The strides lead to a position in the whole array. -/
theorem sum_strides (ds : List Extent) (h : index.length = ds.length) :
    (List.zipWith (· * ·) index (stridesOf b ds)).sum = b * position (sizes ds) index := by
  induction ds generalizing index with
  | nil =>
    obtain rfl := List.length_eq_zero_iff.mp h
    rfl
  | cons d ds ih =>
    cases index with
    | nil => cases h
    | cons =>
      rw [stridesOf, List.zipWith_cons_cons, List.sum_cons, ih (Nat.succ.inj h), sizes_cons,
        position]
      ring

theorem elementNumber_eq_add (ds : List Extent) (h : index.length = ds.length) :
    elementNumber ds index = position (sizes ds) (starts ds) + position (sizes ds) index := by
  induction ds generalizing index with
  | nil =>
    obtain rfl := List.length_eq_zero_iff.mp h
    rfl
  | cons d ds ih =>
    cases index with
    | nil => cases h
    | cons =>
      rw [elementNumber_cons, ih (Nat.succ.inj h), sizes_cons, starts_cons, position, position]
      ring

theorem address_view (dtype : Dtype) (ds : List Extent) (data : Nat)
    (h : index.length = ds.length) :
    (view dtype ds b data).address index = data + b * elementNumber ds index := by
  have hdata : (view dtype ds b data).data = data + b * position (sizes ds) (starts ds) := by
    rw [← sum_strides ds (by simp), ← strides_view dtype ds data]
    rfl
  rw [NumpyArray.address, strides_view, sum_strides ds h, hdata, elementNumber_eq_add ds h]
  ring

/-- The quotients of the strides are the sizes of all dimensions but the first. -/
theorem quotients_strides (hb : 0 < b) : ∀ {ds : List Extent}, (∀ d ∈ ds, d.size ≠ 0) →
    quotients (stridesOf b ds) = .ok (sizes ds).tail
  | [], _ | [_], _ => rfl
  | d :: d' :: ds, h => by
    have hds : ∀ x ∈ ds, x.size ≠ 0 := fun x hx =>
      h x (List.mem_cons_of_mem _ (List.mem_cons_of_mem _ hx))
    have hprod : 0 < (sizes ds).prod := by
      refine Nat.pos_of_ne_zero (List.prod_ne_zero ?_)
      simpa using hds
    have hstride : (sizes ds).prod * b ≠ 0 := Nat.pos_iff_ne_zero.mp (Nat.mul_pos hprod hb)
    have ih : quotients (stridesOf b (d' :: ds)) = .ok (sizes (d' :: ds)).tail :=
      quotients_strides hb fun x hx => h x (List.mem_cons_of_mem _ hx)
    rw [stridesOf] at ih
    rw [stridesOf, stridesOf, quotients, if_neg hstride, ih, sizes_cons, List.prod_cons,
      Nat.mul_assoc, Nat.mul_div_cancel _ (Nat.pos_of_ne_zero hstride)]
    rfl

/-- Without any bytes in the scalar, the first quotient is a division by zero. -/
theorem quotients_zero (d d' : Extent) (ds : List Extent) :
    ∃ e, quotients (stridesOf 0 (d :: d' :: ds)) = .error e := by
  rw [stridesOf, stridesOf, quotients, if_pos (Nat.mul_zero _)]
  exact ⟨_, rfl⟩

end Strides

/-! ## There and back -/

theorem peel_nest (s : Scalar) (ds : List Extent) :
    peel ((Datatype.scalar s).nest ds) = (ds, .scalar s) := by
  induction ds with
  | nil => rfl
  | cons d ds ih => rw [nest_cons, peel, ih]

theorem hasRecordInside_nest (s : Scalar) (ds : List Extent) :
    hasRecordInside ((Datatype.scalar s).nest ds) = false := by
  induction ds with
  | nil => rfl
  | cons d ds ih => exact ih

theorem view_of_toPython {ds : List Extent} {data : Nat} {forceConst writable readable : Bool}
    {a : NumpyArray}
    (h : toPython ((Datatype.scalar s).nest ds) data forceConst writable readable =
      .ok (.array a)) :
    ∃ dtype, dtypeOf s = .ok dtype ∧ a = view dtype ds s.denseSize data := by
  simp only [toPython, hasRecordInside_nest, peel_nest] at h
  cases hdtype : dtypeOf s with
  | error =>
    rw [hdtype] at h
    cases h
  | ok dtype =>
    rw [hdtype] at h
    change (if (!forceConst && writable) = true then .ok (.array (view dtype ds s.denseSize data))
      else if readable = true then .ok (.array (view dtype ds s.denseSize data))
      else .ok .none : Except Failure Object) = _ at h
    refine ⟨dtype, rfl, ?_⟩
    split at h
    · exact (Object.array.inj (Except.ok.inj h)).symm
    · split at h
      · exact (Object.array.inj (Except.ok.inj h)).symm
      · cases h

/-- The data types that numpy is given. -/
theorem dtype_of_ok {dtype : Dtype} (h : dtypeOf s = .ok dtype) :
    s.size ∈ [1, 2, 4, 8] ∧ dtype.itemsize = s.size ∧ ∃ kind, kindOf dtype.kind = .ok kind := by
  unfold dtypeOf at h
  split at h
  · split at h
    · next hsize =>
      cases h
      refine ⟨?_, rfl, _, rfl⟩
      simp only [List.mem_cons, List.not_mem_nil, or_false] at hsize ⊢
      omega
    · cases h
  · split at h
    · next hsize =>
      cases h
      exact ⟨hsize, rfl, _, rfl⟩
    · cases h
  · split at h
    · next hsize =>
      cases h
      exact ⟨hsize, rfl, _, rfl⟩
    · cases h
  · cases h

theorem exists_scalar (kind : ScalarKind) {n : Nat} (h : n ∈ [1, 2, 4, 8]) :
    ∃ e : Scalar, makeScalar kind n n [] = .ok (.scalar e) ∧ e.denseSize = n := by
  simp only [List.mem_cons, List.not_mem_nil, or_false] at h
  obtain rfl | rfl | rfl | rfl := h
  all_goals exact ⟨_, rfl, rfl⟩

/-- The scalar that is made again of a data type has the size of the original one as its
only size. -/
theorem rebuilt_scalar (a : NumpyArray) (h : dtypeOf s = .ok a.dtype) {sizes : List Nat}
    (hsizes : quotients a.strides = .ok sizes) :
    ∃ e : Scalar, e.denseSize = s.size ∧
      pythonType a = .ok ((Datatype.scalar e).nest
        (List.zipWith (fun size subsize => ⟨size, 0, subsize, []⟩)
          (a.shape.take 1 ++ sizes) a.shape)) := by
  obtain ⟨hsize, hitem, kind, hkind⟩ := dtype_of_ok h
  rw [← hitem] at hsize ⊢
  obtain ⟨e, he, hdense⟩ := exists_scalar kind hsize
  refine ⟨e, hdense, ?_⟩
  rw [pythonType, hsizes, hkind]
  change (makeScalar kind _ _ [] >>= _) = _
  rw [he]
  rfl

/-- The dimensions that are found again, without the start of the window. -/
def unshifted (ds : List Extent) : List Extent :=
  List.zipWith (fun size subsize => ⟨size, 0, subsize, []⟩)
    ((subsizes ds).take 1 ++ (sizes ds).tail) (subsizes ds)

theorem zipWith_extents (ds : List Extent) :
    List.zipWith (fun size subsize => (⟨size, 0, subsize, []⟩ : Extent)) (sizes ds) (subsizes ds) =
      ds.map fun d => ⟨d.size, 0, d.subsize, []⟩ := by
  rw [List.zipWith_map, List.zipWith_self]

theorem unshifted_cons (d : Extent) (ds : List Extent) :
    unshifted (d :: ds) =
      ⟨d.subsize, 0, d.subsize, []⟩ :: ds.map fun d => ⟨d.size, 0, d.subsize, []⟩ := by
  rw [← zipWith_extents]
  rfl

theorem subsizes_unshifted (ds : List Extent) : subsizes (unshifted ds) = subsizes ds := by
  cases ds with
  | nil => rfl
  | cons => simp [unshifted_cons, subsizes]

theorem elementNumber_unshifted (ds : List Extent) (h : index.length = ds.length) :
    elementNumber (unshifted ds) index = position (sizes ds) index := by
  have hzero : ∀ x ∈ starts (unshifted ds), x = 0 := by
    cases ds with
    | nil => simp [unshifted]
    | cons => simp [unshifted_cons, starts]
  have hlength : (unshifted ds).length = ds.length := by
    have hsubsizes := congrArg List.length (subsizes_unshifted ds)
    rwa [List.length_map, List.length_map] at hsubsizes
  rw [elementNumber, shift_zero index (by rw [List.length_map, hlength, h]) hzero]
  cases ds with
  | nil => rfl
  | cons =>
    cases index with
    | nil => cases h
    | cons =>
      simp only [unshifted_cons, sizes_cons, position]
      rw [sizes, List.map_map]
      rfl

/-! ## Positions that are zero -/

/-- With no empty dimension, only the first index has the position zero. -/
theorem forall_eq_zero_of_position (hpos : 0 ∉ extents) (hlength : index.length = extents.length)
    (h : position extents index = 0) : ∀ i ∈ index, i = 0 := by
  induction extents generalizing index with
  | nil =>
    obtain rfl := List.length_eq_zero_iff.mp hlength
    simp
  | cons e es ih =>
    cases index with
    | nil => cases hlength
    | cons i =>
      rw [List.mem_cons, not_or] at hpos
      rw [position, Nat.add_eq_zero_iff, Nat.mul_eq_zero] at h
      have hi : i = 0 := h.1.resolve_right (List.prod_ne_zero hpos.2)
      rw [List.forall_mem_cons]
      exact ⟨hi, ih hpos.2 (Nat.succ.inj hlength) h.2⟩

theorem position_of_forall_eq_zero (h : ∀ i ∈ index, i = 0) : position extents index = 0 := by
  induction index generalizing extents with
  | nil => cases extents <;> rfl
  | cons i is ih =>
    rw [List.forall_mem_cons] at h
    cases extents with
    | nil => rfl
    | cons => rw [position, h.1, Nat.zero_mul, ih h.2]

theorem zero_notMem_of_below (h : Below index extents) : 0 ∉ extents := by
  induction h with
  | nil => simp
  | cons hi _ ih =>
    rw [List.mem_cons, not_or]
    exact ⟨by omega, ih⟩

/-! ## The same elements -/

/-- At every valid index of the numpy array there is the element that the chain of indices
reaches. -/
def ViewMatches (s : Scalar) (ds : List Extent) (data : Nat) (a : NumpyArray) : Prop :=
  ∀ (mem : Mem Byte) (index : List Nat), Below index a.shape →
    follow mem (indexPath index) ((Datatype.scalar s).nest ds) data =
      .ok (a.address index, .scalar s)

/-- The numpy array has a datatype, whose chains of indices reach the same addresses. -/
def TypeMatches (s : Scalar) (ds : List Extent) (data : Nat) (a : NumpyArray) : Prop :=
  ∃ t, pythonType a = .ok t ∧ ∀ (mem : Mem Byte) (index : List Nat), Below index a.shape →
    ∃ address e, follow mem (indexPath index) ((Datatype.scalar s).nest ds) data =
        .ok (address, .scalar s) ∧
      follow mem (indexPath index) t a.data = .ok (address, e)

section Match

variable {ds : List Extent} {data : Nat} {dtype : Dtype}

theorem viewMatches : ViewMatches s ds data (view dtype ds s.denseSize data) := by
  intro mem index hindex
  have hlength : index.length = ds.length := by
    rw [hindex.length_eq]
    exact List.length_map _
  rw [follow_nest hindex, address_view dtype ds data hlength]
  rfl

/-- The two chains of indices differ in the size of the scalar only. -/
theorem typeMatches_iff_sizes (hdtype : dtypeOf s = .ok dtype) (hds : ∀ d ∈ ds, d.size ≠ 0)
    (hb : 0 < s.denseSize ∨ ds.length ≤ 1) :
    TypeMatches s ds data (view dtype ds s.denseSize data) ↔
      ∀ index, Below index (subsizes ds) →
        s.denseSize * position (sizes ds) index = s.size * position (sizes ds) index := by
  have hquotients : quotients (view dtype ds s.denseSize data).strides = .ok (sizes ds).tail := by
    rw [strides_view]
    obtain hb | hlength := hb
    · exact quotients_strides hb hds
    · match ds, hlength with
      | [], _ | [_], _ => rfl
  obtain ⟨e, he, htype⟩ := rebuilt_scalar (view dtype ds s.denseSize data) hdtype hquotients
  have hfollow : ∀ (mem : Mem Byte) (index : List Nat), Below index (subsizes ds) →
      follow mem (indexPath index) ((Datatype.scalar s).nest ds) data =
          .ok ((view dtype ds s.denseSize data).data +
            s.denseSize * position (sizes ds) index, .scalar s) ∧
        follow mem (indexPath index) ((Datatype.scalar e).nest (unshifted ds))
            (view dtype ds s.denseSize data).data =
          .ok ((view dtype ds s.denseSize data).data + s.size * position (sizes ds) index,
            .scalar e) := by
    intro mem index hindex
    have hlength : index.length = ds.length := by
      rw [hindex.length_eq, List.length_map]
    constructor
    · rw [viewMatches mem index hindex, NumpyArray.address, strides_view, sum_strides ds hlength]
    · rw [follow_nest (by rw [subsizes_unshifted]; exact hindex),
        elementNumber_unshifted ds hlength, Datatype.buffersize, he]
  constructor
  · rintro ⟨t, ht, hmatch⟩ index hindex
    rw [htype] at ht
    obtain rfl := Except.ok.inj ht
    obtain ⟨address, e', horig, hback⟩ := hmatch (fun _ => 0) index hindex
    obtain ⟨horig', hback'⟩ := hfollow (fun _ => 0) index hindex
    rw [horig'] at horig
    change follow _ _ ((Datatype.scalar e).nest (unshifted ds)) _ = _ at hback
    rw [hback'] at hback
    have h1 := (Prod.mk.inj (Except.ok.inj horig)).1
    have h2 := (Prod.mk.inj (Except.ok.inj hback)).1
    omega
  · intro h
    refine ⟨_, htype, fun mem index hindex => ?_⟩
    obtain ⟨horig, hback⟩ := hfollow mem index hindex
    rw [← h index hindex] at hback
    exact ⟨_, _, horig, hback⟩

theorem denseSize_pos_of_typeMatches (h : TypeMatches s ds data (view dtype ds s.denseSize data)) :
    0 < s.denseSize ∨ ds.length ≤ 1 := by
  by_contra hnot
  rw [not_or] at hnot
  have hzero : s.denseSize = 0 := by omega
  obtain ⟨t, ht, _⟩ := h
  match ds, hnot.2 with
  | [], hlength => exact hlength (Nat.zero_le _)
  | [_], hlength => exact hlength (Nat.le_refl _)
  | d :: d' :: ds, _ =>
    obtain ⟨e, he⟩ := quotients_zero d d' ds
    rw [pythonType, strides_view, hzero, he] at ht
    cases ht

theorem typeMatches_iff (hdtype : dtypeOf s = .ok dtype) (hds : ∀ d ∈ ds, d.size ≠ 0) :
    TypeMatches s ds data (view dtype ds s.denseSize data) ↔
      s.denseSize = s.size ∨
        ((subsizes ds).prod ≤ 1 ∧ (0 < s.denseSize ∨ ds.length ≤ 1)) := by
  have hsizes : 0 ∉ sizes ds := by simpa [eq_comm] using hds
  constructor
  · intro h
    have hb := denseSize_pos_of_typeMatches h
    have hequal := (typeMatches_iff_sizes hdtype hds hb).mp h
    by_cases hprod : (subsizes ds).prod ≤ 1
    · exact .inr ⟨hprod, hb⟩
    · -- the second element of the window is not at the position of the first
      obtain ⟨index, hindex, hone⟩ := exists_position (n := 1) (Nat.lt_of_not_le hprod)
      have hlength : index.length = (sizes ds).length := by
        rw [hindex.length_eq, List.length_map, List.length_map]
      have hne : position (sizes ds) index ≠ 0 := by
        intro hzero
        have hall := forall_eq_zero_of_position hsizes hlength hzero
        rw [position_of_forall_eq_zero hall] at hone
        cases hone
      exact .inl (Nat.eq_of_mul_eq_mul_right (Nat.pos_of_ne_zero hne) (hequal index hindex))
  · rintro (heq | ⟨hprod, hb⟩)
    · have hb : 0 < s.denseSize := by
        have hsize := (dtype_of_ok hdtype).1
        simp only [List.mem_cons, List.not_mem_nil, or_false] at hsize
        omega
      refine (typeMatches_iff_sizes hdtype hds (.inl hb)).mpr fun index _ => ?_
      rw [heq]
    · refine (typeMatches_iff_sizes hdtype hds hb).mpr fun index hindex => ?_
      have hzero : position (subsizes ds) index = 0 := by
        have := position_lt hindex
        omega
      have hall := forall_eq_zero_of_position (zero_notMem_of_below hindex) hindex.length_eq hzero
      rw [position_of_forall_eq_zero hall, Nat.mul_zero, Nat.mul_zero]

end Match

/-- The numpy array has the elements of the original. The datatype of the numpy array has
them too exactly when the scalar has one size, or there is no second element, and the
strides can be divided. -/
theorem numpy_view_iff (s : Scalar) (ds : List Extent) (data : Nat)
    (forceConst writable readable : Bool) (a : NumpyArray)
    (h : toPython ((Datatype.scalar s).nest ds) data forceConst writable readable =
      .ok (.array a)) :
    (ViewMatches s ds data a ∧ ((∀ d ∈ ds, d.size ≠ 0) → TypeMatches s ds data a)) ↔
      (∃ d ∈ ds, d.size = 0) ∨ s.denseSize = s.size ∨
        ((subsizes ds).prod ≤ 1 ∧ (0 < s.denseSize ∨ ds.length ≤ 1)) := by
  obtain ⟨dtype, hdtype, rfl⟩ := view_of_toPython h
  rw [and_iff_right viewMatches]
  by_cases hds : ∀ d ∈ ds, d.size ≠ 0
  · have hnone : ¬ ∃ d ∈ ds, d.size = 0 := fun ⟨d, hd, hzero⟩ => hds d hd hzero
    rw [or_iff_right hnone, ← typeMatches_iff hdtype hds]
    exact ⟨fun hmatch => hmatch hds, fun hmatch _ => hmatch⟩
  · refine iff_of_true (fun hall => absurd hall hds) (.inl ?_)
    push Not at hds
    exact hds

/-- The inner part of three rows of four numbers. -/
theorem numpy_view_matrix :
    let s : Scalar := Scalar.make .float 8 8 (by decide)
    let ds : List Extent := [⟨3, 1, 1, []⟩, ⟨4, 1, 2, []⟩]
    let a : NumpyArray := ⟨⟨'f', 8⟩, [1, 2], [32, 8], 140⟩
    toPython ((Datatype.scalar s).nest ds) 100 true false true = .ok (.array a) ∧
      ViewMatches s ds 100 a ∧ TypeMatches s ds 100 a := by
  intro s ds a
  have h : toPython ((Datatype.scalar s).nest ds) 100 true false true = .ok (.array a) := rfl
  obtain ⟨hview, htype⟩ := (numpy_view_iff s ds 100 true false true a h).mpr (.inr (.inl rfl))
  exact ⟨h, hview, htype (by decide)⟩

/-- Two numbers of eight bytes that are stored in four: the second one is four bytes after
the first, and eight bytes after it under the datatype of the numpy array. -/
theorem numpy_view_of_two_sizes :
    let s : Scalar := ⟨.signed, 8, 4, 4, none, none, [], .inr (by decide)⟩
    let a : NumpyArray := ⟨⟨'i', 8⟩, [2], [4], 100⟩
    toPython ((Datatype.scalar s).nest [⟨2, 0, 2, []⟩]) 100 true false true = .ok (.array a) ∧
      follow (fun _ => 0) [.index 1] ((Datatype.scalar s).nest [⟨2, 0, 2, []⟩]) 100 =
        .ok (104, .scalar s) ∧
      ∃ t e, pythonType a = .ok t ∧ follow (fun _ => 0) [.index 1] t a.data = .ok (108, e) := by
  refine ⟨rfl, rfl, _, _, rfl, rfl⟩

end Pdi.Python
