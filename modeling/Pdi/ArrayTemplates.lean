import Pdi.NestedArrays
import Pdi.TemplateEvaluate

/-!
# Arrays of the specification tree

An array of any rank is given in the specification tree by lists of sizes, starts and
sub-sizes. The template is built from the innermost dimension outwards, its evaluation
gives arrays of arrays, and a chain of indices goes through them from the outermost one.
-/
namespace Pdi.Templates

open Pdi.Datatypes Pdi.Memory Pdi.OpenRecursion Pdi.RowMajor

section Array

variable {ν ε : Type} {doc : ν → Node ν} {ev : Evaluator ν ε} {dimensions : List (ε × ε × ε)}

/-- The lists of expressions that make up an array: the ranks agree, and starts are not
given without sub-sizes. -/
def ProperRanks (size start subsize : List ε) : Prop :=
  size ≠ [] ∧ (start = [] ∨ subsize ≠ []) ∧
    (subsize = [] ∨ subsize.length = size.length) ∧ (start = [] ∨ start.length = size.length)

/-- An array node of the tree: the expressions of its three properties, with their values,
and its element type. The sub-types of nodes are resolved by `answer`. -/
structure GivenArray (doc : ν → Node ν) (ev : Evaluator ν ε)
    (answer : ν → Option (Except Failure (Template ε))) (node : ν) where
  size : List ε
  start : List ε
  subsize : List ε
  order : checkOrder doc node = .ok ()
  size_eq : getArrayProperty doc ev.toExpressions node "size" = .ok size
  start_eq : getArrayProperty doc ev.toExpressions node "start" = .ok start
  subsize_eq : getArrayProperty doc ev.toExpressions node "subsize" = .ok subsize
  subtype : ν
  template : Template ε
  element : Datatype
  subtype_eq : pcGet doc (.ok node) "subtype" = .ok subtype
  resolved : answer subtype = some (.ok template)
  evaluated : template.evaluate ev = .ok element
  attributes : List (String × ε)
  attributes_eq : Templates.attributes doc ev.toExpressions node = .ok attributes
  sizes : List Nat
  starts : List Nat
  subsizes : List Nat
  sizes_eq : List.Forall₂ (fun e n => ev.size e = .ok n) size sizes
  starts_eq : List.Forall₂ (fun e n => ev.size e = .ok n) start starts
  subsizes_eq : List.Forall₂ (fun e n => ev.size e = .ok n) subsize subsizes

/-- Starts are zero by default. -/
def defaultStarts (sizes starts : List Nat) : List Nat :=
  if starts = [] then sizes.map fun _ => 0 else starts

/-- Sub-sizes are the sizes by default. -/
def defaultSubsizes (sizes subsizes : List Nat) : List Nat :=
  if subsizes = [] then sizes else subsizes

/-! ## From the lists to the datatype -/

/-- A dimension of the template and what it is evaluated to. -/
def EvaluatesTo (ev : Evaluator ν ε) (attributes : Attributes) (d : ε × ε × ε)
    (x : Extent) : Prop :=
  ev.size d.1 = .ok x.size ∧ ev.size d.2.1 = .ok x.start ∧ ev.size d.2.2 = .ok x.subsize ∧
    x.attributes = attributes

theorem evaluate_dimensions {template : Template ε} {element : Datatype}
    {attributes : List (String × ε)} (h : template.evaluate ev = .ok element) {ds : List Extent}
    (hds : List.Forall₂ (EvaluatesTo ev (ev.attributes attributes)) dimensions ds) :
    (dimensions.foldr (fun d t => Template.array t d.1 d.2.1 d.2.2 attributes)
      template).evaluate ev =
      .ok (element.nest ds) := by
  induction hds with
  | nil => exact h
  | @cons d x dimensions ds hd _ ih =>
    obtain ⟨hsize, hstart, hsubsize, hattributes⟩ := hd
    rw [List.foldr_cons, Template.evaluate, ih, hsize, hstart, hsubsize, nest_cons, hattributes]
    rfl

/-- Expressions with their values, dimension by dimension. -/
theorem exists_extents (attributes : Attributes) {size start subsize : List ε}
    {ns ms ks : List Nat} (hsize : List.Forall₂ (fun e n => ev.size e = .ok n) size ns)
    (hstart : List.Forall₂ (fun e n => ev.size e = .ok n) start ms)
    (hsubsize : List.Forall₂ (fun e n => ev.size e = .ok n) subsize ks)
    (hms : start.length = size.length) (hks : subsize.length = size.length) :
    ∃ ds, List.Forall₂ (EvaluatesTo ev attributes) (size.zip (start.zip subsize)) ds ∧
      sizes ds = ns ∧ starts ds = ms ∧ subsizes ds = ks := by
  induction hsize generalizing start subsize ms ks with
  | nil =>
    obtain rfl := List.length_eq_zero_iff.mp hms
    obtain rfl := List.length_eq_zero_iff.mp hks
    cases hstart
    cases hsubsize
    exact ⟨[], .nil, rfl, rfl, rfl⟩
  | cons he _ ih =>
    cases hstart with
    | nil => cases hms
    | cons he' hstart =>
      cases hsubsize with
      | nil => cases hks
      | cons he'' hsubsize =>
        obtain ⟨ds, hds, rfl, rfl, rfl⟩ :=
          ih hstart hsubsize (Nat.succ.inj hms) (Nat.succ.inj hks)
        exact ⟨⟨_, _, _, attributes⟩ :: ds, .cons ⟨he, he', he'', rfl⟩ hds, rfl, rfl, rfl⟩

/-- `validate_array` puts in the defaults. -/
theorem validateArray_proper {size start subsize : List ε} (h : ProperRanks size start subsize) :
    validateArray ev.toExpressions size subsize start = .ok (size.zip
      ((if start = [] then size.map fun _ => ev.ofLong 0 else start).zip
        (if subsize = [] then size else subsize))) := by
  obtain ⟨hsize, hgiven, hsubsize, hstart⟩ := h
  have hboth : ¬ ((!start.isEmpty && subsize.isEmpty) = true) := by
    simpa [or_iff_not_imp_left] using hgiven
  have hrank : size.length = (if subsize = [] then size else subsize).length := by
    split
    · rfl
    · next hne => exact (hsubsize.resolve_left hne).symm
  have hrank' : size.length =
    (if start = [] then size.map fun _ => ev.ofLong 0 else start).length := by
    split
    · simp
    · next hne => exact (hstart.resolve_left hne).symm
  unfold validateArray
  rw [if_neg (by simpa using hsize), if_neg hboth]
  simp only [List.isEmpty_iff, ← hrank, ← hrank', ne_eq, not_true_eq_false, if_false]

/-- All other lists are refused. -/
theorem validateArray_improper (ev : Evaluator ν ε) {size start subsize : List ε}
    (h : ¬ ProperRanks size start subsize) :
    ∃ message, validateArray ev.toExpressions size subsize start =
      .error (spectreeError message) := by
  unfold validateArray
  by_cases hsize : size.isEmpty = true
  · rw [if_pos hsize]
    exact ⟨_, rfl⟩
  rw [if_neg hsize]
  by_cases hgiven : (!start.isEmpty && subsize.isEmpty) = true
  · rw [if_pos hgiven]
    exact ⟨_, rfl⟩
  rw [if_neg hgiven]
  dsimp only
  by_cases hrank : size.length = (if subsize.isEmpty = true then size else subsize).length
  · rw [if_neg (not_not_intro hrank)]
    by_cases hrank' : size.length =
        (if start.isEmpty = true then size.map fun _ => ev.ofLong 0 else start).length
    · refine absurd ⟨by simpa using hsize, ?_, ?_, ?_⟩ h
      · simpa [or_iff_not_imp_left] using hgiven
      · by_cases he : subsize = []
        · exact .inl he
        · rw [if_neg (by simpa using he)] at hrank
          exact .inr hrank.symm
      · by_cases he : start = []
        · exact .inl he
        · rw [if_neg (by simpa using he)] at hrank'
          exact .inr hrank'.symm
    · rw [if_pos hrank']
      exact ⟨_, rfl⟩
  · rw [if_pos hrank]
    exact ⟨_, rfl⟩

section Given

variable {answer : ν → Option (Except Failure (Template ε))} {node : ν}
  (a : GivenArray doc ev answer node)

theorem runWith_toArray_ok
    (h : validateArray ev.toExpressions a.size a.subsize a.start = .ok dimensions) :
    (toArray doc ev.toExpressions node).runWith answer = some (.ok
      (dimensions.foldr (fun d t => .array t d.1 d.2.1 d.2.2 a.attributes) a.template)) := by
  have hdimensions : arrayDimensions doc ev.toExpressions node = .ok dimensions := by
    rw [arrayDimensions, a.order, a.size_eq, a.subsize_eq, a.start_eq]
    exact h
  simp only [toArray, hdimensions, a.subtype_eq, a.attributes_eq]
  change Body.runWith answer (.call a.subtype fun t => .done _) = _
  rw [Body.runWith, a.resolved]
  rfl

theorem runWith_toArray_error {e : Failure}
    (h : validateArray ev.toExpressions a.size a.subsize a.start = .error e) :
    (toArray doc ev.toExpressions node).runWith answer = some (.error e) := by
  have hdimensions : arrayDimensions doc ev.toExpressions node = .error e := by
    rw [arrayDimensions, a.order, a.size_eq, a.subsize_eq, a.start_eq]
    exact h
  simp only [toArray, hdimensions]
  rfl

theorem Evaluator.size_zero (ev : Evaluator ν ε) : ev.size (ev.ofLong 0) = .ok 0 := by
  rw [Evaluator.size, ev.toLong_ofLong]
  rfl

theorem values_defaultStarts :
    List.Forall₂ (fun e n => ev.size e = .ok n)
      (if a.start = [] then a.size.map fun _ => ev.ofLong 0 else a.start)
      (defaultStarts a.sizes a.starts) := by
  have hempty : a.start = [] ↔ a.starts = [] := by
    rw [← List.length_eq_zero_iff, a.starts_eq.length_eq, List.length_eq_zero_iff]
  unfold defaultStarts
  by_cases h : a.start = []
  · rw [if_pos h, if_pos (hempty.mp h), List.forall₂_map_left_iff, List.forall₂_map_right_iff]
    exact a.sizes_eq.imp fun _ _ _ => ev.size_zero
  · rw [if_neg h, if_neg (fun h' => h (hempty.mpr h'))]
    exact a.starts_eq

theorem values_defaultSubsizes :
    List.Forall₂ (fun e n => ev.size e = .ok n) (if a.subsize = [] then a.size else a.subsize)
      (defaultSubsizes a.sizes a.subsizes) := by
  have hempty : a.subsize = [] ↔ a.subsizes = [] := by
    rw [← List.length_eq_zero_iff, a.subsizes_eq.length_eq, List.length_eq_zero_iff]
  unfold defaultSubsizes
  by_cases h : a.subsize = []
  · rw [if_pos h, if_pos (hempty.mp h)]
    exact a.sizes_eq
  · rw [if_neg h, if_neg (fun h' => h (hempty.mpr h'))]
    exact a.subsizes_eq

/-- The elements of an array of the specification tree lie in row-major order of its sizes,
from its starts on. -/
theorem array_row_major :
    (ProperRanks a.size a.start a.subsize →
      ∃ template type, (toArray doc ev.toExpressions node).runWith answer = some (.ok template) ∧
        template.evaluate ev = .ok type ∧
        (∀ (mem : Mem Byte) (base : Nat) (index : List Nat),
          Below index (defaultSubsizes a.sizes a.subsizes) →
          follow mem (indexPath index) type base =
            .ok (base + a.element.buffersize * ∑ k ∈ Finset.range a.sizes.length,
              ((defaultStarts a.sizes a.starts).getD k 0 + index.getD k 0) *
                ∏ j ∈ Finset.Ico (k + 1) a.sizes.length, a.sizes.getD j 1, a.element)) ∧
        ∀ (mem : Mem Byte) (base : Nat) (index : List Nat), index.length ≤ a.sizes.length →
          ¬ Below index ((defaultSubsizes a.sizes a.subsizes).take index.length) →
          ∃ message, follow mem (indexPath index) type base = .error (valueError message)) ∧
    (¬ ProperRanks a.size a.start a.subsize →
      ∃ message, (toArray doc ev.toExpressions node).runWith answer =
        some (.error (spectreeError message))) := by
  constructor
  · intro h
    have hms : (if a.start = [] then a.size.map fun _ => ev.ofLong 0 else a.start).length =
        a.size.length := by
      split
      · simp
      · next hne => exact h.2.2.2.resolve_left hne
    have hks : (if a.subsize = [] then a.size else a.subsize).length = a.size.length := by
      split
      · rfl
      · next hne => exact h.2.2.1.resolve_left hne
    obtain ⟨ds, hds, hsizes, hstarts, hsubsizes⟩ := exists_extents (ev.attributes a.attributes)
      a.sizes_eq (values_defaultStarts a) (values_defaultSubsizes a) hms hks
    refine ⟨_, a.element.nest ds, runWith_toArray_ok a (validateArray_proper h),
      evaluate_dimensions a.evaluated hds, fun mem base index hindex => ?_,
      fun mem base index hlength hindex => ?_⟩
    · rw [← hsubsizes] at hindex
      have hlength : index.length = ds.length := by
        rw [hindex.length_eq, List.length_map]
      rw [follow_nest hindex, elementNumber_eq_sum ds hlength, ← hstarts, ← hsizes, List.length_map]
    · rw [← hsubsizes] at hindex
      rw [← hsizes, List.length_map] at hlength
      exact follow_nest_error hlength hindex base
  · intro h
    obtain ⟨message, hmessage⟩ := validateArray_improper ev h
    exact ⟨message, runWith_toArray_error a hmessage⟩

end Given

end Array

/-! ## A window of a matrix -/

/-- An array of three rows of four numbers, of which the last two numbers of the last two
rows are used. -/
def matrixDoc : Fin 16 → Node (Fin 16)
  | 0 => .mapping [(1, 2), (3, 4), (5, 6), (7, 8)]
  | 1 => .scalar "size"
  | 2 => .sequence [9, 10]
  | 3 => .scalar "start"
  | 4 => .sequence [11, 12]
  | 5 => .scalar "subsize"
  | 6 => .sequence [12, 12]
  | 7 => .scalar "subtype"
  | 8 => .scalar "int"
  | 9 => .scalar "3"
  | 10 => .scalar "4"
  | 11 => .scalar "1"
  | _ => .scalar "2"

def numbers : Evaluator (Fin 16) Int := .numbers fun text =>
  if text = "3" then 3 else if text = "4" then 4 else if text = "1" then 1 else 2

def matrix : GivenArray matrixDoc numbers (fun _ => some (.ok (.scalar .signed 4 []))) 0 where
  size := [3, 4]
  start := [1, 2]
  subsize := [2, 2]
  order := rfl
  size_eq := rfl
  start_eq := rfl
  subsize_eq := rfl
  subtype := 8
  template := .scalar .signed 4 []
  element := typeForInt32
  subtype_eq := rfl
  resolved := rfl
  evaluated := rfl
  attributes := []
  attributes_eq := rfl
  sizes := [3, 4]
  starts := [1, 2]
  subsizes := [2, 2]
  sizes_eq := .cons rfl (.cons rfl .nil)
  starts_eq := .cons rfl (.cons rfl .nil)
  subsizes_eq := .cons rfl (.cons rfl .nil)

/-- The second element of its first row comes after one row of four, and three. -/
theorem array_row_major_matrix :
    ∃ template type,
      (toArray matrixDoc numbers.toExpressions 0).runWith
        (fun _ => some (.ok (.scalar .signed 4 []))) = some (.ok template) ∧
      template.evaluate numbers = .ok type ∧
      follow (fun _ => 0) (indexPath [0, 1]) type 100 =
        .ok (100 + 4 * ((1 + 0) * 4 + (2 + 1)), typeForInt32) := by
  have hproper : ProperRanks matrix.size matrix.start matrix.subsize := by
    refine ⟨by decide, .inr (by decide), .inr rfl, .inr rfl⟩
  obtain ⟨template, type, htemplate, htype, hindex, _⟩ := (array_row_major matrix).1 hproper
  refine ⟨template, type, htemplate, htype, (hindex _ 100 [0, 1] ?_).trans rfl⟩
  exact .cons (by decide) (.cons (by decide) .nil)

/-- Three numbers from the second on: a start without a sub-size. -/
def startDoc : Fin 16 → Node (Fin 16)
  | 0 => .mapping [(1, 9), (3, 11), (7, 8)]
  | n => matrixDoc n

def startAlone : GivenArray startDoc numbers (fun _ => some (.ok (.scalar .signed 4 []))) 0 where
  size := [3]
  start := [1]
  subsize := []
  order := rfl
  size_eq := rfl
  start_eq := rfl
  subsize_eq := rfl
  subtype := 8
  template := .scalar .signed 4 []
  element := typeForInt32
  subtype_eq := rfl
  resolved := rfl
  evaluated := rfl
  attributes := []
  attributes_eq := rfl
  sizes := [3]
  starts := [1]
  subsizes := []
  sizes_eq := .cons rfl .nil
  starts_eq := .cons rfl .nil
  subsizes_eq := .nil

/-- The sub-size is not taken to be the size there, and no type is made. -/
theorem array_start_alone_refused :
    startAlone.sizes = [3] ∧ startAlone.starts = [1] ∧ startAlone.subsizes = [] ∧
      (toArray startDoc numbers.toExpressions 0).runWith
          (fun _ => some (.ok (.scalar .signed 4 []))) =
        some (.error (spectreeError
          "Array with a `start` property must have a defined `subsize'")) :=
  ⟨rfl, rfl, rfl, rfl⟩

end Pdi.Templates
