import Pdi.Sizes

/-!
# What densification does to the nodes of a type

The nodes of a type are all types it is built from. They are listed in preorder, so
that the nodes of two types of one shape correspond by their place in the list.

Two things that a densified type should share with the original are its attributes,
at every node, and the bytes of its data. Records and tuples lose the former. The
latter, and with it the meaning of all sizes, depends on scalars that have one size
only: a scalar answers its dense size where its buffer is asked for. Sizes are computed
modulo 2^64.
-/
namespace Pdi.Datatypes

open Pdi.Align Pdi.Memory

mutual
/-- A type and all types it is built from, also behind pointers. -/
def Datatype.nodes : Datatype → List Datatype
  | .scalar s => [.scalar s]
  | .array subtype size start subsize attributes =>
    .array subtype size start subsize attributes :: subtype.nodes
  | .record members buffersize attributes => .record members buffersize attributes :: members.nodes
  | .tuple elements buffersize attributes => .tuple elements buffersize attributes :: elements.nodes
  | .pointer subtype copy destroy attributes =>
    .pointer subtype copy destroy attributes :: subtype.nodes

def Members.nodes : Members → List Datatype
  | .nil => []
  | .cons _ type _ rest => type.nodes ++ rest.nodes
end

mutual
theorem Datatype.length_nodes_densify : ∀ t : Datatype, t.densify.nodes.length = t.nodes.length
  | .scalar _ => rfl
  | .array subtype _ _ _ _ | .pointer subtype _ _ _ => by
    simp only [Datatype.densify, Datatype.nodes, List.length_cons, subtype.length_nodes_densify]
  | .record members _ _ | .tuple members _ _ => by
    simp only [Datatype.densify, Datatype.nodes, List.length_cons, members.length_nodes_densify]

theorem Members.length_nodes_densify :
    ∀ (ms : Members) (c : Nat), (ms.densify c).nodes.length = ms.nodes.length
  | .nil, _ => rfl
  | .cons _ type _ rest, c => by
    simp only [Members.densify, Members.nodes, List.length_append, type.length_nodes_densify,
      rest.length_nodes_densify]
end

/-! ## Attributes -/

def Datatype.attributes : Datatype → Attributes
  | .scalar s => s.attributes
  | .array _ _ _ _ attributes => attributes
  | .record _ _ attributes => attributes
  | .tuple _ _ attributes => attributes
  | .pointer _ _ _ attributes => attributes

/-- Records and tuples. -/
def Datatype.hasMembers : Datatype → Bool
  | .record _ _ _ => true
  | .tuple _ _ _ => true
  | _ => false

/-- A type carries the same attributes as another one, node by node. -/
def SameAttributes (nodes nodes' : List Datatype) : Prop :=
  nodes.map Datatype.attributes = nodes'.map Datatype.attributes

/-- No record and no tuple has attributes. -/
def BareMembers (nodes : List Datatype) : Prop :=
  ∀ n ∈ nodes, n.hasMembers = true → n.attributes = []

theorem sameAttributes_cons {n n' : Datatype} {ns ns' : List Datatype} :
    SameAttributes (n :: ns) (n' :: ns') ↔ n.attributes = n'.attributes ∧ SameAttributes ns ns' :=
  List.cons_eq_cons

theorem sameAttributes_append {a a' b b' : List Datatype} (h : a.length = a'.length) :
    SameAttributes (a ++ b) (a' ++ b') ↔ SameAttributes a a' ∧ SameAttributes b b' := by
  simp only [SameAttributes, List.map_append]
  constructor
  · intro heq
    exact List.append_inj heq (by simpa using h)
  · rintro ⟨ha, hb⟩
    rw [ha, hb]

theorem bareMembers_cons {n : Datatype} {ns : List Datatype} :
    BareMembers (n :: ns) ↔ (n.hasMembers = true → n.attributes = []) ∧ BareMembers ns :=
  List.forall_mem_cons

mutual
theorem Datatype.sameAttributes_iff : ∀ t : Datatype,
    SameAttributes t.densify.nodes t.nodes ↔ BareMembers t.nodes
  | .scalar s => by
    simp [SameAttributes, BareMembers, Datatype.densify, Datatype.nodes, Datatype.attributes,
      Datatype.hasMembers, Scalar.densify]
  | .array subtype _ _ _ _ | .pointer subtype _ _ _ => by
    rw [Datatype.densify, Datatype.nodes, Datatype.nodes, sameAttributes_cons, bareMembers_cons,
      subtype.sameAttributes_iff]
    simp [Datatype.attributes, Datatype.hasMembers]
  | .record members _ _ | .tuple members _ _ => by
    rw [Datatype.densify, Datatype.nodes, Datatype.nodes, sameAttributes_cons, bareMembers_cons,
      members.sameAttributes_iff]
    simp [Datatype.attributes, Datatype.hasMembers, eq_comm]

theorem Members.sameAttributes_iff : ∀ (ms : Members) (c : Nat),
    SameAttributes (ms.densify c).nodes ms.nodes ↔ BareMembers ms.nodes
  | .nil, _ => by simp [SameAttributes, BareMembers, Members.densify, Members.nodes]
  | .cons _ type _ rest, c => by
    rw [Members.densify, Members.nodes, Members.nodes,
      sameAttributes_append type.length_nodes_densify, type.sameAttributes_iff,
      rest.sameAttributes_iff]
    simp only [BareMembers, List.forall_mem_append]
end

/-- Densification keeps the attributes of all nodes of a type exactly when none of its
records and tuples has any. -/
theorem densify_keeps_attributes_iff (t : Datatype) :
    SameAttributes t.densify.nodes t.nodes ↔
      ∀ n ∈ t.nodes, n.hasMembers = true → n.attributes = [] :=
  t.sameAttributes_iff

/-- A record of one number, with an attribute each. -/
theorem densify_loses_attributes :
    let annotated : Datatype :=
      .record (.cons 0 (.scalar ⟨.signed, 4, 4, 4, none, none, [("unit", "m")], .inr (by decide)⟩)
        "x" .nil) 4 [("origin", "1")]
    annotated.nodes.map Datatype.attributes = [[("origin", "1")], [("unit", "m")]] ∧
      annotated.densify.nodes.map Datatype.attributes = [[], [("unit", "m")]] :=
  ⟨rfl, rfl⟩

/-! ## Sizes -/

def Datatype.scalar? : Datatype → Option Scalar
  | .scalar s => some s
  | _ => none

/-- The scalars a type is built from. -/
def Datatype.scalars (t : Datatype) : List Scalar := t.nodes.filterMap Datatype.scalar?

def Members.scalars (ms : Members) : List Scalar := ms.nodes.filterMap Datatype.scalar?

@[simp] theorem scalars_scalar (s : Scalar) : (Datatype.scalar s).scalars = [s] := rfl

@[simp] theorem scalars_array (t : Datatype) (size start subsize : Nat) (as : Attributes) :
    (Datatype.array t size start subsize as).scalars = t.scalars := rfl

@[simp] theorem scalars_record (ms : Members) (n : Nat) (as : Attributes) :
    (Datatype.record ms n as).scalars = ms.scalars := rfl

@[simp] theorem scalars_tuple (ms : Members) (n : Nat) (as : Attributes) :
    (Datatype.tuple ms n as).scalars = ms.scalars := rfl

@[simp] theorem scalars_pointer (t : Datatype) (copy destroy : Option FunctionName)
    (as : Attributes) : (Datatype.pointer t copy destroy as).scalars = t.scalars := rfl

@[simp] theorem scalars_nil : Members.nil.scalars = [] := rfl

@[simp] theorem scalars_cons (d : Nat) (t : Datatype) (name : String) (rest : Members) :
    (Members.cons d t name rest).scalars = t.scalars ++ rest.scalars := List.filterMap_append

/-- A scalar that is an element of an array, or a member of a struct, takes its size:
the element after it is that far away, and so the layout of the struct goes on after
that many bytes. -/
structure Scalar.TakesItsSize (s : Scalar) : Prop where
  array : ∀ (size start subsize : Nat) (attributes : Attributes) (i data : Nat) (mem : Mem Byte),
    i + 1 < subsize → ∃ a,
      (Datatype.array (.scalar s) size start subsize attributes).index i data mem =
        .ok (a, .scalar s) ∧
      (Datatype.array (.scalar s) size start subsize attributes).index (i + 1) data mem =
        .ok (a + s.size, .scalar s)
  struct : ∀ (name : String) (rest : List (String × Datatype)) (displacement : Nat),
    Machine.layOutEnd ((name, .scalar s) :: rest) displacement =
      Machine.layOutEnd rest
        (Machine.wrap (Machine.wrap (alignUp displacement s.align) + s.size))

structure SizesConsistent (t : Datatype) : Prop where
  fits : Machine.datasize t ≤ Machine.buffersize t
  densified : Machine.datasize (Machine.densify t) = Machine.datasize t
  scalars : ∀ s ∈ t.scalars, s.TakesItsSize

/-- A type spans as many bytes as its parts hold, modulo 2^64. Neither arrays of more bytes
or with a window larger than themselves nor records with members that overlap are refused
when they are built. -/
def Datatype.HasRoom : Datatype → Prop
  | .array subtype size _ subsize _ =>
    Machine.wrap (subsize * subtype.datasize) ≤ Machine.wrap (size * subtype.buffersize)
  | .record members buffersize _ => Machine.wrap members.datasize ≤ Machine.wrap buffersize
  | .tuple elements buffersize _ => Machine.wrap elements.datasize ≤ Machine.wrap buffersize
  | _ => True

theorem Scalar.takesItsSize_iff (s : Scalar) : s.TakesItsSize ↔ s.denseSize = s.size := by
  constructor
  · intro h
    obtain ⟨a, hfirst, hsecond⟩ := h.array 2 0 2 [] 0 0 (fun _ => 0) (by decide)
    cases hfirst
    have hplace := congrArg Prod.fst (Except.ok.inj hsecond)
    simpa [Datatype.buffersize] using hplace
  · intro h
    refine ⟨fun size start subsize attributes i data mem hi => ?_, fun name rest d => ?_⟩
    · refine ⟨data + s.denseSize * (start + i), ?_, ?_⟩
      · simp [Datatype.index, show i < subsize by omega, Datatype.buffersize]
      · simp only [Datatype.index, if_pos hi, Datatype.buffersize, ← h]
        rw [← Nat.add_assoc start i 1, Nat.mul_succ, Nat.add_assoc]
    · rw [Machine.layOutEnd, Machine.buffersize, h, Machine.wrap_add_wrap]
      rfl

mutual
theorem Datatype.sized_of_scalars : ∀ {t : Datatype}, (∀ s ∈ t.scalars, s.denseSize = s.size) →
    t.Sized
  | .scalar s, h => (h s (by simp)).symm
  | .array _ _ _ _ _, h => .inr (Datatype.sized_of_scalars h)
  | .record members _ _, h | .tuple members _ _, h => Members.sized_of_scalars (m := members) h
  | .pointer _ _ _ _, _ => trivial

theorem Members.sized_of_scalars : ∀ {m : Members}, (∀ s ∈ m.scalars, s.denseSize = s.size) →
    m.Sized
  | .nil, _ => trivial
  | .cons _ _ _ _, h => by
    rw [scalars_cons, List.forall_mem_append] at h
    exact ⟨Datatype.sized_of_scalars h.1, Members.sized_of_scalars h.2⟩
end

mutual
theorem Datatype.Sized.datasize_densify : ∀ {t : Datatype}, t.Sized →
    (Machine.densify t).datasize = t.datasize
  | .scalar _, h => h.symm
  | .array subtype _ _ subsize _, h => by
    simp only [Machine.densify, Datatype.datasize]
    obtain rfl | h := h
    · simp
    · rw [Datatype.Sized.datasize_densify h]
  | .record members _ _, h | .tuple members _ _, h =>
    Members.Sized.datasize_densify (m := members) h 0
  | .pointer _ _ _ _, _ => rfl

theorem Members.Sized.datasize_densify : ∀ {m : Members}, m.Sized → ∀ c,
    (Machine.layOut (Machine.densified m) c).datasize = m.datasize
  | .nil, _, _ => rfl
  | .cons _ _ _ _, h, _ => by
    simp only [Machine.densified, Machine.layOut, Members.datasize, h.1.datasize_densify,
      h.2.datasize_densify]
end

/-- For scalars of one size, nothing but the room is in question. -/
theorem Datatype.Sized.hasRoom_iff {t : Datatype} (h : t.Sized) :
    t.HasRoom ↔ Machine.datasize t ≤ Machine.buffersize t := by
  rw [Machine.datasize_eq, Machine.buffersize_eq]
  cases t with
  | scalar => exact iff_of_true trivial (Nat.le_of_eq (congrArg _ h))
  | array | record | tuple => exact Iff.rfl
  | pointer => exact iff_of_true trivial (Nat.le_refl _)

theorem sizesConsistent_iff_hasRoom {t : Datatype} :
    SizesConsistent t ↔ (∀ s ∈ t.scalars, s.denseSize = s.size) ∧ t.HasRoom := by
  constructor
  · intro h
    have hsizes : ∀ s ∈ t.scalars, s.denseSize = s.size :=
      fun s hs => s.takesItsSize_iff.mp (h.scalars s hs)
    exact ⟨hsizes, (Datatype.sized_of_scalars hsizes).hasRoom_iff.mpr h.fits⟩
  · rintro ⟨hsizes, hroom⟩
    have hsized := Datatype.sized_of_scalars hsizes
    have hdensified : Machine.datasize (Machine.densify t) = Machine.datasize t := by
      rw [Machine.datasize_eq, Machine.datasize_eq, hsized.datasize_densify]
    exact ⟨hsized.hasRoom_iff.mp hroom, hdensified,
      fun s hs => s.takesItsSize_iff.mpr (hsizes s hs)⟩

/-- The sizes of a well-formed type of less than 2^64 bytes are consistent exactly when all
its scalars have one size. Those of any other type are so if it also has room for its data. -/
theorem sizesConsistent_iff (t : Datatype) :
    (t.WellFormed → t.buffersize < 2 ^ 64 →
        (SizesConsistent t ↔ ∀ s ∈ t.scalars, s.denseSize = s.size)) ∧
      (SizesConsistent t ↔ (∀ s ∈ t.scalars, s.denseSize = s.size) ∧ t.HasRoom) := by
  refine ⟨fun hw hbound => ?_, sizesConsistent_iff_hasRoom⟩
  rw [sizesConsistent_iff_hasRoom]
  refine ⟨And.left, fun hsizes => ⟨hsizes, ?_⟩⟩
  have hsized := Datatype.sized_of_scalars hsizes
  rw [hsized.hasRoom_iff, Machine.datasize_eq, Machine.buffersize_eq, Machine.wrap_of_lt hbound]
  exact (Machine.wrap_le _).trans (Datatype.datasize_le hw hsized)

/-- Eight bytes that can be stored in four. -/
def twoSizes : Scalar :=
  ⟨.signed, 8, 4, 4, none, none, [], .inr (by decide)⟩

/-- Three of them span twelve bytes for twenty-four bytes of data. The densified array
has half of these, and the second element comes four bytes after the first. -/
theorem twoSizes_inconsistent :
    let t : Datatype := .array (.scalar twoSizes) 3 0 3 []
    (∀ s ∈ t.scalars, s.denseSize ≤ s.size) ∧ t.WellFormed ∧
      Machine.datasize t = 24 ∧ Machine.buffersize t = 12 ∧
      Machine.datasize (Machine.densify t) = 12 ∧
      t.index 0 100 (fun _ => 0) = .ok (100, .scalar twoSizes) ∧
      t.index 1 100 (fun _ => 0) = .ok (104, .scalar twoSizes) := by
  refine ⟨by decide, ⟨Nat.succ_pos 3, by decide⟩, rfl, rfl, rfl, rfl, rfl⟩

end Pdi.Datatypes
