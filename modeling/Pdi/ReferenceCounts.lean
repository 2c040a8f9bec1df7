import Pdi.ReferenceSteps

/-!
# Counting linked references

How many references with given rights are linked to a buffer, and how each
primitive of the reference operations changes that number.
-/
namespace Pdi.Reference

open Pdi.Memory Pdi.Datatypes

variable {h : Heap} {x : Ref} {k : Content}

/-- The number of references linked to buffer `b` whose rights satisfy `p`. -/
def Heap.count (h : Heap) (p : Bool → Bool → Bool) (b : Nat) : Nat :=
  h.refs.countP (fun slot => slot.any (fun x => p x.read x.write && onBuffer h.contents b x))

def Heap.writers (h : Heap) (b : Nat) : Nat := h.count (fun _ write => write) b
def Heap.users (h : Heap) (b : Nat) : Nat := h.count (fun read write => read || write) b
def Heap.links (h : Heap) (b : Nat) : Nat := h.count (fun _ _ => true) b

@[simp] theorem setRef_contents (h : Heap) (r : Nat) (x : Option Ref) :
    (h.setRef r x).contents = h.contents := rfl
@[simp] theorem setRef_buffers (h : Heap) (r : Nat) (x : Option Ref) :
    (h.setRef r x).buffers = h.buffers := rfl
@[simp] theorem modifyBuffer_refs (h : Heap) (b : Nat) (f : Buffer → Buffer) :
    (h.modifyBuffer b f).refs = h.refs := rfl
@[simp] theorem modifyBuffer_contents (h : Heap) (b : Nat) (f : Buffer → Buffer) :
    (h.modifyBuffer b f).contents = h.contents := rfl
@[simp] theorem newRef_contents (h : Heap) (read write : Bool) :
    (h.newRef read write).contents = h.contents := rfl
@[simp] theorem newRef_buffers (h : Heap) (read write : Bool) :
    (h.newRef read write).buffers = h.buffers := rfl

/-- Replacing one slot of a table moves a count by the difference of the two entries. -/
theorem countP_set_add {α : Type} (p : α → Bool) (l : List α) (i : Nat) (x y : α)
    (h : l[i]? = some x) : (l.set i y).countP p + (p x).toNat = l.countP p + (p y).toNat := by
  induction l generalizing i with
  | nil => simp at h
  | cons a l ih =>
    cases i with
    | zero =>
      obtain rfl : a = x := by simpa using h
      simp only [List.set_cons_zero, List.countP_cons]
      cases p a <;> cases p y <;> simp
    | succ i =>
      have := ih i (by simpa using h)
      simp only [List.set_cons_succ, List.countP_cons]
      omega

theorem count_setRef {r : Nat} (hx : h.ref? r = some x) (y : Option Ref) (p : Bool → Bool → Bool)
    (b : Nat) :
    (h.setRef r y).count p b + (p x.read x.write && onBuffer h.contents b x).toNat =
      h.count p b + (y.any (fun z => p z.read z.write && onBuffer h.contents b z)).toNat :=
  countP_set_add _ h.refs r (some x) y (ref?_eq_some.mp hx)

theorem count_newRef (h : Heap) (read write : Bool) (p : Bool → Bool → Bool) (b : Nat) :
    (h.newRef read write).count p b = h.count p b := by
  simp [Heap.count, Heap.newRef, onBuffer]

theorem count_modifyBuffer (h : Heap) (b' : Nat) (f : Buffer → Buffer) (p : Bool → Bool → Bool)
    (b : Nat) : (h.modifyBuffer b' f).count p b = h.count p b := rfl

theorem count_collect (h : Heap) (b' : Nat) (p : Bool → Bool → Bool) (b : Nat) :
    (h.collect b').count p b = h.count p b := by simp [Heap.count]

/-- Linking a null reference adds it to the counts of one buffer. -/
theorem count_attach {r c : Nat} (hx : h.ref? r = some x) (hnull : x.content = none)
    (hk : h.contents[c]? = some k) (p : Bool → Bool → Bool) (b : Nat) :
    (h.setRef r (some { x with content := some c })).count p b =
      h.count p b + (p x.read x.write && k.buffer == b).toNat := by
  have := count_setRef hx (some { x with content := some c }) p b
  simpa [onBuffer, hnull, hk] using this

theorem count_detach {r c : Nat} (hx : h.ref? r = some x) (hc : x.content = some c)
    (hk : h.contents[c]? = some k) (y : Option Ref)
    (hy : y.all (fun z => z.content.isNone) = true) (p : Bool → Bool → Bool) (b : Nat) :
    (h.setRef r y).count p b + (p x.read x.write && k.buffer == b).toNat = h.count p b := by
  have := count_setRef hx y p b
  cases y with
  | none => simpa [onBuffer, hc, hk] using this
  | some z =>
    have hz : z.content = none := by simpa using hy
    simpa [onBuffer, hc, hk, hz] using this

/-- Changing a content without moving it to another buffer leaves the links as they are. -/
theorem onBuffer_modify (contents : List Content) (c : Nat) (f : Content → Content)
    (hf : ∀ k, (f k).buffer = k.buffer) (b : Nat) (x : Ref) :
    onBuffer (contents.modify c f) b x = onBuffer contents b x := by
  cases hc : x.content with
  | none => simp [onBuffer, hc]
  | some d =>
    simp only [onBuffer, hc, Option.any_some, List.getElem?_modify]
    cases contents[d]? with
    | none => rfl
    | some =>
      by_cases hcd : c = d
      · simp [hcd, hf]
      · simp [hcd]

theorem count_modifyContent (h : Heap) (c : Nat) (f : Content → Content)
    (hf : ∀ k, (f k).buffer = k.buffer) (p : Bool → Bool → Bool) (b : Nat) :
    (h.modifyContent c f).count p b = h.count p b := by
  simp only [Heap.count, Heap.modifyContent, onBuffer_modify _ _ _ hf]

theorem onBuffer_append {contents : List Content} (k : Content) (b : Nat)
    (hx : ∀ c, x.content = some c → c < contents.length) :
    onBuffer (contents ++ [k]) b x = onBuffer contents b x := by
  cases hc : x.content with
  | none => simp [onBuffer, hc]
  | some d => simp [onBuffer, hc, List.getElem?_append_left (hx d hc)]

theorem links_eq_zero {b : Nat} : h.links b = 0 ↔ h.refs.any (h.linked b) = false := by
  simp [Heap.links, Heap.count, List.countP_eq_zero, Heap.linked]

end Pdi.Reference
