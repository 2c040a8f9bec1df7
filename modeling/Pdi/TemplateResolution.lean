import Mathlib.Data.Fintype.EquivFin
import Pdi.Templates

/-!
# Which type nodes can be resolved

Nothing in the resolution of a type remembers the types that are being resolved. It comes
to an end where no node refers to itself through others. Where one does, it goes on for
ever, unless an error ends it before it comes to the reference that closes the cycle.
-/
namespace Pdi.Templates

open Pdi.Datatypes Pdi.OpenRecursion Relation

/-! ## References -/

section References

variable {ν ε : Type} (doc : ν → Node ν) (registry : Registry ν)

/-- The nodes that the node of a type mentions for its sub-types, or the definition of the
type. -/
def Parser.Mentions (n c : ν) : Parser ν → Prop
  | .array | .pointer => pcGet doc (.ok n) "subtype" = .ok c
  | .tuple => ∃ list items, pcGet doc (.ok n) "elements" = .ok list ∧
      doc list = .sequence items ∧ c ∈ items
  | .record => ∃ list pairs, pcGet doc (.ok n) "members" = .ok list ∧
      doc list = .mapping pairs ∧ c ∈ pairs.map Prod.snd
  | .struct => ∃ list items, pcGet doc (.ok n) "members" = .ok list ∧
      doc list = .sequence items ∧ ∃ e ∈ items, ∃ key, doc e = .mapping [(key, c)]
  | .scalar _ _ | .fortran _ _ => False
  | .user definition => c = definition

variable {doc registry} {read : Expressions ν ε} {n : ν} {allowed : ν → Prop}

end References

section Ends

variable {size : Nat} {ε : Type} (doc : Fin size → Node (Fin size))
  (read : Expressions (Fin size) ε)

/-- The resolution of a node with the basic types and those of a types section. -/
def datatypeOf (types : Tree (Fin size)) (fuel : Nat) (node : Fin size) :
    Option (Except Failure (Template ε)) :=
  match loadUserDatatypes doc types basicDatatypes with
  | .error e => some (.error e)
  | .ok registry => resolve (datatype doc read registry) fuel node

end Ends

/-! ## A type that points to itself -/

end Pdi.Templates
