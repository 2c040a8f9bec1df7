import Mathlib.Data.List.Nodup
import Pdi.ExpressionRoom

/-!
# Copies of expressions

An `Expression` holds its implementation behind a pointer. A copy clones what is behind
the pointer, and each form clones itself by copying the expressions it is made of.

The entries of a mapping are in a hash table, which is walked in an order of its own. The
clone is filled entry by entry in the order in which the original is walked; nothing says
that it is then walked in the same order.
-/
namespace Pdi.Expression

open Pdi.Cursor Pdi.Datatypes Pdi.Trace

variable {names shared : List String} {name : String}

/-- The order in which a table is walked after these names have been put into it one
after the other. -/
structure Table where
  walk : List String → List String
  walk_perm : ∀ names, names.Nodup → (walk names).Perm names

variable {P : Platform}

/-- The entries of a table, in the order in which it is walked, that is filled with these
in their order. -/
def Table.fill {α : Type} (T : Table) (entries : List (String × α)) : List (String × α) :=
  (T.walk (entries.map Prod.fst)).filterMap fun name => entries.find? fun entry => entry.1 == name

def Entries.ofList : List (String × Form P) → Entries P
  | [] => .nil
  | (name, value) :: rest => .cons name value (.ofList rest)

def Entries.toList : Entries P → List (String × Form P)
  | .nil => []
  | .cons name value rest => (name, value) :: rest.toList

/-! ## Clones -/

mutual
/-- `clone` of the seven forms. -/
def Form.clone (T : Table) : Form P → Form P
  | .intLiteral value => .intLiteral value
  | .floatLiteral value => .floatLiteral value
  | .stringLiteral start values => .stringLiteral start (values.clone T)
  | .reference referenced format subelements =>
    .reference referenced format (subelements.clone T)
  | .operation first operands => .operation (first.clone T) (operands.clone T)
  | .sequence elements => .sequence (elements.clone T)
  | .mapping entries => .mapping (.ofList (T.fill (entries.clone T)))

def Values.clone (T : Table) : Values P → Values P
  | .nil => .nil
  | .cons e text rest => .cons (e.clone T) text (rest.clone T)

def Subelements.clone (T : Table) : Subelements P → Subelements P
  | .nil => .nil
  | .index e rest => .index (e.clone T) (rest.clone T)
  | .member e rest => .member (e.clone T) (rest.clone T)

def FormOperands.clone (T : Table) : FormOperands P → FormOperands P
  | .nil => .nil
  | .cons op e rest => .cons op (e.clone T) (rest.clone T)

def Forms.clone (T : Table) : Forms P → Forms P
  | .nil => .nil
  | .cons e rest => .cons (e.clone T) (rest.clone T)

/-- The entries that are put into the table of the clone. -/
def Entries.clone (T : Table) : Entries P → List (String × Form P)
  | .nil => []
  | .cons name e rest => (name, e.clone T) :: rest.clone T
end

/-! ## Objects -/

/-- What the expression objects of a program hold; an empty one holds nothing. -/
abbrev Objects (P : Platform) := Nat → Option (Form P)

def Objects.set (objects : Objects P) (x : Nat) (e : Option (Form P)) : Objects P :=
  fun y => if y = x then e else objects y

/-- `Expression(const Expression&)` -/
def Objects.construct (T : Table) (objects : Objects P) (x value : Nat) : Objects P :=
  match objects value with
  | some e => objects.set x (some (e.clone T))
  | none => objects.set x none

mutual
/-- No mapping has two entries of one name. -/
def Form.Distinct : Form P → Prop
  | .intLiteral _ | .floatLiteral _ => True
  | .stringLiteral _ values => values.Distinct
  | .reference _ _ subelements => subelements.Distinct
  | .operation first operands => first.Distinct ∧ operands.Distinct
  | .sequence elements => elements.Distinct
  | .mapping entries => entries.names.Nodup ∧ entries.Distinct

def Values.Distinct : Values P → Prop
  | .nil => True
  | .cons e _ rest => e.Distinct ∧ rest.Distinct

def Subelements.Distinct : Subelements P → Prop
  | .nil => True
  | .index e rest | .member e rest => e.Distinct ∧ rest.Distinct

def FormOperands.Distinct : FormOperands P → Prop
  | .nil => True
  | .cons _ e rest => e.Distinct ∧ rest.Distinct

def Forms.Distinct : Forms P → Prop
  | .nil => True
  | .cons e rest => e.Distinct ∧ rest.Distinct

def Entries.Distinct : Entries P → Prop
  | .nil => True
  | .cons _ e rest => e.Distinct ∧ rest.Distinct
end

mutual
/-- The table of every mapping is walked in the same order when it is filled in the order
in which it is walked. -/
def Form.Stable (T : Table) : Form P → Prop
  | .intLiteral _ | .floatLiteral _ => True
  | .stringLiteral _ values => values.Stable T
  | .reference _ _ subelements => subelements.Stable T
  | .operation first operands => first.Stable T ∧ operands.Stable T
  | .sequence elements => elements.Stable T
  | .mapping entries => T.walk entries.names = entries.names ∧ entries.Stable T

def Values.Stable (T : Table) : Values P → Prop
  | .nil => True
  | .cons e _ rest => e.Stable T ∧ rest.Stable T

def Subelements.Stable (T : Table) : Subelements P → Prop
  | .nil => True
  | .index e rest | .member e rest => e.Stable T ∧ rest.Stable T

def FormOperands.Stable (T : Table) : FormOperands P → Prop
  | .nil => True
  | .cons _ e rest => e.Stable T ∧ rest.Stable T

def Forms.Stable (T : Table) : Forms P → Prop
  | .nil => True
  | .cons e rest => e.Stable T ∧ rest.Stable T

def Entries.Stable (T : Table) : Entries P → Prop
  | .nil => True
  | .cons _ e rest => e.Stable T ∧ rest.Stable T
end

/-! ## Stable expressions are cloned as they are -/

section Fill

variable {α : Type} {T : Table} {entries : List (String × α)}

theorem find_name (h : (entries.map Prod.fst).Nodup) {entry : String × α}
    (hentry : entry ∈ entries) : (entries.find? fun e => e.1 == entry.1) = some entry := by
  induction entries with
  | nil => cases hentry
  | cons e rest ih =>
    rw [List.map_cons, List.nodup_cons] at h
    rcases List.mem_cons.mp hentry with rfl | hmem
    · exact List.find?_cons_of_pos (beq_self_eq_true entry.1)
    · have hne : e.1 ≠ entry.1 := by
        intro heq
        exact h.1 (heq ▸ List.mem_map_of_mem hmem)
      rw [List.find?_cons_of_neg (by simpa using hne)]
      exact ih h.2 hmem

theorem fill_of_walk (hnodup : (entries.map Prod.fst).Nodup)
    (hwalk : T.walk (entries.map Prod.fst) = entries.map Prod.fst) : T.fill entries = entries := by
  unfold Table.fill
  rw [hwalk, List.filterMap_map]
  calc entries.filterMap ((fun name => entries.find? fun e => e.1 == name) ∘ Prod.fst)
      = entries.filterMap some := List.filterMap_congr fun _ hentry => find_name hnodup hentry
    _ = entries := List.filterMap_some

theorem ofList_toList (entries : Entries P) : Entries.ofList entries.toList = entries := by
  cases entries with
  | nil => rfl
  | cons name value rest =>
    rw [Entries.toList, Entries.ofList, ofList_toList rest]

theorem names_toList (entries : Entries P) : entries.toList.map Prod.fst = entries.names := by
  cases entries with
  | nil => rfl
  | cons name value rest =>
    rw [Entries.toList, List.map_cons, names_toList rest, Entries.names]

mutual
theorem Form.clone_eq (T : Table) : ∀ e : Form P, e.Distinct → e.Stable T → e.clone T = e
  | .intLiteral _, _, _ | .floatLiteral _, _, _ => rfl
  | .stringLiteral start values, hd, hs =>
    congrArg (Form.stringLiteral start) (values.clone_eq T hd hs)
  | .reference referenced format subelements, hd, hs =>
    congrArg (Form.reference referenced format) (subelements.clone_eq T hd hs)
  | .operation first operands, hd, hs =>
    congrArg₂ Form.operation (first.clone_eq T hd.1 hs.1) (operands.clone_eq T hd.2 hs.2)
  | .sequence elements, hd, hs => congrArg Form.sequence (elements.clone_eq T hd hs)
  | .mapping entries, hd, hs => by
    have hclone := entries.clone_eq T hd.2 hs.2
    have hnames := names_toList entries
    rw [Form.clone, hclone, fill_of_walk (by rw [hnames]; exact hd.1) (by rw [hnames]; exact hs.1),
      ofList_toList]

theorem Values.clone_eq (T : Table) : ∀ es : Values P, es.Distinct → es.Stable T → es.clone T = es
  | .nil, _, _ => rfl
  | .cons e text rest, hd, hs => by
    rw [Values.clone, e.clone_eq T hd.1 hs.1, rest.clone_eq T hd.2 hs.2]

theorem Subelements.clone_eq (T : Table) :
    ∀ es : Subelements P, es.Distinct → es.Stable T → es.clone T = es
  | .nil, _, _ => rfl
  | .index e rest, hd, hs | .member e rest, hd, hs => by
    rw [Subelements.clone, e.clone_eq T hd.1 hs.1, rest.clone_eq T hd.2 hs.2]

theorem FormOperands.clone_eq (T : Table) :
    ∀ es : FormOperands P, es.Distinct → es.Stable T → es.clone T = es
  | .nil, _, _ => rfl
  | .cons op e rest, hd, hs => by
    rw [FormOperands.clone, e.clone_eq T hd.1 hs.1, rest.clone_eq T hd.2 hs.2]

theorem Forms.clone_eq (T : Table) : ∀ es : Forms P, es.Distinct → es.Stable T → es.clone T = es
  | .nil, _, _ => rfl
  | .cons e rest, hd, hs => by
    rw [Forms.clone, e.clone_eq T hd.1 hs.1, rest.clone_eq T hd.2 hs.2]

theorem Entries.clone_eq (T : Table) :
    ∀ es : Entries P, es.Distinct → es.Stable T → es.clone T = es.toList
  | .nil, _, _ => rfl
  | .cons name e rest, hd, hs => by
    rw [Entries.clone, e.clone_eq T hd.1 hs.1, rest.clone_eq T hd.2 hs.2, Entries.toList]
end

end Fill

/-! ## Copies -/

section Ways

variable {T : Table} {objects : Objects P} {x y : Nat} {e : Option (Form P)}

end Ways

/-- Nothing is shared, and the error says which name was asked for. -/
def missing : DataContext where
  desc name := .error (valueError (if name = ['a'] then "a" else "b"))
  desc_error _ _ h := by
    cases h
    exact ⟨_, _, rfl⟩
  mem _ := 0
  fresh _ := 0

end Pdi.Expression
