import Pdi.ExpressionCopy

/-!
# What a copy leaves in a buffer

The writes of a copy, one after the other, turn the memory that was there into the
content of the buffer. Writes that stay in one part of the buffer leave the other parts
as they are, and what they leave in their own part does not depend on where it is.
-/
namespace Pdi.Expression

open Pdi.Datatypes Pdi.Memory Pdi.Trace

variable {a n : Nat} {ctx : DataContext} {copyValue : Datatype → Copy Nat} {type : Datatype}
  {v : Value}

/-- The memory behind the writes. -/
def written (mem : Mem Byte) (writes : List Write) : Mem Byte :=
  writes.foldl (fun mem w => w.into mem) mem

theorem written_cons (mem : Mem Byte) (w : Write) (ws : List Write) :
    written mem (w :: ws) = written (w.into mem) ws := rfl

theorem written_append (mem : Mem Byte) (ws ws' : List Write) :
    written mem (ws ++ ws') = written (written mem ws) ws' := List.foldl_append

/-! ## One write -/

theorem into_hit (w : Write) (mem : Mem Byte) {i : Nat} (hi : i < w.data.length) :
    w.into mem (w.offset + i) = w.data[i] := by
  unfold Write.into
  rw [if_pos (Nat.le_add_right _ _), Nat.add_sub_cancel_left, List.getElem?_eq_getElem hi,
    Option.getD_some]

theorem into_miss (w : Write) (mem : Mem Byte) (ha : a < w.offset ∨ w.offset + w.data.length ≤ a) :
    w.into mem a = mem a := by
  unfold Write.into
  by_cases h : w.offset ≤ a
  · rw [if_pos h, List.getElem?_eq_none (by omega), Option.getD_none]
  · rw [if_neg h]

/-- The bytes that are written at the start, and behind them what was there. -/
theorem bytes_into (data : List Byte) (mem : Mem Byte) (hn : data.length ≤ n) :
    bytes ((⟨0, data⟩ : Write).into mem) 0 n = data ++ bytes mem data.length (n - data.length) := by
  refine List.ext_getElem (by simp; omega) ?_
  intro i hi hi'
  simp only [length_bytes] at hi
  simp only [bytes, List.getElem_map, List.getElem_range, Nat.zero_add]
  by_cases h : i < data.length
  · have hhit := into_hit (⟨0, data⟩ : Write) mem (i := i) h
    rw [Nat.zero_add] at hhit
    rw [hhit, List.getElem_append_left h]
  · rw [into_miss _ _ (.inr (by simpa using h)), List.getElem_append_right (by omega),
      List.getElem_map, List.getElem_range]
    congr 1
    omega

theorem bytes_into_all (data : List Byte) (mem : Mem Byte) :
    bytes ((⟨0, data⟩ : Write).into mem) 0 data.length = data := by
  rw [bytes_into data mem le_rfl, Nat.sub_self]
  exact List.append_nil data

/-! ## Writes into a part of the buffer -/

/-- Writes into `size` bytes from `offset` on leave all other bytes alone. -/
theorem written_shift_outside {size offset : Nat} (ha : a < offset ∨ offset + size ≤ a)
    (ws : List Write) (hws : ∀ w ∈ ws, w.Inside size) (mem : Mem Byte) :
    written mem (ws.map (Write.shift offset)) a = mem a := by
  induction ws generalizing mem with
  | nil => rfl
  | cons w ws ih =>
    rw [List.map_cons, written_cons, ih fun w' hw' => hws w' (List.mem_cons_of_mem w hw')]
    refine into_miss _ _ ?_
    have hw : w.data.length = 0 ∨ w.offset + w.data.length ≤ size := hws w List.mem_cons_self
    simp only [Write.shift]
    omega

theorem into_shift (offset : Nat) (w : Write) (mem : Mem Byte) (b : Nat) :
    (w.shift offset).into mem (offset + b) = w.into (fun b => mem (offset + b)) b := by
  by_cases h : w.offset ≤ b ∧ b < w.offset + w.data.length
  · obtain ⟨i, rfl⟩ := Nat.exists_eq_add_of_le h.1
    have hi : i < w.data.length := by omega
    rw [into_hit w _ hi, ← Nat.add_assoc]
    exact into_hit (w.shift offset) mem hi
  · rw [into_miss w _ (by omega)]
    refine into_miss (w.shift offset) mem ?_
    simp only [Write.shift]
    omega

/-- The same writes elsewhere leave the same bytes. -/
theorem written_shift (offset : Nat) (ws : List Write) (mem : Mem Byte) (a : Nat) :
    written mem (ws.map (Write.shift offset)) (offset + a) =
      written (fun b => mem (offset + b)) ws a := by
  induction ws generalizing mem with
  | nil => rfl
  | cons w ws ih =>
    rw [List.map_cons, written_cons, ih, written_cons]
    congr 1
    funext b
    exact into_shift offset w mem b

theorem bytes_written_shift (offset size : Nat) (ws : List Write) (mem : Mem Byte) :
    bytes (written mem (ws.map (Write.shift offset))) offset size =
      bytes (written (fun b => mem (offset + b)) ws) 0 size := by
  rw [bytes_eq_iff]
  refine ⟨rfl, ?_⟩
  intro i _
  rw [written_shift, Nat.zero_add]

/-- Writes that belong to a part of a buffer. -/
structure Slot where
  offset : Nat
  size : Nat
  writes : List Write

def Slot.Inside (p : Slot) : Prop := ∀ w ∈ p.writes, w.Inside p.size

def Slot.Apart (p q : Slot) : Prop := p.offset + p.size ≤ q.offset ∨ q.offset + q.size ≤ p.offset

/-- The writes of all slots, as writes into the whole buffer. -/
def placed (slots : List Slot) : List Write :=
  slots.flatMap fun p => p.writes.map (Write.shift p.offset)

theorem placed_cons (p : Slot) (slots : List Slot) :
    placed (p :: slots) = p.writes.map (Write.shift p.offset) ++ placed slots := rfl

variable {slots : List Slot}

theorem written_placed_apart (hinside : ∀ p ∈ slots, p.Inside)
    (ha : ∀ p ∈ slots, a < p.offset ∨ p.offset + p.size ≤ a) (mem : Mem Byte) :
    written mem (placed slots) a = mem a := by
  induction slots generalizing mem with
  | nil => rfl
  | cons p slots ih =>
    rw [List.forall_mem_cons] at hinside ha
    rw [placed_cons, written_append, ih hinside.2 ha.2,
      written_shift_outside ha.1 p.writes hinside.1]

/-- Each slot leaves in its part what it would leave in a buffer of its own. -/
theorem bytes_placed (hinside : ∀ p ∈ slots, p.Inside) (hapart : slots.Pairwise Slot.Apart)
    {p : Slot} (hp : p ∈ slots) (mem : Mem Byte) :
    ∃ before, bytes (written mem (placed slots)) p.offset p.size =
      bytes (written before p.writes) 0 p.size := by
  induction slots generalizing mem with
  | nil => cases hp
  | cons q slots ih =>
    rw [List.forall_mem_cons] at hinside
    rw [List.pairwise_cons] at hapart
    rw [placed_cons, written_append]
    rcases List.mem_cons.mp hp with rfl | hp
    · refine ⟨fun b => mem (p.offset + b), ?_⟩
      rw [← bytes_written_shift, bytes_eq_iff]
      refine ⟨rfl, fun i hi => written_placed_apart hinside.2 ?_ _⟩
      intro q hq
      have hpq := hapart.1 q hq
      unfold Slot.Apart at hpq
      omega
    · exact ih hinside.2 hapart.2 hp _

theorem inside_placed {total : Nat} (hinside : ∀ p ∈ slots, p.Inside)
    (htotal : ∀ p ∈ slots, p.offset + p.size ≤ total) : ∀ w ∈ placed slots, w.Inside total := by
  intro w hw
  obtain ⟨p, hp, hw⟩ := List.mem_flatMap.mp hw
  obtain ⟨w', hw', rfl⟩ := List.mem_map.mp hw
  have hroom : w'.data.length = 0 ∨ w'.offset + w'.data.length ≤ p.size := hinside p hp w' hw'
  have hend := htotal p hp
  rcases hroom with hzero | hroom
  · exact .inl hzero
  · refine .inr ?_
    simp only [Write.shift]
    omega

/-- A part of a block. -/
theorem drop_take_bytes (mem : Mem Byte) {d k : Nat} (h : d + k ≤ n) :
    ((bytes mem a n).drop d).take k = bytes mem (a + d) k := by
  refine List.ext_getElem (by simp; omega) ?_
  intro i hi hi'
  simp only [bytes, List.getElem_take, List.getElem_drop, List.getElem_map, List.getElem_range]
  rw [Nat.add_assoc]

/-! ## Blocks of memory -/

/-- A block is allocated for a type with an alignment, and filled by a copy that returns
and stays inside. -/
theorem allocate_eq_ok : allocate ctx copyValue type = .ok v ↔
      type.alignment ≠ 0 ∧ (∀ w ∈ (copyValue type).trace, w.Inside type.buffersize) ∧
      (∃ n, (copyValue type).result = .ok n) ∧
      v = ⟨type, bytes (written ctx.fresh (copyValue type).trace) 0 type.buffersize, true, true,
        length_bytes _ _ _⟩ := by
  unfold allocate
  by_cases halign : type.alignment = 0
  · rw [if_pos halign]
    exact ⟨fun h => (by cases h), fun h => absurd halign h.1⟩
  rw [if_neg halign]
  by_cases hinside : ∀ w ∈ (copyValue type).trace, w.Inside type.buffersize
  · rw [if_pos hinside]
    cases hresult : (copyValue type).result with
    | error => exact ⟨fun h => (by cases h), fun ⟨_, _, ⟨_, hn⟩, _⟩ => (by cases hn)⟩
    | ok n =>
      constructor
      · intro h
        exact ⟨halign, hinside, ⟨n, rfl⟩, (Except.ok.inj h).symm⟩
      · rintro ⟨-, -, -, rfl⟩
        rfl
  · rw [if_neg hinside]
    exact ⟨fun h => (by cases h), fun h => absurd h.2.1 hinside⟩

theorem allocate_type (h : allocate ctx copyValue type = .ok v) : v.type = type := by
  obtain ⟨-, -, -, rfl⟩ := allocate_eq_ok.mp h
  rfl

/-- An allocation returns a readable value if all writes are inside of the buffer. -/
theorem allocate_ok (ctx : DataContext) (copyValue : Datatype → Copy Nat) (type : Datatype)
    (halign : type.alignment ≠ 0) (hinside : ∀ w ∈ (copyValue type).trace, w.Inside type.buffersize)
    (hresult : (copyValue type).result = .ok n) :
    ∃ v, allocate ctx copyValue type = .ok v ∧ v.type = type ∧ v.readable = true :=
  ⟨_, allocate_eq_ok.mpr ⟨halign, hinside, ⟨n, hresult⟩, rfl⟩, rfl, rfl⟩

/-- What stops the copy stops the allocation, if the writes up to then are inside. -/
theorem allocate_error (ctx : DataContext) (copyValue : Datatype → Copy Nat) {f : Failure}
    (halign : type.alignment ≠ 0) (hinside : ∀ w ∈ (copyValue type).trace, w.Inside type.buffersize)
    (hresult : (copyValue type).result = .error f) : allocate ctx copyValue type = .error f := by
  unfold allocate
  rw [if_neg halign, if_pos hinside, hresult]
  rfl

theorem allocate_outside (ctx : DataContext) (copyValue : Datatype → Copy Nat)
    (halign : type.alignment ≠ 0)
    (houtside : ∃ w ∈ (copyValue type).trace, ¬ w.Inside type.buffersize) :
    allocate ctx copyValue type = .error outside := by
  obtain ⟨w, hw, hnot⟩ := houtside
  unfold allocate
  rw [if_neg halign, if_neg fun h => hnot (h w hw)]

end Pdi.Expression
