import Mathlib.Data.List.Range
import Mathlib.Tactic.Common

/-!
# Ring buffers

A ring of `n` cells with two positions: elements go in at `head` and come out at
`tail`. Where the positions meet the ring is empty, so one cell always stays unused.
The ring holds a queue: a push appends to it and a pop takes its first element.
-/
namespace X86System

structure Ring (α : Type*) (n : ℕ) where
  cells : Vector α n
  head : Fin n
  tail : Fin n

namespace Ring

variable {α : Type*} {n : ℕ}

/-- The position behind another. -/
def next (i : Fin n) : Fin n := ⟨(i + 1) % n, Nat.mod_lt _ i.pos⟩

theorem next_val (i : Fin n) : (next i).val = if i.val + 1 = n then 0 else i.val + 1 := by
  have hi := i.isLt
  unfold next
  split_ifs with h
  · simp only [h, Nat.mod_self]
  · exact Nat.mod_eq_of_lt (by omega)

/-- No cell is free that may be used. -/
def full (r : Ring α n) : Prop := next r.head = r.tail

def empty (r : Ring α n) : Prop := r.head = r.tail

instance (r : Ring α n) : Decidable r.full := inferInstanceAs (Decidable (_ = _))

instance (r : Ring α n) : Decidable r.empty := inferInstanceAs (Decidable (_ = _))

def cell (r : Ring α n) (i : Fin n) : α := r.cells[i]

def push (r : Ring α n) (a : α) : Ring α n :=
  { r with cells := r.cells.set r.head a, head := next r.head }

/-- The element that comes out next. -/
def front (r : Ring α n) : α := r.cell r.tail

def pop (r : Ring α n) : Ring α n := { r with tail := next r.tail }

/-- How many cells there are from `tail` up to `head`. -/
def length (r : Ring α n) : ℕ :=
  if r.tail ≤ r.head then r.head.val - r.tail.val else n - (r.tail.val - r.head.val)

/-- The position `k` places behind `tail`. -/
def place (r : Ring α n) (k : ℕ) : Fin n := ⟨(r.tail + k) % n, Nat.mod_lt _ r.tail.pos⟩

/-- The queue that the ring holds. -/
def items (r : Ring α n) : List α := (List.range r.length).map fun k => r.cell (r.place k)

@[simp] theorem length_items (r : Ring α n) : r.items.length = r.length := by
  simp [items]

theorem length_lt (r : Ring α n) : r.length < n := by
  have hh := r.head.isLt
  have ht := r.tail.isLt
  unfold length
  split_ifs with h
  · omega
  · have h : r.head.val < r.tail.val := Nat.not_le.mp h
    omega

theorem place_val (r : Ring α n) {k : ℕ} (hk : k < n) :
    (r.place k).val = if r.tail.val + k < n then r.tail.val + k else r.tail.val + k - n := by
  have ht := r.tail.isLt
  change (r.tail.val + k) % n = _
  split_ifs with h
  · exact Nat.mod_eq_of_lt h
  · rw [Nat.mod_eq_sub_mod (by omega)]
    exact Nat.mod_eq_of_lt (by omega)

theorem length_eq_zero (r : Ring α n) : r.length = 0 ↔ r.empty := by
  have hh := r.head.isLt
  have ht := r.tail.isLt
  unfold length empty
  rw [Fin.ext_iff]
  split_ifs with h
  · have h : r.tail.val ≤ r.head.val := h
    omega
  · have h : r.head.val < r.tail.val := Nat.not_le.mp h
    omega

/-- The ring is full when all cells but one are taken. -/
theorem full_iff (r : Ring α n) : r.full ↔ r.length + 1 = n := by
  have hh := r.head.isLt
  have ht := r.tail.isLt
  have hnext := next_val r.head
  unfold full
  rw [Fin.ext_iff, hnext]
  simp only [length, Fin.le_def]
  split_ifs <;> omega

theorem length_push {r : Ring α n} (hfull : ¬ r.full) (a : α) :
    (r.push a).length = r.length + 1 := by
  have hh := r.head.isLt
  have ht := r.tail.isLt
  have hnext := next_val r.head
  unfold full at hfull
  rw [Fin.ext_iff, hnext] at hfull
  simp only [length, push, Fin.le_def, hnext]
  split_ifs at hfull ⊢ <;> omega

theorem length_pop {r : Ring α n} (hempty : ¬ r.empty) : r.pop.length + 1 = r.length := by
  have hh := r.head.isLt
  have ht := r.tail.isLt
  have hnext := next_val r.tail
  unfold empty at hempty
  rw [Fin.ext_iff] at hempty
  simp only [length, pop, Fin.le_def, hnext]
  split_ifs <;> omega

/-- The position behind the queue is `head`. -/
theorem place_length (r : Ring α n) : r.place r.length = r.head := by
  have hh := r.head.isLt
  have ht := r.tail.isLt
  rw [Fin.ext_iff, place_val r r.length_lt]
  simp only [length, Fin.le_def]
  split_ifs <;> omega

theorem place_ne_head {r : Ring α n} {k : ℕ} (hk : k < r.length) : r.place k ≠ r.head := by
  have hlen := r.length_lt
  rw [← place_length r, Ne, Fin.ext_iff, place_val r (by omega), place_val r hlen]
  split_ifs <;> omega

theorem cell_push_head (r : Ring α n) (a : α) : (r.push a).cell r.head = a :=
  Vector.getElem_set_self r.head.isLt

theorem cell_push_of_ne {r : Ring α n} {i : Fin n} (h : i ≠ r.head) (a : α) :
    (r.push a).cell i = r.cell i :=
  Vector.getElem_set_ne r.head.isLt i.isLt fun heq => h (Fin.ext heq.symm)

/-- A push appends its element to the queue. -/
theorem items_push {r : Ring α n} (hfull : ¬ r.full) (a : α) : (r.push a).items = r.items ++ [a] := by
  have hplace : ∀ k, (r.push a).place k = r.place k := fun _ => rfl
  unfold items
  rw [length_push hfull, List.range_succ, List.map_append]
  congr 1
  · apply List.map_congr_left
    intro k hk
    rw [hplace, cell_push_of_ne (place_ne_head (List.mem_range.mp hk))]
  · rw [List.map_singleton, hplace, place_length, cell_push_head]

/-- A pop takes the first element of the queue. -/
theorem items_pop {r : Ring α n} (hempty : ¬ r.empty) : r.items = r.front :: r.pop.items := by
  have hzero : r.place 0 = r.tail := Fin.ext (Nat.mod_eq_of_lt r.tail.isLt)
  have hlen := length_pop hempty
  have hlt := r.length_lt
  unfold items
  rw [← hlen, List.range_succ_eq_map, List.map_cons, List.map_map, hzero]
  congr 1
  apply List.map_congr_left
  intro k hk
  have hk : k < r.pop.length := List.mem_range.mp hk
  have hplace : r.place (k + 1) = r.pop.place k := by
    have hnext : r.pop.tail.val = _ := next_val r.tail
    have ht := r.tail.isLt
    rw [Fin.ext_iff, place_val r (by omega), place_val r.pop (by omega), hnext]
    split_ifs <;> omega
  rw [Function.comp_apply, Nat.succ_eq_add_one, hplace]
  rfl

end Ring

end X86System
