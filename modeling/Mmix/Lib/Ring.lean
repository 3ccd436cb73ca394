import Mathlib

/-!
# Ring buffers

A ring of a fixed capacity keeps its write index, its read index and its fill
level separately. In a valid ring the three agree, and the ring then holds a
list: pushing appends one element and reading removes a front segment.
-/

namespace Mmix

open List

/-- A ring buffer. Slots outside the filled segment may hold anything. -/
structure Ring (α : Type*) where
  buf : Nat → α
  head : Nat
  tail : Nat
  len : Nat

namespace Ring

variable {α : Type*} {capacity : Nat}

/-- The indices are in range and agree with the fill level. -/
structure Valid (capacity : Nat) (r : Ring α) : Prop where
  len_le : r.len ≤ capacity
  head_lt : r.head < capacity
  tail_lt : r.tail < capacity
  head_eq : r.head = (r.tail + r.len) % capacity

/-- The filled slots, oldest first. -/
def contents (capacity : Nat) (r : Ring α) : List α :=
  (List.range r.len).map fun i => r.buf ((r.tail + i) % capacity)

/-- Store one element at the write index. -/
def push (capacity : Nat) (r : Ring α) (x : α) : Ring α :=
  { r with
    buf := Function.update r.buf r.head x
    head := (r.head + 1) % capacity
    len := r.len + 1 }

/-- Forget the oldest elements. -/
def drop (capacity count : Nat) (r : Ring α) : Ring α :=
  { r with tail := (r.tail + count) % capacity, len := r.len - count }

/-- The slots of a valid ring that is not full differ from its write slot. -/
theorem Valid.slot_ne_head {r : Ring α} (h : Valid capacity r) {i : Nat} (hi : i < r.len)
    (hlen : r.len < capacity) : (r.tail + i) % capacity ≠ r.head := by
  intro heq
  rw [h.head_eq] at heq
  have hmod : (r.tail + i) ≡ (r.tail + r.len) [MOD capacity] := heq
  have hcancel : i ≡ r.len [MOD capacity] := Nat.ModEq.add_left_cancel' _ hmod
  have : i = r.len := by
    rw [← Nat.mod_eq_of_lt (hi.trans hlen), ← Nat.mod_eq_of_lt hlen]
    exact hcancel
  omega

theorem Valid.push {r : Ring α} (h : Valid capacity r) (hlen : r.len < capacity) (x : α) :
    Valid capacity (r.push capacity x) where
  len_le := hlen
  head_lt := Nat.mod_lt _ (by omega)
  tail_lt := h.tail_lt
  head_eq := by
    simp only [Ring.push]
    rw [h.head_eq, Nat.mod_add_mod, Nat.add_assoc]

theorem contents_push {r : Ring α} (h : Valid capacity r) (hlen : r.len < capacity) (x : α) :
    contents capacity (r.push capacity x) = contents capacity r ++ [x] := by
  simp only [contents, push, range_succ, map_append, map_singleton]
  congr 1
  · apply map_congr_left
    intro i hi
    exact Function.update_of_ne (h.slot_ne_head (mem_range.mp hi) hlen) _ _
  · rw [← h.head_eq, Function.update_self]

theorem Valid.drop {r : Ring α} (h : Valid capacity r) {count : Nat} (hcount : count ≤ r.len) :
    Valid capacity (r.drop capacity count) where
  len_le := (Nat.sub_le _ _).trans h.len_le
  head_lt := h.head_lt
  tail_lt := Nat.mod_lt _ (Nat.zero_lt_of_lt h.tail_lt)
  head_eq := by
    simp only [Ring.drop]
    rw [Nat.mod_add_mod, Nat.add_assoc, Nat.add_sub_cancel' hcount, h.head_eq]

/-- The dropped elements are the front of the list. -/
theorem contents_drop (r : Ring α) {count : Nat} (hcount : count ≤ r.len) :
    contents capacity r =
      ((range count).map fun i => r.buf ((r.tail + i) % capacity)) ++
        contents capacity (r.drop capacity count) := by
  have hsplit : r.len = count + (r.len - count) := by omega
  have hrange : range r.len =
      range count ++ (range (r.len - count)).map (count + ·) := by
    conv_lhs => rw [hsplit]
    exact range_add
  simp only [contents, drop, hrange, map_append, map_map]
  congr 1
  apply map_congr_left
  intro i _
  simp only [Function.comp_apply]
  rw [Nat.mod_add_mod, Nat.add_assoc]

end Ring

end Mmix
