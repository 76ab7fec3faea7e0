import Mathlib.Data.List.Range
import Mathlib.Tactic.Common

/-!
# Circular buffers

A buffer of `size` cells with a read position `r` and a write position `w`. The unread cells are those from `r` up to
`w`, cyclically; the buffer is empty when `r = w` and full when `w + 1` is `r` modulo `size`, so that at most
`size - 1` cells are unread.

- `contents_push`: writing the cell at `w` appends to the contents;
- `contents_pop`: the cell at `r` is the head of the contents.
-/

universe u

namespace Ring

variable {α : Type u} {size r w : Nat}

/-! ## Positions -/

/-- The position after `p`. -/
def next (size p : Nat) : Nat := (p + 1) % size

/-- The number of unread cells. -/
def count (size r w : Nat) : Nat := (w + size - r) % size

theorem next_eq (hp : r < size) : next size r = if r + 1 = size then 0 else r + 1 := by
  unfold next
  split
  · rename_i he
    rw [he, Nat.mod_self]
  · exact Nat.mod_eq_of_lt (by omega)

theorem next_lt (hp : r < size) : next size r < size := Nat.mod_lt _ (by omega)

theorem count_eq (hr : r < size) (hw : w < size) : count size r w = if r ≤ w then w - r else w + size - r := by
  unfold count
  split
  · rw [show w + size - r = w - r + size by omega, Nat.add_mod_right, Nat.mod_eq_of_lt (by omega)]
  · exact Nat.mod_eq_of_lt (by omega)

theorem count_lt (hr : r < size) : count size r w < size := Nat.mod_lt _ (by omega)

theorem count_push (hr : r < size) (hw : w < size) (hfull : r ≠ next size w) :
    count size r (next size w) = count size r w + 1 := by
  rw [count_eq hr (next_lt hw), count_eq hr hw]
  rw [next_eq hw] at hfull ⊢
  split_ifs at hfull ⊢ <;> omega

theorem count_pop (hr : r < size) (hw : w < size) (hne : w ≠ r) :
    count size r w = count size (next size r) w + 1 := by
  rw [count_eq (next_lt hr) hw, count_eq hr hw]
  rw [next_eq hr]
  split_ifs <;> omega

/-! ## Cells -/

/-- The positions of the unread cells, the next one to read first. -/
def cells (size r w : Nat) : List Nat := (List.range (count size r w)).map fun k => (r + k) % size

/-- The unread bytes. -/
def contents (size : Nat) (buf : Nat → α) (r w : Nat) : List α := (cells size r w).map buf

theorem length_contents (buf : Nat → α) : (contents size buf r w).length = count size r w := by
  simp [contents, cells]

theorem add_count (hr : r < size) (hw : w < size) : (r + count size r w) % size = w := by
  rw [count_eq hr hw]
  split
  · rw [show r + (w - r) = w by omega, Nat.mod_eq_of_lt hw]
  · rw [show r + (w + size - r) = w + size by omega, Nat.add_mod_right, Nat.mod_eq_of_lt hw]

/-- The cell that is written next is not unread. -/
theorem write_notMem_cells (hr : r < size) (hw : w < size) : w ∉ cells size r w := by
  intro hm
  obtain ⟨k, hk, he⟩ := List.mem_map.1 hm
  have hlt : k < count size r w := List.mem_range.1 hk
  have hc := count_lt (w := w) hr
  have hsum := add_count hr hw
  by_cases hs : r + k < size
  · rw [Nat.mod_eq_of_lt hs] at he
    rw [count_eq hr hw] at hlt
    split at hlt <;> omega
  · rw [Nat.mod_eq_sub_mod (by omega), Nat.mod_eq_of_lt (by omega)] at he
    rw [count_eq hr hw] at hlt
    split at hlt <;> omega

theorem cells_push (hr : r < size) (hw : w < size) (hfull : r ≠ next size w) :
    cells size r (next size w) = cells size r w ++ [w] := by
  unfold cells
  rw [count_push hr hw hfull, List.range_succ, List.map_append, List.map_singleton, add_count hr hw]

theorem cells_pop (hr : r < size) (hw : w < size) (hne : w ≠ r) :
    cells size r w = r :: cells size (next size r) w := by
  unfold cells
  rw [count_pop hr hw hne, List.range_succ_eq_map, List.map_cons, List.map_map, Nat.add_zero, Nat.mod_eq_of_lt hr]
  congr 1
  refine List.map_congr_left fun k _ => ?_
  simp only [Function.comp_apply, next, Nat.mod_add_mod]
  congr 1
  omega

@[simp] theorem contents_empty (buf : Nat → α) : contents size buf r r = [] := by
  simp [contents, cells, count]

/-- Writing the cell at `w` leaves every unread cell as it is. -/
theorem contents_write (hr : r < size) (hw : w < size) (buf : Nat → α) (x : α) :
    contents size (Function.update buf w x) r w = contents size buf r w := by
  refine List.map_congr_left fun p hp => Function.update_of_ne ?_ x buf
  rintro rfl
  exact write_notMem_cells hr hw hp

theorem contents_push (hr : r < size) (hw : w < size) (hfull : r ≠ next size w) (buf : Nat → α) (x : α) :
    contents size (Function.update buf w x) r (next size w) = contents size buf r w ++ [x] := by
  rw [← contents_write hr hw buf x]
  simp [contents, cells_push hr hw hfull]

theorem contents_pop (hr : r < size) (hw : w < size) (hne : w ≠ r) (buf : Nat → α) :
    contents size buf r w = buf r :: contents size buf (next size r) w := by
  simp [contents, cells_pop hr hw hne]

theorem contents_eq_nil (hr : r < size) (hw : w < size) (buf : Nat → α) : contents size buf r w = [] ↔ w = r := by
  refine ⟨fun hc => ?_, fun he => by rw [he, contents_empty]⟩
  by_contra hne
  rw [contents_pop hr hw hne] at hc
  cases hc

end Ring
