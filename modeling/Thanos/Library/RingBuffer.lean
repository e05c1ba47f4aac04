import Mathlib.Data.List.Basic
import Mathlib.Data.Nat.Notation

/-!
# Ring buffers

A ring buffer of `size` cells is a function on the indices below `size`. Positions grow without
bound and are reduced modulo the size. `window` is what lies between two positions, and
`copyWrapped` is how it is copied out: up to the end of the buffer first, then from its start.

* **Copies** (`copyWrapped_eq`): a copy of at most `size` cells is the window.
* **Streams** (`window_add`): a window falls into the windows before and after a position.
-/

namespace Thanos

universe u

variable {β : Type u} (data : ℕ → β) (size pos n : ℕ)

/-- The `n` cells from a position on. -/
def window : List β :=
  (List.range n).map fun i => data ((pos + i) % size)

/-- The `n` cells from an index on, copied in two parts. -/
def copyWrapped : List β :=
  let m := min (size - pos) n
  (List.range m).map (fun i => data (pos + i)) ++ (List.range (n - m)).map data

variable {data size pos n} {m : ℕ}

@[simp]
theorem length_window : (window data size pos n).length = n := by
  simp [window]

/-- **Streams.** -/
theorem window_add :
    window data size pos (n + m) = window data size pos n ++ window data size (pos + n) m := by
  simp [window, List.range_add, Function.comp_def, Nat.add_assoc]

theorem window_mod : window data size (pos % size) n = window data size pos n := by
  simp [window]

theorem take_window (h : n ≤ m) :
    (window data size pos m).take n = window data size pos n := by
  obtain ⟨k, rfl⟩ := Nat.exists_eq_add_of_le h
  rw [window_add, List.take_left' length_window]

theorem drop_window (h : n ≤ m) :
    (window data size pos m).drop n = window data size (pos + n) (m - n) := by
  obtain ⟨k, rfl⟩ := Nat.exists_eq_add_of_le h
  rw [window_add, List.drop_left' length_window, Nat.add_sub_cancel_left]

/-- **Copies.** -/
theorem copyWrapped_eq (hpos : pos < size) (hn : n ≤ size) :
    copyWrapped data size pos n = window data size pos n := by
  have hsplit : min (size - pos) n + (n - min (size - pos) n) = n := by omega
  conv_rhs => rw [← hsplit, window_add]
  rw [copyWrapped, window, window]
  congr 1
  · refine List.map_congr_left fun i hi => ?_
    rw [List.mem_range] at hi
    rw [Nat.mod_eq_of_lt (by omega)]
  · refine List.map_congr_left fun i hi => ?_
    rw [List.mem_range] at hi
    -- past the end of the buffer
    have hwrapped : pos + min (size - pos) n + i = i + size := by omega
    rw [hwrapped, Nat.add_mod_right, Nat.mod_eq_of_lt (by omega)]

end Thanos
