import Mathlib.Data.List.Nodup
import Mathlib.Data.Nat.ModEq
import Thanos.Library.RingBuffer

/-!
# Round robin

The indices below `size` take turns: `turn size m pos k` are the `m` indices of the turn `k` if
the turns start at a position and each goes on where the one before ended, around the ring.

Something that happens in turns is a list whose members show the indices of their turn.

* **Fairness** (`countP_of_turns`): of any `size` turns in a row, each of `m` indices, every index
  has exactly `m`.
* **Waiting** (`exists_of_turns`): of turns in a row that have `size` indices together, every
  index has at least one.
-/

namespace Thanos

universe u

/-- The indices of a turn. -/
def turn (size m pos k : ℕ) : List ℕ :=
  window id size (pos + k * m) m

variable {size m pos k n g : ℕ}

theorem turn_add : turn size m pos (n + k) = turn size m (pos + n * m) k := by
  rw [turn, turn, Nat.add_mul, Nat.add_assoc]

theorem turn_succ : turn size m pos (k + 1) = turn size m (pos + m) k := by
  rw [Nat.add_comm k 1, turn_add, Nat.one_mul]

/-- As long as the window is not longer than the ring, no index occurs twice. -/
theorem nodup_window (h : m ≤ size) : (window id size pos m).Nodup := by
  refine (List.nodup_map_iff_inj_on List.nodup_range).mpr fun i hi j hj heq => ?_
  rw [List.mem_range] at hi hj
  have hmod : i ≡ j [MOD size] := Nat.ModEq.add_left_cancel' pos heq
  exact hmod.eq_of_lt_of_lt (by omega) (by omega)

theorem nodup_turn (h : m ≤ size) : (turn size m pos k).Nodup :=
  nodup_window h

/-- Once around the ring every index is met. -/
theorem mem_window_size (hg : g < size) : g ∈ window id size pos size := by
  refine List.mem_map.mpr ⟨(g + (size - pos % size)) % size, ?_, ?_⟩
  · exact List.mem_range.mpr (Nat.mod_lt _ (by omega))
  · have hpos : pos % size < size := Nat.mod_lt _ (by omega)
    have hsum : pos % size + (g + (size - pos % size)) = g + size := by omega
    rw [id, Nat.add_mod_mod, ← Nat.mod_add_mod, hsum, Nat.add_mod_right, Nat.mod_eq_of_lt hg]

theorem count_window_size (hg : g < size) : (window id size pos size).count g = 1 :=
  List.count_eq_one_of_mem (nodup_window le_rfl) (mem_window_size hg)

/-- Several times around the ring. -/
theorem count_window_mul (hg : g < size) : (window id size pos (k * size)).count g = k := by
  induction k generalizing pos with
  | zero => simp [window]
  | succ k ih =>
    rw [Nat.succ_mul, Nat.add_comm, window_add, List.count_append, count_window_size hg, ih,
      Nat.add_comm]

/-- A turn has an index once if at all. -/
theorem count_turn (hm : m ≤ size) :
    (turn size m pos k).count g = if g ∈ turn size m pos k then 1 else 0 := by
  split_ifs with hmem
  · exact List.count_eq_one_of_mem (nodup_turn hm) hmem
  · exact List.count_eq_zero_of_not_mem hmem

variable {α : Type u} {p : α → Bool} {l : List α}

/-- Turns in a row are one window. -/
theorem countP_turns (hm : m ≤ size)
    (hl : ∀ i (hi : i < l.length), p l[i] = true ↔ g ∈ turn size m pos i) :
    l.countP p = (window id size pos (l.length * m)).count g := by
  induction l generalizing pos with
  | nil => simp [window]
  | cons a l ih =>
    have hrest : ∀ i (hi : i < l.length), p l[i] = true ↔ g ∈ turn size m (pos + m) i := by
      intro i hi
      rw [← turn_succ]
      exact hl (i + 1) (Nat.succ_lt_succ hi)
    have hfirst : p a = true ↔ g ∈ turn size m pos 0 := hl 0 (Nat.zero_lt_succ _)
    have hturn : turn size m pos 0 = window id size pos m := by
      rw [turn, Nat.zero_mul, Nat.add_zero]
    rw [List.countP_cons, ih hrest, List.length_cons, Nat.succ_mul, Nat.add_comm (l.length * m),
      window_add, List.count_append, ← hturn, count_turn hm, Nat.add_comm]
    simp only [hfirst]

/-- **Fairness.** -/
theorem countP_of_turns (hm : m ≤ size) (hg : g < size) (hlength : l.length = size)
    (hl : ∀ i (hi : i < l.length), p l[i] = true ↔ g ∈ turn size m pos i) :
    l.countP p = m := by
  rw [countP_turns hm hl, hlength, Nat.mul_comm, count_window_mul hg]

/-- **Waiting.** -/
theorem exists_of_turns (hm : m ≤ size) (hg : g < size) (hlength : size ≤ l.length * m)
    (hl : ∀ i (hi : i < l.length), p l[i] = true ↔ g ∈ turn size m pos i) :
    ∃ a ∈ l, p a = true := by
  obtain ⟨rest, hrest⟩ := Nat.exists_eq_add_of_le hlength
  have hmem : g ∈ window id size pos (l.length * m) := by
    rw [hrest, window_add]
    exact List.mem_append_left _ (mem_window_size hg)
  rw [← List.countP_pos_iff, countP_turns hm hl]
  exact List.count_pos_iff.mpr hmem

end Thanos
