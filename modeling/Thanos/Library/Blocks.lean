import Mathlib.Algebra.Order.Ring.Nat
import Mathlib.Order.MinMax

/-!
# Cutting an interval into blocks

The interval from `b` to `e` is cut every `s` points from `b` on; the block `i` goes from
`blockStart b e s i` to `blockStart b e s (i + 1)`.

* **Blocks** (`blockStart_succ`, `blockStart_succ_sub`): each block goes on where the one before it
  ends, and only one that reaches the end of the interval is shorter than `s`.
* **Covering** (`exists_block`): every point of the interval is in a block.
-/

namespace Thanos

variable (b e s i : ℕ)

/-- Where the block `i` starts. -/
def blockStart : ℕ :=
  min e (b + i * s)

/-- The number of blocks. -/
def blocks : ℕ :=
  (e - b + s - 1) / s

variable {b e s i} {j p d : ℕ}

theorem lt_blocks_iff (hs : 0 < s) : i < blocks b e s ↔ b + i * s < e := by
  rw [blocks, ← Nat.succ_le_iff, Nat.le_div_iff_mul_le hs, Nat.succ_mul]
  omega

theorem blocks_le (hs : 0 < s) : blocks b e s ≤ e := by
  by_contra hlt
  have hbefore := (lt_blocks_iff hs).mp (not_le.mp hlt)
  have hmul := Nat.le_mul_of_pos_right e hs
  omega

theorem blockStart_le : blockStart b e s i ≤ e :=
  Nat.min_le_left ..

theorem blockStart_zero (h : b ≤ e) : blockStart b e s 0 = b := by
  rw [blockStart, Nat.zero_mul, Nat.add_zero, Nat.min_eq_right h]

theorem le_blockStart (h : b ≤ e) : b ≤ blockStart b e s i :=
  le_min h (Nat.le_add_right ..)

/-- **Blocks.** -/
theorem blockStart_succ : blockStart b e s (i + 1) = min e (blockStart b e s i + s) := by
  rw [blockStart, blockStart, Nat.succ_mul]
  omega

theorem blockStart_lt_iff (hs : 0 < s) : blockStart b e s i < e ↔ i < blocks b e s := by
  rw [lt_blocks_iff hs, blockStart]
  omega

theorem blockStart_mono (h : i ≤ j) : blockStart b e s i ≤ blockStart b e s j :=
  min_le_min_left e (Nat.add_le_add_left (Nat.mul_le_mul_right s h) b)

/-- No block is empty. -/
theorem blockStart_lt_succ (hs : 0 < s) (h : i < blocks b e s) :
    blockStart b e s i < blockStart b e s (i + 1) := by
  have hlt := (blockStart_lt_iff hs).mpr h
  rw [blockStart_succ]
  omega

/-- The size of a block. -/
theorem blockStart_succ_sub : blockStart b e s (i + 1) - blockStart b e s i ≤ s := by
  rw [blockStart_succ]
  omega

/-- A block that does not reach the end has the full size. -/
theorem blockStart_succ_sub_of_lt (h : blockStart b e s (i + 1) < e) :
    blockStart b e s (i + 1) - blockStart b e s i = s := by
  rw [blockStart_succ] at h ⊢
  omega

theorem dvd_blockStart (hb : d ∣ b) (he : d ∣ e) (hs : d ∣ s) : d ∣ blockStart b e s i := by
  rw [blockStart]
  obtain hmin | hmin := min_choice e (b + i * s)
  · rw [hmin]
    exact he
  · rw [hmin]
    exact (Nat.dvd_add_right hb).mpr (Dvd.dvd.mul_left hs i)

/-- **Covering.** -/
theorem exists_block (hs : 0 < s) (hb : b ≤ p) (he : p < e) :
    ∃ i < blocks b e s, blockStart b e s i ≤ p ∧ p < blockStart b e s (i + 1) := by
  have hdiv := Nat.div_add_mod (p - b) s
  have hmod := Nat.mod_lt (p - b) hs
  rw [Nat.mul_comm] at hdiv
  refine ⟨(p - b) / s, (lt_blocks_iff hs).mpr (by omega), ?_, ?_⟩
  · rw [blockStart]
    omega
  · rw [blockStart, Nat.succ_mul]
    omega

end Thanos
