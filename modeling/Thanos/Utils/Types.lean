import Mathlib.Algebra.Order.Floor.Ring
import Mathlib.Data.Rat.Floor
import Thanos.Library.OrderedSet

/-!
# Identifiers and the real number type

Process, CPU and node identifiers are the indices of the tables they are used with. The
program computes scores in `real_t`, an alias that may stand for any floating-point type; the
model is generic in it. `RealT` lists the operations the program uses and states no law, so
that nothing proved here depends on how a real number is rounded or compared. Exact rational
arithmetic is one instance, on which definitions are evaluated.
-/

namespace Thanos

/-- A process or thread identifier. -/
abbrev Pid := ℕ

/-- A CPU identifier. -/
abbrev Cpu := ℕ

/-- A NUMA node identifier. -/
abbrev Node := ℕ

/-- A CPU mask. -/
abbrev CpuSet := OrderedSet Cpu

/-- The operations of the program's real number type. -/
class RealT (R : Type) extends Add R, Sub R, Mul R, Div R, LT R, BEq R where
  /-- The value a literal or a converted integer is rounded to. -/
  ofRat : ℚ → R
  /-- `std::isnormal`. -/
  isNormal : R → Bool
  /-- The conversion to an integer type, which drops the fractional part. -/
  trunc : R → ℤ
  /-- Comparisons are decided. -/
  decidableLT : DecidableLT R

attribute [reducible, instance] RealT.decidableLT

/-- Exact arithmetic. -/
instance : RealT ℚ where
  ofRat q := q
  isNormal q := decide (q ≠ 0)
  trunc q := if 0 ≤ q then ⌊q⌋ else ⌈q⌉
  decidableLT := inferInstance

/-- `utils::arithmetic::rnd(min, max)` for integers, given the value drawn: a value
from `min` on and below `max`. -/
def rnd (min max draw : ℕ) : ℕ :=
  min + draw % (max - min)

end Thanos
