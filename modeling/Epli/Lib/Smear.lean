import Mathlib.Data.Nat.Bitwise
import Mathlib.Data.Nat.Log

/-!
# Rounding up to a power of two by smearing bits

Or-ing a number with itself shifted right by `1, 2, 4, ..` copies its highest bit
into every lower place. `Smeared x m y` says that the upper `m` bits of `y`, down
from the highest bit of `x`, are set; each step doubles `m`.
-/

namespace Epli.Lib

/-- One step: copy the bits `m` places down. -/
def smear (m y : Nat) : Nat := y ||| (y >>> m)

/-- `y` has the length of `x`, and its upper `m` bits are set. -/
structure Smeared (x m y : Nat) : Prop where
  above : ∀ i, Nat.log2 x < i → y.testBit i = false
  upper : ∀ i ≤ Nat.log2 x, Nat.log2 x < i + m → y.testBit i = true

theorem smeared_self {x : Nat} (hx : x ≠ 0) : Smeared x 1 x where
  above := by
    intro i hi
    refine Nat.testBit_lt_two_pow ((Nat.log2_lt hx).mp hi)
  upper := by
    intro i hi hlt
    have hi' : i = Nat.log2 x := by omega
    rw [hi']
    exact Nat.testBit_log2 hx

theorem Smeared.smear {x m y : Nat} (h : Smeared x m y) : Smeared x (2 * m) (smear m y) where
  above := by
    intro i hi
    rw [Lib.smear, Nat.testBit_or, Nat.testBit_shiftRight, h.above i hi, h.above (m + i) (by omega)]
    rfl
  upper := by
    intro i hi hlt
    rw [Lib.smear, Nat.testBit_or, Nat.testBit_shiftRight]
    by_cases hm : Nat.log2 x < i + m
    · rw [h.upper i hi hm]
      rfl
    · -- the bit `m` places up is among the upper ones
      rw [h.upper (m + i) (by omega) (by omega), Bool.or_true]

/-- Once every bit is covered the number is all ones. -/
theorem Smeared.eq {x m y : Nat} (h : Smeared x m y) (hm : Nat.log2 x < m) :
    y + 1 = 2 ^ (Nat.log2 x + 1) := by
  have hones : y = 2 ^ (Nat.log2 x + 1) - 1 := by
    refine Nat.eq_of_testBit_eq fun i => ?_
    rw [Nat.testBit_two_pow_sub_one]
    by_cases hi : i < Nat.log2 x + 1
    · rw [h.upper i (by omega) (by omega), decide_eq_true hi]
    · rw [h.above i (by omega), decide_eq_false hi]
  have hpos := Nat.two_pow_pos (Nat.log2 x + 1)
  omega

end Epli.Lib
