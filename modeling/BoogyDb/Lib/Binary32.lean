import Mathlib.Order.Compare
import Mathlib.Data.Int.Order.Basic
import Mathlib.Algebra.Group.Nat.Defs

/-!
# Single-precision numbers as bit patterns

A 32-bit float is kept as its bits: a sign, eight bits of exponent and 23 bits of
fraction.  Numbers that are not NaN are ordered by sign and magnitude bits.
-/

namespace Binary32

/-- The bits without the sign. -/
def magnitude (bits : UInt32) : ℕ := bits.toNat % 2 ^ 31

def isSignNegative (bits : UInt32) : Bool := 2 ^ 31 ≤ bits.toNat

/-- Exponent all ones and a fraction that is not zero. -/
def isNaN (bits : UInt32) : Bool := 255 * 2 ^ 23 < magnitude bits

/-- The place of a number that is not NaN in the order; both zeros have the same. -/
def orderKey (bits : UInt32) : ℤ :=
  if isSignNegative bits then -(magnitude bits : ℤ) else magnitude bits

/-- `partial_cmp`. -/
def partialCmp (a b : UInt32) : Option Ordering :=
  if isNaN a || isNaN b then none else some (compare (orderKey a) (orderKey b))

/-- `a < b`. -/
def lt (a b : UInt32) : Bool := partialCmp a b = some .lt

/-- `f32::MAX`. -/
def maxFinite : UInt32 := 0x7F7FFFFF

variable {a b c : UInt32}

theorem lt_iff : lt a b = true ↔
    isNaN a = false ∧ isNaN b = false ∧ orderKey a < orderKey b := by
  unfold lt partialCmp
  rw [decide_eq_true_iff]
  cases isNaN a <;> cases isNaN b <;> simp [compare_lt_iff_lt]

theorem lt_irrefl (a : UInt32) : lt a a = false := by
  rw [Bool.eq_false_iff, Ne, lt_iff]
  exact fun h => Int.lt_irrefl _ h.2.2

theorem lt_trans (hab : lt a b = true) (hbc : lt b c = true) : lt a c = true := by
  rw [lt_iff] at hab hbc ⊢
  exact ⟨hab.1, hbc.2.1, hab.2.2.trans hbc.2.2⟩

end Binary32
