import Mathlib.Data.Nat.Log
import Mathlib.Order.Compare
import Mathlib.Algebra.Group.Nat.Defs

/-!
# Double-precision numbers as bit patterns

A 64-bit float is kept as its bits: a sign, eleven bits of exponent and 52 bits
of fraction.  Numbers that are not NaN are ordered by sign and magnitude bits.
Conversions from and to 64-bit integers follow IEEE 754: a conversion to a float
rounds to the nearest, ties to even, and a conversion to an integer truncates and
saturates.
-/

namespace Float64

/-- The bits without the sign. -/
def magnitude (bits : UInt64) : ℕ := bits.toNat % 2 ^ 63

def isSignNegative (bits : UInt64) : Bool := 2 ^ 63 ≤ bits.toNat

/-- Exponent all ones and a fraction that is not zero. -/
def isNaN (bits : UInt64) : Bool := 2047 * 2 ^ 52 < magnitude bits

/-- The place of a number that is not NaN in the order; both zeros have the same. -/
def orderKey (bits : UInt64) : ℤ :=
  if isSignNegative bits then -(magnitude bits : ℤ) else magnitude bits

/-- `partial_cmp`. -/
def partialCmp (a b : UInt64) : Option Ordering :=
  if isNaN a || isNaN b then none else some (compare (orderKey a) (orderKey b))

/-- The order of numbers that are not NaN, with the negative zero before the other. -/
def totalCmp (a b : UInt64) : Ordering :=
  (compare (orderKey a) (orderKey b)).then (compare (isSignNegative b) (isSignNegative a))

/-- The magnitude bits of the float nearest to `n`, ties to even. -/
def ofNat (n : ℕ) : ℕ :=
  if n = 0 then 0
  else
    let e := Nat.log2 n
    if e ≤ 52 then (e + 1023) * 2 ^ 52 + (n * 2 ^ (52 - e) - 2 ^ 52)
    else
      let shift := e - 52
      let q := n / 2 ^ shift
      let r := n % 2 ^ shift
      let half := 2 ^ (shift - 1)
      let q := if half < r ∨ (r = half ∧ q % 2 = 1) then q + 1 else q
      (e + 1023) * 2 ^ 52 + (q - 2 ^ 52)

/-- `i as f64`. -/
def ofInt64 (i : Int64) : UInt64 :=
  if i.toInt < 0 then UInt64.ofNat (2 ^ 63 + ofNat i.toInt.natAbs)
  else UInt64.ofNat (ofNat i.toInt.natAbs)

/-- `f as i64`. -/
def toInt64 (bits : UInt64) : Int64 :=
  let e := magnitude bits / 2 ^ 52
  if isNaN bits then 0
  else if e < 1023 then 0
  else if 1023 + 63 ≤ e then if isSignNegative bits then Int64.minValue else Int64.maxValue
  else
    let mantissa := 2 ^ 52 + magnitude bits % 2 ^ 52
    let n : ℕ := if e ≤ 1075 then mantissa / 2 ^ (1075 - e) else mantissa * 2 ^ (e - 1075)
    Int64.ofInt (if isSignNegative bits then -(n : ℤ) else n)

/-- The magnitude of a finite number, in units of the least positive one. -/
def scaled (bits : UInt64) : ℕ :=
  let e := magnitude bits / 2 ^ 52
  let fraction := magnitude bits % 2 ^ 52
  if e = 0 then fraction else (2 ^ 52 + fraction) * 2 ^ (e - 1)

def isInfinite (bits : UInt64) : Bool := magnitude bits = 2047 * 2 ^ 52

/-- The magnitude bits of the float nearest to `n` units, ties to even; what is too
large is infinite. -/
def ofScaled (n : ℕ) : ℕ :=
  let shift := Nat.log2 n - 52
  let q := n / 2 ^ shift
  let r := n % 2 ^ shift
  let q := if 2 ^ shift < 2 * r ∨ (0 < shift ∧ 2 ^ shift = 2 * r ∧ q % 2 = 1) then q + 1 else q
  min (shift * 2 ^ 52 + q) (2047 * 2 ^ 52)

/-- `a + b`. -/
def add (a b : UInt64) : UInt64 :=
  let signed (bits : UInt64) : ℤ := if isSignNegative bits then -(scaled bits : ℤ) else scaled bits
  if isNaN a || isNaN b then 0x7FF8000000000000
  else if isInfinite a then
    if isInfinite b && isSignNegative a != isSignNegative b then 0x7FF8000000000000 else a
  else if isInfinite b then b
  else
    let sum := signed a + signed b
    if sum < 0 ∨ (sum = 0 ∧ isSignNegative a ∧ isSignNegative b) then
      UInt64.ofNat (2 ^ 63 + ofScaled sum.natAbs)
    else UInt64.ofNat (ofScaled sum.natAbs)

-- 3.0 + 0.5 = 3.5, 2^53 + 1 rounds to 2^53
example : add 0x4008000000000000 0x3FE0000000000000 = 0x400C000000000000 ∧
    add (ofInt64 9007199254740992) (ofInt64 1) = ofInt64 9007199254740992 := by decide +kernel

-- 3.0, and what -3.5 truncates to
example : ofInt64 3 = 0x4008000000000000 ∧ toInt64 0xC00C000000000000 = -3 := by decide

/-! ## The order of converted integers -/

/-- `n / 2 ^ s`, rounded to the nearest, ties to even. -/
def roundEven (n s : ℕ) : ℕ :=
  if 2 ^ (s - 1) < n % 2 ^ s ∨ (n % 2 ^ s = 2 ^ (s - 1) ∧ n / 2 ^ s % 2 = 1) then n / 2 ^ s + 1
  else n / 2 ^ s

theorem roundEven_bounds (n s : ℕ) :
    n / 2 ^ s ≤ roundEven n s ∧ roundEven n s ≤ n / 2 ^ s + 1 := by
  rw [roundEven]
  split <;> omega

theorem roundEven_mono {m n : ℕ} (h : m ≤ n) (s : ℕ) : roundEven m s ≤ roundEven n s := by
  have hm := roundEven_bounds m s
  have hn := roundEven_bounds n s
  rcases Nat.lt_or_ge (m / 2 ^ s) (n / 2 ^ s) with hlt | hge
  · omega
  · -- the quotients are the same, so the remainders are in order
    have hsame : m / 2 ^ s = n / 2 ^ s := Nat.le_antisymm (Nat.div_le_div_right h) hge
    have hrest : m % 2 ^ s ≤ n % 2 ^ s := by
      have hmdiv := Nat.div_add_mod m (2 ^ s)
      have hndiv := Nat.div_add_mod n (2 ^ s)
      rw [hsame] at hmdiv
      omega
    rw [roundEven, roundEven, hsame]
    split <;> split <;> omega

/-- What the exponent and the fraction of a converted number are. -/
theorem ofNat_eq {n : ℕ} (hn : n ≠ 0) : ofNat n =
    if Nat.log2 n ≤ 52 then (Nat.log2 n + 1023) * 2 ^ 52 + (n * 2 ^ (52 - Nat.log2 n) - 2 ^ 52)
    else (Nat.log2 n + 1023) * 2 ^ 52 + (roundEven n (Nat.log2 n - 52) - 2 ^ 52) := by
  rw [ofNat, if_neg hn]
  rfl

/-- A number of `e + 1` bits has the exponent `e`, or is rounded up to the next power of two. -/
theorem ofNat_bounds {n : ℕ} (hn : n ≠ 0) : (Nat.log2 n + 1023) * 2 ^ 52 ≤ ofNat n ∧
    ofNat n ≤ (Nat.log2 n + 1024) * 2 ^ 52 := by
  have hlow := Nat.log2_self_le hn
  have hhigh := @Nat.lt_log2_self n
  rw [ofNat_eq hn]
  generalize Nat.log2 n = e at *
  by_cases he : e ≤ 52
  · rw [if_pos he]
    have hfloor : 2 ^ 52 ≤ n * 2 ^ (52 - e) := by
      calc 2 ^ 52 = 2 ^ e * 2 ^ (52 - e) := by rw [← Nat.pow_add, Nat.add_sub_cancel' he]
        _ ≤ n * 2 ^ (52 - e) := Nat.mul_le_mul_right _ hlow
    have hceil : n * 2 ^ (52 - e) < 2 ^ 53 := by
      calc n * 2 ^ (52 - e) < 2 ^ (e + 1) * 2 ^ (52 - e) :=
            Nat.mul_lt_mul_of_pos_right hhigh (Nat.two_pow_pos _)
        _ = 2 ^ 53 := by rw [← Nat.pow_add]; congr 1; omega
    omega
  · rw [if_neg he]
    have hround := roundEven_bounds n (e - 52)
    have hfloor : 2 ^ 52 ≤ n / 2 ^ (e - 52) := by
      rw [Nat.le_div_iff_mul_le (Nat.two_pow_pos _), ← Nat.pow_add, Nat.add_sub_cancel' (by omega)]
      exact hlow
    have hceil : n / 2 ^ (e - 52) < 2 ^ 53 := by
      rw [Nat.div_lt_iff_lt_mul (Nat.two_pow_pos _), ← Nat.pow_add]
      exact hhigh.trans_eq (by congr 1; omega)
    omega

/-- **Conversion keeps the order.** -/
theorem ofNat_mono {m n : ℕ} (h : m ≤ n) : ofNat m ≤ ofNat n := by
  by_cases hm : m = 0
  · rw [hm]
    exact Nat.zero_le _
  have hn : n ≠ 0 := by omega
  have hlog : Nat.log2 m ≤ Nat.log2 n := (Nat.le_log2 hn).mpr ((Nat.log2_self_le hm).trans h)
  rcases Nat.lt_or_ge (Nat.log2 m) (Nat.log2 n) with hlt | hge
  · have hceil := (ofNat_bounds hm).2
    have hfloor := (ofNat_bounds hn).1
    omega
  · rw [ofNat_eq hm, ofNat_eq hn, Nat.le_antisymm hlog hge]
    by_cases he : Nat.log2 n ≤ 52
    · rw [if_pos he, if_pos he]
      have := Nat.mul_le_mul_right (2 ^ (52 - Nat.log2 n)) h
      omega
    · rw [if_neg he, if_neg he]
      have := roundEven_mono h (Nat.log2 n - 52)
      omega

theorem ofNat_lt {n : ℕ} (h : n ≤ 2 ^ 63) : ofNat n ≤ 1087 * 2 ^ 52 := by
  by_cases hn : n = 0
  · rw [hn]
    exact Nat.zero_le _
  have hlog : Nat.log2 n ≤ 63 := by
    have hpow := (Nat.log2_self_le hn).trans h
    exact (Nat.pow_le_pow_iff_right (by decide)).mp hpow
  exact (ofNat_bounds hn).2.trans (Nat.mul_le_mul_right _ (by omega))

theorem natAbs_toInt_le (i : Int64) : i.toInt.natAbs ≤ 2 ^ 63 := by
  have hmin := Int64.le_toInt i
  have hmax := Int64.toInt_lt i
  omega

theorem magnitude_ofInt64 (i : Int64) : magnitude (ofInt64 i) = ofNat i.toInt.natAbs := by
  have hlt := ofNat_lt (natAbs_toInt_le i)
  have hsize : UInt64.size = 2 ^ 64 := rfl
  rw [magnitude, ofInt64]
  split
  · rw [UInt64.toNat_ofNat_of_lt' (by omega), Nat.add_mod_left, Nat.mod_eq_of_lt (by omega)]
  · rw [UInt64.toNat_ofNat_of_lt' (by omega), Nat.mod_eq_of_lt (by omega)]

/-- The place of a converted integer in the order. -/
theorem orderKey_ofInt64 (i : Int64) : orderKey (ofInt64 i) =
    if i.toInt < 0 then -(ofNat i.toInt.natAbs : ℤ) else ofNat i.toInt.natAbs := by
  have hlt := ofNat_lt (natAbs_toInt_le i)
  have hsize : UInt64.size = 2 ^ 64 := rfl
  rw [orderKey, magnitude_ofInt64]
  have hsign : isSignNegative (ofInt64 i) = decide (i.toInt < 0) := by
    rw [isSignNegative, ofInt64]
    by_cases hneg : i.toInt < 0
    · rw [if_pos hneg, UInt64.toNat_ofNat_of_lt' (by omega), decide_eq_true hneg]
      exact decide_eq_true (Nat.le_add_right _ _)
    · rw [if_neg hneg, UInt64.toNat_ofNat_of_lt' (by omega), decide_eq_false hneg]
      exact decide_eq_false (by omega)
  rw [hsign]
  exact if_congr decide_eq_true_iff rfl rfl

/-- **Conversion of integers keeps the order.** -/
theorem orderKey_ofInt64_mono {i j : Int64} (h : i.toInt ≤ j.toInt) :
    orderKey (ofInt64 i) ≤ orderKey (ofInt64 j) := by
  rw [orderKey_ofInt64, orderKey_ofInt64]
  by_cases hi : i.toInt < 0
  · rw [if_pos hi]
    by_cases hj : j.toInt < 0
    · rw [if_pos hj]
      have := @ofNat_mono j.toInt.natAbs i.toInt.natAbs (by omega)
      omega
    · rw [if_neg hj]
      omega
  · rw [if_neg hi, if_neg (by omega)]
    have := @ofNat_mono i.toInt.natAbs j.toInt.natAbs (by omega)
    omega

/-- An integer is a number. -/
theorem isNaN_ofInt64 (i : Int64) : isNaN (ofInt64 i) = false := by
  have hlt := ofNat_lt (natAbs_toInt_le i)
  rw [isNaN, magnitude_ofInt64]
  exact decide_eq_false (by omega)

end Float64
