import Mathlib.Data.Nat.Bitwise

/-!
# Conversions between 64-bit integers

C converts between unsigned and signed words of one width by taking the same bits: a `uint64`
below `2^63` is the same `int64`, and one above wraps to a negative number; an `int64` that is not
negative is the same `uint64`; and the same for `uint32` and `int`. An `int64` or `int` sum or
product is that of the integers when it stays in range, and an `int` quotient of numbers that are
not negative is the quotient of the integers (C's division truncates).
-/

namespace MachineInt

/-- A `uint64` read as an `int64`. -/
theorem toInt_toInt64 (x : UInt64) :
    x.toInt64.toInt = if x.toNat < 2 ^ 63 then (x.toNat : ℤ) else x.toNat - 2 ^ 64 := by
  have hx := x.toNat_lt
  have h : x.toInt64 = Int64.ofNat x.toNat := by
    rw [← UInt64.toInt64_ofNat', UInt64.ofNat_toNat]
  have hsize : ((Int64.size : ℕ) : ℤ) = 2 ^ 64 := rfl
  rw [h, Int64.toInt_ofNat', Int.bmod, hsize, Int.emod_eq_of_lt (by omega) (by omega)]
  split_ifs <;> omega

theorem toInt_toInt64_of_lt {x : UInt64} (h : x.toNat < 2 ^ 63) : x.toInt64.toInt = x.toNat := by
  rw [toInt_toInt64, if_pos h]

/-- A `uint32` read as an `int`. -/
theorem toInt_toInt32 (x : UInt32) :
    x.toInt32.toInt = if x.toNat < 2 ^ 31 then (x.toNat : ℤ) else x.toNat - 2 ^ 32 := by
  have hx := x.toNat_lt
  have h : x.toInt32 = Int32.ofNat x.toNat := by
    rw [← UInt32.toInt32_ofNat', UInt32.ofNat_toNat]
  have hsize : ((Int32.size : ℕ) : ℤ) = 2 ^ 32 := rfl
  rw [h, Int32.toInt_ofNat', Int.bmod, hsize, Int.emod_eq_of_lt (by omega) (by omega)]
  split_ifs <;> omega

/-- An `int64` sum that does not overflow. -/
theorem toInt_add_of_lt {a b : Int64} (hlo : -2 ^ 63 ≤ a.toInt + b.toInt)
    (hhi : a.toInt + b.toInt < 2 ^ 63) : (a + b).toInt = a.toInt + b.toInt := by
  rw [Int64.toInt_add, Int.bmod_eq_of_le (by omega) (by omega)]

theorem toNat_toUInt64_of_nonneg {z : Int64} (h : 0 ≤ z.toInt) :
    z.toUInt64.toNat = z.toInt.toNat := by
  rw [Int64.toNat_toUInt64_of_le (Int64.le_iff_toInt_le.mpr (by rw [Int64.toInt_zero]; exact h)),
    Int64.toNat_toInt]

/-- An `int` sum that does not overflow. -/
theorem int32_toInt_add_of_lt {a b : Int32} (hlo : -2 ^ 31 ≤ a.toInt + b.toInt)
    (hhi : a.toInt + b.toInt < 2 ^ 31) : (a + b).toInt = a.toInt + b.toInt := by
  rw [Int32.toInt_add, Int.bmod_eq_of_le (by omega) (by omega)]

/-- A natural number below `2^31` as an `int`. -/
theorem int32_toInt_ofNat_of_lt {n : ℕ} (h : n < 2 ^ 31) : (Int32.ofNat n).toInt = n := by
  have hsize : Int32.size = 2 ^ 32 := rfl
  rw [Int32.toInt_ofNat', hsize, Int.bmod_eq_of_le (by omega) (by omega)]

/-- An `int` product that does not overflow. -/
theorem int32_toInt_mul_of_lt {a b : Int32} (hlo : -2 ^ 31 ≤ a.toInt * b.toInt)
    (hhi : a.toInt * b.toInt < 2 ^ 31) : (a * b).toInt = a.toInt * b.toInt := by
  rw [Int32.toInt_mul, Int.bmod_eq_of_le (by omega) (by omega)]

/-- An `int` quotient of a dividend that is not negative by a positive divisor. -/
theorem int32_toInt_div_of_nonneg {a b : Int32} (ha : 0 ≤ a.toInt) (hb : 0 < b.toInt) :
    (a / b).toInt = a.toInt / b.toInt := by
  have hq : a.toInt / b.toInt ≤ a.toInt := Int.ediv_le_self _ ha
  have hq0 : 0 ≤ a.toInt / b.toInt := Int.ediv_nonneg ha (by omega)
  have := a.toInt_lt
  rw [Int32.toInt_div, Int.tdiv_eq_ediv_of_nonneg ha, Int.bmod_eq_of_le (by omega) (by omega)]

theorem toNat_toUInt32_of_nonneg {z : Int32} (h : 0 ≤ z.toInt) :
    z.toUInt32.toNat = z.toInt.toNat := by
  rw [Int32.toNat_toUInt32_of_le (Int32.le_iff_toInt_le.mpr (by rw [Int32.toInt_zero]; exact h)),
    Int32.toNat_toInt]

end MachineInt
