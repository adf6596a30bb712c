import Mathlib.Data.Nat.Bitwise

/-!
# Bits of 64-bit words, most significant first

Arrays of 64-bit words that hold one bit per position often put position `p` at bit `63 - p % 64`
of word `p / 64`, so that the first position is the leftmost bit of the first word. Read that way
(`msbAt`), a right shift of a word moves its bits to later positions and a left shift to earlier
ones, and the bits shifted out of a word are those a shift the other way keeps.

* `msbAt_shiftRight`, `msbAt_shiftLeft`: the bits of a shifted word;
* `msbAt_one_shiftLeft`, `msbAt_not`, `msbAt_and`, `msbAt_or`: the bits of a one-bit mask and of
  the bitwise operations that set and clear bits with it.
-/

namespace WordBits

/-- Bit `k` of a 64-bit word, from the most significant bit on. -/
def msbAt (w : UInt64) (k : ℕ) : Bool := w.toNat.testBit (63 - k)

@[simp] theorem msbAt_zero (k : ℕ) : msbAt 0 k = false := by simp [msbAt]

@[simp] theorem msbAt_or (a b : UInt64) (k : ℕ) : msbAt (a ||| b) k = (msbAt a k || msbAt b k) := by
  simp [msbAt, UInt64.toNat_or, Nat.testBit_or]

@[simp] theorem msbAt_and (a b : UInt64) (k : ℕ) :
    msbAt (a &&& b) k = (msbAt a k && msbAt b k) := by
  simp [msbAt, UInt64.toNat_and, Nat.testBit_and]

theorem msbAt_not (w : UInt64) {k : ℕ} (hk : k < 64) : msbAt (~~~w) k = !msbAt w k := by
  rw [msbAt, msbAt, UInt64.toNat_not, show UInt64.size - 1 - w.toNat = 2 ^ 64 - (w.toNat + 1) by
    rw [UInt64.size]; omega, Nat.testBit_two_pow_sub_succ w.toNat_lt]
  simp only [show 63 - k < 64 by omega, decide_true, Bool.true_and]

theorem toNat_toUInt64_of_lt {n : ℕ} (hn : n < 64) : n.toUInt64.toNat = n := by
  rw [Nat.toUInt64_eq, UInt64.toNat_ofNat', Nat.mod_eq_of_lt (by omega)]

/-- A right shift moves the bits of a word to later positions. -/
theorem msbAt_shiftRight (w : UInt64) {n k : ℕ} (hn : n < 64) (hk : k < 64) :
    msbAt (w >>> n.toUInt64) k = (decide (n ≤ k) && msbAt w (k - n)) := by
  rw [msbAt, msbAt, UInt64.toNat_shiftRight, toNat_toUInt64_of_lt hn, Nat.mod_eq_of_lt hn,
    Nat.testBit_shiftRight]
  by_cases hnk : n ≤ k
  · rw [show n + (63 - k) = 63 - (k - n) by omega]
    simp [hnk]
  · have hlt : w.toNat < 2 ^ (n + (63 - k)) :=
      lt_of_lt_of_le w.toNat_lt (Nat.pow_le_pow_right (by decide) (by omega))
    simp [hnk, Nat.testBit_lt_two_pow hlt]

/-- A left shift moves the bits of a word to earlier positions. -/
theorem msbAt_shiftLeft (w : UInt64) {m k : ℕ} (hm : m < 64) (hk : k < 64) :
    msbAt (w <<< m.toUInt64) k = (decide (k + m < 64) && msbAt w (k + m)) := by
  rw [msbAt, msbAt, UInt64.toNat_shiftLeft, toNat_toUInt64_of_lt hm, Nat.mod_eq_of_lt hm,
    Nat.testBit_mod_two_pow, Nat.testBit_shiftLeft]
  by_cases hkm : k + m < 64
  · rw [show 63 - k - m = 63 - (k + m) by omega]
    simp [hkm, show 63 - k < 64 by omega, show m ≤ 63 - k by omega]
  · simp [hkm, show ¬ 63 - k ≥ m by omega]

/-- The word with only bit `j` set. -/
theorem msbAt_one_shiftLeft {j k : ℕ} (hj : j < 64) (hk : k < 64) :
    msbAt ((1 : UInt64) <<< (63 - j).toUInt64) k = decide (k = j) := by
  rw [msbAt_shiftLeft _ (by omega) hk]
  by_cases hkj : k = j
  · subst hkj
    simp [msbAt, show k + (63 - k) = 63 by omega]
  · simp only [msbAt, hkj, decide_false, UInt64.toNat_one]
    by_cases hlt : k + (63 - j) < 64
    · rw [decide_eq_true hlt, Bool.true_and]
      exact Nat.testBit_lt_two_pow (Nat.one_lt_two_pow (by omega))
    · rw [decide_eq_false hlt, Bool.false_and]

end WordBits
