import Mathlib.Data.Rat.Floor
import Mathlib.Data.Int.Log
import Mathlib.Tactic.Linarith
import Mathlib.Tactic.Ring
import Mathlib.Tactic.NormNum
import Mathlib.Tactic.FieldSimp

/-!
# Rounding to binary64

A finite IEEE-754 double is `m * 2^e` with an integer significand of at most 53 bits and an
exponent no lower than `-1074`. An operation on doubles computes its exact result and rounds it to
the nearest double, ties to the even significand, the default rounding of IEEE-754. Here the exact
results are rationals, and `round` gives the double nearest to one below `2^1024`; above, the
operation overflows to an infinity, which this model does not reach. A conversion to an integer
type drops the fraction (`toInt`).

* `floor_le_roundHalfEven`, `roundHalfEven_le_ceil`: rounding to an integer stays between the
  floor and the ceiling;
* `le_round`, `round_le`: rounding keeps a bound by an integer of at most 53 bits;
* `round_intCast`: such an integer is a double;
* `round_le_two_mul`: from `1` on, rounding at most doubles.
-/

namespace Binary64

/-- Rounding to the nearest integer, ties to the even one. -/
def roundHalfEven (z : ℚ) : ℤ :=
  if z - ⌊z⌋ < 1 / 2 then ⌊z⌋
  else if 1 / 2 < z - ⌊z⌋ then ⌊z⌋ + 1
  else if ⌊z⌋ % 2 = 0 then ⌊z⌋ else ⌊z⌋ + 1

/-- The exponent of the last place of the doubles around `x`: 52 places below its leading one,
and no lower than that of the subnormals. -/
def ulpExponent (x : ℚ) : ℤ := max (Int.log 2 |x| - 52) (-1074)

/-- The double nearest to `x`, ties to even. -/
def round (x : ℚ) : ℚ := roundHalfEven (x / 2 ^ ulpExponent x) * 2 ^ ulpExponent x

/-- The conversion of a double to an integer type, toward zero. -/
def toInt (x : ℚ) : ℤ := if 0 ≤ x then ⌊x⌋ else ⌈x⌉

theorem floor_le_roundHalfEven (z : ℚ) : ⌊z⌋ ≤ roundHalfEven z := by
  unfold roundHalfEven
  split_ifs <;> omega

theorem roundHalfEven_le_ceil (z : ℚ) : roundHalfEven z ≤ ⌈z⌉ := by
  have hfloor : ⌊z⌋ ≤ ⌈z⌉ := Int.floor_le_ceil z
  unfold roundHalfEven
  split_ifs with hlow
  · exact hfloor
  all_goals
    -- at least half way up, `z` is not an integer
    have hlt : ⌊z⌋ < ⌈z⌉ := Int.lt_ceil.mpr (by linarith [not_lt.mp hlow])
    omega

/-- An integer divided by a power of two no greater than `1` is an integer. -/
theorem exists_intCast_div_zpow (k : ℤ) {e : ℤ} (he : e ≤ 0) : ∃ m : ℤ, (k : ℚ) / 2 ^ e = m := by
  obtain ⟨n, hn⟩ : ∃ n : ℕ, e = -n := ⟨(-e).toNat, by omega⟩
  refine ⟨k * 2 ^ n, ?_⟩
  rw [hn, zpow_neg, zpow_natCast, div_inv_eq_mul]
  push_cast
  ring

section Normal

variable {x : ℚ}

/-- From `1` on, the last place is 52 places below the leading one. -/
theorem ulpExponent_of_one_le (hx : 1 ≤ x) : ulpExponent x = Int.log 2 x - 52 := by
  have hlog : 0 ≤ Int.log 2 x := by
    rw [Int.log_of_one_le_right 2 hx]
    exact Int.natCast_nonneg _
  rw [ulpExponent, abs_of_pos (by linarith)]
  omega

theorem zpow_log_le (hx : 1 ≤ x) : (2 : ℚ) ^ Int.log 2 x ≤ x := by
  have h := Int.zpow_log_le_self (b := 2) one_lt_two (show (0 : ℚ) < x by linarith)
  exact_mod_cast h

/-- Rounding is at least an integer below, when the integer is a whole number of last places. -/
theorem le_round_of_div_eq {k m : ℤ} (hm : (k : ℚ) / 2 ^ ulpExponent x = m) (hx : (k : ℚ) ≤ x) :
    (k : ℚ) ≤ round x := by
  have hpow : (0 : ℚ) < 2 ^ ulpExponent x := zpow_pos two_pos _
  have hfloor : m ≤ ⌊x / 2 ^ ulpExponent x⌋ :=
    Int.le_floor.mpr (hm ▸ div_le_div_of_nonneg_right hx hpow.le)
  have hround : (m : ℚ) ≤ roundHalfEven (x / 2 ^ ulpExponent x) := by
    exact_mod_cast hfloor.trans (floor_le_roundHalfEven _)
  calc (k : ℚ) = m * 2 ^ ulpExponent x := by rw [← hm, div_mul_cancel₀ _ hpow.ne']
    _ ≤ round x := mul_le_mul_of_nonneg_right hround hpow.le

/-- Rounding is at most an integer above, when the integer is a whole number of last places. -/
theorem round_le_of_div_eq {k m : ℤ} (hm : (k : ℚ) / 2 ^ ulpExponent x = m) (hx : x ≤ k) :
    round x ≤ k := by
  have hpow : (0 : ℚ) < 2 ^ ulpExponent x := zpow_pos two_pos _
  have hceil : ⌈x / 2 ^ ulpExponent x⌉ ≤ m :=
    Int.ceil_le.mpr (hm ▸ div_le_div_of_nonneg_right hx hpow.le)
  have hround : (roundHalfEven (x / 2 ^ ulpExponent x) : ℚ) ≤ m := by
    exact_mod_cast (roundHalfEven_le_ceil _).trans hceil
  calc round x ≤ m * 2 ^ ulpExponent x := mul_le_mul_of_nonneg_right hround hpow.le
    _ = k := by rw [← hm, div_mul_cancel₀ _ hpow.ne']

/-- At and above `1`, the leading power of two is `2^52` last places. -/
theorem two_pow_mul_zpow_ulpExponent (hx : 1 ≤ x) :
    (((2 : ℤ) ^ 52 : ℤ) : ℚ) * 2 ^ ulpExponent x = 2 ^ Int.log 2 x := by
  rw [ulpExponent_of_one_le hx, zpow_sub₀ two_ne_zero]
  push_cast
  field_simp

/-- **Rounding keeps a lower bound by an integer of at most 53 bits.** Below `2^53` the last
place divides the integer; above, the rounding is at least the power of two below `x`. -/
theorem le_round {k : ℤ} (hk : 1 ≤ k) (hk53 : k ≤ 2 ^ 53) (hx : (k : ℚ) ≤ x) :
    (k : ℚ) ≤ round x := by
  have hx1 : 1 ≤ x := le_trans (by exact_mod_cast hk) hx
  have he := ulpExponent_of_one_le hx1
  by_cases hsmall : Int.log 2 x ≤ 52
  · obtain ⟨m, hm⟩ := exists_intCast_div_zpow k (show ulpExponent x ≤ 0 by omega)
    exact le_round_of_div_eq hm hx
  · have hpow : (0 : ℚ) < 2 ^ ulpExponent x := zpow_pos two_pos _
    have hsplit := two_pow_mul_zpow_ulpExponent hx1
    -- `x` is at least `2^52` last places, and so is its rounding
    have hquot : (((2 : ℤ) ^ 52 : ℤ) : ℚ) ≤ x / 2 ^ ulpExponent x := by
      rw [le_div_iff₀ hpow, hsplit]
      exact zpow_log_le hx1
    have hround : (((2 : ℤ) ^ 52 : ℤ) : ℚ) ≤ roundHalfEven (x / 2 ^ ulpExponent x) := by
      exact_mod_cast (Int.le_floor.mpr hquot).trans (floor_le_roundHalfEven _)
    calc (k : ℚ) ≤ 2 ^ ((53 : ℕ) : ℤ) := by
          rw [zpow_natCast]
          exact_mod_cast hk53
      _ ≤ 2 ^ Int.log 2 x := (zpow_le_zpow_iff_right₀ one_lt_two).mpr (by omega)
      _ = (((2 : ℤ) ^ 52 : ℤ) : ℚ) * 2 ^ ulpExponent x := hsplit.symm
      _ ≤ round x := mul_le_mul_of_nonneg_right hround hpow.le

/-- **Rounding keeps an upper bound by an integer of at most 53 bits.** -/
theorem round_le {k : ℤ} (hk53 : k ≤ 2 ^ 53) (hx1 : 1 ≤ x) (hx : x ≤ k) : round x ≤ k := by
  have he := ulpExponent_of_one_le hx1
  have hle53 : x ≤ 2 ^ ((53 : ℕ) : ℤ) := by
    rw [zpow_natCast]
    exact hx.trans (by exact_mod_cast hk53)
  have hL : Int.log 2 x ≤ 53 :=
    (zpow_le_zpow_iff_right₀ one_lt_two).mp ((zpow_log_le hx1).trans hle53)
  by_cases hsmall : Int.log 2 x ≤ 52
  · obtain ⟨m, hm⟩ := exists_intCast_div_zpow k (show ulpExponent x ≤ 0 by omega)
    exact round_le_of_div_eq hm hx
  · -- `x` is `2^53`, and so is `k`, two last places of `2^52`
    have hL53 : Int.log 2 x = 53 := by omega
    have hk : k = 2 ^ 53 := by
      have h53 := (zpow_log_le hx1).trans hx
      rw [hL53, zpow_ofNat] at h53
      have h53' : (2 : ℤ) ^ 53 ≤ k := by exact_mod_cast h53
      omega
    refine round_le_of_div_eq (m := 2 ^ 52) ?_ hx
    rw [he, hL53, hk]
    norm_num

/-- An integer of at most 53 bits is a double. -/
theorem round_intCast {k : ℤ} (hk : 1 ≤ k) (hk53 : k ≤ 2 ^ 53) : round k = k :=
  le_antisymm (round_le hk53 (by exact_mod_cast hk) le_rfl) (le_round hk hk53 le_rfl)

/-- From `1` on, rounding adds at most a last place, which is no more than the number. -/
theorem round_le_two_mul (hx : 1 ≤ x) : round x ≤ 2 * x := by
  have hpow : (0 : ℚ) < 2 ^ ulpExponent x := zpow_pos two_pos _
  have hround : (roundHalfEven (x / 2 ^ ulpExponent x) : ℚ) ≤ x / 2 ^ ulpExponent x + 1 := by
    have hceil : (roundHalfEven (x / 2 ^ ulpExponent x) : ℚ) ≤ ⌈x / 2 ^ ulpExponent x⌉ := by
      exact_mod_cast roundHalfEven_le_ceil _
    linarith [Int.ceil_lt_add_one (x / 2 ^ ulpExponent x)]
  have hulp : (2 : ℚ) ^ ulpExponent x ≤ x := by
    rw [ulpExponent_of_one_le hx]
    calc (2 : ℚ) ^ (Int.log 2 x - 52) ≤ 2 ^ Int.log 2 x :=
          zpow_le_zpow_right₀ one_le_two (by omega)
      _ ≤ x := zpow_log_le hx
  calc round x ≤ (x / 2 ^ ulpExponent x + 1) * 2 ^ ulpExponent x :=
        mul_le_mul_of_nonneg_right hround hpow.le
    _ = x + 2 ^ ulpExponent x := by field_simp
    _ ≤ 2 * x := by linarith

end Normal

/-- The conversion of a number that is not negative is at most the number. -/
theorem toInt_le {x : ℚ} (hx : 0 ≤ x) : (toInt x : ℚ) ≤ x := by
  rw [toInt, if_pos hx]
  exact Int.floor_le x

/-- The conversion keeps a lower bound by a natural integer. -/
theorem le_toInt {k : ℤ} {x : ℚ} (hk : 0 ≤ k) (hx : (k : ℚ) ≤ x) : k ≤ toInt x := by
  have hx0 : 0 ≤ x := le_trans (by exact_mod_cast hk) hx
  rw [toInt, if_pos hx0]
  exact Int.le_floor.mpr hx

end Binary64
