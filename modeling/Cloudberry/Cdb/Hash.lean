import Cloudberry.Lib.Binary64
import Cloudberry.Lib.MachineInt
import Mathlib.Data.Nat.Find

/-!
# Reducing a hash to a segment (`cdbhash.c`)

`cdbhashreduce` maps the 32-bit hash of a row's distribution key to a segment, by one of three
reductions that `makeCdbHash` picks: a bit mask or a modulus for the legacy hash functions, and
otherwise the jump consistent hash. `jump_consistent_hash` draws, from a 64-bit linear
congruential generator seeded with the key, a sequence of buckets `0 = b₀ < b₁ < ⋯`, each
`(b + 1) * 2^31 / ((key >> 33) + 1)` computed in doubles, and returns the last bucket below the
number of segments. The sequence does not depend on that number, so one more segment either
keeps a key's bucket or moves the key to the new segment.

Here `b` and `j` are integers, and the doubles are rounded to nearest by `Binary64.round`. The
integers are faithful to the code's `int64`: after a bucket below `2^31`, the next is below `2^63`.

* `jumpTarget_gt`: each bucket is above the one before, as the quotient and the product are
  rounded no lower than the integers they bound;
* `jumpTarget_lt`: the conversion of the product to `int64` is in range;
* `jumpConsistentHashLoop_eq`: the loop returns the last bucket of the sequence below the number
  of segments;
* `cdbhashreduce_in_range_consistent`: every reduction gives a segment in range, and the jump hash
  of one more segment is the old one or the new segment.
-/

namespace Cloudberry.Cdb

open MachineInt

/-- `CdbHashReduce`. -/
inductive CdbHashReduce
  | bitmask
  | lazymod
  | jumpHash
  deriving DecidableEq, Repr

/-- `CdbHash`: the fields `cdbhashreduce` reads. -/
structure CdbHash where
  hash : UInt32
  numsegs : Int32
  reducealg : CdbHashReduce
  deriving DecidableEq, Repr

/-- `ispowof2`. -/
def ispowof2 (numsegs : Int32) : Bool := (numsegs &&& (numsegs - 1)) == 0

/-- The reduction that `makeCdbHash` picks. -/
def makeCdbHashReducealg (numsegs : Int32) (isLegacyHash : Bool) : CdbHashReduce :=
  if isLegacyHash then (if ispowof2 numsegs then .bitmask else .lazymod) else .jumpHash

/-- The multiplier of the generator in `jump_consistent_hash`. -/
def jumpMultiplier : UInt64 := 2862933555777941757

/-- The next bucket after `b`, from the key just drawn:
`(b + 1) * ((double)(1LL << 31) / (double)((key >> 33) + 1))`, converted to `int64`. -/
def jumpTarget (key : UInt64) (b : ℤ) : ℤ :=
  Binary64.toInt (Binary64.round (Binary64.round ((b + 1 : ℤ) : ℚ) *
    Binary64.round (Binary64.round ((2 ^ 31 : ℤ) : ℚ) /
      Binary64.round (((key >>> 33) + 1).toNat : ℚ))))

/-- The loop of `jump_consistent_hash`, with `fuel` rounds. -/
def jumpConsistentHashLoop (numSegments : ℤ) : ℕ → UInt64 → ℤ → ℤ → Option ℤ
  | 0, _, _, _ => none
  | fuel + 1, key, b, j =>
    if j < numSegments then
      let key := key * jumpMultiplier + 1
      jumpConsistentHashLoop numSegments fuel key j (jumpTarget key j)
    else some b

/-- `jump_consistent_hash`: the loop from `b = -1`, `j = 0`, with a round for each segment and
one more. -/
def jumpConsistentHash (key : UInt64) (numSegments : Int32) : Option Int32 :=
  (jumpConsistentHashLoop numSegments.toInt (numSegments.toInt.toNat + 1) key (-1) 0).map
    Int32.ofInt

/-- `cdbhashreduce`: the segment of the hash; `none` only when the jump hash loop runs out of
rounds. -/
def cdbhashreduce (h : CdbHash) : Option UInt32 :=
  match h.reducealg with
  | .bitmask => some (h.hash &&& (h.numsegs.toUInt32 - 1))
  | .lazymod => some (h.hash % h.numsegs.toUInt32)
  | .jumpHash => (jumpConsistentHash h.hash.toUInt64 h.numsegs).map Int32.toUInt32

/-- The keys and buckets of the rounds: the seed and `0`, then each key drawn and the bucket
computed from it. -/
def jumpSeq (key : UInt64) : ℕ → UInt64 × ℤ
  | 0 => (key, 0)
  | k + 1 =>
    let key' := (jumpSeq key k).1 * jumpMultiplier + 1
    (key', jumpTarget key' (jumpSeq key k).2)

/-! ## One bucket after another -/

/-- The divisor `(key >> 33) + 1` is between `1` and `2^31`. -/
theorem toNat_divisor (key : UInt64) :
    1 ≤ ((key >>> 33) + 1).toNat ∧ ((key >>> 33) + 1).toNat ≤ 2 ^ 31 := by
  have hshift : (key >>> 33).toNat = key.toNat / 2 ^ 33 := by
    rw [UInt64.toNat_shiftRight, Nat.shiftRight_eq_div_pow]
    rfl
  have hlt := key.toNat_lt
  rw [UInt64.toNat_add, hshift, UInt64.toNat_one]
  omega

/-- The quotient `2^31 / ((key >> 33) + 1)` of a round. -/
def jumpQuotient (key : UInt64) : ℚ := ((2 ^ 31 : ℤ) : ℚ) / ((key >>> 33) + 1).toNat

/-- The conversions of a round are exact: the bucket is the rounded product of `b + 1` and the
rounded quotient. -/
theorem jumpTarget_eq (key : UInt64) {b : ℤ} (hb : 0 ≤ b) (hb53 : b + 1 ≤ 2 ^ 53) :
    jumpTarget key b = Binary64.toInt (Binary64.round (((b + 1 : ℤ) : ℚ) *
      Binary64.round (jumpQuotient key))) := by
  obtain ⟨hd1, hd31⟩ := toNat_divisor key
  have hdivisor : Binary64.round (((key >>> 33) + 1).toNat : ℚ) = ((key >>> 33) + 1).toNat := by
    have h := Binary64.round_intCast (k := ((key >>> 33) + 1).toNat) (by omega) (by omega)
    exact_mod_cast h
  rw [jumpTarget, Binary64.round_intCast (by omega) hb53,
    Binary64.round_intCast (k := 2 ^ 31) (by norm_num) (by norm_num), hdivisor, jumpQuotient]

/-- The quotient is between `1` and `2^31`, and so is its rounding. -/
theorem round_jumpQuotient (key : UInt64) :
    ((1 : ℤ) : ℚ) ≤ Binary64.round (jumpQuotient key) ∧
      Binary64.round (jumpQuotient key) ≤ ((2 ^ 31 : ℤ) : ℚ) := by
  obtain ⟨hd1, hd31⟩ := toNat_divisor key
  have hdpos : (0 : ℚ) < ((key >>> 33) + 1).toNat := by exact_mod_cast hd1
  have hlow : 1 ≤ jumpQuotient key := by
    rw [jumpQuotient, one_le_div hdpos]
    exact_mod_cast hd31
  have hhigh : jumpQuotient key ≤ ((2 ^ 31 : ℤ) : ℚ) :=
    div_le_self (by norm_num) (by exact_mod_cast hd1)
  exact ⟨Binary64.le_round le_rfl (by norm_num) (by exact_mod_cast hlow),
    Binary64.round_le (by norm_num) hlow hhigh⟩

/-- **Each bucket is above the one before**: the product is at least `b + 1`, and so are its
rounding and its conversion. -/
theorem jumpTarget_gt (key : UInt64) {b : ℤ} (hb : 0 ≤ b) (hb53 : b + 1 ≤ 2 ^ 53) :
    b < jumpTarget key b := by
  have hprod : ((b + 1 : ℤ) : ℚ) ≤ Binary64.round (((b + 1 : ℤ) : ℚ) *
      Binary64.round (jumpQuotient key)) := by
    refine Binary64.le_round (by omega) hb53 (le_mul_of_one_le_right ?_ ?_)
    · exact_mod_cast (show (0 : ℤ) ≤ b + 1 by omega)
    · exact_mod_cast (round_jumpQuotient key).1
  have hint := Binary64.le_toInt (by omega) hprod
  rw [jumpTarget_eq key hb hb53]
  omega

/-- Each bucket after one below `2^31 - 1` is below `2^63`, so its conversion to `int64` is in
range: the rounded product is at most twice `(b + 1) * 2^31`. -/
theorem jumpTarget_lt (key : UInt64) {b : ℤ} (hb : 0 ≤ b) (hb31 : b + 1 < 2 ^ 31) :
    jumpTarget key b < 2 ^ 63 := by
  obtain ⟨hq1, hq31⟩ := round_jumpQuotient key
  have hb1 : ((1 : ℤ) : ℚ) ≤ ((b + 1 : ℤ) : ℚ) := by exact_mod_cast (show (1 : ℤ) ≤ b + 1 by omega)
  have hprod1 : 1 ≤ ((b + 1 : ℤ) : ℚ) * Binary64.round (jumpQuotient key) := by
    rw [Int.cast_one] at hq1 hb1
    exact one_le_mul_of_one_le_of_one_le hb1 hq1
  have hprod : Binary64.round (((b + 1 : ℤ) : ℚ) * Binary64.round (jumpQuotient key)) ≤
      2 * (((b + 1 : ℤ) : ℚ) * ((2 ^ 31 : ℤ) : ℚ)) :=
    (Binary64.round_le_two_mul hprod1).trans
      (by gcongr)
  have hround1 : ((1 : ℤ) : ℚ) ≤ Binary64.round (((b + 1 : ℤ) : ℚ) *
      Binary64.round (jumpQuotient key)) :=
    Binary64.le_round le_rfl (by norm_num) (by exact_mod_cast hprod1)
  have hint := Binary64.toInt_le (le_trans (by norm_num) hround1)
  have hlt : (2 : ℚ) * (((b + 1 : ℤ) : ℚ) * ((2 ^ 31 : ℤ) : ℚ)) < ((2 ^ 63 : ℤ) : ℚ) := by
    have : 2 * ((b + 1) * 2 ^ 31) < (2 ^ 63 : ℤ) := by omega
    exact_mod_cast this
  rw [jumpTarget_eq key hb (by omega)]
  exact_mod_cast hint.trans_lt (hprod.trans_lt hlt)

/-! ## The loop -/

/-- Bucket `m` is the last one below `n`: the buckets up to it are below `n`, and the next one is
not. -/
def IsLastBelow (key : UInt64) (n : ℤ) (m : ℕ) : Prop :=
  (∀ k ≤ m, (jumpSeq key k).2 < n) ∧ n ≤ (jumpSeq key (m + 1)).2

section Loop

variable {key : UInt64} {n : ℤ} {m : ℕ}

/-- The loop from the round of bucket `i`: while the buckets are below `n` it moves to the next
one, and it returns the bucket before the first one that is not. -/
theorem jumpConsistentHashLoop_jumpSeq (h : IsLastBelow key n m) :
    ∀ (d i fuel : ℕ) (b : ℤ), i + d = m + 1 → d < fuel → (d = 0 → b = (jumpSeq key m).2) →
      jumpConsistentHashLoop n fuel (jumpSeq key i).1 b (jumpSeq key i).2 =
        some (jumpSeq key m).2 := by
  intro d
  induction d with
  | zero =>
    intro i fuel b hi hfuel hb
    obtain ⟨fuel, rfl⟩ : ∃ f, fuel = f + 1 := ⟨fuel - 1, by omega⟩
    obtain rfl : i = m + 1 := by omega
    rw [jumpConsistentHashLoop, if_neg (Int.not_lt.mpr h.2), hb rfl]
  | succ d ih =>
    intro i fuel b hi hfuel _
    obtain ⟨fuel, rfl⟩ : ∃ f, fuel = f + 1 := ⟨fuel - 1, by omega⟩
    rw [jumpConsistentHashLoop, if_pos (h.1 i (by omega))]
    exact ih (i + 1) fuel _ (by omega) (by omega) fun hd => by rw [show i = m by omega]

/-- From `b = -1` and bucket `0`, the loop returns the last bucket below `n`. -/
theorem jumpConsistentHashLoop_eq (h : IsLastBelow key n m) {fuel : ℕ} (hfuel : m + 1 < fuel) :
    jumpConsistentHashLoop n fuel key (-1) 0 = some (jumpSeq key m).2 :=
  jumpConsistentHashLoop_jumpSeq h (m + 1) 0 fuel (-1) (by omega) hfuel
    fun hd => absurd hd (Nat.succ_ne_zero m)

/-- While the buckets stay below `n ≤ 2^31`, the `k`-th is at least `k`. -/
theorem le_jumpSeq (hn : n ≤ 2 ^ 31) :
    ∀ k : ℕ, (∀ i < k, (jumpSeq key i).2 < n) → (k : ℤ) ≤ (jumpSeq key k).2
  | 0, _ => le_refl 0
  | k + 1, hlt => by
    have hk := le_jumpSeq hn k fun i hi => hlt i (by omega)
    have hlast := hlt k (by omega)
    have hgt := jumpTarget_gt ((jumpSeq key k).1 * jumpMultiplier + 1)
      (b := (jumpSeq key k).2) (by omega) (by omega)
    show ((k + 1 : ℕ) : ℤ) ≤ jumpTarget _ (jumpSeq key k).2
    omega

/-- There is a last bucket below `n`, and it is bucket `m` for some `m` below `n`. -/
theorem exists_isLastBelow (hn1 : 1 ≤ n) (hn : n ≤ 2 ^ 31) :
    ∃ m : ℕ, IsLastBelow key n m ∧ (m : ℤ) < n := by
  have hzero : (jumpSeq key 0).2 < n := by
    show (0 : ℤ) < n
    omega
  -- the buckets grow by at least one while they are below `n`, so one of them reaches it
  have hex : ∃ m, n ≤ (jumpSeq key (m + 1)).2 := by
    by_contra hnone
    have hall : ∀ k, (jumpSeq key k).2 < n := by
      intro k
      cases k with
      | zero => exact hzero
      | succ k => exact Int.not_le.mp fun h => hnone ⟨k, h⟩
    have hgrow := le_jumpSeq hn n.toNat fun i _ => hall i
    have hbelow := hall n.toNat
    omega
  have hlt : ∀ k ≤ Nat.find hex, (jumpSeq key k).2 < n := by
    intro k hk
    cases k with
    | zero => exact hzero
    | succ k => exact Int.not_le.mp (Nat.find_min hex (show k < Nat.find hex by omega))
  have hgrow := le_jumpSeq hn (Nat.find hex) fun i hi => hlt i hi.le
  exact ⟨Nat.find hex, ⟨hlt, Nat.find_spec hex⟩, lt_of_le_of_lt hgrow (hlt _ le_rfl)⟩

/-- **One more segment keeps the last bucket or takes the next**, when the next bucket is the new
segment. -/
theorem IsLastBelow.succ (h : IsLastBelow key n m) (hn : n + 1 ≤ 2 ^ 31) :
    (jumpSeq key (m + 1)).2 = n ∧ IsLastBelow key (n + 1) (m + 1) ∨
      (jumpSeq key (m + 1)).2 ≠ n ∧ IsLastBelow key (n + 1) m := by
  by_cases hnext : (jumpSeq key (m + 1)).2 = n
  · left
    refine ⟨hnext, fun k hk => ?_, ?_⟩
    · rcases Nat.lt_or_ge k (m + 1) with hk' | hk'
      · have := h.1 k (by omega)
        omega
      · rw [show k = m + 1 by omega, hnext]
        omega
    · -- the bucket after the new segment is above it
      have hzero : (0 : ℤ) ≤ (jumpSeq key (m + 1)).2 :=
        le_trans (Int.natCast_nonneg _) (le_jumpSeq (by omega) (m + 1) fun i hi => h.1 i (by omega))
      have hgt := jumpTarget_gt ((jumpSeq key (m + 1)).1 * jumpMultiplier + 1)
        (b := (jumpSeq key (m + 1)).2) hzero (by omega)
      show n + 1 ≤ jumpTarget _ (jumpSeq key (m + 1)).2
      omega
  · right
    refine ⟨hnext, fun k hk => ?_, ?_⟩
    · have := h.1 k hk
      omega
    · have := h.2
      omega

end Loop

/-! ## The reductions -/

/-- **The jump hash is the last bucket below the number of segments.** -/
theorem jumpConsistentHash_eq (key : UInt64) (numSegments : Int32) {m : ℕ}
    (h : IsLastBelow key numSegments.toInt m) (hm : (m : ℤ) < numSegments.toInt) :
    jumpConsistentHash key numSegments = some (Int32.ofInt (jumpSeq key m).2) := by
  rw [jumpConsistentHash, jumpConsistentHashLoop_eq h (by omega), Option.map_some]

/-- The last bucket below a number of segments is a segment. -/
theorem IsLastBelow.toInt_ofInt {key : UInt64} {n : ℤ} {m : ℕ} (h : IsLastBelow key n m)
    (hn : n ≤ 2 ^ 31) :
    0 ≤ (jumpSeq key m).2 ∧ (jumpSeq key m).2 < n ∧
      (Int32.ofInt (jumpSeq key m).2).toInt = (jumpSeq key m).2 := by
  have hlt := h.1 m le_rfl
  have hge := le_jumpSeq hn m fun i hi => h.1 i hi.le
  exact ⟨le_trans (Int.natCast_nonneg _) hge, hlt, Int32.toInt_ofInt_of_le (by omega) (by omega)⟩

/-- **Every reduction gives a segment in range, and one more segment keeps the jump hash or moves
it to the new segment.** -/
theorem cdbhashreduce_in_range_consistent (hash : UInt32) (numsegs : Int32)
    (hn : 1 ≤ numsegs.toInt) :
    (∀ reducealg, ∃ segment, cdbhashreduce ⟨hash, numsegs, reducealg⟩ = some segment ∧
        (segment.toNat : ℤ) < numsegs.toInt) ∧
      (numsegs.toInt < 2 ^ 31 - 1 →
        ∃ b b', jumpConsistentHash hash.toUInt64 numsegs = some b ∧
          jumpConsistentHash hash.toUInt64 (numsegs + 1) = some b' ∧
          (b' = b ∨ b'.toInt = numsegs.toInt)) := by
  have hn31 : numsegs.toInt < 2 ^ 31 := Int32.toInt_lt numsegs
  have hsegs : (numsegs.toUInt32.toNat : ℤ) = numsegs.toInt := by
    rw [toNat_toUInt32_of_nonneg (by omega)]
    omega
  obtain ⟨m, hlast, hm⟩ : ∃ m, IsLastBelow hash.toUInt64 numsegs.toInt m ∧ (m : ℤ) < numsegs.toInt :=
    exists_isLastBelow hn hn31.le
  obtain ⟨hpos, hbelow, hofInt⟩ := hlast.toInt_ofInt hn31.le
  refine ⟨fun reducealg => ?_, fun hmax => ?_⟩
  · cases reducealg with
    | bitmask =>
      -- the mask keeps the bits of `numsegs - 1`
      refine ⟨_, rfl, ?_⟩
      have hone : (1 : UInt32) ≤ numsegs.toUInt32 := UInt32.le_iff_toNat_le.mpr (by
        rw [UInt32.toNat_one]
        omega)
      have hand : (hash.toNat &&& (numsegs.toUInt32.toNat - 1)) ≤ numsegs.toUInt32.toNat - 1 :=
        Nat.and_le_right
      dsimp only
      rw [UInt32.toNat_and, UInt32.toNat_sub_of_le _ _ hone, UInt32.toNat_one]
      omega
    | lazymod =>
      refine ⟨_, rfl, ?_⟩
      dsimp only
      rw [UInt32.toNat_mod]
      have := Nat.mod_lt hash.toNat (show 0 < numsegs.toUInt32.toNat by omega)
      omega
    | jumpHash =>
      refine ⟨_, by rw [cdbhashreduce, jumpConsistentHash_eq _ _ hlast hm, Option.map_some], ?_⟩
      rw [toNat_toUInt32_of_nonneg (by omega), hofInt]
      omega
  · -- one more segment: the sum does not overflow
    have hsucc : (numsegs + 1).toInt = numsegs.toInt + 1 := by
      rw [int32_toInt_add_of_lt (by rw [Int32.toInt_one]; omega) (by rw [Int32.toInt_one]; omega),
        Int32.toInt_one]
    rcases hlast.succ (by omega) with ⟨hnext, hlast'⟩ | ⟨-, hlast'⟩
    · -- the next bucket is the new segment
      rw [← hsucc] at hlast'
      refine ⟨_, _, jumpConsistentHash_eq _ _ hlast hm,
        jumpConsistentHash_eq _ _ hlast' (by omega), .inr ?_⟩
      rw [(hlast'.toInt_ofInt (by omega)).2.2, hnext]
    · rw [← hsucc] at hlast'
      exact ⟨_, _, jumpConsistentHash_eq _ _ hlast hm,
        jumpConsistentHash_eq _ _ hlast' (by omega), .inl rfl⟩

theorem cdbhashreduce_in_range_consistent_three_segments :
    1 ≤ (3 : Int32).toInt ∧
      ((∀ reducealg, ∃ segment, cdbhashreduce ⟨12345, 3, reducealg⟩ = some segment ∧
          (segment.toNat : ℤ) < (3 : Int32).toInt) ∧
        ((3 : Int32).toInt < 2 ^ 31 - 1 →
          ∃ b b', jumpConsistentHash (12345 : UInt32).toUInt64 3 = some b ∧
            jumpConsistentHash (12345 : UInt32).toUInt64 (3 + 1) = some b' ∧
            (b' = b ∨ b'.toInt = (3 : Int32).toInt))) :=
  ⟨by decide, cdbhashreduce_in_range_consistent 12345 3 (by decide)⟩

end Cloudberry.Cdb
