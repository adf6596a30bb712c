import Cloudberry.Bitmap.Scan

/-!
# Catching a batch up to the next tid

`_bitmap_catchup_to_next_tid` skips the words of a batch that stand before `result->nextTid`:
literal words one at a time, a fill word by `(nextTid - firstTid) / 64 + 1` words at once. When
`nextTid` is a whole number `k` of words into a fill word, that is one word too many: the fill word
loses `k + 1` words, `firstTid` ends 64 tids past `nextTid`, and `nextTid` is not moved
(`catchupToNextTid_fill_overshoots`). The scan that follows labels the words it reads from
`nextTid` on, so the tids of the word skipped are lost and the later ones come out 64 too low;
`catchupToNextTid_skips_fill_word` is a batch where 64 set tids are lost.
-/

namespace Cloudberry.Bitmap

open BitString

variable {words : BMBatchWords} {result : BMIterateResult}

/-- **The catch-up overshoots inside a fill word.** With `nextTid` a whole number `k ≥ 1` of words
after `firstTid`, inside a fill word longer than `k + 1` words, `_bitmap_catchup_to_next_tid` takes
`k + 1` words off the fill word and stops with `firstTid` 64 tids past `nextTid`. -/
theorem catchupToNextTid_fill_overshoots (hn : 0 < words.nwords)
    (hfill : isFillWord words.hwords result.lastScanWordNo = true) {k : ℕ} (hk : 0 < k)
    (hT : result.nextTid.toNat = words.firstTid.toNat + 64 * k)
    (hL : k + 1 < (fillLength (words.cwords.getD result.lastScanWordNo 0)).toNat)
    (hfit : result.nextTid.toNat + 64 < 2 ^ 64) :
    (catchupToNextTid words result).2 = result ∧
      (catchupToNextTid words result).1.firstTid.toNat = result.nextTid.toNat + 64 ∧
      (fillLength ((catchupToNextTid words result).1.cwords.getD result.lastScanWordNo 0)).toNat =
        (fillLength (words.cwords.getD result.lastScanWordNo 0)).toNat - (k + 1) := by
  set word := words.cwords.getD result.lastScanWordNo 0 with hword
  set fillToUse := (result.nextTid - words.firstTid) / 64 + 1 with hfillToUse
  have hTlt := result.nextTid.toNat_lt
  have hLlt := (fillLength word).toNat_lt
  have hlt : words.firstTid < result.nextTid := by
    rw [UInt64.lt_iff_toNat_lt]
    omega
  have hword0 : word ≠ 0 := by
    rintro h0
    rw [h0, fillLength_zero, UInt64.toNat_zero] at hL
    omega
  have hpos : fillLength word > 0 := by
    rw [gt_iff_lt, UInt64.lt_iff_toNat_lt, UInt64.toNat_zero]
    omega
  -- `fillToUse` is `k + 1`, one word more than `nextTid` is into the fill word
  have hdiv : ((result.nextTid - words.firstTid) / 64).toNat = k := by
    rw [UInt64.toNat_div, UInt64.toNat_sub_of_le _ _ (UInt64.le_of_lt hlt)]
    show (result.nextTid.toNat - words.firstTid.toNat) / 64 = k
    omega
  have huse : fillToUse.toNat = k + 1 := by
    rw [hfillToUse, toNat_add_of_lt (by rw [hdiv, UInt64.toNat_one]; omega), hdiv,
      UInt64.toNat_one]
  have hle : fillToUse ≤ fillLength word := by
    rw [UInt64.le_iff_toNat_le, huse]
    omega
  have hmin : min fillToUse (fillLength word) = fillToUse := if_pos hle
  have hfirst : (words.firstTid + fillToUse * 64).toNat = result.nextTid.toNat + 64 := by
    have hmul : (fillToUse * 64).toNat = (k + 1) * 64 := by
      rw [UInt64.toNat_mul, huse]
      exact Nat.mod_eq_of_lt (by show (k + 1) * 64 < 2 ^ 64; omega)
    rw [toNat_add_of_lt (by rw [hmul]; omega), hmul]
    omega
  have hleft : (fillLength word - fillToUse).toNat = (fillLength word).toNat - (k + 1) := by
    rw [UInt64.toNat_sub_of_le _ _ hle, huse]
  have hne : fillLength word - fillToUse ≠ 0 := by
    intro h
    rw [← UInt64.toNat_inj, hleft, UInt64.toNat_zero] at h
    omega
  have hge : words.firstTid + fillToUse * 64 ≥ result.nextTid := by
    rw [ge_iff_le, UInt64.le_iff_toNat_le, hfirst]
    omega
  have hi : result.lastScanWordNo < words.cwords.length := by
    by_contra h
    rw [hword, List.getD_eq_getElem?_getD, List.getElem?_eq_none (by omega), Option.getD_none]
      at hword0
    exact hword0 rfl
  -- one iteration of the loop: the fill word is not used up, and `firstTid` is past `nextTid`
  obtain ⟨n, hn'⟩ : ∃ n, words.nwords = n + 1 := ⟨words.nwords - 1, by omega⟩
  rw [catchupToNextTid, if_neg (UInt64.not_le.mpr hlt), hn', catchupToNextTidLoop]
  simp only [gt_iff_lt, ← hn', hn, hlt, and_self, if_true, hfill, ← hword, hword0, if_false,
    hpos, ← hfillToUse, hmin, hne, hge]
  refine ⟨trivial, hfirst, ?_⟩
  rw [getD_modify_self _ hi, ← hword, fillLength_sub (by rw [huse]; omega), huse]

/-- From tid 1, a fill word of three words of ones, caught up to tid 65: `firstTid` ends at 129,
and `_bitmap_findnexttids` then finds the 64 tids 65..128, where the batch has the 128 set tids
65..192. -/
theorem catchupToNextTid_skips_fill_word :
    BMBatchWords.WellFormed ⟨1, 0, 1, [0x8000000000000000], [bmMakeFillWord 1 3]⟩ ∧
      (catchupToNextTid ⟨1, 0, 1, [0x8000000000000000], [bmMakeFillWord 1 3]⟩
        ⟨65, 0, 0, [], 0, 0⟩).1.firstTid = 129 ∧
      (findnexttids ⟨1, 0, 1, [0x8000000000000000], [bmMakeFillWord 1 3]⟩
        ⟨65, 0, 0, [], 0, 0⟩ bmBatchTids).2.nextTids = (List.range 64).map (65 + ·.toUInt64) ∧
      ((setPositions (batchBits ⟨1, 0, 1, [0x8000000000000000], [bmMakeFillWord 1 3]⟩)).map
        (1 + ·)).filter (65 ≤ ·) = (List.range 128).map (65 + ·) := by
  refine ⟨by decide +kernel, ?_, by decide +kernel, by decide +kernel⟩
  -- the catch-up takes two words off the fill word where one was due
  obtain ⟨-, h, -⟩ := @catchupToNextTid_fill_overshoots
    ⟨1, 0, 1, [0x8000000000000000], [bmMakeFillWord 1 3]⟩ ⟨65, 0, 0, [], 0, 0⟩ (by decide)
    (by decide +kernel) 1 (by decide) (by decide) (by decide +kernel) (by decide)
  exact UInt64.toNat_inj.mp h

end Cloudberry.Bitmap
