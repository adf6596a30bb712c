import Cloudberry.Bitmap.Iterate

/-!
# What the iteration over a batch finds

The tids that `_bitmap_findnexttids` finds in a batch are the positions of the set bits of what the
batch stands for, offset by the first tid. The scan is followed by an invariant, `ScanInv`, that
says where the scan stands (between words, or inside a literal word at a scan position), and by the
tids it has still to find, `pending`: those of the set bits of `remaining`, what is left to read.

* `ScanStep` is what a stretch of a call does: it keeps the invariant, the tids it appends to the
  array are the first of those pending, and `nextTid` moves on by the bits it reads. Steps compose
  (`ScanStep.trans`), and every branch of the loops is one (`ScanInv.skipZeroWord`,
  `ScanInv.explainOne`, `ScanInv.emitBit`, `ScanInv.advance`).
* The loops, by induction on their fuel: `ScanInv.explainFillWords`, `ScanInv.scanLiteral` and
  `ScanInv.findnexttidsLoop`, which stops with every word read or the array within a word of full.
* Calls one after the other: `ScanInv.findnexttidsRun` and, through the array, the outstanding
  tids of `_bitmap_findnexttid` (`ScanInv.findnexttidRun`).
* `findnexttid_enumerates_setPositions`: from `_bitmap_begin_iterate`, a well-formed batch whose
  tids fit in 64 bits is decoded into the tids of its set bits, in increasing order;
  `findnexttid_enumerates_tids` is the same for the batches a scan reads, whose tids are
  `BM_IPTR_TO_INT` values, below `2^48`.
-/

namespace Cloudberry.Bitmap

open BitString

/-! ## `_bitmap_find_bitset` -/

/-- The loop of `_bitmap_find_bitset` stops at the first set bit from `pos` on, or past the word. -/
theorem findBitsetLoop_spec (w : UInt64) : ∀ (fuel pos : ℕ) (r : UInt64), 1 ≤ pos → pos ≤ 65 →
    65 ≤ pos + fuel → (pos ≤ 64 → r.toNat = 2 ^ (pos - 1)) →
    pos ≤ findBitsetLoop w fuel r pos ∧ findBitsetLoop w fuel r pos ≤ 65 ∧
      (∀ i, pos - 1 ≤ i → i + 1 < findBitsetLoop w fuel r pos → w.toNat.testBit i = false) ∧
      (findBitsetLoop w fuel r pos ≤ 64 → w.toNat.testBit (findBitsetLoop w fuel r pos - 1) = true) := by
  intro fuel
  induction fuel with
  | zero =>
    intro pos r _ hle hfuel _
    simp only [findBitsetLoop]
    exact ⟨le_rfl, hle, fun i _ _ => by omega, fun h => by omega⟩
  | succ fuel ih =>
    intro pos r hpos hle hfuel hr
    simp only [findBitsetLoop]
    split_ifs with hclear
    · -- bit `pos - 1` is clear: the loop moves to the next bit
      obtain ⟨hpos64, hzero⟩ := hclear
      have hbit := (and_eq_zero_iff_testBit (hr hpos64)).mp hzero
      have hr' : pos + 1 ≤ 64 → (r <<< 1).toNat = 2 ^ (pos + 1 - 1) := by
        intro h
        have hpow : 2 ^ (pos - 1) * 2 = 2 ^ (pos + 1 - 1) := by
          rw [← Nat.pow_succ]
          congr 1
          omega
        have hlt : 2 ^ (pos + 1 - 1) < 2 ^ 64 := Nat.pow_lt_pow_right (by decide) (by omega)
        rw [UInt64.toNat_shiftLeft, hr hpos64]
        simp only [UInt64.toNat_one, Nat.reduceMod, Nat.shiftLeft_eq, Nat.pow_one]
        rw [hpow, Nat.mod_eq_of_lt hlt]
      obtain ⟨h1, h2, h3, h4⟩ := ih (pos + 1) (r <<< 1) (by omega) (by omega) (by omega) hr'
      refine ⟨by omega, h2, fun i hi hlt => ?_, h4⟩
      rcases Nat.eq_or_lt_of_le hi with heq | hgt
      · rw [← heq]; exact hbit
      · exact h3 i (by omega) hlt
    · refine ⟨le_rfl, hle, fun i _ _ => by omega, fun hpos64 => ?_⟩
      have hset : ¬ (w &&& r = 0) := fun h => hclear ⟨hpos64, h⟩
      rw [and_eq_zero_iff_testBit (hr hpos64)] at hset
      simpa using hset

/-- **`_bitmap_find_bitset`**: 0 when no bit from `lastPos` on is set; otherwise one past the
first set bit from `lastPos` on. -/
theorem findBitset_spec (w : UInt64) {lastPos : ℕ} (hp : lastPos ≤ 64) :
    (findBitset w lastPos = 0 ∧ ∀ i, lastPos ≤ i → i < 64 → w.toNat.testBit i = false) ∨
      (∃ q, findBitset w lastPos = q + 1 ∧ lastPos ≤ q ∧ q < 64 ∧ w.toNat.testBit q = true ∧
        ∀ i, lastPos ≤ i → i < q → w.toNat.testBit i = false) := by
  unfold findBitset
  by_cases hend : lastPos + 1 > 64
  · left
    exact ⟨if_pos hend, fun i h1 h2 => by omega⟩
  · rw [if_neg hend]
    have hr := toNat_one_shiftLeft (k := lastPos + 1 - 1) (by omega)
    obtain ⟨h1, h2, h3, h4⟩ := findBitsetLoop_spec w 64 (lastPos + 1)
      ((1 : UInt64) <<< (lastPos + 1 - 1).toUInt64) (by omega) (by omega) (by omega) fun _ => hr
    set q := findBitsetLoop w 64 ((1 : UInt64) <<< (lastPos + 1 - 1).toUInt64) (lastPos + 1)
    by_cases hq : q > 64
    · left
      refine ⟨if_pos hq, fun i hi hlt => h3 i (by omega) (by omega)⟩
    · right
      refine ⟨q - 1, by rw [if_neg hq]; omega, by omega, by omega, h4 (by omega),
        fun i hi hlt => h3 i (by omega) (by omega)⟩

/-! ## Literal words -/

/-- A literal read from `p` is read from `q` when its bits in between are clear. -/
theorem wordBitsFrom_literal_congr {w : UInt64} {p q : ℕ} (hpq : p ≤ q)
    (hclear : ∀ i, p ≤ i → i < q → w.toNat.testBit i = false) :
    wordBitsFrom false w p = wordBitsFrom false w q := by
  simp only [wordBitsFrom, Bool.false_eq_true, if_false]
  refine List.map_congr_left fun i _ => ?_
  by_cases h1 : q ≤ i
  · simp [h1, show p ≤ i by omega]
  · by_cases h2 : p ≤ i
    · simp [hclear i h2 (by omega)]
    · simp [h1, h2]

/-- A literal read from `q`, with bit `q` set, has its first set bit there. -/
theorem setPositions_wordBitsFrom_literal {w : UInt64} {q : ℕ} (hq : q < 64)
    (hset : w.toNat.testBit q = true) :
    setPositions (wordBitsFrom false w q) = q :: setPositions (wordBitsFrom false w (q + 1)) := by
  simp only [wordBitsFrom, Bool.false_eq_true, if_false]
  exact setPositions_map_range_from _ hq hset

/-- A literal read from a position past its last set bit stands for zeros. -/
theorem wordBitsFrom_literal_of_clear {w : UInt64} {p : ℕ}
    (hclear : ∀ i, p ≤ i → i < 64 → w.toNat.testBit i = false) :
    wordBitsFrom false w p = List.replicate 64 false := by
  simp only [wordBitsFrom, Bool.false_eq_true, if_false]
  refine List.ext_getElem (by simp) fun i h1 h2 => ?_
  simp only [List.getElem_map, List.getElem_range, List.getElem_replicate]
  by_cases hp : p ≤ i
  · simp [hclear i hp (by simpa using h1)]
  · simp [hp]

/-! ## What is left to scan -/

/-- The bits of a batch: its words from `startNo` on. -/
def batchBits (words : BMBatchWords) : List Bool :=
  scanBits words.hwords words.cwords words.startNo words.nwords 0

/-- The bits that the scan has still to read: the words from `lastScanWordNo` on, the first of
them from the scan position on. -/
def remaining (words : BMBatchWords) (result : BMIterateResult) : List Bool :=
  scanBits words.hwords words.cwords result.lastScanWordNo words.nwords result.lastScanPos

/-- The tids that the scan has still to find. -/
def pending (words : BMBatchWords) (result : BMIterateResult) : List ℕ :=
  (setPositions (remaining words result)).map (result.nextTid.toNat + ·)

/-- Where the scan of a batch stands between two words or inside a literal word: `firstTid` and
`nextTid` both at the first tid of the current word, a scan position only inside a literal word,
no fill word of zeros that stands for no word, and no tid past `2^64`. -/
structure ScanInv (words : BMBatchWords) (result : BMIterateResult) : Prop where
  tid_eq : words.firstTid = result.nextTid
  scanPos_le : result.lastScanPos ≤ 64
  literal : result.lastScanPos ≠ 0 →
    0 < words.nwords ∧ isFillWord words.hwords result.lastScanWordNo = false
  fill_pos : ∀ j < words.nwords, isFillWord words.hwords (result.lastScanWordNo + j) = true →
    getFillBit (words.cwords.getD (result.lastScanWordNo + j) 0) = 0 →
      0 < (fillLength (words.cwords.getD (result.lastScanWordNo + j) 0)).toNat
  no_overflow : result.nextTid.toNat + (remaining words result).length < 2 ^ 64

/-- What a stretch of a call of `_bitmap_findnexttids` does: it keeps the invariant and the count
of the array, the tids it appends are the first of those pending, and `nextTid` moves on by the
bits it reads. -/
structure ScanStep (words : BMBatchWords) (result : BMIterateResult) (words' : BMBatchWords)
    (result' : BMIterateResult) : Prop where
  inv : ScanInv words' result'
  count : result'.numOfTids = result'.nextTids.length
  found : result'.nextTids.map UInt64.toNat ++ pending words' result' =
    result.nextTids.map UInt64.toNat ++ pending words result
  extent : result'.nextTid.toNat + (remaining words' result').length =
    result.nextTid.toNat + (remaining words result).length
  nwords_le : words'.nwords ≤ words.nwords
  loc : result'.nextTidLoc = result.nextTidLoc

theorem ScanStep.refl {words : BMBatchWords} {result : BMIterateResult} (hI : ScanInv words result)
    (hcount : result.numOfTids = result.nextTids.length) : ScanStep words result words result :=
  ⟨hI, hcount, rfl, rfl, le_rfl, rfl⟩

theorem ScanStep.trans {w₁ w₂ w₃ : BMBatchWords} {r₁ r₂ r₃ : BMIterateResult}
    (h₁ : ScanStep w₁ r₁ w₂ r₂) (h₂ : ScanStep w₂ r₂ w₃ r₃) : ScanStep w₁ r₁ w₃ r₃ :=
  ⟨h₂.inv, h₂.count, h₂.found.trans h₁.found, h₂.extent.trans h₁.extent,
    h₂.nwords_le.trans h₁.nwords_le, h₂.loc.trans h₁.loc⟩

variable {words : BMBatchWords} {result : BMIterateResult}

/-- The invariant reads where the scan stands, not the array of tids. -/
theorem ScanInv.of_eq (hI : ScanInv words result) {result' : BMIterateResult}
    (h₁ : result'.nextTid = result.nextTid) (h₂ : result'.lastScanPos = result.lastScanPos)
    (h₃ : result'.lastScanWordNo = result.lastScanWordNo) : ScanInv words result' := by
  have hrem : remaining words result' = remaining words result := by
    rw [remaining, remaining, h₂, h₃]
  refine ⟨?_, ?_, ?_, ?_, ?_⟩
  · rw [h₁]
    exact hI.tid_eq
  · rw [h₂]
    exact hI.scanPos_le
  · rw [h₂, h₃]
    exact hI.literal
  · rw [h₃]
    exact hI.fill_pos
  · rw [h₁, hrem]
    exact hI.no_overflow

theorem remaining_eq (hn : 0 < words.nwords) :
    remaining words result =
      wordBitsFrom (isFillWord words.hwords result.lastScanWordNo)
          (words.cwords.getD result.lastScanWordNo 0) result.lastScanPos ++
        scanBits words.hwords words.cwords (result.lastScanWordNo + 1) (words.nwords - 1) 0 := by
  obtain ⟨n, hn'⟩ := Nat.exists_eq_add_of_lt hn
  rw [remaining, hn', Nat.zero_add, scanBits_succ, Nat.add_sub_cancel]

/-- **Moving past a word that has no set bit left.** -/
theorem ScanInv.advance (hI : ScanInv words result)
    (hcount : result.numOfTids = result.nextTids.length) (hn : 0 < words.nwords) {m : ℕ}
    (hzero : wordBitsFrom (isFillWord words.hwords result.lastScanWordNo)
      (words.cwords.getD result.lastScanWordNo 0) result.lastScanPos = List.replicate m false)
    {t : UInt64} (ht : t.toNat = result.nextTid.toNat + m) :
    ScanStep words result
      { words with nwords := words.nwords - 1, firstTid := t }
      { result with nextTid := t, lastScanWordNo := result.lastScanWordNo + 1, lastScanPos := 0 } := by
  set rest := scanBits words.hwords words.cwords (result.lastScanWordNo + 1) (words.nwords - 1) 0
  have hrem : remaining words result = List.replicate m false ++ rest := by
    rw [remaining_eq hn, hzero]
  have hext : t.toNat + rest.length = result.nextTid.toNat + (remaining words result).length := by
    rw [hrem, List.length_append, List.length_replicate, ht]
    omega
  refine ⟨⟨rfl, Nat.zero_le _, fun h => absurd rfl h, fun j hj => ?_, hext ▸ hI.no_overflow⟩,
    hcount, ?_, hext, Nat.sub_le _ _, rfl⟩
  · have := hI.fill_pos (j + 1) (by simp at hj; omega)
    simpa [Nat.add_assoc, Nat.add_comm 1 j] using this
  · congr 1
    show (setPositions rest).map (t.toNat + ·) = pending words result
    rw [pending, hrem, setPositions_append, setPositions_replicate_false,
      List.nil_append, List.map_map, ht, List.length_replicate]
    congr 1
    funext k
    simp only [Function.comp_apply]
    omega

/-- **Skipping a word of zeros.** -/
theorem ScanInv.skipZeroWord (hI : ScanInv words result)
    (hcount : result.numOfTids = result.nextTids.length) (hn : 0 < words.nwords)
    (hpos : result.lastScanPos = 0)
    (hzero : (isFillWord words.hwords result.lastScanWordNo = true ∧
        getFillBit (words.cwords.getD result.lastScanWordNo 0) = 0) ∨
      words.cwords.getD result.lastScanWordNo 0 = 0) :
    ScanStep words result
      (skipZeroWord words result (words.cwords.getD result.lastScanWordNo 0)).1
      (skipZeroWord words result (words.cwords.getD result.lastScanWordNo 0)).2 ∧
    (skipZeroWord words result (words.cwords.getD result.lastScanWordNo 0)).1.nwords =
      words.nwords - 1 := by
  set word := words.cwords.getD result.lastScanWordNo 0 with hword
  set isFill := isFillWord words.hwords result.lastScanWordNo
  set L : UInt64 := if word = 0 then 1 else fillLength word with hL
  -- the word stands for `L` words of zeros
  have hbits : wordBitsFrom isFill word result.lastScanPos = List.replicate (L.toNat * 64) false := by
    rw [hpos]
    by_cases h0 : word = 0
    · have hlit : isFill = false := by
        by_contra hfill
        have := hI.fill_pos 0 hn (by simpa using hfill) (by rw [Nat.add_zero, ← hword, h0]; decide)
        rw [Nat.add_zero, ← hword, h0] at this
        exact absurd this (by decide)
      rw [hlit, wordBitsFrom_literal_of_clear fun i _ _ => by rw [h0]; simp, hL, if_pos h0]
      rfl
    · obtain ⟨hfill, hbit⟩ := hzero.resolve_right h0
      rw [hL, if_neg h0, wordBitsFrom, if_pos hfill, hbit]
      rfl
  have hlen : L.toNat * 64 ≤ (remaining words result).length := by
    rw [remaining_eq hn, List.length_append, hbits, List.length_replicate]
    omega
  have hmul : (L * 64).toNat = L.toNat * 64 := by
    rw [UInt64.toNat_mul, Nat.mod_eq_of_lt (by have := hI.no_overflow; simp; omega)]
    rfl
  have ht : (result.nextTid + L * 64).toNat = result.nextTid.toNat + L.toNat * 64 := by
    rw [toNat_add_of_lt (by have := hI.no_overflow; omega), hmul]
  have heq : Bitmap.skipZeroWord words result word =
      ({ words with
          nwords := words.nwords - 1
          firstTid := result.nextTid + L * 64 },
        { result with
          nextTid := result.nextTid + L * 64
          lastScanWordNo := result.lastScanWordNo + 1
          lastScanPos := 0 }) := by
    simp only [Bitmap.skipZeroWord, hI.tid_eq, hL]
  rw [heq]
  exact ⟨hI.advance hcount hn hbits ht, rfl⟩

/-! ## Fill words of ones -/

theorem foldl_emit (n : ℕ) (result : BMIterateResult) :
    (List.range n).foldl (fun result _ =>
        { result.emit result.nextTid with nextTid := result.nextTid + 1 }) result =
      { result with
        nextTids := result.nextTids ++ (List.range n).map fun i => result.nextTid + i.toUInt64
        numOfTids := result.numOfTids + n
        nextTid := result.nextTid + n.toUInt64 } := by
  induction n with
  | zero => simp
  | succ n ih =>
    rw [List.range_succ, List.foldl_append, ih]
    simp only [List.foldl_cons, List.foldl_nil, BMIterateResult.emit, List.append_assoc,
      List.map_append, List.map_cons, List.map_nil]
    simp [Nat.add_assoc, UInt64.add_assoc]

/-- `explainWord` emits the 64 tids from `nextTid` on. -/
theorem explainWord_eq (result : BMIterateResult) :
    explainWord result =
      { result with
        nextTids := result.nextTids ++ (List.range 64).map fun i => result.nextTid + i.toUInt64
        numOfTids := result.numOfTids + 64
        nextTid := result.nextTid + 64 } :=
  foldl_emit 64 result

/-- **Explaining one word of a fill word of ones**: its 64 tids are emitted, and the fill word is
one word shorter. -/
theorem ScanInv.explainOne (hI : ScanInv words result)
    (hcount : result.numOfTids = result.nextTids.length) (hn : 0 < words.nwords)
    (hfill : isFillWord words.hwords result.lastScanWordNo = true)
    (hbit : getFillBit (words.cwords.getD result.lastScanWordNo 0) = 1) {k : ℕ}
    (hk : (fillLength (words.cwords.getD result.lastScanWordNo 0)).toNat = k + 1) :
    ScanStep words result
      { words with
        cwords := words.cwords.modify result.lastScanWordNo (· - 1)
        firstTid := words.firstTid + 64 }
      (explainWord result) ∧
    (fillLength ((words.cwords.modify result.lastScanWordNo (· - 1)).getD
      result.lastScanWordNo 0)).toNat = k ∧
    getFillBit ((words.cwords.modify result.lastScanWordNo (· - 1)).getD
      result.lastScanWordNo 0) = 1 := by
  set i := result.lastScanWordNo with hi_def
  set word := words.cwords.getD i 0 with hword
  have hpos : result.lastScanPos = 0 := by
    by_contra h
    rw [(hI.literal h).2] at hfill
    exact Bool.false_ne_true hfill
  have hi : i < words.cwords.length := by
    by_contra h
    rw [hword, List.getD_eq_getElem?_getD, List.getElem?_eq_none (by omega), Option.getD_none] at hk
    have h0 : (fillLength 0).toNat = 0 := by decide
    omega
  have hone : (1 : UInt64).toNat ≤ (fillLength word).toNat := by
    rw [hk]
    exact Nat.le_add_left _ _
  have hword' : (words.cwords.modify i (· - 1)).getD i 0 = word - 1 := getD_modify_self _ hi
  have hk' : (fillLength (word - 1)).toNat = k := by
    rw [fillLength_sub hone, hk]
    rfl
  have hbit' : getFillBit (word - 1) = 1 := by rw [getFillBit_sub hone, hbit]
  set rest := scanBits words.hwords words.cwords (i + 1) (words.nwords - 1) 0 with hrest
  have hrem : remaining words result = List.replicate ((k + 1) * 64) true ++ rest := by
    rw [remaining_eq hn, hpos, wordBitsFrom, if_pos hfill, hbit, hk]
    rfl
  have hrem' : remaining
      { words with
        cwords := words.cwords.modify i (· - 1)
        firstTid := words.firstTid + 64 } (explainWord result) =
      List.replicate (k * 64) true ++ rest := by
    rw [explainWord_eq, @remaining_eq { words with
        cwords := words.cwords.modify i (· - 1)
        firstTid := words.firstTid + 64 } _ hn]
    simp only
    rw [← hi_def, hword', hpos, wordBitsFrom, if_pos hfill, hbit', hk',
      scanBits_modify_of_lt _ _ _ _ _ _ (Nat.lt_succ_self i)]
    rfl
  have hlen := hI.no_overflow
  rw [hrem, List.length_append, List.length_replicate] at hlen
  have ht : (result.nextTid + 64).toNat = result.nextTid.toNat + 64 :=
    toNat_add_of_lt (by simp; omega)
  have htids : ((List.range 64).map fun j => result.nextTid + j.toUInt64).map UInt64.toNat =
      (List.range 64).map (result.nextTid.toNat + ·) := by
    rw [List.map_map]
    refine List.map_congr_left fun j hj => ?_
    rw [List.mem_range] at hj
    have hj' : j.toUInt64.toNat = j := toNat_toUInt64_of_lt (by omega)
    rw [Function.comp_apply, toNat_add_of_lt (by rw [hj']; omega), hj']
  have hext : (result.nextTid + 64).toNat + (List.replicate (k * 64) true ++ rest).length =
      result.nextTid.toNat + (remaining words result).length := by
    rw [ht, hrem]
    simp only [List.length_append, List.length_replicate]
    omega
  refine ⟨⟨⟨?_, ?_, ?_, ?_, ?_⟩, ?_, ?_, ?_, le_rfl, by rw [explainWord_eq]⟩, ?_, ?_⟩
  · rw [explainWord_eq]
    simp [hI.tid_eq]
  · rw [explainWord_eq]
    simp [hpos]
  · rw [explainWord_eq]
    simp [hpos]
  · intro j hj hfill' hzero
    rw [explainWord_eq] at hfill' hzero ⊢
    cases j with
    | zero =>
      simp only [Nat.add_zero] at hzero
      rw [hword', hbit'] at hzero
      exact absurd hzero (by decide)
    | succ j =>
      dsimp only at hfill' hzero ⊢
      rw [getD_modify_of_ne _ (by omega)] at hzero ⊢
      exact hI.fill_pos (j + 1) hj hfill' hzero
  · rw [hrem', explainWord_eq]
    show (result.nextTid + 64).toNat + _ < _
    rw [hext]
    exact hI.no_overflow
  · rw [explainWord_eq]
    simp [hcount]
  · simp only [pending]
    rw [hrem', hrem, explainWord_eq]
    dsimp only
    rw [List.map_append, htids, ht, List.append_assoc]
    congr 1
    rw [setPositions_append, setPositions_append, setPositions_replicate_true,
      setPositions_replicate_true, List.length_replicate, List.length_replicate,
      show (k + 1) * 64 = 64 + k * 64 by omega, List.range_add]
    simp only [List.map_append, List.map_map, List.append_assoc]
    congr 2 <;> refine List.map_congr_left fun x _ => ?_ <;> simp only [Function.comp_apply] <;>
      omega
  · rw [hrem']
    rw [explainWord_eq]
    exact hext
  · rw [hword']
    exact hk'
  · rw [hword']
    exact hbit'

/-- **The loop over the words of a fill word of ones** emits their tids while the array has room
for a word more: it stops with the fill word used up, or with the array too full for a word. -/
theorem ScanInv.explainFillWords (maxTids : ℕ) :
    ∀ (n : ℕ) {words words' : BMBatchWords} {result result' : BMIterateResult} {nfill : ℕ},
      ScanInv words result → result.numOfTids = result.nextTids.length → 0 < words.nwords →
      isFillWord words.hwords result.lastScanWordNo = true →
      getFillBit (words.cwords.getD result.lastScanWordNo 0) = 1 →
      (fillLength (words.cwords.getD result.lastScanWordNo 0)).toNat = n →
      Bitmap.explainFillWords maxTids n words result = (nfill, words', result') →
      ScanStep words result words' result' ∧ words'.nwords = words.nwords ∧
        (nfill = 0 ∧ wordBitsFrom (isFillWord words'.hwords result'.lastScanWordNo)
            (words'.cwords.getD result'.lastScanWordNo 0) result'.lastScanPos = [] ∨
          0 < nfill ∧ maxTids < result'.numOfTids + 64) := by
  intro n
  induction n with
  | zero =>
    intro words words' result result' nfill hI hcount _ hfill _ hk heq
    simp only [Bitmap.explainFillWords, Prod.mk.injEq] at heq
    obtain ⟨rfl, rfl, rfl⟩ := heq
    refine ⟨ScanStep.refl hI hcount, rfl, Or.inl ⟨rfl, ?_⟩⟩
    rw [wordBitsFrom, if_pos hfill, hk]
    rfl
  | succ n ih =>
    intro words words' result result' nfill hI hcount hn hfill hbit hk heq
    simp only [Bitmap.explainFillWords] at heq
    split_ifs at heq with hroom
    · obtain ⟨hstep, hk', hbit'⟩ := hI.explainOne hcount hn hfill hbit hk
      have hno : (explainWord result).lastScanWordNo = result.lastScanWordNo := by
        rw [explainWord_eq]
      obtain ⟨hstep', hn', hdone⟩ := ih hstep.inv hstep.count hn (by rw [hno]; exact hfill)
        (by rw [hno]; exact hbit') (by rw [hno]; exact hk') heq
      exact ⟨hstep.trans hstep', hn', hdone⟩
    · simp only [Prod.mk.injEq] at heq
      obtain ⟨rfl, rfl, rfl⟩ := heq
      exact ⟨ScanStep.refl hI hcount, rfl, Or.inr (by omega)⟩


/-! ## Literal words, bit by bit -/

/-- **Emitting the next set bit `q` of a literal word**: the scan position moves past it. -/
theorem ScanInv.emitBit (hI : ScanInv words result)
    (hcount : result.numOfTids = result.nextTids.length) (hn : 0 < words.nwords)
    (hlit : isFillWord words.hwords result.lastScanWordNo = false) {q : ℕ} (hq : q < 64)
    (hfrom : result.lastScanPos ≤ q)
    (hset : (words.cwords.getD result.lastScanWordNo 0).toNat.testBit q = true)
    (hclear : ∀ i, result.lastScanPos ≤ i → i < q →
      (words.cwords.getD result.lastScanWordNo 0).toNat.testBit i = false) :
    ScanStep words result words
      ({ result with lastScanPos := q + 1 }.emit (result.nextTid + (q + 1).toUInt64 - 1)) := by
  set w := words.cwords.getD result.lastScanWordNo 0
  set rest := scanBits words.hwords words.cwords (result.lastScanWordNo + 1) (words.nwords - 1) 0
  set result' := { result with lastScanPos := q + 1 }.emit (result.nextTid + (q + 1).toUInt64 - 1)
  have hrem : remaining words result = wordBitsFrom false w result.lastScanPos ++ rest := by
    rw [remaining_eq hn, hlit]
  have hrem' : remaining words result' = wordBitsFrom false w (q + 1) ++ rest := by
    rw [@remaining_eq words result' hn]
    exact congrArg (wordBitsFrom · w (q + 1) ++ rest) hlit
  have hlen := hI.no_overflow
  rw [hrem, List.length_append, length_wordBitsFrom, if_neg Bool.false_ne_true] at hlen
  have hb : ((q + 1).toUInt64).toNat = q + 1 := toNat_toUInt64_of_lt (by omega)
  have hsum : (result.nextTid + (q + 1).toUInt64).toNat = result.nextTid.toNat + (q + 1) := by
    rw [toNat_add_of_lt (by rw [hb]; omega), hb]
  have htid : (result.nextTid + (q + 1).toUInt64 - 1).toNat = result.nextTid.toNat + q := by
    rw [UInt64.toNat_sub_of_le, hsum]
    · rfl
    · rw [UInt64.le_iff_toNat_le, hsum, UInt64.toNat_one]
      omega
  have hext : result'.nextTid.toNat + (remaining words result').length =
      result.nextTid.toNat + (remaining words result).length := by
    rw [hrem', hrem, List.length_append, List.length_append, length_wordBitsFrom,
      length_wordBitsFrom]
    rfl
  refine ⟨⟨hI.tid_eq, hq, fun _ => ⟨hn, hlit⟩, hI.fill_pos, hext ▸ hI.no_overflow⟩, ?_, ?_, hext,
    le_rfl, rfl⟩
  · simp [result', BMIterateResult.emit, hcount]
  · show (result.nextTids ++ [result.nextTid + (q + 1).toUInt64 - 1]).map UInt64.toNat ++
        (setPositions (remaining words result')).map (result.nextTid.toNat + ·) =
      result.nextTids.map UInt64.toNat ++
        (setPositions (remaining words result)).map (result.nextTid.toNat + ·)
    rw [hrem', hrem, setPositions_append, setPositions_append,
      wordBitsFrom_literal_congr hfrom hclear, setPositions_wordBitsFrom_literal hq hset,
      length_wordBitsFrom, length_wordBitsFrom]
    simp only [List.map_append, List.map_cons, List.map_nil, htid, List.append_assoc,
      List.cons_append, List.nil_append]

/-- A literal loop entered with scan position 0 (the word done) returns at once. -/
theorem scanLiteral_done (maxTids fuel : ℕ) (words : BMBatchWords) (result : BMIterateResult) :
    Bitmap.scanLiteral maxTids fuel 0 words result = (words, result) := by
  cases fuel <;> simp [Bitmap.scanLiteral]

/-- **The loop over the set bits of a literal word** emits them from the scan position on while the
array has room: it stops with the word done, or with the array full. -/
theorem ScanInv.scanLiteral (maxTids : ℕ) :
    ∀ (fuel : ℕ) {words words' : BMBatchWords} {result result' : BMIterateResult},
      ScanInv words result → result.numOfTids = result.nextTids.length → 0 < words.nwords →
      isFillWord words.hwords result.lastScanWordNo = false → 64 < result.lastScanPos + fuel →
      Bitmap.scanLiteral maxTids fuel (if result.lastScanPos = 0 then 65 else result.lastScanPos)
        words result = (words', result') →
      ScanStep words result words' result' ∧
        (words'.nwords < words.nwords ∨ maxTids ≤ result'.numOfTids) := by
  intro fuel
  induction fuel with
  | zero =>
    intro words words' result result' hI _ _ _ hfuel _
    have := hI.scanPos_le
    omega
  | succ fuel ih =>
    intro words words' result result' hI hcount hn hlit hfuel heq
    have hpos := hI.scanPos_le
    -- the sentinel 65 stands for scan position 0
    generalize hs : (if result.lastScanPos = 0 then 65 else result.lastScanPos) = s at heq
    have hs0 : s ≠ 0 := by rw [← hs]; split_ifs <;> omega
    have hsp : (if s = 65 then 0 else s) = result.lastScanPos := by rw [← hs]; split_ifs <;> omega
    by_cases hroom : result.numOfTids < maxTids
    · simp only [Bitmap.scanLiteral, hsp, ne_eq, hs0, not_false_eq_true, true_and, hroom,
        if_true] at heq
      obtain ⟨h0, hclear⟩ | ⟨q, hq, hfrom, hq64, hset, hclear⟩ :=
        findBitset_spec (words.cwords.getD result.lastScanWordNo 0) hpos
      · -- no set bit left: the word is done
        rw [h0] at heq
        simp only [not_true_eq_false, if_false, scanLiteral_done, hI.tid_eq,
          Prod.mk.injEq] at heq
        obtain ⟨rfl, rfl⟩ := heq
        have hzero : wordBitsFrom (isFillWord words.hwords result.lastScanWordNo)
            (words.cwords.getD result.lastScanWordNo 0) result.lastScanPos =
            List.replicate 64 false := by
          rw [hlit]
          exact wordBitsFrom_literal_of_clear hclear
        have hlen := hI.no_overflow
        rw [remaining_eq hn, List.length_append, hzero, List.length_replicate] at hlen
        have ht : (result.nextTid + 64).toNat = result.nextTid.toNat + 64 :=
          toNat_add_of_lt (by simp; omega)
        exact ⟨hI.advance hcount hn hzero ht, Or.inl (by simp; omega)⟩
      · rw [hq] at heq
        simp only [Nat.add_one_ne_zero, not_false_eq_true, if_true] at heq
        set r₁ := { result with lastScanPos := q + 1 }.emit (result.nextTid + (q + 1).toUInt64 - 1)
        have hstep : ScanStep words result words r₁ :=
          hI.emitBit hcount hn hlit hq64 hfrom hset hclear
        have hpos' : r₁.lastScanPos = q + 1 := rfl
        have hcall : Bitmap.scanLiteral maxTids fuel
            (if r₁.lastScanPos = 0 then 65 else r₁.lastScanPos) words r₁ = (words', result') := by
          rw [hpos', if_neg (Nat.add_one_ne_zero q)]
          exact heq
        obtain ⟨hstep', hstop⟩ :=
          ih hstep.inv hstep.count hn hlit (by rw [hpos']; omega) hcall
        exact ⟨hstep.trans hstep', hstop⟩
    · simp only [Bitmap.scanLiteral, hroom, and_false, if_false, Prod.mk.injEq] at heq
      obtain ⟨rfl, rfl⟩ := heq
      exact ⟨ScanStep.refl hI hcount, Or.inr (by omega)⟩


/-! ## The loop over the words -/

/-- **The loop over the words of `_bitmap_findnexttids`** reads words while the array has room: it
stops with every word read, or with the array within a word of full. It has fuel enough with one
iteration more than there are words, and needs none once the array is full. -/
theorem ScanInv.findnexttidsLoop (maxTids : ℕ) :
    ∀ (fuel : ℕ) {words words' : BMBatchWords} {result result' : BMIterateResult},
      ScanInv words result → result.numOfTids = result.nextTids.length →
      (words.nwords < fuel ∨ maxTids ≤ result.numOfTids) →
      Bitmap.findnexttidsLoop maxTids fuel words result = (words', result') →
      ScanStep words result words' result' ∧
        (words'.nwords = 0 ∨ maxTids < result'.numOfTids + 64) := by
  intro fuel
  induction fuel with
  | zero =>
    intro words words' result result' hI hcount hfuel heq
    simp only [Bitmap.findnexttidsLoop, Prod.mk.injEq] at heq
    obtain ⟨rfl, rfl⟩ := heq
    exact ⟨ScanStep.refl hI hcount, Or.inr (by omega)⟩
  | succ fuel ih =>
    intro words words' result result' hI hcount hfuel heq
    by_cases hgo : words.nwords > 0 ∧ result.numOfTids < maxTids
    · obtain ⟨hn, hroom⟩ := hgo
      rcases hE : Bitmap.explainFillWords maxTids
        (fillLength (words.cwords.getD result.lastScanWordNo 0)).toNat words result
        with ⟨nfill, w₁, r₁⟩
      rcases hL : Bitmap.scanLiteral maxTids 65
        (if result.lastScanPos = 0 then 65 else result.lastScanPos) words result with ⟨w₂, r₂⟩
      simp only [Bitmap.findnexttidsLoop, hn, hroom, and_self, if_true, hE, hL] at heq
      split_ifs at heq with hzero hone hnf
      · -- a word of zeros
        obtain ⟨hstep, hn'⟩ := hI.skipZeroWord hcount hn hzero.1 hzero.2
        obtain ⟨hstep', hstop⟩ := ih hstep.inv hstep.count (Or.inl (by omega)) heq
        exact ⟨hstep.trans hstep', hstop⟩
      · -- a fill word of ones, used up: move past it
        obtain ⟨hstep, hn₁, hdone⟩ :=
          hI.explainFillWords maxTids _ hcount hn hone.1 hone.2 rfl hE
        have hbits := (hdone.resolve_right fun h => absurd hnf (Nat.pos_iff_ne_zero.mp h.1)).2
        have hadv := hstep.inv.advance hstep.count (by omega) (m := 0) hbits
          (t := r₁.nextTid) rfl
        have hw : { w₁ with nwords := w₁.nwords - 1 } =
            { w₁ with nwords := w₁.nwords - 1, firstTid := r₁.nextTid } := by
          rw [← hstep.inv.tid_eq]
        rw [hw] at heq
        obtain ⟨hstep', hstop⟩ := ih hadv.inv hadv.count (Or.inl (by simp; omega)) heq
        exact ⟨(hstep.trans hadv).trans hstep', hstop⟩
      · -- a fill word of ones, cut short by a full array
        obtain ⟨hstep, -, hdone⟩ :=
          hI.explainFillWords maxTids _ hcount hn hone.1 hone.2 rfl hE
        simp only [Prod.mk.injEq] at heq
        obtain ⟨rfl, rfl⟩ := heq
        exact ⟨hstep, Or.inr (hdone.resolve_left fun h => hnf h.1).2⟩
      · -- a literal word: a fill word of zeros is met only at scan position 0
        have hlit : isFillWord words.hwords result.lastScanWordNo = false := by
          cases hf : isFillWord words.hwords result.lastScanWordNo with
          | false => rfl
          | true =>
            rcases getFillBit_eq_zero_or_one (words.cwords.getD result.lastScanWordNo 0) with
              hb | hb
            · have hpos : result.lastScanPos = 0 := by
                by_contra h
                have := (hI.literal h).2
                rw [hf] at this
                exact Bool.noConfusion this
              exact absurd ⟨hpos, Or.inl ⟨hf, hb⟩⟩ hzero
            · exact absurd ⟨hf, hb⟩ hone
        obtain ⟨hstep, hdone⟩ :=
          hI.scanLiteral maxTids 65 hcount hn hlit (by omega) hL
        obtain ⟨hstep', hstop⟩ := ih hstep.inv hstep.count (by omega) heq
        exact ⟨hstep.trans hstep', hstop⟩
    · simp only [Bitmap.findnexttidsLoop, hgo, if_false, Prod.mk.injEq] at heq
      obtain ⟨rfl, rfl⟩ := heq
      refine ⟨ScanStep.refl hI hcount, ?_⟩
      omega


/-! ## Calls one after the other -/

/-- **A call of `_bitmap_findnexttids`** from where the scan stands (no catch-up is due, as
`firstTid = nextTid`): the tids it finds are the first of those pending, and it stops with every
word read or with the array within a word of full. -/
theorem ScanInv.findnexttids (hI : ScanInv words result) {maxTids : ℕ} {words' : BMBatchWords}
    {result' : BMIterateResult}
    (heq : Bitmap.findnexttids words result maxTids = (words', result')) :
    ScanInv words' result' ∧ result'.numOfTids = result'.nextTids.length ∧
      result'.nextTidLoc = 0 ∧
      result'.nextTids.map UInt64.toNat ++ pending words' result' = pending words result ∧
      result'.nextTid.toNat + (remaining words' result').length =
        result.nextTid.toNat + (remaining words result).length ∧
      (words'.nwords = 0 ∨ maxTids < result'.numOfTids + 64) := by
  have hno : ¬ (result.lastScanWordNo = words.startNo ∧ words.firstTid < result.nextTid) :=
    fun h => UInt64.lt_irrefl _ (hI.tid_eq ▸ h.2)
  simp only [Bitmap.findnexttids, hno, if_false] at heq
  have hI₀ : ScanInv words { result with nextTidLoc := 0, numOfTids := 0, nextTids := [] } :=
    hI.of_eq rfl rfl rfl
  obtain ⟨hstep, hstop⟩ :=
    hI₀.findnexttidsLoop maxTids (words.nwords + 1) rfl (Or.inl (Nat.lt_succ_self _)) heq
  exact ⟨hstep.inv, hstep.count, hstep.loc, hstep.found, hstep.extent, hstop⟩

/-- When no word is left, nothing is left to scan. -/
theorem remaining_of_nwords_eq_zero (h : words.nwords = 0) : remaining words result = [] := by
  rw [remaining, h, scanBits_zero]

/-- **Calls of `_bitmap_findnexttids` one after the other**, with room for a word in the array:
their tids are those pending, and the first call that finds none leaves no word. -/
theorem ScanInv.findnexttidsRun {maxTids : ℕ} (hmax : 64 ≤ maxTids) :
    ∀ (n : ℕ) {words words' : BMBatchWords} {result result' : BMIterateResult}
      {tids : List UInt64}, ScanInv words result → (pending words result).length < n →
      Bitmap.findnexttidsRun maxTids n words result = (tids, words', result') →
      tids.map UInt64.toNat = pending words result ∧ words'.nwords = 0 ∧
        result'.nextTid.toNat = result.nextTid.toNat + (remaining words result).length := by
  intro n
  induction n with
  | zero => intro _ _ _ _ _ _ hlen _; omega
  | succ n ih =>
    intro words words' result result' tids hI hlen heq
    rcases hF : Bitmap.findnexttids words result maxTids with ⟨w₁, r₁⟩
    obtain ⟨hI₁, hcount, -, hfound, hext, hstop⟩ := hI.findnexttids hF
    simp only [Bitmap.findnexttidsRun, hF] at heq
    split_ifs at heq with hnil
    · -- a call that finds no tid has read every word
      simp only [Prod.mk.injEq] at heq
      obtain ⟨rfl, rfl, rfl⟩ := heq
      have hn : w₁.nwords = 0 := by
        rw [hnil, List.length_nil] at hcount
        omega
      have hrem : remaining w₁ r₁ = [] := remaining_of_nwords_eq_zero hn
      rw [pending, hrem, hnil] at hfound
      rw [hrem] at hext
      exact ⟨hfound, hn, hext⟩
    · rcases hR : Bitmap.findnexttidsRun maxTids n w₁ r₁ with ⟨tids₁, w₂, r₂⟩
      simp only [hR, Prod.mk.injEq] at heq
      obtain ⟨rfl, rfl, rfl⟩ := heq
      have hlen₁ : (pending w₁ r₁).length < n := by
        have h := congrArg List.length hfound
        rw [List.length_append, List.length_map] at h
        have := List.length_pos_of_ne_nil hnil
        omega
      obtain ⟨h₁, h₂, h₃⟩ := ih hI₁ hlen₁ hR
      exact ⟨by rw [List.map_append, h₁, hfound], h₂, by rw [h₃, hext]⟩

/-- The tids that `_bitmap_findnexttid` has still to return: those left in the array, then those
pending. -/
def outstanding (words : BMBatchWords) (result : BMIterateResult) : List ℕ :=
  ((result.nextTids.take result.numOfTids).drop result.nextTidLoc).map UInt64.toNat ++
    pending words result

/-- **A call of `_bitmap_findnexttid`** returns the first outstanding tid, or 0 when none is
outstanding, and then every word has been read. -/
theorem ScanInv.findnexttid (hI : ScanInv words result)
    (hnum : result.numOfTids ≤ result.nextTids.length) {tid : UInt64} {words' : BMBatchWords}
    {result' : BMIterateResult} (heq : Bitmap.findnexttid words result = (tid, words', result')) :
    ScanInv words' result' ∧ result'.numOfTids ≤ result'.nextTids.length ∧
      result'.nextTid.toNat + (remaining words' result').length =
        result.nextTid.toNat + (remaining words result).length ∧
      (outstanding words result = [] ∧ tid = 0 ∧ words'.nwords = 0 ∨
        outstanding words result = tid.toNat :: outstanding words' result') := by
  by_cases hbuf : result.nextTidLoc < result.numOfTids
  · -- a tid is left in the array
    simp only [Bitmap.findnexttid, ge_iff_le, Nat.not_le.mpr hbuf, if_false, hbuf, if_true,
      Prod.mk.injEq] at heq
    obtain ⟨rfl, rfl, rfl⟩ := heq
    have hlt : result.nextTidLoc < (result.nextTids.take result.numOfTids).length := by
      rw [List.length_take]
      omega
    refine ⟨hI.of_eq rfl rfl rfl, hnum, rfl, Or.inr ?_⟩
    simp only [outstanding, pending, remaining]
    rw [List.drop_eq_getElem_cons hlt, List.map_cons, List.cons_append, List.getElem_take,
      List.getD_eq_getElem?_getD, List.getElem?_eq_getElem (by omega), Option.getD_some]
  · -- the array is used up: a call of `_bitmap_findnexttids` fills it again
    have hdrop : (result.nextTids.take result.numOfTids).drop result.nextTidLoc = [] :=
      List.drop_eq_nil_of_le (by rw [List.length_take]; omega)
    rcases hF : Bitmap.findnexttids words result bmBatchTids with ⟨w₁, r₁⟩
    obtain ⟨hI₁, hcount, hloc, hfound, hext, hstop⟩ := hI.findnexttids hF
    simp only [Bitmap.findnexttid, ge_iff_le, Nat.not_lt.mp hbuf, if_true, hF, hloc] at heq
    have hout : outstanding words result = r₁.nextTids.map UInt64.toNat ++ pending w₁ r₁ := by
      rw [outstanding, hdrop, List.map_nil, List.nil_append, hfound]
    split_ifs at heq with hpos
    · simp only [Prod.mk.injEq] at heq
      obtain ⟨rfl, rfl, rfl⟩ := heq
      obtain ⟨x, xs, hxs⟩ := List.exists_cons_of_length_pos (hcount ▸ hpos)
      refine ⟨hI₁.of_eq rfl rfl rfl, by simp; omega, hext, Or.inr ?_⟩
      rw [hout]
      simp only [outstanding, pending, remaining, hcount, hxs, List.take_length, Nat.zero_add,
        List.drop_succ_cons, List.drop_zero, List.map_cons, List.cons_append, List.getD_cons_zero]
    · simp only [Prod.mk.injEq] at heq
      obtain ⟨rfl, rfl, rfl⟩ := heq
      have hnil : r₁.nextTids = [] := List.eq_nil_of_length_eq_zero (by omega)
      have hn : w₁.nwords = 0 := hstop.resolve_right (by rw [bmBatchTids]; omega)
      refine ⟨hI₁, by omega, hext, Or.inl ⟨?_, rfl, hn⟩⟩
      rw [hout, hnil, pending, remaining_of_nwords_eq_zero hn]
      rfl

/-- **Calls of `_bitmap_findnexttid` up to the first 0** return the outstanding tids, when none of
them is 0; the last call has read every word. -/
theorem ScanInv.findnexttidRun :
    ∀ (n : ℕ) {words words' : BMBatchWords} {result result' : BMIterateResult}
      {tids : List UInt64}, ScanInv words result → result.numOfTids ≤ result.nextTids.length →
      (∀ x ∈ outstanding words result, 0 < x) → (outstanding words result).length < n →
      Bitmap.findnexttidRun n words result = (tids, words', result') →
      tids.map UInt64.toNat = outstanding words result ∧ words'.nwords = 0 ∧
        result'.nextTid.toNat = result.nextTid.toNat + (remaining words result).length := by
  intro n
  induction n with
  | zero => intro _ _ _ _ _ _ _ _ hlen _; omega
  | succ n ih =>
    intro words words' result result' tids hI hnum hpos hlen heq
    rcases hF : Bitmap.findnexttid words result with ⟨tid, w₁, r₁⟩
    obtain ⟨hI₁, hnum₁, hext, hnext⟩ := hI.findnexttid hnum hF
    simp only [Bitmap.findnexttidRun, hF] at heq
    rcases hnext with ⟨hnil, rfl, hn⟩ | hcons
    · simp only [if_true, Prod.mk.injEq] at heq
      obtain ⟨rfl, rfl, rfl⟩ := heq
      rw [remaining_of_nwords_eq_zero hn, List.length_nil, Nat.add_zero] at hext
      exact ⟨by rw [hnil]; rfl, hn, hext⟩
    · -- the tid returned is outstanding, so it is not 0
      have htid : tid ≠ 0 := by
        rintro rfl
        have := hpos _ (hcons ▸ List.mem_cons_self)
        exact absurd this (by decide)
      rcases hR : Bitmap.findnexttidRun n w₁ r₁ with ⟨tids₁, w₂, r₂⟩
      simp only [htid, if_false, hR, Prod.mk.injEq] at heq
      obtain ⟨rfl, rfl, rfl⟩ := heq
      rw [hcons] at hpos hlen
      obtain ⟨h₁, h₂, h₃⟩ := ih hI₁ hnum₁ (fun x hx => hpos x (List.mem_cons_of_mem _ hx))
        (by rw [List.length_cons] at hlen; omega) hR
      exact ⟨by rw [List.map_cons, h₁, hcons], h₂, by rw [h₃, hext]⟩


/-! ## Decoding a batch from the start -/

/-- A batch is well formed when each of its fill words stands for at least one word. -/
def BMBatchWords.WellFormed (words : BMBatchWords) : Prop :=
  ∀ j < words.nwords, isFillWord words.hwords (words.startNo + j) = true →
    0 < (fillLength (words.cwords.getD (words.startNo + j) 0)).toNat

instance (words : BMBatchWords) : Decidable words.WellFormed :=
  inferInstanceAs (Decidable (∀ j < words.nwords, _))

@[simp] theorem beginIterate_nextTid : (beginIterate words result).nextTid = result.nextTid := rfl

@[simp] theorem beginIterate_numOfTids : (beginIterate words result).numOfTids = 0 := rfl

@[simp] theorem beginIterate_nextTidLoc : (beginIterate words result).nextTidLoc = 0 := rfl

/-- After `_bitmap_begin_iterate` the whole batch is left to scan. -/
theorem remaining_beginIterate : remaining words (beginIterate words result) = batchBits words :=
  rfl

/-- The scan of a well-formed batch whose tids fit in 64 bits starts with the invariant. -/
theorem ScanInv.begin (hwf : words.WellFormed) (htid : words.firstTid = result.nextTid)
    (hfit : words.firstTid.toNat + (batchBits words).length < 2 ^ 64) :
    ScanInv words (beginIterate words result) := by
  refine ⟨htid, Nat.zero_le _, fun h => absurd rfl h, fun j hj hfill _ => hwf j hj hfill, ?_⟩
  show result.nextTid.toNat + (batchBits words).length < 2 ^ 64
  rw [← htid]
  exact hfit

/-- After `_bitmap_begin_iterate` the outstanding tids are those of the set bits of the batch. -/
theorem outstanding_beginIterate (htid : words.firstTid = result.nextTid) :
    outstanding words (beginIterate words result) =
      (setPositions (batchBits words)).map (words.firstTid.toNat + ·) := by
  rw [outstanding, beginIterate_numOfTids, List.take_zero, List.drop_nil, List.map_nil,
    List.nil_append, pending, remaining_beginIterate, beginIterate_nextTid, htid]

/-- **Decoding a batch enumerates its set bits.** For a well-formed batch whose tids, from
`firstTid = nextTid` on, are positive and fit in 64 bits, the tids that `_bitmap_findnexttid`
returns after `_bitmap_begin_iterate`, up to the first 0, are those of the set bits, in increasing
order, and the scan ends with every word read and `nextTid` past the batch; calls of
`_bitmap_findnexttids` with room for a word find the same tids, and the call that finds none
leaves no word. -/
theorem findnexttid_enumerates_setPositions (words : BMBatchWords) (result : BMIterateResult)
    (hwf : words.WellFormed) (htid : words.firstTid = result.nextTid)
    (hpos : 0 < words.firstTid.toNat)
    (hfit : words.firstTid.toNat + (batchBits words).length < 2 ^ 64) :
    (∀ n, (setPositions (batchBits words)).length < n →
      let run := findnexttidRun n words (beginIterate words result)
      run.1.map UInt64.toNat = (setPositions (batchBits words)).map (words.firstTid.toNat + ·) ∧
        run.1.Pairwise (· < ·) ∧ run.2.1.nwords = 0 ∧
        run.2.2.nextTid.toNat = words.firstTid.toNat + (batchBits words).length) ∧
    ∀ maxTids, 64 ≤ maxTids → ∀ n, (setPositions (batchBits words)).length < n →
      let run := findnexttidsRun maxTids n words (beginIterate words result)
      run.1.map UInt64.toNat = (setPositions (batchBits words)).map (words.firstTid.toNat + ·) ∧
        run.2.1.nwords = 0 := by
  have hI := ScanInv.begin hwf htid hfit
  have hout := outstanding_beginIterate htid
  refine ⟨fun n hn => ?_, fun maxTids hmax n hn => ?_⟩
  · intro run
    have hpos' : ∀ x ∈ outstanding words (beginIterate words result), 0 < x := by
      rw [hout]
      intro x hx
      obtain ⟨k, -, rfl⟩ := List.mem_map.mp hx
      omega
    obtain ⟨h₁, h₂, h₃⟩ := hI.findnexttidRun n (Nat.zero_le _) hpos'
      (by rw [hout, List.length_map]; exact hn) (show _ = (run.1, run.2.1, run.2.2) from rfl)
    rw [hout] at h₁
    -- the tids increase because the positions of the set bits do
    have hinc : (run.1.map UInt64.toNat).Pairwise (· < ·) := by
      rw [h₁]
      exact List.pairwise_map.mpr ((pairwise_lt_setPositions _).imp fun h => by omega)
    refine ⟨h₁, (List.pairwise_map.mp hinc).imp fun h => UInt64.lt_iff_toNat_lt.mpr h, h₂, ?_⟩
    rw [h₃, beginIterate_nextTid, remaining_beginIterate, htid]
  · intro run
    obtain ⟨h₁, h₂, -⟩ := hI.findnexttidsRun hmax n
      (by rw [pending, List.length_map]; exact hn) (show _ = (run.1, run.2.1, run.2.2) from rfl)
    refine ⟨?_, h₂⟩
    rw [h₁, pending, remaining_beginIterate, beginIterate_nextTid, htid]

/-- **Decoding a batch a scan reads enumerates its set bits.** The tids of a bitmap index are
`BM_IPTR_TO_INT` values of item pointers, of a 32-bit block number and a 16-bit offset, so below
`2^48`. For a well-formed batch whose first tid, `firstTid = nextTid`, begins a word
(`t0 mod 64 = 1`) and whose tids are such values, the tids that `_bitmap_findnexttid` returns after
`_bitmap_begin_iterate`, up to the first 0, are those of the set bits, each once and in increasing
order, and the scan ends with every word read and `nextTid` past the batch; calls of
`_bitmap_findnexttids` with room for a word find the same tids, and the call that finds none
leaves no word. -/
theorem findnexttid_enumerates_tids (words : BMBatchWords) (result : BMIterateResult)
    (hwf : words.WellFormed) (htid : words.firstTid = result.nextTid)
    (hword : words.firstTid.toNat % 64 = 1)
    (htids : words.firstTid.toNat + (batchBits words).length ≤ 2 ^ 48) :
    (∀ n, (setPositions (batchBits words)).length < n →
      let run := findnexttidRun n words (beginIterate words result)
      run.1.map UInt64.toNat = (setPositions (batchBits words)).map (words.firstTid.toNat + ·) ∧
        run.1.Pairwise (· < ·) ∧ run.2.1.nwords = 0 ∧
        run.2.2.nextTid.toNat = words.firstTid.toNat + (batchBits words).length) ∧
    ∀ maxTids, 64 ≤ maxTids → ∀ n, (setPositions (batchBits words)).length < n →
      let run := findnexttidsRun maxTids n words (beginIterate words result)
      run.1.map UInt64.toNat = (setPositions (batchBits words)).map (words.firstTid.toNat + ·) ∧
        run.2.1.nwords = 0 :=
  findnexttid_enumerates_setPositions words result hwf htid (by omega) (by omega)

/-- A literal with bits 0 and 2 set, a fill word of one word of ones and a literal with bit 0 set,
from tid 1. -/
theorem findnexttid_enumerates_tids_fill_of_ones :
    (findnexttidRun 68 ⟨1, 0, 3, [0x4000000000000000], [5, bmMakeFillWord 1 1, 1]⟩
        (beginIterate ⟨1, 0, 3, [0x4000000000000000], [5, bmMakeFillWord 1 1, 1]⟩
          ⟨1, 0, 0, [], 0, 0⟩)).1.map UInt64.toNat =
      (setPositions (batchBits ⟨1, 0, 3, [0x4000000000000000], [5, bmMakeFillWord 1 1, 1]⟩)).map
        (1 + ·) :=
  ((findnexttid_enumerates_tids ⟨1, 0, 3, [0x4000000000000000], [5, bmMakeFillWord 1 1, 1]⟩
    ⟨1, 0, 0, [], 0, 0⟩ (by decide +kernel) rfl (by decide) (by decide +kernel)).1 68
    (by decide +kernel)).1

end Cloudberry.Bitmap
