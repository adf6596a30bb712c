import Cloudberry.Lib.BitField

/-!
# Tuple ids of append-only tables (`appendonlytid.h`)

An `AOTupleId` names a tuple by its segment file and its row number, in the 48 bits of a heap
`ItemPointer`: the seven bits of the segment file and the top 25 bits of the 40-bit row number
make the block number, and the low 15 bits of the row number, plus one, make the offset, which is
never zero. Outside the append-only code the tuple ids are compared as heap tids, so the order of
the blocks and offsets has to be the order of the segment files and row numbers.

* `toNat_blockNumber_init`, `toNat_bytes45_init`: where `AOTupleIdInit` puts the two numbers;
* `itemPointerCompare_eq_neg_one_iff`: `ItemPointerCompare` orders by block, then offset;
* `aoTupleIdInit_encoding`: the encoding reads back, has a valid offset, and is an order
  embedding of the lexicographic order on (segment file, row number) into the heap tid order.
-/

namespace Cloudberry.AppendOnly

open BitField

/-- `AOTupleId`: three 16-bit words, read by the rest of the system as an `ItemPointer` whose
block id is `bytes_0_1` (high half) and `bytes_2_3`, and whose offset is `bytes_4_5`. -/
structure AOTupleId where
  bytes01 : UInt16
  bytes23 : UInt16
  bytes45 : UInt16
  deriving DecidableEq, Repr

/-- `AO_MAX_HEAP_BLOCKS_PER_SEGMENT`. -/
def aoMaxHeapBlocksPerSegment : UInt32 := (1 : UInt32) <<< 25

/-- `AOSegmentGet_segno`. -/
def aoSegmentGetSegno (heapBlk : UInt32) : UInt32 := heapBlk / aoMaxHeapBlocksPerSegment

/-- `AOTupleIdGet_segmentFileNum`. -/
def aoTupleIdGetSegmentFileNum (h : AOTupleId) : UInt16 := (h.bytes01 &&& 0xFE00) >>> 9

/-- `AOTupleIdGet_rowNum`; `bytes_4_5 - 1` is an `int` converted to `uint64`, which the `uint64`
subtraction gives. Its assertions are `AOTupleId.RowNumAsserts`. -/
def aoTupleIdGetRowNum (h : AOTupleId) : UInt64 :=
  (h.bytes01 &&& 0x01FF).toUInt64 <<< 31 ||| h.bytes23.toUInt64 <<< 15 ||| (h.bytes45.toUInt64 - 1)

/-- The assertions of `AOTupleIdGet_rowNum`: `0 < bytes_4_5 ≤ 0x8000`. -/
def AOTupleId.RowNumAsserts (h : AOTupleId) : Prop := 0 < h.bytes45 ∧ h.bytes45 ≤ 0x8000

instance (h : AOTupleId) : Decidable h.RowNumAsserts := inferInstanceAs (Decidable (_ ∧ _))

/-- `AOTupleIdGet_rowNum` in a build with assertions, which stops at the first `Assert` that
fails. -/
def aoTupleIdGetRowNumChecked (h : AOTupleId) : Except String UInt64 :=
  if ¬ 0 < h.bytes45 then throw "failed Assert: h->bytes_4_5 > 0"
  else if ¬ h.bytes45 ≤ 0x8000 then throw "failed Assert: h->bytes_4_5 <= 0x8000"
  else pure (aoTupleIdGetRowNum h)

/-- `AOTupleIdInit`. -/
def aoTupleIdInit (segfilenum : UInt16) (rownum : UInt64) : AOTupleId where
  bytes01 := (0x007F &&& segfilenum) <<< 9 ||| ((0x000000FFFFFFFFFF &&& rownum) >>> 31).toUInt16
  bytes23 := ((0x000000007FFFFFFF &&& rownum) >>> 15).toUInt16
  bytes45 := ((0x7FFF &&& rownum) + 1).toUInt16

/-- `AOTupleIdSetInvalid`: `ItemPointerSetInvalid`, block `InvalidBlockNumber` and offset
`InvalidOffsetNumber`. -/
def aoTupleIdSetInvalid : AOTupleId := ⟨0xFFFF, 0xFFFF, 0⟩

/-- `AOTupleId_MaxRowNum`: 40 bits. -/
def aoTupleIdMaxRowNum : UInt64 := 1099511627775

/-- `AOTupleId_MaxSegmentFileNum`. -/
def aoTupleIdMaxSegmentFileNum : UInt16 := 127

/-! ## The tuple id as a heap tid -/

/-- `ItemPointerGetBlockNumberNoCheck`: `BlockIdGetBlockNumber`, `bi_hi << 16 | bi_lo`. -/
def AOTupleId.blockNumber (h : AOTupleId) : UInt32 :=
  h.bytes01.toUInt32 <<< 16 ||| h.bytes23.toUInt32

/-- `ItemPointerGetOffsetNumberNoCheck`. -/
def AOTupleId.offsetNumber (h : AOTupleId) : UInt16 := h.bytes45

/-- `ItemPointerCompare`. -/
def itemPointerCompare (arg1 arg2 : AOTupleId) : Int32 :=
  let b1 := arg1.blockNumber
  let b2 := arg2.blockNumber
  if b1 < b2 then -1
  else if b1 > b2 then 1
  else if arg1.offsetNumber < arg2.offsetNumber then -1
  else if arg1.offsetNumber > arg2.offsetNumber then 1
  else 0

/-- `ItemPointerCompare` answers `-1` exactly when the block is lower, or the block is the same
and the offset lower. -/
theorem itemPointerCompare_eq_neg_one_iff (a b : AOTupleId) :
    itemPointerCompare a b = -1 ↔ a.blockNumber.toNat < b.blockNumber.toNat ∨
      (a.blockNumber.toNat = b.blockNumber.toNat ∧ a.offsetNumber.toNat < b.offsetNumber.toNat) := by
  have hone : (1 : Int32) ≠ -1 := by decide
  have hzero : (0 : Int32) ≠ -1 := by decide
  unfold itemPointerCompare
  simp only [UInt32.lt_iff_toNat_lt, UInt16.lt_iff_toNat_lt, gt_iff_lt]
  split_ifs <;> simp only [hone, hzero, true_iff, false_iff, not_or, not_and, not_lt] <;> omega

/-! ## Where `AOTupleIdInit` puts the numbers -/

/-- Or-ing a number below `2 ^ k` onto a multiple of `2 ^ k` adds it. -/
theorem mul_two_pow_or_of_lt {a b k : ℕ} (hb : b < 2 ^ k) : a * 2 ^ k ||| b = a * 2 ^ k + b := by
  rw [← Nat.shiftLeft_eq, Nat.shiftLeft_add_eq_or_of_lt hb]

theorem low_mask_and (n x : ℕ) : (2 ^ n - 1) &&& x = x % 2 ^ n := by
  rw [Nat.land_comm, Nat.and_two_pow_sub_one_eq_mod]

section Init

variable {s : UInt16} {r : UInt64}

theorem toNat_bytes01_init (hs : s.toNat < 2 ^ 7) (hr : r.toNat < 2 ^ 40) :
    (aoTupleIdInit s r).bytes01.toNat = s.toNat * 2 ^ 9 + r.toNat / 2 ^ 31 := by
  simp only [aoTupleIdInit, UInt16.toNat_or, UInt16.toNat_shiftLeft, UInt16.toNat_and,
    UInt64.toNat_toUInt16, UInt64.toNat_shiftRight, UInt64.toNat_and, UInt16.reduceToNat,
    UInt64.reduceToNat, Nat.reduceMod]
  rw [show (127 : ℕ) = 2 ^ 7 - 1 from rfl, show (1099511627775 : ℕ) = 2 ^ 40 - 1 from rfl,
    low_mask_and, low_mask_and, Nat.mod_eq_of_lt hs, Nat.mod_eq_of_lt hr, Nat.shiftLeft_eq,
    Nat.shiftRight_eq_div_pow, Nat.mod_eq_of_lt (by omega), Nat.mod_eq_of_lt (by omega),
    mul_two_pow_or_of_lt (by omega)]

theorem toNat_bytes23_init (r : UInt64) :
    (aoTupleIdInit s r).bytes23.toNat = r.toNat / 2 ^ 15 % 2 ^ 16 := by
  simp only [aoTupleIdInit, UInt64.toNat_toUInt16, UInt64.toNat_shiftRight, UInt64.toNat_and,
    UInt64.reduceToNat, Nat.reduceMod]
  rw [show (2147483647 : ℕ) = 2 ^ 31 - 1 from rfl, low_mask_and, Nat.shiftRight_eq_div_pow]
  omega

theorem toNat_bytes45_init (r : UInt64) :
    (aoTupleIdInit s r).bytes45.toNat = r.toNat % 2 ^ 15 + 1 := by
  simp only [aoTupleIdInit, UInt64.toNat_toUInt16, UInt64.toNat_add, UInt64.toNat_and,
    UInt64.reduceToNat]
  rw [show (32767 : ℕ) = 2 ^ 15 - 1 from rfl, low_mask_and]
  omega

theorem toNat_blockNumber_init (hs : s.toNat < 2 ^ 7) (hr : r.toNat < 2 ^ 40) :
    (aoTupleIdInit s r).blockNumber.toNat = s.toNat * 2 ^ 25 + r.toNat / 2 ^ 15 := by
  have h01 := toNat_bytes01_init hs hr
  have h23 := toNat_bytes23_init (s := s) r
  simp only [AOTupleId.blockNumber, UInt32.toNat_or, UInt32.toNat_shiftLeft,
    UInt16.toNat_toUInt32, UInt32.reduceToNat, Nat.reduceMod, h01, h23]
  rw [Nat.shiftLeft_eq, Nat.mod_eq_of_lt (by omega), mul_two_pow_or_of_lt (by omega)]
  omega

end Init

/-! ## Reading a tuple id back -/

/-- The segment file number is the field of seven bits at bit 9 of `bytes_0_1`. -/
def segmentFileNumField : Field := ⟨0xFE00, 9, 7, rfl⟩

theorem toNat_getSegmentFileNum (h : AOTupleId) :
    (aoTupleIdGetSegmentFileNum h).toNat = h.bytes01.toNat / 2 ^ 9 % 2 ^ 7 := by
  have hget := segmentFileNumField.get_eq_div_mod h.bytes01.toNat
  simp only [aoTupleIdGetSegmentFileNum, UInt16.toNat_shiftRight, UInt16.toNat_and,
    UInt16.reduceToNat, Nat.reduceMod]
  exact hget

/-- Under its assertions, `AOTupleIdGet_rowNum` puts together the row number's three parts. -/
theorem toNat_getRowNum {h : AOTupleId} (hh : h.RowNumAsserts) :
    (aoTupleIdGetRowNum h).toNat =
      h.bytes01.toNat % 2 ^ 9 * 2 ^ 31 + h.bytes23.toNat * 2 ^ 15 + (h.bytes45.toNat - 1) := by
  obtain ⟨hpos, hle⟩ := hh
  rw [UInt16.lt_iff_toNat_lt] at hpos
  rw [UInt16.le_iff_toNat_le] at hle
  simp only [UInt16.reduceToNat] at hpos hle
  have h23 := h.bytes23.toNat_lt
  have hsub : (h.bytes45.toUInt64 - 1).toNat = h.bytes45.toNat - 1 := by
    rw [UInt64.toNat_sub_of_le _ _ (UInt64.le_iff_toNat_le.mpr
        (by rw [UInt16.toNat_toUInt64, UInt64.toNat_one]; omega)),
      UInt16.toNat_toUInt64, UInt64.toNat_one]
  simp only [aoTupleIdGetRowNum, UInt64.toNat_or, UInt64.toNat_shiftLeft, UInt16.toNat_toUInt64,
    UInt16.toNat_and, UInt16.reduceToNat, UInt64.reduceToNat, Nat.reduceMod, hsub]
  have hlow : h.bytes01.toNat &&& 511 = h.bytes01.toNat % 2 ^ 9 :=
    Nat.and_two_pow_sub_one_eq_mod _ 9
  have hA : (h.bytes01.toNat % 2 ^ 9) <<< 31 % 2 ^ 64 = h.bytes01.toNat % 2 ^ 9 * 2 ^ 31 := by
    rw [Nat.shiftLeft_eq]
    exact Nat.mod_eq_of_lt (by omega)
  have hB : h.bytes23.toNat <<< 15 % 2 ^ 64 = h.bytes23.toNat * 2 ^ 15 := by
    rw [Nat.shiftLeft_eq]
    exact Nat.mod_eq_of_lt (by omega)
  have hC : h.bytes23.toNat * 2 ^ 15 ||| h.bytes45.toNat - 1
      = h.bytes23.toNat * 2 ^ 15 + (h.bytes45.toNat - 1) := mul_two_pow_or_of_lt (by omega)
  rw [hlow, hA, hB, Nat.or_assoc, hC, mul_two_pow_or_of_lt (by omega)]
  omega

/-- A tuple id that decodes has a row number of 40 bits. -/
theorem toNat_getRowNum_lt {h : AOTupleId} (hh : h.RowNumAsserts) :
    (aoTupleIdGetRowNum h).toNat < 2 ^ 40 := by
  have h01 := Nat.mod_lt h.bytes01.toNat (Nat.two_pow_pos 9)
  have h23 := h.bytes23.toNat_lt
  have h45 : h.bytes45.toNat ≤ 0x8000 := UInt16.le_iff_toNat_le.mp hh.2
  rw [toNat_getRowNum hh]
  omega

theorem aoTupleIdGetRowNumChecked_of_asserts {h : AOTupleId} (hh : h.RowNumAsserts) :
    aoTupleIdGetRowNumChecked h = .ok (aoTupleIdGetRowNum h) := by
  rw [aoTupleIdGetRowNumChecked, if_neg (not_not.2 hh.1), if_neg (not_not.2 hh.2)]
  rfl

/-- The invalid tuple id decodes as segment file `127`, and its offset `0` fails the first
assertion of `AOTupleIdGet_rowNum`. -/
theorem setInvalid_decode : aoTupleIdGetSegmentFileNum aoTupleIdSetInvalid = 127 ∧
    aoTupleIdGetRowNumChecked aoTupleIdSetInvalid = .error "failed Assert: h->bytes_4_5 > 0" :=
  ⟨rfl, rfl⟩

/-- **Tuple ids encode (segment file, row number) in heap tid order.** For a segment file up to
`127` and a row number up to `AOTupleId_MaxRowNum`, `AOTupleIdInit` gives a tuple id that reads
back as both numbers, whose offset `bytes_4_5` is in `1 .. 0x8000` (a valid `ItemPointer`), and
whose block lies in the segment's range of blocks; and of two such tuple ids,
`ItemPointerCompare` finds the first lower exactly when its pair is lexicographically lower. -/
theorem aoTupleIdInit_encoding (s s' : UInt16) (r r' : UInt64)
    (hs : s ≤ aoTupleIdMaxSegmentFileNum) (hr : r ≤ aoTupleIdMaxRowNum)
    (hs' : s' ≤ aoTupleIdMaxSegmentFileNum) (hr' : r' ≤ aoTupleIdMaxRowNum) :
    aoTupleIdGetSegmentFileNum (aoTupleIdInit s r) = s ∧
      aoTupleIdGetRowNum (aoTupleIdInit s r) = r ∧
      (aoTupleIdInit s r).RowNumAsserts ∧
      aoSegmentGetSegno (aoTupleIdInit s r).blockNumber = s.toUInt32 ∧
      ((s < s' ∨ (s = s' ∧ r < r')) ↔
        itemPointerCompare (aoTupleIdInit s r) (aoTupleIdInit s' r') = -1) := by
  rw [aoTupleIdMaxSegmentFileNum, UInt16.le_iff_toNat_le] at hs hs'
  rw [aoTupleIdMaxRowNum, UInt64.le_iff_toNat_le] at hr hr'
  simp only [UInt16.reduceToNat, UInt64.reduceToNat] at hs hs' hr hr'
  have h01 := toNat_bytes01_init (s := s) (r := r) (by omega) (by omega)
  have h45 := toNat_bytes45_init (s := s) r
  have hblock := toNat_blockNumber_init (s := s) (r := r) (by omega) (by omega)
  have hblock' := toNat_blockNumber_init (s := s') (r := r') (by omega) (by omega)
  have hasserts : (aoTupleIdInit s r).RowNumAsserts := by
    rw [AOTupleId.RowNumAsserts, UInt16.lt_iff_toNat_lt, UInt16.le_iff_toNat_le, h45]
    simp only [UInt16.reduceToNat]
    omega
  refine ⟨?_, ?_, hasserts, ?_, ?_⟩
  · rw [← UInt16.toNat_inj, toNat_getSegmentFileNum, h01]
    omega
  · rw [← UInt64.toNat_inj, toNat_getRowNum hasserts, h01, toNat_bytes23_init, h45]
    omega
  · have h25 : aoMaxHeapBlocksPerSegment.toNat = 2 ^ 25 := by decide
    rw [← UInt32.toNat_inj, aoSegmentGetSegno, UInt32.toNat_div, hblock, UInt16.toNat_toUInt32, h25]
    omega
  · have h45' := toNat_bytes45_init (s := s') r'
    rw [itemPointerCompare_eq_neg_one_iff, hblock, hblock', AOTupleId.offsetNumber,
      AOTupleId.offsetNumber, h45, h45', UInt16.lt_iff_toNat_lt, UInt64.lt_iff_toNat_lt,
      ← UInt16.toNat_inj]
    omega

theorem aoTupleIdInit_encoding_segment_127 :
    (127 : UInt16) ≤ aoTupleIdMaxSegmentFileNum ∧ (0x7FFF : UInt64) ≤ aoTupleIdMaxRowNum ∧
      aoTupleIdGetSegmentFileNum (aoTupleIdInit 127 0x7FFF) = 127 ∧
      aoTupleIdGetRowNum (aoTupleIdInit 127 0x7FFF) = 0x7FFF ∧
      (aoTupleIdInit 127 0x7FFF).RowNumAsserts ∧
      aoSegmentGetSegno (aoTupleIdInit 127 0x7FFF).blockNumber = (127 : UInt16).toUInt32 ∧
      (((127 : UInt16) < 127 ∨ ((127 : UInt16) = 127 ∧ (0x7FFF : UInt64) < 0x8000)) ↔
        itemPointerCompare (aoTupleIdInit 127 0x7FFF) (aoTupleIdInit 127 0x8000) = -1) :=
  ⟨by decide, by decide,
    aoTupleIdInit_encoding 127 127 0x7FFF 0x8000 (by decide) (by decide) (by decide) (by decide)⟩

end Cloudberry.AppendOnly
