import Cloudberry.Visimap.BitmapCompression

/-!
# Visibility map entries (`appendonly_visimap_entry.c`)

An entry of the append-only visibility map covers `APPENDONLY_VISIMAP_MAX_RANGE` rows of one
segment file, from `firstRowNum` on. A row is hidden when its offset from `firstRowNum` is a
member of the entry's bitmap set; a null bitmap hides nothing. `HideTuple` grows the set to a
power-of-two number of words and adds the offset. `Write` stores the set as a compressed bitmap
in the `visimap` column of an `aovisimap` tuple, or a NULL for the empty set, and `Copyout` reads
a tuple back.

The main result is that persisting an entry keeps its hidden set:

* hiding rows adds their offsets to the members of the bitmap and keeps it well formed
  (`hideTuple_members`, `BitmapInv.hideTuple`), over any run of hides (`hideTuples_members`);
* `Copyout` of what `Write` stores gives back the bitmap (`copyout_write`), through the 32-bit
  block counts of a 64-bit build (`readData_writeData`);
* so the entry read back hides exactly the hidden offsets, counts them, and is stored as NULL
  exactly when there are none (`visimapEntry_persist`).
-/

namespace Cloudberry.Visimap

open ByteMem Bitmapset

/-- `APPENDONLY_VISIMAP_MAX_RANGE`: the rows one entry covers. -/
def appendonlyVisimapMaxRange : ℕ := 32768

/-- `APPENDONLY_VISIMAP_MAX_BITMAP_SIZE`, in bytes. -/
def appendonlyVisimapMaxBitmapSize : ℕ := 4096

/-- `APPENDONLY_VISIMAP_MAX_BITMAP_WORD_COUNT`: the words of `MAX_BITMAP_SIZE` bytes. -/
def appendonlyVisimapMaxBitmapWordCount : ℕ := appendonlyVisimapMaxBitmapSize / 8

/-- `AOTupleId`, by the two fields its bits pack. -/
structure AOTupleId where
  segmentFileNum : ℕ
  rowNum : ℕ
  deriving DecidableEq, Repr

/-- `TM_Result`. -/
inductive TMResult
  | ok
  | invisible
  | selfModified
  | updated
  | deleted
  | beingModified
  | wouldBlock
  deriving DecidableEq, Repr

/-- `AppendOnlyVisimapEntry`. `data` is the byte area of its `AppendOnlyVisimapData` buffer;
`tupleTid` is the tuple id of the row the entry was read from, `none` for an invalid pointer. -/
structure AppendOnlyVisimapEntry where
  data : Mem
  segmentFileNum : ℤ
  firstRowNum : ℤ
  bitmap : Option Bitmapset
  dirty : Bool
  tupleTid : Option ℕ

/-- The `segno`, `firstrownum` and `visimap` columns of an `aovisimap` tuple, `none` for NULL;
`visimap` holds the bytes of the compressed bitmap. -/
structure VisimapTuple where
  segno : Option ℤ
  firstrownum : Option ℤ
  visimap : Option (List UInt8)

namespace AppendOnlyVisimapEntry

/-- `AppendOnlyVisimapEntry_Init`: a zeroed buffer, and no range yet. -/
def init : AppendOnlyVisimapEntry := ⟨fun _ => 0, -1, -1, none, false, none⟩

/-- `AppendOnlyVisimapEntry_GetFirstRowNum`: the start of the range holding a row. -/
def getFirstRowNum (tupleId : AOTupleId) : ℤ :=
  (tupleId.rowNum / appendonlyVisimapMaxRange * appendonlyVisimapMaxRange : ℕ)

/-- `AppendOnlyVisimapEntry_New`: an empty entry for the range holding a row. -/
def new (e : AppendOnlyVisimapEntry) (tupleId : AOTupleId) : AppendOnlyVisimapEntry :=
  { e with
    bitmap := none
    segmentFileNum := tupleId.segmentFileNum
    firstRowNum := getFirstRowNum tupleId
    tupleTid := none }

/-- `AppendOnlyVisimapEntry_IsValid`: `New` or `Copyout` has been called. -/
def isValid (e : AppendOnlyVisimapEntry) : Bool := e.segmentFileNum ≥ 0 && e.firstRowNum ≥ 0

/-- `AppendOnlyVisimapEntry_CoversTuple`. -/
def coversTuple (e : AppendOnlyVisimapEntry) (tupleId : AOTupleId) : Bool :=
  e.isValid && e.segmentFileNum = tupleId.segmentFileNum && e.firstRowNum ≤ tupleId.rowNum &&
    tupleId.rowNum < e.firstRowNum + appendonlyVisimapMaxRange

/-- `AppendOnlyVisimapEntry_GetRownumOffset`, for a row the entry covers. -/
def getRownumOffset (e : AppendOnlyVisimapEntry) (rowNum : ℕ) : ℕ :=
  (rowNum - e.firstRowNum).toNat

/-- `AppendOnlyVisimapEntry_AreAllVisible`. -/
def areAllVisible (e : AppendOnlyVisimapEntry) : Bool := bmsIsEmpty e.bitmap

/-- `AppendOnlyVisimapEntry_IsVisible`, for a row the entry covers. -/
def isVisible (e : AppendOnlyVisimapEntry) (tupleId : AOTupleId) : Bool :=
  if e.areAllVisible then true
  else !bmsIsMember (e.getRownumOffset tupleId.rowNum) e.bitmap

/-- `AppendOnlyVisimapEntry_GetMinimalSizeToCover`: the words covering `offset`, rounded up to a
power of two by smearing the bits of one less. -/
def getMinimalSizeToCover (offset : ℕ) : UInt32 :=
  let minSize : UInt32 := UInt32.ofNat (offset / bitsPerBitmapword + 1)
  let minSize := minSize - 1
  let minSize := minSize ||| minSize >>> 1
  let minSize := minSize ||| minSize >>> 2
  let minSize := minSize ||| minSize >>> 4
  let minSize := minSize ||| minSize >>> 8
  let minSize := minSize ||| minSize >>> 16
  minSize + 1

/-- The first step of `HideTuple`: the bitmap, enlarged by a power of two when it does not
cover the offset. -/
def coverBitmap (bitmap : Option Bitmapset) (rowNumOffset : ℕ) : Option Bitmapset :=
  if !bmsCoversMember bitmap rowNumOffset then
    some (bmsResize bitmap (getMinimalSizeToCover rowNumOffset).toNat)
  else bitmap

/-- `AppendOnlyVisimapEntry_HideTuple`, for a row the entry covers. -/
def hideTuple (e : AppendOnlyVisimapEntry) (tupleId : AOTupleId) :
    TMResult × AppendOnlyVisimapEntry :=
  let rowNumOffset := e.getRownumOffset tupleId.rowNum
  let bitmap := coverBitmap e.bitmap rowNumOffset
  let (result, bitmap) :=
    if !bmsIsMember rowNumOffset bitmap then (TMResult.ok, some (bmsAddMember bitmap rowNumOffset))
    else if e.dirty then (.selfModified, bitmap)
    else (.updated, bitmap)
  (result, { e with bitmap := bitmap, dirty := true })

/-- `AppendOnlyVisimapEntry_HasChanged`. -/
def hasChanged (e : AppendOnlyVisimapEntry) : Bool := e.dirty

/-- `AppendOnlyVisimapEntry_GetHiddenTupleCount`. -/
def getHiddenTupleCount (e : AppendOnlyVisimapEntry) : ℕ := bmsNumMembers e.bitmap

/-- `AppendOnlyVisimapEntry_WriteData`: the bitmap compressed into `data`, and its length. -/
def writeData (e : AppendOnlyVisimapEntry) : Except String (ℕ × AppendOnlyVisimapEntry) := do
  let (blockCount, _) := compressCalculateBlockCounts e.bitmap
  let bitmapSize := 4 * blockCount + bitmapCompressionHeaderSize
  let blocks := match e.bitmap with
    | some bitmap => bitmap.blocks.take blockCount
    | none => []
  let (compressedBitmapSize, data) ← bitmapCompress .default blocks e.data bitmapSize
  pure (compressedBitmapSize, { e with data := data })

/-- `AppendOnlyVisimapEntry_Write`: the tuple to store; the entry is clean afterwards. -/
def write (e : AppendOnlyVisimapEntry) : Except String (VisimapTuple × AppendOnlyVisimapEntry) :=
  if bmsIsEmpty e.bitmap then
    pure (⟨some e.segmentFileNum, some e.firstRowNum, none⟩, { e with dirty := false })
  else do
    let (compressedBitmapSize, e) ← e.writeData
    pure (⟨some e.segmentFileNum, some e.firstRowNum, some (e.data.read 0 compressedBitmapSize)⟩,
      { e with dirty := false })

/-- `AppendOnlyVisiMapEnty_ReadData`: the bitmap from the first `dataSize` bytes of `data`.
The decompressor writes its blocks into zeroed words; its block count has twelve bits, so the
error for a negative one cannot happen. -/
def readData (e : AppendOnlyVisimapEntry) (dataSize : ℕ) :
    Except String AppendOnlyVisimapEntry :=
  match decompressInit e.data dataSize with
  | none => throw "error occurred during visimap bitmap decompression"
  | some state =>
    let (onDiskBlockCount, bmsWordCount) := decompressCalculateBlockCounts state
    if onDiskBlockCount > 0 then do
      let blocks ← bitmapDecompress state onDiskBlockCount
      pure { e with bitmap := some (Bitmapset.ofBlocks bmsWordCount blocks) }
    else pure { e with bitmap := none }

/-- `AppendOnlyVisimapEntry_Copyout`: the entry a stored tuple describes. -/
def copyout (e : AppendOnlyVisimapEntry) (tuple : VisimapTuple) :
    Except String AppendOnlyVisimapEntry := do
  let some segno := tuple.segno | throw "got invalid value: NULL"
  let some firstRowNum := tuple.firstrownum | throw "got invalid value: NULL"
  let e := { e with segmentFileNum := segno, firstRowNum := firstRowNum }
  match tuple.visimap with
  | none => pure { e with bitmap := none }
  | some value => readData { e with data := e.data.write 0 value } value.length

/-- A run of `HideTuple` calls. -/
def hideTuples (e : AppendOnlyVisimapEntry) (tupleIds : List AOTupleId) : AppendOnlyVisimapEntry :=
  tupleIds.foldl (fun e tupleId => (e.hideTuple tupleId).2) e

end AppendOnlyVisimapEntry

/-! ## Growing the bitmap -/

/-- One smearing step keeps a value below `2 ^ 9` and does not lower it. -/
theorem smear_step (x k : UInt32) (hk : k.toNat < 32) (hx : x.toNat < 2 ^ 9) :
    x.toNat ≤ (x ||| x >>> k).toNat ∧ (x ||| x >>> k).toNat < 2 ^ 9 := by
  rw [UInt32.toNat_or, UInt32.toNat_shiftRight, Nat.mod_eq_of_lt hk]
  exact ⟨Nat.left_le_or, Nat.or_lt_two_pow hx (lt_of_le_of_lt (Nat.shiftRight_le _ _) hx)⟩

namespace AppendOnlyVisimapEntry

/-- The size `GetMinimalSizeToCover` gives an offset inside a range covers it, within
`APPENDONLY_VISIMAP_MAX_BITMAP_WORD_COUNT` words. -/
theorem getMinimalSizeToCover_spec {offset : ℕ} (h : offset < appendonlyVisimapMaxRange) :
    wordnum offset < (getMinimalSizeToCover offset).toNat ∧
      (getMinimalSizeToCover offset).toNat ≤ appendonlyVisimapMaxBitmapWordCount := by
  have hm : (UInt32.ofNat (offset / bitsPerBitmapword + 1)).toNat = offset / 64 + 1 := by
    simp only [UInt32.toNat_ofNat', bitsPerBitmapword]
    simp only [appendonlyVisimapMaxRange] at h
    omega
  -- the value before smearing is `offset / 64`, below `2 ^ 9`
  set x₀ := UInt32.ofNat (offset / bitsPerBitmapword + 1) - 1 with hx₀
  have h₀ : x₀.toNat = offset / 64 := by
    rw [hx₀, UInt32.toNat_sub_of_le _ _ (by rw [UInt32.le_iff_toNat_le, hm]; simp), hm]
    simp
  have hlt : x₀.toNat < 2 ^ 9 := by
    rw [h₀]; simp only [appendonlyVisimapMaxRange] at h; omega
  obtain ⟨h₁, hlt₁⟩ := smear_step x₀ 1 (by decide) hlt
  obtain ⟨h₂, hlt₂⟩ := smear_step _ 2 (by decide) hlt₁
  obtain ⟨h₃, hlt₃⟩ := smear_step _ 4 (by decide) hlt₂
  obtain ⟨h₄, hlt₄⟩ := smear_step _ 8 (by decide) hlt₃
  obtain ⟨h₅, hlt₅⟩ := smear_step _ 16 (by decide) hlt₄
  simp only [getMinimalSizeToCover, ← hx₀]
  rw [UInt32.toNat_add, UInt32.toNat_one, Nat.mod_eq_of_lt (by omega)]
  simp only [wordnum, bitsPerBitmapword, appendonlyVisimapMaxBitmapWordCount,
    appendonlyVisimapMaxBitmapSize]
  omega

variable {e : AppendOnlyVisimapEntry} {tupleId : AOTupleId}

theorem getRownumOffset_lt (h : e.coversTuple tupleId = true) :
    e.getRownumOffset tupleId.rowNum < appendonlyVisimapMaxRange := by
  simp only [coversTuple, isValid, Bool.and_eq_true, decide_eq_true_eq] at h
  simp only [getRownumOffset]
  omega

/-- The bitmap `HideTuple` tests has the same members, covers the offset, and has no more
words than the entry's or `APPENDONLY_VISIMAP_MAX_BITMAP_WORD_COUNT`. -/
theorem coverBitmap_spec (bitmap : Option Bitmapset) {rowNumOffset : ℕ}
    (h : rowNumOffset < appendonlyVisimapMaxRange) :
    members (coverBitmap bitmap rowNumOffset) = members bitmap ∧
      bmsCoversMember (coverBitmap bitmap rowNumOffset) rowNumOffset = true ∧
      ∀ b, coverBitmap bitmap rowNumOffset = some b →
        b.nwords ≤ max (bitmap.elim 0 nwords) appendonlyVisimapMaxBitmapWordCount := by
  obtain ⟨hcover, hsize⟩ := getMinimalSizeToCover_spec h
  unfold coverBitmap
  by_cases hc : bmsCoversMember bitmap rowNumOffset = true
  · rw [hc, Bool.not_true, if_neg (by decide)]
    refine ⟨rfl, hc, fun b hb => ?_⟩
    subst hb
    exact le_max_left _ _
  · rw [Bool.not_eq_true] at hc
    rw [hc, Bool.not_false, if_pos rfl]
    refine ⟨members_bmsResize _ _, ?_, fun b hb => ?_⟩
    · simp only [bmsCoversMember, decide_eq_true_eq, nwords_bmsResize]
      exact lt_of_lt_of_le hcover (le_max_right _ _)
    · rw [← Option.some.inj hb, nwords_bmsResize]
      exact max_le_max le_rfl hsize

theorem exists_coverBitmap_eq_some (bitmap : Option Bitmapset) {rowNumOffset : ℕ}
    (h : rowNumOffset < appendonlyVisimapMaxRange) :
    ∃ c, coverBitmap bitmap rowNumOffset = some c := by
  obtain ⟨-, hcovers, -⟩ := coverBitmap_spec bitmap h
  cases hc : coverBitmap bitmap rowNumOffset with
  | none => rw [hc] at hcovers; simp [bmsCoversMember] at hcovers
  | some c => exact ⟨c, rfl⟩

/-- **`HideTuple` adds the offset of the row to the hidden set**, and reports whether it was
hidden already. -/
theorem hideTuple_members (h : e.coversTuple tupleId = true) :
    members (e.hideTuple tupleId).2.bitmap =
      insert (e.getRownumOffset tupleId.rowNum) (members e.bitmap) ∧
    (e.hideTuple tupleId).1 =
      if e.getRownumOffset tupleId.rowNum ∈ members e.bitmap then
        (if e.dirty then .selfModified else .updated)
      else .ok := by
  obtain ⟨hmem, -, -⟩ := coverBitmap_spec e.bitmap (getRownumOffset_lt h)
  -- the member test on the enlarged bitmap is the one on the entry's
  have hiff : bmsIsMember (e.getRownumOffset tupleId.rowNum)
      (coverBitmap e.bitmap (e.getRownumOffset tupleId.rowNum)) =
        decide (e.getRownumOffset tupleId.rowNum ∈ members e.bitmap) := by
    rw [← hmem]
    simp only [mem_members, Bool.decide_eq_true]
  simp only [hideTuple, hiff]
  by_cases hin : e.getRownumOffset tupleId.rowNum ∈ members e.bitmap
  · simp only [hin, decide_true, Bool.not_true, Bool.false_eq_true, if_false,
      Finset.insert_eq_of_mem hin]
    split_ifs <;> simp [hmem]
  · simp [hin, members_bmsAddMember, hmem]

/-- `HideTuple` keeps everything but the bitmap, and marks the entry dirty. -/
theorem hideTuple_fields (e : AppendOnlyVisimapEntry) (tupleId : AOTupleId) :
    (e.hideTuple tupleId).2 =
      { e with bitmap := (e.hideTuple tupleId).2.bitmap, dirty := true } := by
  simp only [hideTuple]

end AppendOnlyVisimapEntry

/-! ## The invariant of an entry's bitmap -/

/-- What every entry's bitmap keeps: when it is not null it has a member, and at most
`APPENDONLY_VISIMAP_MAX_BITMAP_WORD_COUNT` words. -/
def BitmapInv (bitmap : Option Bitmapset) : Prop :=
  ∀ b, bitmap = some b → b.nwords ≤ appendonlyVisimapMaxBitmapWordCount ∧ (members bitmap).Nonempty

theorem bitmapInv_none : BitmapInv none := fun _ h => absurd h (by simp)

namespace BitmapInv

open AppendOnlyVisimapEntry

variable {bitmap : Option Bitmapset}

/-- A well-formed bitmap is null exactly when it has no member. -/
theorem eq_none_iff (h : BitmapInv bitmap) : bitmap = none ↔ members bitmap = ∅ := by
  cases bitmap with
  | none => simp [members]
  | some b =>
    simp only [reduceCtorEq, false_iff]
    exact (h b rfl).2.ne_empty

/-- A well-formed bitmap that is not null has a word. -/
theorem nwords_pos (h : BitmapInv bitmap) {b : Bitmapset} (hb : bitmap = some b) :
    0 < b.nwords := by
  obtain ⟨x, hx⟩ := (h b hb).2
  rw [hb, mem_members] at hx
  exact lt_of_le_of_lt (Nat.zero_le _) (wordnum_lt_of_bmsIsMember hx)

/-- **`HideTuple` keeps the bitmap well formed.** -/
theorem hideTuple {e : AppendOnlyVisimapEntry} {tupleId : AOTupleId} (h : BitmapInv e.bitmap)
    (hcov : e.coversTuple tupleId = true) : BitmapInv (e.hideTuple tupleId).2.bitmap := by
  have hlt := getRownumOffset_lt hcov
  obtain ⟨-, hcovers, hsize⟩ := coverBitmap_spec e.bitmap hlt
  obtain ⟨c, hc⟩ := exists_coverBitmap_eq_some e.bitmap hlt
  obtain ⟨hmembers, -⟩ := hideTuple_members hcov
  intro b hb
  refine ⟨?_, by rw [hmembers]; exact Finset.insert_nonempty _ _⟩
  have hold : e.bitmap.elim 0 nwords ≤ appendonlyVisimapMaxBitmapWordCount := by
    cases hbm : e.bitmap with
    | none => exact Nat.zero_le _
    | some a => exact (h a hbm).1
  have hc' : c.nwords ≤ appendonlyVisimapMaxBitmapWordCount := (hsize c hc).trans (max_le hold le_rfl)
  -- the words are those of the enlarged bitmap: adding a covered member adds none
  rw [hc] at hcovers
  simp only [AppendOnlyVisimapEntry.hideTuple, hc] at hb
  split_ifs at hb <;> simp only [Option.some.injEq] at hb <;> subst hb
  · rw [nwords_bmsAddMember_of_covers hcovers]
    exact hc'
  · exact hc'
  · exact hc'

end BitmapInv

namespace AppendOnlyVisimapEntry

/-- `HideTuple` keeps the range an entry covers. -/
theorem coversTuple_hideTuple (e : AppendOnlyVisimapEntry) (tupleId t : AOTupleId) :
    (e.hideTuple tupleId).2.coversTuple t = e.coversTuple t := by
  rw [hideTuple_fields]
  rfl

/-- **A run of hides adds the offsets of its rows to the hidden set.** -/
theorem hideTuples_members {e : AppendOnlyVisimapEntry} (h : BitmapInv e.bitmap)
    {tupleIds : List AOTupleId} (hcov : ∀ t ∈ tupleIds, e.coversTuple t = true) :
    members (e.hideTuples tupleIds).bitmap =
      members e.bitmap ∪ (tupleIds.map fun t => e.getRownumOffset t.rowNum).toFinset ∧
    BitmapInv (e.hideTuples tupleIds).bitmap ∧
    (e.hideTuples tupleIds).segmentFileNum = e.segmentFileNum ∧
    (e.hideTuples tupleIds).firstRowNum = e.firstRowNum := by
  induction tupleIds generalizing e with
  | nil => simp [hideTuples, h]
  | cons t ts ih =>
    have ht := hcov t (List.mem_cons_self ..)
    obtain ⟨hmem, -⟩ := hideTuple_members ht
    have hfields := hideTuple_fields e t
    -- the rest of the run sees the same range
    have hcov' : ∀ t' ∈ ts, (e.hideTuple t).2.coversTuple t' = true := fun t' ht' => by
      rw [coversTuple_hideTuple]; exact hcov t' (List.mem_cons_of_mem _ ht')
    obtain ⟨ih₁, ih₂, ih₃, ih₄⟩ := ih (h.hideTuple ht) hcov'
    have hoff : ∀ t' : AOTupleId, (e.hideTuple t).2.getRownumOffset t'.rowNum =
        e.getRownumOffset t'.rowNum := fun t' => by rw [hfields]; rfl
    refine ⟨?_, ih₂, by rw [hideTuples, List.foldl_cons]; exact ih₃.trans (by rw [hfields]),
      by rw [hideTuples, List.foldl_cons]; exact ih₄.trans (by rw [hfields])⟩
    rw [hideTuples, List.foldl_cons]
    change members ((e.hideTuple t).2.hideTuples ts).bitmap = _
    rw [ih₁, hmem]
    simp only [hoff, List.map_cons, List.toFinset_cons]
    ext x
    simp only [Finset.mem_union, Finset.mem_insert]
    tauto

/-! ## Persisting an entry -/

/-- The blocks `WriteData` compresses: all of them, or the lower half of a single word. -/
theorem writeData_blocks {b : Bitmapset} (hb : 0 < b.nwords) :
    let blockCount := (compressCalculateBlockCounts (some b)).1
    ofBlocks (if blockCount = 1 then 1 else blockCount / 2) (b.blocks.take blockCount) = b ∧
      (b.blocks.take blockCount).length = blockCount ∧ 0 < blockCount ∧
      blockCount ≤ 2 * b.nwords := by
  intro blockCount
  by_cases hone : b.nwords = 1 ∧ b.word 0 >>> 32 = 0
  · have hc : blockCount = 1 := by simp [blockCount, compressCalculateBlockCounts, hone]
    obtain ⟨ws⟩ := b
    obtain ⟨w, hw⟩ : ∃ w, ws = [w] := by
      match ws, hone.1 with
      | [w], _ => exact ⟨w, rfl⟩
    subst hw
    refine ⟨?_, by simp [hc, blocks], by omega, by simp [hc, nwords]⟩
    rw [hc, if_pos rfl]
    simpa [blocks] using ofBlocks_one (w := w) hone.2
  · have hc : blockCount = b.nwords * 2 := by simp [blockCount, compressCalculateBlockCounts, hone]
    have htake : b.blocks.take blockCount = b.blocks := by
      rw [List.take_of_length_le (by simp [hc]; omega)]
    refine ⟨?_, by simp [hc]; omega, by omega, by omega⟩
    rw [htake, if_neg (by omega), show blockCount / 2 = b.nwords by omega, ofBlocks_blocks]

/-- **`ReadData` reads back what `WriteData` wrote**, into any entry whose buffer starts with the
bytes written. -/
theorem readData_writeData {e : AppendOnlyVisimapEntry} {b : Bitmapset} (hb : e.bitmap = some b)
    (hwords : 0 < b.nwords) (hmax : b.nwords ≤ appendonlyVisimapMaxBitmapWordCount) :
    ∃ size out, e.writeData = .ok (size, { e with data := out }) ∧
      ∀ (e₁ : AppendOnlyVisimapEntry) (m : Mem), e₁.data = m.write 0 (out.read 0 size) →
        e₁.readData size = .ok { e₁ with bitmap := e.bitmap } := by
  obtain ⟨hofb, hlen, hpos, hle⟩ := writeData_blocks hwords
  set blockCount := (compressCalculateBlockCounts (some b)).1 with hbc
  have hsmall : blockCount < 2 ^ 12 := by
    simp only [appendonlyVisimapMaxBitmapWordCount, appendonlyVisimapMaxBitmapSize] at hmax
    omega
  have hroom : (b.blocks.take blockCount).length * 4 + 2 ≤
      4 * blockCount + bitmapCompressionHeaderSize := by
    simp [bitmapCompressionHeaderSize, hlen]; omega
  obtain ⟨size, out, hcomp, henc, -, -⟩ :=
    bitmapCompress_encodes .default (b.blocks.take blockCount) e.data hroom
  refine ⟨size, out, ?_, fun e₁ m hdata => ?_⟩
  · simp [writeData, hb, ← hbc, hcomp]
  · obtain ⟨state, hinit, hcount, hdec⟩ :=
      bitmapDecompress_of_encodes (henc.copy m) (by rw [hlen]; exact hsmall)
    rw [hlen] at hcount hdec
    simp only [readData, hdata, hinit, decompressCalculateBlockCounts, hcount,
      hdec blockCount le_rfl]
    simp [hpos, hofb, hb]

/-- `WriteData` changes only the buffer. -/
theorem writeData_eq {e e' : AppendOnlyVisimapEntry} {n : ℕ} (h : e.writeData = .ok (n, e')) :
    e' = { e with data := e'.data } := by
  unfold writeData at h
  obtain ⟨⟨size, data⟩, -, h⟩ := Except.bind_eq_ok.mp h
  simp only [Except.pure_eq_ok, Except.ok.injEq, Prod.mk.injEq] at h
  rw [← h.2]

/-- `Write` changes only the buffer and the flag, and stores the entry's range. -/
theorem write_eq {e e' : AppendOnlyVisimapEntry} {tuple : VisimapTuple}
    (h : e.write = .ok (tuple, e')) :
    (∃ data, e' = { e with data := data, dirty := false }) ∧
      tuple.segno = some e.segmentFileNum ∧ tuple.firstrownum = some e.firstRowNum := by
  unfold write at h
  split_ifs at h
  · simp only [Except.pure_eq_ok, Except.ok.injEq, Prod.mk.injEq] at h
    obtain ⟨rfl, rfl⟩ := h
    exact ⟨⟨e.data, rfl⟩, rfl, rfl⟩
  · obtain ⟨⟨size, e₁⟩, hw, h⟩ := Except.bind_eq_ok.mp h
    simp only [Except.pure_eq_ok, Except.ok.injEq, Prod.mk.injEq] at h
    obtain ⟨rfl, rfl⟩ := h
    rw [writeData_eq hw]
    exact ⟨⟨e₁.data, rfl⟩, rfl, rfl⟩

/-- `ReadData` changes only the bitmap. -/
theorem readData_eq {e e' : AppendOnlyVisimapEntry} {n : ℕ} (h : e.readData n = .ok e') :
    e' = { e with bitmap := e'.bitmap } := by
  unfold readData at h
  split at h
  · simp at h
  · split at h
    split_ifs at h
    · obtain ⟨blocks, -, h⟩ := Except.bind_eq_ok.mp h
      rw [← (Except.ok.inj h)]
    · rw [← (Except.ok.inj h)]

/-- `Copyout` takes the range from the tuple, and keeps the flag and the tuple id. -/
theorem copyout_eq {e₀ e : AppendOnlyVisimapEntry} {tuple : VisimapTuple}
    (h : e₀.copyout tuple = .ok e) :
    tuple.segno = some e.segmentFileNum ∧ tuple.firstrownum = some e.firstRowNum ∧
      e.dirty = e₀.dirty ∧ e.tupleTid = e₀.tupleTid := by
  unfold copyout at h
  match hs : tuple.segno, hf : tuple.firstrownum, hv : tuple.visimap with
  | none, _, _ => simp [hs] at h
  | some _, none, _ => simp [hs, hf] at h
  | some segno, some firstRowNum, none =>
    simp only [hs, hf, hv, Except.pure_eq_ok, Except.ok.injEq] at h
    subst h
    exact ⟨rfl, rfl, rfl, rfl⟩
  | some segno, some firstRowNum, some value =>
    simp only [hs, hf, hv] at h
    rw [readData_eq h]
    exact ⟨rfl, rfl, rfl, rfl⟩

/-- **`Copyout` of what `Write` stores gives back the entry's range and bitmap**, and the
`visimap` column is NULL exactly for a null bitmap. -/
theorem copyout_write {e : AppendOnlyVisimapEntry} (h : BitmapInv e.bitmap)
    (e₀ : AppendOnlyVisimapEntry) :
    ∃ tuple e', e.write = .ok (tuple, e') ∧ (tuple.visimap = none ↔ e.bitmap = none) ∧
      ∃ e'', e₀.copyout tuple = .ok e'' ∧ e''.bitmap = e.bitmap ∧
        e''.segmentFileNum = e.segmentFileNum ∧ e''.firstRowNum = e.firstRowNum := by
  cases hbm : e.bitmap with
  | none =>
    refine ⟨⟨some e.segmentFileNum, some e.firstRowNum, none⟩, { e with dirty := false },
      by simp [write, bmsIsEmpty, hbm], by simp, _, rfl, rfl, rfl, rfl⟩
  | some b =>
    obtain ⟨size, out, hwd, hread⟩ := readData_writeData hbm (h.nwords_pos hbm) (h b hbm).1
    refine ⟨⟨some e.segmentFileNum, some e.firstRowNum, some (out.read 0 size)⟩,
      { e with data := out, dirty := false }, by simp [write, bmsIsEmpty, hbm, hwd], by simp, ?_⟩
    -- `Copyout` copies the bytes into its own buffer and reads them there
    have h₁ := hread { e₀ with
      segmentFileNum := e.segmentFileNum
      firstRowNum := e.firstRowNum
      data := e₀.data.write 0 (out.read 0 size) } e₀.data rfl
    refine ⟨{ e₀ with
      segmentFileNum := e.segmentFileNum
      firstRowNum := e.firstRowNum
      data := e₀.data.write 0 (out.read 0 size)
      bitmap := some b }, ?_, rfl, rfl, rfl⟩
    rw [hbm] at h₁
    simp only [copyout, length_read]
    exact h₁

/-- `IsVisible` reads the hidden set: a row is visible unless its offset is a member. -/
theorem isVisible_eq (e : AppendOnlyVisimapEntry) (tupleId : AOTupleId) :
    e.isVisible tupleId = !decide (e.getRownumOffset tupleId.rowNum ∈ members e.bitmap) := by
  unfold isVisible areAllVisible bmsIsEmpty
  cases e.bitmap with
  | none => simp [members]
  | some b => simp

/-- **Persisting an entry keeps its hidden set.** Hide any rows an entry covers, `Write` it and
`Copyout` the tuple into any entry: with `hidden` the offsets hidden before and by the run, the
entry read back makes a covered row invisible exactly when its offset is hidden, counts the
hidden rows, and the stored bitmap is NULL exactly when nothing is hidden. -/
theorem visimapEntry_persist {e : AppendOnlyVisimapEntry} (h : BitmapInv e.bitmap)
    {tupleIds : List AOTupleId} (hcov : ∀ t ∈ tupleIds, e.coversTuple t = true)
    (e₀ : AppendOnlyVisimapEntry) :
    let hidden := members e.bitmap ∪ (tupleIds.map fun t => e.getRownumOffset t.rowNum).toFinset
    ∃ tuple e', (e.hideTuples tupleIds).write = .ok (tuple, e') ∧
      (tuple.visimap = none ↔ hidden = ∅) ∧
      ∃ e'', e₀.copyout tuple = .ok e'' ∧ e''.getHiddenTupleCount = hidden.card ∧
        ∀ t, e.coversTuple t = true →
          e''.coversTuple t = true ∧ (e''.isVisible t = false ↔ e.getRownumOffset t.rowNum ∈ hidden) := by
  intro hidden
  obtain ⟨hmem, hinv, hseg, hfirst⟩ := hideTuples_members h hcov
  obtain ⟨tuple, e', hw, hnull, e'', hcopy, hbm, hseg', hfirst'⟩ := copyout_write hinv e₀
  refine ⟨tuple, e', hw, ?_, e'', hcopy, ?_, fun t ht => ⟨?_, ?_⟩⟩
  · rw [hnull, hinv.eq_none_iff, hmem]
  · rw [getHiddenTupleCount, bmsNumMembers_eq_card, hbm, hmem]
  · -- the range is that of the entry the run started from
    have hsame : e''.coversTuple t = e.coversTuple t := by
      simp only [coversTuple, isValid, hseg', hseg, hfirst', hfirst]
    rw [hsame, ht]
  · have hoff : e''.getRownumOffset t.rowNum = e.getRownumOffset t.rowNum := by
      simp only [getRownumOffset, hfirst', hfirst]
    rw [isVisible_eq, hoff, hbm, hmem, Bool.not_eq_false', decide_eq_true_eq]

/-- Two rows hidden in a fresh entry for the second range of segment file 3. -/
theorem visimapEntry_persist_two_rows :
    BitmapInv (init.new ⟨3, 40000⟩).bitmap ∧
      (∀ t ∈ [(⟨3, 40000⟩ : AOTupleId), ⟨3, 32770⟩], (init.new ⟨3, 40000⟩).coversTuple t = true) ∧
      let e := init.new ⟨3, 40000⟩
      let tupleIds : List AOTupleId := [⟨3, 40000⟩, ⟨3, 32770⟩]
      let hidden := members e.bitmap ∪ (tupleIds.map fun t => e.getRownumOffset t.rowNum).toFinset
      ∃ tuple e', (e.hideTuples tupleIds).write = .ok (tuple, e') ∧
        (tuple.visimap = none ↔ hidden = ∅) ∧
        ∃ e'', init.copyout tuple = .ok e'' ∧ e''.getHiddenTupleCount = hidden.card ∧
          ∀ t, e.coversTuple t = true →
            e''.coversTuple t = true ∧
              (e''.isVisible t = false ↔ e.getRownumOffset t.rowNum ∈ hidden) :=
  ⟨bitmapInv_none, by decide, visimapEntry_persist bitmapInv_none (by decide) init⟩

end AppendOnlyVisimapEntry

end Cloudberry.Visimap
