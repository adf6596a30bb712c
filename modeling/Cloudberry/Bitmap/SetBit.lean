import Cloudberry.Bitmap.BuildSpec
import Cloudberry.Bitmap.Insert

/-!
# Setting a bit inside a bitmap vector (`updatesetbit`)

A bitmap vector is a chain of bitmap pages, each holding HRL words and the number of bits that its
words and those of the pages before it stand for (`bm_last_tid_location`), followed by two words of
the LOV item: the last complete word `bm_last_compword`, a fill word when `lov_words_header` has
`BM_LAST_COMPWORD_BIT`, which ends at the item's `bm_last_tid_location`, and the literal last word
`bm_last_word` after it. An insert whose tid is not past the vector's end sets a bit in the middle
with `updatesetbit`, along one of four routes:

* the bit is in `bm_last_word`, or in a `bm_last_compword` that is a literal or a fill of one word:
  the LOV item's words are updated in place;
* the bit is in a `bm_last_compword` that is a fill of two words or more: `updatesetbit_inword`
  splits it into up to three words, all but the last of which `_bitmap_write_new_bitmapwords`
  appends to the pages, the last becoming the new `bm_last_compword`;
* otherwise `findbitmappage` finds the page of the bit and `updatesetbit_inpage` sets it there,
  splitting a fill of zeros with `updatesetbit_inword` and inserting the new words with
  `insert_newwords`, those that do not fit going to the next page or to a new one.

`updatesetbit_inword` is written for a fill word of zeros, and the second route calls it without
looking at the fill bit. A fill word of ones already has the bit, yet the route replaces it with
zeros around the one bit (`updatesetbit_clears_fill_of_ones`).

* `updatesetbit_lastWord`, `updatesetbit_short_compword`: the in-place routes set exactly the bit;
* `updatesetbit_clears_fill_of_ones`: the split of a fill word of ones clears its bits.

The vector is a list of pages, first to last, with the LOV item; the block numbers of the chain
(`bm_lov_head`, `bm_lov_tail`, `bm_bitmap_next`) are the list's order. An `ereport(ERROR)` is an
error of `Except`.
-/

namespace Cloudberry.Bitmap

open Cloudberry.Bitmap.Insert

/-- A bitmap page: `bm_hrl_words_used` and `bm_last_tid_location` of its opaque data, and its
header and content words. -/
structure BitmapPage where
  bmHrlWordsUsed : ℕ
  bmLastTidLocation : UInt64
  hwords : ℕ → UInt64
  cwords : ℕ → UInt64

/-- A bitmap vector: its pages in chain order, and its LOV item. -/
structure BitmapVector where
  pages : List BitmapPage
  lovItem : BMLOVItem

/-- `BM_LAST_COMPWORD_BIT`. -/
def bmLastCompwordBit : UInt8 := 2

/-- `BM_LAST_COMPWORD_IS_FILL`. -/
def bmLastCompwordIsFill (lovItem : BMLOVItem) : Bool :=
  lovItem.lovWordsHeader &&& bmLastCompwordBit != 0

theorem bmLastCompwordIsFill_of_header {lovItem : BMLOVItem} (h : lovItem.lovWordsHeader = 2) :
    bmLastCompwordIsFill lovItem = true := by
  rw [bmLastCompwordIsFill, h]
  rfl

/-- The header that `_bitmap_write_new_bitmapwords` stores says what the buffer says. -/
theorem bmLastCompwordIsFill_header {lovItem : BMLOVItem} {isFill : Bool}
    (h : lovItem.lovWordsHeader = if isFill then 2 else 0) : bmLastCompwordIsFill lovItem = isFill := by
  rw [bmLastCompwordIsFill, h]
  cases isFill <;> rfl

/-- `MAX_BITMAP_PAGES_PER_INSERT`. -/
def maxBitmapPagesPerInsert : ℕ := 10

/-- A page after `_bitmap_init_bitmappage`: `PageInit` zeroes it. -/
def initBitmapPage : BitmapPage := ⟨0, 0, fun _ => 0, fun _ => 0⟩

/-! ## What a vector stands for -/

/-- The bits of the words of a page. -/
def BitmapPage.bits (page : BitmapPage) : List Bool :=
  (List.range page.bmHrlWordsUsed).flatMap fun i =>
    wordBits (isFillWordIn page.hwords i) (page.cwords i)

/-- The bits of `bm_last_compword`. -/
def BMLOVItem.compwordBits (lovItem : BMLOVItem) : List Bool :=
  wordBits (bmLastCompwordIsFill lovItem) lovItem.bmLastCompword

/-- The bits of the vector: its pages, `bm_last_compword` and `bm_last_word`. -/
def BitmapVector.bits (v : BitmapVector) : List Bool :=
  v.pages.flatMap BitmapPage.bits ++ v.lovItem.compwordBits ++ wordBits false v.lovItem.bmLastWord

/-! ## Splitting a fill word -/

/-- `BMTIDBuffer`, by the fields `updatesetbit_inword` and `_bitmap_write_new_bitmapwords` use:
those of `insert_newwords`, the last tid of each word, and the words that go to the LOV item. -/
structure TidBuffer extends Insert.BMTIDBuffer where
  lastTids : ℕ → UInt64
  lastCompword : UInt64
  isLastCompwordFill : Bool
  lastWord : UInt64
  lastTid : UInt64

/-- A buffer after `MemSet` to zero and `buf_extend`, which allocates `BUF_INIT_WORDS` words. -/
def TidBuffer.init : TidBuffer :=
  { curword := 0, numCwords := 8, hwords := fun _ => 0, cwords := fun _ => 0,
    lastTids := fun _ => 0, lastCompword := 0, isLastCompwordFill := false, lastWord := 0,
    lastTid := 0 }

/-- One word appended by `updatesetbit_inword`: the word and its last tid, and for a fill word its
header bit, set after `curword` is incremented. -/
def TidBuffer.push (buf : TidBuffer) (word lastTid : UInt64) (isFill : Bool) : TidBuffer :=
  let curword := buf.curword + 1
  { buf with
    cwords := Function.update buf.cwords buf.curword word
    lastTids := Function.update buf.lastTids buf.curword lastTid
    curword := curword
    hwords := if isFill then
        modifyWord buf.hwords ((curword - 1) / bmHrlWordSize)
          (· ||| (1 : UInt64) <<< (bmHrlWordSize - curword).toUInt64)
      else buf.hwords }

@[simp] theorem TidBuffer.curword_init : TidBuffer.init.curword = 0 := rfl

@[simp] theorem TidBuffer.curword_push (buf : TidBuffer) (word lastTid : UInt64) (isFill : Bool) :
    (buf.push word lastTid isFill).curword = buf.curword + 1 := rfl

theorem TidBuffer.cwords_push (buf : TidBuffer) (word lastTid : UInt64) (isFill : Bool) (j : ℕ) :
    (buf.push word lastTid isFill).cwords j = if j = buf.curword then word else buf.cwords j := by
  simp [TidBuffer.push, Function.update_apply]

@[simp] theorem TidBuffer.isFillWordIn_init (j : ℕ) :
    isFillWordIn TidBuffer.init.hwords j = false := by
  simp [isFillWordIn, TidBuffer.init]

/-- A push sets the header bit of the pushed word's position, for a fill word. -/
theorem TidBuffer.isFillWordIn_push (buf : TidBuffer) (word lastTid : UInt64) (isFill : Bool)
    (hc : buf.curword < 64) (j : ℕ) :
    isFillWordIn (buf.push word lastTid isFill).hwords j =
      (isFillWordIn buf.hwords j || isFill && decide (j = buf.curword)) := by
  have hbit : (1 : UInt64) <<< (bmHrlWordSize - (buf.curword + 1)).toUInt64 =
      wordnoGetHeaderBit buf.curword := by
    unfold wordnoGetHeaderBit bmHrlWordSize
    rw [Nat.mod_eq_of_lt hc, show 64 - (buf.curword + 1) = 63 - buf.curword by omega]
  cases isFill with
  | false => simp [TidBuffer.push]
  | true =>
    simp only [TidBuffer.push, if_true, Nat.add_sub_cancel, hbit]
    rw [isFillWordIn_modifyWord_or]
    simp

/-- A fill word of zeros stands for its words of zeros. -/
theorem wordBits_fill_zero {m : UInt64} (hm : m.toNat < 2 ^ 63) :
    wordBits true (bmMakeFillWord 0 m) = List.replicate (m.toNat * 64) false := by
  rw [wordBits, wordBitsFrom, if_pos rfl, fillLength_bmMakeFillWord (by decide) hm,
    getFillBit_bmMakeFillWord (by decide) hm]
  rfl

/-- OR-ing a bit into a literal word sets that bit of what it stands for. -/
theorem wordBits_or_one_shiftLeft (w k : UInt64) :
    wordBits false (w ||| (1 : UInt64) <<< k) = (wordBits false w).set (k.toNat % 64) true := by
  have hk : k.toNat % 64 < 64 := Nat.mod_lt _ (by decide)
  have hpow : ((1 : UInt64) <<< k).toNat = 2 ^ (k.toNat % 64) := by
    rw [UInt64.toNat_shiftLeft, UInt64.toNat_one, Nat.shiftLeft_eq, Nat.one_mul]
    exact Nat.mod_eq_of_lt (Nat.pow_lt_pow_right (by decide) hk)
  rw [wordBits_false, wordBits_false, UInt64.toNat_or, hpow]
  apply List.ext_getElem (by simp)
  intro i _ _
  simp only [List.getElem_map, List.getElem_range, Nat.testBit_or, Nat.testBit_two_pow,
    List.getElem_set]
  by_cases h : k.toNat % 64 = i <;> simp [h]

/-- A literal word of one bit stands for that bit among zeros. -/
theorem wordBits_one_shiftLeft (k : UInt64) :
    wordBits false (0 ||| (1 : UInt64) <<< k) =
      (List.replicate 64 false).set (k.toNat % 64) true := by
  rw [wordBits_or_one_shiftLeft, wordBits_false_zero]

/-- No header bit is set from the buffer's end on. -/
def TidBuffer.HeaderClear (buf : TidBuffer) : Prop :=
  ∀ j ≥ buf.curword, isFillWordIn buf.hwords j = false

theorem TidBuffer.headerClear_init : TidBuffer.init.HeaderClear := fun j _ => isFillWordIn_init j

theorem TidBuffer.HeaderClear.push {buf : TidBuffer} (h : buf.HeaderClear) (hc : buf.curword < 64)
    (word lastTid : UInt64) (isFill : Bool) : (buf.push word lastTid isFill).HeaderClear := by
  intro j hj
  rw [curword_push] at hj
  have hne : j ≠ buf.curword := by omega
  rw [isFillWordIn_push _ _ _ _ hc, h j (by omega)]
  simp [hne]

/-- The last word of a buffer is the word last pushed, with its header bit. -/
theorem TidBuffer.HeaderClear.wordBits_last {buf : TidBuffer} (h : buf.HeaderClear)
    (hc : buf.curword < 64) (word lastTid : UInt64) (isFill : Bool) :
    let buf := buf.push word lastTid isFill
    wordBits (isFillWordIn buf.hwords (buf.curword - 1)) (buf.cwords (buf.curword - 1)) =
      wordBits isFill word := by
  intro buf'
  simp only [buf', curword_push, Nat.add_sub_cancel, cwords_push, if_true,
    isFillWordIn_push _ _ _ _ hc, h _ le_rfl]
  simp

/-- `updatesetbit_inword`: the words that a fill word becomes when bit `updateBitLoc` of it is set,
appended to `buf` — a fill of zeros before the word of the bit, the literal word with the bit,
and a fill of zeros after it. -/
def updatesetbitInword (word updateBitLoc firstTid : UInt64) (buf : TidBuffer) : TidBuffer :=
  let numBits := fillLength word * bmHrlWordSize.toUInt64
  let (firstTid, usedNumBits, buf) :=
    if updateBitLoc ≥ bmHrlWordSize.toUInt64 then
      let firstTid := firstTid + updateBitLoc / bmHrlWordSize.toUInt64 * bmHrlWordSize.toUInt64
      (firstTid, updateBitLoc / bmHrlWordSize.toUInt64 * bmHrlWordSize.toUInt64,
        buf.push (bmMakeFillWord 0 (updateBitLoc / bmHrlWordSize.toUInt64)) (firstTid - 1) true)
    else (firstTid, 0, buf)
  let insertingPos := updateBitLoc - usedNumBits
  let firstTid := firstTid + bmHrlWordSize.toUInt64
  let buf := buf.push (0 ||| (1 : UInt64) <<< insertingPos) (firstTid - 1) false
  let usedNumBits := usedNumBits + bmHrlWordSize.toUInt64
  if numBits > usedNumBits then
    let fillLength := (numBits - usedNumBits) / bmHrlWordSize.toUInt64
    let firstTid := firstTid + fillLength * bmHrlWordSize.toUInt64
    buf.push (bmMakeFillWord 0 fillLength) (firstTid - 1) true
  else buf

/-- **The last word of a split.** Of a fill word of `n` words split at bit `updateBitLoc`, the last
word `updatesetbit_inword` appends is the fill of zeros after the bit's word or, when the bit is in
the last word, the literal word with the bit. -/
theorem updatesetbitInword_last {word updateBitLoc : UInt64} (firstTid : UInt64)
    (hloc : updateBitLoc.toNat < (fillLength word).toNat * 64)
    (hbits : (fillLength word).toNat * 64 < 2 ^ 64) :
    let buf := updatesetbitInword word updateBitLoc firstTid TidBuffer.init
    1 ≤ buf.curword ∧ buf.curword ≤ 2 + 1 ∧
      wordBits (isFillWordIn buf.hwords (buf.curword - 1)) (buf.cwords (buf.curword - 1)) =
        if updateBitLoc.toNat / 64 + 1 < (fillLength word).toNat then
          List.replicate (((fillLength word).toNat - updateBitLoc.toNat / 64 - 1) * 64) false
        else (List.replicate 64 false).set (updateBitLoc.toNat % 64) true := by
  intro buf
  set n := (fillLength word).toNat with hn
  set u := updateBitLoc.toNat with hu
  have h64 : bmHrlWordSize.toUInt64.toNat = 64 := rfl
  have hq : (updateBitLoc / bmHrlWordSize.toUInt64).toNat = u / 64 := by
    rw [UInt64.toNat_div, h64]
  have hqq : (updateBitLoc / bmHrlWordSize.toUInt64 * bmHrlWordSize.toUInt64).toNat = u / 64 * 64 := by
    rw [UInt64.toNat_mul, hq, h64]
    exact Nat.mod_eq_of_lt (by omega)
  have hnum : (fillLength word * bmHrlWordSize.toUInt64).toNat = n * 64 := by
    rw [UInt64.toNat_mul, h64]
    exact Nat.mod_eq_of_lt hbits
  -- the bits used up to the end of the bit's word, and the fill after it
  have hused : ∀ used : UInt64, used.toNat = u / 64 * 64 →
      (used + bmHrlWordSize.toUInt64).toNat = u / 64 * 64 + 64 := by
    intro used h
    rw [UInt64.toNat_add, h, h64]
    exact Nat.mod_eq_of_lt (by omega)
  have htail : ∀ used : UInt64, used.toNat = u / 64 * 64 →
      (fillLength word * bmHrlWordSize.toUInt64 > used + bmHrlWordSize.toUInt64 ↔ u / 64 + 1 < n) := by
    intro used h
    rw [gt_iff_lt, UInt64.lt_iff_toNat_lt, hused used h, hnum]
    omega
  have hrest : ∀ used : UInt64, used.toNat = u / 64 * 64 → u / 64 + 1 < n →
      ((fillLength word * bmHrlWordSize.toUInt64 - (used + bmHrlWordSize.toUInt64)) /
        bmHrlWordSize.toUInt64).toNat = n - u / 64 - 1 := by
    intro used h hlt
    rw [UInt64.toNat_div, UInt64.toNat_sub_of_le _ _ (UInt64.le_iff_toNat_le.mpr (by
      rw [hused used h, hnum]; omega)), hused used h, hnum, h64]
    omega
  have hfill : ∀ m : UInt64, m.toNat = n - u / 64 - 1 →
      wordBits true (bmMakeFillWord 0 m) = List.replicate ((n - u / 64 - 1) * 64) false := by
    intro m hm
    rw [wordBits_fill_zero (by omega), hm]
  have hclear := TidBuffer.headerClear_init
  simp only [buf, updatesetbitInword]
  by_cases hbig : bmHrlWordSize.toUInt64 ≤ updateBitLoc
  · -- a fill of zeros before the bit's word
    have h0 := hqq
    have hclear1 := hclear.push (by simp) (bmMakeFillWord 0 (updateBitLoc / bmHrlWordSize.toUInt64))
      (firstTid + updateBitLoc / bmHrlWordSize.toUInt64 * bmHrlWordSize.toUInt64 - 1) true
    rw [if_pos hbig]
    dsimp only
    by_cases hcase : u / 64 + 1 < n
    · rw [if_pos ((htail _ h0).mpr hcase), if_pos hcase, (hclear1.push (by simp) _ _ _).wordBits_last
        (by simp)]
      exact ⟨by simp, by simp, hfill _ (hrest _ h0 hcase)⟩
    · rw [if_neg (fun h => hcase ((htail _ h0).mp h)), if_neg hcase,
        hclear1.wordBits_last (by simp), wordBits_one_shiftLeft,
        UInt64.toNat_sub_of_le _ _ (UInt64.le_iff_toNat_le.mpr (by omega)), h0]
      refine ⟨by simp, by simp, ?_⟩
      rw [← hu]
      congr 1
      omega
  · -- the bit is in the first word
    have h0 : (0 : UInt64).toNat = u / 64 * 64 := by
      rw [UInt64.le_iff_toNat_le, h64] at hbig
      simp only [UInt64.toNat_zero]
      omega
    rw [if_neg hbig]
    dsimp only
    by_cases hcase : u / 64 + 1 < n
    · rw [if_pos ((htail _ h0).mpr hcase), if_pos hcase, (hclear.push (by simp) _ _ _).wordBits_last
        (by simp)]
      exact ⟨by simp, by simp, hfill _ (hrest _ h0 hcase)⟩
    · rw [if_neg (fun h => hcase ((htail _ h0).mp h)), if_neg hcase, hclear.wordBits_last (by simp),
        UInt64.sub_zero, wordBits_one_shiftLeft]
      exact ⟨by simp, by simp, rfl⟩

/-! ## Appending words to the pages -/

/-- `rshift_header_bits`: the first `nwords` words shifted right by `bits`, each taking the bits
shifted out of the one before. -/
def rshiftHeaderBits (words : ℕ → UInt64) (nwords bits : ℕ) : ℕ → UInt64 :=
  ((List.range nwords).foldl (fun (acc : (ℕ → UInt64) × UInt64) wordNo =>
    let newShiftingBits := acc.1 wordNo <<< (bmHrlWordSize - bits).toUInt64
    (Function.update acc.1 wordNo ((acc.1 wordNo >>> bits.toUInt64) ||| acc.2), newShiftingBits))
    (words, 0)).1

/-- `lshift_header_bits`: the first `nwords` words shifted left by `bits`, each giving the bits
shifted out to the one before. -/
def lshiftHeaderBits (words : ℕ → UInt64) (nwords bits : ℕ) : ℕ → UInt64 :=
  (List.range nwords).foldl (fun words wordNo =>
    let shiftingBits := words wordNo >>> (bmHrlWordSize - bits).toUInt64
    let words := Function.update words wordNo (words wordNo <<< bits.toUInt64)
    if wordNo ≠ 0 then modifyWord words (wordNo - 1) (· ||| shiftingBits) else words) words

/-- `_bitmap_write_bitmapwords_on_page`: the words of the buffer from `startWordNo` on that fit,
appended to the page with their header bits moved to their new positions, and how many. -/
def bitmapWriteBitmapwordsOnPage (page : BitmapPage) (buf : TidBuffer) (startWordNo : ℕ) :
    BitmapPage × ℕ :=
  let cwords := page.bmHrlWordsUsed
  let wordsWritten := min (buf.curword - startWordNo) (bmNumOfHrlWordsPerPage - cwords)
  if wordsWritten = 0 then (page, 0)
  else
    let pageCwords := fun i =>
      if cwords ≤ i ∧ i < cwords + wordsWritten then buf.cwords (startWordNo + (i - cwords))
      else page.cwords i
    let startHwordNo := startWordNo / bmHrlWordSize
    let endHwordNo := (startWordNo + wordsWritten - 1) / bmHrlWordSize
    let numHwords := endHwordNo - startHwordNo + 1
    let hwords : ℕ → UInt64 := fun i => if i < numHwords then buf.hwords (startHwordNo + i) else 0
    -- clean up the bits before the first word and after the last
    let startHwordBit := startWordNo % bmHrlWordSize
    let endHwordBit := (startWordNo + wordsWritten - 1) % bmHrlWordSize
    let hwords := modifyWord hwords 0 fun w =>
      (w <<< startHwordBit.toUInt64) >>> startHwordBit.toUInt64
    let hwords := modifyWord hwords (numHwords - 1) fun w =>
      (w >>> (bmHrlWordSize - endHwordBit - 1).toUInt64) <<<
        (bmHrlWordSize - endHwordBit - 1).toUInt64
    let finalStartHwordBit := cwords % bmHrlWordSize
    let hwords :=
      if finalStartHwordBit > startHwordBit then
        rshiftHeaderBits hwords (numHwords + 1) (finalStartHwordBit - startHwordBit)
      else if finalStartHwordBit < startHwordBit then
        lshiftHeaderBits hwords numHwords (startHwordBit - finalStartHwordBit)
      else hwords
    let finalStartHwordNo := cwords / bmHrlWordSize
    let finalEndHwordNo := (cwords + wordsWritten - 1) / bmHrlWordSize
    let pageHwords := modifyWord page.hwords finalStartHwordNo (· ||| hwords 0)
    let pageHwords := fun i =>
      if finalStartHwordNo < i ∧ i ≤ finalEndHwordNo then hwords (i - finalStartHwordNo)
      else pageHwords i
    ({ page with
        cwords := pageCwords
        hwords := pageHwords
        bmHrlWordsUsed := cwords + wordsWritten
        bmLastTidLocation := buf.lastTids (startWordNo + wordsWritten - 1) }, wordsWritten)

/-- The loop of `_bitmap_write_new_bitmapwords` from word `startWordNo` of the buffer on, on
`page`, the `numPages`-th page of the call: the pages written, in chain order. Each round after the
first takes a new page; one more page than `MAX_BITMAP_PAGES_PER_INSERT` is an error. -/
def writeNewBitmapwordsLoop (buf : TidBuffer) :
    ℕ → ℕ → BitmapPage → ℕ → Except String (List BitmapPage)
  | 0, _, _, _ => .error "too many bitmap pages in one insert batch into bitmap index"
  | fuel + 1, startWordNo, page, numPages =>
    if numPages > maxBitmapPagesPerInsert then
      .error "too many bitmap pages in one insert batch into bitmap index"
    else
      let (page, wordsWritten) := bitmapWriteBitmapwordsOnPage page buf startWordNo
      let startWordNo := startWordNo + wordsWritten
      if buf.curword - startWordNo > 0 then
        (writeNewBitmapwordsLoop buf fuel startWordNo initBitmapPage (numPages + 1)).map (page :: ·)
      else .ok [page]

/-- `_bitmap_write_new_bitmapwords`: the buffer's words appended to the pages, from the last page
of the chain on when there is one, and the LOV item's last words taken from the buffer. -/
def bitmapWriteNewBitmapwords (v : BitmapVector) (buf : TidBuffer) : Except String BitmapVector := do
  let pages ←
    if buf.curword > 0 then
      match v.pages.getLast? with
      | some tail =>
        (writeNewBitmapwordsLoop buf (buf.curword + 2) 0 tail 1).map (v.pages.dropLast ++ ·)
      | none => writeNewBitmapwordsLoop buf (buf.curword + 2) 0 initBitmapPage 1
    else pure v.pages
  pure { pages
         lovItem :=
          { v.lovItem with
            bmLastCompword := buf.lastCompword
            bmLastWord := buf.lastWord
            lovWordsHeader := if buf.isLastCompwordFill then 2 else 0
            bmLastSetbit := buf.lastTid
            bmLastTidLocation := buf.lastTid - buf.lastTid % bmHrlWordSize.toUInt64 } }

theorem bitmapWriteBitmapwordsOnPage_snd (page : BitmapPage) (buf : TidBuffer) (startWordNo : ℕ) :
    (bitmapWriteBitmapwordsOnPage page buf startWordNo).2 =
      min (buf.curword - startWordNo) (bmNumOfHrlWordsPerPage - page.bmHrlWordsUsed) := by
  unfold bitmapWriteBitmapwordsOnPage
  dsimp only
  by_cases h : min (buf.curword - startWordNo) (bmNumOfHrlWordsPerPage - page.bmHrlWordsUsed) = 0
  · rw [if_pos h]
    exact h.symm
  · rw [if_neg h]

/-- On a new page, a round writes every word left when they fit in a page, and the loop ends. -/
theorem writeNewBitmapwordsLoop_initBitmapPage (buf : TidBuffer) {fuel startWordNo numPages : ℕ}
    (hfuel : 1 ≤ fuel) (hnum : numPages ≤ maxBitmapPagesPerInsert)
    (hfit : buf.curword - startWordNo ≤ bmNumOfHrlWordsPerPage) :
    ∃ pages, writeNewBitmapwordsLoop buf fuel startWordNo initBitmapPage numPages = .ok pages := by
  obtain ⟨fuel, rfl⟩ : ∃ f, fuel = f + 1 := ⟨fuel - 1, by omega⟩
  have hw := bitmapWriteBitmapwordsOnPage_snd initBitmapPage buf startWordNo
  rcases hres : bitmapWriteBitmapwordsOnPage initBitmapPage buf startWordNo with ⟨page, wordsWritten⟩
  rw [hres] at hw
  simp only [initBitmapPage, Nat.sub_zero] at hw
  rw [writeNewBitmapwordsLoop, if_neg (by omega), hres]
  dsimp only
  rw [if_neg (by omega)]
  exact ⟨_, rfl⟩

/-- **The loop ends within two pages** when the words fit in a page: the first round fills the
page it starts on, and a second round puts the rest on a new page. -/
theorem writeNewBitmapwordsLoop_ok (buf : TidBuffer) (page : BitmapPage) {fuel : ℕ}
    (hfuel : 2 ≤ fuel) (hfit : buf.curword ≤ bmNumOfHrlWordsPerPage) :
    ∃ pages, writeNewBitmapwordsLoop buf fuel 0 page 1 = .ok pages := by
  obtain ⟨fuel, rfl⟩ : ∃ f, fuel = f + 1 := ⟨fuel - 1, by omega⟩
  have hw := bitmapWriteBitmapwordsOnPage_snd page buf 0
  rcases hres : bitmapWriteBitmapwordsOnPage page buf 0 with ⟨page', wordsWritten⟩
  rw [hres] at hw
  rw [writeNewBitmapwordsLoop, if_neg (by decide), hres]
  dsimp only
  split_ifs with hmore
  · obtain ⟨pages, hpages⟩ : ∃ pages, writeNewBitmapwordsLoop buf fuel (0 + wordsWritten)
        initBitmapPage (1 + 1) = .ok pages :=
      writeNewBitmapwordsLoop_initBitmapPage buf (by omega) (by decide) (by omega)
    exact ⟨_, by rw [hpages]; rfl⟩
  · exact ⟨_, rfl⟩

/-- `_bitmap_write_new_bitmapwords` succeeds on a page's worth of words, and leaves the LOV item
with the buffer's last words. -/
theorem bitmapWriteNewBitmapwords_lovItem (v : BitmapVector) (buf : TidBuffer)
    (hfit : buf.curword ≤ bmNumOfHrlWordsPerPage) :
    ∃ v', bitmapWriteNewBitmapwords v buf = .ok v' ∧
      v'.lovItem = { v.lovItem with
        bmLastCompword := buf.lastCompword
        bmLastWord := buf.lastWord
        lovWordsHeader := if buf.isLastCompwordFill then 2 else 0
        bmLastSetbit := buf.lastTid
        bmLastTidLocation := buf.lastTid - buf.lastTid % bmHrlWordSize.toUInt64 } := by
  unfold bitmapWriteNewBitmapwords
  by_cases hpos : buf.curword > 0
  · rw [if_pos hpos]
    cases v.pages.getLast? with
    | some tail =>
      obtain ⟨pages, h⟩ : ∃ pages, writeNewBitmapwordsLoop buf (buf.curword + 2) 0 tail 1 = .ok pages :=
        writeNewBitmapwordsLoop_ok buf tail (by omega) hfit
      refine ⟨⟨v.pages.dropLast ++ pages, _⟩, ?_, rfl⟩
      dsimp only
      rw [h]
      rfl
    | none =>
      obtain ⟨pages, h⟩ : ∃ pages,
          writeNewBitmapwordsLoop buf (buf.curword + 2) 0 initBitmapPage 1 = .ok pages :=
        writeNewBitmapwordsLoop_ok buf initBitmapPage (by omega) hfit
      refine ⟨⟨pages, _⟩, ?_, rfl⟩
      dsimp only
      rw [h]
      rfl
  · rw [if_neg hpos]
    exact ⟨⟨v.pages, _⟩, rfl, rfl⟩

/-! ## Setting a bit in a page -/

/-- `findbitmappage` from the page at index `pageNo` on: the index of the first page whose
`bm_last_tid_location` reaches the tid, and the first tid of that page. -/
def findbitmappageFrom (tidnum : UInt64) :
    List BitmapPage → ℕ → UInt64 → Except String (ℕ × UInt64)
  | [], _, _ => .error "could not find bitmap page containing tid"
  | page :: pages, pageNo, firstTidNumber =>
    if page.bmLastTidLocation ≥ tidnum then .ok (pageNo, firstTidNumber)
    else findbitmappageFrom tidnum pages (pageNo + 1) (page.bmLastTidLocation + 1)

/-- `findbitmappage`. -/
def findbitmappage (pages : List BitmapPage) (tidnum : UInt64) : Except String (ℕ × UInt64) :=
  findbitmappageFrom tidnum pages 0 1

/-- The search of `updatesetbit_inpage` from word `wordNo` on, with `bitNo` bits before it: the
word whose bits reach the tid, and the bits up to its end. -/
def findWordFrom (page : BitmapPage) (tidnum firstTidNumber : UInt64) :
    ℕ → ℕ → UInt64 → Except String (ℕ × UInt64)
  | 0, _, _ => .error "could not find bitmap word for tid"
  | n + 1, wordNo, bitNo =>
    let word := page.cwords wordNo
    let bitNo := if isFillWordIn page.hwords wordNo then bitNo + fillLength word * 64 else bitNo + 64
    if firstTidNumber + bitNo - 1 ≥ tidnum then .ok (wordNo, bitNo)
    else findWordFrom page tidnum firstTidNumber n (wordNo + 1) bitNo

/-- `GET_NUM_BITS`. -/
def getNumBits (cwords hwords : ℕ → UInt64) (nwords : ℕ) : UInt64 :=
  (List.range nwords).foldl (fun nbits i =>
    if isFillWordIn hwords i then nbits + fillLength (cwords i) * 64 else nbits + 64) 0

/-- The buffer `updatesetbit_inpage` makes of a page: its content words, the header words in use
copied over zeros, and the page's capacity. -/
def BitmapPage.toBuffer (page : BitmapPage) : Insert.BMTIDBuffer :=
  { curword := page.bmHrlWordsUsed
    numCwords := bmNumOfHrlWordsPerPage
    hwords := copyWords (fun _ => 0) page.hwords (bmCalcHWords page.bmHrlWordsUsed)
    cwords := page.cwords }

/-- The page after `insert_newwords` on its buffer: the words, the header words in use copied
back, and the count. -/
def BitmapPage.ofBuffer (page : BitmapPage) (words : Insert.BMTIDBuffer) : BitmapPage :=
  { page with
    bmHrlWordsUsed := words.curword
    hwords := copyWords page.hwords words.hwords (bmCalcHWords words.curword)
    cwords := words.cwords }

/-- `updatesetbit_inpage` on page `pageNo` of the chain, whose first tid is `firstTidNumber`. -/
def updatesetbitInpage (pages : List BitmapPage) (tidnum : UInt64) (pageNo : ℕ)
    (firstTidNumber : UInt64) : Except String (List BitmapPage) := do
  let page := pages.getD pageNo initBitmapPage
  let (wordNo, bitNo) ← findWordFrom page tidnum firstTidNumber page.bmHrlWordsUsed 0 0
  let word := page.cwords wordNo
  if !isFillWordIn page.hwords wordNo then
    -- a literal word takes the bit
    let page := { page with
      cwords := modifyWord page.cwords wordNo (· ||| (1 : UInt64) <<< ((tidnum - 1) % 64)) }
    return pages.set pageNo page
  if getFillBit word = 1 then return pages
  let firstTidNumber := firstTidNumber + bitNo - fillLength word * 64
  let newWords := updatesetbitInword word (tidnum - firstTidNumber) firstTidNumber TidBuffer.init
  let off := wordNo / bmHrlWordSize
  if newWords.curword = 1 then
    if isFillWordIn newWords.hwords 0 then
      throw "incorrect header bit found in bitmap index; expected header bit 1"
    let page := { page with
      cwords := Function.update page.cwords wordNo (newWords.cwords 0)
      hwords := modifyWord page.hwords off (· &&& ~~~wordnoGetHeaderBit wordNo) }
    return pages.set pageNo page
  -- the words that do not fit go to the next page when it has room, otherwise to a new page
  let count := newWords.curword - 1
  let next := pages[pageNo + 1]?
  let (freeWords, next) :=
    if bmNumOfHrlWordsPerPage - page.bmHrlWordsUsed < count then
      match next with
      | some nextPage => (bmNumOfHrlWordsPerPage - nextPage.bmHrlWordsUsed, some nextPage)
      | none => (bmNumOfHrlWordsPerPage - page.bmHrlWordsUsed, none)
    else (bmNumOfHrlWordsPerPage - page.bmHrlWordsUsed, none)
  let (next, newPage) :=
    if freeWords < count then (some initBitmapPage, true) else (next, false)
  let page := { page with cwords := Function.update page.cwords wordNo (newWords.cwords 0) }
  let page ←
    if tidnum - firstTidNumber + 1 ≤ 64 then
      if isFillWordIn newWords.hwords 0 then
        throw "incorrect header bit found in bitmap index; expected header bit 1"
      else pure { page with hwords := modifyWord page.hwords off (· &&& ~~~wordnoGetHeaderBit wordNo) }
    else pure page
  -- drop the first new word
  let newWords : Insert.BMTIDBuffer :=
    { newWords.toBMTIDBuffer with
      hwords := modifyWord newWords.hwords 0 (· <<< 1)
      cwords := fun i => if i < count then newWords.cwords (i + 1) else newWords.cwords i
      curword := count }
  let (words, wordsLeft) :=
    insertNewwords page.toBuffer (wordNo + 1) newWords TidBuffer.init.toBMTIDBuffer
  let page := page.ofBuffer words
  -- a new page ends where the page ended
  let next :=
    if newPage then next.map fun nextPage => { nextPage with bmLastTidLocation := page.bmLastTidLocation }
    else next
  let page := { page with
    bmLastTidLocation :=
      page.bmLastTidLocation - getNumBits wordsLeft.cwords wordsLeft.hwords wordsLeft.curword }
  let next :=
    if wordsLeft.curword > 0 then
      next.map fun nextPage =>
        nextPage.ofBuffer (insertNewwords nextPage.toBuffer 0 wordsLeft ⟨0, 0, fun _ => 0, fun _ => 0⟩).1
    else next
  -- the chain: the page, then the new page or the next page as updated
  let pages := pages.set pageNo page
  return match next with
    | none => pages
    | some nextPage =>
      if newPage then pages.insertIdx (pageNo + 1) nextPage else pages.set (pageNo + 1) nextPage

/-! ## `updatesetbit` -/

/-- The LOV item after the bit of `tidnum` is set in `bm_last_word` or in a short
`bm_last_compword`. -/
def updateLastWords (lovItem : BMLOVItem) (tidnum : UInt64) : BMLOVItem :=
  let insertingPos := (tidnum - 1) % bmHrlWordSize.toUInt64
  if tidnum > lovItem.bmLastTidLocation then
    { lovItem with bmLastWord := lovItem.bmLastWord ||| (1 : UInt64) <<< insertingPos }
  else
    let compword :=
      if bmLastCompwordIsFill lovItem then
        if getFillBit lovItem.bmLastCompword = 1 then literalAllOne else 0
      else lovItem.bmLastCompword
    let compword := compword ||| (1 : UInt64) <<< insertingPos
    if compword = literalAllOne then
      { lovItem with lovWordsHeader := 2, bmLastCompword := bmMakeFillWord 1 1 }
    else { lovItem with lovWordsHeader := 0, bmLastCompword := compword }

/-- `updatesetbit`. -/
def updatesetbit (v : BitmapVector) (tidnum : UInt64) : Except String BitmapVector :=
  let lovItem := v.lovItem
  -- the first tid location of `bm_last_compword`, less one
  let tidLocation :=
    if bmLastCompwordIsFill lovItem then
      lovItem.bmLastTidLocation - fillLength lovItem.bmLastCompword * bmHrlWordSize.toUInt64
    else lovItem.bmLastTidLocation - bmHrlWordSize.toUInt64
  if tidnum > lovItem.bmLastTidLocation ∨ (tidnum > tidLocation ∧
      (lovItem.lovWordsHeader = 0 ∨ fillLength lovItem.bmLastCompword = 1)) then
    .ok { v with lovItem := updateLastWords lovItem tidnum }
  else if tidnum > tidLocation ∧ lovItem.lovWordsHeader ≥ 2 then
    -- `bm_last_compword` is taken for a fill of zeros of two words or more
    let buf := updatesetbitInword lovItem.bmLastCompword (tidnum - tidLocation - 1)
      (tidLocation + 1) TidBuffer.init
    let buf := { buf with
      lastCompword := buf.cwords (buf.curword - 1)
      isLastCompwordFill := isFillWordIn buf.hwords (buf.curword - 1)
      curword := buf.curword - 1
      lastWord := lovItem.bmLastWord
      lastTid := lovItem.bmLastSetbit }
    bitmapWriteNewBitmapwords v buf
  else do
    let (pageNo, firstTidNumber) ← findbitmappage v.pages tidnum
    let pages ← updatesetbitInpage v.pages tidnum pageNo firstTidNumber
    return { v with pages }

/-! ## The in-place routes -/

/-- The pages and `bm_last_compword` stand for the bits up to `bm_last_tid_location`. -/
def BitmapVector.CompwordEnds (v : BitmapVector) : Prop :=
  (v.pages.flatMap BitmapPage.bits).length + v.lovItem.compwordBits.length =
    v.lovItem.bmLastTidLocation.toNat

theorem dvd_length_wordBits (isFill : Bool) (w : UInt64) : 64 ∣ (wordBits isFill w).length := by
  rw [wordBits, length_wordBitsFrom]
  split_ifs
  · exact Nat.dvd_mul_left 64 _
  · exact Nat.dvd_refl 64

theorem dvd_length_flatMap {α : Type} (f : α → List Bool) (h : ∀ a, 64 ∣ (f a).length) :
    ∀ l : List α, 64 ∣ (l.flatMap f).length
  | [] => by simp
  | a :: l => by
    rw [List.flatMap_cons, List.length_append]
    exact Nat.dvd_add (h a) (dvd_length_flatMap f h l)

/-- Every word stands for a whole number of 64 bits, so `bm_last_tid_location` is a multiple
of 64. -/
theorem BitmapVector.CompwordEnds.aligned {v : BitmapVector} (hv : v.CompwordEnds) :
    v.lovItem.bmLastTidLocation.toNat % 64 = 0 := by
  have hpages := dvd_length_flatMap BitmapPage.bits
    (fun page => dvd_length_flatMap _ (fun i => dvd_length_wordBits _ _) _) v.pages
  have hcompword := dvd_length_wordBits (bmLastCompwordIsFill v.lovItem) v.lovItem.bmLastCompword
  rw [← hv]
  exact Nat.mod_eq_zero_of_dvd (Nat.dvd_add hpages hcompword)

theorem wordBits_fill_one_one : wordBits true (bmMakeFillWord 1 1) = List.replicate 64 true := by
  rw [wordBits, wordBitsFrom, if_pos rfl, fillLength_bmMakeFillWord (by decide) (by decide),
    getFillBit_bmMakeFillWord (by decide) (by decide)]
  rfl

/-- The bit of a tid within its word. -/
theorem toNat_insertingPos {tidnum : UInt64} (h : 1 ≤ tidnum.toNat) :
    ((tidnum - 1) % bmHrlWordSize.toUInt64).toNat % 64 = (tidnum.toNat - 1) % 64 := by
  have h1 : (1 : UInt64) ≤ tidnum := UInt64.le_iff_toNat_le.mpr (by rw [UInt64.toNat_one]; exact h)
  rw [UInt64.toNat_mod, UInt64.toNat_sub_of_le _ _ h1, UInt64.toNat_one]
  exact Nat.mod_mod _ _

/-- **A bit of `bm_last_word` is set in place.** -/
theorem updatesetbit_lastWord {v : BitmapVector} (hv : v.CompwordEnds) {tidnum : UInt64}
    (hafter : v.lovItem.bmLastTidLocation < tidnum)
    (hword : tidnum.toNat ≤ v.lovItem.bmLastTidLocation.toNat + 64) :
    ∃ v', updatesetbit v tidnum = .ok v' ∧ v'.bits = v.bits.set (tidnum.toNat - 1) true := by
  have hlt := UInt64.lt_iff_toNat_lt.mp hafter
  have haligned := hv.aligned
  refine ⟨_, by rw [updatesetbit]; dsimp only; rw [if_pos (Or.inl hafter)], ?_⟩
  have hcompword : (updateLastWords v.lovItem tidnum).compwordBits = v.lovItem.compwordBits := by
    simp only [updateLastWords, if_pos hafter]
    rfl
  have hword : (updateLastWords v.lovItem tidnum).bmLastWord =
      v.lovItem.bmLastWord ||| (1 : UInt64) <<< ((tidnum - 1) % bmHrlWordSize.toUInt64) := by
    simp only [updateLastWords, if_pos hafter]
  unfold BitmapVector.CompwordEnds at hv
  simp only [BitmapVector.bits]
  rw [hcompword, hword, wordBits_or_one_shiftLeft, toNat_insertingPos (by omega),
    List.set_append_right _ _ (by rw [List.length_append]; omega), List.length_append, hv]
  congr 2
  omega

/-- `bm_last_compword` is a literal, or a fill of one word. -/
def BMLOVItem.ShortCompword (lovItem : BMLOVItem) : Prop :=
  lovItem.lovWordsHeader = 0 ∨ (lovItem.lovWordsHeader = 2 ∧ fillLength lovItem.bmLastCompword = 1)

/-- A short `bm_last_compword`, read as the literal word of its 64 bits, takes the bit; a word of
all ones is stored as a fill of one word, which stands for the same bits. -/
theorem compwordBits_updateLastWords {lovItem : BMLOVItem} (hshort : lovItem.ShortCompword)
    {tidnum : UInt64} (hbefore : ¬tidnum > lovItem.bmLastTidLocation) :
    (updateLastWords lovItem tidnum).compwordBits =
      lovItem.compwordBits.set (((tidnum - 1) % bmHrlWordSize.toUInt64).toNat % 64) true ∧
    (updateLastWords lovItem tidnum).bmLastWord = lovItem.bmLastWord := by
  -- the word as a literal
  set literal :=
    if bmLastCompwordIsFill lovItem then
      if getFillBit lovItem.bmLastCompword = 1 then literalAllOne else 0
    else lovItem.bmLastCompword with hliteral
  have hbits : wordBits false literal = lovItem.compwordBits := by
    rcases hshort with h0 | ⟨h2, hone⟩
    · have hfill : bmLastCompwordIsFill lovItem = false := by rw [bmLastCompwordIsFill, h0]; rfl
      rw [hliteral, BMLOVItem.compwordBits, hfill, if_neg (by decide)]
    · have hfill := bmLastCompwordIsFill_of_header h2
      have hright : lovItem.compwordBits =
          List.replicate 64 (getFillBit lovItem.bmLastCompword == 1) := by
        rw [BMLOVItem.compwordBits, hfill, wordBits, wordBitsFrom, if_pos rfl, hone]
        rfl
      rw [hright, hliteral, hfill, if_pos rfl]
      rcases getFillBit_eq_zero_or_one lovItem.bmLastCompword with hb | hb
      · rw [if_neg (by rw [hb]; decide), hb, wordBits_false_zero]
        rfl
      · rw [if_pos hb, hb, wordBits_false_literalAllOne]
        rfl
  unfold updateLastWords
  rw [if_neg hbefore]
  dsimp only
  rw [← hliteral]
  split_ifs with hall
  · refine ⟨?_, rfl⟩
    rw [BMLOVItem.compwordBits, bmLastCompwordIsFill_of_header rfl, wordBits_fill_one_one,
      ← wordBits_false_literalAllOne, ← hall, wordBits_or_one_shiftLeft, hbits]
  · refine ⟨?_, rfl⟩
    rw [BMLOVItem.compwordBits, @bmLastCompwordIsFill_header _ false rfl,
      wordBits_or_one_shiftLeft, hbits]

/-- **A bit of a short `bm_last_compword` is set in place.** -/
theorem updatesetbit_short_compword {v : BitmapVector} (hv : v.CompwordEnds)
    (hshort : v.lovItem.ShortCompword) {tidnum : UInt64}
    (hbefore : tidnum ≤ v.lovItem.bmLastTidLocation)
    (hin : v.lovItem.bmLastTidLocation.toNat < tidnum.toNat + 64) :
    ∃ v', updatesetbit v tidnum = .ok v' ∧ v'.bits = v.bits.set (tidnum.toNat - 1) true := by
  have hle := UInt64.le_iff_toNat_le.mp hbefore
  have haligned := hv.aligned
  have hnot : ¬tidnum > v.lovItem.bmLastTidLocation := UInt64.not_lt.mpr hbefore
  -- the word stands for 64 bits, and its tid location before it is 64 below its end
  have hlen : v.lovItem.compwordBits.length = 64 := by
    rw [BMLOVItem.compwordBits, wordBits, length_wordBitsFrom]
    rcases hshort with h0 | ⟨h2, hone⟩
    · rw [bmLastCompwordIsFill, h0]
      rfl
    · rw [bmLastCompwordIsFill_of_header h2, if_pos rfl, hone]
      rfl
  unfold BitmapVector.CompwordEnds at hv
  have hstart : (if bmLastCompwordIsFill v.lovItem then
      v.lovItem.bmLastTidLocation - fillLength v.lovItem.bmLastCompword * bmHrlWordSize.toUInt64
    else v.lovItem.bmLastTidLocation - bmHrlWordSize.toUInt64) < tidnum := by
    have h64 : bmHrlWordSize.toUInt64 ≤ v.lovItem.bmLastTidLocation :=
      UInt64.le_iff_toNat_le.mpr (by show 64 ≤ _; omega)
    have hsub : (v.lovItem.bmLastTidLocation - bmHrlWordSize.toUInt64) < tidnum :=
      UInt64.lt_iff_toNat_lt.mpr (by rw [UInt64.toNat_sub_of_le _ _ h64]; show _ - 64 < _; omega)
    rcases hshort with h0 | ⟨h2, hone⟩
    · rw [if_neg (by rw [bmLastCompwordIsFill, h0]; decide)]
      exact hsub
    · rw [if_pos (bmLastCompwordIsFill_of_header h2), hone, UInt64.one_mul]
      exact hsub
  have hroute : tidnum > v.lovItem.bmLastTidLocation ∨ (tidnum > (if bmLastCompwordIsFill v.lovItem then
      v.lovItem.bmLastTidLocation - fillLength v.lovItem.bmLastCompword * bmHrlWordSize.toUInt64
    else v.lovItem.bmLastTidLocation - bmHrlWordSize.toUInt64) ∧
      (v.lovItem.lovWordsHeader = 0 ∨ fillLength v.lovItem.bmLastCompword = 1)) :=
    .inr ⟨hstart, hshort.imp id And.right⟩
  refine ⟨_, by rw [updatesetbit]; dsimp only; rw [if_pos hroute], ?_⟩
  obtain ⟨hcompword, hword⟩ := compwordBits_updateLastWords hshort hnot
  simp only [BitmapVector.bits]
  rw [hcompword, hword, toNat_insertingPos (by omega), List.set_append_left _ _
    (by rw [List.length_append]; omega), List.set_append_right _ _ (by omega)]
  congr 3
  omega

/-! ## A fill word of ones split as zeros -/

/-- **Setting a bit in a fill word of ones clears the fill.** When `bm_last_compword` is a fill
word of ones of `n ≥ 2` words, ending at `bm_last_tid_location`, and the tid is among its bits,
`updatesetbit` replaces it by the split of a fill of zeros: the last complete word of the result,
which ends at the same tid, stands for at least 64 of those bits, all clear but the tid's. -/
theorem updatesetbit_clears_fill_of_ones (v : BitmapVector) (tidnum : UInt64)
    (hheader : v.lovItem.lovWordsHeader = 2) (hones : getFillBit v.lovItem.bmLastCompword = 1)
    (hlen : 2 ≤ (fillLength v.lovItem.bmLastCompword).toNat)
    (hends : (fillLength v.lovItem.bmLastCompword).toNat * 64 ≤ v.lovItem.bmLastTidLocation.toNat)
    (hsetbit : v.lovItem.bmLastTidLocation = v.lovItem.bmLastSetbit - v.lovItem.bmLastSetbit % 64)
    (hlow : v.lovItem.bmLastTidLocation.toNat <
      tidnum.toNat + (fillLength v.lovItem.bmLastCompword).toNat * 64)
    (hhigh : tidnum ≤ v.lovItem.bmLastTidLocation) :
    v.lovItem.compwordBits = List.replicate v.lovItem.compwordBits.length true ∧
      ∃ v', updatesetbit v tidnum = .ok v' ∧
        v'.lovItem.bmLastTidLocation = v.lovItem.bmLastTidLocation ∧
        64 ≤ v'.lovItem.compwordBits.length ∧
        v'.lovItem.compwordBits.length < v.lovItem.compwordBits.length ∧
        (v'.lovItem.compwordBits = List.replicate v'.lovItem.compwordBits.length false ∨
          v'.lovItem.compwordBits = (List.replicate 64 false).set ((tidnum.toNat - 1) % 64) true) := by
  set n := (fillLength v.lovItem.bmLastCompword).toNat with hn
  have hfill := bmLastCompwordIsFill_of_header hheader
  have hbits : v.lovItem.compwordBits = List.replicate (n * 64) true := by
    rw [BMLOVItem.compwordBits, hfill, wordBits, wordBitsFrom, if_pos rfl, hones]
    rfl
  have htid := v.lovItem.bmLastTidLocation.toNat_lt
  have hhigh' := UInt64.le_iff_toNat_le.mp hhigh
  have hL : (fillLength v.lovItem.bmLastCompword * bmHrlWordSize.toUInt64).toNat = n * 64 := by
    rw [UInt64.toNat_mul]
    exact Nat.mod_eq_of_lt (lt_of_le_of_lt hends htid)
  -- the tid location before the fill word, a whole number of words
  set tidLocation := v.lovItem.bmLastTidLocation -
    fillLength v.lovItem.bmLastCompword * bmHrlWordSize.toUInt64 with htidLocation
  have hstart : tidLocation.toNat = v.lovItem.bmLastTidLocation.toNat - n * 64 := by
    rw [htidLocation, UInt64.toNat_sub_of_le _ _ (UInt64.le_iff_toNat_le.mpr (by rw [hL]; omega)),
      hL]
  have haligned : v.lovItem.bmLastTidLocation.toNat % 64 = 0 := by
    have h64 : (64 : UInt64).toNat = 64 := rfl
    have hmod : v.lovItem.bmLastSetbit % 64 ≤ v.lovItem.bmLastSetbit :=
      UInt64.le_iff_toNat_le.mpr (by rw [UInt64.toNat_mod, h64]; exact Nat.mod_le _ _)
    rw [hsetbit, UInt64.toNat_sub_of_le _ _ hmod, UInt64.toNat_mod, h64]
    omega
  have hafter : tidLocation < tidnum := UInt64.lt_iff_toNat_lt.mpr (by omega)
  have hloc : (tidnum - tidLocation - 1).toNat = tidnum.toNat - tidLocation.toNat - 1 := by
    have hlt := UInt64.lt_iff_toNat_lt.mp hafter
    have h1 : (1 : UInt64) ≤ tidnum - tidLocation := UInt64.le_iff_toNat_le.mpr (by
      rw [UInt64.toNat_sub_of_le _ _ (UInt64.le_of_lt hafter), UInt64.toNat_one]
      omega)
    rw [UInt64.toNat_sub_of_le _ _ h1, UInt64.toNat_sub_of_le _ _ (UInt64.le_of_lt hafter),
      UInt64.toNat_one]
  obtain ⟨hc1, hc3, hlast⟩ := @updatesetbitInword_last v.lovItem.bmLastCompword
    (tidnum - tidLocation - 1) (tidLocation + 1)
    (by rw [hloc, hstart]; omega) (lt_of_le_of_lt hends htid)
  refine ⟨by rw [hbits, List.length_replicate], ?_⟩
  -- the route of a long fill word
  have hroute1 : ¬(tidnum > v.lovItem.bmLastTidLocation ∨ (tidnum > tidLocation ∧
      (v.lovItem.lovWordsHeader = 0 ∨ fillLength v.lovItem.bmLastCompword = 1))) := by
    rintro (h | ⟨_, h | h⟩)
    · exact absurd hhigh (UInt64.not_le.mpr h)
    · rw [hheader] at h
      exact absurd h (by decide)
    · have h1 : n = 1 := by rw [hn, h]; rfl
      omega
  have hroute2 : tidnum > tidLocation ∧ v.lovItem.lovWordsHeader ≥ 2 := ⟨hafter, by rw [hheader]; decide⟩
  rw [updatesetbit]
  dsimp only
  rw [if_pos hfill, ← htidLocation, if_neg hroute1, if_pos hroute2]
  generalize updatesetbitInword v.lovItem.bmLastCompword (tidnum - tidLocation - 1)
    (tidLocation + 1) TidBuffer.init = buf at hc1 hc3 hlast ⊢
  obtain ⟨v', hv', hlov⟩ := bitmapWriteNewBitmapwords_lovItem v
    { buf with
      lastCompword := buf.cwords (buf.curword - 1)
      isLastCompwordFill := isFillWordIn buf.hwords (buf.curword - 1)
      curword := buf.curword - 1
      lastWord := v.lovItem.bmLastWord
      lastTid := v.lovItem.bmLastSetbit }
    (by dsimp only; rw [show bmNumOfHrlWordsPerPage = 3968 from rfl]; omega)
  have hnewBits : v'.lovItem.compwordBits =
      wordBits (isFillWordIn buf.hwords (buf.curword - 1)) (buf.cwords (buf.curword - 1)) := by
    rw [BMLOVItem.compwordBits, bmLastCompwordIsFill_header (by rw [hlov]), hlov]
  have hnewLoc : v'.lovItem.bmLastTidLocation = v.lovItem.bmLastTidLocation := by
    rw [hlov, hsetbit]
    rfl
  refine ⟨v', hv', hnewLoc, ?_⟩
  rw [hnewBits, hlast, hbits, List.length_replicate]
  split_ifs with hcase
  · -- a fill of zeros after the bit's word
    rw [hloc, hstart] at hcase
    refine ⟨?_, ?_, .inl (by rw [List.length_replicate])⟩ <;> rw [List.length_replicate] <;> omega
  · -- the bit is in the last word
    refine ⟨by simp, by simp; omega, .inr ?_⟩
    rw [hloc, hstart]
    congr 1
    omega

/-- The tids 1 to 128, held by a fill word of ones of two words as `bm_last_compword`, with no
pages. -/
def twoWordsOfOnes : BitmapVector :=
  { pages := []
    lovItem :=
      { bmLastCompword := bmMakeFillWord 1 2
        bmLastWord := 0
        bmLastTidLocation := 128
        bmLastSetbit := 128
        lovWordsHeader := 2 } }

/-- Setting tid 5, already set, in `twoWordsOfOnes`: the tids 1 to 64 become the literal word of
tid 5 on a new page, and `bm_last_compword` a fill of zeros of one word, so the vector stands for
tid 5 alone. -/
theorem updatesetbit_clears_fill_of_ones_tid_five :
    (twoWordsOfOnes.lovItem.lovWordsHeader = 2 ∧
      getFillBit twoWordsOfOnes.lovItem.bmLastCompword = 1 ∧
      2 ≤ (fillLength twoWordsOfOnes.lovItem.bmLastCompword).toNat ∧
      (fillLength twoWordsOfOnes.lovItem.bmLastCompword).toNat * 64 ≤
        twoWordsOfOnes.lovItem.bmLastTidLocation.toNat ∧
      twoWordsOfOnes.lovItem.bmLastTidLocation =
        twoWordsOfOnes.lovItem.bmLastSetbit - twoWordsOfOnes.lovItem.bmLastSetbit % 64 ∧
      twoWordsOfOnes.lovItem.bmLastTidLocation.toNat <
        (5 : UInt64).toNat + (fillLength twoWordsOfOnes.lovItem.bmLastCompword).toNat * 64 ∧
      (5 : UInt64) ≤ twoWordsOfOnes.lovItem.bmLastTidLocation) ∧
    (twoWordsOfOnes.lovItem.compwordBits =
        List.replicate twoWordsOfOnes.lovItem.compwordBits.length true ∧
      ∃ v', updatesetbit twoWordsOfOnes 5 = .ok v' ∧
        v'.lovItem.bmLastTidLocation = twoWordsOfOnes.lovItem.bmLastTidLocation ∧
        64 ≤ v'.lovItem.compwordBits.length ∧
        v'.lovItem.compwordBits.length < twoWordsOfOnes.lovItem.compwordBits.length ∧
        (v'.lovItem.compwordBits = List.replicate v'.lovItem.compwordBits.length false ∨
          v'.lovItem.compwordBits =
            (List.replicate 64 false).set (((5 : UInt64).toNat - 1) % 64) true)) ∧
    (updatesetbit twoWordsOfOnes 5).map BitmapVector.bits =
      .ok ((List.replicate 64 false).set 4 true ++ List.replicate 128 false) ∧
    twoWordsOfOnes.bits.set 4 true = List.replicate 128 true ++ List.replicate 64 false :=
  ⟨⟨rfl, by decide, by decide, by decide, by decide, by decide, by decide⟩,
    updatesetbit_clears_fill_of_ones twoWordsOfOnes 5 rfl (by decide) (by decide) (by decide)
      (by decide) (by decide) (by decide),
    by decide +kernel, by decide +kernel⟩

end Cloudberry.Bitmap
