import Cloudberry.Bitmap.Hrl
import Cloudberry.Lib.WordBits

/-!
# Inserting words into a bitmap page (`insert_newwords`)

When a bit is set inside a bitmap page, the content word holding it may have to be split into
new words, which `insert_newwords` inserts into the page's words at a position: the words after
it move right, those pushed past the end of the page go to a second buffer `words_left`, and
`shift_header_bits` moves the header bits of the moved words right by the number of new words.

The header bits sit in 64-bit words, the bit of content word `p` at bit `63 - p % 64` of header
word `p / 64`. `shift_header_bits` shifts each header word right by the number of new words and
carries the bits shifted out into the next word. The callers insert at most three words, and for
any number of new words below 64 the header bits move with their words: the pairs of content
word and header bit of the page and of `words_left` are those of the page with the new words'
inserted.

A shift of a 64-bit word by 64 is undefined in C; the machine takes the count modulo 64, as
`UInt64` shifts do, and shifts by nothing. Were 64 words inserted at a word boundary, the start
word of the header would keep its bits, and the first new word the header bit of the word that
was there.

The buffers are `BMTIDBuffer`s of which `insert_newwords` uses `curword`, `num_cwords`, `hwords`
and `cwords`, with the arrays as maps from positions to words.

* `isFillWordIn_shiftHeaderBits`: `shift_header_bits` moves the bits from `startLoc` on right by
  `0 < n < 64`, across header words, and clears the positions it opens;
* `moveWordsLoop_spec`, `foldl_insertWord_spec`: what the first two loops of `insert_newwords`
  leave in the page and in `words_left`;
* `insertNewwords_spec`, `insertNewwords_inserts_pairs`: the page and `words_left` hold the words
  with the new ones inserted, each with its header bit;
* `shiftHeaderBits_sixtyFour_keeps_start_word`, `insertNewwords_keeps_old_header_bit`: a shift by
  64 keeps the start word, and the first of 64 new words keeps the old header bit.
-/

namespace Cloudberry.Bitmap.Insert

open WordBits

/-- `BLCKSZ` of the default build. -/
def blcksz : ℕ := 32768

/-- `BM_MAX_NUM_OF_HRL_WORDS_PER_PAGE`: the words of a page after the page header (24 bytes) and
the bitmap page's opaque data (16 bytes). -/
def bmMaxNumOfHrlWordsPerPage : ℕ := (blcksz - 24 - 16) / 8

/-- `BM_MAX_NUM_OF_HEADER_WORDS`. -/
def bmMaxNumOfHeaderWords : ℕ := (bmMaxNumOfHrlWordsPerPage - 1) / bmHrlWordSize + 1

/-- `BM_NUM_OF_HRL_WORDS_PER_PAGE`: a whole number of header words' worth of content words. -/
def bmNumOfHrlWordsPerPage : ℕ :=
  (bmMaxNumOfHrlWordsPerPage - bmMaxNumOfHeaderWords) / bmHrlWordSize * bmHrlWordSize

/-- `BM_NUM_OF_HEADER_WORDS`. -/
def bmNumOfHeaderWords : ℕ := (bmNumOfHrlWordsPerPage - 1) / bmHrlWordSize + 1

/-- `BM_CALC_H_WORDS`: the header words of `c_words` content words. -/
def bmCalcHWords (cWords : ℕ) : ℕ := if cWords = 0 then cWords else (cWords - 1) / bmHrlWordSize + 1

/-- `BMTIDBuffer`, by the fields `insert_newwords` uses. -/
structure BMTIDBuffer where
  curword : ℕ
  numCwords : ℕ
  hwords : ℕ → UInt64
  cwords : ℕ → UInt64

/-- `IS_FILL_WORD` on an array of header words. -/
def isFillWordIn (hwords : ℕ → UInt64) (wordno : ℕ) : Bool :=
  (hwords (wordno / bmHrlWordSize) &&& wordnoGetHeaderBit wordno) > 0

/-- `memcpy` of the first `n` words of `src` over `dst`. -/
def copyWords (dst src : ℕ → UInt64) (n : ℕ) : ℕ → UInt64 := fun i => if i < n then src i else dst i

/-- An array with word `i` replaced by `f` of it. -/
def modifyWord (words : ℕ → UInt64) (i : ℕ) (f : UInt64 → UInt64) : ℕ → UInt64 :=
  Function.update words i (f (words i))

@[simp] theorem modifyWord_self (words : ℕ → UInt64) (i : ℕ) (f : UInt64 → UInt64) :
    modifyWord words i f i = f (words i) := by
  simp [modifyWord]

@[simp] theorem modifyWord_of_ne (words : ℕ → UInt64) {i j : ℕ} (f : UInt64 → UInt64)
    (h : j ≠ i) : modifyWord words i f j = words j := by
  simp [modifyWord, h]

theorem bmHrlWordSize_eq : bmHrlWordSize = 64 := rfl

@[simp] theorem isFillWordIn_zero (p : ℕ) : isFillWordIn (fun _ => 0) p = false := by
  simp [isFillWordIn]

theorem isFillWordIn_eq_testBit (hwords : ℕ → UInt64) (j : ℕ) :
    isFillWordIn hwords j = (hwords (j / 64)).toNat.testBit (63 - j % 64) :=
  headerBit_eq_testBit _ j

theorem isFillWordIn_congr {hwords hwords' : ℕ → UInt64} {j : ℕ}
    (h : hwords (j / bmHrlWordSize) = hwords' (j / bmHrlWordSize)) :
    isFillWordIn hwords j = isFillWordIn hwords' j := by
  rw [isFillWordIn, isFillWordIn, h]

/-- Setting the header bit of word `j` marks it as a fill word and no other. -/
theorem isFillWordIn_modifyWord_or (hwords : ℕ → UInt64) (j i : ℕ) :
    isFillWordIn (modifyWord hwords (j / bmHrlWordSize) (· ||| wordnoGetHeaderBit j)) i =
      (isFillWordIn hwords i || decide (i = j)) := by
  unfold bmHrlWordSize
  rw [isFillWordIn_eq_testBit, isFillWordIn_eq_testBit]
  by_cases hij : i / 64 = j / 64
  · rw [hij, modifyWord_self, UInt64.toNat_or, Nat.testBit_or, wordnoGetHeaderBit,
      toNat_one_shiftLeft (by omega), Nat.testBit_two_pow]
    have hiff : (63 - j % 64 = 63 - i % 64) ↔ i = j := by omega
    simp only [← hij, hiff]
  · rw [modifyWord_of_ne _ _ hij]
    have hne : i ≠ j := fun h => hij (h ▸ rfl)
    simp [hne]

theorem modifyWord_apply (words : ℕ → UInt64) (i : ℕ) (f : UInt64 → UInt64) (j : ℕ) :
    modifyWord words i f j = if j = i then f (words i) else words j := by
  by_cases h : j = i
  · subst h; simp
  · simp [h]

theorem isFillWordIn_eq_msbAt (hwords : ℕ → UInt64) (p : ℕ) :
    isFillWordIn hwords p = msbAt (hwords (p / bmHrlWordSize)) (p % bmHrlWordSize) :=
  isFillWordIn_eq_testBit hwords p

theorem isFillWordIn_word (words : ℕ → UInt64) {w r : ℕ} (hr : r < 64) :
    isFillWordIn words (64 * w + r) = msbAt (words w) r := by
  rw [isFillWordIn_eq_msbAt, show (64 * w + r) / bmHrlWordSize = w by unfold bmHrlWordSize; omega,
    show (64 * w + r) % bmHrlWordSize = r by unfold bmHrlWordSize; omega]

theorem isFillWordIn_sub (words : ℕ → UInt64) {w r n : ℕ} (hr : r < 64) (hn : n ≤ 64)
    (hw : n ≤ r ∨ 1 ≤ w) :
    isFillWordIn words (64 * w + r - n) =
      if n ≤ r then msbAt (words w) (r - n) else msbAt (words (w - 1)) (r + 64 - n) := by
  split_ifs with hnr
  · rw [show 64 * w + r - n = 64 * w + (r - n) by omega, isFillWordIn_word _ (by omega)]
  · rw [show 64 * w + r - n = 64 * (w - 1) + (r + 64 - n) by omega, isFillWordIn_word _ (by omega)]

/-- Clearing the header bit of word `j` marks it as a literal word and no other. -/
theorem isFillWordIn_modifyWord_and_not (hwords : ℕ → UInt64) (j i : ℕ) :
    isFillWordIn (modifyWord hwords (j / bmHrlWordSize) (· &&& ~~~wordnoGetHeaderBit j)) i =
      (isFillWordIn hwords i && !decide (i = j)) := by
  rw [isFillWordIn_eq_msbAt, isFillWordIn_eq_msbAt, bmHrlWordSize_eq]
  by_cases hij : i / 64 = j / 64
  · rw [hij, modifyWord_self, msbAt_and, msbAt_not _ (by omega), wordnoGetHeaderBit,
      msbAt_one_shiftLeft (by omega) (by omega)]
    have hiff : (i % 64 = j % 64) ↔ i = j := by omega
    simp only [hiff]
  · rw [modifyWord_of_ne _ _ hij]
    have hne : i ≠ j := fun h => hij (h ▸ rfl)
    simp [hne]

/-- Setting the header bit of a word of `words_left`, among its first 64. -/
theorem isFillWordIn_modifyWord_zero_or (hwords : ℕ → UInt64) {m : ℕ} (hm : m < bmHrlWordSize)
    (i : ℕ) :
    isFillWordIn (modifyWord hwords 0 (· ||| wordnoGetHeaderBit m)) i =
      (isFillWordIn hwords i || decide (i = m)) := by
  rw [show (0 : ℕ) = m / bmHrlWordSize from (Nat.div_eq_of_lt hm).symm,
    isFillWordIn_modifyWord_or]

/-! ## Shifting header bits -/

/-- The loop of `shift_header_bits` from word `wordNo` down to the word after `startWordNo`: each
word is shifted right by `numOfShiftingBits`, and the bits shifted out are OR-ed into the top of
the next word, when there is one. -/
def shiftHeaderBitsLoop (maxNumOfWords startWordNo numOfShiftingBits : ℕ) :
    ℕ → (ℕ → UInt64) → (ℕ → UInt64)
  | 0, words => words
  | wordNo + 1, words =>
    if wordNo + 1 > startWordNo then
      let tmpWord := words (wordNo + 1) <<< (bmHrlWordSize - numOfShiftingBits).toUInt64
      let words := modifyWord words (wordNo + 1) (· >>> numOfShiftingBits.toUInt64)
      let words :=
        if wordNo + 1 < maxNumOfWords - 1 then modifyWord words (wordNo + 2) (· ||| tmpWord)
        else words
      shiftHeaderBitsLoop maxNumOfWords startWordNo numOfShiftingBits wordNo words
    else words

/-- `shift_header_bits`: the bits of positions from `startLoc` on, of the first `numOfBits`,
shifted right by `numOfShiftingBits`; bits shifted past `maxNumOfWords` words are lost.
`numOfBits` is positive here. -/
def shiftHeaderBits (words : ℕ → UInt64) (numOfBits maxNumOfWords startLoc numOfShiftingBits : ℕ) :
    ℕ → UInt64 :=
  let startWordNo := startLoc / bmHrlWordSize
  let endWordNo := (numOfBits - 1) / bmHrlWordSize
  let words := shiftHeaderBitsLoop maxNumOfWords startWordNo numOfShiftingBits endWordNo words
  let s := startLoc % bmHrlWordSize
  -- the bits of the start word from `startLoc` on
  let tmpWord := (words startWordNo <<< s.toUInt64) >>> s.toUInt64
  let words := modifyWord words startWordNo fun w =>
    if s > 0 then (w >>> (bmHrlWordSize - s).toUInt64) <<< (bmHrlWordSize - s).toUInt64 else 0
  let numOfFinalShiftingBits :=
    if bmHrlWordSize - s < numOfShiftingBits then bmHrlWordSize - s else numOfShiftingBits
  let words := modifyWord words startWordNo (· ||| tmpWord >>> numOfFinalShiftingBits.toUInt64)
  if startWordNo < maxNumOfWords - 1 then
    let tmpWord := (tmpWord <<< (bmHrlWordSize - numOfFinalShiftingBits).toUInt64) >>>
      (numOfShiftingBits - numOfFinalShiftingBits).toUInt64
    modifyWord words (startWordNo + 1) (· ||| tmpWord)
  else words

/-! ## Inserting words -/

/-- The first loop of `insert_newwords`, from word `wordNo` down to `insertPos`: each word moves
right by `numNewWords`, into `words_left` when it passes the end of the page, where its header
bit goes too and is cleared in the page. -/
def moveWordsLoop (insertPos numNewWords : ℕ) :
    ℕ → BMTIDBuffer × BMTIDBuffer → BMTIDBuffer × BMTIDBuffer
  | 0, bufs => bufs
  | wordNo + 1, (words, wordsLeft) =>
    if wordNo ≥ insertPos then
      let bufs :=
        if wordNo + numNewWords ≥ words.numCwords then
          let n := wordNo + numNewWords - words.numCwords
          let wordsLeft := { wordsLeft with
            cwords := Function.update wordsLeft.cwords n (words.cwords wordNo) }
          if isFillWordIn words.hwords wordNo then
            let o := wordNo / bmHrlWordSize
            ({ words with hwords := modifyWord words.hwords o (· &&& ~~~wordnoGetHeaderBit wordNo) },
              { wordsLeft with hwords := modifyWord wordsLeft.hwords 0 (· ||| wordnoGetHeaderBit n) })
          else (words, wordsLeft)
        else
          ({ words with
            cwords := Function.update words.cwords (wordNo + numNewWords) (words.cwords wordNo) },
            wordsLeft)
      moveWordsLoop insertPos numNewWords wordNo bufs
    else (words, wordsLeft)

/-- One round of the second loop of `insert_newwords`: new word `wordNo` goes to its place in the
page, or to `words_left` with its header bit when its place is past the end of the page. -/
def insertWord (insertPos : ℕ) (newWords : BMTIDBuffer) (bufs : BMTIDBuffer × BMTIDBuffer)
    (wordNo : ℕ) : BMTIDBuffer × BMTIDBuffer :=
  let (words, wordsLeft) := bufs
  if insertPos + wordNo ≥ words.numCwords then
    let n := insertPos + wordNo - words.numCwords
    let wordsLeft := { wordsLeft with
      cwords := Function.update wordsLeft.cwords n (newWords.cwords wordNo) }
    if isFillWordIn newWords.hwords wordNo then
      (words, { wordsLeft with hwords := modifyWord wordsLeft.hwords 0 (· ||| wordnoGetHeaderBit n) })
    else (words, wordsLeft)
  else
    ({ words with cwords := Function.update words.cwords (insertPos + wordNo) (newWords.cwords wordNo) },
      wordsLeft)

/-- One round of the last loop of `insert_newwords`: the header bit of the new word at
`bitLoc`. -/
def setNewHeaderBit (insertPos : ℕ) (newWords : BMTIDBuffer) (hwords : ℕ → UInt64)
    (bitLoc : ℕ) : ℕ → UInt64 :=
  if isFillWordIn newWords.hwords (bitLoc - insertPos) then
    modifyWord hwords (bitLoc / bmHrlWordSize) (· ||| wordnoGetHeaderBit bitLoc)
  else hwords

/-- `insert_newwords`: the page after the new words are inserted at `insertPos`, and the words
pushed past its end. -/
def insertNewwords (words : BMTIDBuffer) (insertPos : ℕ) (newWords wordsLeft : BMTIDBuffer) :
    BMTIDBuffer × BMTIDBuffer :=
  let wordsLeft := { wordsLeft with curword := 0 }
  if words.curword = 0 then
    ({ words with
      cwords := copyWords words.cwords newWords.cwords newWords.curword
      hwords := copyWords words.hwords newWords.hwords (bmCalcHWords newWords.curword)
      curword := newWords.curword }, wordsLeft)
  else if insertPos = words.numCwords then
    (words, { wordsLeft with
      cwords := copyWords wordsLeft.cwords newWords.cwords newWords.curword
      hwords := copyWords wordsLeft.hwords newWords.hwords (bmCalcHWords newWords.curword)
      curword := newWords.curword })
  else
    let wordsLeft := { wordsLeft with
      curword := if words.curword + newWords.curword > words.numCwords
        then words.curword + newWords.curword - words.numCwords else 0
      hwords := fun _ => 0 }
    let bufs := moveWordsLoop insertPos newWords.curword words.curword (words, wordsLeft)
    let (words, wordsLeft) := (List.range newWords.curword).foldl (insertWord insertPos newWords) bufs
    let hwords := shiftHeaderBits words.hwords words.curword bmNumOfHeaderWords insertPos
      newWords.curword
    let lastLoc := min (insertPos + newWords.curword) words.numCwords
    let hwords := (List.range' insertPos (lastLoc - insertPos)).foldl
      (setNewHeaderBit insertPos newWords) hwords
    ({ words with
      hwords := hwords
      curword := words.curword + (newWords.curword - wordsLeft.curword) }, wordsLeft)

/-- The (content word, `IS_FILL_WORD`) pairs of the words in use. -/
def BMTIDBuffer.pairs (b : BMTIDBuffer) : List (UInt64 × Bool) :=
  (List.range b.curword).map fun i => (b.cwords i, isFillWordIn b.hwords i)

/-! ## What `shift_header_bits` does -/

/-- The words the loop of `shift_header_bits` leaves: the words from `wordNo` down to the one
after the start word are shifted right by `n`, each with the bits shifted out of the word before
it, but the start word's, at its top; the word after `wordNo` gets the bits shifted out of
`wordNo`. -/
theorem shiftHeaderBitsLoop_apply (maxNumOfWords startWordNo n : ℕ) :
    ∀ wordNo (words : ℕ → UInt64) (w : ℕ),
      shiftHeaderBitsLoop maxNumOfWords startWordNo n wordNo words w =
        if startWordNo < w ∧ w ≤ wordNo then
          words w >>> n.toUInt64 |||
            if startWordNo + 1 < w ∧ w < maxNumOfWords then
              words (w - 1) <<< (bmHrlWordSize - n).toUInt64
            else 0
        else if w = wordNo + 1 ∧ startWordNo < wordNo ∧ wordNo + 1 < maxNumOfWords then
          words w ||| words wordNo <<< (bmHrlWordSize - n).toUInt64
        else words w := by
  intro wordNo
  induction wordNo with
  | zero =>
    intro words w
    rw [if_neg (by omega), if_neg (by omega)]
    rfl
  | succ k ih =>
    intro words w
    rw [shiftHeaderBitsLoop]
    by_cases hk : k + 1 > startWordNo
    · rw [if_pos hk]
      rw [ih]
      have hstep : ∀ j, (if k + 1 < maxNumOfWords - 1 then
          modifyWord (modifyWord words (k + 1) fun x => x >>> n.toUInt64) (k + 1 + 1)
            fun x => x ||| words (k + 1) <<< (bmHrlWordSize - n).toUInt64
          else modifyWord words (k + 1) fun x => x >>> n.toUInt64) j =
          if j = k + 1 then words (k + 1) >>> n.toUInt64
          else if j = k + 2 ∧ k + 2 < maxNumOfWords then
            words j ||| words (k + 1) <<< (bmHrlWordSize - n).toUInt64
          else words j := by
        intro j
        split_ifs <;> simp_all [modifyWord_apply] <;> omega
      simp only [hstep]
      split_ifs <;> first | omega | simp_all
    · rw [if_neg hk, if_neg (by omega), if_neg (by omega)]

/-- The loop leaves the words up to the start word as they are. -/
theorem shiftHeaderBitsLoop_of_le {maxNumOfWords startWordNo numOfShiftingBits i : ℕ}
    (hi : i ≤ startWordNo) (wordNo : ℕ) (words : ℕ → UInt64) :
    shiftHeaderBitsLoop maxNumOfWords startWordNo numOfShiftingBits wordNo words i = words i := by
  rw [shiftHeaderBitsLoop_apply, if_neg (by omega), if_neg (by omega)]

/-- The start word after `shift_header_bits`: its bits before `startLoc` (bit `s` of the word),
then, `f` positions on, its bits from `startLoc` on. -/
theorem msbAt_startWord (y : UInt64) {s f r : ℕ} (hs : s < 64) (hf : 0 < f) (hf64 : f < 64)
    (hr : r < 64) :
    msbAt ((if s > 0 then (y >>> (64 - s).toUInt64) <<< (64 - s).toUInt64
        else 0) ||| ((y <<< s.toUInt64) >>> s.toUInt64) >>> f.toUInt64) r =
      (decide (r < s) && msbAt y r || decide (s + f ≤ r) && msbAt y (r - f)) := by
  rw [msbAt_or, msbAt_shiftRight _ hf64 hr]
  have htail : (decide (f ≤ r) && msbAt ((y <<< s.toUInt64) >>> s.toUInt64) (r - f)) =
      (decide (s + f ≤ r) && msbAt y (r - f)) := by
    by_cases hfr : f ≤ r
    · rw [msbAt_shiftRight _ hs (by omega), msbAt_shiftLeft _ hs (by omega)]
      by_cases hsr : s + f ≤ r
      · simp [hfr, hsr, show s ≤ r - f by omega, show r - f - s + s = r - f by omega,
          show r - f < 64 by omega]
      · simp [hsr, show ¬ s ≤ r - f by omega]
    · simp [hfr, show ¬ s + f ≤ r by omega]
  rw [htail]
  split_ifs with hspos
  · rw [msbAt_shiftLeft _ (by omega) hr]
    by_cases hrs : r < s
    · rw [msbAt_shiftRight _ (by omega) (by omega)]
      simp [hrs, show r + (64 - s) < 64 by omega, show r + (64 - s) - (64 - s) = r by omega]
    · simp [hrs, show ¬ r + (64 - s) < 64 by omega]
  · simp [show ¬ r < s by omega]

/-- The bits the start word of `shift_header_bits` carries into the next word. -/
theorem msbAt_carry (y : UInt64) {s f n r : ℕ} (hs : s < 64) (hf : 0 < f) (hfn : f ≤ n)
    (hn64 : n < 64) (hr : r < 64) :
    msbAt ((((y <<< s.toUInt64) >>> s.toUInt64) <<< (64 - f).toUInt64) >>>
        (n - f).toUInt64) r =
      (decide (n - f ≤ r ∧ r < n ∧ s + n ≤ r + 64) && msbAt y (r + 64 - n)) := by
  rw [msbAt_shiftRight _ (by omega) hr]
  by_cases hnf : n - f ≤ r
  · rw [msbAt_shiftLeft _ (by omega) (by omega)]
    by_cases hrn : r < n
    · rw [msbAt_shiftRight _ hs (by omega), msbAt_shiftLeft _ hs (by omega)]
      rw [show r - (n - f) + (64 - f) = r + 64 - n by omega]
      by_cases hsn : s + n ≤ r + 64
      · simp [hnf, hrn, hsn, show s ≤ r + 64 - n by omega,
          show r + 64 - n - s + s = r + 64 - n by omega, show r + 64 - n < 64 by omega]
      · simp [hsn, show ¬ s ≤ r + 64 - n by omega]
    · simp [hrn, show ¬ r - (n - f) + (64 - f) < 64 by omega]
  · simp [hnf]

section ShiftHeaderBits

variable {words : ℕ → UInt64} {numOfBits maxNumOfWords startLoc n : ℕ}

/-- The last steps of `shift_header_bits` change only the start word and the one after it. -/
theorem shiftHeaderBits_of_ne {w : ℕ} (hS : w ≠ startLoc / 64) (hS1 : w ≠ startLoc / 64 + 1) :
    shiftHeaderBits words numOfBits maxNumOfWords startLoc n w =
      shiftHeaderBitsLoop maxNumOfWords (startLoc / 64) n ((numOfBits - 1) / 64) words w := by
  by_cases hc : startLoc / 64 < maxNumOfWords - 1
  · simp only [shiftHeaderBits, bmHrlWordSize_eq, hc, if_true, modifyWord_of_ne _ _ hS1,
      modifyWord_of_ne _ _ hS]
  · simp only [shiftHeaderBits, bmHrlWordSize_eq, hc, if_false, modifyWord_of_ne _ _ hS]

/-- The start word after `shift_header_bits`: its bits before `startLoc`, OR-ed with its bits from
`startLoc` on shifted right as far as the word allows. -/
theorem shiftHeaderBits_startWord :
    shiftHeaderBits words numOfBits maxNumOfWords startLoc n (startLoc / 64) =
      ((if startLoc % 64 > 0 then
          (words (startLoc / 64) >>> (64 - startLoc % 64).toUInt64) <<<
            (64 - startLoc % 64).toUInt64
        else 0) |||
        ((words (startLoc / 64) <<< (startLoc % 64).toUInt64) >>> (startLoc % 64).toUInt64) >>>
          (if 64 - startLoc % 64 < n then 64 - startLoc % 64 else n).toUInt64) := by
  have hne : startLoc / 64 ≠ startLoc / 64 + 1 := by omega
  -- the loop leaves the start word; the `if`s keep their `Decidable` instances at
  -- `bmHrlWordSize`, which `rfl` identifies with those at `64`
  by_cases hc : startLoc / 64 < maxNumOfWords - 1
  · simp only [shiftHeaderBits, bmHrlWordSize_eq, hc, if_true, modifyWord_of_ne _ _ hne,
      modifyWord_self, shiftHeaderBitsLoop_of_le le_rfl]
    rfl
  · simp only [shiftHeaderBits, bmHrlWordSize_eq, hc, if_false, modifyWord_self,
      shiftHeaderBitsLoop_of_le le_rfl]
    rfl

/-- The word after the start word gets the bits the start word carries out. -/
theorem shiftHeaderBits_nextWord (h : startLoc / 64 + 1 < maxNumOfWords) :
    shiftHeaderBits words numOfBits maxNumOfWords startLoc n (startLoc / 64 + 1) =
      (shiftHeaderBitsLoop maxNumOfWords (startLoc / 64) n ((numOfBits - 1) / 64) words
          (startLoc / 64 + 1) |||
        ((((words (startLoc / 64) <<< (startLoc % 64).toUInt64) >>> (startLoc % 64).toUInt64) <<<
            (64 - if 64 - startLoc % 64 < n then 64 - startLoc % 64 else n).toUInt64) >>>
          (n - if 64 - startLoc % 64 < n then 64 - startLoc % 64 else n).toUInt64)) := by
  simp only [shiftHeaderBits, bmHrlWordSize_eq, if_pos (show startLoc / 64 < maxNumOfWords - 1 by
    omega), modifyWord_self, modifyWord_of_ne _ _ (show startLoc / 64 + 1 ≠ startLoc / 64 by omega),
    shiftHeaderBitsLoop_of_le le_rfl]
  rfl

/-- The header bits past the first `numOfBits`, word by word. -/
theorem msbAt_eq_false_of_clear
    (hclear : ∀ q, numOfBits ≤ q → q < 64 * maxNumOfWords → isFillWordIn words q = false)
    {w r : ℕ} (hr : r < 64) (hq : numOfBits ≤ 64 * w + r) (hw : w < maxNumOfWords) :
    msbAt (words w) r = false := by
  rw [← isFillWordIn_word _ hr]
  exact hclear _ hq (by omega)

/-- The bits of the start word: those before `startLoc` stay, those from `startLoc` on move `n`
positions on, or out of the word. -/
theorem isFillWordIn_shiftHeaderBits_startWord (hn : 0 < n) (hn64 : n < 64) {r : ℕ}
    (hr : r < 64) :
    isFillWordIn (shiftHeaderBits words numOfBits maxNumOfWords startLoc n)
        (64 * (startLoc / 64) + r) =
      if 64 * (startLoc / 64) + r < startLoc then isFillWordIn words (64 * (startLoc / 64) + r)
      else decide (startLoc + n ≤ 64 * (startLoc / 64) + r) &&
        isFillWordIn words (64 * (startLoc / 64) + r - n) := by
  rw [isFillWordIn_word _ hr, shiftHeaderBits_startWord]
  generalize hf : (if 64 - startLoc % 64 < n then 64 - startLoc % 64 else n) = f
  have hfpos : 0 < f := by split_ifs at hf <;> omega
  have hfn : f ≤ n := by split_ifs at hf <;> omega
  have hfcase : f = n ∨ startLoc % 64 + f = 64 := by split_ifs at hf <;> omega
  rw [msbAt_startWord _ (Nat.mod_lt _ (by norm_num)) hfpos (by omega) hr]
  by_cases hrs : r < startLoc % 64
  · rw [if_pos (by omega), isFillWordIn_word _ hr]
    simp [hrs, show ¬ startLoc % 64 + f ≤ r by omega]
  rw [if_neg (by omega)]
  rcases hfcase with rfl | hfs
  · -- the bits from `startLoc` on stay in the start word
    by_cases hsn : startLoc % 64 + f ≤ r
    · rw [isFillWordIn_sub _ hr (by omega) (.inl (by omega)), if_pos (by omega)]
      simp [hrs, hsn, show startLoc + f ≤ 64 * (startLoc / 64) + r by omega]
    · simp [hrs, hsn, show ¬ startLoc + f ≤ 64 * (startLoc / 64) + r by omega]
  · -- every bit from `startLoc` on leaves the start word
    simp [hrs, show ¬ startLoc % 64 + f ≤ r by omega,
      show ¬ startLoc + n ≤ 64 * (startLoc / 64) + r by omega]

/-- The bits of the word after the start word: those the loop shifts in it, and at its first `n`
positions those the start word carries out. -/
theorem isFillWordIn_shiftHeaderBits_nextWord (hn : 0 < n) (hn64 : n < 64)
    (hclear : ∀ q, numOfBits ≤ q → q < 64 * maxNumOfWords → isFillWordIn words q = false)
    {r : ℕ} (hr : r < 64) (hw : startLoc / 64 + 1 < maxNumOfWords) :
    isFillWordIn (shiftHeaderBits words numOfBits maxNumOfWords startLoc n)
        (64 * (startLoc / 64 + 1) + r) =
      (decide (startLoc + n ≤ 64 * (startLoc / 64 + 1) + r) &&
        isFillWordIn words (64 * (startLoc / 64 + 1) + r - n)) := by
  rw [isFillWordIn_word _ hr, shiftHeaderBits_nextWord hw,
    isFillWordIn_sub _ hr (by omega) (.inr (by omega))]
  generalize hf : (if 64 - startLoc % 64 < n then 64 - startLoc % 64 else n) = f
  have hfpos : 0 < f := by split_ifs at hf <;> omega
  have hfn : f ≤ n := by split_ifs at hf <;> omega
  have hfcase : f = n ∨ startLoc % 64 + f = 64 := by split_ifs at hf <;> omega
  rw [msbAt_or, msbAt_carry _ (Nat.mod_lt _ (by norm_num)) hfpos hfn hn64 hr]
  -- a bit of the start word lands at `r < n`, from `startLoc` on
  have hcarry : ¬ n ≤ r → decide (n - f ≤ r ∧ r < n ∧ startLoc % 64 + n ≤ r + 64) =
      decide (startLoc + n ≤ 64 * (startLoc / 64 + 1) + r) := fun hnr =>
    decide_eq_decide.mpr (by omega)
  rw [shiftHeaderBitsLoop_apply, bmHrlWordSize_eq]
  by_cases hE : startLoc / 64 + 1 ≤ (numOfBits - 1) / 64
  · -- a word the loop shifts, with nothing carried in from the start word
    rw [if_pos ⟨by omega, hE⟩, if_neg (by omega), UInt64.or_zero, msbAt_shiftRight _ hn64 hr]
    by_cases hnr : n ≤ r
    · simp [hnr, show ¬ r < n by omega, show startLoc + n ≤ 64 * (startLoc / 64 + 1) + r by omega]
    · rw [hcarry hnr]
      simp [hnr]
  · -- a word past the first `numOfBits`, whose bits are clear
    rw [if_neg (by omega), if_neg (by omega), msbAt_eq_false_of_clear hclear hr (by omega) hw]
    by_cases hnr : n ≤ r
    · simp [hnr, show ¬ r < n by omega,
        msbAt_eq_false_of_clear hclear (show r - n < 64 by omega) (by omega) hw]
    · rw [hcarry hnr]
      simp [hnr]

/-- The bits of a word further on: those the loop shifts in it, with those carried out of the
word before it. -/
theorem isFillWordIn_shiftHeaderBits_of_gt (hn : 0 < n) (hn64 : n < 64)
    (hclear : ∀ q, numOfBits ≤ q → q < 64 * maxNumOfWords → isFillWordIn words q = false)
    {w r : ℕ} (hr : r < 64) (hw : startLoc / 64 + 1 < w) (hwM : w < maxNumOfWords) :
    isFillWordIn (shiftHeaderBits words numOfBits maxNumOfWords startLoc n) (64 * w + r) =
      isFillWordIn words (64 * w + r - n) := by
  rw [isFillWordIn_word _ hr, shiftHeaderBits_of_ne (by omega) (by omega),
    isFillWordIn_sub _ hr (by omega) (.inr (by omega)), shiftHeaderBitsLoop_apply,
    bmHrlWordSize_eq]
  by_cases hE : w ≤ (numOfBits - 1) / 64
  · rw [if_pos ⟨by omega, hE⟩, if_pos ⟨by omega, hwM⟩, msbAt_or, msbAt_shiftRight _ hn64 hr,
      msbAt_shiftLeft _ (by omega) hr]
    by_cases hnr : n ≤ r
    · simp [hnr, show ¬ r + (64 - n) < 64 by omega]
    · simp [hnr, show r + (64 - n) = r + 64 - n by omega, show r + 64 - n < 64 by omega]
  rw [if_neg (by omega)]
  by_cases hE1 : w = (numOfBits - 1) / 64 + 1 ∧ startLoc / 64 < (numOfBits - 1) / 64 ∧
      (numOfBits - 1) / 64 + 1 < maxNumOfWords
  · -- the word after the last one shifted gets the bits carried out of it
    rw [if_pos hE1, msbAt_or, msbAt_eq_false_of_clear hclear hr (by omega) hwM,
      msbAt_shiftLeft _ (by omega) hr]
    by_cases hnr : n ≤ r
    · simp [hnr, show ¬ r + (64 - n) < 64 by omega,
        msbAt_eq_false_of_clear hclear (show r - n < 64 by omega) (by omega) hwM]
    · simp [hnr, show r + (64 - n) = r + 64 - n by omega, show r + 64 - n < 64 by omega,
        show (numOfBits - 1) / 64 = w - 1 by omega]
  · rw [if_neg hE1, msbAt_eq_false_of_clear hclear hr (by omega) hwM]
    by_cases hnr : n ≤ r
    · simp [hnr, msbAt_eq_false_of_clear hclear (show r - n < 64 by omega) (by omega) hwM]
    · simp [hnr, msbAt_eq_false_of_clear hclear (w := w - 1) (r := r + 64 - n) (by omega)
        (by omega) (by omega)]

/-- **`shift_header_bits` shifts the bits from `startLoc` on right by `n`**, across the header
words, for any `startLoc` and `0 < n < 64`, and clears the `n` positions it opens, when the bits
past the first `numOfBits` are clear: the bits it shifts past `maxNumOfWords` words are lost. -/
theorem isFillWordIn_shiftHeaderBits (hn : 0 < n) (hn64 : n < bmHrlWordSize)
    (hclear : ∀ q, numOfBits ≤ q → q < bmHrlWordSize * maxNumOfWords →
      isFillWordIn words q = false)
    {p : ℕ} (hp : p < bmHrlWordSize * maxNumOfWords) :
    isFillWordIn (shiftHeaderBits words numOfBits maxNumOfWords startLoc n) p =
      if p < startLoc then isFillWordIn words p
      else decide (startLoc + n ≤ p) && isFillWordIn words (p - n) := by
  rw [bmHrlWordSize_eq] at hn64 hp hclear
  obtain ⟨w, r, hr, rfl⟩ : ∃ w r, r < 64 ∧ p = 64 * w + r :=
    ⟨p / 64, p % 64, Nat.mod_lt _ (by norm_num), (Nat.div_add_mod p 64).symm⟩
  have hwM : w < maxNumOfWords := by omega
  rcases (show w < startLoc / 64 ∨ w = startLoc / 64 ∨ w = startLoc / 64 + 1 ∨
      startLoc / 64 + 1 < w by omega) with hw | rfl | rfl | hw
  · -- a word before the start word, which the shift leaves
    rw [if_pos (by omega), isFillWordIn_word _ hr, isFillWordIn_word _ hr,
      shiftHeaderBits_of_ne (by omega) (by omega), shiftHeaderBitsLoop_of_le (by omega)]
  · exact isFillWordIn_shiftHeaderBits_startWord hn hn64 hr
  · rw [if_neg (by omega)]
    exact isFillWordIn_shiftHeaderBits_nextWord hn hn64 hclear hr hwM
  · rw [if_neg (by omega), decide_eq_true (show startLoc + n ≤ 64 * w + r by omega),
      Bool.true_and]
    exact isFillWordIn_shiftHeaderBits_of_gt hn hn64 hclear hr hw hwM

end ShiftHeaderBits

/-! ## A shift by a whole word -/

/-- A shift by the word size is a shift by nothing. -/
theorem shiftRight_wordSize (w : UInt64) : w >>> bmHrlWordSize.toUInt64 = w := by
  apply UInt64.toNat_inj.1
  simp [UInt64.toNat_shiftRight, bmHrlWordSize]

theorem shiftLeft_shiftRight_zero (w : UInt64) :
    (w <<< (0 : ℕ).toUInt64) >>> (0 : ℕ).toUInt64 = w := by
  simp

/-- **A shift by 64 from a word boundary keeps the start word.** Shifting the `64` positions of
the start word right by `64` should empty it; but its bits are shifted by `64`, which the machine
takes as `0`, so they stay, and are also carried into the next word. -/
theorem shiftHeaderBits_sixtyFour_keeps_start_word (words : ℕ → UInt64)
    (numOfBits maxNumOfWords : ℕ) {startLoc : ℕ} (hs : startLoc % bmHrlWordSize = 0) :
    shiftHeaderBits words numOfBits maxNumOfWords startLoc bmHrlWordSize
      (startLoc / bmHrlWordSize) = words (startLoc / bmHrlWordSize) := by
  have hloop : shiftHeaderBitsLoop maxNumOfWords (startLoc / bmHrlWordSize) bmHrlWordSize
      ((numOfBits - 1) / bmHrlWordSize) words (startLoc / bmHrlWordSize) =
        words (startLoc / bmHrlWordSize) :=
    shiftHeaderBitsLoop_of_le le_rfl _ words
  have hne : startLoc / bmHrlWordSize ≠ startLoc / bmHrlWordSize + 1 := by omega
  simp only [shiftHeaderBits, hs, gt_iff_lt, Nat.lt_irrefl, if_false, Nat.sub_zero]
  split_ifs
  · rw [modifyWord_of_ne _ _ hne, modifyWord_self, modifyWord_self, hloop,
      shiftLeft_shiftRight_zero, shiftRight_wordSize, UInt64.zero_or]
  · rw [modifyWord_self, modifyWord_self, hloop, shiftLeft_shiftRight_zero, shiftRight_wordSize,
      UInt64.zero_or]

/-! ## The loops of `insert_newwords` -/

section Loops

variable (insertPos numNewWords : ℕ)

/-- What the first loop of `insert_newwords` leaves, from `words` and `wordsLeft`, having moved
the words from `wordNo - 1` down to `insertPos` right by `numNewWords`: in the page while they
fit, and into `words_left` with their header bits, cleared in the page, past its end. -/
structure MovedWords (wordNo : ℕ) (words wordsLeft : BMTIDBuffer) (r : BMTIDBuffer × BMTIDBuffer) :
    Prop where
  curword_eq : r.1.curword = words.curword
  numCwords_eq : r.1.numCwords = words.numCwords
  left_curword_eq : r.2.curword = wordsLeft.curword
  cwords_eq : ∀ j, r.1.cwords j =
    if insertPos + numNewWords ≤ j ∧ j < wordNo + numNewWords ∧ j < words.numCwords then
      words.cwords (j - numNewWords)
    else words.cwords j
  isFillWordIn_eq : ∀ p, isFillWordIn r.1.hwords p =
    (isFillWordIn words.hwords p &&
      !decide (insertPos ≤ p ∧ p < wordNo ∧ words.numCwords ≤ p + numNewWords))
  left_cwords_eq : ∀ m, r.2.cwords m =
    if insertPos + numNewWords ≤ words.numCwords + m ∧ words.numCwords + m < wordNo + numNewWords
    then words.cwords (words.numCwords + m - numNewWords)
    else wordsLeft.cwords m
  left_isFillWordIn_eq : ∀ m, isFillWordIn r.2.hwords m =
    (isFillWordIn wordsLeft.hwords m ||
      decide (insertPos + numNewWords ≤ words.numCwords + m ∧
        words.numCwords + m < wordNo + numNewWords) &&
        isFillWordIn words.hwords (words.numCwords + m - numNewWords))

/-- Before any word is moved. -/
theorem MovedWords.of_le {wordNo : ℕ} {words wordsLeft : BMTIDBuffer} (h : wordNo ≤ insertPos) :
    MovedWords insertPos numNewWords wordNo words wordsLeft (words, wordsLeft) :=
  ⟨rfl, rfl, rfl, fun _ => by rw [if_neg (by omega)], fun _ => by simp; omega,
    fun _ => by rw [if_neg (by omega)], fun _ => by simp; omega⟩

/-- One round of the first loop of `insert_newwords`: word `k` moved right by `numNewWords`, in
the page, or past its end into `words_left` with its header bit, cleared in the page. -/
structure MovesWord (k : ℕ) (words wordsLeft words' wordsLeft' : BMTIDBuffer) : Prop where
  curword_eq : words'.curword = words.curword
  numCwords_eq : words'.numCwords = words.numCwords
  left_curword_eq : wordsLeft'.curword = wordsLeft.curword
  cwords_eq : ∀ j, words'.cwords j =
    if j = k + numNewWords ∧ j < words.numCwords then words.cwords k else words.cwords j
  isFillWordIn_eq : ∀ p, isFillWordIn words'.hwords p =
    (isFillWordIn words.hwords p && !decide (p = k ∧ words.numCwords ≤ k + numNewWords))
  left_cwords_eq : ∀ m, wordsLeft'.cwords m =
    if words.numCwords + m = k + numNewWords then words.cwords k else wordsLeft.cwords m
  left_isFillWordIn_eq : ∀ m, isFillWordIn wordsLeft'.hwords m =
    (isFillWordIn wordsLeft.hwords m ||
      decide (words.numCwords + m = k + numNewWords) && isFillWordIn words.hwords k)

/-- The loop goes on from a round that moved word `k`. -/
theorem MovedWords.succ {k : ℕ} {words wordsLeft words' wordsLeft' : BMTIDBuffer}
    {r : BMTIDBuffer × BMTIDBuffer} (h : MovedWords insertPos numNewWords k words' wordsLeft' r)
    (hround : MovesWord numNewWords k words wordsLeft words' wordsLeft') (hk : insertPos ≤ k) :
    MovedWords insertPos numNewWords (k + 1) words wordsLeft r := by
  have hnum := hround.numCwords_eq
  refine ⟨h.curword_eq.trans hround.curword_eq, h.numCwords_eq.trans hnum,
    h.left_curword_eq.trans hround.left_curword_eq, fun j => ?_, fun p => ?_, fun m => ?_,
    fun m => ?_⟩
  · rw [h.cwords_eq, hround.cwords_eq, hround.cwords_eq, hnum]
    split_ifs <;> first | rfl | omega | (congr 1; omega)
  · rw [h.isFillWordIn_eq, hround.isFillWordIn_eq, hnum]
    cases isFillWordIn words.hwords p
    · rfl
    · rw [Bool.eq_iff_iff]
      simp only [Bool.true_and, Bool.and_eq_true, Bool.not_eq_true', decide_eq_false_iff_not]
      omega
  · rw [h.left_cwords_eq, hround.left_cwords_eq, hround.cwords_eq, hnum]
    split_ifs <;> first | rfl | omega | (congr 1; omega)
  · rw [h.left_isFillWordIn_eq, hround.left_isFillWordIn_eq, hround.isFillWordIn_eq, hnum]
    by_cases hmk : words.numCwords + m = k + numNewWords
    · -- the word this round moved
      rw [show words.numCwords + m - numNewWords = k by omega]
      simp [hmk, hk]
    · rw [decide_eq_false hmk, Bool.false_and, Bool.or_false]
      by_cases hc : insertPos + numNewWords ≤ words.numCwords + m ∧
          words.numCwords + m < k + numNewWords
      · rw [decide_eq_true hc, decide_eq_false (show ¬ (words.numCwords + m - numNewWords = k ∧
            words.numCwords ≤ k + numNewWords) by omega),
          decide_eq_true (show insertPos + numNewWords ≤ words.numCwords + m ∧
            words.numCwords + m < k + 1 + numNewWords by omega)]
        simp
      · rw [decide_eq_false hc, decide_eq_false (show ¬ (insertPos + numNewWords ≤
            words.numCwords + m ∧ words.numCwords + m < k + 1 + numNewWords) by omega)]
        simp

theorem moveWordsLoop_spec (hn : numNewWords ≤ bmHrlWordSize) (wordNo : ℕ) :
    ∀ words wordsLeft : BMTIDBuffer, wordNo ≤ words.numCwords →
      MovedWords insertPos numNewWords wordNo words wordsLeft
        (moveWordsLoop insertPos numNewWords wordNo (words, wordsLeft)) := by
  induction wordNo with
  | zero => exact fun _ _ _ => MovedWords.of_le _ _ (Nat.zero_le _)
  | succ k ih =>
    intro words wordsLeft hk
    rw [moveWordsLoop]
    by_cases hge : k ≥ insertPos
    swap
    · rw [if_neg hge]
      exact MovedWords.of_le _ _ (by omega)
    rw [if_pos hge]
    have hm : k + numNewWords - words.numCwords < bmHrlWordSize := by
      unfold bmHrlWordSize at hn ⊢
      omega
    split_ifs with hover hfill <;> dsimp only
    · -- word `k` passes the end of the page: into `words_left`, with its header bit
      refine (ih _ _ ?_).succ _ _
        ⟨rfl, rfl, rfl, fun j => ?_, fun p => ?_, fun m => ?_, fun m => ?_⟩ hge
      · exact (show k ≤ words.numCwords by omega)
      · exact (if_neg (by omega)).symm
      · simp [isFillWordIn_modifyWord_and_not, hover]
      · simp only [Function.update_apply]
        exact if_congr (by omega) rfl rfl
      · rw [isFillWordIn_modifyWord_zero_or _ hm, hfill, Bool.and_true]
        congr 1
        exact decide_eq_decide.mpr (by omega)
    · -- a literal word past the end of the page: no header bit to move
      rw [Bool.not_eq_true] at hfill
      refine (ih _ _ (by omega)).succ _ _
        ⟨rfl, rfl, rfl, fun j => ?_, fun p => ?_, fun m => ?_, fun m => ?_⟩ hge
      · exact (if_neg (by omega)).symm
      · by_cases hp : p = k
        · simp [hp, hfill]
        · simp [hp]
      · simp only [Function.update_apply]
        exact if_congr (by omega) rfl rfl
      · simp [hfill]
    · -- word `k` moves within the page
      refine (ih _ _ ?_).succ _ _
        ⟨rfl, rfl, rfl, fun j => ?_, fun p => ?_, fun m => ?_, fun m => ?_⟩ hge
      · exact (show k ≤ words.numCwords by omega)
      · simp only [Function.update_apply]
        exact if_congr (by omega) rfl rfl
      · rw [decide_eq_false (show ¬ (p = k ∧ words.numCwords ≤ k + numNewWords) by omega)]
        simp
      · exact (if_neg (by omega)).symm
      · rw [decide_eq_false (show ¬ words.numCwords + m = k + numNewWords by omega)]
        simp

/-- What the second loop of `insert_newwords` leaves, having put the new words `l`: each at its
place in the page, or past the end of the page into `words_left` with its header bit. -/
structure InsertedWords (newWords : BMTIDBuffer) (l : List ℕ) (words wordsLeft : BMTIDBuffer)
    (r : BMTIDBuffer × BMTIDBuffer) : Prop where
  curword_eq : r.1.curword = words.curword
  numCwords_eq : r.1.numCwords = words.numCwords
  hwords_eq : r.1.hwords = words.hwords
  left_curword_eq : r.2.curword = wordsLeft.curword
  cwords_eq : ∀ i, r.1.cwords i =
    if insertPos ≤ i ∧ i - insertPos ∈ l ∧ i < words.numCwords then newWords.cwords (i - insertPos)
    else words.cwords i
  left_cwords_eq : ∀ m, r.2.cwords m =
    if insertPos ≤ words.numCwords + m ∧ words.numCwords + m - insertPos ∈ l then
      newWords.cwords (words.numCwords + m - insertPos)
    else wordsLeft.cwords m
  left_isFillWordIn_eq : ∀ m, isFillWordIn r.2.hwords m =
    (isFillWordIn wordsLeft.hwords m ||
      decide (insertPos ≤ words.numCwords + m ∧ words.numCwords + m - insertPos ∈ l) &&
        isFillWordIn newWords.hwords (words.numCwords + m - insertPos))

/-- One round of the second loop of `insert_newwords`: new word `j` at its place, in the page or
past its end in `words_left` with its header bit. -/
structure InsertsWord (newWords : BMTIDBuffer) (j : ℕ) (words wordsLeft words' wordsLeft' : BMTIDBuffer) :
    Prop where
  curword_eq : words'.curword = words.curword
  numCwords_eq : words'.numCwords = words.numCwords
  hwords_eq : words'.hwords = words.hwords
  left_curword_eq : wordsLeft'.curword = wordsLeft.curword
  cwords_eq : ∀ i, words'.cwords i =
    if i = insertPos + j ∧ i < words.numCwords then newWords.cwords j else words.cwords i
  left_cwords_eq : ∀ m, wordsLeft'.cwords m =
    if words.numCwords + m = insertPos + j then newWords.cwords j else wordsLeft.cwords m
  left_isFillWordIn_eq : ∀ m, isFillWordIn wordsLeft'.hwords m =
    (isFillWordIn wordsLeft.hwords m ||
      decide (words.numCwords + m = insertPos + j) && isFillWordIn newWords.hwords j)

/-- The loop goes on from a round that put new word `j`. -/
theorem InsertedWords.cons {newWords : BMTIDBuffer} {j : ℕ} {l : List ℕ}
    {words wordsLeft words' wordsLeft' : BMTIDBuffer} {r : BMTIDBuffer × BMTIDBuffer}
    (h : InsertedWords insertPos newWords l words' wordsLeft' r)
    (hround : InsertsWord insertPos newWords j words wordsLeft words' wordsLeft') :
    InsertedWords insertPos newWords (j :: l) words wordsLeft r := by
  have hnum := hround.numCwords_eq
  refine ⟨h.curword_eq.trans hround.curword_eq, h.numCwords_eq.trans hnum,
    h.hwords_eq.trans hround.hwords_eq, h.left_curword_eq.trans hround.left_curword_eq,
    fun i => ?_, fun m => ?_, fun m => ?_⟩
  · rw [h.cwords_eq, hround.cwords_eq, hnum]
    by_cases hi : i = insertPos + j ∧ i < words.numCwords
    · -- the place of word `j`, whether a later round puts it again or not
      rw [if_pos hi, show i - insertPos = j by omega,
        if_pos (show insertPos ≤ i ∧ j ∈ j :: l ∧ i < words.numCwords from
          ⟨by omega, List.mem_cons_self, hi.2⟩)]
      exact ite_self _
    · rw [if_neg hi]
      refine if_congr ?_ rfl rfl
      by_cases hmem : i - insertPos ∈ l
      · simp [hmem]
      · simp [hmem]
        omega
  · rw [h.left_cwords_eq, hround.left_cwords_eq, hnum]
    by_cases hm : words.numCwords + m = insertPos + j
    · rw [if_pos hm, show words.numCwords + m - insertPos = j by omega,
        if_pos (show insertPos ≤ words.numCwords + m ∧ j ∈ j :: l from
          ⟨by omega, List.mem_cons_self⟩)]
      exact ite_self _
    · rw [if_neg hm]
      refine if_congr ?_ rfl rfl
      by_cases hmem : words.numCwords + m - insertPos ∈ l
      · simp [hmem]
      · simp [hmem]
        omega
  · rw [h.left_isFillWordIn_eq, hround.left_isFillWordIn_eq, hnum]
    by_cases hm : words.numCwords + m = insertPos + j
    · rw [show words.numCwords + m - insertPos = j by omega, decide_eq_true hm,
        decide_eq_true (show insertPos ≤ words.numCwords + m ∧ j ∈ j :: l from
          ⟨by omega, List.mem_cons_self⟩)]
      cases isFillWordIn wordsLeft.hwords m <;> cases isFillWordIn newWords.hwords j <;> simp
    · rw [decide_eq_false hm, Bool.false_and, Bool.or_false]
      by_cases hmem : words.numCwords + m - insertPos ∈ l
      · simp [hmem]
      · simp [hmem]
        omega

theorem foldl_insertWord_spec (newWords : BMTIDBuffer) (l : List ℕ)
    (hl : ∀ j ∈ l, j < bmHrlWordSize) :
    ∀ bufs : BMTIDBuffer × BMTIDBuffer, insertPos ≤ bufs.1.numCwords →
      InsertedWords insertPos newWords l bufs.1 bufs.2
        (l.foldl (insertWord insertPos newWords) bufs) := by
  induction l with
  | nil =>
    intro bufs _
    exact ⟨rfl, rfl, rfl, rfl, fun _ => by simp, fun _ => by simp, fun _ => by simp⟩
  | cons j l ih =>
    rintro ⟨words, wordsLeft⟩ (hpos : insertPos ≤ words.numCwords)
    have hj : insertPos + j - words.numCwords < bmHrlWordSize := by
      have := hl j List.mem_cons_self
      omega
    have ih' := ih fun j' hj' => hl j' (List.mem_cons_of_mem j hj')
    rw [List.foldl_cons, insertWord]
    dsimp only
    split_ifs with hover hfill
    · -- the new word passes the end of the page, with its header bit
      refine (ih' _ ?_).cons _
        ⟨rfl, rfl, rfl, rfl, fun i => (if_neg (show ¬ (i = insertPos + j ∧
          i < words.numCwords) by omega)).symm, fun m => ?_, fun m => ?_⟩
      · exact hpos
      · simp only [Function.update_apply]
        exact if_congr (by omega) rfl rfl
      · rw [isFillWordIn_modifyWord_zero_or _ hj, hfill, Bool.and_true]
        congr 1
        exact decide_eq_decide.mpr (by omega)
    · -- a new literal word past the end of the page
      rw [Bool.not_eq_true] at hfill
      refine (ih' _ ?_).cons _
        ⟨rfl, rfl, rfl, rfl, fun i => (if_neg (show ¬ (i = insertPos + j ∧
          i < words.numCwords) by omega)).symm, fun m => ?_, fun m => ?_⟩
      · exact hpos
      · simp only [Function.update_apply]
        exact if_congr (by omega) rfl rfl
      · simp [hfill]
    · -- the new word in the page
      refine (ih' _ ?_).cons _
        ⟨rfl, rfl, rfl, rfl, fun i => ?_, fun m => (if_neg (show ¬ words.numCwords + m =
          insertPos + j by omega)).symm, fun m => ?_⟩
      · exact hpos
      · simp only [Function.update_apply]
        exact if_congr (by omega) rfl rfl
      · rw [decide_eq_false (show ¬ words.numCwords + m = insertPos + j by omega)]
        simp

/-- The last loop sets the header bits of the new words at the positions `locs`. -/
theorem isFillWordIn_foldl_setNewHeaderBit (newWords : BMTIDBuffer) (locs : List ℕ)
    (hwords : ℕ → UInt64) (i : ℕ) :
    isFillWordIn (locs.foldl (setNewHeaderBit insertPos newWords) hwords) i =
      (isFillWordIn hwords i || decide (i ∈ locs) && isFillWordIn newWords.hwords (i - insertPos)) := by
  induction locs generalizing hwords with
  | nil => simp
  | cons b locs ih =>
    rw [List.foldl_cons, ih, setNewHeaderBit]
    by_cases hib : i = b
    · subst hib
      split_ifs with hnew <;> simp [isFillWordIn_modifyWord_or, hnew]
    · split_ifs <;> simp [isFillWordIn_modifyWord_or, hib]

end Loops

/-- The last branch of `insert_newwords`, at a position before the end of a page with words in
use: the page and `words_left` as its first two loops leave them, the page's header bits then
shifted right past the new words and the new words' bits set. -/
theorem insertNewwords_eq_of_ne (words newWords wordsLeft : BMTIDBuffer) (insertPos : ℕ)
    (hcur : 0 < words.curword) (hend : insertPos ≠ words.numCwords)
    (hcurle : words.curword ≤ words.numCwords) (hpos : insertPos ≤ words.numCwords)
    (hk : newWords.curword ≤ bmHrlWordSize) :
    ∃ bufs₁ bufs₂ : BMTIDBuffer × BMTIDBuffer,
      MovedWords insertPos newWords.curword words.curword words
        { wordsLeft with
          curword := if words.curword + newWords.curword > words.numCwords
            then words.curword + newWords.curword - words.numCwords else 0
          hwords := fun _ => 0 } bufs₁ ∧
      InsertedWords insertPos newWords (List.range newWords.curword) bufs₁.1 bufs₁.2 bufs₂ ∧
      insertNewwords words insertPos newWords wordsLeft =
        ({ bufs₂.1 with
          hwords := (List.range' insertPos
              (min (insertPos + newWords.curword) bufs₂.1.numCwords - insertPos)).foldl
            (setNewHeaderBit insertPos newWords)
            (shiftHeaderBits bufs₂.1.hwords bufs₂.1.curword bmNumOfHeaderWords insertPos
              newWords.curword)
          curword := bufs₂.1.curword + (newWords.curword - bufs₂.2.curword) }, bufs₂.2) := by
  have hmove := moveWordsLoop_spec insertPos newWords.curword hk words.curword words
    { wordsLeft with
      curword := if words.curword + newWords.curword > words.numCwords
        then words.curword + newWords.curword - words.numCwords else 0
      hwords := fun _ => 0 } hcurle
  have hins := foldl_insertWord_spec insertPos newWords (List.range newWords.curword)
    (fun j hj => by rw [List.mem_range] at hj; omega) _ (by rw [hmove.numCwords_eq]; exact hpos)
  refine ⟨_, _, hmove, hins, ?_⟩
  simp only [insertNewwords, if_neg (show words.curword ≠ 0 by omega), if_neg hend]

/-! ## Inserting fewer than 64 words -/

/-- The (content word, header bit) pair at position `i` of the page's words with the new words
inserted at `insertPos`. -/
def insertedPair (words newWords : BMTIDBuffer) (insertPos i : ℕ) : UInt64 × Bool :=
  if i < insertPos then (words.cwords i, isFillWordIn words.hwords i)
  else if i < insertPos + newWords.curword then
    (newWords.cwords (i - insertPos), isFillWordIn newWords.hwords (i - insertPos))
  else (words.cwords (i - newWords.curword), isFillWordIn words.hwords (i - newWords.curword))

/-- The pairs with the new words' inserted at `insertPos`, position by position. -/
theorem take_append_append_drop_pairs (words newWords : BMTIDBuffer) {insertPos : ℕ}
    (hpos : insertPos ≤ words.curword) :
    words.pairs.take insertPos ++ newWords.pairs ++ words.pairs.drop insertPos =
      (List.range (words.curword + newWords.curword)).map (insertedPair words newWords insertPos) := by
  apply List.ext_getElem
  · simp [BMTIDBuffer.pairs]
    omega
  · intro i h₁ h₂
    simp only [BMTIDBuffer.pairs, List.getElem_append, List.getElem_take, List.getElem_drop,
      List.getElem_map, List.getElem_range, List.length_append, List.length_take,
      List.length_map, List.length_range, insertedPair]
    split_ifs <;> first | rfl | omega | (congr 2 <;> omega)

/-- What `insert_newwords` leaves: the page holds the first words of the inserted list, as many
as fit, and `words_left` the rest. -/
structure InsertsPairs (words newWords : BMTIDBuffer) (insertPos : ℕ)
    (r : BMTIDBuffer × BMTIDBuffer) : Prop where
  curword_eq : r.1.curword = min words.numCwords (words.curword + newWords.curword)
  curword_add : r.1.curword + r.2.curword = words.curword + newWords.curword
  pair_eq : ∀ i < r.1.curword,
    (r.1.cwords i, isFillWordIn r.1.hwords i) = insertedPair words newWords insertPos i
  left_pair_eq : ∀ m < r.2.curword, (r.2.cwords m, isFillWordIn r.2.hwords m) =
    insertedPair words newWords insertPos (r.1.curword + m)

theorem InsertsPairs.pairs {words newWords : BMTIDBuffer} {insertPos : ℕ}
    {r : BMTIDBuffer × BMTIDBuffer} (h : InsertsPairs words newWords insertPos r) :
    r.1.pairs ++ r.2.pairs =
      (List.range (words.curword + newWords.curword)).map (insertedPair words newWords insertPos) := by
  rw [← h.curword_add, List.range_add, List.map_append, BMTIDBuffer.pairs, BMTIDBuffer.pairs,
    List.map_map]
  congr 1
  · exact List.map_congr_left fun i hi => h.pair_eq i (List.mem_range.mp hi)
  · exact List.map_congr_left fun m hm => h.left_pair_eq m (List.mem_range.mp hm)

/-- **`insert_newwords` inserts the new words**, for the pages and new words its callers pass: a
page of `BM_NUM_OF_HRL_WORDS_PER_PAGE` words with at least one in use and the header bits past
those clear, a position among them, and between 1 and 63 new words. -/
theorem insertNewwords_spec (words newWords wordsLeft : BMTIDBuffer) {insertPos : ℕ}
    (hnum : words.numCwords = bmNumOfHrlWordsPerPage) (hcur : 0 < words.curword)
    (hcurle : words.curword ≤ words.numCwords) (hpos : insertPos ≤ words.curword)
    (hk : 0 < newWords.curword) (hk64 : newWords.curword < bmHrlWordSize)
    (hclear : ∀ p, words.curword ≤ p → p < words.numCwords →
      isFillWordIn words.hwords p = false) :
    InsertsPairs words newWords insertPos (insertNewwords words insertPos newWords wordsLeft) := by
  have h64 : bmHrlWordSize = 64 := rfl
  have hN : bmNumOfHrlWordsPerPage = 64 * bmNumOfHeaderWords := by decide
  by_cases hend : insertPos = words.numCwords
  · -- a position past the last word of the page: the new words all go to `words_left`
    simp only [insertNewwords, if_neg (show words.curword ≠ 0 by omega), if_pos hend]
    refine ⟨by simp only; omega, rfl, fun i (hi : i < words.curword) => ?_,
      fun m (hm : m < newWords.curword) => ?_⟩
    · rw [insertedPair, if_pos (by omega)]
    · show _ = insertedPair words newWords insertPos (words.curword + m)
      have hm0 : m / bmHrlWordSize = 0 := by rw [h64]; omega
      rw [insertedPair, if_neg (by omega), if_pos (by omega),
        show words.curword + m - insertPos = m by omega]
      simp only [copyWords, if_pos hm]
      congr 1
      apply isFillWordIn_congr
      rw [hm0, copyWords, if_pos (by unfold bmCalcHWords; rw [h64]; split_ifs <;> omega)]
  · obtain ⟨bufs₁, bufs₂, hmove, hins, heq⟩ :=
      insertNewwords_eq_of_ne words newWords wordsLeft insertPos hcur hend hcurle (by omega) hk64.le
    rw [heq]
    have hn₁ := hmove.numCwords_eq
    have hc₂ : bufs₂.1.curword = words.curword := hins.curword_eq.trans hmove.curword_eq
    have hn₂ : bufs₂.1.numCwords = words.numCwords := hins.numCwords_eq.trans hn₁
    have hl₂ : bufs₂.2.curword = words.curword + newWords.curword - words.numCwords := by
      rw [hins.left_curword_eq, hmove.left_curword_eq]
      dsimp only
      split_ifs <;> omega
    have hM : bmHrlWordSize * bmNumOfHeaderWords = words.numCwords := by rw [hnum, hN, h64]
    -- the header bits past the words in use stay clear, as `shift_header_bits` needs
    have hclear₂ : ∀ q, bufs₂.1.curword ≤ q → q < bmHrlWordSize * bmNumOfHeaderWords →
        isFillWordIn bufs₂.1.hwords q = false := by
      intro q hq hq'
      rw [hins.hwords_eq, hmove.isFillWordIn_eq, hclear q (by omega) (by omega), Bool.false_and]
    rw [hc₂, hn₂] at *
    refine ⟨by simp only; omega, by simp only; omega,
      fun i (hi : i < words.curword + (newWords.curword - bufs₂.2.curword)) => ?_,
      fun m (hm : m < bufs₂.2.curword) => ?_⟩
    · -- a word of the page
      show (bufs₂.1.cwords i, _) = _
      rw [isFillWordIn_foldl_setNewHeaderBit,
        isFillWordIn_shiftHeaderBits hk hk64 hclear₂ (by omega), hins.hwords_eq,
        hmove.isFillWordIn_eq, hmove.isFillWordIn_eq, hins.cwords_eq, hmove.cwords_eq, hn₁,
        insertedPair]
      simp only [List.mem_range, List.mem_range'_1]
      rcases (show i < insertPos ∨ (insertPos ≤ i ∧ i < insertPos + newWords.curword) ∨
          insertPos + newWords.curword ≤ i by omega) with h | h | h
      · -- a word before the new words
        simp [h, show ¬ insertPos ≤ i by omega, show ¬ insertPos + newWords.curword ≤ i by omega]
      · -- a new word, whose header bit the shift cleared and the last loop sets
        simp [h, show ¬ i < insertPos by omega, show i - insertPos < newWords.curword by omega,
          show i < words.numCwords by omega, show ¬ insertPos + newWords.curword ≤ i by omega,
          show i < insertPos + (min (insertPos + newWords.curword) words.numCwords - insertPos) by
            omega]
      · -- a word moved right, with its header bit
        simp [h, show ¬ i < insertPos by omega, show ¬ i - insertPos < newWords.curword by omega,
          show i < words.curword + newWords.curword by omega, show i < words.numCwords by omega,
          show ¬ words.numCwords ≤ i - newWords.curword + newWords.curword by omega,
          show ¬ i < insertPos + (min (insertPos + newWords.curword) words.numCwords - insertPos) by
            omega]
    · -- a word pushed past the end of the page, now in `words_left`
      show (bufs₂.2.cwords m, isFillWordIn bufs₂.2.hwords m) =
        insertedPair words newWords insertPos (words.curword + (newWords.curword - bufs₂.2.curword) + m)
      rw [show words.curword + (newWords.curword - bufs₂.2.curword) = words.numCwords by omega,
        hins.left_cwords_eq, hins.left_isFillWordIn_eq, hmove.left_cwords_eq,
        hmove.left_isFillWordIn_eq, hn₁, insertedPair]
      simp only [List.mem_range]
      rcases (show words.numCwords + m < insertPos + newWords.curword ∨
          insertPos + newWords.curword ≤ words.numCwords + m by omega) with h | h
      · -- a new word
        simp [h, show ¬ words.numCwords + m < insertPos by omega,
          show insertPos ≤ words.numCwords + m by omega,
          show words.numCwords + m - insertPos < newWords.curword by omega,
          show ¬ insertPos + newWords.curword ≤ words.numCwords + m by omega]
      · -- a word of the page moved past its end
        simp [h, show ¬ words.numCwords + m < insertPos by omega,
          show ¬ words.numCwords + m - insertPos < newWords.curword by omega,
          show words.numCwords + m < words.curword + newWords.curword by omega,
          show ¬ words.numCwords + m < insertPos + newWords.curword by omega]

/-- **Inserting words keeps content words and header bits in step.** For a page of
`BM_NUM_OF_HRL_WORDS_PER_PAGE` words with `0 < curword` of them in use and the header bits past
those clear, a position `insertPos ≤ curword` and `0 < n < 64` new words, `insert_newwords` leaves
the pairs of content word and header bit of the page followed by those of `words_left` equal to
the page's pairs with the new words' inserted at `insertPos`, and `min num_cwords (curword + n)`
words in the page; for any `startLoc`, `shift_header_bits` moves the page's header bits from
`startLoc` on right by `n`. -/
theorem insertNewwords_inserts_pairs (words newWords wordsLeft : BMTIDBuffer) {insertPos : ℕ}
    (hnum : words.numCwords = bmNumOfHrlWordsPerPage) (hcur : 0 < words.curword)
    (hcurle : words.curword ≤ words.numCwords) (hpos : insertPos ≤ words.curword)
    (hk : 0 < newWords.curword) (hk64 : newWords.curword < bmHrlWordSize)
    (hclear : ∀ p, words.curword ≤ p → p < words.numCwords →
      isFillWordIn words.hwords p = false) :
    (insertNewwords words insertPos newWords wordsLeft).1.pairs ++
        (insertNewwords words insertPos newWords wordsLeft).2.pairs =
      words.pairs.take insertPos ++ newWords.pairs ++ words.pairs.drop insertPos ∧
    (insertNewwords words insertPos newWords wordsLeft).1.curword =
      min words.numCwords (words.curword + newWords.curword) ∧
    ∀ startLoc p, p < words.numCwords →
      isFillWordIn (shiftHeaderBits words.hwords words.curword bmNumOfHeaderWords startLoc
        newWords.curword) p =
      if p < startLoc then isFillWordIn words.hwords p
      else decide (startLoc + newWords.curword ≤ p) &&
        isFillWordIn words.hwords (p - newWords.curword) := by
  have hspec := insertNewwords_spec words newWords wordsLeft hnum hcur hcurle hpos hk hk64 hclear
  have hM : bmHrlWordSize * bmNumOfHeaderWords = words.numCwords := by rw [hnum]; decide
  refine ⟨hspec.pairs.trans (take_append_append_drop_pairs words newWords hpos).symm,
    hspec.curword_eq, fun startLoc p hp => ?_⟩
  exact isFillWordIn_shiftHeaderBits hk hk64 (fun q hq hq' => hclear q hq (hM ▸ hq')) (hM ▸ hp)

/-- A page of three words in use, the second of them a fill word. -/
def threeWordPage : BMTIDBuffer :=
  ⟨3, bmNumOfHrlWordsPerPage,
    modifyWord (fun _ => 0) (1 / bmHrlWordSize) (· ||| wordnoGetHeaderBit 1),
    fun i => if i = 1 then bmMakeFillWord 0 5 else 7⟩

/-- Two new literal words. -/
def twoNewWords : BMTIDBuffer := ⟨2, bmNumOfHrlWordsPerPage, fun _ => 0, fun _ => 9⟩

theorem threeWordPage_clear (p : ℕ) (hp : threeWordPage.curword ≤ p) :
    isFillWordIn threeWordPage.hwords p = false := by
  have hp1 : p ≠ 1 := by
    have : 3 ≤ p := hp
    omega
  rw [threeWordPage, isFillWordIn_modifyWord_or]
  simp [isFillWordIn, hp1]

theorem insertNewwords_inserts_pairs_three_words :
    threeWordPage.numCwords = bmNumOfHrlWordsPerPage ∧ 0 < threeWordPage.curword ∧
    threeWordPage.curword ≤ threeWordPage.numCwords ∧ 1 ≤ threeWordPage.curword ∧
    0 < twoNewWords.curword ∧ twoNewWords.curword < bmHrlWordSize ∧
    (∀ p, threeWordPage.curword ≤ p → p < threeWordPage.numCwords →
      isFillWordIn threeWordPage.hwords p = false) ∧
    ((insertNewwords threeWordPage 1 twoNewWords twoNewWords).1.pairs ++
        (insertNewwords threeWordPage 1 twoNewWords twoNewWords).2.pairs =
      threeWordPage.pairs.take 1 ++ twoNewWords.pairs ++ threeWordPage.pairs.drop 1 ∧
    (insertNewwords threeWordPage 1 twoNewWords twoNewWords).1.curword =
      min threeWordPage.numCwords (threeWordPage.curword + twoNewWords.curword) ∧
    ∀ startLoc p, p < threeWordPage.numCwords →
      isFillWordIn (shiftHeaderBits threeWordPage.hwords threeWordPage.curword bmNumOfHeaderWords
        startLoc twoNewWords.curword) p =
      if p < startLoc then isFillWordIn threeWordPage.hwords p
      else decide (startLoc + twoNewWords.curword ≤ p) &&
        isFillWordIn threeWordPage.hwords (p - twoNewWords.curword)) :=
  ⟨rfl, by decide, by decide, by decide, by decide, by decide,
    fun p hp _ => threeWordPage_clear p hp,
    insertNewwords_inserts_pairs threeWordPage twoNewWords twoNewWords rfl (by decide) (by decide)
      (by decide) (by decide) (by decide) fun p hp _ => threeWordPage_clear p hp⟩

/-! ## Inserting 64 words at a word boundary -/

/-- **Inserting 64 words at a word boundary keeps the old header bit.** When 64 new words are
inserted at a position `insertPos` that starts a header word, and no word passes the end of the
page, the first new word takes the place of the word that was at `insertPos`, but its header bit
is the old word's bit OR-ed with its own: a new literal word that replaces a fill word is marked
as a fill word. -/
theorem insertNewwords_keeps_old_header_bit (words newWords wordsLeft : BMTIDBuffer)
    {insertPos : ℕ} (hcur : 0 < words.curword) (hpos : insertPos ≤ words.curword)
    (hk : newWords.curword = bmHrlWordSize) (hfit : words.curword + bmHrlWordSize ≤ words.numCwords)
    (hmod : insertPos % bmHrlWordSize = 0) :
    (insertNewwords words insertPos newWords wordsLeft).1.cwords insertPos = newWords.cwords 0 ∧
      isFillWordIn (insertNewwords words insertPos newWords wordsLeft).1.hwords insertPos =
        (isFillWordIn words.hwords insertPos || isFillWordIn newWords.hwords 0) := by
  have h64 : bmHrlWordSize = 64 := rfl
  obtain ⟨bufs₁, bufs₂, hmove, hins, heq⟩ := insertNewwords_eq_of_ne words newWords wordsLeft
    insertPos hcur (by omega) (by omega) (by omega) hk.le
  rw [heq]
  have hn₂ : bufs₂.1.numCwords = words.numCwords := hins.numCwords_eq.trans hmove.numCwords_eq
  refine ⟨?_, ?_⟩
  · show bufs₂.1.cwords insertPos = _
    rw [hins.cwords_eq, if_pos ⟨le_rfl, by simp [hk, h64], by rw [hmove.numCwords_eq]; omega⟩,
      Nat.sub_self]
  · -- the shift leaves the start word, and the last loop ORs in the first new word's bit
    have hmem : insertPos ∈ List.range' insertPos
        (min (insertPos + newWords.curword) bufs₂.1.numCwords - insertPos) := by
      rw [List.mem_range'_1, hn₂]
      omega
    show isFillWordIn (List.foldl _ (shiftHeaderBits bufs₂.1.hwords _ _ insertPos
      newWords.curword) _) insertPos = _
    rw [isFillWordIn_foldl_setNewHeaderBit, hk,
      isFillWordIn_congr (shiftHeaderBits_sixtyFour_keeps_start_word _ _ _ hmod), hins.hwords_eq,
      hmove.isFillWordIn_eq, decide_eq_false (show ¬ (insertPos ≤ insertPos ∧ insertPos < words.curword ∧
        words.numCwords ≤ insertPos + newWords.curword) by omega), Nat.sub_self, ← hk,
      decide_eq_true hmem, Bool.not_false, Bool.and_true, Bool.true_and]

end Cloudberry.Bitmap.Insert
