import Cloudberry.Bitmap.Hrl

/-!
# Reading the tids out of a batch of bitmap words

`_bitmap_findnexttids` decodes a batch of HRL words into the tids of its set bits, a bounded
number at a time. It can stop in the middle of a literal word (remembering the scan position in
`lastScanPos`), in the middle of a fill word of ones (shortening the fill word in place and moving
`firstTid` on), or between two words; `_bitmap_findnexttid` hands the tids out one by one, and
`_bitmap_catchup_to_next_tid` skips the words before the tid that a scan wants next.

The loops are modelled with fuel: one iteration more than there are words for the loops over words,
and 65 for the loop over the set bits of a literal word.
-/

namespace Cloudberry.Bitmap

/-- `BMBatchWords`: a batch of consecutive content words of a bitmap vector, with its header words
(`maxNumOfWords`, `nwordsread` and `nextread`, which the iteration does not read, are left out). -/
structure BMBatchWords where
  firstTid : UInt64
  startNo : ℕ
  nwords : ℕ
  hwords : List UInt64
  cwords : List UInt64
  deriving DecidableEq, Repr

/-- `BMIterateResult`: where the scan of a batch stands, and the tids found by the last call of
`_bitmap_findnexttids` (the array's entries from `numOfTids` on are never read, and are left out). -/
structure BMIterateResult where
  nextTid : UInt64
  lastScanPos : ℕ
  lastScanWordNo : ℕ
  nextTids : List UInt64
  numOfTids : ℕ
  nextTidLoc : ℕ
  deriving DecidableEq, Repr

/-- `BM_BATCH_TIDS`. -/
def bmBatchTids : ℕ := 16 * 1024

/-- `_bitmap_begin_iterate`. -/
def beginIterate (words : BMBatchWords) (result : BMIterateResult) : BMIterateResult :=
  { result with
    lastScanPos := 0
    lastScanWordNo := words.startNo
    numOfTids := 0
    nextTidLoc := 0 }

/-- The loop of `_bitmap_find_bitset`, from position `pos` with `rightmostBitWord` its bit. -/
def findBitsetLoop (word : UInt64) : ℕ → UInt64 → ℕ → ℕ
  | 0, _, pos => pos
  | fuel + 1, rightmostBitWord, pos =>
    if pos ≤ 64 ∧ word &&& rightmostBitWord = 0 then
      findBitsetLoop word fuel (rightmostBitWord <<< 1) (pos + 1)
    else pos

/-- `_bitmap_find_bitset`: the first set bit after position `lastPos`, the least significant bit
being position 1; 0 if there is none. -/
def findBitset (word : UInt64) (lastPos : ℕ) : ℕ :=
  let pos := lastPos + 1
  if pos > 64 then 0
  else
    let pos := findBitsetLoop word 64 ((1 : UInt64) <<< (pos - 1).toUInt64) pos
    if pos > 64 then 0 else pos

/-- `result->nextTids[result->numOfTids++] = tid`. -/
def BMIterateResult.emit (result : BMIterateResult) (tid : UInt64) : BMIterateResult :=
  { result with
    nextTids := result.nextTids ++ [tid]
    numOfTids := result.numOfTids + 1 }

/-- The branch of `_bitmap_findnexttids` for a word with no set bit (a fill word of zeros, or a
zero word): skip it. -/
def skipZeroWord (words : BMBatchWords) (result : BMIterateResult) (word : UInt64) :
    BMBatchWords × BMIterateResult :=
  let fillLength : UInt64 := if word = 0 then 1 else fillLength word
  ({ words with
      nwords := words.nwords - 1
      firstTid := words.firstTid + fillLength * 64 },
    { result with
      nextTid := result.nextTid + fillLength * 64
      lastScanWordNo := result.lastScanWordNo + 1
      lastScanPos := 0 })

/-- Emitting the 64 tids of one word of ones: `nextTids[numOfTids++] = nextTid++`, 64 times. -/
def explainWord (result : BMIterateResult) : BMIterateResult :=
  (List.range 64).foldl (fun result _ =>
    { result.emit result.nextTid with nextTid := result.nextTid + 1 }) result

/-- The loop of `_bitmap_findnexttids` over the words of a fill word of ones, while the array has
room for 64 more tids: each word's tids are emitted, and the fill word is shortened in place.
Returns the words left in the fill word. -/
def explainFillWords (maxTids : ℕ) :
    ℕ → BMBatchWords → BMIterateResult → ℕ × BMBatchWords × BMIterateResult
  | 0, words, result => (0, words, result)
  | nfillwords + 1, words, result =>
    if result.numOfTids + 64 ≤ maxTids then
      explainFillWords maxTids nfillwords
        { words with
          cwords := words.cwords.modify result.lastScanWordNo (· - 1)
          firstTid := words.firstTid + 64 }
        (explainWord result)
    else (nfillwords + 1, words, result)

/-- The loop of `_bitmap_findnexttids` over the set bits of a literal word, from scan position
`oldScanPos` (65 for a word not begun). -/
def scanLiteral (maxTids : ℕ) :
    ℕ → ℕ → BMBatchWords → BMIterateResult → BMBatchWords × BMIterateResult
  | 0, _, words, result => (words, result)
  | fuel + 1, oldScanPos, words, result =>
    if oldScanPos ≠ 0 ∧ result.numOfTids < maxTids then
      let oldScanPos := if oldScanPos = 65 then 0 else oldScanPos
      let lastScanPos := findBitset (words.cwords.getD result.lastScanWordNo 0) oldScanPos
      if lastScanPos ≠ 0 then
        let result := { result with lastScanPos := lastScanPos }
        scanLiteral maxTids fuel lastScanPos words
          (result.emit (result.nextTid + lastScanPos.toUInt64 - 1))
      else
        scanLiteral maxTids fuel 0
          { words with
            firstTid := words.firstTid + 64
            nwords := words.nwords - 1 }
          { result with
            nextTid := result.nextTid + 64
            lastScanWordNo := result.lastScanWordNo + 1
            lastScanPos := 0 }
    else (words, result)

/-- The loop of `_bitmap_findnexttids` over the words, while words are left and the array is not
full. -/
def findnexttidsLoop (maxTids : ℕ) :
    ℕ → BMBatchWords → BMIterateResult → BMBatchWords × BMIterateResult
  | 0, words, result => (words, result)
  | fuel + 1, words, result =>
    if words.nwords > 0 ∧ result.numOfTids < maxTids then
      let oldScanPos := result.lastScanPos
      let word := words.cwords.getD result.lastScanWordNo 0
      let isFill := isFillWord words.hwords result.lastScanWordNo
      if oldScanPos = 0 ∧ ((isFill = true ∧ getFillBit word = 0) ∨ word = 0) then
        let (words, result) := skipZeroWord words result word
        findnexttidsLoop maxTids fuel words result
      else if isFill = true ∧ getFillBit word = 1 then
        let (nfillwords, words, result) :=
          explainFillWords maxTids (fillLength word).toNat words result
        if nfillwords = 0 then
          findnexttidsLoop maxTids fuel
            { words with nwords := words.nwords - 1 }
            { result with
              lastScanWordNo := result.lastScanWordNo + 1
              lastScanPos := 0 }
        else (words, result)
      else
        let (words, result) :=
          scanLiteral maxTids 65 (if oldScanPos = 0 then 65 else oldScanPos) words result
        findnexttidsLoop maxTids fuel words result
    else (words, result)

/-- The loop of `_bitmap_catchup_to_next_tid` over the words, while words are left and `firstTid`
is before `nextTid`. -/
def catchupToNextTidLoop : ℕ → BMBatchWords → BMIterateResult → BMBatchWords × BMIterateResult
  | 0, words, result => (words, result)
  | fuel + 1, words, result =>
    if words.nwords > 0 ∧ words.firstTid < result.nextTid then
      if isFillWord words.hwords result.lastScanWordNo then
        let word := words.cwords.getD result.lastScanWordNo 0
        if word = 0 then
          let words := { words with
            firstTid := words.firstTid + 64
            nwords := words.nwords - 1 }
          let result :=
            if words.firstTid > result.nextTid then { result with nextTid := words.firstTid }
            else result
          catchupToNextTidLoop fuel words
            { result with lastScanWordNo := result.lastScanWordNo + 1 }
        else
          let fillLength := fillLength word
          let (words, fillLength) :=
            if fillLength > 0 then
              let fillToUse := min ((result.nextTid - words.firstTid) / 64 + 1) fillLength
              ({ words with
                  cwords := words.cwords.modify result.lastScanWordNo (· - fillToUse)
                  firstTid := words.firstTid + fillToUse * 64 },
                fillLength - fillToUse)
            else (words, fillLength)
          if fillLength = 0 then
            catchupToNextTidLoop fuel
              { words with nwords := words.nwords - 1 }
              { result with lastScanWordNo := result.lastScanWordNo + 1 }
          else if words.firstTid ≥ result.nextTid then (words, result)
          else
            catchupToNextTidLoop fuel words
              { result with lastScanWordNo := result.lastScanWordNo + 1 }
      else
        catchupToNextTidLoop fuel
          { words with
            firstTid := words.firstTid + 64
            nwords := words.nwords - 1 }
          { result with lastScanWordNo := result.lastScanWordNo + 1 }
    else (words, result)

/-- `_bitmap_catchup_to_next_tid`. -/
def catchupToNextTid (words : BMBatchWords) (result : BMIterateResult) :
    BMBatchWords × BMIterateResult :=
  if words.firstTid ≥ result.nextTid then (words, result)
  else catchupToNextTidLoop (words.nwords + 1) words result

/-- `_bitmap_findnexttids`: find at most `maxTids` tids. -/
def findnexttids (words : BMBatchWords) (result : BMIterateResult) (maxTids : ℕ) :
    BMBatchWords × BMIterateResult :=
  let result := { result with
    nextTidLoc := 0
    numOfTids := 0
    nextTids := [] }
  let (words, result) :=
    if result.lastScanWordNo = words.startNo ∧ words.firstTid < result.nextTid then
      catchupToNextTid words result
    else (words, result)
  findnexttidsLoop maxTids (words.nwords + 1) words result

/-- `_bitmap_findnexttid`: the next tid, 0 when there is none. -/
def findnexttid (words : BMBatchWords) (result : BMIterateResult) :
    UInt64 × BMBatchWords × BMIterateResult :=
  let (words, result) :=
    if result.nextTidLoc ≥ result.numOfTids then findnexttids words result bmBatchTids
    else (words, result)
  if result.nextTidLoc < result.numOfTids then
    (result.nextTids.getD result.nextTidLoc 0, words,
      { result with nextTidLoc := result.nextTidLoc + 1 })
  else (0, words, result)

/-- Calling `_bitmap_findnexttid` until it returns 0, at most `n` times: the tids returned before
the 0. -/
def findnexttidRun : ℕ → BMBatchWords → BMIterateResult →
    List UInt64 × BMBatchWords × BMIterateResult
  | 0, words, result => ([], words, result)
  | n + 1, words, result =>
    let (tid, words, result) := findnexttid words result
    if tid = 0 then ([], words, result)
    else
      let (tids, words, result) := findnexttidRun n words result
      (tid :: tids, words, result)

/-- Calling `_bitmap_findnexttids` until a call finds no tid, at most `n` times: the tids of the
calls, one after the other. -/
def findnexttidsRun (maxTids : ℕ) : ℕ → BMBatchWords → BMIterateResult →
    List UInt64 × BMBatchWords × BMIterateResult
  | 0, words, result => ([], words, result)
  | n + 1, words, result =>
    let (words, result) := findnexttids words result maxTids
    if result.nextTids = [] then ([], words, result)
    else
      let (tids, words', result') := findnexttidsRun maxTids n words result
      (result.nextTids ++ tids, words', result')

end Cloudberry.Bitmap
