import Cloudberry.Bitmap.Hrl

/-!
# Buffering the tids of a bitmap vector while an index is built

While a bitmap index is built, `buf_add_tid` buffers the tids of each bitmap vector in a
`BMTIDBuffer`: the words completed so far (`cwords`, with their header bits), then the last
complete word `last_compword` (or `LITERAL_ALL_ONE`, a marker for none yet), then the word being
filled, `last_word`. `buf_add_tid_with_fill` adds a tid: it completes the current word with zeros,
adds fill words of zeros for the words in between, and sets the tid's bit; `mergewords` folds each
completed word into `last_compword`, merging fill words of one fill bit.

Moving words to disk when the header words are full (`buf_ensure_head_space`) is not modelled: a
call that would do it returns `none`.
-/

namespace Cloudberry.Bitmap

/-- `BMLOVItemData`: the LOV item of a bitmap vector (the page pointers `bm_lov_head` and
`bm_lov_tail` are left out). -/
structure BMLOVItem where
  bmLastCompword : UInt64
  bmLastWord : UInt64
  bmLastTidLocation : UInt64
  bmLastSetbit : UInt64
  lovWordsHeader : UInt8
  deriving DecidableEq, Repr

/-- `_bitmap_formitem`: a new LOV item, with fill words of zeros up to the word before the tid
`currTidNumber`. -/
def formitem (currTidNumber : UInt64) : BMLOVItem :=
  if currTidNumber ≤ bmHrlWordSize.toUInt64 then ⟨literalAllOne, literalAllZero, 0, 0, 0⟩
  else
    let numOfTotalFillWords := (currTidNumber - 1) / bmHrlWordSize.toUInt64
    let numOfFillWords :=
      if numOfTotalFillWords ≥ maxFillLength then maxFillLength else numOfTotalFillWords
    ⟨bmMakeFillWord 0 numOfFillWords, literalAllZero, numOfFillWords * bmHrlWordSize.toUInt64,
      numOfFillWords * bmHrlWordSize.toUInt64, 2⟩

/-- `BMTIDBuffer`: the words buffered for a bitmap vector. The content words `cwords[0..curword)`
are a list, so `curword` is its length (`start_tid` and the allocated size `num_cwords` are left
out). -/
structure BMTIDBuffer where
  lastCompword : UInt64
  lastWord : UInt64
  isLastCompwordFill : Bool
  lastTid : UInt64
  lastTids : List UInt64
  hwords : List UInt64
  cwords : List UInt64
  deriving DecidableEq, Repr

/-- The buffer that `buf_add_tid` sets up for a LOV item, with `numHeaderWords` header words of
zeros (`BM_NUM_OF_HEADER_WORDS`, which depends on the block size). -/
def BMTIDBuffer.ofLovItem (item : BMLOVItem) (numHeaderWords : ℕ) : BMTIDBuffer where
  lastTid := item.bmLastSetbit
  lastCompword := item.bmLastCompword
  lastWord := item.bmLastWord
  isLastCompwordFill := item.lovWordsHeader == 2
  hwords := List.replicate numHeaderWords 0
  cwords := []
  lastTids := []

/-- `buf_ensure_head_space`, when the header words have room for another word; `none` stands for
moving the words to disk, which is not modelled. -/
def bufEnsureHeadSpace (buf : BMTIDBuffer) : Option BMTIDBuffer :=
  if buf.cwords.length ≥ buf.hwords.length * bmHrlWordSize then none else some buf

/-- The end of `mergewords`: `last_compword` goes to the content words, with its header bit if it
is a fill word and `lastTid` its last tid, and `last_word` becomes the last complete word. -/
def pushCompword (buf : BMTIDBuffer) (lastTid : UInt64) (lastWordFill : Bool) :
    BMTIDBuffer :=
  let curword := buf.cwords.length
  { buf with
    cwords := buf.cwords ++ [buf.lastCompword]
    lastTids := buf.lastTids ++ [lastTid]
    hwords :=
      if buf.isLastCompwordFill then
        buf.hwords.modify (curword / bmHrlWordSize) (· ||| wordnoGetHeaderBit curword)
      else buf.hwords
    lastCompword := buf.lastWord
    isLastCompwordFill := lastWordFill
    lastWord := 0
    lastTid :=
      if lastWordFill then lastTid + fillLength buf.lastWord * bmHrlWordSize.toUInt64
      else lastTid + bmHrlWordSize.toUInt64 }

/-- `mergewords`: fold the completed word `last_word` into the last complete word. -/
def mergewords (buf : BMTIDBuffer) (lastWordFill : Bool) : BMTIDBuffer :=
  let lastTid := buf.lastTid - buf.lastTid % bmHrlWordSize.toUInt64
  if buf.lastCompword = literalAllOne then
    -- no complete word yet
    { buf with
      lastCompword := buf.lastWord
      isLastCompwordFill := lastWordFill
      lastWord := 0
      lastTid :=
        if lastWordFill then fillLength buf.lastWord * bmHrlWordSize.toUInt64
        else bmHrlWordSize.toUInt64 }
  else if buf.isLastCompwordFill ∧ lastWordFill ∧
      getFillBit buf.lastCompword = getFillBit buf.lastWord then
    if fillLength buf.lastCompword + fillLength buf.lastWord ≤ maxFillLength then
      { buf with
        lastCompword := buf.lastCompword + fillLength buf.lastWord
        lastWord := literalAllZero
        lastTid := lastTid + fillLength buf.lastWord * bmHrlWordSize.toUInt64 }
    else
      let lengthMerged := maxFillLength - fillLength buf.lastCompword
      pushCompword
        { buf with
          lastWord := buf.lastWord - lengthMerged
          lastCompword := buf.lastCompword + lengthMerged }
        (lastTid + lengthMerged * bmHrlWordSize.toUInt64) lastWordFill
  else pushCompword buf lastTid lastWordFill

/-- The loop of `buf_add_tid_with_fill` over the fill words of zeros, at most `MAX_FILL_LENGTH`
words each, for `numOfTotalFillWords` words. -/
def fillZeroWords : ℕ → BMTIDBuffer → UInt64 → Option BMTIDBuffer
  | 0, buf, _ => some buf
  | fuel + 1, buf, numOfTotalFillWords =>
    if numOfTotalFillWords > 0 then do
      let numOfFillWords :=
        if numOfTotalFillWords ≥ maxFillLength then maxFillLength else numOfTotalFillWords
      let buf ← bufEnsureHeadSpace { buf with lastWord := bmMakeFillWord 0 numOfFillWords }
      fillZeroWords fuel (mergewords buf true) (numOfTotalFillWords - numOfFillWords)
    else some buf

/-- `buf_add_tid_with_fill`: add the tid `tidnum`, after the last one added. -/
def bufAddTidWithFill (buf : BMTIDBuffer) (tidnum : UInt64) : Option BMTIDBuffer := do
  let zeros : Int64 := (tidnum - buf.lastTid - 1).toInt64
  let buf ←
    if zeros > 0 then do
      let zerosNeeded : UInt64 :=
        bmHrlWordSize.toUInt64 - ((buf.lastTid - 1) % bmHrlWordSize.toUInt64) - 1
      -- the last word is complete: merge it
      let (buf, zeros) ←
        if zerosNeeded > 0 ∧ zeros.toUInt64 ≥ zerosNeeded then do
          let buf ← bufEnsureHeadSpace buf
          pure (mergewords buf false, (zeros.toUInt64 - zerosNeeded).toInt64)
        else pure (buf, zeros)
      let numOfTotalFillWords : UInt64 := (zeros / bmHrlWordSize.toUInt64.toInt64).toUInt64
      fillZeroWords (numOfTotalFillWords.toNat + 1) buf numOfTotalFillWords
    else pure buf
  let insertingPos := (tidnum - 1) % bmHrlWordSize.toUInt64
  let buf := { buf with lastWord := buf.lastWord ||| ((1 : UInt64) <<< insertingPos) }
  let buf ←
    if tidnum % bmHrlWordSize.toUInt64 = 0 then do
      let (lastWord, lastWordFill) :=
        if buf.lastWord = literalAllZero then (bmMakeFillWord 0 1, true)
        else if buf.lastWord = literalAllOne then (bmMakeFillWord 1 1, true)
        else (buf.lastWord, false)
      let buf ← bufEnsureHeadSpace { buf with lastWord := lastWord }
      pure (mergewords buf lastWordFill)
    else pure buf
  pure { buf with lastTid := tidnum }

/-- Adding the tids one after the other. -/
def bufAddTids (buf : BMTIDBuffer) (tids : List UInt64) : Option BMTIDBuffer :=
  tids.foldlM bufAddTidWithFill buf

end Cloudberry.Bitmap
