import Cloudberry.Bitmap.Scan
import Cloudberry.Bitmap.BuildSpec

/-!
# The union of bitmap batches

A bitmap index scan over several bitmap vectors reads a batch of HRL words from each and ORs the
batches with `_bitmap_union`. Beside its words, a batch keeps `nwordsread`, the number of
uncompressed words of its vector read so far, and `nextread`, the uncompressed position of the next
word the union wants. `fast_forward` first skips the fill of zeros that every batch has there, as
long as the shortest, and appends it to the result as one fill word. Each round of the union's loop
then brings every batch to the next read position (`_bitmap_findnextword`) and reads one word of
it. A fill word of ones ends the round and becomes a fill word of ones of the result, as long as
itself; the other batches skip it in the next round. A word of zeros or a literal word is ORed in,
one uncompressed word at a time (a fill word of zeros is shortened in place). A batch that runs out
ends the union, and the batches read before it in that round are put back (`_bitmap_resetWord`).

The words a batch has not read stand for the uncompressed words `unread`; the vector the batch is
read from goes on past them, with words that no batch holds yet. The union is right whatever those
words are: its result is the OR, position by position, of any vectors that agree with the batches'
words (`Agrees`), since at a position past the end of a batch some other batch has a fill word of
ones.

* `uncompressWords_flatMap_wordBits`: the uncompressed words stand for the bits a scan reads;
* `findnextword_spec`: bringing a batch to a position reads it on, up to the position or its end;
* `resetWord_nextWord`, `resetWord_shortenFill`: putting a word back undoes reading it;
* `unionLoop_fuel_eq`: the loop ends by itself within the room left in the result;
* `unionRound_spec`, `unionLoop_spec`, `fastForward_spec`: what a round, the loop and the fast
  forward keep;
* `bitmapUnion_is_bitwise_or`: the union's result is the OR of the batches from their common
  position, and each batch, brought to where the union stopped, holds the rest of its words.
-/

namespace Cloudberry.Bitmap

/-- `BMBatchWords` with the fields that `_bitmap_union` reads beside those of a scan: how many
content words the arrays hold, how many uncompressed words of the vector have been read, and the
uncompressed position of the next word to read. -/
structure BMUnionBatchWords extends BMBatchWords where
  maxNumOfWords : ℕ
  nwordsread : ℕ
  nextread : ℕ
  deriving DecidableEq, Repr

namespace BMUnionBatchWords

/-- The content word at `startNo`, the next to read. -/
def curWord (words : BMUnionBatchWords) : UInt64 := words.cwords.getD words.startNo 0

/-- `CUR_WORD_IS_FILL`. -/
def curWordIsFill (words : BMUnionBatchWords) : Bool := isFillWord words.hwords words.startNo

/-- Reading the last `n` uncompressed words of the current content word: on to the next one. -/
def nextWord (words : BMUnionBatchWords) (n : ℕ) : BMUnionBatchWords :=
  { words with
    nwordsread := words.nwordsread + n
    startNo := words.startNo + 1
    nwords := words.nwords - 1 }

/-- Reading `n` uncompressed words of the current fill word, which has more: it is shortened in
place. -/
def shortenFill (words : BMUnionBatchWords) (n : ℕ) : BMUnionBatchWords :=
  { words with
    cwords := words.cwords.modify words.startNo (· - n.toUInt64)
    nwordsread := words.nwordsread + n }

/-- Appending a content word to a result, with its header bit set when it is a fill word. -/
def appendWord (result : BMUnionBatchWords) (word : UInt64) (isFill : Bool) :
    BMUnionBatchWords :=
  { result with
    hwords := if isFill then
        result.hwords.modify (result.nwords / bmHrlWordSize)
          (· ||| wordnoGetHeaderBit result.nwords)
      else result.hwords
    cwords := result.cwords.set result.nwords word
    nwords := result.nwords + 1 }

@[simp] theorem nextWord_nwordsread (words : BMUnionBatchWords) (n : ℕ) :
    (words.nextWord n).nwordsread = words.nwordsread + n := rfl

@[simp] theorem nextWord_nextread (words : BMUnionBatchWords) (n : ℕ) :
    (words.nextWord n).nextread = words.nextread := rfl

@[simp] theorem nextWord_nwords (words : BMUnionBatchWords) (n : ℕ) :
    (words.nextWord n).nwords = words.nwords - 1 := rfl

@[simp] theorem shortenFill_nwordsread (words : BMUnionBatchWords) (n : ℕ) :
    (words.shortenFill n).nwordsread = words.nwordsread + n := rfl

@[simp] theorem shortenFill_nextread (words : BMUnionBatchWords) (n : ℕ) :
    (words.shortenFill n).nextread = words.nextread := rfl

@[simp] theorem shortenFill_nwords (words : BMUnionBatchWords) (n : ℕ) :
    (words.shortenFill n).nwords = words.nwords := rfl

@[simp] theorem appendWord_nwords (result : BMUnionBatchWords) (word : UInt64) (isFill : Bool) :
    (result.appendWord word isFill).nwords = result.nwords + 1 := rfl

@[simp] theorem appendWord_maxNumOfWords (result : BMUnionBatchWords) (word : UInt64)
    (isFill : Bool) : (result.appendWord word isFill).maxNumOfWords = result.maxNumOfWords := rfl

@[simp] theorem appendWord_firstTid (result : BMUnionBatchWords) (word : UInt64) (isFill : Bool) :
    (result.appendWord word isFill).firstTid = result.firstTid := rfl

end BMUnionBatchWords

open BMUnionBatchWords

/-! ## The functions of `bitmaputil.c` -/

/-- The loop of `_bitmap_findnextword`: skip words until `nextReadNo - 1` uncompressed words have
been read, or the batch has no word left. -/
def findnextwordLoop (nextReadNo : ℕ) : ℕ → BMUnionBatchWords → BMUnionBatchWords
  | 0, words => words
  | fuel + 1, words =>
    if 0 < words.nwords ∧ words.nwordsread < nextReadNo - 1 then
      if words.curWordIsFill then
        if (fillLength words.curWord).toNat ≤ nextReadNo - words.nwordsread - 1 then
          findnextwordLoop nextReadNo fuel (words.nextWord (fillLength words.curWord).toNat)
        else
          findnextwordLoop nextReadNo fuel (words.shortenFill (nextReadNo - words.nwordsread - 1))
      else findnextwordLoop nextReadNo fuel (words.nextWord 1)
    else words

/-- `_bitmap_findnextword`: a round of its loop reads a content word or ends the loop, so one
round more than there are words is enough. -/
def findnextword (words : BMUnionBatchWords) (nextReadNo : ℕ) : BMUnionBatchWords :=
  findnextwordLoop nextReadNo (words.nwords + 1) words

/-- `_bitmap_resetWord`: put back the last uncompressed word read, read from the content word at
`prevStartNo`. -/
def resetWord (words : BMUnionBatchWords) (prevStartNo : ℕ) : BMUnionBatchWords :=
  if words.startNo > prevStartNo then
    { words with
      startNo := prevStartNo
      nwords := words.nwords + 1
      nwordsread := words.nwordsread - 1 }
  else
    { words with
      cwords := words.cwords.modify words.startNo (· + 1)
      nwordsread := words.nwordsread - 1 }

/-- The loop of `fast_forward` over the batches, with the shortest fill length seen and the number
of words to skip. Each batch is brought to its next read position; the loop returns (`none`) at a
batch whose word there is a fill word of ones or a literal word. -/
def fastForwardLoop : List BMUnionBatchWords → UInt64 → UInt64 →
    List BMUnionBatchWords × Option UInt64
  | [], _, fastForwardWords => ([], some fastForwardWords)
  | words :: batches, minFillLen, fastForwardWords =>
    let words := findnextword words words.nextread
    let word := words.curWord
    if words.curWordIsFill ∧ getFillBit word = 1 then (words :: batches, none)
    else if ¬words.curWordIsFill then (words :: batches, none)
    else
      -- a fill word of zeros: a fill bit is `0` or `1`
      let r :=
        if fillLength word < minFillLen then
          fastForwardLoop batches (fillLength word) (fillLength word)
        else fastForwardLoop batches minFillLen fastForwardWords
      (words :: r.1, r.2)

/-- `batches[0]->nextread`. -/
def firstNextread : List BMUnionBatchWords → ℕ
  | [] => 0
  | words :: _ => words.nextread

/-- The batches, the result and the next read position, as `_bitmap_union` carries them. -/
structure UnionState where
  batches : List BMUnionBatchWords
  result : BMUnionBatchWords
  nextReadNo : ℕ

/-- `fast_forward`: skip the fill of zeros that every batch has at its next read position, as long
as the shortest, and append it to the result as one fill word. -/
def fastForward (batches : List BMUnionBatchWords) (result : BMUnionBatchWords) : UnionState :=
  let r := fastForwardLoop batches maxFillLength 0
  match r.2 with
  | some fastForwardWords =>
    if fastForwardWords ≠ 0 then
      let batches := r.1.map fun words =>
        { words with nextread := words.nwordsread + fastForwardWords.toNat + 1 }
      ⟨batches, result.appendWord fastForwardWords true, firstNextread batches⟩
    else ⟨r.1, result, firstNextread r.1⟩
  | none => ⟨r.1, result, firstNextread r.1⟩

/-- How a round of the loop of `_bitmap_union` ends. -/
inductive RoundEnd
  /-- every batch gave a word of zeros or a literal word -/
  | finished
  /-- batch `batchNo` gave a fill word of ones -/
  | fillOne (batchNo : ℕ)
  /-- a batch had no word left: `done` -/
  | exhausted
  deriving DecidableEq, Repr

/-- What a round of the loop of `_bitmap_union` leaves. -/
structure UnionRound where
  batches : List BMUnionBatchWords
  orWord : UInt64
  orWordIsLiteral : Bool
  nextReadNo : ℕ
  roundEnd : RoundEnd

/-- A batch read in a round, put back with `_bitmap_resetWord` when the round ends on a batch
that ran out. -/
def resetIfDone (roundEnd : RoundEnd) (bch : BMUnionBatchWords) (prevStartNo : ℕ) :
    BMUnionBatchWords :=
  if roundEnd = .exhausted then resetWord bch prevStartNo else bch

/-- The loop of `_bitmap_union` over the batches from number `batchNo` on, with the OR of the words
read so far in the round. The batches read before one that ran out are put back (with their
`prevstarts`) as the recursion returns through them. -/
def unionRound (nextReadNo : ℕ) (orWord : UInt64) (batchNo : ℕ) :
    List BMUnionBatchWords → UnionRound
  | [] => ⟨[], orWord, true, nextReadNo, .finished⟩
  | bch :: batches =>
    let bch := findnextword bch nextReadNo
    if bch.nwords = 0 then ⟨bch :: batches, orWord, true, nextReadNo, .exhausted⟩
    else
      let word := bch.curWord
      if bch.curWordIsFill ∧ getFillBit word = 1 then
        let bch := bch.nextWord (fillLength word).toNat
        ⟨bch :: batches, bmMakeFillWord 1 (bch.nwordsread - nextReadNo + 1).toUInt64, false,
          bch.nwordsread + 1, .fillOne batchNo⟩
      else if bch.curWordIsFill ∧ getFillBit word = 0 then
        let r := unionRound nextReadNo orWord (batchNo + 1) batches
        let read := if fillLength word = 1 then bch.nextWord 1 else bch.shortenFill 1
        { r with batches := resetIfDone r.roundEnd read bch.startNo :: r.batches }
      else
        -- a literal word
        let r := unionRound nextReadNo (orWord ||| word) (batchNo + 1) batches
        { r with batches := resetIfDone r.roundEnd (bch.nextWord 1) bch.startNo :: r.batches }

/-- The test after a round that ends the loop: the round stopped at the last batch, which has no
word left. -/
def lastBatchEmptied (numBatches : ℕ) (r : UnionRound) : Bool :=
  match r.roundEnd with
  | .fillOne batchNo =>
    decide (batchNo = numBatches - 1 ∧ r.batches[batchNo]?.map (·.nwords) = some 0)
  | _ => false

/-- The loop of `_bitmap_union`: a round while the result has room, until a batch runs out or the
last batch is emptied by a fill word of ones. -/
def unionLoop (numBatches : ℕ) : ℕ → UnionState → UnionState
  | 0, st => st
  | fuel + 1, st =>
    if st.result.nwords < st.result.maxNumOfWords then
      let r := unionRound st.nextReadNo literalAllZero 0 st.batches
      if r.roundEnd = .exhausted then ⟨r.batches, st.result, st.nextReadNo⟩
      else
        let result := st.result.appendWord r.orWord !r.orWordIsLiteral
        let nextReadNo := if r.orWordIsLiteral then r.nextReadNo + 1 else r.nextReadNo
        if lastBatchEmptied numBatches r then ⟨r.batches, result, nextReadNo⟩
        else unionLoop numBatches fuel ⟨r.batches, result, nextReadNo⟩
    else st

/-- `_bitmap_union`: the batches, each with its next read position set to where the union stopped,
and the result. -/
def bitmapUnion (batches : List BMUnionBatchWords) (result : BMUnionBatchWords) :
    List BMUnionBatchWords × BMUnionBatchWords :=
  match batches with
  | [] => ([], result)
  | first :: _ =>
    let result := { result with firstTid := ((first.nextread - 1) * bmHrlWordSize + 1).toUInt64 }
    let st := fastForward batches result
    let st := unionLoop batches.length (st.result.maxNumOfWords - st.result.nwords) st
    (st.batches.map fun words => { words with nextread := st.nextReadNo }, st.result)

/-- Each round that does not end the loop appends a word to the result, so the loop ends by itself
once the result is full. -/
theorem unionLoop_fuel_eq (numBatches : ℕ) :
    ∀ fuel (st : UnionState), st.result.maxNumOfWords - st.result.nwords ≤ fuel →
      unionLoop numBatches fuel st =
        unionLoop numBatches (st.result.maxNumOfWords - st.result.nwords) st := by
  intro fuel
  induction fuel with
  | zero =>
    intro st hfuel
    rw [Nat.le_zero.mp hfuel]
  | succ fuel ih =>
    intro st hfuel
    by_cases hroom : st.result.nwords < st.result.maxNumOfWords
    · obtain ⟨m, hm⟩ : ∃ m, st.result.maxNumOfWords - st.result.nwords = m + 1 :=
        ⟨st.result.maxNumOfWords - st.result.nwords - 1, by omega⟩
      rw [hm]
      simp only [unionLoop, if_pos hroom]
      generalize unionRound st.nextReadNo literalAllZero 0 st.batches = r
      by_cases hend : r.roundEnd = .exhausted
      · simp only [if_pos hend]
      · by_cases hlast : lastBatchEmptied numBatches r = true
        · simp only [if_neg hend, hlast, if_true]
        · simp only [if_neg hend, hlast, Bool.false_eq_true, if_false]
          -- the round appended a word, so `m` rounds are left
          rw [ih _ (by simp; omega)]
          congr 1
          simp only [appendWord_maxNumOfWords, appendWord_nwords]
          omega
    · have hzero : st.result.maxNumOfWords - st.result.nwords = 0 := by omega
      rw [hzero]
      simp only [unionLoop, if_neg hroom]

/-! ## What the words stand for -/

/-- The uncompressed word that each word of a fill word stands for. -/
def fillWordValue (w : UInt64) : UInt64 :=
  if getFillBit w = 1 then literalAllOne else literalAllZero

/-- The uncompressed words that a content word stands for. -/
def uncompressWord (isFill : Bool) (w : UInt64) : List UInt64 :=
  if isFill then List.replicate (fillLength w).toNat (fillWordValue w) else [w]

/-- The uncompressed words that `nwords` content words from position `wordNo` on stand for. -/
def uncompressWords (hwords cwords : List UInt64) : ℕ → ℕ → List UInt64
  | _, 0 => []
  | wordNo, nwords + 1 =>
    uncompressWord (isFillWord hwords wordNo) (cwords.getD wordNo 0) ++
      uncompressWords hwords cwords (wordNo + 1) nwords

@[simp] theorem uncompressWords_zero (hwords cwords : List UInt64) (wordNo : ℕ) :
    uncompressWords hwords cwords wordNo 0 = [] := rfl

theorem uncompressWords_succ (hwords cwords : List UInt64) (wordNo nwords : ℕ) :
    uncompressWords hwords cwords wordNo (nwords + 1) =
      uncompressWord (isFillWord hwords wordNo) (cwords.getD wordNo 0) ++
        uncompressWords hwords cwords (wordNo + 1) nwords := rfl

theorem length_uncompressWord (isFill : Bool) (w : UInt64) :
    (uncompressWord isFill w).length = if isFill then (fillLength w).toNat else 1 := by
  cases isFill <;> simp [uncompressWord]

/-- The words of the last content word come last. -/
theorem uncompressWords_succ_right (hwords cwords : List UInt64) (nwords : ℕ) :
    ∀ wordNo, uncompressWords hwords cwords wordNo (nwords + 1) =
      uncompressWords hwords cwords wordNo nwords ++
        uncompressWord (isFillWord hwords (wordNo + nwords)) (cwords.getD (wordNo + nwords) 0) := by
  induction nwords with
  | zero => intro wordNo; simp [uncompressWords_succ]
  | succ nwords ih =>
    intro wordNo
    have hpos : wordNo + 1 + nwords = wordNo + (nwords + 1) := by omega
    rw [uncompressWords_succ, ih (wordNo + 1), uncompressWords_succ, List.append_assoc, hpos]

/-- Content words that agree on their header bits and values stand for the same words. -/
theorem uncompressWords_congr {hwords cwords hwords' cwords' : List UInt64} (nwords : ℕ) :
    ∀ wordNo, (∀ j, wordNo ≤ j → j < wordNo + nwords →
      isFillWord hwords' j = isFillWord hwords j ∧ cwords'.getD j 0 = cwords.getD j 0) →
      uncompressWords hwords' cwords' wordNo nwords =
        uncompressWords hwords cwords wordNo nwords := by
  induction nwords with
  | zero => intro _ _; rfl
  | succ nwords ih =>
    intro wordNo hsame
    obtain ⟨hfill, hword⟩ := hsame wordNo le_rfl (by omega)
    rw [uncompressWords_succ, uncompressWords_succ, hfill, hword,
      ih (wordNo + 1) fun j hj hj' => hsame j (by omega) (by omega)]

/-- A word read as literal words stands for the bits the word stands for. -/
theorem uncompressWord_flatMap_wordBits (isFill : Bool) (w : UInt64) :
    (uncompressWord isFill w).flatMap (wordBits false) = wordBits isFill w := by
  cases isFill with
  | false => simp [uncompressWord]
  | true =>
    rw [uncompressWord, if_pos rfl, List.flatMap_replicate, wordBits_true]
    rcases getFillBit_eq_zero_or_one w with hbit | hbit
    · rw [fillWordValue, if_neg (by rw [hbit]; decide), literalAllZero, wordBits_false_zero,
        List.flatten_replicate_replicate, hbit]
      rfl
    · rw [fillWordValue, if_pos hbit, wordBits_false_literalAllOne,
        List.flatten_replicate_replicate, hbit]
      rfl

/-- **The uncompressed words stand for the bits that a scan reads.** -/
theorem uncompressWords_flatMap_wordBits (hwords cwords : List UInt64) (nwords : ℕ) :
    ∀ wordNo, (uncompressWords hwords cwords wordNo nwords).flatMap (wordBits false) =
      scanBits hwords cwords wordNo nwords 0 := by
  induction nwords with
  | zero => intro _; rfl
  | succ nwords ih =>
    intro wordNo
    rw [uncompressWords_succ, List.flatMap_append, uncompressWord_flatMap_wordBits, ih,
      scanBits_succ]
    rfl

/-- A fill word of ones made by `BM_MAKE_FILL_WORD` stands for as many words of ones. -/
theorem uncompressWord_bmMakeFillWord_one {n : ℕ} (hn : n < 2 ^ 63) :
    uncompressWord true (bmMakeFillWord 1 n.toUInt64) = List.replicate n literalAllOne := by
  have hlen : n.toUInt64.toNat = n := toNat_toUInt64_of_lt (by omega)
  have hone : (1 : UInt64).toNat ≤ 1 := by decide
  rw [uncompressWord, if_pos rfl, fillLength_bmMakeFillWord hone (by omega), hlen, fillWordValue,
    getFillBit_bmMakeFillWord hone (by omega), if_pos rfl]

/-- A word below `2^63` read as a fill word is a fill of that many words of zeros. -/
theorem uncompressWord_fill_of_lt {w : UInt64} (hw : w.toNat < 2 ^ 63) :
    uncompressWord true w = List.replicate w.toNat literalAllZero := by
  have hbit : getFillBit w = 0 := (getFillBit_eq_zero_iff w).mpr hw
  rw [uncompressWord, if_pos rfl, toNat_fillLength, Nat.mod_eq_of_lt hw, fillWordValue, hbit,
    if_neg (by decide)]

/-! ## Reading a batch on -/

namespace BMUnionBatchWords

@[simp] theorem nextWord_startNo (words : BMUnionBatchWords) (n : ℕ) :
    (words.nextWord n).startNo = words.startNo + 1 := rfl

@[simp] theorem nextWord_hwords (words : BMUnionBatchWords) (n : ℕ) :
    (words.nextWord n).hwords = words.hwords := rfl

@[simp] theorem nextWord_cwords (words : BMUnionBatchWords) (n : ℕ) :
    (words.nextWord n).cwords = words.cwords := rfl

@[simp] theorem shortenFill_startNo (words : BMUnionBatchWords) (n : ℕ) :
    (words.shortenFill n).startNo = words.startNo := rfl

@[simp] theorem shortenFill_hwords (words : BMUnionBatchWords) (n : ℕ) :
    (words.shortenFill n).hwords = words.hwords := rfl

@[simp] theorem shortenFill_cwords (words : BMUnionBatchWords) (n : ℕ) :
    (words.shortenFill n).cwords = words.cwords.modify words.startNo (· - n.toUInt64) := rfl

/-- The uncompressed words a batch has not read. -/
def unread (words : BMUnionBatchWords) : List UInt64 :=
  uncompressWords words.hwords words.cwords words.startNo words.nwords

/-- The uncompressed words of a result, its content words from the first on. -/
def uncompressed (result : BMUnionBatchWords) : List UInt64 :=
  uncompressWords result.hwords result.cwords 0 result.nwords

/-- A batch is valid when it is well formed and its words lie in its array. -/
def Valid (words : BMUnionBatchWords) : Prop :=
  words.WellFormed ∧ words.startNo + words.nwords ≤ words.cwords.length

instance (words : BMUnionBatchWords) : Decidable words.Valid :=
  inferInstanceAs (Decidable (_ ∧ _))

/-- `words` is `orig` read on: still valid, past where `orig` stood, and with the rest of
`orig`'s words to read. -/
structure Continues (words orig : BMUnionBatchWords) : Prop where
  valid : words.Valid
  nwordsread_le : orig.nwordsread ≤ words.nwordsread
  unread_eq : words.unread = orig.unread.drop (words.nwordsread - orig.nwordsread)

/-- A vector, given as its uncompressed words by position, agrees with a batch on the words the
batch holds. -/
def Agrees (s : ℕ → UInt64) (words : BMUnionBatchWords) : Prop :=
  ∀ j (h : j < words.unread.length), s (words.nwordsread + 1 + j) = words.unread[j]

variable {words orig : BMUnionBatchWords}

theorem unread_of_nwords_eq_zero (h : words.nwords = 0) : words.unread = [] := by
  rw [unread, h, uncompressWords_zero]

/-- The words of the current content word come first. -/
theorem unread_of_pos (h : 0 < words.nwords) (n : ℕ) :
    words.unread =
      uncompressWord words.curWordIsFill words.curWord ++ (words.nextWord n).unread := by
  obtain ⟨m, hm⟩ : ∃ m, words.nwords = m + 1 := ⟨words.nwords - 1, by omega⟩
  rw [unread, hm, uncompressWords_succ, unread, nextWord_nwords, hm, Nat.add_sub_cancel]
  rfl

theorem Valid.fillLength_pos (hv : words.Valid) (hn : 0 < words.nwords)
    (hfill : words.curWordIsFill = true) : 0 < (fillLength words.curWord).toNat := by
  have h := hv.1 0 hn (by simpa [curWordIsFill] using hfill)
  simpa [curWord] using h

theorem Valid.startNo_lt (hv : words.Valid) (hn : 0 < words.nwords) :
    words.startNo < words.cwords.length := by
  have := hv.2
  omega

theorem Valid.nextWord (hv : words.Valid) (hn : 0 < words.nwords) (n : ℕ) :
    (words.nextWord n).Valid := by
  refine ⟨fun j hj hfill => ?_, ?_⟩
  · have hpos : words.startNo + 1 + j = words.startNo + (j + 1) := by omega
    simp only [nextWord_nwords, nextWord_startNo, nextWord_hwords, nextWord_cwords, hpos]
      at hj hfill ⊢
    exact hv.1 (j + 1) (by omega) hfill
  · have := hv.2
    simp only [nextWord_nwords, nextWord_startNo, nextWord_cwords]
    omega

theorem toNat_toUInt64_of_lt_fillLength {w : UInt64} {k : ℕ} (hk : k < (fillLength w).toNat) :
    k.toUInt64.toNat = k :=
  toNat_toUInt64_of_lt (by have := (fillLength w).toNat_lt; omega)

theorem Valid.shortenFill (hv : words.Valid) (hn : 0 < words.nwords) {k : ℕ}
    (hk : k < (fillLength words.curWord).toNat) :
    (words.shortenFill k).Valid := by
  have hs := hv.startNo_lt hn
  have hklt := toNat_toUInt64_of_lt_fillLength hk
  refine ⟨fun j hj hfill' => ?_, ?_⟩
  · simp only [shortenFill_nwords, shortenFill_startNo, shortenFill_hwords, shortenFill_cwords]
      at hj hfill' ⊢
    rcases Nat.eq_zero_or_pos j with rfl | hj0
    · rw [Nat.add_zero, getD_modify_self _ hs, fillLength_sub (by rw [hklt]; exact hk.le), hklt]
      exact Nat.sub_pos_of_lt hk
    · rw [getD_modify_of_ne _ (by omega)]
      exact hv.1 j hj hfill'
  · have := hv.2
    simp only [shortenFill_nwords, shortenFill_startNo, shortenFill_cwords, List.length_modify]
    omega

theorem Continues.refl (hv : words.Valid) : Continues words words :=
  ⟨hv, le_rfl, by rw [Nat.sub_self, List.drop_zero]⟩

theorem Continues.trans {words₂ : BMUnionBatchWords} (h₂ : Continues words₂ words)
    (h₁ : Continues words orig) : Continues words₂ orig := by
  have hle₁ := h₁.nwordsread_le
  have hle₂ := h₂.nwordsread_le
  refine ⟨h₂.valid, hle₁.trans hle₂, ?_⟩
  rw [h₂.unread_eq, h₁.unread_eq, List.drop_drop]
  congr 1
  omega

/-- Reading the whole current content word. -/
theorem continues_nextWord (hv : words.Valid) (hn : 0 < words.nwords) :
    Continues (words.nextWord (uncompressWord words.curWordIsFill words.curWord).length) words := by
  refine ⟨hv.nextWord hn _, by simp, ?_⟩
  rw [unread_of_pos hn (uncompressWord words.curWordIsFill words.curWord).length,
    nextWord_nwordsread, Nat.add_sub_cancel_left, List.drop_left]

/-- Reading part of the current fill word. -/
theorem continues_shortenFill (hv : words.Valid) (hn : 0 < words.nwords)
    (hfill : words.curWordIsFill = true) {k : ℕ} (hk : k < (fillLength words.curWord).toNat) :
    Continues (words.shortenFill k) words := by
  have hs := hv.startNo_lt hn
  have hklt := toNat_toUInt64_of_lt_fillLength hk
  have hk' : k.toUInt64.toNat ≤ (fillLength words.curWord).toNat := by rw [hklt]; exact hk.le
  obtain ⟨m, hm⟩ : ∃ m, words.nwords = m + 1 := ⟨words.nwords - 1, by omega⟩
  refine ⟨hv.shortenFill hn hk, by simp, ?_⟩
  -- the shortened word stands for the words of the old one past the first `k`
  have htail : uncompressWords words.hwords (words.cwords.modify words.startNo (· - k.toUInt64))
      (words.startNo + 1) m = (words.nextWord 0).unread := by
    rw [unread, nextWord_nwords, hm, Nat.add_sub_cancel]
    exact uncompressWords_congr m _ fun j hj _ => ⟨rfl, getD_modify_of_ne _ (by omega)⟩
  have hcur : uncompressWord true (words.curWord - k.toUInt64) =
      List.replicate ((fillLength words.curWord).toNat - k) (fillWordValue words.curWord) := by
    rw [uncompressWord, if_pos rfl, fillLength_sub hk', hklt, fillWordValue, fillWordValue,
      getFillBit_sub hk']
  rw [unread_of_pos hn 0, hfill, shortenFill_nwordsread, Nat.add_sub_cancel_left, unread,
    shortenFill_nwords, hm, uncompressWords_succ, shortenFill_hwords, shortenFill_startNo,
    shortenFill_cwords, getD_modify_self _ hs, htail, ← curWordIsFill, hfill]
  rw [show words.cwords.getD words.startNo 0 = words.curWord from rfl, hcur, uncompressWord,
    if_pos rfl, List.drop_append_of_le_length (by rw [List.length_replicate]; exact hk.le),
    List.drop_replicate]

theorem Continues.agrees {s : ℕ → UInt64} (h : Continues words orig) (hs : Agrees s orig) :
    Agrees s words := by
  intro j hj
  have hle := h.nwordsread_le
  have hj' : words.nwordsread - orig.nwordsread + j < orig.unread.length := by
    have hlen := hj
    rw [h.unread_eq, List.length_drop] at hlen
    omega
  have key := hs _ hj'
  rw [show orig.nwordsread + 1 + (words.nwordsread - orig.nwordsread + j) =
    words.nwordsread + 1 + j by omega] at key
  rw [key]
  simp only [h.unread_eq, List.getElem_drop]

/-- A vector that agrees with a batch holds the batch's first words at the positions after those
the batch has read. -/
theorem Agrees.eq_of_unread_eq {s : ℕ → UInt64} {l rest : List UInt64} (hs : Agrees s words)
    (h : words.unread = l ++ rest) {j : ℕ} (hj : j < l.length) :
    s (words.nwordsread + 1 + j) = l[j] := by
  have hj' : j < words.unread.length := by rw [h, List.length_append]; omega
  rw [hs j hj']
  simp only [h, List.getElem_append_left hj]

end BMUnionBatchWords

section Read

variable {words orig : BMUnionBatchWords}

/-- Putting back a word read whole. -/
theorem resetWord_nextWord (hn : 0 < words.nwords) :
    resetWord (words.nextWord 1) words.startNo = words := by
  obtain ⟨⟨_, _, nwords, _, _⟩, _, _, _⟩ := words
  simp only at hn
  simp only [resetWord, nextWord, gt_iff_lt, Nat.lt_add_one, if_true, Nat.add_sub_cancel,
    Nat.sub_add_cancel hn]

/-- Putting back a word read from a fill word that was shortened. -/
theorem resetWord_shortenFill (hs : words.startNo < words.cwords.length) :
    resetWord (words.shortenFill 1) words.startNo = words := by
  obtain ⟨⟨_, startNo, _, _, cwords⟩, _, _, _⟩ := words
  have hinv : ((· + 1) ∘ (· - (1 : ℕ).toUInt64) : UInt64 → UInt64) = id :=
    funext fun w => show w - 1 + 1 = w from UInt64.sub_add_cancel w 1
  have hmodify :
      (cwords.modify startNo (· - (1 : ℕ).toUInt64)).modify startNo (· + 1) = cwords := by
    rw [List.modify_modify_eq, hinv, List.modify_id]
  simp only [resetWord, shortenFill, gt_iff_lt, lt_irrefl, if_false, hmodify, Nat.add_sub_cancel]

/-- The loop stops at a batch that has read up to the position. -/
theorem findnextwordLoop_of_at {nextReadNo : ℕ} (hat : words.nwordsread + 1 = nextReadNo) :
    ∀ fuel, findnextwordLoop nextReadNo fuel words = words
  | 0 => rfl
  | _ + 1 => by rw [findnextwordLoop, if_neg (by omega)]

/-- What `_bitmap_findnextword` makes of a batch that has read fewer than `nextReadNo` words: the
batch read on, up to `nextReadNo - 1` words or to its end. -/
structure FindsNext (words words' : BMUnionBatchWords) (nextReadNo : ℕ) : Prop where
  continues : Continues words' words
  nextread_eq : words'.nextread = words.nextread
  nwordsread_lt : words'.nwordsread + 1 ≤ nextReadNo
  at_or_out : words'.nwords = 0 ∨ words'.nwordsread + 1 = nextReadNo

theorem FindsNext.of_continues {words' words'' : BMUnionBatchWords} {nextReadNo : ℕ}
    (h : FindsNext words' words'' nextReadNo) (hc : Continues words' words)
    (hnext : words'.nextread = words.nextread) : FindsNext words words'' nextReadNo :=
  ⟨h.continues.trans hc, h.nextread_eq.trans hnext, h.nwordsread_lt, h.at_or_out⟩

theorem findnextwordLoop_spec (nextReadNo : ℕ) (fuel : ℕ) :
    ∀ words : BMUnionBatchWords, words.Valid → words.nwords < fuel →
      words.nwordsread + 1 ≤ nextReadNo →
      FindsNext words (findnextwordLoop nextReadNo fuel words) nextReadNo := by
  induction fuel with
  | zero => intro words _ hfuel; omega
  | succ fuel ih =>
    intro words hv hfuel hread
    by_cases hgo : 0 < words.nwords ∧ words.nwordsread < nextReadNo - 1
    · rw [findnextwordLoop, if_pos hgo]
      by_cases hfill : words.curWordIsFill = true
      · rw [if_pos hfill]
        by_cases hskip : (fillLength words.curWord).toNat ≤ nextReadNo - words.nwordsread - 1
        · -- the whole fill word lies before the position
          rw [if_pos hskip]
          have hc := continues_nextWord hv hgo.1
          rw [length_uncompressWord, if_pos hfill] at hc
          exact (ih _ hc.valid (by simp; omega) (by simp; omega)).of_continues hc rfl
        · -- the position falls in the fill word, which is shortened, and the loop stops
          rw [if_neg hskip]
          have hc := continues_shortenFill hv hgo.1 hfill (k := nextReadNo - words.nwordsread - 1)
            (by omega)
          rw [findnextwordLoop_of_at (by simp; omega)]
          exact ⟨hc, rfl, by simp; omega, .inr (by simp; omega)⟩
      · rw [if_neg hfill]
        have hc := continues_nextWord hv hgo.1
        rw [length_uncompressWord, if_neg hfill] at hc
        exact (ih _ hc.valid (by simp; omega) (by simp; omega)).of_continues hc rfl
    · rw [findnextwordLoop, if_neg hgo]
      exact ⟨.refl hv, rfl, hread, by omega⟩

/-- **`_bitmap_findnextword` reads a batch on**, up to the position or to its end. -/
theorem findnextword_spec {nextReadNo : ℕ} (hv : words.Valid)
    (hread : words.nwordsread + 1 ≤ nextReadNo) :
    FindsNext words (findnextword words nextReadNo) nextReadNo :=
  findnextwordLoop_spec nextReadNo _ words hv (Nat.lt_succ_self _) hread

/-- `_bitmap_findnextword` moves a batch's first word on but not the end of its words, and leaves
its header words as they are. -/
theorem findnextwordLoop_end (nextReadNo : ℕ) :
    ∀ fuel (words : BMUnionBatchWords),
      (findnextwordLoop nextReadNo fuel words).startNo +
          (findnextwordLoop nextReadNo fuel words).nwords = words.startNo + words.nwords ∧
        (findnextwordLoop nextReadNo fuel words).hwords = words.hwords
  | 0, _ => ⟨rfl, rfl⟩
  | fuel + 1, words => by
    rw [findnextwordLoop]
    split_ifs with hgo hfill hskip
    · obtain ⟨hend, hh⟩ := findnextwordLoop_end nextReadNo fuel (words.nextWord _)
      simp only [nextWord_startNo, nextWord_nwords, nextWord_hwords] at hend hh
      exact ⟨by omega, hh⟩
    · -- a shortened fill word stays the first word
      obtain ⟨hend, hh⟩ := findnextwordLoop_end nextReadNo fuel (words.shortenFill _)
      simp only [shortenFill_startNo, shortenFill_nwords, shortenFill_hwords] at hend hh
      exact ⟨hend, hh⟩
    · obtain ⟨hend, hh⟩ := findnextwordLoop_end nextReadNo fuel (words.nextWord 1)
      simp only [nextWord_startNo, nextWord_nwords, nextWord_hwords] at hend hh
      exact ⟨by omega, hh⟩
    · exact ⟨rfl, rfl⟩

/-- A batch that `_bitmap_findnextword` empties stands past its last word, and `CUR_WORD_IS_FILL`
reads the header bit after that word. -/
theorem curWordIsFill_findnextword {nextReadNo : ℕ}
    (hout : (findnextword words nextReadNo).nwords = 0) :
    (findnextword words nextReadNo).curWordIsFill =
      isFillWord words.hwords (words.startNo + words.nwords) := by
  obtain ⟨hend, hh⟩ := findnextwordLoop_end nextReadNo (words.nwords + 1) words
  rw [findnextword] at hout ⊢
  rw [curWordIsFill, hh, ← hend, hout]
  rfl

/-- After `_bitmap_findnextword`, a batch read on from `orig` holds `orig`'s words from the
position on. -/
theorem FindsNext.unread_eq {words' : BMUnionBatchWords} {nextReadNo : ℕ}
    (h : FindsNext words words' nextReadNo) (hc : Continues words orig) :
    words'.unread = orig.unread.drop (nextReadNo - 1 - orig.nwordsread) := by
  have hc' := h.continues.trans hc
  have hle := hc'.nwordsread_le
  have hlt := h.nwordsread_lt
  rcases h.at_or_out with hout | hat
  · -- the batch ran out, and `orig` has no word left there either
    have hnil := unread_of_nwords_eq_zero hout
    rw [hnil]
    rw [hc'.unread_eq, List.drop_eq_nil_iff] at hnil
    exact (List.drop_eq_nil_iff.mpr (by omega)).symm
  · rw [hc'.unread_eq]
    congr 1
    omega

/-- A batch that holds a word at the position has not run out there. -/
theorem FindsNext.at_of_le {words' : BMUnionBatchWords} {nextReadNo : ℕ}
    (h : FindsNext words words' nextReadNo)
    (hlen : nextReadNo ≤ words.nwordsread + words.unread.length) :
    0 < words'.nwords ∧ words'.nwordsread + 1 = nextReadNo := by
  have hle := h.continues.nwordsread_le
  have hlt := h.nwordsread_lt
  have hpos : 0 < words'.nwords := by
    by_contra hzero
    have hnil := unread_of_nwords_eq_zero (Nat.eq_zero_of_not_pos hzero)
    rw [h.continues.unread_eq, List.drop_eq_nil_iff] at hnil
    omega
  exact ⟨hpos, h.at_or_out.resolve_left (by omega)⟩

end Read

/-! ## The OR of vectors -/

/-- The OR of vectors at a position, `LITERAL_ALL_ZERO` for none. -/
def orAt : List (ℕ → UInt64) → ℕ → UInt64
  | [], _ => literalAllZero
  | s :: S, x => s x ||| orAt S x

@[simp] theorem or_literalAllOne (w : UInt64) : w ||| literalAllOne = literalAllOne := by
  apply UInt64.toBitVec_inj.mp
  simp [literalAllOne]

@[simp] theorem literalAllOne_or (w : UInt64) : literalAllOne ||| w = literalAllOne := by
  rw [UInt64.or_comm, or_literalAllOne]

/-- Values all equal on a range. -/
theorem map_range_eq_replicate {α : Type} {f : ℕ → α} {c : α} {n : ℕ}
    (h : ∀ t < n, f t = c) :
    (List.range n).map f = List.replicate n c := by
  refine List.eq_replicate_iff.mpr ⟨by simp, fun b hb => ?_⟩
  obtain ⟨t, ht, rfl⟩ := List.mem_map.mp hb
  exact h t (List.mem_range.mp ht)

/-- Vectors that agree with batches read on from `origs` agree with the batches. -/
theorem Agrees.forall₂ {S : List (ℕ → UInt64)} {batches origs : List BMUnionBatchWords}
    (hS : List.Forall₂ Agrees S origs) (hc : List.Forall₂ Continues batches origs) :
    List.Forall₂ Agrees S batches := by
  induction hS generalizing batches with
  | nil =>
    rw [List.forall₂_nil_right_iff.mp hc]
    exact .nil
  | cons hs _ ih =>
    cases hc with
    | cons hc hcs => exact .cons (hc.agrees hs) (ih hcs)

/-- The OR at a position where every batch holds a word of zeros. -/
theorem orAt_eq_zero {x : ℕ} {S : List (ℕ → UInt64)} {batches : List BMUnionBatchWords}
    (hS : List.Forall₂ Agrees S batches)
    (hzero : ∀ words ∈ batches, ∀ s, Agrees s words → s x = 0) :
    orAt S x = literalAllZero := by
  induction hS with
  | nil => rfl
  | @cons s words S batches hs _ ih =>
    rw [orAt, hzero words List.mem_cons_self s hs,
      ih fun w hw => hzero w (List.mem_cons_of_mem _ hw)]
    rfl

/-! ## A round -/

/-- What a round leaves, from batches read on from `origs` that have read fewer than `nextReadNo`
words: the batches still read on from `origs`, and, for every vectors that agree with `origs`,
* when every batch gave its word, the OR of the vectors at the position with `orWord`, every batch
  having read up to the position;
* when a batch gave a fill word of ones, that fill word, the vectors having ones all along it;
* when a batch ran out, the batches still short of the position. -/
def RoundSpec (origs : List BMUnionBatchWords) (nextReadNo : ℕ) (orWord : UInt64)
    (r : UnionRound) : Prop :=
  List.Forall₂ Continues r.batches origs ∧
  match r.roundEnd with
  | .finished => r.orWordIsLiteral = true ∧ r.nextReadNo = nextReadNo ∧
      (∀ words ∈ r.batches, words.nwordsread = nextReadNo) ∧
      ∀ S, List.Forall₂ Agrees S origs → r.orWord = orWord ||| orAt S nextReadNo
  | .fillOne _ => r.orWordIsLiteral = false ∧ ∃ n, 0 < n ∧ n < 2 ^ 63 ∧
      r.orWord = bmMakeFillWord 1 n.toUInt64 ∧ r.nextReadNo = nextReadNo + n ∧
      (∀ words ∈ r.batches, words.nwordsread + 1 ≤ nextReadNo + n) ∧
      ∀ S, List.Forall₂ Agrees S origs → ∀ t < n, orAt S (nextReadNo + t) = literalAllOne
  | .exhausted => r.nextReadNo = nextReadNo ∧
      ∀ words ∈ r.batches, words.nwordsread + 1 ≤ nextReadNo

/-- A round that read the word `w` at the position from a first batch, then went on with the
other batches: the first batch, put back if the round ends on a batch that ran out. -/
theorem RoundSpec.cons_read {nextReadNo : ℕ} {acc acc' w : UInt64}
    {bch read orig : BMUnionBatchWords} {origs : List BMUnionBatchWords} {r : UnionRound}
    (hbch : Continues bch orig) (hat : bch.nwordsread + 1 = nextReadNo)
    (hread : Continues read bch) (hreadAt : read.nwordsread = nextReadNo)
    (hreset : resetWord read bch.startNo = bch)
    (hw : ∀ s, Agrees s bch → s nextReadNo = w) (hacc : acc' = acc ||| w)
    (hr : RoundSpec origs nextReadNo acc' r) :
    RoundSpec (orig :: origs) nextReadNo acc
      { r with batches := resetIfDone r.roundEnd read bch.startNo :: r.batches } := by
  obtain ⟨hcont, hspec⟩ := hr
  unfold RoundSpec
  revert hspec
  cases hre : r.roundEnd with
  | finished =>
    rintro ⟨hlit, hnext, hall, hor⟩
    rw [resetIfDone, if_neg (by simp)]
    refine ⟨.cons (hread.trans hbch) hcont, hlit, hnext,
      List.forall_mem_cons.mpr ⟨hreadAt, hall⟩, fun S hS => ?_⟩
    obtain ⟨s, S', hs, hS', rfl⟩ := List.forall₂_cons_right_iff.mp hS
    rw [hor S' hS', hacc, orAt, hw s (hbch.agrees hs), UInt64.or_assoc]
  | fillOne batchNo =>
    rintro ⟨hlit, n, hn, hn63, hword, hnext, hall, hones⟩
    rw [resetIfDone, if_neg (by simp)]
    refine ⟨.cons (hread.trans hbch) hcont, hlit, n, hn, hn63, hword, hnext,
      List.forall_mem_cons.mpr ⟨by omega, hall⟩, fun S hS t ht => ?_⟩
    obtain ⟨s, S', -, hS', rfl⟩ := List.forall₂_cons_right_iff.mp hS
    rw [orAt, hones S' hS' t ht, or_literalAllOne]
  | exhausted =>
    rintro ⟨hnext, hall⟩
    rw [resetIfDone, if_pos rfl, hreset]
    exact ⟨.cons hbch hcont, hnext, List.forall_mem_cons.mpr ⟨by omega, hall⟩⟩

/-- **What a round keeps.** -/
theorem unionRound_spec (nextReadNo : ℕ) (batches : List BMUnionBatchWords) :
    ∀ (origs : List BMUnionBatchWords) (acc : UInt64) (batchNo : ℕ),
      List.Forall₂ Continues batches origs →
      (∀ words ∈ batches, words.nwordsread + 1 ≤ nextReadNo) →
      RoundSpec origs nextReadNo acc (unionRound nextReadNo acc batchNo batches) := by
  induction batches with
  | nil =>
    intro origs acc batchNo hc _
    rw [List.forall₂_nil_left_iff.mp hc]
    refine ⟨.nil, rfl, rfl, by simp [unionRound], fun S hS => ?_⟩
    rw [List.forall₂_nil_right_iff.mp hS]
    exact (UInt64.or_zero ..).symm
  | cons bch batches ih =>
    intro origs acc batchNo hc hread
    obtain ⟨orig, origs, hco, hcs, rfl⟩ := List.forall₂_cons_left_iff.mp hc
    have hrest : ∀ words ∈ batches, words.nwordsread + 1 ≤ nextReadNo :=
      fun w hw => hread w (List.mem_cons_of_mem _ hw)
    have hfind := findnextword_spec hco.valid (hread bch List.mem_cons_self)
    simp only [unionRound]
    generalize findnextword bch nextReadNo = bch₁ at hfind ⊢
    have hc₁ := hfind.continues.trans hco
    by_cases hout : bch₁.nwords = 0
    · -- the batch ran out: the round ends
      rw [if_pos hout]
      exact ⟨.cons hc₁ hcs, rfl, List.forall_mem_cons.mpr ⟨hfind.nwordsread_lt, hrest⟩⟩
    rw [if_neg hout]
    have hat := hfind.at_or_out.resolve_left hout
    have hpos : 0 < bch₁.nwords := Nat.pos_of_ne_zero hout
    by_cases hone : bch₁.curWordIsFill = true ∧ getFillBit bch₁.curWord = 1
    · -- a fill word of ones ends the round
      rw [if_pos hone]
      have hL := hc₁.valid.fillLength_pos hpos hone.1
      have hL63 : (fillLength bch₁.curWord).toNat < 2 ^ 63 := by
        rw [toNat_fillLength]
        exact Nat.mod_lt _ (by decide)
      have hc₂ := continues_nextWord hc₁.valid hpos
      rw [length_uncompressWord, if_pos hone.1] at hc₂
      have hunread := unread_of_pos hpos 0
      rw [hone.1, uncompressWord, if_pos rfl, fillWordValue, if_pos hone.2] at hunread
      refine ⟨.cons (hc₂.trans hc₁) hcs, rfl, _, hL, hL63, ?_, by simp; omega,
        List.forall_mem_cons.mpr ⟨by simp; omega, fun w hw => (hrest w hw).trans (by omega)⟩,
        fun S hS t ht => ?_⟩
      · rw [nextWord_nwordsread, show bch₁.nwordsread + (fillLength bch₁.curWord).toNat -
          nextReadNo + 1 = (fillLength bch₁.curWord).toNat by omega]
      · obtain ⟨s, S, hs, -, rfl⟩ := List.forall₂_cons_right_iff.mp hS
        have hones := (hc₁.agrees hs).eq_of_unread_eq hunread (j := t) (by simpa using ht)
        rw [orAt, show nextReadNo + t = bch₁.nwordsread + 1 + t by omega, hones,
          List.getElem_replicate, literalAllOne_or]
    rw [if_neg hone]
    by_cases hzero : bch₁.curWordIsFill = true ∧ getFillBit bch₁.curWord = 0
    · -- a word of zeros: the fill word is read whole or shortened
      rw [if_pos hzero]
      have hL := hc₁.valid.fillLength_pos hpos hzero.1
      have hunread := unread_of_pos hpos 0
      rw [hzero.1, uncompressWord, if_pos rfl, fillWordValue, if_neg (by rw [hzero.2]; decide)]
        at hunread
      have hw : ∀ s, Agrees s bch₁ → s nextReadNo = 0 := fun s hs => by
        have h0 := hs.eq_of_unread_eq hunread (j := 0) (by simpa using hL)
        rw [show nextReadNo = bch₁.nwordsread + 1 + 0 by omega, h0, List.getElem_replicate]
        rfl
      generalize hreadDef : (if fillLength bch₁.curWord = 1 then bch₁.nextWord 1
        else bch₁.shortenFill 1) = read
      obtain ⟨hread, hreadAt, hreset⟩ :
          Continues read bch₁ ∧ read.nwordsread = nextReadNo ∧
            resetWord read bch₁.startNo = bch₁ := by
        subst hreadDef
        by_cases hL1 : fillLength bch₁.curWord = 1
        · rw [if_pos hL1]
          have hc₂ := continues_nextWord hc₁.valid hpos
          rw [length_uncompressWord, if_pos hzero.1, hL1, UInt64.toNat_one] at hc₂
          exact ⟨hc₂, by simp; omega, resetWord_nextWord hpos⟩
        · rw [if_neg hL1]
          have hne : (fillLength bch₁.curWord).toNat ≠ 1 :=
            fun h => hL1 (UInt64.toNat_inj.mp (by rw [h, UInt64.toNat_one]))
          exact ⟨continues_shortenFill hc₁.valid hpos hzero.1 (by omega), by simp; omega,
            resetWord_shortenFill (hc₁.valid.startNo_lt hpos)⟩
      exact RoundSpec.cons_read hc₁ hat hread hreadAt hreset hw (UInt64.or_zero ..).symm
        (ih origs acc (batchNo + 1) hcs hrest)
    · -- a literal word, the fill bit being `0` or `1`
      rw [if_neg hzero]
      have hlit : bch₁.curWordIsFill = false := by
        rcases getFillBit_eq_zero_or_one bch₁.curWord with hbit | hbit
        · exact Bool.eq_false_iff.mpr fun hfill => hzero ⟨hfill, hbit⟩
        · exact Bool.eq_false_iff.mpr fun hfill => hone ⟨hfill, hbit⟩
      have hunread := unread_of_pos hpos 0
      rw [hlit, uncompressWord, if_neg (by decide)] at hunread
      have hw : ∀ s, Agrees s bch₁ → s nextReadNo = bch₁.curWord := fun s hs => by
        have h0 := hs.eq_of_unread_eq hunread (j := 0) (by simp)
        rw [show nextReadNo = bch₁.nwordsread + 1 + 0 by omega, h0]
        rfl
      have hc₂ := continues_nextWord hc₁.valid hpos
      rw [length_uncompressWord, hlit, if_neg (by decide)] at hc₂
      exact RoundSpec.cons_read hc₁ hat hc₂ (by simp; omega) (resetWord_nextWord hpos) hw rfl
        (ih origs (acc ||| bch₁.curWord) (batchNo + 1) hcs hrest)

/-! ## The result -/

namespace BMUnionBatchWords

/-- A result's arrays hold `maxNumOfWords` content words, it holds no more, and no header bit is
set past its words. -/
structure ResultWF (result : BMUnionBatchWords) : Prop where
  nwords_le : result.nwords ≤ result.maxNumOfWords
  cwords_length : result.maxNumOfWords ≤ result.cwords.length
  hwords_length : result.maxNumOfWords ≤ bmHrlWordSize * result.hwords.length
  header_clear : ∀ j, result.nwords ≤ j → isFillWord result.hwords j = false

variable {result : BMUnionBatchWords}

theorem isFillWord_appendWord (h : result.ResultWF) (hroom : result.nwords < result.maxNumOfWords)
    (word : UInt64) (isFill : Bool) (j : ℕ) :
    isFillWord (result.appendWord word isFill).hwords j =
      (isFillWord result.hwords j || (isFill && decide (j = result.nwords))) := by
  have hdiv : result.nwords / bmHrlWordSize < result.hwords.length := by
    have := h.hwords_length
    unfold bmHrlWordSize at this ⊢
    omega
  cases isFill with
  | false => simp [appendWord]
  | true =>
    simp only [appendWord, if_true]
    rw [isFillWord_modify_or hdiv, Bool.true_and]

theorem ResultWF.appendWord (h : result.ResultWF) (hroom : result.nwords < result.maxNumOfWords)
    (word : UInt64) (isFill : Bool) : (result.appendWord word isFill).ResultWF where
  nwords_le := by simp only [appendWord_nwords, appendWord_maxNumOfWords]; omega
  cwords_length := by simpa [BMUnionBatchWords.appendWord] using h.cwords_length
  hwords_length := by
    cases isFill <;> simpa [BMUnionBatchWords.appendWord] using h.hwords_length
  header_clear j hj := by
    rw [appendWord_nwords] at hj
    rw [isFillWord_appendWord h hroom, h.header_clear j (by omega)]
    simp only [Bool.false_or, Bool.and_eq_false_iff, decide_eq_false_iff_not]
    exact .inr (by omega)

/-- Appending a word appends the words it stands for. -/
theorem uncompressed_appendWord (h : result.ResultWF) (hroom : result.nwords < result.maxNumOfWords)
    (word : UInt64) (isFill : Bool) :
    (result.appendWord word isFill).uncompressed =
      result.uncompressed ++ uncompressWord isFill word := by
  have hlen : result.nwords < result.cwords.length := by
    have := h.cwords_length
    omega
  rw [uncompressed, appendWord_nwords, uncompressWords_succ_right, Nat.zero_add, uncompressed]
  congr 1
  · refine uncompressWords_congr _ 0 fun j _ hj => ⟨?_, ?_⟩
    · have hne : j ≠ result.nwords := by omega
      rw [isFillWord_appendWord h hroom]
      simp [hne]
    · simp [BMUnionBatchWords.appendWord, List.getD_eq_getElem?_getD,
        List.getElem?_set_ne (show result.nwords ≠ j by omega)]
  · rw [isFillWord_appendWord h hroom, h.header_clear _ le_rfl]
    simp [BMUnionBatchWords.appendWord, List.getD_eq_getElem?_getD, hlen]

end BMUnionBatchWords

/-! ## The loop -/

/-- What holds at each turn of the loop of `_bitmap_union`, for batches read on from `origs`, which
wanted position `p`, and a result that started as `result₀`: the batches have read fewer words
than the next read position, and the result holds the OR of the vectors that agree with `origs`
from `p` up to that position. -/
structure LoopInv (origs : List BMUnionBatchWords) (p : ℕ) (result₀ : BMUnionBatchWords)
    (st : UnionState) : Prop where
  continues : List.Forall₂ Continues st.batches origs
  nwordsread_lt : ∀ words ∈ st.batches, words.nwordsread + 1 ≤ st.nextReadNo
  le_nextReadNo : p ≤ st.nextReadNo
  resultWF : st.result.ResultWF
  maxNumOfWords_eq : st.result.maxNumOfWords = result₀.maxNumOfWords
  firstTid_eq : st.result.firstTid = result₀.firstTid
  uncompressed_eq : ∀ S, List.Forall₂ Agrees S origs →
    st.result.uncompressed = (List.range (st.nextReadNo - p)).map fun t => orAt S (p + t)

section Loop

variable {origs : List BMUnionBatchWords} {p : ℕ} {result₀ : BMUnionBatchWords}

/-- A round that does not end on a batch that ran out appends its word, and the invariant holds at
the next turn. -/
theorem LoopInv.round {st : UnionState} {r : UnionRound} (hI : LoopInv origs p result₀ st)
    (hroom : st.result.nwords < st.result.maxNumOfWords)
    (hr : RoundSpec origs st.nextReadNo literalAllZero r) (hend : r.roundEnd ≠ .exhausted) :
    LoopInv origs p result₀ ⟨r.batches, st.result.appendWord r.orWord !r.orWordIsLiteral,
      if r.orWordIsLiteral then r.nextReadNo + 1 else r.nextReadNo⟩ := by
  obtain ⟨hcont, hspec⟩ := hr
  have hwf := hI.resultWF.appendWord hroom r.orWord !r.orWordIsLiteral
  have hle := hI.le_nextReadNo
  have hmax : (st.result.appendWord r.orWord !r.orWordIsLiteral).maxNumOfWords =
      result₀.maxNumOfWords := by simp [hI.maxNumOfWords_eq]
  have htid : (st.result.appendWord r.orWord !r.orWordIsLiteral).firstTid = result₀.firstTid := by
    simp [hI.firstTid_eq]
  revert hspec
  cases hre : r.roundEnd with
  | exhausted => exact absurd hre hend
  | finished =>
    -- one literal word, the OR at the position
    rintro ⟨hlit, hnext, hall, hor⟩
    simp only [hlit, if_true, hnext] at hwf hmax htid ⊢
    refine ⟨hcont, fun w hw => by rw [hall w hw], by dsimp only; omega, hwf, hmax, htid,
      fun S hS => ?_⟩
    rw [uncompressed_appendWord hI.resultWF hroom, hI.uncompressed_eq S hS, hor S hS,
      show st.nextReadNo + 1 - p = st.nextReadNo - p + 1 by omega, List.range_succ,
      List.map_append, Bool.not_true, uncompressWord, if_neg (by decide), literalAllZero,
      UInt64.zero_or, List.map_singleton, show p + (st.nextReadNo - p) = st.nextReadNo by omega]
  | fillOne batchNo =>
    -- a fill word of ones, as long as the ones of the vectors
    rintro ⟨hlit, n, hn, hn63, hword, hnext, hall, hones⟩
    simp only [hlit, Bool.false_eq_true, if_false, hnext] at hwf hmax htid ⊢
    refine ⟨hcont, hall, by dsimp only; omega, hwf, hmax, htid, fun S hS => ?_⟩
    rw [uncompressed_appendWord hI.resultWF hroom, hI.uncompressed_eq S hS, hword,
      Bool.not_false, uncompressWord_bmMakeFillWord_one hn63,
      show st.nextReadNo + n - p = st.nextReadNo - p + n by omega, List.range_add,
      List.map_append, List.map_map]
    congr 1
    refine (map_range_eq_replicate fun t ht => ?_).symm
    simp only [Function.comp_apply]
    rw [show p + (st.nextReadNo - p + t) = st.nextReadNo + t by omega]
    exact hones S hS t ht

/-- **The loop keeps its invariant.** -/
theorem unionLoop_spec (numBatches : ℕ) (fuel : ℕ) :
    ∀ st, LoopInv origs p result₀ st →
      LoopInv origs p result₀ (unionLoop numBatches fuel st) := by
  induction fuel with
  | zero => exact fun _ hI => hI
  | succ fuel ih =>
    intro st hI
    by_cases hroom : st.result.nwords < st.result.maxNumOfWords
    · have hr := unionRound_spec st.nextReadNo st.batches origs literalAllZero 0 hI.continues
        hI.nwordsread_lt
      simp only [unionLoop, if_pos hroom]
      generalize unionRound st.nextReadNo literalAllZero 0 st.batches = r at hr ⊢
      by_cases hend : r.roundEnd = .exhausted
      · -- a batch ran out: the loop ends with the batches put back
        rw [if_pos hend]
        obtain ⟨hcont, hspec⟩ := hr
        rw [hend] at hspec
        exact ⟨hcont, hspec.2, hI.le_nextReadNo, hI.resultWF, hI.maxNumOfWords_eq,
          hI.firstTid_eq, hI.uncompressed_eq⟩
      · rw [if_neg hend]
        have hI' := hI.round hroom hr hend
        by_cases hlast : lastBatchEmptied numBatches r = true
        · simp only [hlast, if_true]
          exact hI'
        · simp only [hlast, Bool.false_eq_true, if_false]
          exact ih _ hI'
    · simp only [unionLoop, if_neg hroom]
      exact hI

end Loop

/-! ## Fast forward -/

/-- What the loop of `fast_forward` leaves, from batches read on from `origs` that want position
`p`: the batches read on, still wanting `p` and short of it; and, when the
loop went through every batch, each at `p` on a fill word of zeros at least as long as the words to
skip, which are no more than `minFillLen`. -/
structure FastForwardSpec (origs : List BMUnionBatchWords) (p : ℕ) (minFillLen : UInt64)
    (r : List BMUnionBatchWords × Option UInt64) : Prop where
  continues : List.Forall₂ Continues r.1 origs
  before : ∀ words ∈ r.1, words.nextread = p ∧ words.nwordsread + 1 ≤ p
  skip : ∀ fastForwardWords, r.2 = some fastForwardWords →
    (fastForwardWords ≠ 0 → fastForwardWords ≤ minFillLen) ∧
    ∀ words ∈ r.1, words.nwordsread + 1 = p ∧ 0 < words.nwords ∧
      words.curWordIsFill = true ∧ getFillBit words.curWord = 0 ∧
      (fastForwardWords ≠ 0 → fastForwardWords.toNat ≤ (fillLength words.curWord).toNat)

/-- A batch at `p` on a fill word of zeros, before the batches after it, whose words to skip are
at most `m`. -/
theorem FastForwardSpec.cons {origs : List BMUnionBatchWords} {p : ℕ} {minFillLen m : UInt64}
    {words orig : BMUnionBatchWords} {r : List BMUnionBatchWords × Option UInt64}
    (hr : FastForwardSpec origs p m r) (hc : Continues words orig) (hnext : words.nextread = p)
    (hat : words.nwordsread + 1 = p) (hpos : 0 < words.nwords)
    (hfill : words.curWordIsFill = true) (hzero : getFillBit words.curWord = 0)
    (hm : m ≤ minFillLen) (hmL : m ≤ fillLength words.curWord) :
    FastForwardSpec (orig :: origs) p minFillLen (words :: r.1, r.2) := by
  refine ⟨.cons hc hr.continues, List.forall_mem_cons.mpr ⟨⟨hnext, hat.le⟩, hr.before⟩,
    fun ffw hffw => ?_⟩
  obtain ⟨hle, hall⟩ := hr.skip ffw hffw
  exact ⟨fun hne => UInt64.le_trans (hle hne) hm, List.forall_mem_cons.mpr
    ⟨⟨hat, hpos, hfill, hzero,
      fun hne => UInt64.le_iff_toNat_le.mp (UInt64.le_trans (hle hne) hmL)⟩, hall⟩⟩

theorem fastForwardLoop_spec (p : ℕ) (batches : List BMUnionBatchWords) :
    ∀ (origs : List BMUnionBatchWords) (minFillLen fastForwardWords : UInt64),
      List.Forall₂ Continues batches origs →
      (∀ words ∈ batches, words.nextread = p ∧ words.nwordsread + 1 ≤ p ∧
        (p ≤ words.nwordsread + words.unread.length ∨
          isFillWord words.hwords (words.startNo + words.nwords) = false)) →
      (fastForwardWords = 0 ∨ fastForwardWords = minFillLen) →
      FastForwardSpec origs p minFillLen (fastForwardLoop batches minFillLen fastForwardWords) := by
  induction batches with
  | nil =>
    intro origs minFillLen ffw hc _ hff
    rw [List.forall₂_nil_left_iff.mp hc]
    refine ⟨.nil, by simp [fastForwardLoop], fun ffw' hffw => ?_⟩
    simp only [fastForwardLoop, Option.some.injEq] at hffw
    subst hffw
    refine ⟨fun hne => ?_, by simp [fastForwardLoop]⟩
    rcases hff with h | h
    · exact absurd h hne
    · exact h ▸ UInt64.le_refl _
  | cons words batches ih =>
    intro origs minFillLen ffw hc hwant hff
    obtain ⟨orig, origs, hco, hcs, rfl⟩ := List.forall₂_cons_left_iff.mp hc
    obtain ⟨hnext, hread, hword⟩ := hwant words List.mem_cons_self
    have hrest := fun w hw => hwant w (List.mem_cons_of_mem _ hw)
    have hfind := findnextword_spec hco.valid (hnext ▸ hread)
    -- a batch emptied before `p` reads the clear header bit after its last word: a literal word
    have hout : (findnextword words words.nextread).nwords = 0 →
        (findnextword words words.nextread).curWordIsFill = false := by
      intro hzero
      rw [curWordIsFill_findnextword hzero]
      refine hword.resolve_left fun hlen => ?_
      have := (hfind.at_of_le (hnext ▸ hlen)).1
      omega
    simp only [fastForwardLoop]
    generalize findnextword words words.nextread = words₁ at hfind hout ⊢
    have hc₁ := hfind.continues.trans hco
    have hnext₁ : words₁.nextread = p := hfind.nextread_eq.trans hnext
    have hread₁ : words₁.nwordsread + 1 ≤ p := hnext ▸ hfind.nwordsread_lt
    -- a batch that stops the loop, and the batches after it as they were
    have hstop : FastForwardSpec (orig :: origs) p minFillLen (words₁ :: batches, none) :=
      ⟨.cons hc₁ hcs, List.forall_mem_cons.mpr ⟨⟨hnext₁, hread₁⟩,
        fun w hw => ⟨(hrest w hw).1, (hrest w hw).2.1⟩⟩, fun _ h => nomatch h⟩
    by_cases hone : words₁.curWordIsFill = true ∧ getFillBit words₁.curWord = 1
    · rw [if_pos hone]
      exact hstop
    rw [if_neg hone]
    by_cases hlit : ¬words₁.curWordIsFill = true
    · rw [if_pos hlit]
      exact hstop
    rw [if_neg hlit]
    have hfill : words₁.curWordIsFill = true := not_not.mp hlit
    have hzero : getFillBit words₁.curWord = 0 :=
      (getFillBit_eq_zero_or_one _).resolve_right fun h => hone ⟨hfill, h⟩
    -- a fill word is no emptied batch, so the batch stands at `p`
    have hpos : 0 < words₁.nwords :=
      Nat.pos_of_ne_zero fun h => absurd (hout h) (by rw [hfill]; decide)
    have hat : words₁.nwordsread + 1 = p := hnext ▸ hfind.at_or_out.resolve_left (by omega)
    split_ifs with hlt
    · -- a shorter fill of zeros
      exact (ih origs _ _ hcs hrest (.inr rfl)).cons hc₁ hnext₁ hat hpos hfill hzero
        (UInt64.le_of_lt hlt) (UInt64.le_refl _)
    · exact (ih origs _ _ hcs hrest hff).cons hc₁ hnext₁ hat hpos hfill hzero
        (UInt64.le_refl _) (UInt64.not_lt.mp hlt)

/-- **`fast_forward` sets up the loop's invariant**, from batches that want position `p`, have
read fewer words and either hold a word there or have the header bit after their last word clear,
and an empty result with room. -/
theorem fastForward_spec {batches : List BMUnionBatchWords} {result : BMUnionBatchWords} {p : ℕ}
    (hne : batches ≠ [])
    (hbatches : ∀ words ∈ batches, words.Valid ∧ words.nextread = p ∧
      words.nwordsread + 1 ≤ p ∧ (p ≤ words.nwordsread + words.unread.length ∨
        isFillWord words.hwords (words.startNo + words.nwords) = false))
    (hwf : result.ResultWF) (hempty : result.nwords = 0) (hroom : 0 < result.maxNumOfWords) :
    LoopInv batches p result (fastForward batches result) := by
  have hspec := fastForwardLoop_spec p batches batches maxFillLength 0
    (List.forall₂_same.mpr fun w hw => .refl (hbatches w hw).1) (fun w hw => (hbatches w hw).2)
    (.inl rfl)
  have hnil : result.uncompressed = [] := by rw [uncompressed, hempty, uncompressWords_zero]
  unfold fastForward
  generalize fastForwardLoop batches maxFillLength 0 = r at hspec ⊢
  dsimp only
  obtain ⟨first, rest, hfirst⟩ : ∃ first rest, r.1 = first :: rest :=
    List.exists_cons_of_ne_nil fun h =>
      hne (List.forall₂_nil_left_iff.mp (h ▸ hspec.continues))
  -- when no words are skipped, the loop starts at `p`
  have hstay : LoopInv batches p result ⟨r.1, result, firstNextread r.1⟩ := by
    have hN : firstNextread r.1 = p := by
      rw [hfirst, firstNextread]
      exact (hspec.before first (hfirst ▸ List.mem_cons_self)).1
    refine ⟨hspec.continues, fun w hw => hN ▸ (hspec.before w hw).2, hN.ge, hwf, rfl, rfl,
      fun S _ => ?_⟩
    rw [hnil, hN, Nat.sub_self, List.range_zero, List.map_nil]
  cases hr : r.2 with
  | none => exact hstay
  | some ffw =>
    dsimp only
    by_cases hff : ffw ≠ 0
    · -- every batch skips `ffw` words of zeros, appended as one fill word
      rw [if_pos hff]
      obtain ⟨hmax, hall⟩ := hspec.skip ffw hr
      have hffw : ffw.toNat < 2 ^ 63 := by
        have h := UInt64.le_iff_toNat_le.mp (hmax hff)
        have hmaxFill : maxFillLength.toNat = 2 ^ 63 - 1 := by decide
        omega
      have hN : firstNextread (r.1.map fun w => { w with nextread := w.nwordsread + ffw.toNat + 1 })
          = p + ffw.toNat := by
        rw [hfirst, List.map_cons, firstNextread]
        have := (hall first (hfirst ▸ List.mem_cons_self)).1
        dsimp only
        omega
      refine ⟨List.forall₂_map_left_iff.mpr (hspec.continues.imp fun _ _ h =>
          ⟨h.valid, h.nwordsread_le, h.unread_eq⟩), ?_, by dsimp only; rw [hN]; omega,
        hwf.appendWord (by omega) _ _, by simp, by simp, fun S hS => ?_⟩
      · intro x hx
        obtain ⟨w, hw, rfl⟩ := List.mem_map.mp hx
        rw [hN]
        dsimp only
        have := (hall w hw).1
        omega
      · rw [uncompressed_appendWord hwf (by omega), hnil, List.nil_append,
          uncompressWord_fill_of_lt hffw, hN, Nat.add_sub_cancel_left]
        refine (map_range_eq_replicate fun t ht => ?_).symm
        refine orAt_eq_zero (Agrees.forall₂ hS hspec.continues) fun w hw s hs => ?_
        obtain ⟨hat, hpos, hfill, hzero, hlen⟩ := hall w hw
        have hunread := unread_of_pos hpos 0
        rw [hfill, uncompressWord, if_pos rfl, fillWordValue, if_neg (by rw [hzero]; decide)]
          at hunread
        have h0 := hs.eq_of_unread_eq hunread (j := t) (by simp; have := hlen hff; omega)
        rw [show p + t = w.nwordsread + 1 + t by omega, h0, List.getElem_replicate]
        rfl
    · rw [if_neg hff]
      exact hstay

/-! ## The union -/

/-- **The union of bitmap batches is their bitwise OR.** From `k ≥ 1` valid batches that want the
uncompressed position `p`, have read fewer words and either hold a word there or have the header
bit after their last word clear, and an empty result whose arrays hold `maxNumOfWords ≥ 2`
words, `_bitmap_union` leaves every batch wanting one position `q ≥ p`, sets the result's first
tid to that of position `p`, and fills the result with `q - p` words that are, for any vectors
that agree with the batches, their OR at positions `p` to `q - 1`.
Each batch, brought to `q` by `_bitmap_findnextword`, holds its words from `q` on.

`read_words` copies a page's header words, whose bits past its last word are clear, and
`_bitmap_reset_batchwords` clears them all, so a batch has the header bit after its words clear.
It matters for a batch whose words all lie before `p`: the `_bitmap_findnextword` of
`fast_forward` empties it, and `fast_forward`, which does not test `nwords`, reads that bit as
`CUR_WORD_IS_FILL`. -/
theorem bitmapUnion_is_bitwise_or (batches : List BMUnionBatchWords) (result : BMUnionBatchWords)
    (p : ℕ) (hne : batches ≠ [])
    (hbatches : ∀ words ∈ batches, words.Valid ∧ words.nextread = p ∧
      words.nwordsread + 1 ≤ p ∧ (p ≤ words.nwordsread + words.unread.length ∨
        isFillWord words.hwords (words.startNo + words.nwords) = false))
    (hempty : result.nwords = 0) (hclear : ∀ x ∈ result.hwords, x = 0)
    (hmax : 2 ≤ result.maxNumOfWords) (hcwords : result.maxNumOfWords ≤ result.cwords.length)
    (hhwords : result.maxNumOfWords ≤ bmHrlWordSize * result.hwords.length) :
    ∃ q, p ≤ q ∧ (∀ words ∈ (bitmapUnion batches result).1, words.nextread = q) ∧
      (bitmapUnion batches result).2.firstTid.toNat = (64 * (p - 1) + 1) % 2 ^ 64 ∧
      (∀ S, List.Forall₂ Agrees S batches → (bitmapUnion batches result).2.uncompressed =
        (List.range (q - p)).map fun t => orAt S (p + t)) ∧
      List.Forall₂ (fun words' words =>
          (findnextword words' q).unread = words.unread.drop (q - 1 - words.nwordsread))
        (bitmapUnion batches result).1 batches ∧
      (bitmapUnion batches result).2.nwords ≤ result.maxNumOfWords := by
  obtain ⟨first, rest, rfl⟩ := List.exists_cons_of_ne_nil hne
  have hfirst := (hbatches first List.mem_cons_self).2.1
  -- the result with its first tid set
  set result₁ : BMUnionBatchWords :=
    { result with firstTid := ((first.nextread - 1) * bmHrlWordSize + 1).toUInt64 } with hresult₁
  have hwf : result₁.ResultWF := by
    refine ⟨by simp [result₁, hempty], hcwords, hhwords, fun j _ => ?_⟩
    have hzero : result.hwords.getD (j / 64) 0 = 0 := by
      rw [List.getD_eq_getElem?_getD]
      rcases h : result.hwords[j / 64]? with _ | x
      · rfl
      · exact hclear x (List.mem_of_getElem? h)
    rw [isFillWord_eq_testBit, hzero, UInt64.toNat_zero, Nat.zero_testBit]
  have hI := unionLoop_spec (first :: rest).length
    ((fastForward (first :: rest) result₁).result.maxNumOfWords -
      (fastForward (first :: rest) result₁).result.nwords) _
    (fastForward_spec hne hbatches hwf hempty (by simp [result₁]; omega))
  simp only [bitmapUnion]
  generalize unionLoop _ _ (fastForward (first :: rest) result₁) = st at hI ⊢
  refine ⟨st.nextReadNo, hI.le_nextReadNo, by simp, ?_, hI.uncompressed_eq, ?_, ?_⟩
  · rw [hI.firstTid_eq, UInt64.toNat_ofNat', hfirst, bmHrlWordSize, Nat.mul_comm]
  · rw [List.forall₂_map_left_iff]
    refine ((List.forall₂_and_left _ _).mpr ⟨hI.nwordsread_lt, hI.continues⟩).imp ?_
    rintro words orig ⟨hlt, hc⟩
    -- the next read position the union sets is not one `_bitmap_findnextword` reads
    have hc' : Continues { words with nextread := st.nextReadNo } orig :=
      ⟨hc.valid, hc.nwordsread_le, hc.unread_eq⟩
    exact (findnextword_spec hc'.valid hlt).unread_eq hc'
  · exact hI.maxNumOfWords_eq ▸ hI.resultWF.nwords_le

/-- A batch of a fill word of two words of zeros and the literal word `5`, at position `1`. -/
def zerosThenLiteral : BMUnionBatchWords :=
  { firstTid := 1, startNo := 0, nwords := 2, hwords := [wordnoGetHeaderBit 0], cwords := [2, 5],
    maxNumOfWords := 2, nwordsread := 0, nextread := 1 }

/-- A batch of the literal word `3` and a fill word of one word of ones, at position `1`. -/
def literalThenOnes : BMUnionBatchWords :=
  { firstTid := 1, startNo := 0, nwords := 2, hwords := [wordnoGetHeaderBit 1],
    cwords := [3, bmMakeFillWord 1 1], maxNumOfWords := 2, nwordsread := 0, nextread := 1 }

/-- An empty result of two words. -/
def emptyResult : BMUnionBatchWords :=
  { firstTid := 0, startNo := 0, nwords := 0, hwords := [0], cwords := [0, 0], maxNumOfWords := 2,
    nwordsread := 0, nextread := 0 }

theorem emptyResult_hwords_clear : ∀ x ∈ emptyResult.hwords, x = 0 := by
  intro x hx
  simpa [emptyResult] using hx

theorem bitmapUnion_is_bitwise_or_two_batches :
    [zerosThenLiteral, literalThenOnes] ≠ [] ∧
    (∀ words ∈ [zerosThenLiteral, literalThenOnes], words.Valid ∧ words.nextread = 1 ∧
      words.nwordsread + 1 ≤ 1 ∧ (1 ≤ words.nwordsread + words.unread.length ∨
        isFillWord words.hwords (words.startNo + words.nwords) = false)) ∧
    emptyResult.nwords = 0 ∧ (∀ x ∈ emptyResult.hwords, x = 0) ∧
    2 ≤ emptyResult.maxNumOfWords ∧
    emptyResult.maxNumOfWords ≤ emptyResult.cwords.length ∧
    emptyResult.maxNumOfWords ≤ bmHrlWordSize * emptyResult.hwords.length ∧
    ∃ q, 1 ≤ q ∧
      (∀ words ∈ (bitmapUnion [zerosThenLiteral, literalThenOnes] emptyResult).1,
        words.nextread = q) ∧
      (bitmapUnion [zerosThenLiteral, literalThenOnes] emptyResult).2.firstTid.toNat =
        (64 * (1 - 1) + 1) % 2 ^ 64 ∧
      (∀ S, List.Forall₂ Agrees S [zerosThenLiteral, literalThenOnes] →
        (bitmapUnion [zerosThenLiteral, literalThenOnes] emptyResult).2.uncompressed =
          (List.range (q - 1)).map fun t => orAt S (1 + t)) ∧
      List.Forall₂ (fun words' words =>
          (findnextword words' q).unread = words.unread.drop (q - 1 - words.nwordsread))
        (bitmapUnion [zerosThenLiteral, literalThenOnes] emptyResult).1
        [zerosThenLiteral, literalThenOnes] ∧
      (bitmapUnion [zerosThenLiteral, literalThenOnes] emptyResult).2.nwords ≤
        emptyResult.maxNumOfWords :=
  ⟨by decide, by decide, rfl, emptyResult_hwords_clear, by decide, by decide, by decide,
    bitmapUnion_is_bitwise_or [zerosThenLiteral, literalThenOnes] emptyResult 1 (by decide)
      (by decide) rfl emptyResult_hwords_clear (by decide) (by decide) (by decide)⟩

/-- The union of the two batches: the literal word `3`, then a fill word of one word of ones. -/
example : (bitmapUnion [zerosThenLiteral, literalThenOnes] emptyResult).2.uncompressed =
    [3, literalAllOne] := by
  decide

/-- A batch of the literal word `7` at position `1` that wants position `3`, with the header bit
after it clear. -/
def literalBeforeThree : BMUnionBatchWords :=
  { firstTid := 1, startNo := 0, nwords := 1, hwords := [0], cwords := [7, 5],
    maxNumOfWords := 2, nwordsread := 0, nextread := 3 }

/-- A batch of a fill word of ten words of zeros at position `3`. -/
def zerosAtThree : BMUnionBatchWords :=
  { firstTid := 129, startNo := 0, nwords := 1, hwords := [wordnoGetHeaderBit 0], cwords := [10],
    maxNumOfWords := 2, nwordsread := 2, nextread := 3 }

/-- A batch emptied before the position ends the union at once: no word, and both batches left
wanting position `3`. -/
example : (bitmapUnion [literalBeforeThree, zerosAtThree] emptyResult).2.nwords = 0 ∧
    (bitmapUnion [literalBeforeThree, zerosAtThree] emptyResult).1.map (·.nextread) = [3, 3] := by
  decide

end Cloudberry.Bitmap
