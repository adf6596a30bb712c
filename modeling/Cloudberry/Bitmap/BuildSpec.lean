import Cloudberry.Bitmap.Build
import Cloudberry.Lib.BitString
import Cloudberry.Lib.MachineInt

/-!
# The index build buffers tids in canonical HRL words

A `BMTIDBuffer` stands for a bit string: its content words, read as fill or literal words by their
header bits, then `last_compword` once it is no longer the marker `LITERAL_ALL_ONE`, then
`last_word` as a literal word (`BMTIDBuffer.bits`). The words before `last_word` are canonical
(`Canonical`): every fill word is 1 to `MAX_FILL_LENGTH` words long, no literal word is all zeros
or all ones, and no two fill words in a row have one fill bit.

`mergewords` completes `last_word` in each of its cases (`mergewords_spec`): below `2^48` bits two
fill words of one fill bit always merge, so the branch that splits a fill word longer than
`MAX_FILL_LENGTH` is never taken. `buf_add_tid_with_fill` runs in three stages: the zeros before
the tid (`addZeros`: completing the word, then one fill word of zeros), setting the tid's bit,
and merging the word when the tid ends it; each stage keeps what the buffer holds (`BitsAt`), and
together they add the tid's bit position (`bufAddTidWithFill_spec`):

* `bufAddTids_spec`: increasing tids add their positions in order;
* `bufAddTids_encodes_tids`: from a new LOV item, the set bits of the buffer are exactly at the
  tids' positions, and its complete words are canonical.
-/

namespace Cloudberry.Bitmap

open BitString MachineInt

/-! ## What a buffer stands for -/

/-- The bits of a list of words, each with whether it is a fill word. -/
def wordsBits (ws : List (Bool × UInt64)) : List Bool :=
  ws.flatMap fun p => wordBits p.1 p.2

/-- The first `n` content words, with their header bits. -/
def contentWords (hwords cwords : List UInt64) (n : ℕ) : List (Bool × UInt64) :=
  (List.range n).map fun j => (isFillWord hwords j, cwords.getD j 0)

/-- The complete words of a buffer: the content words, then `last_compword` once it is no longer
the marker `LITERAL_ALL_ONE`. -/
def BMTIDBuffer.completeWords (buf : BMTIDBuffer) : List (Bool × UInt64) :=
  contentWords buf.hwords buf.cwords buf.cwords.length ++
    if buf.lastCompword = literalAllOne then [] else [(buf.isLastCompwordFill, buf.lastCompword)]

/-- The bits of the complete words. -/
def BMTIDBuffer.completeBits (buf : BMTIDBuffer) : List Bool :=
  wordsBits buf.completeWords

/-- The bits that a buffer stands for: its complete words, then `last_word` as a literal. -/
def BMTIDBuffer.bits (buf : BMTIDBuffer) : List Bool :=
  buf.completeBits ++ wordBits false buf.lastWord

/-- A word as `mergewords` completes it: a fill word stands for at least one word and at most
`MAX_FILL_LENGTH`, a literal word is neither all zeros nor all ones. -/
def WordOk : Bool × UInt64 → Prop
  | (true, w) => 0 < (fillLength w).toNat ∧ fillLength w ≤ maxFillLength
  | (false, w) => w ≠ literalAllZero ∧ w ≠ literalAllOne

/-- Canonical HRL words: every word is `WordOk`, and no two fill words in a row have one fill
bit. -/
def Canonical (ws : List (Bool × UInt64)) : Prop :=
  (∀ p ∈ ws, WordOk p) ∧
    ws.IsChain fun p q => p.1 = true → q.1 = true → getFillBit p.2 ≠ getFillBit q.2

@[simp] theorem wordsBits_nil : wordsBits [] = [] := rfl

theorem wordsBits_append (ws ws' : List (Bool × UInt64)) :
    wordsBits (ws ++ ws') = wordsBits ws ++ wordsBits ws' := by
  simp [wordsBits]

@[simp] theorem wordsBits_singleton (p : Bool × UInt64) : wordsBits [p] = wordBits p.1 p.2 := by
  simp [wordsBits]

theorem length_wordBits_le {ws : List (Bool × UInt64)} {p : Bool × UInt64} (hp : p ∈ ws) :
    (wordBits p.1 p.2).length ≤ (wordsBits ws).length := by
  obtain ⟨l₁, l₂, rfl⟩ := List.append_of_mem hp
  rw [wordsBits_append, List.length_append, ← List.singleton_append, wordsBits_append,
    wordsBits_singleton, List.length_append]
  omega

theorem length_wordBits_true (w : UInt64) :
    (wordBits true w).length = (fillLength w).toNat * 64 := by
  simp [wordBits, length_wordBitsFrom]

@[simp] theorem contentWords_zero (hwords cwords : List UInt64) :
    contentWords hwords cwords 0 = [] :=
  rfl

theorem contentWords_succ (hwords cwords : List UInt64) (n : ℕ) :
    contentWords hwords cwords (n + 1) =
      contentWords hwords cwords n ++ [(isFillWord hwords n, cwords.getD n 0)] := by
  simp [contentWords, List.range_succ]

theorem contentWords_congr {hwords hwords' cwords cwords' : List UInt64} {n : ℕ}
    (h : ∀ j < n, isFillWord hwords' j = isFillWord hwords j ∧
      cwords'.getD j 0 = cwords.getD j 0) :
    contentWords hwords' cwords' n = contentWords hwords cwords n :=
  List.map_congr_left fun j hj => by
    obtain ⟨h₁, h₂⟩ := h j (List.mem_range.mp hj)
    rw [h₁, h₂]

/-- A word goes after canonical words when it is `WordOk` and does not continue a fill word of
its fill bit. -/
theorem canonical_append_singleton {ws : List (Bool × UInt64)} {p : Bool × UInt64} :
    Canonical (ws ++ [p]) ↔ Canonical ws ∧ WordOk p ∧
      ∀ q ∈ ws.getLast?, q.1 = true → p.1 = true → getFillBit q.2 ≠ getFillBit p.2 := by
  simp only [Canonical, List.mem_append, List.mem_singleton, List.isChain_append,
    List.isChain_singleton, List.head?_cons, Option.mem_some_iff, true_and]
  constructor
  · rintro ⟨hok, hchain, hlast⟩
    exact ⟨⟨fun q hq => hok q (Or.inl hq), hchain⟩, hok p (Or.inr rfl),
      fun q hq => hlast q hq p rfl⟩
  · rintro ⟨⟨hok, hchain⟩, hp, hlast⟩
    refine ⟨fun q hq => hq.elim (hok q) (fun h => h ▸ hp), hchain, ?_⟩
    rintro q hq r rfl
    exact hlast q hq

/-- The last of canonical words can be replaced by a fill word of the same fill bit. -/
theorem Canonical.replace_last_fill {ws : List (Bool × UInt64)} {w w' : UInt64}
    (h : Canonical (ws ++ [(true, w)])) (hw' : WordOk (true, w'))
    (hbit : getFillBit w' = getFillBit w) : Canonical (ws ++ [(true, w')]) := by
  obtain ⟨hws, -, hlast⟩ := canonical_append_singleton.mp h
  exact canonical_append_singleton.mpr ⟨hws, hw', hbit ▸ hlast⟩

/-! ## Words -/

theorem wordBits_true (w : UInt64) :
    wordBits true w = List.replicate ((fillLength w).toNat * 64) (getFillBit w == 1) := rfl

theorem fillLength_literalAllOne : fillLength literalAllOne = maxFillLength := by decide

/-- A word of fewer than `2^48` bits is not the marker: a fill word of ones would need
`MAX_FILL_LENGTH` words to be `LITERAL_ALL_ONE`. -/
theorem ne_literalAllOne_of_wordOk {f : Bool} {w : UInt64} (h : WordOk (f, w))
    (hb : (wordBits f w).length < 2 ^ 48) : w ≠ literalAllOne := by
  cases f with
  | false => exact h.2
  | true =>
    rintro rfl
    rw [length_wordBits_true, fillLength_literalAllOne] at hb
    exact absurd hb (by decide)

/-- Lengthening a fill word by `k` words keeps its fill bit, while the length stays below
`2^63`. -/
theorem toNat_add_fill {w k : UInt64} (hk : (fillLength w).toNat + k.toNat < 2 ^ 63) :
    (w + k).toNat = w.toNat + k.toNat := by
  have hsplit := toNat_eq_fill w
  have hbit : (getFillBit w).toNat < 2 := by
    rw [toNat_getFillBit]
    exact Nat.div_lt_of_lt_mul (by simpa using w.toNat_lt)
  exact toNat_add_of_lt (by omega)

theorem fillLength_add {w k : UInt64} (hk : (fillLength w).toNat + k.toNat < 2 ^ 63) :
    (fillLength (w + k)).toNat = (fillLength w).toNat + k.toNat := by
  have hsplit := toNat_eq_fill w
  rw [toNat_fillLength, toNat_add_fill hk, hsplit]
  omega

theorem getFillBit_add {w k : UInt64} (hk : (fillLength w).toNat + k.toNat < 2 ^ 63) :
    getFillBit (w + k) = getFillBit w := by
  have hsplit := toNat_eq_fill w
  rw [← UInt64.toNat_inj, toNat_getFillBit, toNat_add_fill hk, hsplit]
  omega

/-- Lengthening a fill word by `k` words adds `k` words of its fill bit. -/
theorem wordBits_true_add {w k : UInt64} (hk : (fillLength w).toNat + k.toNat < 2 ^ 63) :
    wordBits true (w + k) =
      wordBits true w ++ List.replicate (k.toNat * 64) (getFillBit w == 1) := by
  rw [wordBits_true, wordBits_true, fillLength_add hk, getFillBit_add hk, Nat.add_mul,
    List.replicate_add]

/-! ## Completing a word -/

/-- What the buffer keeps between two calls of `mergewords`: its complete words are canonical, the
header bits past the content words are clear, and `last_compword` is the marker only while no
word is complete. -/
structure BMTIDBuffer.Wf (buf : BMTIDBuffer) : Prop where
  canonical : Canonical buf.completeWords
  header_clear : ∀ j, buf.cwords.length ≤ j → isFillWord buf.hwords j = false
  marker : buf.lastCompword = literalAllOne → buf.cwords = []

variable {buf : BMTIDBuffer}

theorem BMTIDBuffer.Wf.with_lastWord (hw : buf.Wf) (w : UInt64) :
    ({ buf with lastWord := w } : BMTIDBuffer).Wf :=
  ⟨hw.canonical, hw.header_clear, hw.marker⟩

theorem BMTIDBuffer.Wf.with_lastTid (hw : buf.Wf) (t : UInt64) :
    ({ buf with lastTid := t } : BMTIDBuffer).Wf :=
  ⟨hw.canonical, hw.header_clear, hw.marker⟩

theorem BMTIDBuffer.completeWords_of_ne (h : buf.lastCompword ≠ literalAllOne) :
    buf.completeWords = contentWords buf.hwords buf.cwords buf.cwords.length ++
      [(buf.isLastCompwordFill, buf.lastCompword)] := by
  rw [completeWords, if_neg h]

theorem BMTIDBuffer.completeWords_of_marker (hw : buf.Wf) (h : buf.lastCompword = literalAllOne) :
    buf.completeWords = [] := by
  rw [completeWords, if_pos h, hw.marker h]
  rfl

/-- Pushing `last_compword` to the content words keeps the complete words and completes
`last_word`. -/
theorem completeWords_pushCompword (hw : buf.Wf) (hm : buf.lastCompword ≠ literalAllOne)
    (hroom : buf.cwords.length < buf.hwords.length * bmHrlWordSize)
    (hl : buf.lastWord ≠ literalAllOne) (t : UInt64) (f : Bool) :
    (pushCompword buf t f).completeWords = buf.completeWords ++ [(f, buf.lastWord)] ∧
      ∀ j, (pushCompword buf t f).cwords.length ≤ j →
        isFillWord (pushCompword buf t f).hwords j = false := by
  set n := buf.cwords.length
  have hdiv : n / bmHrlWordSize < buf.hwords.length := by
    unfold bmHrlWordSize at hroom ⊢
    omega
  -- the header words after the push: word `n` is marked iff `last_compword` is a fill word
  have hfill : ∀ j, isFillWord (pushCompword buf t f).hwords j =
      (isFillWord buf.hwords j || (buf.isLastCompwordFill && decide (j = n))) := by
    intro j
    simp only [pushCompword]
    cases buf.isLastCompwordFill with
    | false => simp
    | true => rw [if_pos rfl, isFillWord_modify_or hdiv, Bool.true_and]
  have hlen : (pushCompword buf t f).cwords.length = n + 1 := by simp [pushCompword, n]
  refine ⟨?_, fun j hj => ?_⟩
  · have hprefix : contentWords (pushCompword buf t f).hwords (pushCompword buf t f).cwords n =
        contentWords buf.hwords buf.cwords n := by
      refine contentWords_congr fun j hj => ⟨?_, ?_⟩
      · rw [hfill, decide_eq_false (Nat.ne_of_lt hj), Bool.and_false, Bool.or_false]
      · simp [pushCompword, List.getElem?_append_left hj]
    have hlast : (isFillWord (pushCompword buf t f).hwords n,
        (pushCompword buf t f).cwords.getD n 0) = (buf.isLastCompwordFill, buf.lastCompword) := by
      rw [hfill, hw.header_clear n le_rfl]
      simp [pushCompword, n]
    rw [BMTIDBuffer.completeWords_of_ne hm, BMTIDBuffer.completeWords_of_ne (by exact hl),
      hlen, contentWords_succ, hprefix, hlast]
    rfl
  · rw [hlen] at hj
    rw [hfill, hw.header_clear j (by omega), decide_eq_false (by omega)]
    simp

/-- What `mergewords` needs of its buffer: `last_tid`, rounded down to a word, is where the complete
words end; `last_word` is a word as `mergewords` completes it; the header words have room for one
more content word; and the bits stay below `2^48`. -/
structure MergeReady (buf : BMTIDBuffer) (lastWordFill : Bool) : Prop where
  lastTid_eq : buf.lastTid.toNat - buf.lastTid.toNat % 64 = buf.completeBits.length
  word_ok : WordOk (lastWordFill, buf.lastWord)
  room : buf.cwords.length < buf.hwords.length * bmHrlWordSize
  bound : buf.completeBits.length + (wordBits lastWordFill buf.lastWord).length < 2 ^ 48

/-- What `mergewords` gives: `last_word` is now the last complete word, and `last_tid` the end of
the complete words. -/
structure Merged (buf : BMTIDBuffer) (lastWordFill : Bool) (buf' : BMTIDBuffer) : Prop where
  wf : buf'.Wf
  completeBits_eq : buf'.completeBits = buf.completeBits ++ wordBits lastWordFill buf.lastWord
  lastWord_eq : buf'.lastWord = 0
  lastTid_eq : buf'.lastTid.toNat = buf'.completeBits.length

theorem toNat_sub_mod_wordSize (t : UInt64) :
    (t - t % bmHrlWordSize.toUInt64).toNat = t.toNat - t.toNat % 64 := by
  have hmod : (t % bmHrlWordSize.toUInt64).toNat = t.toNat % 64 := by
    rw [UInt64.toNat_mod]
    rfl
  rw [UInt64.toNat_sub_of_le _ _ (by rw [UInt64.le_iff_toNat_le, hmod]; exact Nat.mod_le _ _),
    hmod]

/-- The tids a completed word adds to `last_tid`. -/
theorem toNat_wordLength {f : Bool} {w : UInt64} (h : (wordBits f w).length < 2 ^ 64) :
    (if f then fillLength w * bmHrlWordSize.toUInt64 else bmHrlWordSize.toUInt64).toNat =
      (wordBits f w).length := by
  cases f with
  | false => simp [wordBits, length_wordBitsFrom]; rfl
  | true =>
    rw [length_wordBits_true] at h ⊢
    rw [if_pos rfl, UInt64.toNat_mul, Nat.mod_eq_of_lt (by exact h)]
    rfl

variable {f : Bool}

theorem mergewords_of_marker (hw : buf.Wf) (hr : MergeReady buf f)
    (hm : buf.lastCompword = literalAllOne) : Merged buf f (mergewords buf f) := by
  have hb := hr.bound
  have hl := ne_literalAllOne_of_wordOk hr.word_ok (by omega)
  have hnil := hw.marker hm
  have hwords : (mergewords buf f).completeWords = [(f, buf.lastWord)] := by
    simp [mergewords, hm, BMTIDBuffer.completeWords, hl, hnil]
  have hbits : (mergewords buf f).completeBits = wordBits f buf.lastWord := by
    rw [BMTIDBuffer.completeBits, hwords, wordsBits_singleton]
  refine ⟨⟨?_, ?_, ?_⟩, ?_, ?_, ?_⟩
  · rw [hwords, ← List.nil_append [_]]
    exact canonical_append_singleton.mpr ⟨⟨by simp, by simp⟩, hr.word_ok, by simp⟩
  · simpa [mergewords, hm] using hw.header_clear
  · simp [mergewords, hm, hl]
  · rw [hbits, BMTIDBuffer.completeBits, buf.completeWords_of_marker hw hm, wordsBits_nil,
      List.nil_append]
  · simp [mergewords, hm]
  · rw [hbits]
    simp only [mergewords, if_pos hm]
    exact toNat_wordLength (by omega)

/-- `last_tid` after a word: the end of the complete words plus the tids of the word. -/
theorem toNat_lastTid_add (hr : MergeReady buf f) :
    (buf.lastTid - buf.lastTid % bmHrlWordSize.toUInt64 +
      if f then fillLength buf.lastWord * bmHrlWordSize.toUInt64
      else bmHrlWordSize.toUInt64).toNat =
      buf.completeBits.length + (wordBits f buf.lastWord).length := by
  have hb := hr.bound
  have hend := hr.lastTid_eq
  have hword : (if f then fillLength buf.lastWord * bmHrlWordSize.toUInt64
      else bmHrlWordSize.toUInt64).toNat = (wordBits f buf.lastWord).length :=
    toNat_wordLength (by omega)
  rw [toNat_add_of_lt (by rw [toNat_sub_mod_wordSize, hword]; omega), toNat_sub_mod_wordSize,
    hword, hend]

/-- A fill word is at most as long as the bits of the words it is one of. -/
theorem fillLength_le_of_mem {ws : List (Bool × UInt64)} {w : UInt64} (h : (true, w) ∈ ws) :
    (fillLength w).toNat * 64 ≤ (wordsBits ws).length := by
  simpa [length_wordBits_true] using length_wordBits_le h

/-- Two fill words of one fill bit merge into one, as their lengths add up to less than
`MAX_FILL_LENGTH` below `2^48` bits. -/
theorem mergewords_of_merge (hw : buf.Wf) (hr : MergeReady buf f)
    (hm : buf.lastCompword ≠ literalAllOne)
    (hmerge : buf.isLastCompwordFill ∧ f ∧
      getFillBit buf.lastCompword = getFillBit buf.lastWord) :
    Merged buf f (mergewords buf f) := by
  obtain ⟨hcf, hf, hbit⟩ := hmerge
  subst hf
  have hb := hr.bound
  have hpos := hr.word_ok.1
  have hwords := buf.completeWords_of_ne hm
  rw [hcf] at hwords
  have hcw := fillLength_le_of_mem (hwords ▸ List.mem_append_right _ (List.mem_singleton_self _))
  rw [BMTIDBuffer.completeBits, length_wordBits_true] at hb
  have hfit : (fillLength buf.lastCompword).toNat + (fillLength buf.lastWord).toNat < 2 ^ 42 := by
    omega
  have hsum : fillLength buf.lastCompword + fillLength buf.lastWord ≤ maxFillLength := by
    rw [UInt64.le_iff_toNat_le, toNat_add_of_lt (by omega)]
    exact (show (fillLength buf.lastCompword).toNat + (fillLength buf.lastWord).toNat ≤
      2 ^ 63 - 1 by omega)
  set cw' := buf.lastCompword + fillLength buf.lastWord with hcw'
  have hlen' : (fillLength cw').toNat = (fillLength buf.lastCompword).toNat +
      (fillLength buf.lastWord).toNat := fillLength_add (by omega)
  have hok : WordOk (true, cw') := by
    refine ⟨by omega, ?_⟩
    rw [UInt64.le_iff_toNat_le, hlen']
    exact (show _ ≤ 2 ^ 63 - 1 by omega)
  have hne : cw' ≠ literalAllOne :=
    ne_literalAllOne_of_wordOk hok (by rw [length_wordBits_true, hlen']; omega)
  have hdef : mergewords buf true =
      { buf with
        lastCompword := cw'
        lastWord := literalAllZero
        lastTid := buf.lastTid - buf.lastTid % bmHrlWordSize.toUInt64 +
          fillLength buf.lastWord * bmHrlWordSize.toUInt64 } := by
    simp only [mergewords]
    rw [if_neg hm, if_pos ⟨hcf, trivial, hbit⟩, if_pos hsum]
  have hwords' : (mergewords buf true).completeWords =
      contentWords buf.hwords buf.cwords buf.cwords.length ++ [(true, cw')] := by
    rw [hdef, BMTIDBuffer.completeWords_of_ne hne, hcf]
  have hbits : (mergewords buf true).completeBits =
      buf.completeBits ++ wordBits true buf.lastWord := by
    rw [BMTIDBuffer.completeBits, BMTIDBuffer.completeBits, hwords', hwords, wordsBits_append,
      wordsBits_append, wordsBits_singleton, wordsBits_singleton, wordBits_true_add (by omega),
      wordBits_true buf.lastWord, hbit, List.append_assoc]
  refine ⟨⟨?_, ?_, ?_⟩, hbits, ?_, ?_⟩
  · rw [hwords']
    exact (hwords ▸ hw.canonical).replace_last_fill hok (getFillBit_add (by omega))
  · rw [hdef]
    exact hw.header_clear
  · rw [hdef]
    exact fun h => absurd h hne
  · rw [hdef]
    rfl
  · rw [hbits, List.length_append, hdef]
    exact toNat_lastTid_add hr

/-- Otherwise `last_compword` goes to the content words and `last_word` takes its place. -/
theorem mergewords_of_push (hw : buf.Wf) (hr : MergeReady buf f)
    (hm : buf.lastCompword ≠ literalAllOne)
    (hmerge : ¬(buf.isLastCompwordFill ∧ f ∧
      getFillBit buf.lastCompword = getFillBit buf.lastWord)) :
    Merged buf f (mergewords buf f) := by
  have hb := hr.bound
  have hl := ne_literalAllOne_of_wordOk hr.word_ok (by omega)
  set t := buf.lastTid - buf.lastTid % bmHrlWordSize.toUInt64
  have hdef : mergewords buf f = pushCompword buf t f := by
    simp only [mergewords]
    rw [if_neg hm, if_neg hmerge]
  obtain ⟨hwords, hclear⟩ := completeWords_pushCompword hw hm hr.room hl t f
  have hbits : (pushCompword buf t f).completeBits =
      buf.completeBits ++ wordBits f buf.lastWord := by
    rw [BMTIDBuffer.completeBits, hwords, wordsBits_append, wordsBits_singleton]
    rfl
  rw [hdef]
  refine ⟨⟨?_, hclear, fun h => absurd h hl⟩, hbits, rfl, ?_⟩
  · -- the word before `last_word` is `last_compword`: two fill words of one bit would merge
    rw [hwords]
    refine canonical_append_singleton.mpr ⟨hw.canonical, hr.word_ok, fun q hq hq1 hf => ?_⟩
    rw [buf.completeWords_of_ne hm, List.getLast?_append, List.getLast?_singleton,
      Option.some_or, Option.mem_some_iff] at hq
    subst hq
    exact fun h => hmerge ⟨hq1, hf, h⟩
  · rw [hbits, List.length_append, ← toNat_lastTid_add hr]
    cases f <;> rfl

/-- **`mergewords` completes `last_word`.** From a buffer that keeps its shape and a word as
`mergewords` completes it, the bits of the complete words grow by the word, `last_word` is
cleared and `last_tid` is the end of the complete words. -/
theorem mergewords_spec (hw : buf.Wf) (hr : MergeReady buf f) :
    Merged buf f (mergewords buf f) := by
  by_cases hm : buf.lastCompword = literalAllOne
  · exact mergewords_of_marker hw hr hm
  by_cases hmerge : buf.isLastCompwordFill ∧ f ∧
      getFillBit buf.lastCompword = getFillBit buf.lastWord
  · exact mergewords_of_merge hw hr hm hmerge
  · exact mergewords_of_push hw hr hm hmerge

/-! ## The stages of `buf_add_tid_with_fill` -/

/-- The completion of the current word in `buf_add_tid_with_fill`, when the zeros before the tid
reach its end: the word is merged, and the zeros it took are taken off. -/
def completeLastWord (buf : BMTIDBuffer) (zeros : Int64) : Option (BMTIDBuffer × Int64) :=
  let zerosNeeded : UInt64 :=
    bmHrlWordSize.toUInt64 - ((buf.lastTid - 1) % bmHrlWordSize.toUInt64) - 1
  if zerosNeeded > 0 ∧ zeros.toUInt64 ≥ zerosNeeded then do
    let buf ← bufEnsureHeadSpace buf
    pure (mergewords buf false, (zeros.toUInt64 - zerosNeeded).toInt64)
  else pure (buf, zeros)

/-- The zeros of `buf_add_tid_with_fill` before the tid: the rest of the current word, then fill
words of zeros. -/
def addZeros (buf : BMTIDBuffer) (tidnum : UInt64) : Option BMTIDBuffer :=
  let zeros : Int64 := (tidnum - buf.lastTid - 1).toInt64
  if zeros > 0 then do
    let (buf, zeros) ← completeLastWord buf zeros
    let numOfTotalFillWords : UInt64 := (zeros / bmHrlWordSize.toUInt64.toInt64).toUInt64
    fillZeroWords (numOfTotalFillWords.toNat + 1) buf numOfTotalFillWords
  else pure buf

/-- Setting the bit of the tid in `last_word`. -/
def setTidBit (buf : BMTIDBuffer) (tidnum : UInt64) : BMTIDBuffer :=
  let insertingPos := (tidnum - 1) % bmHrlWordSize.toUInt64
  { buf with lastWord := buf.lastWord ||| ((1 : UInt64) <<< insertingPos) }

/-- Merging `last_word` when the tid is the last of its word. -/
def mergeFullWord (buf : BMTIDBuffer) (tidnum : UInt64) : Option BMTIDBuffer :=
  if tidnum % bmHrlWordSize.toUInt64 = 0 then do
    let (lastWord, lastWordFill) :=
      if buf.lastWord = literalAllZero then (bmMakeFillWord 0 1, true)
      else if buf.lastWord = literalAllOne then (bmMakeFillWord 1 1, true)
      else (buf.lastWord, false)
    let buf ← bufEnsureHeadSpace { buf with lastWord := lastWord }
    pure (mergewords buf lastWordFill)
  else pure buf

theorem bufAddTidWithFill_eq (buf : BMTIDBuffer) (tidnum : UInt64) :
    bufAddTidWithFill buf tidnum = (addZeros buf tidnum).bind fun buf =>
      (mergeFullWord (setTidBit buf tidnum) tidnum).bind fun buf =>
        some { buf with lastTid := tidnum } := by
  unfold bufAddTidWithFill addZeros completeLastWord mergeFullWord setTidBit
  simp only [Option.pure_def, Option.bind_eq_bind, Option.bind_some]
  have hne : (literalAllOne = literalAllZero) = False := eq_false (by decide)
  split_ifs <;> simp only [Option.bind_assoc, Option.bind_some, if_true, if_false, *]

/-! ## Literal words -/

theorem wordBits_false_zero : wordBits false 0 = List.replicate 64 false := by
  rw [wordBits_false]
  exact List.eq_replicate_iff.mpr ⟨by simp, fun b hb => by
    obtain ⟨i, -, rfl⟩ := List.mem_map.mp hb
    simp⟩

/-- A literal word with none of its 64 bits set is zero. -/
theorem eq_zero_of_wordBits_false {w : UInt64} (h : wordBits false w = List.replicate 64 false) :
    w = 0 := by
  rw [← UInt64.toNat_inj, UInt64.toNat_zero]
  refine Nat.eq_of_testBit_eq fun i => ?_
  rw [Nat.zero_testBit]
  rcases Nat.lt_or_ge i 64 with hi | hi
  · rw [wordBits_false] at h
    exact (List.eq_replicate_iff.mp h).2 _ (List.mem_map_of_mem (List.mem_range.mpr hi))
  · exact Nat.testBit_lt_two_pow (lt_of_lt_of_le w.toNat_lt (Nat.pow_le_pow_right (by omega) hi))

/-- Setting bit `k` of a literal word. -/
theorem wordBits_false_or_shiftLeft (w : UInt64) {k : ℕ} (hk : k < 64) :
    wordBits false (w ||| (1 : UInt64) <<< k.toUInt64) =
      (List.range 64).map fun i => w.toNat.testBit i || decide (i = k) := by
  rw [wordBits_false, UInt64.toNat_or, toNat_one_shiftLeft hk]
  refine List.map_congr_left fun i _ => ?_
  rw [Nat.testBit_or, Nat.testBit_two_pow]
  exact congrArg _ (decide_eq_decide.mpr eq_comm)

/-! ## What the buffer holds -/

/-- The buffer holds the bits of the positions `P` up to the end of the word at `c`: its complete
words end at `c`, `last_word` holds the word there, and `last_tid` is in that word. -/
structure BitsAt (buf : BMTIDBuffer) (P : List ℕ) (c : ℕ) : Prop where
  wf : buf.Wf
  completeBits_eq : buf.completeBits = indicator P 0 c
  lastWord_eq : wordBits false buf.lastWord = indicator P c 64
  lastTid_eq : buf.lastTid.toNat - buf.lastTid.toNat % 64 = c

/-- The buffer after the tids at the bit positions `P`: it holds their bits up to the word of
`last_tid`, `last_tid` is after every position, and the last tid added is `last_tid`. -/
structure BMTIDBuffer.Encodes (buf : BMTIDBuffer) (P : List ℕ) : Prop where
  bitsAt : BitsAt buf P (64 * (buf.lastTid.toNat / 64))
  lt_lastTid : ∀ p ∈ P, p < buf.lastTid.toNat
  last_mem : 0 < buf.lastTid.toNat → buf.lastTid.toNat - 1 ∈ P

/-- The buffer before the fill words of zeros in front of tid `t`: its bits end at a word boundary
`c` at or before the word of `t`, and `last_word` is empty when fill words follow. -/
structure FillReady (buf : BMTIDBuffer) (P : List ℕ) (c t : ℕ) : Prop where
  bitsAt : BitsAt buf P c
  dvd : 64 ∣ c
  le : c ≤ t - 1
  lt_end : ∀ p ∈ P, p < c + 64
  clear : c + 64 ≤ t - 1 → buf.lastWord = 0

theorem testBit_of_wordBits_eq {P : List ℕ} {a : ℕ} {w : UInt64}
    (h : wordBits false w = indicator P a 64) {i : ℕ} (hi : i < 64) :
    w.toNat.testBit i = decide (a + i ∈ P) := by
  have := congrArg (·[i]?) h
  simpa [wordBits_false, indicator, hi] using this

theorem BitsAt.lastWord_eq_zero {c : ℕ} (hb : BitsAt buf P c) (hP : ∀ p ∈ P, p < c) :
    buf.lastWord = 0 := by
  refine eq_zero_of_wordBits_false ?_
  rw [hb.lastWord_eq]
  exact indicator_eq_replicate fun i _ hi => absurd (hP _ hi) (by omega)

/-- The complete words and the last word hold the bits up to the next word boundary. -/
theorem BitsAt.next {c : ℕ} (hb : BitsAt buf P c) :
    buf.completeBits ++ wordBits false buf.lastWord = indicator P 0 (c + 64) := by
  rw [hb.completeBits_eq, hb.lastWord_eq, indicator_add, Nat.zero_add]

/-! ## Arithmetic of `buf_add_tid_with_fill` -/

/-- `numOfTotalFillWords`: the whole words in a number of zeros. -/
theorem toNat_numOfTotalFillWords {z : Int64} (h : 0 ≤ z.toInt) :
    (z / bmHrlWordSize.toUInt64.toInt64).toUInt64.toNat = z.toInt.toNat / 64 := by
  have h64 : (bmHrlWordSize.toUInt64.toInt64).toInt = 64 := by decide
  have hdiv : (z / bmHrlWordSize.toUInt64.toInt64).toInt = z.toInt / 64 := by
    rw [Int64.toInt_div_of_ne_right _ _ (by decide), h64, Int.tdiv_eq_ediv_of_nonneg h]
  rw [toNat_toUInt64_of_nonneg (by rw [hdiv]; omega), hdiv]
  omega

/-- `zerosNeeded`: the zeros that complete the word of `last_tid`, none when `last_tid` ends a
word (or is 0). -/
theorem toNat_zerosNeeded (t : UInt64) :
    (bmHrlWordSize.toUInt64 - (t - 1) % bmHrlWordSize.toUInt64 - 1).toNat =
      if t.toNat % 64 = 0 then 0 else 64 - t.toNat % 64 := by
  have h64 : bmHrlWordSize.toUInt64.toNat = 64 := rfl
  have ht := t.toNat_lt
  simp only [UInt64.toNat_sub, UInt64.toNat_mod, UInt64.toNat_one, h64]
  split <;> omega

theorem toNat_tid_sub {a t : UInt64} (h : a.toNat < t.toNat) :
    (t - a - 1).toNat = t.toNat - a.toNat - 1 := by
  have ht := t.toNat_lt
  simp only [UInt64.toNat_sub, UInt64.toNat_one]
  omega

theorem insertingPos_eq {t : UInt64} (h : 0 < t.toNat) :
    (t - 1) % bmHrlWordSize.toUInt64 = ((t.toNat - 1) % 64).toUInt64 := by
  have h64 : bmHrlWordSize.toUInt64.toNat = 64 := rfl
  have ht := t.toNat_lt
  rw [← UInt64.toNat_inj, toNat_toUInt64_of_lt (by omega)]
  simp only [UInt64.toNat_sub, UInt64.toNat_mod, UInt64.toNat_one, h64]
  omega

theorem bufEnsureHeadSpace_eq_some {buf' : BMTIDBuffer} (h : bufEnsureHeadSpace buf = some buf') :
    buf' = buf ∧ buf.cwords.length < buf.hwords.length * bmHrlWordSize := by
  unfold bufEnsureHeadSpace at h
  split_ifs at h with hroom
  exact ⟨(Option.some.inj h).symm, by omega⟩

/-! ## The zeros before a tid -/

/-- Completing the current word: when the tid lies past its end, `mergewords` completes it and the
zeros it took are taken off; otherwise nothing changes. Either way the buffer is ready for the fill
words, and the zeros left count the words up to the tid's. -/
theorem completeLastWord_spec (he : buf.Encodes P) {T : ℕ} (hlt : buf.lastTid.toNat + 1 < T)
    (hT : T < 2 ^ 48) {zeros : Int64} (hz : zeros.toInt = T - buf.lastTid.toNat - 1)
    {b : BMTIDBuffer} {z : Int64} (h : completeLastWord buf zeros = some (b, z)) :
    ∃ c, FillReady b P c T ∧ 0 ≤ z.toInt ∧ z.toInt.toNat / 64 = (T - 1 - c) / 64 := by
  obtain ⟨hbits, hltP, hlast⟩ := he
  set L := buf.lastTid.toNat with hL
  have hzn := toNat_zerosNeeded buf.lastTid
  rw [← hL] at hzn
  have hzu : zeros.toUInt64.toNat = T - L - 1 := by
    rw [toNat_toUInt64_of_nonneg (by omega), hz]
    omega
  have hend : ∀ p ∈ P, p < 64 * (L / 64) + 64 := fun p hp => by
    have := hltP p hp
    omega
  unfold completeLastWord at h
  dsimp only at h
  split_ifs at h with hcond
  · -- the tid lies past the current word: `mergewords` completes it
    rw [gt_iff_lt, UInt64.lt_iff_toNat_lt, ge_iff_le, UInt64.le_iff_toNat_le, hzn, hzu,
      UInt64.toNat_zero] at hcond
    have hmod : L % 64 ≠ 0 := fun h0 => by simp [h0] at hcond
    rw [if_neg hmod] at hcond
    obtain ⟨b0, hens, hb⟩ := Option.bind_eq_some_iff.mp h
    obtain ⟨hb0, hroom⟩ := bufEnsureHeadSpace_eq_some hens
    rw [hb0] at hb
    obtain ⟨rfl, rfl⟩ := Prod.mk.inj (Option.some.inj hb)
    -- the word holds the bit of `last_tid` and not its last bit
    have hset := testBit_of_wordBits_eq hbits.lastWord_eq (i := L - 1 - 64 * (L / 64)) (by omega)
    have htop := testBit_of_wordBits_eq hbits.lastWord_eq (i := 63) (by omega)
    rw [show 64 * (L / 64) + (L - 1 - 64 * (L / 64)) = L - 1 by omega,
      decide_eq_true (hlast (by omega))] at hset
    rw [decide_eq_false fun hp => absurd (hltP _ hp) (by omega)] at htop
    have hok : WordOk (false, buf.lastWord) := by
      refine ⟨fun h0 => ?_, fun h1 => ?_⟩
      · rw [h0] at hset
        simp [literalAllZero] at hset
      · rw [h1] at htop
        exact absurd htop (by decide)
    have hmerged := mergewords_spec hbits.wf
      ⟨by rw [hbits.completeBits_eq, length_indicator]; omega, hok, hroom,
        by rw [hbits.completeBits_eq, length_indicator, wordBits_false]; simp; omega⟩
    have hbits' : (mergewords buf false).completeBits = indicator P 0 (64 * (L / 64) + 64) := by
      rw [hmerged.completeBits_eq, hbits.next]
    have hlen : (mergewords buf false).lastTid.toNat = 64 * (L / 64) + 64 := by
      rw [hmerged.lastTid_eq, hbits', length_indicator]
    have hleft : (zeros.toUInt64 - (bmHrlWordSize.toUInt64 -
        (buf.lastTid - 1) % bmHrlWordSize.toUInt64 - 1)).toNat = T - 1 - (64 * (L / 64) + 64) := by
      rw [UInt64.toNat_sub_of_le _ _ (by rw [UInt64.le_iff_toNat_le, hzn, hzu, if_neg hmod]; omega),
        hzn, hzu, if_neg hmod]
      omega
    have hzi := toInt_toInt64_of_lt (x := zeros.toUInt64 - (bmHrlWordSize.toUInt64 -
        (buf.lastTid - 1) % bmHrlWordSize.toUInt64 - 1)) (by omega)
    refine ⟨64 * (L / 64) + 64,
      ⟨⟨hmerged.wf, hbits', ?_, ?_⟩, ?_, ?_, ?_, fun _ => hmerged.lastWord_eq⟩, ?_, ?_⟩
    · rw [hmerged.lastWord_eq, wordBits_false_zero]
      exact (indicator_eq_replicate fun i _ hi => absurd (hltP _ hi) (by omega)).symm
    · rw [hlen]
      omega
    · exact ⟨L / 64 + 1, by omega⟩
    · omega
    · exact fun p hp => by have := hltP p hp; omega
    · rw [hzi, hleft]
      omega
    · rw [hzi, hleft]
      omega
  · -- the tid lies in the current word, or the word is empty: nothing to complete
    obtain ⟨rfl, rfl⟩ := Prod.mk.inj (Option.some.inj h)
    rw [not_and_or, gt_iff_lt, UInt64.lt_iff_toNat_lt, ge_iff_le, UInt64.le_iff_toNat_le, hzn,
      hzu, UInt64.toNat_zero] at hcond
    refine ⟨64 * (L / 64), ⟨hbits, ⟨L / 64, rfl⟩, by omega, hend, fun hfill => ?_⟩,
      by omega, ?_⟩
    · -- fill words follow only when the word is empty
      have hmod : L % 64 = 0 := by
        by_contra hmod
        rw [if_neg hmod] at hcond
        omega
      exact hbits.lastWord_eq_zero fun p hp => by have := hltP p hp; omega
    · rw [hz]
      by_cases hmod : L % 64 = 0
      · omega
      · rw [if_neg hmod] at hcond
        omega

theorem fillZeroWords_zero (fuel : ℕ) (buf : BMTIDBuffer) :
    fillZeroWords (fuel + 1) buf 0 = some buf := rfl

/-- The fill words: below `2^48` bits the zeros up to the word of the tid make one fill word of
zeros, which `mergewords` completes. -/
theorem fillZeroWords_spec {c T : ℕ} (hf : FillReady buf P c T) (hT : T < 2 ^ 48) {q : UInt64}
    (hq : q.toNat = (T - 1 - c) / 64) {buf' : BMTIDBuffer}
    (h : fillZeroWords (q.toNat + 1) buf q = some buf') :
    BitsAt buf' P (64 * ((T - 1) / 64)) := by
  obtain ⟨hbits, ⟨k, rfl⟩, hle, hend, hclear⟩ := hf
  rcases Nat.eq_zero_or_pos q.toNat with hq0 | hqpos
  · -- no fill word: the tid is in the word at `c`
    have hq0' : q = 0 := UInt64.toNat_inj.mp hq0
    subst hq0'
    rw [fillZeroWords_zero, Option.some_inj] at h
    subst h
    rwa [show 64 * ((T - 1) / 64) = 64 * k by omega]
  · -- one fill word of `q` words: no position lies in them
    have hmaxNat : maxFillLength.toNat = 2 ^ 63 - 1 := by decide
    have hmax : ¬(q ≥ maxFillLength) := by
      rw [ge_iff_le, UInt64.le_iff_toNat_le, hmaxNat]
      omega
    have hbefore : ∀ p ∈ P, p < 64 * k := by
      have hw := hbits.lastWord_eq
      rw [hclear (by omega), wordBits_false_zero] at hw
      intro p hp
      by_contra hge
      have := (List.eq_replicate_iff.mp hw.symm).2 (decide (64 * k + (p - 64 * k) ∈ P))
        (List.mem_map.mpr ⟨p - 64 * k, List.mem_range.mpr (by have := hend p hp; omega), rfl⟩)
      rw [show 64 * k + (p - 64 * k) = p by omega, decide_eq_false_iff_not] at this
      exact this hp
    obtain ⟨n, hn⟩ : ∃ n, q.toNat = n + 1 := ⟨q.toNat - 1, by omega⟩
    rw [hn, fillZeroWords, if_pos (UInt64.lt_iff_toNat_lt.mpr (by rw [UInt64.toNat_zero]; omega)),
      if_neg hmax] at h
    dsimp only at h
    rw [UInt64.sub_self, ← hn] at h
    obtain ⟨b1, hens, hb⟩ := Option.bind_eq_some_iff.mp h
    obtain ⟨rfl, hroom⟩ := bufEnsureHeadSpace_eq_some hens
    rw [hn, fillZeroWords_zero, Option.some_inj] at hb
    subst hb
    set b1 : BMTIDBuffer := { buf with lastWord := bmMakeFillWord 0 q } with hb1
    have hlen : (fillLength b1.lastWord).toNat = q.toNat :=
      fillLength_bmMakeFillWord (by decide) (by omega)
    have hbit : getFillBit b1.lastWord = 0 := getFillBit_bmMakeFillWord (by decide) (by omega)
    have hcomplete : b1.completeBits = indicator P 0 (64 * k) := hbits.completeBits_eq
    have hready : MergeReady b1 true :=
      ⟨by rw [hcomplete, length_indicator]; exact hbits.lastTid_eq,
        ⟨by omega, by rw [UInt64.le_iff_toNat_le, hlen, hmaxNat]; omega⟩, hroom,
        by rw [hcomplete, length_indicator, length_wordBits_true, hlen]; omega⟩
    have hmerged := mergewords_spec (hbits.wf.with_lastWord _) hready
    have hbits' : (mergewords b1 true).completeBits = indicator P 0 (64 * ((T - 1) / 64)) := by
      rw [hmerged.completeBits_eq, hcomplete, wordBits_true, hlen, hbit,
        show 64 * ((T - 1) / 64) = 64 * k + q.toNat * 64 by omega, indicator_add,
        indicator_eq_replicate (n := q.toNat * 64) fun i _ hi => absurd (hbefore _ hi) (by omega)]
      rfl
    refine ⟨hmerged.wf, hbits', ?_, ?_⟩
    · rw [hmerged.lastWord_eq, wordBits_false_zero]
      exact (indicator_eq_replicate fun i _ hi => absurd (hbefore _ hi) (by omega)).symm
    · rw [hmerged.lastTid_eq, hbits', length_indicator]
      omega

/-- The zeros before a tid bring the buffer to the word of the tid. -/
theorem addZeros_spec (he : buf.Encodes P) {t : UInt64} (hlt : buf.lastTid.toNat < t.toNat)
    (hT : t.toNat < 2 ^ 48) {buf' : BMTIDBuffer} (h : addZeros buf t = some buf') :
    BitsAt buf' P (64 * ((t.toNat - 1) / 64)) := by
  have hd := toNat_tid_sub hlt
  have hzi : (t - buf.lastTid - 1).toInt64.toInt = t.toNat - buf.lastTid.toNat - 1 := by
    rw [toInt_toInt64_of_lt (by omega), hd]
    omega
  unfold addZeros at h
  dsimp only at h
  split_ifs at h with hpos
  · -- zeros between the two tids: complete the word, then add fill words
    rw [gt_iff_lt, Int64.lt_iff_toInt_lt, Int64.toInt_zero, hzi] at hpos
    obtain ⟨⟨b, z⟩, hc, hf⟩ := Option.bind_eq_some_iff.mp h
    obtain ⟨c, hfill, hz0, hzc⟩ := completeLastWord_spec he (by omega) hT hzi hc
    exact fillZeroWords_spec hfill hT (by rw [toNat_numOfTotalFillWords hz0, hzc]) hf
  · -- the tid follows `last_tid`
    rw [gt_iff_lt, Int64.lt_iff_toInt_lt, Int64.toInt_zero, hzi] at hpos
    rw [Option.pure_def, Option.some_inj] at h
    subst h
    rw [show 64 * ((t.toNat - 1) / 64) = 64 * (buf.lastTid.toNat / 64) by omega]
    exact he.bitsAt

/-! ## The bit of the tid -/

theorem BitsAt.with_lastWord_completeBits (w : UInt64) :
    ({ buf with lastWord := w } : BMTIDBuffer).completeBits = buf.completeBits := rfl

/-- Setting the bit of tid `t` in the word of `t`. -/
theorem setTidBit_spec {c : ℕ} (hb : BitsAt buf P c) {t : UInt64}
    (hc : c = 64 * ((t.toNat - 1) / 64)) (ht : 0 < t.toNat) :
    BitsAt (setTidBit buf t) (P ++ [t.toNat - 1]) c := by
  have hpos : (t.toNat - 1) % 64 < 64 := Nat.mod_lt _ (by omega)
  refine ⟨hb.wf.with_lastWord _, ?_, ?_, hb.lastTid_eq⟩
  · rw [setTidBit, BitsAt.with_lastWord_completeBits, hb.completeBits_eq]
    refine indicator_congr fun i hi => ?_
    have hne : 0 + i ≠ t.toNat - 1 := by omega
    rw [List.mem_append, List.mem_singleton]
    exact (or_iff_left hne).symm
  · rw [setTidBit, insertingPos_eq ht]
    dsimp only
    rw [wordBits_false_or_shiftLeft _ hpos, indicator]
    refine List.map_congr_left fun i hi => ?_
    have hi' := List.mem_range.mp hi
    rw [testBit_of_wordBits_eq hb.lastWord_eq hi']
    simp only [List.mem_append, List.mem_singleton, Bool.decide_or]
    exact congrArg _ (decide_eq_decide.mpr (by omega))

theorem wordBits_false_literalAllOne :
    wordBits false literalAllOne = List.replicate 64 true := by
  have hone : literalAllOne.toNat = 2 ^ 64 - 1 := by decide
  rw [wordBits_false, hone]
  exact List.eq_replicate_iff.mpr ⟨by simp, fun b hb => by
    obtain ⟨i, hi, rfl⟩ := List.mem_map.mp hb
    rw [Nat.testBit_two_pow_sub_one, decide_eq_true (List.mem_range.mp hi)]⟩

/-- The word `mergewords` is given for a full `last_word`: a fill word of one word for a word of
zeros or of ones, and the word itself otherwise. It stands for the same bits. -/
theorem fullWord_spec (w : UInt64) :
    let p := if w = literalAllZero then (bmMakeFillWord 0 1, true)
      else if w = literalAllOne then (bmMakeFillWord 1 1, true) else (w, false)
    WordOk (p.2, p.1) ∧ wordBits p.2 p.1 = wordBits false w := by
  intro p
  by_cases h0 : w = literalAllZero
  · have hp : p = (bmMakeFillWord 0 1, true) := if_pos h0
    rw [hp, h0]
    exact ⟨⟨by decide, by decide⟩, by rw [literalAllZero, wordBits_false_zero]; decide⟩
  by_cases h1 : w = literalAllOne
  · have hp : p = (bmMakeFillWord 1 1, true) := by simp only [p, if_neg h0, if_pos h1]
    rw [hp, h1, wordBits_false_literalAllOne]
    exact ⟨⟨by decide, by decide⟩, by decide⟩
  · have hp : p = (w, false) := by simp only [p, if_neg h0, if_neg h1]
    rw [hp]
    exact ⟨⟨h0, h1⟩, rfl⟩

/-- Merging `last_word` when the tid ends its word. -/
theorem mergeFullWord_spec {c : ℕ} (hb : BitsAt buf P c) {t : UInt64}
    (hc : c = 64 * ((t.toNat - 1) / 64)) (ht : 0 < t.toNat) (hT : t.toNat < 2 ^ 48)
    (hP : ∀ p ∈ P, p < t.toNat) {buf' : BMTIDBuffer} (h : mergeFullWord buf t = some buf') :
    BitsAt buf' P (64 * (t.toNat / 64)) := by
  have h64 : bmHrlWordSize.toUInt64.toNat = 64 := rfl
  unfold mergeFullWord at h
  by_cases hend : t % bmHrlWordSize.toUInt64 = 0
  · -- the tid ends its word: `mergewords` completes it
    rw [if_pos hend] at h
    rw [← UInt64.toNat_inj, UInt64.toNat_mod, h64, UInt64.toNat_zero] at hend
    obtain ⟨hok, hsame⟩ := fullWord_spec buf.lastWord
    generalize hp : (if buf.lastWord = literalAllZero then (bmMakeFillWord 0 1, true)
      else if buf.lastWord = literalAllOne then (bmMakeFillWord 1 1, true)
      else (buf.lastWord, false)) = p at h hok hsame
    obtain ⟨w, f⟩ := p
    obtain ⟨b1, hens, hb1⟩ := Option.bind_eq_some_iff.mp h
    obtain ⟨rfl, hroom⟩ := bufEnsureHeadSpace_eq_some hens
    rw [Option.pure_def, Option.some_inj] at hb1
    subst hb1
    have hcomplete : ({ buf with lastWord := w } : BMTIDBuffer).completeBits =
        indicator P 0 c := hb.completeBits_eq
    have hlen : (wordBits f w).length = 64 := by rw [hsame, wordBits_false]; simp
    have hmerged := mergewords_spec (hb.wf.with_lastWord w)
      ⟨by rw [hcomplete, length_indicator]; exact hb.lastTid_eq, hok, hroom,
        by rw [hcomplete, length_indicator, hlen]; omega⟩
    have hbits : (mergewords { buf with lastWord := w } f).completeBits =
        indicator P 0 (64 * (t.toNat / 64)) := by
      have hw : ({ buf with lastWord := w } : BMTIDBuffer).lastWord = w := rfl
      rw [hmerged.completeBits_eq, hcomplete, hw, hsame, ← hb.completeBits_eq, hb.next,
        show c + 64 = 64 * (t.toNat / 64) by omega]
    refine ⟨hmerged.wf, hbits, ?_, ?_⟩
    · rw [hmerged.lastWord_eq, wordBits_false_zero]
      exact (indicator_eq_replicate fun i _ hi => absurd (hP _ hi) (by omega)).symm
    · rw [hmerged.lastTid_eq, hbits, length_indicator]
      omega
  · -- the word goes on
    rw [if_neg hend, Option.pure_def, Option.some_inj] at h
    subst h
    rw [← UInt64.toNat_inj, UInt64.toNat_mod, h64, UInt64.toNat_zero] at hend
    rwa [show 64 * (t.toNat / 64) = c by omega]

/-! ## Adding tids -/

/-- **Adding a tid.** A tid after `last_tid` and below `2^48` adds its bit position to what the
buffer encodes, and becomes `last_tid`. -/
theorem bufAddTidWithFill_spec (he : buf.Encodes P) {t : UInt64}
    (hlt : buf.lastTid.toNat < t.toNat) (hT : t.toNat < 2 ^ 48) {buf' : BMTIDBuffer}
    (h : bufAddTidWithFill buf t = some buf') :
    buf'.Encodes (P ++ [t.toNat - 1]) ∧ buf'.lastTid = t := by
  rw [bufAddTidWithFill_eq] at h
  obtain ⟨b1, h1, h2⟩ := Option.bind_eq_some_iff.mp h
  obtain ⟨b2, h3, h4⟩ := Option.bind_eq_some_iff.mp h2
  rw [Option.some_inj] at h4
  subst h4
  have hP : ∀ p ∈ P, p < t.toNat - 1 := fun p hp => by have := he.lt_lastTid p hp; omega
  have hP' : ∀ p ∈ P ++ [t.toNat - 1], p < t.toNat := fun p hp => by
    rcases List.mem_append.mp hp with hp | hp
    · have := hP p hp; omega
    · rw [List.mem_singleton.mp hp]; omega
  have hb1 := addZeros_spec he hlt hT h1
  have hb2 := mergeFullWord_spec (setTidBit_spec hb1 rfl (by omega)) rfl (by omega) hT hP' h3
  refine ⟨⟨⟨hb2.wf.with_lastTid t, hb2.completeBits_eq, hb2.lastWord_eq, ?_⟩, hP',
    fun _ => List.mem_append_right _ (List.mem_singleton_self _)⟩, rfl⟩
  dsimp only
  omega

/-- **Adding tids, one after the other.** Increasing tids after `last_tid` and below `2^48` add
their bit positions in order. -/
theorem bufAddTids_spec {tids : List UInt64} (he : buf.Encodes P)
    (hsorted : (buf.lastTid :: tids).Pairwise (· < ·)) (hT : ∀ t ∈ tids, t.toNat < 2 ^ 48)
    {buf' : BMTIDBuffer} (h : bufAddTids buf tids = some buf') :
    buf'.Encodes (P ++ tids.map (·.toNat - 1)) := by
  induction tids generalizing buf P with
  | nil =>
    rw [bufAddTids, List.foldlM_nil, Option.pure_def, Option.some_inj] at h
    subst h
    simpa using he
  | cons t tids ih =>
    rw [bufAddTids, List.foldlM_cons] at h
    obtain ⟨b, hb, hrest⟩ := Option.bind_eq_some_iff.mp h
    have hlt : buf.lastTid.toNat < t.toNat :=
      UInt64.lt_iff_toNat_lt.mp (List.rel_of_pairwise_cons hsorted (List.mem_cons_self ..))
    obtain ⟨heb, hlast⟩ := bufAddTidWithFill_spec he hlt (hT t (List.mem_cons_self ..)) hb
    have := ih heb (hlast ▸ hsorted.of_cons) (fun t' ht' => hT t' (List.mem_cons_of_mem _ ht'))
      hrest
    simpa using this

/-- The buffer that `buf_add_tid` sets up for a new LOV item encodes no tid. -/
theorem encodes_ofLovItem_formitem_zero (numHeaderWords : ℕ) :
    (BMTIDBuffer.ofLovItem (formitem 0) numHeaderWords).Encodes [] := by
  have hitem : formitem 0 = ⟨literalAllOne, literalAllZero, 0, 0, 0⟩ := by decide
  have hclear : ∀ j, isFillWord (List.replicate numHeaderWords 0) j = false := fun j => by
    have hzero : (List.replicate numHeaderWords (0 : UInt64)).getD (j / 64) 0 = 0 := by
      simp only [List.getD_eq_getElem?_getD, List.getElem?_replicate]
      split <;> rfl
    rw [isFillWord_eq_testBit, hzero, UInt64.toNat_zero, Nat.zero_testBit]
  have hwords : (BMTIDBuffer.ofLovItem (formitem 0) numHeaderWords).completeWords = [] := by
    simp [BMTIDBuffer.ofLovItem, hitem, BMTIDBuffer.completeWords]
  refine ⟨⟨⟨?_, fun j _ => hclear j, fun _ => rfl⟩, ?_, ?_, ?_⟩,
    fun _ h => absurd h List.not_mem_nil,
    fun h => absurd h (by simp [BMTIDBuffer.ofLovItem, hitem])⟩
  · rw [hwords]
    exact ⟨by simp, List.IsChain.nil⟩
  · rw [BMTIDBuffer.completeBits, hwords]
    simp [BMTIDBuffer.ofLovItem, hitem, indicator]
  · rw [show (BMTIDBuffer.ofLovItem (formitem 0) numHeaderWords).lastWord = 0 by
      simp [BMTIDBuffer.ofLovItem, hitem, literalAllZero], wordBits_false_zero]
    exact (indicator_eq_replicate fun _ _ h => absurd h List.not_mem_nil).symm
  · simp [BMTIDBuffer.ofLovItem, hitem]

/-- **The index build buffers tids in canonical HRL words.** From the buffer that `buf_add_tid`
sets up for a new LOV item, adding increasing tids from 1 on and below `2^48`, when no call needs to
move words to disk, leaves words whose bits are set exactly at the positions `t - 1` of the tids, in
order; and the complete words are canonical: fill words of 1 to `MAX_FILL_LENGTH` words, no literal
word of zeros or of ones, and no two fill words in a row with one fill bit. -/
theorem bufAddTids_encodes_tids (numHeaderWords : ℕ) (tids : List UInt64)
    (hsorted : tids.Pairwise (· < ·)) (hpos : ∀ t ∈ tids, 1 ≤ t.toNat)
    (hT : ∀ t ∈ tids, t.toNat < 2 ^ 48) {buf : BMTIDBuffer}
    (h : bufAddTids (BMTIDBuffer.ofLovItem (formitem 0) numHeaderWords) tids = some buf) :
    setPositions buf.bits = tids.map (·.toNat - 1) ∧ Canonical buf.completeWords := by
  have hlast : (BMTIDBuffer.ofLovItem (formitem 0) numHeaderWords).lastTid = 0 := by
    simp [BMTIDBuffer.ofLovItem, formitem]
  have hsorted' :
      ((BMTIDBuffer.ofLovItem (formitem 0) numHeaderWords).lastTid :: tids).Pairwise (· < ·) := by
    rw [hlast]
    refine List.pairwise_cons.mpr ⟨fun t ht => UInt64.lt_iff_toNat_lt.mpr ?_, hsorted⟩
    have := hpos t ht
    rw [UInt64.toNat_zero]
    omega
  have he := bufAddTids_spec (encodes_ofLovItem_formitem_zero numHeaderWords) hsorted' hT h
  rw [List.nil_append] at he
  refine ⟨?_, he.bitsAt.wf.canonical⟩
  rw [BMTIDBuffer.bits, he.bitsAt.next]
  refine setPositions_indicator ?_ fun p hp => by have := he.lt_lastTid p hp; omega
  -- the positions of increasing tids from 1 on increase
  refine List.pairwise_map.mpr (hsorted.imp_of_mem fun ha _ hab => ?_)
  have h₁ := hpos _ ha
  have h₂ := UInt64.lt_iff_toNat_lt.mp hab
  omega

theorem bufAddTids_encodes_three_tids :
    ∃ buf, bufAddTids (BMTIDBuffer.ofLovItem (formitem 0) 1) [3, 70, 200] = some buf ∧
      setPositions buf.bits = [2, 69, 199] ∧ Canonical buf.completeWords :=
  ⟨_, rfl, bufAddTids_encodes_tids 1 [3, 70, 200] (by decide) (by simp) (by simp) rfl⟩

end Cloudberry.Bitmap
