import Cloudberry.Lib.BitString

/-!
# Hybrid run-length words of the bitmap index

A bitmap vector is kept as 64-bit content words, each either a literal word, whose 64 bits stand
for 64 tids from the least significant bit on, or a fill word, whose leftmost bit is a fill bit and
whose other 63 bits a count of words: it stands for that many times 64 copies of the fill bit.
Header words say which content words are fill words, one bit per content word from the leftmost.

The macros of `bitmap.h` are modelled on `UInt64`; `wordBits` is what a content word stands for,
and `scanBits` what a run of content words stands for, the first of them read from a scan position
on. The lemmas bring the macros down to `Nat` arithmetic.
-/

namespace Cloudberry.Bitmap

open BitString

/-- `BM_HRL_WORD_SIZE`. -/
def bmHrlWordSize : ℕ := 64

/-- `LITERAL_ALL_ZERO`. -/
def literalAllZero : UInt64 := 0

/-- `LITERAL_ALL_ONE`. -/
def literalAllOne : UInt64 := ~~~0

/-- `FILL_MASK`: every bit but the leftmost. -/
def fillMask : UInt64 := ~~~((1 : UInt64) <<< 63)

/-- `BM_MAKE_FILL_WORD`. -/
def bmMakeFillWord (bit length : UInt64) : UInt64 := (bit <<< 63) ||| length

/-- `FILL_LENGTH`. -/
def fillLength (w : UInt64) : UInt64 := w &&& fillMask

/-- `MAX_FILL_LENGTH`. -/
def maxFillLength : UInt64 := ((1 : UInt64) <<< 63) - 1

/-- `GET_FILL_BIT`: the leftmost bit. -/
def getFillBit (w : UInt64) : UInt64 := w >>> 63

/-- `WORDNO_GET_HEADER_BIT`: the bit of content word `cwNo` in its header word. -/
def wordnoGetHeaderBit (cwNo : ℕ) : UInt64 := (1 : UInt64) <<< (63 - cwNo % 64).toUInt64

/-- `IS_FILL_WORD`: the header bit of content word `wordno`. -/
def isFillWord (words : List UInt64) (wordno : ℕ) : Bool :=
  (words.getD (wordno / 64) 0 &&& wordnoGetHeaderBit wordno) > 0

/-! ## What the words stand for -/

/-- The bits that a content word stands for, from its first tid on; a literal word read from scan
position `scanPos` on has its bits before that position cleared. -/
def wordBitsFrom (isFill : Bool) (w : UInt64) (scanPos : ℕ) : List Bool :=
  if isFill then List.replicate ((fillLength w).toNat * 64) (getFillBit w == 1)
  else (List.range 64).map fun i => decide (scanPos ≤ i) && w.toNat.testBit i

/-- The bits that a content word stands for. -/
def wordBits (isFill : Bool) (w : UInt64) : List Bool := wordBitsFrom isFill w 0

/-- The bits that `nwords` content words from position `wordNo` stand for, the first of them read
from scan position `scanPos` on. -/
def scanBits (hwords cwords : List UInt64) : ℕ → ℕ → ℕ → List Bool
  | _, 0, _ => []
  | wordNo, nwords + 1, scanPos =>
    wordBitsFrom (isFillWord hwords wordNo) (cwords.getD wordNo 0) scanPos ++
      scanBits hwords cwords (wordNo + 1) nwords 0

@[simp] theorem scanBits_zero (hwords cwords : List UInt64) (wordNo scanPos : ℕ) :
    scanBits hwords cwords wordNo 0 scanPos = [] := rfl

theorem scanBits_succ (hwords cwords : List UInt64) (wordNo nwords scanPos : ℕ) :
    scanBits hwords cwords wordNo (nwords + 1) scanPos =
      wordBitsFrom (isFillWord hwords wordNo) (cwords.getD wordNo 0) scanPos ++
        scanBits hwords cwords (wordNo + 1) nwords 0 := rfl

theorem getD_modify_self {l : List UInt64} {i : ℕ} (f : UInt64 → UInt64) (h : i < l.length) :
    (l.modify i f).getD i 0 = f (l.getD i 0) := by
  simp [List.getD_eq_getElem?_getD, h]

theorem getD_modify_of_ne {l : List UInt64} {i j : ℕ} (f : UInt64 → UInt64) (h : i ≠ j) :
    (l.modify i f).getD j 0 = l.getD j 0 := by
  simp [List.getD_eq_getElem?_getD, List.getElem?_modify_ne f l h]

/-- The words after position `i` do not see a change at `i`. -/
theorem scanBits_modify_of_lt (hwords cwords : List UInt64) (f : UInt64 → UInt64) {i : ℕ} :
    ∀ (wordNo nwords scanPos : ℕ), i < wordNo →
      scanBits hwords (cwords.modify i f) wordNo nwords scanPos =
        scanBits hwords cwords wordNo nwords scanPos := by
  intro wordNo nwords
  induction nwords generalizing wordNo with
  | zero => intro _ _; rfl
  | succ nwords ih =>
    intro scanPos hi
    rw [scanBits_succ, scanBits_succ, ih (wordNo + 1) 0 (by omega),
      getD_modify_of_ne f (Nat.ne_of_lt hi)]

/-! ## The macros as arithmetic -/

theorem toNat_fillLength (w : UInt64) : (fillLength w).toNat = w.toNat % 2 ^ 63 := by
  have h : fillMask.toNat = 2 ^ 63 - 1 := rfl
  rw [fillLength, UInt64.toNat_and, h]
  exact Nat.and_two_pow_sub_one_eq_mod w.toNat 63

theorem toNat_getFillBit (w : UInt64) : (getFillBit w).toNat = w.toNat / 2 ^ 63 := by
  rw [getFillBit, UInt64.toNat_shiftRight]
  simp [Nat.shiftRight_eq_div_pow]

theorem getFillBit_eq_one_iff (w : UInt64) : getFillBit w = 1 ↔ 2 ^ 63 ≤ w.toNat := by
  rw [← UInt64.toNat_inj, toNat_getFillBit]
  have := w.toNat_lt
  simp only [UInt64.toNat_one]
  omega

theorem getFillBit_eq_zero_iff (w : UInt64) : getFillBit w = 0 ↔ w.toNat < 2 ^ 63 := by
  rw [← UInt64.toNat_inj, toNat_getFillBit]
  simp only [UInt64.toNat_zero]
  omega

theorem getFillBit_eq_zero_or_one (w : UInt64) : getFillBit w = 0 ∨ getFillBit w = 1 := by
  rw [getFillBit_eq_zero_iff, getFillBit_eq_one_iff]
  omega

@[simp] theorem fillLength_zero : fillLength 0 = 0 := rfl

/-- A word splits into its fill bit and its fill length. -/
theorem toNat_eq_fill (w : UInt64) :
    w.toNat = (getFillBit w).toNat * 2 ^ 63 + (fillLength w).toNat := by
  rw [toNat_getFillBit, toNat_fillLength]
  omega

theorem toNat_add_of_lt {a b : UInt64} (h : a.toNat + b.toNat < 2 ^ 64) :
    (a + b).toNat = a.toNat + b.toNat := by
  rw [UInt64.toNat_add, Nat.mod_eq_of_lt h]

theorem toNat_toUInt64_of_lt {n : ℕ} (h : n < 2 ^ 64) : n.toUInt64.toNat = n := by
  rw [Nat.toUInt64, UInt64.toNat_ofNat_of_lt' (by simpa [UInt64.size] using h)]

/-- Taking `k` off a fill word's length keeps its fill bit. -/
theorem toNat_sub_of_le_fillLength {w k : UInt64} (hk : k.toNat ≤ (fillLength w).toNat) :
    (w - k).toNat = w.toNat - k.toNat := by
  have h := toNat_eq_fill w
  rw [UInt64.toNat_sub_of_le]
  rw [UInt64.le_iff_toNat_le]
  omega

theorem fillLength_sub {w k : UInt64} (hk : k.toNat ≤ (fillLength w).toNat) :
    (fillLength (w - k)).toNat = (fillLength w).toNat - k.toNat := by
  have h := toNat_eq_fill w
  have hlt := (fillLength w).toNat_lt
  rw [toNat_fillLength, toNat_sub_of_le_fillLength hk]
  rw [toNat_fillLength] at hk ⊢
  omega

theorem getFillBit_sub {w k : UInt64} (hk : k.toNat ≤ (fillLength w).toNat) :
    getFillBit (w - k) = getFillBit w := by
  have h := toNat_eq_fill w
  rw [← UInt64.toNat_inj, toNat_getFillBit, toNat_getFillBit, toNat_sub_of_le_fillLength hk]
  rw [toNat_fillLength] at hk h
  omega

theorem toNat_one_shiftLeft {k : ℕ} (hk : k < 64) :
    ((1 : UInt64) <<< k.toUInt64).toNat = 2 ^ k := by
  rw [UInt64.toNat_shiftLeft, UInt64.toNat_one, toNat_toUInt64_of_lt (by omega),
    Nat.mod_eq_of_lt hk, Nat.shiftLeft_eq, Nat.one_mul]
  exact Nat.mod_eq_of_lt (Nat.pow_lt_pow_right (by decide) hk)

theorem and_eq_zero_iff_testBit {w r : UInt64} {k : ℕ} (hr : r.toNat = 2 ^ k) :
    w &&& r = 0 ↔ w.toNat.testBit k = false := by
  rw [← UInt64.toNat_inj, UInt64.toNat_and, hr, UInt64.toNat_zero]
  constructor
  · intro h
    have := congrArg (Nat.testBit · k) h
    simpa [Nat.testBit_two_pow] using this
  · intro h
    apply Nat.eq_of_testBit_eq
    intro j
    rw [Nat.testBit_and, Nat.testBit_two_pow, Nat.zero_testBit]
    by_cases hj : k = j
    · subst hj; simp [h]
    · simp [hj]

/-- The header bit of word `j` in a header word is its bit `63 - j % 64`, from the leftmost bit
on. -/
theorem headerBit_eq_testBit (w : UInt64) (j : ℕ) :
    decide ((w &&& wordnoGetHeaderBit j) > 0) = w.toNat.testBit (63 - j % 64) := by
  have hr := toNat_one_shiftLeft (k := 63 - j % 64) (by omega)
  have key := and_eq_zero_iff_testBit (w := w) hr
  rw [wordnoGetHeaderBit]
  cases hb : w.toNat.testBit (63 - j % 64) with
  | false =>
    rw [key.mpr hb]
    rfl
  | true =>
    have hne : w &&& (1 : UInt64) <<< (63 - j % 64).toUInt64 ≠ 0 :=
      fun h => by rw [key.mp h] at hb; cases hb
    rw [decide_eq_true_iff, gt_iff_lt, UInt64.lt_iff_toNat_lt, UInt64.toNat_zero]
    exact Nat.pos_of_ne_zero fun h => hne (UInt64.toNat_inj.mp h)

/-- `IS_FILL_WORD` reads the header bit of a word, from the leftmost bit of its header word on. -/
theorem isFillWord_eq_testBit (hwords : List UInt64) (j : ℕ) :
    isFillWord hwords j = (hwords.getD (j / 64) 0).toNat.testBit (63 - j % 64) :=
  headerBit_eq_testBit _ j

/-- Setting the header bit of word `j` marks it as a fill word and no other. -/
theorem isFillWord_modify_or {hwords : List UInt64} {j : ℕ}
    (h : j / bmHrlWordSize < hwords.length) (i : ℕ) :
    isFillWord (hwords.modify (j / bmHrlWordSize) (· ||| wordnoGetHeaderBit j)) i =
      (isFillWord hwords i || decide (i = j)) := by
  unfold bmHrlWordSize at h ⊢
  rw [isFillWord_eq_testBit, isFillWord_eq_testBit]
  by_cases hij : i / 64 = j / 64
  · rw [hij, getD_modify_self _ h, UInt64.toNat_or, Nat.testBit_or, wordnoGetHeaderBit,
      toNat_one_shiftLeft (by omega), Nat.testBit_two_pow]
    have hiff : (63 - j % 64 = 63 - i % 64) ↔ i = j := by omega
    simp only [← hij, hiff]
  · rw [getD_modify_of_ne _ (Ne.symm hij)]
    have hne : i ≠ j := fun h => hij (h ▸ rfl)
    simp [hne]

/-- A literal word stands for its 64 bits, from the least significant on. -/
theorem wordBits_false (w : UInt64) : wordBits false w = (List.range 64).map w.toNat.testBit := by
  simp [wordBits, wordBitsFrom]

/-- A fill word made of a fill bit and a length below `2^63`. -/
theorem toNat_bmMakeFillWord {bit length : UInt64} (hb : bit.toNat ≤ 1)
    (hl : length.toNat < 2 ^ 63) :
    (bmMakeFillWord bit length).toNat = bit.toNat * 2 ^ 63 + length.toNat := by
  have hshift : (bit <<< (63 : UInt64)).toNat = bit.toNat <<< 63 := by
    rw [UInt64.toNat_shiftLeft]
    exact Nat.mod_eq_of_lt (by rw [Nat.shiftLeft_eq]; show bit.toNat * 2 ^ 63 < 2 ^ 64; omega)
  rw [bmMakeFillWord, UInt64.toNat_or, hshift, ← Nat.shiftLeft_add_eq_or_of_lt hl,
    Nat.shiftLeft_eq]

theorem fillLength_bmMakeFillWord {bit length : UInt64} (hb : bit.toNat ≤ 1)
    (hl : length.toNat < 2 ^ 63) : (fillLength (bmMakeFillWord bit length)).toNat = length.toNat := by
  rw [toNat_fillLength, toNat_bmMakeFillWord hb hl]
  omega

theorem getFillBit_bmMakeFillWord {bit length : UInt64} (hb : bit.toNat ≤ 1)
    (hl : length.toNat < 2 ^ 63) : getFillBit (bmMakeFillWord bit length) = bit := by
  rw [← UInt64.toNat_inj, toNat_getFillBit, toNat_bmMakeFillWord hb hl]
  omega

theorem length_wordBitsFrom (isFill : Bool) (w : UInt64) (scanPos : ℕ) :
    (wordBitsFrom isFill w scanPos).length = if isFill then (fillLength w).toNat * 64 else 64 := by
  unfold wordBitsFrom
  split_ifs <;> simp

end Cloudberry.Bitmap
