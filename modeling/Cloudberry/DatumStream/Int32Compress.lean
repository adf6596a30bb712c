import Cloudberry.Lib.BitField

/-!
# Length-tagged integers of datum stream blocks

`datumstreamblock.h` stores small nonnegative integers in one to four bytes, most significant
byte first, with the byte count less one in the top two bits of the first byte. The repeat counts
of run-length encoding use it as `DatumStreamInt32Compress`, with six value bits in the first
byte; the deltas of delta compression use it as `DatumStreamInt32CompressReserved3`, with five,
the third bit from the top holding the delta's sign. Both are one codec (`lengthTaggedSize`,
`lengthTaggedEncode`, `lengthTaggedDecode`) applied to each format's limits and masks.

* `length_lengthTaggedEncode`: the encoder writes as many bytes as `Size` says;
* `lengthTaggedDecode_encode`: a format whose limits are those of `b ≤ 6` value bits in the first
  byte (`LengthTaggedFormat`) decodes what it encoded, whatever follows it;
* `DatumStreamInt32CompressReserved3.decode_encode`: the sign bit is read back and leaves the
  value and its length alone;
* `readRepeatCounts_append`, `repeatCounts_roundTrip`: the reader's loop over the repeat count
  array that `DatumStreamBlockWrite_BlockDense` writes gives back the counts and ends after
  `rle_repeatcounts_current_size` bytes.

An `int32` value of the source is a natural number here: both callers only encode values that
their own checks keep nonnegative.
-/

namespace Cloudberry.DatumStream

/-! ## The codec -/

/-- `Size`: the number of bytes a value takes, given the largest value of one, two and three
bytes. -/
def lengthTaggedSize (limit1 limit2 limit3 value : ℕ) : ℕ :=
  if value ≤ limit1 then 1
  else if value ≤ limit2 then 2
  else if value ≤ limit3 then 3
  else 4

/-- `Encode`: the bytes written for a value, most significant first, with the byte count less one
shifted by `lenFieldShift` into the first byte. -/
def lengthTaggedEncode (limit1 limit2 limit3 : ℕ) (lenFieldShift : UInt8) (value : ℕ) :
    List UInt8 :=
  if value ≤ limit1 then
    [UInt8.ofNat value]
  else if value ≤ limit2 then
    [1 <<< lenFieldShift ||| UInt8.ofNat (value >>> 8), UInt8.ofNat value]
  else if value ≤ limit3 then
    [2 <<< lenFieldShift ||| UInt8.ofNat (value >>> 16), UInt8.ofNat (value >>> 8),
      UInt8.ofNat value]
  else
    [3 <<< lenFieldShift ||| UInt8.ofNat (value >>> 24), UInt8.ofNat (value >>> 16),
      UInt8.ofNat (value >>> 8), UInt8.ofNat value]

/-- `Decode`: the value at the start of `buffer` and its byte count. The value bits of the first
byte are those outside `reservedFieldMask`. -/
def lengthTaggedDecode (lenFieldMask lenFieldShift reservedFieldMask : UInt8)
    (buffer : List UInt8) : ℕ × ℕ :=
  let masked := buffer.getD 0 0 &&& lenFieldMask
  let lenFieldOnly := masked >>> lenFieldShift
  let len := lenFieldOnly.toNat + 1
  let first := (buffer.getD 0 0 &&& ~~~reservedFieldMask).toNat
  -- both formats have a two-bit length field, so `len ≤ 4` and the source's `FATAL` default
  -- case is never taken
  match len with
  | 1 => (first, len)
  | 2 => (first <<< 8 ||| (buffer.getD 1 0).toNat, len)
  | 3 => (first <<< 16 ||| (buffer.getD 1 0).toNat <<< 8 ||| (buffer.getD 2 0).toNat, len)
  | _ => (first <<< 24 ||| (buffer.getD 1 0).toNat <<< 16 ||| (buffer.getD 2 0).toNat <<< 8 |||
      (buffer.getD 3 0).toNat, len)

theorem length_lengthTaggedEncode (limit1 limit2 limit3 : ℕ) (lenFieldShift : UInt8)
    (value : ℕ) :
    (lengthTaggedEncode limit1 limit2 limit3 lenFieldShift value).length =
      lengthTaggedSize limit1 limit2 limit3 value := by
  unfold lengthTaggedEncode lengthTaggedSize
  split_ifs <;> rfl

theorem lengthTaggedSize_pos (limit1 limit2 limit3 value : ℕ) :
    0 < lengthTaggedSize limit1 limit2 limit3 value := by
  unfold lengthTaggedSize
  split_ifs <;> decide

/-- The decoder reads the first byte only through the length field and the value bits. -/
theorem lengthTaggedDecode_cons_congr {lenFieldMask reservedFieldMask x x' : UInt8}
    (hlen : x' &&& lenFieldMask = x &&& lenFieldMask)
    (hvalue : x' &&& ~~~reservedFieldMask = x &&& ~~~reservedFieldMask)
    (lenFieldShift : UInt8) (tail : List UInt8) :
    lengthTaggedDecode lenFieldMask lenFieldShift reservedFieldMask (x' :: tail) =
      lengthTaggedDecode lenFieldMask lenFieldShift reservedFieldMask (x :: tail) := by
  simp only [lengthTaggedDecode, List.getD_cons_zero, List.getD_cons_succ, hlen, hvalue]

/-! ## The bytes of an encoding -/

/-- The first byte of a longer encoding: the length field `k` above six value bits. -/
theorem toNat_tagByte (k : UInt8) (hk : k.toNat < 4) {hi : ℕ} (hhi : hi < 64) :
    (k <<< 6 ||| UInt8.ofNat hi).toNat = 64 * k.toNat + hi := by
  have hk6 : (k <<< 6).toNat = 2 ^ 6 * k.toNat := by
    rw [UInt8.toNat_shiftLeft]
    simp only [UInt8.reduceToNat, Nat.reduceMod, Nat.shiftLeft_eq]
    omega
  rw [UInt8.toNat_or, hk6, UInt8.toNat_ofNat_of_lt' (show hi < 256 by omega),
    ← Nat.two_pow_add_eq_or_of_lt (by omega)]

theorem lenField_of_toNat {x : UInt8} {t hi : ℕ} (hx : x.toNat = 64 * t + hi) (ht : t < 4)
    (hhi : hi < 64) : ((x &&& 0xC0) >>> 6).toNat = t := by
  rw [UInt8.toNat_shiftRight, UInt8.toNat_and, Nat.shiftRight_and_distrib]
  simp only [UInt8.reduceToNat, Nat.reduceMod, Nat.shiftRight_eq_div_pow, hx]
  have : (64 * t + hi) / 2 ^ 6 = t := by omega
  rw [this, show 192 / 2 ^ 6 = 2 ^ 2 - 1 by rfl, Nat.and_two_pow_sub_one_eq_mod]
  omega

theorem valueBits_of_toNat {x r : UInt8} {b t hi : ℕ} (hb : b ≤ 6)
    (hr : (~~~r).toNat = 2 ^ b - 1) (hx : x.toNat = 64 * t + hi) (hhi : hi < 2 ^ b) :
    (x &&& ~~~r).toNat = hi := by
  rw [UInt8.toNat_and, hr, Nat.and_two_pow_sub_one_eq_mod, hx]
  have : 64 = 2 ^ b * 2 ^ (6 - b) := by rw [← Nat.pow_add, Nat.add_sub_cancel' hb]
  rw [this, Nat.mul_assoc, Nat.mul_add_mod, Nat.mod_eq_of_lt hhi]

theorem shiftRight_lt_two_pow {v j b : ℕ} (hv : v < 2 ^ (j + b)) : v >>> j < 2 ^ b := by
  rw [Nat.shiftRight_eq_div_pow, Nat.div_lt_iff_lt_mul (Nat.two_pow_pos j), ← Nat.pow_add,
    Nat.add_comm]
  exact hv

/-- The top bits of a value above its low `j` bits put it back together. -/
theorem shiftLeft_or_mod {v j b : ℕ} (hv : v < 2 ^ (j + b)) :
    (v >>> j) <<< j ||| v % 2 ^ j = v := by
  have hlt := shiftRight_lt_two_pow hv
  have := BitField.join_split j b v
  rwa [Nat.mod_eq_of_lt hlt, Nat.mod_eq_of_lt hv] at this

/-! ## Formats -/

/-- A format of the codec with `b` value bits in the first byte: its limits are the largest
values of `b`, `b + 8` and `b + 16` bits, and its reserved mask keeps exactly the `b` value bits
of the first byte. -/
structure LengthTaggedFormat (b limit1 limit2 limit3 : ℕ) (reservedFieldMask : UInt8) :
    Prop where
  b_le : b ≤ 6
  limit1_eq : limit1 = 2 ^ b - 1
  limit2_eq : limit2 = 2 ^ (b + 8) - 1
  limit3_eq : limit3 = 2 ^ (b + 16) - 1
  valueBits : (~~~reservedFieldMask).toNat = 2 ^ b - 1

section Format

variable {b limit1 limit2 limit3 : ℕ} {reservedFieldMask : UInt8}
  (hf : LengthTaggedFormat b limit1 limit2 limit3 reservedFieldMask)
include hf

/-- The first byte holds the length field above the value's top bits and nothing between. -/
theorem headD_lengthTaggedEncode_mod {value : ℕ} (hv : value < 2 ^ (b + 24)) :
    ((lengthTaggedEncode limit1 limit2 limit3 6 value).headD 0).toNat % 64 < 2 ^ b := by
  have hb6 : 2 ^ b ≤ 2 ^ 6 := Nat.pow_le_pow_right (by decide) hf.b_le
  have hpos := Nat.two_pow_pos b
  unfold lengthTaggedEncode
  split_ifs with h1 h2 h3
  · rw [hf.limit1_eq] at h1
    rw [List.headD_cons, UInt8.toNat_ofNat_of_lt' (show value < 256 by omega)]
    omega
  · rw [hf.limit2_eq] at h2
    have hhi : value >>> 8 < 2 ^ b := shiftRight_lt_two_pow (by rw [Nat.add_comm]; omega)
    rw [List.headD_cons, toNat_tagByte 1 (by decide) (show value >>> 8 < 64 by omega)]
    omega
  · rw [hf.limit3_eq] at h3
    have hhi : value >>> 16 < 2 ^ b := shiftRight_lt_two_pow (by rw [Nat.add_comm]; omega)
    rw [List.headD_cons, toNat_tagByte 2 (by decide) (show value >>> 16 < 64 by omega)]
    omega
  · have hhi : value >>> 24 < 2 ^ b := shiftRight_lt_two_pow (by rw [Nat.add_comm]; omega)
    rw [List.headD_cons, toNat_tagByte 3 (by decide) (show value >>> 24 < 64 by omega)]
    omega

/-- Decoding what was encoded gives the value and the number of bytes `Size` counts, whatever
follows the encoding. -/
theorem lengthTaggedDecode_encode {value : ℕ} (hv : value < 2 ^ (b + 24)) (rest : List UInt8) :
    lengthTaggedDecode 0xC0 6 reservedFieldMask
        (lengthTaggedEncode limit1 limit2 limit3 6 value ++ rest) =
      (value, lengthTaggedSize limit1 limit2 limit3 value) := by
  have hb := hf.b_le
  have hb6 : 2 ^ b ≤ 2 ^ 6 := Nat.pow_le_pow_right (by decide) hb
  have hpos := Nat.two_pow_pos b
  unfold lengthTaggedEncode lengthTaggedSize
  -- one case per length; in each the first byte is `64 * (length - 1)` plus the value's top
  -- bits, and the value is put back together from the top bits and the whole bytes below
  split_ifs with h1 h2 h3
  · rw [hf.limit1_eq] at h1
    have hx : (UInt8.ofNat value).toNat = 64 * 0 + value := by
      rw [UInt8.toNat_ofNat_of_lt' (show value < 256 by omega)]
      omega
    simp only [lengthTaggedDecode, List.cons_append, List.getD_cons_zero,
      lenField_of_toNat hx (by decide) (by omega),
      valueBits_of_toNat hb hf.valueBits hx (by omega), Nat.zero_add]
  · rw [hf.limit2_eq] at h2
    have hhi : value >>> 8 < 2 ^ b := shiftRight_lt_two_pow (by rw [Nat.add_comm]; omega)
    have hx := toNat_tagByte 1 (by decide) (show value >>> 8 < 64 by omega)
    simp only [lengthTaggedDecode, List.cons_append, List.getD_cons_zero, List.getD_cons_succ,
      lenField_of_toNat hx (by decide) (by omega), valueBits_of_toNat hb hf.valueBits hx hhi,
      UInt8.toNat_ofNat', shiftLeft_or_mod (show value < 2 ^ (8 + b) by rw [Nat.add_comm]; omega),
      UInt8.reduceToNat, Nat.reduceAdd]
  · rw [hf.limit3_eq] at h3
    have hhi : value >>> 16 < 2 ^ b := shiftRight_lt_two_pow (by rw [Nat.add_comm]; omega)
    have hx := toNat_tagByte 2 (by decide) (show value >>> 16 < 64 by omega)
    simp only [lengthTaggedDecode, List.cons_append, List.getD_cons_zero, List.getD_cons_succ,
      lenField_of_toNat hx (by decide) (by omega), valueBits_of_toNat hb hf.valueBits hx hhi,
      UInt8.toNat_ofNat', Nat.or_assoc, BitField.join_split, Nat.reduceAdd,
      shiftLeft_or_mod (show value < 2 ^ (16 + b) by rw [Nat.add_comm]; omega),
      UInt8.reduceToNat]
  · have hhi : value >>> 24 < 2 ^ b := shiftRight_lt_two_pow (by rw [Nat.add_comm]; omega)
    have hx := toNat_tagByte 3 (by decide) (show value >>> 24 < 64 by omega)
    simp only [lengthTaggedDecode, List.cons_append, List.getD_cons_zero, List.getD_cons_succ,
      lenField_of_toNat hx (by decide) (by omega), valueBits_of_toNat hb hf.valueBits hx hhi,
      UInt8.toNat_ofNat', Nat.or_assoc, BitField.join_split, Nat.reduceAdd,
      shiftLeft_or_mod (show value < 2 ^ (24 + b) by rw [Nat.add_comm]; omega),
      UInt8.reduceToNat]

end Format

/-! ## Repeat counts: `DatumStreamInt32Compress` -/

namespace DatumStreamInt32Compress

/-- `DatumStreamInt32Compress_Size`. -/
def size (value : ℕ) : ℕ := lengthTaggedSize 0x3F 0x3FFF 0x3FFFFF value

/-- `DatumStreamInt32Compress_Encode`: the bytes it writes (it returns their number). -/
def encode (value : ℕ) : List UInt8 := lengthTaggedEncode 0x3F 0x3FFF 0x3FFFFF 6 value

/-- `DatumStreamInt32Compress_Decode`: the value and its byte length. -/
def decode (buffer : List UInt8) : ℕ × ℕ := lengthTaggedDecode 0xC0 6 0xC0 buffer

theorem format : LengthTaggedFormat 6 0x3F 0x3FFF 0x3FFFFF 0xC0 :=
  ⟨le_rfl, rfl, rfl, rfl, rfl⟩

theorem length_encode (value : ℕ) : (encode value).length = size value :=
  length_lengthTaggedEncode _ _ _ _ value

/-- Up to `Int32Compress_4ByteLimit`, a repeat count is decoded back with its length. -/
theorem decode_encode {value : ℕ} (hv : value ≤ 0x3FFFFFFF) (rest : List UInt8) :
    decode (encode value ++ rest) = (value, size value) :=
  lengthTaggedDecode_encode format (show value < 2 ^ (6 + 24) by omega) rest

end DatumStreamInt32Compress

/-! ## Deltas: `DatumStreamInt32CompressReserved3` -/

/-- The sign test of the decoder reads bit `5` of the first byte. -/
theorem and_signPositiveMask_ne_zero (x : UInt8) : (x &&& 0x20 != 0) = x.toNat.testBit 5 := by
  have h : (x &&& 0x20).toNat = (x.toNat.testBit 5).toNat * 2 ^ 5 := by
    rw [UInt8.toNat_and, show (0x20 : UInt8).toNat = 2 ^ 5 from rfl, Nat.and_two_pow]
  cases hb : x.toNat.testBit 5
  · rw [hb] at h
    simpa [← UInt8.toNat_inj] using h
  · rw [hb] at h
    simp [← UInt8.toNat_inj, h]

theorem or_and_eq_of_and_eq_zero {x y z : UInt8} (h : y &&& z = 0) :
    (x ||| y) &&& z = x &&& z := by
  apply UInt8.toNat_inj.mp
  have h' : y.toNat &&& z.toNat = 0 := by
    rw [← UInt8.toNat_and, h, UInt8.toNat_zero]
  rw [UInt8.toNat_and, UInt8.toNat_or, Nat.and_or_distrib_right, h', Nat.or_zero,
    UInt8.toNat_and]

namespace DatumStreamInt32CompressReserved3

/-- `DatumStreamInt32CompressReserved3_Size`. -/
def size (value : ℕ) : ℕ := lengthTaggedSize 0x1F 0x1FFF 0x1FFFFF value

/-- `DatumStreamInt32CompressReserved3_Encode`: the bytes it writes. Unlike the repeat counts, the
first byte then gets the sign. -/
def encode (value : ℕ) (sign : Bool) : List UInt8 :=
  let buffer := lengthTaggedEncode 0x1F 0x1FFF 0x1FFFFF 6 value
  -- set the sign bit if positive
  if sign then buffer.modifyHead (· ||| 0x20) else buffer

/-- `DatumStreamInt32CompressReserved3_Decode`: the value, its byte length and the sign. -/
def decode (buffer : List UInt8) : ℕ × ℕ × Bool :=
  let sign := buffer.getD 0 0 &&& 0x20 != 0
  let (value, byteLen) := lengthTaggedDecode 0xC0 6 0xE0 buffer
  (value, byteLen, sign)

theorem format : LengthTaggedFormat 5 0x1F 0x1FFF 0x1FFFFF 0xE0 :=
  ⟨by decide, rfl, rfl, rfl, rfl⟩

theorem length_encode (value : ℕ) (sign : Bool) : (encode value sign).length = size value := by
  cases sign <;> simp [encode, size, length_lengthTaggedEncode]

/-- Up to `Int32CompressReserved3_4ByteLimit`, a delta is decoded back with its length and its
sign: the sign bit lies in the reserved field, outside both the length field and the value bits
the decoder reads. -/
theorem decode_encode {value : ℕ} (hv : value ≤ 0x1FFFFFFF) (sign : Bool) (rest : List UInt8) :
    decode (encode value sign ++ rest) = (value, size value, sign) := by
  have hv' : value < 2 ^ (5 + 24) := by omega
  obtain ⟨x, tail, hxt⟩ := List.exists_cons_of_ne_nil (List.ne_nil_of_length_pos
    ((length_lengthTaggedEncode 0x1F 0x1FFF 0x1FFFFF 6 value).symm ▸
      lengthTaggedSize_pos 0x1F 0x1FFF 0x1FFFFF value))
  have hx : x.toNat % 64 < 2 ^ 5 := by
    simpa [hxt] using headD_lengthTaggedEncode_mod format hv'
  have hdec := lengthTaggedDecode_encode format hv' rest
  rw [hxt, List.cons_append] at hdec
  cases sign with
  | false =>
    -- bit `5` of the first byte is clear: the value's top bits stay below it
    have hbit : x.toNat.testBit 5 = false := by
      rw [Nat.testBit_eq_decide_div_mod_eq]
      simp only [decide_eq_false_iff_not]
      omega
    simp only [decode, encode, hxt, Bool.false_eq_true, if_false, List.cons_append,
      List.getD_cons_zero, and_signPositiveMask_ne_zero, hbit, hdec, size]
  | true =>
    have hlen : (x ||| 0x20) &&& 0xC0 = x &&& 0xC0 := or_and_eq_of_and_eq_zero (by decide)
    have hvalue : (x ||| 0x20) &&& ~~~0xE0 = x &&& ~~~0xE0 := or_and_eq_of_and_eq_zero (by decide)
    have hcongr := lengthTaggedDecode_cons_congr hlen hvalue 6 (tail ++ rest)
    have hbit : (x ||| 0x20).toNat.testBit 5 = true := by
      rw [UInt8.toNat_or, Nat.testBit_or, Bool.or_eq_true]
      exact .inr (by decide)
    simp only [decode, encode, hxt, if_true, List.modifyHead_cons, List.cons_append,
      List.getD_cons_zero, and_signPositiveMask_ne_zero, hcongr, hdec, size, hbit]

end DatumStreamInt32CompressReserved3

open DatumStreamInt32Compress

/-- The repeat count array `DatumStreamBlockWrite_BlockDense` writes: each count's encoding right
after the previous one. -/
def blockDenseRepeatCounts (repeatCounts : List ℕ) : List UInt8 := repeatCounts.flatMap encode

/-- `rle_repeatcounts_current_size`: the sizes of the finalized repeat counts, added up one count at
a time by `DatumStreamBlockWrite_RleFinalizeRepeatCountSize`. -/
def repeatCountsCurrentSize (repeatCounts : List ℕ) : ℕ :=
  repeatCounts.foldl (fun currentSize repeatCount => currentSize + size repeatCount) 0

/-- The repeat counts `DatumStreamBlockRead_AdvanceDense` takes for `n` new repeated items: each
is decoded at `rle_repeatcountsp`, which then moves past it. Returns the counts and the final
offset of the pointer in `buffer`. -/
def readRepeatCounts (buffer : List UInt8) : ℕ → ℕ → List ℕ × ℕ
  | 0, p => ([], p)
  | n + 1, p =>
    let (repeatCount, byteLen) := decode (buffer.drop p)
    let (repeatCounts, q) := readRepeatCounts buffer n (p + byteLen)
    (repeatCount :: repeatCounts, q)

/-- The running total can start anywhere: what is added to it does not depend on it. -/
theorem foldl_add_size (repeatCounts : List ℕ) (init : ℕ) :
    repeatCounts.foldl (fun currentSize repeatCount => currentSize + size repeatCount) init =
      init + repeatCounts.foldl (fun currentSize repeatCount => currentSize + size repeatCount) 0 := by
  induction repeatCounts generalizing init with
  | nil => rfl
  | cons c cs ih =>
    simp only [List.foldl_cons]
    rw [ih, ih (0 + size c)]
    omega

@[simp] theorem repeatCountsCurrentSize_nil : repeatCountsCurrentSize [] = 0 := rfl

@[simp] theorem repeatCountsCurrentSize_cons (c : ℕ) (cs : List ℕ) :
    repeatCountsCurrentSize (c :: cs) = size c + repeatCountsCurrentSize cs := by
  simp only [repeatCountsCurrentSize, List.foldl_cons]
  rw [foldl_add_size, Nat.zero_add]

theorem length_blockDenseRepeatCounts (repeatCounts : List ℕ) :
    (blockDenseRepeatCounts repeatCounts).length = repeatCountsCurrentSize repeatCounts := by
  induction repeatCounts with
  | nil => rfl
  | cons c cs ih =>
    rw [blockDenseRepeatCounts, List.flatMap_cons, List.length_append, length_encode,
      ← blockDenseRepeatCounts, ih, repeatCountsCurrentSize_cons]

/-- The reader's loop started anywhere in front of the array: it ends after the array. -/
theorem readRepeatCounts_append {repeatCounts : List ℕ} (h : ∀ v ∈ repeatCounts, v ≤ 0x3FFFFFFF)
    (pre rest : List UInt8) :
    readRepeatCounts (pre ++ blockDenseRepeatCounts repeatCounts ++ rest) repeatCounts.length
        pre.length = (repeatCounts, pre.length + repeatCountsCurrentSize repeatCounts) := by
  induction repeatCounts generalizing pre with
  | nil => simp [readRepeatCounts]
  | cons c cs ih =>
    have hc := h c List.mem_cons_self
    have hcs : ∀ v ∈ cs, v ≤ 0x3FFFFFFF := fun v hv => h v (List.mem_cons_of_mem c hv)
    have hdrop : (pre ++ blockDenseRepeatCounts (c :: cs) ++ rest).drop pre.length =
        encode c ++ (blockDenseRepeatCounts cs ++ rest) := by
      simp [blockDenseRepeatCounts]
    -- the next call starts after `pre` and the encoding of `c`
    have hnext := ih hcs (pre ++ encode c)
    simp only [List.append_assoc, List.length_append, length_encode] at hnext
    simp only [readRepeatCounts, hdrop, decode_encode hc, List.length_cons]
    simp only [blockDenseRepeatCounts, List.flatMap_cons, List.append_assoc] at hnext ⊢
    rw [hnext, repeatCountsCurrentSize_cons, Nat.add_assoc]

/-- Repeat counts up to `Int32Compress_4ByteLimit` survive the block: a count is written in `Size`
bytes and decoded back with that length, and the reader's loop over the array the writer builds
gives back every count and stops after `rle_repeatcounts_current_size` bytes, the array's
length. -/
theorem repeatCounts_roundTrip {value : ℕ} (hv : value ≤ 0x3FFFFFFF) {repeatCounts : List ℕ}
    (h : ∀ v ∈ repeatCounts, v ≤ 0x3FFFFFFF) (rest : List UInt8) :
    (encode value).length = size value ∧ decode (encode value ++ rest) = (value, size value) ∧
      (blockDenseRepeatCounts repeatCounts).length = repeatCountsCurrentSize repeatCounts ∧
      readRepeatCounts (blockDenseRepeatCounts repeatCounts ++ rest) repeatCounts.length 0 =
        (repeatCounts, repeatCountsCurrentSize repeatCounts) := by
  refine ⟨length_encode value, decode_encode hv rest, length_blockDenseRepeatCounts repeatCounts,
    ?_⟩
  simpa using readRepeatCounts_append h [] rest

/-- The counts on both sides of each length boundary: nineteen bytes, read back in order. -/
theorem repeatCounts_roundTrip_boundaries :
    0x3FFFFFFF ≤ 0x3FFFFFFF ∧
      (∀ v ∈ [0x3F, 0x40, 0x3FFF, 0x4000, 0x3FFFFF, 0x400000, 0x3FFFFFFF], v ≤ 0x3FFFFFFF) ∧
      readRepeatCounts (blockDenseRepeatCounts
          [0x3F, 0x40, 0x3FFF, 0x4000, 0x3FFFFF, 0x400000, 0x3FFFFFFF]) 7 0 =
        ([0x3F, 0x40, 0x3FFF, 0x4000, 0x3FFFFF, 0x400000, 0x3FFFFFFF], 19) := by
  refine ⟨le_rfl, by decide, ?_⟩
  have h := (@repeatCounts_roundTrip 0x3FFFFFFF (le_refl _)
    [0x3F, 0x40, 0x3FFF, 0x4000, 0x3FFFFF, 0x400000, 0x3FFFFFFF] (by decide) []).2.2.2
  rw [List.append_nil] at h
  exact h.trans (by rfl)

end Cloudberry.DatumStream
