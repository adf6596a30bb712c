import Cloudberry.Visimap.Bitstream
import Cloudberry.Visimap.Bitmapset
import Cloudberry.Lib.ExceptBind

/-!
# Bitmap compression (`bitmap_compression.c`)

`Bitmap_Compress` writes a bitmap of 32-bit blocks after a two-byte header: one bit for the
compression type, three bits skipped and twelve bits of block count. Without compression
(`BITMAP_COMPRESSION_TYPE_NO`) the blocks follow as they lie in memory, from byte 2. The default
compression writes each block as a two-bit flag: all zeros, all ones, or a raw block followed by
its 32 bits; a run of copies of the previous block is one flag and an eight-bit count, except
that up to four copies of an all-zero or all-one block are written as that many flags. When the
encoded bits do not fit the buffer the compressor starts again without compression.

We read the encoded bits as a list of `Token`s, each of which stands for some blocks (`expand`),
and prove both halves of the round trip against that reading:

* the default encoder writes tokens that expand to its input (`CompressInv.compressLoop`,
  `Bitstream.Wrote.compressDefault`), and either path of `Bitmap_Compress` leaves a buffer that
  `Encodes` the bitmap (`bitmapCompress_encodes`);
* the decoding loop turns any token stream back into its expansion
  (`Bitstream.Reads.decompressLoop`), and `BitmapDecompress_Init` followed by
  `BitmapDecompress_Decompress` on a buffer that `Encodes` a bitmap returns it
  (`bitmapDecompress_of_encodes`);
* together, compressing at most `4095` blocks into `4n + 2` bytes and decompressing what was
  written gives the blocks back (`bitmapCompress_roundTrip`).
-/

namespace Cloudberry.Visimap

open ByteMem Bits

/-- `BitmapCompressionType`. -/
inductive BitmapCompressionType
  | no
  | default
  deriving DecidableEq, Repr

/-- The value of a compression type in the header. -/
def BitmapCompressionType.toNat : BitmapCompressionType → ℕ
  | .no => 0
  | .default => 1

/-- `BitmapCompressionFlag`: the two-bit tag of an encoded block. -/
inductive BitmapCompressionFlag
  | zero
  | one
  | rle
  | raw
  deriving DecidableEq, Repr

/-- The value of a flag in the stream. -/
def BitmapCompressionFlag.toNat : BitmapCompressionFlag → ℕ
  | .zero => 0
  | .one => 1
  | .rle => 2
  | .raw => 3

/-- `BITMAP_COMPRESSION_HEADER_SIZE`, in bytes. -/
def bitmapCompressionHeaderSize : ℕ := 2

/-! ## Compression -/

/-- The loop of `Bitmap_EncodeRLE` that puts the flag of a short run once for each block. -/
def putRepeated (bs : Bitstream) (v bitCount : ℕ) : ℕ → Option Bitstream
  | 0 => some bs
  | n + 1 => do
    let bs ← bs.put v bitCount
    putRepeated bs v bitCount n

/-- `Bitmap_EncodeRLE`: a run of `rleRepeatCount` more copies of the last block. -/
def encodeRLE (bs : Bitstream) (rleRepeatCount : ℕ) (lastBlockFlag : BitmapCompressionFlag) :
    Option Bitstream :=
  if lastBlockFlag = .raw ∨ rleRepeatCount > 4 then do
    let bs ← bs.put BitmapCompressionFlag.rle.toNat 2
    bs.put (rleRepeatCount - 1) 8
  else putRepeated bs lastBlockFlag.toNat 2 rleRepeatCount

/-- The locals of `Bitmap_Compress_Default` carried from one block to the next. -/
structure CompressState where
  bitstream : Bitstream
  lastBlockData : UInt32
  lastBlockFlag : BitmapCompressionFlag
  rleRepeatCount : ℕ

/-- The branch of `Bitmap_Compress_Default` that puts a block starting no run: its flag, then
its bits unless it is all zeros or all ones. -/
def putBlock (bs : Bitstream) (blockData : UInt32) :
    Option (Bitstream × BitmapCompressionFlag) :=
  if blockData = 0 then do
    let bs ← bs.put BitmapCompressionFlag.zero.toNat 2
    pure (bs, .zero)
  else if blockData = 0xFFFFFFFF then do
    let bs ← bs.put BitmapCompressionFlag.one.toNat 2
    pure (bs, .one)
  else do
    let bs ← bs.put BitmapCompressionFlag.raw.toNat 2
    let bs ← bs.put blockData.toNat 32
    pure (bs, .raw)

/-- `if (rleRepeatCount > 0) Bitmap_EncodeRLE(...)`: the pending run written out, if any. -/
def CompressState.flushRun (st : CompressState) : Option Bitstream :=
  if st.rleRepeatCount > 0 then encodeRLE st.bitstream st.rleRepeatCount st.lastBlockFlag
  else some st.bitstream

/-- One iteration of the loop of `Bitmap_Compress_Default`, on block `i`. -/
def compressStep (st : CompressState) (i : ℕ) (blockData : UInt32) : Option CompressState :=
  if blockData = st.lastBlockData ∧ st.rleRepeatCount ≤ 255 ∧ i > 0 then
    some { st with rleRepeatCount := st.rleRepeatCount + 1 }
  else do
    let bs ← st.flushRun
    let (bs, lastBlockFlag) ← putBlock bs blockData
    pure ⟨bs, blockData, lastBlockFlag, 0⟩

/-- The loop of `Bitmap_Compress_Default` over the blocks from index `i` on. -/
def compressLoop (st : CompressState) (i : ℕ) : List UInt32 → Option CompressState
  | [] => some st
  | blockData :: bitmap => do
    let st ← compressStep st i blockData
    compressLoop st (i + 1) bitmap

/-- `Bitmap_Compress_Default`: the loop, then the last run. -/
def compressDefault (bitmap : List UInt32) (bitstream : Bitstream) : Option Bitstream := do
  let st ← compressLoop ⟨bitstream, 0, .zero, 0⟩ 0 bitmap
  st.flushRun

/-- `Bitmap_Compress_Write_Header`. -/
def compressWriteHeader (compressionType : BitmapCompressionType) (blockCount : ℕ)
    (bs : Bitstream) : Option Bitstream := do
  let bs ← bs.put compressionType.toNat 1
  let bs ← bs.skip 3
  bs.put blockCount 12

/-- `Bitmap_Compress`: the number of bytes written, and the buffer. -/
def bitmapCompress (compressionType : BitmapCompressionType) (bitmap : List UInt32)
    (outData : Mem) (maxOutDataSize : ℕ) : Except String (ℕ × Mem) :=
  let outData := outData.write 0 (List.replicate maxOutDataSize 0)
  match compressWriteHeader compressionType bitmap.length (.init outData maxOutDataSize) with
  | none => throw "Failed to write bitmap compression header"
  | some bs =>
    match _h : compressionType with
    | .no =>
      if bitmap.length = 0 then pure (2, bs.data)
      else
        let (offset, bs) := bs.getAlignedData 16
        pure (bitmap.length * 4 + 2,
          bs.data.write offset ((bitmap.map UInt32.toNat).flatMap (leBytes 4)))
    | .default =>
      match compressDefault bitmap bs with
      -- the stream writes below `maxOutDataSize` only, so the `memset` gives back `outData`
      | none => bitmapCompress .no bitmap outData maxOutDataSize
      | some bs => pure (bs.getLength, bs.data)
termination_by compressionType.toNat
decreasing_by all_goals simp_all [BitmapCompressionType.toNat]

/-- `BitmapCompress_CalculateBlockCounts` on a 64-bit build: the number of 32-bit blocks to
store, and the number of words. One word whose upper half is zero is stored as one block. -/
def compressCalculateBlockCounts : Option Bitmapset → ℕ × ℕ
  | none => (0, 0)
  | some bitmap =>
    let bmsWordCount := bitmap.nwords
    if bmsWordCount = 1 ∧ bitmap.word 0 >>> 32 = 0 then (1, bmsWordCount)
    else (bitmap.nwords * 2, bmsWordCount)

/-! ## Decompression -/

/-- `BitmapDecompressState`. -/
structure BitmapDecompressState where
  bitstream : Bitstream
  compressionType : ℕ
  blockCount : ℕ

/-- `BitmapDecompress_Init`: the header. It fails, and the stream is then in error
(`BitmapDecompress_HasError`), when the buffer is too short. -/
def decompressInit (inData : Mem) (inDataSize : ℕ) : Option BitmapDecompressState := do
  let (compressionType, bs) ← (Bitstream.init inData inDataSize).get 1
  let bs ← bs.skip 3
  let (blockCount, bs) ← bs.get 12
  pure ⟨bs, compressionType, blockCount⟩

/-- `BitmapDecompress_CalculateBlockCounts` on a 64-bit build: the on-disk block count, and the
number of words holding it. -/
def decompressCalculateBlockCounts (state : BitmapDecompressState) : ℕ × ℕ :=
  let onDiskBlockCount := state.blockCount
  (onDiskBlockCount, if onDiskBlockCount = 1 then 1 else onDiskBlockCount / 2)

/-- What the decoding loop of `BitmapDecompress_Decompress` leaves: the blocks it wrote,
`rleRepeatCount` and `failed`. -/
structure DecodeResult where
  bitmap : List UInt32
  rleRepeatCount : ℕ
  failed : Bool

/-- The result with `blocks` written before the others. -/
def DecodeResult.prepend (blocks : List UInt32) (r : DecodeResult) : DecodeResult :=
  { r with bitmap := blocks ++ r.bitmap }

/-- The decoding loop of `BitmapDecompress_Decompress`, for `n` more blocks. A failed read sets
`failed`; the C loop may go on after it, but a failed stream stays failed and `rleRepeatCount`
stays zero, so it only ends the same way. -/
def decompressLoop (bs : Bitstream) (lastBlockData : UInt32) (rleRepeatCount : ℕ) :
    ℕ → Except String DecodeResult
  | 0 => pure ⟨[], rleRepeatCount, false⟩
  | n + 1 =>
    if rleRepeatCount = 0 then
      match bs.get 2 with
      | none => pure ⟨[], rleRepeatCount, true⟩
      | some (flag, bs) =>
        if flag = BitmapCompressionFlag.zero.toNat then
          DecodeResult.prepend [0] <$> decompressLoop bs 0 0 n
        else if flag = BitmapCompressionFlag.one.toNat then
          DecodeResult.prepend [0xFFFFFFFF] <$> decompressLoop bs 0xFFFFFFFF 0 n
        else if flag = BitmapCompressionFlag.raw.toNat then
          match bs.get 32 with
          | none => pure ⟨[], rleRepeatCount, true⟩
          | some (v, bs) =>
            DecodeResult.prepend [UInt32.ofNat v] <$> decompressLoop bs (UInt32.ofNat v) 0 n
        else if flag = BitmapCompressionFlag.rle.toNat then
          match bs.get 8 with
          | none => pure ⟨[], rleRepeatCount, true⟩
          | some (count, bs) =>
            DecodeResult.prepend [lastBlockData] <$> decompressLoop bs lastBlockData count n
        else throw "Invalid compression flag"
    else
      -- inside a run: one more copy of the last block
      DecodeResult.prepend [lastBlockData] <$>
        decompressLoop bs lastBlockData (rleRepeatCount - 1) n

/-- `BitmapDecompress_Decompress`: the `blockCount` blocks, into an array of `bitmapDataSize`. -/
def bitmapDecompress (state : BitmapDecompressState) (bitmapDataSize : ℕ) :
    Except String (List UInt32) :=
  let blockCount := state.blockCount
  let compressionType := state.compressionType
  if blockCount > bitmapDataSize then
    throw s!"invalid block count for bitmap during decompression: block count {blockCount}, compression type {compressionType}"
  else if compressionType = BitmapCompressionType.no.toNat then
    let (offset, bs) := state.bitstream.getAlignedData 16
    pure ((List.range blockCount).map fun i => UInt32.ofNat (bs.data.load (offset + 4 * i) 4))
  else if compressionType = BitmapCompressionType.default.toNat then do
    let r ← decompressLoop state.bitstream 0 0 blockCount
    let rleRepeatCount := r.rleRepeatCount
    if rleRepeatCount > 0 then
      throw s!"illegal RLE state after bitmap decompression: block count {blockCount}, compression type {compressionType}, rle repeat count {rleRepeatCount}"
    else if r.failed then
      throw s!"bitstream read error seen during decompression: block count {blockCount}, compression type {compressionType}"
    else pure r.bitmap
  else
    throw s!"illegal compression type during bitmap decompression: compression type {compressionType}"

/-! ## The encoder keeps the buffer size -/

theorem putRepeated_dataSize {bs bs' : Bitstream} {v k n : ℕ}
    (hput : putRepeated bs v k n = some bs') : bs'.dataSize = bs.dataSize := by
  induction n generalizing bs with
  | zero => exact congrArg Bitstream.dataSize (Option.some.inj hput).symm
  | succ n ih =>
    obtain ⟨bs₁, h₁, h₂⟩ := Option.bind_eq_some_iff.1 hput
    exact (ih h₂).trans (Bitstream.putBits_dataSize h₁)

theorem encodeRLE_dataSize {bs bs' : Bitstream} {n : ℕ} {f : BitmapCompressionFlag}
    (hput : encodeRLE bs n f = some bs') : bs'.dataSize = bs.dataSize := by
  unfold encodeRLE at hput
  split_ifs at hput
  · obtain ⟨bs₁, h₁, h₂⟩ := Option.bind_eq_some_iff.1 hput
    exact (Bitstream.putBits_dataSize h₂).trans (Bitstream.putBits_dataSize h₁)
  · exact putRepeated_dataSize hput

theorem putBlock_dataSize {bs bs' : Bitstream} {b : UInt32} {f : BitmapCompressionFlag}
    (hput : putBlock bs b = some (bs', f)) : bs'.dataSize = bs.dataSize := by
  unfold putBlock at hput
  split_ifs at hput
  · obtain ⟨bs₁, h₁, h₂⟩ := Option.bind_eq_some_iff.1 hput
    obtain ⟨rfl, -⟩ := Prod.mk.inj (Option.some.inj h₂)
    exact Bitstream.putBits_dataSize h₁
  · obtain ⟨bs₁, h₁, h₂⟩ := Option.bind_eq_some_iff.1 hput
    obtain ⟨rfl, -⟩ := Prod.mk.inj (Option.some.inj h₂)
    exact Bitstream.putBits_dataSize h₁
  · obtain ⟨bs₁, h₁, h₂⟩ := Option.bind_eq_some_iff.1 hput
    obtain ⟨bs₂, h₃, h₄⟩ := Option.bind_eq_some_iff.1 h₂
    obtain ⟨rfl, -⟩ := Prod.mk.inj (Option.some.inj h₄)
    exact (Bitstream.putBits_dataSize h₃).trans (Bitstream.putBits_dataSize h₁)

/-- Writing out a pending run, if any, keeps the buffer size. -/
theorem flushRun_dataSize {st : CompressState} {bs : Bitstream} (hflush : st.flushRun = some bs) :
    bs.dataSize = st.bitstream.dataSize := by
  unfold CompressState.flushRun at hflush
  split_ifs at hflush
  · exact encodeRLE_dataSize hflush
  · rw [Option.some.inj hflush]

theorem compressLoop_dataSize {st st' : CompressState} {i : ℕ} {bitmap : List UInt32}
    (hloop : compressLoop st i bitmap = some st') :
    st'.bitstream.dataSize = st.bitstream.dataSize := by
  induction bitmap generalizing st i with
  | nil => rw [Option.some.inj hloop]
  | cons b bitmap ih =>
    obtain ⟨st₁, h₁, h₂⟩ := Option.bind_eq_some_iff.1 hloop
    rw [ih h₂]
    unfold compressStep at h₁
    by_cases hrun : b = st.lastBlockData ∧ st.rleRepeatCount ≤ 255 ∧ i > 0
    · rw [if_pos hrun] at h₁
      rw [← Option.some.inj h₁]
    · rw [if_neg hrun] at h₁
      obtain ⟨bs₁, hflush, hrest⟩ := Option.bind_eq_some_iff.1 h₁
      obtain ⟨⟨bs₂, f⟩, hput, hst⟩ := Option.bind_eq_some_iff.1 hrest
      rw [← Option.some.inj hst]
      exact (putBlock_dataSize hput).trans (flushRun_dataSize hflush)

theorem compressDefault_dataSize {bs bs' : Bitstream} {bitmap : List UInt32}
    (hc : compressDefault bitmap bs = some bs') : bs'.dataSize = bs.dataSize := by
  obtain ⟨st, hloop, hfin⟩ := Option.bind_eq_some_iff.1 hc
  exact (flushRun_dataSize hfin).trans (compressLoop_dataSize hloop)

/-! ## Encoded blocks as tokens -/

/-- What one flag and its payload stand for. -/
inductive Token
  | zero
  | one
  | raw (v : UInt32)
  /-- `count + 1` copies of the last block. -/
  | rle (count : UInt8)
  deriving DecidableEq, Repr

namespace Token

/-- The bits of a token, its flag first. -/
def bits : Token → List Bool
  | zero => msb 2 BitmapCompressionFlag.zero.toNat
  | one => msb 2 BitmapCompressionFlag.one.toNat
  | raw v => msb 2 BitmapCompressionFlag.raw.toNat ++ msb 32 v.toNat
  | rle c => msb 2 BitmapCompressionFlag.rle.toNat ++ msb 8 c.toNat

/-- The blocks a token stands for when the last block was `last`. -/
def blocks (last : UInt32) : Token → List UInt32
  | zero => [0]
  | one => [0xFFFFFFFF]
  | raw v => [v]
  | rle c => List.replicate (c.toNat + 1) last

/-- The last block after a token. -/
def last (last : UInt32) : Token → UInt32
  | zero => 0
  | one => 0xFFFFFFFF
  | raw v => v
  | rle _ => last

/-- The token of a block that starts no run. -/
def ofBlock (blockData : UInt32) : Token :=
  if blockData = 0 then zero else if blockData = 0xFFFFFFFF then one else raw blockData

@[simp] theorem blocks_ofBlock (l b : UInt32) : (ofBlock b).blocks l = [b] := by
  unfold ofBlock
  split_ifs with h₀ h₁
  · simp [blocks, h₀]
  · simp [blocks, h₁]
  · rfl

@[simp] theorem last_ofBlock (l b : UInt32) : (ofBlock b).last l = b := by
  unfold ofBlock
  split_ifs with h₀ h₁
  · simp [last, h₀]
  · simp [last, h₁]
  · rfl

end Token

/-- The flag `Bitmap_Compress_Default` records for a block. -/
def flagOf (blockData : UInt32) : BitmapCompressionFlag :=
  if blockData = 0 then .zero else if blockData = 0xFFFFFFFF then .one else .raw

theorem Token.bits_ofBlock_of_ne_raw {b : UInt32} (h : flagOf b ≠ .raw) :
    (ofBlock b).bits = msb 2 (flagOf b).toNat := by
  unfold ofBlock
  unfold flagOf at h ⊢
  split_ifs at h ⊢ <;> first | rfl | exact absurd rfl h

/-- The bits of a token stream. -/
def tokenBits (ts : List Token) : List Bool := ts.flatMap Token.bits

/-- The blocks a token stream stands for when the last block was `last`. -/
def expand (last : UInt32) : List Token → List UInt32
  | [] => []
  | t :: ts => t.blocks last ++ expand (t.last last) ts

/-- The last block after a token stream. -/
def lastBlock (last : UInt32) (ts : List Token) : UInt32 := ts.foldl Token.last last

@[simp] theorem tokenBits_nil : tokenBits [] = [] := rfl

@[simp] theorem tokenBits_cons (t : Token) (ts : List Token) :
    tokenBits (t :: ts) = t.bits ++ tokenBits ts := rfl

@[simp] theorem tokenBits_append (ts us : List Token) :
    tokenBits (ts ++ us) = tokenBits ts ++ tokenBits us := by
  simp [tokenBits]

@[simp] theorem expand_nil (last : UInt32) : expand last [] = [] := rfl

@[simp] theorem lastBlock_nil (last : UInt32) : lastBlock last [] = last := rfl

@[simp] theorem lastBlock_cons (last : UInt32) (t : Token) (ts : List Token) :
    lastBlock last (t :: ts) = lastBlock (t.last last) ts := rfl

theorem lastBlock_append (last : UInt32) (ts us : List Token) :
    lastBlock last (ts ++ us) = lastBlock (lastBlock last ts) us := by
  simp [lastBlock, List.foldl_append]

theorem expand_append (last : UInt32) (ts us : List Token) :
    expand last (ts ++ us) = expand last ts ++ expand (lastBlock last ts) us := by
  induction ts generalizing last with
  | nil => rfl
  | cons t ts ih => simp [expand, ih]

/-- The tokens `Bitmap_EncodeRLE` writes for a run of `n` copies of `last`. -/
def runTokens (last : UInt32) (n : ℕ) : List Token :=
  if flagOf last = .raw ∨ n > 4 then [.rle (UInt8.ofNat (n - 1))]
  else List.replicate n (Token.ofBlock last)

theorem expand_replicate_ofBlock (last : UInt32) (n : ℕ) :
    expand last (List.replicate n (Token.ofBlock last)) = List.replicate n last ∧
      lastBlock last (List.replicate n (Token.ofBlock last)) = last := by
  induction n with
  | zero => exact ⟨rfl, rfl⟩
  | succ n ih => simp [List.replicate_succ, expand, ih.1, ih.2]

/-- A run of `n ≤ 256` copies is written as tokens that stand for it. -/
theorem expand_runTokens (last : UInt32) {n : ℕ} (hn : 0 < n) (hn' : n ≤ 256) :
    expand last (runTokens last n) = List.replicate n last ∧
      lastBlock last (runTokens last n) = last := by
  unfold runTokens
  split_ifs
  · have hc : (UInt8.ofNat (n - 1)).toNat = n - 1 := by
      simp only [UInt8.toNat_ofNat']
      omega
    simp [expand, Token.blocks, Token.last, hc, Nat.sub_add_cancel hn]
  · exact expand_replicate_ofBlock last n

/-! ## The encoder writes tokens -/

/-- The header `Bitmap_Compress_Write_Header` writes. -/
def headerBits (compressionType blockCount : ℕ) : List Bool :=
  msb 1 compressionType ++ List.replicate 3 false ++ msb 12 blockCount

@[simp] theorem length_headerBits (t n : ℕ) : (headerBits t n).length = 16 := by
  simp [headerBits]

namespace Bitstream.Wrote

variable {bs bs' : Bitstream} {bits : List Bool}

theorem putRepeated (h : Wrote bs bits) {t : Token} {v k n : ℕ} (ht : t.bits = msb k v)
    (hput : Visimap.putRepeated bs v k n = some bs') :
    Wrote bs' (bits ++ tokenBits (List.replicate n t)) := by
  induction n generalizing bs bits with
  | zero =>
    obtain rfl := Option.some.inj hput
    simpa using h
  | succ n ih =>
    obtain ⟨bs₁, h₁, h₂⟩ := Option.bind_eq_some_iff.1 hput
    have := ih (h.put h₁) h₂
    rw [List.replicate_succ, tokenBits_cons, ht, ← List.append_assoc]
    exact this

theorem encodeRLE (h : Wrote bs bits) {last : UInt32} {n : ℕ}
    (hput : Visimap.encodeRLE bs n (flagOf last) = some bs') :
    Wrote bs' (bits ++ tokenBits (runTokens last n)) := by
  unfold Visimap.encodeRLE at hput
  unfold runTokens
  split_ifs at hput ⊢ with hc
  · obtain ⟨bs₁, h₁, h₂⟩ := Option.bind_eq_some_iff.1 hput
    have hc : (UInt8.ofNat (n - 1)).toNat = (n - 1) % 2 ^ 8 := by simp
    have hbits : tokenBits [Token.rle (UInt8.ofNat (n - 1))] =
        msb 2 BitmapCompressionFlag.rle.toNat ++ msb 8 (n - 1) := by
      rw [tokenBits_cons, tokenBits_nil, List.append_nil, Token.bits, hc, msb_mod_two_pow]
    rw [hbits, ← List.append_assoc]
    exact (h.put h₁).put h₂
  · have hraw : flagOf last ≠ .raw := fun h' => hc (.inl h')
    exact h.putRepeated (Token.bits_ofBlock_of_ne_raw hraw) hput

theorem putBlock (h : Wrote bs bits) {b : UInt32} {f : BitmapCompressionFlag}
    (hput : Visimap.putBlock bs b = some (bs', f)) :
    Wrote bs' (bits ++ (Token.ofBlock b).bits) ∧ f = flagOf b := by
  unfold Visimap.putBlock at hput
  unfold Token.ofBlock flagOf
  split_ifs at hput ⊢ with h₀ h₁
  · obtain ⟨bs₁, h₂, h₃⟩ := Option.bind_eq_some_iff.1 hput
    obtain ⟨rfl, rfl⟩ := Prod.mk.inj (Option.some.inj h₃)
    exact ⟨h.put h₂, rfl⟩
  · obtain ⟨bs₁, h₂, h₃⟩ := Option.bind_eq_some_iff.1 hput
    obtain ⟨rfl, rfl⟩ := Prod.mk.inj (Option.some.inj h₃)
    exact ⟨h.put h₂, rfl⟩
  · obtain ⟨bs₁, h₂, h₃⟩ := Option.bind_eq_some_iff.1 hput
    obtain ⟨bs₂, h₄, h₅⟩ := Option.bind_eq_some_iff.1 h₃
    obtain ⟨rfl, rfl⟩ := Prod.mk.inj (Option.some.inj h₅)
    refine ⟨?_, rfl⟩
    simpa [Token.bits] using (h.put h₂).put h₄

end Bitstream.Wrote

open Bitstream

/-- What `Bitmap_Compress_Default` has written once it has seen the blocks `done`: tokens `ts`
after the header `hdr`, standing for all of `done` but the pending run of `rleRepeatCount` more
copies of `lastBlockData`. -/
structure CompressInv (hdr : List Bool) (done : List UInt32) (ts : List Token)
    (st : CompressState) : Prop where
  wrote : Wrote st.bitstream (hdr ++ tokenBits ts)
  expand_eq : expand 0 ts ++ List.replicate st.rleRepeatCount st.lastBlockData = done
  last_eq : lastBlock 0 ts = st.lastBlockData
  flag_eq : st.lastBlockFlag = flagOf st.lastBlockData
  count_le : st.rleRepeatCount ≤ 256

namespace CompressInv

variable {hdr : List Bool} {done : List UInt32} {ts : List Token} {st st' : CompressState}

theorem init {bs : Bitstream} (h : Wrote bs hdr) : CompressInv hdr [] [] ⟨bs, 0, .zero, 0⟩ where
  wrote := by simpa using h
  expand_eq := rfl
  last_eq := rfl
  flag_eq := by simp [flagOf]
  count_le := by simp

/-- Writing out the pending run leaves tokens for all blocks seen. -/
theorem flushRun (hinv : CompressInv hdr done ts st) {bs : Bitstream}
    (hflush : st.flushRun = some bs) :
    ∃ us, Wrote bs (hdr ++ tokenBits (ts ++ us)) ∧ expand 0 (ts ++ us) = done ∧
      lastBlock 0 (ts ++ us) = st.lastBlockData := by
  unfold CompressState.flushRun at hflush
  split_ifs at hflush with hr
  · rw [hinv.flag_eq] at hflush
    obtain ⟨hexp, hlast⟩ := expand_runTokens st.lastBlockData hr hinv.count_le
    refine ⟨runTokens st.lastBlockData st.rleRepeatCount, ?_, ?_, ?_⟩
    · simpa [List.append_assoc] using hinv.wrote.encodeRLE hflush
    · rw [expand_append, hinv.last_eq, hexp, hinv.expand_eq]
    · rw [lastBlock_append, hinv.last_eq, hlast]
  · obtain rfl := Option.some.inj hflush
    have hr0 : st.rleRepeatCount = 0 := by omega
    refine ⟨[], by simpa using hinv.wrote, ?_, by simpa using hinv.last_eq⟩
    simpa [hr0] using hinv.expand_eq

/-- **One block of `Bitmap_Compress_Default`.** -/
theorem step (hinv : CompressInv hdr done ts st) {b : UInt32}
    (hstep : compressStep st done.length b = some st') :
    ∃ ts', CompressInv hdr (done ++ [b]) ts' st' := by
  unfold compressStep at hstep
  by_cases hrun : b = st.lastBlockData ∧ st.rleRepeatCount ≤ 255 ∧ done.length > 0
  · -- the block extends the pending run
    rw [if_pos hrun] at hstep
    obtain ⟨rfl, hr, -⟩ := hrun
    obtain rfl := Option.some.inj hstep
    refine ⟨ts, hinv.wrote, ?_, hinv.last_eq, hinv.flag_eq, by simp only; omega⟩
    simp only [List.replicate_succ', ← List.append_assoc, hinv.expand_eq]
  · -- the pending run is written out, then the block itself
    rw [if_neg hrun] at hstep
    obtain ⟨bs₁, hflush, hrest⟩ := Option.bind_eq_some_iff.1 hstep
    obtain ⟨⟨bs₂, f⟩, hput, hst⟩ := Option.bind_eq_some_iff.1 hrest
    obtain rfl := (Option.some.inj hst).symm
    obtain ⟨us, hus, hexp, hlast⟩ := hinv.flushRun hflush
    obtain ⟨hw, rfl⟩ := hus.putBlock hput
    refine ⟨ts ++ us ++ [Token.ofBlock b], by simpa using hw, ?_, ?_, rfl, by simp⟩
    · rw [expand_append, hexp, hlast]
      simp [expand]
    · simp [lastBlock_append]

/-- **The loop of `Bitmap_Compress_Default`.** -/
theorem compressLoop (hinv : CompressInv hdr done ts st) {bitmap : List UInt32}
    (hloop : Visimap.compressLoop st done.length bitmap = some st') :
    ∃ ts', CompressInv hdr (done ++ bitmap) ts' st' := by
  induction bitmap generalizing done ts st with
  | nil =>
    obtain rfl := Option.some.inj hloop
    exact ⟨ts, by simpa using hinv⟩
  | cons b bitmap ih =>
    obtain ⟨st₁, h₁, h₂⟩ := Option.bind_eq_some_iff.1 hloop
    obtain ⟨ts₁, hinv₁⟩ := hinv.step h₁
    have h₂' : Visimap.compressLoop st₁ (done ++ [b]).length bitmap = some st' := by
      simpa using h₂
    simpa using ih hinv₁ h₂'

end CompressInv

/-- **The default compressor writes tokens standing for its input.** -/
theorem Bitstream.Wrote.compressDefault {bs bs' : Bitstream} {hdr : List Bool}
    (h : Wrote bs hdr) {bitmap : List UInt32} (hc : Visimap.compressDefault bitmap bs = some bs') :
    ∃ ts, Wrote bs' (hdr ++ tokenBits ts) ∧ expand 0 ts = bitmap := by
  obtain ⟨st, hloop, hfin⟩ := Option.bind_eq_some_iff.1 hc
  have hloop' : Visimap.compressLoop ⟨bs, 0, .zero, 0⟩ ([] : List UInt32).length bitmap = some st :=
    hloop
  obtain ⟨ts, hinv⟩ := (CompressInv.init h).compressLoop hloop'
  obtain ⟨us, hw, hexp, -⟩ := hinv.flushRun hfin
  exact ⟨ts ++ us, hw, hexp⟩

/-- The header fits a buffer of two bytes. -/
theorem Bitstream.Wrote.compressWriteHeader {bs : Bitstream} (h : Wrote bs [])
    (hsize : bitmapCompressionHeaderSize ≤ bs.dataSize) (compressionType : BitmapCompressionType)
    (blockCount : ℕ) :
    ∃ bs', Visimap.compressWriteHeader compressionType blockCount bs = some bs' ∧
      Wrote bs' (headerBits compressionType.toNat blockCount) ∧ bs'.dataSize = bs.dataSize := by
  simp only [bitmapCompressionHeaderSize] at hsize
  obtain ⟨bs₁, h₁⟩ := h.exists_putBits compressionType.toNat (k := 1) (by simp; omega)
  have hw₁ := h.put h₁
  have hs₁ := putBits_dataSize h₁
  obtain ⟨bs₂, h₂⟩ := hw₁.exists_skip 3 (by simp; omega)
  have hw₂ := hw₁.skip h₂ (by simp; omega)
  have hs₂ := skip_dataSize h₂
  obtain ⟨bs₃, h₃⟩ := hw₂.exists_putBits blockCount (k := 12) (by simp; omega)
  refine ⟨bs₃, ?_, by simpa [headerBits] using hw₂.put h₃, ?_⟩
  · simp only [Visimap.compressWriteHeader, Bitstream.put]
    rw [h₁]
    simp only [Option.bind_eq_bind, Option.bind_some, h₂]
    exact h₃
  · rw [putBits_dataSize h₃, hs₂, hs₁]

/-! ## The buffer `Bitmap_Compress` leaves -/

/-- The first `len` bytes of a buffer hold `bitmap` as `Bitmap_Compress` writes it. -/
inductive Encodes (out : Mem) (len : ℕ) (bitmap : List UInt32) : Prop
  /-- Default compression: tokens standing for the bitmap. -/
  | default (ts : List Token) (expand_eq : expand 0 ts = bitmap)
      (within : 16 + (tokenBits ts).length ≤ 8 * len)
      (bits_eq : ∀ q (h : q < (headerBits 1 bitmap.length ++ tokenBits ts).length),
        out.bitAt q = (headerBits 1 bitmap.length ++ tokenBits ts)[q])
  /-- No compression: the blocks themselves from byte 2. -/
  | no (within : bitmap.length * 4 + 2 ≤ len)
      (header_eq : ∀ q (h : q < (headerBits 0 bitmap.length).length),
        out.bitAt q = (headerBits 0 bitmap.length)[q])
      (blocks_eq : out.read 2 (4 * bitmap.length) = (bitmap.map UInt32.toNat).flatMap (leBytes 4))

/-- The encoding is carried by the first `len` bytes alone. -/
theorem Encodes.copy {out : Mem} {len : ℕ} {bitmap : List UInt32} (h : Encodes out len bitmap)
    (m : Mem) : Encodes (m.write 0 (out.read 0 len)) len bitmap := by
  cases h with
  | default ts hexp hwithin hbits =>
    refine .default ts hexp hwithin fun q hq => ?_
    rw [bitAt_write_read m out (by simp at hq; omega)]
    exact hbits q hq
  | no hwithin hhdr hblocks =>
    refine .no hwithin (fun q hq => ?_) ?_
    · rw [bitAt_write_read m out (by simp at hq; omega)]
      exact hhdr q hq
    · rw [← hblocks, show (2 : ℕ) = 0 + 2 from rfl, read_write_read m out 0 0 (by omega)]

/-- Without compression, `Bitmap_Compress` writes the header, the blocks after it, and reports
`4n + 2` bytes. -/
theorem bitmapCompress_no_eq (bitmap : List UInt32) (outData : Mem) {maxOutDataSize : ℕ}
    (hmax : bitmap.length * 4 + 2 ≤ maxOutDataSize) :
    ∃ out, bitmapCompress .no bitmap outData maxOutDataSize = .ok (bitmap.length * 4 + 2, out) ∧
      (∀ q (h : q < (headerBits 0 bitmap.length).length),
        out.bitAt q = (headerBits 0 bitmap.length)[q]) ∧
      out.read 2 (4 * bitmap.length) = (bitmap.map UInt32.toNat).flatMap (leBytes 4) := by
  obtain ⟨bs, hhdr, hw, -⟩ := (wrote_init outData maxOutDataSize).compressWriteHeader
    (by simp [bitmapCompressionHeaderSize, Bitstream.init]; omega) .no bitmap.length
  have hoff : bs.getOffset = 16 := by rw [hw.getOffset_eq]; simp
  have hbyte : bs.byteOffset = 2 := by
    have := hw.bitOffset_lt
    simp only [getOffset] at hoff
    omega
  rw [bitmapCompress, hhdr]
  by_cases hn : bitmap.length = 0
  · refine ⟨bs.data, by simp [hn], fun q hq => hw.bits_eq q hq, ?_⟩
    rw [List.length_eq_zero_iff.1 hn]
    rfl
  · set blocks := (bitmap.map UInt32.toNat).flatMap (leBytes 4) with hblocks
    have hlen : blocks.length = 4 * bitmap.length := by
      simp [hblocks, List.length_flatMap, Function.comp_def, List.map_const', List.sum_replicate,
        Nat.mul_comm]
    refine ⟨bs.data.write 2 blocks, ?_, fun q hq => ?_, ?_⟩
    · simp [hn, getAlignedData_of_mod_eq_zero (by rw [hoff] : bs.getOffset % 16 = 0), hbyte,
        hblocks]
    · rw [bitAt_write_of_lt _ (.inr (by simp at hq; omega))]
      exact hw.bits_eq q hq
    · rw [← hlen, read_write_self]

/-- Without compression, the blocks follow the header. -/
theorem bitmapCompress_no_encodes (bitmap : List UInt32) (outData : Mem) {maxOutDataSize : ℕ}
    (hmax : bitmap.length * 4 + 2 ≤ maxOutDataSize) :
    ∃ len out, bitmapCompress .no bitmap outData maxOutDataSize = .ok (len, out) ∧
      Encodes out len bitmap ∧ bitmapCompressionHeaderSize ≤ len ∧ len ≤ maxOutDataSize := by
  obtain ⟨out, hcompress, hhdr, hblocks⟩ := bitmapCompress_no_eq bitmap outData hmax
  exact ⟨_, out, hcompress, .no le_rfl hhdr hblocks, by simp [bitmapCompressionHeaderSize], hmax⟩

/-- **`Bitmap_Compress` encodes its input.** Whichever path it takes, the buffer it returns
holds the bitmap in the bytes it reports, within the bound it was given. -/
theorem bitmapCompress_encodes (compressionType : BitmapCompressionType) (bitmap : List UInt32)
    (outData : Mem) {maxOutDataSize : ℕ} (hmax : bitmap.length * 4 + 2 ≤ maxOutDataSize) :
    ∃ len out, bitmapCompress compressionType bitmap outData maxOutDataSize = .ok (len, out) ∧
      Encodes out len bitmap ∧ bitmapCompressionHeaderSize ≤ len ∧ len ≤ maxOutDataSize := by
  cases compressionType with
  | no => exact bitmapCompress_no_encodes bitmap outData hmax
  | default =>
    obtain ⟨bs, hhdr, hw, hsize⟩ := (wrote_init outData maxOutDataSize).compressWriteHeader
      (by simp [bitmapCompressionHeaderSize, Bitstream.init]; omega) .default bitmap.length
    rw [bitmapCompress, hhdr]
    rcases hc : compressDefault bitmap bs with _ | bs'
    · -- the encoded bits did not fit: no compression
      simpa [hc] using bitmapCompress_no_encodes bitmap
        (outData.write 0 (List.replicate maxOutDataSize 0)) hmax
    · obtain ⟨ts, hw', hexp⟩ := hw.compressDefault hc
      obtain ⟨hlen, hle⟩ := hw'.getLength_le
      have hsize' : bs'.dataSize = maxOutDataSize := by
        rw [compressDefault_dataSize hc, hsize]
        rfl
      refine ⟨bs'.getLength, bs'.data, by simp [hc], .default ts hexp ?_ hw'.bits_eq, ?_, ?_⟩
      · simpa using hlen
      · simp only [List.length_append, length_headerBits] at hlen
        simp only [bitmapCompressionHeaderSize]
        omega
      · omega

/-! ## The decoder reads tokens back -/

theorem DecodeResult.prepend_nil : DecodeResult.prepend [] = id := rfl

theorem DecodeResult.prepend_comp (xs ys : List UInt32) :
    DecodeResult.prepend xs ∘ DecodeResult.prepend ys = DecodeResult.prepend (xs ++ ys) := by
  funext r
  simp [DecodeResult.prepend]

/-- Inside a run, the loop writes the pending copies without reading. -/
theorem decompressLoop_run (bs : Bitstream) (last : UInt32) (r n : ℕ) :
    decompressLoop bs last r (r + n) =
      DecodeResult.prepend (List.replicate r last) <$> decompressLoop bs last 0 n := by
  induction r with
  | zero => simp [DecodeResult.prepend_nil]
  | succ r ih =>
    rw [show r + 1 + n = r + n + 1 by omega, decompressLoop, if_neg (by omega),
      Nat.add_sub_cancel, ih, ← comp_map, DecodeResult.prepend_comp, List.singleton_append,
      ← List.replicate_succ]

namespace Bitstream.Reads

variable {bs : Bitstream} {rest : List Bool}

/-- **The decoding loop reads a token stream back as the blocks it stands for.** -/
theorem decompressLoop {ts : List Token} (h : Reads bs (tokenBits ts ++ rest)) (last : UInt32) :
    Visimap.decompressLoop bs last 0 (expand last ts).length =
      pure ⟨expand last ts, 0, false⟩ := by
  induction ts generalizing bs last with
  | nil => rfl
  | cons t ts ih =>
    rw [tokenBits_cons, List.append_assoc] at h
    cases t with
    | zero =>
      obtain ⟨bs₁, hget, h₁, -⟩ := h.get_msb (by decide)
      have hlen : (expand last (.zero :: ts)).length = (expand 0 ts).length + 1 := by
        simp [expand, Token.blocks, Token.last, Nat.add_comm]
      rw [hlen, Visimap.decompressLoop, if_pos rfl, hget]
      simp [BitmapCompressionFlag.toNat, ih h₁, expand, Token.blocks, Token.last,
        DecodeResult.prepend]
    | one =>
      obtain ⟨bs₁, hget, h₁, -⟩ := h.get_msb (by decide)
      have hlen : (expand last (.one :: ts)).length = (expand 0xFFFFFFFF ts).length + 1 := by
        simp [expand, Token.blocks, Token.last, Nat.add_comm]
      rw [hlen, Visimap.decompressLoop, if_pos rfl, hget]
      simp [BitmapCompressionFlag.toNat, ih h₁, expand, Token.blocks, Token.last,
        DecodeResult.prepend]
    | raw v =>
      simp only [Token.bits, List.append_assoc] at h
      obtain ⟨bs₁, hget, h₁, -⟩ := h.get_msb (by decide)
      obtain ⟨bs₂, hget₂, h₂, -⟩ := h₁.get_msb v.toNat_lt
      have hlen : (expand last (.raw v :: ts)).length = (expand v ts).length + 1 := by
        simp [expand, Token.blocks, Token.last, Nat.add_comm]
      rw [hlen, Visimap.decompressLoop, if_pos rfl, hget]
      simp [BitmapCompressionFlag.toNat, hget₂, ih h₂, expand, Token.blocks, Token.last,
        DecodeResult.prepend]
    | rle c =>
      simp only [Token.bits, List.append_assoc] at h
      obtain ⟨bs₁, hget, h₁, -⟩ := h.get_msb (by decide)
      obtain ⟨bs₂, hget₂, h₂, -⟩ := h₁.get_msb c.toNat_lt
      -- the run is the copy at the flag and `c` more
      have hlen : (expand last (.rle c :: ts)).length =
          c.toNat + (expand last ts).length + 1 := by
        simp [expand, Token.blocks, Token.last]
        omega
      rw [hlen, Visimap.decompressLoop, if_pos rfl, hget]
      simp only [BitmapCompressionFlag.toNat, hget₂]
      simp [decompressLoop_run, ih h₂, expand, Token.blocks, Token.last, DecodeResult.prepend,
        List.replicate_succ]

/-- `BitmapDecompress_Init` reads the header back. -/
theorem decompressInit {m : Mem} {len t n : ℕ}
    (h : Reads (Bitstream.init m len) (headerBits t n ++ rest)) (ht : t < 2 ^ 1)
    (hn : n < 2 ^ 12) :
    ∃ state, Visimap.decompressInit m len = some state ∧ state.compressionType = t ∧
      state.blockCount = n ∧ Reads state.bitstream rest ∧ state.bitstream.getOffset = 16 ∧
      state.bitstream.data = m := by
  rw [headerBits, List.append_assoc, List.append_assoc] at h
  obtain ⟨bs₁, h₁, hr₁, ho₁, hd₁, -⟩ := h.get_msb ht
  obtain ⟨bs₂, h₂, hr₂, ho₂, hd₂, -⟩ := hr₁.skip (l := List.replicate 3 false) (by simp)
  obtain ⟨bs₃, h₃, hr₃, ho₃, hd₃, -⟩ := hr₂.get_msb hn
  rw [List.length_replicate] at h₂ ho₂
  refine ⟨⟨bs₃, t, n⟩, ?_, rfl, rfl, hr₃, ?_, ?_⟩
  · simp [Visimap.decompressInit, h₁, h₂, h₃]
  · rw [ho₃, ho₂, ho₁]
    rfl
  · simp [hd₃, hd₂, hd₁, Bitstream.init]

end Bitstream.Reads

/-- Without compression the decoder needs the two header bytes only: whatever `inDataSize` says
beyond them, the blocks are loaded from byte 2 on. -/
theorem bitmapDecompress_no_of_header {m : Mem} {len : ℕ} {bitmap : List UInt32}
    (hlen : 2 ≤ len)
    (hhdr : ∀ q (h : q < (headerBits 0 bitmap.length).length),
      m.bitAt q = (headerBits 0 bitmap.length)[q])
    (hblocks : m.read 2 (4 * bitmap.length) = (bitmap.map UInt32.toNat).flatMap (leBytes 4))
    (hn : bitmap.length < 2 ^ 12) :
    ∃ state, decompressInit m len = some state ∧ state.blockCount = bitmap.length ∧
      ∀ bitmapDataSize, bitmap.length ≤ bitmapDataSize →
        bitmapDecompress state bitmapDataSize = .ok bitmap := by
  have hr : Reads (Bitstream.init m len) (headerBits 0 bitmap.length ++ []) :=
    reads_init (by simp; omega) (by simpa using hhdr)
  obtain ⟨state, hinit, ht, hcount, hr', hoff, hdata⟩ := Reads.decompressInit hr (by decide) hn
  refine ⟨state, hinit, hcount, fun k hk => ?_⟩
  have hbyte : state.bitstream.byteOffset = 2 := by
    have := hr'.bitOffset_lt
    simp only [getOffset] at hoff
    omega
  have halign : state.bitstream.getAlignedData 16 =
      (state.bitstream.byteOffset, state.bitstream) :=
    getAlignedData_of_mod_eq_zero (by rw [hoff])
  simp only [bitmapDecompress, ht, hcount, BitmapCompressionType.toNat, halign, hbyte, hdata,
    show ¬ bitmap.length > k by omega, if_false, if_true]
  congr 1
  apply List.ext_getElem (by simp)
  intro i h₁ h₂
  have hblocks' : m.read 2 (4 * (bitmap.map UInt32.toNat).length) =
      (bitmap.map UInt32.toNat).flatMap (leBytes 4) := by simpa using hblocks
  have hload := load_of_read_eq_flatMap hblocks' (i := i) (by simpa using h₂)
  simp only [List.getElem_map, List.getElem_range, hload]
  simp [Nat.mod_eq_of_lt (bitmap[i].toNat_lt)]

/-- **Decompression inverts compression.** `BitmapDecompress_Init` and then
`BitmapDecompress_Decompress`, into an array large enough, return the bitmap a buffer encodes. -/
theorem bitmapDecompress_of_encodes {m : Mem} {len : ℕ} {bitmap : List UInt32}
    (h : Encodes m len bitmap) (hn : bitmap.length < 2 ^ 12) :
    ∃ state, decompressInit m len = some state ∧ state.blockCount = bitmap.length ∧
      ∀ bitmapDataSize, bitmap.length ≤ bitmapDataSize →
        bitmapDecompress state bitmapDataSize = .ok bitmap := by
  cases h with
  | default ts hexp hwithin hbits =>
    have hr : Reads (Bitstream.init m len) (headerBits 1 bitmap.length ++ tokenBits ts) :=
      reads_init (by simpa using hwithin) hbits
    obtain ⟨state, hinit, ht, hcount, hr', -, -⟩ :=
      Reads.decompressInit hr (by decide) hn
    refine ⟨state, hinit, hcount, fun k hk => ?_⟩
    have hr'' : Reads state.bitstream (tokenBits ts ++ []) := by simpa using hr'
    have hloop := Reads.decompressLoop hr'' 0
    rw [hexp] at hloop
    simp [bitmapDecompress, ht, hcount, BitmapCompressionType.toNat, hloop,
      show ¬ k < bitmap.length by omega]
  | no hwithin hhdr hblocks => exact bitmapDecompress_no_of_header (by omega) hhdr hblocks hn

/-- **Round trip.** For at most `4095` blocks, `Bitmap_Compress` of either type into a buffer of
`4n + 2` bytes returns a length within the buffer, and `BitmapDecompress_Init` on what it wrote
and `BitmapDecompress_Decompress` into `n` words give the blocks back, also when the default
encoding does not fit and the blocks are stored as they are. -/
theorem bitmapCompress_roundTrip (compressionType : BitmapCompressionType)
    (bitmap : List UInt32) (outData : Mem) (hn : bitmap.length ≤ 4095) :
    ∃ r out, bitmapCompress compressionType bitmap outData (4 * bitmap.length + 2) =
        .ok (r, out) ∧ r ≤ 4 * bitmap.length + 2 ∧
      ∃ state, decompressInit out r = some state ∧ state.blockCount = bitmap.length ∧
        bitmapDecompress state bitmap.length = .ok bitmap := by
  obtain ⟨r, out, hcompress, hencodes, -, hr⟩ := bitmapCompress_encodes compressionType bitmap
    outData (show bitmap.length * 4 + 2 ≤ 4 * bitmap.length + 2 by omega)
  obtain ⟨state, hinit, hcount, hdecompress⟩ := bitmapDecompress_of_encodes hencodes (by omega)
  exact ⟨r, out, hcompress, hr, state, hinit, hcount, hdecompress _ le_rfl⟩

/-- Three blocks, a zero one, a full one and a raw one, through the default encoding. -/
theorem bitmapCompress_roundTrip_three_blocks :
    [(0 : UInt32), 0xFFFFFFFF, 5].length ≤ 4095 ∧
    ∃ r out, bitmapCompress .default [0, 0xFFFFFFFF, 5] (fun _ => 0) (4 * 3 + 2) =
        .ok (r, out) ∧ r ≤ 4 * 3 + 2 ∧
      ∃ state, decompressInit out r = some state ∧ state.blockCount = 3 ∧
        bitmapDecompress state 3 = .ok [0, 0xFFFFFFFF, 5] :=
  ⟨by decide, bitmapCompress_roundTrip .default [0, 0xFFFFFFFF, 5] (fun _ => 0) (by decide)⟩

/-! ## Truncated buffers -/

/-- **A truncated uncompressed bitmap decodes in full.** `Bitmap_Compress` without compression
stores the blocks from byte 2 on and reports `4n + 2` bytes; `BitmapDecompress_Init` on any prefix
of at least the two header bytes succeeds, and `BitmapDecompress_Decompress` then copies all `n`
blocks from the buffer without comparing them with the prefix length, so it returns the whole
bitmap, read from bytes up to `4n + 1`, past the end of the prefix. -/
theorem bitmapDecompress_no_reads_past_prefix (bitmap : List UInt32) (outData : Mem)
    (hn : bitmap.length ≤ 4095) :
    ∃ out, bitmapCompress .no bitmap outData (4 * bitmap.length + 2) =
        .ok (bitmap.length * 4 + 2, out) ∧
      ∀ i, 2 ≤ i → i < bitmap.length * 4 + 2 →
        ∃ state, decompressInit out i = some state ∧
          bitmapDecompress state bitmap.length = .ok bitmap := by
  obtain ⟨out, hcompress, hhdr, hblocks⟩ := bitmapCompress_no_eq bitmap outData
    (show bitmap.length * 4 + 2 ≤ 4 * bitmap.length + 2 by omega)
  refine ⟨out, hcompress, fun i hi _ => ?_⟩
  obtain ⟨state, hinit, -, hdecompress⟩ :=
    bitmapDecompress_no_of_header hi hhdr hblocks (by omega)
  exact ⟨state, hinit, hdecompress _ le_rfl⟩

theorem bitmapDecompress_no_reads_past_prefix_one_block :
    ∃ out, bitmapCompress .no [0xDEADBEEF] (fun _ => 0) (4 * 1 + 2) = .ok (6, out) ∧
      ∃ state, decompressInit out 2 = some state ∧
        bitmapDecompress state 1 = .ok [0xDEADBEEF] := by
  obtain ⟨out, hcompress, hdecode⟩ :=
    bitmapDecompress_no_reads_past_prefix [0xDEADBEEF] (fun _ => 0) (by decide)
  exact ⟨out, hcompress, hdecode 2 le_rfl (by decide)⟩

end Cloudberry.Visimap
