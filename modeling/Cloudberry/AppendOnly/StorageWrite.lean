import Cloudberry.AppendOnly.Format
import Cloudberry.Lib.Pieces

/-!
# Writing content to an append-only segment file

`cdbappendonlystoragewrite.c` stores the content an executor hands it in blocks of at most the
table's block size. `AppendOnlyStorageWrite_Content` writes content that fits one block with its
header as a single small content block. Longer content gets a header-only large content block
with its total length and row count, followed by fragments of at most `maxSmallContentLen` bytes,
each a small content block of its own. With compression on, each block is compressed on its own
and kept compressed only when that made it shorter (`AppendOnlyStorageWrite_CompressAppend`).

The writer is explicit state: the configuration `AppendOnlyStorageWrite_Init` gave it, the block
it is building and the segment file as `BufferedAppend` has written it, a list of bytes that each
finished block is appended to. The compressor is a parameter (`CompressionFunctions`), and so is
the CRC-32C routine `crc` of the header model.

The block size is a field that carries its validity (`IsValidBlockSize`): the fragment loop
terminates because a block always has room for data after its header (`maxSmallContentLen_pos`).
-/

namespace Cloudberry.AppendOnly

open ByteMem AppendOnlyStorageFormat

/-! ## Configuration -/

/-- `MIN_APPENDONLY_BLOCK_SIZE`. -/
def minAppendonlyBlockSize : ℕ := 8 * 1024

/-- `MAX_APPENDONLY_BLOCK_SIZE`. -/
def maxAppendonlyBlockSize : ℕ := 2 * 1024 * 1024

/-- The block sizes the `blocksize` option admits (`reloptions_gp.c`): between 8KB and 2MB and a
multiple of 8KB. Writers and readers of a table get its block size as `maxBufferLen`. -/
def IsValidBlockSize (blocksize : ℕ) : Prop :=
  minAppendonlyBlockSize ≤ blocksize ∧ blocksize ≤ maxAppendonlyBlockSize ∧
    blocksize % minAppendonlyBlockSize = 0

instance : DecidablePred IsValidBlockSize := fun _ => inferInstanceAs (Decidable (_ ∧ _ ∧ _))

/-- A table's compression functions (`compression_functions`) as `gp_trycompress` and
`gp_decompress` call them: `compress src` is what the compressor writes for `src`, and
`decompress src len` what the decompressor writes for `src` into a buffer of `len` bytes. -/
structure CompressionFunctions where
  compress : List UInt8 → List UInt8
  decompress : List UInt8 → ℕ → List UInt8

/-- What a round trip through compression rests on: what the writer keeps compressed, a
compressed form shorter than its source, decompresses to its source. -/
def CompressionFunctions.InverseOnStored (cfns : CompressionFunctions) : Prop :=
  ∀ src, (cfns.compress src).length < src.length →
    cfns.decompress (cfns.compress src) src.length = src

/-- `AppendOnlyStorageAttributes`, with `compress` and the table's compression functions
together: compression is on exactly when there are functions to call. -/
structure AppendOnlyStorageAttributes where
  compression : Option CompressionFunctions
  checksum : Bool

/-- `AppendOnlyStorageWrite`: what `AppendOnlyStorageWrite_Content` reads and changes. -/
structure AppendOnlyStorageWrite where
  maxBufferLen : ℕ
  maxBufferLen_valid : IsValidBlockSize maxBufferLen
  storageAttributes : AppendOnlyStorageAttributes
  formatVersion : ℕ
  isFirstRowNumSet : Bool
  firstRowNum : Int64
  getBufferAoHeaderKind : AoHeaderKind
  currentCompleteHeaderLen : ℕ
  /-- The memory `BufferedAppendGetMaxBuffer` hands out for the next block. -/
  buffer : Mem
  /-- The segment file: everything `BufferedAppendFinishBuffer` has appended. -/
  file : List UInt8

/-- `AOStorage_ZeroPad`: zeros after the `dataLen` bytes at `o`, up to `dataRoundedUpLen`. -/
def AOStorage.zeroPad (buf : Mem) (o dataLen dataRoundedUpLen : ℕ) : Mem :=
  buf.write (o + dataLen) (List.replicate (dataRoundedUpLen - dataLen) 0)

namespace AppendOnlyStorageWrite

variable (crc : List UInt8 → UInt32)

/-! ## Header lengths and buffers -/

/-- `regularHeaderLen`, as `AppendOnlyStorageWrite_Init` fixes it: the header words, and the two
checksums when the table keeps them. -/
def regularHeaderLen (w : AppendOnlyStorageWrite) : ℕ :=
  AoHeader.regularSize + (if w.storageAttributes.checksum then 2 * 4 else 0)

/-- `AppendOnlyStorageWrite_CompleteHeaderLen`. -/
def completeHeaderLen (w : AppendOnlyStorageWrite) (aoHeaderKind : AoHeaderKind) :
    Except String ℕ := do
  let isLong ← AoHeader.isLong aoHeaderKind.toNat
  let completeHeaderLen :=
    if isLong then w.regularHeaderLen + (AoHeader.longSize - AoHeader.regularSize)
    else w.regularHeaderLen
  pure (if w.isFirstRowNumSet then completeHeaderLen + 8 else completeHeaderLen)

/-- `AppendOnlyStorageWrite_LargeContentHeaderLen`. -/
def largeContentHeaderLen (w : AppendOnlyStorageWrite) : ℕ :=
  if w.isFirstRowNumSet then w.regularHeaderLen + 8 else w.regularHeaderLen

/-- `BufferedAppendFinishBuffer`: the first `usedLen` bytes of the buffer go to the end of the
file. -/
def bufferedAppendFinishBuffer (w : AppendOnlyStorageWrite) (usedLen : ℕ) :
    AppendOnlyStorageWrite :=
  { w with file := w.file ++ w.buffer.read 0 usedLen }

/-- `AppendOnlyStorageWrite_GetBuffer`. -/
def getBuffer (w : AppendOnlyStorageWrite) (aoHeaderKind : AoHeaderKind) :
    Except String AppendOnlyStorageWrite := do
  let currentCompleteHeaderLen ← w.completeHeaderLen aoHeaderKind
  pure { w with getBufferAoHeaderKind := aoHeaderKind, currentCompleteHeaderLen }

/-! ## Finishing a block -/

/-- `AppendOnlyStorageWrite_CompressAppend`: the compressor writes into the buffer after the
header; when that did not make the source shorter the source is copied over it and the compressed
length is `0`. Returns the compressed length and the length of the block. -/
def compressAppend (w : AppendOnlyStorageWrite) (cfns : CompressionFunctions)
    (sourceData : List UInt8) (executorBlockKind itemCount : ℕ) :
    Except String (ℕ × ℕ × AppendOnlyStorageWrite) := do
  let currentCompleteHeaderLen ← w.completeHeaderLen w.getBufferAoHeaderKind
  let sourceLen := sourceData.length
  let compressed := cfns.compress sourceData
  let dataBuffer := w.buffer.write currentCompleteHeaderLen compressed
  let (dataBuffer, dataLen, compressedLen) :=
    if compressed.length ≥ sourceLen then
      (dataBuffer.write currentCompleteHeaderLen sourceData, sourceLen, 0)
    else (dataBuffer, compressed.length, compressed.length)
  let dataRoundedUpLen ← AOStorage.roundUp dataLen w.formatVersion
  let header := AOStorage.zeroPad dataBuffer currentCompleteHeaderLen dataLen dataRoundedUpLen
  let header ← match w.getBufferAoHeaderKind with
    | .SmallContent =>
      makeSmallContentHeader crc header w.storageAttributes.checksum w.isFirstRowNumSet
        w.formatVersion w.firstRowNum executorBlockKind itemCount sourceLen compressedLen
    | .BulkDenseContent =>
      makeBulkDenseContentHeader crc header w.storageAttributes.checksum w.isFirstRowNumSet
        w.formatVersion w.firstRowNum executorBlockKind itemCount sourceLen compressedLen
    | k =>
      let kind := k.toNat
      throw s!"unexpected Append-Only header kind {kind}"
  pure (compressedLen, currentCompleteHeaderLen + dataRoundedUpLen,
    { w with currentCompleteHeaderLen, buffer := header })

/-- `AppendOnlyStorageWrite_FinishBuffer`, given the `content` the caller put in the buffer that
`GetBuffer` returned: without compression that is the buffer of the block, after the header. -/
def finishBuffer (w : AppendOnlyStorageWrite) (content : List UInt8)
    (executorBlockKind rowCount : ℕ) : Except String AppendOnlyStorageWrite := do
  let contentLen := content.length
  if contentLen > w.maxBufferLen - w.currentCompleteHeaderLen then
    let maxBufferLen := w.maxBufferLen
    let completeHeaderLen := w.currentCompleteHeaderLen
    let isSet := if w.isFirstRowNumSet then "true" else "false"
    throw (s!"Append-only content too large AO storage block (content length = {contentLen}, "
      ++ s!"maximum buffer length {maxBufferLen}, complete header length {completeHeaderLen}, "
      ++ s!"first row number is set {isSet})")
  let w ← match w.storageAttributes.compression with
    | none => do
      let nonCompressedHeader := w.buffer.write w.currentCompleteHeaderLen content
      let dataRoundedUpLen ← AOStorage.roundUp contentLen w.formatVersion
      let nonCompressedHeader := AOStorage.zeroPad nonCompressedHeader
        w.currentCompleteHeaderLen contentLen dataRoundedUpLen
      let header ← match w.getBufferAoHeaderKind with
        | .SmallContent =>
          makeSmallContentHeader crc nonCompressedHeader w.storageAttributes.checksum
            w.isFirstRowNumSet w.formatVersion w.firstRowNum executorBlockKind rowCount
            contentLen 0
        | .NonBulkDenseContent =>
          makeNonBulkDenseContentHeader crc nonCompressedHeader w.storageAttributes.checksum
            w.isFirstRowNumSet w.formatVersion w.firstRowNum executorBlockKind rowCount
            contentLen
        | k =>
          let kind := k.toNat
          throw s!"Unexpected Append-Only header kind {kind}"
      let bufferLen := w.currentCompleteHeaderLen + dataRoundedUpLen
      pure { ({ w with buffer := header }.bufferedAppendFinishBuffer bufferLen) with
        currentCompleteHeaderLen := 0 }
    | some cfns => do
      let (_, bufferLen, w) ← w.compressAppend crc cfns content executorBlockKind rowCount
      pure { w.bufferedAppendFinishBuffer bufferLen with currentCompleteHeaderLen := 0 }
  pure { w with isFirstRowNumSet := false }

/-! ## Content -/

/-- One small content block holding `content`, as both branches of
`AppendOnlyStorageWrite_Content` write it: through `GetBuffer` and `FinishBuffer` without
compression, through `CompressAppend` with it. -/
def writeSmallContent (w : AppendOnlyStorageWrite) (content : List UInt8)
    (executorBlockKind rowCount : ℕ) : Except String AppendOnlyStorageWrite :=
  match w.storageAttributes.compression with
  | none => do
    let w ← w.getBuffer .SmallContent
    w.finishBuffer crc content executorBlockKind rowCount
  | some cfns => do
    let w := { w with getBufferAoHeaderKind := .SmallContent }
    let (_, bufferLen, w) ← w.compressAppend crc cfns content executorBlockKind rowCount
    pure { w.bufferedAppendFinishBuffer bufferLen with currentCompleteHeaderLen := 0 }

/-- The fragment loop of `AppendOnlyStorageWrite_Content`: a block of `maxSmallContentLen` bytes
while more than that remains, then a block of what remains. -/
def writeFragments (w : AppendOnlyStorageWrite) (maxSmallContentLen : ℕ+)
    (executorBlockKind : ℕ) (contentNext : List UInt8) : Except String AppendOnlyStorageWrite := do
  let countdownContentLen := contentNext.length
  let smallContentLen :=
    if countdownContentLen ≤ maxSmallContentLen then countdownContentLen else maxSmallContentLen
  let w ← w.writeSmallContent crc (contentNext.take smallContentLen) executorBlockKind 0
  if _h : countdownContentLen - smallContentLen = 0 then pure w
  else w.writeFragments maxSmallContentLen executorBlockKind (contentNext.drop smallContentLen)
termination_by contentNext.length
decreasing_by
  have := maxSmallContentLen.pos
  simp only [List.length_drop]
  split_ifs at _h ⊢ <;> omega

/-- A block always has room for data after a header of any kind. -/
theorem maxSmallContentLen_pos {w : AppendOnlyStorageWrite} {k : AoHeaderKind} {n : ℕ}
    (h : w.completeHeaderLen k = .ok n) : 0 < w.maxBufferLen - n := by
  have hmin := w.maxBufferLen_valid.1
  have hle : n ≤ 32 := by
    cases k <;> simp [completeHeaderLen, AoHeader.isLong, AoHeaderKind.toNat, regularHeaderLen,
      AoHeader.regularSize, AoHeader.longSize] at h <;> split_ifs at h <;> omega
  simp only [minAppendonlyBlockSize] at hmin
  omega

/-- The large branch of `AppendOnlyStorageWrite_Content`: the header-only large content block,
then the fragments, written without the first row number. -/
def writeLargeContent (w : AppendOnlyStorageWrite) (content : List UInt8)
    (executorBlockKind rowCount : ℕ) : Except String AppendOnlyStorageWrite := do
  let largeContentHeaderLen := w.largeContentHeaderLen
  let largeContentHeader ← makeLargeContentHeader crc w.buffer w.storageAttributes.checksum
    w.isFirstRowNumSet w.formatVersion w.firstRowNum executorBlockKind rowCount content.length
  let w := { { w with buffer := largeContentHeader }.bufferedAppendFinishBuffer
    largeContentHeaderLen with currentCompleteHeaderLen := 0, isFirstRowNumSet := false }
  match hlen : w.completeHeaderLen .SmallContent with
  | .error e => throw e
  | .ok smallContentHeaderLen =>
    w.writeFragments crc ⟨w.maxBufferLen - smallContentHeaderLen, maxSmallContentLen_pos hlen⟩
      executorBlockKind content

/-- `AppendOnlyStorageWrite_Content`. -/
def content (w : AppendOnlyStorageWrite) (content : List UInt8)
    (executorBlockKind rowCount : ℕ) : Except String AppendOnlyStorageWrite := do
  let completeHeaderLen ← w.completeHeaderLen .SmallContent
  let w ← if content.length ≤ w.maxBufferLen - completeHeaderLen then
      w.writeSmallContent crc content executorBlockKind rowCount
    else w.writeLargeContent crc content executorBlockKind rowCount
  pure { w with isFirstRowNumSet := false }

/-- `AppendOnlyStorageWrite_SetFirstRowNum`: the next block written keeps `firstRowNum` in its
header. -/
def setFirstRowNum (w : AppendOnlyStorageWrite) (firstRowNum : Int64) : AppendOnlyStorageWrite :=
  { w with isFirstRowNumSet := true, firstRowNum }

end AppendOnlyStorageWrite

end Cloudberry.AppendOnly
