import Cloudberry.AppendOnly.HeaderRoundTrip
import Cloudberry.AppendOnly.StorageWrite

/-!
# Blocks of a segment file

What the writer of content and its reader agree on, stated on the bytes of a file and nothing
else. A small content block (`SmallContentBlockAt`) is header bytes that the header readers take
for a small content block holding a given content, checksums that verify, and the content after
the header, raw or in a compressed form that the table's decompressor expands back. A large
content header (`LargeContentHeaderAt`) announces the length, kind and row count of content that
follows in fragments (`FragmentBlock`), small content blocks without a first row number or rows.

The blocks are stated through the memory `m` they were built in. A reader sees a block through
another memory, a window on the file; the header readers look at nothing past the block
(`getHeaderInfo_congr`, `getSmallContentHeaderInfo_congr`, `getLargeContentHeaderInfo_congr`,
`verifyHeaderChecksum_congr`, `verifyBlockChecksum_congr`), so they find in the window what they
would find in `m`.
-/

namespace Cloudberry.AppendOnly

open ByteMem AppendOnlyStorageFormat

/-! ## The header readers look only at the block -/

section Locality

variable {m m' : Mem} {n : ℕ} (h : ∀ i < n, m i = m' i)
include h

theorem getHeaderInfo_congr (hn : 4 ≤ n) (usingChecksums : Bool) :
    getHeaderInfo m usingChecksums = getHeaderInfo m' usingChecksums := by
  simp only [getHeaderInfo, load_congr h (show 0 + 4 ≤ n by omega)]

theorem readFirstRowNum_congr {headerLen : ℕ} (hn : headerLen ≤ n) (offset : ℕ)
    (hasFirstRowNum : Bool) :
    readFirstRowNum m headerLen offset hasFirstRowNum =
      readFirstRowNum m' headerLen offset hasFirstRowNum := by
  cases hasFirstRowNum with
  | false => simp [readFirstRowNum]
  | true =>
    -- the first row number is read only when it ends where the header does
    by_cases ho : offset + 8 = headerLen
    · simp [readFirstRowNum, ho, loadInt64_congr h (show offset + 8 ≤ n by omega)]
    · simp [readFirstRowNum, ho]

theorem getSmallContentHeaderInfo_congr {headerLen : ℕ} (hn : headerLen ≤ n) (h8 : 8 ≤ n)
    (usingChecksums : Bool) (blockLimitLen version : ℕ) :
    getSmallContentHeaderInfo m headerLen usingChecksums blockLimitLen version =
      getSmallContentHeaderInfo m' headerLen usingChecksums blockLimitLen version := by
  simp only [getSmallContentHeaderInfo, load_congr h (show 0 + 4 ≤ n by omega),
    load_congr h (show 4 + 4 ≤ n by omega), readFirstRowNum_congr h hn]

theorem getLargeContentHeaderInfo_congr {headerLen : ℕ} (hn : headerLen ≤ n) (h8 : 8 ≤ n)
    (usingChecksums : Bool) :
    getLargeContentHeaderInfo m headerLen usingChecksums =
      getLargeContentHeaderInfo m' headerLen usingChecksums := by
  simp only [getLargeContentHeaderInfo, load_congr h (show 0 + 4 ≤ n by omega),
    load_congr h (show 4 + 4 ≤ n by omega), readFirstRowNum_congr h hn]

variable (crc : List UInt8 → UInt32)

theorem verifyHeaderChecksum_congr (hn : 16 ≤ n) :
    verifyHeaderChecksum crc m = verifyHeaderChecksum crc m' := by
  simp only [verifyHeaderChecksum, computeHeaderChecksum, AoHeader.regularSize,
    load_congr h (show 8 + 4 + 4 ≤ n by omega), read_congr h (show 0 + (8 + 4) ≤ n by omega)]

theorem verifyBlockChecksum_congr {overallBlockLen : ℕ} (hn : overallBlockLen ≤ n) (h16 : 16 ≤ n)
    (fileEncryptionEnabled : Bool) :
    verifyBlockChecksum crc fileEncryptionEnabled m overallBlockLen =
      verifyBlockChecksum crc fileEncryptionEnabled m' overallBlockLen := by
  simp only [verifyBlockChecksum, computeBlockChecksum, AoHeader.regularSize,
    load_congr h (show 8 + 4 ≤ n by omega),
    read_congr h (show 8 + 4 + 4 + (overallBlockLen - (8 + 4 + 4)) ≤ n by omega)]

end Locality

/-! ## Blocks -/

section Blocks

variable (crc : List UInt8 → UInt32) (attrs : AppendOnlyStorageAttributes) (version : ℕ)

/-- What `GetSmallContentHeaderInfo` reports for a small content block of `overallBlockLen`
bytes holding `content`. -/
def smallContentInfo (overallBlockLen : ℕ) (content : List UInt8)
    (executorBlockKind rowCount : ℕ) (hasFirstRowNum : Bool) (firstRowNum : Int64)
    (compressedLen : ℕ) : ContentHeaderInfo :=
  { overallBlockLen
    offset := AoHeader.size false attrs.checksum hasFirstRowNum
    uncompressedLen := content.length
    executorBlockKind
    hasFirstRowNum
    firstRowNum := if hasFirstRowNum then firstRowNum else -1
    rowCount
    isCompressed := decide (compressedLen ≠ 0)
    compressedLen }

/-- The bytes `B`, built in the memory `m`, are a small content block holding `content`: stored
raw when `compressedLen` is `0`, else as `compressedLen` bytes that the table's decompressor
expands to `content`. -/
structure SmallContentBlockAt (m : Mem) (B content : List UInt8) (executorBlockKind rowCount : ℕ)
    (hasFirstRowNum : Bool) (firstRowNum : Int64) (compressedLen : ℕ) : Prop where
  bytes : B = m.read 0 B.length
  length_eq : B.length = AoHeader.size false attrs.checksum hasFirstRowNum +
    AOStorage.roundUpValid (if compressedLen = 0 then content.length else compressedLen) version
  headerInfo : getHeaderInfo m attrs.checksum =
    .ok (.ok (.SmallContent, AoHeader.size false attrs.checksum hasFirstRowNum))
  contentInfo : ∀ blockLimitLen, B.length ≤ blockLimitLen →
    getSmallContentHeaderInfo m (AoHeader.size false attrs.checksum hasFirstRowNum)
        attrs.checksum blockLimitLen version =
      .ok (.ok (smallContentInfo attrs B.length content executorBlockKind rowCount hasFirstRowNum
        firstRowNum compressedLen))
  checksums : attrs.checksum = true →
    verifyHeaderChecksum crc m = true ∧ verifyBlockChecksum crc false m B.length = true
  raw : compressedLen = 0 →
    m.read (AoHeader.size false attrs.checksum hasFirstRowNum) content.length = content
  compressed : compressedLen ≠ 0 → compressedLen < content.length ∧
    ∃ cfns, attrs.compression = some cfns ∧
      cfns.decompress (m.read (AoHeader.size false attrs.checksum hasFirstRowNum) compressedLen)
        content.length = content

/-- The bytes `H`, built in the memory `m`, are the header-only block of large content. -/
structure LargeContentHeaderAt (m : Mem) (H : List UInt8)
    (largeContentLen executorBlockKind rowCount : ℕ) (hasFirstRowNum : Bool)
    (firstRowNum : Int64) : Prop where
  bytes : H = m.read 0 H.length
  length_eq : H.length = AoHeader.size false attrs.checksum hasFirstRowNum
  headerInfo : getHeaderInfo m attrs.checksum = .ok (.ok (.LargeContent, H.length))
  largeInfo : getLargeContentHeaderInfo m H.length attrs.checksum =
    .ok (.ok { largeContentLen, executorBlockKind, hasFirstRowNum,
               firstRowNum := if hasFirstRowNum then firstRowNum else -1,
               largeRowCount := rowCount })
  checksum : attrs.checksum = true → verifyHeaderChecksum crc m = true

/-- A small content block of at most `maxBufferLen` bytes holding `content`. -/
def SmallContentBlock (maxBufferLen : ℕ) (B content : List UInt8) (executorBlockKind rowCount : ℕ)
    (hasFirstRowNum : Bool) (firstRowNum : Int64) : Prop :=
  ∃ m compressedLen, SmallContentBlockAt crc attrs version m B content executorBlockKind rowCount
    hasFirstRowNum firstRowNum compressedLen ∧ B.length ≤ maxBufferLen

/-- A fragment of large content: a small content block with neither a first row number nor
rows. -/
def FragmentBlock (maxBufferLen executorBlockKind : ℕ) (B fragment : List UInt8) : Prop :=
  SmallContentBlock crc attrs version maxBufferLen B fragment executorBlockKind 0 false (-1)

/-- The bytes `W` are large content split into `fragments`: its header, then one fragment block
for each fragment. -/
def LargeContentBlocks (maxBufferLen : ℕ) (W content : List UInt8) (executorBlockKind rowCount : ℕ)
    (hasFirstRowNum : Bool) (firstRowNum : Int64) (fragments : List (List UInt8)) : Prop :=
  ∃ H blocks, W = H ++ blocks.flatten ∧
    (∃ m, LargeContentHeaderAt crc attrs m H content.length executorBlockKind rowCount
      hasFirstRowNum firstRowNum) ∧
    List.Forall₂ (FragmentBlock crc attrs version maxBufferLen executorBlockKind) blocks fragments

end Blocks

end Cloudberry.AppendOnly
