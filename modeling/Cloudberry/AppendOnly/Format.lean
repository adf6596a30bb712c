import Cloudberry.AppendOnly.Header

/-!
# Making and reading append-only block headers

`cdbappendonlystorageformat.c` writes a block header with one of four `Make*ContentHeader`
functions and reads it back with `GetHeaderInfo`, which finds the kind and the header length, and
the `Get*ContentHeaderInfo` function of that kind. A header is the two words of its kind, then,
when the table keeps checksums, a block checksum and a header checksum, then the extension header
of the long kind, then the optional 64-bit first row number; the data follows, rounded up to four
or eight bytes by the format version.

The functions are modelled on a byte memory holding the whole block (`ByteMem.Mem`). The word
macros become `BitField.Field` operations (`AppendOnly.Header`); the CRC-32C routine the checksums
use is a parameter `crc`. `elog(ERROR)` and `ereport(ERROR)` are the outer `Except String`; the check
codes the readers return are the inner `Except AOHeaderCheckError`.
-/

namespace Cloudberry.AppendOnly

open BitField ByteMem

namespace AppendOnlyStorageFormat

variable (crc : List UInt8 → UInt32)

/-! ## Checksums and the first row number -/

/-- `AppendOnlyStorageFormat_ComputeHeaderChecksum`: the CRC of the first `headerLen` bytes. -/
def computeHeaderChecksum (headerPtr : Mem) (headerLen : ℕ) : UInt32 :=
  crc (headerPtr.read 0 headerLen)

/-- `AppendOnlyStorageFormat_ComputeBlockChecksum`: the CRC of the block from just after the header
checksum to its end. -/
def computeBlockChecksum (headerPtr : Mem) (headerLen overallBlockLen : ℕ) : UInt32 :=
  let dataOffset := headerLen + 4
  crc (headerPtr.read dataOffset (overallBlockLen - dataOffset))

/-- `AppendOnlyStorageFormat_AddFirstRowNum`: the first row number goes after the header words
and the checksums. The header kind is read back from the first word. -/
def addFirstRowNum (headerPtr : Mem) (usingChecksums : Bool) (firstRowNum : Int64) :
    Except String Mem := do
  let isLong ← AoHeader.isLong (AOSmallContentHeader.headerKind.get (headerPtr.load 0 4))
  let offsetToFirstRowNum := if !isLong then AoHeader.regularSize else AoHeader.longSize
  let offsetToFirstRowNum :=
    if usingChecksums then offsetToFirstRowNum + 2 * 4 else offsetToFirstRowNum
  pure (headerPtr.storeInt64 offsetToFirstRowNum firstRowNum)

/-- `AppendOnlyStorageFormat_AddBlockHeaderChecksums`: the block checksum, at byte `8`, covers the
block from byte `16` on (the extension header, the first row number and the data); the header
checksum, at byte `12`, covers the header words and the block checksum. -/
def addBlockHeaderChecksums (headerPtr : Mem) (isCompressed hasFirstRowNum : Bool)
    (version dataLength compressedLength : ℕ) : Except String Mem := do
  let headerKind := AOSmallContentHeader.headerKind.get (headerPtr.load 0 4)
  let firstHeaderLen := AoHeader.regularSize
  let firstHeaderAndBlockChecksumLen := firstHeaderLen + 4
  let offset := firstHeaderAndBlockChecksumLen + 4
  let isLong ← AoHeader.isLong headerKind
  let offset := if isLong then offset + AoHeader.regularSize else offset
  let offset := if hasFirstRowNum then offset + 8 else offset
  let len ← AOStorage.roundUp (if isCompressed then compressedLength else dataLength) version
  let overallBlockLen := offset + len
  let headerPtr := headerPtr.store firstHeaderLen 4
    (computeBlockChecksum crc headerPtr firstHeaderAndBlockChecksumLen overallBlockLen).toNat
  pure (headerPtr.store firstHeaderAndBlockChecksumLen 4
    (computeHeaderChecksum crc headerPtr firstHeaderAndBlockChecksumLen).toNat)

/-- What every `Make*ContentHeader` does after its words are written: the first row number when
there is one, then the checksums when the table keeps them. -/
def finishHeader (headerPtr : Mem) (usingChecksums hasFirstRowNum : Bool) (version : ℕ)
    (firstRowNum : Int64) (isCompressed checksumHasFirstRowNum : Bool)
    (dataLength compressedLength : ℕ) : Except String Mem := do
  let headerPtr ←
    if hasFirstRowNum then addFirstRowNum headerPtr usingChecksums firstRowNum else pure headerPtr
  if usingChecksums then
    addBlockHeaderChecksums crc headerPtr isCompressed checksumHasFirstRowNum version dataLength
      compressedLength
  else pure headerPtr

/-! ## The words of each kind -/

/-- The two words `MakeSmallContentHeader` writes with the `Init` macros, in its order. -/
def smallContentWords (hasFirstRowNum : Bool) (executorKind rowCount dataLength
    compressedLength : ℕ) : ℕ × ℕ :=
  let w03 := AOSmallContentHeader.headerKind.init 0 AoHeaderKind.SmallContent.toNat
  let w03 := AOSmallContentHeader.executorBlockKind.init w03 executorKind
  let w03 := AOSmallContentHeader.rowCount.init w03 rowCount
  let (w03, w47) := AOSmallContentHeader.initDataLength w03 0 dataLength
  let w03 := AOSmallContentHeader.hasFirstRowNum.initFlag w03 hasFirstRowNum
  -- the compressed length is written only when it is positive
  let w47 := if compressedLength > 0 then
    AOSmallContentHeader.compressedLength.init w47 compressedLength else w47
  (w03, w47)

/-- The two words `MakeLargeContentHeader` writes. -/
def largeContentWords (hasFirstRowNum : Bool) (executorKind largeRowCount
    largeContentLength : ℕ) : ℕ × ℕ :=
  let w03 := AOLargeContentHeader.headerKind.init 0 AoHeaderKind.LargeContent.toNat
  let w03 := AOLargeContentHeader.executorBlockKind.init w03 executorKind
  let (w03, w47) := AOLargeContentHeader.initLargeRowCount w03 0 largeRowCount
  let w47 := AOLargeContentHeader.largeContentLength.init w47 largeContentLength
  let w03 := AOLargeContentHeader.hasFirstRowNum.initFlag w03 hasFirstRowNum
  (w03, w47)

/-- The two words `MakeNonBulkDenseContentHeader` writes. -/
def nonBulkDenseContentWords (hasFirstRowNum : Bool) (executorKind rowCount dataLength : ℕ) :
    ℕ × ℕ :=
  let w03 := AONonBulkDenseContentHeader.headerKind.init 0
    AoHeaderKind.NonBulkDenseContent.toNat
  let w03 := AONonBulkDenseContentHeader.executorBlockKind.init w03 executorKind
  let w47 := AONonBulkDenseContentHeader.largeRowCount.init 0 rowCount
  let w03 := AONonBulkDenseContentHeader.dataLength.init w03 dataLength
  let w03 := AONonBulkDenseContentHeader.hasFirstRowNum.initFlag w03 hasFirstRowNum
  (w03, w47)

/-- The two words `MakeBulkDenseContentHeader` writes; the row count goes to the extension. -/
def bulkDenseContentWords (hasFirstRowNum : Bool) (executorKind dataLength
    compressedLength : ℕ) : ℕ × ℕ :=
  let w03 := AOBulkDenseContentHeader.headerKind.init 0 AoHeaderKind.BulkDenseContent.toNat
  let w03 := AOBulkDenseContentHeader.executorBlockKind.init w03 executorKind
  let (w03, w47) := AOBulkDenseContentHeader.initDataLength w03 0 dataLength
  let w03 := AOBulkDenseContentHeader.hasFirstRowNum.initFlag w03 hasFirstRowNum
  let w47 := if compressedLength > 0 then
    AOBulkDenseContentHeader.compressedLength.init w47 compressedLength else w47
  (w03, w47)

/-! ## The `Make*` functions -/

/-- `AppendOnlyStorageFormat_MakeSmallContentHeader`. -/
def makeSmallContentHeader (headerPtr : Mem) (usingChecksums hasFirstRowNum : Bool)
    (version : ℕ) (firstRowNum : Int64) (executorKind rowCount dataLength compressedLength : ℕ) :
    Except String Mem :=
  let w := smallContentWords hasFirstRowNum executorKind rowCount dataLength compressedLength
  let headerPtr := (headerPtr.store 0 4 w.1).store 4 4 w.2
  finishHeader crc headerPtr usingChecksums hasFirstRowNum version firstRowNum
    (decide (compressedLength > 0)) hasFirstRowNum dataLength compressedLength

/-- `AppendOnlyStorageFormat_MakeLargeContentHeader`. Its checksum covers no data and, unlike the
other kinds, not the first row number either. -/
def makeLargeContentHeader (headerPtr : Mem) (usingChecksums hasFirstRowNum : Bool)
    (version : ℕ) (firstRowNum : Int64) (executorKind largeRowCount largeContentLength : ℕ) :
    Except String Mem :=
  let w := largeContentWords hasFirstRowNum executorKind largeRowCount largeContentLength
  let headerPtr := (headerPtr.store 0 4 w.1).store 4 4 w.2
  finishHeader crc headerPtr usingChecksums hasFirstRowNum version firstRowNum false false 0 0

/-- `AppendOnlyStorageFormat_MakeNonBulkDenseContentHeader`. -/
def makeNonBulkDenseContentHeader (headerPtr : Mem) (usingChecksums hasFirstRowNum : Bool)
    (version : ℕ) (firstRowNum : Int64) (executorKind rowCount dataLength : ℕ) :
    Except String Mem :=
  let w := nonBulkDenseContentWords hasFirstRowNum executorKind rowCount dataLength
  let headerPtr := (headerPtr.store 0 4 w.1).store 4 4 w.2
  finishHeader crc headerPtr usingChecksums hasFirstRowNum version firstRowNum false
    hasFirstRowNum dataLength 0

/-- `AppendOnlyStorageFormat_MakeBulkDenseContentHeader`: the extension header, zeroed and then
given the row count, sits after the first words and the checksums. -/
def makeBulkDenseContentHeader (headerPtr : Mem) (usingChecksums hasFirstRowNum : Bool)
    (version : ℕ) (firstRowNum : Int64) (executorKind rowCount dataLength compressedLength : ℕ) :
    Except String Mem :=
  let firstHeaderAndChecksumsLen := AoHeader.regularSize + (if usingChecksums then 2 * 4 else 0)
  let w := bulkDenseContentWords hasFirstRowNum executorKind dataLength compressedLength
  let headerPtr := (headerPtr.store 0 4 w.1).store 4 4 w.2
  let headerPtr := (headerPtr.store firstHeaderAndChecksumsLen 4 0).store
    (firstHeaderAndChecksumsLen + 4) 4 (AOBulkDenseContentHeader.extLargeRowCount.init 0 rowCount)
  finishHeader crc headerPtr usingChecksums hasFirstRowNum version firstRowNum
    (decide (compressedLength > 0)) hasFirstRowNum dataLength compressedLength

/-! ## The readers -/

/-- `AppendOnlyStorageFormat_GetHeaderInfo`: checks the first word and finds the kind and the
length of the whole header. -/
def getHeaderInfo (headerPtr : Mem) (usingChecksums : Bool) :
    Except String (Except AOHeaderCheckError (AoHeaderKind × ℕ)) :=
  let w03 := headerPtr.load 0 4
  let checksumsLen := if usingChecksums then 2 * 4 else 0
  if w03 = 0 then .ok (.error .First32BitsAllZeroes)
  else if AOHeader.getReserved0 w03 ≠ 0 then .ok (.error .ReservedBit0Not0)
  else
    let headerKind := AOHeader.headerKind.get w03
    if headerKind = AoHeaderKind.None.toNat then .ok (.error .InvalidHeaderKindNone)
    else if headerKind ≥ MaxAoHeaderKind then .ok (.error .InvalidHeaderKind)
    else
      match headerKind with
      | 1 => .ok (.ok (.SmallContent, AoHeader.regularSize + checksumsLen +
          (if AOSmallContentHeader.hasFirstRowNum.get w03 ≠ 0 then 8 else 0)))
      | 2 => .ok (.ok (.LargeContent, AoHeader.regularSize + checksumsLen +
          (if AOLargeContentHeader.hasFirstRowNum.get w03 ≠ 0 then 8 else 0)))
      | 3 => .ok (.ok (.NonBulkDenseContent, AoHeader.regularSize + checksumsLen +
          (if AONonBulkDenseContentHeader.hasFirstRowNum.get w03 ≠ 0 then 8 else 0)))
      | 4 => .ok (.ok (.BulkDenseContent, AoHeader.longSize + checksumsLen +
          (if AOBulkDenseContentHeader.hasFirstRowNum.get w03 ≠ 0 then 8 else 0)))
      | k => .error s!"Unexpected Append-Only header kind {k}"

/-- What the readers of the kinds with data report (the out parameters of
`GetSmallContentHeaderInfo`). -/
structure ContentHeaderInfo where
  overallBlockLen : ℕ
  offset : ℕ
  uncompressedLen : ℕ
  executorBlockKind : ℕ
  hasFirstRowNum : Bool
  firstRowNum : Int64
  rowCount : ℕ
  isCompressed : Bool
  compressedLen : ℕ
  deriving DecidableEq, Repr

/-- What `GetLargeContentHeaderInfo` reports. -/
structure LargeContentHeaderInfo where
  largeContentLen : ℕ
  executorBlockKind : ℕ
  hasFirstRowNum : Bool
  firstRowNum : Int64
  largeRowCount : ℕ
  deriving DecidableEq, Repr

/-- The first row number after the header and checksums, `-1` when there is none, and the
offset just past it; with the `elog(ERROR)` when that offset is not the header length found by
`GetHeaderInfo`. -/
def readFirstRowNum (headerPtr : Mem) (headerLen offset : ℕ) (hasFirstRowNum : Bool) :
    Except String (Int64 × ℕ) :=
  let firstRowNum := if hasFirstRowNum then headerPtr.loadInt64 offset else -1
  let offset := if hasFirstRowNum then offset + 8 else offset
  if offset ≠ headerLen then
    .error s!"Content offset {offset} doesn\x27t equal header length parameter {headerLen}"
  else .ok (firstRowNum, offset)

/-- The length checks of the readers of the kinds with data: a compressed length above the
uncompressed one, then a block running past the limit. -/
def checkLengths (offset uncompressedLen compressedLen blockLimitLen version : ℕ) :
    Except String (Except AOHeaderCheckError ℕ) := do
  if compressedLen ≠ 0 ∧ compressedLen > uncompressedLen then
    return .error .InvalidCompressedLen
  let length := if compressedLen = 0 then uncompressedLen else compressedLen
  let overallBlockLen := offset + (← AOStorage.roundUp length version)
  if overallBlockLen > blockLimitLen then return .error .InvalidOverallBlockLen
  return .ok overallBlockLen

/-- `AppendOnlyStorageFormat_GetSmallContentHeaderInfo`. -/
def getSmallContentHeaderInfo (headerPtr : Mem) (headerLen : ℕ) (usingChecksums : Bool)
    (blockLimitLen version : ℕ) : Except String (Except AOHeaderCheckError ContentHeaderInfo) := do
  let w03 := headerPtr.load 0 4
  let w47 := headerPtr.load 4 4
  let executorBlockKind := AOSmallContentHeader.executorBlockKind.get w03
  let hasFirstRowNum := AOSmallContentHeader.hasFirstRowNum.get w03 ≠ 0
  let rowCount := AOSmallContentHeader.rowCount.get w03
  let (firstRowNum, offset) ← readFirstRowNum headerPtr headerLen
    (AoHeader.regularSize + (if usingChecksums then 2 * 4 else 0)) hasFirstRowNum
  let uncompressedLen := AOSmallContentHeader.getDataLength w03 w47
  let compressedLen := AOSmallContentHeader.compressedLength.get w47
  let checked ← checkLengths offset uncompressedLen compressedLen blockLimitLen version
  return checked.map fun overallBlockLen =>
    { overallBlockLen, offset, uncompressedLen, executorBlockKind, hasFirstRowNum, firstRowNum,
      rowCount, isCompressed := compressedLen ≠ 0, compressedLen }

/-- `AppendOnlyStorageFormat_GetLargeContentHeaderInfo`: a large content header announces content
that follows in small blocks, and its length must not be zero. -/
def getLargeContentHeaderInfo (headerPtr : Mem) (headerLen : ℕ) (usingChecksums : Bool) :
    Except String (Except AOHeaderCheckError LargeContentHeaderInfo) := do
  let w03 := headerPtr.load 0 4
  let w47 := headerPtr.load 4 4
  let executorBlockKind := AOLargeContentHeader.executorBlockKind.get w03
  let hasFirstRowNum := AOLargeContentHeader.hasFirstRowNum.get w03 ≠ 0
  let largeRowCount := AOLargeContentHeader.getLargeRowCount w03 w47
  let largeContentLen := AOLargeContentHeader.largeContentLength.get w47
  if largeContentLen = 0 then return .error .LargeContentLenIsZero
  let (firstRowNum, _) ← readFirstRowNum headerPtr headerLen
    (AoHeader.regularSize + (if usingChecksums then 2 * 4 else 0)) hasFirstRowNum
  return .ok { largeContentLen, executorBlockKind, hasFirstRowNum, firstRowNum, largeRowCount }

/-- `AppendOnlyStorageFormat_GetNonBulkDenseContentHeaderInfo`. The kind has no compressed length:
the two compression fields are `false` and `0`, as `ReadNextBlock` leaves them. -/
def getNonBulkDenseContentHeaderInfo (headerPtr : Mem) (headerLen : ℕ) (usingChecksums : Bool)
    (blockLimitLen version : ℕ) : Except String (Except AOHeaderCheckError ContentHeaderInfo) := do
  let w03 := headerPtr.load 0 4
  let w47 := headerPtr.load 4 4
  let executorBlockKind := AONonBulkDenseContentHeader.executorBlockKind.get w03
  let hasFirstRowNum := AONonBulkDenseContentHeader.hasFirstRowNum.get w03 ≠ 0
  let rowCount := AONonBulkDenseContentHeader.largeRowCount.get w47
  let (firstRowNum, offset) ← readFirstRowNum headerPtr headerLen
    (AoHeader.regularSize + (if usingChecksums then 2 * 4 else 0)) hasFirstRowNum
  let uncompressedLen := AONonBulkDenseContentHeader.dataLength.get w03
  let checked ← checkLengths offset uncompressedLen 0 blockLimitLen version
  return checked.map fun overallBlockLen =>
    { overallBlockLen, offset, uncompressedLen, executorBlockKind, hasFirstRowNum, firstRowNum,
      rowCount, isCompressed := false, compressedLen := 0 }

/-- `AppendOnlyStorageFormat_GetBulkDenseContentHeaderInfo`: the row count is read from the
extension header after the first words and the checksums. -/
def getBulkDenseContentHeaderInfo (headerPtr : Mem) (headerLen : ℕ) (usingChecksums : Bool)
    (blockLimitLen version : ℕ) : Except String (Except AOHeaderCheckError ContentHeaderInfo) := do
  let w03 := headerPtr.load 0 4
  let w47 := headerPtr.load 4 4
  let firstHeaderAndChecksumsLen := AoHeader.regularSize + (if usingChecksums then 2 * 4 else 0)
  let executorBlockKind := AOBulkDenseContentHeader.executorBlockKind.get w03
  let hasFirstRowNum := AOBulkDenseContentHeader.hasFirstRowNum.get w03 ≠ 0
  let rowCount := AOBulkDenseContentHeader.extLargeRowCount.get
    (headerPtr.load (firstHeaderAndChecksumsLen + 4) 4)
  let (firstRowNum, offset) ← readFirstRowNum headerPtr headerLen
    (firstHeaderAndChecksumsLen + AoHeader.regularSize) hasFirstRowNum
  let uncompressedLen := AOBulkDenseContentHeader.getDataLength w03 w47
  let compressedLen := AOBulkDenseContentHeader.compressedLength.get w47
  let checked ← checkLengths offset uncompressedLen compressedLen blockLimitLen version
  return checked.map fun overallBlockLen =>
    { overallBlockLen, offset, uncompressedLen, executorBlockKind, hasFirstRowNum, firstRowNum,
      rowCount, isCompressed := compressedLen ≠ 0, compressedLen }

/-- What the `Get*ContentHeaderInfo` function of a kind reports. -/
inductive HeaderInfo
  | content (info : ContentHeaderInfo)
  | large (info : LargeContentHeaderInfo)
  deriving DecidableEq, Repr

/-- The switch of `AppendOnlyStorageRead_ReadNextBlock` on the kind `GetHeaderInfo` found: the
reader of that kind, given the header length `GetHeaderInfo` found. -/
def getContentHeaderInfo (headerKind : AoHeaderKind) (headerPtr : Mem) (headerLen : ℕ)
    (usingChecksums : Bool) (blockLimitLen version : ℕ) :
    Except String (Except AOHeaderCheckError HeaderInfo) :=
  match headerKind with
  | .SmallContent =>
    (getSmallContentHeaderInfo headerPtr headerLen usingChecksums blockLimitLen version).map
      (Except.map .content)
  | .LargeContent =>
    (getLargeContentHeaderInfo headerPtr headerLen usingChecksums).map (Except.map .large)
  | .NonBulkDenseContent =>
    (getNonBulkDenseContentHeaderInfo headerPtr headerLen usingChecksums blockLimitLen
      version).map (Except.map .content)
  | .BulkDenseContent =>
    (getBulkDenseContentHeaderInfo headerPtr headerLen usingChecksums blockLimitLen version).map
      (Except.map .content)
  | .None =>
    let k := AoHeaderKind.None.toNat
    .error s!"unexpected append-only header kind {k}"

/-- `AppendOnlyStorageFormat_VerifyHeaderChecksum`. -/
def verifyHeaderChecksum (headerPtr : Mem) : Bool :=
  headerPtr.load (AoHeader.regularSize + 4) 4 ==
    (computeHeaderChecksum crc headerPtr (AoHeader.regularSize + 4)).toNat

/-- `AppendOnlyStorageFormat_VerifyBlockChecksum`; with file encryption on it checks nothing. -/
def verifyBlockChecksum (fileEncryptionEnabled : Bool) (headerPtr : Mem)
    (overallBlockLen : ℕ) : Bool :=
  if fileEncryptionEnabled then true
  else headerPtr.load AoHeader.regularSize 4 ==
    (computeBlockChecksum crc headerPtr (AoHeader.regularSize + 4) overallBlockLen).toNat

/-! ## The fields of the words each kind writes -/

theorem smallContentWords_lt (hasFirstRowNum : Bool) (ek rc dl cl : ℕ) :
    (smallContentWords hasFirstRowNum ek rc dl cl).1 < 2 ^ 31 ∧
    (smallContentWords hasFirstRowNum ek rc dl cl).2 < 2 ^ 32 := by
  simp (disch := decide) only [smallContentWords, AOSmallContentHeader.initDataLength,
    Field.init_lt_two_pow_iff, Field.initFlag_lt_two_pow_iff]
  split <;> simp (disch := decide) only [Field.init_lt_two_pow_iff] <;> decide

theorem largeContentWords_lt (hasFirstRowNum : Bool) (ek rc len : ℕ) :
    (largeContentWords hasFirstRowNum ek rc len).1 < 2 ^ 31 ∧
    (largeContentWords hasFirstRowNum ek rc len).2 < 2 ^ 32 := by
  simp (disch := decide) only [largeContentWords, AOLargeContentHeader.initLargeRowCount,
    Field.init_lt_two_pow_iff, Field.initFlag_lt_two_pow_iff]
  decide

theorem nonBulkDenseContentWords_lt (hasFirstRowNum : Bool) (ek rc dl : ℕ) :
    (nonBulkDenseContentWords hasFirstRowNum ek rc dl).1 < 2 ^ 31 ∧
    (nonBulkDenseContentWords hasFirstRowNum ek rc dl).2 < 2 ^ 32 := by
  simp (disch := decide) only [nonBulkDenseContentWords, Field.init_lt_two_pow_iff,
    Field.initFlag_lt_two_pow_iff]
  decide

theorem bulkDenseContentWords_lt (hasFirstRowNum : Bool) (ek dl cl : ℕ) :
    (bulkDenseContentWords hasFirstRowNum ek dl cl).1 < 2 ^ 31 ∧
    (bulkDenseContentWords hasFirstRowNum ek dl cl).2 < 2 ^ 32 := by
  simp (disch := decide) only [bulkDenseContentWords, AOBulkDenseContentHeader.initDataLength,
    Field.init_lt_two_pow_iff, Field.initFlag_lt_two_pow_iff]
  split <;> simp (disch := decide) only [Field.init_lt_two_pow_iff] <;> decide

theorem smallContentWords_get (hasFirstRowNum : Bool) (ek rc dl cl : ℕ) :
    let w := smallContentWords hasFirstRowNum ek rc dl cl
    AOHeader.headerKind.get w.1 = AoHeaderKind.SmallContent.toNat ∧
    AOSmallContentHeader.hasFirstRowNum.get w.1 = hasFirstRowNum.toNat ∧
    AOSmallContentHeader.executorBlockKind.get w.1 = ek % 2 ^ 3 ∧
    AOSmallContentHeader.rowCount.get w.1 = rc % 2 ^ 14 ∧
    AOSmallContentHeader.getDataLength w.1 w.2 = dl % 2 ^ 21 ∧
    AOSmallContentHeader.compressedLength.get w.2 = cl % 2 ^ 21 := by
  have hlow : AOSmallContentHeader.dataLengthLow.get (if cl > 0 then
      AOSmallContentHeader.compressedLength.init (AOSmallContentHeader.dataLengthLow.init 0 dl) cl
      else AOSmallContentHeader.dataLengthLow.init 0 dl) = dl % 2 ^ 11 := by
    split <;> simp (disch := decide) [Field.get_init_of_disjoint, Field.get_init_self,
      AOSmallContentHeader.dataLengthLow]
  have hcl : AOSmallContentHeader.compressedLength.get (if cl > 0 then
      AOSmallContentHeader.compressedLength.init (AOSmallContentHeader.dataLengthLow.init 0 dl) cl
      else AOSmallContentHeader.dataLengthLow.init 0 dl) = cl % 2 ^ 21 := by
    split
    · simp (disch := decide) [Field.get_init_of_disjoint, Field.get_init_self,
        AOSmallContentHeader.compressedLength]
    · simp (disch := decide) [Field.get_init_of_disjoint, show cl = 0 by omega]
  simp (disch := decide) only [smallContentWords, AOSmallContentHeader.initDataLength,
    AOSmallContentHeader.getDataLength, ← AOSmallContentHeader.headerKind_eq,
    Field.get_init_of_disjoint, Field.get_initFlag_of_disjoint, Field.get_init_self,
    Field.get_initFlag_self, Field.get_zero, hlow, hcl]
  simp [AOSmallContentHeader.headerKind, AOSmallContentHeader.executorBlockKind,
    AOSmallContentHeader.rowCount, AOSmallContentHeader.dataLengthHigh, AoHeaderKind.toNat]
  exact join_split 11 10 dl

theorem largeContentWords_get (hasFirstRowNum : Bool) (ek rc len : ℕ) :
    let w := largeContentWords hasFirstRowNum ek rc len
    AOHeader.headerKind.get w.1 = AoHeaderKind.LargeContent.toNat ∧
    AOLargeContentHeader.hasFirstRowNum.get w.1 = hasFirstRowNum.toNat ∧
    AOLargeContentHeader.executorBlockKind.get w.1 = ek % 2 ^ 3 ∧
    AOLargeContentHeader.getLargeRowCount w.1 w.2 = rc % 2 ^ 25 ∧
    AOLargeContentHeader.largeContentLength.get w.2 = len % 2 ^ 30 := by
  simp (disch := decide) only [largeContentWords, AOLargeContentHeader.initLargeRowCount,
    AOLargeContentHeader.getLargeRowCount, ← AOLargeContentHeader.headerKind_eq,
    Field.get_init_of_disjoint, Field.get_initFlag_of_disjoint, Field.get_init_self,
    Field.get_initFlag_self, Field.get_zero]
  simp [AOLargeContentHeader.headerKind, AOLargeContentHeader.executorBlockKind,
    AOLargeContentHeader.largeRowCountHigh, AOLargeContentHeader.largeRowCountLow,
    AOLargeContentHeader.largeContentLength, AoHeaderKind.toNat]
  exact join_split 2 23 rc

theorem nonBulkDenseContentWords_get (hasFirstRowNum : Bool) (ek rc dl : ℕ) :
    let w := nonBulkDenseContentWords hasFirstRowNum ek rc dl
    AOHeader.headerKind.get w.1 = AoHeaderKind.NonBulkDenseContent.toNat ∧
    AONonBulkDenseContentHeader.hasFirstRowNum.get w.1 = hasFirstRowNum.toNat ∧
    AONonBulkDenseContentHeader.executorBlockKind.get w.1 = ek % 2 ^ 3 ∧
    AONonBulkDenseContentHeader.largeRowCount.get w.2 = rc % 2 ^ 30 ∧
    AONonBulkDenseContentHeader.dataLength.get w.1 = dl % 2 ^ 21 := by
  simp (disch := decide) only [nonBulkDenseContentWords,
    ← AONonBulkDenseContentHeader.headerKind_eq,
    Field.get_init_of_disjoint, Field.get_initFlag_of_disjoint, Field.get_init_self,
    Field.get_initFlag_self, Field.get_zero]
  simp [AONonBulkDenseContentHeader.headerKind, AONonBulkDenseContentHeader.executorBlockKind,
    AONonBulkDenseContentHeader.largeRowCount, AONonBulkDenseContentHeader.dataLength,
    AoHeaderKind.toNat]

theorem bulkDenseContentWords_get (hasFirstRowNum : Bool) (ek dl cl : ℕ) :
    let w := bulkDenseContentWords hasFirstRowNum ek dl cl
    AOHeader.headerKind.get w.1 = AoHeaderKind.BulkDenseContent.toNat ∧
    AOBulkDenseContentHeader.hasFirstRowNum.get w.1 = hasFirstRowNum.toNat ∧
    AOBulkDenseContentHeader.executorBlockKind.get w.1 = ek % 2 ^ 3 ∧
    AOBulkDenseContentHeader.getDataLength w.1 w.2 = dl % 2 ^ 21 ∧
    AOBulkDenseContentHeader.compressedLength.get w.2 = cl % 2 ^ 21 := by
  have hlow : AOBulkDenseContentHeader.dataLengthLow.get (if cl > 0 then
      AOBulkDenseContentHeader.compressedLength.init
        (AOBulkDenseContentHeader.dataLengthLow.init 0 dl) cl
      else AOBulkDenseContentHeader.dataLengthLow.init 0 dl) = dl % 2 ^ 11 := by
    split <;> simp (disch := decide) [Field.get_init_of_disjoint, Field.get_init_self,
      AOBulkDenseContentHeader.dataLengthLow]
  have hcl : AOBulkDenseContentHeader.compressedLength.get (if cl > 0 then
      AOBulkDenseContentHeader.compressedLength.init
        (AOBulkDenseContentHeader.dataLengthLow.init 0 dl) cl
      else AOBulkDenseContentHeader.dataLengthLow.init 0 dl) = cl % 2 ^ 21 := by
    split
    · simp (disch := decide) [Field.get_init_of_disjoint, Field.get_init_self,
        AOBulkDenseContentHeader.compressedLength]
    · simp (disch := decide) [Field.get_init_of_disjoint, show cl = 0 by omega]
  simp (disch := decide) only [bulkDenseContentWords, AOBulkDenseContentHeader.initDataLength,
    AOBulkDenseContentHeader.getDataLength, ← AOBulkDenseContentHeader.headerKind_eq,
    Field.get_init_of_disjoint, Field.get_initFlag_of_disjoint, Field.get_init_self,
    Field.get_initFlag_self, Field.get_zero, hlow, hcl]
  simp [AOBulkDenseContentHeader.headerKind, AOBulkDenseContentHeader.executorBlockKind,
    AOBulkDenseContentHeader.dataLengthHigh, AoHeaderKind.toNat]
  exact join_split 11 10 dl

/-! ## What the `Make*` functions leave -/

theorem uint32_toNat_lt (x : UInt32) : x.toNat < 256 ^ 4 := by
  simpa using x.toNat_lt

section Finish

variable {m : Mem} {isLong : Bool}
  (hk : AoHeader.isLong (AOSmallContentHeader.headerKind.get (m.load 0 4)) = .ok isLong)
include hk

theorem addFirstRowNum_eq (usingChecksums : Bool) (firstRowNum : Int64) :
    addFirstRowNum m usingChecksums firstRowNum =
      .ok (m.storeInt64 (AoHeader.size isLong usingChecksums false) firstRowNum) := by
  cases isLong <;> cases usingChecksums <;> simp [addFirstRowNum, hk, AoHeader.size]

theorem addBlockHeaderChecksums_eq {version : ℕ} (hv : AOSegfileFormatVersion.IsValid version)
    (isCompressed hasFirstRowNum : Bool) (dataLength compressedLength : ℕ) :
    addBlockHeaderChecksums crc m isCompressed hasFirstRowNum version dataLength compressedLength =
      .ok (let overallBlockLen := AoHeader.size isLong true hasFirstRowNum +
             AOStorage.roundUpValid (if isCompressed then compressedLength else dataLength) version
           let m₁ := m.store 8 4 (computeBlockChecksum crc m 12 overallBlockLen).toNat
           m₁.store 12 4 (computeHeaderChecksum crc m₁ 12).toNat) := by
  simp only [addBlockHeaderChecksums, hk, AOStorage.roundUp_of_isValid hv]
  cases isLong <;> cases hasFirstRowNum <;> rfl


/-- What `finishHeader` leaves, once the kind of the header is known. -/
theorem finishHeader_eq {version : ℕ} (hv : AOSegfileFormatVersion.IsValid version)
    (usingChecksums hasFirstRowNum : Bool) (firstRowNum : Int64)
    (isCompressed checksumHasFirstRowNum : Bool) (dataLength compressedLength : ℕ) :
    finishHeader crc m usingChecksums hasFirstRowNum version firstRowNum isCompressed
        checksumHasFirstRowNum dataLength compressedLength =
      .ok (let m₁ := if hasFirstRowNum then
                m.storeInt64 (AoHeader.size isLong usingChecksums false) firstRowNum else m
           if usingChecksums then
             let overallBlockLen := AoHeader.size isLong true checksumHasFirstRowNum +
               AOStorage.roundUpValid (if isCompressed then compressedLength else dataLength)
                 version
             let m₂ := m₁.store 8 4 (computeBlockChecksum crc m₁ 12 overallBlockLen).toNat
             m₂.store 12 4 (computeHeaderChecksum crc m₂ 12).toNat
           else m₁) := by
  -- the first row number lies past the first word, so the kind is still there for the checksums
  have hk₁ : AoHeader.isLong (AOSmallContentHeader.headerKind.get
      ((m.storeInt64 (AoHeader.size isLong usingChecksums false) firstRowNum).load 0 4)) =
      .ok isLong := by
    rw [load_storeInt64_of_disjoint _ _ (.inl (le_trans (by decide) (AoHeader.eight_le_size _ _ _))), hk]
  cases hasFirstRowNum <;> cases usingChecksums <;>
    simp only [finishHeader, addFirstRowNum_eq hk, addBlockHeaderChecksums_eq crc hk hv,
      addBlockHeaderChecksums_eq crc hk₁ hv, if_true, Bool.false_eq_true, if_false, pure_bind,
      Except.ok_bind] <;> rfl


variable {version : ℕ} (hv : AOSegfileFormatVersion.IsValid version)
  {usingChecksums hasFirstRowNum : Bool} {firstRowNum : Int64}
  {isCompressed checksumHasFirstRowNum : Bool} {dataLength compressedLength : ℕ} {m' : Mem}
  (h : finishHeader crc m usingChecksums hasFirstRowNum version firstRowNum isCompressed
    checksumHasFirstRowNum dataLength compressedLength = .ok m')
include hv h

/-- The header words, and the extension header between the checksums and the first row number,
are left as the `Make*` function wrote them. -/
theorem load_of_finishHeader {o w : ℕ} (ho : o + w ≤ 8 ∨
      AoHeader.size false usingChecksums false ≤ o ∧
        o + w ≤ AoHeader.size isLong usingChecksums false) :
    m'.load o w = m.load o w := by
  rw [finishHeader_eq crc hk hv, Except.ok.injEq] at h
  subst h
  cases isLong <;> cases usingChecksums <;> cases hasFirstRowNum <;>
    simp only [AoHeader.size, AoHeader.regularSize, AoHeader.longSize, Bool.false_eq_true,
      if_true, if_false] at ho <;>
    simp (disch := omega) [load_store_of_disjoint, load_storeInt64_of_disjoint, AoHeader.size,
      AoHeader.regularSize, AoHeader.longSize]

theorem loadInt64_of_finishHeader (hf : hasFirstRowNum = true) :
    m'.loadInt64 (AoHeader.size isLong usingChecksums false) = firstRowNum := by
  rw [finishHeader_eq crc hk hv, Except.ok.injEq] at h
  subst h hf
  cases isLong <;> cases usingChecksums <;>
    simp (disch := omega) [loadInt64_store_of_disjoint, loadInt64_storeInt64_self, AoHeader.size,
      AoHeader.regularSize, AoHeader.longSize]

theorem verifyHeaderChecksum_of_finishHeader (hc : usingChecksums = true) :
    verifyHeaderChecksum crc m' = true := by
  rw [finishHeader_eq crc hk hv, Except.ok.injEq] at h
  subst h hc
  simp only [verifyHeaderChecksum, AoHeader.regularSize, if_true, beq_iff_eq]
  rw [load_store_of_lt (uint32_toNat_lt _), computeHeaderChecksum, computeHeaderChecksum]
  simp (disch := omega) only [read_store_of_disjoint]

theorem verifyBlockChecksum_of_finishHeader (hc : usingChecksums = true) :
    verifyBlockChecksum crc false m' (AoHeader.size isLong true checksumHasFirstRowNum +
      AOStorage.roundUpValid (if isCompressed then compressedLength else dataLength) version) =
      true := by
  rw [finishHeader_eq crc hk hv, Except.ok.injEq] at h
  subst h hc
  simp only [verifyBlockChecksum, AoHeader.regularSize, if_true, Bool.false_eq_true, if_false,
    beq_iff_eq]
  simp (disch := omega) only [load_store_of_disjoint, load_store_of_lt (uint32_toNat_lt _),
    computeBlockChecksum, read_store_of_disjoint]

end Finish

/-! ## What the readers find -/

theorem readFirstRowNum_of_size {m : Mem} (isLong usingChecksums hasFirstRowNum : Bool)
    {firstRowNum : Int64}
    (h : hasFirstRowNum = true → m.loadInt64 (AoHeader.size isLong usingChecksums false) =
      firstRowNum) :
    readFirstRowNum m (AoHeader.size isLong usingChecksums hasFirstRowNum)
        (AoHeader.size isLong usingChecksums false) hasFirstRowNum =
      .ok (if hasFirstRowNum then firstRowNum else -1,
        AoHeader.size isLong usingChecksums hasFirstRowNum) := by
  cases hasFirstRowNum with
  | false => simp [readFirstRowNum]
  | true =>
    rw [AoHeader.size_eq_add _ _ true]
    simp [readFirstRowNum, h rfl]

theorem checkLengths_of_le {offset uncompressedLen compressedLen blockLimitLen version : ℕ}
    (hv : AOSegfileFormatVersion.IsValid version) (hc : compressedLen ≤ uncompressedLen)
    (hlimit : offset + AOStorage.roundUpValid
      (if compressedLen = 0 then uncompressedLen else compressedLen) version ≤ blockLimitLen) :
    checkLengths offset uncompressedLen compressedLen blockLimitLen version =
      .ok (.ok (offset + AOStorage.roundUpValid
        (if compressedLen = 0 then uncompressedLen else compressedLen) version)) := by
  have hc' : ¬ (compressedLen ≠ 0 ∧ compressedLen > uncompressedLen) := by omega
  simp [checkLengths, hc', AOStorage.roundUp_of_isValid hv, Nat.not_lt.mpr hlimit]

theorem load_storeWords (m : Mem) {w₁ w₂ : ℕ} (h₁ : w₁ < 2 ^ 32) (h₂ : w₂ < 2 ^ 32) :
    ((m.store 0 4 w₁).store 4 4 w₂).load 0 4 = w₁ ∧
      ((m.store 0 4 w₁).store 4 4 w₂).load 4 4 = w₂ := by
  have h₁' : w₁ < 256 ^ 4 := by simpa using h₁
  have h₂' : w₂ < 256 ^ 4 := by simpa using h₂
  constructor
  · rw [load_store_of_disjoint _ _ (.inl (by norm_num)), load_store_of_lt h₁']
  · exact load_store_of_lt h₂'

/-- `GetHeaderInfo` on a first word below bit `31` that holds a kind. -/
theorem getHeaderInfo_eq {m : Mem} {w : ℕ} (hw : m.load 0 4 = w) (hlt : w < 2 ^ 31)
    {k : AoHeaderKind} (hk : AOHeader.headerKind.get w = k.toNat) (hne : k ≠ .None)
    {hasFirstRowNum : Bool}
    (hf : AOSmallContentHeader.hasFirstRowNum.get w = hasFirstRowNum.toNat)
    (usingChecksums : Bool) :
    getHeaderInfo m usingChecksums =
      .ok (.ok (k, AoHeader.size (k = .BulkDenseContent) usingChecksums hasFirstRowNum)) := by
  have hw0 : w ≠ 0 := by
    rintro rfl
    rw [Field.get_zero] at hk
    cases k <;> simp [AoHeaderKind.toNat] at hk hne
  have hres : AOHeader.getReserved0 w = 0 := by
    rw [AOHeader.getReserved0, Nat.shiftRight_eq_div_pow, Nat.div_eq_of_lt hlt]
  cases k <;> cases hasFirstRowNum <;> simp_all [getHeaderInfo, AoHeaderKind.toNat,
    MaxAoHeaderKind, AoHeader.size, AOLargeContentHeader.hasFirstRowNum_eq,
    AONonBulkDenseContentHeader.hasFirstRowNum_eq, AOBulkDenseContentHeader.hasFirstRowNum_eq]

end AppendOnlyStorageFormat

end Cloudberry.AppendOnly
