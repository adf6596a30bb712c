import Cloudberry.AppendOnly.StorageWrite

/-!
# Reading content back from an append-only segment file

`cdbappendonlystorageread.c` reads a segment file block by block.
`AppendOnlyStorageRead_ReadNextBlock` peeks at the next `minimumHeaderLen` bytes, skipping a zero
padded page remainder once, checks the header checksum when the table keeps checksums, finds the
kind and length of the header (`GetHeaderInfo`), grows the buffer to the whole header and reads
it with the reader of its kind. `AppendOnlyStorageRead_GetBlockInfo` reports what the header
says. `AppendOnlyStorageRead_Content` copies the content out: from the one block of small
content, decompressing it when it is compressed, and for large content from the small content
blocks after its header, one after another, until the announced length is complete.

`BufferedRead` is a window on the file's bytes: where the current buffer starts and how long it
is. The header functions read the buffer as a memory that sees the file from the buffer's start.

The reassembly loop of large content has no bound in the C code. Every block it reads takes at
least one byte of the file, so it stops at the end of the file at the latest; the model gives it
the length of the file as fuel and reports running out as the end of the file.
-/

namespace Cloudberry.AppendOnly

open ByteMem AppendOnlyStorageFormat

/-! ## Buffered reads -/

/-- `BufferedRead` on a whole segment file: the current buffer is the `bufferLen` bytes of the
file from `position` on. -/
structure BufferedRead where
  maxBufferLen : ℕ
  file : List UInt8
  position : ℕ
  bufferLen : ℕ

namespace BufferedRead

/-- `BufferedReadNextBufferPosition`. -/
def nextBufferPosition (b : BufferedRead) : ℕ := b.position + b.bufferLen

/-- The current buffer as memory: the file from the buffer's start on. -/
def currentBuffer (b : BufferedRead) : Mem := fun i => b.file.getD (b.position + i) 0

/-- `BufferedReadGetNextBuffer`: finish the current buffer and take up to `maxReadAheadLen` bytes
after it, or `none` at the end of the file. -/
def getNextBuffer (b : BufferedRead) (maxReadAheadLen : ℕ) :
    Except String (BufferedRead × Option ℕ) :=
  if maxReadAheadLen > b.maxBufferLen then
    let maxBufferLen := b.maxBufferLen
    .error (s!"Read ahead length {maxReadAheadLen} is greater than maximum buffer length "
      ++ s!"{maxBufferLen}")
  else
    let position := b.nextBufferPosition
    if b.file.length ≤ position then .ok ({ b with position, bufferLen := 0 }, none)
    else
      let bufferLen := min maxReadAheadLen (b.file.length - position)
      .ok ({ b with position, bufferLen }, some bufferLen)

/-- `BufferedReadGrowBuffer`: the current buffer grows to `newMaxReadAheadLen` bytes, or to the end
of the file. -/
def growBuffer (b : BufferedRead) (newMaxReadAheadLen : ℕ) : BufferedRead × ℕ :=
  let bufferLen := min newMaxReadAheadLen (b.file.length - b.position)
  ({ b with bufferLen }, bufferLen)

end BufferedRead

/-! ## The reader -/

/-- The value of a check error, as the messages print it (`AOHeaderCheckOk` is `0`). -/
def AOHeaderCheckError.toNat : AOHeaderCheckError → ℕ
  | .First32BitsAllZeroes => 1
  | .ReservedBit0Not0 => 2
  | .InvalidHeaderKindNone => 3
  | .InvalidHeaderKind => 4
  | .OBSOLETE => 5
  | .InvalidCompressedLen => 6
  | .InvalidOverallBlockLen => 7
  | .LargeContentLenIsZero => 8

/-- How the messages of `ReadNextBlock` name a kind of header. -/
def AoHeaderKind.desc : AoHeaderKind → String
  | .None => "none"
  | .SmallContent => "small content"
  | .LargeContent => "large content"
  | .NonBulkDenseContent => "non-bulk dense content"
  | .BulkDenseContent => "bulk dense content"

/-- `AppendOnlyStorageReadCurrent`: what `ReadNextBlock` found out about the current block. -/
structure AppendOnlyStorageReadCurrent where
  headerOffsetInFile : ℕ
  headerKind : AoHeaderKind
  actualHeaderLen : ℕ
  overallBlockLen : ℕ
  contentOffset : ℕ
  uncompressedLen : ℕ
  executorBlockKind : ℕ
  hasFirstRowNum : Bool
  firstRowNum : Int64
  rowCount : ℕ
  isLarge : Bool
  isCompressed : Bool
  compressedLen : ℕ
  deriving DecidableEq, Repr

/-- The out parameters of `AppendOnlyStorageRead_GetBlockInfo`. -/
structure BlockInfo where
  contentLen : ℕ
  executorBlockKind : ℕ
  firstRowNum : Int64
  rowCount : ℕ
  isLarge : Bool
  isCompressed : Bool
  deriving DecidableEq, Repr

namespace AppendOnlyStorageReadCurrent

/-- The reset at the start of `ReadNextBlock`: nothing known, and the first row number `-1`. -/
def reset : AppendOnlyStorageReadCurrent :=
  { headerOffsetInFile := 0, headerKind := .None, actualHeaderLen := 0, overallBlockLen := 0,
    contentOffset := 0, uncompressedLen := 0, executorBlockKind := 0, hasFirstRowNum := false,
    firstRowNum := -1, rowCount := 0, isLarge := false, isCompressed := false,
    compressedLen := 0 }

/-- What the switch of `ReadNextBlock` stores for the header it read. -/
def ofHeaderInfo (headerOffsetInFile : ℕ) (headerKind : AoHeaderKind) (actualHeaderLen : ℕ) :
    HeaderInfo → AppendOnlyStorageReadCurrent
  | .content info =>
    { reset with
      headerOffsetInFile
      headerKind
      actualHeaderLen
      overallBlockLen := info.overallBlockLen
      contentOffset := info.offset
      uncompressedLen := info.uncompressedLen
      executorBlockKind := info.executorBlockKind
      hasFirstRowNum := info.hasFirstRowNum
      firstRowNum := info.firstRowNum
      rowCount := info.rowCount
      isCompressed := info.isCompressed
      compressedLen := info.compressedLen }
  | .large info =>
    { reset with
      headerOffsetInFile
      headerKind
      actualHeaderLen
      uncompressedLen := info.largeContentLen
      executorBlockKind := info.executorBlockKind
      hasFirstRowNum := info.hasFirstRowNum
      firstRowNum := info.firstRowNum
      rowCount := info.largeRowCount
      isLarge := true }

/-- What `GetBlockInfo` reports of the current block. -/
def blockInfo (current : AppendOnlyStorageReadCurrent) : BlockInfo :=
  { contentLen := current.uncompressedLen, executorBlockKind := current.executorBlockKind,
    firstRowNum := current.firstRowNum, rowCount := current.rowCount,
    isLarge := current.isLarge, isCompressed := current.isCompressed }

end AppendOnlyStorageReadCurrent

/-- `AppendOnlyStorageRead`: what `GetBlockInfo` and `Content` read and change. -/
structure AppendOnlyStorageRead where
  maxBufferLen : ℕ
  storageAttributes : AppendOnlyStorageAttributes
  formatVersion : ℕ
  /-- `gp_appendonly_verify_block_checksums`. -/
  verifyBlockChecksums : Bool
  bufferedRead : BufferedRead
  current : AppendOnlyStorageReadCurrent

namespace AppendOnlyStorageRead

variable (crc : List UInt8 → UInt32)

/-- `AppendOnlyStorageRead_Init`, then `AppendOnlyStorageRead_OpenFile` on a segment file whose
bytes up to its logical end of file are `file`: the reader stands at the start of the file with
nothing read. An empty file and an invalid format version are errors. -/
def openFile (maxBufferLen : ℕ) (storageAttributes : AppendOnlyStorageAttributes)
    (verifyBlockChecksums : Bool) (file : List UInt8) (version : ℕ) :
    Except String AppendOnlyStorageRead := do
  if file.length = 0 then
    throw "append-only storage read segment file EOF must be > 0"
  AOSegfileFormatVersion.checkValid version
  pure { maxBufferLen, storageAttributes, formatVersion := version, verifyBlockChecksums,
         bufferedRead := { maxBufferLen, file, position := 0, bufferLen := 0 },
         current := .reset }

/-- `minimumHeaderLen`, as `AppendOnlyStorageRead_Init` fixes it
(`AppendOnlyStorageFormat_RegularHeaderLenNeeded`). -/
def minimumHeaderLen (r : AppendOnlyStorageRead) : ℕ :=
  AoHeader.regularSize + (if r.storageAttributes.checksum then 2 * 4 else 0)

/-- The limit on the length of the block at `headerOffsetInFile`: the block size, or what is left
of the file when that is less. -/
def blockLimitLen (r : AppendOnlyStorageRead) (headerOffsetInFile : ℕ) : ℕ :=
  let fileRemainderLen := r.bufferedRead.file.length - headerOffsetInFile
  if r.maxBufferLen > fileRemainderLen then fileRemainderLen else r.maxBufferLen

/-- `AppendOnlyStorageRead_PositionToNextBlock`: the offset of the next header and the limit on
its block, or `none` at the end of the file. -/
def positionToNextBlock (r : AppendOnlyStorageRead) :
    Except String (AppendOnlyStorageRead × Option (ℕ × ℕ)) := do
  let minimumHeaderLen := r.minimumHeaderLen
  let headerOffsetInFile := r.bufferedRead.nextBufferPosition
  let (b, availableLen) ← r.bufferedRead.getNextBuffer minimumHeaderLen
  let r := { r with bufferedRead := b }
  let some availableLen := availableLen | pure (r, none)
  if availableLen ≠ minimumHeaderLen then
    throw (s!"expected {minimumHeaderLen} bytes and got {availableLen} bytes "
      ++ s!"(header offset in file = {headerOffsetInFile})")
  if (b.currentBuffer.read 0 minimumHeaderLen).all (· == 0) then
    -- a zero padded page remainder: peek at the next buffer, once
    let headerOffsetInFile := b.nextBufferPosition
    let (b, availableLen) ← b.getNextBuffer minimumHeaderLen
    let r := { r with bufferedRead := b }
    let some availableLen := availableLen | pure (r, none)
    if availableLen ≠ minimumHeaderLen then
      throw (s!"expected {minimumHeaderLen} bytes and found {availableLen} bytes "
        ++ s!"(header offset in file = {headerOffsetInFile})")
    pure (r, some (headerOffsetInFile, r.blockLimitLen headerOffsetInFile))
  else pure (r, some (headerOffsetInFile, r.blockLimitLen headerOffsetInFile))

/-- `AppendOnlyStorageRead_ReadNextBlock`: `false` at the end of the file. -/
def readNextBlock (r : AppendOnlyStorageRead) : Except String (Bool × AppendOnlyStorageRead) := do
  let r := { r with current := .reset }
  let (r, next) ← r.positionToNextBlock
  let some (headerOffsetInFile, blockLimitLen) := next | pure (false, r)
  let header := r.bufferedRead.currentBuffer
  if r.storageAttributes.checksum && r.verifyBlockChecksums &&
      !verifyHeaderChecksum crc header then
    let storedChecksum := header.load (AoHeader.regularSize + 4) 4
    let computedChecksum := (computeHeaderChecksum crc header (AoHeader.regularSize + 4)).toNat
    throw (s!"header checksum does not match, expected {storedChecksum} and found "
      ++ s!"{computedChecksum}")
  let (headerKind, actualHeaderLen) ←
    match ← getHeaderInfo header r.storageAttributes.checksum with
    | .error checkError =>
      let code := checkError.toNat
      throw s!"bad append-only storage header, header check error {code}"
    | .ok found => pure found
  let r ← if r.minimumHeaderLen < actualHeaderLen then
      let (b, availableLen) := r.bufferedRead.growBuffer actualHeaderLen
      if availableLen ≠ actualHeaderLen then
        throw (s!"expected {actualHeaderLen} bytes and found {availableLen} bytes "
          ++ s!"(header offset in file = {headerOffsetInFile})")
      else pure { r with bufferedRead := b }
    else pure r
  let header := r.bufferedRead.currentBuffer
  let info ← match ← getContentHeaderInfo headerKind header actualHeaderLen
      r.storageAttributes.checksum blockLimitLen r.formatVersion with
    | .error checkError =>
      let code := checkError.toNat
      let desc := headerKind.desc
      throw s!"bad append-only storage header of type {desc}, header check error {code}"
    | .ok info => pure info
  pure (true, { r with current := .ofHeaderInfo headerOffsetInFile headerKind actualHeaderLen info })

/-- `AppendOnlyStorageRead_GetBlockInfo`: `false` at the end of the file. -/
def getBlockInfo (r : AppendOnlyStorageRead) :
    Except String (Bool × BlockInfo × AppendOnlyStorageRead) := do
  let (isNext, r) ← r.readNextBlock crc
  pure (isNext, r.current.blockInfo, r)

/-- `AppendOnlyStorageRead_InternalGetBuffer`: the buffer grown to the whole block, with the block
checksum checked when the table keeps checksums. -/
def internalGetBuffer (r : AppendOnlyStorageRead) : Except String (Mem × AppendOnlyStorageRead) := do
  let overallBlockLen := r.current.overallBlockLen
  let (b, availableLen) := r.bufferedRead.growBuffer overallBlockLen
  let r := { r with bufferedRead := b }
  if overallBlockLen ≠ availableLen then
    throw (s!"wrong buffer length, expected {overallBlockLen} byte length buffer and got "
      ++ s!"{availableLen}")
  let header := b.currentBuffer
  if r.storageAttributes.checksum && r.verifyBlockChecksums &&
      !verifyBlockChecksum crc false header overallBlockLen then
    let storedChecksum := header.load AoHeader.regularSize 4
    let computedChecksum :=
      (computeBlockChecksum crc header (AoHeader.regularSize + 4) overallBlockLen).toNat
    throw (s!"block checksum does not match, expected {storedChecksum} and found "
      ++ s!"{computedChecksum}")
  pure (header, r)

/-- The small branch of `AppendOnlyStorageRead_Content`: the content of the current block, through
`gp_decompress` when it is compressed. -/
def smallContent (r : AppendOnlyStorageRead) :
    Except String (List UInt8 × AppendOnlyStorageRead) := do
  let (header, r) ← r.internalGetBuffer crc
  let uncompressedLen := r.current.uncompressedLen
  if !r.current.isCompressed then
    pure (header.read r.current.contentOffset uncompressedLen, r)
  else
    let some cfns := r.storageAttributes.compression
      | throw "decompression information missing"
    let contentOut :=
      cfns.decompress (header.read r.current.contentOffset r.current.compressedLen) uncompressedLen
    let resultingUncompressedLen := contentOut.length
    if resultingUncompressedLen ≠ uncompressedLen then
      throw (s!"Uncompress returned length {resultingUncompressedLen} which is different than the "
        ++ s!"expected length {uncompressedLen}")
    pure (contentOut, r)

/-- The loop of `AppendOnlyStorageRead_Content` over the small content blocks after a large
content header, with `remainingLargeContentLen` bytes still to come and `fuel` for the blocks. -/
def readFragments : ℕ → AppendOnlyStorageRead → ℕ → ℕ →
    Except String (List UInt8 × AppendOnlyStorageRead)
  | 0, _, _, regularBlockReadCount =>
    let count := regularBlockReadCount + 1
    throw s!"unexpected end of file trying to read block {count} of large content"
  | fuel + 1, r, remainingLargeContentLen, regularBlockReadCount => do
    let regularBlockReadCount := regularBlockReadCount + 1
    let (isNext, r) ← r.readNextBlock crc
    if !isNext then
      throw (s!"unexpected end of file trying to read block {regularBlockReadCount} of large "
        ++ s!"content")
    if r.current.headerKind ≠ .SmallContent then
      throw (s!"expected header kind \x27Block\x27 for block {regularBlockReadCount} of large "
        ++ s!"content")
    let regularContentLen := r.current.uncompressedLen
    if regularContentLen > remainingLargeContentLen then
      throw (s!"too much data found after reading {regularBlockReadCount} blocks for large "
        ++ s!"content")
    let remainingLargeContentLen := remainingLargeContentLen - regularContentLen
    -- the recursive `AppendOnlyStorageRead_Content` on a small content block takes its small branch
    let (contentOut, r) ← r.smallContent crc
    if remainingLargeContentLen = 0 then pure (contentOut, r)
    else
      let (rest, r) ← readFragments fuel r remainingLargeContentLen regularBlockReadCount
      pure (contentOut ++ rest, r)

/-- `AppendOnlyStorageRead_Content`: the content of the current block, or of the large content
whose header it is. -/
def content (r : AppendOnlyStorageRead) : Except String (List UInt8 × AppendOnlyStorageRead) :=
  if r.current.isLarge then
    readFragments crc r.bufferedRead.file.length r r.current.uncompressedLen 0
  else r.smallContent crc

end AppendOnlyStorageRead

end Cloudberry.AppendOnly
