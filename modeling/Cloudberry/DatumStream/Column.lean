import Cloudberry.DatumStream.OrigRead
import Cloudberry.AppendOnly.StorageWrite
import Cloudberry.AppendOnly.StorageRead

/-!
# A column of an append-only column-oriented table

`datumstream.c` keeps each column of a table in a segment file of its own. `DatumStreamWrite`
puts the column's values into a datum stream block (`datumstreamwrite_put`), writes a block out
as the content of an append-only storage block (`datumstreamwrite_block`), and writes a varlena
that not even an empty block takes as a large object, in a block of its own
(`datumstreamwrite_lob`). `aocs_insert_values` drives it row after row: a value the block refuses
goes into a new block once the old one is written, and out as a large object when the new block
refuses it too.

`DatumStreamRead` reads the blocks back in turn: `datumstreamread_block` asks for the next block's
info, takes its content and gets the datum stream block reader ready on it;
`datumstreamread_advance` and `datumstreamread_get` step through its values, or through the one
value of a large object. The column's part of `aocs_getnext` (`scanNext`) reads the next block
whenever the current one is exhausted.

The Original datum stream version is modelled, without file encryption; the entries the writer
and the reader add to the block directory are left out.
-/

namespace Cloudberry

namespace AppendOnly.AppendOnlyStorageRead

variable (crc : List UInt8 → UInt32)

/-- `AppendOnlyStorageRead_GetBuffer`: the content of the current block where it is in the buffer,
as many bytes as the block info reports, for a small block that is not compressed. -/
def getBuffer (r : AppendOnlyStorageRead) : Except String (List UInt8 × AppendOnlyStorageRead) := do
  let (header, r) ← r.internalGetBuffer crc
  pure (header.read r.current.contentOffset r.current.uncompressedLen, r)

end AppendOnly.AppendOnlyStorageRead

namespace DatumStream.Orig

open AppendOnly

/-- `AOCSBK`: what an append-only storage block of a column holds, as its executor block kind. -/
inductive AOCSBK
  | None
  | BLOCK
  | BLOB
  deriving DecidableEq, Repr

/-- The value of an `AOCSBK` in a block header. -/
def AOCSBK.toNat : AOCSBK → ℕ
  | .None => 0
  | .BLOCK => 1
  | .BLOB => 2

/-! ## The writer -/

/-- The fields of `DatumStreamWrite` that the Original version uses. Its type is the block
writer's, which points to it. -/
structure DatumStreamWrite where
  aoWrite : AppendOnlyStorageWrite
  blockFirstRowNum : Int64
  blockWrite : DatumStreamBlockWrite

namespace DatumStreamWrite

variable (crc : List UInt8 → UInt32)

/-- `datumstreamwrite_block_orig`: the block, written by `DatumStreamBlockWrite_Block` into the
buffer of a small content block that keeps the block's first row number, and the block writer got
ready for the next one. Returns the size written. -/
def blockOrig (acc : DatumStreamWrite) : Except String (ℕ × DatumStreamWrite) := do
  let aoWrite := acc.aoWrite.setFirstRowNum acc.blockFirstRowNum
  let rowCount := acc.blockWrite.nth
  let aoWrite ← aoWrite.getBuffer .SmallContent
  let buffer ← acc.blockWrite.blockOrig
  let aoWrite ← aoWrite.finishBuffer crc buffer AOCSBK.BLOCK.toNat rowCount
  pure (buffer.length, { acc with aoWrite, blockWrite := acc.blockWrite.getReady })

/-- `datumstreamwrite_block`: nothing for an empty block. -/
def block (acc : DatumStreamWrite) : Except String (ℕ × DatumStreamWrite) :=
  if acc.blockWrite.nth = 0 then pure (0, acc) else acc.blockOrig crc

/-- `datumstreamwrite_lob`: a varlena written as the content of a block of its own, its row count
one. Returns its size. -/
def lob (acc : DatumStreamWrite) (d : Datum) : Except String (ℕ × DatumStreamWrite) := do
  if acc.blockWrite.typeInfo.datumlen ≥ 0 then
    throw "Large object must be variable length objects (varlena)"
  -- `VARATT_IS_EXTENDED`; the de-toasting of an external datum after it is never reached
  if !varattIs4BU d.pointee then
    throw ("Expected large object / variable length objects (varlena) to be de-toasted and/or " ++
      "de-compressed at this point")
  let varLen := varsizeAny d.pointee
  let aoWrite := acc.aoWrite.setFirstRowNum acc.blockFirstRowNum
  let aoWrite ← aoWrite.content crc (d.pointee.take varLen) AOCSBK.BLOB.toNat 1
  pure (varLen, { acc with aoWrite })

/-- What `aocs_insert_values` does for the column in the row after `lastSequence`: the value into
the block; when the block refuses it, the block written and the value into the next one; when
that refuses it too, the value written as a large object. -/
def insertValue (acc : DatumStreamWrite) (lastSequence : Int64) (d : Datum) (null : Bool) :
    Except String DatumStreamWrite := do
  let (err, blockWrite) ← acc.blockWrite.putOrig d null
  let acc := { acc with blockWrite }
  if err < 0 then
    let itemCount := acc.blockWrite.nth
    let (_, acc) ← acc.block crc
    -- the value's row starts the next block
    let acc := if itemCount > 0 then { acc with blockFirstRowNum := lastSequence + 1 } else acc
    let (err, blockWrite) ← acc.blockWrite.putOrig d null
    let acc := { acc with blockWrite }
    if err < 0 then
      let (_, acc) ← acc.lob crc d
      -- the large object is alone in its block
      pure { acc with blockFirstRowNum := lastSequence + 2 }
    else pure acc
  else pure acc

/-- The column's values inserted row after row, the first in the row after `lastSequence`. -/
def insertValues : DatumStreamWrite → Int64 → List (Datum × Bool) →
    Except String DatumStreamWrite
  | acc, _, [] => pure acc
  | acc, lastSequence, (d, null) :: vals => do
    let acc ← acc.insertValue crc lastSequence d null
    insertValues acc (lastSequence + 1) vals

/-- The column's part of `aocs_insert_finish`: the last block written. -/
def finish (acc : DatumStreamWrite) : Except String DatumStreamWrite := do
  let (_, acc) ← acc.block crc
  pure acc

end DatumStreamWrite

/-! ## The reader -/

/-- `DatumStreamLargeObjectState`: where the reader is in a large object. -/
inductive DatumStreamLargeObjectState
  | None
  | HaveAoContent
  | PositionAdvanced
  | Consumed
  | Exhausted
  deriving DecidableEq, Repr

/-- The fields of `DatumStreamRead` that the Original version uses. Its type is the block
reader's copy. -/
structure DatumStreamRead where
  blockFirstRowNum : Int64
  blockRowCount : ℤ
  aoRead : AppendOnlyStorageRead
  getBlockInfo : BlockInfo
  /-- The bytes from `buffer_beginp` on: the current block's content. -/
  bufferBeginp : List UInt8
  largeObjectState : DatumStreamLargeObjectState
  blockRead : DatumStreamBlockRead

namespace DatumStreamRead

variable (crc : List UInt8 → UInt32)

/-- `create_datumstreamread` and `datumstreamread_open_file`: no block read yet, the first row
number `1`. -/
def init (typeInfo : DatumStreamTypeInfo) (aoRead : AppendOnlyStorageRead) : DatumStreamRead :=
  { blockFirstRowNum := 1, blockRowCount := 0, aoRead,
    getBlockInfo := ⟨0, 0, 0, 0, false, false⟩, bufferBeginp := [], largeObjectState := .None,
    blockRead := ⟨typeInfo, [], 0, 0, 0, 0, false, .init [] 0, 0, 0⟩ }

/-- `datumstreamread_advancelarge`: the large object once, then nothing. -/
def advanceLarge (acc : DatumStreamRead) : Except String (ℤ × DatumStreamRead) :=
  let acc := { acc with blockRead := { acc.blockRead with nth := acc.blockRead.nth + 1 } }
  match acc.largeObjectState with
  | .HaveAoContent => pure (varsizeAny acc.bufferBeginp, { acc with largeObjectState := .PositionAdvanced })
  | .PositionAdvanced | .Consumed => pure (0, { acc with largeObjectState := .Exhausted })
  | .Exhausted => throw "Advance called after large datum stream object already consumed"
  | .None => throw "Unexpected large datum stream state 0"

/-- `datumstreamread_advance`. -/
def advance (acc : DatumStreamRead) : Except String (ℤ × DatumStreamRead) :=
  if acc.largeObjectState = .None then
    let (found, blockRead) := acc.blockRead.advanceOrig
    pure (found, { acc with blockRead })
  else acc.advanceLarge

/-- `datumstreamread_getlarge`: the large object, as the address of the content read. -/
def getLarge (acc : DatumStreamRead) : Except String (Option Datum × DatumStreamRead) :=
  match acc.largeObjectState with
  | .HaveAoContent => throw "Advance not called on large datum stream object"
  | .PositionAdvanced => pure (some ⟨0, acc.bufferBeginp⟩, { acc with largeObjectState := .Consumed })
  | .Consumed => pure (some ⟨0, acc.bufferBeginp⟩, acc)
  | .Exhausted => throw "Get called after large datum stream object already consumed"
  | .None => throw "Unexpected large datum stream state 0"

/-- `datumstreamread_get`: `none` for a NULL. -/
def get (acc : DatumStreamRead) : Except String (Option Datum × DatumStreamRead) :=
  if acc.largeObjectState = .None then pure (acc.blockRead.get, acc) else acc.getLarge

/-- `datumstreamread_block_get_ready`: the block reader ready on a block of datums, with the row
count it adjusted to. -/
def blockGetReady (acc : DatumStreamRead) : Except String DatumStreamRead := do
  let kind := acc.getBlockInfo.executorBlockKind
  if kind = AOCSBK.BLOCK.toNat then
    let (blockRead, hadToAdjustRowCount, adjustedRowCount) ← acc.blockRead.getReadyOrig
      acc.bufferBeginp acc.getBlockInfo.firstRowNum acc.getBlockInfo.rowCount
    let acc := { acc with blockRead }
    pure (if hadToAdjustRowCount then { acc with blockRowCount := adjustedRowCount } else acc)
  else if kind = AOCSBK.BLOB.toNat then pure acc
  else throw s!"Unexpected Append-Only Column Store executor kind {kind}"

/-- `datumstreamread_block_content`: the block's content, decompressed into the reader's own
buffer or where it is in the storage reader's; a large object's content always copied. -/
def blockContent (acc : DatumStreamRead) : Except String DatumStreamRead := do
  let acc := { acc with blockRead := acc.blockRead.resetOrig, largeObjectState := .None }
  let kind := acc.getBlockInfo.executorBlockKind
  let acc ← if kind = AOCSBK.BLOCK.toNat then
      if acc.getBlockInfo.isCompressed then do
        let (content, aoRead) ← acc.aoRead.content crc
        pure { acc with aoRead, bufferBeginp := content }
      else do
        let (content, aoRead) ← acc.aoRead.getBuffer crc
        pure { acc with aoRead, bufferBeginp := content }
    else if kind = AOCSBK.BLOB.toNat then do
      if acc.blockRead.typeInfo.datumlen ≥ 0 then
        throw "Large object must be variable length objects (varlena)"
      let (content, aoRead) ← acc.aoRead.content crc
      pure { acc with aoRead, bufferBeginp := content, largeObjectState := .HaveAoContent }
    else throw s!"Unexpected Append-Only Column Store executor kind {kind}"
  acc.blockGetReady

/-- `datumstreamread_block`: the next block read and got ready, `-1` at the end of the segment
file. A block whose header keeps no first row number starts after the rows of the one before. -/
def block (acc : DatumStreamRead) : Except String (ℤ × DatumStreamRead) := do
  let acc := { acc with blockFirstRowNum := acc.blockFirstRowNum + Int64.ofInt acc.blockRowCount }
  let (readOK, info, aoRead) ← acc.aoRead.getBlockInfo crc
  let acc := { acc with getBlockInfo := info, aoRead }
  if !readOK then return (-1, acc)
  let acc := if info.firstRowNum ≥ 0 then { acc with blockFirstRowNum := info.firstRowNum } else acc
  let acc := { acc with blockRowCount := info.rowCount }
  let acc ← acc.blockContent crc
  pure (0, acc)

/-- The column's part of `aocs_getnext`: the next value, after reading the next block when the
current one is exhausted; nothing when the segment file has no block left. -/
def scanNext (acc : DatumStreamRead) :
    Except String (Option (Option Datum) × DatumStreamRead) := do
  let (err, acc) ← acc.advance
  if err = 0 then
    let (err, acc) ← acc.block crc
    if err < 0 then return (none, acc)
    let (_, acc) ← acc.advance
    let (d, acc) ← acc.get
    return (some d, acc)
  let (d, acc) ← acc.get
  return (some d, acc)

end DatumStreamRead

end DatumStream.Orig

end Cloudberry
