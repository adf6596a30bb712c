import Cloudberry.Lib.BitField
import Cloudberry.Lib.ByteMem
import Cloudberry.Lib.MachineInt

/-!
# VarBlock: a block of variable-length items

`cdbvarblock.c` packs a sequence of byte strings (the tuples of an append-only block) into one
buffer: an eight-byte header, the items one after the other, a zero byte to make their length
even, then an array holding the offset of every item, as 2-byte integers while every item starts
within the first 63 KB and as packed 3-byte integers otherwise, padded to an even length.

The maker hands out a pointer for each new item and keeps the offsets in a separate scratch space,
widening them in place to 3 bytes the first time an item would start past 63 KB; `Finish` copies
them after the items. Whether an item still fits is tested on `int32` sums, which wrap
(`VarBlockMaker.newTotalLenExceeds`). The reader recomputes the position of the offset array from the header.

The buffer and the scratch space are byte memories (`ByteMem.Mem`), addressed from the start of
the buffer and of the scratch space; a pointer of the C code is an offset into them. The header
words are read and written through the `VarBlockGet_*` and `VarBlockSet_*` macros, as
`BitField.Field`s.
-/

namespace Cloudberry.VarBlock

open BitField ByteMem

/-! ## The header -/

/-- `VARBLOCK_HEADER_LEN`: two 32-bit words. -/
def varblockHeaderLen : ℕ := 8

/-- `VARBLOCK_BYTE_OFFSET_24_LEN`. -/
def varblockByteOffset24Len : ℕ := 3

/-- `InitialVersion`, the only version. -/
def initialVersion : ℕ := 1

namespace VarBlockHeader

/-- `VarBlockGet_offsetsAreSmall`: the top bit of the first word, read without a mask. -/
def getOffsetsAreSmall (w : ℕ) : ℕ := w >>> 31

/-- `VarBlockSet_offsetsAreSmall`. -/
def offsetsAreSmall : Field := ⟨0x80000000, 31, 1, by decide⟩

/-- `VarBlockGet_reserved`. -/
def reserved : Field := ⟨0x7C000000, 26, 5, by decide⟩

/-- `VarBlock*_version`. -/
def version : Field := ⟨0x03000000, 24, 2, by decide⟩

/-- `VarBlock*_itemLenSum`: the total length of the items. -/
def itemLenSum : Field := ⟨0x00FFFFFF, 0, 24, by decide⟩

/-- `VarBlockGet_moreReserved`, in the second word. -/
def moreReserved : Field := ⟨0xFF000000, 24, 8, by decide⟩

/-- `VarBlock*_itemCount`, in the second word. -/
def itemCount : Field := ⟨0x00FFFFFF, 0, 24, by decide⟩

end VarBlockHeader

open VarBlockHeader

/-- The first header word of a buffer. -/
def bytes03 (buffer : Mem) : ℕ := buffer.load 0 4

/-- The second header word of a buffer. -/
def bytes47 (buffer : Mem) : ℕ := buffer.load 4 4

/-- The C idiom `((n + 1) / 2) * 2` that pads a length to an even one. -/
def roundUpEven (n : ℕ) : ℕ := (n + 1) / 2 * 2

/-! ## The maker -/

/-- `VarBlockMaker`, with the buffer and the scratch space it writes. -/
structure VarBlockMaker where
  buffer : Mem
  maxBufferLen : ℕ
  currentItemLenSum : ℕ
  tempScratchSpace : Mem
  tempScratchSpaceLen : ℕ
  nextItemPtr : ℕ
  last2ByteOffsetPtr : ℕ
  currentItemCount : ℕ
  maxItemCount : ℕ

namespace VarBlockMaker

/-- `VarBlockMakerInit`: a zeroed header of the initial version with small offsets; at most
`tempScratchSpaceLen / 2` items of two-byte offsets. -/
def init (buffer : Mem) (maxBufferLen : ℕ) (tempScratchSpace : Mem)
    (tempScratchSpaceLen : ℕ) : VarBlockMaker :=
  let buffer := buffer.write 0 (List.replicate varblockHeaderLen 0)
  let buffer := buffer.update 0 4 fun w => version.set 0xFCFFFFFF w initialVersion
  let buffer := buffer.update 0 4 fun w => offsetsAreSmall.setFlag 0x7FFFFFFF w true
  { buffer
    maxBufferLen
    currentItemLenSum := 0
    tempScratchSpace
    tempScratchSpaceLen
    nextItemPtr := varblockHeaderLen
    last2ByteOffsetPtr := 63 * 1024
    currentItemCount := 0
    maxItemCount := tempScratchSpaceLen / 2 }

/-- The state after an item of `itemLen` bytes is given the pointer `nextItemPtr`. -/
def accept (st : VarBlockMaker) (itemLen : ℕ) : VarBlockMaker :=
  { st with
    nextItemPtr := st.nextItemPtr + itemLen
    currentItemCount := st.currentItemCount + 1
    currentItemLenSum := st.currentItemLenSum + itemLen }

/-- `newTotalLen > varBlockMaker->maxBufferLen` as `VarBlockMakerGetNextItemPtr` tests it, for an
item of `itemLen` bytes and an offset array of `offsetArrayLen` bytes: `newItemLenSum`, its
rounding up to an even length and `newTotalLen` are `VarBlockByteLen`s, `int32`s that wrap past
`INT32_MAX` (the server is built with `-fwrapv`), and the division truncates. -/
def newTotalLenExceeds (st : VarBlockMaker) (itemLen offsetArrayLen : ℕ) : Bool :=
  let newItemLenSum := Int32.ofNat st.currentItemLenSum + Int32.ofNat itemLen
  let newTotalLen :=
    Int32.ofNat varblockHeaderLen + (newItemLenSum + 1) / 2 * 2 + Int32.ofNat offsetArrayLen
  decide (newTotalLen > Int32.ofNat st.maxBufferLen)

/-- `VarBlockMakerGetNextItemPtr`: the offset at which the caller writes the next item, or
`none` (`NULL`) when the item does not fit, with the maker's new state. The first item that would
start past `last2ByteOffsetPtr` switches the offsets to three bytes, widening those already in the
scratch space. -/
def getNextItemPtr (st : VarBlockMaker) (itemLen : ℕ) : Option ℕ × VarBlockMaker :=
  let currentItemCount := st.currentItemCount
  if currentItemCount ≥ st.maxItemCount then (none, st) else
  let nextItemOffset := st.nextItemPtr
  if getOffsetsAreSmall (bytes03 st.buffer) ≠ 0 then
    if st.nextItemPtr > st.last2ByteOffsetPtr then
      let offsetArrayLenRounded := roundUpEven ((currentItemCount + 1) * varblockByteOffset24Len)
      if st.newTotalLenExceeds itemLen offsetArrayLenRounded then (none, st) else
      let newMaxItemCount := st.tempScratchSpaceLen / varblockByteOffset24Len
      if currentItemCount ≥ newMaxItemCount then (none, st) else
      let buffer := st.buffer.update 0 4 fun w => offsetsAreSmall.setFlag 0x7FFFFFFF w false
      -- the two-byte offsets become three-byte ones, from the last down
      let scratch := st.tempScratchSpace.widenDown 2 varblockByteOffset24Len currentItemCount
      let scratch :=
        scratch.store (currentItemCount * varblockByteOffset24Len) varblockByteOffset24Len
          nextItemOffset
      (some st.nextItemPtr,
        accept { st with buffer, maxItemCount := newMaxItemCount, tempScratchSpace := scratch }
          itemLen)
    else
      if st.newTotalLenExceeds itemLen (currentItemCount * 2 + 2) then (none, st) else
      (some st.nextItemPtr,
        accept { st with
          tempScratchSpace := st.tempScratchSpace.store (currentItemCount * 2) 2 nextItemOffset }
          itemLen)
  else
    let offsetArrayLenRounded := roundUpEven ((currentItemCount + 1) * varblockByteOffset24Len)
    if st.newTotalLenExceeds itemLen offsetArrayLenRounded then (none, st) else
    (some st.nextItemPtr,
      accept { st with
        tempScratchSpace := st.tempScratchSpace.store (currentItemCount * varblockByteOffset24Len)
          varblockByteOffset24Len nextItemOffset }
        itemLen)

/-- `VarBlockMakerFinish` (file encryption off): the offsets go after the items padded to an even
length, the header gets the length sum and the count, and the offset array is padded to an even
length. Returns the length of the block and the buffer. -/
def finish (st : VarBlockMaker) : ℕ × Mem :=
  let itemCount := st.currentItemCount
  let itemLenSum := st.currentItemLenSum
  let offsetToOffsetArray := varblockHeaderLen + roundUpEven itemLenSum
  let multiplier := if getOffsetsAreSmall (bytes03 st.buffer) ≠ 0 then 2
    else varblockByteOffset24Len
  let buffer := st.buffer.write offsetToOffsetArray
    (st.tempScratchSpace.read 0 (itemCount * multiplier))
  let buffer := buffer.write (varblockHeaderLen + itemLenSum)
    (List.replicate (offsetToOffsetArray - (varblockHeaderLen + itemLenSum)) 0)
  let buffer := buffer.update 0 4 fun w => VarBlockHeader.itemLenSum.set 0xFF000000 w itemLenSum
  let buffer := buffer.update 4 4 fun w => VarBlockHeader.itemCount.set 0xFF000000 w itemCount
  let offsetArrayLen := itemCount * multiplier
  let offsetArrayLenRounded := roundUpEven offsetArrayLen
  let buffer := buffer.write (offsetToOffsetArray + offsetArrayLen)
    (List.replicate (offsetArrayLenRounded - offsetArrayLen) 0)
  (offsetToOffsetArray + offsetArrayLenRounded, buffer)

end VarBlockMaker

/-! ## Checking a block -/

/-- `VarBlockCheckError`. -/
inductive VarBlockCheckError
  | Ok
  | BadVersion
  | ReservedNot0
  | MoreReservedNot0
  | ItemSumLenBad1
  | ItemSumLenBad2
  | ZeroPadBad1
  | ZeroPadBad2
  | ItemCountBad1
  | ItemCountBad2
  | OffsetBad1
  | OffsetBad2
  | OffsetBad3
  deriving DecidableEq, Repr

/-- `VarBlockGetOffset`: the offset of item `itemIndex`, from the array at `offsetToOffsetArray`. -/
def getOffset (buffer : Mem) (offsetToOffsetArray itemIndex : ℕ) : ℕ :=
  if getOffsetsAreSmall (bytes03 buffer) ≠ 0 then
    buffer.load (offsetToOffsetArray + 2 * itemIndex) 2
  else
    buffer.load (offsetToOffsetArray + itemIndex * varblockByteOffset24Len) varblockByteOffset24Len

/-- `VarBlockHeaderIsValid`. -/
def headerIsValid (buffer : Mem) : VarBlockCheckError :=
  if version.get (bytes03 buffer) ≠ initialVersion then .BadVersion
  else if reserved.get (bytes03 buffer) ≠ 0 then .ReservedNot0
  else if moreReserved.get (bytes47 buffer) ≠ 0 then .MoreReservedNot0
  else .Ok

/-- The loop of `VarBlockIsValid` that requires the bytes `[a, b)` to be zero. -/
def zeroPadOk (buffer : Mem) (a b : ℕ) : Bool :=
  (buffer.read a (b - a)).all (· == 0)

/-- The loop of `VarBlockIsValid` over the offsets `i, …, itemCount - 1` after `prevOffset`: each
at least the one before it and at most the end of the items. -/
def checkOffsets (buffer : Mem) (offsetToOffsetArray itemLenSum itemCount : ℕ) (i prevOffset : ℕ) :
    VarBlockCheckError :=
  if i < itemCount then
    let offset := getOffset buffer offsetToOffsetArray i
    if offset < prevOffset then .OffsetBad2
    else if offset > itemLenSum + varblockHeaderLen then .OffsetBad3
    else checkOffsets buffer offsetToOffsetArray itemLenSum itemCount (i + 1) offset
  else .Ok
termination_by itemCount - i

/-- `VarBlockIsValid`. -/
def isValid (buffer : Mem) (bufferLen : ℕ) : VarBlockCheckError :=
  match headerIsValid buffer with
  | .Ok =>
    let itemLenSum := VarBlockHeader.itemLenSum.get (bytes03 buffer)
    if itemLenSum ≥ bufferLen then .ItemSumLenBad1 else
    let offsetToOffsetArray := varblockHeaderLen + roundUpEven itemLenSum
    if offsetToOffsetArray > bufferLen then .ItemSumLenBad2 else
    if !zeroPadOk buffer (varblockHeaderLen + itemLenSum) offsetToOffsetArray then .ZeroPadBad1
    else
    let itemCount := VarBlockHeader.itemCount.get (bytes47 buffer)
    if itemCount = 0 then
      if offsetToOffsetArray ≠ bufferLen then .ItemCountBad1 else .Ok
    else
      let multiplier := if getOffsetsAreSmall (bytes03 buffer) ≠ 0 then 2
        else varblockByteOffset24Len
      let actualOffsetArrayLenRounded := bufferLen - offsetToOffsetArray
      let calculatedOffsetArrayLen := itemCount * multiplier
      let calculatedOffsetArrayLenRounded := roundUpEven calculatedOffsetArrayLen
      if actualOffsetArrayLenRounded ≠ calculatedOffsetArrayLenRounded then .ItemCountBad2 else
      let offset := getOffset buffer offsetToOffsetArray 0
      if offset ≠ varblockHeaderLen then .OffsetBad1 else
      match checkOffsets buffer offsetToOffsetArray itemLenSum itemCount 1 offset with
      | .Ok =>
        if !zeroPadOk buffer (offsetToOffsetArray + calculatedOffsetArrayLen)
            (offsetToOffsetArray + calculatedOffsetArrayLenRounded) then .ZeroPadBad2
        else .Ok
      | e => e
  | e => e

/-! ## The reader -/

/-- `VarBlockReader`, with the buffer it reads. -/
structure VarBlockReader where
  buffer : Mem
  bufferLen : ℕ
  nextIndex : ℕ
  nextItemPtr : ℕ
  offsetToOffsetArray : ℕ

namespace VarBlockReader

/-- `VarBlockReaderInit` (no decryption): the offset array follows the items, padded to an even
length. -/
def init (buffer : Mem) (bufferLen : ℕ) : VarBlockReader :=
  let itemLenSum := VarBlockHeader.itemLenSum.get (bytes03 buffer)
  { buffer
    bufferLen
    nextIndex := 0
    nextItemPtr := varblockHeaderLen
    offsetToOffsetArray := varblockHeaderLen + roundUpEven itemLenSum }

/-- `VarBlockReaderItemCount`. -/
def itemCount (r : VarBlockReader) : ℕ := VarBlockHeader.itemCount.get (bytes47 r.buffer)

/-- `VarBlockGetItemPtrAndLen`: where item `itemIndex` starts and how long it is; the last item
runs to the end of the items. -/
def getItemPtrAndLen (r : VarBlockReader) (itemIndex : ℕ) : ℕ × ℕ :=
  let offset := getOffset r.buffer r.offsetToOffsetArray itemIndex
  if itemIndex < r.itemCount - 1 then
    (offset, getOffset r.buffer r.offsetToOffsetArray (itemIndex + 1) - offset)
  else
    (offset, varblockHeaderLen + VarBlockHeader.itemLenSum.get (bytes03 r.buffer) - offset)

/-- `VarBlockGetItemLen`. -/
def getItemLen (r : VarBlockReader) (itemIndex : ℕ) : ℕ := (r.getItemPtrAndLen itemIndex).2

/-- `VarBlockReaderGetNextItemPtr`: the pointer and length of the next item, or `none` after the
last. -/
def getNextItemPtr (r : VarBlockReader) : Option (ℕ × ℕ) × VarBlockReader :=
  if r.nextIndex ≥ r.itemCount then (none, r) else
  let itemLen := r.getItemLen r.nextIndex
  (some (r.nextItemPtr, itemLen),
    { r with nextItemPtr := r.nextItemPtr + itemLen, nextIndex := r.nextIndex + 1 })

/-- `VarBlockReaderGetItemPtr`. -/
def getItemPtr (r : VarBlockReader) (itemIndex : ℕ) : ℕ × ℕ := r.getItemPtrAndLen itemIndex

/-- The items that `m` successive `VarBlockReaderGetNextItemPtr` calls return, read from the
buffer; `none` for a call that returns `NULL`. -/
def nextItems (r : VarBlockReader) : ℕ → List (Option (List UInt8))
  | 0 => []
  | m + 1 =>
    match r.getNextItemPtr with
    | (some (p, len), r') => some (r.buffer.read p len) :: r'.nextItems m
    | (none, r') => none :: r'.nextItems m

end VarBlockReader

/-- `VarBlockCollapseToSingleItem` (file encryption off): the only item of the block in `source`
is moved to the start of `target`; returns its length. When `target` is `source`, as the caller
has it, the move reads the item before it writes, as `memmove` does. -/
def collapseToSingleItem (target source : Mem) (sourceLen : ℕ) : ℕ × Mem :=
  let r := VarBlockReader.init source sourceLen
  let (itemPtr, itemLen) := r.getItemPtr 0
  (itemLen, target.write 0 (source.read itemPtr itemLen))

end Cloudberry.VarBlock
