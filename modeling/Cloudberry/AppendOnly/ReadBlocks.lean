import Cloudberry.AppendOnly.StorageRead
import Cloudberry.AppendOnly.Block

/-!
# Reading the blocks back

What the reader of `cdbappendonlystorageread.c` does at each kind of block of `Block.lean`, from
any file that holds the block where the reader's next buffer starts. A small content block is
read by `ReadNextBlock` as a small content block holding the content
(`readNextBlock_smallContentBlockAt`), and `AppendOnlyStorageRead_Content` gives the content back
and leaves the reader just past the block (`smallContent_of_block`). A large content header is read
as the announcement of its content (`readNextBlock_largeContentHeaderAt`), and the reassembly loop
then reads exactly the fragment blocks that follow it and returns their pieces put together
(`readFragments_spec`).

The reader never changes its file or its settings (`SameFile`); the statements say where its buffer
stands after each block, which is what lets the next block be read.

* `read_smallContentBlock`, `read_largeContentBlocks`: a block, or a large content header and its
  fragments, read from the start, with what `GetBlockInfo` reports of it.
-/

namespace Cloudberry.AppendOnly

open ByteMem AppendOnlyStorageFormat

/-! ## The bytes after a position -/

/-- The file as a memory from position `p` on: what the buffer of a reader standing at `p` sees. -/
def bufferAt (file : List UInt8) (p : ℕ) : Mem := fun i => file.getD (p + i) 0

/-- The file holds the bytes `B` from position `p` on. -/
def BytesAt (file : List UInt8) (p : ℕ) (B : List UInt8) : Prop := B <+: file.drop p

namespace BytesAt

variable {file B₁ B₂ B : List UInt8} {p : ℕ}

theorem left (h : BytesAt file p (B₁ ++ B₂)) : BytesAt file p B₁ :=
  (List.prefix_append B₁ B₂).trans h

theorem right (h : BytesAt file p (B₁ ++ B₂)) : BytesAt file (p + B₁.length) B₂ := by
  obtain ⟨t, ht⟩ := h
  refine ⟨t, ?_⟩
  rw [← List.drop_drop, ← ht, List.append_assoc, List.drop_left]

/-- What is appended to a file of length `|F|` lies at `|F|` in every file that extends it. -/
theorem of_prefix {F : List UInt8} (h : F ++ B <+: file) : BytesAt file F.length B := by
  obtain ⟨t, ht⟩ := h
  refine ⟨t, ?_⟩
  rw [← ht, List.append_assoc, List.drop_left]

theorem add_length_le (h : BytesAt file p B) (hne : B ≠ []) : p + B.length ≤ file.length := by
  have hle := h.length_le
  have hpos := List.length_pos_iff.mpr hne
  rw [List.length_drop] at hle
  omega

/-- The file seen from `p` on, as the reader's buffer sees it, holds `B` where it starts. -/
theorem getD_eq (h : BytesAt file p B) {i : ℕ} (hi : i < B.length) :
    file.getD (p + i) 0 = B[i] := by
  have hlt : i < (file.drop p).length := lt_of_lt_of_le hi h.length_le
  rw [h.getElem hi, List.getElem_drop, List.getD_eq_getElem]

/-- Bytes that a memory holds from `0` on, found in the file at `p`. -/
theorem agrees {m : Mem} (h : BytesAt file p B) (hB : B = m.read 0 B.length) :
    ∀ i < B.length, bufferAt file p i = m i := by
  intro i hi
  rw [bufferAt, h.getD_eq hi, List.getElem_of_eq hB hi, getElem_read, Nat.zero_add]

end BytesAt

/-! ## Buffers -/

namespace BufferedRead

theorem getNextBuffer_of_le {b : BufferedRead} {k : ℕ} (hk : k ≤ b.maxBufferLen) (h0 : 0 < k)
    (hlen : b.nextBufferPosition + k ≤ b.file.length) :
    b.getNextBuffer k =
      .ok ({ b with position := b.nextBufferPosition, bufferLen := k }, some k) := by
  have hmin : min k (b.file.length - b.nextBufferPosition) = k := by omega
  simp only [getNextBuffer, if_neg (Nat.not_lt.mpr hk), if_neg (show ¬ b.file.length ≤
    b.nextBufferPosition by omega), hmin]

theorem getNextBuffer_of_end {b : BufferedRead} {k : ℕ} (hk : k ≤ b.maxBufferLen)
    (hend : b.file.length ≤ b.nextBufferPosition) :
    b.getNextBuffer k = .ok ({ b with position := b.nextBufferPosition, bufferLen := 0 }, none) := by
  simp only [getNextBuffer, if_neg (Nat.not_lt.mpr hk), if_pos hend]

theorem growBuffer_of_le {b : BufferedRead} {k : ℕ} (hlen : b.position + k ≤ b.file.length) :
    b.growBuffer k = ({ b with bufferLen := k }, k) := by
  have hmin : min k (b.file.length - b.position) = k := by omega
  simp only [growBuffer, hmin]


theorem currentBuffer_eq (b : BufferedRead) : b.currentBuffer = bufferAt b.file b.position := rfl

end BufferedRead

/-- A block's header lies inside the block. -/
theorem SmallContentBlockAt.size_le {crc : List UInt8 → UInt32}
    {attrs : AppendOnlyStorageAttributes} {version : ℕ} {m : Mem} {B content : List UInt8}
    {executorBlockKind rowCount compressedLen : ℕ} {hasFirstRowNum : Bool} {firstRowNum : Int64}
    (hblock : SmallContentBlockAt crc attrs version m B content executorBlockKind rowCount
      hasFirstRowNum firstRowNum compressedLen) :
    AoHeader.size false attrs.checksum hasFirstRowNum ≤ B.length := by
  rw [hblock.length_eq]
  exact Nat.le_add_right _ _

/-! ## The reader -/

namespace AppendOnlyStorageReadCurrent

variable (headerOffsetInFile : ℕ) (headerKind : AoHeaderKind) (actualHeaderLen : ℕ)

@[simp] theorem ofHeaderInfo_headerKind (info : HeaderInfo) :
    (ofHeaderInfo headerOffsetInFile headerKind actualHeaderLen info).headerKind = headerKind := by
  cases info <;> rfl

@[simp] theorem ofHeaderInfo_content_uncompressedLen (info : ContentHeaderInfo) :
    (ofHeaderInfo headerOffsetInFile headerKind actualHeaderLen (.content info)).uncompressedLen =
      info.uncompressedLen := rfl

@[simp] theorem ofHeaderInfo_content_isLarge (info : ContentHeaderInfo) :
    (ofHeaderInfo headerOffsetInFile headerKind actualHeaderLen (.content info)).isLarge =
      false := rfl

@[simp] theorem ofHeaderInfo_large_uncompressedLen (info : LargeContentHeaderInfo) :
    (ofHeaderInfo headerOffsetInFile headerKind actualHeaderLen (.large info)).uncompressedLen =
      info.largeContentLen := rfl

@[simp] theorem ofHeaderInfo_large_isLarge (info : LargeContentHeaderInfo) :
    (ofHeaderInfo headerOffsetInFile headerKind actualHeaderLen (.large info)).isLarge = true := rfl

end AppendOnlyStorageReadCurrent

@[simp] theorem smallContentInfo_uncompressedLen (attrs : AppendOnlyStorageAttributes)
    (overallBlockLen : ℕ) (content : List UInt8) (executorBlockKind rowCount : ℕ)
    (hasFirstRowNum : Bool) (firstRowNum : Int64) (compressedLen : ℕ) :
    (smallContentInfo attrs overallBlockLen content executorBlockKind rowCount hasFirstRowNum
      firstRowNum compressedLen).uncompressedLen = content.length := rfl

namespace AppendOnlyStorageRead

variable (crc : List UInt8 → UInt32)

/-- Two readers of one file with the same settings: only where they stand and what they have read
differ. -/
structure SameFile (r r' : AppendOnlyStorageRead) : Prop where
  maxBufferLen_eq : r'.maxBufferLen = r.maxBufferLen
  storageAttributes_eq : r'.storageAttributes = r.storageAttributes
  formatVersion_eq : r'.formatVersion = r.formatVersion
  verifyBlockChecksums_eq : r'.verifyBlockChecksums = r.verifyBlockChecksums
  bufferMax_eq : r'.bufferedRead.maxBufferLen = r.bufferedRead.maxBufferLen
  file_eq : r'.bufferedRead.file = r.bufferedRead.file

theorem SameFile.refl (r : AppendOnlyStorageRead) : SameFile r r := ⟨rfl, rfl, rfl, rfl, rfl, rfl⟩

theorem SameFile.trans {r₁ r₂ r₃ : AppendOnlyStorageRead} (h₁ : SameFile r₁ r₂)
    (h₂ : SameFile r₂ r₃) : SameFile r₁ r₃ :=
  ⟨h₂.maxBufferLen_eq.trans h₁.maxBufferLen_eq,
    h₂.storageAttributes_eq.trans h₁.storageAttributes_eq,
    h₂.formatVersion_eq.trans h₁.formatVersion_eq,
    h₂.verifyBlockChecksums_eq.trans h₁.verifyBlockChecksums_eq,
    h₂.bufferMax_eq.trans h₁.bufferMax_eq, h₂.file_eq.trans h₁.file_eq⟩

/-- The reader with its buffer at `position`, `bufferLen` bytes long, and `current` as the block
it read. -/
def moveTo (r : AppendOnlyStorageRead) (position bufferLen : ℕ)
    (current : AppendOnlyStorageReadCurrent) : AppendOnlyStorageRead :=
  { r with bufferedRead := { r.bufferedRead with position, bufferLen }, current }

theorem sameFile_moveTo (r : AppendOnlyStorageRead) (position bufferLen : ℕ)
    (current : AppendOnlyStorageReadCurrent) : SameFile r (r.moveTo position bufferLen current) :=
  ⟨rfl, rfl, rfl, rfl, rfl, rfl⟩

@[simp] theorem nextBufferPosition_moveTo (r : AppendOnlyStorageRead) (position bufferLen : ℕ)
    (current : AppendOnlyStorageReadCurrent) :
    (r.moveTo position bufferLen current).bufferedRead.nextBufferPosition =
      position + bufferLen := rfl

@[simp] theorem moveTo_current (r : AppendOnlyStorageRead) (position bufferLen : ℕ)
    (current : AppendOnlyStorageReadCurrent) :
    (r.moveTo position bufferLen current).current = current := rfl

@[simp] theorem moveTo_moveTo (r : AppendOnlyStorageRead) (position bufferLen : ℕ)
    (current : AppendOnlyStorageReadCurrent) (position' bufferLen' : ℕ)
    (current' : AppendOnlyStorageReadCurrent) :
    (r.moveTo position bufferLen current).moveTo position' bufferLen' current' =
      r.moveTo position' bufferLen' current' := rfl

theorem minimumHeaderLen_eq (r : AppendOnlyStorageRead) :
    r.minimumHeaderLen = AoHeader.size false r.storageAttributes.checksum false :=
  AoHeader.size_regular _

/-- At a position where the file holds a header, whose first word is not zero, the reader takes
its first `minimumHeaderLen` bytes as the start of the next block. -/
theorem positionToNextBlock_of_header (r : AppendOnlyStorageRead)
    (hmin : r.minimumHeaderLen ≤ r.bufferedRead.maxBufferLen)
    (hlen : r.bufferedRead.nextBufferPosition + r.minimumHeaderLen ≤ r.bufferedRead.file.length)
    (hnz : (bufferAt r.bufferedRead.file r.bufferedRead.nextBufferPosition).load 0 4 ≠ 0) :
    r.positionToNextBlock = .ok ({ r with bufferedRead := { r.bufferedRead with
        position := r.bufferedRead.nextBufferPosition, bufferLen := r.minimumHeaderLen } },
      some (r.bufferedRead.nextBufferPosition, r.blockLimitLen r.bufferedRead.nextBufferPosition)) := by
  have h8 : 8 ≤ r.minimumHeaderLen := by
    rw [minimumHeaderLen_eq]
    exact AoHeader.eight_le_size _ _ _
  -- a header is no zero padded page remainder: its first word is not zero
  have hzero : ((bufferAt r.bufferedRead.file r.bufferedRead.nextBufferPosition).read 0
      r.minimumHeaderLen).all (· == 0) = false := by
    by_contra h
    exact hnz (load_eq_zero_of_read_all (Bool.not_eq_false _ ▸ h) (by omega))
  simp only [positionToNextBlock, BufferedRead.getNextBuffer_of_le hmin (by omega) hlen,
    Except.ok_bind, ne_eq, not_true_eq_false, if_false, BufferedRead.currentBuffer_eq, hzero,
    Bool.false_eq_true]
  rfl

/-- **The end of the file.** Where the file ends, `ReadNextBlock` finds no block. -/
theorem readNextBlock_of_end (r : AppendOnlyStorageRead)
    (hmin : r.minimumHeaderLen ≤ r.bufferedRead.maxBufferLen)
    (hend : r.bufferedRead.file.length ≤ r.bufferedRead.nextBufferPosition) :
    ∃ r', r.readNextBlock crc = .ok (false, r') := by
  have hnext := BufferedRead.getNextBuffer_of_end hmin hend
  refine ⟨{ r with current := .reset, bufferedRead := { r.bufferedRead with
    position := r.bufferedRead.nextBufferPosition, bufferLen := 0 } }, ?_⟩
  simp only [readNextBlock, positionToNextBlock]
  rw [show r.minimumHeaderLen = ({ r with current := .reset } : AppendOnlyStorageRead).minimumHeaderLen
    from rfl] at hnext
  simp only [hnext, Except.ok_bind, Except.pure_eq_ok]

theorem le_blockLimitLen (r : AppendOnlyStorageRead) {p n : ℕ}
    (hend : p + n ≤ r.bufferedRead.file.length) (hmax : n ≤ r.maxBufferLen) :
    n ≤ r.blockLimitLen p := by
  simp only [blockLimitLen]
  split_ifs <;> omega

/-- **Reading a header.** At a position where the file holds a header that `GetHeaderInfo` and the
reader of its kind accept, with checksums that verify, `ReadNextBlock` reads that header and leaves
its buffer on it. -/
theorem readNextBlock_of_header (r : AppendOnlyStorageRead) {kind : AoHeaderKind} {hl : ℕ}
    {info : HeaderInfo} (hmin : r.minimumHeaderLen ≤ r.bufferedRead.maxBufferLen)
    (hlen : r.bufferedRead.nextBufferPosition + hl ≤ r.bufferedRead.file.length)
    (hhl : r.minimumHeaderLen ≤ hl)
    (hkind : getHeaderInfo (bufferAt r.bufferedRead.file r.bufferedRead.nextBufferPosition)
      r.storageAttributes.checksum = .ok (.ok (kind, hl)))
    (hsum : r.storageAttributes.checksum = true →
      verifyHeaderChecksum crc (bufferAt r.bufferedRead.file r.bufferedRead.nextBufferPosition) = true)
    (hinfo : getContentHeaderInfo kind (bufferAt r.bufferedRead.file r.bufferedRead.nextBufferPosition)
      hl r.storageAttributes.checksum (r.blockLimitLen r.bufferedRead.nextBufferPosition)
      r.formatVersion = .ok (.ok info)) :
    r.readNextBlock crc = .ok (true, r.moveTo r.bufferedRead.nextBufferPosition hl
      (.ofHeaderInfo r.bufferedRead.nextBufferPosition kind hl info)) := by
  have hnz : (bufferAt r.bufferedRead.file r.bufferedRead.nextBufferPosition).load 0 4 ≠ 0 := by
    intro h0
    rw [getHeaderInfo, if_pos h0] at hkind
    cases hkind
  have hchk : (r.storageAttributes.checksum && r.verifyBlockChecksums &&
      !verifyHeaderChecksum crc (bufferAt r.bufferedRead.file r.bufferedRead.nextBufferPosition)) =
        false := by
    cases hc : r.storageAttributes.checksum
    · rfl
    · simp [hsum hc]
  have hpos := positionToNextBlock_of_header { r with current := .reset } hmin
    (show r.bufferedRead.nextBufferPosition + r.minimumHeaderLen ≤ r.bufferedRead.file.length
      by omega) hnz
  dsimp only at hpos
  rw [readNextBlock]
  simp only [hpos, Except.ok_bind, BufferedRead.currentBuffer_eq, hchk, Bool.false_eq_true,
    if_false, hkind, Except.pure_eq_ok]
  simp only [minimumHeaderLen, blockLimitLen] at hhl hinfo ⊢
  by_cases hlt : AoHeader.regularSize + (if r.storageAttributes.checksum = true then 2 * 4 else 0) < hl
  · rw [if_pos hlt, BufferedRead.growBuffer_of_le (by exact hlen)]
    simp only [ne_eq, not_true_eq_false, if_false, Except.ok_bind, hinfo]
    rfl
  · -- the header is no longer than the bytes the reader has already taken
    obtain rfl : hl = AoHeader.regularSize +
        (if r.storageAttributes.checksum = true then 2 * 4 else 0) := by omega
    rw [if_neg hlt]
    simp only [Except.ok_bind, hinfo]
    rfl

/-- The buffer grown to the whole block, whose checksum verifies. -/
theorem internalGetBuffer_of_le (r : AppendOnlyStorageRead)
    (hend : r.bufferedRead.position + r.current.overallBlockLen ≤ r.bufferedRead.file.length)
    (hsum : r.storageAttributes.checksum = true → verifyBlockChecksum crc false
      (bufferAt r.bufferedRead.file r.bufferedRead.position) r.current.overallBlockLen = true) :
    r.internalGetBuffer crc = .ok (bufferAt r.bufferedRead.file r.bufferedRead.position,
      { r with bufferedRead := { r.bufferedRead with bufferLen := r.current.overallBlockLen } }) := by
  have hchk : (r.storageAttributes.checksum && r.verifyBlockChecksums &&
      !verifyBlockChecksum crc false (bufferAt r.bufferedRead.file r.bufferedRead.position)
        r.current.overallBlockLen) = false := by
    cases hc : r.storageAttributes.checksum
    · rfl
    · simp [hsum hc]
  simp only [internalGetBuffer, BufferedRead.growBuffer_of_le hend, ne_eq, not_true_eq_false,
    if_false, BufferedRead.currentBuffer_eq, hchk, Bool.false_eq_true]
  rfl

theorem getBlockInfo_eq {r r' : AppendOnlyStorageRead}
    (h : r.readNextBlock crc = .ok (true, r')) :
    r.getBlockInfo crc = .ok (true, r'.current.blockInfo, r') := by
  rw [getBlockInfo, h]
  rfl

theorem content_of_not_isLarge {r : AppendOnlyStorageRead} (h : r.current.isLarge = false) :
    r.content crc = r.smallContent crc := by
  rw [content, h, if_neg Bool.false_ne_true]

/-! ## Small content blocks -/

section Small

variable {r : AppendOnlyStorageRead} {m : Mem} {B content : List UInt8}
  {executorBlockKind rowCount compressedLen : ℕ} {hasFirstRowNum : Bool} {firstRowNum : Int64}

/-- **Reading a small content block.** -/
theorem readNextBlock_smallContentBlockAt
    (hat : BytesAt r.bufferedRead.file r.bufferedRead.nextBufferPosition B)
    (hmin : r.minimumHeaderLen ≤ r.bufferedRead.maxBufferLen)
    (hblock : SmallContentBlockAt crc r.storageAttributes r.formatVersion m B content
      executorBlockKind rowCount hasFirstRowNum firstRowNum compressedLen)
    (hmax : B.length ≤ r.maxBufferLen) :
    r.readNextBlock crc = .ok (true, r.moveTo r.bufferedRead.nextBufferPosition
      (AoHeader.size false r.storageAttributes.checksum hasFirstRowNum)
      (.ofHeaderInfo r.bufferedRead.nextBufferPosition .SmallContent
        (AoHeader.size false r.storageAttributes.checksum hasFirstRowNum)
        (.content (smallContentInfo r.storageAttributes B.length content executorBlockKind rowCount
          hasFirstRowNum firstRowNum compressedLen)))) := by
  have hsize := hblock.size_le
  have h8 := AoHeader.eight_le_size false r.storageAttributes.checksum hasFirstRowNum
  have hne : B ≠ [] := List.ne_nil_of_length_pos (by omega)
  have hend := hat.add_length_le hne
  have hagree := hat.agrees hblock.bytes
  refine readNextBlock_of_header crc r hmin (by omega) ?_ ?_ ?_ ?_
  · rw [minimumHeaderLen_eq]
    cases hasFirstRowNum <;> simp [AoHeader.size]
  · rw [getHeaderInfo_congr hagree (by omega)]
    exact hblock.headerInfo
  · intro hc
    have h16 : 16 ≤ AoHeader.size false r.storageAttributes.checksum hasFirstRowNum := by
      rw [hc]
      cases hasFirstRowNum <;> decide
    rw [verifyHeaderChecksum_congr hagree crc (by omega)]
    exact (hblock.checksums hc).1
  · simp only [getContentHeaderInfo, getSmallContentHeaderInfo_congr hagree hsize (by omega),
      hblock.contentInfo _ (r.le_blockLimitLen hend hmax)]
    rfl

/-- **The content of a small content block.** Once `ReadNextBlock` has read a small content block,
`AppendOnlyStorageRead_Content` gives its content back, raw or expanded by the table's
decompressor, and leaves the reader's buffer on the whole block. -/
theorem smallContent_of_block
    (hat : BytesAt r.bufferedRead.file r.bufferedRead.nextBufferPosition B)
    (hblock : SmallContentBlockAt crc r.storageAttributes r.formatVersion m B content
      executorBlockKind rowCount hasFirstRowNum firstRowNum compressedLen) :
    (r.moveTo r.bufferedRead.nextBufferPosition
        (AoHeader.size false r.storageAttributes.checksum hasFirstRowNum)
        (.ofHeaderInfo r.bufferedRead.nextBufferPosition .SmallContent
          (AoHeader.size false r.storageAttributes.checksum hasFirstRowNum)
          (.content (smallContentInfo r.storageAttributes B.length content executorBlockKind
            rowCount hasFirstRowNum firstRowNum compressedLen)))).smallContent crc =
      .ok (content, r.moveTo r.bufferedRead.nextBufferPosition B.length
        (.ofHeaderInfo r.bufferedRead.nextBufferPosition .SmallContent
          (AoHeader.size false r.storageAttributes.checksum hasFirstRowNum)
          (.content (smallContentInfo r.storageAttributes B.length content executorBlockKind
            rowCount hasFirstRowNum firstRowNum compressedLen)))) := by
  have hsize := hblock.size_le
  have h8 := AoHeader.eight_le_size false r.storageAttributes.checksum hasFirstRowNum
  have hne : B ≠ [] := List.ne_nil_of_length_pos (by omega)
  have hend := hat.add_length_le hne
  have hagree := hat.agrees hblock.bytes
  have hlen := hblock.length_eq
  have hround := AOStorage.le_roundUpValid
    (if compressedLen = 0 then content.length else compressedLen) r.formatVersion
  have hget := internalGetBuffer_of_le crc (r.moveTo r.bufferedRead.nextBufferPosition
      (AoHeader.size false r.storageAttributes.checksum hasFirstRowNum)
      (.ofHeaderInfo r.bufferedRead.nextBufferPosition .SmallContent
        (AoHeader.size false r.storageAttributes.checksum hasFirstRowNum)
        (.content (smallContentInfo r.storageAttributes B.length content executorBlockKind
          rowCount hasFirstRowNum firstRowNum compressedLen)))) hend
      (fun (hc : r.storageAttributes.checksum = true) => by
      have h16 : 16 ≤ AoHeader.size false r.storageAttributes.checksum hasFirstRowNum := by
        rw [hc]
        cases hasFirstRowNum <;> decide
      rw [← (hblock.checksums hc).2]
      exact verifyBlockChecksum_congr hagree crc le_rfl (by omega) false)
  rw [smallContent, hget, Except.ok_bind]
  by_cases h0 : compressedLen = 0
  · -- stored raw: the content follows the header
    have hraw : (bufferAt r.bufferedRead.file r.bufferedRead.nextBufferPosition).read
        (AoHeader.size false r.storageAttributes.checksum hasFirstRowNum) content.length =
          content := by
      simp only [h0, if_true] at hround hlen
      rw [read_congr hagree (by omega), hblock.raw h0]
    simp only [moveTo, AppendOnlyStorageReadCurrent.ofHeaderInfo, smallContentInfo, h0,
      ne_eq, not_true_eq_false, decide_false, Bool.not_false, if_true, hraw]
    rfl
  · -- stored compressed: the decompressor expands it back
    obtain ⟨hlt, cfns, hcfns, hdec⟩ := hblock.compressed h0
    have hstored : (bufferAt r.bufferedRead.file r.bufferedRead.nextBufferPosition).read
        (AoHeader.size false r.storageAttributes.checksum hasFirstRowNum) compressedLen =
          m.read (AoHeader.size false r.storageAttributes.checksum hasFirstRowNum)
            compressedLen :=
      read_congr hagree (by simp only [h0, if_false] at hround hlen; omega)
    simp only [moveTo, AppendOnlyStorageReadCurrent.ofHeaderInfo, smallContentInfo, h0,
      not_false_eq_true, decide_true, Bool.not_true, Bool.false_eq_true, if_false, hcfns,
      hstored, hdec, ne_eq, not_true_eq_false]
    rfl

end Small

/-! ## Large content -/

/-- **Reading a large content header.** -/
theorem readNextBlock_largeContentHeaderAt {r : AppendOnlyStorageRead} {m : Mem} {H : List UInt8}
    {largeContentLen executorBlockKind rowCount : ℕ} {hasFirstRowNum : Bool} {firstRowNum : Int64}
    (hat : BytesAt r.bufferedRead.file r.bufferedRead.nextBufferPosition H)
    (hmin : r.minimumHeaderLen ≤ r.bufferedRead.maxBufferLen)
    (hH : LargeContentHeaderAt crc r.storageAttributes m H largeContentLen executorBlockKind
      rowCount hasFirstRowNum firstRowNum) :
    r.readNextBlock crc = .ok (true, r.moveTo r.bufferedRead.nextBufferPosition H.length
      (.ofHeaderInfo r.bufferedRead.nextBufferPosition .LargeContent H.length
        (.large { largeContentLen, executorBlockKind, hasFirstRowNum,
                  firstRowNum := if hasFirstRowNum then firstRowNum else -1,
                  largeRowCount := rowCount }))) := by
  have hlen := hH.length_eq
  have h8 := AoHeader.eight_le_size false r.storageAttributes.checksum hasFirstRowNum
  have hne : H ≠ [] := List.ne_nil_of_length_pos (by omega)
  have hend := hat.add_length_le hne
  have hagree := hat.agrees hH.bytes
  refine readNextBlock_of_header crc r hmin hend ?_ ?_ ?_ ?_
  · rw [minimumHeaderLen_eq, hlen]
    cases hasFirstRowNum <;> simp [AoHeader.size]
  · rw [getHeaderInfo_congr hagree (by omega)]
    exact hH.headerInfo
  · intro hc
    have h16 : 16 ≤ AoHeader.size false r.storageAttributes.checksum hasFirstRowNum := by
      rw [hc]
      cases hasFirstRowNum <;> decide
    rw [verifyHeaderChecksum_congr hagree crc (by omega)]
    exact hH.checksum hc
  · simp only [getContentHeaderInfo, getLargeContentHeaderInfo_congr hagree le_rfl (by omega),
      hH.largeInfo]
    rfl

/-- **Reassembling large content.** From the first of the fragment blocks of large content whose
pieces are not empty, the loop of `AppendOnlyStorageRead_Content` reads exactly these blocks, one
after another, and returns the pieces put together, when it has fuel for one round per block. -/
theorem readFragments_spec {attrs : AppendOnlyStorageAttributes}
    {version maxBufferLen executorBlockKind : ℕ} {blocks fragments : List (List UInt8)}
    (hF : List.Forall₂ (FragmentBlock crc attrs version maxBufferLen executorBlockKind) blocks
      fragments) :
    (∀ f ∈ fragments, f ≠ []) → fragments ≠ [] →
    ∀ (r : AppendOnlyStorageRead) (fuel count : ℕ), r.storageAttributes = attrs →
      r.formatVersion = version → maxBufferLen ≤ r.maxBufferLen →
      r.minimumHeaderLen ≤ r.bufferedRead.maxBufferLen →
      BytesAt r.bufferedRead.file r.bufferedRead.nextBufferPosition blocks.flatten →
      fragments.length ≤ fuel →
      ∃ r', r.readFragments crc fuel fragments.flatten.length count = .ok (fragments.flatten, r') ∧
        SameFile r r' ∧
        r'.bufferedRead.nextBufferPosition =
          r.bufferedRead.nextBufferPosition + blocks.flatten.length := by
  induction hF with
  | nil => exact fun _ h => absurd rfl h
  | @cons B f blocks fragments hB hF ih =>
    intro hne _ r fuel count hattrs hversion hmaxle hmin hat hfuel
    subst hattrs hversion
    obtain ⟨m, compressedLen, hblock, hmax⟩ := hB
    rw [List.flatten_cons] at hat
    have hatB := hat.left
    obtain ⟨fuel, rfl⟩ : ∃ fuel', fuel = fuel' + 1 :=
      ⟨fuel - 1, by rw [List.length_cons] at hfuel; omega⟩
    have hf : f.length ≤ (f :: fragments).flatten.length := by simp
    rw [readFragments, readNextBlock_smallContentBlockAt crc hatB hmin hblock (hmax.trans hmaxle)]
    simp only [Except.ok_bind, Bool.not_true, Bool.false_eq_true, if_false, moveTo_current,
      AppendOnlyStorageReadCurrent.ofHeaderInfo_headerKind,
      AppendOnlyStorageReadCurrent.ofHeaderInfo_content_uncompressedLen,
      smallContentInfo_uncompressedLen, ne_eq, not_true_eq_false, List.flatten_cons,
      List.length_append, Nat.add_sub_cancel_left, if_neg (Nat.not_lt.mpr (Nat.le_add_right _ _)),
      smallContent_of_block crc hatB hblock]
    by_cases hrest : fragments = []
    · -- the last fragment: nothing remains
      subst hrest
      obtain rfl := List.forall₂_nil_right_iff.mp hF
      simp only [List.flatten_nil, List.length_nil, if_true, List.append_nil, Except.pure_eq_ok,
        Nat.add_zero]
      exact ⟨_, rfl, sameFile_moveTo _ _ _ _, rfl⟩
    · -- more fragments follow, from just past this block
      have hflat : fragments.flatten.length ≠ 0 := by
        rw [Ne, List.length_eq_zero_iff, List.flatten_eq_nil_iff]
        intro hall
        obtain ⟨g, hg⟩ := List.exists_mem_of_ne_nil _ hrest
        exact hne g (List.mem_cons_of_mem f hg) (hall g hg)
      obtain ⟨r', hr', hsame, hpos⟩ := ih (fun g hg => hne g (List.mem_cons_of_mem f hg)) hrest
        (r.moveTo r.bufferedRead.nextBufferPosition B.length
          (.ofHeaderInfo r.bufferedRead.nextBufferPosition .SmallContent
            (AoHeader.size false r.storageAttributes.checksum false)
            (.content (smallContentInfo r.storageAttributes B.length f executorBlockKind 0 false (-1)
              compressedLen))))
        fuel (count + 1) rfl rfl hmaxle hmin hat.right (by rw [List.length_cons] at hfuel; omega)
      refine ⟨r', ?_, (sameFile_moveTo _ _ _ _).trans hsame, ?_⟩
      · simp only [if_neg hflat, hr', Except.ok_bind, Except.pure_eq_ok]
      · rw [hpos, nextBufferPosition_moveTo]
        omega

/-! ## Content, from the start of its blocks -/

/-- **A small content block read back.** `GetBlockInfo` reports the content's length, kind, rows
and first row number and that it is not large, and `Content` returns the content and leaves the
reader just past the block. -/
theorem read_smallContentBlock {r : AppendOnlyStorageRead} {B content : List UInt8}
    {executorBlockKind rowCount : ℕ} {hasFirstRowNum : Bool} {firstRowNum : Int64}
    (hat : BytesAt r.bufferedRead.file r.bufferedRead.nextBufferPosition B)
    (hmin : r.minimumHeaderLen ≤ r.bufferedRead.maxBufferLen)
    (hblock : SmallContentBlock crc r.storageAttributes r.formatVersion r.maxBufferLen B content
      executorBlockKind rowCount hasFirstRowNum firstRowNum) :
    ∃ info r₁ r₂, r.getBlockInfo crc = .ok (true, info, r₁) ∧
      info.contentLen = content.length ∧ info.executorBlockKind = executorBlockKind ∧
      info.rowCount = rowCount ∧ info.firstRowNum = (if hasFirstRowNum then firstRowNum else -1) ∧
      info.isLarge = false ∧ r₁.content crc = .ok (content, r₂) ∧ SameFile r r₂ ∧
      r₂.bufferedRead.nextBufferPosition = r.bufferedRead.nextBufferPosition + B.length := by
  obtain ⟨m, compressedLen, hblock, hmax⟩ := hblock
  exact ⟨_, _, _, getBlockInfo_eq crc (readNextBlock_smallContentBlockAt crc hat hmin hblock hmax),
    rfl, rfl, rfl, rfl, rfl, (content_of_not_isLarge crc rfl).trans
      (smallContent_of_block crc hat hblock), sameFile_moveTo _ _ _ _, rfl⟩

/-- A block is never empty: it has a header. -/
theorem ne_nil_of_smallContentBlock {attrs : AppendOnlyStorageAttributes}
    {version maxBufferLen executorBlockKind rowCount : ℕ} {B content : List UInt8}
    {hasFirstRowNum : Bool} {firstRowNum : Int64}
    (h : SmallContentBlock crc attrs version maxBufferLen B content executorBlockKind rowCount
      hasFirstRowNum firstRowNum) : B ≠ [] := by
  obtain ⟨m, compressedLen, hblock, -⟩ := h
  have h8 := AoHeader.eight_le_size false attrs.checksum hasFirstRowNum
  have hsize := hblock.size_le
  exact List.ne_nil_of_length_pos (by omega)

/-- Nor is large content: it starts with its header. -/
theorem ne_nil_of_largeContentBlocks {attrs : AppendOnlyStorageAttributes}
    {version maxBufferLen executorBlockKind rowCount : ℕ} {W content : List UInt8}
    {hasFirstRowNum : Bool} {firstRowNum : Int64} {fragments : List (List UInt8)}
    (h : LargeContentBlocks crc attrs version maxBufferLen W content executorBlockKind rowCount
      hasFirstRowNum firstRowNum fragments) : W ≠ [] := by
  obtain ⟨H, blocks, rfl, ⟨m, hH⟩, -⟩ := h
  have h8 := AoHeader.eight_le_size false attrs.checksum hasFirstRowNum
  have hH8 : 0 < H.length := by rw [hH.length_eq]; omega
  exact List.ne_nil_of_length_pos (by rw [List.length_append]; omega)

/-- Fragment blocks are no fewer than their bytes, so a reader whose fuel is the file's length
has a round for each of them. -/
theorem length_le_of_fragmentBlocks {attrs : AppendOnlyStorageAttributes}
    {version maxBufferLen executorBlockKind : ℕ} {blocks fragments : List (List UInt8)}
    (h : List.Forall₂ (FragmentBlock crc attrs version maxBufferLen executorBlockKind) blocks
      fragments) :
    fragments.length ≤ blocks.flatten.length := by
  induction h with
  | nil => simp
  | cons hB _ ih =>
    have hpos := List.length_pos_iff.mpr (ne_nil_of_smallContentBlock crc hB)
    rw [List.length_cons, List.flatten_cons, List.length_append]
    omega

/-- **Large content read back.** `GetBlockInfo` reports the announced content and that it is
large, and `Content` reassembles it from its fragments and leaves the reader just past the last
one. -/
theorem read_largeContentBlocks {r : AppendOnlyStorageRead} {W content : List UInt8}
    {executorBlockKind rowCount : ℕ} {hasFirstRowNum : Bool} {firstRowNum : Int64}
    {fragments : List (List UInt8)}
    (hat : BytesAt r.bufferedRead.file r.bufferedRead.nextBufferPosition W)
    (hmin : r.minimumHeaderLen ≤ r.bufferedRead.maxBufferLen)
    (hW : LargeContentBlocks crc r.storageAttributes r.formatVersion r.maxBufferLen W content
      executorBlockKind rowCount hasFirstRowNum firstRowNum fragments)
    (hflat : fragments.flatten = content) (hne : ∀ f ∈ fragments, f ≠ [])
    (hnil : fragments ≠ []) :
    ∃ info r₁ r₂, r.getBlockInfo crc = .ok (true, info, r₁) ∧
      info.contentLen = content.length ∧ info.executorBlockKind = executorBlockKind ∧
      info.rowCount = rowCount ∧ info.firstRowNum = (if hasFirstRowNum then firstRowNum else -1) ∧
      info.isLarge = true ∧ r₁.content crc = .ok (content, r₂) ∧ SameFile r r₂ ∧
      r₂.bufferedRead.nextBufferPosition = r.bufferedRead.nextBufferPosition + W.length := by
  obtain ⟨H, blocks, rfl, ⟨m, hH⟩, hblocks⟩ := hW
  subst hflat
  -- the fragment blocks lie in the file after the header: the reader's fuel covers them
  have hfuel : fragments.length ≤ r.bufferedRead.file.length := by
    have hend := hat.right.length_le
    have hle := length_le_of_fragmentBlocks crc hblocks
    rw [List.length_drop] at hend
    omega
  obtain ⟨r', hr', hsame, hpos⟩ := readFragments_spec crc hblocks hne hnil
    (r.moveTo r.bufferedRead.nextBufferPosition H.length
      (.ofHeaderInfo r.bufferedRead.nextBufferPosition .LargeContent H.length
        (.large { largeContentLen := fragments.flatten.length, executorBlockKind, hasFirstRowNum,
                  firstRowNum := if hasFirstRowNum then firstRowNum else -1,
                  largeRowCount := rowCount })))
    r.bufferedRead.file.length 0 rfl rfl le_rfl hmin hat.right hfuel
  refine ⟨_, _, r', getBlockInfo_eq crc (readNextBlock_largeContentHeaderAt crc hat.left hmin hH),
    rfl, rfl, rfl, rfl, rfl, ?_, (sameFile_moveTo _ _ _ _).trans hsame, ?_⟩
  · rw [content, moveTo_current, AppendOnlyStorageReadCurrent.ofHeaderInfo_large_isLarge, if_pos rfl]
    exact hr'
  · rw [hpos, nextBufferPosition_moveTo, List.length_append, Nat.add_assoc]

end AppendOnlyStorageRead

end Cloudberry.AppendOnly
