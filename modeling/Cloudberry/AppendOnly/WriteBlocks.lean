import Cloudberry.AppendOnly.Block

/-!
# The blocks the content writer appends

`AppendOnlyStorageWrite_Content` appends to the segment file exactly the blocks `Block.lean`
describes (`content_spec`): content that fits one block becomes one small content block, and
longer content a large content header followed by one fragment block for each piece of
`maxSmallContentLen` bytes. Each block is built in the writer's buffer by the
header writer of `cdbappendonlystorageformat.c`, which writes only below the header length, so the
data put after the header stays there (`read_of_makeSmallContentHeader`).

With compression on, a block keeps the compressor's output only when it is shorter than the
source, and marks it by a positive compressed length. The reader expands such data with the
decompressor, and reads data whose compressed length is `0` as raw. The round trip therefore needs
two things from the table's compressor: that the decompressor expands what the writer keeps back to
its source (`CompressionFunctions.InverseOnStored`), and that a source that is not empty never
compresses to nothing (`CompressionFunctions.NonemptyOutput`), since an empty output would be
shorter than its source and be stored with a compressed length of `0`, the mark of raw data.

* `smallContentBlockAt_of_make`: a buffer holding the stored data after the header, once the
  header is written, is a small content block;
* `writeSmallContent_spec`, `writeFragments_spec`, `writeLargeContent_spec`: what each part of the
  writer appends;
* `content_spec`: `AppendOnlyStorageWrite_Content` appends one small content block when the
  content fits, and a large content header with its fragments otherwise.
-/

namespace Cloudberry.AppendOnly

open ByteMem AppendOnlyStorageFormat

/-- The compressor writes something for any source that is not empty. -/
def CompressionFunctions.NonemptyOutput (cfns : CompressionFunctions) : Prop :=
  ∀ src, src ≠ [] → cfns.compress src ≠ []

/-- What the round trip asks of a table's compression: none, or functions that expand what the
writer keeps and compress no source to nothing. -/
def AppendOnlyStorageAttributes.CompressionRoundTrips (attrs : AppendOnlyStorageAttributes) :
    Prop :=
  ∀ cfns, attrs.compression = some cfns → cfns.InverseOnStored ∧ cfns.NonemptyOutput

namespace AppendOnlyStorageFormat

variable (crc : List UInt8 → UInt32)

/-- The first word of a small content header holds its kind, which is not a long one. -/
theorem isLong_smallContentWords (buf : Mem) (hasFirstRowNum : Bool)
    (executorKind rowCount dataLength compressedLength : ℕ) :
    AoHeader.isLong (AOSmallContentHeader.headerKind.get
      (((buf.store 0 4 (smallContentWords hasFirstRowNum executorKind rowCount dataLength
        compressedLength).1).store 4 4 (smallContentWords hasFirstRowNum executorKind rowCount
          dataLength compressedLength).2).load 0 4)) = .ok false := by
  obtain ⟨hlt₁, hlt₂⟩ :=
    smallContentWords_lt hasFirstRowNum executorKind rowCount dataLength compressedLength
  obtain ⟨hkind, -⟩ :=
    smallContentWords_get hasFirstRowNum executorKind rowCount dataLength compressedLength
  obtain ⟨h03, -⟩ := load_storeWords buf (hlt₁.trans (by norm_num)) hlt₂
  rw [h03, AOSmallContentHeader.headerKind_eq, hkind]
  rfl

/-- The small content header writer writes nothing past the header. -/
theorem read_of_makeSmallContentHeader {buf m : Mem} {usingChecksums hasFirstRowNum : Bool}
    {version : ℕ} (hv : AOSegfileFormatVersion.IsValid version) {firstRowNum : Int64}
    {executorKind rowCount dataLength compressedLength : ℕ}
    (h : makeSmallContentHeader crc buf usingChecksums hasFirstRowNum version firstRowNum
      executorKind rowCount dataLength compressedLength = .ok m)
    {o n : ℕ} (ho : AoHeader.size false usingChecksums hasFirstRowNum ≤ o) :
    m.read o n = buf.read o n := by
  rw [makeSmallContentHeader, finishHeader_eq crc (isLong_smallContentWords buf _ _ _ _ _) hv,
    Except.ok.injEq] at h
  subst h
  cases usingChecksums <;> cases hasFirstRowNum <;>
    simp only [AoHeader.size, AoHeader.regularSize, AoHeader.longSize, Bool.false_eq_true,
      if_true, if_false] at ho ⊢ <;>
    simp (disch := omega) only [read_store_of_disjoint, read_storeInt64_of_disjoint]

end AppendOnlyStorageFormat

/-! ## A block built in the buffer -/

section Make

variable (crc : List UInt8 → UInt32) {attrs : AppendOnlyStorageAttributes} {version : ℕ}

/-- How the data after the header is stored: raw, with a compressed length of `0`, or as a shorter
compressed form of positive length that the table's decompressor expands to the content. -/
def StoredAs (attrs : AppendOnlyStorageAttributes) (content stored : List UInt8)
    (compressedLen : ℕ) : Prop :=
  compressedLen = 0 ∧ stored = content ∨
    compressedLen = stored.length ∧ 0 < compressedLen ∧ compressedLen < content.length ∧
      ∃ cfns, attrs.compression = some cfns ∧ cfns.decompress stored content.length = content

theorem StoredAs.length_eq {content stored : List UInt8} {compressedLen : ℕ}
    (h : StoredAs attrs content stored compressedLen) :
    (if compressedLen = 0 then content.length else compressedLen) = stored.length := by
  rcases h with ⟨rfl, rfl⟩ | ⟨rfl, hpos, -⟩
  · simp
  · simp [hpos.ne']

theorem StoredAs.le {content stored : List UInt8} {compressedLen : ℕ}
    (h : StoredAs attrs content stored compressedLen) : compressedLen ≤ content.length := by
  rcases h with ⟨rfl, -⟩ | ⟨-, -, hlt, -⟩ <;> omega

/-- A buffer holding the `stored` bytes after the header of a small content block, once zero
padded and given its header, is that block. -/
theorem smallContentBlockAt_of_make (hv : AOSegfileFormatVersion.IsValid version)
    {buf m : Mem} {hasFirstRowNum : Bool} {firstRowNum : Int64} {content stored : List UInt8}
    {executorBlockKind rowCount compressedLen : ℕ}
    (hek : executorBlockKind < 2 ^ 3) (hrc : rowCount < 2 ^ 14) (hlen : content.length < 2 ^ 21)
    (hstored : buf.read (AoHeader.size false attrs.checksum hasFirstRowNum) stored.length = stored)
    (hkept : StoredAs attrs content stored compressedLen)
    (hm : makeSmallContentHeader crc
      (AOStorage.zeroPad buf (AoHeader.size false attrs.checksum hasFirstRowNum) stored.length
        (AOStorage.roundUpValid stored.length version))
      attrs.checksum hasFirstRowNum version firstRowNum executorBlockKind rowCount content.length
      compressedLen = .ok m) :
    SmallContentBlockAt crc attrs version m
      (m.read 0 (AoHeader.size false attrs.checksum hasFirstRowNum +
        AOStorage.roundUpValid stored.length version))
      content executorBlockKind rowCount hasFirstRowNum firstRowNum compressedLen := by
  set hl := AoHeader.size false attrs.checksum hasFirstRowNum with hhl
  have hsl := hkept.length_eq
  -- the header writer leaves the data, and the padding lies after it
  have hdata : m.read hl stored.length = stored := by
    rw [read_of_makeSmallContentHeader crc hv hm le_rfl, AOStorage.zeroPad,
      read_write_of_disjoint _ _ (.inl le_rfl), hstored]
  have hlimit : hl + AOStorage.roundUpValid
      (if compressedLen = 0 then content.length else compressedLen) version ≤
        hl + AOStorage.roundUpValid stored.length version := by
    rw [hsl]
  obtain ⟨m', hm', hheader, -, hsums⟩ := smallContentHeader_roundTrip crc _ attrs.checksum
    hasFirstRowNum hv firstRowNum hek hrc hlen hkept.le hlimit
  obtain rfl : m = m' := Except.ok.inj (hm.symm.trans hm')
  refine ⟨by rw [length_read], by rw [length_read, hsl], hheader, ?_, ?_, ?_, ?_⟩
  · intro blockLimitLen hle
    rw [length_read, ← hsl] at hle
    obtain ⟨m', hm', -, hinfo, -⟩ := smallContentHeader_roundTrip crc _ attrs.checksum
      hasFirstRowNum hv firstRowNum hek hrc hlen hkept.le hle
    obtain rfl : m = m' := Except.ok.inj (hm.symm.trans hm')
    rw [hinfo, length_read, ← hsl]
    rfl
  · rw [length_read, ← hsl]
    exact hsums
  · intro h0
    rcases hkept with ⟨-, rfl⟩ | ⟨-, hpos, -⟩
    · exact hdata
    · omega
  · intro h0
    rcases hkept with ⟨h, -⟩ | ⟨rfl, -, hlt, cfns, hcfns, hdec⟩
    · exact absurd h h0
    · exact ⟨hlt, cfns, hcfns, by rw [hdata, hdec]⟩

end Make


namespace AppendOnlyStorageWrite

variable (crc : List UInt8 → UInt32)

/-! ## Header lengths and room -/

theorem completeHeaderLen_smallContent (w : AppendOnlyStorageWrite) :
    w.completeHeaderLen .SmallContent =
      .ok (AoHeader.size false w.storageAttributes.checksum w.isFirstRowNumSet) := by
  cases hc : w.storageAttributes.checksum <;> cases hf : w.isFirstRowNumSet <;>
    simp [completeHeaderLen, AoHeader.isLong, AoHeaderKind.toNat, regularHeaderLen, AoHeader.size,
      hc, hf]

theorem largeContentHeaderLen_eq (w : AppendOnlyStorageWrite) :
    w.largeContentHeaderLen = AoHeader.size false w.storageAttributes.checksum w.isFirstRowNumSet := by
  cases hc : w.storageAttributes.checksum <;> cases hf : w.isFirstRowNumSet <;>
    simp [largeContentHeaderLen, regularHeaderLen, AoHeader.size, hc, hf]

/-- Data that fits after a header still fits once rounded up: the header length and the block size
are multiples of eight. -/
theorem size_add_roundUpValid_le (w : AppendOnlyStorageWrite) (hasFirstRowNum : Bool)
    {len : ℕ} (version : ℕ)
    (h : len ≤ w.maxBufferLen - AoHeader.size false w.storageAttributes.checksum hasFirstRowNum) :
    AoHeader.size false w.storageAttributes.checksum hasFirstRowNum +
      AOStorage.roundUpValid len version ≤ w.maxBufferLen := by
  obtain ⟨hmin, -, hmod⟩ := w.maxBufferLen_valid
  simp only [minAppendonlyBlockSize] at hmin hmod
  have hsize : AoHeader.size false w.storageAttributes.checksum hasFirstRowNum ≤ 24 ∧
      AoHeader.size false w.storageAttributes.checksum hasFirstRowNum % 8 = 0 := by
    cases w.storageAttributes.checksum <;> cases hasFirstRowNum <;> decide
  unfold AOStorage.roundUpValid AOStorage.roundUp8 AOStorage.roundUp4
  split_ifs <;> omega

theorem length_lt_of_le_sub (w : AppendOnlyStorageWrite) {hasFirstRowNum : Bool} {len : ℕ}
    (h : len ≤ w.maxBufferLen - AoHeader.size false w.storageAttributes.checksum hasFirstRowNum) :
    len < 2 ^ 21 := by
  obtain ⟨-, hmax, -⟩ := w.maxBufferLen_valid
  have h8 := AoHeader.eight_le_size false w.storageAttributes.checksum hasFirstRowNum
  simp only [maxAppendonlyBlockSize] at hmax
  omega


/-! ## What writing a block keeps -/

/-- What writing blocks leaves of a writer: its configuration, and a first row number, once
written, is not set again. -/
structure Keeps (w w' : AppendOnlyStorageWrite) : Prop where
  maxBufferLen_eq : w'.maxBufferLen = w.maxBufferLen
  storageAttributes_eq : w'.storageAttributes = w.storageAttributes
  formatVersion_eq : w'.formatVersion = w.formatVersion
  isFirstRowNumSet_imp : w'.isFirstRowNumSet = true → w.isFirstRowNumSet = true

theorem Keeps.refl (w : AppendOnlyStorageWrite) : Keeps w w := ⟨rfl, rfl, rfl, id⟩

theorem Keeps.trans {w₁ w₂ w₃ : AppendOnlyStorageWrite} (h₁ : Keeps w₁ w₂) (h₂ : Keeps w₂ w₃) :
    Keeps w₁ w₃ :=
  ⟨h₂.maxBufferLen_eq.trans h₁.maxBufferLen_eq,
    h₂.storageAttributes_eq.trans h₁.storageAttributes_eq,
    h₂.formatVersion_eq.trans h₁.formatVersion_eq,
    fun h => h₁.isFirstRowNumSet_imp (h₂.isFirstRowNumSet_imp h)⟩

/-! ## One small content block -/

theorem finishBuffer_smallContent (w : AppendOnlyStorageWrite) (content : List UInt8)
    (executorBlockKind rowCount : ℕ) (hv : AOSegfileFormatVersion.IsValid w.formatVersion)
    (hnone : w.storageAttributes.compression = none)
    (hkind : w.getBufferAoHeaderKind = .SmallContent)
    (hcur : w.currentCompleteHeaderLen =
      AoHeader.size false w.storageAttributes.checksum w.isFirstRowNumSet)
    (hlen : content.length ≤ w.maxBufferLen - w.currentCompleteHeaderLen)
    (hek : executorBlockKind < 2 ^ 3) (hrc : rowCount < 2 ^ 14) :
    ∃ w' B, w.finishBuffer crc content executorBlockKind rowCount = .ok w' ∧
      w'.file = w.file ++ B ∧ Keeps w w' ∧ w'.isFirstRowNumSet = false ∧
      SmallContentBlock crc w.storageAttributes w.formatVersion w.maxBufferLen B content
        executorBlockKind rowCount w.isFirstRowNumSet w.firstRowNum := by
  set hl := AoHeader.size false w.storageAttributes.checksum w.isFirstRowNumSet
  have hdata : (w.buffer.write hl content).read hl content.length = content :=
    read_write_self _ _ _
  obtain ⟨m, hm, -⟩ := smallContentHeader_roundTrip crc
    (AOStorage.zeroPad (w.buffer.write hl content) hl content.length
      (AOStorage.roundUpValid content.length w.formatVersion))
    w.storageAttributes.checksum w.isFirstRowNumSet hv w.firstRowNum hek hrc
    (w.length_lt_of_le_sub (hcur ▸ hlen)) (Nat.zero_le _) le_rfl
  have hblock := smallContentBlockAt_of_make crc hv hek hrc (w.length_lt_of_le_sub (hcur ▸ hlen))
    hdata (.inl ⟨rfl, rfl⟩) hm
  rw [hcur] at hlen
  simp only [finishBuffer, hcur, if_neg (show ¬ content.length > w.maxBufferLen - hl by omega),
    hnone, AOStorage.roundUp_of_isValid hv, hkind, Except.ok_bind, hm, Except.pure_eq_ok]
  refine ⟨_, _, rfl, rfl, ⟨rfl, rfl, rfl, fun h => absurd h Bool.false_ne_true⟩, rfl,
    m, 0, hblock, ?_⟩
  rw [length_read]
  exact w.size_add_roundUpValid_le _ _ hlen


theorem compressAppend_smallContent (w : AppendOnlyStorageWrite) (cfns : CompressionFunctions)
    (content : List UInt8) (executorBlockKind rowCount : ℕ)
    (hv : AOSegfileFormatVersion.IsValid w.formatVersion)
    (hcfns : w.storageAttributes.compression = some cfns)
    (hround : cfns.InverseOnStored ∧ cfns.NonemptyOutput)
    (hkind : w.getBufferAoHeaderKind = .SmallContent)
    (hlen : content.length ≤
      w.maxBufferLen - AoHeader.size false w.storageAttributes.checksum w.isFirstRowNumSet)
    (hek : executorBlockKind < 2 ^ 3) (hrc : rowCount < 2 ^ 14) :
    ∃ compressedLen bufferLen m, w.compressAppend crc cfns content executorBlockKind rowCount =
        .ok (compressedLen, bufferLen, { w with
          currentCompleteHeaderLen :=
            AoHeader.size false w.storageAttributes.checksum w.isFirstRowNumSet
          buffer := m }) ∧
      SmallContentBlockAt crc w.storageAttributes w.formatVersion m (m.read 0 bufferLen) content
        executorBlockKind rowCount w.isFirstRowNumSet w.firstRowNum compressedLen ∧
      bufferLen ≤ w.maxBufferLen := by
  set hl := AoHeader.size false w.storageAttributes.checksum w.isFirstRowNumSet with hhl
  have hlt := w.length_lt_of_le_sub hlen
  set compressed := cfns.compress content with hcompressed
  by_cases hge : compressed.length ≥ content.length
  · -- not shorter: the source is copied over the compressor's output and stored raw
    have hdata : ((w.buffer.write hl compressed).write hl content).read hl content.length =
        content := read_write_self _ _ _
    obtain ⟨m, hm, -⟩ := smallContentHeader_roundTrip crc
      (AOStorage.zeroPad ((w.buffer.write hl compressed).write hl content) hl content.length
        (AOStorage.roundUpValid content.length w.formatVersion))
      w.storageAttributes.checksum w.isFirstRowNumSet hv w.firstRowNum hek hrc hlt
      (Nat.zero_le _) le_rfl
    refine ⟨0, _, m, ?_, smallContentBlockAt_of_make crc hv hek hrc hlt hdata (.inl ⟨rfl, rfl⟩) hm,
      w.size_add_roundUpValid_le _ _ hlen⟩
    simp only [compressAppend, hkind, completeHeaderLen_smallContent, ← hhl, Except.ok_bind,
      ← hcompressed, if_pos hge, AOStorage.roundUp_of_isValid hv, hm, Except.pure_eq_ok]
  · -- shorter: the compressor's output is kept, and it is not empty
    have hne : content ≠ [] := by
      rintro rfl
      simp at hge
    have hpos : 0 < compressed.length := List.length_pos_iff.mpr (hround.2 content hne)
    have hshorter : compressed.length < content.length := by omega
    have hdata : (w.buffer.write hl compressed).read hl compressed.length = compressed :=
      read_write_self _ _ _
    have hkept : StoredAs w.storageAttributes content compressed compressed.length :=
      .inr ⟨rfl, hpos, hshorter, cfns, hcfns, hround.1 content hshorter⟩
    obtain ⟨m, hm, -⟩ := smallContentHeader_roundTrip crc
      (AOStorage.zeroPad (w.buffer.write hl compressed) hl compressed.length
        (AOStorage.roundUpValid compressed.length w.formatVersion))
      w.storageAttributes.checksum w.isFirstRowNumSet hv w.firstRowNum hek hrc hlt hkept.le
      (by rw [hkept.length_eq])
    refine ⟨compressed.length, _, m, ?_, smallContentBlockAt_of_make crc hv hek hrc hlt hdata hkept hm,
      w.size_add_roundUpValid_le _ _ (by rw [← hhl]; omega)⟩
    simp only [compressAppend, hkind, completeHeaderLen_smallContent, ← hhl, Except.ok_bind,
      ← hcompressed, if_neg hge, AOStorage.roundUp_of_isValid hv, hm, Except.pure_eq_ok]


/-- **One small content block.** Both branches of the small case of
`AppendOnlyStorageWrite_Content` append one small content block holding the content. -/
theorem writeSmallContent_spec (w : AppendOnlyStorageWrite) (content : List UInt8)
    (executorBlockKind rowCount : ℕ) (hv : AOSegfileFormatVersion.IsValid w.formatVersion)
    (hcomp : w.storageAttributes.CompressionRoundTrips)
    (hlen : content.length ≤
      w.maxBufferLen - AoHeader.size false w.storageAttributes.checksum w.isFirstRowNumSet)
    (hek : executorBlockKind < 2 ^ 3) (hrc : rowCount < 2 ^ 14) :
    ∃ w' B, w.writeSmallContent crc content executorBlockKind rowCount = .ok w' ∧
      w'.file = w.file ++ B ∧ Keeps w w' ∧
      SmallContentBlock crc w.storageAttributes w.formatVersion w.maxBufferLen B content
        executorBlockKind rowCount w.isFirstRowNumSet w.firstRowNum := by
  cases hc : w.storageAttributes.compression with
  | none =>
    let w₁ : AppendOnlyStorageWrite :=
      { w with
        getBufferAoHeaderKind := .SmallContent
        currentCompleteHeaderLen :=
          AoHeader.size false w.storageAttributes.checksum w.isFirstRowNumSet }
    obtain ⟨w', B, hw', hfile, hkeeps, -, hblock⟩ := finishBuffer_smallContent crc w₁ content
      executorBlockKind rowCount hv hc rfl rfl hlen hek hrc
    refine ⟨w', B, ?_, hfile, (show Keeps w w₁ from ⟨rfl, rfl, rfl, id⟩).trans hkeeps,
      hblock⟩
    simp only [writeSmallContent, hc, getBuffer, completeHeaderLen_smallContent, Except.ok_bind,
      Except.pure_eq_ok]
    exact hw'
  | some cfns =>
    obtain ⟨compressedLen, bufferLen, m, hw₁, hblock, hle⟩ := compressAppend_smallContent crc
      { w with getBufferAoHeaderKind := .SmallContent } cfns content executorBlockKind rowCount hv
      hc (hcomp cfns hc) rfl hlen hek hrc
    obtain ⟨w', hw', hfile, hkeeps⟩ : ∃ w', w.writeSmallContent crc content executorBlockKind
        rowCount = .ok w' ∧ w'.file = w.file ++ m.read 0 bufferLen ∧ Keeps w w' := by
      simp only [writeSmallContent, hc, hw₁, Except.ok_bind, Except.pure_eq_ok]
      exact ⟨_, rfl, rfl, rfl, rfl, rfl, id⟩
    exact ⟨w', _, hw', hfile, hkeeps, m, compressedLen, hblock, by rw [length_read]; exact hle⟩


/-! ## Large content -/

/-- The writer of fragments has no first row number to write: a small content block without one
is a fragment whatever the writer's stale `firstRowNum`. -/
theorem fragmentBlock_of_smallContentBlock {attrs : AppendOnlyStorageAttributes}
    {version maxBufferLen executorBlockKind : ℕ} {B fragment : List UInt8} {firstRowNum : Int64}
    (h : SmallContentBlock crc attrs version maxBufferLen B fragment executorBlockKind 0 false
      firstRowNum) :
    FragmentBlock crc attrs version maxBufferLen executorBlockKind B fragment := by
  obtain ⟨m, compressedLen, hat, hle⟩ := h
  exact ⟨m, compressedLen, { hat with contentInfo := hat.contentInfo }, hle⟩

/-- **The fragment loop.** Content that is not empty goes out as one fragment block for each of
its pieces of `maxSmallContentLen` bytes, when that is the room a small content block without a
first row number leaves. -/
theorem writeFragments_spec (maxSmallContentLen : ℕ+) (executorBlockKind : ℕ)
    (hek : executorBlockKind < 2 ^ 3) (contentNext : List UInt8) (hne : contentNext ≠ []) :
    ∀ w : AppendOnlyStorageWrite, AOSegfileFormatVersion.IsValid w.formatVersion →
      w.storageAttributes.CompressionRoundTrips → w.isFirstRowNumSet = false →
      (maxSmallContentLen : ℕ) =
        w.maxBufferLen - AoHeader.size false w.storageAttributes.checksum false →
      ∃ w' blocks, w.writeFragments crc maxSmallContentLen executorBlockKind contentNext = .ok w' ∧
        w'.file = w.file ++ blocks.flatten ∧ Keeps w w' ∧
        List.Forall₂ (FragmentBlock crc w.storageAttributes w.formatVersion w.maxBufferLen
          executorBlockKind) blocks (Pieces.pieces maxSmallContentLen contentNext) := by
  induction contentNext using Pieces.pieces_induction (n := maxSmallContentLen) with
  | nil => exact absurd rfl hne
  | step xs hxs ih =>
    intro w hv hcomp hfrn hmax
    -- the block of this round holds the first piece, of `maxSmallContentLen` bytes at most
    have htake : xs.take (if xs.length ≤ maxSmallContentLen then xs.length
        else maxSmallContentLen) = xs.take maxSmallContentLen := by
      split_ifs with hle
      · rw [List.take_of_length_le le_rfl, List.take_of_length_le hle]
      · rfl
    have hlen : (xs.take maxSmallContentLen).length ≤
        w.maxBufferLen - AoHeader.size false w.storageAttributes.checksum w.isFirstRowNumSet := by
      rw [hfrn, ← hmax]
      exact List.length_take_le _ _
    obtain ⟨w₁, B, hw₁, hfile₁, hkeeps₁, hblock⟩ := writeSmallContent_spec crc w
      (xs.take maxSmallContentLen) executorBlockKind 0 hv hcomp hlen hek (by norm_num)
    rw [hfrn] at hblock
    rw [writeFragments, htake, hw₁, Except.ok_bind]
    by_cases hle : xs.length ≤ maxSmallContentLen
    · -- the last round: what remains fits
      have hdone : xs.length - (if xs.length ≤ maxSmallContentLen then xs.length
          else maxSmallContentLen) = 0 := by
        rw [if_pos hle, Nat.sub_self]
      refine ⟨w₁, [B], by rw [dif_pos hdone]; rfl, by simpa using hfile₁, hkeeps₁, ?_⟩
      rw [Pieces.pieces_of_length_le hxs hle, ← List.take_of_length_le hle]
      exact .cons (fragmentBlock_of_smallContentBlock crc hblock) .nil
    · -- a full piece, then the fragments of the rest
      have hmore : xs.length - (if xs.length ≤ maxSmallContentLen then xs.length
          else maxSmallContentLen) ≠ 0 := by
        rw [if_neg hle]
        omega
      have hdrop : xs.drop maxSmallContentLen ≠ [] := by
        rw [← List.length_pos_iff, List.length_drop]
        omega
      obtain ⟨w', blocks, hw', hfile', hkeeps', hblocks⟩ := ih hdrop w₁
        (hkeeps₁.formatVersion_eq ▸ hv) (hkeeps₁.storageAttributes_eq ▸ hcomp)
        (Bool.eq_false_iff.mpr fun h => by simpa [hfrn] using hkeeps₁.isFirstRowNumSet_imp h)
        (by rw [hkeeps₁.maxBufferLen_eq, hkeeps₁.storageAttributes_eq, hmax])
      rw [hkeeps₁.storageAttributes_eq, hkeeps₁.formatVersion_eq,
        hkeeps₁.maxBufferLen_eq] at hblocks
      refine ⟨w', B :: blocks, by rw [dif_neg hmore, if_neg hle]; exact hw', ?_, hkeeps₁.trans hkeeps', ?_⟩
      · rw [hfile', hfile₁, List.flatten_cons, List.append_assoc]
      · rw [Pieces.pieces_of_ne_nil hxs]
        exact .cons (fragmentBlock_of_smallContentBlock crc hblock) hblocks


/-- **Large content.** The large branch of `AppendOnlyStorageWrite_Content` appends a large content
header announcing the content, then its pieces as fragments. -/
theorem writeLargeContent_spec (w : AppendOnlyStorageWrite) (content : List UInt8)
    (executorBlockKind rowCount : ℕ) (hv : AOSegfileFormatVersion.IsValid w.formatVersion)
    (hcomp : w.storageAttributes.CompressionRoundTrips) (hek : executorBlockKind < 2 ^ 3)
    (hrc : rowCount < 2 ^ 25) (hlen : content.length < 2 ^ 30) (hne : content ≠ []) :
    ∃ w' W, ∃ n : ℕ+, w.writeLargeContent crc content executorBlockKind rowCount = .ok w' ∧
      w'.file = w.file ++ W ∧ Keeps w w' ∧
      (n : ℕ) = w.maxBufferLen - AoHeader.size false w.storageAttributes.checksum false ∧
      LargeContentBlocks crc w.storageAttributes w.formatVersion w.maxBufferLen W content
        executorBlockKind rowCount w.isFirstRowNumSet w.firstRowNum (Pieces.pieces n content) := by
  obtain ⟨m, hm, hheader, hinfo, hsum⟩ := largeContentHeader_roundTrip crc w.buffer
    w.storageAttributes.checksum w.isFirstRowNumSet hv w.firstRowNum hek hrc hlen
    (List.length_pos_iff.mpr hne)
  -- the header-only block, then a writer without a first row number for the fragments
  let w₀ : AppendOnlyStorageWrite :=
    { ({ w with buffer := m }.bufferedAppendFinishBuffer w.largeContentHeaderLen) with
      currentCompleteHeaderLen := 0
      isFirstRowNumSet := false }
  have hH : LargeContentHeaderAt crc w.storageAttributes m (m.read 0 w.largeContentHeaderLen)
      content.length executorBlockKind rowCount w.isFirstRowNumSet w.firstRowNum := by
    refine ⟨by rw [length_read], by rw [length_read, largeContentHeaderLen_eq], ?_, ?_, hsum⟩
    · rw [length_read, largeContentHeaderLen_eq]
      exact hheader
    · rw [length_read, largeContentHeaderLen_eq]
      exact hinfo
  have hkeeps₀ : Keeps w w₀ := ⟨rfl, rfl, rfl, fun h => absurd h Bool.false_ne_true⟩
  have hsmall : w₀.completeHeaderLen .SmallContent =
      .ok (AoHeader.size false w.storageAttributes.checksum false) :=
    completeHeaderLen_smallContent w₀
  have hpos : 0 < w₀.maxBufferLen - AoHeader.size false w.storageAttributes.checksum false :=
    maxSmallContentLen_pos hsmall
  set n : ℕ+ := ⟨w.maxBufferLen - AoHeader.size false w.storageAttributes.checksum false, hpos⟩
    with hn
  obtain ⟨w', blocks, hw', hfile', hkeeps', hblocks⟩ := writeFragments_spec crc n executorBlockKind
    hek content hne w₀ hv hcomp rfl rfl
  refine ⟨w', m.read 0 w.largeContentHeaderLen ++ blocks.flatten, n, ?_, ?_,
    hkeeps₀.trans hkeeps', rfl, _, blocks, rfl, ⟨m, hH⟩, hblocks⟩
  · simp only [writeLargeContent, hm, Except.ok_bind]
    split
    · next e heq => rw [hsmall] at heq; cases heq
    · next len heq =>
      rw [hsmall] at heq
      cases heq
      exact hw'
  · rw [hfile', ← List.append_assoc]
    rfl


/-! ## Content -/

/-- The row count fits the header the content gets: fourteen bits in a small content header,
twenty-five in a large content header. -/
def RowCountFits (w : AppendOnlyStorageWrite) (contentLen rowCount : ℕ) : Prop :=
  if contentLen ≤
      w.maxBufferLen - AoHeader.size false w.storageAttributes.checksum w.isFirstRowNumSet then
    rowCount < 2 ^ 14
  else rowCount < 2 ^ 25

instance (w : AppendOnlyStorageWrite) (contentLen rowCount : ℕ) :
    Decidable (w.RowCountFits contentLen rowCount) :=
  inferInstanceAs (Decidable (ite _ _ _))

/-- **What `AppendOnlyStorageWrite_Content` appends.** Content that fits one block after a small
content header becomes one small content block; longer content becomes a large content header and
one fragment for each piece of `maxSmallContentLen` bytes. -/
theorem content_spec (w : AppendOnlyStorageWrite) (content : List UInt8)
    (executorBlockKind rowCount : ℕ) (hv : AOSegfileFormatVersion.IsValid w.formatVersion)
    (hcomp : w.storageAttributes.CompressionRoundTrips) (hek : executorBlockKind < 2 ^ 3)
    (hrc : w.RowCountFits content.length rowCount) (hlen : content.length < 2 ^ 30)
    (hne : content ≠ []) :
    ∃ w' W, w.content crc content executorBlockKind rowCount = .ok w' ∧
      w'.file = w.file ++ W ∧ Keeps w w' ∧ w'.isFirstRowNumSet = false ∧
      (content.length ≤
          w.maxBufferLen - AoHeader.size false w.storageAttributes.checksum w.isFirstRowNumSet →
        SmallContentBlock crc w.storageAttributes w.formatVersion w.maxBufferLen W content
          executorBlockKind rowCount w.isFirstRowNumSet w.firstRowNum) ∧
      (w.maxBufferLen - AoHeader.size false w.storageAttributes.checksum w.isFirstRowNumSet <
          content.length → ∃ n : ℕ+,
        (n : ℕ) = w.maxBufferLen - AoHeader.size false w.storageAttributes.checksum false ∧
        LargeContentBlocks crc w.storageAttributes w.formatVersion w.maxBufferLen W content
          executorBlockKind rowCount w.isFirstRowNumSet w.firstRowNum
          (Pieces.pieces n content)) := by
  unfold RowCountFits at hrc
  by_cases hsmall : content.length ≤
      w.maxBufferLen - AoHeader.size false w.storageAttributes.checksum w.isFirstRowNumSet
  · rw [if_pos hsmall] at hrc
    obtain ⟨w', B, hw', hfile, hkeeps, hblock⟩ :=
      writeSmallContent_spec crc w content executorBlockKind rowCount hv hcomp hsmall hek hrc
    refine ⟨{ w' with isFirstRowNumSet := false }, B, ?_, hfile,
      ⟨hkeeps.maxBufferLen_eq, hkeeps.storageAttributes_eq, hkeeps.formatVersion_eq,
        fun h => absurd h Bool.false_ne_true⟩, rfl, fun _ => hblock, fun hlt => by omega⟩
    simp only [AppendOnlyStorageWrite.content, completeHeaderLen_smallContent, Except.ok_bind,
      if_pos hsmall, hw', Except.pure_eq_ok]
  · rw [if_neg hsmall] at hrc
    obtain ⟨w', W, n, hw', hfile, hkeeps, hn, hblocks⟩ :=
      writeLargeContent_spec crc w content executorBlockKind rowCount hv hcomp hek hrc hlen hne
    refine ⟨{ w' with isFirstRowNumSet := false }, W, ?_, hfile,
      ⟨hkeeps.maxBufferLen_eq, hkeeps.storageAttributes_eq, hkeeps.formatVersion_eq,
        fun h => absurd h Bool.false_ne_true⟩, rfl, fun hle => absurd hle hsmall,
      fun _ => ⟨n, hn, hblocks⟩⟩
    simp only [AppendOnlyStorageWrite.content, completeHeaderLen_smallContent, Except.ok_bind,
      if_neg hsmall, hw', Except.pure_eq_ok]

end AppendOnlyStorageWrite

end Cloudberry.AppendOnly
