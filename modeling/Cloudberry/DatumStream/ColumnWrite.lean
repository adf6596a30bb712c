import Cloudberry.DatumStream.Column
import Cloudberry.DatumStream.OrigRoundTrip
import Cloudberry.AppendOnly.ContentRoundTrip

/-!
# What the column writer appends

`aocs_insert_values` hands each value of a column to its `DatumStreamWrite`. When the datum stream
block refuses a value, the block goes out as the content of a small content block of the segment
file (`datumstreamwrite_block_orig`), and a value that not even the empty block takes goes out as
the content of a block of its own (`datumstreamwrite_lob`). Both set the block's first row number
and then write one content: the column writer is a caller of `writeItem` of the storage layer
(`blockOrig_eq`, `lob_eq`).

`Written` says what a column block holds for a reader: the content item the writer wrote, and
the values in it. `Writes` is the writer's invariant over a run of rows: the blocks written so far
are what `writeItems` appends, in order, and the block writer holds the values taken since the
last one.

* `Writes.insertValue`: a row keeps the invariant, its value either in the block writer or in the
  blocks written after the values before it;
* `Writes.insertValues` and `Writes.finish`: after a run of rows and the last block, the blocks
  written hold every value, in order.

A value the column takes is a NULL, or a datum the type admits that fits an empty block or that is
a varlena with a four-byte header (`Insertable`). Of any other datum the writer gives up in
`datumstreamwrite_lob`: a fixed-length one, or a varlena with a one-byte header, is no large
object.
-/

namespace Cloudberry

namespace AppendOnly.AppendOnlyStorageWrite

variable (crc : List UInt8 → UInt32)

/-- A small content block got and finished by the caller, as `datumstreamwrite_block_orig` does,
is what `AppendOnlyStorageWrite_Content` writes for content that fits. -/
theorem getBuffer_finishBuffer (w : AppendOnlyStorageWrite) (content : List UInt8)
    (executorBlockKind rowCount : ℕ)
    (hfit : content.length ≤
      w.maxBufferLen - AoHeader.size false w.storageAttributes.checksum w.isFirstRowNumSet) :
    (do let w ← w.getBuffer .SmallContent; w.finishBuffer crc content executorBlockKind rowCount) =
      w.content crc content executorBlockKind rowCount := by
  have hsmall : ¬ content.length >
      w.maxBufferLen - AoHeader.size false w.storageAttributes.checksum w.isFirstRowNumSet :=
    not_lt.mpr hfit
  cases hc : w.storageAttributes.compression with
  | none =>
    simp only [getBuffer, AppendOnlyStorageWrite.content, completeHeaderLen_smallContent,
      Except.ok_bind, if_pos hfit, writeSmallContent, hc, finishBuffer, bind_assoc, pure_bind,
      hsmall, if_false]
  | some cfns =>
    -- the compressor takes the header length from the header kind, not from the buffer got
    simp only [getBuffer, AppendOnlyStorageWrite.content, completeHeaderLen_smallContent,
      Except.ok_bind, if_pos hfit, writeSmallContent, hc, finishBuffer, bind_assoc, pure_bind,
      hsmall, if_false]
    rfl

end AppendOnly.AppendOnlyStorageWrite

namespace DatumStream.Orig

open AppendOnly
open AppendOnly.AppendOnlyStorageWrite (Keeps writeItems)

/-- `MAXDATUM_PER_AOCS_ORIG_BLOCK`, which is `AOSmallContentHeader_MaxRowCount`. -/
def maxdatumPerAocsOrigBlock : ℕ := 0x3FFF

/-- The room `create_datumstreamwrite` gives an Original block: the table's block size less the
header of a small content block that keeps a first row number. -/
def maxDataBlockSizeOrig (w : AppendOnlyStorageWrite) : ℕ :=
  w.maxBufferLen - AoHeader.size false w.storageAttributes.checksum true

section MaxDataBlockSize

variable (w : AppendOnlyStorageWrite)

theorem maxDataBlockSizeOrig_bounds :
    24 < maxDataBlockSizeOrig w ∧ maxDataBlockSizeOrig w ≤ 2 ^ 21 ∧
      maxDataBlockSizeOrig w % 8 = 0 := by
  obtain ⟨hmin, hmax, hmod⟩ := w.maxBufferLen_valid
  unfold maxDataBlockSizeOrig
  simp only [minAppendonlyBlockSize, maxAppendonlyBlockSize] at hmin hmax hmod
  cases w.storageAttributes.checksum <;>
    simp only [AoHeader.size, AoHeader.regularSize, Bool.false_eq_true, ↓reduceIte] <;> omega

end MaxDataBlockSize

/-! ## The writes of the column writer -/

namespace DatumStreamWrite

variable (crc : List UInt8 → UInt32) {acc : DatumStreamWrite}

/-- `datumstreamwrite_block_orig` writes the block as one content item: its bytes, as a block of
datums with its count of rows and the block's first row number. -/
theorem blockOrig_eq {bytes : List UInt8} (hb : acc.blockWrite.blockOrig = .ok bytes)
    (hfit : bytes.length ≤ maxDataBlockSizeOrig acc.aoWrite) :
    acc.blockOrig crc = (do
      let aoWrite ← { acc.aoWrite with isFirstRowNumSet := false }.writeItem crc
        ⟨bytes, AOCSBK.BLOCK.toNat, acc.blockWrite.nth, some acc.blockFirstRowNum⟩
      pure (bytes.length, { acc with aoWrite, blockWrite := acc.blockWrite.getReady })) := by
  have hcontent := AppendOnlyStorageWrite.getBuffer_finishBuffer crc
    (acc.aoWrite.setFirstRowNum acc.blockFirstRowNum) bytes AOCSBK.BLOCK.toNat acc.blockWrite.nth
    hfit
  simp only [blockOrig, hb, Except.ok_bind]
  rw [← bind_assoc, hcontent]
  rfl

/-- `datumstreamwrite_lob` writes a varlena with a four-byte header as one content item: its
bytes, as a large object of one row with the block's first row number. -/
theorem lob_eq {d : Datum} (hneg : acc.blockWrite.typeInfo.datumlen < 0)
    (h4 : varattIs4BU d.pointee = true) :
    acc.lob crc d = (do
      let aoWrite ← { acc.aoWrite with isFirstRowNumSet := false }.writeItem crc
        ⟨d.pointee.take (varsizeAny d.pointee), AOCSBK.BLOB.toNat, 1, some acc.blockFirstRowNum⟩
      pure (varsizeAny d.pointee, { acc with aoWrite })) := by
  simp only [lob, not_le.mpr hneg, h4, Bool.not_true, Bool.false_eq_true, if_false]
  rfl

end DatumStreamWrite

/-! ## A block writer that took nothing -/

namespace DatumStreamBlockWrite

variable {dsw : DatumStreamBlockWrite}

theorem Stores.datumBuffer_eq_nil (h : dsw.Stores []) : dsw.datumBuffer = [] := by
  obtain ⟨L, hL, hmap⟩ := h
  obtain rfl : L = [] := List.map_eq_nil_iff.1 hmap
  -- with no datum the data is at most the zeros of an alignment of nothing
  apply List.eq_nil_of_length_eq_zero
  rcases hL.tail.length_eq with hlen | ⟨-, hlen⟩ <;> simpa [lastEnd] using hlen

/-- An empty block refuses only what it has no room for: never a NULL, and a datum only when it
is no shorter than the room after the header. The writer is then as it was, with nothing to
align. -/
theorem putOrig_refused_of_empty (hc : dsw.Counts []) (hs : dsw.Stores [])
    (hcount : 1 < dsw.maxDatumPerBlock) (hroom : 24 < dsw.maxDataBlockSize) {d : Datum}
    {null : Bool} {r : ℤ} {dsw' : DatumStreamBlockWrite} (hput : dsw.putOrig d null = .ok (r, dsw'))
    (hr : r < 0) :
    dsw' = dsw ∧ null = false ∧ dsw.maxDataBlockSize ≤ 16 + itemSize dsw.typeInfo d := by
  have hbuf := hs.datumBuffer_eq_nil
  have hnth : dsw.nth = 0 := hc.nth_eq
  have hnull : dsw.hasNull = false := hc.hasNull_eq
  have halign : dsw.alignFor d = dsw := by
    have hpad : (if alignsFirst dsw.typeInfo d then attAlignZero dsw.datumBuffer dsw.typeInfo.align
        else dsw.datumBuffer) = dsw.datumBuffer := by
      split_ifs <;> simp [hbuf, attAlignZero]
    rw [alignFor_eq, hpad]
  rcases putOrig_cases dsw hput with ⟨-, hns, -, -⟩ | ⟨-, -, rfl, -⟩ | ⟨rfl, hns, -, rfl⟩ |
    ⟨-, -, rfl, -⟩
  · -- a NULL: an empty block has room for it and its bit-map
    have hbits : maxAlign (datumStreamBitMapSize (dsw.alwaysNullBitmapCount + 1)) = 8 := by
      rw [hc.alwaysNullBitmapCount_eq]
      decide
    have hspace : dsw.origHasSpace true 0 = true :=
      origHasSpace_iff.mpr ⟨by omega, by simp only [Bool.true_or, if_true, hbits, hbuf]; simp; omega⟩
    rw [hspace] at hns
    cases hns
  · omega
  · refine ⟨halign, rfl, ?_⟩
    rw [halign] at hns
    have hno := origHasSpace_iff.not.mp (by rw [hns]; exact Bool.false_ne_true)
    simp only [Bool.false_or, hnull, Bool.false_eq_true, if_false, hbuf, List.length_nil,
      hnth] at hno
    omega
  · omega

end DatumStreamBlockWrite

/-! ## The blocks of a column -/

/-- What the column takes in a row: a NULL, or a datum the type admits that fits an empty block
of `maxDataBlockSize` bytes, or that is a varlena with a four-byte header, which can go out as a
large object. -/
def Insertable (typeInfo : DatumStreamTypeInfo) (maxDataBlockSize : ℕ) (d : Datum) (null : Bool) :
    Prop :=
  null = false → typeInfo.Admits d ∧
    (16 + itemSize typeInfo d < maxDataBlockSize ∨
      typeInfo.datumlen = -1 ∧ varattIs4BU d.pointee = true)

instance (typeInfo : DatumStreamTypeInfo) (maxDataBlockSize : ℕ) (d : Datum) (null : Bool) :
    Decidable (Insertable typeInfo maxDataBlockSize d null) :=
  inferInstanceAs (Decidable (_ → _ ∧ _))

/-- What a column block holds for a reader, in a column of the type `typeInfo` whose blocks have
room for `maxDataBlockSize` bytes: the content item the writer wrote for it, and its values. -/
inductive Written (typeInfo : DatumStreamTypeInfo) (maxDataBlockSize : ℕ) :
    ContentItem → List (Option Datum) → Prop
  /-- The datum stream block of the values a block writer of the column took, written out with
  its count of rows. -/
  | block {dsw : DatumStreamBlockWrite} {items : List (Option Datum)} {bytes : List UInt8}
      (firstRowNum : Int64) :
      dsw.typeInfo = typeInfo → dsw.maxDataBlockSize = maxDataBlockSize →
      dsw.maxDatumPerBlock = maxdatumPerAocsOrigBlock → dsw.Invariant items → dsw.Stores items →
      items ≠ [] → dsw.blockOrig = .ok bytes →
      Written typeInfo maxDataBlockSize ⟨bytes, AOCSBK.BLOCK.toNat, dsw.nth, some firstRowNum⟩ items
  /-- A varlena with a four-byte header, written alone as a large object. -/
  | lob {d : Datum} (firstRowNum : Int64) :
      typeInfo.datumlen = -1 → varattIs4BU d.pointee = true → typeInfo.Admits d →
      Written typeInfo maxDataBlockSize
        ⟨d.pointee.take (varsizeAny d.pointee), AOCSBK.BLOB.toNat, 1, some firstRowNum⟩ [some d]

/-- The size of a varlena with a four-byte header that is all there, and its bytes. -/
theorem varsizeAny_of_varattIs4BU {p : List UInt8} (h4 : varattIs4BU p = true)
    (hin : InLine p) :
    varsizeAny p = varsize4B p ∧ 4 ≤ varsize4B p ∧ varsize4B p ≤ p.length ∧
      varsize4B p < 2 ^ 30 := by
  have hsize := varsizeAny_of_inLine hin
  rw [varattIs1B_of_varattIs4BU h4, if_neg Bool.false_ne_true] at hsize
  rcases hin with ⟨h1, -⟩ | ⟨-, h4le, hle⟩
  · rw [varattIs1B_of_varattIs4BU h4] at h1
    cases h1
  · have hmask : varsize4B p ≤ 0x3FFFFFFF := Nat.and_le_right
    exact ⟨hsize, h4le, hle, by omega⟩

/-- A block the column writer wrote is one that the storage writer of the table takes. -/
theorem Written.fits {typeInfo : DatumStreamTypeInfo} {w : AppendOnlyStorageWrite}
    {item : ContentItem} {vals : List (Option Datum)}
    (h : Written typeInfo (maxDataBlockSizeOrig w) item vals) :
    item.Fits w.maxBufferLen w.storageAttributes.checksum := by
  obtain ⟨-, hle, h8⟩ := maxDataBlockSizeOrig_bounds w
  cases h with
  | @block dsw items bytes firstRowNum _ hmax hcount hinv _ hne hb =>
    rw [DatumStreamBlockWrite.blockOrig_eq, Except.ok.injEq] at hb
    subst hb
    have hlen := hinv.fits.length_blockOrig_le (hmax ▸ h8)
    have hnth : dsw.nth < maxdatumPerAocsOrigBlock := hcount ▸ hinv.counts.nth_lt.resolve_left hne
    unfold maxdatumPerAocsOrigBlock at hnth
    unfold ContentItem.Fits
    dsimp only
    refine ⟨?_, by omega, by decide, by split_ifs <;> omega⟩
    -- the header alone is sixteen bytes
    apply List.ne_nil_of_length_pos
    simp only [List.length_append, length_origHeader]
    omega
  | @lob d firstRowNum h1 h4 hd =>
    have hin : InLine d.pointee := by simpa [DatumStreamTypeInfo.Admits, h1] using hd
    obtain ⟨hsize, h4le, hlen, hlt⟩ := varsizeAny_of_varattIs4BU h4 hin
    have htake : (d.pointee.take (varsizeAny d.pointee)).length = varsize4B d.pointee := by
      rw [List.length_take, hsize]
      omega
    unfold ContentItem.Fits
    dsimp only
    refine ⟨List.ne_nil_of_length_pos (by omega), by rw [htake]; exact hlt, by decide,
      by split_ifs <;> decide⟩

theorem maxDataBlockSizeOrig_eq_of_keeps {w w' : AppendOnlyStorageWrite} (h : Keeps w w') :
    maxDataBlockSizeOrig w' = maxDataBlockSizeOrig w := by
  rw [maxDataBlockSizeOrig, maxDataBlockSizeOrig, h.maxBufferLen_eq, h.storageAttributes_eq]

/-! ## The writer's invariant -/

section Writes

variable (crc : List UInt8 → UInt32) (w₀ : AppendOnlyStorageWrite) (typeInfo : DatumStreamTypeInfo)

/-- The column writer's invariant over a run of rows, from the storage writer `w₀` of an empty
segment file: the blocks it wrote, in order, each with its values, are what `writeItems` appends
from `w₀`, its storage writer is then that one with the first row number of the next block yet to
be set, and its block writer, of the column's type and limits, holds the values `items` taken
since the last block. -/
structure Writes (acc : DatumStreamWrite) (blocks : List (ContentItem × List (Option Datum)))
    (items : List (Option Datum)) : Prop where
  writeItems_eq :
    w₀.writeItems crc (blocks.map Prod.fst) = .ok { acc.aoWrite with isFirstRowNumSet := false }
  keeps : Keeps w₀ { acc.aoWrite with isFirstRowNumSet := false }
  written : ∀ b ∈ blocks, Written typeInfo (maxDataBlockSizeOrig w₀) b.1 b.2
  typeInfo_eq : acc.blockWrite.typeInfo = typeInfo
  maxDataBlockSize_eq : acc.blockWrite.maxDataBlockSize = maxDataBlockSizeOrig w₀
  maxDatumPerBlock_eq : acc.blockWrite.maxDatumPerBlock = maxdatumPerAocsOrigBlock
  invariant : acc.blockWrite.Invariant items
  stores : acc.blockWrite.Stores items

/-- The writer `create_datumstreamwrite` makes for a column of a fresh segment file, its block
writer got ready, starts the invariant, whatever first row number the storage writer had. -/
theorem writes_init (aoWrite : AppendOnlyStorageWrite) (dsw : DatumStreamBlockWrite)
    (blockFirstRowNum : Int64) (hti : dsw.typeInfo.WellFormed)
    (hmax : dsw.maxDataBlockSize = maxDataBlockSizeOrig aoWrite)
    (hcount : dsw.maxDatumPerBlock = maxdatumPerAocsOrigBlock) :
    Writes crc { aoWrite with isFirstRowNumSet := false } dsw.typeInfo
      ⟨aoWrite, blockFirstRowNum, dsw.getReady⟩ [] [] := by
  obtain ⟨hroom, -, -⟩ := maxDataBlockSizeOrig_bounds aoWrite
  exact ⟨rfl, Keeps.refl _, fun _ h => absurd h List.not_mem_nil, rfl, hmax, hcount,
    DatumStreamBlockWrite.getReady_invariant hti (by omega),
    DatumStreamBlockWrite.getReady_stores dsw⟩

variable {crc w₀ typeInfo}

namespace Writes

variable {acc : DatumStreamWrite} {blocks : List (ContentItem × List (Option Datum))}
  {items : List (Option Datum)}

theorem withBlockFirstRowNum (h : Writes crc w₀ typeInfo acc blocks items) (f : Int64) :
    Writes crc w₀ typeInfo { acc with blockFirstRowNum := f } blocks items :=
  ⟨h.writeItems_eq, h.keeps, h.written, h.typeInfo_eq, h.maxDataBlockSize_eq,
    h.maxDatumPerBlock_eq, h.invariant, h.stores⟩

/-- A put keeps the invariant, the value taken when the put returned no negative size. -/
theorem putOrig (h : Writes crc w₀ typeInfo acc blocks items) {d : Datum} {null : Bool}
    (hd : null = false → typeInfo.Admits d) {r : ℤ} {bw : DatumStreamBlockWrite}
    (hput : acc.blockWrite.putOrig d null = .ok (r, bw)) :
    Writes crc w₀ typeInfo { acc with blockWrite := bw } blocks
      (items ++ if 0 ≤ r then [itemOf d null] else []) := by
  obtain ⟨hti, hcount, hmax⟩ := DatumStreamBlockWrite.putOrig_config hput
  have hd' : null = false → acc.blockWrite.typeInfo.Admits d := h.typeInfo_eq ▸ hd
  exact ⟨h.writeItems_eq, h.keeps, h.written, hti.trans h.typeInfo_eq,
    hmax.trans h.maxDataBlockSize_eq, hcount.trans h.maxDatumPerBlock_eq,
    h.invariant.putOrig hd' hput, h.stores.putOrig h.invariant.wellFormed hd' hput⟩

/-- The storage writer takes the next block the column writes, and the blocks written are then
what it appended from `w₀`. -/
theorem writeItem (h : Writes crc w₀ typeInfo acc blocks items)
    (hv : AOSegfileFormatVersion.IsValid w₀.formatVersion)
    (hcomp : w₀.storageAttributes.CompressionRoundTrips) {item : ContentItem}
    {vals : List (Option Datum)} (hw : Written typeInfo (maxDataBlockSizeOrig w₀) item vals) :
    ∃ w', { acc.aoWrite with isFirstRowNumSet := false }.writeItem crc item = .ok w' ∧
      w₀.writeItems crc ((blocks ++ [(item, vals)]).map Prod.fst) =
        .ok { w' with isFirstRowNumSet := false } ∧
      Keeps w₀ { w' with isFirstRowNumSet := false } := by
  have hkeeps₀ := h.keeps
  obtain ⟨w', hw', -, hkeeps, hfalse, -⟩ := writeItem_readBack crc
    { acc.aoWrite with isFirstRowNumSet := false } item (hkeeps₀.formatVersion_eq ▸ hv)
    (hkeeps₀.storageAttributes_eq ▸ hcomp)
    (by rw [hkeeps₀.maxBufferLen_eq, hkeeps₀.storageAttributes_eq]; exact hw.fits) rfl
  -- after the write no first row number is pending
  have hunset : { w' with isFirstRowNumSet := false } = w' := by
    rw [← hfalse]
  refine ⟨w', hw', ?_, by rw [hunset]; exact hkeeps₀.trans hkeeps⟩
  rw [hunset, List.map_append, writeItems, List.foldlM_append, ← writeItems, h.writeItems_eq]
  simp only [List.map_cons, List.map_nil, List.foldlM_cons, List.foldlM_nil, Except.ok_bind, hw']
  rfl

theorem written_append (h : Writes crc w₀ typeInfo acc blocks items) {item : ContentItem}
    {vals : List (Option Datum)} (hw : Written typeInfo (maxDataBlockSizeOrig w₀) item vals) :
    ∀ b ∈ blocks ++ [(item, vals)], Written typeInfo (maxDataBlockSizeOrig w₀) b.1 b.2 := by
  intro b hb
  rcases List.mem_append.1 hb with hb | hb
  · exact h.written b hb
  · rw [List.mem_singleton.1 hb]
    exact hw

/-- **A block written.** Writing out a block that took values keeps the invariant: the block
joins the blocks written, with its values, and the block writer is got ready on nothing. -/
theorem block (h : Writes crc w₀ typeInfo acc blocks items)
    (hv : AOSegfileFormatVersion.IsValid w₀.formatVersion)
    (hcomp : w₀.storageAttributes.CompressionRoundTrips) (hne : items ≠ []) :
    ∃ item n acc', acc.block crc = .ok (n, acc') ∧
      acc'.blockFirstRowNum = acc.blockFirstRowNum ∧
      Writes crc w₀ typeInfo acc' (blocks ++ [(item, items)]) [] := by
  have hnth : acc.blockWrite.nth ≠ 0 := by
    rw [h.invariant.counts.nth_eq]
    exact fun h0 => hne (List.eq_nil_of_length_eq_zero h0)
  obtain ⟨hroom, -, h8⟩ := maxDataBlockSizeOrig_bounds w₀
  obtain ⟨bytes, hb, hfit⟩ : ∃ bytes, acc.blockWrite.blockOrig = .ok bytes ∧
      bytes.length ≤ maxDataBlockSizeOrig w₀ :=
    ⟨_, DatumStreamBlockWrite.blockOrig_eq,
      h.maxDataBlockSize_eq ▸ h.invariant.fits.length_blockOrig_le (h.maxDataBlockSize_eq ▸ h8)⟩
  have hwritten : Written typeInfo (maxDataBlockSizeOrig w₀)
      ⟨bytes, AOCSBK.BLOCK.toNat, acc.blockWrite.nth, some acc.blockFirstRowNum⟩ items :=
    .block acc.blockFirstRowNum h.typeInfo_eq h.maxDataBlockSize_eq h.maxDatumPerBlock_eq
      h.invariant h.stores hne hb
  obtain ⟨w', hw', hitems, hkeeps⟩ := h.writeItem hv hcomp hwritten
  refine ⟨_, bytes.length, { acc with aoWrite := w', blockWrite := acc.blockWrite.getReady }, ?_,
    rfl, ⟨hitems, hkeeps, h.written_append hwritten, h.typeInfo_eq, h.maxDataBlockSize_eq,
      h.maxDatumPerBlock_eq, DatumStreamBlockWrite.getReady_invariant h.invariant.wellFormed
        (by rw [h.maxDataBlockSize_eq]; omega),
      DatumStreamBlockWrite.getReady_stores acc.blockWrite⟩⟩
  have hfit' : bytes.length ≤ maxDataBlockSizeOrig acc.aoWrite :=
    maxDataBlockSizeOrig_eq_of_keeps h.keeps ▸ hfit
  rw [DatumStreamWrite.block, if_neg hnth, DatumStreamWrite.blockOrig_eq crc hb hfit', hw']
  rfl

/-- **A large object written.** With no values taken since the last block, writing a varlena with
a four-byte header as a large object keeps the invariant: it joins the blocks written, alone. -/
theorem lob (h : Writes crc w₀ typeInfo acc blocks [])
    (hv : AOSegfileFormatVersion.IsValid w₀.formatVersion)
    (hcomp : w₀.storageAttributes.CompressionRoundTrips) {d : Datum}
    (h1 : typeInfo.datumlen = -1) (h4 : varattIs4BU d.pointee = true) (hd : typeInfo.Admits d) :
    ∃ n acc', acc.lob crc d = .ok (n, acc') ∧
      Writes crc w₀ typeInfo acc' (blocks ++
        [(⟨d.pointee.take (varsizeAny d.pointee), AOCSBK.BLOB.toNat, 1,
          some acc.blockFirstRowNum⟩, [some d])]) [] := by
  have hwritten : Written typeInfo (maxDataBlockSizeOrig w₀)
      ⟨d.pointee.take (varsizeAny d.pointee), AOCSBK.BLOB.toNat, 1, some acc.blockFirstRowNum⟩
      [some d] :=
    .lob acc.blockFirstRowNum h1 h4 hd
  obtain ⟨w', hw', hitems, hkeeps⟩ := h.writeItem hv hcomp hwritten
  refine ⟨varsizeAny d.pointee, { acc with aoWrite := w' }, ?_, ⟨hitems, hkeeps, h.written_append hwritten,
    h.typeInfo_eq, h.maxDataBlockSize_eq, h.maxDatumPerBlock_eq, h.invariant, h.stores⟩⟩
  rw [DatumStreamWrite.lob_eq crc (by rw [h.typeInfo_eq, h1]; norm_num) h4, hw']
  rfl


section Rows

variable (hv : AOSegfileFormatVersion.IsValid w₀.formatVersion)
  (hcomp : w₀.storageAttributes.CompressionRoundTrips)
include hv hcomp

/-- **One row.** What `aocs_insert_values` does for the column keeps the invariant, for any value
the column takes: the blocks it writes hold, after the values taken before, the value itself or
the values before it; the block writer holds the rest. -/
theorem insertValue (h : Writes crc w₀ typeInfo acc blocks items) (lastSequence : Int64)
    {d : Datum} {null : Bool} (hd : Insertable typeInfo (maxDataBlockSizeOrig w₀) d null) :
    ∃ acc' blocks' items', acc.insertValue crc lastSequence d null = .ok acc' ∧
      Writes crc w₀ typeInfo acc' (blocks ++ blocks') items' ∧
      (blocks'.map Prod.snd).flatten ++ items' = items ++ [itemOf d null] := by
  have hadmits : null = false → typeInfo.Admits d := fun hn => (hd hn).1
  have hroom := (maxDataBlockSizeOrig_bounds w₀).1
  have hcount : 1 < maxdatumPerAocsOrigBlock := by decide
  obtain ⟨r, bw, hput⟩ := DatumStreamBlockWrite.putOrig_ok h.invariant.wellFormed d null
  have h₁ := h.putOrig hadmits hput
  by_cases hr : 0 ≤ r
  · -- the block takes the value
    rw [if_pos hr] at h₁
    refine ⟨_, [], _, ?_, by simpa using h₁, by simp⟩
    simp [DatumStreamWrite.insertValue, hput, not_lt.mpr hr]
  -- the block refuses it: the block is written first, then the value goes into the next one
  rw [if_neg hr, List.append_nil] at h₁
  replace hr : r < 0 := not_le.mp hr
  rcases eq_or_ne items [] with rfl | hne
  · -- an empty block refuses the value again, and it goes out as a large object
    obtain ⟨hbw, rfl, hbig⟩ := DatumStreamBlockWrite.putOrig_refused_of_empty h.invariant.counts
      h.stores (by rw [h.maxDatumPerBlock_eq]; exact hcount)
      (by rw [h.maxDataBlockSize_eq]; exact hroom) hput hr
    obtain ⟨hadm, hsmall | ⟨h1, h4⟩⟩ := hd rfl
    · rw [h.maxDataBlockSize_eq, h.typeInfo_eq] at hbig
      omega
    have hput' : bw.putOrig d false = .ok (r, bw) := by
      rw [hbw] at hput ⊢
      exact hput
    have hnth : bw.nth = 0 := by rw [hbw, h.invariant.counts.nth_eq, List.length_nil]
    obtain ⟨n, acc', hlob, h'⟩ := h₁.lob hv hcomp h1 h4 hadm
    refine ⟨{ acc' with blockFirstRowNum := lastSequence + 2 }, _, [], ?_,
      h'.withBlockFirstRowNum _, by simp [itemOf]⟩
    simp [DatumStreamWrite.insertValue, DatumStreamWrite.block, hput, hr, hnth, hput', hlob]
  · -- the block written, and the value put into the next
    obtain ⟨item, n, acc₁, hblock, -, h₂⟩ := h₁.block hv hcomp hne
    have hpos : bw.nth > 0 := by
      rw [h₁.invariant.counts.nth_eq]
      exact List.length_pos_of_ne_nil hne
    have h₃ := h₂.withBlockFirstRowNum (lastSequence + 1)
    obtain ⟨r₂, bw₂, hput₂⟩ := DatumStreamBlockWrite.putOrig_ok h₂.invariant.wellFormed d null
    have h₄ := h₃.putOrig hadmits hput₂
    by_cases hr₂ : 0 ≤ r₂
    · rw [if_pos hr₂] at h₄
      refine ⟨_, [(item, items)], [itemOf d null], ?_, h₄, by simp⟩
      simp [DatumStreamWrite.insertValue, hput, hr, hblock, hpos, hput₂, hr₂]
    · -- not even the empty block takes it: a large object
      rw [if_neg hr₂, List.append_nil] at h₄
      replace hr₂ : r₂ < 0 := not_le.mp hr₂
      obtain ⟨-, rfl, hbig⟩ := DatumStreamBlockWrite.putOrig_refused_of_empty h₃.invariant.counts
        h₃.stores (by rw [h₃.maxDatumPerBlock_eq]; exact hcount)
        (by rw [h₃.maxDataBlockSize_eq]; exact hroom) hput₂ hr₂
      obtain ⟨hadm, hsmall | ⟨h1, h4⟩⟩ := hd rfl
      · rw [h₃.maxDataBlockSize_eq, h₃.typeInfo_eq] at hbig
        omega
      obtain ⟨m, acc₃, hlob, h₅⟩ := h₄.lob hv hcomp h1 h4 hadm
      refine ⟨{ acc₃ with blockFirstRowNum := lastSequence + 2 }, _, [], ?_,
        by simpa using h₅.withBlockFirstRowNum (lastSequence + 2), by simp [itemOf]⟩
      simp [DatumStreamWrite.insertValue, hput, hr, hblock, hpos, hput₂, hr₂, hlob]

/-- **A run of rows.** The rows inserted one after another keep the invariant: the blocks written
then hold, after the values taken before, the run's values in order, up to those the block writer
still holds. -/
theorem insertValues : ∀ (vals : List (Datum × Bool)) {acc : DatumStreamWrite}
    {blocks : List (ContentItem × List (Option Datum))} {items : List (Option Datum)}
    (lastSequence : Int64), Writes crc w₀ typeInfo acc blocks items →
    (∀ q ∈ vals, Insertable typeInfo (maxDataBlockSizeOrig w₀) q.1 q.2) →
    ∃ acc' blocks' items', acc.insertValues crc lastSequence vals = .ok acc' ∧
      Writes crc w₀ typeInfo acc' (blocks ++ blocks') items' ∧
      (blocks'.map Prod.snd).flatten ++ items' = items ++ vals.map fun q => itemOf q.1 q.2
  | [], acc, _, items, _, h, _ => ⟨acc, [], items, rfl, by simpa using h, by simp⟩
  | (d, null) :: vals, _, _, items, lastSequence, h, hvals => by
    obtain ⟨acc₁, blocks₁, items₁, hstep, h₁, hflat₁⟩ :=
      h.insertValue hv hcomp lastSequence (hvals (d, null) List.mem_cons_self)
    obtain ⟨acc', blocks', items', hrun, h', hflat'⟩ :=
      insertValues vals (lastSequence + 1) h₁ (fun q hq => hvals q (List.mem_cons_of_mem _ hq))
    refine ⟨acc', blocks₁ ++ blocks', items', ?_, by simpa using h', ?_⟩
    · simp [DatumStreamWrite.insertValues, hstep, hrun]
    · rw [List.map_append, List.flatten_append, List.append_assoc, hflat', ← List.append_assoc,
        hflat₁]
      simp

/-- The column's part of `aocs_insert_finish` writes out the values the block writer holds: after
it the blocks written hold them all. -/
theorem finish (h : Writes crc w₀ typeInfo acc blocks items) :
    ∃ acc' blocks', acc.finish crc = .ok acc' ∧ Writes crc w₀ typeInfo acc' (blocks ++ blocks') [] ∧
      (blocks'.map Prod.snd).flatten = items := by
  rcases eq_or_ne items [] with rfl | hne
  · have hnth : acc.blockWrite.nth = 0 := by rw [h.invariant.counts.nth_eq, List.length_nil]
    exact ⟨acc, [], by simp [DatumStreamWrite.finish, DatumStreamWrite.block, hnth],
      by simpa using h, rfl⟩
  · obtain ⟨item, n, acc', hblock, -, h'⟩ := h.block hv hcomp hne
    exact ⟨acc', [(item, items)], by simp [DatumStreamWrite.finish, hblock], h', by simp⟩

end Rows

end Writes

end Writes

end DatumStream.Orig

end Cloudberry
