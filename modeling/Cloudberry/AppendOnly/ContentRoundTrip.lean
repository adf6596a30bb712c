import Cloudberry.AppendOnly.WriteBlocks
import Cloudberry.AppendOnly.ReadBlocks
import Cloudberry.Lib.Scan

/-!
# Segment files read back

What the append-only storage writer appends, the reader gives back. A caller hands the writer one
block's content at a time: the datum stream writer of a large value, for one, sets the block's
first row number (`AppendOnlyStorageWrite_SetFirstRowNum`) and then writes the content
(`AppendOnlyStorageWrite_Content`); this is `writeItem`. A scan of the segment file asks the reader
for the next block's info and then for its content (`AppendOnlyStorageRead_GetBlockInfo`,
`AppendOnlyStorageRead_Content`), until the reader finds the end of the file; this is `readItem`,
run by `Scan.scan`.

* `content_readBack`: one content written, from any state of the writer, is read back by a reader
  that stands where the writer began, whatever the file holds after it. The block info reports
  the content's length, kind and rows, the first row number the writer had set, and whether the
  content went out as large content; the reader ends just past what was written.
* `writeItems_readBack`: a whole run of writes is read back in order, block after block.
* `scan_openFile_writeItems`: a segment file written from empty, opened and scanned, gives back
  exactly the contents written, in order, and the scan stops at the end of the file.

The writer and the reader agree on the table: its block size, its storage attributes and its
format version (`ReadsTable`). The table's compression functions expand what they compressed and
compress nothing to nothing (`CompressionRoundTrips`).
-/

namespace Cloudberry.AppendOnly

open AppendOnlyStorageFormat

/-- One block's content as a caller hands it to the writer: the content, its executor block kind
and row count, and the first row number its header keeps, if any. -/
structure ContentItem where
  content : List UInt8
  executorBlockKind : ℕ
  rowCount : ℕ
  firstRowNum : Option Int64
  deriving DecidableEq, Repr

namespace ContentItem

variable (maxBufferLen : ℕ) (checksum : Bool) (item : ContentItem)

/-- Whether the writer sends the item out as large content: its content does not fit a block
after a small content header. -/
def isLarge : Bool :=
  decide (maxBufferLen - AoHeader.size false checksum item.firstRowNum.isSome < item.content.length)

/-- What the writer asks of an item in a table with block size `maxBufferLen`: some content, no
more than a large content header can announce, and an executor block kind and a row count that
fit their header fields. -/
def Fits : Prop :=
  item.content ≠ [] ∧ item.content.length < 2 ^ 30 ∧ item.executorBlockKind < 2 ^ 3 ∧
    item.rowCount < if item.isLarge maxBufferLen checksum then 2 ^ 25 else 2 ^ 14

instance : Decidable (item.Fits maxBufferLen checksum) := inferInstanceAs (Decidable (_ ∧ _))

/-- What a scan returns for a block written from the item: the item's content, with block info
that reports its length, kind and rows, its first row number (`-1` when the header keeps none),
and whether it is large. -/
structure ReadsBack (block : BlockInfo × List UInt8) : Prop where
  content_eq : block.2 = item.content
  contentLen_eq : block.1.contentLen = item.content.length
  executorBlockKind_eq : block.1.executorBlockKind = item.executorBlockKind
  rowCount_eq : block.1.rowCount = item.rowCount
  firstRowNum_eq : block.1.firstRowNum = item.firstRowNum.getD (-1)
  isLarge_eq : block.1.isLarge = item.isLarge maxBufferLen checksum

/-- Blocks that read back the items hold their contents. -/
theorem map_snd_of_forall₂ {items : List ContentItem} {blocks : List (BlockInfo × List UInt8)}
    (h : List.Forall₂ (ReadsBack maxBufferLen checksum) items blocks) :
    blocks.map Prod.snd = items.map content := by
  induction h with
  | nil => rfl
  | cons hback _ ih => rw [List.map_cons, List.map_cons, hback.content_eq, ih]

end ContentItem

/-! ## The writer's side -/

namespace AppendOnlyStorageWrite

variable (crc : List UInt8 → UInt32)

/-- The first row number the next block's header keeps, if one is set. -/
def pendingFirstRowNum (w : AppendOnlyStorageWrite) : Option Int64 :=
  if w.isFirstRowNumSet then some w.firstRowNum else none

/-- What the caller does before a block's content: `AppendOnlyStorageWrite_SetFirstRowNum` when the
header is to keep the block's first row number. -/
def beginItem (w : AppendOnlyStorageWrite) (item : ContentItem) : AppendOnlyStorageWrite :=
  match item.firstRowNum with
  | some firstRowNum => w.setFirstRowNum firstRowNum
  | none => w

/-- One block's content written: its first row number set, then `AppendOnlyStorageWrite_Content`. -/
def writeItem (w : AppendOnlyStorageWrite) (item : ContentItem) :
    Except String AppendOnlyStorageWrite :=
  (w.beginItem item).content crc item.content item.executorBlockKind item.rowCount

/-- The items written one after another. -/
def writeItems (w : AppendOnlyStorageWrite) (items : List ContentItem) :
    Except String AppendOnlyStorageWrite :=
  items.foldlM (writeItem crc) w

section BeginItem

variable (w : AppendOnlyStorageWrite) (item : ContentItem)

@[simp] theorem beginItem_maxBufferLen : (w.beginItem item).maxBufferLen = w.maxBufferLen := by
  unfold beginItem
  split <;> rfl

@[simp] theorem beginItem_storageAttributes :
    (w.beginItem item).storageAttributes = w.storageAttributes := by
  unfold beginItem
  split <;> rfl

@[simp] theorem beginItem_formatVersion : (w.beginItem item).formatVersion = w.formatVersion := by
  unfold beginItem
  split <;> rfl

@[simp] theorem beginItem_file : (w.beginItem item).file = w.file := by
  unfold beginItem
  split <;> rfl

/-- Once the caller has set it, the pending first row number is the item's. -/
theorem pendingFirstRowNum_beginItem (h : w.isFirstRowNumSet = false) :
    (w.beginItem item).pendingFirstRowNum = item.firstRowNum := by
  unfold beginItem pendingFirstRowNum
  split <;> simp_all [setFirstRowNum]

theorem isFirstRowNumSet_beginItem (h : w.isFirstRowNumSet = false) :
    (w.beginItem item).isFirstRowNumSet = item.firstRowNum.isSome := by
  unfold beginItem
  split <;> simp_all [setFirstRowNum]

/-- The row count bound of `Fits` is the writer's, once the first row number is set. -/
theorem rowCountFits_beginItem (h : w.isFirstRowNumSet = false)
    (hrc : item.rowCount <
      if item.isLarge w.maxBufferLen w.storageAttributes.checksum then 2 ^ 25 else 2 ^ 14) :
    (w.beginItem item).RowCountFits item.content.length item.rowCount := by
  unfold RowCountFits
  unfold ContentItem.isLarge at hrc
  rw [beginItem_maxBufferLen, beginItem_storageAttributes, isFirstRowNumSet_beginItem w item h]
  by_cases hle : item.content.length ≤
      w.maxBufferLen - AoHeader.size false w.storageAttributes.checksum item.firstRowNum.isSome
  · rw [if_pos hle]
    rwa [decide_eq_false (Nat.not_lt.mpr hle), if_neg Bool.false_ne_true] at hrc
  · rw [if_neg hle]
    rwa [decide_eq_true (Nat.lt_of_not_le hle), if_pos rfl] at hrc

end BeginItem

end AppendOnlyStorageWrite

/-! ## The reader's side -/

namespace AppendOnlyStorageRead

variable (crc : List UInt8 → UInt32)

/-- One round of a scan: `AppendOnlyStorageRead_GetBlockInfo`, and at a block its content with
`AppendOnlyStorageRead_Content`; nothing at the end of the file. -/
def readItem (r : AppendOnlyStorageRead) :
    Except String (Option (BlockInfo × List UInt8) × AppendOnlyStorageRead) := do
  let (isNext, info, r) ← r.getBlockInfo crc
  if isNext then
    let (content, r) ← r.content crc
    pure (some (info, content), r)
  else pure (none, r)

theorem readItem_of_block {r r₁ r₂ : AppendOnlyStorageRead} {info : BlockInfo}
    {content : List UInt8} (hinfo : r.getBlockInfo crc = .ok (true, info, r₁))
    (hcontent : r₁.content crc = .ok (content, r₂)) :
    r.readItem crc = .ok (some (info, content), r₂) := by
  simp only [readItem, hinfo, Except.ok_bind, if_true, hcontent, Except.pure_eq_ok]

/-- Where the file ends, a scan finds nothing more. -/
theorem readItem_of_end (r : AppendOnlyStorageRead)
    (hmin : r.minimumHeaderLen ≤ r.bufferedRead.maxBufferLen)
    (hend : r.bufferedRead.file.length ≤ r.bufferedRead.nextBufferPosition) :
    ∃ r', r.readItem crc = .ok (none, r') := by
  obtain ⟨r', hr'⟩ := readNextBlock_of_end crc r hmin hend
  exact ⟨r', by simp [readItem, getBlockInfo, hr']⟩

end AppendOnlyStorageRead

/-! ## Writer and reader together -/

open AppendOnlyStorageWrite AppendOnlyStorageRead

/-- A reader set up for the writer's table: the same block size, storage attributes and format
version, and a buffer that takes a header. -/
structure ReadsTable (w : AppendOnlyStorageWrite) (r : AppendOnlyStorageRead) : Prop where
  maxBufferLen_eq : r.maxBufferLen = w.maxBufferLen
  storageAttributes_eq : r.storageAttributes = w.storageAttributes
  formatVersion_eq : r.formatVersion = w.formatVersion
  minimumHeaderLen_le : r.minimumHeaderLen ≤ r.bufferedRead.maxBufferLen

/-- The agreement outlasts the writes and the reads. -/
theorem ReadsTable.step {w w' : AppendOnlyStorageWrite} {r r' : AppendOnlyStorageRead}
    (h : ReadsTable w r) (hw : Keeps w w') (hr : SameFile r r') : ReadsTable w' r' := by
  have hmin := h.minimumHeaderLen_le
  rw [minimumHeaderLen_eq] at hmin
  refine ⟨?_, ?_, ?_, ?_⟩
  · rw [hr.maxBufferLen_eq, hw.maxBufferLen_eq, h.maxBufferLen_eq]
  · rw [hr.storageAttributes_eq, hw.storageAttributes_eq, h.storageAttributes_eq]
  · rw [hr.formatVersion_eq, hw.formatVersion_eq, h.formatVersion_eq]
  · rw [minimumHeaderLen_eq, hr.storageAttributes_eq, hr.bufferMax_eq]
    exact hmin

theorem ReadsTable.beginItem {w : AppendOnlyStorageWrite} {r : AppendOnlyStorageRead}
    (h : ReadsTable w r) (item : ContentItem) : ReadsTable (w.beginItem item) r :=
  ⟨by simp [h.maxBufferLen_eq], by simp [h.storageAttributes_eq], by simp [h.formatVersion_eq],
    h.minimumHeaderLen_le⟩

variable (crc : List UInt8 → UInt32)

/-- **One content read back.** `AppendOnlyStorageWrite_Content` appends a nonempty run of bytes,
and a reader of the table standing where the writer began, in any file that holds what the writer
wrote, reads it back as one block: `GetBlockInfo` reports the content's length, kind and rows, the
first row number the writer had set, and that the content is large exactly when it does not fit
a block after its header, and `Content` returns the content and leaves the reader just past what
was written. -/
theorem content_readBack (w : AppendOnlyStorageWrite) (content : List UInt8)
    (executorBlockKind rowCount : ℕ) (hv : AOSegfileFormatVersion.IsValid w.formatVersion)
    (hcomp : w.storageAttributes.CompressionRoundTrips) (hek : executorBlockKind < 2 ^ 3)
    (hrc : w.RowCountFits content.length rowCount) (hlen : content.length < 2 ^ 30)
    (hne : content ≠ []) :
    ∃ w', w.content crc content executorBlockKind rowCount = .ok w' ∧
      (∃ W, W ≠ [] ∧ w'.file = w.file ++ W) ∧ Keeps w w' ∧ w'.isFirstRowNumSet = false ∧
      ∀ r : AppendOnlyStorageRead, ReadsTable w r → w'.file <+: r.bufferedRead.file →
        r.bufferedRead.nextBufferPosition = w.file.length →
        ∃ block r', r.readItem crc = .ok (some block, r') ∧
          ContentItem.ReadsBack w.maxBufferLen w.storageAttributes.checksum
            ⟨content, executorBlockKind, rowCount, w.pendingFirstRowNum⟩ block ∧
          SameFile r r' ∧ r'.bufferedRead.nextBufferPosition = w'.file.length := by
  obtain ⟨w', W, hw', hfile, hkeeps, hfalse, hsmall, hlarge⟩ :=
    content_spec crc w content executorBlockKind rowCount hv hcomp hek hrc hlen hne
  have hpending : w.pendingFirstRowNum.isSome = w.isFirstRowNumSet := by
    unfold pendingFirstRowNum
    split_ifs with h <;> simp [h]
  have hgetD : w.pendingFirstRowNum.getD (-1) =
      if w.isFirstRowNumSet then w.firstRowNum else -1 := by
    unfold pendingFirstRowNum
    split_ifs <;> rfl
  by_cases hs : content.length ≤
      w.maxBufferLen - AoHeader.size false w.storageAttributes.checksum w.isFirstRowNumSet
  · -- one small content block
    have hblock := hsmall hs
    refine ⟨w', hw', ⟨W, ne_nil_of_smallContentBlock crc hblock, hfile⟩, hkeeps, hfalse, ?_⟩
    intro r hr hpre hpos
    have hat : BytesAt r.bufferedRead.file r.bufferedRead.nextBufferPosition W :=
      hpos ▸ BytesAt.of_prefix (hfile ▸ hpre)
    rw [← hr.maxBufferLen_eq, ← hr.storageAttributes_eq, ← hr.formatVersion_eq] at hblock
    obtain ⟨info, r₁, r₂, hinfo, hcl, hek', hrc', hfr, hl, hc, hsame, hp⟩ :=
      read_smallContentBlock crc hat hr.minimumHeaderLen_le hblock
    refine ⟨(info, content), r₂, readItem_of_block crc hinfo hc,
      ⟨rfl, hcl, hek', hrc', hfr.trans hgetD.symm, ?_⟩, hsame, ?_⟩
    · rw [hl, ContentItem.isLarge, hpending, decide_eq_false (Nat.not_lt.mpr hs)]
    · rw [hp, hpos, hfile, List.length_append]
  · -- a large content header and its fragments
    obtain ⟨n, -, hblocks⟩ := hlarge (Nat.lt_of_not_le hs)
    refine ⟨w', hw', ⟨W, ne_nil_of_largeContentBlocks crc hblocks, hfile⟩, hkeeps, hfalse, ?_⟩
    intro r hr hpre hpos
    have hat : BytesAt r.bufferedRead.file r.bufferedRead.nextBufferPosition W :=
      hpos ▸ BytesAt.of_prefix (hfile ▸ hpre)
    rw [← hr.maxBufferLen_eq, ← hr.storageAttributes_eq, ← hr.formatVersion_eq] at hblocks
    have hpieces : Pieces.pieces n content ≠ [] := by
      rw [Pieces.pieces_of_ne_nil hne]
      exact List.cons_ne_nil _ _
    obtain ⟨info, r₁, r₂, hinfo, hcl, hek', hrc', hfr, hl, hc, hsame, hp⟩ :=
      read_largeContentBlocks crc hat hr.minimumHeaderLen_le hblocks (Pieces.flatten_pieces content)
        (fun _ hf => Pieces.ne_nil_of_mem_pieces hf) hpieces
    refine ⟨(info, content), r₂, readItem_of_block crc hinfo hc,
      ⟨rfl, hcl, hek', hrc', hfr.trans hgetD.symm, ?_⟩, hsame, ?_⟩
    · rw [hl, ContentItem.isLarge, hpending, decide_eq_true (Nat.lt_of_not_le hs)]
    · rw [hp, hpos, hfile, List.length_append]

/-- One item written by the caller's protocol, read back. -/
theorem writeItem_readBack (w : AppendOnlyStorageWrite) (item : ContentItem)
    (hv : AOSegfileFormatVersion.IsValid w.formatVersion)
    (hcomp : w.storageAttributes.CompressionRoundTrips)
    (hfits : item.Fits w.maxBufferLen w.storageAttributes.checksum)
    (hfirst : w.isFirstRowNumSet = false) :
    ∃ w', w.writeItem crc item = .ok w' ∧
      (∃ W, W ≠ [] ∧ w'.file = w.file ++ W) ∧ Keeps w w' ∧ w'.isFirstRowNumSet = false ∧
      ∀ r : AppendOnlyStorageRead, ReadsTable w r → w'.file <+: r.bufferedRead.file →
        r.bufferedRead.nextBufferPosition = w.file.length →
        ∃ block r', r.readItem crc = .ok (some block, r') ∧
          item.ReadsBack w.maxBufferLen w.storageAttributes.checksum block ∧
          SameFile r r' ∧ r'.bufferedRead.nextBufferPosition = w'.file.length := by
  obtain ⟨hne, hlen, hek, hrc⟩ := hfits
  obtain ⟨w', hw', hfile, hkeeps, hfalse, hread⟩ :=
    content_readBack crc (w.beginItem item) item.content item.executorBlockKind item.rowCount
      (by simpa using hv) (by simpa using hcomp) hek (rowCountFits_beginItem w item hfirst hrc)
      hlen hne
  -- the writer after `SetFirstRowNum` has the table of `w`, and nothing else of it matters
  have hkeeps' : Keeps w w' :=
    ⟨by simp [hkeeps.maxBufferLen_eq], by simp [hkeeps.storageAttributes_eq],
      by simp [hkeeps.formatVersion_eq], fun h => absurd (hfalse ▸ h) Bool.false_ne_true⟩
  have hitem : (⟨item.content, item.executorBlockKind, item.rowCount,
      (w.beginItem item).pendingFirstRowNum⟩ : ContentItem) = item := by
    rw [pendingFirstRowNum_beginItem w item hfirst]
  refine ⟨w', hw', by simpa using hfile, hkeeps', hfalse, fun r hr hpre hpos => ?_⟩
  obtain ⟨block, r', hstep, hback, hsame, hp⟩ :=
    hread r (hr.beginItem item) hpre (by simpa using hpos)
  rw [hitem, beginItem_maxBufferLen, beginItem_storageAttributes] at hback
  exact ⟨block, r', hstep, hback, hsame, hp⟩

/-- **A run of writes read back.** The items written one after another, by any writer of a valid
table that has no first row number pending, are read back in order by a reader of the table that
starts where the writer began: each round of the scan finds the next item's block. -/
theorem writeItems_readBack (items : List ContentItem) :
    ∀ w : AppendOnlyStorageWrite, AOSegfileFormatVersion.IsValid w.formatVersion →
      w.storageAttributes.CompressionRoundTrips →
      (∀ item ∈ items, item.Fits w.maxBufferLen w.storageAttributes.checksum) →
      w.isFirstRowNumSet = false →
      ∃ w', w.writeItems crc items = .ok w' ∧ w.file <+: w'.file ∧
        w.file.length + items.length ≤ w'.file.length ∧ Keeps w w' ∧
        w'.isFirstRowNumSet = false ∧
        ∀ r : AppendOnlyStorageRead, ReadsTable w r → w'.file <+: r.bufferedRead.file →
          r.bufferedRead.nextBufferPosition = w.file.length →
          ∃ blocks r', Scan.Finds (readItem crc) r blocks r' ∧
            List.Forall₂ (ContentItem.ReadsBack w.maxBufferLen w.storageAttributes.checksum)
              items blocks ∧
            SameFile r r' ∧ r'.bufferedRead.nextBufferPosition = w'.file.length := by
  induction items with
  | nil =>
    intro w _ _ _ hfirst
    refine ⟨w, rfl, List.prefix_refl _, by simp, Keeps.refl w, hfirst, fun r _ _ hpos => ?_⟩
    exact ⟨[], r, .nil r, .nil, SameFile.refl r, hpos⟩
  | cons item items ih =>
    intro w hv hcomp hfits hfirst
    obtain ⟨w₁, hw₁, ⟨W, hW, hfile₁⟩, hkeeps₁, hfalse₁, hread₁⟩ :=
      writeItem_readBack crc w item hv hcomp (hfits item List.mem_cons_self) hfirst
    -- the rest of the run, from the writer after the first item
    obtain ⟨w', hw', hpre', hlen', hkeeps', hfalse', hread'⟩ := ih w₁
      (hkeeps₁.formatVersion_eq ▸ hv) (hkeeps₁.storageAttributes_eq ▸ hcomp)
      (fun i hi => by
        rw [hkeeps₁.maxBufferLen_eq, hkeeps₁.storageAttributes_eq]
        exact hfits i (List.mem_cons_of_mem item hi))
      hfalse₁
    have hpre₁ : w.file <+: w₁.file := ⟨W, hfile₁.symm⟩
    have hW1 := List.length_pos_iff.mpr hW
    refine ⟨w', ?_, hpre₁.trans hpre', ?_, hkeeps₁.trans hkeeps', hfalse', ?_⟩
    · simp only [writeItems, List.foldlM_cons] at hw' ⊢
      rw [show w.writeItem crc item = .ok w₁ from hw₁, Except.ok_bind, hw']
    · rw [hfile₁, List.length_append, List.length_cons] at *
      omega
    · intro r hr hpre hpos
      obtain ⟨block, r₁, hstep, hback, hsame₁, hpos₁⟩ :=
        hread₁ r hr (hpre'.trans hpre) hpos
      obtain ⟨blocks, r', hfinds, hall, hsame, hpos'⟩ :=
        hread' r₁ (hr.step hkeeps₁ hsame₁) (hsame₁.file_eq ▸ hpre) hpos₁
      rw [hkeeps₁.maxBufferLen_eq, hkeeps₁.storageAttributes_eq] at hall
      exact ⟨block :: blocks, r', .cons hstep hfinds, .cons hback hall, hsame₁.trans hsame, hpos'⟩

/-- A nonempty segment file of a valid version opens, and the reader that
`AppendOnlyStorageRead_OpenFile` sets up for the writer's table stands at its start. -/
theorem readsTable_openFile (w : AppendOnlyStorageWrite) (verifyBlockChecksums : Bool)
    {file : List UInt8} (hfile : file ≠ []) (hv : AOSegfileFormatVersion.IsValid w.formatVersion) :
    ∃ r, openFile w.maxBufferLen w.storageAttributes verifyBlockChecksums file w.formatVersion =
      .ok r ∧ ReadsTable w r ∧ r.bufferedRead.file = file ∧ r.bufferedRead.nextBufferPosition = 0 := by
  have hmin := AoHeader.size_regular w.storageAttributes.checksum
  have hvalid := w.maxBufferLen_valid.1
  have h16 : AoHeader.size false w.storageAttributes.checksum false ≤ 16 := by
    cases w.storageAttributes.checksum <;> decide
  refine ⟨{ maxBufferLen := w.maxBufferLen, storageAttributes := w.storageAttributes,
            formatVersion := w.formatVersion, verifyBlockChecksums,
            bufferedRead := { maxBufferLen := w.maxBufferLen, file, position := 0, bufferLen := 0 },
            current := .reset }, ?_, ⟨rfl, rfl, rfl, ?_⟩, rfl, rfl⟩
  · simp [openFile, hfile, AOSegfileFormatVersion.checkValid, hv]
  · simp only [minimumHeaderLen, hmin, minAppendonlyBlockSize] at hvalid ⊢
    omega

/-- **A segment file read back.** A writer of a valid table that starts on an empty segment file
writes the items one after another. The file it leaves opens for reading, and a scan of it with
fuel to spare returns exactly the contents written, in order, each with the block info its write
reports; the scan stops because it finds the end of the file. -/
theorem scan_openFile_writeItems (w : AppendOnlyStorageWrite) (items : List ContentItem)
    (verifyBlockChecksums : Bool) (hv : AOSegfileFormatVersion.IsValid w.formatVersion)
    (hcomp : w.storageAttributes.CompressionRoundTrips)
    (hfits : ∀ item ∈ items, item.Fits w.maxBufferLen w.storageAttributes.checksum)
    (hfirst : w.isFirstRowNumSet = false) (hempty : w.file = []) (hitems : items ≠ []) :
    ∃ w' r, w.writeItems crc items = .ok w' ∧
      openFile w.maxBufferLen w.storageAttributes verifyBlockChecksums w'.file w.formatVersion =
        .ok r ∧
      ∀ fuel, items.length < fuel → ∃ blocks r', Scan.scan (readItem crc) fuel r = .ok (blocks, r') ∧
        blocks.map Prod.snd = items.map ContentItem.content ∧
        List.Forall₂ (ContentItem.ReadsBack w.maxBufferLen w.storageAttributes.checksum)
          items blocks := by
  obtain ⟨w', hw', -, hlen, -, -, hread⟩ := writeItems_readBack crc items w hv hcomp hfits hfirst
  -- the file the writer leaves is not empty, so it opens
  have hne : w'.file ≠ [] := by
    have := List.length_pos_iff.mpr hitems
    exact List.ne_nil_of_length_pos (by omega)
  obtain ⟨r, hopen, hr, hfile, hstart⟩ := readsTable_openFile w verifyBlockChecksums hne hv
  obtain ⟨blocks, r', hfinds, hall, hsame, hend⟩ :=
    hread r hr (hfile ▸ List.prefix_refl _) (by rw [hstart, hempty, List.length_nil])
  -- after the last item the reader stands at the end of the file
  obtain ⟨r'', hnone⟩ := readItem_of_end crc r'
    ((hr.step (Keeps.refl w) hsame).minimumHeaderLen_le)
    (by rw [hsame.file_eq, hfile, hend])
  exact ⟨w', r, hw', hopen, fun fuel hfuel =>
    ⟨blocks, r'', Scan.scan_of_finds hfinds hnone fuel (hall.length_eq ▸ hfuel),
      ContentItem.map_snd_of_forall₂ _ _ hall, hall⟩⟩

/-- A compressor for examples: a run of two or more copies of one byte is kept as that byte,
anything else as it is; the decompressor repeats a single byte to the length it is asked for. -/
def repeatCompression : CompressionFunctions where
  compress
    | [] => []
    | b :: rest => if rest ≠ [] ∧ rest.all (· == b) then [b] else b :: rest
  decompress
    | [b], n => List.replicate n b
    | c, _ => c

/-- The run compressor meets what the round trip asks of a table's compression. -/
theorem compressionRoundTrips_repeatCompression (checksum : Bool) :
    AppendOnlyStorageAttributes.CompressionRoundTrips ⟨some repeatCompression, checksum⟩ := by
  rintro cfns ⟨⟩
  refine ⟨fun src hlt => ?_, fun src hne => ?_⟩
  · cases src with
    | nil => simp at hlt
    | cons b rest =>
      by_cases hrun : rest ≠ [] ∧ rest.all (· == b)
      · -- a run: the byte repeated to the run's length is the run
        simp only [repeatCompression, if_pos hrun]
        obtain ⟨-, hall⟩ := hrun
        have : rest = List.replicate rest.length b :=
          List.eq_replicate_iff.mpr ⟨rfl, fun x hx => by simpa using List.all_eq_true.mp hall x hx⟩
        rw [List.length_cons, List.replicate_succ, ← this]
      · -- anything else is kept as it is, not shorter
        have hkeep : repeatCompression.compress (b :: rest) = b :: rest := if_neg hrun
        rw [hkeep] at hlt
        exact absurd hlt (lt_irrefl _)
  · cases src with
    | nil => exact absurd rfl hne
    | cons b rest =>
      simp only [repeatCompression]
      split_ifs <;> simp

/-- A fresh segment file of a checksummed table with 8 KiB blocks, compressed by the run
compressor: a small block with no first row number, then a large content of 9000 bytes whose
header keeps the first row number `7`. -/
theorem scan_openFile_writeItems_small_and_large :
    ∃ w : AppendOnlyStorageWrite, w.file = [] ∧ w.isFirstRowNumSet = false ∧
      ∃ w' r, w.writeItems (fun _ => 0)
          [⟨[1, 2, 3], 0, 1, none⟩, ⟨List.replicate 9000 5, 1, 1, some 7⟩] = .ok w' ∧
        openFile w.maxBufferLen w.storageAttributes true w'.file w.formatVersion = .ok r ∧
        ∀ fuel, 2 < fuel → ∃ blocks r',
          Scan.scan (readItem (fun _ => 0)) fuel r = .ok (blocks, r') ∧
          blocks.map Prod.snd = [[1, 2, 3], List.replicate 9000 5] ∧
          List.Forall₂ (ContentItem.ReadsBack w.maxBufferLen w.storageAttributes.checksum)
            [⟨[1, 2, 3], 0, 1, none⟩, ⟨List.replicate 9000 5, 1, 1, some 7⟩] blocks :=
  ⟨{ maxBufferLen := 8192, maxBufferLen_valid := by decide,
     storageAttributes := { compression := some repeatCompression, checksum := true },
     formatVersion := 2, isFirstRowNumSet := false, firstRowNum := 0,
     getBufferAoHeaderKind := .SmallContent, currentCompleteHeaderLen := 0, buffer := fun _ => 0,
     file := [] }, rfl, rfl,
    scan_openFile_writeItems (fun _ => 0) _ _ true (by decide)
      (compressionRoundTrips_repeatCompression true)
      (fun item hitem => by
        simp only [List.mem_cons, List.not_mem_nil, or_false] at hitem
        rcases hitem with rfl | rfl
        · decide
        -- the large content: its length by rewriting, not by building the list
        · refine ⟨?_, ?_, by decide, ?_⟩
          · simp only [ne_eq, List.replicate_eq_nil_iff]
            decide
          · rw [List.length_replicate]
            decide
          · simp only [ContentItem.isLarge, List.length_replicate, Option.isSome_some]
            decide)
      rfl rfl (List.cons_ne_nil _ _)⟩

end Cloudberry.AppendOnly
