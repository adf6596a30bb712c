import Cloudberry.DatumStream.ColumnWrite

/-!
# A column read back

What `aocs_insert_values` and `aocs_insert_finish` write for a column, a scan of the segment file
reads back. The column's part of `aocs_getnext` advances the `DatumStreamRead`, reads the next
block with `datumstreamread_block` when the current one is exhausted, and gets the value; this is
`DatumStreamRead.scanNext`, run by `Scan.scan`.

The proof meets the writer's side at `Written`. The storage reader gives back, block after block,
the contents the storage writer wrote (`writeItems_readBack`); for each, `datumstreamread_block`
asks for the block's info and its content, the block reader is got ready on a block of datums
and finds its values (`DatumStreamBlockRead.ReadsAt.finds`), and a large object gives its one
value (`Written.finds`). Between blocks the reader is `Exhausted`: its next advance finds
nothing.

* `Written.finds`: the turns of the scan over one block find its values;
* `finds_written`: over the blocks of a file, in order;
* `scan_insertValues`: a column written from an empty segment file, row after row, and read with
  fuel to spare, gives back every value, each NULL as a NULL and every other datum with its
  contents, and the scan stops at the end of the file.
-/

namespace Cloudberry

namespace AppendOnly.AppendOnlyStorageRead

variable (crc : List UInt8 → UInt32) {r : AppendOnlyStorageRead}

theorem current_of_internalGetBuffer {header : ByteMem.Mem} {r' : AppendOnlyStorageRead}
    (h : r.internalGetBuffer crc = .ok (header, r')) : r'.current = r.current := by
  unfold internalGetBuffer at h
  generalize r.bufferedRead.growBuffer r.current.overallBlockLen = g at h
  obtain ⟨b, n⟩ := g
  simp only at h
  -- a wrong length or a bad checksum throws
  split_ifs at h
  · simp at h
  · simp at h
  · simp at h
  · simp only [Except.pure_eq_ok, Except.ok.injEq, Prod.mk.injEq] at h
    obtain ⟨-, rfl⟩ := h
    rfl

/-- For a small block that is not compressed, the content where it is in the buffer is what
`AppendOnlyStorageRead_Content` copies out. -/
theorem getBuffer_eq_content (hlarge : r.current.isLarge = false)
    (hcomp : r.current.isCompressed = false) : r.getBuffer crc = r.content crc := by
  rw [content, hlarge, if_neg Bool.false_ne_true, getBuffer, smallContent]
  cases h : r.internalGetBuffer crc with
  | error e => rfl
  | ok p =>
    obtain ⟨header, r'⟩ := p
    simp [current_of_internalGetBuffer crc h, hcomp]

theorem getBlockInfo_info {isNext : Bool} {info : BlockInfo} {r' : AppendOnlyStorageRead}
    (h : r.getBlockInfo crc = .ok (isNext, info, r')) : info = r'.current.blockInfo := by
  obtain ⟨⟨b, r₁⟩, -, h⟩ := Except.bind_eq_ok.mp h
  simp only [Except.pure_eq_ok, Except.ok.injEq, Prod.mk.injEq] at h
  obtain ⟨-, rfl, rfl⟩ := h
  rfl

/-- A round of the scan that found a block asked for its info and then for its content. -/
theorem readItem_eq_some {info : BlockInfo} {content : List UInt8} {r₂ : AppendOnlyStorageRead}
    (h : r.readItem crc = .ok (some (info, content), r₂)) :
    ∃ r₁, r.getBlockInfo crc = .ok (true, info, r₁) ∧ r₁.content crc = .ok (content, r₂) := by
  obtain ⟨⟨isNext, info', r₁⟩, hinfo, h⟩ := Except.bind_eq_ok.mp h
  cases isNext
  · simp at h
  · obtain ⟨⟨content', r₂'⟩, hcontent, h⟩ := Except.bind_eq_ok.mp h
    simp only [Except.pure_eq_ok, Except.ok.injEq, Prod.mk.injEq, Option.some.injEq] at h
    obtain ⟨⟨rfl, rfl⟩, rfl⟩ := h
    exact ⟨r₁, hinfo, hcontent⟩

/-- A round of the scan that found nothing found the end of the file. -/
theorem readItem_eq_none {r₂ : AppendOnlyStorageRead} (h : r.readItem crc = .ok (none, r₂)) :
    ∃ info, r.getBlockInfo crc = .ok (false, info, r₂) := by
  obtain ⟨⟨isNext, info, r₁⟩, hinfo, h⟩ := Except.bind_eq_ok.mp h
  cases isNext
  · simp only [Bool.false_eq_true, if_false, Except.pure_eq_ok, Except.ok.injEq,
      Prod.mk.injEq] at h
    obtain ⟨-, rfl⟩ := h
    exact ⟨info, hinfo⟩
  · obtain ⟨⟨content, r₂'⟩, -, h⟩ := Except.bind_eq_ok.mp h
    simp at h

end AppendOnly.AppendOnlyStorageRead

namespace DatumStream

/-- A varlena with a four-byte header has its data within its stated size: cut there it reads the
same. -/
theorem varlenaData_take_varsize4B {p : List UInt8} (h4 : varattIs4BU p = true)
    (h4le : 4 ≤ varsize4B p) : varlenaData (p.take (varsize4B p)) = varlenaData p := by
  have hhead : (p.take (varsize4B p)).headD 0 = p.headD 0 := by
    cases p with
    | nil => rfl
    | cons b p => rw [List.take_cons (by omega)]; rfl
  have h1 : varattIs1B (p.take (varsize4B p)) = varattIs1B p := by
    simp only [varattIs1B, hhead]
  -- the size is in the first four bytes
  have hsize : ∀ n, 4 ≤ n → varsize4B (p.take n) = varsize4B p := fun n hn => by
    simp only [varsize4B, List.take_take, Nat.min_eq_left hn]
  simp only [varlenaData, h1, varattIs1B_of_varattIs4BU h4, hsize _ h4le, List.drop_take,
    List.take_take, Nat.min_self, Bool.false_eq_true, if_false]

namespace Orig

namespace DatumStreamBlockRead

variable {dsr dsr' : DatumStreamBlockRead}

@[simp] theorem resetOrig_typeInfo : dsr.resetOrig.typeInfo = dsr.typeInfo := rfl

/-- A turn of the block reader that found something advanced onto it. -/
theorem advanceOrig_of_readNext {x : Option Datum} (h : dsr.readNext = .ok (some x, dsr')) :
    ∃ found, dsr.advanceOrig = (found, dsr') ∧ found ≠ 0 ∧ x = dsr'.get := by
  obtain ⟨found, b₁, hadv⟩ : ∃ found b₁, dsr.advanceOrig = (found, b₁) := ⟨_, _, rfl⟩
  rw [dsr.readNext_of_advanceOrig hadv] at h
  split_ifs at h with h0
  · cases h
  · simp only [Except.ok.injEq, Prod.mk.injEq, Option.some.injEq] at h
    obtain ⟨rfl, rfl⟩ := h
    exact ⟨found, hadv, h0, rfl⟩

end DatumStreamBlockRead

namespace DatumStreamRead

open AppendOnly AppendOnlyStorageRead

variable (crc : List UInt8 → UInt32) {acc : DatumStreamRead}

/-! ## The steps of the column reader -/

theorem advance_of_none (h : acc.largeObjectState = .None) :
    acc.advance =
      .ok (acc.blockRead.advanceOrig.1, { acc with blockRead := acc.blockRead.advanceOrig.2 }) := by
  simp [advance, h]

theorem get_of_none (h : acc.largeObjectState = .None) :
    acc.get = .ok (acc.blockRead.get, acc) := by
  simp [get, h]

/-- A turn of the scan whose advance finds a value gets it. -/
theorem scanNext_of_advance {found : ℤ} {acc₁ acc₂ : DatumStreamRead} {d : Option Datum}
    (hadv : acc.advance = .ok (found, acc₁)) (hfound : found ≠ 0)
    (hget : acc₁.get = .ok (d, acc₂)) : acc.scanNext crc = .ok (some d, acc₂) := by
  simp [scanNext, hadv, hfound, hget]

/-- A turn of the scan at the end of a block reads the next block, advances onto its first value
and gets it. -/
theorem scanNext_of_block {found : ℤ} {acc₁ acc₂ acc₃ acc₄ : DatumStreamRead} {d : Option Datum}
    (hadv : acc.advance = .ok (0, acc₁)) (hblock : acc₁.block crc = .ok (0, acc₂))
    (hadv₂ : acc₂.advance = .ok (found, acc₃)) (hget : acc₃.get = .ok (d, acc₄)) :
    acc.scanNext crc = .ok (some d, acc₄) := by
  simp [scanNext, hadv, hblock, hadv₂, hget]

/-- A turn of the scan at the end of a block that finds no block left finds nothing. -/
theorem scanNext_of_end {err : ℤ} {acc₁ acc₂ : DatumStreamRead} (hadv : acc.advance = .ok (0, acc₁))
    (hblock : acc₁.block crc = .ok (err, acc₂)) (herr : err < 0) :
    acc.scanNext crc = .ok (none, acc₂) := by
  simp [scanNext, hadv, hblock, herr]

/-- On a block of datums, a turn of the scan is a turn of the block reader. -/
theorem scanNext_of_readNext (h : acc.largeObjectState = .None) {x : Option Datum}
    {b' : DatumStreamBlockRead} (hread : acc.blockRead.readNext = .ok (some x, b')) :
    acc.scanNext crc = .ok (some x, { acc with blockRead := b' }) := by
  obtain ⟨found, hadv, h0, rfl⟩ := DatumStreamBlockRead.advanceOrig_of_readNext hread
  have hadv' : acc.advance = .ok (found, { acc with blockRead := b' }) := by
    rw [advance_of_none h, hadv]
  exact scanNext_of_advance crc hadv' h0 (get_of_none h)

/-- The large object once: an advance onto it, then the datum at the content read, then nothing. -/
theorem advance_haveAoContent (h : acc.largeObjectState = .HaveAoContent) :
    acc.advance = .ok (varsizeAny acc.bufferBeginp,
      { acc with
        blockRead := { acc.blockRead with nth := acc.blockRead.nth + 1 }
        largeObjectState := .PositionAdvanced }) := by
  simp [advance, advanceLarge, h]

theorem get_positionAdvanced (h : acc.largeObjectState = .PositionAdvanced) :
    acc.get = .ok (some ⟨0, acc.bufferBeginp⟩, { acc with largeObjectState := .Consumed }) := by
  simp [get, getLarge, h]

theorem advance_consumed (h : acc.largeObjectState = .Consumed) :
    acc.advance = .ok (0,
      { acc with
        blockRead := { acc.blockRead with nth := acc.blockRead.nth + 1 }
        largeObjectState := .Exhausted }) := by
  simp [advance, advanceLarge, h]

/-! ## Reading a block -/

/-- `datumstreamread_block` at a block: the block's info is kept, the storage reader stands
where it found it, and the block's content is taken. -/
theorem block_of_getBlockInfo {info : BlockInfo} {r₁ : AppendOnlyStorageRead}
    (hinfo : acc.aoRead.getBlockInfo crc = .ok (true, info, r₁)) :
    ∃ acc' : DatumStreamRead, acc'.getBlockInfo = info ∧ acc'.aoRead = r₁ ∧
      acc'.blockRead = acc.blockRead ∧
      acc.block crc = (do let acc ← acc'.blockContent crc; pure (0, acc)) := by
  refine ⟨{ acc with
      blockFirstRowNum := if info.firstRowNum ≥ 0 then info.firstRowNum
        else acc.blockFirstRowNum + Int64.ofInt acc.blockRowCount
      getBlockInfo := info
      aoRead := r₁
      blockRowCount := info.rowCount }, rfl, rfl, rfl, ?_⟩
  simp only [block, hinfo, Except.ok_bind, Bool.not_true, Bool.false_eq_true, if_false]
  split_ifs <;> rfl

/-- `datumstreamread_block` at the end of the file: `-1`. -/
theorem block_of_end {info : BlockInfo} {r₁ : AppendOnlyStorageRead}
    (hinfo : acc.aoRead.getBlockInfo crc = .ok (false, info, r₁)) :
    ∃ acc', acc.block crc = .ok (-1, acc') :=
  ⟨{ acc with
      blockFirstRowNum := acc.blockFirstRowNum + Int64.ofInt acc.blockRowCount
      getBlockInfo := info
      aoRead := r₁ }, by simp [block, hinfo]⟩

/-- `datumstreamread_block_content` of a block of datums: its content taken, decompressed or
where it is, and the block reader got ready on it. -/
theorem blockContent_block (hkind : acc.getBlockInfo.executorBlockKind = AOCSBK.BLOCK.toNat)
    (hinfo : acc.getBlockInfo = acc.aoRead.current.blockInfo)
    (hlarge : acc.aoRead.current.isLarge = false) {content : List UInt8}
    {r₂ : AppendOnlyStorageRead} (hcontent : acc.aoRead.content crc = .ok (content, r₂))
    {dsr₀ : DatumStreamBlockRead}
    (hready : acc.blockRead.resetOrig.getReadyOrig content acc.getBlockInfo.firstRowNum
      acc.getBlockInfo.rowCount = .ok (dsr₀, false, 0)) :
    acc.blockContent crc = .ok
      { acc with
        aoRead := r₂
        bufferBeginp := content
        largeObjectState := .None
        blockRead := dsr₀ } := by
  have hget : acc.aoRead.getBuffer crc = .ok (content, r₂) ∨
      acc.getBlockInfo.isCompressed = true := by
    cases hc : acc.getBlockInfo.isCompressed
    · rw [hinfo] at hc
      exact .inl ((getBuffer_eq_content crc hlarge hc).trans hcontent)
    · exact .inr rfl
  cases hc : acc.getBlockInfo.isCompressed
  · -- not compressed: the content where it is in the buffer
    have hbuf := hget.resolve_right (by rw [hc]; exact Bool.false_ne_true)
    simp [blockContent, hkind, hc, hbuf, blockGetReady, hready]
  · simp [blockContent, hkind, hc, hcontent, blockGetReady, hready]

/-- `datumstreamread_block_content` of a large object: its content copied, and nothing to get
ready. -/
theorem blockContent_blob (hkind : acc.getBlockInfo.executorBlockKind = AOCSBK.BLOB.toNat)
    (hneg : acc.blockRead.typeInfo.datumlen < 0) {content : List UInt8}
    {r₂ : AppendOnlyStorageRead} (hcontent : acc.aoRead.content crc = .ok (content, r₂)) :
    acc.blockContent crc = .ok
      { acc with
        aoRead := r₂
        bufferBeginp := content
        largeObjectState := .HaveAoContent
        blockRead := acc.blockRead.resetOrig } := by
  have hne : AOCSBK.BLOB.toNat ≠ AOCSBK.BLOCK.toNat := by decide
  simp [blockContent, hkind, hne, not_le.mpr hneg, hcontent, blockGetReady]

/-! ## The reader between blocks -/

/-- The reader past the last value of a block, or before the first block: its next advance finds
nothing, and leaves the storage reader and the column's type as they are. -/
def Exhausted (typeInfo : DatumStreamTypeInfo) (acc : DatumStreamRead) : Prop :=
  ∃ acc', acc.advance = .ok (0, acc') ∧ acc'.aoRead = acc.aoRead ∧
    acc'.blockRead.typeInfo = typeInfo

/-- On a block of datums, the reader past its last value is between blocks. -/
theorem exhausted_of_advanceOrig {typeInfo : DatumStreamTypeInfo} (h : acc.largeObjectState = .None)
    {b' : DatumStreamBlockRead} (hadv : acc.blockRead.advanceOrig = (0, b'))
    (hti : b'.typeInfo = typeInfo) : Exhausted typeInfo acc :=
  ⟨{ acc with blockRead := b' }, by rw [advance_of_none h, hadv], rfl, hti⟩

/-- Past a large object the reader is between blocks. -/
theorem exhausted_of_consumed {typeInfo : DatumStreamTypeInfo}
    (h : acc.largeObjectState = .Consumed) (hti : acc.blockRead.typeInfo = typeInfo) :
    Exhausted typeInfo acc :=
  ⟨_, advance_consumed h, rfl, hti⟩

theorem init_exhausted (typeInfo : DatumStreamTypeInfo) (r : AppendOnlyStorageRead) :
    Exhausted typeInfo (init typeInfo r) :=
  ⟨_, rfl, rfl, rfl⟩

/-- A reader between blocks on a storage reader at the end of the file finds nothing: the block it
asks for is not there. -/
theorem Exhausted.scanNext_at_end {typeInfo : DatumStreamTypeInfo} {r' : AppendOnlyStorageRead}
    (hex : Exhausted typeInfo acc) (hnone : acc.aoRead.readItem crc = .ok (none, r')) :
    ∃ acc', acc.scanNext crc = .ok (none, acc') := by
  obtain ⟨info, hinfo⟩ := readItem_eq_none crc hnone
  obtain ⟨acc₁, hadv, hao₁, -⟩ := hex
  have hinfo₁ : acc₁.aoRead.getBlockInfo crc = .ok (false, info, r') := by
    rw [hao₁]
    exact hinfo
  obtain ⟨acc₂, hblock⟩ := block_of_end crc hinfo₁
  exact ⟨acc₂, scanNext_of_end crc hadv hblock (by norm_num)⟩

end DatumStreamRead

open AppendOnly DatumStreamRead AppendOnly.AppendOnlyStorageRead

variable (crc : List UInt8 → UInt32)

/-- **One block read back.** From a reader between blocks, a column block as the writer wrote it,
which the storage reader finds as its next block, is read by the turns of the scan: they find its
values, each NULL as a NULL and every other datum with its contents, and leave the reader between
blocks, past the block in the storage reader. -/
theorem Written.finds {typeInfo : DatumStreamTypeInfo} {w : AppendOnlyStorageWrite}
    {item : ContentItem} {vals : List (Option Datum)}
    (hw : Written typeInfo (maxDataBlockSizeOrig w) item vals) {info : BlockInfo}
    {content : List UInt8}
    (hback : item.ReadsBack w.maxBufferLen w.storageAttributes.checksum (info, content))
    {acc : DatumStreamRead} (hex : Exhausted typeInfo acc) {r₁ r₂ : AppendOnlyStorageRead}
    (hinfo : acc.aoRead.getBlockInfo crc = .ok (true, info, r₁))
    (hcontent : r₁.content crc = .ok (content, r₂)) :
    ∃ found acc', Scan.Finds (scanNext crc) acc found acc' ∧
      found.map (Option.map typeInfo.contents) = vals.map (Option.map typeInfo.contents) ∧
      Exhausted typeInfo acc' ∧ acc'.aoRead = r₂ := by
  obtain ⟨acc₁, hadv, hao, hti⟩ := hex
  obtain ⟨acc₂, hgi, hao₂, hbr₂, hblock⟩ :=
    block_of_getBlockInfo crc (hao ▸ hinfo : acc₁.aoRead.getBlockInfo crc = _)
  have hcur : info = r₁.current.blockInfo := getBlockInfo_info crc hinfo
  cases hw with
  | @block dsw items bytes f hti' hmax hcount hinv hstores hne hb =>
    obtain ⟨hc, -, hek, hrc, -, hl⟩ := hback
    simp only at hc hek hrc hl
    subst hc
    rw [DatumStreamBlockWrite.blockOrig_eq, Except.ok.injEq] at hb
    subst hb
    -- the block fits a small content block, and the header's fields hold its sizes
    obtain ⟨-, hle, h8⟩ := maxDataBlockSizeOrig_bounds w
    have hlen := hinv.fits.length_blockOrig_le (hmax ▸ h8)
    rw [hmax] at hlen
    have hnth : dsw.nth < 2 ^ 15 := by
      have := hcount ▸ hinv.counts.nth_lt.resolve_left hne
      unfold maxdatumPerAocsOrigBlock at this
      omega
    have hsize : 16 + dsw.nullsz + dsw.datumBuffer.length < 2 ^ 31 := by
      simp only [List.length_append, length_origHeader,
        DatumStreamBlockWrite.length_nullBitMapBytes] at hlen
      omega
    have hsmall : r₁.current.isLarge = false := by
      have : info.isLarge = false := by
        rw [hl]
        simp only [ContentItem.isLarge, Option.isSome_some, decide_eq_false_iff_not, not_lt]
        exact hlen
      rwa [hcur] at this
    -- the block reader got ready on it stands before its first value
    obtain ⟨L, hL, hmap⟩ := hstores
    obtain ⟨dsr₀, hready, h₀⟩ := DatumStreamBlockWrite.getReadyOrig_blockOrig hinv.counts hL hnth
      hsize acc₁.blockRead (hti.trans hti'.symm) info.firstRowNum
    obtain ⟨acc₃, hbc, hao₃, hlo₃, hbr₃⟩ : ∃ acc₃, acc₂.blockContent crc = .ok acc₃ ∧
        acc₃.aoRead = r₂ ∧ acc₃.largeObjectState = .None ∧ acc₃.blockRead = dsr₀ :=
      ⟨_, blockContent_block crc (by rw [hgi]; exact hek) (by rw [hgi, hao₂]; exact hcur)
        (by rw [hao₂]; exact hsmall) (by rw [hao₂]; exact hcontent)
        (by rw [hbr₂, hgi, hrc]; exact hready), rfl, rfl, rfl⟩
    rw [hbc, Except.ok_bind, Except.pure_eq_ok] at hblock
    -- the turns of the block reader, of which the first comes with the block
    obtain ⟨found, dsr', hfinds, hfound, hend⟩ :=
      h₀.finds hinv.wellFormed hL hmap DatumStreamBlockWrite.dvd_length_header (Nat.zero_le _)
    have hlenf : found.length = vals.length := by simpa using congrArg List.length hfound
    cases hfinds with
    | nil => exact absurd (List.eq_nil_of_length_eq_zero hlenf.symm) hne
    | @cons _ dsr₁ _ x rest hstep hrest =>
      obtain ⟨found₁, hadv₀, h0, rfl⟩ := DatumStreamBlockRead.advanceOrig_of_readNext hstep
      have hadv₃ : acc₃.advance = .ok (found₁, { acc₃ with blockRead := dsr₁ }) := by
        rw [advance_of_none hlo₃, hbr₃, hadv₀]
      have hget₃ : ({ acc₃ with blockRead := dsr₁ } : DatumStreamRead).get =
          .ok (dsr₁.get, { acc₃ with blockRead := dsr₁ }) :=
        get_of_none (by exact hlo₃)
      have hfirst := scanNext_of_block crc hadv hblock hadv₃ hget₃
      -- the other turns of the scan are the block reader's
      have hmapped := hrest.map (fun b => { acc₃ with blockRead := b })
        (fun hs => scanNext_of_readNext crc (by exact hlo₃) hs)
      refine ⟨dsr₁.get :: rest, { acc₃ with blockRead := dsr' }, .cons hfirst hmapped, ?_,
        exhausted_of_advanceOrig (by exact hlo₃) hend.advanceOrig_end (hend.typeInfo_eq.trans hti'),
        hao₃⟩
      rw [← hti']
      simpa using hfound
  | @lob d f h1 h4 hd =>
    obtain ⟨hc, -, hek, -, -, -⟩ := hback
    simp only at hc hek
    subst hc
    -- the large object's content copied out, then its one value
    obtain ⟨acc₃, hbc, hao₃, hlo₃, hbuf₃, hti₃⟩ : ∃ acc₃, acc₂.blockContent crc = .ok acc₃ ∧
        acc₃.aoRead = r₂ ∧ acc₃.largeObjectState = .HaveAoContent ∧
        acc₃.bufferBeginp = d.pointee.take (varsizeAny d.pointee) ∧
        acc₃.blockRead.typeInfo = typeInfo :=
      ⟨_, blockContent_blob crc (by rw [hgi]; exact hek) (by rw [hbr₂, hti, h1]; norm_num)
        (by rw [hao₂]; exact hcontent), rfl, rfl, rfl, by simp [hbr₂, hti]⟩
    rw [hbc, Except.ok_bind, Except.pure_eq_ok] at hblock
    have hfirst := scanNext_of_block crc hadv hblock (advance_haveAoContent hlo₃)
      (get_positionAdvanced (by rfl))
    refine ⟨_, _, .cons hfirst (.nil _), ?_, exhausted_of_consumed (by rfl) hti₃, hao₃⟩
    -- the datum at the content read is the varlena written
    have hin : InLine d.pointee := by simpa [DatumStreamTypeInfo.Admits, h1] using hd
    obtain ⟨hsize, h4le, -, -⟩ := varsizeAny_of_varattIs4BU h4 hin
    simp only [List.map_cons, List.map_nil, Option.map_some, hbuf₃, contents_varlena h1, hsize,
      varlenaData_take_varsize4B h4 h4le]


/-- **The blocks of a segment file read back.** From a reader between blocks on a storage reader
that finds the column's blocks one after another, the turns of the scan find their values in
order, and leave the reader between blocks where the storage reader ends. -/
theorem finds_written {typeInfo : DatumStreamTypeInfo} {w : AppendOnlyStorageWrite}
    {r r' : AppendOnlyStorageRead} {aoBlocks : List (BlockInfo × List UInt8)}
    (hfinds : Scan.Finds (readItem crc) r aoBlocks r') :
    ∀ {blocks : List (ContentItem × List (Option Datum))},
      (∀ b ∈ blocks, Written typeInfo (maxDataBlockSizeOrig w) b.1 b.2) →
      List.Forall₂ (ContentItem.ReadsBack w.maxBufferLen w.storageAttributes.checksum)
        (blocks.map Prod.fst) aoBlocks →
      ∀ {acc : DatumStreamRead}, Exhausted typeInfo acc → acc.aoRead = r →
      ∃ found acc', Scan.Finds (scanNext crc) acc found acc' ∧
        found.map (Option.map typeInfo.contents) =
          (blocks.map Prod.snd).flatten.map (Option.map typeInfo.contents) ∧
        Exhausted typeInfo acc' ∧ acc'.aoRead = r' := by
  -- on the blocks the storage reader finds
  induction hfinds with
  | nil r =>
    intro blocks _ hall acc hex hao
    obtain rfl : blocks = [] := List.map_eq_nil_iff.1 (List.forall₂_nil_right_iff.1 hall)
    exact ⟨[], acc, .nil acc, rfl, hex, hao⟩
  | @cons r r₁ r' blk aoBlocks hstep _ ih =>
    intro blocks hwritten hall acc hex hao
    cases blocks with
    | nil => cases hall
    | cons b blocks =>
      obtain ⟨hback, hall'⟩ := List.forall₂_cons.1 hall
      obtain ⟨r₀, hinfo, hcontent⟩ := readItem_eq_some crc hstep
      obtain ⟨found₁, acc₁, hfinds₁, hfound₁, hex₁, hao₁⟩ :=
        (hwritten b List.mem_cons_self).finds crc hback hex (hao ▸ hinfo) hcontent
      obtain ⟨found₂, acc', hfinds₂, hfound₂, hex', hao'⟩ :=
        ih (fun b hb => hwritten b (List.mem_cons_of_mem _ hb)) hall' hex₁ hao₁
      refine ⟨found₁ ++ found₂, acc', hfinds₁.append hfinds₂, ?_, hex', hao'⟩
      rw [List.map_append, hfound₁, hfound₂, List.map_cons, List.flatten_cons, List.map_append]

/-- **A column read back.** A column of a well-formed type, written by `create_datumstreamwrite`'s
writer on an empty segment file of a valid table, row after row, each value one the column takes,
and finished: the segment file opens, and a scan of it with fuel to spare gives back every value
in order, each NULL as a NULL and every other datum with its contents. The scan stops because it
finds the end of the file. -/
theorem scan_insertValues (aoWrite : AppendOnlyStorageWrite) (dsw : DatumStreamBlockWrite)
    (blockFirstRowNum lastSequence : Int64) (vals : List (Datum × Bool))
    (verifyBlockChecksums : Bool) (hv : AOSegfileFormatVersion.IsValid aoWrite.formatVersion)
    (hcomp : aoWrite.storageAttributes.CompressionRoundTrips) (hempty : aoWrite.file = [])
    (hti : dsw.typeInfo.WellFormed) (hmax : dsw.maxDataBlockSize = maxDataBlockSizeOrig aoWrite)
    (hcount : dsw.maxDatumPerBlock = maxdatumPerAocsOrigBlock)
    (hvals : ∀ q ∈ vals, Insertable dsw.typeInfo (maxDataBlockSizeOrig aoWrite) q.1 q.2)
    (hne : vals ≠ []) :
    ∃ acc r, (do
        let acc ← DatumStreamWrite.insertValues crc ⟨aoWrite, blockFirstRowNum, dsw.getReady⟩
          lastSequence vals
        acc.finish crc) = .ok acc ∧
      openFile aoWrite.maxBufferLen aoWrite.storageAttributes verifyBlockChecksums acc.aoWrite.file
        aoWrite.formatVersion = .ok r ∧
      ∀ fuel, vals.length < fuel → ∃ found acc',
        Scan.scan (scanNext crc) fuel (init dsw.typeInfo r) = .ok (found, acc') ∧
        found.map (Option.map dsw.typeInfo.contents) =
          vals.map fun q => (itemOf q.1 q.2).map dsw.typeInfo.contents := by
  -- the writer's side: every value in the blocks written, in order
  have h₀ := writes_init crc aoWrite dsw blockFirstRowNum hti hmax hcount
  obtain ⟨acc₁, blocks₁, items₁, hrun, h₁, hflat₁⟩ :=
    Writes.insertValues (by exact hv) (by exact hcomp) vals lastSequence h₀ hvals
  obtain ⟨acc₂, blocks₂, hfin, h₂, hflat₂⟩ := h₁.finish (by exact hv) (by exact hcomp)
  rw [List.nil_append] at h₂
  have hflat :
      ((blocks₁ ++ blocks₂).map Prod.snd).flatten = vals.map fun q => itemOf q.1 q.2 := by
    rw [List.map_append, List.flatten_append, hflat₂]
    simpa using hflat₁
  have hblocks : blocks₁ ++ blocks₂ ≠ [] := by
    intro hnil
    have : (vals.map fun q => itemOf q.1 q.2) = [] := by rw [← hflat, hnil]; rfl
    exact hne (List.map_eq_nil_iff.1 this)
  -- the storage writer's side: those blocks are the table's contents, and its file is not empty
  obtain ⟨w', hw', -, hlen, -, -, hread⟩ :=
    writeItems_readBack crc ((blocks₁ ++ blocks₂).map Prod.fst)
      { aoWrite with isFirstRowNumSet := false } hv hcomp (fun item hi => by
        obtain ⟨b, hb, rfl⟩ := List.mem_map.1 hi
        exact (h₂.written b hb).fits) rfl
  -- the storage writer that wrote them is the one the column writer holds
  have hw'eq : { acc₂.aoWrite with isFirstRowNumSet := false } = w' := by
    rw [h₂.writeItems_eq] at hw'
    exact Except.ok.inj hw'
  subst hw'eq
  have hfile : acc₂.aoWrite.file ≠ [] := by
    have hpos := List.length_pos_iff.mpr hblocks
    simp only [List.length_map] at hlen
    exact List.ne_nil_of_length_pos (by omega)
  -- the file opens, and the storage reader finds the blocks one after another
  obtain ⟨r, hopen, hr, hrfile, hstart⟩ :=
    readsTable_openFile { aoWrite with isFirstRowNumSet := false } verifyBlockChecksums hfile hv
  obtain ⟨aoBlocks, r', hfinds, hall, hsame, hend⟩ :=
    hread r hr (by rw [hrfile]) (by rw [hstart]; simp [hempty])
  obtain ⟨found, acc₃, hscan, hfound, hex, hao₃⟩ :=
    finds_written crc hfinds (fun b hb => h₂.written b hb) hall
      (init_exhausted dsw.typeInfo r) rfl
  -- past the last block the column reader finds the end of the file
  obtain ⟨r'', hnone⟩ := readItem_of_end crc r'
    (hr.step (AppendOnlyStorageWrite.Keeps.refl _) hsame).minimumHeaderLen_le
    (by rw [hsame.file_eq, hrfile, hend])
  obtain ⟨acc₄, hlast⟩ := hex.scanNext_at_end crc (by rw [hao₃]; exact hnone)
  have hlenf : found.length = vals.length := by
    have := congrArg List.length hfound
    rwa [List.length_map, List.length_map, hflat, List.length_map] at this
  refine ⟨acc₂, r, by rw [hrun, Except.ok_bind, hfin], hopen, fun fuel hfuel =>
    ⟨found, acc₄, Scan.scan_of_finds hscan hlast fuel (hlenf ▸ hfuel), ?_⟩⟩
  rw [hfound, hflat, List.map_map]
  rfl

/-- An `int4` column of a checksummed table with 8 KiB blocks compressed by the run compressor,
written from an empty segment file: the value `7` and a NULL are read back. -/
theorem scan_insertValues_int4 :
    ∃ (aoWrite : AppendOnlyStorageWrite) (dsw : DatumStreamBlockWrite), aoWrite.file = [] ∧
      ∃ acc r, (do
          let acc ← DatumStreamWrite.insertValues (fun _ => 0) ⟨aoWrite, 1, dsw.getReady⟩ 0
            [(⟨7, []⟩, false), (⟨0, []⟩, true)]
          acc.finish (fun _ => 0)) = .ok acc ∧
        openFile aoWrite.maxBufferLen aoWrite.storageAttributes true acc.aoWrite.file
          aoWrite.formatVersion = .ok r ∧
        ∀ fuel, 2 < fuel → ∃ found acc',
          Scan.scan (scanNext (fun _ => 0)) fuel (init dsw.typeInfo r) = .ok (found, acc') ∧
          found.map (Option.map dsw.typeInfo.contents) =
            [((⟨7, []⟩ : Datum), false), (⟨0, []⟩, true)].map fun q =>
              (itemOf q.1 q.2).map dsw.typeInfo.contents :=
  ⟨{ maxBufferLen := 8192, maxBufferLen_valid := by decide,
     storageAttributes := { compression := some repeatCompression, checksum := true },
     formatVersion := 2, isFirstRowNumSet := false, firstRowNum := 0,
     getBufferAoHeaderKind := .SmallContent, currentCompleteHeaderLen := 0, buffer := fun _ => 0,
     file := [] },
    { typeInfo := ⟨4, .plain, .int, true⟩, maxDatumPerBlock := 0x3FFF, maxDataBlockSize := 8168,
      nth := 0, physicalDatumCount := 0, alwaysNullBitmapCount := 0, hasNull := false,
      nullBitmap := .init fun _ => 0, datumBuffer := [] }, rfl,
    scan_insertValues (fun _ => 0) _ _ 1 0 _ true (by decide)
      (compressionRoundTrips_repeatCompression true) rfl
      (by decide) (by decide) rfl (by decide) (by simp)⟩

end Orig

end DatumStream

end Cloudberry
