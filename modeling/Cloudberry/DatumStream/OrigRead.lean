import Cloudberry.DatumStream.OrigWrite

/-!
# Reading an Original datum stream block

The reader of a block (`DatumStreamBlockRead_GetReadyOrig`) checks the header's size and version,
reads the count of datums, whether the block has a NULL bit-map and the sizes, and puts `datump` on
the first datum, after the header and the bit-map rounded up to `MAXALIGN`. Each
`DatumStreamBlockRead_AdvanceOrig` moves on to the next datum: the next bit of the NULL bit-map says
whether it is NULL, and one that is not moves `datump` past the datum before it, over the zeros of
an alignment after a varlena (`nextItem`). `DatumStreamBlockRead_Get` gives the datum at `datump`.
A scan of the block (`readNext`) calls the two in turn, as the column scan does.

* `getReadyOrig_origHeader`: what the reader takes from a header a writer made;
* `advanceOrig_cases`: what an advance does, once for every later proof;
* `nextItem_eq`: the reader's step past a datum, as the datum's length and an alignment.
-/

namespace Cloudberry.DatumStream.Orig

open ByteMem

/-- The fields of `DatumStreamBlockRead` that an Original block uses. -/
structure DatumStreamBlockRead where
  typeInfo : DatumStreamTypeInfo
  /-- The block, from `buffer_beginp` on. -/
  buffer : List UInt8
  nth : ℤ
  physicalDatumIndex : ℤ
  logicalRowCount : ℤ
  physicalDataSize : ℤ
  hasNull : Bool
  nullBitmap : DatumStreamBitMapRead
  /-- The offsets of `datum_beginp` and `datump` in `buffer`. -/
  datumBeginp : ℕ
  datump : ℕ

/-- How far the reader's step moves past a datum from its first byte, before any alignment: the
size in a varlena's header, a C string and its zero, or the fixed length. -/
def itemLength (typeInfo : DatumStreamTypeInfo) (item : List UInt8) : ℕ :=
  if typeInfo.datumlen = -1 then varsizeAny item
  else if typeInfo.datumlen = -2 then strlen item + 1
  else typeInfo.datumlen.toNat

/-- Where `DatumStreamBlockRead_AdvanceOrig` moves `datump` from the datum at it: past a varlena by
its size and then, on a zero, over the alignment of the next one; past a C string and its zero;
past a fixed-length datum by its length. -/
def nextItem (typeInfo : DatumStreamTypeInfo) (buffer : List UInt8) (datump : ℕ) : ℕ :=
  if typeInfo.datumlen = -1 then
    let datump := datump + varsizeAny (buffer.drop datump)
    -- skip any zero padding after the previous varlena
    if buffer.getD datump 0 = 0 then attAlignNominal datump typeInfo.align else datump
  else if typeInfo.datumlen = -2 then datump + strlen (buffer.drop datump) + 1
  else (datump + typeInfo.datumlen).toNat

/-- The datum `DatumStreamBlockRead_Get` gives when it is not NULL, from the bytes at `datump`: a
varlena or a datum passed by reference is the bytes themselves, its address not being modelled; a
datum passed by value is loaded from them, little-endian. -/
def getDatum (typeInfo : DatumStreamTypeInfo) (item : List UInt8) : Datum :=
  if typeInfo.datumlen = -1 then ⟨0, item⟩
  else if !typeInfo.byval then ⟨0, item⟩
  else if typeInfo.datumlen = 1 ∨ typeInfo.datumlen = 2 ∨ typeInfo.datumlen = 4 ∨
      typeInfo.datumlen = 8 then
    ⟨UInt64.ofNat (leValue (item.take typeInfo.datumlen.toNat)), []⟩
  else ⟨0, []⟩

/-! ## The reader's step past a datum -/

section

variable {typeInfo : DatumStreamTypeInfo}

/-- The step past a datum is its length, then an alignment when a varlena is followed by a zero. -/
theorem nextItem_eq (hti : typeInfo.WellFormed) (buffer : List UInt8) (o : ℕ) :
    nextItem typeInfo buffer o =
      if typeInfo.datumlen = -1 ∧ buffer.getD (o + itemLength typeInfo (buffer.drop o)) 0 = 0 then
        attAlignNominal (o + itemLength typeInfo (buffer.drop o)) typeInfo.align
      else o + itemLength typeInfo (buffer.drop o) := by
  unfold nextItem itemLength
  by_cases h1 : typeInfo.datumlen = -1
  · simp [h1]
  · by_cases h2 : typeInfo.datumlen = -2
    · simp [h2]; omega
    · have hpos : 0 < typeInfo.datumlen := by rcases hti.1 with h | h | h <;> omega
      simp only [h1, h2, false_and, if_false]
      omega

theorem drop_append_length (pre data : List UInt8) (o : ℕ) :
    (pre ++ data).drop (pre.length + o) = data.drop o := by
  simp [List.drop_append]

/-- The step past a datum is the same in the data as in the block around it, as long as the data
starts on a `MAXALIGN` boundary. -/
theorem nextItem_append_left (hti : typeInfo.WellFormed) {pre : List UInt8}
    (hpre : 8 ∣ pre.length) (data : List UInt8) (o : ℕ) :
    nextItem typeInfo (pre ++ data) (pre.length + o) = pre.length + nextItem typeInfo data o := by
  have hget : ∀ i, (pre ++ data).getD (pre.length + i) 0 = data.getD i 0 := fun i => by
    rw [List.getD_append_right _ _ _ _ (by omega), Nat.add_sub_cancel_left]
  rw [nextItem_eq hti, nextItem_eq hti, drop_append_length, Nat.add_assoc, hget]
  split_ifs
  · exact attAlignNominal_add_of_dvd hpre _ _
  · rfl

end

namespace DatumStreamBlockRead

variable (dsr : DatumStreamBlockRead)

/-- `DatumStreamBlockRead_ResetOrig`: before the first datum, of no block. -/
def resetOrig : DatumStreamBlockRead :=
  { dsr with nth := -1, physicalDatumIndex := -1, logicalRowCount := 0, physicalDataSize := 0,
             hasNull := false, buffer := [], datumBeginp := 0, datump := 0 }

/-- `DatumStreamBlockRead_GetReadyOrig` with files not encrypted and the minimal checks: the reader
on the block `buffer`, whether the row count had to be adjusted, and to what. A negative `nullsz`
would move before the block; it is taken as none. -/
def getReadyOrig (buffer : List UInt8) (firstRowNum : Int64) (rowCount : ℤ) :
    Except String (DatumStreamBlockRead × Bool × ℤ) :=
  if buffer.length < 16 then .error "bad datum stream Original block header size"
  else if intField buffer 0 2 ≠ 1 then .error "bad datum stream Original block version"
  else
    let logicalRowCount := intField buffer 4 2
    -- the low byte of `flags`
    let hasNull := buffer.getD 2 0 &&& 0x01 != 0
    let p := 16 + if hasNull then (intField buffer 8 4).toNat else 0
    let hadToAdjustRowCount := decide (logicalRowCount > rowCount) && firstRowNum == -1
    .ok ({ dsr with buffer, logicalRowCount, physicalDataSize := intField buffer 12 4, hasNull,
                    nullBitmap := if hasNull then .init (buffer.drop 16) logicalRowCount.toNat
                      else dsr.nullBitmap,
                    datumBeginp := maxAlign p, datump := maxAlign p },
      hadToAdjustRowCount, if hadToAdjustRowCount then logicalRowCount else 0)

/-- `DatumStreamBlockRead_AdvanceOrig`: `0` past the last datum, `1` on the next one. -/
def advanceOrig : ℤ × DatumStreamBlockRead :=
  let dsr := { dsr with nth := dsr.nth + 1 }
  if dsr.nth ≥ dsr.logicalRowCount then (0, dsr)
  else
    let dsr := if dsr.hasNull then { dsr with nullBitmap := dsr.nullBitmap.next } else dsr
    if dsr.hasNull && dsr.nullBitmap.currentIsOn then (1, dsr)
    else
      let dsr := { dsr with physicalDatumIndex := dsr.physicalDatumIndex + 1 }
      -- the block read left `datump` on the first datum
      if dsr.physicalDatumIndex = 0 then (1, dsr)
      else (1, { dsr with datump := nextItem dsr.typeInfo dsr.buffer dsr.datump })

/-- `DatumStreamBlockRead_Get` for an Original block: `none` for a NULL. -/
def get : Option Datum :=
  if dsr.hasNull && dsr.nullBitmap.currentIsOn then none
  else some (getDatum dsr.typeInfo (dsr.buffer.drop dsr.datump))

/-- One turn of the column scan over a block: `datumstreamread_advance`, then
`datumstreamread_get` when it found a datum. -/
def readNext : Except String (Option (Option Datum) × DatumStreamBlockRead) :=
  let (found, dsr) := dsr.advanceOrig
  if found = 0 then .ok (none, dsr) else .ok (some dsr.get, dsr)

/-- What an advance does: past the last datum it finds nothing; otherwise it is on a NULL when the
next bit of the NULL bit-map is on, and on the next datum otherwise, having moved `datump` past the
one before unless there was none. -/
theorem advanceOrig_cases :
    (dsr.logicalRowCount ≤ dsr.nth + 1 ∧ dsr.advanceOrig = (0, { dsr with nth := dsr.nth + 1 })) ∨
    (dsr.nth + 1 < dsr.logicalRowCount ∧ dsr.hasNull = true ∧
      dsr.nullBitmap.next.currentIsOn = true ∧
      dsr.advanceOrig = (1, { dsr with nth := dsr.nth + 1, nullBitmap := dsr.nullBitmap.next })) ∨
    (dsr.nth + 1 < dsr.logicalRowCount ∧
      (dsr.hasNull = true → dsr.nullBitmap.next.currentIsOn = false) ∧
      dsr.advanceOrig = (1,
        { dsr with nth := dsr.nth + 1,
                   nullBitmap := if dsr.hasNull then dsr.nullBitmap.next else dsr.nullBitmap,
                   physicalDatumIndex := dsr.physicalDatumIndex + 1,
                   datump := if dsr.physicalDatumIndex + 1 = 0 then dsr.datump
                     else nextItem dsr.typeInfo dsr.buffer dsr.datump })) := by
  by_cases hend : dsr.logicalRowCount ≤ dsr.nth + 1
  · exact .inl ⟨hend, by simp [advanceOrig, hend]⟩
  refine .inr ?_
  cases hn : dsr.hasNull
  · refine .inr ⟨by omega, by simp, ?_⟩
    by_cases h0 : dsr.physicalDatumIndex + 1 = 0 <;> simp [advanceOrig, hend, hn, h0]
  · cases hon : dsr.nullBitmap.next.currentIsOn
    · refine .inr ⟨by omega, fun _ => rfl, ?_⟩
      by_cases h0 : dsr.physicalDatumIndex + 1 = 0 <;> simp [advanceOrig, hend, hn, hon, h0]
    · exact .inl ⟨by omega, rfl, rfl, by simp [advanceOrig, hend, hn, hon]⟩

theorem readNext_of_advanceOrig {found : ℤ} {dsr' : DatumStreamBlockRead}
    (h : dsr.advanceOrig = (found, dsr')) :
    dsr.readNext = if found = 0 then .ok (none, dsr') else .ok (some dsr'.get, dsr') := by
  rw [readNext, h]

/-- **The header a writer made.** The reader of a block whose header a writer made, with the
writer's count as the row count, takes the count, the NULL bit-map and the data where the writer
put them, and adjusts nothing. -/
theorem getReadyOrig_origHeader {flags ndatum nullsz sz : ℕ} (rest : List UInt8)
    (hflags : flags = 0 ∨ flags = 1) (hn : ndatum < 2 ^ 15) (hz : nullsz < 2 ^ 31)
    (hs : sz < 2 ^ 31) (h8 : 8 ∣ nullsz) (firstRowNum : Int64) :
    dsr.getReadyOrig (origHeader flags ndatum nullsz sz ++ rest) firstRowNum ndatum =
      .ok ({ dsr with buffer := origHeader flags ndatum nullsz sz ++ rest,
                      logicalRowCount := ndatum, physicalDataSize := sz, hasNull := flags == 1,
                      nullBitmap := if flags = 1 then .init rest ndatum else dsr.nullBitmap,
                      datumBeginp := 16 + if flags = 1 then nullsz else 0,
                      datump := 16 + if flags = 1 then nullsz else 0 }, false, 0) := by
  -- the fields, each after the ones before it
  have hsplit : ∀ (pre : List UInt8) (w v : ℕ) (post : List UInt8),
      origHeader flags ndatum nullsz sz ++ rest = pre ++ leBytes w v ++ post → v < 2 ^ (8 * w - 1) →
      intField (origHeader flags ndatum nullsz sz ++ rest) pre.length w = v :=
    fun pre w v post h hv => by rw [h]; exact intField_of_lt pre post hv
  have hversion := hsplit [] 2 1 (leBytes 2 flags ++ leBytes 2 ndatum ++ leBytes 2 0 ++
    leBytes 4 nullsz ++ leBytes 4 sz ++ rest) (by simp [origHeader]) (by norm_num)
  have hndatum := hsplit (leBytes 2 1 ++ leBytes 2 flags) 2 ndatum
    (leBytes 2 0 ++ leBytes 4 nullsz ++ leBytes 4 sz ++ rest) (by simp [origHeader]) hn
  have hnullsz := hsplit (leBytes 2 1 ++ leBytes 2 flags ++ leBytes 2 ndatum ++ leBytes 2 0) 4
    nullsz (leBytes 4 sz ++ rest) (by simp [origHeader]) hz
  have hsz := hsplit (leBytes 2 1 ++ leBytes 2 flags ++ leBytes 2 ndatum ++ leBytes 2 0 ++
    leBytes 4 nullsz) 4 sz rest (by simp [origHeader]) hs
  simp only [List.length_append, length_leBytes, List.length_nil, Nat.reduceAdd]
    at hversion hndatum hnullsz hsz
  have hflag : (origHeader flags ndatum nullsz sz ++ rest).getD 2 0 = UInt8.ofNat (flags % 256) := by
    simp [origHeader, leBytes]
  have hnull : (UInt8.ofNat (flags % 256) &&& 0x01 != 0) = (flags == 1) := by
    rcases hflags with rfl | rfl <;> rfl
  have hdrop : (origHeader flags ndatum nullsz sz ++ rest).drop 16 = rest := by
    have h := drop_append_length (origHeader flags ndatum nullsz sz) rest 0
    rwa [length_origHeader, Nat.add_zero, List.drop_zero] at h
  have halign : maxAlign (16 + if flags = 1 then nullsz else 0) =
      16 + if flags = 1 then nullsz else 0 :=
    maxAlign_of_dvd (Nat.dvd_add (by norm_num) (by split_ifs <;> simp [h8]))
  unfold getReadyOrig
  rw [if_neg (by simp), if_neg (by rw [hversion]; norm_num), hflag, hnull, hndatum, hnullsz, hsz,
    hdrop]
  rcases hflags with rfl | rfl
  · simp only [show (0 : ℕ) ≠ 1 by norm_num, if_false, Nat.add_zero] at halign
    simp [halign]
  · simp only [if_true] at halign
    simp [halign]

end DatumStreamBlockRead

end Cloudberry.DatumStream.Orig
