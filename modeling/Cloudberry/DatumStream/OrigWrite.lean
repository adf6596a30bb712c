import Mathlib.Data.List.ReduceOption
import Cloudberry.DatumStream.BitMap
import Cloudberry.DatumStream.Varlena

/-!
# Writing an Original datum stream block

A column of an append-optimized column table is a stream of datums cut into blocks. In the
Original format (`DatumStreamVersion_Original`) a block is a 16-byte header, then, when the block
has a NULL, a bit-map with one bit per datum padded with zeros to `MAXALIGN`, then the data of the
datums that are not NULL one after another (`DatumStreamBlockWrite_BlockOrig`).

The writer takes one datum at a time (`DatumStreamBlockWrite_PutOrig`). It returns the datum's size
when it takes it (`0` for a NULL) and the size negated when the block has no room left, and the
caller then writes the block out and starts the next. A varlena with a four-byte header and at
most 126 bytes of data is stored with a one-byte header; one stored with its four-byte header is
aligned first, and a refused one leaves that alignment behind.

* `putOrig_cases`: what a put can do, once for every later proof;
* `Counts`: the writer's counters and NULL bit-map after the datums it took, kept by every put
  (`Counts.putOrig`);
* `Fits`: the block the writer would make, aligned for the type, is within the maximum rounded up
  to `MAXALIGN`; kept by every put (`Fits.putOrig`), since only a refused varlena's alignment is
  added after the last check of the room.

Files are not encrypted here (`FileEncryptionEnabled` off), the integrity checks are the minimal
ones of a build without assertions, and a varlena reaches the put held in line, as the detoasting
that comes first leaves it.
-/

namespace Cloudberry.DatumStream

open ByteMem

/-- `typstorage`: `'p'`, `'e'`, `'m'` or `'x'`. -/
inductive TypStorage
  | plain
  | external
  | main
  | extended
  deriving DecidableEq, Repr

/-- `DatumStreamTypeInfo`, without the type's oid. -/
structure DatumStreamTypeInfo where
  datumlen : ℤ
  typstorage : TypStorage
  align : TypAlign
  byval : Bool
  deriving DecidableEq, Repr

/-- A `Datum`: its word, and for a type passed by reference the bytes at the address it holds. -/
structure Datum where
  word : UInt64
  pointee : List UInt8
  deriving DecidableEq, Repr

namespace DatumStreamTypeInfo

variable (typeInfo : DatumStreamTypeInfo)

/-- The types a datum stream is made for: a varlena (`-1`), a C string (`-2`) or a positive fixed
length, which is 1, 2, 4 or 8 for a type passed by value. -/
def WellFormed : Prop :=
  (typeInfo.datumlen = -1 ∨ typeInfo.datumlen = -2 ∨ 0 < typeInfo.datumlen) ∧
    (typeInfo.byval = true → typeInfo.datumlen = 1 ∨ typeInfo.datumlen = 2 ∨
      typeInfo.datumlen = 4 ∨ typeInfo.datumlen = 8)

instance : Decidable typeInfo.WellFormed := inferInstanceAs (Decidable (_ ∧ _))

/-- The datums a put takes as they are: a varlena held in line and not compressed; a C string
with its terminating zero; a datum passed by reference with at least the type's length of bytes. -/
def Admits (d : Datum) : Prop :=
  if typeInfo.datumlen = -1 then InLine d.pointee
  else if typeInfo.datumlen = -2 then 0 ∈ d.pointee
  else typeInfo.byval = false → typeInfo.datumlen.toNat ≤ d.pointee.length

instance (d : Datum) : Decidable (typeInfo.Admits d) :=
  inferInstanceAs (Decidable (if typeInfo.datumlen = -1 then InLine d.pointee
    else if typeInfo.datumlen = -2 then (0 : UInt8) ∈ d.pointee
    else typeInfo.byval = false → typeInfo.datumlen.toNat ≤ d.pointee.length))

section

variable {typeInfo : DatumStreamTypeInfo} {d : Datum}

theorem Admits.inLine (hti : typeInfo.WellFormed) (hd : typeInfo.Admits d)
    (hneg : typeInfo.datumlen < 0) (h2 : typeInfo.datumlen ≠ -2) : InLine d.pointee := by
  have h1 : typeInfo.datumlen = -1 := by rcases hti.1 with h | h | h <;> omega
  simpa [Admits, h1] using hd

theorem Admits.zero_mem (hd : typeInfo.Admits d) (h2 : typeInfo.datumlen = -2) :
    (0 : UInt8) ∈ d.pointee := by
  simpa [Admits, h2] using hd

theorem Admits.datumlen_le (hd : typeInfo.Admits d) (hpos : 0 ≤ typeInfo.datumlen)
    (hbyval : typeInfo.byval = false) : typeInfo.datumlen.toNat ≤ d.pointee.length := by
  have hd' : typeInfo.byval = false → typeInfo.datumlen.toNat ≤ d.pointee.length := by
    simpa [Admits, show typeInfo.datumlen ≠ -1 by omega, show typeInfo.datumlen ≠ -2 by omega]
      using hd
  exact hd' hbyval

end

/-- What a datum of the type is, as far as a reader can tell: the data of a varlena, whose header
may be stored shorter; the characters of a C string; the bytes of a fixed-length datum. -/
def contents (d : Datum) : List UInt8 :=
  if typeInfo.datumlen = -1 then varlenaData d.pointee
  else if typeInfo.datumlen = -2 then d.pointee.takeWhile (· ≠ 0)
  else if typeInfo.byval then leBytes typeInfo.datumlen.toNat d.word.toNat
  else d.pointee.take typeInfo.datumlen.toNat

end DatumStreamTypeInfo

namespace Orig

/-- `MaxAllocSize`, the most `palloc` gives: `DatumStreamBlockWrite_Init` allocates the block's
buffer of `maxDataBlockSize` bytes. -/
def maxAllocSize : ℕ := 0x3FFFFFFF

/-- The fields of `DatumStreamBlockWrite` that an Original block uses. -/
structure DatumStreamBlockWrite where
  typeInfo : DatumStreamTypeInfo
  maxDatumPerBlock : ℕ
  maxDataBlockSize : ℕ
  nth : ℕ
  physicalDatumCount : ℕ
  alwaysNullBitmapCount : ℕ
  hasNull : Bool
  nullBitmap : DatumStreamBitMapWrite
  /-- The bytes from `datum_buffer` up to `datump`. -/
  datumBuffer : List UInt8

/-- What the variable-length cases of `DatumStreamBlockWrite_PutOrig` set: the item's size `sz`,
the one-byte header `c1` it is given (`0` for none), the bytes `p` copied after it and how many
(`wsz`), and whether `datump` is aligned first. -/
structure VarlenaItem where
  sz : ℕ
  c1 : UInt8
  p : List UInt8
  wsz : ℕ
  align : Bool

/-- The four variable-length cases of `DatumStreamBlockWrite_PutOrig`: a C string, a varlena with
a one-byte header, one that can be made short, and one kept with its four-byte header. -/
def varlenaItem (typeInfo : DatumStreamTypeInfo) (p : List UInt8) : VarlenaItem :=
  if typeInfo.datumlen = -2 then ⟨strlen p + 1, 0, p, strlen p + 1, false⟩
  else if varattIs1B p then ⟨varsize1B p, 0, p, varsize1B p, false⟩
  else if typeInfo.typstorage != .plain && varattCanMakeShort p then
    ⟨varattConvertedShortSize p, varsizeToShort p, p.drop 4, varattConvertedShortSize p - 1, false⟩
  else ⟨varsize4B p, 0, p, varsize4B p, true⟩

/-- `DatumStreamBlockWrite_PutFixedLength`: the bytes of a fixed-length datum. One passed by value
is stored through a pointer of its width, little-endian. -/
def putFixedLength (typeInfo : DatumStreamTypeInfo) (d : Datum) : Except String (List UInt8) :=
  if !typeInfo.byval then .ok (d.pointee.take typeInfo.datumlen.toNat)
  else if typeInfo.datumlen = 1 ∨ typeInfo.datumlen = 2 ∨ typeInfo.datumlen = 4 ∨
      typeInfo.datumlen = 8 then
    .ok (leBytes typeInfo.datumlen.toNat d.word.toNat)
  else
    let datumlen := typeInfo.datumlen
    .error s!"fixed length type has unexpected length {datumlen}"

/-- `DatumStreamBlock_Orig`: `version`, `flags`, `ndatum` and `encrypted` in two bytes each, then
`nullsz` and `sz` in four, little-endian. -/
def origHeader (flags ndatum nullsz sz : ℕ) : List UInt8 :=
  leBytes 2 1 ++ leBytes 2 flags ++ leBytes 2 ndatum ++ leBytes 2 0 ++ leBytes 4 nullsz ++
    leBytes 4 sz

/-- A signed field of a block, an `int16` or an `int32`: the `w` bytes from `o`, little-endian. -/
def intField (buffer : List UInt8) (o w : ℕ) : ℤ :=
  let v := leValue ((buffer.drop o).take w)
  if v < 2 ^ (8 * w - 1) then v else v - 2 ^ (8 * w)

/-- `DatumStreamBlock_IntegrityCheckOrig` with the minimal checks, those of a build without
assertions. -/
def integrityCheckOrig (buffer : List UInt8) : Except String Unit :=
  let bufferSize := buffer.length
  let version := intField buffer 0 2
  if bufferSize < 16 then
    .error s!"Bad datum stream Original block header size.  Found {bufferSize} and expected the size to be at least 16"
  else if version ≠ 1 then
    .error s!"Bad datum stream Original block version.  Found {version} and expected 1"
  else .ok ()

@[simp] theorem length_origHeader (flags ndatum nullsz sz : ℕ) :
    (origHeader flags ndatum nullsz sz).length = 16 := by
  simp [origHeader]

/-- A field a writer stored reads back, whatever is before and after it, as long as it is below the
sign bit. -/
theorem intField_of_lt (pre rest : List UInt8) {w v : ℕ} (hv : v < 2 ^ (8 * w - 1)) :
    intField (pre ++ leBytes w v ++ rest) pre.length w = v := by
  have hlt : v < 256 ^ w := by
    have : 2 ^ (8 * w - 1) ≤ 256 ^ w := by
      rw [show (256 : ℕ) = 2 ^ 8 by norm_num, ← pow_mul]
      exact Nat.pow_le_pow_right (by norm_num) (by omega)
    omega
  unfold intField
  rw [List.append_assoc, List.drop_left, List.take_left' (length_leBytes w v), leValue_leBytes,
    Nat.mod_eq_of_lt hlt, if_pos hv]

namespace DatumStreamBlockWrite

variable (dsw : DatumStreamBlockWrite)

/-- `DatumStreamBlockWrite_GetReady` for the Original format: an empty block, the NULL bit-map
started again in its buffer. -/
def getReady : DatumStreamBlockWrite :=
  { dsw with nth := 0, physicalDatumCount := 0, alwaysNullBitmapCount := 0, hasNull := false,
             nullBitmap := .init dsw.nullBitmap.buffer, datumBuffer := [] }

/-- `DatumStreamBlockWrite_OrigHasSpace`: room for one datum more, of `sz` bytes, with the NULL
bit-map it needs. -/
def origHasSpace (null : Bool) (sz : ℕ) : Bool :=
  if dsw.nth + 1 ≥ dsw.maxDatumPerBlock then false
  else
    let nullSize :=
      if null || dsw.hasNull then maxAlign (datumStreamBitMapSize (dsw.alwaysNullBitmapCount + 1))
      else 0
    decide (16 + nullSize + dsw.datumBuffer.length + sz < dsw.maxDataBlockSize)

/-- `DatumStreamBlockWrite_MakeNullBitMapSpace`. Growing the bit-map's buffer is not modelled: its
memory has no end. -/
def makeNullBitMapSpace : DatumStreamBlockWrite :=
  if !dsw.hasNull then
    -- the first NULL: zero fill the bits of the datums before it
    { dsw with hasNull := true, nullBitmap := dsw.nullBitmap.zeroFill dsw.alwaysNullBitmapCount }
  else dsw

/-- The end of `DatumStreamBlockWrite_PutOrig` for a datum that is not NULL: its bit when the
block has a NULL, and the counts. -/
def addItem : DatumStreamBlockWrite :=
  let dsw :=
    if dsw.hasNull then
      let dsw := dsw.makeNullBitMapSpace
      { dsw with nullBitmap := dsw.nullBitmap.addBit false }
    else dsw
  { dsw with alwaysNullBitmapCount := dsw.alwaysNullBitmapCount + 1, nth := dsw.nth + 1,
             physicalDatumCount := dsw.physicalDatumCount + 1 }

/-- `DatumStreamBlockWrite_PutOrig`. -/
def putOrig (d : Datum) (null : Bool) : Except String (ℤ × DatumStreamBlockWrite) :=
  if null then
    if !dsw.origHasSpace null 0 then .ok (-1, dsw)
    else
      let dsw := dsw.makeNullBitMapSpace
      let dsw := { dsw with nullBitmap := dsw.nullBitmap.addBit true }
      .ok (0, { dsw with alwaysNullBitmapCount := dsw.alwaysNullBitmapCount + 1,
                         nth := dsw.nth + 1 })
  else if dsw.typeInfo.datumlen < 0 then
    let item := varlenaItem dsw.typeInfo d.pointee
    -- the alignment comes before the check of the room, and stays when there is none
    let dsw :=
      if item.align then { dsw with datumBuffer := attAlignZero dsw.datumBuffer dsw.typeInfo.align }
      else dsw
    if !dsw.origHasSpace false item.sz then .ok (-item.sz, dsw)
    else
      let header := if item.c1 ≠ 0 then [item.c1] else []
      .ok (item.sz, { dsw with datumBuffer := dsw.datumBuffer ++ header ++ item.p.take item.wsz }.addItem)
  else if !dsw.origHasSpace false dsw.typeInfo.datumlen.toNat then
    .ok (-dsw.typeInfo.datumlen, dsw)
  else do
    let bytes ← putFixedLength dsw.typeInfo d
    pure (dsw.typeInfo.datumlen, { dsw with datumBuffer := dsw.datumBuffer ++ bytes }.addItem)

/-- `block.nullsz`: the NULL bit-map's size rounded up to `MAXALIGN`, or nothing. -/
def nullsz : ℕ := if dsw.hasNull then maxAlign dsw.nullBitmap.size else 0

/-- The NULL bit-map as the block holds it: its bytes, then zeros up to `nullsz`. -/
def nullBitMapBytes : List UInt8 :=
  if dsw.hasNull then
    dsw.nullBitmap.buffer.read 0 dsw.nullBitmap.size ++
      List.replicate (dsw.nullsz - dsw.nullBitmap.size) 0
  else []

/-- `DatumStreamBlockWrite_BlockOrig`: the header, the NULL bit-map and the data. -/
def blockOrig : Except String (List UInt8) := do
  let header := origHeader (if dsw.hasNull then 1 else 0) dsw.nth dsw.nullsz dsw.datumBuffer.length
  let buffer := header ++ dsw.nullBitMapBytes ++ dsw.datumBuffer
  integrityCheckOrig buffer
  pure buffer

/-- Puts in turn, with what each one returned. -/
def putAll : DatumStreamBlockWrite → List (Datum × Bool) →
    Except String (List ℤ × DatumStreamBlockWrite)
  | dsw, [] => .ok ([], dsw)
  | dsw, (d, null) :: reqs => do
    let (r, dsw) ← dsw.putOrig d null
    let (rs, dsw) ← putAll dsw reqs
    pure (r :: rs, dsw)

end DatumStreamBlockWrite

/-! ## What a put does -/

/-- Whether a put of `d` aligns `datump` first: for a varlena kept with its four-byte header. -/
def alignsFirst (typeInfo : DatumStreamTypeInfo) (d : Datum) : Bool :=
  decide (typeInfo.datumlen < 0) && (varlenaItem typeInfo d.pointee).align

/-- The size a put of `d` checks the room for and returns. -/
def itemSize (typeInfo : DatumStreamTypeInfo) (d : Datum) : ℕ :=
  if typeInfo.datumlen < 0 then (varlenaItem typeInfo d.pointee).sz else typeInfo.datumlen.toNat

/-- The bytes a put of `d` stores, after any alignment. -/
def storedBytes (typeInfo : DatumStreamTypeInfo) (d : Datum) : Except String (List UInt8) :=
  if typeInfo.datumlen < 0 then
    let item := varlenaItem typeInfo d.pointee
    .ok ((if item.c1 ≠ 0 then [item.c1] else []) ++ item.p.take item.wsz)
  else putFixedLength typeInfo d

/-- The datum a put takes, `none` for a NULL. -/
def itemOf (d : Datum) (null : Bool) : Option Datum := if null then none else some d

namespace DatumStreamBlockWrite

variable (dsw : DatumStreamBlockWrite)

/-- The writer aligned as a put of `d` aligns it before checking the room. -/
def alignFor (d : Datum) : DatumStreamBlockWrite :=
  if alignsFirst dsw.typeInfo d then
    { dsw with datumBuffer := attAlignZero dsw.datumBuffer dsw.typeInfo.align }
  else dsw

/-- The writer after a NULL it has room for. -/
def putNull : DatumStreamBlockWrite :=
  let dsw := dsw.makeNullBitMapSpace
  let dsw := { dsw with nullBitmap := dsw.nullBitmap.addBit true }
  { dsw with alwaysNullBitmapCount := dsw.alwaysNullBitmapCount + 1, nth := dsw.nth + 1 }

theorem putOrig_true (d : Datum) :
    dsw.putOrig d true = if dsw.origHasSpace true 0 then .ok (0, dsw.putNull) else .ok (-1, dsw) := by
  cases h : dsw.origHasSpace true 0 <;> simp [putOrig, putNull, h]

theorem putOrig_false (d : Datum) :
    dsw.putOrig d false =
      if (dsw.alignFor d).origHasSpace false (itemSize dsw.typeInfo d) then
        (storedBytes dsw.typeInfo d).map fun bytes =>
          ((itemSize dsw.typeInfo d : ℤ), { dsw.alignFor d with
            datumBuffer := (dsw.alignFor d).datumBuffer ++ bytes }.addItem)
      else .ok (-(itemSize dsw.typeInfo d : ℤ), dsw.alignFor d) := by
  by_cases hneg : dsw.typeInfo.datumlen < 0
  · -- a variable-length item
    have halign : dsw.alignFor d = if (varlenaItem dsw.typeInfo d.pointee).align then
        { dsw with datumBuffer := attAlignZero dsw.datumBuffer dsw.typeInfo.align } else dsw := by
      simp [alignFor, alignsFirst, hneg]
    rw [halign]
    simp only [putOrig, hneg, itemSize, storedBytes, if_true, Bool.false_eq_true, if_false]
    split_ifs <;> simp_all [Except.map]
  · -- a fixed-length item
    have hlen : ((dsw.typeInfo.datumlen.toNat : ℕ) : ℤ) = dsw.typeInfo.datumlen :=
      Int.toNat_of_nonneg (by omega)
    simp only [putOrig, hneg, alignFor, alignsFirst, itemSize, storedBytes, decide_false,
      Bool.false_and, Bool.false_eq_true, if_false, hlen]
    cases h : dsw.origHasSpace false dsw.typeInfo.datumlen.toNat
    · simp
    · cases putFixedLength dsw.typeInfo d <;> rfl

/-- **What a put does.** A NULL is refused or added; any other datum is refused after the
alignment its put makes, or its bytes are added after that alignment. -/
theorem putOrig_cases {d : Datum} {null : Bool} {r : ℤ} {dsw' : DatumStreamBlockWrite}
    (h : dsw.putOrig d null = .ok (r, dsw')) :
    (null = true ∧ dsw.origHasSpace true 0 = false ∧ r = -1 ∧ dsw' = dsw) ∨
    (null = true ∧ dsw.origHasSpace true 0 = true ∧ r = 0 ∧ dsw' = dsw.putNull) ∨
    (null = false ∧ (dsw.alignFor d).origHasSpace false (itemSize dsw.typeInfo d) = false ∧
      r = -(itemSize dsw.typeInfo d : ℤ) ∧ dsw' = dsw.alignFor d) ∨
    (null = false ∧ (dsw.alignFor d).origHasSpace false (itemSize dsw.typeInfo d) = true ∧
      r = (itemSize dsw.typeInfo d : ℤ) ∧ ∃ bytes, storedBytes dsw.typeInfo d = .ok bytes ∧
        dsw' = { dsw.alignFor d with datumBuffer := (dsw.alignFor d).datumBuffer ++ bytes }.addItem) := by
  cases null
  · rw [putOrig_false] at h
    cases hs : (dsw.alignFor d).origHasSpace false (itemSize dsw.typeInfo d)
    · rw [hs] at h
      simp only [Bool.false_eq_true, if_false, Except.ok.injEq, Prod.mk.injEq] at h
      exact .inr (.inr (.inl ⟨rfl, rfl, h.1.symm, h.2.symm⟩))
    · rw [hs, if_pos rfl] at h
      cases hb : storedBytes dsw.typeInfo d with
      | error e => rw [hb] at h; cases h
      | ok bytes =>
        rw [hb] at h
        simp only [Except.map, Except.ok.injEq, Prod.mk.injEq] at h
        exact .inr (.inr (.inr ⟨rfl, rfl, h.1.symm, bytes, rfl, h.2.symm⟩))
  · rw [putOrig_true] at h
    cases hs : dsw.origHasSpace true 0
    · rw [hs] at h
      simp only [Bool.false_eq_true, if_false, Except.ok.injEq, Prod.mk.injEq] at h
      exact .inl ⟨rfl, rfl, h.1.symm, h.2.symm⟩
    · rw [hs, if_pos rfl] at h
      simp only [Except.ok.injEq, Prod.mk.injEq] at h
      exact .inr (.inl ⟨rfl, rfl, h.1.symm, h.2.symm⟩)

end DatumStreamBlockWrite

/-! ## The sizes of the datums a put takes -/

theorem varsizeToShort_ne_zero (p : List UInt8) : varsizeToShort p ≠ 0 := by
  intro h
  have := congrArg UInt8.toNat h
  rw [varsizeToShort, UInt8.toNat_or] at this
  simp at this

/-- The four cases of `varlenaItem`, with what selects each. -/
theorem varlenaItem_cases (typeInfo : DatumStreamTypeInfo) (p : List UInt8) :
    (typeInfo.datumlen = -2 ∧
      varlenaItem typeInfo p = ⟨strlen p + 1, 0, p, strlen p + 1, false⟩) ∨
    (typeInfo.datumlen ≠ -2 ∧ varattIs1B p = true ∧
      varlenaItem typeInfo p = ⟨varsize1B p, 0, p, varsize1B p, false⟩) ∨
    (typeInfo.datumlen ≠ -2 ∧ varattIs1B p = false ∧ typeInfo.typstorage ≠ .plain ∧
      varattCanMakeShort p = true ∧
      varlenaItem typeInfo p = ⟨varattConvertedShortSize p, varsizeToShort p, p.drop 4,
        varattConvertedShortSize p - 1, false⟩) ∨
    (typeInfo.datumlen ≠ -2 ∧ varattIs1B p = false ∧
      (typeInfo.typstorage = .plain ∨ varattCanMakeShort p = false) ∧
      varlenaItem typeInfo p = ⟨varsize4B p, 0, p, varsize4B p, true⟩) := by
  unfold varlenaItem
  by_cases h2 : typeInfo.datumlen = -2
  · exact .inl ⟨h2, by rw [if_pos h2]⟩
  cases h1 : varattIs1B p
  · by_cases hs : (typeInfo.typstorage != .plain && varattCanMakeShort p) = true
    · simp only [Bool.and_eq_true, bne_iff_ne, ne_eq] at hs
      exact .inr (.inr (.inl ⟨h2, rfl, hs.1, hs.2, by simp [h2, hs]⟩))
    · have hs' : typeInfo.typstorage = .plain ∨ varattCanMakeShort p = false := by
        simp only [Bool.and_eq_true, bne_iff_ne, ne_eq, not_and_or, not_not,
          Bool.not_eq_true] at hs
        exact hs
      refine .inr (.inr (.inr ⟨h2, rfl, hs', ?_⟩))
      rw [if_neg h2, if_neg Bool.false_ne_true, if_neg hs]
  · exact .inr (.inl ⟨h2, rfl, by rw [if_neg h2, if_pos rfl]⟩)

theorem itemSize_pos {typeInfo : DatumStreamTypeInfo} {d : Datum} (hti : typeInfo.WellFormed)
    (hd : typeInfo.Admits d) : 0 < itemSize typeInfo d := by
  unfold itemSize
  split_ifs with hneg
  · rcases varlenaItem_cases typeInfo d.pointee with ⟨-, he⟩ | ⟨h2, h1, he⟩ | ⟨-, -, -, -, he⟩ |
      ⟨h2, h1, -, he⟩ <;> rw [he]
    · simp
    · rcases hd.inLine hti hneg h2 with ⟨-, -, hsz, -⟩ | ⟨h4, -⟩
      · exact hsz
      · rw [varattIs1B_of_varattIs4BU h4] at h1; cases h1
    · simp [varattConvertedShortSize]
    · rcases hd.inLine hti hneg h2 with ⟨h1', -⟩ | ⟨-, h4, -⟩
      · rw [h1'] at h1; cases h1
      · simp only; omega
  · rcases hti.1 with h | h | h <;> omega

/-- The bytes a put stores for an admitted datum are as many as its size. -/
theorem length_storedBytes {typeInfo : DatumStreamTypeInfo} {d : Datum} {bytes : List UInt8}
    (hti : typeInfo.WellFormed) (hd : typeInfo.Admits d) (hb : storedBytes typeInfo d = .ok bytes) :
    bytes.length = itemSize typeInfo d := by
  unfold storedBytes at hb
  unfold itemSize
  split_ifs at hb ⊢ with hneg
  · simp only [Except.ok.injEq] at hb
    subst hb
    rcases varlenaItem_cases typeInfo d.pointee with ⟨h2, he⟩ | ⟨h2, h1, he⟩ |
      ⟨h2, h1, -, -, he⟩ | ⟨h2, h1, -, he⟩ <;> rw [he]
    · -- a C string, with its zero
      have := strlen_lt_length (hd.zero_mem h2)
      simp; omega
    · -- a one-byte header
      rcases hd.inLine hti hneg h2 with ⟨-, -, -, hle⟩ | ⟨h4, -⟩
      · simp; omega
      · rw [varattIs1B_of_varattIs4BU h4] at h1; cases h1
    · -- made short
      rcases hd.inLine hti hneg h2 with ⟨h1', -⟩ | ⟨-, h4, hle⟩
      · rw [h1'] at h1; cases h1
      · have hconv := varattConvertedShortSize_eq h4
        simp [varsizeToShort_ne_zero]; omega
    · -- kept with its four-byte header
      rcases hd.inLine hti hneg h2 with ⟨h1', -⟩ | ⟨-, -, hle⟩
      · rw [h1'] at h1; cases h1
      · simp; omega
  · unfold putFixedLength at hb
    split_ifs at hb with hbyval hfix
    · simp only [Except.ok.injEq] at hb
      subst hb
      simp [hd.datumlen_le (by omega) (by simpa using hbyval)]
    · simp only [Except.ok.injEq] at hb
      subst hb
      exact length_leBytes _ _

/-- Under a well-formed type a put never fails. -/
theorem storedBytes_ok {typeInfo : DatumStreamTypeInfo} (hti : typeInfo.WellFormed) (d : Datum) :
    ∃ bytes, storedBytes typeInfo d = .ok bytes := by
  unfold storedBytes putFixedLength
  split_ifs with hneg hbyval hfix
  · exact ⟨_, rfl⟩
  · exact ⟨_, rfl⟩
  · exact ⟨_, rfl⟩
  · exact absurd (hti.2 (by simpa using hbyval)) hfix

/-! ## The counters and the NULL bit-map -/

namespace DatumStreamBlockWrite

variable (dsw : DatumStreamBlockWrite)

/-- What the writer's counters and NULL bit-map say after it took the datums `items`, `none` for
a NULL: a bit for each datum once the block has a NULL, the bit-map not yet started before. -/
structure Counts (items : List (Option Datum)) : Prop where
  nth_eq : dsw.nth = items.length
  alwaysNullBitmapCount_eq : dsw.alwaysNullBitmapCount = items.length
  physicalDatumCount_eq : dsw.physicalDatumCount = items.reduceOption.length
  hasNull_eq : dsw.hasNull = items.any Option.isNone
  nullBitmap_init : dsw.hasNull = false → dsw.nullBitmap = .init dsw.nullBitmap.buffer
  nullBitmap_holds : dsw.hasNull = true → dsw.nullBitmap.Holds (items.map Option.isNone)
  nth_lt : items = [] ∨ dsw.nth < dsw.maxDatumPerBlock

variable {dsw}

theorem makeNullBitMapSpace_eq : dsw.makeNullBitMapSpace =
    { dsw with hasNull := true,
               nullBitmap := if dsw.hasNull then dsw.nullBitmap
                 else dsw.nullBitmap.zeroFill dsw.alwaysNullBitmapCount } := by
  rcases dsw with ⟨_, _, _, _, _, _, hasNull, _, _⟩
  cases hasNull <;> rfl

theorem alignFor_eq (d : Datum) : dsw.alignFor d =
    { dsw with datumBuffer := if alignsFirst dsw.typeInfo d then
        attAlignZero dsw.datumBuffer dsw.typeInfo.align else dsw.datumBuffer } := by
  unfold alignFor
  split_ifs <;> rfl

theorem addItem_eq : dsw.addItem =
    { dsw with nullBitmap := if dsw.hasNull then dsw.nullBitmap.addBit false else dsw.nullBitmap,
               alwaysNullBitmapCount := dsw.alwaysNullBitmapCount + 1, nth := dsw.nth + 1,
               physicalDatumCount := dsw.physicalDatumCount + 1 } := by
  rcases dsw with ⟨_, _, _, _, _, _, hasNull, _, _⟩
  cases hasNull <;> rfl

theorem putNull_eq : dsw.putNull =
    { dsw with hasNull := true,
               nullBitmap := (if dsw.hasNull then dsw.nullBitmap
                 else dsw.nullBitmap.zeroFill dsw.alwaysNullBitmapCount).addBit true,
               alwaysNullBitmapCount := dsw.alwaysNullBitmapCount + 1, nth := dsw.nth + 1 } := by
  rcases dsw with ⟨_, _, _, _, _, _, hasNull, _, _⟩
  cases hasNull <;> rfl

/-- `DatumStreamBlockWrite_OrigHasSpace` as a condition. -/
theorem origHasSpace_iff {null : Bool} {sz : ℕ} : dsw.origHasSpace null sz = true ↔
    dsw.nth + 1 < dsw.maxDatumPerBlock ∧
      16 + (if null || dsw.hasNull then
        maxAlign (datumStreamBitMapSize (dsw.alwaysNullBitmapCount + 1)) else 0) +
        dsw.datumBuffer.length + sz < dsw.maxDataBlockSize := by
  unfold origHasSpace
  by_cases hmax : dsw.nth + 1 ≥ dsw.maxDatumPerBlock
  · simp only [hmax, if_true, Bool.false_eq_true, false_iff, not_and]
    omega
  · simp only [hmax, if_false, decide_eq_true_eq]
    omega

theorem nth_lt_of_origHasSpace {null : Bool} {sz : ℕ} (h : dsw.origHasSpace null sz = true) :
    dsw.nth + 1 < dsw.maxDatumPerBlock := by
  by_contra hc
  have hmax : dsw.nth + 1 ≥ dsw.maxDatumPerBlock := by omega
  simp [origHasSpace, hmax] at h

theorem getReady_counts (dsw : DatumStreamBlockWrite) : dsw.getReady.Counts [] where
  nth_eq := rfl
  alwaysNullBitmapCount_eq := rfl
  physicalDatumCount_eq := rfl
  hasNull_eq := rfl
  nullBitmap_init _ := rfl
  nullBitmap_holds h := absurd h (by simp [getReady])
  nth_lt := .inl rfl

namespace Counts

variable {items : List (Option Datum)}

theorem withDatumBuffer (h : dsw.Counts items) (b : List UInt8) :
    { dsw with datumBuffer := b }.Counts items :=
  ⟨h.nth_eq, h.alwaysNullBitmapCount_eq, h.physicalDatumCount_eq, h.hasNull_eq, h.nullBitmap_init,
    h.nullBitmap_holds, h.nth_lt⟩

theorem alignFor (h : dsw.Counts items) (d : Datum) : (dsw.alignFor d).Counts items := by
  unfold DatumStreamBlockWrite.alignFor
  split_ifs
  · exact h.withDatumBuffer _
  · exact h

/-- Once a NULL needs it, the bit-map holds a bit for every datum before. -/
theorem makeNullBitMapSpace_holds (h : dsw.Counts items) :
    dsw.makeNullBitMapSpace.nullBitmap.Holds (items.map Option.isNone) := by
  rw [makeNullBitMapSpace_eq]
  cases hn : dsw.hasNull
  · -- the first NULL: all the datums before it are zero filled
    have hnone : items.map Option.isNone = List.replicate items.length false := by
      have hall := h.hasNull_eq
      rw [hn, eq_comm, List.any_eq_false] at hall
      rw [List.eq_replicate_iff]
      refine ⟨List.length_map _, fun b hb => ?_⟩
      obtain ⟨x, hx, rfl⟩ := List.mem_map.mp hb
      simpa [Option.isSome_iff_ne_none] using hall x hx
    simp only [Bool.false_eq_true, if_false]
    rw [hnone, h.nullBitmap_init hn, ← h.alwaysNullBitmapCount_eq]
    exact DatumStreamBitMapWrite.zeroFill_holds _ _
  · exact h.nullBitmap_holds hn

theorem putNull (h : dsw.Counts items) (hs : dsw.origHasSpace true 0 = true) :
    dsw.putNull.Counts (items ++ [none]) where
  nth_eq := by simp [DatumStreamBlockWrite.putNull, makeNullBitMapSpace_eq, h.nth_eq]
  alwaysNullBitmapCount_eq := by
    simp [DatumStreamBlockWrite.putNull, makeNullBitMapSpace_eq, h.alwaysNullBitmapCount_eq]
  physicalDatumCount_eq := by
    simp [DatumStreamBlockWrite.putNull, makeNullBitMapSpace_eq, h.physicalDatumCount_eq,
      List.reduceOption_append]
  hasNull_eq := by simp [DatumStreamBlockWrite.putNull, makeNullBitMapSpace_eq]
  nullBitmap_init hn := absurd hn (by simp [DatumStreamBlockWrite.putNull, makeNullBitMapSpace_eq])
  nullBitmap_holds _ := by
    show (dsw.makeNullBitMapSpace.nullBitmap.addBit true).Holds ((items ++ [none]).map Option.isNone)
    rw [List.map_append]
    exact DatumStreamBitMapWrite.addBit_holds h.makeNullBitMapSpace_holds true
  nth_lt := .inr (by
    have := nth_lt_of_origHasSpace hs
    simpa [DatumStreamBlockWrite.putNull, makeNullBitMapSpace_eq] using this)

theorem addItem (h : dsw.Counts items) (hlt : dsw.nth + 1 < dsw.maxDatumPerBlock) (d : Datum) :
    dsw.addItem.Counts (items ++ [some d]) := by
  cases hn : dsw.hasNull
  · have hadd : dsw.addItem =
        { dsw with alwaysNullBitmapCount := dsw.alwaysNullBitmapCount + 1, nth := dsw.nth + 1,
                   physicalDatumCount := dsw.physicalDatumCount + 1 } := by
      simp [DatumStreamBlockWrite.addItem, hn]
    rw [hadd]
    exact ⟨by simp [h.nth_eq], by simp [h.alwaysNullBitmapCount_eq],
      by simp [h.physicalDatumCount_eq, List.reduceOption_append], by simp [← h.hasNull_eq, hn],
      fun _ => h.nullBitmap_init hn, fun h' => absurd h' (by simp [hn]), .inr hlt⟩
  · have hadd : dsw.addItem =
        { dsw with nullBitmap := dsw.nullBitmap.addBit false,
                   alwaysNullBitmapCount := dsw.alwaysNullBitmapCount + 1, nth := dsw.nth + 1,
                   physicalDatumCount := dsw.physicalDatumCount + 1 } := by
      simp [DatumStreamBlockWrite.addItem, hn, makeNullBitMapSpace_eq]
    rw [hadd]
    refine ⟨by simp [h.nth_eq], by simp [h.alwaysNullBitmapCount_eq],
      by simp [h.physicalDatumCount_eq, List.reduceOption_append], by simp [← h.hasNull_eq, hn],
      fun h' => absurd h' (by simp [hn]), fun _ => ?_, .inr hlt⟩
    simpa using DatumStreamBitMapWrite.addBit_holds (h.nullBitmap_holds hn) false

/-- Every put keeps `Counts`, with the datum added when the put returns no negative size. -/
theorem putOrig (h : dsw.Counts items) (hti : dsw.typeInfo.WellFormed) {d : Datum} {null : Bool}
    (hd : null = false → dsw.typeInfo.Admits d) {r : ℤ} {dsw' : DatumStreamBlockWrite}
    (hput : dsw.putOrig d null = .ok (r, dsw')) :
    dsw'.Counts (items ++ if 0 ≤ r then [itemOf d null] else []) := by
  rcases putOrig_cases dsw hput with ⟨-, -, rfl, rfl⟩ | ⟨rfl, hs, rfl, rfl⟩ |
    ⟨rfl, -, rfl, rfl⟩ | ⟨rfl, hs, rfl, bytes, -, rfl⟩
  · simpa using h
  · simpa [itemOf] using h.putNull hs
  · have hpos := itemSize_pos hti (hd rfl)
    rw [if_neg (by omega), List.append_nil]
    exact h.alignFor d
  · rw [if_pos (by omega)]
    have hlt := nth_lt_of_origHasSpace hs
    exact ((h.alignFor d).withDatumBuffer ((dsw.alignFor d).datumBuffer ++ bytes)).addItem hlt d

end Counts

/-- A put leaves the type and the limits as they are. -/
theorem putOrig_config {d : Datum} {null : Bool} {r : ℤ} {dsw' : DatumStreamBlockWrite}
    (h : dsw.putOrig d null = .ok (r, dsw')) : dsw'.typeInfo = dsw.typeInfo ∧
      dsw'.maxDatumPerBlock = dsw.maxDatumPerBlock ∧ dsw'.maxDataBlockSize = dsw.maxDataBlockSize := by
  rcases putOrig_cases dsw h with ⟨-, -, -, rfl⟩ | ⟨-, -, -, rfl⟩ | ⟨-, -, -, rfl⟩ |
    ⟨-, -, -, bytes, -, rfl⟩ <;> simp [putNull_eq, alignFor_eq, addItem_eq]

/-- Under a well-formed type every put returns. -/
theorem putOrig_ok (hti : dsw.typeInfo.WellFormed) (d : Datum) (null : Bool) :
    ∃ r dsw', dsw.putOrig d null = .ok (r, dsw') := by
  cases null
  · obtain ⟨bytes, hb⟩ := storedBytes_ok hti d
    rw [putOrig_false, hb]
    split_ifs
    · exact ⟨_, _, rfl⟩
    · exact ⟨_, _, rfl⟩
  · rw [putOrig_true]
    split_ifs
    · exact ⟨_, _, rfl⟩
    · exact ⟨_, _, rfl⟩

/-! ## The size of a block -/

variable (dsw) in
/-- The block the writer would make now, aligned for its type, is within the maximum rounded up to
`MAXALIGN`. -/
def Fits : Prop :=
  attAlignNominal (16 + dsw.nullsz + dsw.datumBuffer.length) dsw.typeInfo.align ≤
    maxAlign dsw.maxDataBlockSize

theorem nullsz_of_counts {items : List (Option Datum)} (h : dsw.Counts items) :
    dsw.nullsz = if dsw.hasNull then maxAlign (datumStreamBitMapSize items.length) else 0 := by
  unfold nullsz
  split_ifs with hn
  · rw [DatumStreamBitMapWrite.size, (h.nullBitmap_holds hn).bitCount_eq, List.length_map]
  · rfl

@[simp] theorem nullsz_withDatumBuffer (b : List UInt8) :
    { dsw with datumBuffer := b }.nullsz = dsw.nullsz := rfl

theorem dvd_nullsz : 8 ∣ 16 + dsw.nullsz := by
  unfold nullsz
  split_ifs
  · exact Nat.dvd_add (by norm_num) (dvd_maxAlign _)
  · norm_num

theorem fits_of_lt (h : 16 + dsw.nullsz + dsw.datumBuffer.length < dsw.maxDataBlockSize) :
    dsw.Fits :=
  (attAlignNominal_le_maxAlign _ _).trans (typeAlign_mono (by norm_num) h.le)

theorem getReady_fits (h : 16 ≤ dsw.maxDataBlockSize) : dsw.getReady.Fits := by
  have h16 : attAlignNominal 16 dsw.typeInfo.align = 16 := by
    cases dsw.typeInfo.align <;> rfl
  unfold Fits
  simp only [getReady, nullsz, Bool.false_eq_true, if_false, List.length_nil, Nat.add_zero, h16]
  exact (le_typeAlign 8 16 (by norm_num)).trans (typeAlign_mono (by norm_num) h)

/-- The alignment a put makes before checking the room keeps the block within its bound: the block
was aligned within it already. -/
theorem Fits.alignFor (h : dsw.Fits) (d : Datum) : (dsw.alignFor d).Fits := by
  rw [alignFor_eq]
  unfold Fits at h ⊢
  split_ifs
  · have h8 : 8 ∣ 16 + dsw.nullsz := dvd_nullsz
    have hshift := attAlignNominal_add_of_dvd h8 dsw.datumBuffer.length dsw.typeInfo.align
    simp only [length_attAlignZero, nullsz_withDatumBuffer]
    rw [← hshift, attAlignNominal_attAlignNominal]
    exact h
  · exact h

/-- Every put keeps `Fits`: a datum is taken only when the block with it is within the maximum. -/
theorem Fits.putOrig {items : List (Option Datum)} (hc : dsw.Counts items) (hf : dsw.Fits)
    (hti : dsw.typeInfo.WellFormed) {d : Datum} {null : Bool}
    (hd : null = false → dsw.typeInfo.Admits d) {r : ℤ} {dsw' : DatumStreamBlockWrite}
    (hput : dsw.putOrig d null = .ok (r, dsw')) : dsw'.Fits := by
  rcases putOrig_cases dsw hput with ⟨-, -, -, rfl⟩ | ⟨rfl, hs, -, rfl⟩ |
    ⟨-, -, -, rfl⟩ | ⟨rfl, hs, -, bytes, hb, rfl⟩
  · exact hf
  · -- a NULL taken: the room was checked with its bit-map
    apply fits_of_lt
    have hroom := (origHasSpace_iff.mp hs).2
    rw [nullsz_of_counts (hc.putNull hs)]
    simp only [putNull_eq, if_true, List.length_append, List.length_singleton,
      ← hc.alwaysNullBitmapCount_eq, Bool.true_or] at hroom ⊢
    omega
  · exact hf.alignFor d
  · -- a datum taken: the room was checked with its size, which is its bytes'
    apply fits_of_lt
    have hroom := (origHasSpace_iff.mp hs).2
    have hlen := length_storedBytes hti (hd rfl) hb
    have hlt := nth_lt_of_origHasSpace hs
    rw [nullsz_of_counts (((hc.alignFor d).withDatumBuffer
      ((dsw.alignFor d).datumBuffer ++ bytes)).addItem hlt d)]
    simp only [addItem_eq, alignFor_eq, Bool.false_or, List.length_append,
      List.length_singleton, ← hc.alwaysNullBitmapCount_eq] at hroom ⊢
    split_ifs at hroom ⊢ <;> omega

@[simp] theorem length_nullBitMapBytes : dsw.nullBitMapBytes.length = dsw.nullsz := by
  unfold nullBitMapBytes nullsz
  split_ifs
  · have := le_typeAlign 8 dsw.nullBitmap.size (by norm_num)
    simp only [List.length_append, length_read, List.length_replicate, maxAlign]
    omega
  · rfl

/-- `DatumStreamBlockWrite_BlockOrig` always passes its checks: the block is the header, the
NULL bit-map and the data. -/
theorem blockOrig_eq : dsw.blockOrig =
    .ok (origHeader (if dsw.hasNull then 1 else 0) dsw.nth dsw.nullsz dsw.datumBuffer.length ++
      dsw.nullBitMapBytes ++ dsw.datumBuffer) := by
  have hversion : ∀ rest : List UInt8, intField (origHeader (if dsw.hasNull then 1 else 0) dsw.nth
      dsw.nullsz dsw.datumBuffer.length ++ rest) 0 2 = 1 := fun rest => by
    simpa [origHeader, List.append_assoc] using intField_of_lt [] _ (w := 2) (v := 1) (by norm_num)
  simp [blockOrig, integrityCheckOrig, hversion, List.append_assoc]

/-! ## Runs of puts -/

/-- The datums a run of puts took, `none` for a NULL: those whose put returned no negative size. -/
def taken : List (Datum × Bool) → List ℤ → List (Option Datum)
  | (d, null) :: reqs, r :: rs => (if 0 ≤ r then [itemOf d null] else []) ++ taken reqs rs
  | _, _ => []

/-- What every put keeps of the datums taken so far, a run of puts keeps. -/
theorem putAll_induction {P : DatumStreamBlockWrite → List (Option Datum) → Prop}
    (hstep : ∀ {dsw : DatumStreamBlockWrite} {items d null r dsw'}, P dsw items →
      (null = false → dsw.typeInfo.Admits d) → dsw.putOrig d null = .ok (r, dsw') →
      P dsw' (items ++ if 0 ≤ r then [itemOf d null] else [])) :
    ∀ {reqs : List (Datum × Bool)} {dsw : DatumStreamBlockWrite} {items rs dsw'},
      (∀ q ∈ reqs, q.2 = false → dsw.typeInfo.Admits q.1) → P dsw items →
      dsw.putAll reqs = .ok (rs, dsw') → P dsw' (items ++ taken reqs rs)
  | [], dsw, items, rs, dsw', _, hP, h => by
    simp only [putAll, Except.ok.injEq, Prod.mk.injEq] at h
    obtain ⟨rfl, rfl⟩ := h
    simpa [taken] using hP
  | (d, null) :: reqs, dsw, items, rs, dsw', hreqs, hP, h => by
    -- peel the first put off the run
    obtain ⟨⟨r, dsw₁⟩, hput, h⟩ := Except.bind_eq_ok.mp h
    obtain ⟨⟨rs₁, dsw₂⟩, hrest, h⟩ := Except.bind_eq_ok.mp h
    simp only [Except.pure_eq_ok, Except.ok.injEq, Prod.mk.injEq] at h
    obtain ⟨rfl, rfl⟩ := h
    have hP₁ := hstep hP (hreqs (d, null) (by simp)) hput
    have hreqs₁ : ∀ q ∈ reqs, q.2 = false → dsw₁.typeInfo.Admits q.1 := by
      rw [(putOrig_config hput).1]
      exact fun q hq => hreqs q (by simp [hq])
    simpa [taken, List.append_assoc] using putAll_induction hstep hreqs₁ hP₁ hrest

/-- Under a well-formed type every run of puts returns. -/
theorem putAll_ok (dsw : DatumStreamBlockWrite) (hti : dsw.typeInfo.WellFormed) :
    ∀ reqs, ∃ rs dsw', dsw.putAll reqs = .ok (rs, dsw')
  | [] => ⟨[], dsw, rfl⟩
  | (d, null) :: reqs => by
    obtain ⟨r, dsw₁, hput⟩ := putOrig_ok hti d null
    obtain ⟨rs, dsw₂, hrest⟩ :=
      putAll_ok dsw₁ (by rw [(putOrig_config hput).1]; exact hti) reqs
    exact ⟨r :: rs, dsw₂, by simp [putAll, hput, hrest]⟩

/-- A run of puts leaves the type and the limits as they are. -/
theorem putAll_config : ∀ {reqs : List (Datum × Bool)} {dsw : DatumStreamBlockWrite} {rs dsw'},
    dsw.putAll reqs = .ok (rs, dsw') → dsw'.typeInfo = dsw.typeInfo ∧
      dsw'.maxDatumPerBlock = dsw.maxDatumPerBlock ∧ dsw'.maxDataBlockSize = dsw.maxDataBlockSize
  | [], dsw, rs, dsw', h => by
    simp only [putAll, Except.ok.injEq, Prod.mk.injEq] at h
    obtain ⟨-, rfl⟩ := h
    exact ⟨rfl, rfl, rfl⟩
  | (d, null) :: reqs, dsw, rs, dsw', h => by
    obtain ⟨⟨r, dsw₁⟩, hput, h⟩ := Except.bind_eq_ok.mp h
    obtain ⟨⟨rs₁, dsw₂⟩, hrest, h⟩ := Except.bind_eq_ok.mp h
    simp only [Except.pure_eq_ok, Except.ok.injEq, Prod.mk.injEq] at h
    obtain ⟨-, rfl⟩ := h
    obtain ⟨h₁, h₂, h₃⟩ := putOrig_config hput
    obtain ⟨h₁', h₂', h₃'⟩ := putAll_config hrest
    exact ⟨h₁'.trans h₁, h₂'.trans h₂, h₃'.trans h₃⟩

/-! ## The writer's invariant -/

variable (dsw) in
/-- The writer's invariant over a run of puts, after it took the datums `items`. -/
structure Invariant (items : List (Option Datum)) : Prop where
  wellFormed : dsw.typeInfo.WellFormed
  counts : dsw.Counts items
  fits : dsw.Fits

theorem getReady_invariant (hti : dsw.typeInfo.WellFormed) (hmin : 16 ≤ dsw.maxDataBlockSize) :
    dsw.getReady.Invariant [] :=
  ⟨hti, getReady_counts dsw, getReady_fits hmin⟩

theorem Invariant.putOrig {items : List (Option Datum)} (h : dsw.Invariant items) {d : Datum}
    {null : Bool} (hd : null = false → dsw.typeInfo.Admits d) {r : ℤ}
    {dsw' : DatumStreamBlockWrite} (hput : dsw.putOrig d null = .ok (r, dsw')) :
    dsw'.Invariant (items ++ if 0 ≤ r then [itemOf d null] else []) :=
  ⟨(putOrig_config hput).1 ▸ h.wellFormed, h.counts.putOrig h.wellFormed hd hput,
    h.fits.putOrig h.counts h.wellFormed hd hput⟩

/-- The block of a writer within its bound is no longer than the maximum, once that is a multiple
of `MAXALIGN`. -/
theorem Fits.length_blockOrig_le (h : dsw.Fits) (h8 : dsw.maxDataBlockSize % 8 = 0) :
    (origHeader (if dsw.hasNull then 1 else 0) dsw.nth dsw.nullsz dsw.datumBuffer.length ++
      dsw.nullBitMapBytes ++ dsw.datumBuffer).length ≤ dsw.maxDataBlockSize := by
  unfold Fits at h
  simp only [List.length_append, length_origHeader, length_nullBitMapBytes]
  calc 16 + dsw.nullsz + dsw.datumBuffer.length
      ≤ attAlignNominal (16 + dsw.nullsz + dsw.datumBuffer.length) dsw.typeInfo.align :=
        le_attAlignNominal _ _
    _ ≤ maxAlign dsw.maxDataBlockSize := h
    _ = dsw.maxDataBlockSize := maxAlign_of_dvd (Nat.dvd_of_mod_eq_zero h8)

/-- **A block never exceeds its maximum.** From a block got ready, under a well-formed type and a
maximum that is a multiple of `MAXALIGN`, as the append-only block size less its header always is,
any run of puts returns, and the block it leaves is no longer than the maximum: the alignment a
refused varlena leaves after the last check of the room never crosses it. -/
theorem blockOrig_length_le (dsw : DatumStreamBlockWrite) (hti : dsw.typeInfo.WellFormed)
    (hmin : 16 ≤ dsw.maxDataBlockSize) (h8 : dsw.maxDataBlockSize % 8 = 0)
    (reqs : List (Datum × Bool)) (hreqs : ∀ q ∈ reqs, q.2 = false → dsw.typeInfo.Admits q.1) :
    ∃ rs dsw' block, dsw.getReady.putAll reqs = .ok (rs, dsw') ∧ dsw'.blockOrig = .ok block ∧
      block.length ≤ dsw.maxDataBlockSize := by
  obtain ⟨rs, dsw', hrun⟩ := putAll_ok dsw.getReady hti reqs
  have hreqs' : ∀ q ∈ reqs, q.2 = false → dsw.getReady.typeInfo.Admits q.1 := hreqs
  have hinv := putAll_induction (P := Invariant) (fun h hd hput => h.putOrig hd hput) hreqs'
    (getReady_invariant hti hmin) hrun
  have hmax : dsw'.maxDataBlockSize = dsw.maxDataBlockSize := (putAll_config hrun).2.2
  refine ⟨rs, dsw', _, hrun, blockOrig_eq, ?_⟩
  rw [← hmax]
  exact hinv.fits.length_blockOrig_le (hmax ▸ h8)

/-- A text column of 64-byte blocks, given a datum of ten bytes with a four-byte header and a
NULL. -/
theorem blockOrig_length_le_text :
    ∃ rs dsw' block,
      (⟨⟨-1, .extended, .int, false⟩, 100, 64, 0, 0, 0, false, .init fun _ => 0, []⟩ :
        DatumStreamBlockWrite).getReady.putAll
        [(⟨0, [40, 0, 0, 0, 1, 2, 3, 4, 5, 6]⟩, false), (⟨0, []⟩, true)] = .ok (rs, dsw') ∧
      dsw'.blockOrig = .ok block ∧ block.length ≤ 64 :=
  blockOrig_length_le _ (by decide) (by decide) (by decide) _ (by decide)

end DatumStreamBlockWrite

end Orig

end Cloudberry.DatumStream
