import Cloudberry.DatumStream.Int32Compress
import Cloudberry.Lib.ByteMem
import Cloudberry.Lib.ExceptBind
import Cloudberry.Lib.MachineInt

/-!
# Delta compression of fixed-length data

For four- and eight-byte data passed by value, a datum stream block may store a datum as its
difference from the previous one. The writer (`DatumStreamBlockWrite_PerformDeltaCompression`)
takes the larger of the two values less the smaller, in `uint32` arithmetic for four-byte data and
in `Datum` arithmetic stored in an `int64` for eight-byte data, and keeps it with its sign when it
fits in the 29 bits of `MAX_DELTA_SUPPORTED_DELTA_COMPRESSION`. The reader
(`DatumStreamBlockRead_AdvanceDenseDelta`) decodes the delta and adds it to, or subtracts it from,
the previous datum, in the low four bytes of a `Datum` for four-byte data.

* `computeDelta_spec`: the delta is the distance between the two values, or negative when an
  eight-byte distance does not fit in an `int64`;
* `performDeltaCompression_eq_ok`, `performDeltaCompression_of_far`: what a call that compresses
  has checked and recorded, and that values too far apart are stored as they are;
* `advanceDenseDelta_deltaItem`, `datumValue_applyDelta`: what the reader does with a delta item;
* `deltaCompression_exact`: the writer's delta, through the deltas' encoding, gives the reader
  the datum back.

A `Datum` is a `UInt64`; its low four bytes are the `uint32` that `DatumGetUInt32` reads and that a
store through a `uint32 *` writes, the layout being little-endian.
-/

namespace Cloudberry.DatumStream

open ByteMem DatumStreamInt32CompressReserved3 MachineInt

/-- `Delta_Compression_status`. -/
inductive DeltaCompressionStatus
  | ok
  | notApplied
  | error
  deriving DecidableEq, Repr

/-- `MAX_DELTA_SUPPORTED_DELTA_COMPRESSION`: the largest delta of 29 bits. -/
def maxDeltaSupportedDeltaCompression : Int64 := 0x1FFFFFFF

/-- The low `n` bytes of a `Datum` overwritten with `v`, as a `memcpy` of `n` bytes or a store
through a `uint32 *` does on a little-endian machine. -/
def storeLow (x : UInt64) (n v : ℕ) : UInt64 :=
  UInt64.ofNat (x.toNat >>> (8 * n) <<< (8 * n) ||| v % 2 ^ (8 * n))

/-- The unsigned value of a datum of `datumlen` bytes: what `DatumGetUInt32` reads of four-byte
data, the whole `Datum` otherwise. -/
def datumValue (datumlen : ℕ) (x : UInt64) : ℕ :=
  if datumlen = 4 then x.toUInt32.toNat else x.toNat

/-! ## The writer -/

/-- The fields of `DatumStreamBlockWrite` that delta compression reads and writes. -/
structure DatumStreamBlockWrite where
  /-- `typeInfo->datumlen`. -/
  datumlen : ℕ
  deltaWantCompression : Bool
  notFirstDatum : Bool
  compareItem : UInt64
  deltaHasCompression : Bool
  /-- The bits added to `delta_bitmap`, in order. -/
  deltaBitmap : List Bool
  deltas : List Int32
  deltaSign : List Bool
  deltasCurrentSize : ℕ
  savings : ℕ
  nth : ℕ
  deriving DecidableEq, Repr

namespace DatumStreamBlockWrite

variable (dsw : DatumStreamBlockWrite)

/-- `DatumStreamBlockWrite_DeltaAdd`: the item becomes a delta item, its delta and sign are stored
and their encoded size counted. -/
def deltaAdd (delta : Int64) (sign : Bool) : DatumStreamBlockWrite :=
  { dsw with
    deltaHasCompression := true
    deltaBitmap := dsw.deltaBitmap ++ [true]
    deltas := dsw.deltas ++ [delta.toInt32]
    deltaSign := dsw.deltaSign ++ [sign]
    deltasCurrentSize := dsw.deltasCurrentSize + size delta.toInt32.toNatClampNeg
    savings := dsw.savings + dsw.datumlen
    nth := dsw.nth + 1 }

/-- The switch of `PerformDeltaCompression` that computes the delta and its sign: the larger value
less the smaller, in `uint32` for four-byte data, in `Datum` arithmetic for eight-byte data, each
stored in an `int64`. -/
def computeDelta (d : UInt64) : Except String (Int64 × Bool) :=
  let datumlen := dsw.datumlen
  match datumlen with
  | 4 =>
    if dsw.compareItem.toUInt32 ≤ d.toUInt32 then
      pure ((d.toUInt32 - dsw.compareItem.toUInt32).toUInt64.toInt64, true)
    else
      pure ((dsw.compareItem.toUInt32 - d.toUInt32).toUInt64.toInt64, false)
  | 8 =>
    if dsw.compareItem ≤ d then pure ((d - dsw.compareItem).toInt64, true)
    else pure ((dsw.compareItem - d).toInt64, false)
  | _ => throw s!"DELTA compression fixed length type has unexpected length {datumlen}"

/-- The switch of `PerformDeltaCompression` that makes `d` the new compare item. -/
def updateCompareItem (d : UInt64) : Except String UInt64 :=
  let datumlen := dsw.datumlen
  match datumlen with
  | 4 => pure (storeLow dsw.compareItem 4 d.toUInt32.toNat)
  | 8 => pure d
  | _ => throw s!"DELTA Compression fixed length type has unexpected length {datumlen}"

/-- `DatumStreamBlockWrite_PerformDeltaCompression` for the datum `d`, given what
`DatumStreamBlockWrite_DenseHasSpaceDelta` answers on the current block. -/
def performDeltaCompression (hasSpaceDelta : Bool) (d : UInt64) :
    Except String (DeltaCompressionStatus × DatumStreamBlockWrite) := do
  if !dsw.deltaWantCompression then
    return (.notApplied, dsw)
  -- the first non-NULL datum of a block is always stored as a physical datum
  if dsw.notFirstDatum = false then
    return (.notApplied, { dsw with notFirstDatum := true })
  let (delta, positiveDelta) ← dsw.computeDelta d
  -- a distance that does not fit in an `int64` has become negative
  if delta < 0 || delta > maxDeltaSupportedDeltaCompression then
    return (.notApplied, dsw)
  if !hasSpaceDelta then
    return (.error, dsw)
  let compareItem ← dsw.updateCompareItem d
  return (.ok, { dsw with compareItem }.deltaAdd delta positiveDelta)

end DatumStreamBlockWrite

/-! ## The reader -/

/-- `DatumStreamBitMapRead`: a bit-map read one bit at a time, from the low bit of each byte. -/
structure DatumStreamBitMapRead where
  buffer : List UInt8
  byteBit : UInt8
  /-- The offset of `bytePointer` in `buffer`. -/
  bytePointer : ℕ
  bitCount : ℕ
  bitPosition : ℤ
  deriving DecidableEq, Repr

namespace DatumStreamBitMapRead

/-- `DatumStreamBitMapRead_Next`. -/
def next (bmr : DatumStreamBitMapRead) : DatumStreamBitMapRead :=
  if bmr.bitPosition = -1 then
    { bmr with byteBit := 1, bitPosition := bmr.bitPosition + 1 }
  else
    let byteBit := bmr.byteBit <<< 1
    if byteBit = 0 then
      { bmr with bytePointer := bmr.bytePointer + 1, byteBit := 1,
                 bitPosition := bmr.bitPosition + 1 }
    else
      { bmr with byteBit, bitPosition := bmr.bitPosition + 1 }

/-- `DatumStreamBitMapRead_CurrentIsOn`. -/
def currentIsOn (bmr : DatumStreamBitMapRead) : Bool :=
  bmr.buffer.getD bmr.bytePointer 0 &&& bmr.byteBit != 0

end DatumStreamBitMapRead

/-- The fields of `DatumStreamBlockRead` that delta items read and write. -/
structure DatumStreamBlockRead where
  /-- `typeInfo.datumlen`. -/
  datumlen : ℕ
  deltaBlockWasCompressed : Bool
  deltaBitmap : DatumStreamBitMapRead
  deltaItem : Bool
  physicalDatumIndex : ℤ
  /-- The physical data of the block, and the offset of `datump` in it. -/
  datumBuffer : List UInt8
  datump : ℕ
  /-- The deltas from `delta_deltasp` on. -/
  deltaDeltasp : List UInt8
  deltaDatumP : UInt64
  deriving DecidableEq, Repr

namespace DatumStreamBlockRead

variable (dsr : DatumStreamBlockRead)

/-- The update of a delta item: add the delta if its sign is positive, subtract it otherwise, in
the low four bytes of `delta_datum_p` for four-byte data and in the whole `Datum` for eight. -/
def applyDelta (delta : ℕ) (sign : Bool) : UInt64 :=
  let p := dsr.deltaDatumP
  if dsr.datumlen = 4 then
    if sign then storeLow p 4 (p.toUInt32 + UInt32.ofNat delta).toNat
    else storeLow p 4 (p.toUInt32 - UInt32.ofNat delta).toNat
  else if dsr.datumlen = 8 then
    if sign then p + UInt64.ofNat delta else p - UInt64.ofNat delta
  else 0

/-- `DatumStreamBlockRead_AdvanceDenseDelta`. -/
def advanceDenseDelta : DeltaCompressionStatus × DatumStreamBlockRead :=
  if !dsr.deltaBlockWasCompressed then
    (.notApplied, dsr)
  else
    let deltaBitmap := dsr.deltaBitmap.next
    if !deltaBitmap.currentIsOn then
      -- not a delta item: the physical datum becomes the previous datum
      let d := if dsr.physicalDatumIndex = -1 then dsr.datump else dsr.datump + dsr.datumlen
      let datum := leValue ((dsr.datumBuffer.drop d).take dsr.datumlen)
      (.notApplied, { dsr with deltaBitmap, deltaItem := false,
                               deltaDatumP := storeLow dsr.deltaDatumP dsr.datumlen datum })
    else
      let (delta, byteLen, sign) := decode dsr.deltaDeltasp
      (.ok, { dsr with deltaBitmap, deltaItem := true, deltaDeltasp := dsr.deltaDeltasp.drop byteLen,
                       deltaDatumP := dsr.applyDelta delta sign })

end DatumStreamBlockRead

/-! ## Machine words -/

theorem toNat_storeLow (x : UInt64) (n v : ℕ) (hn : n ≤ 8) :
    (storeLow x n v).toNat % 2 ^ (8 * n) = v % 2 ^ (8 * n) := by
  have hv : v % 2 ^ (8 * n) < 2 ^ (8 * n) := Nat.mod_lt _ (Nat.two_pow_pos _)
  rw [storeLow, UInt64.toNat_ofNat', ← Nat.shiftLeft_add_eq_or_of_lt hv, Nat.shiftLeft_eq,
    Nat.mod_mod_of_dvd _ (Nat.pow_dvd_pow 2 (by omega)), Nat.mul_comm, Nat.mul_add_mod, Nat.mod_mod]

@[simp] theorem toInt_maxDeltaSupportedDeltaCompression :
    maxDeltaSupportedDeltaCompression.toInt = 0x1FFFFFFF := rfl

theorem toInt_toInt32_of_le {delta : Int64} (h0 : 0 ≤ delta.toInt)
    (h1 : delta.toInt ≤ 0x1FFFFFFF) : delta.toInt32.toInt = delta.toInt := by
  rw [Int64.toInt_toInt32, Int.bmod_eq_emod_of_lt (by rw [Int.emod_eq_of_lt h0 (by omega)]; omega),
    Int.emod_eq_of_lt h0 (by omega)]

theorem toNat_toUInt32_storeLow (x : UInt64) (v : ℕ) :
    (storeLow x 4 v).toUInt32.toNat = v % 2 ^ 32 := by
  rw [UInt64.toNat_toUInt32, toNat_storeLow x 4 v (by decide)]

theorem datumValue_lt {datumlen : ℕ} (hw : datumlen = 4 ∨ datumlen = 8) (x : UInt64) :
    datumValue datumlen x < 2 ^ (8 * datumlen) := by
  rcases hw with rfl | rfl
  · exact x.toUInt32.toNat_lt
  · exact x.toNat_lt

/-! ## What the writer records -/

namespace DatumStreamBlockWrite

variable {dsw : DatumStreamBlockWrite}

/-- The delta of `PerformDeltaCompression` is the distance between the compare item and the datum,
or negative when an eight-byte distance does not fit in an `int64`; its sign says whether the
datum is the larger. -/
theorem computeDelta_spec (hw : dsw.datumlen = 4 ∨ dsw.datumlen = 8) (d : UInt64) :
    ∃ delta, dsw.computeDelta d = .ok (delta,
        decide (datumValue dsw.datumlen dsw.compareItem ≤ datumValue dsw.datumlen d)) ∧
      (|(datumValue dsw.datumlen d : ℤ) - datumValue dsw.datumlen dsw.compareItem| < 2 ^ 63 →
        delta.toInt = |(datumValue dsw.datumlen d : ℤ) - datumValue dsw.datumlen dsw.compareItem|) ∧
      (2 ^ 63 ≤ |(datumValue dsw.datumlen d : ℤ) - datumValue dsw.datumlen dsw.compareItem| →
        delta.toInt < 0) := by
  rcases hw with h4 | h8
  · have hc := dsw.compareItem.toUInt32.toNat_lt
    have hd := d.toUInt32.toNat_lt
    simp only [computeDelta, h4, datumValue, if_true, UInt32.le_iff_toNat_le]
    split_ifs with hle
    · rw [abs_of_nonneg (by omega)]
      refine ⟨_, by rw [decide_eq_true hle]; rfl, fun _ => ?_, fun h => ?_⟩
      · rw [toInt_toInt64, UInt32.toNat_toUInt64, UInt32.toNat_sub_of_le _ _ hle]
        split_ifs <;> omega
      · omega
    · rw [abs_of_neg (by omega)]
      refine ⟨_, by rw [decide_eq_false hle]; rfl, fun _ => ?_, fun h => ?_⟩
      · rw [toInt_toInt64, UInt32.toNat_toUInt64, UInt32.toNat_sub_of_le _ _ (by
          rw [UInt32.le_iff_toNat_le]; omega)]
        split_ifs <;> omega
      · omega
  · have hc := dsw.compareItem.toNat_lt
    have hd := d.toNat_lt
    simp only [computeDelta, h8, datumValue, show ¬ (8 = 4) by decide, if_false,
      UInt64.le_iff_toNat_le]
    split_ifs with hle
    · rw [abs_of_nonneg (by omega)]
      refine ⟨_, by rw [decide_eq_true hle]; rfl, fun h => ?_, fun h => ?_⟩
      · rw [toInt_toInt64, UInt64.toNat_sub_of_le _ _ hle]
        split_ifs <;> omega
      · rw [toInt_toInt64, UInt64.toNat_sub_of_le _ _ hle]
        split_ifs <;> omega
    · have hle' : d ≤ dsw.compareItem := by rw [UInt64.le_iff_toNat_le]; omega
      rw [abs_of_neg (by omega)]
      refine ⟨_, by rw [decide_eq_false hle]; rfl, fun h => ?_, fun h => ?_⟩
      · rw [toInt_toInt64, UInt64.toNat_sub_of_le _ _ hle']
        split_ifs <;> omega
      · rw [toInt_toInt64, UInt64.toNat_sub_of_le _ _ hle']
        split_ifs <;> omega

/-- A call that compresses has found a delta within `MAX_DELTA_SUPPORTED_DELTA_COMPRESSION`, made
the datum the compare item and added the delta with its sign. -/
theorem performDeltaCompression_eq_ok {hasSpaceDelta : Bool} {d : UInt64}
    {dsw' : DatumStreamBlockWrite}
    (h : dsw.performDeltaCompression hasSpaceDelta d = .ok (.ok, dsw')) :
    ∃ delta sign compareItem, dsw.computeDelta d = .ok (delta, sign) ∧ 0 ≤ delta.toInt ∧
      delta.toInt ≤ 0x1FFFFFFF ∧ dsw.updateCompareItem d = .ok compareItem ∧
      dsw' = { dsw with compareItem }.deltaAdd delta sign := by
  unfold performDeltaCompression at h
  split_ifs at h with hwant hfirst hspace
  · simp at h
  · simp at h
  · -- no space: the call cannot compress
    obtain ⟨⟨delta, sign⟩, -, h⟩ := Except.bind_eq_ok.mp h
    dsimp only at h
    split_ifs at h <;> simp at h
  · obtain ⟨⟨delta, sign⟩, hdelta, h⟩ := Except.bind_eq_ok.mp h
    dsimp only at h
    split_ifs at h with hrange
    · simp at h
    obtain ⟨compareItem, hcompare, h⟩ := Except.bind_eq_ok.mp h
    simp only [Except.pure_eq_ok, Except.ok.injEq, Prod.mk.injEq, true_and] at h
    simp only [Bool.or_eq_true, decide_eq_true_eq, not_or, Int64.lt_iff_toInt_lt,
      gt_iff_lt, not_lt] at hrange
    exact ⟨delta, sign, compareItem, hdelta, hrange.1, hrange.2, hcompare, h.symm⟩

/-- Two values further apart than `MAX_DELTA_SUPPORTED_DELTA_COMPRESSION` are never delta
compressed, also when their eight-byte distance does not fit in an `int64`. -/
theorem performDeltaCompression_of_far (hw : dsw.datumlen = 4 ∨ dsw.datumlen = 8)
    (hasSpaceDelta : Bool) (d : UInt64)
    (hfar : 0x1FFFFFFF <
      |(datumValue dsw.datumlen d : ℤ) - datumValue dsw.datumlen dsw.compareItem|) :
    ∃ dsw', dsw.performDeltaCompression hasSpaceDelta d = .ok (.notApplied, dsw') := by
  obtain ⟨delta, hdelta, hnear, hneg⟩ := computeDelta_spec hw d
  have hrange : delta < 0 ∨ delta > maxDeltaSupportedDeltaCompression := by
    rw [gt_iff_lt, Int64.lt_iff_toInt_lt, Int64.lt_iff_toInt_lt,
      toInt_maxDeltaSupportedDeltaCompression]
    by_cases h63 : |(datumValue dsw.datumlen d : ℤ) - datumValue dsw.datumlen dsw.compareItem| <
      2 ^ 63
    · exact .inr (by rw [hnear h63]; exact hfar)
    · exact .inl (hneg (le_of_not_gt h63))
  have hcheck : (decide (delta < 0) || decide (delta > maxDeltaSupportedDeltaCompression)) =
      true := by
    simpa using hrange
  unfold performDeltaCompression
  split_ifs
  · exact ⟨dsw, rfl⟩
  · exact ⟨_, rfl⟩
  -- with or without space, the range check comes first
  all_goals
    refine ⟨dsw, ?_⟩
    simp only [hdelta, Except.ok_bind, hcheck, if_true]
    rfl

end DatumStreamBlockWrite

/-! ## What the reader makes of a delta item -/

namespace DatumStreamBlockRead

variable {dsr : DatumStreamBlockRead}

/-- Adding the distance to the smaller value, or taking it from the larger, gives the other
value back, modulo `2 ^ (8 * datumlen)`. -/
theorem datumValue_applyDelta (hw : dsr.datumlen = 4 ∨ dsr.datumlen = 8) {prev next : ℕ}
    (hprev : datumValue dsr.datumlen dsr.deltaDatumP = prev)
    (hnext : next < 2 ^ (8 * dsr.datumlen)) :
    datumValue dsr.datumlen
      (dsr.applyDelta (if prev ≤ next then next - prev else prev - next) (decide (prev ≤ next))) =
      next := by
  rcases hw with h4 | h8
  · simp only [datumValue, applyDelta, h4, if_true] at hprev hnext ⊢
    have hp := dsr.deltaDatumP.toUInt32.toNat_lt
    by_cases hle : prev ≤ next
    · simp only [hle, decide_true, if_true]
      rw [toNat_toUInt32_storeLow, UInt32.toNat_add, UInt32.toNat_ofNat', hprev]
      omega
    · have hsub : UInt32.ofNat (prev - next) ≤ dsr.deltaDatumP.toUInt32 := by
        rw [UInt32.le_iff_toNat_le, UInt32.toNat_ofNat', hprev]
        omega
      simp only [hle, decide_false, if_false, Bool.false_eq_true]
      rw [toNat_toUInt32_storeLow, UInt32.toNat_sub_of_le _ _ hsub, UInt32.toNat_ofNat', hprev]
      omega
  · simp only [datumValue, applyDelta, h8, show ¬ (8 = 4) by decide, if_true, if_false]
      at hprev hnext ⊢
    have hp := dsr.deltaDatumP.toNat_lt
    by_cases hle : prev ≤ next
    · simp only [hle, decide_true, if_true]
      rw [UInt64.toNat_add, UInt64.toNat_ofNat', hprev]
      omega
    · have hsub : UInt64.ofNat (prev - next) ≤ dsr.deltaDatumP := by
        rw [UInt64.le_iff_toNat_le, UInt64.toNat_ofNat', hprev]
        omega
      simp only [hle, decide_false, if_false, Bool.false_eq_true]
      rw [UInt64.toNat_sub_of_le _ _ hsub, UInt64.toNat_ofNat', hprev]
      omega

/-- A delta item: the reader decodes the delta and its sign where the deltas continue, moves past
them and applies the delta to the previous datum. -/
theorem advanceDenseDelta_deltaItem (hc : dsr.deltaBlockWasCompressed = true)
    (hon : dsr.deltaBitmap.next.currentIsOn = true) {delta : ℕ} (hdelta : delta ≤ 0x1FFFFFFF)
    (sign : Bool) {rest : List UInt8} (hd : dsr.deltaDeltasp = encode delta sign ++ rest) :
    dsr.advanceDenseDelta =
      (.ok, { dsr with
                deltaBitmap := dsr.deltaBitmap.next
                deltaItem := true
                deltaDeltasp := rest
                deltaDatumP := dsr.applyDelta delta sign }) := by
  have hdrop : (encode delta sign ++ rest).drop (size delta) = rest := by
    rw [← length_encode delta sign, List.drop_left]
  simp only [advanceDenseDelta, hc, hon, hd, decode_encode hdelta, hdrop, Bool.not_true,
    Bool.false_eq_true, if_false]

end DatumStreamBlockRead

/-! ## Delta encoding is exact -/

open DatumStreamBlockWrite DatumStreamBlockRead in
/-- Delta encoding is exact. A delta the writer records lies in `[0, 0x1FFFFFFF]`, goes through
`DatumStreamInt32CompressReserved3` with its sign in `Size` bytes, and a reader whose previous
datum carries the value of the writer's compare item gets the datum back from it. Values further
apart than `0x1FFFFFFF`, eight-byte ones whose distance does not fit in an `int64` included, are
never delta compressed. -/
theorem deltaCompression_exact {dsw : DatumStreamBlockWrite}
    (hw : dsw.datumlen = 4 ∨ dsw.datumlen = 8) (hasSpaceDelta : Bool) (d : UInt64) :
    (∀ dsw', dsw.performDeltaCompression hasSpaceDelta d = .ok (.ok, dsw') →
      ∃ delta sign, dsw'.deltas = dsw.deltas ++ [delta] ∧
        dsw'.deltaSign = dsw.deltaSign ++ [sign] ∧ 0 ≤ delta.toInt ∧ delta.toInt ≤ 0x1FFFFFFF ∧
        (encode delta.toNatClampNeg sign).length = size delta.toNatClampNeg ∧
        (∀ rest, decode (encode delta.toNatClampNeg sign ++ rest) =
          (delta.toNatClampNeg, size delta.toNatClampNeg, sign)) ∧
        ∀ dsr : DatumStreamBlockRead, dsr.datumlen = dsw.datumlen →
          dsr.deltaBlockWasCompressed = true → dsr.deltaBitmap.next.currentIsOn = true →
          datumValue dsw.datumlen dsr.deltaDatumP = datumValue dsw.datumlen dsw.compareItem →
          ∀ rest, dsr.deltaDeltasp = encode delta.toNatClampNeg sign ++ rest →
          ∃ dsr', dsr.advanceDenseDelta = (.ok, dsr') ∧ dsr'.deltaDeltasp = rest ∧
            datumValue dsw.datumlen dsr'.deltaDatumP = datumValue dsw.datumlen d) ∧
    (0x1FFFFFFF < |(datumValue dsw.datumlen d : ℤ) - datumValue dsw.datumlen dsw.compareItem| →
      ∃ dsw', dsw.performDeltaCompression hasSpaceDelta d = .ok (.notApplied, dsw')) := by
  refine ⟨fun dsw' h => ?_, performDeltaCompression_of_far hw hasSpaceDelta d⟩
  obtain ⟨delta, sign, compareItem, hdelta, h0, hmax, -, rfl⟩ := performDeltaCompression_eq_ok h
  obtain ⟨delta', hdelta', hnear, hneg⟩ := computeDelta_spec hw d
  rw [hdelta'] at hdelta
  obtain ⟨rfl, rfl⟩ := Prod.mk.inj (Except.ok.inj hdelta)
  -- the recorded delta is the distance between the two values, stored without change
  have hdist : delta'.toInt =
      |(datumValue dsw.datumlen d : ℤ) - datumValue dsw.datumlen dsw.compareItem| := by
    refine hnear (lt_of_not_ge fun hfar => ?_)
    have := hneg hfar
    omega
  have hstored : delta'.toInt32.toNatClampNeg =
      if datumValue dsw.datumlen dsw.compareItem ≤ datumValue dsw.datumlen d then
        datumValue dsw.datumlen d - datumValue dsw.datumlen dsw.compareItem
      else datumValue dsw.datumlen dsw.compareItem - datumValue dsw.datumlen d := by
    rw [Int32.toNatClampNeg, toInt_toInt32_of_le h0 hmax, hdist]
    split_ifs with hle
    · rw [abs_of_nonneg (by omega)]
      omega
    · rw [abs_of_neg (by omega)]
      omega
  have hsmall : delta'.toInt32.toNatClampNeg ≤ 0x1FFFFFFF := by
    rw [Int32.toNatClampNeg, toInt_toInt32_of_le h0 hmax]
    omega
  refine ⟨delta'.toInt32, _, rfl, rfl, by rw [toInt_toInt32_of_le h0 hmax]; exact h0,
    by rw [toInt_toInt32_of_le h0 hmax]; exact hmax, length_encode _ _,
    fun rest => decode_encode hsmall _ rest, ?_⟩
  intro dsr hlen hc hon hprev rest hd
  refine ⟨_, advanceDenseDelta_deltaItem hc hon hsmall _ hd, rfl, ?_⟩
  have hw' : dsr.datumlen = 4 ∨ dsr.datumlen = 8 := hlen ▸ hw
  dsimp only
  rw [hstored, ← hlen]
  rw [← hlen] at hprev
  exact datumValue_applyDelta hw' hprev (datumValue_lt hw' d)

open DatumStreamBlockWrite DatumStreamBlockRead in
/-- Both sides of delta encoding at work. Four-byte values `100` and `105`: the writer records the
delta `5` with a positive sign, and a reader on the next bit of a compressed block, set, with
`100` as its previous datum and the encoded delta ahead, gets `105` back. Eight-byte values
`2 ^ 63` apart: the unsigned distance is negative as an `int64`, and the writer stores the datum
itself. -/
theorem deltaCompression_exact_near_and_far :
    (∃ dsw' dsr', DatumStreamBlockWrite.performDeltaCompression
        ⟨4, true, true, 100, false, [], [], [], 0, 0, 1⟩ true 105 = .ok (.ok, dsw') ∧
      DatumStreamBlockRead.advanceDenseDelta
          ⟨4, true, ⟨[1], 0, 0, 1, -1⟩, false, 0, [], 0, encode 5 true, 100⟩ = (.ok, dsr') ∧
        datumValue 4 dsr'.deltaDatumP = datumValue 4 105) ∧
    ((8 = 4 ∨ 8 = 8) ∧
      0x1FFFFFFF < |(datumValue 8 0x8000000000000000 : ℤ) - datumValue 8 0|) ∧
    ∃ dsw', DatumStreamBlockWrite.performDeltaCompression
      ⟨8, true, true, 0, false, [], [], [], 0, 0, 0⟩ true 0x8000000000000000 =
        .ok (.notApplied, dsw') := by
  refine ⟨?_, ?_⟩
  · obtain ⟨dsw', hw⟩ : ∃ dsw', DatumStreamBlockWrite.performDeltaCompression
        ⟨4, true, true, 100, false, [], [], [], 0, 0, 1⟩ true 105 = .ok (.ok, dsw') := ⟨_, rfl⟩
    obtain ⟨delta, sign, hdeltas, hsign, -, -, -, -, hread⟩ :=
      (@deltaCompression_exact ⟨4, true, true, 100, false, [], [], [], 0, 0, 1⟩ (.inl rfl) true
        105).1 dsw' hw
    -- the writer recorded the delta `5` with a positive sign
    obtain rfl : delta = 5 := by
      cases hw
      simpa [deltaAdd] using hdeltas.symm
    obtain rfl : sign = true := by
      cases hw
      simpa [deltaAdd] using hsign.symm
    obtain ⟨dsr', hadv, -, hval⟩ :=
      hread ⟨4, true, ⟨[1], 0, 0, 1, -1⟩, false, 0, [], 0, encode 5 true, 100⟩ rfl rfl
        (by decide) (by decide) [] (List.append_nil _).symm
    exact ⟨dsw', dsr', hw, hadv, hval⟩
  · have hfar : 0x1FFFFFFF < |(datumValue 8 0x8000000000000000 : ℤ) - datumValue 8 0| := by
      decide
    exact ⟨⟨.inr rfl, hfar⟩, (@deltaCompression_exact ⟨8, true, true, 0, false, [], [], [], 0, 0, 0⟩
      (.inr rfl) true 0x8000000000000000).2 hfar⟩

end Cloudberry.DatumStream
