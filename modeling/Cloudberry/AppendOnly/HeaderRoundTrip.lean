import Cloudberry.AppendOnly.Format

/-!
# Append-only block headers read back what was written

For each of the four header kinds, the header that the `Make*ContentHeader` function writes is
read back by `GetHeaderInfo` as that kind with the length `AoHeader_Size` gives, and by the
`Get*ContentHeaderInfo` function of the kind as exactly the values that were written; when the
table keeps checksums, the header checksum verifies, and so does the block checksum over the
length the reader computes. `HeaderSpec` gathers the four writers, their bounds and what the
readers report into one statement, `HeaderSpec.header_roundTrip`.

The arguments are bounded by the widths of their fields (three bits for the executor block kind,
fourteen, twenty-five or thirty for the row count, twenty-one for the data length) and the
compressed length by the uncompressed one. A large content header must announce a positive
length: its reader rejects a zero length (`getContentHeaderInfo_large_zero`).
-/

namespace Cloudberry.AppendOnly

open BitField ByteMem

namespace AppendOnlyStorageFormat

variable (crc : List UInt8 → UInt32)

/-! ## Round trips, kind by kind -/

theorem smallContentHeader_roundTrip (buf : Mem) (usingChecksums hasFirstRowNum : Bool)
    {version : ℕ} (hv : AOSegfileFormatVersion.IsValid version) (firstRowNum : Int64)
    {executorKind rowCount dataLength compressedLength blockLimitLen : ℕ}
    (hek : executorKind < 2 ^ 3) (hrc : rowCount < 2 ^ 14) (hdl : dataLength < 2 ^ 21)
    (hcl : compressedLength ≤ dataLength)
    (hlimit : AoHeader.size false usingChecksums hasFirstRowNum + AOStorage.roundUpValid
      (if compressedLength = 0 then dataLength else compressedLength) version ≤ blockLimitLen) :
    ∃ m, makeSmallContentHeader crc buf usingChecksums hasFirstRowNum version firstRowNum
        executorKind rowCount dataLength compressedLength = .ok m ∧
      getHeaderInfo m usingChecksums =
        .ok (.ok (.SmallContent, AoHeader.size false usingChecksums hasFirstRowNum)) ∧
      getSmallContentHeaderInfo m (AoHeader.size false usingChecksums hasFirstRowNum)
          usingChecksums blockLimitLen version =
        .ok (.ok { overallBlockLen := AoHeader.size false usingChecksums hasFirstRowNum +
                     AOStorage.roundUpValid
                       (if compressedLength = 0 then dataLength else compressedLength) version
                   offset := AoHeader.size false usingChecksums hasFirstRowNum
                   uncompressedLen := dataLength
                   executorBlockKind := executorKind
                   hasFirstRowNum
                   firstRowNum := if hasFirstRowNum then firstRowNum else -1
                   rowCount
                   isCompressed := decide (compressedLength ≠ 0)
                   compressedLen := compressedLength }) ∧
      (usingChecksums = true → verifyHeaderChecksum crc m = true ∧
        verifyBlockChecksum crc false m (AoHeader.size false usingChecksums hasFirstRowNum +
          AOStorage.roundUpValid
            (if compressedLength = 0 then dataLength else compressedLength) version) = true) := by
  obtain ⟨hlt₁, hlt₂⟩ :=
    smallContentWords_lt hasFirstRowNum executorKind rowCount dataLength compressedLength
  obtain ⟨hkind, hflag, hek', hrc', hdl', hcl'⟩ :=
    smallContentWords_get hasFirstRowNum executorKind rowCount dataLength compressedLength
  obtain ⟨h03, h47⟩ := load_storeWords buf (hlt₁.trans (by norm_num)) hlt₂
  have hk : AoHeader.isLong (AOSmallContentHeader.headerKind.get
      (((buf.store 0 4 (smallContentWords hasFirstRowNum executorKind rowCount dataLength
        compressedLength).1).store 4 4 (smallContentWords hasFirstRowNum executorKind rowCount
          dataLength compressedLength).2).load 0 4)) = .ok false := by
    rw [h03, AOSmallContentHeader.headerKind_eq, hkind]
    rfl
  obtain ⟨m, hm⟩ : ∃ m, makeSmallContentHeader crc buf usingChecksums hasFirstRowNum version
      firstRowNum executorKind rowCount dataLength compressedLength = .ok m :=
    ⟨_, finishHeader_eq crc hk hv _ _ _ _ _ _ _⟩
  have h03' := (load_of_finishHeader crc hk hv hm (.inl (by norm_num))).trans h03
  have h47' := (load_of_finishHeader crc hk hv hm (.inl (by norm_num))).trans h47
  -- the length the checksums cover is the stored one, compressed or not
  have hlen : (if decide (compressedLength > 0) = true then compressedLength else dataLength) =
      (if compressedLength = 0 then dataLength else compressedLength) := by
    by_cases h0 : compressedLength = 0 <;> simp [h0, Nat.pos_iff_ne_zero]
  refine ⟨m, hm, getHeaderInfo_eq h03' hlt₁ hkind (by decide) hflag usingChecksums, ?_, ?_⟩
  · simp only [getSmallContentHeaderInfo, h03', h47', hflag, hek', hrc', hdl', hcl',
      Nat.mod_eq_of_lt hek, Nat.mod_eq_of_lt hrc, Nat.mod_eq_of_lt hdl,
      Nat.mod_eq_of_lt (lt_of_le_of_lt hcl hdl)]
    rw [AoHeader.size_regular, decide_toNat_ne_zero, readFirstRowNum_of_size false usingChecksums hasFirstRowNum
      (loadInt64_of_finishHeader crc hk hv hm)]
    rw [Except.ok_bind, checkLengths_of_le hv hcl hlimit]
    rfl
  · intro hc
    subst hc
    refine ⟨verifyHeaderChecksum_of_finishHeader crc hk hv hm rfl, ?_⟩
    have := verifyBlockChecksum_of_finishHeader crc hk hv hm rfl
    rwa [hlen] at this

theorem largeContentHeader_roundTrip (buf : Mem) (usingChecksums hasFirstRowNum : Bool)
    {version : ℕ} (hv : AOSegfileFormatVersion.IsValid version) (firstRowNum : Int64)
    {executorKind largeRowCount largeContentLength : ℕ}
    (hek : executorKind < 2 ^ 3) (hrc : largeRowCount < 2 ^ 25)
    (hlen : largeContentLength < 2 ^ 30) (hlen₀ : 0 < largeContentLength) :
    ∃ m, makeLargeContentHeader crc buf usingChecksums hasFirstRowNum version firstRowNum
        executorKind largeRowCount largeContentLength = .ok m ∧
      getHeaderInfo m usingChecksums =
        .ok (.ok (.LargeContent, AoHeader.size false usingChecksums hasFirstRowNum)) ∧
      getLargeContentHeaderInfo m (AoHeader.size false usingChecksums hasFirstRowNum)
          usingChecksums =
        .ok (.ok { largeContentLen := largeContentLength
                   executorBlockKind := executorKind
                   hasFirstRowNum
                   firstRowNum := if hasFirstRowNum then firstRowNum else -1
                   largeRowCount }) ∧
      (usingChecksums = true → verifyHeaderChecksum crc m = true) := by
  obtain ⟨hlt₁, hlt₂⟩ :=
    largeContentWords_lt hasFirstRowNum executorKind largeRowCount largeContentLength
  obtain ⟨hkind, hflag, hek', hrc', hlen'⟩ :=
    largeContentWords_get hasFirstRowNum executorKind largeRowCount largeContentLength
  obtain ⟨h03, h47⟩ := load_storeWords buf (hlt₁.trans (by norm_num)) hlt₂
  have hk : AoHeader.isLong (AOSmallContentHeader.headerKind.get
      (((buf.store 0 4 (largeContentWords hasFirstRowNum executorKind largeRowCount
        largeContentLength).1).store 4 4 (largeContentWords hasFirstRowNum executorKind
          largeRowCount largeContentLength).2).load 0 4)) = .ok false := by
    rw [h03, AOSmallContentHeader.headerKind_eq, hkind]
    rfl
  obtain ⟨m, hm⟩ : ∃ m, makeLargeContentHeader crc buf usingChecksums hasFirstRowNum version
      firstRowNum executorKind largeRowCount largeContentLength = .ok m :=
    ⟨_, finishHeader_eq crc hk hv _ _ _ _ _ _ _⟩
  have h03' := (load_of_finishHeader crc hk hv hm (.inl (by norm_num))).trans h03
  have h47' := (load_of_finishHeader crc hk hv hm (.inl (by norm_num))).trans h47
  rw [AOLargeContentHeader.hasFirstRowNum_eq] at hflag
  refine ⟨m, hm, getHeaderInfo_eq h03' hlt₁ hkind (by decide) hflag usingChecksums, ?_,
    verifyHeaderChecksum_of_finishHeader crc hk hv hm⟩
  have hlen₀' : ¬ largeContentLength = 0 := by omega
  simp only [getLargeContentHeaderInfo, h03', h47', AOLargeContentHeader.hasFirstRowNum_eq, hflag,
    hek', hrc', hlen', Nat.mod_eq_of_lt hek, Nat.mod_eq_of_lt hrc, Nat.mod_eq_of_lt hlen, hlen₀',
    if_false, decide_toNat_ne_zero, AoHeader.size_regular]
  rw [readFirstRowNum_of_size false usingChecksums hasFirstRowNum
    (loadInt64_of_finishHeader crc hk hv hm)]
  rfl

theorem nonBulkDenseContentHeader_roundTrip (buf : Mem) (usingChecksums hasFirstRowNum : Bool)
    {version : ℕ} (hv : AOSegfileFormatVersion.IsValid version) (firstRowNum : Int64)
    {executorKind rowCount dataLength blockLimitLen : ℕ}
    (hek : executorKind < 2 ^ 3) (hrc : rowCount < 2 ^ 30) (hdl : dataLength < 2 ^ 21)
    (hlimit : AoHeader.size false usingChecksums hasFirstRowNum +
      AOStorage.roundUpValid dataLength version ≤ blockLimitLen) :
    ∃ m, makeNonBulkDenseContentHeader crc buf usingChecksums hasFirstRowNum version firstRowNum
        executorKind rowCount dataLength = .ok m ∧
      getHeaderInfo m usingChecksums =
        .ok (.ok (.NonBulkDenseContent, AoHeader.size false usingChecksums hasFirstRowNum)) ∧
      getNonBulkDenseContentHeaderInfo m (AoHeader.size false usingChecksums hasFirstRowNum)
          usingChecksums blockLimitLen version =
        .ok (.ok { overallBlockLen := AoHeader.size false usingChecksums hasFirstRowNum +
                     AOStorage.roundUpValid dataLength version
                   offset := AoHeader.size false usingChecksums hasFirstRowNum
                   uncompressedLen := dataLength
                   executorBlockKind := executorKind
                   hasFirstRowNum
                   firstRowNum := if hasFirstRowNum then firstRowNum else -1
                   rowCount
                   isCompressed := false
                   compressedLen := 0 }) ∧
      (usingChecksums = true → verifyHeaderChecksum crc m = true ∧
        verifyBlockChecksum crc false m (AoHeader.size false usingChecksums hasFirstRowNum +
          AOStorage.roundUpValid dataLength version) = true) := by
  obtain ⟨hlt₁, hlt₂⟩ := nonBulkDenseContentWords_lt hasFirstRowNum executorKind rowCount dataLength
  obtain ⟨hkind, hflag, hek', hrc', hdl'⟩ :=
    nonBulkDenseContentWords_get hasFirstRowNum executorKind rowCount dataLength
  obtain ⟨h03, h47⟩ := load_storeWords buf (hlt₁.trans (by norm_num)) hlt₂
  have hk : AoHeader.isLong (AOSmallContentHeader.headerKind.get
      (((buf.store 0 4 (nonBulkDenseContentWords hasFirstRowNum executorKind rowCount
        dataLength).1).store 4 4 (nonBulkDenseContentWords hasFirstRowNum executorKind
          rowCount dataLength).2).load 0 4)) = .ok false := by
    rw [h03, AOSmallContentHeader.headerKind_eq, hkind]
    rfl
  obtain ⟨m, hm⟩ : ∃ m, makeNonBulkDenseContentHeader crc buf usingChecksums hasFirstRowNum
      version firstRowNum executorKind rowCount dataLength = .ok m :=
    ⟨_, finishHeader_eq crc hk hv _ _ _ _ _ _ _⟩
  have h03' := (load_of_finishHeader crc hk hv hm (.inl (by norm_num))).trans h03
  have h47' := (load_of_finishHeader crc hk hv hm (.inl (by norm_num))).trans h47
  rw [AONonBulkDenseContentHeader.hasFirstRowNum_eq] at hflag
  refine ⟨m, hm, getHeaderInfo_eq h03' hlt₁ hkind (by decide) hflag usingChecksums, ?_, ?_⟩
  · simp only [getNonBulkDenseContentHeaderInfo, h03', h47',
      AONonBulkDenseContentHeader.hasFirstRowNum_eq, hflag, hek', hrc', hdl',
      Nat.mod_eq_of_lt hek, Nat.mod_eq_of_lt hrc, Nat.mod_eq_of_lt hdl, decide_toNat_ne_zero,
      AoHeader.size_regular]
    rw [readFirstRowNum_of_size false usingChecksums hasFirstRowNum
      (loadInt64_of_finishHeader crc hk hv hm), Except.ok_bind,
      checkLengths_of_le hv (Nat.zero_le _) (by simpa using hlimit)]
    simp [Except.map]
  · intro hc
    subst hc
    refine ⟨verifyHeaderChecksum_of_finishHeader crc hk hv hm rfl, ?_⟩
    simpa using verifyBlockChecksum_of_finishHeader crc hk hv hm rfl

theorem bulkDenseContentHeader_roundTrip (buf : Mem) (usingChecksums hasFirstRowNum : Bool)
    {version : ℕ} (hv : AOSegfileFormatVersion.IsValid version) (firstRowNum : Int64)
    {executorKind rowCount dataLength compressedLength blockLimitLen : ℕ}
    (hek : executorKind < 2 ^ 3) (hrc : rowCount < 2 ^ 30) (hdl : dataLength < 2 ^ 21)
    (hcl : compressedLength ≤ dataLength)
    (hlimit : AoHeader.size true usingChecksums hasFirstRowNum + AOStorage.roundUpValid
      (if compressedLength = 0 then dataLength else compressedLength) version ≤ blockLimitLen) :
    ∃ m, makeBulkDenseContentHeader crc buf usingChecksums hasFirstRowNum version firstRowNum
        executorKind rowCount dataLength compressedLength = .ok m ∧
      getHeaderInfo m usingChecksums =
        .ok (.ok (.BulkDenseContent, AoHeader.size true usingChecksums hasFirstRowNum)) ∧
      getBulkDenseContentHeaderInfo m (AoHeader.size true usingChecksums hasFirstRowNum)
          usingChecksums blockLimitLen version =
        .ok (.ok { overallBlockLen := AoHeader.size true usingChecksums hasFirstRowNum +
                     AOStorage.roundUpValid
                       (if compressedLength = 0 then dataLength else compressedLength) version
                   offset := AoHeader.size true usingChecksums hasFirstRowNum
                   uncompressedLen := dataLength
                   executorBlockKind := executorKind
                   hasFirstRowNum
                   firstRowNum := if hasFirstRowNum then firstRowNum else -1
                   rowCount
                   isCompressed := decide (compressedLength ≠ 0)
                   compressedLen := compressedLength }) ∧
      (usingChecksums = true → verifyHeaderChecksum crc m = true ∧
        verifyBlockChecksum crc false m (AoHeader.size true usingChecksums hasFirstRowNum +
          AOStorage.roundUpValid
            (if compressedLength = 0 then dataLength else compressedLength) version) = true) := by
  obtain ⟨hlt₁, hlt₂⟩ :=
    bulkDenseContentWords_lt hasFirstRowNum executorKind dataLength compressedLength
  obtain ⟨hkind, hflag, hek', hdl', hcl'⟩ :=
    bulkDenseContentWords_get hasFirstRowNum executorKind dataLength compressedLength
  obtain ⟨h03, h47⟩ := load_storeWords buf (hlt₁.trans (by norm_num)) hlt₂
  set w := bulkDenseContentWords hasFirstRowNum executorKind dataLength compressedLength
  -- the extension header: a zero word, then the row count
  set e := AoHeader.regularSize + (if usingChecksums then 2 * 4 else 0) with he
  have he₁ : e = AoHeader.size false usingChecksums false := AoHeader.size_regular _
  have he₂ : e + AoHeader.regularSize = AoHeader.size true usingChecksums false :=
    AoHeader.size_long _
  have he₃ : e + 8 = AoHeader.size true usingChecksums false := he₂
  set x := AOBulkDenseContentHeader.extLargeRowCount.init 0 rowCount with hx
  have hxlt : x < 256 ^ 4 := by
    have : x < 2 ^ 32 := by
      simp (disch := decide) only [hx, Field.init_lt_two_pow_iff]
      decide
    simpa using this
  have hxget : AOBulkDenseContentHeader.extLargeRowCount.get x = rowCount := by
    rw [hx, Field.get_init_self, Field.get_zero, Nat.zero_or]
    exact Nat.mod_eq_of_lt hrc
  have h8 : 8 ≤ e := by rw [he₁]; exact AoHeader.eight_le_size _ _ _
  set m₀ := (buf.store 0 4 w.1).store 4 4 w.2
  have h03₁ : ((m₀.store e 4 0).store (e + 4) 4 x).load 0 4 = w.1 := by
    rw [load_store_of_disjoint _ _ (.inl (by omega)), load_store_of_disjoint _ _ (.inl (by omega)),
      h03]
  have h47₁ : ((m₀.store e 4 0).store (e + 4) 4 x).load 4 4 = w.2 := by
    rw [load_store_of_disjoint _ _ (.inl (by omega)), load_store_of_disjoint _ _ (.inl (by omega)),
      h47]
  have hext₁ : ((m₀.store e 4 0).store (e + 4) 4 x).load (e + 4) 4 = x := load_store_of_lt hxlt
  have hk : AoHeader.isLong (AOSmallContentHeader.headerKind.get
      (((m₀.store e 4 0).store (e + 4) 4 x).load 0 4)) = .ok true := by
    rw [h03₁, AOSmallContentHeader.headerKind_eq, hkind]
    rfl
  obtain ⟨m, hm⟩ : ∃ m, makeBulkDenseContentHeader crc buf usingChecksums hasFirstRowNum version
      firstRowNum executorKind rowCount dataLength compressedLength = .ok m :=
    ⟨_, finishHeader_eq crc hk hv _ _ _ _ _ _ _⟩
  have h03' := (load_of_finishHeader crc hk hv hm (.inl (by norm_num))).trans h03₁
  have h47' := (load_of_finishHeader crc hk hv hm (.inl (by norm_num))).trans h47₁
  have hext' := (load_of_finishHeader crc hk hv hm (.inr ⟨by omega, by omega⟩)).trans hext₁
  have hlen : (if decide (compressedLength > 0) = true then compressedLength else dataLength) =
      (if compressedLength = 0 then dataLength else compressedLength) := by
    by_cases h0 : compressedLength = 0 <;> simp [h0, Nat.pos_iff_ne_zero]
  rw [AOBulkDenseContentHeader.hasFirstRowNum_eq] at hflag
  refine ⟨m, hm, getHeaderInfo_eq h03' hlt₁ hkind (by decide) hflag usingChecksums, ?_, ?_⟩
  · simp only [getBulkDenseContentHeaderInfo, h03', h47', ← he, he₂, hext', hxget,
      AOBulkDenseContentHeader.hasFirstRowNum_eq, hflag, hek', hdl', hcl',
      Nat.mod_eq_of_lt hek, Nat.mod_eq_of_lt hdl,
      Nat.mod_eq_of_lt (lt_of_le_of_lt hcl hdl), decide_toNat_ne_zero]
    rw [readFirstRowNum_of_size true usingChecksums hasFirstRowNum
      (loadInt64_of_finishHeader crc hk hv hm), Except.ok_bind, checkLengths_of_le hv hcl hlimit]
    rfl
  · intro hc
    subst hc
    refine ⟨verifyHeaderChecksum_of_finishHeader crc hk hv hm rfl, ?_⟩
    have := verifyBlockChecksum_of_finishHeader crc hk hv hm rfl
    rwa [hlen] at this

end AppendOnlyStorageFormat

/-! ## The four writers as one -/

/-- The arguments of one of the four `Make*ContentHeader` functions, besides those they share. -/
inductive HeaderSpec
  | small (executorKind rowCount dataLength compressedLength : ℕ)
  | large (executorKind largeRowCount largeContentLength : ℕ)
  | nonBulkDense (executorKind rowCount dataLength : ℕ)
  | bulkDense (executorKind rowCount dataLength compressedLength : ℕ)
  deriving DecidableEq, Repr

namespace HeaderSpec

open AppendOnlyStorageFormat

/-- The kind of header the writer makes. -/
def kind : HeaderSpec → AoHeaderKind
  | .small .. => .SmallContent
  | .large .. => .LargeContent
  | .nonBulkDense .. => .NonBulkDenseContent
  | .bulkDense .. => .BulkDenseContent

/-- Only the bulk dense header has the extension words. -/
def isLong : HeaderSpec → Bool
  | .bulkDense .. => true
  | _ => false

/-- Every value fits its field, a compressed length is at most the uncompressed one, and a large
content length is positive. -/
def InRange : HeaderSpec → Prop
  | .small ek rc dl cl => ek < 2 ^ 3 ∧ rc < 2 ^ 14 ∧ dl < 2 ^ 21 ∧ cl ≤ dl
  | .large ek rc len => ek < 2 ^ 3 ∧ rc < 2 ^ 25 ∧ 0 < len ∧ len < 2 ^ 30
  | .nonBulkDense ek rc dl => ek < 2 ^ 3 ∧ rc < 2 ^ 30 ∧ dl < 2 ^ 21
  | .bulkDense ek rc dl cl => ek < 2 ^ 3 ∧ rc < 2 ^ 30 ∧ dl < 2 ^ 21 ∧ cl ≤ dl

instance (s : HeaderSpec) : Decidable s.InRange :=
  match s with
  | .small ek rc dl cl =>
    inferInstanceAs (Decidable (ek < 2 ^ 3 ∧ rc < 2 ^ 14 ∧ dl < 2 ^ 21 ∧ cl ≤ dl))
  | .large ek rc len => inferInstanceAs (Decidable (ek < 2 ^ 3 ∧ rc < 2 ^ 25 ∧ 0 < len ∧ len < 2 ^ 30))
  | .nonBulkDense ek rc dl => inferInstanceAs (Decidable (ek < 2 ^ 3 ∧ rc < 2 ^ 30 ∧ dl < 2 ^ 21))
  | .bulkDense ek rc dl cl =>
    inferInstanceAs (Decidable (ek < 2 ^ 3 ∧ rc < 2 ^ 30 ∧ dl < 2 ^ 21 ∧ cl ≤ dl))

/-- The writer of the kind. -/
def make (crc : List UInt8 → UInt32) (s : HeaderSpec) (buf : Mem)
    (usingChecksums hasFirstRowNum : Bool) (version : ℕ) (firstRowNum : Int64) :
    Except String Mem :=
  match s with
  | .small ek rc dl cl =>
    makeSmallContentHeader crc buf usingChecksums hasFirstRowNum version firstRowNum ek rc dl cl
  | .large ek rc len =>
    makeLargeContentHeader crc buf usingChecksums hasFirstRowNum version firstRowNum ek rc len
  | .nonBulkDense ek rc dl =>
    makeNonBulkDenseContentHeader crc buf usingChecksums hasFirstRowNum version firstRowNum ek rc dl
  | .bulkDense ek rc dl cl =>
    makeBulkDenseContentHeader crc buf usingChecksums hasFirstRowNum version firstRowNum ek rc dl cl

/-- The number of data bytes the block stores: the compressed length when there is one. A large
content header stores none. -/
def storedLength : HeaderSpec → ℕ
  | .small _ _ dl cl => if cl = 0 then dl else cl
  | .large .. => 0
  | .nonBulkDense _ _ dl => dl
  | .bulkDense _ _ dl cl => if cl = 0 then dl else cl

/-- The header length the writer uses (`AoHeader_Size`). -/
def headerLen (s : HeaderSpec) (usingChecksums hasFirstRowNum : Bool) : ℕ :=
  AoHeader.size s.isLong usingChecksums hasFirstRowNum

/-- The length of the whole block: the header, then the stored data rounded up. -/
def blockLen (s : HeaderSpec) (usingChecksums hasFirstRowNum : Bool) (version : ℕ) : ℕ :=
  s.headerLen usingChecksums hasFirstRowNum + AOStorage.roundUpValid s.storedLength version

/-- What the reader of the kind should report: the values written, `-1` for an absent first row
number, and the lengths the writer used. -/
def info (s : HeaderSpec) (usingChecksums hasFirstRowNum : Bool) (version : ℕ)
    (firstRowNum : Int64) : HeaderInfo :=
  let frn := if hasFirstRowNum then firstRowNum else -1
  let content (ek rc dl cl : ℕ) : HeaderInfo := .content
    { overallBlockLen := s.blockLen usingChecksums hasFirstRowNum version
      offset := s.headerLen usingChecksums hasFirstRowNum
      uncompressedLen := dl
      executorBlockKind := ek
      hasFirstRowNum
      firstRowNum := frn
      rowCount := rc
      isCompressed := decide (cl ≠ 0)
      compressedLen := cl }
  match s with
  | .small ek rc dl cl => content ek rc dl cl
  | .large ek rc len => .large
    { largeContentLen := len
      executorBlockKind := ek
      hasFirstRowNum
      firstRowNum := frn
      largeRowCount := rc }
  | .nonBulkDense ek rc dl => content ek rc dl 0
  | .bulkDense ek rc dl cl => content ek rc dl cl

variable (crc : List UInt8 → UInt32)

/-- **Append-only header round trip.** A header made by any of the four writers, with values in
range and a valid format version, is read back by `GetHeaderInfo` as its kind and length, and by
the reader of its kind, given a block limit at least the block length, as the values written;
with checksums, the header checksum verifies and, for the kinds with data, so does the block
checksum over the block length. -/
theorem header_roundTrip (s : HeaderSpec) (hs : s.InRange) (buf : Mem)
    (usingChecksums hasFirstRowNum : Bool) {version : ℕ}
    (hv : AOSegfileFormatVersion.IsValid version) (firstRowNum : Int64) {blockLimitLen : ℕ}
    (hlimit : s.blockLen usingChecksums hasFirstRowNum version ≤ blockLimitLen) :
    ∃ m, s.make crc buf usingChecksums hasFirstRowNum version firstRowNum = .ok m ∧
      getHeaderInfo m usingChecksums =
        .ok (.ok (s.kind, s.headerLen usingChecksums hasFirstRowNum)) ∧
      getContentHeaderInfo s.kind m (s.headerLen usingChecksums hasFirstRowNum) usingChecksums
          blockLimitLen version =
        .ok (.ok (s.info usingChecksums hasFirstRowNum version firstRowNum)) ∧
      (usingChecksums = true → verifyHeaderChecksum crc m = true ∧
        (s.kind ≠ .LargeContent →
          verifyBlockChecksum crc false m (s.blockLen usingChecksums hasFirstRowNum version) =
            true)) := by
  cases s with
  | small ek rc dl cl =>
    obtain ⟨hek, hrc, hdl, hcl⟩ := hs
    obtain ⟨m, hm, hinfo, hget, hsum⟩ := smallContentHeader_roundTrip crc buf usingChecksums
      hasFirstRowNum hv firstRowNum hek hrc hdl hcl hlimit
    refine ⟨m, hm, hinfo, ?_, fun hc => ⟨(hsum hc).1, fun _ => (hsum hc).2⟩⟩
    simp only [kind, headerLen, isLong, getContentHeaderInfo, hget]
    rfl
  | large ek rc len =>
    obtain ⟨hek, hrc, hlen₀, hlen⟩ := hs
    obtain ⟨m, hm, hinfo, hget, hsum⟩ := largeContentHeader_roundTrip crc buf usingChecksums
      hasFirstRowNum hv firstRowNum hek hrc hlen hlen₀
    refine ⟨m, hm, hinfo, ?_, fun hc => ⟨hsum hc, fun h => absurd rfl h⟩⟩
    simp only [kind, headerLen, isLong, getContentHeaderInfo, hget]
    rfl
  | nonBulkDense ek rc dl =>
    obtain ⟨hek, hrc, hdl⟩ := hs
    obtain ⟨m, hm, hinfo, hget, hsum⟩ := nonBulkDenseContentHeader_roundTrip crc buf
      usingChecksums hasFirstRowNum hv firstRowNum hek hrc hdl hlimit
    refine ⟨m, hm, hinfo, ?_, fun hc => ⟨(hsum hc).1, fun _ => (hsum hc).2⟩⟩
    simp only [kind, headerLen, isLong, getContentHeaderInfo, hget]
    rfl
  | bulkDense ek rc dl cl =>
    obtain ⟨hek, hrc, hdl, hcl⟩ := hs
    obtain ⟨m, hm, hinfo, hget, hsum⟩ := bulkDenseContentHeader_roundTrip crc buf usingChecksums
      hasFirstRowNum hv firstRowNum hek hrc hdl hcl hlimit
    refine ⟨m, hm, hinfo, ?_, fun hc => ⟨(hsum hc).1, fun _ => (hsum hc).2⟩⟩
    simp only [kind, headerLen, isLong, getContentHeaderInfo, hget]
    rfl

theorem header_roundTrip_small_checksummed :
    (small 7 100 1000 600).InRange ∧ AOSegfileFormatVersion.IsValid 3 ∧
      (small 7 100 1000 600).blockLen true true 3 ≤ 1024 ∧
      ∃ m, (small 7 100 1000 600).make (fun _ => 0) (fun _ => 0) true true 3 42 = .ok m ∧
        getHeaderInfo m true = .ok (.ok ((small 7 100 1000 600).kind,
          (small 7 100 1000 600).headerLen true true)) ∧
        getContentHeaderInfo (small 7 100 1000 600).kind m
            ((small 7 100 1000 600).headerLen true true) true 1024 3 =
          .ok (.ok ((small 7 100 1000 600).info true true 3 42)) ∧
        (true = true → verifyHeaderChecksum (fun _ => 0) m = true ∧
          ((small 7 100 1000 600).kind ≠ .LargeContent →
            verifyBlockChecksum (fun _ => 0) false m ((small 7 100 1000 600).blockLen true true 3) =
              true)) :=
  ⟨by decide, by decide, by decide,
    header_roundTrip (fun _ => 0) (small 7 100 1000 600) (by decide) (fun _ => 0) true true (by decide) 42
      (by decide)⟩

/-- A large content header that announces no content is rejected by its reader, whatever else it
holds. -/
theorem getContentHeaderInfo_large_zero (buf : Mem) (usingChecksums hasFirstRowNum : Bool)
    {version : ℕ} (hv : AOSegfileFormatVersion.IsValid version) (firstRowNum : Int64)
    (executorKind largeRowCount blockLimitLen : ℕ) :
    ∃ m, (large executorKind largeRowCount 0).make crc buf usingChecksums hasFirstRowNum version
        firstRowNum = .ok m ∧
      getContentHeaderInfo .LargeContent m
          ((large executorKind largeRowCount 0).headerLen usingChecksums hasFirstRowNum)
          usingChecksums blockLimitLen version = .ok (.error .LargeContentLenIsZero) := by
  obtain ⟨hlt₁, hlt₂⟩ := largeContentWords_lt hasFirstRowNum executorKind largeRowCount 0
  obtain ⟨hkind, -, -, -, hlen'⟩ :=
    largeContentWords_get hasFirstRowNum executorKind largeRowCount 0
  obtain ⟨h03, h47⟩ := load_storeWords buf (hlt₁.trans (by norm_num)) hlt₂
  have hk : AoHeader.isLong (AOSmallContentHeader.headerKind.get
      (((buf.store 0 4 (largeContentWords hasFirstRowNum executorKind largeRowCount 0).1).store
        4 4 (largeContentWords hasFirstRowNum executorKind largeRowCount 0).2).load 0 4)) =
      .ok false := by
    rw [h03, AOSmallContentHeader.headerKind_eq, hkind]
    rfl
  obtain ⟨m, hm⟩ : ∃ m, makeLargeContentHeader crc buf usingChecksums hasFirstRowNum version
      firstRowNum executorKind largeRowCount 0 = .ok m :=
    ⟨_, finishHeader_eq crc hk hv _ _ _ _ _ _ _⟩
  have h47' := (load_of_finishHeader crc hk hv hm (.inl (by norm_num))).trans h47
  refine ⟨m, hm, ?_⟩
  simp [getContentHeaderInfo, getLargeContentHeaderInfo, h47', hlen']
  rfl

/-- The smallest large content header, with no content: its reader rejects it. -/
theorem header_roundTrip_large_zero_rejected :
    ∃ m, (large 0 0 0).make (fun _ => 0) (fun _ => 0) false false 1 0 = .ok m ∧
      getContentHeaderInfo .LargeContent m ((large 0 0 0).headerLen false false) false 0 1 =
        .ok (.error .LargeContentLenIsZero) :=
  getContentHeaderInfo_large_zero (fun _ => 0) (fun _ => 0) false false (by decide) 0 0 0 0

end HeaderSpec

end Cloudberry.AppendOnly
