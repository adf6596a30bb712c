import Cloudberry.Lib.BitField
import Cloudberry.Lib.ByteMem
import Cloudberry.Lib.ExceptBind

/-!
# Append-only storage headers: kinds, sizes and bit fields

Every block of an append-only segment file starts with a header of one of four kinds
(`cdbappendonlystorage.h`). The first eight bytes of every header are two 32-bit words, stored
little-endian at offsets `0` and `4`, whose bit fields are read by the `AO*HeaderGet_*` macros and
written on zeroed words by the `AO*HeaderInit_*` macros of `cdbappendonlystorage_int.h`. The bulk
dense kind is long: a second pair of words, the extension header, follows the first words and the
checksums.

Each macro is a `BitField.Field` with the mask and shift the macro spells out; a field that the
macros split over the two words (the data length of the small and bulk dense kinds, the row count
of the large kind) is a pair of fields and a `get`/`init` pair that cuts the value as the macros
do. The checks that every pair of fields of one word is disjoint, and that every mask lies below
bit `31`, are closed statements decided on the literals.

The sizes (`AoHeader.size`), the rounding of a block's data (`AOStorage.roundUp`) and the
check errors the readers return (`AOHeaderCheckError`) are here too.
-/

namespace Cloudberry.AppendOnly

open BitField ByteMem

/-! ## Header kinds and sizes -/

/-- `AoHeaderKind`. -/
inductive AoHeaderKind
  | None
  | SmallContent
  | LargeContent
  | NonBulkDenseContent
  | BulkDenseContent
  deriving DecidableEq, Repr

/-- The value of a kind, as stored in the three-bit `headerKind` field. -/
def AoHeaderKind.toNat : AoHeaderKind → ℕ
  | .None => 0
  | .SmallContent => 1
  | .LargeContent => 2
  | .NonBulkDenseContent => 3
  | .BulkDenseContent => 4

/-- `MaxAoHeaderKind`, one past the last kind. -/
def MaxAoHeaderKind : ℕ := 5

namespace AoHeader

/-- `AoHeader_RegularSize`. -/
def regularSize : ℕ := 8

/-- `AoHeader_LongSize`. -/
def longSize : ℕ := 16

/-- `AoHeader_IsLong`, on the value of the `headerKind` field: only the bulk dense kind is long,
and a value that is no kind is an error. -/
def isLong (aoHeaderKind : ℕ) : Except String Bool :=
  match aoHeaderKind with
  | 1 => .ok false
  | 2 => .ok false
  | 3 => .ok false
  | 4 => .ok true
  | k => .error s!"Unexpected Append-Only header kind {k}"

/-- `AoHeader_Size`; `sizeof(pg_crc32)` is `4` and `sizeof(int64)` is `8`. -/
def size (isLong hasChecksums hasFirstRowNum : Bool) : ℕ :=
  (if isLong then longSize else regularSize) + (if hasChecksums then 2 * 4 else 0) +
    (if hasFirstRowNum then 8 else 0)

theorem size_eq_add (isLong hasChecksums hasFirstRowNum : Bool) :
    size isLong hasChecksums hasFirstRowNum =
      size isLong hasChecksums false + (if hasFirstRowNum then 8 else 0) := by
  simp [size]

/-- The offset of the first row number in a regular header, as the readers compute it. -/
theorem size_regular (hasChecksums : Bool) :
    regularSize + (if hasChecksums then 2 * 4 else 0) = size false hasChecksums false := by
  cases hasChecksums <;> rfl

/-- The offset of the first row number in a long header: the extension follows the checksums. -/
theorem size_long (hasChecksums : Bool) :
    regularSize + (if hasChecksums then 2 * 4 else 0) + regularSize = size true hasChecksums false := by
  cases hasChecksums <;> rfl

theorem eight_le_size (isLong hasChecksums hasFirstRowNum : Bool) :
    8 ≤ size isLong hasChecksums hasFirstRowNum := by
  cases isLong <;> cases hasChecksums <;> cases hasFirstRowNum <;> decide

end AoHeader

/-! ## Format versions and rounding -/

namespace AOSegfileFormatVersion

/-- `AOSegfileFormatVersion_Original`, the first valid version. -/
def Original : ℕ := 1

/-- `MaxAOSegfileFormatVersion`, one past the last version (`GP5 = 3`). -/
def Max : ℕ := 4

/-- `AOSegfileFormatVersion_IsValid`. -/
def IsValid (version : ℕ) : Prop := 0 < version ∧ version < Max

instance (version : ℕ) : Decidable (IsValid version) := inferInstanceAs (Decidable (_ ∧ _))

/-- `AOSegfileFormatVersion_CheckValid`: `ereport(ERROR)` on an invalid version. -/
def checkValid (version : ℕ) : Except String Unit :=
  if IsValid version then .ok () else .error s!"append-only table version {version} is invalid"

end AOSegfileFormatVersion

/-- `IsAOBlockAndMemtupleAlignmentFixed`: the versions after the original align blocks on eight
bytes. -/
def isAOBlockAndMemtupleAlignmentFixed (version : ℕ) : Except String Bool := do
  AOSegfileFormatVersion.checkValid version
  pure (version > AOSegfileFormatVersion.Original)

namespace AOStorage

/-- `AOStorage_RoundUp4`. -/
def roundUp4 (l : ℕ) : ℕ := (l + 3) / 4 * 4

/-- `AOStorage_RoundUp8`. -/
def roundUp8 (l : ℕ) : ℕ := (l + 7) / 8 * 8

/-- `AOStorage_RoundUp`. -/
def roundUp (l version : ℕ) : Except String ℕ := do
  let fixed ← isAOBlockAndMemtupleAlignmentFixed version
  pure (if fixed then roundUp8 l else roundUp4 l)

/-- What `AOStorage_RoundUp` computes on a valid version. -/
def roundUpValid (l version : ℕ) : ℕ :=
  if version > AOSegfileFormatVersion.Original then roundUp8 l else roundUp4 l

theorem roundUp_of_isValid {version : ℕ} (hv : AOSegfileFormatVersion.IsValid version) (l : ℕ) :
    roundUp l version = .ok (roundUpValid l version) := by
  simp [roundUp, roundUpValid, isAOBlockAndMemtupleAlignmentFixed,
    AOSegfileFormatVersion.checkValid, hv]

theorem le_roundUpValid (l version : ℕ) : l ≤ roundUpValid l version := by
  unfold roundUpValid roundUp8 roundUp4
  split <;> omega

end AOStorage

/-! ## Check errors -/

/-- `AOHeaderCheckError` without `AOHeaderCheckOk`: a reader that finds nothing wrong returns its
results instead. -/
inductive AOHeaderCheckError
  | First32BitsAllZeroes
  | ReservedBit0Not0
  | InvalidHeaderKindNone
  | InvalidHeaderKind
  | OBSOLETE
  | InvalidCompressedLen
  | InvalidOverallBlockLen
  | LargeContentLenIsZero
  deriving DecidableEq, Repr

/-! ## Bit fields

Only the fields that the `Make*` and `Get*` functions of `cdbappendonlystorageformat.c` use. -/

namespace AOHeader

/-- `AOHeaderGet_reserved0`: the top bit of the first word, read without a mask. -/
def getReserved0 (w : ℕ) : ℕ := w >>> 31

/-- `AOHeaderGet_headerKind`. -/
def headerKind : Field := ⟨0x70000000, 28, 3, by decide⟩

end AOHeader

namespace AOSmallContentHeader

/-- `AOSmallContentHeader*_headerKind`. -/
def headerKind : Field := ⟨0x70000000, 28, 3, by decide⟩

/-- `AOSmallContentHeader*_hasFirstRowNum`. -/
def hasFirstRowNum : Field := ⟨0x08000000, 27, 1, by decide⟩

/-- `AOSmallContentHeader*_executorBlockKind`. -/
def executorBlockKind : Field := ⟨0x07000000, 24, 3, by decide⟩

/-- `AOSmallContentHeader*_rowCount`. -/
def rowCount : Field := ⟨0x00FFFC00, 10, 14, by decide⟩

/-- The top ten bits of `dataLength`, at the bottom of the first word. -/
def dataLengthHigh : Field := ⟨0x000003FF, 0, 10, by decide⟩

/-- The low eleven bits of `dataLength`, at the top of the second word. -/
def dataLengthLow : Field := ⟨0xFFE00000, 21, 11, by decide⟩

/-- `AOSmallContentHeader*_compressedLength`, in the second word. -/
def compressedLength : Field := ⟨0x001FFFFF, 0, 21, by decide⟩

/-- `AOSmallContentHeaderGet_dataLength`. -/
def getDataLength (w03 w47 : ℕ) : ℕ := dataLengthHigh.get w03 <<< 11 ||| dataLengthLow.get w47

/-- `AOSmallContentHeaderInit_dataLength`, on the two words. -/
def initDataLength (w03 w47 e : ℕ) : ℕ × ℕ :=
  (dataLengthHigh.init w03 (e >>> 11), dataLengthLow.init w47 e)

end AOSmallContentHeader

namespace AOLargeContentHeader

/-- `AOLargeContentHeader*_headerKind`. -/
def headerKind : Field := ⟨0x70000000, 28, 3, by decide⟩

/-- `AOLargeContentHeader*_hasFirstRowNum`. -/
def hasFirstRowNum : Field := ⟨0x08000000, 27, 1, by decide⟩

/-- `AOLargeContentHeader*_executorBlockKind`. -/
def executorBlockKind : Field := ⟨0x07000000, 24, 3, by decide⟩

/-- The top 23 bits of `largeRowCount`, at the bottom of the first word. -/
def largeRowCountHigh : Field := ⟨0x007FFFFF, 0, 23, by decide⟩

/-- The low two bits of `largeRowCount`, at the top of the second word. -/
def largeRowCountLow : Field := ⟨0xC0000000, 30, 2, by decide⟩

/-- `AOLargeContentHeader*_largeContentLength`, in the second word. -/
def largeContentLength : Field := ⟨0x3FFFFFFF, 0, 30, by decide⟩

/-- `AOLargeContentHeaderGet_largeRowCount`. -/
def getLargeRowCount (w03 w47 : ℕ) : ℕ :=
  largeRowCountHigh.get w03 <<< 2 ||| largeRowCountLow.get w47

/-- `AOLargeContentHeaderInit_largeRowCount`, on the two words. -/
def initLargeRowCount (w03 w47 e : ℕ) : ℕ × ℕ :=
  (largeRowCountHigh.init w03 (e >>> 2), largeRowCountLow.init w47 e)

end AOLargeContentHeader

namespace AONonBulkDenseContentHeader

/-- `AONonBulkDenseContentHeader*_headerKind`. -/
def headerKind : Field := ⟨0x70000000, 28, 3, by decide⟩

/-- `AONonBulkDenseContentHeader*_hasFirstRowNum`. -/
def hasFirstRowNum : Field := ⟨0x08000000, 27, 1, by decide⟩

/-- `AONonBulkDenseContentHeader*_executorBlockKind`. -/
def executorBlockKind : Field := ⟨0x07000000, 24, 3, by decide⟩

/-- `AONonBulkDenseContentHeader*_dataLength`, at the bottom of the first word. -/
def dataLength : Field := ⟨0x001FFFFF, 0, 21, by decide⟩

/-- `AONonBulkDenseContentHeader*_largeRowCount`, in the second word. -/
def largeRowCount : Field := ⟨0x3FFFFFFF, 0, 30, by decide⟩

end AONonBulkDenseContentHeader

namespace AOBulkDenseContentHeader

/-- `AOBulkDenseContentHeader*_headerKind`. -/
def headerKind : Field := ⟨0x70000000, 28, 3, by decide⟩

/-- `AOBulkDenseContentHeader*_hasFirstRowNum`. -/
def hasFirstRowNum : Field := ⟨0x08000000, 27, 1, by decide⟩

/-- `AOBulkDenseContentHeader*_executorBlockKind`. -/
def executorBlockKind : Field := ⟨0x07000000, 24, 3, by decide⟩

/-- The top ten bits of `dataLength`, at the bottom of the first word. -/
def dataLengthHigh : Field := ⟨0x000003FF, 0, 10, by decide⟩

/-- The low eleven bits of `dataLength`, at the top of the second word. -/
def dataLengthLow : Field := ⟨0xFFE00000, 21, 11, by decide⟩

/-- `AOBulkDenseContentHeader*_compressedLength`, in the second word. -/
def compressedLength : Field := ⟨0x001FFFFF, 0, 21, by decide⟩

/-- `AOBulkDenseContentHeaderGet_dataLength`. -/
def getDataLength (w03 w47 : ℕ) : ℕ := dataLengthHigh.get w03 <<< 11 ||| dataLengthLow.get w47

/-- `AOBulkDenseContentHeaderInit_dataLength`, on the two words. -/
def initDataLength (w03 w47 e : ℕ) : ℕ × ℕ :=
  (dataLengthHigh.init w03 (e >>> 11), dataLengthLow.init w47 e)

/-- `AOBulkDenseContentHeaderExt*_largeRowCount`, in the second word of the extension. -/
def extLargeRowCount : Field := ⟨0x3FFFFFFF, 0, 30, by decide⟩

end AOBulkDenseContentHeader

/-! ## Fields every kind has at one place

Every kind spells the `headerKind` and `hasFirstRowNum` macros with the same mask and shift, which
is what lets `GetHeaderInfo` and `AddFirstRowNum` read the kind of any header through one macro. -/

theorem AOSmallContentHeader.headerKind_eq : AOSmallContentHeader.headerKind = AOHeader.headerKind :=
  rfl

theorem AOLargeContentHeader.headerKind_eq : AOLargeContentHeader.headerKind = AOHeader.headerKind :=
  rfl

theorem AONonBulkDenseContentHeader.headerKind_eq :
    AONonBulkDenseContentHeader.headerKind = AOHeader.headerKind := rfl

theorem AOBulkDenseContentHeader.headerKind_eq :
    AOBulkDenseContentHeader.headerKind = AOHeader.headerKind := rfl

theorem AOLargeContentHeader.hasFirstRowNum_eq :
    AOLargeContentHeader.hasFirstRowNum = AOSmallContentHeader.hasFirstRowNum := rfl

theorem AONonBulkDenseContentHeader.hasFirstRowNum_eq :
    AONonBulkDenseContentHeader.hasFirstRowNum = AOSmallContentHeader.hasFirstRowNum := rfl

theorem AOBulkDenseContentHeader.hasFirstRowNum_eq :
    AOBulkDenseContentHeader.hasFirstRowNum = AOSmallContentHeader.hasFirstRowNum := rfl

end Cloudberry.AppendOnly
