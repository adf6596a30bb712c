import Cloudberry.Visimap.Store
import Cloudberry.AppendOnly.TupleId
import Cloudberry.Lib.ExceptBind
import Cloudberry.Lib.MachineInt

/-!
# Visimap scans (`AppendOnlyVisimapScan_GetNextInvisible`)

A visimap scan reads the rows of the `aovisimap` relation in index order, by segment file and
then first row number, and returns the hidden tuples of each entry in turn; the tuple id it
returned last is its cursor. The search in an entry read from a new row starts from the invalid
tuple id that `AOTupleIdSetInvalid` puts in the cursor, and `AppendOnlyVisimapEntry_CoversTuple`
decodes that tuple id as one of segment file `127`.

Here the tuple ids are the three 16-bit words of `appendonlytid.h`, decoded with the assertions
of a build that checks them.

* `coversTupleId_eq_coversTuple`: on a tuple id that decodes, `CoversTuple` on its words is
  `CoversTuple` on its segment file and row number, the form the rest of the visimap model uses;
* `coversTupleId_setInvalid_of_ne`: an entry of another segment file does not cover the invalid
  cursor, which it sees from the segment file number alone;
* `getNextInvisible_asserts_segment_127`: an entry of segment file `127` goes on to decode the row
  number of the invalid cursor, whose offset is `0`, and the scan stops at the first assertion of
  `AOTupleIdGet_rowNum`.
-/

namespace Cloudberry.Visimap

open MachineInt
open AppendOnly (aoTupleIdGetSegmentFileNum aoTupleIdGetRowNum aoTupleIdGetRowNumChecked
  aoTupleIdInit aoTupleIdSetInvalid)

namespace AppendOnlyVisimapEntry

/-- `AppendOnlyVisimapEntry_Reset`: no range and no bitmap. -/
def reset (e : AppendOnlyVisimapEntry) : AppendOnlyVisimapEntry :=
  { e with dirty := false, segmentFileNum := -1, firstRowNum := -1, bitmap := none }

/-- `AppendOnlyVisimapEntry_CoversTuple` on the words of a tuple id; the row number is read as an
`int64`. -/
def coversTupleId (e : AppendOnlyVisimapEntry) (tupleId : AppendOnly.AOTupleId) :
    Except String Bool :=
  if !e.isValid then pure false
  else if e.segmentFileNum ≠ (aoTupleIdGetSegmentFileNum tupleId).toNat then pure false
  else do
    let rowNum : ℤ := (← aoTupleIdGetRowNumChecked tupleId).toInt64.toInt
    pure (e.firstRowNum ≤ rowNum && rowNum < e.firstRowNum + appendonlyVisimapMaxRange)

/-- `AppendOnlyVisimapEntry_GetNextInvisible`: the next hidden tuple after the cursor, searched
from the start of the entry when the entry does not cover the cursor; `none` when there is
none. -/
def getNextInvisible (e : AppendOnlyVisimapEntry) (tupleId : AppendOnly.AOTupleId) :
    Except String (Option AppendOnly.AOTupleId) := do
  if !e.isValid then throw "failed Assert: AppendOnlyVisimapEntry_IsValid(visiMapEntry)"
  let currentBitmapOffset : ℤ ←
    if ← e.coversTupleId tupleId then
      -- `AppendOnlyVisimapEntry_GetRownumOffset` of the cursor's row number
      pure ((← aoTupleIdGetRowNumChecked tupleId).toInt64.toInt - e.firstRowNum)
    else pure (-1)
  let offset := bmsNextMember e.bitmap currentBitmapOffset
  if offset ≥ 0 then
    let rowNum := e.firstRowNum + offset
    pure (some (aoTupleIdInit (UInt16.ofInt e.segmentFileNum) (UInt64.ofInt rowNum)))
  else pure none

end AppendOnlyVisimapEntry

/-- `AppendOnlyVisimapScan`: its entry, the rows its index scan has still to return, in index
order, and `isFinished`. -/
structure AppendOnlyVisimapScan where
  visimapEntry : AppendOnlyVisimapEntry
  indexScan : List VisimapTuple
  isFinished : Bool

namespace AppendOnlyVisimapScan

open AppendOnlyVisimapEntry

/-- `AppendOnlyVisimapScan_Init`: an entry with no range, over the rows of the relation in index
order. -/
def init (rows : List VisimapTuple) : AppendOnlyVisimapScan :=
  ⟨AppendOnlyVisimapEntry.init, rows, false⟩

/-- The rounds of the loop of `AppendOnlyVisimapScan_GetNextInvisible` that begin with no valid
entry. `AppendOnlyVisimapStore_GetNext` ends the scan at the last row, or copies the next row into
the entry; the cursor is then set invalid, and an entry with no hidden tuple after it is reset
before the next round. -/
def getNextInvisibleFromStore (e : AppendOnlyVisimapEntry) (tupleId : AppendOnly.AOTupleId) :
    List VisimapTuple → Except String (Bool × AppendOnlyVisimapScan × AppendOnly.AOTupleId)
  | [] => pure (false, ⟨e, [], true⟩, tupleId)
  | tuple :: rows => do
    let e ← e.copyout tuple
    match ← e.getNextInvisible aoTupleIdSetInvalid with
    | some tupleId => pure (true, ⟨e, rows, false⟩, tupleId)
    | none => getNextInvisibleFromStore e.reset aoTupleIdSetInvalid rows

/-- `AppendOnlyVisimapScan_GetNextInvisible`: whether a hidden tuple was found, the scan after the
call, and the tuple id, which the caller passes back in the next call. -/
def getNextInvisible (scan : AppendOnlyVisimapScan) (tupleId : AppendOnly.AOTupleId) :
    Except String (Bool × AppendOnlyVisimapScan × AppendOnly.AOTupleId) :=
  if scan.isFinished then throw "failed Assert: !visiMapScan->isFinished"
  else if scan.visimapEntry.isValid then do
    match ← scan.visimapEntry.getNextInvisible tupleId with
    | some tupleId => pure (true, scan, tupleId)
    | none => getNextInvisibleFromStore scan.visimapEntry.reset tupleId scan.indexScan
  else getNextInvisibleFromStore scan.visimapEntry tupleId scan.indexScan

end AppendOnlyVisimapScan

/-! ## Covering a tuple id -/

namespace AppendOnlyVisimapEntry

variable (e : AppendOnlyVisimapEntry)

/-- On a tuple id that decodes, `CoversTuple` reads only its segment file and row number. -/
theorem coversTupleId_eq_coversTuple {tupleId : AppendOnly.AOTupleId}
    (hh : tupleId.RowNumAsserts) :
    e.coversTupleId tupleId = .ok (e.coversTuple ⟨(aoTupleIdGetSegmentFileNum tupleId).toNat,
      (aoTupleIdGetRowNum tupleId).toNat⟩) := by
  have hrow : (aoTupleIdGetRowNum tupleId).toInt64.toInt = (aoTupleIdGetRowNum tupleId).toNat :=
    toInt_toInt64_of_lt (by have := AppendOnly.toNat_getRowNum_lt hh; omega)
  unfold coversTupleId coversTuple
  cases hvalid : e.isValid
  · simp
  · by_cases hseg : e.segmentFileNum = (aoTupleIdGetSegmentFileNum tupleId).toNat
    · simp [hseg, AppendOnly.aoTupleIdGetRowNumChecked_of_asserts hh, hrow]
    · simp [hseg]

/-- An entry of a segment file other than `127` does not cover the invalid tuple id, whose
segment file number decodes as `127`. -/
theorem coversTupleId_setInvalid_of_ne (h : e.segmentFileNum ≠ 127) :
    e.coversTupleId aoTupleIdSetInvalid = .ok false := by
  simp [coversTupleId, AppendOnly.setInvalid_decode.1, h]

/-- A valid entry of segment file `127` decodes the row number of the invalid tuple id. -/
theorem coversTupleId_setInvalid_segment_127 {e : AppendOnlyVisimapEntry} (hvalid : e.isValid)
    (h : e.segmentFileNum = 127) :
    e.coversTupleId aoTupleIdSetInvalid = .error "failed Assert: h->bytes_4_5 > 0" := by
  simp [coversTupleId, hvalid, h, AppendOnly.setInvalid_decode.1, AppendOnly.setInvalid_decode.2]

/-- A failure in `CoversTuple` is a failure of `GetNextInvisible`. -/
theorem getNextInvisible_of_coversTupleId_error {e : AppendOnlyVisimapEntry}
    {tupleId : AppendOnly.AOTupleId} {msg : String} (hvalid : e.isValid)
    (h : e.coversTupleId tupleId = .error msg) : e.getNextInvisible tupleId = .error msg := by
  simp [getNextInvisible, hvalid, h]

end AppendOnlyVisimapEntry

/-! ## The scan -/

namespace AppendOnlyVisimapScan

open AppendOnlyVisimapEntry

/-- **A scan stops at an assertion on segment file `127`.** When the scan has no valid entry, as
after `AppendOnlyVisimapScan_Init` or after the last hidden tuple of an entry, and its next row is
an entry of segment file `127`, the next call restarts the cursor at the invalid tuple id,
`CoversTuple` decodes its row number from the offset `0`, and the call fails the assertion
`bytes_4_5 > 0` of `AOTupleIdGet_rowNum`, whatever cursor it was given. -/
theorem getNextInvisible_asserts_segment_127 (scan : AppendOnlyVisimapScan)
    (tupleId : AppendOnly.AOTupleId) {tuple : VisimapTuple} {rows : List VisimapTuple}
    {e : AppendOnlyVisimapEntry} (hfinished : scan.isFinished = false)
    (hinvalid : scan.visimapEntry.isValid = false) (hrows : scan.indexScan = tuple :: rows)
    (hcopyout : scan.visimapEntry.copyout tuple = .ok e) (hsegno : e.segmentFileNum = 127)
    (hfirst : 0 ≤ e.firstRowNum) :
    scan.getNextInvisible tupleId = .error "failed Assert: h->bytes_4_5 > 0" := by
  have hvalid : e.isValid := by simp [isValid, hsegno, hfirst]
  have hentry := getNextInvisible_of_coversTupleId_error hvalid
    (coversTupleId_setInvalid_segment_127 hvalid hsegno)
  simp [getNextInvisible, hfinished, hinvalid, hrows, getNextInvisibleFromStore, hcopyout, hentry]

theorem getNextInvisible_asserts_segment_127_init :
    (init [⟨some 127, some 0, none⟩]).getNextInvisible aoTupleIdSetInvalid =
      .error "failed Assert: h->bytes_4_5 > 0" :=
  getNextInvisible_asserts_segment_127 _ _ (e := { AppendOnlyVisimapEntry.init with
    segmentFileNum := 127, firstRowNum := 0, bitmap := none }) rfl rfl rfl rfl rfl le_rfl

end AppendOnlyVisimapScan

end Cloudberry.Visimap
