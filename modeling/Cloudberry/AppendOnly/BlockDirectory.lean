import Cloudberry.Lib.ExceptBind
import Cloudberry.Lib.MachineInt
import Cloudberry.AppendOnly.TupleId

/-!
# Searching a minipage of the block directory (`find_minipage_entry`)

A minipage of the append-only block directory lists entries in order of their row ranges
`[firstRowNum, firstRowNum + rowCount)`, and `find_minipage_entry` finds the entry covering a row
by a binary search with an upper midpoint, which compares the row with the entry's range and
stops when the range holds it.

The test computes the end of the range as an `int64` sum, which wraps past `INT64_MAX`
(the server is built with `-fwrapv`). So the search is correct for every sorted minipage whose
ranges end within `int64`, and so for every minipage the directory writes: `insert_new_entry`
records ranges of row numbers, which are at most `AOTupleId_MaxRowNum`, far from the wrap.

* `covers_iff`: for such an entry the test of the loop is the containment of the row;
* `findMinipageEntryLoop_spec`: the loop keeps the entries left of `start_no` ending at or before
  the row and those right of `end_no` starting after it, and ends at a covering entry or with
  none;
* `findMinipageEntry_spec`: the search returns the one entry covering the row, or
  `InvalidEntryNum` when there is none;
* `findMinipageEntry_finds`: so it does on every minipage of entries as `insert_new_entry` writes
  them.
-/

namespace Cloudberry.AppendOnly

open MachineInt

/-- `MinipageEntry`, by the two fields the search reads (`fileOffset` is not read). -/
structure MinipageEntry where
  firstRowNum : Int64
  rowCount : Int64
  deriving DecidableEq, Repr

/-- `Minipage`, by its array of entries. -/
structure Minipage where
  entries : List MinipageEntry
  deriving DecidableEq, Repr

/-- `minipage->entry[i]`; past the array, a zero entry. -/
def Minipage.entry (minipage : Minipage) (i : ℕ) : MinipageEntry :=
  minipage.entries.getD i ⟨0, 0⟩

/-- `InvalidEntryNum`. -/
def invalidEntryNum : ℤ := -1

/-- The loop of `find_minipage_entry` between `start_no` and `end_no`. The entry numbers are
`int`s, whose arithmetic stays in range for a minipage of fewer than `2^31` entries. -/
def findMinipageEntryLoop (minipage : Minipage) (rowNum : Int64) (start_no end_no : ℤ) :
    Except String ℤ :=
  if start_no ≤ end_no then
    let entry_no := start_no + (end_no - start_no + 1) / 2
    if ¬ (entry_no ≥ start_no ∧ entry_no ≤ end_no) then
      throw "failed Assert: entry_no >= start_no && entry_no <= end_no"
    else
      let entry := minipage.entry entry_no.toNat
      if ¬ entry.firstRowNum > 0 then throw "failed Assert: entry->firstRowNum > 0"
      else if ¬ entry.rowCount > 0 then throw "failed Assert: entry->rowCount > 0"
      else if entry.firstRowNum ≤ rowNum ∧ entry.firstRowNum + entry.rowCount > rowNum then
        pure entry_no
      else if entry.firstRowNum > rowNum then
        findMinipageEntryLoop minipage rowNum start_no (entry_no - 1)
      else findMinipageEntryLoop minipage rowNum (entry_no + 1) end_no
  else pure invalidEntryNum
termination_by (end_no - start_no + 1).toNat
decreasing_by all_goals omega

/-- `find_minipage_entry`: the number of the entry among the first `numEntries` that covers
`rowNum`, or `InvalidEntryNum`. `end_no` is the `uint32` `numEntries - 1` stored in an `int`. -/
def findMinipageEntry (minipage : Minipage) (numEntries : UInt32) (rowNum : Int64) :
    Except String ℤ :=
  findMinipageEntryLoop minipage rowNum 0 (numEntries - 1).toInt32.toInt

/-! ## What the search looks for -/

/-- The range of an entry holds a row, in the integers. -/
def MinipageEntry.Covers (entry : MinipageEntry) (rowNum : Int64) : Prop :=
  entry.firstRowNum.toInt ≤ rowNum.toInt ∧
    rowNum.toInt < entry.firstRowNum.toInt + entry.rowCount.toInt

instance (entry : MinipageEntry) (rowNum : Int64) : Decidable (entry.Covers rowNum) :=
  inferInstanceAs (Decidable (_ ∧ _))

/-- The first `n` entries of a minipage are sorted: each covers a positive number of rows from a
positive row number (the assertions of the search), each range ends before the next begins, and
no range ends beyond `INT64_MAX`. -/
structure Minipage.Sorted (minipage : Minipage) (n : ℕ) : Prop where
  length_le : n ≤ minipage.entries.length
  firstRowNum_pos : ∀ i < n, 0 < (minipage.entry i).firstRowNum.toInt
  rowCount_pos : ∀ i < n, 0 < (minipage.entry i).rowCount.toInt
  fits : ∀ i < n, (minipage.entry i).firstRowNum.toInt + (minipage.entry i).rowCount.toInt < 2 ^ 63
  le_of_lt : ∀ j < n, ∀ i < j,
    (minipage.entry i).firstRowNum.toInt + (minipage.entry i).rowCount.toInt ≤
      (minipage.entry j).firstRowNum.toInt

namespace MinipageEntry

/-- For an entry whose range ends within `int64`, the test of the loop is containment. -/
theorem covers_iff {entry : MinipageEntry} (hfirst : 0 < entry.firstRowNum.toInt)
    (hcount : 0 < entry.rowCount.toInt)
    (hfits : entry.firstRowNum.toInt + entry.rowCount.toInt < 2 ^ 63) (rowNum : Int64) :
    (entry.firstRowNum ≤ rowNum ∧ entry.firstRowNum + entry.rowCount > rowNum) ↔
      entry.Covers rowNum := by
  have hsum := toInt_add_of_lt (a := entry.firstRowNum) (b := entry.rowCount) (by omega) hfits
  rw [Covers, Int64.le_iff_toInt_le, gt_iff_lt, Int64.lt_iff_toInt_lt, hsum]

end MinipageEntry

namespace Minipage.Sorted

variable {minipage : Minipage} {n : ℕ} (hsorted : minipage.Sorted n)
include hsorted

/-- Ranges of entries apart from each other do not meet. -/
theorem eq_of_covers {rowNum : Int64} {i j : ℕ} (hi : i < n) (hj : j < n)
    (hci : (minipage.entry i).Covers rowNum) (hcj : (minipage.entry j).Covers rowNum) : i = j := by
  rcases Nat.lt_trichotomy i j with hij | hij | hij
  · have := hsorted.le_of_lt j hj i hij
    exact absurd hcj (by unfold MinipageEntry.Covers at *; omega)
  · exact hij
  · have := hsorted.le_of_lt i hi j hij
    exact absurd hci (by unfold MinipageEntry.Covers at *; omega)

end Minipage.Sorted

/-! ## The search -/

section Search

variable {minipage : Minipage} {n : ℕ} (hsorted : minipage.Sorted n) (rowNum : Int64)
include hsorted

/-- **The loop invariant.** While every entry left of `start_no` ends at or before the row and
every entry right of `end_no` starts after it, the loop ends at an entry covering the row, or
with `InvalidEntryNum` when no entry covers it. -/
theorem findMinipageEntryLoop_spec (start_no end_no : ℤ) (hstart : 0 ≤ start_no)
    (hend : end_no < n) (hle : start_no ≤ end_no + 1)
    (hleft : ∀ i : ℕ, (i : ℤ) < start_no →
      (minipage.entry i).firstRowNum.toInt + (minipage.entry i).rowCount.toInt ≤ rowNum.toInt)
    (hright : ∀ i : ℕ, i < n → end_no < i → rowNum.toInt < (minipage.entry i).firstRowNum.toInt) :
    ∃ r, findMinipageEntryLoop minipage rowNum start_no end_no = .ok r ∧
      ((0 ≤ r ∧ r < n ∧ (minipage.entry r.toNat).Covers rowNum) ∨
        (r = invalidEntryNum ∧ ∀ i < n, ¬ (minipage.entry i).Covers rowNum)) := by
  induction start_no, end_no using findMinipageEntryLoop.induct minipage rowNum with
  | case1 start_no end_no hrange entry_no hmid => omega
  | case2 start_no end_no hrange entry_no hmid entry hfirst =>
    have hpos : 0 < entry.firstRowNum.toInt := hsorted.firstRowNum_pos _ (by omega)
    exact absurd (Int64.lt_iff_toInt_lt.2 (by rwa [Int64.toInt_zero])) hfirst
  | case3 start_no end_no hrange entry_no hmid entry hfirst hcount =>
    have hpos : 0 < entry.rowCount.toInt := hsorted.rowCount_pos _ (by omega)
    exact absurd (Int64.lt_iff_toInt_lt.2 (by rwa [Int64.toInt_zero])) hcount
  | case4 start_no end_no hrange entry_no hmid entry hfirst hcount htest =>
    have hmn : entry_no.toNat < n := by omega
    refine ⟨entry_no, ?_, .inl ⟨by omega, by omega, ?_⟩⟩
    · rw [findMinipageEntryLoop, if_pos hrange]
      dsimp only
      rw [if_neg hmid, if_neg hfirst, if_neg hcount, if_pos htest]
      rfl
    · exact (MinipageEntry.covers_iff (hsorted.firstRowNum_pos _ hmn) (hsorted.rowCount_pos _ hmn)
        (hsorted.fits _ hmn) rowNum).1 htest
  | case5 start_no end_no hrange entry_no hmid entry hfirst hcount htest hgt ih =>
    have hmn : entry_no.toNat < n := by omega
    have hcnt : 0 < entry.rowCount.toInt := hsorted.rowCount_pos _ hmn
    have hgt' : rowNum.toInt < entry.firstRowNum.toInt := Int64.lt_iff_toInt_lt.1 hgt
    -- every entry from `entry_no` on starts after the row
    obtain ⟨r, hr, hspec⟩ := ih hstart (by omega) (by omega) hleft fun i hi hmi => by
      rcases Nat.lt_or_ge entry_no.toNat i with hlt | hge
      · have hsep : entry.firstRowNum.toInt + entry.rowCount.toInt ≤
            (minipage.entry i).firstRowNum.toInt := hsorted.le_of_lt _ hi _ hlt
        omega
      · rw [show i = entry_no.toNat by omega]
        exact hgt'
    refine ⟨r, ?_, hspec⟩
    rw [findMinipageEntryLoop, if_pos hrange]
    dsimp only
    rw [if_neg hmid, if_neg hfirst, if_neg hcount, if_neg htest, if_pos hgt, hr]
  | case6 start_no end_no hrange entry_no hmid entry hfirst hcount htest hgt ih =>
    have hmn : entry_no.toNat < n := by omega
    have hf : 0 < entry.firstRowNum.toInt := hsorted.firstRowNum_pos _ hmn
    have hc : 0 < entry.rowCount.toInt := hsorted.rowCount_pos _ hmn
    have hfit : entry.firstRowNum.toInt + entry.rowCount.toInt < 2 ^ 63 := hsorted.fits _ hmn
    have hle' : entry.firstRowNum.toInt ≤ rowNum.toInt := by
      rw [gt_iff_lt, Int64.lt_iff_toInt_lt] at hgt
      omega
    have hend' : entry.firstRowNum.toInt + entry.rowCount.toInt ≤ rowNum.toInt := by
      rw [MinipageEntry.covers_iff hf hc hfit, MinipageEntry.Covers] at htest
      omega
    -- every entry up to `entry_no` ends at or before the row
    obtain ⟨r, hr, hspec⟩ := ih (by omega) hend (by omega) (fun i hi => by
      rcases Nat.lt_or_ge i entry_no.toNat with hlt | hge
      · have hsep : (minipage.entry i).firstRowNum.toInt + (minipage.entry i).rowCount.toInt ≤
            entry.firstRowNum.toInt := hsorted.le_of_lt _ hmn _ hlt
        omega
      · rw [show i = entry_no.toNat by omega]
        exact hend') hright
    refine ⟨r, ?_, hspec⟩
    rw [findMinipageEntryLoop, if_pos hrange]
    dsimp only
    rw [if_neg hmid, if_neg hfirst, if_neg hcount, if_neg htest, if_neg hgt, hr]
  | case7 start_no end_no hrange =>
    refine ⟨invalidEntryNum, by rw [findMinipageEntryLoop, if_neg hrange]; rfl,
      .inr ⟨rfl, fun i hi hcov => ?_⟩⟩
    unfold MinipageEntry.Covers at hcov
    by_cases hlt : (i : ℤ) < start_no
    · have := hleft i hlt
      omega
    · have := hright i hi (by omega)
      omega

end Search

/-- **`find_minipage_entry` finds the covering entry.** For a minipage of fewer than `2^31`
entries whose first `numEntries` are sorted and end within `int64`, the search returns the number
of the entry covering the row, which is the only one, or `InvalidEntryNum` when no entry covers
it. -/
theorem findMinipageEntry_spec (minipage : Minipage) (numEntries : UInt32) (rowNum : Int64)
    (hn : numEntries.toNat < 2 ^ 31) (hsorted : minipage.Sorted numEntries.toNat) :
    ∃ r, findMinipageEntry minipage numEntries rowNum = .ok r ∧
      (∀ i < numEntries.toNat, (minipage.entry i).Covers rowNum ↔ r = i) ∧
      ((∀ i < numEntries.toNat, ¬ (minipage.entry i).Covers rowNum) → r = invalidEntryNum) := by
  -- `numEntries - 1` in an `int` is one less, and `-1` for an empty minipage
  have hend : (numEntries - 1).toInt32.toInt = (numEntries.toNat : ℤ) - 1 := by
    rw [toInt_toInt32]
    by_cases h0 : numEntries = 0
    · subst h0
      rfl
    · have hpos : 1 ≤ numEntries.toNat := by
        have : numEntries.toNat ≠ 0 := fun h => h0 (UInt32.toNat_inj.1 h)
        omega
      rw [UInt32.toNat_sub_of_le _ _ (UInt32.le_iff_toNat_le.2 (by simpa using hpos)),
        UInt32.toNat_one, if_pos (by omega)]
      omega
  obtain ⟨r, hr, hspec⟩ := findMinipageEntryLoop_spec hsorted rowNum 0
    (numEntries - 1).toInt32.toInt (Int.le_refl 0) (by rw [hend]; omega) (by rw [hend]; omega)
    (fun i hi => by omega) (fun i hi h => by rw [hend] at h; omega)
  refine ⟨r, hr, ?_⟩
  rcases hspec with ⟨hr0, hrn, hcov⟩ | ⟨rfl, hnone⟩
  · -- the covering entry found is the only one
    refine ⟨fun i hi => ⟨fun hci => ?_, fun hri => ?_⟩, fun hnone => ?_⟩
    · have := hsorted.eq_of_covers (by omega) hi hcov hci
      omega
    · rwa [show i = r.toNat by omega]
    · exact absurd hcov (hnone _ (by omega))
  · exact ⟨fun i hi => ⟨fun hci => absurd hci (hnone i hi), fun h => by
      simp [invalidEntryNum] at h⟩, fun _ => rfl⟩

/-! ## The minipages the directory writes -/

/-- The first `n` entries of a minipage as `insert_new_entry` writes them: ranges of rows of a
segment file, in order and apart, each from a row number (positive, at most
`AOTupleId_MaxRowNum`) over a positive count of rows that is at most `AOTupleId_MaxRowNum` (the
count of the last entry's placeholder range). -/
structure Minipage.Written (minipage : Minipage) (n : ℕ) : Prop where
  length_le : n ≤ minipage.entries.length
  firstRowNum_pos : ∀ i < n, 0 < (minipage.entry i).firstRowNum.toInt
  firstRowNum_le : ∀ i < n, (minipage.entry i).firstRowNum.toInt ≤ aoTupleIdMaxRowNum.toNat
  rowCount_pos : ∀ i < n, 0 < (minipage.entry i).rowCount.toInt
  rowCount_le : ∀ i < n, (minipage.entry i).rowCount.toInt ≤ aoTupleIdMaxRowNum.toNat
  le_of_lt : ∀ j < n, ∀ i < j,
    (minipage.entry i).firstRowNum.toInt + (minipage.entry i).rowCount.toInt ≤
      (minipage.entry j).firstRowNum.toInt

/-- The ranges the directory writes end far below `INT64_MAX`. -/
theorem Minipage.Written.sorted {minipage : Minipage} {n : ℕ} (h : minipage.Written n) :
    minipage.Sorted n := by
  have hmax : (aoTupleIdMaxRowNum.toNat : ℤ) = 1099511627775 := rfl
  refine ⟨h.length_le, h.firstRowNum_pos, h.rowCount_pos, fun i hi => ?_, h.le_of_lt⟩
  have := h.firstRowNum_le i hi
  have := h.rowCount_le i hi
  omega

/-- **`find_minipage_entry` finds the covering entry.** For a minipage whose first `numEntries`
entries are as `insert_new_entry` writes them (there are at most `NUM_MINIPAGE_ENTRIES` of them,
far fewer than `2^31`), and for every row number, the search returns the number of the one entry
covering the row, or `InvalidEntryNum` when no entry covers it. -/
theorem findMinipageEntry_finds (minipage : Minipage) (numEntries : UInt32) (rowNum : Int64)
    (hn : numEntries.toNat < 2 ^ 31) (hwritten : minipage.Written numEntries.toNat) :
    ∃ r, findMinipageEntry minipage numEntries rowNum = .ok r ∧
      (∀ i < numEntries.toNat, (minipage.entry i).Covers rowNum ↔ r = i) ∧
      ((∀ i < numEntries.toNat, ¬ (minipage.entry i).Covers rowNum) → r = invalidEntryNum) :=
  findMinipageEntry_spec minipage numEntries rowNum hn hwritten.sorted

/-- Two ranges of rows and the last entry's placeholder range of `AOTupleId_MaxRowNum` rows; row
`120` is in the second. -/
theorem findMinipageEntry_finds_three_entries :
    ∃ r, findMinipageEntry ⟨[⟨1, 100⟩, ⟨101, 50⟩, ⟨1000, 1099511627775⟩]⟩ 3 120 = .ok r ∧
      (∀ i < (3 : UInt32).toNat,
        (Minipage.entry ⟨[⟨1, 100⟩, ⟨101, 50⟩, ⟨1000, 1099511627775⟩]⟩ i).Covers 120 ↔ r = i) ∧
      ((∀ i < (3 : UInt32).toNat,
        ¬ (Minipage.entry ⟨[⟨1, 100⟩, ⟨101, 50⟩, ⟨1000, 1099511627775⟩]⟩ i).Covers 120) →
        r = invalidEntryNum) :=
  findMinipageEntry_finds _ 3 120 (by decide)
    ⟨by decide, by decide, by decide, by decide, by decide, by decide⟩

end Cloudberry.AppendOnly
