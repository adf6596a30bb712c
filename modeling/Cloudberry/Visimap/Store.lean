import Cloudberry.Lib.UniqueIndex
import Cloudberry.Visimap.Entry

/-!
# The visimap relation (`appendonly_visimap_store.c`)

The entries of the visibility map are rows of the `aovisimap` relation, which has a unique index
on `(segno, first_row_no)`. `Find` scans the index for a range and copies the row into the
entry with its tuple id; `Store` writes the entry over the row it was read from, or inserts a
new row for an entry that has none.

What the relation means is a map from ranges to hidden sets: `RelHolds rel H` says that each
range has at most one row, that the row of a range hides `H` of the range, and that a range that
hides something has a row. Against it,

* `find_eq_some` and `find_eq_none`: `Find` reads the hidden set of the range;
* `store_holds`: `Store` of a well-formed entry that knows its row sets the hidden set of its
  range and nothing else, and does not move the rows of other ranges.
-/

namespace Cloudberry.Visimap

open ByteMem Bitmapset UniqueIndex

/-- The range `(segno, first_row_no)` of a tuple, the key of the relation's unique index; a NULL
column gives no key. -/
def VisimapTuple.range (tuple : VisimapTuple) : Option (ℤ × ℤ) :=
  match tuple.segno, tuple.firstrownum with
  | some segno, some firstrownum => some (segno, firstrownum)
  | _, _ => none

/-- The range `(segmentFileNum, firstRowNum)` of an entry. -/
def AppendOnlyVisimapEntry.range (e : AppendOnlyVisimapEntry) : ℤ × ℤ :=
  (e.segmentFileNum, e.firstRowNum)

/-- `AppendOnlyVisimapStore`, by the live rows of its relation: the row at position `i` has tuple
id `i`. An update replaces a row in place, which is what a later scan sees of the new version. -/
abbrev AppendOnlyVisimapStore := List VisimapTuple

namespace AppendOnlyVisimapStore

/-- `CatalogTupleInsert`: a new row at the end, unless the unique index holds its range. -/
def catalogTupleInsert (rel : AppendOnlyVisimapStore) (tuple : VisimapTuple) :
    Except String AppendOnlyVisimapStore :=
  if conflicts VisimapTuple.range rel tuple then
    throw "duplicate key value violates unique constraint"
  else pure (rel ++ [tuple])

/-- `CatalogTupleUpdate`: the row at `tid` replaced. The old version is dead to the unique index,
which checks the new one against the other rows. -/
def catalogTupleUpdate (rel : AppendOnlyVisimapStore) (tid : ℕ) (tuple : VisimapTuple) :
    Except String AppendOnlyVisimapStore :=
  if tid < rel.length then
    if conflicts VisimapTuple.range (rel.eraseIdx tid) tuple then
      throw "duplicate key value violates unique constraint"
    else pure (rel.set tid tuple)
  else throw "attempted to update invisible tuple"

/-- `AppendOnlyVisimapStore_Store`: the entry written over its row, or as a new row when its tuple
id is invalid; the entry forgets the tuple id. -/
def store (rel : AppendOnlyVisimapStore) (e : AppendOnlyVisimapEntry) :
    Except String (AppendOnlyVisimapStore × AppendOnlyVisimapEntry) := do
  let (tuple, e) ← e.write
  let rel ← match e.tupleTid with
    | some tid => catalogTupleUpdate rel tid tuple
    | none => catalogTupleInsert rel tuple
  pure (rel, { e with tupleTid := none })

/-- `AppendOnlyVisimapStore_Find`: the row of a range copied into the entry, with its tuple id;
`none` when the relation has no row for the range. The index is unique, so the backward scan
meets at most one row. -/
def find (rel : AppendOnlyVisimapStore) (segmentFileNum firstRowNum : ℤ)
    (e : AppendOnlyVisimapEntry) : Except String (Option AppendOnlyVisimapEntry) :=
  match scan VisimapTuple.range rel (segmentFileNum, firstRowNum) with
  | none => pure none
  | some (tid, tuple) => do
    let e ← e.copyout tuple
    pure (some { e with tupleTid := some tid })

/-- The tuple id of the row of a range. -/
def rowTid (rel : AppendOnlyVisimapStore) (key : ℤ × ℤ) : Option ℕ :=
  (scan VisimapTuple.range rel key).map Prod.fst

end AppendOnlyVisimapStore

open AppendOnlyVisimapEntry AppendOnlyVisimapStore

/-! ## What the relation holds -/

/-- A tuple hides `hidden`: `Copyout` reads it into any entry as a well-formed bitmap with those
members. -/
def RowHolds (tuple : VisimapTuple) (hidden : Finset ℕ) : Prop :=
  ∀ e₀ : AppendOnlyVisimapEntry,
    ∃ e, e₀.copyout tuple = .ok e ∧ BitmapInv e.bitmap ∧ members e.bitmap = hidden

/-- **The relation holds the hidden map `H`**: its unique index holds, the row of a range hides
`H` of the range, and a range that hides something has a row. -/
structure RelHolds (rel : AppendOnlyVisimapStore) (H : ℤ × ℤ → Finset ℕ) : Prop where
  unique : Unique VisimapTuple.range rel
  row_holds : ∀ tuple ∈ rel, ∃ key, tuple.range = some key ∧ RowHolds tuple (H key)
  exists_row : ∀ key, H key ≠ ∅ → ∃ tuple ∈ rel, tuple.range = some key

theorem range_eq_of_copyout {e₀ e : AppendOnlyVisimapEntry} {tuple : VisimapTuple}
    (h : e₀.copyout tuple = .ok e) : tuple.range = some e.range := by
  obtain ⟨hs, hf, -⟩ := copyout_eq h
  simp [VisimapTuple.range, AppendOnlyVisimapEntry.range, hs, hf]

theorem range_eq_of_write {e e' : AppendOnlyVisimapEntry} {tuple : VisimapTuple}
    (h : e.write = .ok (tuple, e')) : tuple.range = some e.range := by
  obtain ⟨-, hs, hf⟩ := write_eq h
  simp [VisimapTuple.range, AppendOnlyVisimapEntry.range, hs, hf]

/-- What `Write` stores of a well-formed entry hides its members. -/
theorem rowHolds_of_write {e e' : AppendOnlyVisimapEntry} {tuple : VisimapTuple}
    (h : BitmapInv e.bitmap) (hw : e.write = .ok (tuple, e')) :
    RowHolds tuple (members e.bitmap) := by
  intro e₀
  obtain ⟨tuple', e'', hw', -, e₁, hcopy, hbm, -⟩ := copyout_write h e₀
  rw [hw, Except.ok.injEq, Prod.mk.injEq] at hw'
  obtain ⟨rfl, -⟩ := hw'
  exact ⟨e₁, hcopy, hbm ▸ h, by rw [hbm]⟩

namespace RelHolds

variable {rel : AppendOnlyVisimapStore} {H : ℤ × ℤ → Finset ℕ}

theorem empty_of_rowTid_eq_none (h : RelHolds rel H) {key : ℤ × ℤ}
    (hkey : rowTid rel key = none) : H key = ∅ := by
  by_contra hne
  obtain ⟨tuple, hmem, hrange⟩ := h.exists_row key hne
  rw [rowTid, Option.map_eq_none_iff, scan_eq_none_iff] at hkey
  exact hkey tuple hmem hrange

/-- A relation with one row for each range that hides something holds exactly one. -/
theorem existsUnique (h : RelHolds rel H) {key : ℤ × ℤ} (hne : H key ≠ ∅) :
    ∃ i, ∃ hi : i < rel.length, rel[i].range = some key ∧
      ∀ j (hj : j < rel.length), rel[j].range = some key → j = i :=
  h.unique.existsUnique (h.exists_row key hne)

end RelHolds

/-! ## `Find` and `Store` -/

theorem find_eq_none {rel : AppendOnlyVisimapStore} {key : ℤ × ℤ} (hkey : rowTid rel key = none)
    (e₀ : AppendOnlyVisimapEntry) : find rel key.1 key.2 e₀ = .ok none := by
  rw [rowTid, Option.map_eq_none_iff] at hkey
  simp [find, hkey]

/-- `Find` of a range with a row reads the row's hidden set into the entry, with its tuple id. -/
theorem find_eq_some {rel : AppendOnlyVisimapStore} {H : ℤ × ℤ → Finset ℕ} (h : RelHolds rel H)
    {key : ℤ × ℤ} {tid : ℕ} (hkey : rowTid rel key = some tid) (e₀ : AppendOnlyVisimapEntry) :
    ∃ e, find rel key.1 key.2 e₀ = .ok (some e) ∧ e.range = key ∧ BitmapInv e.bitmap ∧
      members e.bitmap = H key ∧ e.tupleTid = some tid ∧ e.dirty = e₀.dirty := by
  obtain ⟨⟨tid', tuple⟩, hscan, htid⟩ := Option.map_eq_some_iff.mp hkey
  obtain rfl : tid' = tid := htid
  obtain ⟨hmem, hrange⟩ := mem_of_scan_eq_some hscan
  obtain ⟨key', hrange', hholds⟩ := h.row_holds tuple hmem
  obtain rfl : key' = key := Option.some.inj (hrange'.symm.trans hrange)
  obtain ⟨e, hcopy, hinv, hmembers⟩ := hholds e₀
  obtain ⟨-, -, hdirty, -⟩ := copyout_eq hcopy
  have he : e.range = key' := Option.some.inj ((range_eq_of_copyout hcopy).symm.trans hrange)
  refine ⟨{ e with tupleTid := some tid' }, ?_, he, hinv, hmembers, rfl, hdirty⟩
  simp [find, hscan, hcopy]

section Store

variable {rel : AppendOnlyVisimapStore} {G : ℤ × ℤ → Finset ℕ} {e : AppendOnlyVisimapEntry}
  {tuple : VisimapTuple}

/-- Updating the row of the entry's range keeps the relation holding the new hidden set. -/
theorem relHolds_set (h : RelHolds rel G) {tid : ℕ} (htid : tid < rel.length)
    (hold : rel[tid].range = some e.range) (hnew : tuple.range = some e.range)
    (hholds : RowHolds tuple (members e.bitmap)) :
    RelHolds (rel.set tid tuple) (Function.update G e.range (members e.bitmap)) := by
  -- another row of the relation has another range
  have hother : ∀ j (hj : j < rel.length), j ≠ tid → ∀ key, rel[j].range = some key →
      key ≠ e.range := fun j hj hji key hkey hk =>
    hji (h.unique e.range j tid hj htid (hk ▸ hkey) hold)
  refine ⟨h.unique.set htid (hnew.trans hold.symm), fun x hx => ?_, fun key hne => ?_⟩
  · rcases mem_set hx with rfl | ⟨j, hj, hji, rfl⟩
    · exact ⟨e.range, hnew, by rw [Function.update_self]; exact hholds⟩
    · obtain ⟨key, hkey, hx⟩ := h.row_holds rel[j] (List.getElem_mem hj)
      exact ⟨key, hkey, by rw [Function.update_of_ne (hother j hj hji key hkey)]; exact hx⟩
  · by_cases hk : key = e.range
    · subst hk
      exact ⟨tuple, List.mem_iff_getElem.mpr ⟨tid, by simpa using htid, by simp⟩, hnew⟩
    · rw [Function.update_of_ne hk] at hne
      obtain ⟨x, hx, hkey⟩ := h.exists_row key hne
      obtain ⟨j, hj, rfl⟩ := List.getElem_of_mem hx
      have hji : j ≠ tid := fun hji => hk (Option.some.inj (hkey.symm.trans (hji ▸ hold)))
      refine ⟨rel[j], List.mem_iff_getElem.mpr ⟨j, by simpa using hj, ?_⟩, hkey⟩
      rw [List.getElem_set_ne (Ne.symm hji)]

/-- Inserting a row for a range the relation has no row for keeps it holding the new hidden set. -/
theorem relHolds_append (h : RelHolds rel G) (hnone : scan VisimapTuple.range rel e.range = none)
    (hnew : tuple.range = some e.range) (hholds : RowHolds tuple (members e.bitmap)) :
    RelHolds (rel ++ [tuple]) (Function.update G e.range (members e.bitmap)) := by
  have hfresh := scan_eq_none_iff.mp hnone
  refine ⟨h.unique.append (conflicts_of_scan_eq_none hnew hnone), fun x hx => ?_,
    fun key hne => ?_⟩
  · rcases List.mem_append.mp hx with hx | hx
    · obtain ⟨key, hkey, hholds'⟩ := h.row_holds x hx
      have hk : key ≠ e.range := fun hk => hfresh x hx (hk ▸ hkey)
      exact ⟨key, hkey, by rw [Function.update_of_ne hk]; exact hholds'⟩
    · rw [List.mem_singleton] at hx
      subst hx
      exact ⟨e.range, hnew, by rw [Function.update_self]; exact hholds⟩
  · by_cases hk : key = e.range
    · subst hk
      exact ⟨tuple, by simp, hnew⟩
    · rw [Function.update_of_ne hk] at hne
      obtain ⟨x, hx, hkey⟩ := h.exists_row key hne
      exact ⟨x, List.mem_append_left _ hx, hkey⟩

/-- **`Store` sets the hidden set of the entry's range.** An entry with a well-formed bitmap that
knows the tuple id of its range's row is stored without error; the relation then holds the
entry's members for its range and is unchanged elsewhere, and the rows of other ranges keep their
tuple ids. The entry keeps its range. -/
theorem store_holds (h : RelHolds rel G) (hinv : BitmapInv e.bitmap)
    (htid : e.tupleTid = rowTid rel e.range) :
    ∃ rel' e', store rel e = .ok (rel', e') ∧ e'.range = e.range ∧
      RelHolds rel' (Function.update G e.range (members e.bitmap)) ∧
      (∀ key, key ≠ e.range → rowTid rel' key = rowTid rel key) := by
  obtain ⟨tuple, e₁, hw, -⟩ := copyout_write hinv init
  have hnew := range_eq_of_write hw
  have hholds := rowHolds_of_write hinv hw
  obtain ⟨⟨data, rfl⟩, -⟩ := write_eq hw
  cases hscan : scan VisimapTuple.range rel e.range with
  | none =>
    -- no row yet: `Store` inserts one
    have htid' : e.tupleTid = none := by simp [htid, rowTid, hscan]
    refine ⟨rel ++ [tuple], { e with data := data, dirty := false, tupleTid := none }, ?_, rfl,
      relHolds_append h hscan hnew hholds, fun key hk => ?_⟩
    · simp [store, hw, htid', catalogTupleInsert, conflicts_of_scan_eq_none hnew hscan]
    · simp only [rowTid, scan_append_of_ne (fun h' => hk (Option.some.inj (h'.symm.trans hnew)))]
  | some p =>
    -- the entry was read from its range's row: `Store` updates it
    obtain ⟨tid, old⟩ := p
    have htid' : e.tupleTid = some tid := by simp [htid, rowTid, hscan]
    obtain ⟨hlt, hold, hrange⟩ := scan_eq_some hscan
    subst hold
    have hc := h.unique.conflicts_eraseIdx hlt (hnew.trans hrange.symm)
    refine ⟨rel.set tid tuple, { e with data := data, dirty := false, tupleTid := none }, ?_, rfl,
      relHolds_set h hlt hrange hnew hholds, fun key hk => ?_⟩
    · simp [store, hw, htid', catalogTupleUpdate, hlt, hc]
    · have hne : ∀ x : VisimapTuple, x.range = some e.range → x.range ≠ some key :=
        fun x hx h' => hk (Option.some.inj (h'.symm.trans hx))
      simp only [rowTid, scan_set_of_ne hlt (hne _ hrange) (hne _ hnew)]

end Store

end Cloudberry.Visimap
