import Cloudberry.Visimap.Store
import Mathlib.Data.List.AList

/-!
# Deleting through the dirty entry cache (`appendonly_visimap.c`)

A `DELETE` on an append-only table hides rows in any order. `AppendOnlyVisimapDelete` keeps one
current entry; when a row of another range comes, a changed entry is compressed and appended to a
spill file (`Stash`), and a hash table, the dirty entry cache, records where its latest copy
starts. An entry the cache knows is read back from the spill file (`Unstash`), one it does not is
read from the relation or made new (`Find`). `Finish` stores the current entry, marks its cache
entry so that no stashed copy overwrites it, and stores the latest copy of every other stashed
entry, skipping the older ones (`WriteBackStashedEntries`).

What a delete does is kept by a map from ranges to hidden sets: `Hide` adds the offset of a row
to the set of its range, `IsVisible` reads it. The main result is that the helper refines that
map (`visimapDelete_finish`): from a relation holding a map `H`, any run of calls answers as the
map does, and `Finish` leaves the relation holding, for each range, the union of `H` and the
offsets the run hid there. On the way,

* `DeleteInv` is the invariant that relates the current entry, the cache and the spill file to
  the map; `hide_inv` and `isVisible_inv` are its step lemmas and `runOps_inv` the run lemma;
* `stash_inv` and `find_inv` are the two halves of moving to another range;
* `writeBackLoop_holds` is the invariant of the write-back loop over the spill file.
-/

namespace Cloudberry.Visimap

open ByteMem Bitmapset UniqueIndex AppendOnlyVisimapEntry AppendOnlyVisimapStore

/-- `AppendOnlyVisiMapDeleteKey`: the range `(segno, firstRowNum)` of a stashed entry. -/
abbrev AppendOnlyVisiMapDeleteKey := ℤ × ℤ

/-- `AppendOnlyVisiMapDeleteData`, what the cache keeps for a range: where the latest stashed copy
of its entry starts in the spill file, and the tuple id of its row. A position is the index of a
record of the spill file; `none` is a position where no record starts, such as the
`(-1, INT64_MAX)` that `Finish` writes. -/
structure AppendOnlyVisiMapDeleteData where
  workFilePos : Option ℕ
  tupleTid : Option ℕ

/-- `AppendOnlyVisimapDelete`, with the entry and the relation of its `AppendOnlyVisimap`. A
record of the spill file is the key of an entry and the bytes of its compressed bitmap. -/
structure AppendOnlyVisimapDelete where
  visimapEntry : AppendOnlyVisimapEntry
  visimapStore : AppendOnlyVisimapStore
  dirtyEntryCache : AList fun _ : AppendOnlyVisiMapDeleteKey => AppendOnlyVisiMapDeleteData
  workfile : List (AppendOnlyVisiMapDeleteKey × List UInt8)

namespace AppendOnlyVisimapDelete

/-- `AppendOnlyVisimapDelete_Init` on a visimap with a fresh entry: an empty cache and an empty
spill file. -/
def init (visimapStore : AppendOnlyVisimapStore) : AppendOnlyVisimapDelete :=
  ⟨AppendOnlyVisimapEntry.init, visimapStore, ∅, []⟩

/-- `AppendOnlyVisimapDelete_RebuildEntry`: the entry of a range from the compressed bitmap in its
buffer, `dataSize` bytes long; it is dirty, and knows the tuple id of its row. -/
def rebuildEntry (e : AppendOnlyVisimapEntry) (segno firstRowNum : ℤ) (dataSize : ℕ)
    (tid : Option ℕ) : Except String AppendOnlyVisimapEntry := do
  let e ← readData { e with segmentFileNum := segno, firstRowNum := firstRowNum } dataSize
  pure { e with dirty := true, tupleTid := tid }

/-- `AppendOnlyVisimapDelete_Unstash`: the entry of a range read back from the record the cache
points at. -/
def unstash (d : AppendOnlyVisimapDelete) (segno firstRowNum : ℤ)
    (deleteData : AppendOnlyVisiMapDeleteData) : Except String AppendOnlyVisimapDelete := do
  let some pos := deleteData.workFilePos | throw "failed to seek visimap delete buf file"
  let some record := d.workfile[pos]? | throw "failed to read visimap delete buf file"
  let e := { d.visimapEntry with data := d.visimapEntry.data.write 0 record.2 }
  let e ← rebuildEntry e segno firstRowNum record.2.length deleteData.tupleTid
  pure { d with visimapEntry := e }

/-- `AppendOnlyVisimapDelete_Find`: the entry of the range holding a row, from the spill file when
the cache knows the range, else from the relation, else a new one. -/
def find (d : AppendOnlyVisimapDelete) (aoTupleId : AOTupleId) :
    Except String AppendOnlyVisimapDelete := do
  let firstRowNum := getFirstRowNum aoTupleId
  let key : AppendOnlyVisiMapDeleteKey := (aoTupleId.segmentFileNum, firstRowNum)
  match d.dirtyEntryCache.lookup key with
  | some r => d.unstash key.1 key.2 r
  | none =>
    match ← AppendOnlyVisimapStore.find d.visimapStore aoTupleId.segmentFileNum firstRowNum
        d.visimapEntry with
    | some e => pure { d with visimapEntry := e }
    | none => pure { d with visimapEntry := d.visimapEntry.new aoTupleId }

/-- `AppendOnlyVisimapDelete_Stash`: the entry compressed and appended to the spill file, with the
cache pointing at the new record; the entry is clean afterwards. -/
def stash (d : AppendOnlyVisimapDelete) : Except String AppendOnlyVisimapDelete := do
  let key : AppendOnlyVisiMapDeleteKey :=
    (d.visimapEntry.segmentFileNum, d.visimapEntry.firstRowNum)
  let (size, e) ← d.visimapEntry.writeData
  let offset := d.workfile.length
  pure { d with
    visimapEntry := { e with dirty := false }
    dirtyEntryCache := d.dirtyEntryCache.insert key ⟨some offset, e.tupleTid⟩
    workfile := d.workfile ++ [(key, e.data.read 0 size)] }

/-- `AppendOnlyVisimapDelete_LoadTuple`: the entry covering a row made current, the changed
entry it replaces stashed first. -/
def loadTuple (d : AppendOnlyVisimapDelete) (aoTupleId : AOTupleId) :
    Except String AppendOnlyVisimapDelete :=
  if d.visimapEntry.coversTuple aoTupleId then pure d
  else do
    let d ← if d.visimapEntry.hasChanged then d.stash else pure d
    d.find aoTupleId

/-- `AppendOnlyVisimapDelete_Hide`. -/
def hide (d : AppendOnlyVisimapDelete) (aoTupleId : AOTupleId) :
    Except String (TMResult × AppendOnlyVisimapDelete) := do
  let d ← d.loadTuple aoTupleId
  let (result, e) := d.visimapEntry.hideTuple aoTupleId
  pure (result, { d with visimapEntry := e })

/-- `AppendOnlyVisimapDelete_IsVisible`. -/
def isVisible (d : AppendOnlyVisimapDelete) (aoTupleId : AOTupleId) :
    Except String (Bool × AppendOnlyVisimapDelete) := do
  let d ← d.loadTuple aoTupleId
  pure (d.visimapEntry.isVisible aoTupleId, d)

/-- One pass of the loop of `AppendOnlyVisimapDelete_WriteBackStashedEntries`, on the record at
`currentPos`: it is read into the entry's buffer, and stored when the cache points at it. -/
def writeBackRecord (d : AppendOnlyVisimapDelete) (currentPos : ℕ)
    (record : AppendOnlyVisiMapDeleteKey × List UInt8) : Except String AppendOnlyVisimapDelete := do
  let d := { d with
    visimapEntry := { d.visimapEntry with data := d.visimapEntry.data.write 0 record.2 } }
  let some deleteData := d.dirtyEntryCache.lookup record.1
    | throw s!"Found a stashed visimap entry without corresponding meta data: offset {currentPos}"
  if deleteData.workFilePos = some currentPos then
    let e ← rebuildEntry d.visimapEntry record.1.1 record.1.2 record.2.length deleteData.tupleTid
    let (rel, e) ← AppendOnlyVisimapStore.store d.visimapStore e
    pure { d with visimapEntry := e, visimapStore := rel }
  else pure d

/-- The loop of `AppendOnlyVisimapDelete_WriteBackStashedEntries`, from the record at
`currentPos` on. -/
def writeBackLoop (d : AppendOnlyVisimapDelete) (currentPos : ℕ) :
    List (AppendOnlyVisiMapDeleteKey × List UInt8) → Except String AppendOnlyVisimapDelete
  | [] => pure d
  | record :: records => do
    let d ← d.writeBackRecord currentPos record
    d.writeBackLoop (currentPos + 1) records

/-- `AppendOnlyVisimapDelete_WriteBackStashedEntries`. -/
def writeBackStashedEntries (d : AppendOnlyVisimapDelete) : Except String AppendOnlyVisimapDelete :=
  if d.dirtyEntryCache.entries.length = 0 then pure d
  else d.writeBackLoop 0 d.workfile

/-- The first part of `AppendOnlyVisimapDelete_Finish`: a changed current entry is stored, and the
cache entry of its range points nowhere so that no stashed copy overwrites it. -/
def storeCurrentEntry (d : AppendOnlyVisimapDelete) : Except String AppendOnlyVisimapDelete :=
  if d.visimapEntry.hasChanged then do
    let (rel, e) ← AppendOnlyVisimapStore.store d.visimapStore d.visimapEntry
    let key : AppendOnlyVisiMapDeleteKey := (e.segmentFileNum, e.firstRowNum)
    let cache := match d.dirtyEntryCache.lookup key with
      | some _ => d.dirtyEntryCache.insert key ⟨none, none⟩
      | none => d.dirtyEntryCache
    pure { d with visimapEntry := e, visimapStore := rel, dirtyEntryCache := cache }
  else pure d

/-- `AppendOnlyVisimapDelete_Finish`. -/
def finish (d : AppendOnlyVisimapDelete) : Except String AppendOnlyVisimapDelete := do
  let d ← d.storeCurrentEntry
  d.writeBackStashedEntries

end AppendOnlyVisimapDelete

/-! ## Runs of calls -/

/-- A call on the delete helper. -/
inductive DeleteOp
  | hide (aoTupleId : AOTupleId)
  | isVisible (aoTupleId : AOTupleId)

/-- What a call returns. -/
inductive DeleteAnswer
  | hide (result : TMResult)
  | isVisible (visible : Bool)

namespace AppendOnlyVisimapDelete

/-- One call. -/
def step (d : AppendOnlyVisimapDelete) :
    DeleteOp → Except String (DeleteAnswer × AppendOnlyVisimapDelete)
  | .hide aoTupleId => do
    let (result, d) ← d.hide aoTupleId
    pure (.hide result, d)
  | .isVisible aoTupleId => do
    let (visible, d) ← d.isVisible aoTupleId
    pure (.isVisible visible, d)

/-- A run of calls, in order. -/
def runOps (d : AppendOnlyVisimapDelete) :
    List DeleteOp → Except String (List DeleteAnswer × AppendOnlyVisimapDelete)
  | [] => pure ([], d)
  | op :: ops => do
    let (answer, d) ← d.step op
    let (answers, d) ← d.runOps ops
    pure (answer :: answers, d)

end AppendOnlyVisimapDelete

/-! ## The abstract delete

A delete works on a map from ranges to hidden sets. `Hide` of a row adds its offset to the set of
its range and answers whether it was not hidden yet; `IsVisible` answers the same question and
changes nothing. -/

/-- The range a row falls in. -/
def rangeOf (tupleId : AOTupleId) : ℤ × ℤ := (tupleId.segmentFileNum, getFirstRowNum tupleId)

/-- The offset of a row in its range. -/
def offsetOf (tupleId : AOTupleId) : ℕ := tupleId.rowNum % appendonlyVisimapMaxRange

namespace DeleteOp

/-- The row of a call. -/
def tupleId : DeleteOp → AOTupleId
  | hide t | isVisible t => t

/-- What a call answers on the map `H`: whether its row is not hidden. -/
def expected (H : ℤ × ℤ → Finset ℕ) (op : DeleteOp) : Bool :=
  decide (offsetOf op.tupleId ∉ H (rangeOf op.tupleId))

/-- The map after a call. -/
def apply (H : ℤ × ℤ → Finset ℕ) : DeleteOp → ℤ × ℤ → Finset ℕ
  | hide t => Function.update H (rangeOf t) (insert (offsetOf t) (H (rangeOf t)))
  | isVisible _ => H

/-- The offsets a run of calls hides in a range. -/
def hiddenOffsets (ops : List DeleteOp) (key : ℤ × ℤ) : Finset ℕ :=
  (ops.filterMap fun
    | hide t => if rangeOf t = key then some (offsetOf t) else none
    | isVisible _ => none).toFinset

/-- The answers of a run of calls, on the map `H`. -/
def expectedAnswers (H : ℤ × ℤ → Finset ℕ) : List DeleteOp → List Bool
  | [] => []
  | op :: ops => op.expected H :: expectedAnswers (op.apply H) ops

end DeleteOp

/-- The answer of a call as the abstract delete gives it: `TM_Ok`, or visible. -/
def DeleteAnswer.toBool : DeleteAnswer → Bool
  | hide result => decide (result = .ok)
  | isVisible visible => visible

open DeleteOp

theorem apply_eq_union (H : ℤ × ℤ → Finset ℕ) (op : DeleteOp) (key : ℤ × ℤ) :
    op.apply H key = H key ∪ hiddenOffsets [op] key := by
  cases op with
  | hide t =>
    by_cases hk : rangeOf t = key
    · subst hk
      rw [apply, Function.update_self, Finset.insert_eq, Finset.union_comm]
      simp [hiddenOffsets]
    · simp [apply, hiddenOffsets, hk, Function.update_of_ne (Ne.symm hk)]
  | isVisible t => simp [apply, hiddenOffsets]

theorem hiddenOffsets_cons (op : DeleteOp) (ops : List DeleteOp) (key : ℤ × ℤ) :
    hiddenOffsets (op :: ops) key = hiddenOffsets [op] key ∪ hiddenOffsets ops key := by
  simp only [hiddenOffsets, List.filterMap_cons, List.filterMap_nil]
  split <;> simp

/-- **A run of calls adds the offsets it hides to each range's set.** -/
theorem foldl_apply_eq_union (H : ℤ × ℤ → Finset ℕ) (ops : List DeleteOp) (key : ℤ × ℤ) :
    ops.foldl DeleteOp.apply H key = H key ∪ hiddenOffsets ops key := by
  induction ops generalizing H with
  | nil => simp [hiddenOffsets]
  | cons op ops ih =>
    rw [List.foldl_cons, ih, apply_eq_union, hiddenOffsets_cons op ops, Finset.union_assoc]

/-! ## The invariant of a delete -/

/-- The range of the current entry, once `Find` has made one current. -/
def AppendOnlyVisimapEntry.current (e : AppendOnlyVisimapEntry) : Option (ℤ × ℤ) :=
  if e.isValid then some e.range else none

/-- A record of the spill file hides `hidden`: `ReadData` of its bytes, in any buffer that starts
with them, gives a well-formed bitmap with those members. -/
def RecordHolds (data : List UInt8) (hidden : Finset ℕ) : Prop :=
  ∃ b : Bitmapset, BitmapInv (some b) ∧ members (some b) = hidden ∧
    ∀ (e : AppendOnlyVisimapEntry) (m : Mem), e.data = m.write 0 data →
      e.readData data.length = .ok { e with bitmap := some b }

section Invariant

variable (rel₀ : AppendOnlyVisimapStore) (H₀ : ℤ × ℤ → Finset ℕ)

/-- The cache and the spill file hold the map `H` for every range but the current one `cur`: the
cache points at a record of its range, whose bitmap is `H` of the range unless the range is
current, and knows the tuple id of the range's row; a range the cache does not know, and that is
not current, has the set the relation holds; and the cache knows the range of every record. -/
structure CacheInv (H : ℤ × ℤ → Finset ℕ) (cur : Option (ℤ × ℤ))
    (cache : AList fun _ : AppendOnlyVisiMapDeleteKey => AppendOnlyVisiMapDeleteData)
    (workfile : List (AppendOnlyVisiMapDeleteKey × List UInt8)) : Prop where
  stashed : ∀ key r, cache.lookup key = some r →
    ∃ pos, ∃ hpos : pos < workfile.length, r.workFilePos = some pos ∧ workfile[pos].1 = key ∧
      r.tupleTid = rowTid rel₀ key ∧
      ∃ hidden, RecordHolds workfile[pos].2 hidden ∧ (cur ≠ some key → hidden = H key)
  not_stashed : ∀ key, key ∉ cache → cur ≠ some key → H key = H₀ key
  record_key : ∀ pos (hpos : pos < workfile.length), workfile[pos].1 ∈ cache

/-- The current entry holds `H` of its range: it is the range of some row, its bitmap is well
formed with the members `H` gives the range, and it knows the tuple id of the range's row. It is
dirty when the cache knows its range, holds the set of the relation when clean, and has a bitmap
when dirty. -/
structure EntryInv (H : ℤ × ℤ → Finset ℕ) (e : AppendOnlyVisimapEntry)
    (cache : AList fun _ : AppendOnlyVisiMapDeleteKey => AppendOnlyVisiMapDeleteData) :
    Prop where
  aligned : ∃ t : AOTupleId, e.range = rangeOf t
  bitmap_inv : BitmapInv e.bitmap
  members_eq : members e.bitmap = H e.range
  tupleTid_eq : e.tupleTid = rowTid rel₀ e.range
  dirty_of_mem : e.range ∈ cache → e.dirty = true
  clean : e.dirty = false → H e.range = H₀ e.range
  bitmap_of_dirty : e.dirty = true → e.bitmap ≠ none

/-- **The invariant of a delete** on the relation `rel₀` that held `H₀`, at the map `H`: the
relation is untouched until `Finish`, the cache and the spill file hold `H` away from the current
range, and the current entry holds it there. -/
structure DeleteInv (H : ℤ × ℤ → Finset ℕ) (d : AppendOnlyVisimapDelete) : Prop where
  store_eq : d.visimapStore = rel₀
  cache : CacheInv rel₀ H₀ H d.visimapEntry.current d.dirtyEntryCache d.workfile
  entry : d.visimapEntry.isValid = true → EntryInv rel₀ H₀ H d.visimapEntry d.dirtyEntryCache
  clean_of_invalid : d.visimapEntry.isValid = false → d.visimapEntry.dirty = false

end Invariant

/-! ## Ranges and offsets of the current entry -/

section Range

variable {e : AppendOnlyVisimapEntry} {t : AOTupleId}

theorem isValid_of_range (h : e.range = rangeOf t) : e.isValid = true := by
  simp only [AppendOnlyVisimapEntry.range, rangeOf, getFirstRowNum, Prod.mk.injEq] at h
  simp only [isValid, h.1, h.2, Bool.and_eq_true, decide_eq_true_eq]
  omega

theorem current_of_range (h : e.range = rangeOf t) : e.current = some e.range := by
  simp [AppendOnlyVisimapEntry.current, isValid_of_range h]

/-- An entry for the range of a row covers exactly the rows of that range. -/
theorem coversTuple_iff (h : e.range = rangeOf t) (t' : AOTupleId) :
    e.coversTuple t' = true ↔ rangeOf t' = e.range := by
  rw [h]
  simp only [AppendOnlyVisimapEntry.range, rangeOf, getFirstRowNum, Prod.mk.injEq] at h
  simp only [coversTuple, isValid, h.1, h.2, rangeOf, getFirstRowNum, appendonlyVisimapMaxRange,
    Bool.and_eq_true, decide_eq_true_eq, Prod.mk.injEq]
  omega

theorem getRownumOffset_eq (h : e.range = rangeOf t) : e.getRownumOffset t.rowNum = offsetOf t := by
  simp only [AppendOnlyVisimapEntry.range, rangeOf, getFirstRowNum, Prod.mk.injEq] at h
  simp only [getRownumOffset, offsetOf, h.2, appendonlyVisimapMaxRange]
  omega

theorem range_new (e : AppendOnlyVisimapEntry) (t : AOTupleId) : (e.new t).range = rangeOf t := rfl

end Range

/-! ## The cache and the spill file -/

namespace CacheInv

variable {rel₀ : AppendOnlyVisimapStore} {H₀ H : ℤ × ℤ → Finset ℕ}
  {cache : AList fun _ : AppendOnlyVisiMapDeleteKey => AppendOnlyVisiMapDeleteData}
  {workfile : List (AppendOnlyVisiMapDeleteKey × List UInt8)}

/-- What holds with no current range holds with any. -/
theorem of_none (h : CacheInv rel₀ H₀ H none cache workfile) (cur : Option (ℤ × ℤ)) :
    CacheInv rel₀ H₀ H cur cache workfile where
  stashed key r hr := by
    obtain ⟨pos, hpos, hp, hkey, htid, hidden, hrec, hH⟩ := h.stashed key r hr
    exact ⟨pos, hpos, hp, hkey, htid, hidden, hrec, fun _ => hH (by simp)⟩
  not_stashed key hkey _ := h.not_stashed key hkey (by simp)
  record_key := h.record_key

/-- The set of the current range is free. -/
theorem update (h : CacheInv rel₀ H₀ H (some k) cache workfile) (s : Finset ℕ) :
    CacheInv rel₀ H₀ (Function.update H k s) (some k) cache workfile where
  stashed key r hr := by
    obtain ⟨pos, hpos, hp, hkey, htid, hidden, hrec, hH⟩ := h.stashed key r hr
    refine ⟨pos, hpos, hp, hkey, htid, hidden, hrec, fun hne => ?_⟩
    rw [Function.update_of_ne (fun h' => hne (by rw [h']))]
    exact hH hne
  not_stashed key hkey hne := by
    rw [Function.update_of_ne (fun h' => hne (by rw [h']))]
    exact h.not_stashed key hkey hne
  record_key := h.record_key

/-- A current range the cache does not know, with the set of the relation, needs no entry. -/
theorem forget (h : CacheInv rel₀ H₀ H (some k) cache workfile) (hk : k ∉ cache)
    (hH : H k = H₀ k) : CacheInv rel₀ H₀ H none cache workfile where
  stashed key r hr := by
    obtain ⟨pos, hpos, hp, hkey, htid, hidden, hrec, hH'⟩ := h.stashed key r hr
    have hne : some k ≠ some key := by
      rintro ⟨⟩
      exact hk (AList.lookup_isSome.mp (by simp [hr]))
    exact ⟨pos, hpos, hp, hkey, htid, hidden, hrec, fun _ => hH' hne⟩
  not_stashed key hkey _ := by
    by_cases hkk : key = k
    · subst hkk; exact hH
    · exact h.not_stashed key hkey (by simpa using Ne.symm hkk)
  record_key := h.record_key

/-- **Stashing the current entry** appends a record holding its set and points the cache at it:
no range is current any more. -/
theorem stash (h : CacheInv rel₀ H₀ H (some k) cache workfile) {data : List UInt8}
    (hrec : RecordHolds data (H k)) {tid : Option ℕ} (htid : tid = rowTid rel₀ k) :
    CacheInv rel₀ H₀ H none (cache.insert k ⟨some workfile.length, tid⟩)
      (workfile ++ [(k, data)]) where
  stashed key r hr := by
    by_cases hkk : key = k
    · subst hkk
      rw [AList.lookup_insert, Option.some.injEq] at hr
      subst hr
      exact ⟨workfile.length, by simp, rfl, by simp, htid, H key, by simpa using hrec,
        fun _ => rfl⟩
    · rw [AList.lookup_insert_ne hkk] at hr
      obtain ⟨pos, hpos, hp, hkey, htid', hidden, hrec', hH⟩ := h.stashed key r hr
      have hpos' : pos < (workfile ++ [(k, data)]).length := by simp; omega
      have hget : (workfile ++ [(k, data)])[pos] = workfile[pos] := List.getElem_append_left hpos
      refine ⟨pos, hpos', hp, by rw [hget]; exact hkey, htid', hidden,
        by rw [hget]; exact hrec', fun _ => hH (by simpa using Ne.symm hkk)⟩
  not_stashed key hkey _ := by
    rw [AList.mem_insert, not_or] at hkey
    exact h.not_stashed key hkey.2 (by simpa using Ne.symm hkey.1)
  record_key pos hpos := by
    rw [AList.mem_insert]
    by_cases hp : pos < workfile.length
    · rw [List.getElem_append_left hp]
      exact Or.inr (h.record_key pos hp)
    · have hp' : pos = workfile.length := by simp at hpos; omega
      subst hp'
      simp

end CacheInv

/-! ## Hiding rows and asking for them -/

namespace AppendOnlyVisimapDelete

variable {rel₀ : AppendOnlyVisimapStore} {H₀ H : ℤ × ℤ → Finset ℕ} {d : AppendOnlyVisimapDelete}

theorem init_inv (rel₀ : AppendOnlyVisimapStore) (H₀ : ℤ × ℤ → Finset ℕ) :
    DeleteInv rel₀ H₀ H₀ (init rel₀) where
  store_eq := rfl
  cache :=
    { stashed := fun _ _ hr => by simp [init] at hr
      not_stashed := fun _ _ _ => rfl
      record_key := fun _ hpos => by simp [init] at hpos }
  entry h := by simp [init, AppendOnlyVisimapEntry.init, isValid] at h
  clean_of_invalid _ := rfl

/-- An entry for the range of a row, with the cache and the spill file holding the map, makes the
invariant. -/
theorem DeleteInv.of_entry (hstore : d.visimapStore = rel₀)
    (hc : CacheInv rel₀ H₀ H none d.dirtyEntryCache d.workfile)
    (he : EntryInv rel₀ H₀ H d.visimapEntry d.dirtyEntryCache) : DeleteInv rel₀ H₀ H d where
  store_eq := hstore
  cache := hc.of_none _
  entry _ := he
  clean_of_invalid h := by
    obtain ⟨t, ht⟩ := he.aligned
    simp [isValid_of_range ht] at h

/-- **Stashing a dirty entry** leaves no range current, the cache and the spill file holding the
map. -/
theorem stash_inv
    (hc : CacheInv rel₀ H₀ H (some d.visimapEntry.range) d.dirtyEntryCache d.workfile)
    (he : EntryInv rel₀ H₀ H d.visimapEntry d.dirtyEntryCache)
    (hdirty : d.visimapEntry.dirty = true) :
    ∃ d₁, d.stash = .ok d₁ ∧ d₁.visimapStore = d.visimapStore ∧
      CacheInv rel₀ H₀ H none d₁.dirtyEntryCache d₁.workfile ∧ d₁.visimapEntry.dirty = false := by
  obtain ⟨b, hb⟩ := Option.ne_none_iff_exists'.mp (he.bitmap_of_dirty hdirty)
  obtain ⟨size, out, hwd, hread⟩ :=
    readData_writeData hb (he.bitmap_inv.nwords_pos hb) (he.bitmap_inv b hb).1
  have hrec : RecordHolds (out.read 0 size) (H d.visimapEntry.range) := by
    refine ⟨b, hb ▸ he.bitmap_inv, by rw [← hb, he.members_eq], fun e m hdata => ?_⟩
    rw [length_read, ← hb]
    exact hread e m hdata
  refine ⟨{ d with
    visimapEntry := { d.visimapEntry with data := out, dirty := false }
    dirtyEntryCache :=
      d.dirtyEntryCache.insert d.visimapEntry.range ⟨some d.workfile.length, d.visimapEntry.tupleTid⟩
    workfile := d.workfile ++ [(d.visimapEntry.range, out.read 0 size)] },
    ?_, rfl, hc.stash hrec he.tupleTid_eq, rfl⟩
  simp [stash, hwd, AppendOnlyVisimapEntry.range]

/-- Before `Find`, `LoadTuple` stashes a dirty entry; either way no range is current. -/
theorem prepare_inv (h : DeleteInv rel₀ H₀ H d) :
    ∃ d₁, (if d.visimapEntry.hasChanged then d.stash else pure d) = .ok d₁ ∧
      d₁.visimapStore = rel₀ ∧ CacheInv rel₀ H₀ H none d₁.dirtyEntryCache d₁.workfile ∧
      d₁.visimapEntry.dirty = false := by
  cases hvalid : d.visimapEntry.isValid with
  | false =>
    have hd := h.clean_of_invalid hvalid
    have hc := h.cache
    rw [AppendOnlyVisimapEntry.current, hvalid] at hc
    exact ⟨d, by simp [hasChanged, hd], h.store_eq, hc, hd⟩
  | true =>
    have he := h.entry hvalid
    have hc := h.cache
    rw [AppendOnlyVisimapEntry.current, hvalid, if_pos rfl] at hc
    cases hd : d.visimapEntry.dirty with
    | false =>
      have hnot : d.visimapEntry.range ∉ d.dirtyEntryCache := fun hm => by
        simp [he.dirty_of_mem hm] at hd
      exact ⟨d, by simp [hasChanged, hd], h.store_eq, hc.forget hnot (he.clean hd), hd⟩
    | true =>
      obtain ⟨d₁, hs, hstore, hc₁, hclean⟩ := stash_inv hc he hd
      exact ⟨d₁, by simp [hasChanged, hd, hs], hstore.trans h.store_eq, hc₁, hclean⟩

/-- **`Find` makes the range of a row current**, from the spill file, the relation or anew, with
the entry holding the map there. -/
theorem find_inv (hrel : RelHolds rel₀ H₀)
    (hc : CacheInv rel₀ H₀ H none d.dirtyEntryCache d.workfile)
    (hclean : d.visimapEntry.dirty = false) (hstore : d.visimapStore = rel₀) (t : AOTupleId) :
    ∃ d₂, d.find t = .ok d₂ ∧ DeleteInv rel₀ H₀ H d₂ ∧ d₂.visimapEntry.range = rangeOf t := by
  cases hlookup : d.dirtyEntryCache.lookup (rangeOf t) with
  | some r =>
    -- the cache knows the range: its latest record is read back
    obtain ⟨pos, hpos, hp, -, htid, hidden, ⟨b, hinv, hmem, hread⟩, hH⟩ :=
      hc.stashed _ r hlookup
    have hrd := hread { d.visimapEntry with
      data := d.visimapEntry.data.write 0 d.workfile[pos].2
      segmentFileNum := t.segmentFileNum
      firstRowNum := getFirstRowNum t } d.visimapEntry.data rfl
    have hlookup' :
        d.dirtyEntryCache.lookup ((t.segmentFileNum : ℤ), getFirstRowNum t) = some r := hlookup
    let e₂ : AppendOnlyVisimapEntry := { d.visimapEntry with
      data := d.visimapEntry.data.write 0 d.workfile[pos].2
      segmentFileNum := t.segmentFileNum
      firstRowNum := getFirstRowNum t
      bitmap := some b
      dirty := true
      tupleTid := r.tupleTid }
    refine ⟨{ d with visimapEntry := e₂ }, ?_, DeleteInv.of_entry hstore hc ⟨⟨t, rfl⟩, hinv, ?_,
      htid, fun _ => rfl, by simp [e₂], by simp [e₂]⟩, rfl⟩
    · simp [find, hlookup', unstash, hp, List.getElem?_eq_getElem hpos, rebuildEntry, hrd, e₂]
    · rw [hmem, hH (by simp)]
      rfl
  | none =>
    have hlookup' :
        d.dirtyEntryCache.lookup ((t.segmentFileNum : ℤ), getFirstRowNum t) = none := hlookup
    have hnot : rangeOf t ∉ d.dirtyEntryCache := AList.lookup_eq_none.mp hlookup
    have hH := hc.not_stashed _ hnot (by simp)
    have hnotin : ∀ e : AppendOnlyVisimapEntry, e.range = rangeOf t →
        e.range ∈ d.dirtyEntryCache → e.dirty = true := fun e he hm => absurd (he ▸ hm) hnot
    cases htid : rowTid rel₀ (rangeOf t) with
    | some tid =>
      -- the relation has a row for the range
      obtain ⟨e, hfe, hrange, hinv, hmem, htid', hdirty⟩ :=
        find_eq_some hrel htid d.visimapEntry
      have hfe' : AppendOnlyVisimapStore.find rel₀ t.segmentFileNum (getFirstRowNum t)
          d.visimapEntry = .ok (some e) := hfe
      rw [hclean] at hdirty
      refine ⟨{ d with visimapEntry := e }, ?_, DeleteInv.of_entry hstore hc
        ⟨⟨t, hrange⟩, hinv, by rw [hmem, hrange, hH], by rw [htid', hrange, htid],
          hnotin e hrange, fun _ => by rw [hrange, hH], fun h' => by simp [hdirty] at h'⟩, hrange⟩
      simp [find, hlookup', hstore, hfe']
    | none =>
      -- neither knows the range: a new entry
      have hempty := hrel.empty_of_rowTid_eq_none htid
      have hfe : AppendOnlyVisimapStore.find rel₀ t.segmentFileNum (getFirstRowNum t)
          d.visimapEntry = .ok none := find_eq_none htid d.visimapEntry
      let e := d.visimapEntry.new t
      have hrange : e.range = rangeOf t := range_new _ _
      refine ⟨{ d with visimapEntry := e }, ?_, DeleteInv.of_entry hstore hc
        ⟨⟨t, hrange⟩, bitmapInv_none, ?_, by rw [hrange, htid]; rfl, hnotin e hrange,
          fun _ => by rw [hrange, hH], fun h' => by simp [e, new, hclean] at h'⟩, hrange⟩
      · simp [find, hlookup', hstore, hfe, e]
      · rw [hrange, hH, hempty]
        simp [e, new, members]

/-- **`LoadTuple` makes the range of a row current**, keeping the invariant. -/
theorem loadTuple_inv (hrel : RelHolds rel₀ H₀) (h : DeleteInv rel₀ H₀ H d) (t : AOTupleId) :
    ∃ d', d.loadTuple t = .ok d' ∧ DeleteInv rel₀ H₀ H d' ∧ d'.visimapEntry.range = rangeOf t := by
  by_cases hcov : d.visimapEntry.coversTuple t = true
  · have hvalid : d.visimapEntry.isValid = true := by
      simp only [coversTuple, Bool.and_eq_true] at hcov
      exact hcov.1.1.1
    obtain ⟨t₀, ht₀⟩ := (h.entry hvalid).aligned
    exact ⟨d, by simp [loadTuple, hcov], h, ((coversTuple_iff ht₀ t).mp hcov).symm⟩
  · obtain ⟨d₁, hprep, hstore, hc, hclean⟩ := prepare_inv h
    obtain ⟨d₂, hfind, h₂, hrange⟩ := find_inv hrel hc hclean hstore t
    refine ⟨d₂, ?_, h₂, hrange⟩
    simp only [loadTuple, hcov, Bool.false_eq_true, if_false]
    split_ifs at hprep ⊢
    · rw [hprep]
      exact hfind
    · rw [Except.pure_eq_ok, Except.ok.injEq] at hprep
      subst hprep
      exact hfind

/-- **`Hide` adds the row's offset to the set of its range**, and returns `TM_Ok` exactly when
the offset was not there. -/
theorem hide_inv (hrel : RelHolds rel₀ H₀) (h : DeleteInv rel₀ H₀ H d) (t : AOTupleId) :
    ∃ result d', d.hide t = .ok (result, d') ∧ DeleteInv rel₀ H₀ ((DeleteOp.hide t).apply H) d' ∧
      (result = .ok ↔ offsetOf t ∉ H (rangeOf t)) := by
  obtain ⟨d₁, hload, h₁, hrange⟩ := loadTuple_inv hrel h t
  have he := h₁.entry (isValid_of_range hrange)
  have hcov : d₁.visimapEntry.coversTuple t = true := (coversTuple_iff hrange t).mpr hrange.symm
  obtain ⟨hmem, hres⟩ := hideTuple_members hcov
  rw [getRownumOffset_eq hrange, he.members_eq, hrange] at hmem hres
  obtain ⟨e', he'⟩ : ∃ e', (d₁.visimapEntry.hideTuple t).2 = e' := ⟨_, rfl⟩
  have hfields := hideTuple_fields d₁.visimapEntry t
  rw [he'] at hfields hmem
  have hrange' : e'.range = rangeOf t := by rw [hfields]; exact hrange
  have htid' : e'.tupleTid = d₁.visimapEntry.tupleTid := by rw [hfields]
  have hdirty' : e'.dirty = true := by rw [hfields]
  have hinv' : BitmapInv e'.bitmap := he' ▸ he.bitmap_inv.hideTuple hcov
  have hcur : e'.current = some (rangeOf t) := by rw [current_of_range hrange', hrange']
  have hc := h₁.cache
  rw [current_of_range hrange, hrange] at hc
  refine ⟨(d₁.visimapEntry.hideTuple t).1, { d₁ with visimapEntry := e' },
    by simp [hide, hload, he'], ⟨h₁.store_eq, ?_, fun _ => ?_, fun hv => ?_⟩, ?_⟩
  · rw [hcur]
    exact hc.update _
  · refine ⟨⟨t, hrange'⟩, hinv', ?_, ?_, fun _ => hdirty', fun hd => by
      simp [hdirty'] at hd, fun _ => ?_⟩
    · rw [hmem, hrange', DeleteOp.apply, Function.update_self]
    · rw [htid', hrange', ← hrange]
      exact he.tupleTid_eq
    · rw [Ne, hinv'.eq_none_iff, hmem]
      exact Finset.insert_ne_empty _ _
  · simp [isValid_of_range hrange'] at hv
  · rw [hres]
    by_cases hin : offsetOf t ∈ H (rangeOf t)
    · rw [if_pos hin]
      split_ifs <;> simp [hin]
    · rw [if_neg hin]
      exact iff_of_true rfl hin

/-- **`IsVisible` answers whether the row's offset is not in the set of its range.** -/
theorem isVisible_inv (hrel : RelHolds rel₀ H₀) (h : DeleteInv rel₀ H₀ H d) (t : AOTupleId) :
    ∃ visible d', d.isVisible t = .ok (visible, d') ∧ DeleteInv rel₀ H₀ H d' ∧
      visible = decide (offsetOf t ∉ H (rangeOf t)) := by
  obtain ⟨d₁, hload, h₁, hrange⟩ := loadTuple_inv hrel h t
  have he := h₁.entry (isValid_of_range hrange)
  refine ⟨d₁.visimapEntry.isVisible t, d₁, by simp [isVisible, hload], h₁, ?_⟩
  rw [isVisible_eq, getRownumOffset_eq hrange, he.members_eq, hrange]
  simp

theorem step_inv (hrel : RelHolds rel₀ H₀) (h : DeleteInv rel₀ H₀ H d) (op : DeleteOp) :
    ∃ answer d', d.step op = .ok (answer, d') ∧ DeleteInv rel₀ H₀ (op.apply H) d' ∧
      answer.toBool = op.expected H := by
  cases op with
  | hide t =>
    obtain ⟨result, d', hh, h', hres⟩ := hide_inv hrel h t
    refine ⟨.hide result, d', by simp [step, hh], h', ?_⟩
    simp only [DeleteAnswer.toBool, expected, DeleteOp.tupleId]
    exact decide_eq_decide.mpr hres
  | isVisible t =>
    obtain ⟨visible, d', hv, h', hvis⟩ := isVisible_inv hrel h t
    exact ⟨.isVisible visible, d', by simp [step, hv], h', hvis⟩

/-- **A run of calls keeps the invariant at the map the abstract delete reaches, and answers as
it does.** -/
theorem runOps_inv (hrel : RelHolds rel₀ H₀) (h : DeleteInv rel₀ H₀ H d) (ops : List DeleteOp) :
    ∃ answers d', d.runOps ops = .ok (answers, d') ∧
      DeleteInv rel₀ H₀ (ops.foldl DeleteOp.apply H) d' ∧
      answers.map DeleteAnswer.toBool = expectedAnswers H ops := by
  induction ops generalizing H d with
  | nil => exact ⟨[], d, rfl, h, rfl⟩
  | cons op ops ih =>
    obtain ⟨answer, d₁, hstep, h₁, hanswer⟩ := step_inv hrel h op
    obtain ⟨answers, d', hrun, h', hanswers⟩ := ih h₁
    refine ⟨answer :: answers, d', by simp [runOps, hstep, hrun], h', ?_⟩
    rw [List.map_cons, hanswer, hanswers, expectedAnswers]

end AppendOnlyVisimapDelete

/-! ## Writing the stashed entries back -/

section WriteBack

variable (rel₀ : AppendOnlyVisimapStore) (H₀ H : ℤ × ℤ → Finset ℕ) (cur : Option (ℤ × ℤ))
  (cache : AList fun _ : AppendOnlyVisiMapDeleteKey => AppendOnlyVisiMapDeleteData)
  (workfile : List (AppendOnlyVisiMapDeleteKey × List UInt8))

/-- What the write-back needs of the cache and the spill file, `cur` being the range `Finish` has
stored already: where the cache points, the record has the range, holds `H` of it, and that range
is not `cur`; the cache points nowhere only for `cur`; it knows the range of every record; and
the other ranges have the set of the relation. -/
structure WriteBackInv : Prop where
  stashed : ∀ key r, cache.lookup key = some r → ∀ pos, r.workFilePos = some pos →
    ∃ hpos : pos < workfile.length, workfile[pos].1 = key ∧ r.tupleTid = rowTid rel₀ key ∧
      RecordHolds workfile[pos].2 (H key) ∧ cur ≠ some key
  invalidated : ∀ key r, cache.lookup key = some r → r.workFilePos = none → cur = some key
  record_key : ∀ pos (hpos : pos < workfile.length), workfile[pos].1 ∈ cache
  not_stashed : ∀ key, key ∉ cache → cur ≠ some key → H key = H₀ key

/-- The ranges stored once the write-back has passed the records before `pos`: `cur`, and those
whose latest record lies before `pos`. -/
def WriteBackDone (pos : ℕ) (key : ℤ × ℤ) : Prop :=
  cur = some key ∨ ∃ r q, cache.lookup key = some r ∧ r.workFilePos = some q ∧ q < pos

/-- The invariant of the write-back loop before the record at `pos`: the relation holds `H` for
the ranges stored so far and `H₀` for the others, whose rows are where they were. -/
def LoopInv (pos : ℕ) (rel : AppendOnlyVisimapStore) : Prop :=
  ∃ G, RelHolds rel G ∧ (∀ key, WriteBackDone cur cache pos key → G key = H key) ∧
    ∀ key, ¬ WriteBackDone cur cache pos key → G key = H₀ key ∧ rowTid rel key = rowTid rel₀ key

variable {rel₀ H₀ H cur cache workfile}

open AppendOnlyVisimapDelete

theorem CacheInv.writeBackInv (h : CacheInv rel₀ H₀ H none cache workfile) :
    WriteBackInv rel₀ H₀ H none cache workfile where
  stashed key r hr pos hp := by
    obtain ⟨pos', hpos, hp', hkey, htid, hidden, hrec, hH⟩ := h.stashed key r hr
    obtain rfl : pos' = pos := Option.some.inj (hp'.symm.trans hp)
    exact ⟨hpos, hkey, htid, hH (by simp) ▸ hrec, by simp⟩
  invalidated key r hr hp := by
    obtain ⟨pos, -, hp', -⟩ := h.stashed key r hr
    simp [hp] at hp'
  record_key := h.record_key
  not_stashed key hkey _ := h.not_stashed key hkey (by simp)

/-- Passing the record at `pos` adds at most the range of that record to the stored ones. -/
theorem writeBackDone_succ (h : WriteBackInv rel₀ H₀ H cur cache workfile) {pos : ℕ}
    (hpos : pos < workfile.length) {key : ℤ × ℤ}
    (hdone : WriteBackDone cur cache (pos + 1) key) :
    WriteBackDone cur cache pos key ∨
      workfile[pos].1 = key ∧ (cache.lookup key).bind (·.workFilePos) = some pos := by
  rcases hdone with hcur | ⟨r, q, hr, hq, hlt⟩
  · exact Or.inl (Or.inl hcur)
  · rcases Nat.lt_succ_iff_lt_or_eq.mp hlt with hlt | rfl
    · exact Or.inl (Or.inr ⟨r, q, hr, hq, hlt⟩)
    · obtain ⟨_, hkey, -⟩ := h.stashed key r hr q hq
      exact Or.inr ⟨hkey, by simp [hr, hq]⟩

/-- **The step of the write-back loop**: the record at `pos` is stored when it is the latest copy
of its entry, and skipped otherwise. -/
theorem writeBackRecord_inv (h : WriteBackInv rel₀ H₀ H cur cache workfile)
    {d : AppendOnlyVisimapDelete} (hcache : d.dirtyEntryCache = cache) {pos : ℕ}
    (hpos : pos < workfile.length) (hloop : LoopInv rel₀ H₀ H cur cache pos d.visimapStore) :
    ∃ d', d.writeBackRecord pos workfile[pos] = .ok d' ∧ d'.dirtyEntryCache = cache ∧
      LoopInv rel₀ H₀ H cur cache (pos + 1) d'.visimapStore := by
  obtain ⟨G, hG, hdone, hnot⟩ := hloop
  obtain ⟨⟨key, data⟩, hrecord⟩ : ∃ record, workfile[pos] = record := ⟨_, rfl⟩
  have hkeymem := h.record_key pos hpos
  rw [hrecord] at hkeymem
  obtain ⟨r, hr⟩ := Option.isSome_iff_exists.mp (AList.lookup_isSome.mpr hkeymem)
  -- the entry's buffer holds the record from here on
  let d₀ : AppendOnlyVisimapDelete := { d with
    visimapEntry := { d.visimapEntry with data := d.visimapEntry.data.write 0 data } }
  have hr₀ : d.dirtyEntryCache.lookup key = some r := by rw [hcache]; exact hr
  by_cases hlatest : r.workFilePos = some pos
  · obtain ⟨_, -, htid, ⟨b, hinv, hmem, hread⟩, hcur⟩ := h.stashed key r hr pos hlatest
    simp only [hrecord] at hread
    have hnd : ¬ WriteBackDone cur cache pos key := by
      rintro (hc | ⟨r', q, hr', hq, hlt⟩)
      · exact hcur hc
      · rw [hr, Option.some.injEq] at hr'
        subst hr'
        rw [hlatest, Option.some.injEq] at hq
        omega
    let e : AppendOnlyVisimapEntry := { d₀.visimapEntry with
      segmentFileNum := key.1, firstRowNum := key.2, bitmap := some b, dirty := true,
      tupleTid := r.tupleTid }
    have hrebuild : rebuildEntry d₀.visimapEntry key.1 key.2 data.length r.tupleTid = .ok e := by
      have := hread { d₀.visimapEntry with segmentFileNum := key.1, firstRowNum := key.2 }
        d.visimapEntry.data rfl
      simp [rebuildEntry, this, e]
    have hrangeE : e.range = key := rfl
    have htid' : e.tupleTid = rowTid d.visimapStore e.range := by
      rw [hrangeE, (hnot key hnd).2]
      exact htid
    obtain ⟨rel', e', hstore, -, hG', hrow⟩ := store_holds hG hinv htid'
    rw [hrangeE, show members e.bitmap = H key from hmem] at hG'
    rw [hrangeE] at hrow
    refine ⟨{ d₀ with visimapEntry := e', visimapStore := rel' }, ?_, by simp [d₀, hcache],
      Function.update G key (H key), hG', fun key' hd => ?_, fun key' hd => ?_⟩
    · rw [hrecord]
      simp [writeBackRecord, d₀, hr₀, hlatest, hrebuild, hstore]
    · by_cases hk : key' = key
      · subst hk; exact Function.update_self ..
      · rw [Function.update_of_ne hk]
        rcases writeBackDone_succ h hpos hd with hd | ⟨hk', -⟩
        · exact hdone key' hd
        · exact absurd (hrecord ▸ hk').symm hk
    · have hk : key' ≠ key := fun hk => hd (Or.inr ⟨r, pos, hk ▸ hr, hlatest, by omega⟩)
      have hd' : ¬ WriteBackDone cur cache pos key' := fun hd' => hd (by
        rcases hd' with hc | ⟨r', q, hr', hq, hlt⟩
        · exact Or.inl hc
        · exact Or.inr ⟨r', q, hr', hq, by omega⟩)
      rw [Function.update_of_ne hk, hrow key' hk]
      exact hnot key' hd'
  · -- an older copy: skipped
    refine ⟨d₀, by rw [hrecord]; simp [writeBackRecord, d₀, hr₀, hlatest], by simp [d₀, hcache], G, hG,
      fun key' hd => ?_, fun key' hd => hnot key' fun hd' => hd ?_⟩
    · rcases writeBackDone_succ h hpos hd with hd | ⟨hk', hpos'⟩
      · exact hdone key' hd
      · rw [hrecord] at hk'
        subst hk'
        simp [hr, hlatest] at hpos'
    · rcases hd' with hc | ⟨r', q, hr', hq, hlt⟩
      · exact Or.inl hc
      · exact Or.inr ⟨r', q, hr', hq, by omega⟩

/-- The write-back loop from the record at `pos` to the end of the spill file. -/
theorem writeBackLoop_inv (h : WriteBackInv rel₀ H₀ H cur cache workfile) :
    ∀ (records : List (AppendOnlyVisiMapDeleteKey × List UInt8)) (pos : ℕ)
      (d : AppendOnlyVisimapDelete), records = workfile.drop pos →
      d.dirtyEntryCache = cache → LoopInv rel₀ H₀ H cur cache pos d.visimapStore →
      ∃ d', d.writeBackLoop pos records = .ok d' ∧
        LoopInv rel₀ H₀ H cur cache workfile.length d'.visimapStore
  | [], pos, d, hrec, _, hloop => by
    have hle : workfile.length ≤ pos := List.drop_eq_nil_iff.mp hrec.symm
    refine ⟨d, rfl, ?_⟩
    obtain ⟨G, hG, hdone, hnot⟩ := hloop
    -- the records left are none: what is stored before `pos` is all that is stored
    refine ⟨G, hG, fun key hd => hdone key ?_, fun key hd => hnot key fun hd' => hd ?_⟩
    · rcases hd with hc | ⟨r, q, hr, hq, hlt⟩
      · exact Or.inl hc
      · obtain ⟨hq', -⟩ := h.stashed key r hr q hq
        exact Or.inr ⟨r, q, hr, hq, by omega⟩
    · rcases hd' with hc | ⟨r, q, hr, hq, hlt⟩
      · exact Or.inl hc
      · obtain ⟨hq', -⟩ := h.stashed key r hr q hq
        exact Or.inr ⟨r, q, hr, hq, hq'⟩
  | record :: records, pos, d, hrec, hcache, hloop => by
    have hpos : pos < workfile.length := by
      by_contra hge
      rw [List.drop_eq_nil_of_le (by omega)] at hrec
      exact List.cons_ne_nil _ _ hrec
    rw [List.drop_eq_getElem_cons hpos, List.cons.injEq] at hrec
    obtain ⟨rfl, hrest⟩ := hrec
    obtain ⟨d₁, hstep, hcache₁, hloop₁⟩ := writeBackRecord_inv h hcache hpos hloop
    obtain ⟨d', hloop', hinv'⟩ := writeBackLoop_inv h records (pos + 1) d₁ hrest hcache₁ hloop₁
    exact ⟨d', by simp [AppendOnlyVisimapDelete.writeBackLoop, hstep, hloop'], hinv'⟩

/-- Once every record is passed, the relation holds the map. -/
theorem LoopInv.relHolds (h : WriteBackInv rel₀ H₀ H cur cache workfile) {rel : AppendOnlyVisimapStore}
    (hloop : LoopInv rel₀ H₀ H cur cache workfile.length rel) : RelHolds rel H := by
  obtain ⟨G, hG, hdone, hnot⟩ := hloop
  have hGH : G = H := funext fun key => by
    by_cases hd : WriteBackDone cur cache workfile.length key
    · exact hdone key hd
    · rw [(hnot key hd).1]
      -- a range not stored is neither `cur` nor one the cache points into the spill file for
      have hcur : cur ≠ some key := fun hc => hd (Or.inl hc)
      cases hr : cache.lookup key with
      | none => exact (h.not_stashed key (AList.lookup_eq_none.mp hr) hcur).symm
      | some r =>
        cases hp : r.workFilePos with
        | none => exact absurd (h.invalidated key r hr hp) hcur
        | some q =>
          obtain ⟨hq, -⟩ := h.stashed key r hr q hp
          exact absurd (Or.inr ⟨r, q, hr, hp, hq⟩) hd
  exact hGH ▸ hG

end WriteBack

namespace AppendOnlyVisimapDelete

variable {rel₀ : AppendOnlyVisimapStore} {H₀ H : ℤ × ℤ → Finset ℕ} {d : AppendOnlyVisimapDelete}

/-- **`WriteBackStashedEntries`** from the state `Finish` leaves stores what is stashed: the
relation holds the map. -/
theorem writeBackStashedEntries_holds {cur : Option (ℤ × ℤ)}
    (h : WriteBackInv rel₀ H₀ H cur d.dirtyEntryCache d.workfile)
    (hloop : LoopInv rel₀ H₀ H cur d.dirtyEntryCache 0 d.visimapStore) :
    ∃ d', d.writeBackStashedEntries = .ok d' ∧ RelHolds d'.visimapStore H := by
  by_cases hempty : d.dirtyEntryCache.entries.length = 0
  · -- an empty cache knows no record: the spill file is empty
    have hnil : d.workfile = [] := List.eq_nil_of_length_eq_zero (by
      by_contra hne
      have hmem := h.record_key 0 (by omega)
      rw [AList.mem_keys, AList.keys, List.length_eq_zero_iff.mp hempty] at hmem
      simp at hmem)
    refine ⟨d, by simp [writeBackStashedEntries, hempty], ?_⟩
    rw [hnil] at h
    exact LoopInv.relHolds h hloop
  · obtain ⟨d', hloop', hinv⟩ := writeBackLoop_inv h d.workfile 0 d (by simp) rfl hloop
    exact ⟨d', by simp [writeBackStashedEntries, hempty, hloop'], LoopInv.relHolds h hinv⟩

/-- **`Finish` stores every changed entry**: the relation holds the map the delete reached. -/
theorem finish_holds (hrel : RelHolds rel₀ H₀) (h : DeleteInv rel₀ H₀ H d) :
    ∃ d', d.finish = .ok d' ∧ RelHolds d'.visimapStore H := by
  cases hd : d.visimapEntry.dirty with
  | false =>
    -- a clean entry holds the set of the relation: nothing to store first
    have hc : CacheInv rel₀ H₀ H none d.dirtyEntryCache d.workfile := by
      cases hvalid : d.visimapEntry.isValid with
      | false =>
        have hc := h.cache
        rwa [AppendOnlyVisimapEntry.current, hvalid] at hc
      | true =>
        have he := h.entry hvalid
        have hc := h.cache
        rw [AppendOnlyVisimapEntry.current, hvalid, if_pos rfl] at hc
        exact hc.forget (fun hm => by simp [he.dirty_of_mem hm] at hd) (he.clean hd)
    have hloop : LoopInv rel₀ H₀ H none d.dirtyEntryCache 0 d.visimapStore := by
      refine ⟨H₀, h.store_eq ▸ hrel, fun _ hdone => ?_, fun _ _ => ⟨rfl, by rw [h.store_eq]⟩⟩
      simp [WriteBackDone] at hdone
    obtain ⟨d', hwb, hholds⟩ := writeBackStashedEntries_holds hc.writeBackInv hloop
    exact ⟨d', by simp [finish, storeCurrentEntry, hasChanged, hd, hwb], hholds⟩
  | true =>
    -- a dirty entry is stored first, and its cache entry made to point nowhere
    have hvalid : d.visimapEntry.isValid = true := by
      by_contra hv
      simp [h.clean_of_invalid (by simpa using hv)] at hd
    have he := h.entry hvalid
    have hc := h.cache
    rw [AppendOnlyVisimapEntry.current, hvalid, if_pos rfl] at hc
    set k := d.visimapEntry.range with hk
    obtain ⟨rel₁, e₁, hstore, hrange, hG, hrow⟩ :=
      store_holds (h.store_eq ▸ hrel) he.bitmap_inv (by rw [he.tupleTid_eq, h.store_eq])
    let cache₁ := match d.dirtyEntryCache.lookup k with
      | some _ => d.dirtyEntryCache.insert k (⟨none, none⟩ : AppendOnlyVisiMapDeleteData)
      | none => d.dirtyEntryCache
    have hlookup : ∀ key, key ≠ k → cache₁.lookup key = d.dirtyEntryCache.lookup key := by
      intro key hne
      simp only [cache₁]
      split
      · exact AList.lookup_insert_ne hne
      · rfl
    have hmem : ∀ key, key ∈ cache₁ ↔ key ∈ d.dirtyEntryCache := by
      intro key
      simp only [cache₁]
      split
      · rename_i r hr
        rw [AList.mem_insert]
        constructor
        · rintro (rfl | hm)
          · exact AList.lookup_isSome.mp (by simp [hr])
          · exact hm
        · exact Or.inr
      · exact Iff.rfl
    have hwb : WriteBackInv rel₀ H₀ H (some k) cache₁ d.workfile :=
      { stashed := fun key r hr pos hp => by
          by_cases hkk : key = k
          · subst hkk
            simp only [cache₁] at hr
            split at hr
            · simp at hr; subst hr; simp at hp
            · simp_all
          · rw [hlookup key hkk] at hr
            obtain ⟨pos', hpos, hp', hkey, htid, hidden, hrec, hH⟩ := hc.stashed key r hr
            obtain rfl : pos' = pos := Option.some.inj (hp'.symm.trans hp)
            exact ⟨hpos, hkey, htid, hH (by simpa using Ne.symm hkk) ▸ hrec,
              by simpa using Ne.symm hkk⟩
        invalidated := fun key r hr hp => by
          by_contra hkk
          have hkk' : key ≠ k := fun h' => hkk (by rw [h'])
          rw [hlookup key hkk'] at hr
          obtain ⟨pos, -, hp', -⟩ := hc.stashed key r hr
          simp [hp] at hp'
        record_key := fun pos hpos => (hmem _).mpr (hc.record_key pos hpos)
        not_stashed := fun key hkey hne => hc.not_stashed key ((hmem key).not.mp hkey) hne }
    have hloop : LoopInv rel₀ H₀ H (some k) cache₁ 0 rel₁ := by
      refine ⟨Function.update H₀ k (H k), by rwa [he.members_eq] at hG, fun key hdone => ?_,
        fun key hdone => ?_⟩
      · rcases hdone with hc' | ⟨_, _, _, _, hlt⟩
        · rw [Option.some.inj hc']; exact Function.update_self ..
        · omega
      · have hkk : key ≠ k := fun h' => hdone (Or.inl (by rw [h']))
        exact ⟨Function.update_of_ne hkk .., by rw [hrow key hkk, h.store_eq]⟩
    obtain ⟨d', hwb', hholds⟩ := writeBackStashedEntries_holds (d := { d with
      visimapEntry := e₁, visimapStore := rel₁, dirtyEntryCache := cache₁ }) hwb hloop
    have hsc : d.storeCurrentEntry =
        .ok { d with visimapEntry := e₁, visimapStore := rel₁, dirtyEntryCache := cache₁ } := by
      have hkey : ((e₁.segmentFileNum, e₁.firstRowNum) : ℤ × ℤ) = k := hrange
      simp only [storeCurrentEntry, hasChanged, hd, if_true, hstore, Except.ok_bind,
        Except.pure_eq_ok]
      rw [hkey]
    refine ⟨d', ?_, hholds⟩
    simp only [finish, hsc, Except.ok_bind]
    exact hwb'

end AppendOnlyVisimapDelete

open AppendOnlyVisimapDelete

/-- **The delete helper refines the abstract delete.** From a relation holding the hidden map `H`,
any run of `Hide` and `IsVisible` calls succeeds and answers as the map does (`Hide` returns
`TM_Ok` exactly for a row not hidden before, `IsVisible` is false exactly for a hidden row), and
`Finish` leaves a relation with one row for every range that hides a row, holding the union of
`H` and the offsets the run hid there. -/
theorem visimapDelete_finish {rel : AppendOnlyVisimapStore} {H : ℤ × ℤ → Finset ℕ}
    (hrel : RelHolds rel H) (ops : List DeleteOp) :
    ∃ answers d, (init rel).runOps ops = .ok (answers, d) ∧
      answers.map DeleteAnswer.toBool = expectedAnswers H ops ∧
      ∃ d', d.finish = .ok d' ∧ RelHolds d'.visimapStore fun key => H key ∪ hiddenOffsets ops key := by
  obtain ⟨answers, d, hrun, hinv, hanswers⟩ := runOps_inv hrel (init_inv rel H) ops
  obtain ⟨d', hfinish, hholds⟩ := finish_holds hrel hinv
  refine ⟨answers, d, hrun, hanswers, d', hfinish, ?_⟩
  rwa [show (fun key => H key ∪ hiddenOffsets ops key) = ops.foldl DeleteOp.apply H from
    funext fun key => (foldl_apply_eq_union H ops key).symm]


/-- Hiding a row twice, asking for it, and hiding rows of a second range and of the first again,
on an empty relation. -/
theorem visimapDelete_finish_two_ranges :
    RelHolds [] (fun _ => ∅) ∧
      ∃ answers d, (init []).runOps [.hide ⟨1, 5⟩, .hide ⟨1, 5⟩, .isVisible ⟨1, 5⟩,
          .hide ⟨1, 40000⟩, .hide ⟨1, 7⟩] = .ok (answers, d) ∧
        answers.map DeleteAnswer.toBool = expectedAnswers (fun _ => ∅) [.hide ⟨1, 5⟩,
          .hide ⟨1, 5⟩, .isVisible ⟨1, 5⟩, .hide ⟨1, 40000⟩, .hide ⟨1, 7⟩] ∧
        ∃ d', d.finish = .ok d' ∧ RelHolds d'.visimapStore fun key =>
          (fun _ => (∅ : Finset ℕ)) key ∪ hiddenOffsets [.hide ⟨1, 5⟩, .hide ⟨1, 5⟩,
            .isVisible ⟨1, 5⟩, .hide ⟨1, 40000⟩, .hide ⟨1, 7⟩] key :=
  ⟨⟨unique_nil, by simp, by simp⟩, visimapDelete_finish ⟨unique_nil, by simp, by simp⟩ _⟩

end Cloudberry.Visimap
