import Mathlib.Data.List.Basic

/-!
# Tables with a unique index

A table is a list of rows, the row at position `i` having tuple id `i`, with a unique index on a
key that a row may lack (a NULL key, which conflicts with nothing). `scan` is an index scan for
one key and `conflicts` the check the index makes before a row is added.

The index keeps its invariant `Unique` when a row whose key is absent is appended
(`Unique.append`) and when a row is replaced by one with the same key (`Unique.set`); a scan for
another key does not see either change (`scan_append_of_ne`, `scan_set_of_ne`).
-/

namespace UniqueIndex

variable {α κ : Type*} (key : α → Option κ)

/-- No two rows share a key. -/
def Unique (rows : List α) : Prop :=
  ∀ (k : κ) i j (hi : i < rows.length) (hj : j < rows.length),
    key rows[i] = some k → key rows[j] = some k → i = j

variable {key}

theorem unique_nil : Unique key ([] : List α) := fun _ _ _ hi => absurd hi (Nat.not_lt_zero _)

/-- Replacing a row by one with the same key keeps the index unique. -/
theorem Unique.set {rows : List α} (hu : Unique key rows) {i : ℕ} (hi : i < rows.length)
    {row : α} (hk : key row = key rows[i]) : Unique key (rows.set i row) := by
  have hkey : ∀ j (hj : j < (rows.set i row).length),
      key (rows.set i row)[j] = key (rows.get ⟨j, by simpa using hj⟩) := fun j hj => by
    rw [List.getElem_set, List.get_eq_getElem]
    split_ifs with hij
    · subst hij; exact hk
    · rfl
  intro k a b ha hb hka hkb
  rw [hkey, List.get_eq_getElem] at hka hkb
  exact hu k a b _ _ hka hkb

/-- A row of a table with one row replaced is the new row or another row of the table. -/
theorem mem_set {rows : List α} {i : ℕ} {row x : α} (hx : x ∈ rows.set i row) :
    x = row ∨ ∃ j, ∃ hj : j < rows.length, j ≠ i ∧ rows[j] = x := by
  obtain ⟨j, hj, rfl⟩ := List.getElem_of_mem hx
  rw [List.getElem_set]
  split_ifs with hij
  · exact Or.inl rfl
  · exact Or.inr ⟨j, by simpa using hj, Ne.symm hij, rfl⟩

/-- A unique index has exactly one row for each key some row has. -/
theorem Unique.existsUnique {rows : List α} (hu : Unique key rows) {k : κ}
    (h : ∃ r ∈ rows, key r = some k) :
    ∃ i, ∃ hi : i < rows.length, key rows[i] = some k ∧
      ∀ j (hj : j < rows.length), key rows[j] = some k → j = i := by
  obtain ⟨r, hr, hk⟩ := h
  obtain ⟨i, hi, rfl⟩ := List.getElem_of_mem hr
  exact ⟨i, hi, hk, fun j hj hkj => hu k j i hj hi hkj hk⟩

variable [DecidableEq κ] (key)

/-- An index scan for `k`: the tuple id and row of the first row with key `k`. -/
def scan : List α → κ → Option (ℕ × α)
  | [], _ => none
  | row :: rows, k =>
    if key row = some k then some (0, row) else (scan rows k).map fun p => (p.1 + 1, p.2)

/-- Whether the index already holds the key of `row`. -/
def conflicts (rows : List α) (row : α) : Bool :=
  match key row with
  | some k => (scan key rows k).isSome
  | none => false

variable {key}

theorem scan_eq_some {rows : List α} {k : κ} {tid : ℕ} {r : α}
    (h : scan key rows k = some (tid, r)) :
    ∃ htid : tid < rows.length, rows[tid] = r ∧ key r = some k := by
  induction rows generalizing tid with
  | nil => simp [scan] at h
  | cons row rows ih =>
    by_cases hk : key row = some k
    · rw [scan, if_pos hk, Option.some.injEq, Prod.mk.injEq] at h
      obtain ⟨rfl, rfl⟩ := h
      exact ⟨by simp, rfl, hk⟩
    · rw [scan, if_neg hk, Option.map_eq_some_iff] at h
      obtain ⟨⟨tid', r'⟩, hs, heq⟩ := h
      simp only [Prod.mk.injEq] at heq
      obtain ⟨rfl, rfl⟩ := heq
      obtain ⟨hlt, hr, hkr⟩ := ih hs
      exact ⟨by simp [hlt], by simp [hr], hkr⟩

theorem scan_eq_none_iff {rows : List α} {k : κ} :
    scan key rows k = none ↔ ∀ r ∈ rows, key r ≠ some k := by
  induction rows with
  | nil => simp [scan]
  | cons row rows ih =>
    by_cases hk : key row = some k
    · simp [scan, hk]
    · simp [scan, hk, ih]

theorem mem_of_scan_eq_some {rows : List α} {k : κ} {tid : ℕ} {r : α}
    (h : scan key rows k = some (tid, r)) : r ∈ rows ∧ key r = some k := by
  obtain ⟨htid, rfl, hk⟩ := scan_eq_some h
  exact ⟨List.getElem_mem htid, hk⟩

theorem conflicts_of_scan_eq_none {rows : List α} {row : α} {k : κ} (hk : key row = some k)
    (h : scan key rows k = none) : conflicts key rows row = false := by
  simp [conflicts, hk, h]

/-- Appending a row whose key the index does not hold keeps it unique. -/
theorem Unique.append {rows : List α} (hu : Unique key rows) {row : α}
    (hc : conflicts key rows row = false) : Unique key (rows ++ [row]) := by
  -- a key the appended row has is the key of no other row
  have hfresh : ∀ k, key row = some k → ∀ r ∈ rows, key r ≠ some k := fun k hk => by
    rw [← scan_eq_none_iff]
    simpa [conflicts, hk] using hc
  have hget : ∀ i (hi : i < (rows ++ [row]).length),
      (∃ hi' : i < rows.length, (rows ++ [row])[i] = rows[i]) ∨
        (i = rows.length ∧ (rows ++ [row])[i] = row) := fun i hi => by
    by_cases hi' : i < rows.length
    · exact Or.inl ⟨hi', List.getElem_append_left hi'⟩
    · have hi'' : i = rows.length := by simp at hi; omega
      exact Or.inr ⟨hi'', List.getElem_concat_length hi'' hi⟩
  intro k i j hi hj hki hkj
  rcases hget i hi with ⟨hi', hri⟩ | ⟨rfl, hri⟩ <;>
    rcases hget j hj with ⟨hj', hrj⟩ | ⟨rfl, hrj⟩ <;> rw [hri] at hki <;> rw [hrj] at hkj
  · exact hu k i j hi' hj' hki hkj
  · exact absurd hki (hfresh k hkj _ (List.getElem_mem hi'))
  · exact absurd hkj (hfresh k hki _ (List.getElem_mem hj'))

/-- Past the row it replaces, a unique index holds the replaced row's key no more. -/
theorem Unique.conflicts_eraseIdx {rows : List α} (hu : Unique key rows) {i : ℕ}
    (hi : i < rows.length) {row : α} (hk : key row = key rows[i]) :
    conflicts key (rows.eraseIdx i) row = false := by
  cases hrow : key row with
  | none => simp [conflicts, hrow]
  | some k =>
    refine conflicts_of_scan_eq_none hrow (scan_eq_none_iff.mpr fun r hr hkr => ?_)
    obtain ⟨j, hj, hji, rfl⟩ := List.mem_eraseIdx_iff_getElem.mp hr
    exact hji (hu k j i hj hi hkr (hk ▸ hrow))

theorem scan_append_of_ne {rows : List α} {row : α} {k : κ} (hk : key row ≠ some k) :
    scan key (rows ++ [row]) k = scan key rows k := by
  induction rows with
  | nil => simp [scan, hk]
  | cons r rows ih =>
    by_cases hr : key r = some k
    · simp [scan, hr]
    · simp [scan, hr, ih]

theorem scan_set_of_ne {rows : List α} {i : ℕ} {row : α} {k : κ} (hi : i < rows.length)
    (hold : key rows[i] ≠ some k) (hnew : key row ≠ some k) :
    scan key (rows.set i row) k = scan key rows k := by
  induction rows generalizing i with
  | nil => simp at hi
  | cons r rows ih =>
    cases i with
    | zero =>
      simp only [List.getElem_cons_zero] at hold
      simp [scan, hold, hnew]
    | succ i =>
      have hi' : i < rows.length := by simpa using hi
      by_cases hr : key r = some k
      · simp [scan, hr]
      · simp [scan, hr, ih hi' (by simpa using hold)]

end UniqueIndex
