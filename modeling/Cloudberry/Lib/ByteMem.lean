import Mathlib.Data.Nat.Bitwise
import Mathlib.Data.List.Basic
import Mathlib.Tactic.Ring
import Mathlib.Tactic.NormNum

/-!
# Byte-addressed memory and little-endian integers

A buffer that C code fills through casts (`*(uint32 *) &p[o] = v`, `memcpy(&p[o], src, n)`) is
modelled as a function from addresses to bytes. `Mem.write m o bs` puts the bytes `bs` at `o`,
`Mem.read m o n` takes the `n` bytes at `o`; an integer of `w` bytes is stored least significant
byte first (`leBytes`) and loaded back by `leValue`, as on the little-endian machines the code
runs on.

The lemmas are the ones a layout proof needs and no more:

* a read of what was just written gives it back (`read_write_self`), and a read that does not
  overlap a write does not see it (`read_write_of_disjoint`);
* an integer loaded where one was stored is the stored one, cut to the width
  (`load_store_self`), and a load that does not overlap a store does not see it
  (`load_store_of_disjoint`);
* reads split at any point (`read_add`, `read_eq_append_iff`), which is what lets a buffer be
  read field by field, and bytes copied from another memory read as they were there
  (`read_write_read`);
* a read-modify-write of a word (`Mem.update`, the C `*(uint32 *) &p[o] |= ...`) changes that word
  only (`load_update_self`, `load_update_of_disjoint`);
* an array of `a`-byte integers widened in place to `b`-byte ones from the last entry down
  (`Mem.widenDown`) holds the old values (`widenDown_spec`);
* a signed 64-bit integer stored in two's complement loads back (`loadInt64_storeInt64_self`);
* reads, loads and 64-bit loads inside the first `n` bytes see only those bytes (`read_congr`,
  `load_congr`, `loadInt64_congr`), which is what lets a reader that looks at a window of a file
  be compared with the memory the window was written from.
-/

namespace ByteMem

/-- A byte-addressed memory. -/
abbrev Mem := ℕ → UInt8

/-- The memory with the bytes `bs` written from address `o` on (`memcpy(&m[o], bs, |bs|)`). -/
def Mem.write (m : Mem) (o : ℕ) (bs : List UInt8) : Mem :=
  fun i => if o ≤ i ∧ i < o + bs.length then bs.getD (i - o) 0 else m i

/-- The `n` bytes of `m` from address `o` on. -/
def Mem.read (m : Mem) (o n : ℕ) : List UInt8 :=
  (List.range n).map fun i => m (o + i)

/-- The `w` bytes of `v`, least significant first; bits above `8 * w` are dropped. -/
def leBytes : ℕ → ℕ → List UInt8
  | 0, _ => []
  | w + 1, v => UInt8.ofNat (v % 256) :: leBytes w (v / 256)

/-- The natural whose little-endian bytes are `bs`. -/
def leValue : List UInt8 → ℕ
  | [] => 0
  | b :: bs => b.toNat + 256 * leValue bs

/-- Store the `w`-byte integer `v` at `o`. -/
def Mem.store (m : Mem) (o w v : ℕ) : Mem := m.write o (leBytes w v)

/-- Load the `w`-byte integer at `o`. -/
def Mem.load (m : Mem) (o w : ℕ) : ℕ := leValue (m.read o w)

/-- Read, change and write back the `w`-byte integer at `o` (`*(uintN *) &m[o] op= …`). -/
def Mem.update (m : Mem) (o w : ℕ) (f : ℕ → ℕ) : Mem := m.store o w (f (m.load o w))

/-! ## Little-endian integers -/

@[simp] theorem length_leBytes (w v : ℕ) : (leBytes w v).length = w := by
  induction w generalizing v with
  | zero => rfl
  | succ w ih => simp [leBytes, ih]

theorem leValue_leBytes (w v : ℕ) : leValue (leBytes w v) = v % 256 ^ w := by
  induction w generalizing v with
  | zero => simp [leBytes, leValue, Nat.mod_one]
  | succ w ih =>
    have hb : (UInt8.ofNat (v % 256)).toNat = v % 256 := by
      rw [UInt8.toNat_ofNat', Nat.mod_eq_of_lt (by simpa using Nat.mod_lt v (by norm_num))]
    rw [leBytes, leValue, ih, hb, pow_succ', Nat.mod_mul]

theorem leValue_lt (bs : List UInt8) : leValue bs < 256 ^ bs.length := by
  induction bs with
  | nil => simp [leValue]
  | cons b bs ih =>
    have hb : b.toNat < 256 := b.toNat_lt
    rw [leValue, List.length_cons, pow_succ]
    omega

theorem leValue_append (bs cs : List UInt8) :
    leValue (bs ++ cs) = leValue bs + 256 ^ bs.length * leValue cs := by
  induction bs with
  | nil => simp [leValue]
  | cons b bs ih =>
    rw [List.cons_append, leValue, leValue, ih, List.length_cons, pow_succ]
    ring

/-! ## Reads and writes -/

@[simp] theorem length_read (m : Mem) (o n : ℕ) : (m.read o n).length = n := by
  simp [Mem.read]

theorem write_apply_of_lt {m : Mem} {o i : ℕ} (bs : List UInt8) (h : i < o) :
    m.write o bs i = m i := by
  simp [Mem.write, show ¬ o ≤ i by omega]

theorem write_apply_of_ge {m : Mem} {o i : ℕ} {bs : List UInt8} (h : o + bs.length ≤ i) :
    m.write o bs i = m i := by
  simp [Mem.write, show ¬ i < o + bs.length by omega]

theorem write_apply_of_mem {m : Mem} {o i : ℕ} {bs : List UInt8} (h₁ : o ≤ i)
    (h₂ : i < o + bs.length) : m.write o bs i = bs.getD (i - o) 0 := by
  simp [Mem.write, h₁, h₂]

theorem read_add (m : Mem) (o n₁ n₂ : ℕ) :
    m.read o (n₁ + n₂) = m.read o n₁ ++ m.read (o + n₁) n₂ := by
  simp only [Mem.read, List.range_add, List.map_append, List.map_map]
  congr 1
  apply List.map_congr_left
  intro i _
  simp [Nat.add_assoc]

theorem read_write_self (m : Mem) (o : ℕ) (bs : List UInt8) :
    (m.write o bs).read o bs.length = bs := by
  apply List.ext_getElem (by simp)
  intro i h₁ h₂
  simp only [Mem.read, List.getElem_map, List.getElem_range]
  rw [write_apply_of_mem (by omega) (by simpa using h₂)]
  simp [List.getElem?_eq_getElem h₂]

theorem read_write_of_disjoint (m : Mem) {o o' n : ℕ} (bs : List UInt8)
    (h : o' + n ≤ o ∨ o + bs.length ≤ o') : (m.write o bs).read o' n = m.read o' n := by
  simp only [Mem.read]
  apply List.map_congr_left
  intro i hi
  rw [List.mem_range] at hi
  rcases h with h | h
  · exact write_apply_of_lt bs (by omega)
  · exact write_apply_of_ge (by omega)

/-- A read of `xs ++ ys` is a read of `xs` followed by a read of `ys` right after it. -/
theorem read_eq_append_iff (m : Mem) (o : ℕ) (xs ys : List UInt8) :
    m.read o (xs.length + ys.length) = xs ++ ys ↔
      m.read o xs.length = xs ∧ m.read (o + xs.length) ys.length = ys := by
  rw [read_add]
  constructor
  · intro h
    exact List.append_inj h (by simp)
  · rintro ⟨h₁, h₂⟩
    rw [h₁, h₂]

/-- A window of bytes copied from another memory reads as the window it was copied from. -/
theorem read_write_read (m m' : Mem) (o p : ℕ) {N k n : ℕ} (h : k + n ≤ N) :
    (m.write o (m'.read p N)).read (o + k) n = m'.read (p + k) n := by
  apply List.ext_getElem (by simp)
  intro j h₁ _
  simp only [length_read] at h₁
  simp only [Mem.read, List.getElem_map, List.getElem_range]
  rw [write_apply_of_mem (by omega) (by simp; omega)]
  simp [List.getElem?_range (show k + j < N by omega), Nat.add_assoc]

/-- A run of `w`-byte little-endian values reads back value by value. -/
theorem load_of_read_eq_flatMap {m : Mem} {o w : ℕ} {vs : List ℕ}
    (h : m.read o (w * vs.length) = vs.flatMap (leBytes w)) {i : ℕ} (hi : i < vs.length) :
    m.load (o + w * i) w = vs[i] % 256 ^ w := by
  induction vs generalizing o i with
  | nil => exact absurd hi (Nat.not_lt_zero i)
  | cons a vs ih =>
    -- split off the first value's bytes
    have hsplit : m.read o ((leBytes w a).length + (vs.flatMap (leBytes w)).length) =
        leBytes w a ++ vs.flatMap (leBytes w) := by
      have hlen : (vs.flatMap (leBytes w)).length = w * vs.length := by
        simp [List.length_flatMap, Nat.mul_comm]
      have hsum : w + w * vs.length = w * (a :: vs).length := by
        rw [List.length_cons]; ring
      rw [hlen, length_leBytes, hsum, h, List.flatMap_cons]
    obtain ⟨h₁, h₂⟩ := (read_eq_append_iff m o _ _).1 hsplit
    cases i with
    | zero =>
      rw [Nat.mul_zero, Nat.add_zero, Mem.load, ← length_leBytes w a, h₁, leValue_leBytes]
      simp
    | succ i =>
      have h₂' : m.read (o + w) (w * vs.length) = vs.flatMap (leBytes w) := by
        simpa [List.length_flatMap, Nat.mul_comm] using h₂
      rw [show o + w * (i + 1) = o + w + w * i by ring, ih h₂' (by simpa using hi)]
      simp

theorem read_write_replicate (m : Mem) {o o' k n : ℕ} (c : UInt8) (h₁ : o ≤ o')
    (h₂ : o' + n ≤ o + k) : (m.write o (List.replicate k c)).read o' n = List.replicate n c := by
  apply List.ext_getElem (by simp)
  intro j h _
  simp only [length_read] at h
  simp only [Mem.read, List.getElem_map, List.getElem_range, List.getElem_replicate]
  rw [write_apply_of_mem (by omega) (by simp; omega)]
  simp [show o' + j - o < k by omega]

theorem load_write_of_disjoint (m : Mem) {o o' w : ℕ} (bs : List UInt8)
    (h : o' + w ≤ o ∨ o + bs.length ≤ o') : (m.write o bs).load o' w = m.load o' w := by
  rw [Mem.load, read_write_of_disjoint m bs h, Mem.load]

@[simp] theorem leValue_replicate_zero (n : ℕ) : leValue (List.replicate n 0) = 0 := by
  induction n with
  | zero => rfl
  | succ n ih => simp [List.replicate_succ, leValue, ih]

theorem load_store_self (m : Mem) (o w v : ℕ) : (m.store o w v).load o w = v % 256 ^ w := by
  have h := read_write_self m o (leBytes w v)
  rw [length_leBytes] at h
  rw [Mem.load, Mem.store, h, leValue_leBytes]

theorem load_store_of_lt {m : Mem} {o w v : ℕ} (h : v < 256 ^ w) : (m.store o w v).load o w = v := by
  rw [load_store_self, Nat.mod_eq_of_lt h]

theorem load_store_of_disjoint (m : Mem) {o o' w w' : ℕ} (v : ℕ)
    (h : o' + w' ≤ o ∨ o + w ≤ o') : (m.store o w v).load o' w' = m.load o' w' := by
  rw [Mem.load, Mem.store, read_write_of_disjoint m _ (by simpa using h), Mem.load]

theorem read_store_of_disjoint (m : Mem) {o o' w n : ℕ} (v : ℕ)
    (h : o' + n ≤ o ∨ o + w ≤ o') : (m.store o w v).read o' n = m.read o' n := by
  rw [Mem.store, read_write_of_disjoint m _ (by simpa using h)]

theorem load_update_self (m : Mem) (o w : ℕ) (f : ℕ → ℕ) :
    (m.update o w f).load o w = f (m.load o w) % 256 ^ w :=
  load_store_self m o w _

theorem load_update_of_disjoint (m : Mem) {o o' w w' : ℕ} (f : ℕ → ℕ)
    (h : o' + w' ≤ o ∨ o + w ≤ o') : (m.update o w f).load o' w' = m.load o' w' :=
  load_store_of_disjoint m _ h

theorem read_update_of_disjoint (m : Mem) {o o' w n : ℕ} (f : ℕ → ℕ)
    (h : o' + n ≤ o ∨ o + w ≤ o') : (m.update o w f).read o' n = m.read o' n :=
  read_store_of_disjoint m _ h

/-! ## Locality -/

/-- A read inside the first `n` bytes sees only those bytes. -/
theorem read_congr {m m' : Mem} {n : ℕ} (h : ∀ i < n, m i = m' i) {o k : ℕ} (hk : o + k ≤ n) :
    m.read o k = m'.read o k := by
  simp only [Mem.read]
  apply List.map_congr_left
  intro i hi
  rw [List.mem_range] at hi
  exact h _ (by omega)

theorem load_congr {m m' : Mem} {n : ℕ} (h : ∀ i < n, m i = m' i) {o w : ℕ} (hw : o + w ≤ n) :
    m.load o w = m'.load o w := by
  rw [Mem.load, Mem.load, read_congr h hw]

@[simp] theorem getElem_read (m : Mem) (o n i : ℕ) (hi : i < (m.read o n).length) :
    (m.read o n)[i] = m (o + i) := by
  simp [Mem.read]

/-- A memory whose first `n` bytes are all zero loads a zero from them. -/
theorem load_eq_zero_of_read_all {m : Mem} {o n w : ℕ} (h : (m.read o n).all (· == 0) = true)
    (hw : w ≤ n) : m.load o w = 0 := by
  have hsplit : m.read o n = m.read o w ++ m.read (o + w) (n - w) := by
    rw [← read_add, Nat.add_sub_cancel' hw]
  rw [hsplit, List.all_append, Bool.and_eq_true] at h
  have hzero : m.read o w = List.replicate w 0 := by
    rw [List.eq_replicate_iff]
    refine ⟨length_read m o w, fun b hb => ?_⟩
    simpa using List.all_eq_true.mp h.1 b hb
  rw [Mem.load, hzero, leValue_replicate_zero]

/-! ## Widening a packed array in place -/

/-- Rewrite the entries `r, r - 1, …, 0` of an array of `a`-byte integers at `0` as `b`-byte
integers, from the last entry down, in the same memory: the C loop
`for (i = r; i >= 0; i--) store(b * i, load(a * i))`. -/
def Mem.widenDown (m : Mem) (a b : ℕ) : ℕ → Mem
  | 0 => m.store 0 b (m.load 0 a)
  | r + 1 => (m.store (b * (r + 1)) b (m.load (a * (r + 1)) a)).widenDown a b r

/-- Widening from the last entry down never overwrites an entry before it is read: every entry
`i ≤ r` holds its old value, and the memory from entry `r + 1` on is untouched. -/
theorem widenDown_spec {a b : ℕ} (hab : a ≤ b) (r : ℕ) :
    ∀ m : Mem, (∀ i ≤ r, (m.widenDown a b r).load (b * i) b = m.load (a * i) a) ∧
      ∀ o w, b * (r + 1) ≤ o → (m.widenDown a b r).load o w = m.load o w := by
  -- the entry that is read at step `i` lies below the bytes written so far
  have hfit : ∀ (m : Mem) o, m.load o a < 256 ^ b := fun m o =>
    lt_of_lt_of_le (by simpa [Mem.load] using leValue_lt (m.read o a))
      (Nat.pow_le_pow_right (by norm_num) hab)
  induction r with
  | zero =>
    intro m
    refine ⟨fun i hi => ?_, fun o w ho => ?_⟩
    · obtain rfl : i = 0 := by omega
      simp [Mem.widenDown, load_store_of_lt (hfit m 0)]
    · exact load_store_of_disjoint m _ (.inr (by simpa using ho))
  | succ r ih =>
    intro m
    set m' := m.store (b * (r + 1)) b (m.load (a * (r + 1)) a)
    obtain ⟨hlow, hhigh⟩ := ih m'
    have hnext : b * (r + 1 + 1) = b * (r + 1) + b := Nat.mul_succ b (r + 1)
    refine ⟨fun i hi => ?_, fun o w ho => ?_⟩
    · rcases Nat.lt_or_ge i (r + 1) with hi' | hi'
      · -- entry `i` was read before anything was written at or below its end
        have hend : a * (i + 1) ≤ b * (r + 1) := Nat.mul_le_mul hab hi'
        rw [Nat.mul_succ] at hend
        rw [Mem.widenDown, hlow i (by omega)]
        exact load_store_of_disjoint m _ (.inl hend)
      · obtain rfl : i = r + 1 := by omega
        rw [Mem.widenDown, hhigh _ _ le_rfl]
        exact load_store_of_lt (hfit m _)
    · rw [hnext] at ho
      rw [Mem.widenDown, hhigh _ _ (by omega)]
      exact load_store_of_disjoint m _ (.inr ho)

/-! ## Signed 64-bit integers -/

/-- `*(int64 *) &m[o] = v`: the two's complement bytes of `v`. -/
def Mem.storeInt64 (m : Mem) (o : ℕ) (v : Int64) : Mem := m.store o 8 v.toUInt64.toNat

/-- `*(int64 *) &m[o]`. -/
def Mem.loadInt64 (m : Mem) (o : ℕ) : Int64 := (UInt64.ofNat (m.load o 8)).toInt64

theorem loadInt64_congr {m m' : Mem} {n : ℕ} (h : ∀ i < n, m i = m' i) {o : ℕ} (ho : o + 8 ≤ n) :
    m.loadInt64 o = m'.loadInt64 o := by
  rw [Mem.loadInt64, Mem.loadInt64, load_congr h ho]

theorem loadInt64_storeInt64_self (m : Mem) (o : ℕ) (v : Int64) :
    (m.storeInt64 o v).loadInt64 o = v := by
  have hv : v.toUInt64.toNat < 256 ^ 8 := by simpa using v.toUInt64.toNat_lt
  simp [Mem.loadInt64, Mem.storeInt64, load_store_of_lt hv]

theorem load_storeInt64_of_disjoint (m : Mem) {o o' w : ℕ} (v : Int64)
    (h : o' + w ≤ o ∨ o + 8 ≤ o') : (m.storeInt64 o v).load o' w = m.load o' w :=
  load_store_of_disjoint m _ h

theorem read_storeInt64_of_disjoint (m : Mem) {o o' n : ℕ} (v : Int64)
    (h : o' + n ≤ o ∨ o + 8 ≤ o') : (m.storeInt64 o v).read o' n = m.read o' n :=
  read_store_of_disjoint m _ h

theorem loadInt64_store_of_disjoint (m : Mem) {o o' w : ℕ} (v : ℕ)
    (h : o' + 8 ≤ o ∨ o + w ≤ o') : (m.store o w v).loadInt64 o' = m.loadInt64 o' := by
  rw [Mem.loadInt64, load_store_of_disjoint m _ h, Mem.loadInt64]

end ByteMem
