import Cloudberry.Lib.ByteMem

/-!
# Bits of numbers and of byte buffers, most significant first

A bit stream that packs values into bytes most significant bit first writes a `k`-bit value `v`
as `msb k v`, the bits `k - 1, …, 0` of `v`, and reads `k` bits back by shifting each into an
accumulator, `v = v * 2 + b` (`ofMsbFrom`). In a byte buffer, bit `q` of the stream is bit
`7 - q % 8` of byte `q / 8` (`Mem.bitAt`), and setting it is an `or` into that byte
(`Mem.orBit`).

* Reading back the bits of a value gives the value cut to its width (`ofMsbFrom_msb`).
* Setting a bit sets that bit and no other (`bitAt_orBit`).
* Bytes copied or zeroed carry their bits (`bitAt_write_read`, `bitAt_write_replicate_zero`),
  and a write leaves the bits of other bytes alone (`bitAt_write_of_lt`).
-/

namespace Bits

/-- The low `k` bits of `v`, most significant first. -/
def msb : ℕ → ℕ → List Bool
  | 0, _ => []
  | k + 1, v => v.testBit k :: msb k v

/-- Shift the bits into the accumulator `acc`, most significant first. -/
def ofMsbFrom (acc : ℕ) (bs : List Bool) : ℕ := bs.foldl (fun v b => v * 2 + b.toNat) acc

@[simp] theorem length_msb (k v : ℕ) : (msb k v).length = k := by
  induction k with
  | zero => rfl
  | succ k ih => simp [msb, ih]

theorem msb_congr {k v w : ℕ} (h : ∀ j < k, v.testBit j = w.testBit j) : msb k v = msb k w := by
  induction k with
  | zero => rfl
  | succ k ih =>
    rw [msb, msb, h k (Nat.lt_succ_self k), ih fun j hj => h j (Nat.lt_succ_of_lt hj)]

/-- Only the low `k` bits of a value are written. -/
@[simp] theorem msb_mod_two_pow (k v : ℕ) : msb k (v % 2 ^ k) = msb k v :=
  msb_congr fun j hj => by simp [Nat.testBit_mod_two_pow, hj]

theorem ofMsbFrom_cons (acc : ℕ) (b : Bool) (bs : List Bool) :
    ofMsbFrom acc (b :: bs) = ofMsbFrom (acc * 2 + b.toNat) bs := rfl

/-- Bit `k` of `v` on top of its low `k` bits is `v` cut to `k + 1` bits. -/
theorem mod_two_pow_succ_eq (v k : ℕ) :
    v % 2 ^ (k + 1) = (v.testBit k).toNat * 2 ^ k + v % 2 ^ k := by
  have hbit : (v.testBit k).toNat = v / 2 ^ k % 2 := by
    rw [Nat.testBit_eq_decide_div_mod_eq]
    rcases Nat.mod_two_eq_zero_or_one (v / 2 ^ k) with h | h <;> simp [h]
  rw [hbit, Nat.mod_pow_succ, Nat.mul_comm (2 ^ k)]
  omega

theorem ofMsbFrom_msb (acc k v : ℕ) : ofMsbFrom acc (msb k v) = acc * 2 ^ k + v % 2 ^ k := by
  induction k generalizing acc with
  | zero => simp [msb, ofMsbFrom, Nat.mod_one]
  | succ k ih =>
    rw [msb, ofMsbFrom_cons, ih, mod_two_pow_succ_eq v k, pow_succ]
    ring

theorem ofMsbFrom_msb_of_lt {k v : ℕ} (hv : v < 2 ^ k) : ofMsbFrom 0 (msb k v) = v := by
  rw [ofMsbFrom_msb, Nat.mod_eq_of_lt hv]
  simp

end Bits

namespace ByteMem

/-- Bit `q` of a buffer read as a stream: bit `7 - q % 8` of byte `q / 8`. -/
def Mem.bitAt (m : Mem) (q : ℕ) : Bool := (m (q / 8)).toNat.testBit (7 - q % 8)

/-- `m[o] |= 1 << j`. -/
def Mem.orBit (m : Mem) (o j : ℕ) : Mem := m.write o [UInt8.ofNat ((m o).toNat ||| 2 ^ j)]

theorem bitAt_write_of_lt {m : Mem} {o q : ℕ} (bs : List UInt8) (h : 8 * (o + bs.length) ≤ q ∨
    q < 8 * o) : (m.write o bs).bitAt q = m.bitAt q := by
  have hbyte : m.write o bs (q / 8) = m (q / 8) := by
    rcases h with h | h
    · exact write_apply_of_ge (by omega)
    · exact write_apply_of_lt bs (by omega)
  simp only [Mem.bitAt, hbyte]

/-- Setting bit `b` of byte `o` sets stream bit `8 * o + b` and no other. -/
theorem bitAt_orBit (m : Mem) {o b : ℕ} (hb : b < 8) (q : ℕ) :
    (m.orBit o (7 - b)).bitAt q = (m.bitAt q || decide (q = 8 * o + b)) := by
  by_cases hq : q / 8 = o
  · have hbyte : (m.orBit o (7 - b)) (q / 8) = UInt8.ofNat ((m o).toNat ||| 2 ^ (7 - b)) := by
      rw [Mem.orBit, write_apply_of_mem (by omega) (by simp; omega)]
      simp [hq]
    have hlt : (m o).toNat ||| 2 ^ (7 - b) < 2 ^ 8 :=
      Nat.or_lt_two_pow (m o).toNat_lt (Nat.pow_lt_pow_right (by decide) (by omega))
    have hiff : (7 - b = 7 - q % 8) ↔ (q = 8 * o + b) := by omega
    rw [Mem.bitAt, hbyte, UInt8.toNat_ofNat', Nat.mod_eq_of_lt (by simpa using hlt),
      Nat.testBit_or, Nat.testBit_two_pow, Mem.bitAt, hq]
    simp only [hiff]
  · have hne : q ≠ 8 * o + b := by omega
    rw [Mem.orBit, bitAt_write_of_lt _ (by simp; omega)]
    simp [hne]

theorem bitAt_write_read (m m' : Mem) {n q : ℕ} (hq : q < 8 * n) :
    (m.write 0 (m'.read 0 n)).bitAt q = m'.bitAt q := by
  have hbyte : m.write 0 (m'.read 0 n) (q / 8) = m' (q / 8) := by
    rw [write_apply_of_mem (Nat.zero_le _) (by simp; omega)]
    simp [Mem.read, List.getElem?_range (show q / 8 < n by omega)]
  simp only [Mem.bitAt, hbyte]

theorem bitAt_write_replicate_zero (m : Mem) {o n q : ℕ} (h₁ : 8 * o ≤ q) (h₂ : q < 8 * (o + n)) :
    (m.write o (List.replicate n 0)).bitAt q = false := by
  have hbyte : m.write o (List.replicate n 0) (q / 8) = 0 := by
    rw [write_apply_of_mem (by omega) (by simp; omega)]
    simp [show q / 8 - o < n by omega]
  simp [Mem.bitAt, hbyte]

end ByteMem
