import Cloudberry.DatumStream.Delta

/-!
# Bit-maps of a datum stream block

A datum stream block keeps one bit per row in its NULL bit-map. The writer
(`DatumStreamBitMapWrite`) adds the bits one at a time into the low bit first of each byte: a
pointer to the current byte and a mask of the current bit, the byte zeroed when the first of its
bits is added and a bit set by or-ing the mask in. `DatumStreamBitMapWrite_ZeroFill` starts a
bit-map with a run of zeros. The reader (`DatumStreamBitMapRead`) moves the same pointer and mask
one bit at a time.

Bit `i` of a bit-map is bit `i % 8` of byte `i / 8` (`bitOf`).

* `Holds`: what a writer's fields and buffer say about the bits added so far; `init_holds`,
  `zeroFill_holds` and `addBit_holds` show every write keeps it.
* `currentIsOn_iterate_next`: after `k + 1` steps from the start the reader sees bit `k`.
-/

namespace Cloudberry.DatumStream

open ByteMem

/-- `DatumStreamBitMap_Size`: the bytes of a bit-map of `bitCount` bits. -/
def datumStreamBitMapSize (bitCount : ℕ) : ℕ := (bitCount + 7) >>> 3

/-- Bit `i` of a bit-map in memory: bit `i % 8` of byte `i / 8`. -/
def bitOf (m : Mem) (i : ℕ) : Bool := (m (i / 8)).toNat.testBit (i % 8)

/-! ## Bytes and masks -/

theorem datumStreamBitMapSize_eq (bitCount : ℕ) :
    datumStreamBitMapSize bitCount = (bitCount + 7) / 8 := by
  rw [datumStreamBitMapSize, Nat.shiftRight_eq_div_pow]

theorem testBit_ofNat_two_pow :
    ∀ j k : Fin 8, (UInt8.ofNat (2 ^ j.val)).toNat.testBit k.val = (j.val == k.val) := by
  decide

theorem ofNat_two_pow_shiftLeft :
    ∀ j : Fin 8, UInt8.ofNat (2 ^ j.val) <<< 1 =
      if j.val = 7 then 0 else UInt8.ofNat (2 ^ (j.val + 1)) := by
  decide

theorem ofNat_two_pow_ne_zero : ∀ j : Fin 8, UInt8.ofNat (2 ^ j.val) ≠ 0 := by
  decide

theorem one_shiftLeft_ofNat : ∀ j : Fin 8, (1 : UInt8) <<< UInt8.ofNat j.val = UInt8.ofNat (2 ^ j.val) := by
  decide

/-- The bit of a byte under a one-bit mask. -/
theorem and_two_pow_ne_zero (x : UInt8) {j : ℕ} (hj : j < 8) :
    (x &&& UInt8.ofNat (2 ^ j) != 0) = x.toNat.testBit j := by
  have hlt : 2 ^ j < 256 := lt_of_lt_of_le (Nat.pow_lt_pow_right (by norm_num) hj) (by norm_num)
  have h2 : (UInt8.ofNat (2 ^ j)).toNat = 2 ^ j := UInt8.toNat_ofNat_of_lt' hlt
  rw [Bool.eq_iff_iff, bne_iff_ne, ne_eq, ← UInt8.toNat_inj, UInt8.toNat_and, h2,
    UInt8.toNat_zero, Nat.and_two_pow]
  cases x.toNat.testBit j <;> simp

theorem testBit_or_two_pow (x : UInt8) {j k : ℕ} (hj : j < 8) (hk : k < 8) :
    (x ||| UInt8.ofNat (2 ^ j)).toNat.testBit k = (x.toNat.testBit k || j == k) := by
  rw [UInt8.toNat_or, Nat.testBit_or, testBit_ofNat_two_pow ⟨j, hj⟩ ⟨k, hk⟩]

theorem write_singleton_apply (m : Mem) (o : ℕ) (b : UInt8) (i : ℕ) :
    m.write o [b] i = if i = o then b else m i := by
  by_cases h : i = o
  · subst h
    rw [write_apply_of_mem (le_refl i) (by simp), if_pos rfl]
    simp
  · rw [if_neg h]
    rcases Nat.lt_or_gt_of_ne h with hlt | hgt
    · exact write_apply_of_lt _ hlt
    · exact write_apply_of_ge (by simp; omega)

theorem bitOf_write_singleton (m : Mem) (o : ℕ) (b : UInt8) (i : ℕ) :
    bitOf (m.write o [b]) i = if i / 8 = o then b.toNat.testBit (i % 8) else bitOf m i := by
  rw [bitOf, write_singleton_apply]
  split_ifs <;> rfl

theorem bitOf_write_zero (m : Mem) (o i : ℕ) :
    bitOf (m.write o [0]) i = if i / 8 = o then false else bitOf m i := by
  rw [bitOf_write_singleton]
  simp

/-- Or-ing the mask of bit `k` into its byte turns bit `k` on and no other. -/
theorem bitOf_write_or (m : Mem) (k i : ℕ) :
    bitOf (m.write (k / 8) [m (k / 8) ||| UInt8.ofNat (2 ^ (k % 8))]) i = (bitOf m i || i == k) := by
  rw [bitOf_write_singleton]
  split_ifs with hik
  · rw [testBit_or_two_pow _ (Nat.mod_lt _ (by norm_num)) (Nat.mod_lt _ (by norm_num)), bitOf, hik]
    -- in one byte, two bits are the same bit when their offsets are
    have : (k % 8 == i % 8) = (i == k) := by
      rw [Bool.eq_iff_iff, beq_iff_eq, beq_iff_eq]
      omega
    rw [this]
  · have : i ≠ k := fun h => hik (h ▸ rfl)
    simp [this]

/-! ## Writing -/

/-- `DatumStreamBitMapWrite`, with the offset of `bytePointer` in `buffer`. -/
structure DatumStreamBitMapWrite where
  buffer : Mem
  byteBit : UInt8
  bytePointer : ℕ
  bitOnCount : ℕ
  bitCount : ℕ

namespace DatumStreamBitMapWrite

/-- `DatumStreamBitMapWrite_Init`: before the first bit. -/
def init (buffer : Mem) : DatumStreamBitMapWrite :=
  { buffer, byteBit := 0, bytePointer := 0, bitOnCount := 0, bitCount := 0 }

/-- `DatumStreamBitMapWrite_ZeroFill` of a newly initialized bit-map: `bitCount` zeros. -/
def zeroFill (bmw : DatumStreamBitMapWrite) (bitCount : ℕ) : DatumStreamBitMapWrite :=
  if 0 < bitCount then
    let newSize := datumStreamBitMapSize bitCount
    { bmw with buffer := bmw.buffer.write 0 (List.replicate newSize 0),
               byteBit := 1 <<< UInt8.ofNat ((bitCount - 1) &&& 7),
               bytePointer := newSize - 1, bitCount }
  else bmw

/-- `DatumStreamBitMapWrite_Set`: the current bit on. -/
def set (bmw : DatumStreamBitMapWrite) : DatumStreamBitMapWrite :=
  { bmw with buffer := bmw.buffer.write bmw.bytePointer [bmw.buffer bmw.bytePointer ||| bmw.byteBit],
             bitOnCount := bmw.bitOnCount + 1 }

/-- `DatumStreamBitMapWrite_AddBit`. -/
def addBit (bmw : DatumStreamBitMapWrite) (on : Bool) : DatumStreamBitMapWrite :=
  let bmw :=
    if bmw.bitCount = 0 then
      -- the first bit zeroes the first byte
      { bmw with buffer := bmw.buffer.write bmw.bytePointer [0], byteBit := 1 }
    else if bmw.byteBit <<< 1 = 0 then
      -- past the last bit of a byte: the next byte, zeroed
      { bmw with buffer := bmw.buffer.write (bmw.bytePointer + 1) [0],
                 bytePointer := bmw.bytePointer + 1, byteBit := 1 }
    else { bmw with byteBit := bmw.byteBit <<< 1 }
  let bmw := { bmw with bitCount := bmw.bitCount + 1 }
  if on then bmw.set else bmw

/-- `DatumStreamBitMapWrite_Size`. -/
def size (bmw : DatumStreamBitMapWrite) : ℕ := datumStreamBitMapSize bmw.bitCount

/-- What the writer's fields and buffer say after the bits `bits`: how many there are and how
many are on, each bit where it belongs, the rest of the last byte clear, and the cursor on the
last bit. -/
structure Holds (bmw : DatumStreamBitMapWrite) (bits : List Bool) : Prop where
  bitCount_eq : bmw.bitCount = bits.length
  bitOnCount_eq : bmw.bitOnCount = bits.count true
  bitOf_eq : ∀ i < bits.length, bitOf bmw.buffer i = bits.getD i false
  bitOf_past : ∀ i, bits.length ≤ i → i < 8 * datumStreamBitMapSize bits.length →
    bitOf bmw.buffer i = false
  bytePointer_eq : bmw.bytePointer = (bits.length - 1) / 8
  byteBit_eq : bmw.byteBit = if bits.length = 0 then 0 else UInt8.ofNat (2 ^ ((bits.length - 1) % 8))

theorem init_holds (buffer : Mem) : (init buffer).Holds [] :=
  ⟨rfl, rfl, fun _ h => absurd h (Nat.not_lt_zero _), fun i _ h => by
    simp [datumStreamBitMapSize_eq] at h, rfl, rfl⟩

theorem zeroFill_holds (buffer : Mem) (n : ℕ) :
    ((init buffer).zeroFill n).Holds (List.replicate n false) := by
  rcases Nat.eq_zero_or_pos n with rfl | hn
  · exact init_holds buffer
  have hsize := datumStreamBitMapSize_eq n
  -- every bit of the filled bytes is clear
  have hclear : ∀ i < 8 * datumStreamBitMapSize n,
      bitOf (buffer.write 0 (List.replicate (datumStreamBitMapSize n) 0)) i = false := by
    intro i hi
    rw [bitOf, write_apply_of_mem (Nat.zero_le _) (by simp; omega)]
    simp
  have hbit : (1 : UInt8) <<< UInt8.ofNat ((n - 1) &&& 7) = UInt8.ofNat (2 ^ ((n - 1) % 8)) := by
    rw [show (n - 1) &&& 7 = (n - 1) % 8 from Nat.and_two_pow_sub_one_eq_mod _ 3]
    exact one_shiftLeft_ofNat ⟨(n - 1) % 8, Nat.mod_lt _ (by omega)⟩
  constructor <;> simp only [zeroFill, if_pos hn, List.length_replicate, init]
  case bitOnCount_eq => simp [List.count_replicate]
  case bitOf_eq =>
    intro i hi
    rw [hclear i (by omega)]
    simp
  case bitOf_past => exact fun i _ hi => hclear i hi
  case bytePointer_eq => omega
  case byteBit_eq => rw [if_neg (by omega), hbit]

/-- The facts a writer must show once it has moved to bit `bits.length` and left it off. -/
theorem Holds.of_moved {bmw : DatumStreamBitMapWrite} {bits : List Bool}
    (hc : bmw.bitCount = bits.length + 1) (hon : bmw.bitOnCount = bits.count true)
    (heq : ∀ i < bits.length, bitOf bmw.buffer i = bits.getD i false)
    (hpast : ∀ i, bits.length ≤ i → i < 8 * datumStreamBitMapSize (bits.length + 1) →
      bitOf bmw.buffer i = false)
    (hp : bmw.bytePointer = bits.length / 8)
    (hb : bmw.byteBit = UInt8.ofNat (2 ^ (bits.length % 8))) :
    bmw.Holds (bits ++ [false]) where
  bitCount_eq := by simp [hc]
  bitOnCount_eq := by simp [hon, List.count_append]
  bitOf_eq i hi := by
    rcases Nat.lt_or_ge i bits.length with hlt | hge
    · rw [heq i hlt, List.getD_append _ _ _ _ hlt]
    · rw [hpast i hge (by simp at hi; rw [datumStreamBitMapSize_eq]; omega),
        List.getD_append_right _ _ _ _ hge]
      simp at hi
      simp [show i - bits.length = 0 by omega]
  bitOf_past i hi hi' := hpast i (by simp at hi; omega) (by simpa using hi')
  bytePointer_eq := by simp [hp]
  byteBit_eq := by simp [hb]

/-- `DatumStreamBitMapWrite_AddBit` of an off bit: the cursor moves to the next bit, zeroing a
new byte when it crosses into one. -/
theorem addBit_false_holds {bmw : DatumStreamBitMapWrite} {bits : List Bool} (h : bmw.Holds bits) :
    (bmw.addBit false).Holds (bits ++ [false]) := by
  have hsize := datumStreamBitMapSize_eq
  simp only [addBit, Bool.false_eq_true, if_false]
  split_ifs with h0 h1
  · -- the first bit
    have hnil : bits = [] := List.eq_nil_of_length_eq_zero (h.bitCount_eq ▸ h0)
    subst hnil
    refine Holds.of_moved (by simp [h0]) h.bitOnCount_eq (fun i hi => absurd hi (by simp))
      (fun i _ hi => ?_) (by simp [h.bytePointer_eq]) rfl
    rw [bitOf_write_zero, if_pos (by simp [h.bytePointer_eq, hsize] at hi ⊢; omega)]
  · -- the bit after the last of a byte starts the next byte
    have hpos : bits.length ≠ 0 := h.bitCount_eq ▸ h0
    have h7 : (bits.length - 1) % 8 = 7 := by
      rw [h.byteBit_eq, if_neg hpos,
        ofNat_two_pow_shiftLeft ⟨_, Nat.mod_lt _ (by norm_num)⟩] at h1
      split_ifs at h1 with h7
      · exact h7
      · exact absurd h1 (ofNat_two_pow_ne_zero ⟨_, by omega⟩)
    refine Holds.of_moved (by simp [h.bitCount_eq]) h.bitOnCount_eq (fun i hi => ?_)
      (fun i hi hi' => ?_) (by simp [h.bytePointer_eq]; omega)
      (by simp only; rw [show bits.length % 8 = 0 by omega]; rfl)
    · rw [bitOf_write_zero, if_neg (by rw [h.bytePointer_eq]; omega), h.bitOf_eq i hi]
    · rw [bitOf_write_zero, if_pos (by rw [h.bytePointer_eq, hsize] at *; omega)]
  · -- the next bit of the same byte
    have hpos : bits.length ≠ 0 := h.bitCount_eq ▸ h0
    have h7 : (bits.length - 1) % 8 ≠ 7 := by
      intro h7
      rw [h.byteBit_eq, if_neg hpos,
        ofNat_two_pow_shiftLeft ⟨_, Nat.mod_lt _ (by norm_num)⟩, if_pos h7] at h1
      exact h1 rfl
    refine Holds.of_moved (by simp [h.bitCount_eq]) h.bitOnCount_eq h.bitOf_eq
      (fun i hi hi' => h.bitOf_past i hi (by rw [hsize] at *; omega))
      (by simp [h.bytePointer_eq]; omega) ?_
    simp only
    rw [h.byteBit_eq, if_neg hpos, ofNat_two_pow_shiftLeft ⟨_, Nat.mod_lt _ (by norm_num)⟩,
      if_neg h7]
    congr 2
    dsimp only
    omega

theorem addBit_true (bmw : DatumStreamBitMapWrite) : bmw.addBit true = (bmw.addBit false).set := by
  simp [addBit]

/-- `DatumStreamBitMapWrite_Set` on a bit just added off turns it on. -/
theorem set_holds {bmw : DatumStreamBitMapWrite} {bits : List Bool}
    (h : bmw.Holds (bits ++ [false])) : bmw.set.Holds (bits ++ [true]) := by
  have hp : bmw.bytePointer = bits.length / 8 := by simpa using h.bytePointer_eq
  have hb : bmw.byteBit = UInt8.ofNat (2 ^ (bits.length % 8)) := by simpa using h.byteBit_eq
  have hbit : ∀ i, bitOf bmw.set.buffer i = (bitOf bmw.buffer i || i == bits.length) := by
    intro i
    simp only [set, hp, hb]
    exact bitOf_write_or _ _ _
  constructor
  · simpa [set] using h.bitCount_eq
  · simpa [set, List.count_append] using h.bitOnCount_eq
  · intro i hi
    rw [hbit, h.bitOf_eq i (by simpa using hi)]
    rcases Nat.lt_or_ge i bits.length with hlt | hge
    · rw [List.getD_append _ _ _ _ hlt, List.getD_append _ _ _ _ hlt]
      simp [Nat.ne_of_lt hlt]
    · simp at hi
      simp [show i = bits.length by omega]
  · intro i hi hi'
    rw [hbit, h.bitOf_past i (by simpa using hi) (by simpa using hi')]
    simp at hi
    simp [show i ≠ bits.length by omega]
  · simpa [set] using h.bytePointer_eq
  · simpa [set] using h.byteBit_eq

/-- Every `DatumStreamBitMapWrite_AddBit` keeps `Holds`. -/
theorem addBit_holds {bmw : DatumStreamBitMapWrite} {bits : List Bool} (h : bmw.Holds bits)
    (on : Bool) : (bmw.addBit on).Holds (bits ++ [on]) := by
  cases on
  · exact addBit_false_holds h
  · rw [addBit_true]
    exact set_holds (addBit_false_holds h)

end DatumStreamBitMapWrite

/-! ## Reading -/

namespace DatumStreamBitMapRead

/-- `DatumStreamBitMapRead_Init`: before the first bit. -/
def init (buffer : List UInt8) (bitCount : ℕ) : DatumStreamBitMapRead :=
  { buffer, byteBit := 0, bytePointer := 0, bitCount, bitPosition := -1 }

/-- After `k + 1` calls of `DatumStreamBitMapRead_Next` from the start, the reader is on bit `k`:
byte `k / 8` under the mask of bit `k % 8`. -/
theorem iterate_next_init (buffer : List UInt8) (bitCount k : ℕ) :
    next^[k + 1] (init buffer bitCount) =
      { buffer, byteBit := UInt8.ofNat (2 ^ (k % 8)), bytePointer := k / 8, bitCount,
        bitPosition := k } := by
  induction k with
  | zero => rfl
  | succ k ih =>
    rw [Function.iterate_succ_apply', ih]
    have hk : (k : ℤ) ≠ -1 := by omega
    have hshift := ofNat_two_pow_shiftLeft ⟨k % 8, Nat.mod_lt _ (by norm_num)⟩
    simp only at hshift
    -- the mask leaves the byte after its eighth bit
    by_cases h7 : k % 8 = 7
    · rw [if_pos h7] at hshift
      simp only [next, hk, if_false, hshift, if_true]
      congr 1
      · rw [show (k + 1) % 8 = 0 by omega]; rfl
      · omega
    · rw [if_neg h7] at hshift
      simp only [next, hk, if_false, hshift]
      rw [if_neg (ofNat_two_pow_ne_zero ⟨k % 8 + 1, by omega⟩)]
      congr 1
      · rw [show (k + 1) % 8 = k % 8 + 1 by omega]
      · omega

/-- The bit the reader sees after `k + 1` steps is bit `k` of its buffer. -/
theorem currentIsOn_iterate_next (buffer : List UInt8) (bitCount k : ℕ) :
    (next^[k + 1] (init buffer bitCount)).currentIsOn =
      (buffer.getD (k / 8) 0).toNat.testBit (k % 8) := by
  rw [iterate_next_init, currentIsOn]
  exact and_two_pow_ne_zero _ (Nat.mod_lt _ (by norm_num))

/-- **The bit-map round trip.** A reader over the bytes a writer made, followed by anything, sees
after `k + 1` steps the `k`-th bit the writer added. -/
theorem currentIsOn_of_holds {bmw : DatumStreamBitMapWrite} {bits : List Bool}
    (h : bmw.Holds bits) (pad : List UInt8) (bitCount : ℕ) {k : ℕ} (hk : k < bits.length) :
    (next^[k + 1] (init (bmw.buffer.read 0 bmw.size ++ pad) bitCount)).currentIsOn =
      bits.getD k false := by
  have hbyte : k / 8 < (bmw.buffer.read 0 bmw.size).length := by
    rw [length_read, DatumStreamBitMapWrite.size, h.bitCount_eq, datumStreamBitMapSize_eq]
    omega
  rw [currentIsOn_iterate_next, List.getD_append _ _ _ _ hbyte, List.getD_eq_getElem _ _ hbyte,
    getElem_read, Nat.zero_add, ← h.bitOf_eq k hk]
  rfl

end DatumStreamBitMapRead

end Cloudberry.DatumStream
