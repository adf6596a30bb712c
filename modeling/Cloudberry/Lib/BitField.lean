import Mathlib.Data.Nat.Bitwise

/-!
# Bit fields of a machine word

C code that packs several small fields into one 32-bit word writes each field on a zeroed word
with `w |= (mask & (e << shift))`, a one-bit flag with `if (b) w |= mask`, and reads a field
back with `(w & mask) >> shift`. A field that does not fit in what is left of a word is split
over two words; its high part is written with `mask & (e >> cut)`, that is, as a field at bit `0`
holding `e >>> cut`.

A `Field` records the mask and shift the C code uses together with the width of the field, and
carries the proof that the mask is the contiguous run of `width` ones at `shift`, so that a
field with a hole or a mask at the wrong place cannot be built. On fields:

* writing a field leaves every field with a disjoint mask as it was
  (`Field.get_init_of_disjoint`, `Field.get_initFlag_of_disjoint`);
* writing a field adds the value, cut to the width, to what the field held
  (`Field.get_init_self`, `Field.get_initFlag_self`), and overwriting it (`Field.set`,
  `Field.setFlag`: clear, then write) leaves the value cut to the width (`Field.get_set_self`,
  `Field.get_setFlag_self`);
* the two parts of a split field put back together give the value cut to the total width
  (`join_split`);
* a word built from masks below `2 ^ n` stays below `2 ^ n` (`Field.init_lt_two_pow_iff`);
* a field below bit `n` reads the same from a word cut to `n` bits (`Field.get_mod_two_pow`);
* a field reads the word divided by `2 ^ shift` and cut to the width (`Field.get_eq_div_mod`).

The side condition of the disjointness lemmas is a closed statement about two literal masks, so
`simp (disch := decide)` peels every other field off a word.
-/

namespace BitField

/-- The C idiom `(w & mask) >> shift`. -/
def getBits (mask shift w : ℕ) : ℕ := (w &&& mask) >>> shift

/-- The C idiom `w |= (mask & (e << shift))`. -/
def orBits (mask shift w e : ℕ) : ℕ := w ||| (mask &&& (e <<< shift))

/-- The C idiom `if (b) w |= mask;` for a one-bit flag. -/
def orFlag (mask w : ℕ) (b : Bool) : ℕ := if b then w ||| mask else w

/-- `k` one bits. -/
def ones (k : ℕ) : ℕ := 2 ^ k - 1

/-- A field of a word: the mask and shift of the C macros, and the width the mask spans. -/
structure Field where
  mask : ℕ
  shift : ℕ
  width : ℕ
  mask_eq : mask = ones width <<< shift

namespace Field

/-- Read the field: `(w & mask) >> shift`. -/
def get (f : Field) (w : ℕ) : ℕ := getBits f.mask f.shift w

/-- Write the field on a word where it is zero: `w |= (mask & (e << shift))`. -/
def init (f : Field) (w e : ℕ) : ℕ := orBits f.mask f.shift w e

/-- Write a one-bit field: `if (b) w |= mask`. -/
def initFlag (f : Field) (w : ℕ) (b : Bool) : ℕ := orFlag f.mask w b

/-- Overwrite the field: `w &= clear; w |= (mask & (e << shift))`, where `clear` is the literal
the C code writes for the complement of the mask. -/
def set (f : Field) (clear w e : ℕ) : ℕ := f.init (w &&& clear) e

/-- Overwrite a one-bit field: `if (b) w |= mask; else w &= clear`. -/
def setFlag (f : Field) (clear w : ℕ) (b : Bool) : ℕ := if b then f.initFlag w true else w &&& clear

end Field

@[simp] theorem testBit_ones (k i : ℕ) : (ones k).testBit i = decide (i < k) :=
  Nat.testBit_two_pow_sub_one k i

/-- A one-bit field tested as a C `bool` (`!= 0`) gives back the flag that was written. -/
@[simp] theorem decide_toNat_ne_zero (b : Bool) : decide (b.toNat ≠ 0) = b := by
  cases b <;> rfl

theorem testBit_of_and_eq_zero {m₁ m₂ : ℕ} (h : m₁ &&& m₂ = 0) (i : ℕ) :
    (m₁.testBit i && m₂.testBit i) = false := by
  have := congrArg (Nat.testBit · i) h
  simpa only [Nat.testBit_and, Nat.zero_testBit] using this

/-- Or-ing in bits under a mask disjoint from `m₁` does not change `w &&& m₁`. -/
theorem and_or_and_of_disjoint {m₁ m₂ : ℕ} (h : m₁ &&& m₂ = 0) (w x : ℕ) :
    (w ||| (m₂ &&& x)) &&& m₁ = w &&& m₁ := by
  apply Nat.eq_of_testBit_eq
  intro i
  have hi := testBit_of_and_eq_zero h i
  simp only [Nat.testBit_and, Nat.testBit_or]
  cases hm₁ : m₁.testBit i with
  | false => simp
  | true =>
    have hm₂ : m₂.testBit i = false := by simpa [hm₁] using hi
    simp [hm₂]

namespace Field

@[simp] theorem get_zero (f : Field) : f.get 0 = 0 := by
  simp [get, getBits]

/-! ## Writing a disjoint field -/

section Disjoint

variable {f g : Field} (h : f.mask &&& g.mask = 0)
include h

theorem get_init_of_disjoint (w e : ℕ) : f.get (g.init w e) = f.get w := by
  rw [get, init, getBits, orBits, and_or_and_of_disjoint h, get, getBits]

theorem get_initFlag_of_disjoint (w : ℕ) (b : Bool) : f.get (g.initFlag w b) = f.get w := by
  cases b with
  | false => rfl
  | true =>
    have e : w ||| g.mask = w ||| (g.mask &&& g.mask) := by rw [Nat.and_self]
    simp only [initFlag, orFlag, if_true, get, getBits, e, and_or_and_of_disjoint h]

end Disjoint

/-- A field holds at most `width` bits. -/
theorem get_lt_two_pow (f : Field) (w : ℕ) : f.get w < 2 ^ f.width := by
  obtain ⟨mask, s, k, rfl⟩ := f
  apply Nat.lt_pow_two_of_testBit
  intro i hi
  simp only at hi
  simp [get, getBits, Nat.testBit_shiftRight, Nat.testBit_and, Nat.testBit_shiftLeft,
    show ¬ i < k by omega]

/-- A field holds the bits of the word from its shift on, cut to its width. -/
theorem get_eq_div_mod (f : Field) (w : ℕ) : f.get w = w / 2 ^ f.shift % 2 ^ f.width := by
  obtain ⟨mask, s, k, rfl⟩ := f
  apply Nat.eq_of_testBit_eq
  intro i
  simp only [get, getBits, Nat.testBit_shiftRight, Nat.testBit_and, Nat.testBit_shiftLeft,
    testBit_ones, Nat.testBit_mod_two_pow, Nat.testBit_div_two_pow]
  by_cases hi : i < k
  · simp [hi, Nat.add_comm]
  · simp [hi]

/-! ## Clearing bits -/

/-- Clearing bits outside a field leaves the field. -/
theorem get_and_of_keep {f : Field} {clear : ℕ} (hc : f.mask &&& clear = f.mask) (w : ℕ) :
    f.get (w &&& clear) = f.get w := by
  rw [get, get, getBits, getBits, Nat.land_assoc, Nat.land_comm clear, hc]

/-- Clearing the bits of a field empties it. -/
theorem get_and_of_clear {f : Field} {clear : ℕ} (hc : f.mask &&& clear = 0) (w : ℕ) :
    f.get (w &&& clear) = 0 := by
  rw [get, getBits, Nat.land_assoc, Nat.land_comm clear, hc, Nat.and_zero, Nat.zero_shiftRight]

theorem get_set_of_disjoint {f g : Field} {clear : ℕ} (h : f.mask &&& g.mask = 0)
    (hc : f.mask &&& clear = f.mask) (w e : ℕ) : f.get (g.set clear w e) = f.get w := by
  rw [set, get_init_of_disjoint h, get_and_of_keep hc]

theorem get_setFlag_of_disjoint {f g : Field} {clear : ℕ} (h : f.mask &&& g.mask = 0)
    (hc : f.mask &&& clear = f.mask) (w : ℕ) (b : Bool) :
    f.get (g.setFlag clear w b) = f.get w := by
  cases b with
  | false => exact get_and_of_keep hc w
  | true => exact get_initFlag_of_disjoint h w true

/-! ## Writing the field itself -/

theorem get_init_self (f : Field) (w e : ℕ) : f.get (f.init w e) = f.get w ||| e % 2 ^ f.width := by
  obtain ⟨mask, s, k, rfl⟩ := f
  apply Nat.eq_of_testBit_eq
  intro i
  simp only [get, init, getBits, orBits, Nat.testBit_shiftRight, Nat.testBit_and, Nat.testBit_or,
    Nat.testBit_shiftLeft, testBit_ones, Nat.testBit_mod_two_pow]
  have hs : s + i - s = i := by omega
  simp only [hs, ge_iff_le, Nat.le_add_right, decide_true, Bool.true_and]
  cases w.testBit (s + i) <;> cases e.testBit i <;> cases decide (i < k) <;> rfl

theorem get_initFlag_self (f : Field) (hf : f.width = 1) (w : ℕ) (b : Bool) :
    f.get (f.initFlag w b) = f.get w ||| b.toNat := by
  cases b with
  | false => simp [initFlag, orFlag]
  | true =>
    have hm : f.mask = ones 1 <<< f.shift := by rw [f.mask_eq, hf]
    have e : f.initFlag w true = f.init w 1 := by
      simp only [initFlag, orFlag, if_true, init, orBits, hm, show ones 1 = 1 from rfl,
        Nat.and_self]
    rw [e, get_init_self, hf]
    rfl

theorem get_set_self (f : Field) {clear : ℕ} (hc : f.mask &&& clear = 0) (w e : ℕ) :
    f.get (f.set clear w e) = e % 2 ^ f.width := by
  rw [set, get_init_self, get_and_of_clear hc, Nat.zero_or]

theorem get_setFlag_self (f : Field) (hf : f.width = 1) {clear : ℕ} (hc : f.mask &&& clear = 0)
    (w : ℕ) (b : Bool) : f.get (f.setFlag clear w b) = b.toNat := by
  cases b with
  | false => exact get_and_of_clear hc w
  | true =>
    -- the flag is set whatever the bit held before
    have hlt : f.get w < 2 := by simpa [hf] using get_lt_two_pow f w
    rw [setFlag, if_pos rfl, get_initFlag_self f hf]
    rcases (show f.get w = 0 ∨ f.get w = 1 by omega) with h | h <;> rw [h] <;> rfl

/-- A word written from a mask below `2 ^ n` is below `2 ^ n` exactly when it was before, so
that `simp` can strip a whole chain of writes off a bound. -/
theorem init_lt_two_pow_iff {n : ℕ} (f : Field) (hf : f.mask < 2 ^ n) (w e : ℕ) :
    f.init w e < 2 ^ n ↔ w < 2 ^ n := by
  constructor
  · intro h
    exact lt_of_le_of_lt Nat.left_le_or h
  · intro hw
    have h : f.mask &&& e <<< f.shift < 2 ^ n := by
      rw [Nat.land_comm]
      exact Nat.and_lt_two_pow _ hf
    exact Nat.or_lt_two_pow hw h

theorem initFlag_lt_two_pow_iff {n : ℕ} (f : Field) (hf : f.mask < 2 ^ n) (w : ℕ) (b : Bool) :
    f.initFlag w b < 2 ^ n ↔ w < 2 ^ n := by
  cases b with
  | false => rfl
  | true =>
    constructor
    · intro h
      exact lt_of_le_of_lt Nat.left_le_or h
    · intro hw
      exact Nat.or_lt_two_pow hw hf

/-- A field below bit `n` does not see the bits of the word above `n`: reading it from a word
cut to `n` bits (a `uint32` loaded from memory) is reading it from the word. -/
theorem get_mod_two_pow {n : ℕ} (f : Field) (hf : f.mask < 2 ^ n) (w : ℕ) :
    f.get (w % 2 ^ n) = f.get w := by
  unfold get getBits
  congr 1
  apply Nat.eq_of_testBit_eq
  intro i
  simp only [Nat.testBit_and, Nat.testBit_mod_two_pow]
  by_cases hi : i < n
  · simp [hi]
  · have hm : f.mask.testBit i = false := Nat.testBit_lt_two_pow (lt_of_lt_of_le hf
      (Nat.pow_le_pow_right (by decide) (by omega)))
    simp [hm]

end Field

/-! ## Split fields -/

/-- The low `j` bits of `e`, and above them the next `k` bits, are `e` cut to `j + k` bits. -/
theorem join_split (j k e : ℕ) : ((e >>> j) % 2 ^ k) <<< j ||| e % 2 ^ j = e % 2 ^ (j + k) := by
  apply Nat.eq_of_testBit_eq
  intro i
  simp only [Nat.testBit_or, Nat.testBit_shiftLeft, Nat.testBit_mod_two_pow,
    Nat.testBit_shiftRight]
  by_cases hij : i < j
  · have : ¬ i ≥ j := by omega
    simp [hij, this, show i < j + k by omega]
  · have hji : j + (i - j) = i := by omega
    simp only [ge_iff_le, show j ≤ i by omega, decide_true, Bool.true_and, hji, hij,
      decide_false, Bool.false_and, Bool.or_false]
    by_cases hk : i - j < k
    · simp [hk, show i < j + k by omega]
    · simp [hk, show ¬ i < j + k by omega]

end BitField
