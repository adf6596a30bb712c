import Mathlib.Data.List.TakeWhile
import Cloudberry.Lib.ByteMem

/-!
# Variable-length data and alignment

A variable-length datum (`varlena`) starts with its length. On the little-endian machines the
code runs on, a first byte with its low bit set is a one-byte header whose upper seven bits are
the length of the whole datum (`VARATT_IS_1B`, `VARSIZE_1B`); the byte `0x01` alone starts a
pointer to a datum kept elsewhere (`VARATT_IS_1B_E`, `VARSIZE_EXTERNAL`); any other datum starts
with a four-byte word whose upper thirty bits are its length and whose low two bits say whether
it is compressed (`VARATT_IS_4B_U`, `VARSIZE_4B`). A datum with a four-byte header and at most
126 bytes of data can be stored with a one-byte header instead (`VARATT_CAN_MAKE_SHORT`,
`VARATT_CONVERTED_SHORT_SIZE`, `VARSIZE_TO_SHORT`). A `cstring` is its bytes up to a zero byte.

The data of a type sits at offsets aligned for the type (`att_align_nominal`), and a writer fills
the gap before it with zeros (`att_align_zero`). The buffers the datum stream works in are
allocated on `MAXALIGN` boundaries, so the alignment of an address is that of its offset in the
buffer.

* `varlenaData_of_oneByte`: the one-byte header a writer makes for a short datum reads back as
  the header of a datum of the converted size with the same data;
* `attAlignNominal_attAlignZero`: what the writer padded, the reader's alignment skips.
-/

namespace Cloudberry.DatumStream

open ByteMem

/-! ## Alignment -/

/-- `TYPALIGN_CHAR`, `TYPALIGN_SHORT`, `TYPALIGN_INT` and `TYPALIGN_DOUBLE`. -/
inductive TypAlign
  | char
  | short
  | int
  | double
  deriving DecidableEq, Repr

/-- `TYPEALIGN(ALIGNVAL, LEN)` for the powers of two it is used with: `LEN` rounded up to a
multiple of `ALIGNVAL`. -/
def typeAlign (alignval len : ℕ) : ℕ := (len + (alignval - 1)) / alignval * alignval

/-- `MAXALIGN`, with `MAXIMUM_ALIGNOF` eight. -/
def maxAlign (len : ℕ) : ℕ := typeAlign 8 len

/-- `att_align_nominal`, with `ALIGNOF_SHORT`, `ALIGNOF_INT` and `ALIGNOF_DOUBLE` of a 64-bit
platform. -/
def attAlignNominal (curOffset : ℕ) (attalign : TypAlign) : ℕ :=
  match attalign with
  | .int => typeAlign 4 curOffset
  | .char => curOffset
  | .double => typeAlign 8 curOffset
  | .short => typeAlign 2 curOffset

/-- `att_align_zero` at the end of the bytes `data`: zeros until their length is aligned. -/
def attAlignZero (data : List UInt8) (alignchar : TypAlign) : List UInt8 :=
  data ++ List.replicate (attAlignNominal data.length alignchar - data.length) 0

/-! ## Varlena headers

A datum passed by reference is the list of bytes from the address its `Datum` holds. -/

/-- `VARATT_IS_1B`. -/
def varattIs1B (p : List UInt8) : Bool := p.headD 0 &&& 0x01 == 0x01

/-- `VARATT_IS_1B_E`. -/
def varattIs1BE (p : List UInt8) : Bool := p.headD 0 == 0x01

/-- `VARATT_IS_4B_U`. -/
def varattIs4BU (p : List UInt8) : Bool := p.headD 0 &&& 0x03 == 0x00

/-- `VARSIZE_1B`. -/
def varsize1B (p : List UInt8) : ℕ := ((p.headD 0 >>> 1) &&& 0x7F).toNat

/-- `VARSIZE_4B`. -/
def varsize4B (p : List UInt8) : ℕ := (leValue (p.take 4) >>> 2) &&& 0x3FFFFFFF

/-- `VARTAG_SIZE`: the pointer structures after the tag of an external datum. -/
def vartagSize (tag : UInt8) : ℕ :=
  if tag = 1 then 8
  else if tag &&& 0xFE = 2 then 8
  else if tag = 20 then 16
  else 0

/-- `VARSIZE_EXTERNAL`: the header and the tag, then the pointer structure. -/
def varsizeExternal (p : List UInt8) : ℕ := 2 + vartagSize (p.getD 1 0)

/-- `VARSIZE_ANY`. -/
def varsizeAny (p : List UInt8) : ℕ :=
  if varattIs1BE p then varsizeExternal p
  else if varattIs1B p then varsize1B p
  else varsize4B p

/-- `VARSIZE(PTR) - VARHDRSZ + VARHDRSZ_SHORT`: the subtraction is made in `uint32`, the addition
in `size_t`. -/
def varattConvertedShortSize (p : List UInt8) : ℕ := (UInt32.ofNat (varsize4B p) - 4).toNat + 1

/-- `VARATT_CAN_MAKE_SHORT`. -/
def varattCanMakeShort (p : List UInt8) : Bool :=
  varattIs4BU p && decide (varattConvertedShortSize p ≤ 0x7F)

/-- `VARSIZE_TO_SHORT`: the one-byte header of the converted datum. -/
def varsizeToShort (p : List UInt8) : UInt8 :=
  UInt8.ofNat (varattConvertedShortSize p <<< 1) ||| 0x01

/-- `strlen`. -/
def strlen (p : List UInt8) : ℕ := (p.takeWhile (· ≠ 0)).length

/-- The data of an in-line datum, after its header (`VARDATA_ANY`, `VARSIZE_ANY_EXHDR` bytes). -/
def varlenaData (p : List UInt8) : List UInt8 :=
  if varattIs1B p then (p.drop 1).take (varsize1B p - 1) else (p.drop 4).take (varsize4B p - 4)

/-! ## What the headers say -/

/-- A datum held in line and not compressed, whose bytes are all there: a one-byte header, or a
four-byte one. -/
def InLine (p : List UInt8) : Prop :=
  (varattIs1B p = true ∧ varattIs1BE p = false ∧ 1 ≤ varsize1B p ∧ varsize1B p ≤ p.length) ∨
    (varattIs4BU p = true ∧ 4 ≤ varsize4B p ∧ varsize4B p ≤ p.length)

instance (p : List UInt8) : Decidable (InLine p) := inferInstanceAs (Decidable (_ ∨ _))

theorem varattIs1B_of_varattIs4BU {p : List UInt8} (h : varattIs4BU p = true) :
    varattIs1B p = false := by
  simp only [varattIs4BU, varattIs1B, beq_iff_eq, beq_eq_false_iff_ne, ne_eq, ← UInt8.toNat_inj,
    UInt8.toNat_and, UInt8.reduceToNat] at h ⊢
  have h3 := Nat.and_two_pow_sub_one_eq_mod (p.headD 0).toNat 2
  have h1 := Nat.and_two_pow_sub_one_eq_mod (p.headD 0).toNat 1
  simp only [Nat.reducePow, Nat.reduceSub] at h3 h1
  omega

theorem varattIs1BE_of_varattIs4BU {p : List UInt8} (h : varattIs4BU p = true) :
    varattIs1BE p = false := by
  simp only [varattIs4BU, varattIs1BE, beq_iff_eq, beq_eq_false_iff_ne, ne_eq, ← UInt8.toNat_inj,
    UInt8.toNat_and, UInt8.reduceToNat] at h ⊢
  have h3 := Nat.and_two_pow_sub_one_eq_mod (p.headD 0).toNat 2
  simp only [Nat.reducePow, Nat.reduceSub] at h3
  omega

/-- The length of an in-line datum is what `VARSIZE_ANY` reads. -/
theorem varsizeAny_of_inLine {p : List UInt8} (h : InLine p) :
    varsizeAny p = if varattIs1B p then varsize1B p else varsize4B p := by
  rcases h with ⟨h1, he, -⟩ | ⟨h4, -⟩
  · simp [varsizeAny, he, h1]
  · simp [varsizeAny, varattIs1BE_of_varattIs4BU h4, varattIs1B_of_varattIs4BU h4]

/-- The converted size of a datum with a four-byte header is its size less three. -/
theorem varattConvertedShortSize_eq {p : List UInt8} (h4 : 4 ≤ varsize4B p) :
    varattConvertedShortSize p = varsize4B p - 3 := by
  have hlt : varsize4B p < 2 ^ 32 := by
    have := Nat.and_le_right (n := leValue (p.take 4) >>> 2) (m := 0x3FFFFFFF)
    rw [varsize4B]
    omega
  rw [varattConvertedShortSize, UInt32.toNat_sub_of_le _ _ (by
    rw [UInt32.le_iff_toNat_le, UInt32.toNat_ofNat_of_lt' hlt]
    exact h4), UInt32.toNat_ofNat_of_lt' hlt]
  simp only [UInt32.reduceToNat]
  omega

/-- A datum that can be made short has at most 126 bytes of data. -/
theorem varsize4B_le_of_canMakeShort {p : List UInt8} (h : varattCanMakeShort p = true)
    (h4 : 4 ≤ varsize4B p) : varsize4B p ≤ 130 := by
  have hle : varattConvertedShortSize p ≤ 0x7F := by
    simp only [varattCanMakeShort, Bool.and_eq_true, decide_eq_true_eq] at h
    exact h.2
  rw [varattConvertedShortSize_eq h4] at hle
  omega

/-- The one-byte header `VARSIZE_TO_SHORT` makes for `n` bytes in all, for `1 ≤ n ≤ 127`, before
any bytes `t`. -/
theorem oneByte_header {n : ℕ} (h1 : 1 ≤ n) (h2 : n ≤ 127) (t : List UInt8) :
    varattIs1B ((UInt8.ofNat (n <<< 1) ||| 0x01) :: t) = true ∧
      varattIs1BE ((UInt8.ofNat (n <<< 1) ||| 0x01) :: t) = false ∧
      varsize1B ((UInt8.ofNat (n <<< 1) ||| 0x01) :: t) = n := by
  have key : ∀ k : Fin 128, 1 ≤ k.val →
      varattIs1B [UInt8.ofNat (k.val <<< 1) ||| 0x01] = true ∧
        varattIs1BE [UInt8.ofNat (k.val <<< 1) ||| 0x01] = false ∧
        varsize1B [UInt8.ofNat (k.val <<< 1) ||| 0x01] = k.val := by
    decide
  exact key ⟨n, by omega⟩ h1

/-- **The short form of a datum.** The byte the writer makes from a datum that can be made short,
followed by the datum's data, is a one-byte datum of the converted size with the same data. -/
theorem varlenaData_of_oneByte {p : List UInt8} (h : varattCanMakeShort p = true)
    (h4 : 4 ≤ varsize4B p) (hlen : varsize4B p ≤ p.length) (rest : List UInt8) :
    let q := varsizeToShort p :: ((p.drop 4).take (varattConvertedShortSize p - 1) ++ rest)
    InLine q ∧ varsizeAny q = varattConvertedShortSize p ∧ varlenaData q = varlenaData p := by
  intro q
  have hconv := varattConvertedShortSize_eq h4
  have hle := varsize4B_le_of_canMakeShort h h4
  have h1 : varattIs1B p = false := varattIs1B_of_varattIs4BU (Bool.and_eq_true_iff.mp h).1
  obtain ⟨hs, he, hsize⟩ : varattIs1B q = true ∧ varattIs1BE q = false ∧
      varsize1B q = varattConvertedShortSize p :=
    oneByte_header (by omega) (by omega) _
  have hqlen : q.length = varattConvertedShortSize p + rest.length := by
    simp only [q, List.length_cons, List.length_append, List.length_take, List.length_drop]
    omega
  refine ⟨.inl ⟨hs, he, by omega, by omega⟩, ?_, ?_⟩
  · rw [varsizeAny, he, if_neg Bool.false_ne_true, hs, if_pos rfl, hsize]
  · have htake : ((p.drop 4).take (varattConvertedShortSize p - 1) ++ rest).take
        (varattConvertedShortSize p - 1) = (p.drop 4).take (varsize4B p - 4) := by
      rw [List.take_left' (by rw [List.length_take, List.length_drop]; omega), hconv,
        show varsize4B p - 3 - 1 = varsize4B p - 4 by omega]
    rw [varlenaData, if_pos hs, hsize, varlenaData, h1, if_neg Bool.false_ne_true]
    exact htake

/-! ## C strings -/

/-- A string with its zero: the characters, then the zero. -/
theorem take_strlen_succ {p : List UInt8} (h : 0 ∈ p) :
    p.take (strlen p + 1) = p.takeWhile (· ≠ 0) ++ [0] := by
  induction p with
  | nil => simp at h
  | cons b p ih =>
    by_cases hb : b = 0
    · simp [strlen, hb]
    · have hp : 0 ∈ p := by
        rcases List.mem_cons.mp h with h0 | h0
        · exact absurd h0.symm hb
        · exact h0
      have ih' := ih hp
      simp only [strlen] at ih'
      simpa [strlen, hb] using ih'

theorem strlen_lt_length {p : List UInt8} (h : 0 ∈ p) : strlen p < p.length := by
  have hlen := congrArg List.length (take_strlen_succ h)
  rw [List.length_take, List.length_append, List.length_singleton] at hlen
  simp only [strlen] at hlen ⊢
  omega

/-- The characters of a string followed by its zero are the characters, whatever comes after. -/
theorem takeWhile_append_zero {xs : List UInt8} (hxs : ∀ x ∈ xs, x ≠ 0) (rest : List UInt8) :
    (xs ++ 0 :: rest).takeWhile (· ≠ 0) = xs := by
  induction xs with
  | nil => simp
  | cons x xs ih =>
    rw [List.cons_append, List.takeWhile_cons_of_pos (by simpa using hxs x (by simp)),
      ih (fun y hy => hxs y (by simp [hy]))]

theorem ne_zero_of_mem_takeWhile {p : List UInt8} {x : UInt8} (h : x ∈ p.takeWhile (· ≠ 0)) :
    x ≠ 0 := by
  simpa using List.mem_takeWhile_imp h

/-! ## Alignment lemmas -/

theorem typeAlign_eq (alignval len : ℕ) :
    typeAlign alignval len = alignval * ((len + (alignval - 1)) / alignval) := by
  rw [typeAlign, Nat.mul_comm]

theorem le_typeAlign (alignval len : ℕ) (h : 0 < alignval) : len ≤ typeAlign alignval len := by
  have hd := Nat.div_add_mod (len + (alignval - 1)) alignval
  have hm := Nat.mod_lt (len + (alignval - 1)) h
  rw [typeAlign_eq]
  omega

theorem typeAlign_lt (alignval len : ℕ) (h : 0 < alignval) :
    typeAlign alignval len < len + alignval := by
  have hd := Nat.div_add_mod (len + (alignval - 1)) alignval
  rw [typeAlign_eq]
  omega

/-- Everything from `len` up to its aligned offset aligns to the same offset. -/
theorem typeAlign_of_le {alignval len q : ℕ} (h : 0 < alignval) (h₁ : len ≤ q)
    (h₂ : q ≤ typeAlign alignval len) : typeAlign alignval q = typeAlign alignval len := by
  have hd := Nat.div_add_mod (len + (alignval - 1)) alignval
  have hm := Nat.mod_lt (len + (alignval - 1)) h
  rw [typeAlign_eq] at h₂ ⊢
  rw [typeAlign_eq]
  congr 1
  apply Nat.div_eq_of_lt_le
  · rw [Nat.mul_comm]
    omega
  · rw [Nat.add_mul, Nat.one_mul, Nat.mul_comm]
    omega

/-- The aligned offset is the least multiple of the alignment at or after the offset. -/
theorem typeAlign_le_of_dvd {alignval len m : ℕ} (h : 0 < alignval) (hm : alignval ∣ m)
    (hle : len ≤ m) : typeAlign alignval len ≤ m := by
  obtain ⟨k, rfl⟩ := hm
  rw [typeAlign_eq]
  apply Nat.mul_le_mul_left
  apply Nat.lt_succ_iff.mp
  rw [Nat.div_lt_iff_lt_mul h, Nat.succ_mul, Nat.mul_comm]
  omega

theorem typeAlign_mono {alignval x y : ℕ} (h : 0 < alignval) (hxy : x ≤ y) :
    typeAlign alignval x ≤ typeAlign alignval y :=
  typeAlign_le_of_dvd h ⟨_, typeAlign_eq alignval y⟩ (hxy.trans (le_typeAlign alignval y h))

/-- Alignment commutes with a shift by a multiple of the alignment. -/
theorem typeAlign_add_of_dvd {alignval c : ℕ} (h : 0 < alignval) (hc : alignval ∣ c) (x : ℕ) :
    typeAlign alignval (c + x) = c + typeAlign alignval x := by
  obtain ⟨q, rfl⟩ := hc
  rw [typeAlign_eq, typeAlign_eq, Nat.add_assoc, Nat.add_comm, Nat.add_mul_div_left _ _ h,
    Nat.mul_add, Nat.add_comm]

theorem typeAlign_typeAlign (alignval len : ℕ) (h : 0 < alignval) :
    typeAlign alignval (typeAlign alignval len) = typeAlign alignval len :=
  typeAlign_of_le h (le_typeAlign alignval len h) le_rfl

theorem le_attAlignNominal (curOffset : ℕ) (attalign : TypAlign) :
    curOffset ≤ attAlignNominal curOffset attalign := by
  cases attalign <;> simp only [attAlignNominal, le_refl] <;> exact le_typeAlign _ _ (by omega)

@[simp] theorem attAlignNominal_zero (attalign : TypAlign) : attAlignNominal 0 attalign = 0 := by
  cases attalign <;> rfl

theorem attAlignNominal_attAlignNominal (curOffset : ℕ) (attalign : TypAlign) :
    attAlignNominal (attAlignNominal curOffset attalign) attalign =
      attAlignNominal curOffset attalign := by
  cases attalign <;> simp only [attAlignNominal] <;> exact typeAlign_typeAlign _ _ (by omega)

/-- Every alignment divides `MAXALIGN`'s eight. -/
theorem alignment_dvd_eight (attalign : TypAlign) :
    ∃ a, 0 < a ∧ a ∣ 8 ∧ ∀ x, attAlignNominal x attalign = typeAlign a x := by
  cases attalign
  · exact ⟨1, by omega, by norm_num, fun x => by simp [attAlignNominal, typeAlign]⟩
  · exact ⟨2, by omega, by norm_num, fun x => rfl⟩
  · exact ⟨4, by omega, by norm_num, fun x => rfl⟩
  · exact ⟨8, by omega, dvd_refl 8, fun x => rfl⟩

theorem attAlignNominal_le_maxAlign (curOffset : ℕ) (attalign : TypAlign) :
    attAlignNominal curOffset attalign ≤ maxAlign curOffset := by
  obtain ⟨a, ha, hdvd, heq⟩ := alignment_dvd_eight attalign
  rw [heq]
  exact typeAlign_le_of_dvd ha (hdvd.trans ⟨_, typeAlign_eq 8 curOffset⟩)
    (le_typeAlign 8 curOffset (by omega))

/-- Alignment commutes with a shift by a multiple of eight, such as a `MAXALIGN`ed header. -/
theorem attAlignNominal_add_of_dvd {c : ℕ} (hc : 8 ∣ c) (x : ℕ) (attalign : TypAlign) :
    attAlignNominal (c + x) attalign = c + attAlignNominal x attalign := by
  obtain ⟨a, ha, hdvd, heq⟩ := alignment_dvd_eight attalign
  rw [heq, heq, typeAlign_add_of_dvd ha (hdvd.trans hc)]

theorem dvd_maxAlign (len : ℕ) : 8 ∣ maxAlign len := ⟨_, typeAlign_eq 8 len⟩

theorem maxAlign_of_dvd {len : ℕ} (h : 8 ∣ len) : maxAlign len = len :=
  le_antisymm (typeAlign_le_of_dvd (by omega) h le_rfl) (le_typeAlign 8 len (by omega))

@[simp] theorem length_attAlignZero (data : List UInt8) (alignchar : TypAlign) :
    (attAlignZero data alignchar).length = attAlignNominal data.length alignchar := by
  have := le_attAlignNominal data.length alignchar
  rw [attAlignZero, List.length_append, List.length_replicate]
  omega

/-- **Padding is skipped.** From anywhere in the zeros `att_align_zero` wrote, the reader's
alignment lands where the writer's data resumes. -/
theorem attAlignNominal_attAlignZero {len q : ℕ} {alignchar : TypAlign}
    (h₁ : len ≤ q) (h₂ : q ≤ attAlignNominal len alignchar) :
    attAlignNominal q alignchar = attAlignNominal len alignchar := by
  cases alignchar <;> simp only [attAlignNominal] at h₂ ⊢
  · omega
  all_goals exact typeAlign_of_le (by omega) h₁ h₂

end Cloudberry.DatumStream
