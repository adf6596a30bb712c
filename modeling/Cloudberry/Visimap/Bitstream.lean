import Cloudberry.Lib.Bits

/-!
# The bit stream of `bitstream.c`

A `Bitstream` is a cursor over the first `dataSize` bytes of a buffer, bit by bit, the most
significant bit of each byte first, with an error flag. Every operation first checks that the
stream has not failed and that the cursor is inside the buffer (`Bitstream_CheckForError`); when
it is not, the call fails, which we model as `none`: every caller in the code stops or falls back
at a failure. `Bitstream_Put` ors the bits of a value into the buffer, so a writer relies on the
buffer having been zeroed.

Two invariants describe streams in use:

* `Wrote bs bits`: the writer has put `bits` from the start of a zeroed buffer, and the bits ahead
  of its cursor are still zero. `Bitstream_Put` and `Bitstream_Skip` extend what it wrote
  (`Wrote.put`, `Wrote.skip`), and `Bitstream_GetLength` covers it (`Wrote.getLength_le`).
* `Reads bs bits`: the reader finds `bits` from its cursor on, inside the buffer.
  `Bitstream_Get` reads them back (`Reads.getBits`), and a buffer holding what a writer wrote is
  read from the start (`reads_init`).
-/

namespace Cloudberry.Visimap

open ByteMem Bits

/-- `Bitstream`: a cursor over `dataSize` bytes of `data`, and the error flag. -/
structure Bitstream where
  bitOffset : ℕ
  byteOffset : ℕ
  data : Mem
  dataSize : ℕ
  error : Bool

namespace Bitstream

/-- `Bitstream_Init`. -/
def init (data : Mem) (dataSize : ℕ) : Bitstream := ⟨0, 0, data, dataSize, false⟩

/-- `Bitstream_CheckForError`: whether the stream can go on at its cursor. -/
def checkForError (bs : Bitstream) : Bool := !bs.error && decide (bs.byteOffset < bs.dataSize)

/-- The stream as `Bitstream_CheckForError` leaves it when the check fails: flagged, with its
cursor at `0`. -/
def failed (bs : Bitstream) : Bitstream :=
  if bs.error then bs else { bs with error := true, byteOffset := 0 }

/-- Move the cursor one bit on. -/
def advance (bs : Bitstream) : Bitstream :=
  if bs.bitOffset + 1 = 8 then { bs with bitOffset := 0, byteOffset := bs.byteOffset + 1 }
  else { bs with bitOffset := bs.bitOffset + 1 }

/-- `Bitstream_GetBit`. -/
def getBit (bs : Bitstream) : Option (Bool × Bitstream) :=
  if bs.checkForError then
    some ((bs.data bs.byteOffset).toNat.testBit (7 - bs.bitOffset), bs.advance)
  else none

/-- `Bitstream_PutBit`: `data[byteOffset] |= 1 << (7 - bitOffset)` for a one bit. -/
def putBit (bs : Bitstream) (v : Bool) : Option Bitstream :=
  if bs.checkForError then
    let bs := if v then { bs with data := bs.data.orBit bs.byteOffset (7 - bs.bitOffset) } else bs
    some bs.advance
  else none

/-- `Bitstream_Skip`. -/
def skip (bs : Bitstream) (skipBitCount : ℕ) : Option Bitstream :=
  if bs.checkForError then
    let newBitOffset := bs.bitOffset + skipBitCount
    some { bs with bitOffset := newBitOffset % 8, byteOffset := bs.byteOffset + newBitOffset / 8 }
  else none

/-- `Bitstream_GetOffset`, in bits. -/
def getOffset (bs : Bitstream) : ℕ := bs.byteOffset * 8 + bs.bitOffset

/-- `Bitstream_Align`; its caller ignores whether the skip failed. -/
def align (bs : Bitstream) (alignment : ℕ) : Bitstream :=
  let forAlignment := bs.getOffset % alignment
  if forAlignment > 0 then (bs.skip (alignment - forAlignment)).getD bs.failed else bs

/-- `Bitstream_GetAlignedData`: the offset in `data` of the aligned cursor, and the stream. -/
def getAlignedData (bs : Bitstream) (alignment : ℕ) : ℕ × Bitstream :=
  let bs := bs.align alignment
  (bs.byteOffset, bs)

/-- The loop of `Bitstream_Get`: `v <<= 1; v |= bit` for each of `n` bits. -/
def getBits (bs : Bitstream) (v : ℕ) : ℕ → Option (ℕ × Bitstream)
  | 0 => some (v, bs)
  | n + 1 =>
    match bs.getBit with
    | some (b, bs) => bs.getBits (v * 2 + b.toNat) n
    | none => none

/-- `Bitstream_Get`: the next `n` bits as a number. -/
def get (bs : Bitstream) (n : ℕ) : Option (ℕ × Bitstream) := bs.getBits 0 n

/-- The loop of `Bitstream_Put`: the bits `k - 1, …, 0` of `v`, under a mask moving right. -/
def putBits (bs : Bitstream) (v : ℕ) : ℕ → Option Bitstream
  | 0 => some bs
  | k + 1 =>
    match bs.putBit (v.testBit k) with
    | some bs => bs.putBits v k
    | none => none

/-- `Bitstream_Put`: the low `bitCount` bits of `v`, most significant first. -/
def put (bs : Bitstream) (v bitCount : ℕ) : Option Bitstream := bs.putBits v bitCount

/-- `Bitstream_GetLength`: the number of bytes the stream has touched. -/
def getLength (bs : Bitstream) : ℕ := if bs.bitOffset = 0 then bs.byteOffset else bs.byteOffset + 1

/-! ## Moving the cursor -/

theorem advance_getOffset {bs : Bitstream} (h : bs.bitOffset < 8) :
    bs.advance.getOffset = bs.getOffset + 1 ∧ bs.advance.bitOffset < 8 := by
  unfold advance getOffset
  split_ifs <;> simp only <;> omega

@[simp] theorem advance_data (bs : Bitstream) : bs.advance.data = bs.data := by
  unfold advance; split_ifs <;> rfl

@[simp] theorem advance_dataSize (bs : Bitstream) : bs.advance.dataSize = bs.dataSize := by
  unfold advance; split_ifs <;> rfl

@[simp] theorem advance_error (bs : Bitstream) : bs.advance.error = bs.error := by
  unfold advance; split_ifs <;> rfl

theorem skip_of_checkForError {bs : Bitstream} (hc : bs.checkForError = true) (n : ℕ) :
    ∃ bs', bs.skip n = some bs' ∧ bs'.getOffset = bs.getOffset + n ∧ bs'.bitOffset < 8 ∧
      bs'.data = bs.data ∧ bs'.dataSize = bs.dataSize ∧ bs'.error = bs.error := by
  refine ⟨⟨(bs.bitOffset + n) % 8, bs.byteOffset + (bs.bitOffset + n) / 8, bs.data, bs.dataSize,
    bs.error⟩, by rw [skip, if_pos hc], ?_, Nat.mod_lt _ (by decide), rfl, rfl, rfl⟩
  simp only [getOffset]
  omega

/-- The cursor is inside the buffer exactly when the byte it is in is. -/
theorem checkForError_eq {bs : Bitstream} (he : bs.error = false) (h : bs.bitOffset < 8) :
    bs.checkForError = decide (bs.getOffset < 8 * bs.dataSize) := by
  simp only [checkForError, he, Bool.not_false, Bool.true_and, getOffset]
  congr 1
  apply propext
  omega

/-- The bit at the cursor. -/
theorem testBit_eq_bitAt {bs : Bitstream} (h : bs.bitOffset < 8) :
    (bs.data bs.byteOffset).toNat.testBit (7 - bs.bitOffset) = bs.data.bitAt bs.getOffset := by
  have h₁ : bs.getOffset / 8 = bs.byteOffset := by simp only [getOffset]; omega
  have h₂ : bs.getOffset % 8 = bs.bitOffset := by simp only [getOffset]; omega
  rw [Mem.bitAt, h₁, h₂]

/-- `Bitstream_GetAlignedData` at an aligned cursor moves nothing. -/
theorem getAlignedData_of_mod_eq_zero {bs : Bitstream} {alignment : ℕ}
    (h : bs.getOffset % alignment = 0) : bs.getAlignedData alignment = (bs.byteOffset, bs) := by
  simp [getAlignedData, align, h]

theorem putBit_dataSize {bs bs' : Bitstream} {v : Bool} (hput : bs.putBit v = some bs') :
    bs'.dataSize = bs.dataSize := by
  unfold putBit at hput
  by_cases hc : bs.checkForError
  · rw [if_pos hc] at hput
    dsimp only at hput
    obtain rfl := Option.some.inj hput
    cases v <;> simp
  · rw [if_neg hc] at hput
    exact absurd hput (by simp)

theorem putBits_dataSize {bs bs' : Bitstream} {v k : ℕ} (hput : bs.putBits v k = some bs') :
    bs'.dataSize = bs.dataSize := by
  induction k generalizing bs with
  | zero => exact congrArg dataSize (Option.some.inj hput).symm
  | succ k ih =>
    unfold putBits at hput
    rcases hbit : bs.putBit (v.testBit k) with _ | bs₁
    · rw [hbit] at hput; exact absurd hput (by simp)
    · rw [hbit] at hput
      exact (ih hput).trans (putBit_dataSize hbit)

theorem skip_dataSize {bs bs' : Bitstream} {n : ℕ} (hskip : bs.skip n = some bs') :
    bs'.dataSize = bs.dataSize := by
  unfold skip at hskip
  split_ifs at hskip
  obtain rfl := Option.some.inj hskip
  rfl

/-! ## Writing -/

/-- The writer has put `bits` from the start of a zeroed buffer. -/
structure Wrote (bs : Bitstream) (bits : List Bool) : Prop where
  error_eq : bs.error = false
  bitOffset_lt : bs.bitOffset < 8
  getOffset_eq : bs.getOffset = bits.length
  length_le : bits.length ≤ 8 * bs.dataSize
  bits_eq : ∀ q (h : q < bits.length), bs.data.bitAt q = bits[q]
  zero_ahead : ∀ q, bits.length ≤ q → q < 8 * bs.dataSize → bs.data.bitAt q = false

theorem wrote_init (m : Mem) (n : ℕ) : Wrote (init (m.write 0 (List.replicate n 0)) n) [] where
  error_eq := rfl
  bitOffset_lt := by simp [init]
  getOffset_eq := rfl
  length_le := Nat.zero_le _
  bits_eq q h := absurd h (Nat.not_lt_zero q)
  zero_ahead q _ hq := bitAt_write_replicate_zero m (Nat.zero_le q) (by simpa [init] using hq)

namespace Wrote

variable {bs bs' : Bitstream} {bits : List Bool}

theorem putBit (h : Wrote bs bits) {v : Bool} (hput : bs.putBit v = some bs') :
    Wrote bs' (bits ++ [v]) := by
  have hc : bs.checkForError = true := by
    by_contra hc
    simp [Bitstream.putBit, hc] at hput
  rw [Bitstream.putBit, if_pos hc] at hput
  dsimp only at hput
  rw [checkForError_eq h.error_eq h.bitOffset_lt, decide_eq_true_eq, h.getOffset_eq] at hc
  have hpos : bits.length = 8 * bs.byteOffset + bs.bitOffset := by
    rw [← h.getOffset_eq, getOffset]; omega
  -- before the cursor moves, the buffer has bit `bits.length` set to `v` and no other change
  obtain ⟨b, rfl, hbit, hbyte, hsize, herr, hdata⟩ : ∃ b : Bitstream, bs' = b.advance ∧
      b.bitOffset = bs.bitOffset ∧ b.byteOffset = bs.byteOffset ∧ b.dataSize = bs.dataSize ∧
      b.error = bs.error ∧
      ∀ q, b.data.bitAt q = (bs.data.bitAt q || (v && decide (q = bits.length))) := by
    cases v with
    | false => exact ⟨bs, (Option.some.inj hput).symm, rfl, rfl, rfl, rfl, fun q => by simp⟩
    | true =>
      exact ⟨_, (Option.some.inj hput).symm, rfl, rfl, rfl, rfl,
        fun q => by simp [bitAt_orBit bs.data h.bitOffset_lt, hpos]⟩
  have hoff : b.getOffset = bits.length := by simp only [getOffset, hbit, hbyte]; omega
  obtain ⟨hoff', hlt⟩ := advance_getOffset (hbit ▸ h.bitOffset_lt : b.bitOffset < 8)
  refine ⟨by simp [herr, h.error_eq], hlt, by simp [hoff', hoff], ?_, fun q hq => ?_,
    fun q hq hq' => ?_⟩
  · simp only [List.length_append, List.length_singleton, advance_dataSize, hsize]
    omega
  · rw [advance_data, hdata]
    simp only [List.length_append, List.length_singleton] at hq
    rcases Nat.lt_or_ge q bits.length with hq' | hq'
    · rw [h.bits_eq q hq', List.getElem_append_left hq']
      simp [show q ≠ bits.length by omega]
    · obtain rfl : q = bits.length := by omega
      rw [h.zero_ahead _ le_rfl (by omega)]
      simp
  · rw [advance_data, hdata]
    simp only [List.length_append, List.length_singleton, advance_dataSize, hsize] at hq hq'
    rw [h.zero_ahead q (by omega) hq']
    simp [show q ≠ bits.length by omega]

theorem putBits (h : Wrote bs bits) {v k : ℕ} (hput : bs.putBits v k = some bs') :
    Wrote bs' (bits ++ msb k v) := by
  induction k generalizing bs bits with
  | zero =>
    obtain rfl := Option.some.inj hput
    simpa [msb] using h
  | succ k ih =>
    unfold Bitstream.putBits at hput
    rcases hbit : bs.putBit (v.testBit k) with _ | bs₁
    · rw [hbit] at hput; exact absurd hput (by simp)
    · rw [hbit] at hput
      simpa [msb] using ih (h.putBit hbit) hput

theorem put (h : Wrote bs bits) {v bitCount : ℕ} (hput : bs.put v bitCount = some bs') :
    Wrote bs' (bits ++ msb bitCount v) :=
  h.putBits hput

/-- A writer with room for `k` more bits puts them. -/
theorem exists_putBits (h : Wrote bs bits) (v : ℕ) {k : ℕ}
    (hk : bits.length + k ≤ 8 * bs.dataSize) : ∃ bs', bs.putBits v k = some bs' := by
  induction k generalizing bs bits with
  | zero => exact ⟨bs, rfl⟩
  | succ k ih =>
    have hc : bs.checkForError = true := by
      rw [checkForError_eq h.error_eq h.bitOffset_lt, h.getOffset_eq, decide_eq_true_eq]
      omega
    obtain ⟨bs₁, hbit⟩ : ∃ bs₁, bs.putBit (v.testBit k) = some bs₁ :=
      ⟨_, by rw [Bitstream.putBit, if_pos hc]⟩
    have hk₁ : (bits ++ [v.testBit k]).length + k ≤ 8 * bs₁.dataSize := by
      rw [putBit_dataSize hbit, List.length_append, List.length_singleton]
      omega
    obtain ⟨bs', hput⟩ := ih (h.putBit hbit) hk₁
    exact ⟨bs', by rw [Bitstream.putBits, hbit]; exact hput⟩

/-- A writer with room for a skip makes it. -/
theorem exists_skip (h : Wrote bs bits) (n : ℕ) (hn : bits.length < 8 * bs.dataSize) :
    ∃ bs', bs.skip n = some bs' := by
  have hc : bs.checkForError = true := by
    rw [checkForError_eq h.error_eq h.bitOffset_lt, h.getOffset_eq, decide_eq_true_eq]
    exact hn
  obtain ⟨bs', hskip, -⟩ := skip_of_checkForError hc n
  exact ⟨bs', hskip⟩

/-- Skipping over zeroed bits is writing zeros. -/
theorem skip (h : Wrote bs bits) {n : ℕ} (hskip : bs.skip n = some bs')
    (hn : bits.length + n ≤ 8 * bs.dataSize) : Wrote bs' (bits ++ List.replicate n false) := by
  unfold Bitstream.skip at hskip
  split_ifs at hskip
  obtain rfl := Option.some.inj hskip
  have hlen := h.getOffset_eq
  simp only [getOffset] at hlen
  refine ⟨h.error_eq, Nat.mod_lt _ (by decide), ?_, by simpa using hn, fun q hq => ?_,
    fun q hq hq' => h.zero_ahead q (by simp at hq; omega) hq'⟩
  · simp only [getOffset, List.length_append, List.length_replicate]
    omega
  · simp only [List.length_append, List.length_replicate] at hq
    rcases Nat.lt_or_ge q bits.length with hq' | hq'
    · rw [List.getElem_append_left hq']
      exact h.bits_eq q hq'
    · rw [List.getElem_append_right hq', List.getElem_replicate]
      exact h.zero_ahead q hq' (by omega)

/-- The bytes the writer touched cover what it wrote, and lie in the buffer. -/
theorem getLength_le (h : Wrote bs bits) :
    bits.length ≤ 8 * bs.getLength ∧ bs.getLength ≤ bs.dataSize := by
  have hoff := h.getOffset_eq
  have hle := h.length_le
  have hb := h.bitOffset_lt
  simp only [getOffset] at hoff
  unfold getLength
  split_ifs <;> omega

end Wrote

/-! ## Reading -/

/-- The reader finds `bits` from its cursor on, inside the buffer. -/
structure Reads (bs : Bitstream) (bits : List Bool) : Prop where
  error_eq : bs.error = false
  bitOffset_lt : bs.bitOffset < 8
  within : bs.getOffset + bits.length ≤ 8 * bs.dataSize
  bits_eq : ∀ q (h : q < bits.length), bs.data.bitAt (bs.getOffset + q) = bits[q]

/-- A buffer whose first bits are `bits` is read from the start. -/
theorem reads_init {m : Mem} {n : ℕ} {bits : List Bool} (hlen : bits.length ≤ 8 * n)
    (hbits : ∀ q (h : q < bits.length), m.bitAt q = bits[q]) : Reads (init m n) bits where
  error_eq := rfl
  bitOffset_lt := by simp [init]
  within := by simpa [getOffset, init] using hlen
  bits_eq q h := by simpa [getOffset, init] using hbits q h

namespace Reads

variable {bs : Bitstream} {bits : List Bool}

theorem getBit (h : Reads bs (b :: bits)) :
    ∃ bs', bs.getBit = some (b, bs') ∧ Reads bs' bits ∧ bs'.getOffset = bs.getOffset + 1 ∧
      bs'.data = bs.data ∧ bs'.dataSize = bs.dataSize := by
  have hc : bs.checkForError = true := by
    rw [checkForError_eq h.error_eq h.bitOffset_lt, decide_eq_true_eq]
    have := h.within
    simp only [List.length_cons] at this
    omega
  have hbit : (bs.data bs.byteOffset).toNat.testBit (7 - bs.bitOffset) = b := by
    have h₀ := h.bits_eq 0 (by simp)
    rwa [Nat.add_zero, List.getElem_cons_zero, ← testBit_eq_bitAt h.bitOffset_lt] at h₀
  obtain ⟨hoff, hlt⟩ := advance_getOffset h.bitOffset_lt
  refine ⟨bs.advance, by rw [Bitstream.getBit, if_pos hc, hbit], ⟨by simp [h.error_eq], hlt,
    ?_, fun q hq => ?_⟩, hoff, advance_data bs, advance_dataSize bs⟩
  · have := h.within
    simp only [List.length_cons] at this
    rw [hoff, advance_dataSize]
    omega
  · have hq₁ := h.bits_eq (q + 1) (by simpa using hq)
    rw [List.getElem_cons_succ, ← Nat.add_assoc] at hq₁
    rwa [advance_data, hoff, Nat.add_right_comm]

/-- `Bitstream_Get` reads any bits back, shifting them into the accumulator. -/
theorem getBits {l : List Bool} (h : Reads bs (l ++ bits)) (acc : ℕ) :
    ∃ bs', bs.getBits acc l.length = some (ofMsbFrom acc l, bs') ∧ Reads bs' bits ∧
      bs'.getOffset = bs.getOffset + l.length ∧ bs'.data = bs.data ∧
      bs'.dataSize = bs.dataSize := by
  induction l generalizing bs acc with
  | nil => exact ⟨bs, rfl, by simpa using h, rfl, rfl, rfl⟩
  | cons b l ih =>
    obtain ⟨bs₁, hget, h₁, hoff₁, hdata₁, hsize₁⟩ := h.getBit
    obtain ⟨bs₂, hget₂, h₂, hoff₂, hdata₂, hsize₂⟩ := ih h₁ (acc * 2 + b.toNat)
    refine ⟨bs₂, ?_, h₂, by simp only [hoff₂, hoff₁, List.length_cons]; omega,
      hdata₂.trans hdata₁, hsize₂.trans hsize₁⟩
    rw [List.length_cons, Bitstream.getBits, hget]
    exact hget₂

theorem get_msb {k v : ℕ} (h : Reads bs (msb k v ++ bits)) (hv : v < 2 ^ k) :
    ∃ bs', bs.get k = some (v, bs') ∧ Reads bs' bits ∧ bs'.getOffset = bs.getOffset + k ∧
      bs'.data = bs.data ∧ bs'.dataSize = bs.dataSize := by
  obtain ⟨bs', hget, h', hoff, hdata, hsize⟩ := h.getBits 0
  rw [length_msb, ofMsbFrom_msb_of_lt hv] at hget
  rw [length_msb] at hoff
  exact ⟨bs', hget, h', hoff, hdata, hsize⟩

theorem skip {l : List Bool} (h : Reads bs (l ++ bits)) (hl : 0 < l.length) :
    ∃ bs', bs.skip l.length = some bs' ∧ Reads bs' bits ∧
      bs'.getOffset = bs.getOffset + l.length ∧ bs'.data = bs.data ∧
      bs'.dataSize = bs.dataSize := by
  have hwithin := h.within
  simp only [List.length_append] at hwithin
  have hc : bs.checkForError = true := by
    rw [checkForError_eq h.error_eq h.bitOffset_lt, decide_eq_true_eq]
    omega
  obtain ⟨bs', hskip, hoff, hlt, hdata, hsize, herr⟩ := skip_of_checkForError hc l.length
  refine ⟨bs', hskip, ⟨herr.trans h.error_eq, hlt, ?_, fun q hq => ?_⟩, hoff, hdata, hsize⟩
  · rw [hoff, hsize]
    omega
  · have hq₁ := h.bits_eq (l.length + q) (by simp; omega)
    rw [hoff, hdata, Nat.add_assoc, hq₁]
    simp

end Reads

end Bitstream

end Cloudberry.Visimap
