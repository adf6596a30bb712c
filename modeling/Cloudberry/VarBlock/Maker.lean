import Cloudberry.VarBlock.Layout

/-!
# Making a VarBlock

A caller of the maker asks `VarBlockMakerGetNextItemPtr` for room for each item and writes the
item through the pointer it gets (`VarBlockMaker.putItem`); `VarBlockMaker.putItems` does so for
a list of items, some of which may be refused. `MakerInv st items small` is what the maker keeps
between calls, for the accepted `items` and the current width of the offsets: the header words,
the items in the buffer, their offsets in the scratch space, the counters, and room in the buffer
for the block `VarBlockMakerFinish` will lay out.

* `VarBlockMakerInit` establishes the invariant (`init_inv`).
* A call that refuses an item leaves the maker as it was (`getNextItemPtr_none`); a call that
  accepts one keeps the invariant with the item added (`putItem_inv`), in each of the three ways
  the call can accept: two-byte offsets, the switch to three-byte offsets that widens the stored
  ones in place, and three-byte offsets. So does any run of calls (`putItems_inv`).
* `VarBlockMakerFinish` on a maker that keeps the invariant lays out a block that holds the items
  (`finish_holds`), no longer than the buffer.

`varBlock_roundTrip` puts the maker and the reader of `Cloudberry.VarBlock.Layout` together.
-/

namespace Cloudberry.VarBlock

open BitField ByteMem MachineInt VarBlockHeader

/-- The first header word while the maker runs: the initial version and the small-offsets flag,
with the length sum still zero. -/
def headerWord0 (small : Bool) : ℕ := if small then 0x81000000 else 0x01000000

namespace VarBlockMaker

/-- The caller's side of `VarBlockMakerGetNextItemPtr`: ask for room for the item and, given a
pointer, copy the item there. -/
def putItem (st : VarBlockMaker) (item : List UInt8) : Option ℕ × VarBlockMaker :=
  match st.getNextItemPtr item.length with
  | (some p, st') => (some p, { st' with buffer := st'.buffer.write p item })
  | (none, st') => (none, st')

/-- Put the items one after the other: the maker at the end, and the items it accepted. -/
def putItems (st : VarBlockMaker) : List (List UInt8) → VarBlockMaker × List (List UInt8)
  | [] => (st, [])
  | item :: rest =>
    match st.putItem item with
    | (some _, st') => ((st'.putItems rest).1, item :: (st'.putItems rest).2)
    | (none, st') => st'.putItems rest

end VarBlockMaker

/-! ## The invariant -/

/-- What the maker keeps between calls, for the accepted `items` and offsets of
`offsetWidth small` bytes. -/
structure MakerInv (st : VarBlockMaker) (items : List (List UInt8)) (small : Bool) : Prop where
  word0_eq : bytes03 st.buffer = headerWord0 small
  word1_eq : bytes47 st.buffer = 0
  items_eq : st.buffer.read varblockHeaderLen (itemsLen items) = items.flatten
  currentItemCount_eq : st.currentItemCount = items.length
  currentItemLenSum_eq : st.currentItemLenSum = itemsLen items
  nextItemPtr_eq : st.nextItemPtr = varblockHeaderLen + itemsLen items
  last2ByteOffsetPtr_eq : st.last2ByteOffsetPtr = 63 * 1024
  maxItemCount_eq : st.maxItemCount = st.tempScratchSpaceLen / offsetWidth small
  count_le : items.length ≤ st.maxItemCount
  offsets_eq : ∀ i < items.length,
    st.tempScratchSpace.load (i * offsetWidth small) (offsetWidth small) = itemOffset items i
  space_le : offsetArrayStart (itemsLen items) + roundUpEven (items.length * offsetWidth small) ≤
    st.maxBufferLen

/-- A maker that keeps the invariant and, for the next `item`, has stored its offset and found
room for it. -/
structure ReadyInv (st : VarBlockMaker) (items : List (List UInt8)) (item : List UInt8)
    (small : Bool) : Prop extends MakerInv st items small where
  nextOffset_eq : st.tempScratchSpace.load (items.length * offsetWidth small) (offsetWidth small) =
    varblockHeaderLen + itemsLen items
  count_lt : items.length < st.maxItemCount
  space_next : offsetArrayStart (itemsLen items + item.length) +
    roundUpEven ((items.length + 1) * offsetWidth small) ≤ st.maxBufferLen

theorem getOffsetsAreSmall_headerWord0 (small : Bool) :
    getOffsetsAreSmall (headerWord0 small) = small.toNat := by
  cases small <;> decide

theorem roundUpEven_mul_two (n : ℕ) : roundUpEven (n * 2) = n * 2 := by
  simp only [roundUpEven]
  omega

theorem roundUpEven_mono {m n : ℕ} (h : m ≤ n) : roundUpEven m ≤ roundUpEven n := by
  simp only [roundUpEven]
  omega

/-! ## Init -/

/-- `VarBlockMakerInit` starts an empty block with small offsets. -/
theorem init_inv (buffer : Mem) {maxBufferLen : ℕ} (hlen : varblockHeaderLen ≤ maxBufferLen)
    (tempScratchSpace : Mem) (tempScratchSpaceLen : ℕ) :
    MakerInv (VarBlockMaker.init buffer maxBufferLen tempScratchSpace tempScratchSpaceLen) [] true
    where
  word0_eq := by
    have h0 : (buffer.write 0 (List.replicate varblockHeaderLen 0)).load 0 4 = 0 := by
      rw [Mem.load, read_write_replicate buffer 0 le_rfl (by decide), leValue_replicate_zero]
    simp only [VarBlockMaker.init, bytes03, load_update_self, h0]
    decide
  word1_eq := by
    have h0 : (buffer.write 0 (List.replicate varblockHeaderLen 0)).load 4 4 = 0 := by
      rw [Mem.load, read_write_replicate buffer 0 (Nat.zero_le 4) (by decide),
        leValue_replicate_zero]
    simp only [VarBlockMaker.init, bytes47]
    rw [load_update_of_disjoint _ _ (.inr le_rfl), load_update_of_disjoint _ _ (.inr le_rfl), h0]
  items_eq := by simp [itemsLen, Mem.read]
  currentItemCount_eq := rfl
  currentItemLenSum_eq := rfl
  nextItemPtr_eq := rfl
  last2ByteOffsetPtr_eq := rfl
  maxItemCount_eq := rfl
  count_le := Nat.zero_le _
  offsets_eq := by simp
  space_le := by simpa [VarBlockMaker.init, offsetArrayStart, itemsLen] using hlen

/-! ## Accepting an item -/

/-- Accepting the item and copying it through the pointer keeps the invariant. -/
theorem ReadyInv.accept {st : VarBlockMaker} {items : List (List UInt8)} {item : List UInt8}
    {small : Bool} (h : ReadyInv st items item small) :
    MakerInv { st.accept item.length with buffer := st.buffer.write st.nextItemPtr item }
      (items ++ [item]) small := by
  have hnext := h.nextItemPtr_eq
  have hH : varblockHeaderLen = 8 := rfl
  refine ⟨?_, ?_, ?_, ?_, ?_, ?_, h.last2ByteOffsetPtr_eq, h.maxItemCount_eq, ?_, ?_, ?_⟩
  · simp only [bytes03]
    rw [load_write_of_disjoint _ _ (.inl (by omega)), ← bytes03, h.word0_eq]
  · simp only [bytes47]
    rw [load_write_of_disjoint _ _ (.inl (by omega)), ← bytes47, h.word1_eq]
  · -- the new item follows the ones already there
    simp only [itemsLen_append, List.flatten_append, List.flatten_singleton]
    rw [itemsLen_eq_length_flatten, read_eq_append_iff, ← itemsLen_eq_length_flatten,
      read_write_of_disjoint _ _ (.inl (by omega)), h.items_eq, ← hnext, read_write_self]
    exact ⟨rfl, rfl⟩
  · simp [VarBlockMaker.accept, h.currentItemCount_eq]
  · simp [VarBlockMaker.accept, h.currentItemLenSum_eq, itemsLen_append]
  · simp [VarBlockMaker.accept, hnext, itemsLen_append, Nat.add_assoc]
  · simp only [VarBlockMaker.accept, List.length_append, List.length_singleton]
    exact h.count_lt
  · intro i hi
    simp only [List.length_append, List.length_singleton] at hi
    rcases Nat.lt_or_ge i items.length with hi' | hi'
    · rw [itemOffset_append_of_le _ hi'.le]
      exact h.offsets_eq i hi'
    · obtain rfl : i = items.length := by omega
      rw [itemOffset_append_of_le _ le_rfl, itemOffset_length]
      exact h.nextOffset_eq
  · simpa [VarBlockMaker.accept, itemsLen_append] using h.space_next

/-! ## The three ways a call accepts -/

/-- When its sums stay below `INT32_MAX`, the `int32` test of `VarBlockMakerGetNextItemPtr` is
the test on the naturals. -/
theorem VarBlockMaker.newTotalLenExceeds_eq (st : VarBlockMaker) {itemLen offsetArrayLen : ℕ}
    (hsum : varblockHeaderLen + st.currentItemLenSum + itemLen + offsetArrayLen < 2 ^ 31 - 1)
    (hM : st.maxBufferLen < 2 ^ 31) :
    st.newTotalLenExceeds itemLen offsetArrayLen = decide (st.maxBufferLen <
      varblockHeaderLen + roundUpEven (st.currentItemLenSum + itemLen) + offsetArrayLen) := by
  have hS := int32_toInt_ofNat_of_lt (n := st.currentItemLenSum) (by omega)
  have hI := int32_toInt_ofNat_of_lt (n := itemLen) (by omega)
  have hO := int32_toInt_ofNat_of_lt (n := offsetArrayLen) (by omega)
  have h8 := int32_toInt_ofNat_of_lt (n := varblockHeaderLen) (by omega)
  have hMax := int32_toInt_ofNat_of_lt (n := st.maxBufferLen) hM
  have h1 : (1 : Int32).toInt = 1 := rfl
  have h2 : (2 : Int32).toInt = 2 := rfl
  -- each step of the sum stays below `INT32_MAX`, so each is the step on the integers
  have e₁ : (Int32.ofNat st.currentItemLenSum + Int32.ofNat itemLen).toInt =
      st.currentItemLenSum + itemLen := by
    rw [int32_toInt_add_of_lt (by rw [hS, hI]; omega) (by rw [hS, hI]; omega), hS, hI]
  have e₂ : (Int32.ofNat st.currentItemLenSum + Int32.ofNat itemLen + 1).toInt =
      st.currentItemLenSum + itemLen + 1 := by
    rw [int32_toInt_add_of_lt (by rw [e₁, h1]; omega) (by rw [e₁, h1]; omega), e₁, h1]
  have e₃ : ((Int32.ofNat st.currentItemLenSum + Int32.ofNat itemLen + 1) / 2).toInt =
      (st.currentItemLenSum + itemLen + 1 : ℤ) / 2 := by
    rw [int32_toInt_div_of_nonneg (by rw [e₂]; omega) (by rw [h2]; omega), e₂, h2]
  have e₄ : ((Int32.ofNat st.currentItemLenSum + Int32.ofNat itemLen + 1) / 2 * 2).toInt =
      (st.currentItemLenSum + itemLen + 1 : ℤ) / 2 * 2 := by
    rw [int32_toInt_mul_of_lt (by rw [e₃, h2]; omega) (by rw [e₃, h2]; omega), e₃, h2]
  have e₅ : (Int32.ofNat varblockHeaderLen +
      (Int32.ofNat st.currentItemLenSum + Int32.ofNat itemLen + 1) / 2 * 2).toInt =
      varblockHeaderLen + (st.currentItemLenSum + itemLen + 1 : ℤ) / 2 * 2 := by
    rw [int32_toInt_add_of_lt (by rw [h8, e₄]; omega) (by rw [h8, e₄]; omega), h8, e₄]
  have e₆ : (Int32.ofNat varblockHeaderLen +
      (Int32.ofNat st.currentItemLenSum + Int32.ofNat itemLen + 1) / 2 * 2 +
      Int32.ofNat offsetArrayLen).toInt =
      varblockHeaderLen + (st.currentItemLenSum + itemLen + 1 : ℤ) / 2 * 2 + offsetArrayLen := by
    rw [int32_toInt_add_of_lt (by rw [e₅, hO]; omega) (by rw [e₅, hO]; omega), e₅, hO]
  rw [VarBlockMaker.newTotalLenExceeds, decide_eq_decide, gt_iff_lt, Int32.lt_iff_toInt_lt, e₆,
    hMax, roundUpEven]
  omega

-- past `INT32_MAX` the sum wraps: on a fresh maker an item of `2 ^ 31 - 1` bytes passes the test
example : (VarBlockMaker.init (fun _ => 0) 100 (fun _ => 0) 12).newTotalLenExceeds (2 ^ 31 - 1) 2 =
    false := by
  decide

section Step

variable {st : VarBlockMaker} {items : List (List UInt8)} {item : List UInt8} {small : Bool}

/-- On a maker that keeps the invariant in a buffer below `2^24` bytes, for an item below `2^30`
bytes and an offset array the size of those the call tests, the `int32` test is the test on the
naturals: the sums cannot reach `INT32_MAX`. -/
theorem newTotalLenExceeds_of_inv (h : MakerInv st items small) (hM : st.maxBufferLen < 2 ^ 24)
    (hitem : item.length < 2 ^ 30) (offsetArrayLen : ℕ)
    (hoff : offsetArrayLen ≤ 3 * st.currentItemCount + 4) :
    st.newTotalLenExceeds item.length offsetArrayLen = decide (st.maxBufferLen <
      varblockHeaderLen + roundUpEven (st.currentItemLenSum + item.length) + offsetArrayLen) := by
  have hspace := h.space_le
  have hS := roundUpEven_ge (itemsLen items)
  have hR := roundUpEven_ge (items.length * offsetWidth small)
  have hw : items.length * 2 ≤ items.length * offsetWidth small :=
    Nat.mul_le_mul_left _ (by cases small <;> decide)
  have hH : varblockHeaderLen = 8 := rfl
  rw [offsetArrayStart] at hspace
  rw [h.currentItemCount_eq] at hoff
  apply st.newTotalLenExceeds_eq _ (by omega)
  rw [h.currentItemLenSum_eq]
  omega

/-- Two-byte offsets that still reach the item: its offset goes to entry `currentItemCount`. -/
theorem smallStep_ready (h : MakerInv st items true)
    (hptr : st.nextItemPtr ≤ st.last2ByteOffsetPtr) (hlt : st.currentItemCount < st.maxItemCount)
    (hfit : varblockHeaderLen + roundUpEven (st.currentItemLenSum + item.length) +
      st.currentItemCount * 2 + 2 ≤ st.maxBufferLen) :
    ReadyInv { st with
      tempScratchSpace := st.tempScratchSpace.store (st.currentItemCount * 2) 2 st.nextItemPtr }
      items item true := by
  have hw : offsetWidth true = 2 := rfl
  have hn := h.currentItemCount_eq
  have hoff : st.nextItemPtr < 256 ^ 2 := by
    rw [h.last2ByteOffsetPtr_eq] at hptr
    omega
  refine ⟨⟨h.word0_eq, h.word1_eq, h.items_eq, hn, h.currentItemLenSum_eq, h.nextItemPtr_eq,
    h.last2ByteOffsetPtr_eq, h.maxItemCount_eq, h.count_le, fun i hi => ?_, h.space_le⟩, ?_,
    hn ▸ hlt, ?_⟩
  · -- the entries already stored lie below the new one
    rw [hw, load_store_of_disjoint _ _ (.inl (by rw [hn]; omega)), ← hw]
    exact h.offsets_eq i hi
  · rw [hw, ← hn, load_store_of_lt hoff, h.nextItemPtr_eq]
  · dsimp only
    rw [hw, roundUpEven_mul_two, offsetArrayStart, ← h.currentItemLenSum_eq, ← hn]
    omega

/-- Three-byte offsets: the offset goes to entry `currentItemCount`. -/
theorem largeStep_ready (h : MakerInv st items false) (hM : st.maxBufferLen < 2 ^ 24)
    (hlt : st.currentItemCount < st.maxItemCount)
    (hfit : varblockHeaderLen + roundUpEven (st.currentItemLenSum + item.length) +
      roundUpEven ((st.currentItemCount + 1) * varblockByteOffset24Len) ≤ st.maxBufferLen) :
    ReadyInv { st with
      tempScratchSpace := st.tempScratchSpace.store (st.currentItemCount * varblockByteOffset24Len)
        varblockByteOffset24Len st.nextItemPtr }
      items item false := by
  have hw : offsetWidth false = varblockByteOffset24Len := rfl
  have hn := h.currentItemCount_eq
  have hoff : st.nextItemPtr < 256 ^ varblockByteOffset24Len := by
    have := roundUpEven_ge (itemsLen items)
    have := h.space_le
    rw [offsetArrayStart] at this
    rw [h.nextItemPtr_eq]
    simp only [varblockByteOffset24Len]
    omega
  refine ⟨⟨h.word0_eq, h.word1_eq, h.items_eq, hn, h.currentItemLenSum_eq, h.nextItemPtr_eq,
    h.last2ByteOffsetPtr_eq, h.maxItemCount_eq, h.count_le, fun i hi => ?_, h.space_le⟩, ?_,
    hn ▸ hlt, ?_⟩
  · have hdisj : i * varblockByteOffset24Len + varblockByteOffset24Len ≤
        st.currentItemCount * varblockByteOffset24Len := by
      rw [hn, ← Nat.succ_mul]
      exact Nat.mul_le_mul_right _ hi
    rw [hw, load_store_of_disjoint _ _ (.inl hdisj), ← hw]
    exact h.offsets_eq i hi
  · rw [hw, ← hn, load_store_of_lt hoff, h.nextItemPtr_eq]
  · rw [hw, offsetArrayStart, ← h.currentItemLenSum_eq, ← hn]
    exact hfit

/-- The first item past `last2ByteOffsetPtr`: the flag is cleared, the stored two-byte offsets
are widened in place to three bytes, and the new offset goes after them. -/
theorem widenStep_ready (h : MakerInv st items true) (hM : st.maxBufferLen < 2 ^ 24)
    (hlt : st.currentItemCount < st.tempScratchSpaceLen / varblockByteOffset24Len)
    (hfit : varblockHeaderLen + roundUpEven (st.currentItemLenSum + item.length) +
      roundUpEven ((st.currentItemCount + 1) * varblockByteOffset24Len) ≤ st.maxBufferLen) :
    ReadyInv { st with
      buffer := st.buffer.update 0 4 fun w => offsetsAreSmall.setFlag 0x7FFFFFFF w false
      maxItemCount := st.tempScratchSpaceLen / varblockByteOffset24Len
      tempScratchSpace :=
        (st.tempScratchSpace.widenDown 2 varblockByteOffset24Len st.currentItemCount).store
          (st.currentItemCount * varblockByteOffset24Len) varblockByteOffset24Len st.nextItemPtr }
      items item false := by
  have hw : offsetWidth false = varblockByteOffset24Len := rfl
  have hn := h.currentItemCount_eq
  have hS := roundUpEven_mono (Nat.le_add_right (itemsLen items) item.length)
  have hR : roundUpEven (st.currentItemCount * varblockByteOffset24Len) ≤
      roundUpEven ((st.currentItemCount + 1) * varblockByteOffset24Len) :=
    roundUpEven_mono (Nat.mul_le_mul_right _ (Nat.le_succ _))
  rw [← h.currentItemLenSum_eq] at hS
  have hoff : st.nextItemPtr < 256 ^ varblockByteOffset24Len := by
    have := roundUpEven_ge (st.currentItemLenSum + item.length)
    rw [h.nextItemPtr_eq, ← h.currentItemLenSum_eq]
    simp only [varblockByteOffset24Len] at hfit ⊢
    omega
  have hwiden := (widenDown_spec (by decide : 2 ≤ varblockByteOffset24Len) st.currentItemCount
    st.tempScratchSpace).1
  refine ⟨⟨?_, ?_, ?_, hn, h.currentItemLenSum_eq, h.nextItemPtr_eq, h.last2ByteOffsetPtr_eq, rfl,
    hn ▸ hlt.le, fun i hi => ?_, ?_⟩, ?_, hn ▸ hlt, ?_⟩
  · simp only [bytes03]
    rw [load_update_self, ← bytes03, h.word0_eq]
    decide
  · simp only [bytes47]
    rw [load_update_of_disjoint _ _ (.inr le_rfl), ← bytes47, h.word1_eq]
  · rw [read_update_of_disjoint _ _ (.inr (by decide))]
    exact h.items_eq
  · -- entry `i` holds its old value, read before anything was written over it
    have hdisj : i * varblockByteOffset24Len + varblockByteOffset24Len ≤
        st.currentItemCount * varblockByteOffset24Len := by
      rw [hn, ← Nat.succ_mul]
      exact Nat.mul_le_mul_right _ hi
    rw [hw, load_store_of_disjoint _ _ (.inl hdisj), Nat.mul_comm,
      hwiden i (by omega), Nat.mul_comm]
    exact h.offsets_eq i hi
  · dsimp only
    rw [hw, offsetArrayStart, ← h.currentItemLenSum_eq, ← hn]
    omega
  · rw [hw, ← hn, load_store_of_lt hoff, h.nextItemPtr_eq]
  · rw [hw, offsetArrayStart, ← h.currentItemLenSum_eq, ← hn]
    exact hfit

/-- A call that returns `NULL` leaves the maker as it was. -/
theorem getNextItemPtr_none {itemLen : ℕ} (hp : (st.getNextItemPtr itemLen).1 = none) :
    (st.getNextItemPtr itemLen).2 = st := by
  unfold VarBlockMaker.getNextItemPtr at hp ⊢
  dsimp only at hp ⊢
  split_ifs at hp ⊢ <;> rfl

/-- A call that returns a pointer returns `nextItemPtr`, and the maker it leaves is a ready maker
that has accepted the item. -/
theorem getNextItemPtr_ready (h : MakerInv st items small) (hM : st.maxBufferLen < 2 ^ 24)
    (hitem : item.length < 2 ^ 30) {p : ℕ} (hp : (st.getNextItemPtr item.length).1 = some p) :
    p = st.nextItemPtr ∧ ∃ st₁ small', (st.getNextItemPtr item.length).2 = st₁.accept item.length ∧
      st₁.nextItemPtr = st.nextItemPtr ∧ st₁.maxBufferLen = st.maxBufferLen ∧
      st₁.tempScratchSpaceLen = st.tempScratchSpaceLen ∧ ReadyInv st₁ items item small' := by
  have hsmall : getOffsetsAreSmall (bytes03 st.buffer) ≠ 0 ↔ small = true := by
    rw [h.word0_eq, getOffsetsAreSmall_headerWord0]
    cases small <;> simp
  -- the `int32` tests of the three ways to accept are tests on the naturals
  have hex₃ := newTotalLenExceeds_of_inv h hM hitem
    (roundUpEven ((st.currentItemCount + 1) * varblockByteOffset24Len))
    (by simp only [roundUpEven, varblockByteOffset24Len]; omega)
  have hex₂ := newTotalLenExceeds_of_inv h hM hitem (st.currentItemCount * 2 + 2) (by omega)
  unfold VarBlockMaker.getNextItemPtr at hp ⊢
  dsimp only at hp ⊢
  simp only [hex₃, hex₂, decide_eq_true_eq] at hp ⊢
  -- the branches that return `NULL` contradict `hp`; three are left
  split_ifs at hp ⊢ with h₁ h₂ h₃ h₄ h₅ h₆ h₇
  · -- the switch to three-byte offsets
    obtain rfl : small = true := hsmall.1 h₂
    exact ⟨(Option.some.inj hp).symm, _, false, rfl, rfl, rfl, rfl,
      widenStep_ready h hM (by omega) (by omega)⟩
  · obtain rfl : small = true := hsmall.1 h₂
    exact ⟨(Option.some.inj hp).symm, _, true, rfl, rfl, rfl, rfl,
      smallStep_ready h (by omega) (by omega) (by omega)⟩
  · obtain rfl : small = false := Bool.eq_false_iff.2 fun hs => h₂ (hsmall.2 hs)
    exact ⟨(Option.some.inj hp).symm, _, false, rfl, rfl, rfl, rfl,
      largeStep_ready h hM (by omega) (by omega)⟩

/-- The caller's copy of an accepted item keeps the invariant with the item added. -/
theorem putItem_inv (h : MakerInv st items small) (hM : st.maxBufferLen < 2 ^ 24)
    (hitem : item.length < 2 ^ 30) {p : ℕ} (hp : (st.putItem item).1 = some p) :
    ∃ small', MakerInv (st.putItem item).2 (items ++ [item]) small' ∧
      (st.putItem item).2.maxBufferLen = st.maxBufferLen ∧
      (st.putItem item).2.tempScratchSpaceLen = st.tempScratchSpaceLen := by
  unfold VarBlockMaker.putItem at hp ⊢
  rcases hres : st.getNextItemPtr item.length with ⟨_ | p', st'⟩
  · simp [hres] at hp
  · obtain ⟨rfl, st₁, small', hst, hnext, hM', hL', hready⟩ :=
      getNextItemPtr_ready h hM hitem (p := p') (by rw [hres])
    rw [hres] at hst
    subst hst
    exact ⟨small', hnext ▸ hready.accept, hM', hL'⟩

theorem putItem_none {itemPtr : Option ℕ} {st' : VarBlockMaker}
    (hp : st.putItem item = (itemPtr, st')) (hnone : itemPtr = none) : st' = st := by
  subst hnone
  unfold VarBlockMaker.putItem at hp
  rcases hres : st.getNextItemPtr item.length with ⟨_ | p', st''⟩
  · have hsame : (st.getNextItemPtr item.length).2 = st := getNextItemPtr_none (by rw [hres])
    rw [hres] at hsame hp
    simp only [Prod.mk.injEq] at hp
    rw [← hp.2, ← hsame]
  · simp [hres] at hp

end Step

/-- Any run of calls keeps the invariant, for the items accepted so far followed by those the run
accepts; the induction follows the list of items offered. -/
theorem putItems_inv (attempts : List (List UInt8))
    (hitems : ∀ item ∈ attempts, item.length < 2 ^ 30) :
    ∀ {st : VarBlockMaker} {items : List (List UInt8)} {small : Bool}, MakerInv st items small →
      st.maxBufferLen < 2 ^ 24 →
      ∃ small', MakerInv (st.putItems attempts).1 (items ++ (st.putItems attempts).2) small' ∧
        (st.putItems attempts).1.maxBufferLen = st.maxBufferLen ∧
        (st.putItems attempts).1.tempScratchSpaceLen = st.tempScratchSpaceLen := by
  induction attempts with
  | nil =>
    intro st items small h _
    exact ⟨small, by simpa [VarBlockMaker.putItems] using h, rfl, rfl⟩
  | cons item rest ih =>
    intro st items small h hM
    have hitem := hitems item List.mem_cons_self
    have hrest : ∀ item ∈ rest, item.length < 2 ^ 30 := fun i hi => hitems i (.tail _ hi)
    rcases hput : st.putItem item with ⟨_ | p, st'⟩
    · -- refused: the maker is as it was
      have hst := putItem_none hput rfl
      subst hst
      simpa [VarBlockMaker.putItems, hput] using ih hrest h hM
    · obtain ⟨small', h', hM', hL'⟩ := putItem_inv h hM hitem (p := p) (by rw [hput])
      rw [hput] at h' hM' hL'
      dsimp only at h' hM' hL'
      obtain ⟨small'', h'', hM'', hL''⟩ := ih hrest h' (hM' ▸ hM)
      simp only [VarBlockMaker.putItems, hput]
      refine ⟨small'', ?_, hM''.trans hM', hL''.trans hL'⟩
      simpa using h''

-- a buffer of 14 bytes holds a block of one 3-byte item (8 + 4 + 2 bytes) and refuses a second
example : ((VarBlockMaker.init (fun _ => 0) 14 (fun _ => 0) 12).putItems [[1, 2, 3], [4, 5]]).2 =
    [[1, 2, 3]] := by
  decide

/-! ## Finish -/

theorem getOffsetsAreSmall_eq_get {w : ℕ} (hw : w < 2 ^ 32) :
    getOffsetsAreSmall w = offsetsAreSmall.get w := by
  apply Nat.eq_of_testBit_eq
  intro i
  simp only [getOffsetsAreSmall, Field.get, getBits, offsetsAreSmall, Nat.testBit_shiftRight,
    Nat.testBit_and]
  rcases Nat.eq_zero_or_pos i with rfl | hi
  · have hmask : Nat.testBit 0x80000000 31 = true := by decide
    simp [hmask]
  · -- above bit 31 a 32-bit word has no bits
    have hbit : w.testBit (31 + i) = false :=
      Nat.testBit_lt_two_pow (lt_of_lt_of_le hw (Nat.pow_le_pow_right (by decide) (by omega)))
    simp [hbit]

/-- The first header word as `VarBlockMakerFinish` leaves it. -/
theorem finishWord0_fields (small : Bool) {itemLenSum' : ℕ} (hS : itemLenSum' < 2 ^ 24) :
    let w := itemLenSum.set 0xFF000000 (headerWord0 small) itemLenSum' % 256 ^ 4
    getOffsetsAreSmall w = small.toNat ∧ version.get w = initialVersion ∧ reserved.get w = 0 ∧
      itemLenSum.get w = itemLenSum' := by
  intro w
  have h256 : (256 : ℕ) ^ 4 = 2 ^ 32 := by norm_num
  rw [getOffsetsAreSmall_eq_get (by simpa [w, h256] using Nat.mod_lt _ (by decide : 0 < 256 ^ 4))]
  simp (disch := decide) only [w, h256, Field.get_mod_two_pow, Field.get_set_of_disjoint,
    Field.get_set_self]
  refine ⟨?_, ?_, ?_, Nat.mod_eq_of_lt hS⟩ <;> cases small <;> decide

/-- The second header word as `VarBlockMakerFinish` leaves it. -/
theorem finishWord1_fields {itemCount' : ℕ} (hn : itemCount' < 2 ^ 24) :
    let w := itemCount.set 0xFF000000 0 itemCount' % 256 ^ 4
    moreReserved.get w = 0 ∧ itemCount.get w = itemCount' := by
  intro w
  have h256 : (256 : ℕ) ^ 4 = 2 ^ 32 := by norm_num
  simp (disch := decide) only [w, h256, Field.get_mod_two_pow, Field.get_set_of_disjoint,
    Field.get_set_self, Field.get_zero]
  exact ⟨trivial, Nat.mod_eq_of_lt hn⟩

theorem multiplier_eq_of_inv {st : VarBlockMaker} {items : List (List UInt8)} {small : Bool}
    (h : MakerInv st items small) :
    (if getOffsetsAreSmall (bytes03 st.buffer) ≠ 0 then 2 else varblockByteOffset24Len) =
      offsetWidth small := by
  rw [h.word0_eq, getOffsetsAreSmall_headerWord0]
  cases small <;> rfl

/-- `VarBlockMakerFinish` on a maker that keeps the invariant, with the counters read as the
items. -/
theorem finish_eq {st : VarBlockMaker} {items : List (List UInt8)} {small : Bool}
    (h : MakerInv st items small) :
    st.finish =
      (offsetArrayStart (itemsLen items) + roundUpEven (items.length * offsetWidth small),
        (((st.buffer.write (offsetArrayStart (itemsLen items))
          (st.tempScratchSpace.read 0 (items.length * offsetWidth small))).write
          (varblockHeaderLen + itemsLen items)
          (List.replicate (offsetArrayStart (itemsLen items) - (varblockHeaderLen + itemsLen items))
            0)).update 0 4 (fun w => itemLenSum.set 0xFF000000 w (itemsLen items))
          |>.update 4 4 fun w => itemCount.set 0xFF000000 w items.length).write
          (offsetArrayStart (itemsLen items) + items.length * offsetWidth small)
          (List.replicate (roundUpEven (items.length * offsetWidth small) -
            items.length * offsetWidth small) 0)) := by
  simp only [VarBlockMaker.finish, multiplier_eq_of_inv h, h.currentItemCount_eq,
    h.currentItemLenSum_eq, offsetArrayStart]

/-- **`VarBlockMakerFinish` lays out the block of the accepted items**, within the buffer. -/
theorem finish_holds {st : VarBlockMaker} {items : List (List UInt8)} {small : Bool}
    (h : MakerInv st items small) (hM : st.maxBufferLen < 2 ^ 24)
    (hL : st.tempScratchSpaceLen / 2 < 2 ^ 24) :
    Holds st.finish.2 st.finish.1 items small ∧ st.finish.1 ≤ st.maxBufferLen := by
  rw [finish_eq h]
  have hS := roundUpEven_ge (itemsLen items)
  have hR := roundUpEven_ge (items.length * offsetWidth small)
  have hoff : offsetArrayStart (itemsLen items) = varblockHeaderLen + roundUpEven (itemsLen items) :=
    rfl
  have hH : varblockHeaderLen = 8 := rfl
  have hspace := h.space_le
  have hSlt : itemsLen items < 2 ^ 24 := by omega
  have hnlt : items.length < 2 ^ 24 := by
    have hdiv : st.tempScratchSpaceLen / offsetWidth small ≤ st.tempScratchSpaceLen / 2 :=
      Nat.div_le_div_left (by cases small <;> decide) (by decide)
    have := h.count_le
    rw [h.maxItemCount_eq] at this
    omega
  -- the buffer after each step of Finish
  set b₁ := st.buffer.write (offsetArrayStart (itemsLen items))
    (st.tempScratchSpace.read 0 (items.length * offsetWidth small)) with hb₁
  set b₂ := b₁.write (varblockHeaderLen + itemsLen items)
    (List.replicate (offsetArrayStart (itemsLen items) - (varblockHeaderLen + itemsLen items)) 0)
    with hb₂
  set b₃ := b₂.update 0 4 (fun x => itemLenSum.set 0xFF000000 x (itemsLen items)) with hb₃
  set b₄ := b₃.update 4 4 (fun x => itemCount.set 0xFF000000 x items.length) with hb₄
  set b₅ := b₄.write (offsetArrayStart (itemsLen items) + items.length * offsetWidth small)
    (List.replicate (roundUpEven (items.length * offsetWidth small) -
      items.length * offsetWidth small) 0) with hb₅
  -- the header words: each is written once, over what the maker kept in it
  have hword0 : bytes03 b₅ =
      itemLenSum.set 0xFF000000 (headerWord0 small) (itemsLen items) % 256 ^ 4 := by
    rw [bytes03, hb₅, load_write_of_disjoint _ _ (.inl (by omega)), hb₄,
      load_update_of_disjoint _ _ (.inl (by omega)), hb₃, load_update_self, hb₂,
      load_write_of_disjoint _ _ (.inl (by omega)), hb₁,
      load_write_of_disjoint _ _ (.inl (by omega)), ← bytes03, h.word0_eq]
  have hword1 : bytes47 b₅ = itemCount.set 0xFF000000 0 items.length % 256 ^ 4 := by
    rw [bytes47, hb₅, load_write_of_disjoint _ _ (.inl (by omega)), hb₄, load_update_self, hb₃,
      load_update_of_disjoint _ _ (.inr (by omega)), hb₂,
      load_write_of_disjoint _ _ (.inl (by omega)), hb₁,
      load_write_of_disjoint _ _ (.inl (by omega)), ← bytes47, h.word1_eq]
  obtain ⟨hsmall, hversion, hreserved, hsum⟩ := finishWord0_fields small hSlt
  obtain ⟨hmore, hcount⟩ := finishWord1_fields hnlt
  refine ⟨⟨hword0 ▸ hsmall, hword0 ▸ hversion, hword0 ▸ hreserved, hword1 ▸ hmore, hword0 ▸ hsum,
    hword1 ▸ hcount, ?_, ?_, fun i hi => ?_, ?_, rfl⟩, hspace⟩
  · -- the items are where the caller copied them
    rw [hb₅, read_write_of_disjoint _ _ (.inl (by omega)), hb₄,
      read_update_of_disjoint _ _ (.inr (by omega)), hb₃,
      read_update_of_disjoint _ _ (.inr (by omega)), hb₂,
      read_write_of_disjoint _ _ (.inl (by omega)), hb₁,
      read_write_of_disjoint _ _ (.inl (by omega))]
    exact h.items_eq
  · rw [hb₅, read_write_of_disjoint _ _ (.inl (by omega)), hb₄,
      read_update_of_disjoint _ _ (.inr (by omega)), hb₃,
      read_update_of_disjoint _ _ (.inr (by omega)), hb₂,
      read_write_replicate _ _ le_rfl (by omega)]
  · -- offset `i` was copied from entry `i` of the scratch space
    have hiw : i * offsetWidth small + offsetWidth small ≤ items.length * offsetWidth small := by
      rw [← Nat.succ_mul]
      exact Nat.mul_le_mul_right _ hi
    rw [hb₅, load_write_of_disjoint _ _ (.inl (by omega)), hb₄,
      load_update_of_disjoint _ _ (.inr (by omega)), hb₃,
      load_update_of_disjoint _ _ (.inr (by omega)), hb₂,
      load_write_of_disjoint _ _ (.inr (by simp only [List.length_replicate]; omega)), hb₁,
      Mem.load, read_write_read _ _ _ _ hiw, Nat.zero_add, ← Mem.load]
    exact h.offsets_eq i hi
  · exact read_write_replicate _ _ le_rfl le_rfl

/-! ## The round trip -/

/-- **VarBlock round trip.** Offer any items to a maker just initialised on a buffer of fewer
than `2 ^ 24` bytes, copying each accepted item through the pointer it gets; `Finish` then returns
a length within the buffer, and the block it lays out reads back as the accepted items, in order.
A call that refuses an item leaves the maker as it was. The items are below `2 ^ 30` bytes, as
every tuple `palloc` gives is (`MaxAllocSize`); so the `int32` sums of the call do not wrap. -/
theorem varBlock_roundTrip (buffer tempScratchSpace : Mem) {maxBufferLen tempScratchSpaceLen : ℕ}
    (hlen : varblockHeaderLen ≤ maxBufferLen) (hmax : maxBufferLen < 2 ^ 24)
    (hscratch : tempScratchSpaceLen / 2 < 2 ^ 24) (attempts : List (List UInt8))
    (hitems : ∀ item ∈ attempts, item.length < 2 ^ 30) :
    let made := (VarBlockMaker.init buffer maxBufferLen tempScratchSpace
      tempScratchSpaceLen).putItems attempts
    made.1.finish.1 ≤ maxBufferLen ∧ ReadsBack made.1.finish.2 made.1.finish.1 made.2 ∧
      ∀ (st : VarBlockMaker) (itemLen : ℕ), (st.getNextItemPtr itemLen).1 = none →
        (st.getNextItemPtr itemLen).2 = st := by
  dsimp only
  obtain ⟨small, h, hM, hL⟩ :=
    putItems_inv attempts hitems (init_inv buffer hlen tempScratchSpace tempScratchSpaceLen) hmax
  rw [List.nil_append] at h
  obtain ⟨hholds, hle⟩ := finish_holds h (by rw [hM]; exact hmax) (by rw [hL]; exact hscratch)
  exact ⟨hle.trans_eq hM, hholds.readsBack, fun _ _ hp => getNextItemPtr_none hp⟩

example :
    let made := (VarBlockMaker.init (fun _ => 0) 100 (fun _ => 0) 12).putItems [[1, 2, 3], [4, 5]]
    (VarBlockReader.init made.1.finish.2 made.1.finish.1).nextItems 3 =
      [some [1, 2, 3], some [4, 5], none] := by
  decide

theorem varBlock_roundTrip_two_items :
    varblockHeaderLen ≤ 100 ∧ (100 : ℕ) < 2 ^ 24 ∧ (12 : ℕ) / 2 < 2 ^ 24 ∧
      (∀ item ∈ [[1, 2, 3], [4, 5]], List.length (α := UInt8) item < 2 ^ 30) ∧
      let made := (VarBlockMaker.init (fun _ => 0) 100 (fun _ => 0) 12).putItems
        [[1, 2, 3], [4, 5]]
      made.1.finish.1 ≤ 100 ∧ ReadsBack made.1.finish.2 made.1.finish.1 made.2 ∧
        ∀ (st : VarBlockMaker) (itemLen : ℕ), (st.getNextItemPtr itemLen).1 = none →
          (st.getNextItemPtr itemLen).2 = st :=
  ⟨by decide, by decide, by decide, by decide,
    varBlock_roundTrip (fun _ => 0) (fun _ => 0) (by decide) (by decide) (by decide)
      [[1, 2, 3], [4, 5]] (by decide)⟩

end Cloudberry.VarBlock
