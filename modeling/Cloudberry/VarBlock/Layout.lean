import Cloudberry.VarBlock.Basic

/-!
# The layout of a VarBlock, and what a reader gets back from it

`Holds buffer bufferLen items small` says that the buffer holds a block of `items` as
`VarBlockMakerFinish` lays it out: the header with the item count and length sum, the items one
after the other from byte `8`, a zero pad to an even length, the offset of every item as an entry
of `offsetWidth small` bytes, a zero pad to an even length, and nothing more.

From a block that holds the items,

* `VarBlockIsValid` accepts it (`Holds.isValid_eq`);
* `VarBlockReaderGetNextItemPtr` returns the items in order and then `NULL`
  (`Holds.nextItems_eq`);
* `VarBlockReaderGetItemPtr` finds every item (`Holds.getItemPtr_eq`), and
  `VarBlockCollapseToSingleItem` moves a single item to the start of the target
  (`Holds.collapseToSingleItem_eq`).

`ReadsBack` gathers the four, and `Holds.readsBack` proves them together.
-/

namespace Cloudberry.VarBlock

open BitField ByteMem VarBlockHeader

/-- The total length of the items (`currentItemLenSum`). -/
def itemsLen (items : List (List UInt8)) : ℕ := (items.map List.length).sum

/-- Where item `i` starts: after the header and the items before it. -/
def itemOffset (items : List (List UInt8)) (i : ℕ) : ℕ :=
  varblockHeaderLen + itemsLen (items.take i)

/-- The width of an offset entry: 2 bytes while offsets are small, 3 after. -/
def offsetWidth (small : Bool) : ℕ := if small then 2 else varblockByteOffset24Len

/-- `offsetToOffsetArray`: the offset array starts after the items, padded to an even length. -/
def offsetArrayStart (itemLenSum : ℕ) : ℕ := varblockHeaderLen + roundUpEven itemLenSum

/-! ## Offsets of the items -/

theorem itemsLen_eq_length_flatten (items : List (List UInt8)) :
    itemsLen items = items.flatten.length := by
  simp [itemsLen, List.length_flatten]

theorem itemOffset_zero (items : List (List UInt8)) : itemOffset items 0 = varblockHeaderLen := by
  simp [itemOffset, itemsLen]

theorem itemOffset_length (items : List (List UInt8)) :
    itemOffset items items.length = varblockHeaderLen + itemsLen items := by
  simp [itemOffset]

theorem itemOffset_succ {items : List (List UInt8)} {i : ℕ} (hi : i < items.length) :
    itemOffset items (i + 1) = itemOffset items i + items[i].length := by
  simp only [itemOffset, itemsLen, List.take_add_one, List.getElem?_eq_getElem hi,
    Option.toList_some, List.map_append, List.sum_append, List.map_cons, List.map_nil,
    List.sum_cons, List.sum_nil]
  omega

theorem itemOffset_le (items : List (List UInt8)) (i : ℕ) :
    itemOffset items i ≤ varblockHeaderLen + itemsLen items := by
  have h : itemsLen items = itemsLen (items.take i) + itemsLen (items.drop i) := by
    rw [itemsLen, itemsLen, itemsLen, ← List.sum_append, ← List.map_append, List.take_append_drop]
  rw [itemOffset, h]
  omega

theorem itemsLen_append (items : List (List UInt8)) (item : List UInt8) :
    itemsLen (items ++ [item]) = itemsLen items + item.length := by
  simp [itemsLen]

theorem itemOffset_append_of_le {items : List (List UInt8)} (item : List UInt8) {i : ℕ}
    (hi : i ≤ items.length) : itemOffset (items ++ [item]) i = itemOffset items i := by
  simp [itemOffset, List.take_append_of_le_length hi]

/-- Item `i` of a buffer whose bytes from `o` are the items one after the other. -/
theorem read_itemOffset {buffer : Mem} {o : ℕ} {items : List (List UInt8)}
    (h : buffer.read o (itemsLen items) = items.flatten) {i : ℕ} (hi : i < items.length) :
    buffer.read (o + itemsLen (items.take i)) items[i].length = items[i] := by
  -- the items split as those before `i`, item `i`, and those after it
  have hsplit : items.flatten =
      (items.take i).flatten ++ (items[i] ++ (items.drop (i + 1)).flatten) := by
    rw [← List.flatten_cons, ← List.drop_eq_getElem_cons hi, ← List.flatten_append,
      List.take_append_drop]
  rw [itemsLen_eq_length_flatten, hsplit, List.length_append, read_eq_append_iff] at h
  rw [List.length_append, read_eq_append_iff] at h
  rw [itemsLen_eq_length_flatten]
  exact h.2.1

/-! ## The layout -/

/-- The buffer holds, in its first `bufferLen` bytes, a block of `items` with offsets of
`offsetWidth small` bytes, as `VarBlockMakerFinish` lays it out. -/
structure Holds (buffer : Mem) (bufferLen : ℕ) (items : List (List UInt8)) (small : Bool) :
    Prop where
  small_eq : getOffsetsAreSmall (bytes03 buffer) = small.toNat
  version_eq : version.get (bytes03 buffer) = initialVersion
  reserved_eq : reserved.get (bytes03 buffer) = 0
  moreReserved_eq : moreReserved.get (bytes47 buffer) = 0
  itemLenSum_eq : itemLenSum.get (bytes03 buffer) = itemsLen items
  itemCount_eq : itemCount.get (bytes47 buffer) = items.length
  items_eq : buffer.read varblockHeaderLen (itemsLen items) = items.flatten
  itemPad_eq : buffer.read (varblockHeaderLen + itemsLen items)
      (roundUpEven (itemsLen items) - itemsLen items) =
    List.replicate (roundUpEven (itemsLen items) - itemsLen items) 0
  offsets_eq : ∀ i < items.length,
    buffer.load (offsetArrayStart (itemsLen items) + i * offsetWidth small) (offsetWidth small) =
      itemOffset items i
  offsetPad_eq : buffer.read (offsetArrayStart (itemsLen items) + items.length * offsetWidth small)
      (roundUpEven (items.length * offsetWidth small) - items.length * offsetWidth small) =
    List.replicate (roundUpEven (items.length * offsetWidth small) -
      items.length * offsetWidth small) 0
  bufferLen_eq :
    bufferLen = offsetArrayStart (itemsLen items) + roundUpEven (items.length * offsetWidth small)

/-- What a reader gets back from a block of the items. -/
structure ReadsBack (buffer : Mem) (bufferLen : ℕ) (items : List (List UInt8)) : Prop where
  isValid_eq : isValid buffer bufferLen = .Ok
  nextItems_eq : (VarBlockReader.init buffer bufferLen).nextItems (items.length + 1) =
    items.map some ++ [none]
  getItemPtr_eq : ∀ i (hi : i < items.length),
    (VarBlockReader.init buffer bufferLen).getItemPtr i = (itemOffset items i, items[i].length) ∧
      buffer.read (itemOffset items i) items[i].length = items[i]
  collapse_eq : ∀ item, items = [item] → ∀ target,
    collapseToSingleItem target buffer bufferLen = (item.length, target.write 0 item)

theorem roundUpEven_ge (n : ℕ) : n ≤ roundUpEven n := by
  simp only [roundUpEven]
  omega

@[simp] theorem roundUpEven_zero : roundUpEven 0 = 0 := rfl

namespace Holds

variable {buffer : Mem} {bufferLen : ℕ} {items : List (List UInt8)} {small : Bool}

theorem offsetsAreSmall_iff (h : Holds buffer bufferLen items small) :
    getOffsetsAreSmall (bytes03 buffer) ≠ 0 ↔ small = true := by
  rw [h.small_eq]
  cases small <;> simp

theorem getOffset_eq (h : Holds buffer bufferLen items small) {i : ℕ} (hi : i < items.length) :
    getOffset buffer (offsetArrayStart (itemsLen items)) i = itemOffset items i := by
  have ho := h.offsets_eq i hi
  cases small with
  | true =>
    rw [getOffset, if_pos (h.offsetsAreSmall_iff.2 rfl), Nat.mul_comm]
    exact ho
  | false =>
    rw [getOffset, if_neg (by simpa using h.offsetsAreSmall_iff)]
    exact ho

theorem read_itemOffset_eq (h : Holds buffer bufferLen items small) {i : ℕ}
    (hi : i < items.length) : buffer.read (itemOffset items i) items[i].length = items[i] :=
  read_itemOffset h.items_eq hi

/-- Item `i` starts at its offset and is as long as it was, whichever way the reader got there. -/
theorem getItemPtrAndLen_eq (h : Holds buffer bufferLen items small) {r : VarBlockReader}
    (hb : r.buffer = buffer) (ho : r.offsetToOffsetArray = offsetArrayStart (itemsLen items))
    {i : ℕ} (hi : i < items.length) :
    r.getItemPtrAndLen i = (itemOffset items i, items[i].length) := by
  have hcount : r.itemCount = items.length := by rw [VarBlockReader.itemCount, hb, h.itemCount_eq]
  have hsucc := itemOffset_succ hi
  simp only [VarBlockReader.getItemPtrAndLen, hcount, hb, ho, h.getOffset_eq hi]
  split_ifs with hlast
  · rw [h.getOffset_eq (by omega), hsucc]
    simp
  · -- the last item runs to the end of the items
    have hn : i + 1 = items.length := by omega
    rw [h.itemLenSum_eq, ← itemOffset_length, ← hn, hsucc]
    simp

/-! ## Checking the block -/

theorem multiplier_eq (h : Holds buffer bufferLen items small) :
    (if getOffsetsAreSmall (bytes03 buffer) ≠ 0 then 2 else varblockByteOffset24Len) =
      offsetWidth small := by
  cases small with
  | true => rw [if_pos (h.offsetsAreSmall_iff.2 rfl), offsetWidth, if_pos rfl]
  | false => rw [if_neg (by simpa using h.offsetsAreSmall_iff), offsetWidth, if_neg (by simp)]

/-- The loop over offsets `i, …` passes: each offset is the one before it plus an item's length,
and none passes the end of the items. The induction is on the number of offsets left. -/
theorem checkOffsets_eq (h : Holds buffer bufferLen items small) (j : ℕ) :
    ∀ i, 1 ≤ i → i + j = items.length →
      checkOffsets buffer (offsetArrayStart (itemsLen items)) (itemsLen items) items.length i
        (itemOffset items (i - 1)) = .Ok := by
  induction j with
  | zero =>
    intro i _ hij
    rw [checkOffsets, if_neg (by omega)]
  | succ j ih =>
    intro i hi hij
    have hlt : i < items.length := by omega
    have hprev : itemOffset items (i - 1) ≤ itemOffset items i := by
      have hsucc := itemOffset_succ (show i - 1 < items.length by omega)
      rw [Nat.sub_add_cancel hi] at hsucc
      omega
    have hend := itemOffset_le items i
    have hnext := ih (i + 1) (by omega) (by omega)
    rw [Nat.add_sub_cancel] at hnext
    rw [checkOffsets, if_pos hlt]
    simp only [h.getOffset_eq hlt, if_neg (Nat.not_lt.2 hprev), if_neg (show ¬ itemOffset items i >
      itemsLen items + varblockHeaderLen by omega), hnext]

theorem zeroPadOk_of_read {buffer : Mem} {a b : ℕ}
    (h : buffer.read a (b - a) = List.replicate (b - a) 0) : zeroPadOk buffer a b = true := by
  simp [zeroPadOk, h]

/-- `VarBlockIsValid` accepts a block that holds the items. -/
theorem isValid_eq (h : Holds buffer bufferLen items small) : isValid buffer bufferLen = .Ok := by
  have hheader : headerIsValid buffer = .Ok := by
    simp [headerIsValid, h.version_eq, h.reserved_eq, h.moreReserved_eq]
  have hlen := h.bufferLen_eq
  have hS := roundUpEven_ge (itemsLen items)
  have hH : varblockHeaderLen = 8 := rfl
  simp only [offsetArrayStart] at hlen
  have hpad1 : zeroPadOk buffer (varblockHeaderLen + itemsLen items)
      (varblockHeaderLen + roundUpEven (itemsLen items)) = true := by
    apply zeroPadOk_of_read
    rw [show varblockHeaderLen + roundUpEven (itemsLen items) - (varblockHeaderLen + itemsLen items)
      = roundUpEven (itemsLen items) - itemsLen items by omega]
    exact h.itemPad_eq
  rw [isValid, hheader]
  simp only [h.itemLenSum_eq, h.itemCount_eq, h.multiplier_eq, hpad1,
    if_neg (show ¬ itemsLen items ≥ bufferLen by omega),
    if_neg (show ¬ varblockHeaderLen + roundUpEven (itemsLen items) > bufferLen by omega)]
  rcases Nat.eq_zero_or_pos items.length with hn | hn
  · -- no items: the block ends where the offset array would start
    simp [hn, hlen]
  · have hpad2 : zeroPadOk buffer
        (varblockHeaderLen + roundUpEven (itemsLen items) + items.length * offsetWidth small)
        (varblockHeaderLen + roundUpEven (itemsLen items) +
          roundUpEven (items.length * offsetWidth small)) = true := by
      apply zeroPadOk_of_read
      rw [Nat.add_sub_add_left]
      exact h.offsetPad_eq
    have hfirst := h.getOffset_eq hn
    have hloop := h.checkOffsets_eq (items.length - 1) 1 le_rfl (by omega)
    rw [itemOffset_zero] at hfirst hloop
    simp only [offsetArrayStart] at hfirst hloop
    simp [Nat.pos_iff_ne_zero.1 hn, hlen, hfirst, hloop, hpad2]

/-! ## The reader -/

theorem init_offsetToOffsetArray (h : Holds buffer bufferLen items small) :
    (VarBlockReader.init buffer bufferLen).offsetToOffsetArray =
      offsetArrayStart (itemsLen items) := by
  simp [VarBlockReader.init, h.itemLenSum_eq, offsetArrayStart]

theorem getItemPtr_eq (h : Holds buffer bufferLen items small) {i : ℕ} (hi : i < items.length) :
    (VarBlockReader.init buffer bufferLen).getItemPtr i = (itemOffset items i, items[i].length) :=
  h.getItemPtrAndLen_eq rfl h.init_offsetToOffsetArray hi

/-- From item `k` on, the reader returns the remaining items and then `NULL`; the induction is
on the number of items left, and the reader's pointer is always the offset of its next item. -/
theorem nextItems_from (h : Holds buffer bufferLen items small) (j : ℕ) :
    ∀ r : VarBlockReader, r.buffer = buffer →
      r.offsetToOffsetArray = offsetArrayStart (itemsLen items) →
      r.nextIndex + j = items.length → r.nextItemPtr = itemOffset items r.nextIndex →
      r.nextItems (j + 1) = (items.drop r.nextIndex).map some ++ [none] := by
  have hcount : ∀ r : VarBlockReader, r.buffer = buffer → r.itemCount = items.length := by
    intro r hb
    rw [VarBlockReader.itemCount, hb, h.itemCount_eq]
  induction j with
  | zero =>
    intro r hb _ hk _
    simp [VarBlockReader.nextItems, VarBlockReader.getNextItemPtr, hcount r hb,
      show items.length ≤ r.nextIndex by omega]
  | succ j ih =>
    intro r hb ho hk hp
    have hi : r.nextIndex < items.length := by omega
    have hlen : r.getItemLen r.nextIndex = items[r.nextIndex].length := by
      rw [VarBlockReader.getItemLen, h.getItemPtrAndLen_eq hb ho hi]
    rw [VarBlockReader.nextItems, VarBlockReader.getNextItemPtr,
      if_neg (by rw [hcount r hb]; omega)]
    simp only [hlen]
    -- the reader moves on to the next item, and its pointer to that item's offset
    have hrest := ih
      { r with
        nextIndex := r.nextIndex + 1
        nextItemPtr := r.nextItemPtr + items[r.nextIndex].length }
      hb ho (by simp only; omega) (by simp only [hp, itemOffset_succ hi])
    rw [hrest, List.drop_eq_getElem_cons hi, hb, hp, h.read_itemOffset_eq hi, List.map_cons,
      List.cons_append]

theorem nextItems_eq (h : Holds buffer bufferLen items small) :
    (VarBlockReader.init buffer bufferLen).nextItems (items.length + 1) =
      items.map some ++ [none] := by
  have := h.nextItems_from items.length (VarBlockReader.init buffer bufferLen) rfl
    h.init_offsetToOffsetArray (by simp [VarBlockReader.init]) (by
      simp [VarBlockReader.init, itemOffset_zero])
  simpa [VarBlockReader.init] using this

theorem collapseToSingleItem_eq (h : Holds buffer bufferLen items small) {item : List UInt8}
    (hitems : items = [item]) (target : Mem) :
    collapseToSingleItem target buffer bufferLen = (item.length, target.write 0 item) := by
  subst hitems
  have hptr := h.getItemPtr_eq (i := 0) (by simp)
  have hread := h.read_itemOffset_eq (i := 0) (by simp)
  simp only [List.getElem_cons_zero] at hptr hread
  simp only [collapseToSingleItem, hptr, hread]

/-- **A reader gets the items back.** -/
theorem readsBack (h : Holds buffer bufferLen items small) : ReadsBack buffer bufferLen items where
  isValid_eq := h.isValid_eq
  nextItems_eq := h.nextItems_eq
  getItemPtr_eq _ hi := ⟨h.getItemPtr_eq hi, h.read_itemOffset_eq hi⟩
  collapse_eq _ hitems target := h.collapseToSingleItem_eq hitems target

end Holds

end Cloudberry.VarBlock
