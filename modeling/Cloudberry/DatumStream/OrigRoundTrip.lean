import Cloudberry.Lib.Scan
import Cloudberry.DatumStream.OrigRead

/-!
# The Original datum stream block round trip

Whatever puts a writer gets, taken or refused, the block it then makes reads back, datum for
datum, the datums it took: the NULLs as NULLs, and every other datum with its contents
(`DatumStreamTypeInfo.contents`), a varlena it stored with a shorter header included.

* `Encodes`: bytes that read back as a datum whatever follows them; `storedBytes_encodes` shows
  the bytes a put stores do;
* `Layout`: where the writer's data holds the datums it took that are not NULL, each where the
  reader's step from the one before lands, with nothing after the last but the zeros of an
  alignment; `Layout.putOrig` shows every put keeps it, the hard case being a varlena kept with its
  four-byte header after the zeros a refused one left;
* `ReadsAt`: the reader after `j` datums of the block; `readNext_readsAt` takes it one datum on;
* `scan_getReadyOrig_blockOrig`: the round trip of a whole block.
-/

namespace Cloudberry.DatumStream.Orig

open ByteMem DatumStreamTypeInfo

/-! ## Bytes -/

theorem take_drop_take_append {p : List UInt8} {k m n : ℕ} (h : k + m ≤ n) (hn : n ≤ p.length)
    (rest : List UInt8) : ((p.take n ++ rest).drop k).take m = (p.drop k).take m := by
  rw [List.drop_append_of_le_length (by rw [List.length_take]; omega),
    List.take_append_of_le_length (by rw [List.length_drop, List.length_take]; omega),
    List.drop_take, List.take_take, Nat.min_eq_left (by omega)]

theorem headD_take_append {p : List UInt8} {n : ℕ} (h : 0 < n) (hn : n ≤ p.length)
    (rest : List UInt8) : (p.take n ++ rest).headD 0 = p.headD 0 := by
  cases p with
  | nil => simp at hn; omega
  | cons b p =>
    obtain ⟨n, rfl⟩ : ∃ m, n = m + 1 := ⟨n - 1, by omega⟩
    rfl

theorem leBytes_leValue (bs : List UInt8) : leBytes bs.length (leValue bs) = bs := by
  induction bs with
  | nil => rfl
  | cons b bs ih =>
    have hb := b.toNat_lt
    have hmod : (b.toNat + 256 * leValue bs) % 256 = b.toNat := by omega
    have hdiv : (b.toNat + 256 * leValue bs) / 256 = leValue bs := by omega
    simp only [List.length_cons, leBytes, leValue, hmod, hdiv, ih, UInt8.ofNat_toNat]

/-! ## Items and datums

The reader counts the items it has passed that are not NULL; the datum it steps to is the next of
those. -/

theorem reduceOption_take_add_one {α : Type} {items : List (Option α)} {j : ℕ}
    (hj : j < items.length) :
    (items.take (j + 1)).reduceOption = (items.take j).reduceOption ++ items[j].toList := by
  rw [List.take_add_one, List.reduceOption_append, List.getElem?_eq_getElem hj]
  cases items[j] <;> simp

/-- The item `j` that is not NULL is the datum after those of the items before it. -/
theorem getElem?_reduceOption_length_take {α : Type} {items : List (Option α)} {j : ℕ} {x : α}
    (hj : j < items.length) (hx : items[j] = some x) :
    items.reduceOption[(items.take j).reduceOption.length]? = some x := by
  have hsplit : items.reduceOption =
      (items.take j).reduceOption ++ x :: (items.drop (j + 1)).reduceOption := by
    conv_lhs => rw [← List.take_append_drop j items, List.drop_eq_getElem_cons hj, hx]
    rw [List.reduceOption_append, List.reduceOption_cons_of_some]
  rw [hsplit, List.getElem?_append_right le_rfl, Nat.sub_self]
  rfl

theorem getD_map_fst {L : List (ℕ × Datum)} {k : ℕ} (hk : k < L.length) :
    (L.map Prod.fst).getD k 0 = L[k].1 := by
  simp [List.getD_eq_getElem?_getD, hk]

/-! ## The bytes of a datum -/

/-- The bytes `enc` hold the datum `x` as the reader reads it, whatever follows them: the reader's
step covers exactly them, and the datum it gives has the contents of `x`. -/
structure Encodes (typeInfo : DatumStreamTypeInfo) (x : Datum) (enc : List UInt8) : Prop where
  length_pos : 0 < enc.length
  itemLength_eq : ∀ rest, itemLength typeInfo (enc ++ rest) = enc.length
  contents_eq : ∀ rest, typeInfo.contents (getDatum typeInfo (enc ++ rest)) = typeInfo.contents x

section

variable {typeInfo : DatumStreamTypeInfo}

theorem ne_zero_of_varattIs1B {p : List UInt8} (h : varattIs1B p = true) : p.headD 0 ≠ 0 := by
  intro h0
  rw [varattIs1B, h0] at h
  exact absurd h (by decide)

/-! ### A varlena -/

section

variable (h1 : typeInfo.datumlen = -1)
include h1

theorem itemLength_varlena (item : List UInt8) : itemLength typeInfo item = varsizeAny item := by
  simp [itemLength, h1]

theorem contents_getDatum_varlena (item : List UInt8) :
    typeInfo.contents (getDatum typeInfo item) = varlenaData item := by
  simp [contents, getDatum, h1]

theorem contents_varlena (d : Datum) : typeInfo.contents d = varlenaData d.pointee := by
  simp [contents, h1]

/-- A varlena stored as it came with a one-byte header. -/
theorem encodes_oneByte {w : UInt64} {p : List UInt8} (hs : varattIs1B p = true)
    (he : varattIs1BE p = false) (hpos : 1 ≤ varsize1B p) (hle : varsize1B p ≤ p.length) :
    Encodes typeInfo ⟨w, p⟩ (p.take (varsize1B p)) := by
  have hhead : ∀ rest, (p.take (varsize1B p) ++ rest).headD 0 = p.headD 0 :=
    headD_take_append (by omega) hle
  have hlen : (p.take (varsize1B p)).length = varsize1B p := by simp [hle]
  -- the header is in the bytes stored, so it reads the same whatever follows
  have hdata : ∀ rest, varattIs1B (p.take (varsize1B p) ++ rest) = true := fun rest => by
    rw [varattIs1B, hhead]; exact hs
  have hext : ∀ rest, varattIs1BE (p.take (varsize1B p) ++ rest) = false := fun rest => by
    rw [varattIs1BE, hhead]; exact he
  have hsize : ∀ rest, varsize1B (p.take (varsize1B p) ++ rest) = varsize1B p := fun rest => by
    rw [varsize1B, hhead]; rfl
  refine ⟨by omega, fun rest => ?_, fun rest => ?_⟩
  · rw [itemLength_varlena h1, varsizeAny, hext, hdata, hsize, hlen]
    rfl
  · rw [contents_getDatum_varlena h1, contents_varlena h1, varlenaData, varlenaData,
      if_pos (hdata rest), if_pos hs, hsize, take_drop_take_append (by omega) hle]

/-- A varlena stored as it came with a four-byte header. -/
theorem encodes_fourByte {w : UInt64} {p : List UInt8} (hs : varattIs4BU p = true)
    (h4 : 4 ≤ varsize4B p) (hle : varsize4B p ≤ p.length) :
    Encodes typeInfo ⟨w, p⟩ (p.take (varsize4B p)) := by
  have hhead : ∀ rest, (p.take (varsize4B p) ++ rest).headD 0 = p.headD 0 :=
    headD_take_append (by omega) hle
  have hlen : (p.take (varsize4B p)).length = varsize4B p := by simp [hle]
  have h4B : ∀ rest, varattIs4BU (p.take (varsize4B p) ++ rest) = true := fun rest => by
    rw [varattIs4BU, hhead]; exact hs
  have hsize : ∀ rest, varsize4B (p.take (varsize4B p) ++ rest) = varsize4B p := fun rest => by
    have htake : (p.take (varsize4B p) ++ rest).take 4 = p.take 4 := by
      rw [List.take_append_of_le_length (by omega), List.take_take, Nat.min_eq_left h4]
    calc varsize4B (p.take (varsize4B p) ++ rest)
        = (leValue ((p.take (varsize4B p) ++ rest).take 4) >>> 2) &&& 0x3FFFFFFF := rfl
      _ = varsize4B p := by rw [htake]; rfl
  refine ⟨by omega, fun rest => ?_, fun rest => ?_⟩
  · rw [itemLength_varlena h1, varsizeAny, varattIs1BE_of_varattIs4BU (h4B rest),
      varattIs1B_of_varattIs4BU (h4B rest), hsize, hlen]
    rfl
  · rw [contents_getDatum_varlena h1, contents_varlena h1, varlenaData, varlenaData,
      varattIs1B_of_varattIs4BU (h4B rest), varattIs1B_of_varattIs4BU hs, hsize]
    exact take_drop_take_append (by omega) hle rest

/-- A varlena made short: its one-byte header, then its data. -/
theorem encodes_short {w : UInt64} {p : List UInt8} (hc : varattCanMakeShort p = true)
    (h4 : 4 ≤ varsize4B p) (hle : varsize4B p ≤ p.length) :
    Encodes typeInfo ⟨w, p⟩
      (varsizeToShort p :: (p.drop 4).take (varattConvertedShortSize p - 1)) := by
  have hconv := varattConvertedShortSize_eq h4
  refine ⟨by simp, fun rest => ?_, fun rest => ?_⟩
  · obtain ⟨-, hsize, -⟩ := varlenaData_of_oneByte hc h4 hle rest
    rw [itemLength_varlena h1, List.cons_append, hsize]
    simp; omega
  · obtain ⟨-, -, hdata⟩ := varlenaData_of_oneByte hc h4 hle rest
    rw [contents_getDatum_varlena h1, contents_varlena h1, List.cons_append, hdata]

end

/-! ### A C string -/

/-- A C string with its zero. -/
theorem encodes_cstring (hti : typeInfo.WellFormed) (h2 : typeInfo.datumlen = -2) {w : UInt64}
    {p : List UInt8} (h0 : (0 : UInt8) ∈ p) :
    Encodes typeInfo ⟨w, p⟩ (p.take (strlen p + 1)) := by
  have hbyval : typeInfo.byval = false := by
    cases hb : typeInfo.byval
    · rfl
    · rcases hti.2 hb with h | h | h | h <;> omega
  have henc := take_strlen_succ h0
  have hchars : ∀ x ∈ p.takeWhile (· ≠ 0), x ≠ 0 := fun x hx => ne_zero_of_mem_takeWhile hx
  have hread : ∀ rest, (p.take (strlen p + 1) ++ rest).takeWhile (· ≠ 0) = p.takeWhile (· ≠ 0) :=
    fun rest => by rw [henc, List.append_assoc, List.singleton_append, takeWhile_append_zero hchars]
  have hlen : (p.take (strlen p + 1)).length = strlen p + 1 := by
    rw [henc, List.length_append, List.length_singleton]
    rfl
  have hstrlen : ∀ rest, strlen (p.take (strlen p + 1) ++ rest) = strlen p := fun rest => by
    show (List.takeWhile _ (p.take (strlen p + 1) ++ rest)).length = strlen p
    rw [hread]
    rfl
  refine ⟨by omega, fun rest => ?_, fun rest => ?_⟩
  · rw [itemLength, if_neg (by omega), if_pos h2, hstrlen, hlen]
  · simp only [contents, getDatum, h2, show (-2 : ℤ) ≠ -1 by norm_num, if_false, if_true, hbyval,
      Bool.not_false]
    exact hread rest

/-! ### A fixed length -/

/-- A fixed-length datum passed by reference: its bytes. -/
theorem encodes_byRef (hpos : 0 < typeInfo.datumlen) (hbyval : typeInfo.byval = false)
    {w : UInt64} {p : List UInt8} (hle : typeInfo.datumlen.toNat ≤ p.length) :
    Encodes typeInfo ⟨w, p⟩ (p.take typeInfo.datumlen.toNat) := by
  have hlen : (p.take typeInfo.datumlen.toNat).length = typeInfo.datumlen.toNat := by simp [hle]
  have h1 : typeInfo.datumlen ≠ -1 := by omega
  have h2 : typeInfo.datumlen ≠ -2 := by omega
  refine ⟨by omega, fun rest => ?_, fun rest => ?_⟩
  · simp [itemLength, h1, h2, hlen]
  · simp only [contents, getDatum, h1, h2, if_false, hbyval, Bool.not_false, if_true,
      Bool.false_eq_true]
    exact List.take_left' hlen

/-- A fixed-length datum passed by value: the low bytes of its word. -/
theorem encodes_byVal (hbyval : typeInfo.byval = true)
    (hlen : typeInfo.datumlen = 1 ∨ typeInfo.datumlen = 2 ∨ typeInfo.datumlen = 4 ∨
      typeInfo.datumlen = 8) (w : UInt64) (p : List UInt8) :
    Encodes typeInfo ⟨w, p⟩ (leBytes typeInfo.datumlen.toNat w.toNat) := by
  have h1 : typeInfo.datumlen ≠ -1 := by omega
  have h2 : typeInfo.datumlen ≠ -2 := by omega
  have hn : typeInfo.datumlen.toNat ≤ 8 := by omega
  -- the value loaded back fits in a word
  have hword : ∀ rest, (UInt64.ofNat (leValue ((leBytes typeInfo.datumlen.toNat w.toNat ++
      rest).take typeInfo.datumlen.toNat))).toNat =
      leValue (leBytes typeInfo.datumlen.toNat w.toNat) := fun rest => by
    rw [List.take_left' (length_leBytes _ _)]
    apply UInt64.toNat_ofNat_of_lt'
    have := leValue_lt (leBytes typeInfo.datumlen.toNat w.toNat)
    rw [length_leBytes] at this
    calc _ < 256 ^ typeInfo.datumlen.toNat := this
      _ ≤ 256 ^ 8 := Nat.pow_le_pow_right (by norm_num) hn
      _ = UInt64.size := by norm_num
  refine ⟨by rw [length_leBytes]; omega, fun rest => ?_, fun rest => ?_⟩
  · simp [itemLength, h1, h2]
  · simp only [contents, getDatum, h1, h2, if_false, hbyval, Bool.not_true, Bool.false_eq_true,
      if_true, if_pos hlen]
    rw [hword rest]
    simpa using leBytes_leValue (leBytes typeInfo.datumlen.toNat w.toNat)

/-! ### What a put stores -/

variable {d : Datum} {enc : List UInt8}

/-- Only a varlena with a four-byte header is aligned before the room is checked. -/
theorem datumlen_of_alignsFirst (hti : typeInfo.WellFormed) (ha : alignsFirst typeInfo d = true) :
    typeInfo.datumlen = -1 := by
  have hneg : typeInfo.datumlen < 0 := by
    simp only [alignsFirst, Bool.and_eq_true, decide_eq_true_eq] at ha
    exact ha.1
  rcases varlenaItem_cases typeInfo d.pointee with ⟨-, he⟩ | ⟨h2, -⟩ | ⟨h2, -⟩ | ⟨h2, -⟩
  · simp [alignsFirst, he] at ha
  all_goals rcases hti.1 with h | h | h <;> omega

/-- **The bytes a put stores read back as its datum**, whatever follows them. -/
theorem storedBytes_encodes (hti : typeInfo.WellFormed) (hd : typeInfo.Admits d)
    (hb : storedBytes typeInfo d = .ok enc) : Encodes typeInfo d enc := by
  obtain ⟨w, p⟩ := d
  unfold storedBytes at hb
  split_ifs at hb with hneg
  · simp only [Except.ok.injEq] at hb
    subst hb
    rcases varlenaItem_cases typeInfo p with ⟨h2, he⟩ | ⟨h2, h1B, he⟩ | ⟨h2, h1B, -, hc, he⟩ |
      ⟨h2, h1B, -, he⟩ <;> rw [he]
    · simpa using encodes_cstring hti h2 (hd.zero_mem h2)
    all_goals have h1 : typeInfo.datumlen = -1 := by rcases hti.1 with h | h | h <;> omega
    · rcases hd.inLine hti hneg h2 with ⟨-, hext, hpos, hle⟩ | ⟨h4, -⟩
      · simpa using encodes_oneByte h1 h1B hext hpos hle
      · rw [varattIs1B_of_varattIs4BU h4] at h1B; cases h1B
    · rcases hd.inLine hti hneg h2 with ⟨h1B', -⟩ | ⟨-, h4, hle⟩
      · rw [h1B'] at h1B; cases h1B
      · simpa [varsizeToShort_ne_zero] using encodes_short h1 hc h4 hle
    · rcases hd.inLine hti hneg h2 with ⟨h1B', -⟩ | ⟨h4U, h4, hle⟩
      · rw [h1B'] at h1B; cases h1B
      · simpa using encodes_fourByte h1 h4U h4 hle
  · unfold putFixedLength at hb
    split_ifs at hb with hbyval hfix
    · simp only [Except.ok.injEq] at hb
      subst hb
      have hbyval' : typeInfo.byval = false := by simpa using hbyval
      have hpos : 0 < typeInfo.datumlen := by rcases hti.1 with h | h | h <;> omega
      exact encodes_byRef hpos hbyval' (hd.datumlen_le hpos.le hbyval')
    · simp only [Except.ok.injEq] at hb
      subst hb
      exact encodes_byVal (by simpa using hbyval) hfix w p

/-- A varlena a put does not align starts with a byte that is not zero, so that the reader does not
take it for the zeros of an alignment. -/
theorem storedBytes_headD_ne_zero (hti : typeInfo.WellFormed) (hd : typeInfo.Admits d)
    (h1 : typeInfo.datumlen = -1) (halign : alignsFirst typeInfo d = false)
    (hb : storedBytes typeInfo d = .ok enc) : enc.headD 0 ≠ 0 := by
  have hneg : typeInfo.datumlen < 0 := by omega
  have h2 : typeInfo.datumlen ≠ -2 := by omega
  rw [storedBytes, if_pos hneg] at hb
  simp only [Except.ok.injEq] at hb
  subst hb
  rcases varlenaItem_cases typeInfo d.pointee with ⟨h2', -⟩ | ⟨-, h1B, he⟩ | ⟨-, -, -, -, he⟩ |
    ⟨-, -, -, he⟩
  · exact absurd h2' h2
  · rcases hd.inLine hti hneg h2 with ⟨-, -, hpos, hle⟩ | ⟨h4, -⟩
    · have hhead := headD_take_append (by omega) hle ([] : List UInt8)
      rw [List.append_nil] at hhead
      rw [he]
      simp only [ne_eq, not_true_eq_false, if_false, List.nil_append, hhead]
      exact ne_zero_of_varattIs1B h1B
    · rw [varattIs1B_of_varattIs4BU h4] at h1B; cases h1B
  · rw [he]
    simp [varsizeToShort_ne_zero]
  · simp [alignsFirst, hneg, he] at halign

end

/-! ## Where the data holds the datums -/

/-- The datum `x` is at `o` in `data`: the bytes from `o` on start with bytes that hold it. -/
def StoredAt (typeInfo : DatumStreamTypeInfo) (data : List UInt8) (o : ℕ) (x : Datum) : Prop :=
  ∃ enc rest, data.drop o = enc ++ rest ∧ Encodes typeInfo x enc

/-- Where the reader's step from `o` ends, before any alignment. -/
def itemEnd (typeInfo : DatumStreamTypeInfo) (data : List UInt8) (o : ℕ) : ℕ :=
  o + itemLength typeInfo (data.drop o)

section

variable {typeInfo : DatumStreamTypeInfo} {data : List UInt8} {o : ℕ} {x : Datum}

theorem nextItem_eq_itemEnd (hti : typeInfo.WellFormed) (data : List UInt8) (o : ℕ) :
    nextItem typeInfo data o =
      if typeInfo.datumlen = -1 ∧ data.getD (itemEnd typeInfo data o) 0 = 0 then
        attAlignNominal (itemEnd typeInfo data o) typeInfo.align
      else itemEnd typeInfo data o :=
  nextItem_eq hti data o

theorem itemEnd_le_nextItem (hti : typeInfo.WellFormed) (data : List UInt8) (o : ℕ) :
    itemEnd typeInfo data o ≤ nextItem typeInfo data o := by
  rw [nextItem_eq_itemEnd hti]
  split_ifs
  · exact le_attAlignNominal _ _
  · exact le_rfl

namespace StoredAt

theorem lt_itemEnd (h : StoredAt typeInfo data o x) : o < itemEnd typeInfo data o := by
  obtain ⟨enc, rest, hdrop, henc⟩ := h
  have := henc.length_pos
  rw [itemEnd, hdrop, henc.itemLength_eq]
  omega

theorem itemEnd_le (h : StoredAt typeInfo data o x) : itemEnd typeInfo data o ≤ data.length := by
  obtain ⟨enc, rest, hdrop, henc⟩ := h
  have hlen := congrArg List.length hdrop
  rw [List.length_drop, List.length_append] at hlen
  have := henc.length_pos
  rw [itemEnd, hdrop, henc.itemLength_eq]
  omega

theorem drop_append (h : StoredAt typeInfo data o x) (more : List UInt8) :
    (data ++ more).drop o = data.drop o ++ more := by
  have hlt := h.lt_itemEnd
  have hle := h.itemEnd_le
  exact List.drop_append_of_le_length (by omega)

/-- A datum stays where it is when bytes are appended. -/
theorem append (h : StoredAt typeInfo data o x) (more : List UInt8) :
    StoredAt typeInfo (data ++ more) o x := by
  have happ := h.drop_append more
  obtain ⟨enc, rest, hdrop, henc⟩ := h
  exact ⟨enc, rest ++ more, by rw [happ, hdrop, List.append_assoc], henc⟩

theorem itemEnd_append (h : StoredAt typeInfo data o x) (more : List UInt8) :
    itemEnd typeInfo (data ++ more) o = itemEnd typeInfo data o := by
  have happ := h.drop_append more
  obtain ⟨enc, rest, hdrop, henc⟩ := h
  rw [itemEnd, itemEnd, happ, hdrop, List.append_assoc, henc.itemLength_eq, henc.itemLength_eq]

/-- The step from a datum is the same when bytes are appended, once the byte after it is there. -/
theorem nextItem_append (hti : typeInfo.WellFormed) (h : StoredAt typeInfo data o x)
    (hlt : itemEnd typeInfo data o < data.length) (more : List UInt8) :
    nextItem typeInfo (data ++ more) o = nextItem typeInfo data o := by
  rw [nextItem_eq_itemEnd hti, nextItem_eq_itemEnd hti, h.itemEnd_append,
    List.getD_append _ _ _ _ hlt]

theorem contents_getDatum (h : StoredAt typeInfo data o x) :
    typeInfo.contents (getDatum typeInfo (data.drop o)) = typeInfo.contents x := by
  obtain ⟨enc, rest, hdrop, henc⟩ := h
  rw [hdrop, henc.contents_eq]

end StoredAt

/-- What follows the end `e` of the last datum: nothing, or after a varlena the zeros that align
it. -/
structure Tail (typeInfo : DatumStreamTypeInfo) (data : List UInt8) (e : ℕ) : Prop where
  le_length : e ≤ data.length
  getD_eq_zero : ∀ i, e ≤ i → data.getD i 0 = 0
  length_eq : data.length = e ∨
    typeInfo.datumlen = -1 ∧ data.length = attAlignNominal e typeInfo.align

/-- **Where the reader's step lands.** After a datum followed only by the zeros of its alignment,
the reader's step lands on the bytes appended next, unless a varlena ends the data unaligned and
the next bytes start with a zero it would take for one. -/
theorem nextItem_landing (hti : typeInfo.WellFormed) {enc : List UInt8}
    (hq : StoredAt typeInfo data o x) (htail : Tail typeInfo data (itemEnd typeInfo data o))
    (hhead : typeInfo.datumlen = -1 → itemEnd typeInfo data o = data.length →
      enc.headD 0 ≠ 0 ∨ attAlignNominal data.length typeInfo.align = data.length) :
    nextItem typeInfo (data ++ enc) o = data.length := by
  rw [nextItem_eq_itemEnd hti, hq.itemEnd_append]
  by_cases h1 : typeInfo.datumlen = -1
  · rcases htail.length_eq with hlen | ⟨-, hlen⟩
    · -- the data ends with the datum: the byte after it is the first one appended
      have hget : (data ++ enc).getD (itemEnd typeInfo data o) 0 = enc.headD 0 := by
        rw [← hlen, List.getD_append_right _ _ _ _ le_rfl, Nat.sub_self]
        cases enc <;> rfl
      rw [hget]
      rcases hhead h1 hlen.symm with hne | hal
      · rw [if_neg (by tauto), hlen]
      · rw [← hlen, hal, ite_self]
    · -- zeros follow the datum, up to its alignment
      rcases (htail.le_length).lt_or_eq with hlt | heq
      · rw [if_pos ⟨h1, by rw [List.getD_append _ _ _ _ hlt]; exact htail.getD_eq_zero _ le_rfl⟩,
          hlen]
      · have hal : attAlignNominal (itemEnd typeInfo data o) typeInfo.align =
            itemEnd typeInfo data o := by rw [← hlen, heq]
        rw [hal, ite_self, heq]
  · rcases htail.length_eq with hlen | ⟨h1', -⟩
    · rw [if_neg (by tauto), hlen]
    · exact absurd h1' h1

/-- Where the last datum of `L` ends, `0` when there is none. -/
def lastEnd (typeInfo : DatumStreamTypeInfo) (data : List UInt8) (L : List (ℕ × Datum)) : ℕ :=
  match L.getLast? with
  | none => 0
  | some q => itemEnd typeInfo data q.1

/-- The data holds the datums of `L` at their offsets: the first at the start, each where the
reader's step from the one before lands, and after the last nothing but the zeros of an
alignment. -/
structure Layout (typeInfo : DatumStreamTypeInfo) (data : List UInt8) (L : List (ℕ × Datum)) :
    Prop where
  storedAt : ∀ q ∈ L, StoredAt typeInfo data q.1 q.2
  head_eq : ∀ q ∈ L.head?, q.1 = 0
  nextItem_eq : ∀ k (hk : k + 1 < L.length), nextItem typeInfo data L[k].1 = L[k + 1].1
  tail : Tail typeInfo data (lastEnd typeInfo data L)

namespace Layout

variable {L : List (ℕ × Datum)}

theorem nil : Layout typeInfo [] [] :=
  ⟨by simp, by simp, by simp, ⟨le_rfl, by simp, .inl rfl⟩⟩

theorem itemEnd_lt (hti : typeInfo.WellFormed) (h : Layout typeInfo data L) (k : ℕ)
    (hk : k + 1 < L.length) : itemEnd typeInfo data L[k].1 < data.length := by
  have hnext := h.nextItem_eq k hk
  have hle := itemEnd_le_nextItem hti data L[k].1
  have hlt := (h.storedAt _ (List.getElem_mem hk)).lt_itemEnd
  have hend := (h.storedAt _ (List.getElem_mem hk)).itemEnd_le
  omega

theorem nextItem_append (hti : typeInfo.WellFormed) (h : Layout typeInfo data L)
    (more : List UInt8) (k : ℕ) (hk : k + 1 < L.length) :
    nextItem typeInfo (data ++ more) L[k].1 = L[k + 1].1 :=
  ((h.storedAt _ (List.getElem_mem _)).nextItem_append hti (h.itemEnd_lt hti k hk) more).trans
    (h.nextItem_eq k hk)

theorem lastEnd_append (h : Layout typeInfo data L) (more : List UInt8) :
    lastEnd typeInfo (data ++ more) L = lastEnd typeInfo data L := by
  unfold lastEnd
  cases hq : L.getLast? with
  | none => rfl
  | some q => exact (h.storedAt q (List.mem_of_getLast? hq)).itemEnd_append more

/-- The zeros `att_align_zero` appends after a varlena keep the layout. -/
theorem append_alignment (hti : typeInfo.WellFormed) (h : Layout typeInfo data L)
    (h1 : typeInfo.datumlen = -1) : Layout typeInfo (attAlignZero data typeInfo.align) L := by
  obtain ⟨hle, hzero, hlen⟩ := h.tail
  have hpad := le_attAlignNominal data.length typeInfo.align
  refine ⟨fun q hq => (h.storedAt q hq).append _, h.head_eq, h.nextItem_append hti _, ?_⟩
  rw [attAlignZero, h.lastEnd_append, ← attAlignZero]
  refine ⟨by rw [length_attAlignZero]; omega, fun i hi => ?_, .inr ⟨h1, ?_⟩⟩
  · by_cases hlt : i < data.length
    · rw [attAlignZero, List.getD_append _ _ _ _ hlt]
      exact hzero i hi
    · rw [attAlignZero, List.getD_append_right _ _ _ _ (by omega)]
      simp
  · rw [length_attAlignZero]
    rcases hlen with hl | ⟨-, hl⟩ <;> rw [hl]
    exact attAlignNominal_attAlignNominal _ _

/-- **A datum appended where the step lands.** Bytes that hold a datum, appended where the
reader's step from the last datum lands, extend the layout by it. -/
theorem append (hti : typeInfo.WellFormed) (h : Layout typeInfo data L) {enc : List UInt8}
    (henc : Encodes typeInfo x enc)
    (hland : ∀ q ∈ L.getLast?, nextItem typeInfo (data ++ enc) q.1 = data.length)
    (hnil : L = [] → data.length = 0) :
    Layout typeInfo (data ++ enc) (L ++ [(data.length, x)]) := by
  have hnew : StoredAt typeInfo (data ++ enc) data.length x := ⟨enc, [], by simp, henc⟩
  refine ⟨?storedAt, ?head, ?next, ?tail⟩
  case storedAt =>
    intro q hq
    rcases List.mem_append.1 hq with hq | hq
    · exact (h.storedAt q hq).append enc
    · rw [List.mem_singleton.1 hq]
      exact hnew
  case head =>
    intro q hq
    cases L with
    | nil =>
      simp only [List.nil_append, List.head?_cons, Option.mem_def, Option.some.injEq] at hq
      rw [← hq]
      exact hnil rfl
    | cons q' L => exact h.head_eq q (by simpa using hq)
  case next =>
    intro k hk
    rw [List.length_append, List.length_singleton] at hk
    by_cases hk' : k + 1 < L.length
    · rw [List.getElem_append_left (by omega), List.getElem_append_left hk']
      exact h.nextItem_append hti enc k hk'
    · -- the step from the last datum of `L`
      have hkL : k + 1 = L.length := by omega
      have hlast : L.getLast? = some L[k] := by
        simp [List.getLast?_eq_getElem?, show L.length - 1 = k by omega]
      rw [List.getElem_append_left (by omega), List.getElem_append_right (by omega)]
      simpa [hkL] using hland _ hlast
  case tail =>
    have hend : lastEnd typeInfo (data ++ enc) (L ++ [(data.length, x)]) = (data ++ enc).length := by
      have hlen := henc.itemLength_eq []
      rw [List.append_nil] at hlen
      simp only [lastEnd, List.getLast?_concat, itemEnd, List.drop_left, hlen, List.length_append]
    rw [hend]
    exact ⟨le_rfl, fun i hi => List.getD_eq_default _ _ hi, .inl rfl⟩

/-- The alignment a put makes before it checks the room keeps the layout. -/
theorem alignFor (hti : typeInfo.WellFormed) (h : Layout typeInfo data L) (d : Datum) :
    Layout typeInfo (if alignsFirst typeInfo d then attAlignZero data typeInfo.align else data) L := by
  split_ifs with ha
  · exact h.append_alignment hti (datumlen_of_alignsFirst hti ha)
  · exact h

/-- **A put keeps the layout.** The bytes a put of `d` stores after its alignment extend the layout
by `d`: the reader's step from the last datum lands on them, over the zeros of the alignment when
there are some, and stops at them when there are none since they then start with no zero. -/
theorem put (hti : typeInfo.WellFormed) (h : Layout typeInfo data L) {d : Datum}
    (hd : typeInfo.Admits d) {enc : List UInt8} (hb : storedBytes typeInfo d = .ok enc) :
    Layout typeInfo ((if alignsFirst typeInfo d then attAlignZero data typeInfo.align else data) ++ enc)
      (L ++ [((if alignsFirst typeInfo d then attAlignZero data typeInfo.align else data).length,
        d)]) := by
  have h₁ := h.alignFor hti d
  refine h₁.append hti (storedBytes_encodes hti hd hb) (fun q hq => ?_) (fun hL => ?_)
  · have htail := h₁.tail
    rw [lastEnd, hq] at htail
    refine nextItem_landing hti (h₁.storedAt q (List.mem_of_getLast? hq)) htail (fun h1 _ => ?_)
    by_cases ha : alignsFirst typeInfo d = true
    · -- the data already ends aligned
      right
      rw [if_pos ha, length_attAlignZero, attAlignNominal_attAlignNominal]
    · exact .inl (storedBytes_headD_ne_zero hti hd h1 (by simpa using ha) hb)
  · -- with no datum before, the data is at most the zeros of an alignment of nothing
    have htail := h₁.tail
    rw [hL, lastEnd, List.getLast?_nil] at htail
    rcases htail.length_eq with hlen | ⟨-, hlen⟩ <;> simpa using hlen

end Layout

end

/-! ## The writer's data -/

namespace DatumStreamBlockWrite

variable {dsw : DatumStreamBlockWrite} {items : List (Option Datum)}

/-- The writer's data holds, in order, the datums it took that are not NULL. -/
def Stores (dsw : DatumStreamBlockWrite) (items : List (Option Datum)) : Prop :=
  ∃ L, Layout dsw.typeInfo dsw.datumBuffer L ∧ L.map Prod.snd = items.reduceOption

theorem getReady_stores (dsw : DatumStreamBlockWrite) : dsw.getReady.Stores [] :=
  ⟨[], Layout.nil, rfl⟩

/-- Every put keeps the datums taken in the data, the one it takes included. -/
theorem Stores.putOrig (hti : dsw.typeInfo.WellFormed) (h : dsw.Stores items) {d : Datum}
    {null : Bool} (hd : null = false → dsw.typeInfo.Admits d) {r : ℤ}
    {dsw' : DatumStreamBlockWrite} (hput : dsw.putOrig d null = .ok (r, dsw')) :
    dsw'.Stores (items ++ if 0 ≤ r then [itemOf d null] else []) := by
  obtain ⟨L, hL, hmap⟩ := h
  rcases putOrig_cases dsw hput with ⟨-, -, rfl, rfl⟩ | ⟨rfl, -, rfl, rfl⟩ | ⟨rfl, -, rfl, rfl⟩ |
    ⟨rfl, -, rfl, bytes, hb, rfl⟩
  · -- a NULL refused
    exact ⟨L, hL, by simpa using hmap⟩
  · -- a NULL taken: the data is as it was
    exact ⟨L, by simpa [putNull_eq] using hL, by simp [itemOf, hmap, List.reduceOption_append]⟩
  · -- a datum refused, after its alignment
    have hpos := itemSize_pos hti (hd rfl)
    refine ⟨L, by simpa [alignFor_eq] using hL.alignFor hti d, ?_⟩
    rw [if_neg (by omega), List.append_nil, hmap]
  · -- a datum taken
    exact ⟨_, by simpa [addItem_eq, alignFor_eq] using hL.put hti (hd rfl) hb,
      by simp [itemOf, hmap, List.reduceOption_append]⟩

/-- A run of puts from a block got ready keeps the writer's invariant and the datums it took in its
data. -/
theorem putAll_stores (hti : dsw.typeInfo.WellFormed) (hmin : 16 ≤ dsw.maxDataBlockSize)
    {reqs : List (Datum × Bool)} (hreqs : ∀ q ∈ reqs, q.2 = false → dsw.typeInfo.Admits q.1)
    {rs : List ℤ} {dsw' : DatumStreamBlockWrite} (hrun : dsw.getReady.putAll reqs = .ok (rs, dsw')) :
    dsw'.Invariant (taken reqs rs) ∧ dsw'.Stores (taken reqs rs) := by
  have hreqs' : ∀ q ∈ reqs, q.2 = false → dsw.getReady.typeInfo.Admits q.1 := hreqs
  exact putAll_induction (P := fun dsw items => dsw.Invariant items ∧ dsw.Stores items)
    (fun h hd hput => ⟨h.1.putOrig hd hput, h.2.putOrig h.1.wellFormed hd hput⟩) hreqs'
    ⟨getReady_invariant hti hmin, getReady_stores dsw⟩ hrun

end DatumStreamBlockWrite

/-! ## Reading the block -/

namespace DatumStreamBlockRead

/-- The reader `j` items into a block of the type `typeInfo` that holds `pre`, the header and the
NULL bit-map, then `data`, with the layout `L` of the items not NULL. It is on item `j - 1`, with
`datump` on the last datum it stepped to, and the NULL bit-map it started from, `bitmap`, whose
bits say which items are NULL, advanced `j` times. -/
structure ReadsAt (dsr : DatumStreamBlockRead) (typeInfo : DatumStreamTypeInfo)
    (pre data : List UInt8) (items : List (Option Datum)) (L : List (ℕ × Datum))
    (bitmap : DatumStreamBitMapRead) (j : ℕ) : Prop where
  typeInfo_eq : dsr.typeInfo = typeInfo
  buffer_eq : dsr.buffer = pre ++ data
  logicalRowCount_eq : dsr.logicalRowCount = items.length
  isSome_of_hasNull : dsr.hasNull = false → ∀ k (hk : k < items.length), items[k].isSome
  currentIsOn_eq : dsr.hasNull = true → ∀ k (hk : k < items.length),
    (DatumStreamBitMapRead.next^[k + 1] bitmap).currentIsOn = items[k].isNone
  nth_eq : dsr.nth = (j : ℤ) - 1
  physicalDatumIndex_eq : dsr.physicalDatumIndex = ((items.take j).reduceOption.length : ℤ) - 1
  datump_eq : dsr.datump =
    pre.length + (L.map Prod.fst).getD ((items.take j).reduceOption.length - 1) 0
  nullBitmap_eq : dsr.hasNull = true → dsr.nullBitmap = DatumStreamBitMapRead.next^[j] bitmap

section

variable {dsr : DatumStreamBlockRead} {typeInfo : DatumStreamTypeInfo} {pre data : List UInt8}
  {items : List (Option Datum)} {L : List (ℕ × Datum)} {bitmap : DatumStreamBitMapRead} {j : ℕ}

namespace ReadsAt

/-- The next bit of the NULL bit-map is that of item `j`. -/
theorem currentIsOn_next (h : dsr.ReadsAt typeInfo pre data items L bitmap j)
    (hj : j < items.length) (hn : dsr.hasNull = true) :
    dsr.nullBitmap.next.currentIsOn = items[j].isNone := by
  rw [h.nullBitmap_eq hn, ← Function.iterate_succ_apply' DatumStreamBitMapRead.next j bitmap]
  exact h.currentIsOn_eq hn j hj

/-- An advance onto a NULL keeps the reader on the block, one item on. -/
theorem advance_null (h : dsr.ReadsAt typeInfo pre data items L bitmap j)
    (hj : j < items.length) (hnone : items[j] = none) :
    ReadsAt { dsr with nth := dsr.nth + 1, nullBitmap := dsr.nullBitmap.next } typeInfo pre data
      items L bitmap (j + 1) := by
  have htake : (items.take (j + 1)).reduceOption = (items.take j).reduceOption := by
    rw [reduceOption_take_add_one hj, hnone, Option.toList_none, List.append_nil]
  refine ⟨h.typeInfo_eq, h.buffer_eq, h.logicalRowCount_eq, h.isSome_of_hasNull,
    h.currentIsOn_eq, ?_, ?_, ?_, fun hn => ?_⟩
  · simp only [h.nth_eq]
    push_cast
    ring
  · rw [htake]
    exact h.physicalDatumIndex_eq
  · rw [htake]
    exact h.datump_eq
  · simp only at hn ⊢
    rw [h.nullBitmap_eq hn]
    exact (Function.iterate_succ_apply' _ j bitmap).symm

/-- Where an advance onto a datum moves `datump`: on the first datum it stays where the block read
left it; on a later one the step from the datum before lands on it, in the block as in the data. -/
theorem datump_advance (hti : typeInfo.WellFormed) (hL : Layout typeInfo data L)
    (hpre : 8 ∣ pre.length) (h : dsr.ReadsAt typeInfo pre data items L bitmap j) {p : ℕ}
    (hp : (items.take j).reduceOption.length = p) (hpL : p < L.length) :
    (if dsr.physicalDatumIndex + 1 = 0 then dsr.datump
      else nextItem dsr.typeInfo dsr.buffer dsr.datump) = pre.length + L[p].1 := by
  rw [h.physicalDatumIndex_eq, h.datump_eq, hp]
  cases p with
  | zero => rw [if_pos (by norm_num), Nat.zero_sub, getD_map_fst hpL]
  | succ k =>
    rw [if_neg (by omega), Nat.add_sub_cancel, getD_map_fst (by omega), h.typeInfo_eq, h.buffer_eq,
      nextItem_append_left hti hpre, hL.nextItem_eq k hpL]

/-- An advance onto a datum keeps the reader on the block, one item and one datum on. -/
theorem advance_datum (hti : typeInfo.WellFormed) (hL : Layout typeInfo data L)
    (hpre : 8 ∣ pre.length) (h : dsr.ReadsAt typeInfo pre data items L bitmap j)
    (hj : j < items.length) {x : Datum} (hx : items[j] = some x) {p : ℕ}
    (hp : (items.take j).reduceOption.length = p) (hpL : p < L.length) :
    ReadsAt { dsr with nth := dsr.nth + 1,
                       nullBitmap := if dsr.hasNull then dsr.nullBitmap.next else dsr.nullBitmap,
                       physicalDatumIndex := dsr.physicalDatumIndex + 1,
                       datump := if dsr.physicalDatumIndex + 1 = 0 then dsr.datump
                         else nextItem dsr.typeInfo dsr.buffer dsr.datump }
      typeInfo pre data items L bitmap (j + 1) := by
  have htake : (items.take (j + 1)).reduceOption.length = p + 1 := by
    rw [reduceOption_take_add_one hj, hx, List.length_append, hp]
    rfl
  refine ⟨h.typeInfo_eq, h.buffer_eq, h.logicalRowCount_eq, h.isSome_of_hasNull,
    h.currentIsOn_eq, ?_, ?_, ?_, fun hn => ?_⟩
  · simp only [h.nth_eq]
    push_cast
    ring
  · simp only [h.physicalDatumIndex_eq, htake, hp]
    push_cast
    ring
  · simp only
    rw [h.datump_advance hti hL hpre hp hpL, htake, Nat.add_sub_cancel, getD_map_fst hpL]
  · simp only at hn ⊢
    rw [if_pos hn, h.nullBitmap_eq hn]
    exact (Function.iterate_succ_apply' _ j bitmap).symm

/-- **One advance.** Before the last item, an advance moves on to the next item, and the reader
then gives it: a NULL as a NULL, a datum with its contents. -/
theorem advanceOrig_readsAt (hti : typeInfo.WellFormed) (hL : Layout typeInfo data L)
    (hmap : L.map Prod.snd = items.reduceOption) (hpre : 8 ∣ pre.length)
    (h : dsr.ReadsAt typeInfo pre data items L bitmap j) (hj : j < items.length) :
    ∃ dsr', dsr.advanceOrig = (1, dsr') ∧
      dsr'.get.map typeInfo.contents = items[j].map typeInfo.contents ∧
      dsr'.ReadsAt typeInfo pre data items L bitmap (j + 1) := by
  have hnth : dsr.nth + 1 < dsr.logicalRowCount := by
    rw [h.nth_eq, h.logicalRowCount_eq]
    omega
  rcases dsr.advanceOrig_cases with ⟨hend, -⟩ | ⟨-, hn, hon, hadv⟩ | ⟨-, hoff, hadv⟩
  · omega
  · -- a NULL
    have hnone : items[j] = none := by
      have hbit := h.currentIsOn_next hj hn
      rw [hon] at hbit
      exact Option.isNone_iff_eq_none.1 hbit.symm
    refine ⟨_, hadv, ?_, h.advance_null hj hnone⟩
    simp [get, hn, hon, hnone]
  · -- a datum: the next of the layout
    obtain ⟨x, hx⟩ : ∃ x, items[j] = some x := by
      apply Option.isSome_iff_exists.1
      cases hnull : dsr.hasNull
      · exact h.isSome_of_hasNull hnull j hj
      · have hbit := h.currentIsOn_next hj hnull
        rw [hoff hnull] at hbit
        cases hxj : items[j] with
        | none => rw [hxj] at hbit; cases hbit
        | some y => rfl
    obtain ⟨p, hp⟩ : ∃ p, (items.take j).reduceOption.length = p := ⟨_, rfl⟩
    have hxp := getElem?_reduceOption_length_take hj hx
    rw [hp, ← hmap, List.getElem?_map, Option.map_eq_some_iff] at hxp
    obtain ⟨q, hq, hqx⟩ := hxp
    obtain ⟨hpL, rfl⟩ := List.getElem?_eq_some_iff.1 hq
    have hcond : (dsr.hasNull &&
        (if dsr.hasNull then dsr.nullBitmap.next else dsr.nullBitmap).currentIsOn) = false := by
      cases hnull : dsr.hasNull
      · rfl
      · simp [hoff hnull]
    refine ⟨_, hadv, ?_, h.advance_datum hti hL hpre hj hx hp hpL⟩
    simp only [get, hcond, Bool.false_eq_true, if_false, Option.map_some, hx]
    rw [h.datump_advance hti hL hpre hp hpL, h.typeInfo_eq, h.buffer_eq, drop_append_length,
      (hL.storedAt _ (List.getElem_mem hpL)).contents_getDatum, hqx]

/-- **One turn of the scan.** Before the last item, a turn reads the next item, a NULL as a NULL
and a datum with its contents, and leaves the reader one item on. -/
theorem readNext_readsAt (hti : typeInfo.WellFormed) (hL : Layout typeInfo data L)
    (hmap : L.map Prod.snd = items.reduceOption) (hpre : 8 ∣ pre.length)
    (h : dsr.ReadsAt typeInfo pre data items L bitmap j) (hj : j < items.length) :
    ∃ found dsr', dsr.readNext = .ok (some found, dsr') ∧
      found.map typeInfo.contents = items[j].map typeInfo.contents ∧
      dsr'.ReadsAt typeInfo pre data items L bitmap (j + 1) := by
  obtain ⟨dsr', hadv, hget, h'⟩ := h.advanceOrig_readsAt hti hL hmap hpre hj
  exact ⟨_, dsr', by rw [dsr.readNext_of_advanceOrig hadv, if_neg one_ne_zero], hget, h'⟩

/-- Past the last item, an advance finds nothing. -/
theorem advanceOrig_end (h : dsr.ReadsAt typeInfo pre data items L bitmap items.length) :
    dsr.advanceOrig = (0, { dsr with nth := dsr.nth + 1 }) := by
  rcases dsr.advanceOrig_cases with ⟨-, hadv⟩ | ⟨hlt, -⟩ | ⟨hlt, -⟩
  · exact hadv
  all_goals
    rw [h.nth_eq, h.logicalRowCount_eq] at hlt
    omega

/-- Past the last item, a turn of the scan finds nothing. -/
theorem readNext_end (h : dsr.ReadsAt typeInfo pre data items L bitmap items.length) :
    dsr.readNext = .ok (none, { dsr with nth := dsr.nth + 1 }) := by
  rw [dsr.readNext_of_advanceOrig h.advanceOrig_end, if_pos rfl]

/-- **The rest of the block.** From `j` items in, the turns of the scan read the items left, each
NULL as a NULL and each datum with its contents, and leave the reader after the last. -/
theorem finds (hti : typeInfo.WellFormed) (hL : Layout typeInfo data L)
    (hmap : L.map Prod.snd = items.reduceOption) (hpre : 8 ∣ pre.length)
    (h : dsr.ReadsAt typeInfo pre data items L bitmap j) (hj : j ≤ items.length) :
    ∃ found dsr', Scan.Finds readNext dsr found dsr' ∧
      found.map (Option.map typeInfo.contents) = (items.drop j).map (Option.map typeInfo.contents) ∧
      dsr'.ReadsAt typeInfo pre data items L bitmap items.length := by
  obtain ⟨n, hn⟩ : ∃ n, items.length = j + n := ⟨items.length - j, by omega⟩
  -- on the number of items left
  induction n generalizing j dsr with
  | zero =>
    obtain rfl : j = items.length := by omega
    exact ⟨[], dsr, .nil dsr, by simp, h⟩
  | succ n ih =>
    obtain ⟨x, dsr₁, hstep, hx, h₁⟩ := h.readNext_readsAt hti hL hmap hpre (by omega)
    obtain ⟨found, dsr', hfinds, hfound, h'⟩ := ih h₁ (by omega) (by omega)
    refine ⟨x :: found, dsr', .cons hstep hfinds, ?_, h'⟩
    rw [List.drop_eq_getElem_cons (by omega), List.map_cons, List.map_cons, hfound, hx]

end ReadsAt

end

end DatumStreamBlockRead

/-! ## The round trip -/

namespace DatumStreamBlockWrite

variable {dsw : DatumStreamBlockWrite} {items : List (Option Datum)} {L : List (ℕ × Datum)}

/-- The header and NULL bit-map a writer's block starts with. -/
theorem dvd_length_header :
    8 ∣ (origHeader (if dsw.hasNull then 1 else 0) dsw.nth dsw.nullsz dsw.datumBuffer.length ++
      dsw.nullBitMapBytes).length := by
  rw [List.length_append, length_origHeader, length_nullBitMapBytes]
  exact dvd_nullsz

/-- **The reader got ready on a writer's block** takes the header as the writer wrote it, adjusts
nothing, and stands before the first item, with the writer's NULL bit-map. -/
theorem getReadyOrig_blockOrig (hc : dsw.Counts items) (hL : Layout dsw.typeInfo dsw.datumBuffer L)
    (hn : dsw.nth < 2 ^ 15) (hsize : 16 + dsw.nullsz + dsw.datumBuffer.length < 2 ^ 31)
    (dsr : DatumStreamBlockRead) (hdsr : dsr.typeInfo = dsw.typeInfo) (firstRowNum : Int64) :
    ∃ dsr₀, dsr.resetOrig.getReadyOrig
        (origHeader (if dsw.hasNull then 1 else 0) dsw.nth dsw.nullsz dsw.datumBuffer.length ++
          dsw.nullBitMapBytes ++ dsw.datumBuffer) firstRowNum dsw.nth = .ok (dsr₀, false, 0) ∧
      dsr₀.ReadsAt dsw.typeInfo
        (origHeader (if dsw.hasNull then 1 else 0) dsw.nth dsw.nullsz dsw.datumBuffer.length ++
          dsw.nullBitMapBytes) dsw.datumBuffer items L
        (.init (dsw.nullBitMapBytes ++ dsw.datumBuffer) dsw.nth) 0 := by
  have h8 : 8 ∣ dsw.nullsz := (Nat.dvd_add_right (by norm_num)).1 dvd_nullsz
  have hflags : (if dsw.hasNull then 1 else 0) = 0 ∨ (if dsw.hasNull then 1 else 0) = 1 := by
    split_ifs <;> simp
  have hready := dsr.resetOrig.getReadyOrig_origHeader (dsw.nullBitMapBytes ++ dsw.datumBuffer)
    hflags hn (show dsw.nullsz < 2 ^ 31 by omega) (show dsw.datumBuffer.length < 2 ^ 31 by omega) h8
    firstRowNum
  rw [← List.append_assoc] at hready
  refine ⟨_, hready, ?_⟩
  -- what the header says of the NULLs is what the writer had
  have hflag : ((if dsw.hasNull then 1 else 0) == 1) = dsw.hasNull := by
    cases dsw.hasNull <;> rfl
  have hnullsz : (if (if dsw.hasNull then 1 else 0) = 1 then dsw.nullsz else 0) = dsw.nullsz := by
    cases hnull : dsw.hasNull <;> simp [nullsz, hnull]
  have hfirst : (L.map Prod.fst).getD 0 0 = 0 := by
    cases L with
    | nil => rfl
    | cons q L => exact hL.head_eq q rfl
  refine ⟨hdsr, List.append_assoc _ _ _, by simp [hc.nth_eq], fun hnull k hk => ?_,
    fun hnull k hk => ?_, rfl, rfl, ?_, fun hnull => ?_⟩
  · -- without a NULL bit-map every item is a datum
    simp only [hflag] at hnull
    have hall := List.any_eq_false.1 (hc.hasNull_eq ▸ hnull) _ (List.getElem_mem hk)
    cases hxk : items[k] with
    | none => rw [hxk] at hall; exact absurd rfl hall
    | some x => rfl
  · -- the bits the writer added, read from the block
    simp only [hflag] at hnull
    rw [nullBitMapBytes, if_pos hnull, List.append_assoc,
      DatumStreamBitMapRead.currentIsOn_of_holds (hc.nullBitmap_holds hnull) _ _
        (by rw [List.length_map]; exact hk)]
    simp [List.getD_eq_getElem?_getD, hk]
  · simp only [hnullsz, List.length_append, length_origHeader, length_nullBitMapBytes,
      List.take_zero, List.reduceOption_nil, List.length_nil, Nat.zero_sub, hfirst, Nat.add_zero]
  · simp only [hflag] at hnull
    simp only [hnull, if_true, Function.iterate_zero, id]

/-- **The round trip of a block.** Under a well-formed type, with limits that the header's fields
hold and a block size that is a multiple of eight `palloc` can give (so that the `int32` sum of
`DatumStreamBlockWrite_OrigHasSpace` does not wrap), any run of puts from a block got ready
returns, and the block it leaves reads back: the
reader got ready on it with the writer's count as its row count adjusts nothing, and a scan with
fuel for one turn more than there are items finds the datums the puts took, in order, each NULL as
a NULL and every other datum with its contents. -/
theorem scan_getReadyOrig_blockOrig (dsw : DatumStreamBlockWrite) (hti : dsw.typeInfo.WellFormed)
    (hmin : 16 ≤ dsw.maxDataBlockSize) (hmax : dsw.maxDataBlockSize ≤ maxAllocSize)
    (h8 : dsw.maxDataBlockSize % 8 = 0) (hcount : dsw.maxDatumPerBlock ≤ 2 ^ 15)
    (reqs : List (Datum × Bool))
    (hreqs : ∀ q ∈ reqs, q.2 = false → dsw.typeInfo.Admits q.1) (dsr : DatumStreamBlockRead)
    (hdsr : dsr.typeInfo = dsw.typeInfo) (firstRowNum : Int64) :
    ∃ rs dsw' block dsr₀ found dsr', dsw.getReady.putAll reqs = .ok (rs, dsw') ∧
      dsw'.blockOrig = .ok block ∧
      dsr.resetOrig.getReadyOrig block firstRowNum dsw'.nth = .ok (dsr₀, false, 0) ∧
      Scan.scan DatumStreamBlockRead.readNext (dsw'.nth + 1) dsr₀ = .ok (found, dsr') ∧
      found.map (Option.map dsw.typeInfo.contents) =
        (taken reqs rs).map (Option.map dsw.typeInfo.contents) := by
  obtain ⟨rs, dsw', hrun⟩ := putAll_ok dsw.getReady hti reqs
  obtain ⟨hinv, L, hL, hmap⟩ := putAll_stores hti hmin hreqs hrun
  obtain ⟨hti', hcount', hmax'⟩ := putAll_config hrun
  have hti'' : dsw'.typeInfo = dsw.typeInfo := hti'
  have hc := hinv.counts
  -- the header's fields hold the count and the sizes
  have hn : dsw'.nth < 2 ^ 15 := by
    rcases hc.nth_lt with hnil | hlt
    · rw [hc.nth_eq, hnil]
      norm_num
    · have : dsw'.maxDatumPerBlock = dsw.maxDatumPerBlock := hcount'
      omega
  have hsize : 16 + dsw'.nullsz + dsw'.datumBuffer.length < 2 ^ 31 := by
    have hfit : _ ≤ maxAlign _ := hinv.fits
    have hle := le_attAlignNominal (16 + dsw'.nullsz + dsw'.datumBuffer.length) dsw'.typeInfo.align
    have hlt := typeAlign_lt 8 dsw'.maxDataBlockSize (by norm_num)
    have : dsw'.maxDataBlockSize = dsw.maxDataBlockSize := hmax'
    have : dsw.maxDataBlockSize ≤ 0x3FFFFFFF := hmax
    rw [maxAlign] at hfit
    omega
  obtain ⟨dsr₀, hready, h₀⟩ :=
    getReadyOrig_blockOrig hc hL hn hsize dsr (hdsr.trans hti''.symm) firstRowNum
  obtain ⟨found, dsr', hfinds, hfound, hend⟩ :=
    h₀.finds hinv.wellFormed hL hmap dvd_length_header (Nat.zero_le _)
  have hlen : found.length = (taken reqs rs).length := by
    simpa using congrArg List.length hfound
  refine ⟨rs, dsw', _, dsr₀, found, _, hrun, blockOrig_eq, hready,
    Scan.scan_of_finds hfinds hend.readNext_end _ (by rw [hlen, ← hc.nth_eq]; omega), ?_⟩
  rw [← hti'']
  simpa using hfound

/-- A varlena put with a shorter header, then a NULL, in a block of 64 bytes. -/
theorem scan_getReadyOrig_blockOrig_text :
    ∃ rs dsw' block dsr₀ found dsr',
      (⟨⟨-1, .extended, .int, false⟩, 100, 64, 0, 0, 0, false, .init fun _ => 0, []⟩ :
        DatumStreamBlockWrite).getReady.putAll
        [(⟨0, [40, 0, 0, 0, 1, 2, 3, 4, 5, 6]⟩, false), (⟨0, []⟩, true)] = .ok (rs, dsw') ∧
      dsw'.blockOrig = .ok block ∧
      (⟨⟨-1, .extended, .int, false⟩, [], -1, -1, 0, 0, false, .init [] 0, 0, 0⟩ :
        DatumStreamBlockRead).resetOrig.getReadyOrig block 0 dsw'.nth = .ok (dsr₀, false, 0) ∧
      Scan.scan DatumStreamBlockRead.readNext (dsw'.nth + 1) dsr₀ = .ok (found, dsr') ∧
      found.map (Option.map (⟨-1, .extended, .int, false⟩ : DatumStreamTypeInfo).contents) =
        (taken [(⟨0, [40, 0, 0, 0, 1, 2, 3, 4, 5, 6]⟩, false), (⟨0, []⟩, true)] rs).map
          (Option.map (⟨-1, .extended, .int, false⟩ : DatumStreamTypeInfo).contents) :=
  scan_getReadyOrig_blockOrig _ (by decide) (by decide) (by decide) (by decide) (by decide) _
    (by decide) _ rfl 0

end DatumStreamBlockWrite

end Cloudberry.DatumStream.Orig
