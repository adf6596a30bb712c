import Mathlib.Data.Finset.Card
import Mathlib.Algebra.Order.BigOperators.Group.List
import Mathlib.Data.Nat.Bitwise

/-!
# Bitmap sets (`bitmapset.c`), on a 64-bit build

A `Bitmapset` is an array of `nwords` 64-bit words; member `x` is bit `BITNUM(x) = x % 64` of
word `WORDNUM(x) = x / 64`, and the empty set is the null pointer, which we write `none`. We model
the operations the append-only visibility map uses: `bms_make_singleton`, `bms_is_member`,
`bms_add_member`, `bms_covers_member`, `bms_resize`, `bms_num_members` and `bms_next_member`, and
the view of the words as the 32-bit blocks that `bitmap_compression.c` stores
(`Bitmapset.blocks`, `Bitmapset.ofBlocks`).

A bitmap set stands for the finite set of its members (`members`):

* `bms_add_member` inserts its argument (`members_bmsAddMember`) and `bms_resize` changes nothing
  (`members_bmsResize`);
* `bms_num_members` counts the members (`bmsNumMembers_eq_card`);
* the words are recovered from their blocks (`ofBlocks_blocks`).
-/

namespace Cloudberry.Visimap

/-- `BITS_PER_BITMAPWORD`. -/
def bitsPerBitmapword : ℕ := 64

/-- `Bitmapset`: its `words`, of which there are `nwords`. -/
structure Bitmapset where
  words : List UInt64
  deriving DecidableEq, Repr

namespace Bitmapset

/-- `nwords`. -/
def nwords (a : Bitmapset) : ℕ := a.words.length

/-- `WORDNUM(x)`. -/
def wordnum (x : ℕ) : ℕ := x / bitsPerBitmapword

/-- `BITNUM(x)`. -/
def bitnum (x : ℕ) : ℕ := x % bitsPerBitmapword

/-- `(bitmapword) 1 << BITNUM(x)`. -/
def mask (x : ℕ) : UInt64 := 1 <<< UInt64.ofNat (bitnum x)

/-- Word `i`, zero past the last one. -/
def word (a : Bitmapset) (i : ℕ) : UInt64 := a.words[i]?.getD 0

end Bitmapset

open Bitmapset

/-- `bms_make_singleton`. -/
def bmsMakeSingleton (x : ℕ) : Bitmapset :=
  ⟨List.replicate (wordnum x) 0 ++ [mask x]⟩

/-- `bms_is_member`. -/
def bmsIsMember (x : ℕ) : Option Bitmapset → Bool
  | none => false
  | some a => if wordnum x ≥ a.nwords then false else (a.word (wordnum x) &&& mask x) != 0

/-- `bms_add_member`, which enlarges the set to cover `x` first; its result is never null. -/
def bmsAddMember : Option Bitmapset → ℕ → Bitmapset
  | none, x => bmsMakeSingleton x
  | some a, x =>
    let a : Bitmapset :=
      if wordnum x ≥ a.nwords then ⟨a.words ++ List.replicate (wordnum x + 1 - a.nwords) 0⟩
      else a
    ⟨a.words.set (wordnum x) (a.word (wordnum x) ||| mask x)⟩

/-- `bms_covers_member`: whether the words reach member `x`. -/
def bmsCoversMember : Option Bitmapset → ℕ → Bool
  | none, _ => false
  | some a, x => wordnum x < a.nwords

/-- `bms_resize`: at least `wc` words, the new ones zero; its result is never null. -/
def bmsResize : Option Bitmapset → ℕ → Bitmapset
  | some a, wc => if a.nwords ≥ wc then a else ⟨a.words ++ List.replicate (wc - a.nwords) 0⟩
  | none, wc => ⟨List.replicate wc 0⟩

/-- `bmw_popcount`: the number of one bits of a word. -/
def bmwPopcount (w : UInt64) : ℕ := (List.range bitsPerBitmapword).countP w.toNat.testBit

/-- `bms_num_members`. -/
def bmsNumMembers : Option Bitmapset → ℕ
  | none => 0
  | some a => (a.words.map fun w => if w ≠ 0 then bmwPopcount w else 0).sum

/-- `bms_is_empty`: the null pointer. -/
def bmsIsEmpty (a : Option Bitmapset) : Bool := a.isNone

/-- `bmw_rightmost_one_pos`: the position of the lowest one bit of a nonzero word. -/
def bmwRightmostOnePos (w : UInt64) : ℕ :=
  ((List.range bitsPerBitmapword).find? w.toNat.testBit).getD bitsPerBitmapword

/-- The word loop of `bms_next_member`, from word `wordnum` on, over the words left: the first
word with a one bit under `mask`; the words after the first are looked at whole. -/
def nextMemberLoop (wordnum : ℕ) (mask : UInt64) : List UInt64 → ℤ
  | [] => -2
  | w :: ws =>
    let w := w &&& mask
    if w ≠ 0 then (wordnum * bitsPerBitmapword + bmwRightmostOnePos w : ℕ)
    else nextMemberLoop (wordnum + 1) (~~~0) ws

/-- `bms_next_member`: the least member above `prevbit`, which is at least `-1`, or `-2`. -/
def bmsNextMember (a : Option Bitmapset) (prevbit : ℤ) : ℤ :=
  match a with
  | none => -2
  | some a =>
    let prevbit := (prevbit + 1).toNat
    nextMemberLoop (wordnum prevbit) (~~~0 <<< UInt64.ofNat (bitnum prevbit))
      (a.words.drop (wordnum prevbit))

/-! ## Words and bits -/

namespace Bitmapset

theorem bitnum_lt (x : ℕ) : bitnum x < 64 := Nat.mod_lt _ (by decide)

theorem wordnum_bitnum (x : ℕ) : 64 * wordnum x + bitnum x = x := Nat.div_add_mod x 64

theorem mask_toNat (x : ℕ) : (mask x).toNat = 2 ^ bitnum x := by
  have hb := bitnum_lt x
  rw [mask, UInt64.toNat_shiftLeft, UInt64.toNat_ofNat', Nat.mod_eq_of_lt (by omega : bitnum x < 2 ^ 64),
    Nat.mod_eq_of_lt hb, UInt64.toNat_one, Nat.one_shiftLeft,
    Nat.mod_eq_of_lt (Nat.pow_lt_pow_right (by decide) hb)]

/-- Testing a word against `mask x` reads bit `BITNUM(x)`. -/
theorem and_mask_ne_zero (w : UInt64) (x : ℕ) :
    ((w &&& mask x) != 0) = w.toNat.testBit (bitnum x) := by
  have hand : (w &&& mask x).toNat = (w.toNat.testBit (bitnum x)).toNat * 2 ^ bitnum x := by
    rw [UInt64.toNat_and, mask_toNat, Nat.and_two_pow]
  cases hbit : w.toNat.testBit (bitnum x)
  · rw [hbit] at hand
    have h0 : w &&& mask x = 0 := UInt64.toNat_inj.1 (by simpa using hand)
    simp [h0]
  · rw [hbit] at hand
    have h0 : w &&& mask x ≠ 0 := fun h0 => by
      rw [h0] at hand
      exact absurd hand.symm (by simp)
    simpa using h0

theorem testBit_or_mask (w : UInt64) (x j : ℕ) :
    (w ||| mask x).toNat.testBit j = (w.toNat.testBit j || decide (bitnum x = j)) := by
  rw [UInt64.toNat_or, mask_toNat, Nat.testBit_or, Nat.testBit_two_pow]

theorem word_set (ws : List UInt64) {i : ℕ} (j : ℕ) (v : UInt64) :
    (⟨ws.set i v⟩ : Bitmapset).word j =
      if j = i ∧ i < ws.length then v else (⟨ws⟩ : Bitmapset).word j := by
  simp only [word, List.getElem?_set]
  by_cases hj : j = i
  · subst hj
    by_cases hi : j < ws.length <;> simp [hi]
  · simp [hj, Ne.symm hj]

@[simp] theorem word_append_zeros (ws : List UInt64) (k j : ℕ) :
    (⟨ws ++ List.replicate k 0⟩ : Bitmapset).word j = (⟨ws⟩ : Bitmapset).word j := by
  simp only [word]
  rw [List.getElem?_append]
  split_ifs with h
  · rfl
  · rw [List.getElem?_eq_none (by omega : ws.length ≤ j), List.getElem?_replicate]
    split_ifs <;> rfl

theorem word_of_le {a : Bitmapset} {i : ℕ} (h : a.nwords ≤ i) : a.word i = 0 := by
  simp [word, List.getElem?_eq_none (show a.words.length ≤ i from h)]

@[simp] theorem word_cons_zero (w : UInt64) (ws : List UInt64) :
    (⟨w :: ws⟩ : Bitmapset).word 0 = w := rfl

@[simp] theorem word_cons_succ (w : UInt64) (ws : List UInt64) (i : ℕ) :
    (⟨w :: ws⟩ : Bitmapset).word (i + 1) = (⟨ws⟩ : Bitmapset).word i := rfl

end Bitmapset

/-- Member `x` of a bitmap set is bit `BITNUM(x)` of word `WORDNUM(x)`. -/
theorem bmsIsMember_some (x : ℕ) (a : Bitmapset) :
    bmsIsMember x (some a) = (a.word (wordnum x)).toNat.testBit (bitnum x) := by
  simp only [bmsIsMember]
  split_ifs with h
  · simp [word_of_le h]
  · exact and_mask_ne_zero _ x

theorem wordnum_lt_of_bmsIsMember {x : ℕ} {a : Bitmapset} (h : bmsIsMember x (some a) = true) :
    wordnum x < a.nwords := by
  by_contra hle
  simp [bmsIsMember, show wordnum x ≥ a.nwords by omega] at h

/-- What `bms_add_member` does to the words of a set: it ors `mask x` into word `WORDNUM(x)`. -/
theorem word_bmsAddMember_some (a : Bitmapset) (x i : ℕ) :
    (bmsAddMember (some a) x).word i =
      if i = wordnum x then a.word i ||| mask x else a.word i := by
  -- the words after the enlargement, if any, are those of `a` and reach `WORDNUM(x)`
  have hset : ∀ b : Bitmapset, (∀ j, b.word j = a.word j) → wordnum x < b.words.length →
      (⟨b.words.set (wordnum x) (b.word (wordnum x) ||| mask x)⟩ : Bitmapset).word i =
        if i = wordnum x then a.word i ||| mask x else a.word i := by
    intro b hb hlen
    rw [word_set]
    by_cases hi : i = wordnum x
    · rw [if_pos ⟨hi, hlen⟩, if_pos hi, hi, hb]
    · rw [if_neg (fun h => hi h.1), if_neg hi]
      exact hb i
  by_cases h : wordnum x ≥ a.nwords
  · simp only [bmsAddMember, if_pos h]
    exact hset ⟨a.words ++ List.replicate (wordnum x + 1 - a.nwords) 0⟩
      (fun j => word_append_zeros _ _ _) (by simp only [nwords] at h ⊢; simp; omega)
  · simp only [bmsAddMember, if_neg h]
    exact hset a (fun _ => rfl) (by simp only [nwords] at h; omega)

/-- `bms_add_member` adds `x` and nothing else. -/
theorem bmsIsMember_bmsAddMember (a : Option Bitmapset) (x y : ℕ) :
    bmsIsMember y (some (bmsAddMember a x)) = (decide (y = x) || bmsIsMember y a) := by
  -- `y` is `x` exactly when they agree on the word and on the bit
  have hiff : y = x ↔ wordnum y = wordnum x ∧ bitnum x = bitnum y := by
    constructor
    · rintro rfl; exact ⟨rfl, rfl⟩
    · rintro ⟨h₁, h₂⟩
      rw [← wordnum_bitnum y, ← wordnum_bitnum x, h₁, h₂]
  cases a with
  | none =>
    rw [bmsIsMember_some, bmsAddMember, bmsMakeSingleton]
    by_cases hw : wordnum y = wordnum x
    · have hword : (⟨List.replicate (wordnum x) 0 ++ [mask x]⟩ : Bitmapset).word (wordnum y) =
          mask x := by
        simp [word, hw]
      rw [hword, mask_toNat, Nat.testBit_two_pow]
      simp [hiff, hw, bmsIsMember]
    · have hword : (⟨List.replicate (wordnum x) 0 ++ [mask x]⟩ : Bitmapset).word (wordnum y) =
          0 := by
        by_cases hlt : wordnum y < wordnum x
        · simp [word, List.getElem?_append, hlt]
        · rw [word, List.getElem?_append_right (by simp; omega),
            List.getElem?_eq_none (by simp; omega)]
          rfl
      rw [hword]
      simp [hiff, hw, bmsIsMember]
  | some a =>
    rw [bmsIsMember_some, bmsIsMember_some, word_bmsAddMember_some]
    by_cases hw : wordnum y = wordnum x
    · rw [if_pos hw, testBit_or_mask]
      simp [hiff, hw, Bool.or_comm]
    · rw [if_neg hw]
      simp [hiff, hw]

/-- `bms_resize` only appends zero words. -/
theorem bmsIsMember_bmsResize (a : Option Bitmapset) (wc y : ℕ) :
    bmsIsMember y (some (bmsResize a wc)) = bmsIsMember y a := by
  cases a with
  | none =>
    rw [bmsIsMember_some, bmsResize]
    simp only [word, List.getElem?_replicate]
    split_ifs <;> simp [bmsIsMember]
  | some a =>
    rw [bmsIsMember_some, bmsIsMember_some, bmsResize]
    split_ifs <;> simp

theorem nwords_bmsResize (a : Option Bitmapset) (wc : ℕ) :
    (bmsResize a wc).nwords = max (a.elim 0 nwords) wc := by
  cases a with
  | none => simp [bmsResize, nwords]
  | some a =>
    simp only [bmsResize, Option.elim]
    split_ifs with h
    · exact (max_eq_left h).symm
    · simp only [nwords, List.length_append, List.length_replicate] at h ⊢
      omega

/-- `bms_add_member` of a covered member keeps the words it has. -/
theorem nwords_bmsAddMember_of_covers {a : Option Bitmapset} {x : ℕ}
    (h : bmsCoversMember a x = true) : (bmsAddMember a x).nwords = a.elim 0 nwords := by
  cases a with
  | none => simp [bmsCoversMember] at h
  | some a =>
    simp only [bmsCoversMember, decide_eq_true_eq] at h
    simp [bmsAddMember, nwords, show ¬ a.words.length ≤ wordnum x from by simpa [nwords] using h]

/-! ## The set of members -/

/-- The members of a bitmap set; all of them lie below `64 * nwords`. -/
def members : Option Bitmapset → Finset ℕ
  | none => ∅
  | some a => (Finset.range (bitsPerBitmapword * a.nwords)).filter fun x => bmsIsMember x (some a)

@[simp] theorem mem_members {a : Option Bitmapset} {x : ℕ} :
    x ∈ members a ↔ bmsIsMember x a = true := by
  cases a with
  | none => simp [members, bmsIsMember]
  | some a =>
    simp only [members, Finset.mem_filter, Finset.mem_range, and_iff_right_iff_imp]
    intro h
    have hw := wordnum_lt_of_bmsIsMember h
    have := wordnum_bitnum x
    have := bitnum_lt x
    simp only [bitsPerBitmapword]
    omega

theorem members_bmsAddMember (a : Option Bitmapset) (x : ℕ) :
    members (some (bmsAddMember a x)) = insert x (members a) := by
  ext y
  simp [bmsIsMember_bmsAddMember]

theorem members_bmsResize (a : Option Bitmapset) (wc : ℕ) :
    members (some (bmsResize a wc)) = members a := by
  ext y
  simp [bmsIsMember_bmsResize]

/-- The members below `64 * nwords`, counted word by word. -/
theorem countP_bmsIsMember (ws : List UInt64) :
    (List.range (bitsPerBitmapword * ws.length)).countP (fun x => bmsIsMember x (some ⟨ws⟩)) =
      bmsNumMembers (some ⟨ws⟩) := by
  induction ws with
  | nil => rfl
  | cons w ws ih =>
    -- the first word holds members `0, …, 63`; the others are those of `ws`, shifted by 64
    have hlow : ∀ b ∈ List.range bitsPerBitmapword,
        bmsIsMember b (some ⟨w :: ws⟩) = w.toNat.testBit b := by
      intro b hb
      rw [List.mem_range] at hb
      rw [bmsIsMember_some, show wordnum b = 0 from Nat.div_eq_of_lt hb,
        show bitnum b = b from Nat.mod_eq_of_lt hb, word_cons_zero]
    have hhigh : ∀ y, bmsIsMember (bitsPerBitmapword + y) (some ⟨w :: ws⟩) =
        bmsIsMember y (some ⟨ws⟩) := by
      intro y
      have hw : wordnum (bitsPerBitmapword + y) = wordnum y + 1 := by
        simp only [wordnum, bitsPerBitmapword]; omega
      have hb : bitnum (bitsPerBitmapword + y) = bitnum y := by
        simp only [bitnum, bitsPerBitmapword]; omega
      rw [bmsIsMember_some, bmsIsMember_some, hw, hb, word_cons_succ]
    rw [List.length_cons, Nat.mul_succ, Nat.add_comm, List.range_add, List.countP_append,
      List.countP_map, List.countP_congr (fun b hb => by rw [hlow b hb]),
      show ((fun x => bmsIsMember x (some ⟨w :: ws⟩)) ∘ (bitsPerBitmapword + ·)) =
        fun y => bmsIsMember y (some ⟨ws⟩) from funext hhigh, ih]
    by_cases hw : w = 0
    · subst hw
      simp [bmsNumMembers, bmwPopcount]
    · simp [bmsNumMembers, bmwPopcount, hw]

/-- **`bms_num_members` counts the members.** -/
theorem bmsNumMembers_eq_card (a : Option Bitmapset) : bmsNumMembers a = (members a).card := by
  cases a with
  | none => rfl
  | some a =>
    rw [members, ← countP_bmsIsMember a.words]
    show _ = Multiset.card (Multiset.filter _ (Multiset.range _))
    rw [Multiset.range, Multiset.filter_coe, Multiset.coe_card, List.countP_eq_length_filter]
    simp [nwords]

/-! ## Words as 32-bit blocks

`bitmap_compression.c` reads the words of a set as twice as many 32-bit blocks, the low half of
each word first (a little-endian build), and the decompressor writes blocks into zeroed words the
same way. -/

namespace Bitmapset

/-- The 32-bit blocks of the words, `(uint32 *) words`. -/
def blocks (a : Bitmapset) : List UInt32 :=
  a.words.flatMap fun w => [UInt32.ofNat (w.toNat % 2 ^ 32), UInt32.ofNat (w.toNat / 2 ^ 32)]

/-- `nwords` zeroed words into which `blocks` were written as 32-bit halves. -/
def ofBlocks (nwords : ℕ) (blocks : List UInt32) : Bitmapset :=
  ⟨(List.range nwords).map fun i =>
    UInt64.ofNat ((blocks[2 * i]?.getD 0).toNat + 2 ^ 32 * (blocks[2 * i + 1]?.getD 0).toNat)⟩

@[simp] theorem length_blocks (a : Bitmapset) : a.blocks.length = 2 * a.nwords := by
  simp [blocks, nwords, List.length_flatMap, Nat.mul_comm]

theorem blocks_getElem (a : Bitmapset) (i : ℕ) (hi : i < a.nwords) :
    a.blocks[2 * i]? = some (UInt32.ofNat ((a.word i).toNat % 2 ^ 32)) ∧
      a.blocks[2 * i + 1]? = some (UInt32.ofNat ((a.word i).toNat / 2 ^ 32)) := by
  obtain ⟨ws⟩ := a
  induction ws generalizing i with
  | nil => exact absurd hi (Nat.not_lt_zero i)
  | cons w ws ih =>
    cases i with
    | zero => simp [blocks]
    | succ i =>
      have h := ih i (by simpa [nwords] using hi)
      simp only [blocks, List.flatMap_cons] at h ⊢
      rw [show 2 * (i + 1) = 2 * i + 2 by omega, show 2 * i + 2 + 1 = 2 * i + 1 + 2 by omega]
      simpa using h

/-- A word is its two halves. -/
theorem ofNat_halves (w : UInt64) :
    UInt64.ofNat ((UInt32.ofNat (w.toNat % 2 ^ 32)).toNat +
      2 ^ 32 * (UInt32.ofNat (w.toNat / 2 ^ 32)).toNat) = w := by
  have hw := w.toNat_lt
  apply UInt64.toNat_inj.1
  simp [UInt64.toNat_ofNat']
  omega

/-- The words are read back from their blocks. -/
theorem ofBlocks_blocks (a : Bitmapset) : ofBlocks a.nwords a.blocks = a := by
  obtain ⟨ws⟩ := a
  simp only [ofBlocks, Bitmapset.mk.injEq]
  apply List.ext_getElem (by simp [nwords])
  intro i h₁ h₂
  obtain ⟨hlo, hhi⟩ := blocks_getElem ⟨ws⟩ i (by simpa using h₁)
  simp only [List.getElem_map, List.getElem_range, hlo, hhi, Option.getD_some]
  rw [ofNat_halves]
  simp [word, List.getElem?_eq_getElem h₂]

/-- A single word with a zero upper half is read back from its lower block alone. -/
theorem ofBlocks_one {w : UInt64} (hw : w >>> 32 = 0) :
    ofBlocks 1 [UInt32.ofNat (w.toNat % 2 ^ 32)] = ⟨[w]⟩ := by
  have hlt : w.toNat < 2 ^ 32 := by
    have h := congrArg UInt64.toNat hw
    rw [UInt64.toNat_shiftRight] at h
    simp only [Nat.shiftRight_eq_div_pow, UInt64.toNat_zero] at h
    have : w.toNat / 2 ^ 32 = 0 := by simpa using h
    omega
  simp only [ofBlocks, List.range_one, List.map_cons, List.map_nil, Bitmapset.mk.injEq,
    List.cons.injEq, and_true]
  apply UInt64.toNat_inj.1
  simp [UInt64.toNat_ofNat']
  omega

end Bitmapset

end Cloudberry.Visimap
