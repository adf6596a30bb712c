import Mathlib

/-!
# Bit strings and the positions of their set bits

A bit string is a `List Bool`, first bit first. `setPositions` lists the positions of its set bits,
in increasing order: it is what a decoder of a compressed bit string has to emit. The lemmas say
how it goes over an append (the second part's positions move by the first part's length), over a
run of one bit, and over a string given bit by bit.
-/

namespace BitString

/-- The positions of the set bits, in increasing order. -/
def setPositions : List Bool → List ℕ
  | [] => []
  | b :: l => (if b then [0] else []) ++ (setPositions l).map (· + 1)

@[simp] theorem setPositions_nil : setPositions [] = [] := rfl

theorem setPositions_cons (b : Bool) (l : List Bool) :
    setPositions (b :: l) = (if b then [0] else []) ++ (setPositions l).map (· + 1) := rfl

theorem setPositions_append (l₁ l₂ : List Bool) :
    setPositions (l₁ ++ l₂) = setPositions l₁ ++ (setPositions l₂).map (· + l₁.length) := by
  induction l₁ with
  | nil => simp
  | cons b l₁ ih =>
    rw [List.cons_append, setPositions_cons, setPositions_cons, ih, List.map_append,
      List.map_map, List.append_assoc]
    congr 3

@[simp] theorem setPositions_replicate_false (n : ℕ) :
    setPositions (List.replicate n false) = [] := by
  induction n with
  | zero => rfl
  | succ n ih => simp [List.replicate_succ, setPositions_cons, ih]

@[simp] theorem setPositions_replicate_true (n : ℕ) :
    setPositions (List.replicate n true) = List.range n := by
  induction n with
  | zero => rfl
  | succ n ih =>
    rw [List.replicate_succ, setPositions_cons, ih, List.range_succ_eq_map]
    rfl

/-- A string given bit by bit has its set bits at the positions where the bit function holds. -/
theorem setPositions_map_range (f : ℕ → Bool) (n : ℕ) :
    setPositions ((List.range n).map f) = (List.range n).filter f := by
  induction n generalizing f with
  | zero => rfl
  | succ n ih =>
    rw [List.range_succ_eq_map, List.map_cons, List.map_map, setPositions_cons,
      ih (f ∘ (· + 1)), List.filter_cons, List.filter_map]
    cases f 0 <;> rfl

/-- A string given bit by bit, with the bits before `q` cleared and bit `q` set, has its first set
bit at `q`. -/
theorem setPositions_map_range_from (t : ℕ → Bool) {n q : ℕ} (hq : q < n) (ht : t q = true) :
    setPositions ((List.range n).map fun i => decide (q ≤ i) && t i) =
      q :: setPositions ((List.range n).map fun i => decide (q + 1 ≤ i) && t i) := by
  rw [setPositions_map_range, setPositions_map_range]
  induction n with
  | zero => omega
  | succ n ih =>
    rw [List.range_succ, List.filter_append, List.filter_append]
    rcases Nat.lt_or_ge q n with hlt | hge
    · rw [ih hlt, List.cons_append]
      congr 2
      simp only [List.filter_singleton, decide_eq_true (show q ≤ n by omega),
        decide_eq_true (show q + 1 ≤ n by omega), Bool.true_and]
    · -- `q` is the last position: no position before it passes either test
      have hqn : q = n := by omega
      subst hqn
      have hnil : ∀ m, q ≤ m → (List.range q).filter (fun i => decide (m ≤ i) && t i) = [] :=
        fun m hm => List.filter_eq_nil_iff.mpr fun i hi => by
          rw [List.mem_range] at hi
          simp [show ¬ m ≤ i by omega]
      rw [hnil q le_rfl, hnil (q + 1) (by omega)]
      simp [ht]

/-- The set positions are those where the string holds a set bit. -/
theorem mem_setPositions {l : List Bool} {k : ℕ} : k ∈ setPositions l ↔ l[k]? = some true := by
  induction l generalizing k with
  | nil => simp
  | cons b l ih =>
    rw [setPositions_cons, List.mem_append, List.mem_map]
    cases k with
    | zero => cases b <;> simp
    | succ k =>
      simp only [List.getElem?_cons_succ, ← ih, Nat.add_right_cancel_iff, exists_eq_right]
      cases b <;> simp

/-- The positions come in increasing order, so each at most once. -/
theorem pairwise_lt_setPositions (l : List Bool) : (setPositions l).Pairwise (· < ·) := by
  induction l with
  | nil => exact List.Pairwise.nil
  | cons b l ih =>
    rw [setPositions_cons]
    have hshift : ((setPositions l).map (· + 1)).Pairwise (· < ·) :=
      List.pairwise_map.mpr (ih.imp fun h => Nat.succ_lt_succ h)
    cases b with
    | false => simpa using hshift
    | true =>
      refine List.pairwise_append.mpr ⟨List.pairwise_singleton _ _, hshift, ?_⟩
      intro a ha c hc
      rw [List.mem_singleton.mp ha]
      obtain ⟨k, -, rfl⟩ := List.mem_map.mp hc
      omega

/-! ## The bit string of a set of positions -/

/-- The bits at positions `a`, …, `a + n - 1` of the bit string whose set bits are at the positions
in `P`. -/
def indicator (P : List ℕ) (a n : ℕ) : List Bool :=
  (List.range n).map fun i => decide (a + i ∈ P)

@[simp] theorem length_indicator (P : List ℕ) (a n : ℕ) : (indicator P a n).length = n := by
  simp [indicator]

theorem indicator_add (P : List ℕ) (a n m : ℕ) :
    indicator P a (n + m) = indicator P a n ++ indicator P (a + n) m := by
  rw [indicator, List.range_add, List.map_append, List.map_map]
  refine congrArg _ (List.map_congr_left fun i _ => ?_)
  simp [Nat.add_assoc]

theorem indicator_congr {P Q : List ℕ} {a n : ℕ} (h : ∀ i < n, a + i ∈ P ↔ a + i ∈ Q) :
    indicator P a n = indicator Q a n :=
  List.map_congr_left fun i hi => by rw [decide_eq_decide]; exact h i (List.mem_range.mp hi)

theorem indicator_eq_replicate {P : List ℕ} {a n : ℕ} (h : ∀ i < n, a + i ∉ P) :
    indicator P a n = List.replicate n false := by
  refine List.ext_getElem (by simp) fun i h₁ _ => ?_
  simp only [indicator, List.getElem_map, List.getElem_range, List.getElem_replicate]
  simpa using h i (by simpa using h₁)

/-- A sorted list of positions below `n` is read back from its bit string. -/
theorem setPositions_indicator {P : List ℕ} {n : ℕ} (hP : P.Pairwise (· < ·))
    (hn : ∀ p ∈ P, p < n) : setPositions (indicator P 0 n) = P := by
  rw [indicator, setPositions_map_range]
  have hsorted : ((List.range n).filter fun i => decide (0 + i ∈ P)).Pairwise (· < ·) :=
    (List.pairwise_lt_range).filter _
  refine List.Perm.eq_of_pairwise (fun a b _ _ h₁ h₂ => absurd (h₁.trans h₂) (Nat.lt_irrefl a))
    hsorted hP ?_
  refine (List.perm_ext_iff_of_nodup (hsorted.imp Nat.ne_of_lt) (hP.imp Nat.ne_of_lt)).mpr
    fun p => ?_
  simp only [List.mem_filter, List.mem_range, Nat.zero_add, decide_eq_true_eq]
  exact ⟨And.right, fun h => ⟨hn p h, h⟩⟩

end BitString
