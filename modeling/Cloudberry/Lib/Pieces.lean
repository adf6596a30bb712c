import Mathlib.Algebra.Order.Floor.Div
import Mathlib.Data.PNat.Basic

/-!
# Cutting a list into pieces of bounded length

A writer that spreads a long content over blocks of at most `n` bytes runs a countdown loop: it
takes `n` bytes, or what remains when that is less, writes them, and goes on with the rest until
nothing remains. `pieces n xs` is the list of what that loop takes from `xs`.

* `flatten_pieces`: the pieces put back together are `xs`;
* `length_pieces`: there are `⌈|xs| / n⌉` of them;
* `length_le_of_mem_pieces`, `ne_nil_of_mem_pieces`: each piece has at most `n` elements and at
  least one;
* `pieces_of_length_le`, `pieces_of_lt_length`: the two steps of the loop, the last piece and
  one piece of `n` before the rest.
-/

namespace Pieces

variable {α : Type*} (n : ℕ+)

/-- The pieces the countdown loop cuts `xs` into, `n` elements at a time. -/
def pieces : List α → List (List α)
  | [] => []
  | x :: xs => (x :: xs).take n :: pieces ((x :: xs).drop n)
termination_by xs => xs.length
decreasing_by
  have := n.pos
  simp only [List.length_drop, List.length_cons]
  omega

variable {n}

@[simp] theorem pieces_nil : pieces n ([] : List α) = [] := by
  rw [pieces]

theorem pieces_of_ne_nil {xs : List α} (h : xs ≠ []) :
    pieces n xs = xs.take n :: pieces n (xs.drop n) := by
  obtain ⟨x, xs, rfl⟩ := List.exists_cons_of_ne_nil h
  rw [pieces]

/-- The last step of the loop: what remains fits in one piece. -/
theorem pieces_of_length_le {xs : List α} (h : xs ≠ []) (hle : xs.length ≤ n) :
    pieces n xs = [xs] := by
  rw [pieces_of_ne_nil h, List.take_of_length_le hle, List.drop_of_length_le hle, pieces_nil]

/-- A step before the last: one piece of exactly `n`, then the pieces of the rest. -/
theorem pieces_of_lt_length {xs : List α} (hlt : (n : ℕ) < xs.length) :
    pieces n xs = xs.take n :: pieces n (xs.drop n) :=
  pieces_of_ne_nil (List.ne_nil_of_length_pos (lt_of_le_of_lt (Nat.zero_le _) hlt))

/-- Induction along the loop: the property holds of the pieces of the empty list, and of the
pieces of a nonempty list when it holds of the pieces of what is left after the first piece. -/
theorem pieces_induction {motive : List α → Prop} (nil : motive [])
    (step : ∀ xs, xs ≠ [] → motive (xs.drop n) → motive xs) (xs : List α) : motive xs := by
  induction h : xs.length using Nat.strong_induction_on generalizing xs with
  | _ k ih =>
    cases xs with
    | nil => exact nil
    | cons x xs =>
      refine step _ (List.cons_ne_nil x xs) (ih _ ?_ _ rfl)
      have := n.pos
      simp only [List.length_drop, List.length_cons] at h ⊢
      omega

theorem flatten_pieces (xs : List α) : (pieces n xs).flatten = xs := by
  induction xs using pieces_induction (n := n) with
  | nil => simp
  | step xs hne ih => rw [pieces_of_ne_nil hne, List.flatten_cons, ih, List.take_append_drop]

theorem length_pieces (xs : List α) : (pieces n xs).length = xs.length ⌈/⌉ (n : ℕ) := by
  have hn := n.pos
  induction xs using pieces_induction (n := n) with
  | nil => simp
  | step xs hne ih =>
    have hpos : 0 < xs.length := List.length_pos_iff.mpr hne
    rw [pieces_of_ne_nil hne, List.length_cons, ih, List.length_drop,
      Nat.ceilDiv_eq_add_pred_div, Nat.ceilDiv_eq_add_pred_div]
    -- one piece fewer once `n` elements are gone, or none left after the last
    by_cases hle : xs.length ≤ n
    · have h₁ : (xs.length - n + n - 1) / n = 0 := Nat.div_eq_of_lt (by omega)
      have h₂ : (xs.length + n - 1) / n = 1 := Nat.div_eq_of_lt_le (by omega) (by omega)
      rw [h₁, h₂]
    · have h₁ : xs.length + n - 1 = (xs.length - n + n - 1) + n * 1 := by omega
      rw [h₁, Nat.add_mul_div_left _ _ hn]

theorem length_le_of_mem_pieces {xs p : List α} (hp : p ∈ pieces n xs) : p.length ≤ n := by
  induction xs using pieces_induction (n := n) with
  | nil => simp at hp
  | step xs hne ih =>
    rw [pieces_of_ne_nil hne, List.mem_cons] at hp
    rcases hp with rfl | hp
    · exact List.length_take_le _ _
    · exact ih hp

theorem ne_nil_of_mem_pieces {xs p : List α} (hp : p ∈ pieces n xs) : p ≠ [] := by
  induction xs using pieces_induction (n := n) with
  | nil => simp at hp
  | step xs hne ih =>
    rw [pieces_of_ne_nil hne, List.mem_cons] at hp
    rcases hp with rfl | hp
    · simpa [List.take_eq_nil_iff, n.ne_zero] using hne
    · exact ih hp

end Pieces
