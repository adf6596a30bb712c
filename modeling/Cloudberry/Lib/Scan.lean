import Mathlib.Data.Nat.Notation
import Mathlib.Logic.Basic
import Cloudberry.Lib.ExceptBind

/-!
# Scanning until nothing is left

A reader that is called again and again, each call finding the next thing in its input or finding
that nothing is left, is a scan. `scan step fuel s` calls `step` from the state `s` until a call
finds nothing, at most `fuel` times, and returns what the calls found, in order, with the state
the scan stopped in.

`Finds step s xs s'` says that the calls of `step` from `s` find the elements of `xs` one after
another and leave the state `s'`. When `step` then finds nothing, a scan with fuel for one call
more than there are elements returns exactly `xs` (`scan_of_finds`): it stops because the input
is exhausted, not because its fuel is. A reader built on another finds what the other finds
(`Finds.map`).
-/

namespace Scan

variable {σ ε α : Type} (step : σ → Except ε (Option α × σ))

/-- Call `step` until it finds nothing, at most `fuel` times, and collect what it finds. -/
def scan : ℕ → σ → Except ε (List α × σ)
  | 0, s => .ok ([], s)
  | fuel + 1, s => do
    match ← step s with
    | (none, s) => pure ([], s)
    | (some a, s) =>
      let (as, s) ← scan fuel s
      pure (a :: as, s)

/-- The calls of `step` from `s` find the elements of `xs` in turn and leave the state `s'`. -/
inductive Finds : σ → List α → σ → Prop
  | nil (s : σ) : Finds s [] s
  | cons {s s₁ s' : σ} {a : α} {xs : List α} :
      step s = .ok (some a, s₁) → Finds s₁ xs s' → Finds s (a :: xs) s'

variable {step}

/-- A scan with fuel to spare returns what the calls find before the one that finds nothing. -/
theorem scan_of_finds {s s' s'' : σ} {xs : List α} (h : Finds step s xs s')
    (hend : step s' = .ok (none, s'')) :
    ∀ fuel, xs.length < fuel → scan step fuel s = .ok (xs, s'') := by
  induction h with
  | nil s =>
    intro fuel hfuel
    obtain ⟨fuel, rfl⟩ : ∃ f, fuel = f + 1 := ⟨fuel - 1, by simp at hfuel; omega⟩
    simp [scan, hend]
  | @cons s s₁ s' a xs hstep _ ih =>
    intro fuel hfuel
    obtain ⟨fuel, rfl⟩ : ∃ f, fuel = f + 1 := ⟨fuel - 1, by simp at hfuel; omega⟩
    have hrest := ih hend fuel (by simp at hfuel; omega)
    simp [scan, hstep, hrest]

/-- Calls that find things one after the other, then more, find them all in turn. -/
theorem Finds.append {s s' s'' : σ} {xs ys : List α} (h : Finds step s xs s')
    (h' : Finds step s' ys s'') : Finds step s (xs ++ ys) s'' := by
  induction h with
  | nil => exact h'
  | cons hstep _ ih => exact .cons hstep (ih h')

/-- **A scan inside another.** When every call of `step` that finds something is matched by a call
of `step'` from the image of its state, which finds the same and moves to the image of where `step`
moves, what the calls of `step` find the calls of `step'` find too. -/
theorem Finds.map {τ : Type} {step' : τ → Except ε (Option α × τ)} (f : σ → τ)
    (hsim : ∀ {s s₁ : σ} {a : α}, step s = .ok (some a, s₁) → step' (f s) = .ok (some a, f s₁))
    {s s' : σ} {xs : List α} (h : Finds step s xs s') : Finds step' (f s) xs (f s') := by
  induction h with
  | nil s => exact .nil (f s)
  | cons hstep _ ih => exact .cons (hsim hstep) ih

end Scan
