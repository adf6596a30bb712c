import Mathlib.Logic.Basic
import Mathlib.Control.Monad.Basic

/-!
# Computing through `Except`

A C function that can stop with an error is modelled in `Except`: its statements become a `do`
block, and a proof that follows the function runs it one bind at a time. These are the rules it
uses: `pure` is `Except.ok` (`Except.pure_eq_ok`) and `throw` is `Except.error`
(`Except.throw_eq_error`), a successful step passes its value on (`Except.ok_bind`, and
`Except.map_ok` of Batteries for a final map), a failed one stops the block (`Except.error_bind`),
and a block that succeeded had every step succeed (`Except.bind_eq_ok`).
-/

namespace Except

variable {ε α β : Type}

@[simp] theorem pure_eq_ok (a : α) : (pure a : Except ε α) = .ok a := rfl

@[simp] theorem throw_eq_error (e : ε) : (throw e : Except ε α) = .error e := rfl

@[simp] theorem ok_bind (a : α) (f : α → Except ε β) : (Except.ok a >>= f) = f a := rfl

@[simp] theorem error_bind (e : ε) (f : α → Except ε β) : (Except.error e >>= f) = .error e := rfl

theorem bind_eq_ok {x : Except ε α} {f : α → Except ε β} {b : β} :
    x >>= f = .ok b ↔ ∃ a, x = .ok a ∧ f a = .ok b := by
  cases x with
  | error e => simp
  | ok a => simp

end Except
