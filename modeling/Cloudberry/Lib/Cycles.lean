import Mathlib.Data.Fintype.Card
import Mathlib.Data.Set.Finite.Basic
import Mathlib.Logic.Relation
import Mathlib.Order.WellFounded

/-!
# Cycles of a relation on a finite set

Following successors inside a finite set must come back to where it has been:
`exists_transGen_self` says that a nonempty finite set in which every element has a successor in
the set holds a cycle of the relation.
-/

namespace RelCycles

variable {α : Type*} {r : α → α → Prop}

/-- A nonempty finite set in which every element has an `r`-successor in the set holds an
`r`-cycle. Without one, "is reachable from" would be a well-founded order on the set, and an
element with nothing reachable from it would have no successor. -/
theorem exists_transGen_self {S : Set α} (hS : S.Finite) (hne : S.Nonempty)
    (hsucc : ∀ a ∈ S, ∃ b ∈ S, r a b) : ∃ a, Relation.TransGen r a a := by
  by_contra hacyclic
  push Not at hacyclic
  have : Finite S := hS.to_subtype
  -- `R x y`: `x` is reachable from `y`
  let R : S → S → Prop := fun x y => Relation.TransGen r y.1 x.1
  have : IsTrans S R := ⟨fun _ _ _ hxy hyz => Relation.TransGen.trans hyz hxy⟩
  have : Std.Irrefl R := ⟨fun x => hacyclic x.1⟩
  obtain ⟨m, -, hm⟩ := (Finite.wellFounded_of_trans_of_irrefl R).has_min Set.univ
    ⟨⟨hne.some, hne.some_mem⟩, Set.mem_univ _⟩
  obtain ⟨b, hb, hmb⟩ := hsucc m.1 m.2
  exact hm ⟨b, hb⟩ (Set.mem_univ _) (Relation.TransGen.single hmb)

end RelCycles
