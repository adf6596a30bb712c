import Mathlib.Data.Multiset.Lattice
import Mathlib.Data.Multiset.Powerset

/-!
# Pruning a multiset to its greatest stable part

A pruning algorithm deletes, one at a time and in any order, elements of a multiset that a rule
refuses to keep given what is left, until the rule keeps every element. When the rule only gets
more willing to keep an element as the multiset grows (`KeepRule.mono`), the result does not
depend on the order of the deletions: it is the greatest sub-multiset on which the rule keeps
every element.

* `Stable`: the rule keeps every element;
* `stable_union`: stable multisets are closed under `∪`, so there is a greatest stable sub-multiset
  (`greatest`, `stable_greatest`, `le_greatest`);
* `greatest_le_erase`: deleting an element the rule refuses keeps `greatest` below what is left;
* `eq_greatest`: a pruning that ends with a stable multiset ends with `greatest`;
* `PruneStep`, `Prunes.greatest_le`: a run of deletions of refused elements, in any order, stays
  above `greatest`.
-/

namespace Prune

variable {β : Type*} [DecidableEq β]

/-- When an element may stay in a multiset: a rule that keeps, in a larger multiset, every element
it keeps in a smaller one. -/
structure KeepRule (β : Type*) where
  Keep : Multiset β → β → Prop
  mono : ∀ {F G : Multiset β} {e : β}, F ≤ G → Keep F e → Keep G e

variable (r : KeepRule β)

/-- The rule keeps every element of `F`. -/
def Stable (F : Multiset β) : Prop := ∀ e ∈ F, r.Keep F e

variable {r}

omit [DecidableEq β] in
theorem stable_zero : Stable r 0 := by
  intro e he
  simp at he

theorem stable_union {F G : Multiset β} (hF : Stable r F) (hG : Stable r G) :
    Stable r (F ∪ G) := by
  intro e he
  rcases Multiset.mem_union.mp he with he | he
  · exact r.mono Multiset.le_union_left (hF e he)
  · exact r.mono Multiset.le_union_right (hG e he)

theorem stable_multisetSup {S : Multiset (Multiset β)} (h : ∀ F ∈ S, Stable r F) :
    Stable r S.sup := by
  induction S using Multiset.induction_on with
  | empty => simpa using stable_zero
  | cons F S ih =>
    rw [Multiset.sup_cons, Multiset.sup_eq_union]
    exact stable_union (h F (Multiset.mem_cons_self F S))
      (ih fun G hG => h G (Multiset.mem_cons_of_mem hG))

variable (r)

open Classical in
/-- The greatest stable sub-multiset of `E`. -/
noncomputable def greatest (E : Multiset β) : Multiset β :=
  ((Multiset.powerset E).filter (Stable r)).sup

variable {r}

theorem greatest_le (E : Multiset β) : greatest r E ≤ E := by
  classical
  refine Multiset.sup_le.mpr fun F hF => ?_
  exact Multiset.mem_powerset.mp (Multiset.mem_filter.mp hF).1

theorem stable_greatest (E : Multiset β) : Stable r (greatest r E) := by
  classical
  exact stable_multisetSup fun F hF => (Multiset.mem_filter.mp hF).2

theorem le_greatest {E F : Multiset β} (hle : F ≤ E) (hF : Stable r F) : F ≤ greatest r E := by
  classical
  exact Multiset.le_sup (Multiset.mem_filter.mpr ⟨Multiset.mem_powerset.mpr hle, hF⟩)

/-- Deleting an element the rule refuses keeps `greatest` below what is left: a refused element
was refused in every smaller multiset too, so `greatest` never held it. -/
theorem greatest_le_erase {E F : Multiset β} {e : β} (hg : greatest r E ≤ F)
    (hk : ¬ r.Keep F e) : greatest r E ≤ F.erase e := by
  have hnot : e ∉ greatest r E := fun he => hk (r.mono hg (stable_greatest E e he))
  rw [Multiset.le_iff_count]
  intro a
  by_cases ha : a = e
  · subst ha
    rw [Multiset.count_eq_zero_of_notMem hnot]
    exact Nat.zero_le _
  · rw [Multiset.count_erase_of_ne ha]
    exact Multiset.le_iff_count.mp hg a

/-- A pruning of `E` that keeps `greatest` below what is left and ends with a stable multiset
ends with `greatest`. -/
theorem eq_greatest {E F : Multiset β} (hle : F ≤ E) (hg : greatest r E ≤ F) (hF : Stable r F) :
    F = greatest r E :=
  le_antisymm (le_greatest hle hF) hg

variable (r)

/-- One deletion of an element that the rule refuses in the multiset it is deleted from. -/
def PruneStep (F G : Multiset β) : Prop := ∃ e ∈ F, ¬ r.Keep F e ∧ G = F.erase e

/-- A run of deletions of refused elements. -/
abbrev Prunes : Multiset β → Multiset β → Prop := Relation.ReflTransGen (PruneStep r)

variable {r}

theorem Prunes.le {E F : Multiset β} (h : Prunes r E F) : F ≤ E := by
  induction h with
  | refl => exact le_rfl
  | tail _ hstep ih =>
    obtain ⟨e, -, -, rfl⟩ := hstep
    exact (Multiset.erase_le e _).trans ih

theorem Prunes.greatest_le {E F : Multiset β} (h : Prunes r E F) : greatest r E ≤ F := by
  induction h with
  | refl => exact Prune.greatest_le E
  | tail _ hstep ih =>
    obtain ⟨e, -, hk, rfl⟩ := hstep
    exact greatest_le_erase ih hk

/-- Deleting one refused element is a run of deletions. -/
theorem Prunes.erase {F : Multiset β} {e : β} (he : e ∈ F) (hk : ¬ r.Keep F e) :
    Prunes r F (F.erase e) :=
  Relation.ReflTransGen.single ⟨e, he, hk, rfl⟩

end Prune
