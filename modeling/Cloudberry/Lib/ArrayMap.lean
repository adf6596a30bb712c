import Mathlib

/-!
# Maps kept as arrays of entries

A small map kept as an array of entries, each of which carries its key: a lookup scans the array
from the front (`get`), an update rewrites in place the entries with a key (`update`), and a
deletion moves the last entry into the freed slot (`swapRemove`), so that the entries do not keep
their order.

* `get_update_self`, `get_update_of_ne`: what a lookup sees after an update;
* `sum_map_update`: with distinct keys, an update changes a sum over the entries at one entry;
* `swapRemove_perm`, `drop_swapRemove_perm`: a deletion removes one entry, and the entries that a
  scan from the freed slot on has still to visit are those that stood after it.
-/

namespace ArrayMap

variable {α κ : Type*}

section Keys

variable [DecidableEq κ] (key : α → κ)

/-- The first entry with key `k`. -/
def get (l : List α) (k : κ) : Option α := l.find? fun a => key a = k

/-- Apply `f` to the entries with key `k`. -/
def update (l : List α) (k : κ) (f : α → α) : List α := l.map fun a => if key a = k then f a else a

variable {key} {l : List α} {k : κ} {f : α → α}

theorem mem_of_get_eq_some {a : α} (h : get key l k = some a) : a ∈ l ∧ key a = k := by
  unfold get at h
  have hk := List.find?_some h
  exact ⟨List.mem_of_find?_eq_some h, of_decide_eq_true hk⟩

theorem get_eq_none (h : ∀ a ∈ l, key a ≠ k) : get key l k = none :=
  List.find?_eq_none.mpr fun a ha => by simpa using h a ha

theorem ne_of_get_eq_none (h : get key l k = none) {a : α} (ha : a ∈ l) : key a ≠ k := by
  simpa using List.find?_eq_none.mp h a ha

/-- Appending an entry whose key is not there: lookups of the other keys see nothing new. -/
theorem get_append_of_get_eq_none {a : α} (h : get key l (key a) = none) (k' : κ) :
    get key (l ++ [a]) k' = if k' = key a then some a else get key l k' := by
  unfold get at h ⊢
  rw [List.find?_append]
  split_ifs with hk
  · subst hk
    simp [h]
  · cases hres : List.find? (fun b => decide (key b = k')) l with
    | none => simp [Ne.symm hk]
    | some b => rfl

/-- An update by a function that `g` does not see is not seen by `g`. -/
theorem map_update_of_eq {β : Type*} (g : α → β) (hg : ∀ a, g (f a) = g a) :
    (update key l k f).map g = l.map g := by
  rw [update, List.map_map]
  exact List.map_congr_left fun a _ => by by_cases h : key a = k <;> simp [h, hg]

theorem get_eq_some_of_mem (hl : (l.map key).Nodup) {a : α} (ha : a ∈ l) :
    get key l (key a) = some a := by
  induction l with
  | nil => cases ha
  | cons b l ih =>
    rw [List.map_cons, List.nodup_cons] at hl
    rcases List.mem_cons.mp ha with rfl | ha
    · simp [get]
    · have hne : key b ≠ key a := fun h => hl.1 (h ▸ List.mem_map_of_mem ha)
      simpa [get, hne] using ih hl.2 ha

/-- An update at a key no entry has changes nothing. -/
theorem update_eq_self (h : ∀ a ∈ l, key a ≠ k) : update key l k f = l := by
  conv_rhs => rw [← List.map_id l]
  exact List.map_congr_left fun a ha => if_neg (h a ha)

/-- With distinct keys, updating the entry `a` with key `k` changes a sum over the entries by what
`f` changes at `a`. -/
theorem sum_map_update {M : Type*} [AddCommMonoid M] (g : α → M) (hl : (l.map key).Nodup)
    {a : α} (ha : a ∈ l) (hk : key a = k) :
    ((update key l k f).map g).sum + g a = (l.map g).sum + g (f a) := by
  induction l with
  | nil => cases ha
  | cons b l ih =>
    rw [List.map_cons, List.nodup_cons] at hl
    by_cases hb : key b = k
    · -- `b` is the entry with key `k`, and the rest has none
      have hrest : ∀ c ∈ l, key c ≠ k := fun c hc h => hl.1 (hb ▸ h ▸ List.mem_map_of_mem hc)
      have hab : a = b := by
        rcases List.mem_cons.mp ha with rfl | ha
        · rfl
        · exact absurd hk (hrest a ha)
      subst hab
      have htail : update key l k f = l := update_eq_self hrest
      simp only [update, List.map_cons, hb, if_true] at htail ⊢
      rw [htail, List.sum_cons, List.sum_cons]
      ac_rfl
    · have ha' : a ∈ l := by
        rcases List.mem_cons.mp ha with rfl | ha
        · exact absurd hk hb
        · exact ha
      have ih' := ih hl.2 ha'
      simp only [update, List.map_cons, hb, if_false, List.sum_cons] at ih' ⊢
      rw [add_assoc, ih', add_assoc]

variable (hf : ∀ a, key (f a) = key a)
include hf

theorem map_key_update : (update key l k f).map key = l.map key := by
  rw [update, List.map_map]
  exact List.map_congr_left fun a _ => by by_cases h : key a = k <;> simp [h, hf]

/-- The update does not move the entries' keys, so a lookup finds the same positions. -/
theorem find?_update {k' : κ} :
    List.find? (fun a => decide (key a = k')) (update key l k f) =
      (List.find? (fun a => decide (key a = k')) l).map fun a => if key a = k then f a else a := by
  rw [update, List.find?_map]
  congr 2
  funext a
  by_cases h : key a = k <;> simp [h, hf]

theorem get_update_self : get key (update key l k f) k = (get key l k).map f := by
  rw [get, find?_update hf]
  cases hres : List.find? (fun a => decide (key a = k)) l with
  | none => simp [get, hres]
  | some a =>
    have hka := List.find?_some hres
    simp [get, hres, of_decide_eq_true hka]

theorem get_update_of_ne {k' : κ} (hk : k' ≠ k) : get key (update key l k f) k' = get key l k' := by
  rw [get, find?_update hf]
  cases hres : List.find? (fun a => decide (key a = k')) l with
  | none => simp [get, hres]
  | some a =>
    have hka := List.find?_some hres
    simp [get, hres, of_decide_eq_true hka, hk]

end Keys

/-- Replacing an entry by one that `g` does not tell apart changes nothing `g` sees. -/
theorem map_set_of_eq {β : Type*} {l : List α} {i : ℕ} {a : α} (h : i < l.length) (g : α → β)
    (hg : g a = g l[i]) : (l.set i a).map g = l.map g := by
  refine List.ext_getElem (by simp) fun j h1 _ => ?_
  rw [List.getElem_map, List.getElem_map, List.getElem_set]
  split_ifs with hij
  · subst hij
    exact hg
  · rfl

section SwapRemove

/-- Delete the entry at `pos`, moving the last entry into its slot. -/
def swapRemove (l : List α) (pos : ℕ) : List α :=
  match l.getLast? with
  | none => l
  | some last => (l.set pos last).dropLast

variable {l : List α} {pos : ℕ}

/-- The entries before `pos` stay; the slot and those after it get the entries that stood after
`pos`, the last one first. -/
theorem swapRemove_eq_append (h : pos < l.length) :
    ∃ rest, swapRemove l pos = l.take pos ++ rest ∧ rest.Perm (l.drop (pos + 1)) := by
  have hne : l ≠ [] := List.ne_nil_of_length_pos (by omega)
  have hlast : l.getLast? = some (l.getLast hne) := List.getLast?_eq_some_getLast hne
  by_cases hend : pos + 1 = l.length
  · -- the last entry itself is deleted
    refine ⟨[], ?_, by simp [List.drop_eq_nil_of_le (Nat.le_of_eq hend.symm)]⟩
    have hset : l.set pos (l.getLast hne) = l := by
      rw [List.getLast_eq_getElem]
      simp only [show l.length - 1 = pos by omega]
      exact List.set_getElem_self h
    rw [swapRemove, hlast]
    simp only [hset, List.dropLast_eq_take, List.append_nil]
    congr 1
    omega
  · -- the last entry moves into the slot; the others after `pos` keep their order
    have hdrop : l.drop (pos + 1) ≠ [] := by simp; omega
    have hlast' : (l.drop (pos + 1)).getLast hdrop = l.getLast hne := List.getLast_drop hdrop
    refine ⟨l.getLast hne :: (l.drop (pos + 1)).dropLast, ?_, ?_⟩
    · rw [swapRemove, hlast]
      simp only [List.set_eq_take_append_cons_drop, h, if_true]
      rw [List.dropLast_append_of_ne_nil (List.cons_ne_nil _ _), List.dropLast_cons_of_ne_nil hdrop]
    · rw [← hlast']
      exact (List.perm_append_singleton _ _).symm.trans (by rw [List.dropLast_concat_getLast])

theorem swapRemove_perm (h : pos < l.length) : (swapRemove l pos).Perm (l.eraseIdx pos) := by
  obtain ⟨rest, heq, hperm⟩ := swapRemove_eq_append h
  rw [heq, List.eraseIdx_eq_take_drop_succ]
  exact hperm.append_left _

theorem length_swapRemove (h : pos < l.length) : (swapRemove l pos).length = l.length - 1 := by
  rw [(swapRemove_perm h).length_eq, List.length_eraseIdx_of_lt h]

theorem drop_swapRemove_perm (h : pos < l.length) :
    ((swapRemove l pos).drop pos).Perm (l.drop (pos + 1)) := by
  obtain ⟨rest, heq, hperm⟩ := swapRemove_eq_append h
  have htake : (l.take pos).length = pos := List.length_take_of_le (by omega)
  rw [heq, List.drop_append_of_le_length (by omega), List.drop_of_length_le (by omega),
    List.nil_append]
  · exact hperm

/-- The entries of `l` are the deleted one and those of `swapRemove l pos`. -/
theorem perm_swapRemove (h : pos < l.length) : l.Perm (l[pos] :: swapRemove l pos) :=
  (List.getElem_cons_eraseIdx_perm h).symm.trans ((swapRemove_perm h).symm.cons _)

end SwapRemove

end ArrayMap
