import Cloudberry.Gdd.Detector
import Cloudberry.Lib.Prune
import Cloudberry.Lib.Cycles

/-!
# The rules of global deadlock detection

What the detector is for, stated over the waits it is given rather than over its data
structures. A wait is an edge `waiter → holder` of the wait graph of one segment, solid or dotted.
The README's rules delete a wait when one of its ends has no global in wait or no global out wait
(rules 1 and 2), or when it is dotted and its holder has no out wait on its segment (rule 3).
Deleting waits only makes the rules refuse more (`keep_mono`), so what is left once the rules
refuse nothing is the greatest set of waits that they keep whole (`Prune.greatest keepRule`),
whatever the order of the deletions.

* `exists_cycle_of_stable`: a nonempty set of waits that the rules keep whole holds a cycle of
  waits, so an acyclic wait graph reduces to nothing (`greatest_eq_zero_of_acyclic`);
* `stable_of_isSolidCycle`: the rules keep the waits of a cycle of solid waits, so such a cycle
  survives (`le_greatest_of_isSolidCycle`), every copy of its waits included
  (`count_greatest_of_isSolidCycle`).
-/

namespace Cloudberry.Gdd

/-- A wait of transaction `waiter` for transaction `holder` on segment `segid`. -/
structure WaitEdge where
  segid : Int32
  waiter : DistributedTransactionId
  holder : DistributedTransactionId
  solid : Bool
  deriving DecidableEq, Repr

namespace WaitEdge

/-- The global in degree of `vid`: its waiters, on all segments. -/
def inDeg (F : Multiset WaitEdge) (vid : DistributedTransactionId) : ℕ :=
  F.countP fun e => e.holder = vid

/-- The global out degree of `vid`: what it waits for, on all segments. -/
def outDeg (F : Multiset WaitEdge) (vid : DistributedTransactionId) : ℕ :=
  F.countP fun e => e.waiter = vid

/-- The out degree of `vid` on segment `segid`. -/
def localOutDeg (F : Multiset WaitEdge) (segid : Int32) (vid : DistributedTransactionId) : ℕ :=
  F.countP fun e => e.segid = segid ∧ e.waiter = vid

theorem inDeg_mono {F G : Multiset WaitEdge} (hle : F ≤ G) (vid : DistributedTransactionId) :
    inDeg F vid ≤ inDeg G vid :=
  Multiset.countP_le_of_le _ hle

theorem outDeg_mono {F G : Multiset WaitEdge} (hle : F ≤ G) (vid : DistributedTransactionId) :
    outDeg F vid ≤ outDeg G vid :=
  Multiset.countP_le_of_le _ hle

theorem localOutDeg_mono {F G : Multiset WaitEdge} (hle : F ≤ G) (segid : Int32)
    (vid : DistributedTransactionId) : localOutDeg F segid vid ≤ localOutDeg G segid vid :=
  Multiset.countP_le_of_le _ hle

/-- The rules keep a wait when both its ends have global in and out waits (rules 1 and 2) and, if
it is dotted, its holder waits on its segment (rule 3). -/
def Keep (F : Multiset WaitEdge) (e : WaitEdge) : Prop :=
  0 < inDeg F e.waiter ∧ 0 < outDeg F e.waiter ∧ 0 < inDeg F e.holder ∧ 0 < outDeg F e.holder ∧
    (e.solid = false → 0 < localOutDeg F e.segid e.holder)

theorem keep_mono {F G : Multiset WaitEdge} {e : WaitEdge} (hle : F ≤ G) (h : Keep F e) :
    Keep G e := by
  obtain ⟨hwi, hwo, hhi, hho, hloc⟩ := h
  exact ⟨hwi.trans_le (inDeg_mono hle _), hwo.trans_le (outDeg_mono hle _),
    hhi.trans_le (inDeg_mono hle _), hho.trans_le (outDeg_mono hle _),
    fun hs => (hloc hs).trans_le (localOutDeg_mono hle _ _)⟩

/-- Rules 1 to 3 as a rule for pruning. -/
def keepRule : Prune.KeepRule WaitEdge := ⟨Keep, keep_mono⟩

/-- `a` waits for `b` on some segment. -/
def Waits (F : Multiset WaitEdge) (a b : DistributedTransactionId) : Prop :=
  ∃ e ∈ F, e.waiter = a ∧ e.holder = b

theorem waits_mono {F G : Multiset WaitEdge} (hle : F ≤ G) {a b : DistributedTransactionId}
    (h : Waits F a b) : Waits G a b := by
  obtain ⟨e, he, hw, hh⟩ := h
  exact ⟨e, Multiset.mem_of_le hle he, hw, hh⟩

/-- A nonempty set of waits that the rules keep whole holds a cycle: the holder of a kept wait
waits in turn, so following waits from waiter to holder never stops. -/
theorem exists_cycle_of_stable {F : Multiset WaitEdge} (hF : Prune.Stable keepRule F)
    (hne : F ≠ 0) : ∃ vid, Relation.TransGen (Waits F) vid vid := by
  have hS : ∀ a, a ∈ ((F.map waiter).toFinset : Set DistributedTransactionId) ↔
      ∃ e ∈ F, e.waiter = a := by
    intro a
    simp
  refine RelCycles.exists_transGen_self (Finset.finite_toSet (F.map waiter).toFinset) ?_
    fun a ha => ?_
  · obtain ⟨e, he⟩ := Multiset.exists_mem_of_ne_zero hne
    exact ⟨e.waiter, (hS _).mpr ⟨e, he, rfl⟩⟩
  · obtain ⟨e, he, rfl⟩ := (hS a).mp ha
    obtain ⟨-, -, -, hho, -⟩ := hF e he
    obtain ⟨e', he', hw'⟩ := Multiset.countP_pos.mp hho
    exact ⟨e.holder, (hS _).mpr ⟨e', he', hw'⟩, e, he, rfl, rfl⟩

theorem greatest_eq_zero_of_acyclic {E : Multiset WaitEdge}
    (hE : ∀ vid, ¬ Relation.TransGen (Waits E) vid vid) : Prune.greatest keepRule E = 0 := by
  by_contra hne
  obtain ⟨vid, hcycle⟩ := exists_cycle_of_stable (Prune.stable_greatest E) hne
  exact hE vid (Relation.TransGen.mono (fun _ _ => waits_mono (Prune.greatest_le E)) _ _ hcycle)

/-- A cycle of solid waits: each wait's holder is the next wait's waiter, and the last wait's
holder is the first one's waiter. -/
def IsSolidCycle (c : List WaitEdge) : Prop :=
  c ≠ [] ∧ (∀ e ∈ c, e.solid = true) ∧ c.map holder = (c.rotate 1).map waiter

/-- The rules keep a set of solid waits in which every waiter holds a wait and every holder waits. -/
theorem stable_of_linked {F : Multiset WaitEdge}
    (h : ∀ e ∈ F, e.solid = true ∧ (∃ p ∈ F, p.holder = e.waiter) ∧ ∃ n ∈ F, n.waiter = e.holder) :
    Prune.Stable keepRule F := by
  intro e he
  obtain ⟨hsolid, ⟨p, hp, hph⟩, ⟨n, hn, hnw⟩⟩ := h e he
  refine ⟨Multiset.countP_pos.mpr ⟨p, hp, hph⟩, Multiset.countP_pos.mpr ⟨e, he, rfl⟩,
    Multiset.countP_pos.mpr ⟨e, he, rfl⟩, Multiset.countP_pos.mpr ⟨n, hn, hnw⟩, fun hs => ?_⟩
  rw [hs] at hsolid
  exact absurd hsolid Bool.false_ne_true

/-- Each end of a wait of a solid cycle is the holder of the wait before it or the waiter of the
one after it. -/
theorem IsSolidCycle.linked {c : List WaitEdge} (hc : IsSolidCycle c) {e : WaitEdge} (he : e ∈ c) :
    e.solid = true ∧ (∃ p ∈ c, p.holder = e.waiter) ∧ ∃ n ∈ c, n.waiter = e.holder := by
  obtain ⟨-, hsolid, hnext⟩ := hc
  refine ⟨hsolid e he, ?_, ?_⟩
  · have : e.waiter ∈ (c.rotate 1).map waiter := List.mem_map_of_mem (List.mem_rotate.mpr he)
    rw [← hnext] at this
    simpa using this
  · have : e.holder ∈ c.map holder := List.mem_map_of_mem he
    rw [hnext] at this
    obtain ⟨n, hn, hw⟩ := List.mem_map.mp this
    exact ⟨n, List.mem_rotate.mp hn, hw⟩

/-- The rules keep the waits of a solid cycle. -/
theorem stable_of_isSolidCycle {c : List WaitEdge} (hc : IsSolidCycle c) :
    Prune.Stable keepRule (c : Multiset WaitEdge) := by
  refine stable_of_linked fun e he => ?_
  obtain ⟨hsolid, ⟨p, hp, hph⟩, ⟨n, hn, hnw⟩⟩ := hc.linked (Multiset.mem_coe.mp he)
  exact ⟨hsolid, ⟨p, Multiset.mem_coe.mpr hp, hph⟩, ⟨n, Multiset.mem_coe.mpr hn, hnw⟩⟩

/-- The rules keep every copy, in a set of waits, of the waits of a solid cycle. -/
theorem stable_filter_of_isSolidCycle {c : List WaitEdge} (hc : IsSolidCycle c)
    {E : Multiset WaitEdge} (hsub : ∀ e ∈ c, e ∈ E) :
    Prune.Stable keepRule (E.filter (· ∈ c)) := by
  refine stable_of_linked fun e he => ?_
  obtain ⟨hsolid, ⟨p, hp, hph⟩, ⟨n, hn, hnw⟩⟩ := hc.linked (Multiset.mem_filter.mp he).2
  exact ⟨hsolid, ⟨p, Multiset.mem_filter.mpr ⟨hsub p hp, hp⟩, hph⟩,
    ⟨n, Multiset.mem_filter.mpr ⟨hsub n hn, hn⟩, hnw⟩⟩

/-- Every copy of a wait of a solid cycle survives. -/
theorem count_greatest_of_isSolidCycle {c : List WaitEdge} (hc : IsSolidCycle c)
    {E : Multiset WaitEdge} (hsub : ∀ e ∈ c, e ∈ E) {e : WaitEdge} (he : e ∈ c) :
    (Prune.greatest keepRule E).count e = E.count e := by
  have hle := Prune.le_greatest (Multiset.filter_le _ E) (stable_filter_of_isSolidCycle hc hsub)
  refine le_antisymm (Multiset.count_le_of_le e (Prune.greatest_le E)) ?_
  calc E.count e = (E.filter (· ∈ c)).count e := (Multiset.count_filter_of_pos he).symm
    _ ≤ (Prune.greatest keepRule E).count e := Multiset.count_le_of_le e hle

theorem le_greatest_of_isSolidCycle {c : List WaitEdge} (hc : IsSolidCycle c) {E : Multiset WaitEdge}
    (hle : (c : Multiset WaitEdge) ≤ E) : (c : Multiset WaitEdge) ≤ Prune.greatest keepRule E :=
  Prune.le_greatest hle (stable_of_isSolidCycle hc)

end WaitEdge

end Cloudberry.Gdd
