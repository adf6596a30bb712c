import Cloudberry.Gdd.Reduce

/-!
# `GddCtxBreakDeadLock` and the `int` that `gddCtxGetMaxVid` returns

`gddCtxGetMaxVid` computes the largest id of a vert with an edge left as a 64-bit
`DistributedTransactionId`, but it is declared to return `int`: the caller gets the low 32 bits as
a signed number, and converts it back to 64 bits by sign extension. The id comes back whole only
when it is below `2^31` or within `2^31` of `2^64` (`narrow_eq_self_iff`). Any other id names a
vert that no graph has, so `gddCtxRemoveVid` removes nothing (`removeVid_of_forall_ne`); from a
context that the reduction gives back, the loop then comes back to where it started and never
ends (`breakDeadLockLoop_eq_none`).

* `breakDeadLock_loops_above_int_max`: two transactions with ids `0x80000000` and `0x80000001`
  that wait for each other on one segment: the reduction keeps both waits, the loop cancels the id
  `0xFFFFFFFF80000001`, which no vert has, and `GddCtxBreakDeadLock` never returns.
-/

namespace Cloudberry.Gdd

/-- The 64-bit id that the caller of `gddCtxGetMaxVid` gets back from the `int` it returns. -/
theorem toNat_narrow (v : UInt64) :
    v.toUInt32.toInt32.toInt64.toUInt64.toNat =
      v.toNat % 2 ^ 32 + if 2 ^ 31 ≤ v.toNat % 2 ^ 32 then 2 ^ 64 - 2 ^ 32 else 0 := by
  rw [← UInt64.toNat_toBitVec, Int64.toBitVec_toUInt64, Int32.toBitVec_toInt64,
    UInt32.toBitVec_toInt32, UInt64.toBitVec_toUInt32, BitVec.toNat_signExtend,
    BitVec.msb_eq_decide, BitVec.toNat_setWidth, BitVec.toNat_setWidth]
  simp only [UInt64.toNat_toBitVec, Nat.reducePow, Nat.add_one_sub_one, decide_eq_true_eq]
  rw [Nat.mod_eq_of_lt (by omega)]

/-- An id survives the trip through `int` exactly when it is below `2^31` or within `2^31` of
`2^64`. -/
theorem narrow_eq_self_iff (v : UInt64) :
    v.toUInt32.toInt32.toInt64.toUInt64 = v ↔ v.toNat < 2 ^ 31 ∨ 2 ^ 64 - 2 ^ 31 ≤ v.toNat := by
  rw [← UInt64.toNat_inj, toNat_narrow]
  have hlt := v.toNat_lt
  split_ifs with h <;> omega

namespace GddCtx

variable {ctx : GddCtx}

/-- The largest id of a vert with an edge left, as `gddCtxGetMaxVid` computes it before it
returns. -/
def maxLiveVid (ctx : GddCtx) : DistributedTransactionId :=
  ctx.graphs.foldl (fun maxvid graph =>
    graph.verts.foldl (fun maxvid vert =>
      if vert.edgesIn.length != 0 || vert.edgesOut.length != 0 then
        (if maxvid > vert.id then maxvid else vert.id)
      else maxvid) maxvid) 0

theorem getMaxVid_eq (ctx : GddCtx) : ctx.getMaxVid = ctx.maxLiveVid.toUInt32.toInt32 := rfl

theorem graphRemoveVid_of_forall_ne {vid : DistributedTransactionId}
    (h : ∀ graph ∈ ctx.graphs, ∀ vert ∈ graph.verts, vert.id ≠ vid) (gi : ℕ) :
    ctx.graphRemoveVid gi vid = ctx := by
  unfold graphRemoveVid
  cases hg : ctx.graphs[gi]? with
  | none => rfl
  | some graph =>
    have hnone : graph.verts.findIdx? (fun vert => decide (vert.id = vid)) = none :=
      List.findIdx?_eq_none_iff.mpr fun vert hvert =>
        decide_eq_false (h graph (List.mem_of_getElem? hg) vert hvert)
    simp only [hnone]

/-- `gddCtxRemoveVid` of an id that no vert has removes nothing. -/
theorem removeVid_of_forall_ne {vid : DistributedTransactionId}
    (h : ∀ graph ∈ ctx.graphs, ∀ vert ∈ graph.verts, vert.id ≠ vid) : ctx.removeVid vid = ctx :=
  List.foldl_fixed' (fun gi => graphRemoveVid_of_forall_ne h gi) _

/-- **A context that one iteration gives back is never left.** If the cancelled id removes
nothing that the reduction does not put back, the loop runs until its fuel is gone. -/
theorem breakDeadLockLoop_eq_none (hempty : ctx.empty = false)
    (hstuck : (ctx.removeVid ctx.getMaxVid.toInt64.toUInt64).reduce = some ctx) :
    ∀ (fuel : ℕ) (vids : List DistributedTransactionId), breakDeadLockLoop fuel ctx vids = none := by
  intro fuel
  induction fuel with
  | zero => intro vids; rfl
  | succ fuel ih =>
    intro vids
    simp only [breakDeadLockLoop, hempty, hstuck, Bool.false_eq_true, if_false]
    exact ih _

/-- **`GddCtxBreakDeadLock` never returns once an id of the deadlock does not fit in `int`.** -/
theorem breakDeadLock_loops_above_int_max :
    ∃ ctx, (loadEdges [⟨0, 0x80000000, 0x80000001, true⟩, ⟨0, 0x80000001, 0x80000000, true⟩]).reduce
        = some ctx ∧ ctx.empty = false ∧ ctx.maxLiveVid = 0x80000001 ∧
      ctx.getMaxVid.toInt64.toUInt64 = 0xFFFFFFFF80000001 ∧ ∀ fuel, ctx.breakDeadLock fuel = none := by
  refine ⟨loadEdges [⟨0, 0x80000000, 0x80000001, true⟩, ⟨0, 0x80000001, 0x80000000, true⟩],
    by decide, by decide, by decide, by decide, fun fuel => breakDeadLockLoop_eq_none ?_ ?_ fuel []⟩
  · decide
  · rw [removeVid_of_forall_ne (by decide)]
    decide

end GddCtx

end Cloudberry.Gdd
