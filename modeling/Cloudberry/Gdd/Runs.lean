import Cloudberry.Gdd.BreakDeadLock

/-!
# The detector's data along its runs

The coordinator makes a detector (`GddCtxNew`), adds the waits it gathered (`GddCtxAddEdge`),
reduces it (`GddCtxReduce`) and, in `GddCtxBreakDeadLock`, cancels verts (`gddCtxRemoveVid`) and
reduces again. `Reachable` holds of every context that these calls give, in any order, and every
such context keeps `Inv` and a global counter for each vid at most once:

* `Inv.vertUnlinkAll_clears`: `gddVertUnlinkAll` leaves the vert with no edge, since every edge
  that ends at it is one of its in edges and every edge that starts at it one of its out edges;
* `Inv.removeVid`: so cancelling a vert keeps the invariant;
* `Unlink`: the reduction and the cancelling change the context only by unlinking edges and
  deleting verts, which keeps the keys of the global counters;
* `reachable_degreeBookkeeping`: in every reachable context the counters are the degrees, the top
  counters the number of edges, each edge sits once at each of its ends, in one graph, and no
  counter is negative.
-/

namespace Cloudberry.Gdd

namespace GddCtx

open WaitEdge Relation

variable {ctx : GddCtx}

/-! ## Unlinking all the edges of a vert -/

/-- Unlinking, one after the other, distinct edges of segment `segid` deletes them from the
edges. -/
theorem Inv.foldl_edgeUnlink_sub {segid : Int32} :
    ∀ {L : List GddEdge} {ctx : GddCtx}, ctx.Inv → L.Nodup →
      (∀ edge ∈ L, (segid, edge) ∈ ctx.outEdges) →
      (L.foldl (fun ctx edge => ctx.edgeUnlink segid edge) ctx).Inv ∧
        (L.foldl (fun ctx edge => ctx.edgeUnlink segid edge) ctx).shape = ctx.shape ∧
        (L.foldl (fun ctx edge => ctx.edgeUnlink segid edge) ctx).outEdges =
          ctx.outEdges - ((L.map (segid, ·) : List (Int32 × GddEdge)) : Multiset (Int32 × GddEdge))
  | [], _, hI, _, _ => ⟨hI, rfl, by simp⟩
  | edge :: L, ctx, hI, hL, hmem => by
    rw [List.nodup_cons] at hL
    obtain ⟨hI1, hshape1, hout1⟩ := hI.edgeUnlink (hmem edge List.mem_cons_self)
    -- the other edges are still there after the first is unlinked
    have hmem1 : ∀ e ∈ L, (segid, e) ∈ (ctx.edgeUnlink segid edge).outEdges := by
      intro e he
      rw [hout1]
      exact (Multiset.mem_erase_of_ne fun h => hL.1 (by cases h; exact he)).mpr
        (hmem e (List.mem_cons_of_mem _ he))
    obtain ⟨hI', hshape', hout'⟩ := Inv.foldl_edgeUnlink_sub hI1 hL.2 hmem1
    refine ⟨hI', hshape'.trans hshape1, ?_⟩
    rw [List.foldl_cons, hout', hout1, List.map_cons, ← Multiset.cons_coe, Multiset.sub_cons]

/-- An edge of the graph of `segid` is an in edge of the vert at its end. -/
theorem Inv.mem_edgesIn_toVid (hI : ctx.Inv) {segid : Int32} {edge : GddEdge}
    (he : (segid, edge) ∈ ctx.outEdges) : edge ∈ (ctx.vert segid edge.toVid).edgesIn := by
  obtain ⟨_, _, _, _, _, _, hvert, hedge⟩ :=
    hI.toWf.mem_edgesOf hI.in_to (hI.in_eq_out ▸ he : (segid, edge) ∈ ctx.inEdges)
  rw [hvert]
  exact hedge

/-- An edge of the graph of `segid` is an out edge of the vert it starts at. -/
theorem Inv.mem_edgesOut_fromVid (hI : ctx.Inv) {segid : Int32} {edge : GddEdge}
    (he : (segid, edge) ∈ ctx.outEdges) : edge ∈ (ctx.vert segid edge.fromVid).edgesOut := by
  obtain ⟨_, _, _, _, _, _, hvert, hedge⟩ := hI.toWf.mem_edgesOf hI.out_from he
  rw [hvert]
  exact hedge

/-- After a list of edges is unlinked, no edge of the list is left. -/
theorem Inv.not_mem_of_foldl_edgeUnlink (hI : ctx.Inv) {segid : Int32} {L : List GddEdge}
    (hL : L.Nodup) (hmem : ∀ edge ∈ L, (segid, edge) ∈ ctx.outEdges) {edge : GddEdge}
    (hin : edge ∈ L) :
    (segid, edge) ∉ (L.foldl (fun ctx edge => ctx.edgeUnlink segid edge) ctx).outEdges := by
  rw [(hI.foldl_edgeUnlink_sub hL hmem).2.2, Multiset.mem_sub_of_nodup hI.out_nodup, not_and,
    not_not, Multiset.mem_coe]
  exact fun _ => List.mem_map_of_mem hin

/-- **`gddVertUnlinkAll` leaves the vert with no edge**, and keeps the invariant and the keys. -/
theorem Inv.vertUnlinkAll_clears (hI : ctx.Inv) (segid : Int32) (vid : DistributedTransactionId) :
    (ctx.vertUnlinkAll segid vid).1.Inv ∧ (ctx.vertUnlinkAll segid vid).1.shape = ctx.shape ∧
      ((ctx.vertUnlinkAll segid vid).1.vert segid vid).edgesIn = [] ∧
      ((ctx.vertUnlinkAll segid vid).1.vert segid vid).edgesOut = [] := by
  have hmemIn : ∀ edge ∈ (ctx.vert segid vid).edgesIn, (segid, edge) ∈ ctx.outEdges :=
    fun edge he => (hI.mem_of_mem_edgesIn he).1
  obtain ⟨hI1, hshape1, hout1⟩ := hI.foldl_edgeUnlink_sub (hI.nodup_edgesIn segid vid) hmemIn
  set ctx1 := (ctx.vert segid vid).edgesIn.foldl (fun ctx edge => ctx.edgeUnlink segid edge) ctx
    with hctx1
  have hmemOut : ∀ edge ∈ (ctx1.vert segid vid).edgesOut, (segid, edge) ∈ ctx1.outEdges :=
    fun edge he => (hI1.mem_of_mem_edgesOut he).1
  obtain ⟨hI2, hshape2, hout2⟩ := hI1.foldl_edgeUnlink_sub (hI1.nodup_edgesOut segid vid) hmemOut
  set ctx2 := (ctx1.vert segid vid).edgesOut.foldl (fun ctx edge => ctx.edgeUnlink segid edge) ctx1
    with hctx2
  have hsub2 : ∀ {p}, p ∈ ctx2.outEdges → p ∈ ctx1.outEdges := fun hp =>
    Multiset.mem_of_le (Multiset.sub_le_self _ _) (hout2 ▸ hp)
  have heq : (ctx.vertUnlinkAll segid vid).1 = ctx2 := rfl
  rw [heq]
  refine ⟨hI2, hshape2.trans hshape1, ?_, ?_⟩
  · -- an in edge left would end at `vid`, so it was among the in edges unlinked first
    refine List.eq_nil_iff_forall_not_mem.mpr fun edge he => ?_
    obtain ⟨hp, hto⟩ := hI2.mem_of_mem_edgesIn he
    have hp1 := hsub2 hp
    have hp0 : (segid, edge) ∈ ctx.outEdges := by
      rw [hout1] at hp1
      exact Multiset.mem_of_le (Multiset.sub_le_self _ _) hp1
    exact hI.not_mem_of_foldl_edgeUnlink (hI.nodup_edgesIn segid vid) hmemIn
      (hto ▸ hI.mem_edgesIn_toVid hp0) hp1
  · -- an out edge left would start at `vid`, so it was among the out edges unlinked next
    refine List.eq_nil_iff_forall_not_mem.mpr fun edge he => ?_
    obtain ⟨hp, hfrom⟩ := hI2.mem_of_mem_edgesOut he
    have hp1 := hsub2 hp
    exact hI1.not_mem_of_foldl_edgeUnlink (hI1.nodup_edgesOut segid vid) hmemOut
      (hfrom ▸ hI1.mem_edgesOut_fromVid hp1) hp

/-! ## Cancelling a vert -/

/-- **`gddGraphRemoveVid` keeps the invariant**: the vert it finds has no edge once they are
unlinked, and deleting it keeps the edges. -/
theorem Inv.graphRemoveVid (hI : ctx.Inv) (gi : ℕ) (vid : DistributedTransactionId) :
    (ctx.graphRemoveVid gi vid).Inv := by
  unfold GddCtx.graphRemoveVid
  cases hg : ctx.graphs[gi]? with
  | none => exact hI
  | some graph =>
    dsimp only
    cases hpos : graph.verts.findIdx? (fun vert => vert.id = vid) with
    | none => exact hI
    | some pos =>
      obtain ⟨hlt, hid, -⟩ := List.findIdx?_eq_some_iff_getElem.mp hpos
      have hv : graph.verts[pos]? = some graph.verts[pos] := List.getElem?_eq_getElem hlt
      obtain ⟨hI1, hshape1, hin1, hout1⟩ := hI.vertUnlinkAll_clears graph.id vid
      -- the unlinks keep the positions, so the vert at `pos` is still `vid`
      obtain ⟨graph', vert', hg', hv', hgid, hvid⟩ := getElem?_of_shape_eq hshape1 hg hv
      have hvert := hI1.toWf.vert_eq_of_getElem? hg' hv'
      rw [hgid, hvid, of_decide_eq_true hid] at hvert
      exact (hI1.vertIterDelete hg' hv' ⟨hvert ▸ hin1, hvert ▸ hout1⟩).1

/-- **`gddCtxRemoveVid` keeps the invariant.** -/
theorem Inv.removeVid (hI : ctx.Inv) (vid : DistributedTransactionId) : (ctx.removeVid vid).Inv :=
  List.foldlRecOn _ _ hI fun _ hc gi _ => hc.graphRemoveVid gi vid

/-! ## What the reduction and the cancelling change -/

/-- The changes that `GddCtxReduce` and `gddCtxRemoveVid` make to the context: unlinking an edge
(`gddEdgeUnlink`) and deleting a vert (`gdd_map_iter_delete`). -/
inductive Unlink : GddCtx → GddCtx → Prop
  | edgeUnlink (ctx : GddCtx) (segid : Int32) (edge : GddEdge) :
      Unlink ctx (ctx.edgeUnlink segid edge)
  | vertIterDelete (ctx : GddCtx) (gi pos : ℕ) : Unlink ctx (ctx.vertIterDelete gi pos)

theorem unlinks_foldl_edgeUnlink (segid : Int32) (L : List GddEdge) (ctx : GddCtx) :
    ReflTransGen Unlink ctx (L.foldl (fun ctx edge => ctx.edgeUnlink segid edge) ctx) :=
  List.foldlRecOn _ _ ReflTransGen.refl fun c hc edge _ => hc.tail (.edgeUnlink c segid edge)

theorem unlinks_vertUnlinkAll (segid : Int32) (vid : DistributedTransactionId) :
    ReflTransGen Unlink ctx (ctx.vertUnlinkAll segid vid).1 :=
  (unlinks_foldl_edgeUnlink segid _ ctx).trans (unlinks_foldl_edgeUnlink segid _ _)

theorem unlinks_vertReduce (segid : Int32) (vid : DistributedTransactionId) :
    ReflTransGen Unlink ctx (ctx.vertReduce segid vid).1 := by
  dsimp only [GddCtx.vertReduce]
  split_ifs
  · exact unlinks_vertUnlinkAll segid vid
  · rw [foldl_if_solid]
    exact unlinks_foldl_edgeUnlink segid _ ctx
  · exact ReflTransGen.refl

/-- The loop over the verts of a graph reduces verts and deletes those left with no edge. -/
theorem unlinks_reduceVerts (gi : ℕ) : ∀ (n : ℕ) (ctx : GddCtx) (pos : ℕ) (dirty : Bool),
    ReflTransGen Unlink ctx (reduceVerts gi n ctx pos dirty).1 := by
  intro n
  induction n with
  | zero => exact fun _ _ _ => ReflTransGen.refl
  | succ n ih =>
    intro ctx pos dirty
    simp only [reduceVerts]
    cases ctx.graphs[gi]? with
    | none => exact ReflTransGen.refl
    | some graph =>
      dsimp only
      cases graph.verts[pos]? with
      | none => exact ReflTransGen.refl
      | some vert =>
        dsimp only
        have hstep : ReflTransGen Unlink ctx (ctx.vertReduce graph.id vert.id).1 :=
          unlinks_vertReduce graph.id vert.id
        rcases hres : ctx.vertReduce graph.id vert.id with ⟨c1, reduced⟩
        rw [hres] at hstep
        dsimp only
        split_ifs
        · exact hstep.trans ((ReflTransGen.single (.vertIterDelete c1 gi pos)).trans (ih _ _ _))
        · exact hstep.trans (ih _ _ _)

theorem unlinks_reduceGraphs : ∀ (L : List ℕ) (acc : GddCtx × Bool),
    ReflTransGen Unlink acc.1 (reduceGraphs L acc).1
  | [], _ => ReflTransGen.refl
  | gi :: L, _ => (unlinks_reduceVerts gi _ _ _ _).trans (unlinks_reduceGraphs L _)

theorem unlinks_reduceLoop : ∀ (fuel : ℕ) {ctx ctx' : GddCtx}, ctx.reduceLoop fuel = some ctx' →
    ReflTransGen Unlink ctx ctx'
  | 0, _, _, h => by simp [GddCtx.reduceLoop] at h
  | fuel + 1, ctx, ctx', h => by
    have hpass : ReflTransGen Unlink ctx ctx.reducePass.1 := unlinks_reduceGraphs _ (ctx, false)
    simp only [GddCtx.reduceLoop] at h
    rcases hres : ctx.reducePass with ⟨c1, dirty⟩
    rw [hres] at h hpass
    cases dirty with
    | false =>
      cases Option.some.inj h
      exact hpass
    | true => exact hpass.trans (unlinks_reduceLoop fuel h)

theorem unlinks_reduce {ctx' : GddCtx} (h : ctx.reduce = some ctx') : ReflTransGen Unlink ctx ctx' :=
  unlinks_reduceLoop _ h

theorem unlinks_graphRemoveVid (gi : ℕ) (vid : DistributedTransactionId) :
    ReflTransGen Unlink ctx (ctx.graphRemoveVid gi vid) := by
  unfold GddCtx.graphRemoveVid
  cases ctx.graphs[gi]? with
  | none => exact ReflTransGen.refl
  | some graph =>
    dsimp only
    cases graph.verts.findIdx? (fun vert => vert.id = vid) with
    | none => exact ReflTransGen.refl
    | some pos => exact (unlinks_vertUnlinkAll graph.id vid).tail (.vertIterDelete _ gi pos)

theorem unlinks_removeVid (vid : DistributedTransactionId) :
    ReflTransGen Unlink ctx (ctx.removeVid vid) :=
  List.foldlRecOn _ _ ReflTransGen.refl fun _ hc gi _ => hc.trans (unlinks_graphRemoveVid gi vid)

/-! ## The keys of the global counters -/

theorem globalIds_edgeLink (segid : Int32) (edge : GddEdge) :
    (ctx.edgeLink segid edge).globals.map GddStat.id = ctx.globals.map GddStat.id := by
  show (ArrayMap.update GddStat.id (ArrayMap.update GddStat.id ctx.globals edge.fromVid incOutdeg)
    edge.toVid incIndeg).map GddStat.id = _
  rw [ArrayMap.map_key_update fun g => (rfl : (incIndeg g).id = g.id),
    ArrayMap.map_key_update fun g => (rfl : (incOutdeg g).id = g.id)]

theorem globalIds_edgeUnlink (segid : Int32) (edge : GddEdge) :
    (ctx.edgeUnlink segid edge).globals.map GddStat.id = ctx.globals.map GddStat.id := by
  show (ArrayMap.update GddStat.id (ArrayMap.update GddStat.id ctx.globals edge.fromVid decOutdeg)
    edge.toVid decIndeg).map GddStat.id = _
  rw [ArrayMap.map_key_update fun g => (rfl : (decIndeg g).id = g.id),
    ArrayMap.map_key_update fun g => (rfl : (decOutdeg g).id = g.id)]

/-- Unlinking an edge and deleting a vert add no global counter and delete none. -/
theorem Unlink.globalIds {ctx ctx' : GddCtx} (h : Unlink ctx ctx') :
    ctx'.globals.map GddStat.id = ctx.globals.map GddStat.id := by
  cases h with
  | edgeUnlink segid edge => exact globalIds_edgeUnlink segid edge
  | vertIterDelete gi pos => rfl

theorem globalIds_of_unlinks {ctx ctx' : GddCtx} (h : ReflTransGen Unlink ctx ctx') :
    ctx'.globals.map GddStat.id = ctx.globals.map GddStat.id := by
  induction h with
  | refl => rfl
  | tail _ hstep ih => exact hstep.globalIds.trans ih

/-- `gddCtxGetGlobalStat` adds a counter only for a vid that has none. -/
theorem nodup_globals_getGlobalStat (h : (ctx.globals.map GddStat.id).Nodup)
    (vid : DistributedTransactionId) : ((ctx.getGlobalStat vid).globals.map GddStat.id).Nodup := by
  unfold GddCtx.getGlobalStat
  split
  · exact h
  · rename_i hnone
    rw [List.map_append, List.nodup_append]
    refine ⟨h, List.nodup_singleton _, fun a ha b hb => ?_⟩
    obtain ⟨stat, hstat, rfl⟩ := List.mem_map.mp ha
    rw [List.map_singleton, List.mem_singleton] at hb
    rw [hb]
    exact ArrayMap.ne_of_get_eq_none hnone hstat

theorem nodup_globals_addEdge (h : (ctx.globals.map GddStat.id).Nodup) (segid : Int32)
    (fromVid toVid : DistributedTransactionId) (solid : Bool) :
    ((ctx.addEdge segid fromVid toVid solid).globals.map GddStat.id).Nodup := by
  have hgraph : (ctx.getGraph segid).globals = ctx.globals := by
    unfold GddCtx.getGraph
    split <;> rfl
  rw [GddCtx.addEdge, globalIds_edgeLink]
  exact nodup_globals_getGlobalStat (nodup_globals_getGlobalStat (hgraph ▸ h) _) _

/-! ## The runs of the detector -/

/-- The contexts that the coordinator's calls give: a new detector, then `GddCtxAddEdge`,
`GddCtxReduce` and `gddCtxRemoveVid` in any order. The detector's own runs, which add every wait
before they reduce and cancel, are among them. -/
inductive Reachable : GddCtx → Prop
  | new : Reachable GddCtx.new
  | addEdge {ctx : GddCtx} (segid : Int32) (fromVid toVid : DistributedTransactionId)
      (solid : Bool) : Reachable ctx → Reachable (ctx.addEdge segid fromVid toVid solid)
  | reduce {ctx ctx' : GddCtx} : Reachable ctx → ctx.reduce = some ctx' → Reachable ctx'
  | removeVid {ctx : GddCtx} (vid : DistributedTransactionId) :
      Reachable ctx → Reachable (ctx.removeVid vid)

/-- The contexts that `GddCtxBreakDeadLock` goes through and leaves are reachable. -/
theorem Reachable.breakDeadLockLoop : ∀ (fuel : ℕ) {ctx : GddCtx}
    {vids : List DistributedTransactionId} {res : List DistributedTransactionId × GddCtx},
    ctx.Reachable → ctx.breakDeadLockLoop fuel vids = some res → res.2.Reachable
  | 0, _, _, _, _, h => by simp [GddCtx.breakDeadLockLoop] at h
  | fuel + 1, ctx, vids, res, hR, h => by
    simp only [GddCtx.breakDeadLockLoop] at h
    split_ifs at h
    · cases Option.some.inj h
      exact hR
    · split at h
      · cases h
      · rename_i ctx' hred
        exact Reachable.breakDeadLockLoop fuel ((hR.removeVid _).reduce hred) h

/-- **Every reachable context keeps the invariant.** -/
theorem Reachable.inv (h : ctx.Reachable) : ctx.Inv := by
  induction h with
  | new => exact Inv.new
  | addEdge segid fromVid toVid solid _ ih => exact (ih.addEdge segid fromVid toVid solid).1
  | reduce _ hred ih =>
    obtain ⟨_, hred', hI', -⟩ := ih.reduce
    rw [hred] at hred'
    cases Option.some.inj hred'
    exact hI'
  | removeVid vid _ ih => exact ih.removeVid vid

/-- Every reachable context has at most one global counter for each vid. -/
theorem Reachable.globals_nodup (h : ctx.Reachable) : (ctx.globals.map GddStat.id).Nodup := by
  induction h with
  | new => exact List.nodup_nil
  | addEdge segid fromVid toVid solid _ ih => exact nodup_globals_addEdge ih segid fromVid toVid solid
  | reduce _ hred ih =>
    rw [globalIds_of_unlinks (unlinks_reduce hred)]
    exact ih
  | removeVid vid _ ih =>
    rw [globalIds_of_unlinks (unlinks_removeVid vid)]
    exact ih

/-! ## The bookkeeping of the degrees -/

/-- An edge of a graph sits once in the out edges of the vert it starts at and once in the in
edges of the vert it ends at, both verts of that graph, and in no other list of the graph. -/
def LinkedOnce (ctx : GddCtx) (graph : GddGraph) (edge : GddEdge) : Prop :=
  (∃ vert ∈ graph.verts, vert.id = edge.fromVid ∧ vert.edgesOut.count edge = 1) ∧
    (∃ vert ∈ graph.verts, vert.id = edge.toVid ∧ vert.edgesIn.count edge = 1) ∧
    ctx.outEdges.count (graph.id, edge) = 1 ∧ ctx.inEdges.count (graph.id, edge) = 1

/-- The bookkeeping of `gddEdgeLink` and `gddEdgeUnlinkFrom`/`gddEdgeUnlinkTo`: the global counters
of a vid count the edges, over all the graphs, that end and start at it; the top counters count
all the edges; each edge of a list of a graph is linked once at each of its ends, in that graph;
and no counter is negative. -/
structure DegreeBookkeeping (ctx : GddCtx) : Prop where
  global_indeg : ∀ vid, (ctx.global vid).indeg = ctx.outEdges.countP fun p => p.2.toVid = vid
  global_outdeg : ∀ vid, (ctx.global vid).outdeg = ctx.outEdges.countP fun p => p.2.fromVid = vid
  top_indeg : ctx.topstat.indeg = Multiset.card ctx.outEdges
  top_outdeg : ctx.topstat.outdeg = Multiset.card ctx.outEdges
  linked_once : ∀ graph ∈ ctx.graphs, ∀ vert ∈ graph.verts, ∀ edge ∈ vert.edgesOut ++ vert.edgesIn,
    ctx.LinkedOnce graph edge
  top_nonneg : 0 ≤ ctx.topstat.indeg ∧ 0 ≤ ctx.topstat.outdeg
  globals_nonneg : ∀ stat ∈ ctx.globals, 0 ≤ stat.indeg ∧ 0 ≤ stat.outdeg

theorem inDeg_waitEdges (ctx : GddCtx) (vid : DistributedTransactionId) :
    inDeg ctx.waitEdges vid = ctx.outEdges.countP fun p => p.2.toVid = vid := by
  rw [inDeg, waitEdges, Multiset.countP_map, Multiset.countP_eq_card_filter]
  rfl

theorem outDeg_waitEdges (ctx : GddCtx) (vid : DistributedTransactionId) :
    outDeg ctx.waitEdges vid = ctx.outEdges.countP fun p => p.2.fromVid = vid := by
  rw [outDeg, waitEdges, Multiset.countP_map, Multiset.countP_eq_card_filter]
  rfl

/-- An edge in a list of a vert of a graph is linked once, in that graph. -/
theorem Inv.linkedOnce (hI : ctx.Inv) {graph : GddGraph} (hgraph : graph ∈ ctx.graphs)
    {vert : GddVert} (hvert : vert ∈ graph.verts) {edge : GddEdge}
    (he : edge ∈ vert.edgesOut ++ vert.edgesIn) : ctx.LinkedOnce graph edge := by
  -- an in edge is an out edge of the same graph
  have hp : (graph.id, edge) ∈ ctx.outEdges := by
    rcases List.mem_append.mp he with he | he
    · exact mem_edgesOf.mpr ⟨graph, hgraph, vert, hvert, rfl, he⟩
    · exact hI.in_eq_out ▸ mem_edgesOf.mpr ⟨graph, hgraph, vert, hvert, rfl, he⟩
  have hpIn : (graph.id, edge) ∈ ctx.inEdges := hI.in_eq_out ▸ hp
  obtain ⟨ga, hga, va, hva, hgaid, hvaid, hvertA, hea⟩ := hI.toWf.mem_edgesOf hI.out_from hp
  obtain ⟨gb, hgb, vb, hvb, hgbid, hvbid, hvertB, heb⟩ := hI.toWf.mem_edgesOf hI.in_to hpIn
  -- the graph ids are keys, so both ends are verts of `graph`
  have hga' : ga = graph := List.inj_on_of_nodup_map hI.graphs_nodup hga hgraph hgaid
  have hgb' : gb = graph := List.inj_on_of_nodup_map hI.graphs_nodup hgb hgraph hgbid
  subst hga' hgb'
  refine ⟨⟨va, hva, hvaid, ?_⟩, ⟨vb, hvb, hvbid, ?_⟩, Multiset.count_eq_one_of_mem hI.out_nodup hp,
    Multiset.count_eq_one_of_mem (hI.in_eq_out ▸ hI.out_nodup) hpIn⟩
  · rw [← hvertA]
    exact List.count_eq_one_of_mem (hI.nodup_edgesOut _ _) (hvertA ▸ hea)
  · rw [← hvertB]
    exact List.count_eq_one_of_mem (hI.nodup_edgesIn _ _) (hvertB ▸ heb)

/-- The invariant, with one global counter for each vid, is the bookkeeping. -/
theorem Inv.degreeBookkeeping (hI : ctx.Inv) (hkeys : (ctx.globals.map GddStat.id).Nodup) :
    ctx.DegreeBookkeeping := by
  have hindeg : ∀ vid, (ctx.global vid).indeg = ctx.outEdges.countP fun p => p.2.toVid = vid :=
    fun vid => by rw [hI.global_indeg, inDeg_waitEdges]
  have houtdeg : ∀ vid, (ctx.global vid).outdeg = ctx.outEdges.countP fun p => p.2.fromVid = vid :=
    fun vid => by rw [hI.global_outdeg, outDeg_waitEdges]
  refine ⟨hindeg, houtdeg, hI.top_indeg, hI.top_outdeg,
    fun graph hgraph vert hvert edge he => hI.linkedOnce hgraph hvert he, ?_, ?_⟩
  · rw [hI.top_indeg, hI.top_outdeg]
    omega
  · -- with one counter for each vid, a counter is the one that `vert->global` finds
    intro stat hstat
    have hglobal : ctx.global stat.id = stat := by
      rw [GddCtx.global, ArrayMap.get_eq_some_of_mem hkeys hstat, Option.getD_some]
    have hin := hindeg stat.id
    have hout := houtdeg stat.id
    rw [hglobal] at hin hout
    omega

/-- **In every reachable context the degrees are kept right**: each global counter counts the
edges that end or start at its vid, the top counters count all the edges, each edge is linked
once at each of its ends, in one graph, and no counter is negative. -/
theorem reachable_degreeBookkeeping {ctx : GddCtx} (h : ctx.Reachable) : ctx.DegreeBookkeeping :=
  h.inv.degreeBookkeeping h.globals_nodup

theorem reachable_degreeBookkeeping_cancel :
    ((GddCtx.new.addEdge 0 1 2 true).removeVid 1).Reachable ∧
      ((GddCtx.new.addEdge 0 1 2 true).removeVid 1).DegreeBookkeeping :=
  have h := (Reachable.new.addEdge 0 1 2 true).removeVid 1
  ⟨h, reachable_degreeBookkeeping h⟩

end GddCtx

end Cloudberry.Gdd
