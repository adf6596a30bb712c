import Cloudberry.Lib.ArrayMap

/-!
# The global deadlock detector (`gdddetector.c`)

The coordinator gathers, from every segment, who waits for whom, and adds each wait as an edge
`from → to` (the waiter to the holder) to the local graph of its segment (`GddCtxAddEdge`). An
edge is solid when it can only go away when the holder's transaction ends, and dotted when it can
go away with the holder's current query. `GddCtxReduce` then deletes, until nothing more can be
deleted, the edges of the verts whose global in or out degree is 0 (rules 1 and 2 of the README)
and the dotted in edges of the verts with no local out edge (rule 3). What is left is deadlocked,
and `GddCtxBreakDeadLock` cancels the youngest transaction, the one with the largest id, reduces
again and repeats until no edge is left.

The model keeps the source's data: the maps are arrays of entries scanned by key
(`ArrayMap.get`), an entry is deleted by moving the last one into its slot
(`ArrayMap.swapRemove`, the macro `gdd_map_iter_delete`), an edge is a record compared by its
allocation (`ptr`), and a vert's pointers to its global counters are lookups by id. The loops that
delete while they iterate are recursions that either stay on the slot just refilled or move on;
their fuel is the number of iterations the C loop makes, and `GddCtxReduce`'s fuel is the number
of passes it can make, one more than the number of edges.
-/

namespace Cloudberry.Gdd

/-- `DistributedTransactionId`: the 64-bit transaction ids that name the verts. -/
abbrev DistributedTransactionId := UInt64

/-- `GddEdge`: an edge of a local graph, `fromVid` waiting for `toVid`. -/
structure GddEdge where
  /-- The edge's allocation: edges are told apart by pointer. -/
  ptr : ℕ
  solid : Bool
  fromVid : DistributedTransactionId
  toVid : DistributedTransactionId
  deriving DecidableEq, Repr

/-- `GddVert`: a transaction on one segment, with its local in and out edges. -/
structure GddVert where
  id : DistributedTransactionId
  edgesIn : List GddEdge
  edgesOut : List GddEdge
  deriving DecidableEq, Repr

/-- `GddGraph`: the local graph of segment `id`, its verts kept in a `GddMap`. -/
structure GddGraph where
  id : Int32
  verts : List GddVert
  deriving DecidableEq, Repr

/-- `GddStat`: in and out degrees, of one vert over all segments or of the whole graph. -/
structure GddStat where
  id : DistributedTransactionId
  indeg : ℤ
  outdeg : ℤ
  deriving DecidableEq, Repr

/-- `GddCtx`: the global graph. `allocated` counts the edges made, so that a new edge is fresh. -/
structure GddCtx where
  topstat : GddStat
  globals : List GddStat
  graphs : List GddGraph
  allocated : ℕ
  deriving DecidableEq, Repr

namespace GddGraph

/-- `gddMapGet(&graph->verts, vid)`, with an empty vert for one that is not there. -/
def vert (graph : GddGraph) (vid : DistributedTransactionId) : GddVert :=
  (ArrayMap.get GddVert.id graph.verts vid).getD ⟨vid, [], []⟩

/-- `gddGraphGetVert`: the graph with a vert `vid`, made if it is first seen. -/
def getVert (graph : GddGraph) (vid : DistributedTransactionId) : GddGraph :=
  match ArrayMap.get GddVert.id graph.verts vid with
  | some _ => graph
  | none => { graph with verts := graph.verts ++ [⟨vid, [], []⟩] }

end GddGraph

namespace GddCtx

/-- `GddCtxNew`. -/
def new : GddCtx := ⟨⟨0, 0, 0⟩, [], [], 0⟩

/-- `gddMapGet(&ctx->graphs, segid)`, with an empty graph for one that is not there. -/
def graph (ctx : GddCtx) (segid : Int32) : GddGraph :=
  (ArrayMap.get GddGraph.id ctx.graphs segid).getD ⟨segid, []⟩

/-- The vert `vid` of the graph of segment `segid`. -/
def vert (ctx : GddCtx) (segid : Int32) (vid : DistributedTransactionId) : GddVert :=
  (ctx.graph segid).vert vid

/-- `vert->global`: the counters of `vid` over all segments. -/
def global (ctx : GddCtx) (vid : DistributedTransactionId) : GddStat :=
  (ArrayMap.get GddStat.id ctx.globals vid).getD ⟨vid, 0, 0⟩

/-- Change the vert `vid` of the graph of segment `segid` through its pointer. -/
def updateVert (ctx : GddCtx) (segid : Int32) (vid : DistributedTransactionId)
    (f : GddVert → GddVert) : GddCtx :=
  { ctx with
    graphs := ArrayMap.update GddGraph.id ctx.graphs segid fun graph =>
      { graph with verts := ArrayMap.update GddVert.id graph.verts vid f } }

/-- Change the counters of `vid` through `vert->global`. -/
def updateGlobal (ctx : GddCtx) (vid : DistributedTransactionId) (f : GddStat → GddStat) :
    GddCtx :=
  { ctx with globals := ArrayMap.update GddStat.id ctx.globals vid f }

/-- `gddCtxGetGraph`: the context with a graph for segment `segid`, made if it is first seen. -/
def getGraph (ctx : GddCtx) (segid : Int32) : GddCtx :=
  match ArrayMap.get GddGraph.id ctx.graphs segid with
  | some _ => ctx
  | none => { ctx with graphs := ctx.graphs ++ [⟨segid, []⟩] }

/-- `gddCtxGetGlobalStat`: the context with counters for `vid`, made if it is first seen. -/
def getGlobalStat (ctx : GddCtx) (vid : DistributedTransactionId) : GddCtx :=
  match ArrayMap.get GddStat.id ctx.globals vid with
  | some _ => ctx
  | none => { ctx with globals := ctx.globals ++ [⟨vid, 0, 0⟩] }

/-! ## Edges -/

/-- `gddEdgeLink`: count the edge in the top and global degrees and append it to the out edges
of its from vert and the in edges of its to vert. -/
def edgeLink (ctx : GddCtx) (segid : Int32) (edge : GddEdge) : GddCtx :=
  let topstat := ctx.topstat
  let ctx := { ctx with topstat := { topstat with outdeg := topstat.outdeg + 1 } }
  let topstat := ctx.topstat
  let ctx := { ctx with topstat := { topstat with indeg := topstat.indeg + 1 } }
  let ctx := ctx.updateGlobal edge.fromVid fun global => { global with outdeg := global.outdeg + 1 }
  let ctx := ctx.updateGlobal edge.toVid fun global => { global with indeg := global.indeg + 1 }
  let ctx := ctx.updateVert segid edge.fromVid fun vert =>
    { vert with edgesOut := vert.edgesOut ++ [edge] }
  ctx.updateVert segid edge.toVid fun vert => { vert with edgesIn := vert.edgesIn ++ [edge] }

/-- `gddEdgeUnlinkFrom`: uncount the edge's out degrees and delete it from its from vert. -/
def edgeUnlinkFrom (ctx : GddCtx) (segid : Int32) (edge : GddEdge) : GddCtx :=
  let topstat := ctx.topstat
  let ctx := { ctx with topstat := { topstat with outdeg := topstat.outdeg - 1 } }
  let ctx := ctx.updateGlobal edge.fromVid fun global => { global with outdeg := global.outdeg - 1 }
  ctx.updateVert segid edge.fromVid fun vert => { vert with edgesOut := vert.edgesOut.erase edge }

/-- `gddEdgeUnlinkTo`: uncount the edge's in degrees and delete it from its to vert. -/
def edgeUnlinkTo (ctx : GddCtx) (segid : Int32) (edge : GddEdge) : GddCtx :=
  let topstat := ctx.topstat
  let ctx := { ctx with topstat := { topstat with indeg := topstat.indeg - 1 } }
  let ctx := ctx.updateGlobal edge.toVid fun global => { global with indeg := global.indeg - 1 }
  ctx.updateVert segid edge.toVid fun vert => { vert with edgesIn := vert.edgesIn.erase edge }

/-- `gddEdgeUnlink`. Deleting the cell under an iterator and deleting the edge by a scan
(`list_delete_ptr`) remove the same cell, since an edge is in a list once. -/
def edgeUnlink (ctx : GddCtx) (segid : Int32) (edge : GddEdge) : GddCtx :=
  (ctx.edgeUnlinkFrom segid edge).edgeUnlinkTo segid edge

/-- `GddCtxAddEdge`: add the edge `fromVid → toVid` to the graph of segment `segid`. -/
def addEdge (ctx : GddCtx) (segid : Int32) (fromVid toVid : DistributedTransactionId)
    (solid : Bool) : GddCtx :=
  let ctx := ctx.getGraph segid
  -- `gddGraphMakeEdge`: the two verts, then a new edge between them
  let ctx := { ctx with
    graphs := ArrayMap.update GddGraph.id ctx.graphs segid fun graph =>
      (graph.getVert fromVid).getVert toVid }
  let edge : GddEdge := ⟨ctx.allocated, solid, fromVid, toVid⟩
  let ctx := { ctx with allocated := ctx.allocated + 1 }
  let ctx := (ctx.getGlobalStat fromVid).getGlobalStat toVid
  ctx.edgeLink segid edge

/-! ## Reducing -/

/-- `gddVertUnlinkAll`: unlink the vert's in edges, then its out edges; dirty if there was one. -/
def vertUnlinkAll (ctx : GddCtx) (segid : Int32) (vid : DistributedTransactionId) :
    GddCtx × Bool :=
  let edgesIn := (ctx.vert segid vid).edgesIn
  let ctx := edgesIn.foldl (fun ctx edge => ctx.edgeUnlink segid edge) ctx
  let edgesOut := (ctx.vert segid vid).edgesOut
  let ctx := edgesOut.foldl (fun ctx edge => ctx.edgeUnlink segid edge) ctx
  (ctx, !edgesIn.isEmpty || !edgesOut.isEmpty)

/-- `gddVertReduce`: rules 1 and 2 unlink all the edges of a vert whose global in or out degree
is 0; rule 3 unlinks the dotted in edges of a vert with no local out edge. -/
def vertReduce (ctx : GddCtx) (segid : Int32) (vid : DistributedTransactionId) : GddCtx × Bool :=
  let global := ctx.global vid
  if global.indeg = 0 ∨ global.outdeg = 0 then
    ctx.vertUnlinkAll segid vid
  else if (ctx.vert segid vid).edgesOut.length = 0 then
    let edgesIn := (ctx.vert segid vid).edgesIn
    (edgesIn.foldl (fun ctx edge => if edge.solid then ctx else ctx.edgeUnlink segid edge) ctx,
      edgesIn.any fun edge => !edge.solid)
  else
    (ctx, false)

/-- `gdd_map_iter_delete` on the verts of the graph at position `gi`. -/
def vertIterDelete (ctx : GddCtx) (gi pos : ℕ) : GddCtx :=
  { ctx with
    graphs := ctx.graphs.modify gi fun graph =>
      { graph with verts := ArrayMap.swapRemove graph.verts pos } }

/-- The loop of `GddCtxReduce` over the verts of the graph at position `gi`, from `pos` on, with
`n` iterations left: each one reduces a vert, then deletes it if it has no edge left, the next
vert moving into its slot, or moves on. -/
def reduceVerts (gi : ℕ) : ℕ → GddCtx → ℕ → Bool → GddCtx × Bool
  | 0, ctx, _, dirty => (ctx, dirty)
  | n + 1, ctx, pos, dirty =>
    match ctx.graphs[gi]? with
    | none => (ctx, dirty)
    | some graph =>
      match graph.verts[pos]? with
      | none => (ctx, dirty)
      | some vert =>
        let (ctx, reduced) := ctx.vertReduce graph.id vert.id
        let vert := ctx.vert graph.id vert.id
        if vert.edgesIn.length = 0 ∧ vert.edgesOut.length = 0 then
          reduceVerts gi n (ctx.vertIterDelete gi pos) pos (dirty || reduced)
        else
          reduceVerts gi n ctx (pos + 1) (dirty || reduced)

/-- The number of verts of the graph at position `gi`. -/
def vertCount (ctx : GddCtx) (gi : ℕ) : ℕ := (ctx.graphs[gi]?.map fun graph => graph.verts.length).getD 0

/-- One pass of `gdd_ctx_foreach_vert` in `GddCtxReduce`: every vert of every graph. -/
def reducePass (ctx : GddCtx) : GddCtx × Bool :=
  (List.range ctx.graphs.length).foldl
    (fun acc gi => reduceVerts gi (vertCount acc.1 gi) acc.1 0 acc.2) (ctx, false)

/-- The passes of `GddCtxReduce`, until one deletes nothing; `none` when the fuel runs out. -/
def reduceLoop : ℕ → GddCtx → Option GddCtx
  | 0, _ => none
  | fuel + 1, ctx =>
    let (ctx, dirty) := ctx.reducePass
    if dirty then reduceLoop fuel ctx else some ctx

/-- The number of edges: the lengths of the out edge lists. -/
def edgeCount (ctx : GddCtx) : ℕ :=
  (ctx.graphs.map fun graph => (graph.verts.map fun vert => vert.edgesOut.length).sum).sum

/-- `GddCtxReduce`: every pass but the last deletes an edge, so there are at most one more
passes than edges. -/
def reduce (ctx : GddCtx) : Option GddCtx := reduceLoop (ctx.edgeCount + 1) ctx

/-- `GddCtxEmpty`: no edge is left. -/
def empty (ctx : GddCtx) : Bool := ctx.topstat.indeg == 0

/-! ## Breaking deadlocks -/

/-- `gddGraphRemoveVid` on the graph at position `gi`: unlink all the edges of the first vert
with id `vid`, then delete it. -/
def graphRemoveVid (ctx : GddCtx) (gi : ℕ) (vid : DistributedTransactionId) : GddCtx :=
  match ctx.graphs[gi]? with
  | none => ctx
  | some graph =>
    match graph.verts.findIdx? fun vert => vert.id = vid with
    | none => ctx
    | some pos => ((ctx.vertUnlinkAll graph.id vid).1).vertIterDelete gi pos

/-- `gddCtxRemoveVid`: remove the vert `vid` from every graph. -/
def removeVid (ctx : GddCtx) (vid : DistributedTransactionId) : GddCtx :=
  (List.range ctx.graphs.length).foldl (fun ctx gi => ctx.graphRemoveVid gi vid) ctx

/-- `gddCtxGetMaxVid`: the largest id of a vert with an edge left, computed as a
`DistributedTransactionId` and returned from a function declared `int`, which keeps its low 32
bits. -/
def getMaxVid (ctx : GddCtx) : Int32 :=
  let maxvid : DistributedTransactionId :=
    ctx.graphs.foldl (fun maxvid graph =>
      graph.verts.foldl (fun maxvid vert =>
        if vert.edgesIn.length != 0 || vert.edgesOut.length != 0 then
          (if maxvid > vert.id then maxvid else vert.id)
        else maxvid) maxvid) 0
  maxvid.toUInt32.toInt32

/-- The loop of `GddCtxBreakDeadLock`: cancel the vert with the largest id and reduce again,
until no edge is left; `none` when the fuel runs out. -/
def breakDeadLockLoop :
    ℕ → GddCtx → List DistributedTransactionId → Option (List DistributedTransactionId × GddCtx)
  | 0, _, _ => none
  | fuel + 1, ctx, vids =>
    if ctx.empty then some (vids, ctx)
    else
      -- `*maxvid = gddCtxGetMaxVid(ctx)`: the `int` is converted back to a 64-bit id
      let maxvid : DistributedTransactionId := ctx.getMaxVid.toInt64.toUInt64
      match (ctx.removeVid maxvid).reduce with
      | none => none
      | some ctx => breakDeadLockLoop fuel ctx (vids ++ [maxvid])

/-- `GddCtxBreakDeadLock`: the vids to cancel, and the context left. -/
def breakDeadLock (fuel : ℕ) (ctx : GddCtx) : Option (List DistributedTransactionId × GddCtx) :=
  breakDeadLockLoop fuel ctx []

end GddCtx

end Cloudberry.Gdd
