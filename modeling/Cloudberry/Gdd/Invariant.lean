import Cloudberry.Gdd.Rules
import Mathlib.Algebra.Order.BigOperators.Group.List
import Mathlib.Data.Multiset.OrderedMonoid

/-!
# What the detector's data holds

The detector keeps each edge twice, in the out edges of its from vert and in the in edges of its
to vert, and counts it three times, in the top counters and in the global counters of its two
ends. `Inv` says that these agree: the ids are keys (`Wf`), an edge sits at its own ends, the in
edges are the out edges, and every counter is the count of the waits (`waitEdges`) that it
stands for. `GddCtx.new` has it, and adding and unlinking an edge keep it:

* `Inv.addEdge`: adding an edge adds its wait;
* `Inv.edgeUnlink`: unlinking an edge deletes its wait;
* `Inv.vertIterDelete`: deleting a vert with no edge changes no wait.
-/

namespace Cloudberry.Gdd

/-- The wait that an edge of segment `segid` stands for. -/
def GddEdge.waitEdge (edge : GddEdge) (segid : Int32) : WaitEdge :=
  ⟨segid, edge.fromVid, edge.toVid, edge.solid⟩

/-- The edges of one of the lists of every vert, each with the segment of the graph. -/
def GddGraph.edgesOf (edges : GddVert → List GddEdge) (graph : GddGraph) :
    Multiset (Int32 × GddEdge) :=
  (graph.verts.map fun vert => (((edges vert).map fun edge => (graph.id, edge) :
    List (Int32 × GddEdge)) : Multiset (Int32 × GddEdge))).sum

namespace GddCtx

/-- The edges of one of the lists of every vert of every graph. -/
def edgesOf (edges : GddVert → List GddEdge) (ctx : GddCtx) : Multiset (Int32 × GddEdge) :=
  (ctx.graphs.map (GddGraph.edgesOf edges)).sum

/-- The edges, as the out edges of the verts hold them. -/
def outEdges (ctx : GddCtx) : Multiset (Int32 × GddEdge) := ctx.edgesOf GddVert.edgesOut

/-- The edges, as the in edges of the verts hold them. -/
def inEdges (ctx : GddCtx) : Multiset (Int32 × GddEdge) := ctx.edgesOf GddVert.edgesIn

/-- The waits that the graphs hold. -/
def waitEdges (ctx : GddCtx) : Multiset WaitEdge := ctx.outEdges.map fun p => p.2.waitEdge p.1

/-- The ids of the graphs, each with the ids of its verts in order. -/
def shape (ctx : GddCtx) : List (Int32 × List DistributedTransactionId) :=
  ctx.graphs.map fun graph => (graph.id, graph.verts.map GddVert.id)

/-- The edges of the list `edges` of every vert have the vert at their end `endpoint`. -/
def EdgesAt (edges : GddVert → List GddEdge) (endpoint : GddEdge → DistributedTransactionId)
    (ctx : GddCtx) : Prop :=
  ∀ graph ∈ ctx.graphs, ∀ vert ∈ graph.verts, ∀ edge ∈ edges vert, endpoint edge = vert.id

/-- The maps are keyed by the ids, and each edge sits at its own ends. -/
structure Wf (ctx : GddCtx) : Prop where
  graphs_nodup : (ctx.graphs.map GddGraph.id).Nodup
  verts_nodup : ∀ graph ∈ ctx.graphs, (graph.verts.map GddVert.id).Nodup
  out_from : ctx.EdgesAt GddVert.edgesOut GddEdge.fromVid
  in_to : ctx.EdgesAt GddVert.edgesIn GddEdge.toVid

/-- The invariant of the detector's data: the in edges are the out edges, each edge once, made
before the next allocation, with counters for its ends; every counter counts its waits. -/
structure Inv (ctx : GddCtx) : Prop extends ctx.Wf where
  in_eq_out : ctx.inEdges = ctx.outEdges
  out_nodup : ctx.outEdges.Nodup
  ptr_lt : ∀ p ∈ ctx.outEdges, p.2.ptr < ctx.allocated
  globals_cover : ∀ p ∈ ctx.outEdges, (ArrayMap.get GddStat.id ctx.globals p.2.fromVid).isSome ∧
    (ArrayMap.get GddStat.id ctx.globals p.2.toVid).isSome
  global_indeg : ∀ vid, (ctx.global vid).indeg = WaitEdge.inDeg ctx.waitEdges vid
  global_outdeg : ∀ vid, (ctx.global vid).outdeg = WaitEdge.outDeg ctx.waitEdges vid
  top_indeg : ctx.topstat.indeg = Multiset.card ctx.outEdges
  top_outdeg : ctx.topstat.outdeg = Multiset.card ctx.outEdges

/-! ## Where an edge sits -/

theorem mem_sum_map {α β : Type*} {l : List α} {f : α → Multiset β} {b : β} :
    b ∈ (l.map f).sum ↔ ∃ a ∈ l, b ∈ f a := by
  induction l with
  | nil => simp
  | cons a l ih => simp [ih]

theorem mem_edgesOf {edges : GddVert → List GddEdge} {ctx : GddCtx} {p : Int32 × GddEdge} :
    p ∈ ctx.edgesOf edges ↔
      ∃ graph ∈ ctx.graphs, ∃ vert ∈ graph.verts, p.1 = graph.id ∧ p.2 ∈ edges vert := by
  simp only [edgesOf, GddGraph.edgesOf, mem_sum_map, Multiset.mem_coe, List.mem_map]
  constructor
  · rintro ⟨graph, hgraph, vert, hvert, edge, hedge, rfl⟩
    exact ⟨graph, hgraph, vert, hvert, rfl, hedge⟩
  · rintro ⟨graph, hgraph, vert, hvert, h1, h2⟩
    exact ⟨graph, hgraph, vert, hvert, p.2, h2, by rw [← h1]⟩

variable {ctx : GddCtx}

theorem Wf.graph_eq (hw : ctx.Wf) {graph : GddGraph} (hgraph : graph ∈ ctx.graphs) :
    ctx.graph graph.id = graph := by
  rw [GddCtx.graph, ArrayMap.get_eq_some_of_mem hw.graphs_nodup hgraph, Option.getD_some]

theorem Wf.vert_eq (hw : ctx.Wf) {graph : GddGraph} (hgraph : graph ∈ ctx.graphs)
    {vert : GddVert} (hvert : vert ∈ graph.verts) : ctx.vert graph.id vert.id = vert := by
  rw [GddCtx.vert, hw.graph_eq hgraph, GddGraph.vert,
    ArrayMap.get_eq_some_of_mem (hw.verts_nodup graph hgraph) hvert, Option.getD_some]

/-- An edge of a list sits in that list of the vert at its end. -/
theorem Wf.mem_edgesOf {edges : GddVert → List GddEdge}
    {endpoint : GddEdge → DistributedTransactionId} (hw : ctx.Wf) (hat : ctx.EdgesAt edges endpoint)
    {segid : Int32} {edge : GddEdge} (h : (segid, edge) ∈ ctx.edgesOf edges) :
    ∃ graph ∈ ctx.graphs, ∃ vert ∈ graph.verts, graph.id = segid ∧ vert.id = endpoint edge ∧
      ctx.vert segid (endpoint edge) = vert ∧ edge ∈ edges vert := by
  obtain ⟨graph, hgraph, vert, hvert, rfl, hedge⟩ := GddCtx.mem_edgesOf.mp h
  have hid : endpoint edge = vert.id := hat graph hgraph vert hvert edge hedge
  exact ⟨graph, hgraph, vert, hvert, rfl, hid.symm, by rw [hid]; exact hw.vert_eq hgraph hvert,
    hedge⟩

/-- The edges of the vert that a lookup finds are edges of the graph, at that vert's end. -/
theorem EdgesAt.mem_vert {edges : GddVert → List GddEdge} {endpoint : GddEdge → DistributedTransactionId}
    (hat : ctx.EdgesAt edges endpoint) (hnil : ∀ vid, edges ⟨vid, [], []⟩ = []) {segid : Int32}
    {vid : DistributedTransactionId} {edge : GddEdge} (h : edge ∈ edges (ctx.vert segid vid)) :
    (segid, edge) ∈ ctx.edgesOf edges ∧ endpoint edge = vid := by
  unfold GddCtx.vert GddCtx.graph GddGraph.vert at h
  cases hg : ArrayMap.get GddGraph.id ctx.graphs segid with
  | none => simp [hg, ArrayMap.get_eq_none, hnil] at h
  | some graph =>
    cases hv : ArrayMap.get GddVert.id graph.verts vid with
    | none => simp [hg, hv, hnil] at h
    | some vert =>
      simp only [hg, hv, Option.getD_some] at h
      obtain ⟨hgraph, rfl⟩ := ArrayMap.mem_of_get_eq_some hg
      obtain ⟨hvert, rfl⟩ := ArrayMap.mem_of_get_eq_some hv
      exact ⟨GddCtx.mem_edgesOf.mpr ⟨graph, hgraph, vert, hvert, rfl, h⟩,
        hat graph hgraph vert hvert edge h⟩

/-- A list of the vert that a lookup finds holds each edge once, if the graph does. -/
theorem nodup_vert {edges : GddVert → List GddEdge} (hnil : ∀ vid, edges ⟨vid, [], []⟩ = [])
    (hnodup : (ctx.edgesOf edges).Nodup) (segid : Int32) (vid : DistributedTransactionId) :
    (edges (ctx.vert segid vid)).Nodup := by
  unfold GddCtx.vert GddCtx.graph GddGraph.vert
  cases hg : ArrayMap.get GddGraph.id ctx.graphs segid with
  | none => simp [ArrayMap.get, hnil]
  | some graph =>
    cases hv : ArrayMap.get GddVert.id graph.verts vid with
    | none => simp [hv, hnil]
    | some vert =>
      simp only [hv, Option.getD_some]
      have hgraph := (ArrayMap.mem_of_get_eq_some hg).1
      have hvert := (ArrayMap.mem_of_get_eq_some hv).1
      -- the vert's list is a part of the graph's edges, and those of the graph a part of all
      have hle : (((edges vert).map (graph.id, ·) : List _) : Multiset (Int32 × GddEdge)) ≤
          ctx.edgesOf edges :=
        (List.le_sum_of_mem (List.mem_map_of_mem hvert)).trans
          (List.le_sum_of_mem (List.mem_map_of_mem (f := GddGraph.edgesOf edges) hgraph))
      exact List.Nodup.of_map _ (Multiset.coe_nodup.mp (Multiset.nodup_of_le hle hnodup))

/-! ## Updates through a vert's pointers -/

/-- Whether the maps are keyed and the edges sit at their ends depends on the graphs only. -/
theorem Wf.of_graphs_eq {ctx' : GddCtx} (hw : ctx.Wf) (h : ctx'.graphs = ctx.graphs) : ctx'.Wf where
  graphs_nodup := h ▸ hw.graphs_nodup
  verts_nodup := h ▸ hw.verts_nodup
  out_from := by unfold EdgesAt; rw [h]; exact hw.out_from
  in_to := by unfold EdgesAt; rw [h]; exact hw.in_to

/-- Maps with the same keys are keyed alike. -/
theorem Wf.of_shape_eq {ctx' : GddCtx} (hw : ctx.Wf) (hs : ctx'.shape = ctx.shape)
    (hout : ctx'.EdgesAt GddVert.edgesOut GddEdge.fromVid)
    (hin : ctx'.EdgesAt GddVert.edgesIn GddEdge.toVid) : ctx'.Wf where
  graphs_nodup := by
    have hids : ctx'.graphs.map GddGraph.id = ctx.graphs.map GddGraph.id := by
      simpa [shape, List.map_map, Function.comp_def] using congrArg (List.map Prod.fst) hs
    exact hids ▸ hw.graphs_nodup
  verts_nodup := by
    intro graph' hgraph'
    have hmem : (graph'.id, graph'.verts.map GddVert.id) ∈ ctx.shape :=
      hs ▸ List.mem_map_of_mem hgraph'
    obtain ⟨graph, hgraph, heq⟩ := List.mem_map.mp hmem
    rw [← (Prod.mk.inj heq).2]
    exact hw.verts_nodup graph hgraph
  out_from := hout
  in_to := hin

section UpdateVert

variable {segid : Int32} {vid : DistributedTransactionId} {f : GddVert → GddVert}

@[simp] theorem updateVert_globals : (ctx.updateVert segid vid f).globals = ctx.globals := rfl

@[simp] theorem updateVert_topstat : (ctx.updateVert segid vid f).topstat = ctx.topstat := rfl

@[simp] theorem updateVert_allocated : (ctx.updateVert segid vid f).allocated = ctx.allocated :=
  rfl

/-- A graph after an update is a graph before it, with the vert `vid` changed if it is the graph
of `segid`. -/
theorem mem_updateVert {graph' : GddGraph} (h : graph' ∈ (ctx.updateVert segid vid f).graphs) :
    ∃ graph ∈ ctx.graphs, graph'.id = graph.id ∧
      ∀ vert' ∈ graph'.verts, ∃ vert ∈ graph.verts,
        vert' = if graph.id = segid ∧ vert.id = vid then f vert else vert := by
  obtain ⟨graph, hgraph, rfl⟩ := List.mem_map.mp h
  refine ⟨graph, hgraph, by split_ifs <;> rfl, fun vert' hvert' => ?_⟩
  by_cases hg : graph.id = segid
  · simp only [hg, if_true, ArrayMap.update, List.mem_map] at hvert'
    obtain ⟨vert, hvert, rfl⟩ := hvert'
    exact ⟨vert, hvert, by simp [hg]⟩
  · simp only [hg, if_false] at hvert'
    exact ⟨vert', hvert', by simp [hg]⟩

/-- An update changes the edges of a list by what it changes in the vert's list. -/
theorem edgesOf_updateVert (edges : GddVert → List GddEdge) (hw : ctx.Wf) {graph : GddGraph}
    (hgraph : graph ∈ ctx.graphs) (hgid : graph.id = segid) {vert : GddVert}
    (hvert : vert ∈ graph.verts) (hvid : vert.id = vid) :
    (ctx.updateVert segid vid f).edgesOf edges + ((edges vert).map (segid, ·) : Multiset _) =
      ctx.edgesOf edges + ((edges (f vert)).map (segid, ·) : Multiset _) := by
  let g : GddGraph → GddGraph := fun graph =>
    { graph with verts := ArrayMap.update GddVert.id graph.verts vid f }
  -- the graphs' sum changes at `graph`, and the sum over `graph`'s verts at `vert`
  have hgraphs := ArrayMap.sum_map_update (GddGraph.edgesOf edges) hw.graphs_nodup hgraph hgid
    (f := g)
  have hverts := ArrayMap.sum_map_update
    (fun vert => (((edges vert).map (graph.id, ·) : List _) : Multiset (Int32 × GddEdge)))
    (hw.verts_nodup graph hgraph) hvert hvid (f := f)
  change (g graph).edgesOf edges + _ = graph.edgesOf edges + _ at hverts
  rw [hgid] at hverts
  change ((ArrayMap.update GddGraph.id ctx.graphs segid g).map (GddGraph.edgesOf edges)).sum + _ = _
  apply add_right_cancel (b := graph.edgesOf edges)
  calc _ = ((ArrayMap.update GddGraph.id ctx.graphs segid g).map (GddGraph.edgesOf edges)).sum +
          graph.edgesOf edges + ((edges vert).map (segid, ·) : Multiset _) := by ac_rfl
    _ = ctx.edgesOf edges + ((g graph).edgesOf edges + ((edges vert).map (segid, ·) : Multiset _)) := by
        rw [hgraphs, add_assoc]; rfl
    _ = _ := by rw [hverts]; ac_rfl

variable (hf : ∀ vert, (f vert).id = vert.id)
include hf

theorem shape_updateVert : (ctx.updateVert segid vid f).shape = ctx.shape := by
  unfold shape updateVert
  rw [ArrayMap.update, List.map_map]
  refine List.map_congr_left fun graph _ => ?_
  by_cases hg : graph.id = segid
  · simp only [Function.comp_apply, hg, if_true]
    rw [ArrayMap.map_key_update hf]
  · simp [hg]

/-- An update keeps the edges at their ends when the edges it adds to a list end at the vert. -/
theorem EdgesAt.updateVert {edges : GddVert → List GddEdge}
    {endpoint : GddEdge → DistributedTransactionId} (hat : ctx.EdgesAt edges endpoint)
    (hedges : ∀ vert, vert.id = vid → ∀ edge ∈ edges (f vert), edge ∈ edges vert ∨ endpoint edge = vid) :
    (ctx.updateVert segid vid f).EdgesAt edges endpoint := by
  intro graph' hgraph' vert' hvert' edge hedge
  obtain ⟨graph, hgraph, -, hverts⟩ := mem_updateVert hgraph'
  obtain ⟨vert, hvert, rfl⟩ := hverts vert' hvert'
  split_ifs at hedge ⊢ with hcase
  · rw [hf]
    rcases hedges vert hcase.2 edge hedge with hold | hend
    · exact hat graph hgraph vert hvert edge hold
    · rw [hend, hcase.2]
  · exact hat graph hgraph vert hvert edge hedge

end UpdateVert

section UpdateGlobal

variable {vid : DistributedTransactionId} {g : GddStat → GddStat}

@[simp] theorem updateGlobal_graphs : (ctx.updateGlobal vid g).graphs = ctx.graphs := rfl

@[simp] theorem updateGlobal_topstat : (ctx.updateGlobal vid g).topstat = ctx.topstat := rfl

@[simp] theorem updateGlobal_allocated : (ctx.updateGlobal vid g).allocated = ctx.allocated :=
  rfl

variable (hg : ∀ st, (g st).id = st.id)
include hg

theorem isSome_updateGlobal (vid' : DistributedTransactionId) :
    (ArrayMap.get GddStat.id (ctx.updateGlobal vid g).globals vid').isSome =
      (ArrayMap.get GddStat.id ctx.globals vid').isSome := by
  by_cases h : vid' = vid
  · subst h
    rw [updateGlobal, ArrayMap.get_update_self hg, Option.isSome_map]
  · rw [updateGlobal, ArrayMap.get_update_of_ne hg h]

theorem global_updateGlobal (hs : (ArrayMap.get GddStat.id ctx.globals vid).isSome)
    (vid' : DistributedTransactionId) :
    (ctx.updateGlobal vid g).global vid' =
      if vid' = vid then g (ctx.global vid) else ctx.global vid' := by
  split_ifs with h
  · subst h
    obtain ⟨st, hst⟩ := Option.isSome_iff_exists.mp hs
    simp only [global, updateGlobal, ArrayMap.get_update_self hg, hst, Option.map_some,
      Option.getD_some]
  · simp only [global, updateGlobal, ArrayMap.get_update_of_ne hg h]

end UpdateGlobal

/-! ## Unlinking an edge -/

/-- A list of edges with `a` taken out, as a multiset. -/
theorem coe_map_eq_cons_erase {l : List GddEdge} {edge : GddEdge} (h : edge ∈ l) (segid : Int32) :
    ((l.map (segid, ·) : List _) : Multiset (Int32 × GddEdge)) =
      (segid, edge) ::ₘ (((l.erase edge).map (segid, ·) : List _) : Multiset _) := by
  rw [Multiset.cons_coe, Multiset.coe_eq_coe, ← List.map_cons]
  exact (List.perm_cons_erase h).map _

theorem eq_erase_of_add_cons {α : Type*} [DecidableEq α] {X Y R : Multiset α} {a : α}
    (h : X + a ::ₘ R = Y + R) : X = Y.erase a := by
  rw [Multiset.add_cons, ← Multiset.cons_add] at h
  rw [← add_right_cancel h, Multiset.erase_cons_head]

/-- The out edge list of `vid` with `edge` deleted. -/
def eraseOut (edge : GddEdge) (vert : GddVert) : GddVert :=
  { vert with edgesOut := vert.edgesOut.erase edge }

/-- The in edge list of `vid` with `edge` deleted. -/
def eraseIn (edge : GddEdge) (vert : GddVert) : GddVert :=
  { vert with edgesIn := vert.edgesIn.erase edge }

/-- `global->outdeg--`. -/
def decOutdeg (global : GddStat) : GddStat := { global with outdeg := global.outdeg - 1 }

/-- `global->indeg--`. -/
def decIndeg (global : GddStat) : GddStat := { global with indeg := global.indeg - 1 }

theorem edgeUnlink_eq (segid : Int32) (edge : GddEdge) :
    ctx.edgeUnlink segid edge =
      { topstat := { ctx.topstat with
          indeg := ctx.topstat.indeg - 1
          outdeg := ctx.topstat.outdeg - 1 }
        globals := ((ctx.updateGlobal edge.fromVid decOutdeg).updateGlobal edge.toVid
          decIndeg).globals
        graphs := ((ctx.updateVert segid edge.fromVid (eraseOut edge)).updateVert segid
          edge.toVid (eraseIn edge)).graphs
        allocated := ctx.allocated } := rfl

/-- Deleting `edge` from a list of the vert at its end deletes it from that list of the graph
and leaves the other list as it is. -/
theorem edgesOf_updateVert_erase (edges other : GddVert → List GddEdge)
    {endpoint : GddEdge → DistributedTransactionId} {f : GddVert → GddVert} (hw : ctx.Wf)
    (hat : ctx.EdgesAt edges endpoint) {segid : Int32} {edge : GddEdge}
    (he : (segid, edge) ∈ ctx.edgesOf edges)
    (hf : ∀ vert, edges (f vert) = (edges vert).erase edge ∧ other (f vert) = other vert ∧
      (f vert).id = vert.id) :
    (ctx.updateVert segid (endpoint edge) f).edgesOf edges = (ctx.edgesOf edges).erase (segid, edge) ∧
      (ctx.updateVert segid (endpoint edge) f).edgesOf other = ctx.edgesOf other := by
  obtain ⟨graph, hgraph, vert, hvert, hgid, hvid, -, hedge⟩ := hw.mem_edgesOf hat he
  have hedges := edgesOf_updateVert edges (f := f) hw hgraph hgid hvert hvid
  have hother := edgesOf_updateVert other (f := f) hw hgraph hgid hvert hvid
  rw [(hf vert).1, coe_map_eq_cons_erase hedge] at hedges
  rw [(hf vert).2.1] at hother
  exact ⟨eq_erase_of_add_cons hedges, add_right_cancel hother⟩

variable {segid : Int32} {edge : GddEdge}

/-- Unlinking an edge deletes it from the out and the in edges, and keeps the maps' keys. -/
theorem Inv.edgesOf_edgeUnlink (hI : ctx.Inv) (he : (segid, edge) ∈ ctx.outEdges) :
    (ctx.edgeUnlink segid edge).Wf ∧ (ctx.edgeUnlink segid edge).shape = ctx.shape ∧
      (ctx.edgeUnlink segid edge).outEdges = ctx.outEdges.erase (segid, edge) ∧
      (ctx.edgeUnlink segid edge).inEdges = ctx.inEdges.erase (segid, edge) := by
  -- first the out list of the from vert, then the in list of the to vert
  obtain ⟨hout1, hin1⟩ := edgesOf_updateVert_erase GddVert.edgesOut GddVert.edgesIn
    (f := eraseOut edge) hI.toWf hI.out_from he fun _ => ⟨rfl, rfl, rfl⟩
  have hw1 : (ctx.updateVert segid edge.fromVid (eraseOut edge)).Wf :=
    hI.toWf.of_shape_eq (shape_updateVert (f := eraseOut edge) fun _ => rfl)
      (hI.out_from.updateVert (f := eraseOut edge) (fun _ => rfl)
        fun _ _ _ h => Or.inl (List.mem_of_mem_erase h))
      (hI.in_to.updateVert (f := eraseOut edge) (fun _ => rfl) fun _ _ _ h => Or.inl h)
  have he1 : (segid, edge) ∈ (ctx.updateVert segid edge.fromVid (eraseOut edge)).inEdges := by
    rw [inEdges, hin1, ← inEdges, hI.in_eq_out]
    exact he
  obtain ⟨hin2, hout2⟩ := edgesOf_updateVert_erase GddVert.edgesIn GddVert.edgesOut
    (f := eraseIn edge) hw1 hw1.in_to he1 fun _ => ⟨rfl, rfl, rfl⟩
  have hw2 : ((ctx.updateVert segid edge.fromVid (eraseOut edge)).updateVert segid edge.toVid
      (eraseIn edge)).Wf := hw1.of_shape_eq (shape_updateVert (f := eraseIn edge) fun _ => rfl)
    (hw1.out_from.updateVert (f := eraseIn edge) (fun _ => rfl) fun _ _ _ h => Or.inl h)
    (hw1.in_to.updateVert (f := eraseIn edge) (fun _ => rfl)
      fun _ _ _ h => Or.inl (List.mem_of_mem_erase h))
  rw [edgeUnlink_eq]
  refine ⟨hw2.of_graphs_eq rfl, ?_, ?_, ?_⟩
  · exact (shape_updateVert (f := eraseIn edge) fun _ => rfl).trans
      (shape_updateVert (f := eraseOut edge) fun _ => rfl)
  · exact hout2.trans hout1
  · exact hin2.trans (congrArg (fun m => Multiset.erase m (segid, edge)) hin1)

/-- An unlink keeps the vids that have counters. -/
theorem isSome_edgeUnlink (vid : DistributedTransactionId) :
    (ArrayMap.get GddStat.id (ctx.edgeUnlink segid edge).globals vid).isSome =
      (ArrayMap.get GddStat.id ctx.globals vid).isSome := by
  rw [edgeUnlink_eq]
  exact (isSome_updateGlobal (g := decIndeg) (fun _ => rfl) vid).trans
    (isSome_updateGlobal (g := decOutdeg) (fun _ => rfl) vid)

/-- The counters after an unlink: one wait fewer for `edge.toVid` and from `edge.fromVid`. -/
theorem Inv.global_edgeUnlink (hI : ctx.Inv) (he : (segid, edge) ∈ ctx.outEdges)
    (vid : DistributedTransactionId) :
    ((ctx.edgeUnlink segid edge).global vid).indeg =
        (ctx.global vid).indeg - (if vid = edge.toVid then 1 else 0) ∧
      ((ctx.edgeUnlink segid edge).global vid).outdeg =
        (ctx.global vid).outdeg - (if vid = edge.fromVid then 1 else 0) := by
  obtain ⟨hfrom, hto⟩ := hI.globals_cover _ he
  have hto' : (ArrayMap.get GddStat.id (ctx.updateGlobal edge.fromVid decOutdeg).globals
      edge.toVid).isSome := (isSome_updateGlobal (g := decOutdeg) (fun _ => rfl) edge.toVid).trans hto
  rw [edgeUnlink_eq]
  change (((ctx.updateGlobal edge.fromVid decOutdeg).updateGlobal edge.toVid decIndeg).global
    vid).indeg = _ ∧ (((ctx.updateGlobal edge.fromVid decOutdeg).updateGlobal edge.toVid
    decIndeg).global vid).outdeg = _
  rw [global_updateGlobal (g := decIndeg) (fun _ => rfl) hto',
    global_updateGlobal (g := decOutdeg) (fun _ => rfl) hfrom,
    global_updateGlobal (g := decOutdeg) (fun _ => rfl) hfrom]
  by_cases hvt : vid = edge.toVid <;> by_cases hvf : vid = edge.fromVid <;>
    simp [hvt, hvf, decIndeg, decOutdeg] <;> subst_vars <;> simp_all

/-- The waits before an unlink are the edge's wait and the waits after it. -/
theorem Inv.waitEdges_edgeUnlink (hI : ctx.Inv) (he : (segid, edge) ∈ ctx.outEdges) :
    ctx.waitEdges = edge.waitEdge segid ::ₘ (ctx.edgeUnlink segid edge).waitEdges := by
  rw [waitEdges, waitEdges, (hI.edgesOf_edgeUnlink he).2.2.1]
  conv_lhs => rw [← Multiset.cons_erase he]
  rw [Multiset.map_cons]

/-- An in edge of a vert is an edge of the graph that ends at the vert. -/
theorem Inv.mem_of_mem_edgesIn (hI : ctx.Inv) {vid : DistributedTransactionId}
    (he : edge ∈ (ctx.vert segid vid).edgesIn) :
    (segid, edge) ∈ ctx.outEdges ∧ edge.toVid = vid := by
  obtain ⟨hmem, hto⟩ := hI.in_to.mem_vert (fun _ => rfl) he
  exact ⟨hI.in_eq_out ▸ (hmem : (segid, edge) ∈ ctx.inEdges), hto⟩

/-- An out edge of a vert is an edge of the graph that starts at the vert. -/
theorem Inv.mem_of_mem_edgesOut (hI : ctx.Inv) {vid : DistributedTransactionId}
    (he : edge ∈ (ctx.vert segid vid).edgesOut) :
    (segid, edge) ∈ ctx.outEdges ∧ edge.fromVid = vid :=
  hI.out_from.mem_vert (fun _ => rfl) he

theorem Inv.nodup_edgesIn (hI : ctx.Inv) (segid : Int32) (vid : DistributedTransactionId) :
    (ctx.vert segid vid).edgesIn.Nodup :=
  nodup_vert (fun _ => rfl) (hI.in_eq_out ▸ hI.out_nodup : ctx.inEdges.Nodup) segid vid

theorem Inv.nodup_edgesOut (hI : ctx.Inv) (segid : Int32) (vid : DistributedTransactionId) :
    (ctx.vert segid vid).edgesOut.Nodup :=
  nodup_vert (fun _ => rfl) hI.out_nodup segid vid

/-- **Unlinking an edge keeps the invariant**, deletes the edge and its wait, and keeps the maps'
keys. -/
theorem Inv.edgeUnlink (hI : ctx.Inv) (he : (segid, edge) ∈ ctx.outEdges) :
    (ctx.edgeUnlink segid edge).Inv ∧ (ctx.edgeUnlink segid edge).shape = ctx.shape ∧
      (ctx.edgeUnlink segid edge).outEdges = ctx.outEdges.erase (segid, edge) := by
  obtain ⟨hw, hshape, hout, hin⟩ := hI.edgesOf_edgeUnlink he
  have hwaits := hI.waitEdges_edgeUnlink he
  have hcard : Multiset.card ctx.outEdges = Multiset.card (ctx.edgeUnlink segid edge).outEdges + 1 := by
    rw [hout, ← Multiset.card_cons, Multiset.cons_erase he]
  refine ⟨⟨hw, ?_, ?_, ?_, ?_, ?_, ?_, ?_, ?_⟩, hshape, hout⟩
  · rw [hin, hout, hI.in_eq_out]
  · rw [hout]
    exact hI.out_nodup.erase _
  · rw [hout]
    exact fun p hp => hI.ptr_lt p (Multiset.mem_of_mem_erase hp)
  · intro p hp
    rw [hout] at hp
    rw [isSome_edgeUnlink, isSome_edgeUnlink]
    exact hI.globals_cover p (Multiset.mem_of_mem_erase hp)
  · intro vid
    have h := hI.global_indeg vid
    rw [hwaits, WaitEdge.inDeg, Multiset.countP_cons] at h
    rw [(hI.global_edgeUnlink he vid).1, h, WaitEdge.inDeg]
    by_cases hv : vid = edge.toVid <;> simp [hv, GddEdge.waitEdge, eq_comm]
  · intro vid
    have h := hI.global_outdeg vid
    rw [hwaits, WaitEdge.outDeg, Multiset.countP_cons] at h
    rw [(hI.global_edgeUnlink he vid).2, h, WaitEdge.outDeg]
    by_cases hv : vid = edge.fromVid <;> simp [hv, GddEdge.waitEdge, eq_comm]
  · change ctx.topstat.indeg - 1 = _
    rw [hI.top_indeg, hcard]
    omega
  · change ctx.topstat.outdeg - 1 = _
    rw [hI.top_outdeg, hcard]
    omega

/-! ## Changes that move no edge -/

/-- A change that keeps the maps keyed, the edges, the counters and the allocations keeps the
invariant. -/
theorem Inv.of_edgesOf_eq {ctx' : GddCtx} (hI : ctx.Inv) (hw : ctx'.Wf)
    (hout : ctx'.outEdges = ctx.outEdges) (hin : ctx'.inEdges = ctx.inEdges)
    (hglobal : ∀ vid, ctx'.global vid = ctx.global vid)
    (hcover : ∀ vid, (ArrayMap.get GddStat.id ctx.globals vid).isSome →
      (ArrayMap.get GddStat.id ctx'.globals vid).isSome)
    (htop : ctx'.topstat = ctx.topstat) (halloc : ctx.allocated ≤ ctx'.allocated) : ctx'.Inv := by
  have hwaits : ctx'.waitEdges = ctx.waitEdges := by rw [waitEdges, waitEdges, hout]
  refine ⟨hw, ?_, ?_, ?_, ?_, ?_, ?_, ?_, ?_⟩
  · rw [hin, hout, hI.in_eq_out]
  · exact hout ▸ hI.out_nodup
  · exact fun p hp => (hI.ptr_lt p (hout ▸ hp)).trans_le halloc
  · exact fun p hp => (hI.globals_cover p (hout ▸ hp)).imp (hcover _) (hcover _)
  · exact fun vid => by rw [hglobal, hwaits, hI.global_indeg]
  · exact fun vid => by rw [hglobal, hwaits, hI.global_outdeg]
  · rw [htop, hout, hI.top_indeg]
  · rw [htop, hout, hI.top_outdeg]

/-- Deleting a vert with no edge from a graph's verts leaves its edges. -/
theorem edgesOf_swapRemove {edges : GddVert → List GddEdge} {graph : GddGraph} {pos : ℕ}
    {vert : GddVert} (hv : graph.verts[pos]? = some vert) (hnil : edges vert = []) :
    ({ graph with verts := ArrayMap.swapRemove graph.verts pos } : GddGraph).edgesOf edges =
      graph.edgesOf edges := by
  obtain ⟨hpos, rfl⟩ := List.getElem?_eq_some_iff.mp hv
  have hperm := (ArrayMap.perm_swapRemove hpos).map fun vert =>
    (((edges vert).map (graph.id, ·) : List _) : Multiset (Int32 × GddEdge))
  simp only [GddGraph.edgesOf, hperm.sum_eq, List.map_cons, List.sum_cons, hnil, List.map_nil,
    Multiset.coe_nil, zero_add]

theorem vertIterDelete_graphs {gi pos : ℕ} {graph : GddGraph} (hg : ctx.graphs[gi]? = some graph) :
    (ctx.vertIterDelete gi pos).graphs =
      ctx.graphs.set gi { graph with verts := ArrayMap.swapRemove graph.verts pos } := by
  rw [vertIterDelete, List.modify_eq_set_getElem?, hg]
  rfl

/-- **Deleting a vert with no edge keeps the invariant** and the edges. -/
theorem Inv.vertIterDelete (hI : ctx.Inv) {gi pos : ℕ} {graph : GddGraph}
    (hg : ctx.graphs[gi]? = some graph) {vert : GddVert} (hv : graph.verts[pos]? = some vert)
    (hempty : vert.edgesIn = [] ∧ vert.edgesOut = []) :
    (ctx.vertIterDelete gi pos).Inv ∧ (ctx.vertIterDelete gi pos).outEdges = ctx.outEdges := by
  obtain ⟨hgi, rfl⟩ := List.getElem?_eq_some_iff.mp hg
  obtain ⟨hpos, -⟩ := List.getElem?_eq_some_iff.mp hv
  set graph' : GddGraph := { ctx.graphs[gi] with
    verts := ArrayMap.swapRemove ctx.graphs[gi].verts pos } with hgraph'
  have hgraphs : (ctx.vertIterDelete gi pos).graphs = ctx.graphs.set gi graph' :=
    vertIterDelete_graphs hg
  have hsub : graph'.verts ⊆ ctx.graphs[gi].verts := fun v hv =>
    (ArrayMap.perm_swapRemove hpos).symm.subset (List.mem_cons_of_mem _ hv)
  -- every graph after the deletion is a graph before it or `graph'`
  have hmem : ∀ g ∈ (ctx.vertIterDelete gi pos).graphs, g ∈ ctx.graphs ∨ g = graph' := by
    rw [hgraphs]
    exact fun g hg => List.mem_or_eq_of_mem_set hg
  have hedges : ∀ edges : GddVert → List GddEdge, edges vert = [] →
      (ctx.vertIterDelete gi pos).edgesOf edges = ctx.edgesOf edges := by
    intro edges hnil
    rw [edgesOf, edgesOf, hgraphs,
      ArrayMap.map_set_of_eq hgi (GddGraph.edgesOf edges) (edgesOf_swapRemove hv hnil)]
  have hw : (ctx.vertIterDelete gi pos).Wf := by
    refine ⟨?_, ?_, ?_, ?_⟩
    · rw [hgraphs, ArrayMap.map_set_of_eq (a := graph') hgi GddGraph.id rfl]
      exact hI.graphs_nodup
    · intro g hg
      rcases hmem g hg with hg | rfl
      · exact hI.verts_nodup g hg
      · exact ((ArrayMap.swapRemove_perm hpos).map GddVert.id).nodup_iff.mpr
          ((hI.verts_nodup _ (List.getElem_mem hgi)).sublist
            ((List.eraseIdx_sublist _ _).map _))
    all_goals
      intro g hg v hv e he
      rcases hmem g hg with hg | rfl
      · first
        | exact hI.out_from g hg v hv e he
        | exact hI.in_to g hg v hv e he
      · first
        | exact hI.out_from _ (List.getElem_mem hgi) v (hsub hv) e he
        | exact hI.in_to _ (List.getElem_mem hgi) v (hsub hv) e he
  exact ⟨hI.of_edgesOf_eq hw (hedges _ hempty.2) (hedges _ hempty.1) (fun _ => rfl)
    (fun _ h => h) rfl le_rfl, hedges _ hempty.2⟩

/-! ## Adding an edge -/

end GddCtx

namespace GddGraph

variable {graph : GddGraph} {vid : DistributedTransactionId}

theorem id_getVert : (graph.getVert vid).id = graph.id := by
  unfold getVert
  split <;> rfl

theorem mem_getVert {vert' : GddVert} (h : vert' ∈ (graph.getVert vid).verts) :
    vert' ∈ graph.verts ∨ vert' = ⟨vid, [], []⟩ := by
  unfold getVert at h
  split at h
  · exact Or.inl h
  · simpa using h

theorem exists_mem_getVert (graph : GddGraph) (vid : DistributedTransactionId) :
    ∃ vert ∈ (graph.getVert vid).verts, vert.id = vid := by
  unfold getVert
  split
  · rename_i vert hget
    exact ⟨vert, ArrayMap.mem_of_get_eq_some hget⟩
  · exact ⟨⟨vid, [], []⟩, by simp, rfl⟩

theorem nodup_getVert (h : (graph.verts.map GddVert.id).Nodup) :
    ((graph.getVert vid).verts.map GddVert.id).Nodup := by
  unfold getVert
  split
  · exact h
  · rename_i hget
    rw [List.map_append, List.nodup_append]
    exact ⟨h, by simp, by simpa using fun v hv => ArrayMap.ne_of_get_eq_none hget hv⟩

theorem subset_getVert : graph.verts ⊆ (graph.getVert vid).verts := by
  unfold getVert
  split
  · exact List.Subset.refl _
  · exact List.subset_append_left _ _

theorem edgesOf_getVert {edges : GddVert → List GddEdge} (hnil : edges ⟨vid, [], []⟩ = []) :
    (graph.getVert vid).edgesOf edges = graph.edgesOf edges := by
  unfold getVert
  split
  · rfl
  · simp [edgesOf, hnil]

end GddGraph

namespace GddCtx

variable {ctx : GddCtx}

/-- Segment `segid` has a vert `vid`. -/
def HasVert (ctx : GddCtx) (segid : Int32) (vid : DistributedTransactionId) : Prop :=
  ∃ p ∈ ctx.shape, p.1 = segid ∧ vid ∈ p.2

theorem HasVert.exists {segid : Int32} {vid : DistributedTransactionId}
    (h : ctx.HasVert segid vid) :
    ∃ graph ∈ ctx.graphs, graph.id = segid ∧ ∃ vert ∈ graph.verts, vert.id = vid := by
  obtain ⟨p, hp, rfl, hv⟩ := h
  obtain ⟨graph, hgraph, rfl⟩ := List.mem_map.mp hp
  obtain ⟨vert, hvert, rfl⟩ := List.mem_map.mp hv
  exact ⟨graph, hgraph, rfl, vert, hvert, rfl⟩

theorem Inv.new : GddCtx.new.Inv := by
  -- no graph and no counter
  have hout : GddCtx.new.outEdges = 0 := rfl
  have hwaits : GddCtx.new.waitEdges = 0 := rfl
  have hglobal : ∀ vid, GddCtx.new.global vid = ⟨vid, 0, 0⟩ := fun _ => rfl
  have hgraphs : ∀ graph, graph ∉ GddCtx.new.graphs := fun _ h => by cases h
  refine ⟨⟨List.nodup_nil, fun g hg => absurd hg (hgraphs g), fun g hg => absurd hg (hgraphs g),
    fun g hg => absurd hg (hgraphs g)⟩, rfl, ?_, ?_, ?_, ?_, ?_, rfl, rfl⟩
  all_goals simp [hout, hwaits, hglobal, WaitEdge.inDeg, WaitEdge.outDeg]

theorem Inv.getGraph (hI : ctx.Inv) (segid : Int32) :
    (ctx.getGraph segid).Inv ∧ (ctx.getGraph segid).outEdges = ctx.outEdges ∧
      ∃ graph ∈ (ctx.getGraph segid).graphs, graph.id = segid := by
  unfold GddCtx.getGraph
  split
  · rename_i graph hget
    exact ⟨hI, rfl, graph, ArrayMap.mem_of_get_eq_some hget⟩
  · rename_i hget
    -- a new graph, with no vert
    have hedges : ∀ edges, ({ ctx with graphs := ctx.graphs ++ [⟨segid, []⟩] } : GddCtx).edgesOf
        edges = ctx.edgesOf edges := fun _ => by simp [edgesOf, GddGraph.edgesOf]
    have hw : ({ ctx with graphs := ctx.graphs ++ [⟨segid, []⟩] } : GddCtx).Wf := by
      refine ⟨?_, ?_, ?_, ?_⟩
      · rw [List.map_append, List.nodup_append]
        exact ⟨hI.graphs_nodup, by simp,
          by simpa using fun g hg => ArrayMap.ne_of_get_eq_none hget hg⟩
      all_goals
        intro g hg
        rcases List.mem_append.mp hg with hg | hg
        · first
          | exact hI.verts_nodup g hg
          | exact hI.out_from g hg
          | exact hI.in_to g hg
        · simp only [List.mem_singleton] at hg
          subst hg
          simp
    exact ⟨hI.of_edgesOf_eq hw (hedges _) (hedges _) (fun _ => rfl) (fun _ h => h) rfl le_rfl,
      hedges _, ⟨segid, []⟩, by simp, rfl⟩

/-- Changing the graph of `segid` into one with the same id and edges, keyed verts, and verts
that are old ones or have no edge keeps the invariant and the edges. -/
theorem Inv.updateGraph (hI : ctx.Inv) (segid : Int32) (F : GddGraph → GddGraph)
    (hid : ∀ graph, (F graph).id = graph.id)
    (hedges : ∀ graph, (F graph).edgesOf GddVert.edgesOut = graph.edgesOf GddVert.edgesOut ∧
      (F graph).edgesOf GddVert.edgesIn = graph.edgesOf GddVert.edgesIn)
    (hnodup : ∀ graph, (graph.verts.map GddVert.id).Nodup → ((F graph).verts.map GddVert.id).Nodup)
    (hverts : ∀ graph, ∀ vert ∈ (F graph).verts,
      vert ∈ graph.verts ∨ (vert.edgesIn = [] ∧ vert.edgesOut = [])) :
    ({ ctx with graphs := ArrayMap.update GddGraph.id ctx.graphs segid F } : GddCtx).Inv ∧
      ({ ctx with graphs := ArrayMap.update GddGraph.id ctx.graphs segid F } : GddCtx).outEdges =
        ctx.outEdges := by
  have hout : ({ ctx with graphs := ArrayMap.update GddGraph.id ctx.graphs segid F } : GddCtx).outEdges
      = ctx.outEdges := by
    rw [outEdges, edgesOf, ArrayMap.map_update_of_eq _ fun graph => (hedges graph).1]
    rfl
  have hin : ({ ctx with graphs := ArrayMap.update GddGraph.id ctx.graphs segid F } : GddCtx).inEdges
      = ctx.inEdges := by
    rw [inEdges, edgesOf, ArrayMap.map_update_of_eq _ fun graph => (hedges graph).2]
    rfl
  -- a graph after the change is an old one or the change of one
  have hmem : ∀ g ∈ ArrayMap.update GddGraph.id ctx.graphs segid F,
      ∃ graph ∈ ctx.graphs, graph = g ∨ F graph = g := by
    intro g hg
    obtain ⟨graph, hgraph, rfl⟩ := List.mem_map.mp hg
    exact ⟨graph, hgraph, by split_ifs <;> simp⟩
  have hw : ({ ctx with graphs := ArrayMap.update GddGraph.id ctx.graphs segid F } : GddCtx).Wf := by
    refine ⟨?_, ?_, ?_, ?_⟩
    · change ((ArrayMap.update GddGraph.id ctx.graphs segid F).map GddGraph.id).Nodup
      rw [ArrayMap.map_update_of_eq _ hid]
      exact hI.graphs_nodup
    · intro g hg
      obtain ⟨graph, hgraph, rfl | rfl⟩ := hmem g hg
      · exact hI.verts_nodup graph hgraph
      · exact hnodup graph (hI.verts_nodup graph hgraph)
    all_goals
      intro g hg vert hvert e he
      obtain ⟨graph, hgraph, rfl | rfl⟩ := hmem g hg
      · first
        | exact hI.out_from graph hgraph vert hvert e he
        | exact hI.in_to graph hgraph vert hvert e he
      · rcases hverts graph vert hvert with hold | ⟨hnilIn, hnilOut⟩
        · first
          | exact hI.out_from graph hgraph vert hold e he
          | exact hI.in_to graph hgraph vert hold e he
        · simp [hnilIn, hnilOut] at he
  exact ⟨hI.of_edgesOf_eq hw hout hin (fun _ => rfl) (fun _ h => h) rfl le_rfl, hout⟩

/-- After the graph of `segid` has been changed by `F`, segment `segid` has the verts that `F`
gives it. -/
theorem hasVert_update {segid : Int32} {F : GddGraph → GddGraph}
    (hid : ∀ graph, (F graph).id = graph.id) {graph : GddGraph} (hgraph : graph ∈ ctx.graphs)
    (hgid : graph.id = segid) {vid : DistributedTransactionId}
    (hvid : vid ∈ (F graph).verts.map GddVert.id) :
    ({ ctx with graphs := ArrayMap.update GddGraph.id ctx.graphs segid F } : GddCtx).HasVert
      segid vid := by
  refine ⟨((F graph).id, (F graph).verts.map GddVert.id), ?_, by rw [hid, hgid], hvid⟩
  exact List.mem_map.mpr ⟨F graph, List.mem_map.mpr ⟨graph, hgraph, by simp [hgid]⟩, rfl⟩

section GetGlobalStat

variable {vid : DistributedTransactionId}

theorem getGlobalStat_eq (ctx : GddCtx) (vid : DistributedTransactionId) :
    ∃ globals, ctx.getGlobalStat vid = { ctx with globals := globals } := by
  unfold GddCtx.getGlobalStat
  split
  · exact ⟨ctx.globals, rfl⟩
  · exact ⟨_, rfl⟩

theorem global_getGlobalStat (vid' : DistributedTransactionId) :
    (ctx.getGlobalStat vid).global vid' = ctx.global vid' := by
  unfold GddCtx.getGlobalStat
  split
  · rfl
  · rename_i hget
    simp only [global]
    rw [ArrayMap.get_append_of_get_eq_none (a := (⟨vid, 0, 0⟩ : GddStat)) hget]
    split_ifs with h
    · subst h
      simp [hget]
    · rfl

theorem isSome_getGlobalStat (vid' : DistributedTransactionId) :
    (ArrayMap.get GddStat.id (ctx.getGlobalStat vid).globals vid').isSome = true ↔
      vid' = vid ∨ (ArrayMap.get GddStat.id ctx.globals vid').isSome = true := by
  unfold GddCtx.getGlobalStat
  split
  · rename_i st hget
    by_cases h : vid' = vid
    · subst h
      simp [hget]
    · simp [h]
  · rename_i hget
    simp only
    rw [ArrayMap.get_append_of_get_eq_none (a := (⟨vid, 0, 0⟩ : GddStat)) hget]
    split_ifs with h
    · subst h
      simp
    · simp [h]

theorem Inv.getGlobalStat (hI : ctx.Inv) (vid : DistributedTransactionId) :
    (ctx.getGlobalStat vid).Inv ∧
    (ctx.getGlobalStat vid).outEdges = ctx.outEdges ∧
    (ArrayMap.get GddStat.id (ctx.getGlobalStat vid).globals vid).isSome := by
  obtain ⟨globals, heq⟩ := getGlobalStat_eq ctx vid
  have hout : (ctx.getGlobalStat vid).outEdges = ctx.outEdges := by rw [heq]; rfl
  have hin : (ctx.getGlobalStat vid).inEdges = ctx.inEdges := by rw [heq]; rfl
  refine ⟨hI.of_edgesOf_eq (hI.toWf.of_graphs_eq (by rw [heq])) hout hin global_getGlobalStat
    (fun vid' h => ?_) (by rw [heq]) (by rw [heq]), hout, ?_⟩
  · exact (isSome_getGlobalStat vid').mpr (Or.inr h)
  · exact (isSome_getGlobalStat vid).mpr (Or.inl rfl)

end GetGlobalStat

/-- The out edge list with `edge` appended. -/
def appendOut (edge : GddEdge) (vert : GddVert) : GddVert :=
  { vert with edgesOut := vert.edgesOut ++ [edge] }

/-- The in edge list with `edge` appended. -/
def appendIn (edge : GddEdge) (vert : GddVert) : GddVert :=
  { vert with edgesIn := vert.edgesIn ++ [edge] }

/-- `global->outdeg++`. -/
def incOutdeg (global : GddStat) : GddStat := { global with outdeg := global.outdeg + 1 }

/-- `global->indeg++`. -/
def incIndeg (global : GddStat) : GddStat := { global with indeg := global.indeg + 1 }

theorem edgeLink_eq (segid : Int32) (edge : GddEdge) :
    ctx.edgeLink segid edge =
      { topstat := { ctx.topstat with
          indeg := ctx.topstat.indeg + 1
          outdeg := ctx.topstat.outdeg + 1 }
        globals := ((ctx.updateGlobal edge.fromVid incOutdeg).updateGlobal edge.toVid
          incIndeg).globals
        graphs := ((ctx.updateVert segid edge.fromVid (appendOut edge)).updateVert segid
          edge.toVid (appendIn edge)).graphs
        allocated := ctx.allocated } := rfl

theorem HasVert.of_shape_eq {ctx' : GddCtx} {segid : Int32} {vid : DistributedTransactionId}
    (h : ctx.HasVert segid vid) (hs : ctx'.shape = ctx.shape) : ctx'.HasVert segid vid := by
  unfold HasVert
  rw [hs]
  exact h

theorem coe_map_append_singleton (l : List GddEdge) (edge : GddEdge) (segid : Int32) :
    (((l ++ [edge]).map (segid, ·) : List _) : Multiset (Int32 × GddEdge)) =
      (segid, edge) ::ₘ ((l.map (segid, ·) : List _) : Multiset _) := by
  rw [Multiset.cons_coe, Multiset.coe_eq_coe, List.map_append, List.map_singleton]
  exact List.perm_append_singleton _ _

/-- Appending `edge` to a list of a vert of segment `segid` adds it to that list of the graph
and leaves the other list as it is. -/
theorem edgesOf_updateVert_append (edges other : GddVert → List GddEdge) {f : GddVert → GddVert}
    (hw : ctx.Wf) {segid : Int32} {vid : DistributedTransactionId} (hv : ctx.HasVert segid vid)
    {edge : GddEdge}
    (hf : ∀ vert, edges (f vert) = edges vert ++ [edge] ∧ other (f vert) = other vert ∧
      (f vert).id = vert.id) :
    (ctx.updateVert segid vid f).edgesOf edges = (segid, edge) ::ₘ ctx.edgesOf edges ∧
      (ctx.updateVert segid vid f).edgesOf other = ctx.edgesOf other := by
  obtain ⟨graph, hgraph, hgid, vert, hvert, hvid⟩ := hv.exists
  have hedges := edgesOf_updateVert edges (f := f) hw hgraph hgid hvert hvid
  have hother := edgesOf_updateVert other (f := f) hw hgraph hgid hvert hvid
  rw [(hf vert).1, coe_map_append_singleton, Multiset.add_cons, ← Multiset.cons_add] at hedges
  rw [(hf vert).2.1] at hother
  exact ⟨add_right_cancel hedges, add_right_cancel hother⟩

/-- **Linking an edge keeps the invariant** and adds its wait, when its ends are verts of the
segment with counters and it is newer than every edge there is. -/
theorem Inv.edgeLink (hI : ctx.Inv) (segid : Int32) (edge : GddEdge)
    (hfrom : ctx.HasVert segid edge.fromVid) (hto : ctx.HasVert segid edge.toVid)
    (hgfrom : (ArrayMap.get GddStat.id ctx.globals edge.fromVid).isSome)
    (hgto : (ArrayMap.get GddStat.id ctx.globals edge.toVid).isSome)
    (hfresh : ∀ p ∈ ctx.outEdges, p.2.ptr < edge.ptr) (hptr : edge.ptr < ctx.allocated) :
    (ctx.edgeLink segid edge).Inv ∧
      (ctx.edgeLink segid edge).waitEdges = edge.waitEdge segid ::ₘ ctx.waitEdges := by
  -- the out list of the from vert, then the in list of the to vert
  obtain ⟨hout1, hin1⟩ := edgesOf_updateVert_append GddVert.edgesOut GddVert.edgesIn
    (f := appendOut edge) hI.toWf hfrom fun _ => ⟨rfl, rfl, rfl⟩
  have hshape1 : (ctx.updateVert segid edge.fromVid (appendOut edge)).shape = ctx.shape :=
    shape_updateVert fun _ => rfl
  have hw1 : (ctx.updateVert segid edge.fromVid (appendOut edge)).Wf :=
    hI.toWf.of_shape_eq hshape1
      (hI.out_from.updateVert (f := appendOut edge) (fun _ => rfl) fun _ _ e h => by
        rcases List.mem_append.mp h with h | h
        · exact Or.inl h
        · exact Or.inr (by simp at h; rw [h]))
      (hI.in_to.updateVert (f := appendOut edge) (fun _ => rfl) fun _ _ _ h => Or.inl h)
  obtain ⟨hin2, hout2⟩ := edgesOf_updateVert_append GddVert.edgesIn GddVert.edgesOut
    (f := appendIn edge) hw1 (hto.of_shape_eq hshape1) fun _ => ⟨rfl, rfl, rfl⟩
  have hw2 : ((ctx.updateVert segid edge.fromVid (appendOut edge)).updateVert segid edge.toVid
      (appendIn edge)).Wf :=
    hw1.of_shape_eq (shape_updateVert fun _ => rfl)
      (hw1.out_from.updateVert (f := appendIn edge) (fun _ => rfl) fun _ _ _ h => Or.inl h)
      (hw1.in_to.updateVert (f := appendIn edge) (fun _ => rfl) fun _ _ e h => by
        rcases List.mem_append.mp h with h | h
        · exact Or.inl h
        · exact Or.inr (by simp at h; rw [h]))
  have hout : (ctx.edgeLink segid edge).outEdges = (segid, edge) ::ₘ ctx.outEdges := by
    rw [edgeLink_eq]
    exact hout2.trans hout1
  have hin : (ctx.edgeLink segid edge).inEdges = (segid, edge) ::ₘ ctx.inEdges := by
    rw [edgeLink_eq]
    exact hin2.trans (congrArg _ hin1)
  have hwaits : (ctx.edgeLink segid edge).waitEdges = edge.waitEdge segid ::ₘ ctx.waitEdges := by
    rw [waitEdges, waitEdges, hout, Multiset.map_cons]
  have hcover : ∀ vid, (ArrayMap.get GddStat.id ctx.globals vid).isSome →
      (ArrayMap.get GddStat.id (ctx.edgeLink segid edge).globals vid).isSome := fun vid h => by
    rw [edgeLink_eq]
    exact ((isSome_updateGlobal (g := incIndeg) (fun _ => rfl) vid).trans
      (isSome_updateGlobal (g := incOutdeg) (fun _ => rfl) vid)).trans h
  have hto' : (ArrayMap.get GddStat.id (ctx.updateGlobal edge.fromVid incOutdeg).globals
      edge.toVid).isSome := (isSome_updateGlobal (g := incOutdeg) (fun _ => rfl) edge.toVid).trans hgto
  -- the counters of the two ends go up by one
  have hglobal : ∀ vid, ((ctx.edgeLink segid edge).global vid).indeg =
        (ctx.global vid).indeg + (if vid = edge.toVid then 1 else 0) ∧
      ((ctx.edgeLink segid edge).global vid).outdeg =
        (ctx.global vid).outdeg + (if vid = edge.fromVid then 1 else 0) := fun vid => by
    rw [edgeLink_eq]
    change (((ctx.updateGlobal edge.fromVid incOutdeg).updateGlobal edge.toVid incIndeg).global
      vid).indeg = _ ∧ (((ctx.updateGlobal edge.fromVid incOutdeg).updateGlobal edge.toVid
      incIndeg).global vid).outdeg = _
    rw [global_updateGlobal (g := incIndeg) (fun _ => rfl) hto',
      global_updateGlobal (g := incOutdeg) (fun _ => rfl) hgfrom,
      global_updateGlobal (g := incOutdeg) (fun _ => rfl) hgfrom]
    by_cases hvt : vid = edge.toVid <;> by_cases hvf : vid = edge.fromVid <;>
      simp [hvt, hvf, incIndeg, incOutdeg] <;> subst_vars <;> simp_all
  refine ⟨⟨hw2.of_graphs_eq (by rw [edgeLink_eq]), ?_, ?_, ?_, ?_, ?_, ?_, ?_, ?_⟩, hwaits⟩
  · rw [hin, hout, hI.in_eq_out]
  · rw [hout, Multiset.nodup_cons]
    exact ⟨fun h => (hfresh _ h).false, hI.out_nodup⟩
  · rw [hout]
    intro p hp
    rcases Multiset.mem_cons.mp hp with rfl | hp
    · exact hptr
    · exact hI.ptr_lt p hp
  · rw [hout]
    intro p hp
    rcases Multiset.mem_cons.mp hp with rfl | hp
    · exact ⟨hcover _ hgfrom, hcover _ hgto⟩
    · exact (hI.globals_cover p hp).imp (hcover _) (hcover _)
  · intro vid
    rw [(hglobal vid).1, hI.global_indeg, hwaits, WaitEdge.inDeg, WaitEdge.inDeg,
      Multiset.countP_cons]
    by_cases hv : vid = edge.toVid <;> simp [hv, GddEdge.waitEdge, eq_comm]
  · intro vid
    rw [(hglobal vid).2, hI.global_outdeg, hwaits, WaitEdge.outDeg, WaitEdge.outDeg,
      Multiset.countP_cons]
    by_cases hv : vid = edge.fromVid <;> simp [hv, GddEdge.waitEdge, eq_comm]
  · change ctx.topstat.indeg + 1 = _
    rw [hI.top_indeg, hout, Multiset.card_cons]
    push_cast
    rfl
  · change ctx.topstat.outdeg + 1 = _
    rw [hI.top_outdeg, hout, Multiset.card_cons]
    push_cast
    rfl

theorem shape_getGlobalStat {vid : DistributedTransactionId} :
    (ctx.getGlobalStat vid).shape = ctx.shape := by
  obtain ⟨globals, heq⟩ := getGlobalStat_eq ctx vid
  rw [heq]
  rfl

theorem allocated_getGlobalStat {vid : DistributedTransactionId} :
    (ctx.getGlobalStat vid).allocated = ctx.allocated := by
  obtain ⟨globals, heq⟩ := getGlobalStat_eq ctx vid
  rw [heq]

/-- **Adding an edge keeps the invariant** and adds its wait. -/
theorem Inv.addEdge (hI : ctx.Inv) (segid : Int32) (fromVid toVid : DistributedTransactionId)
    (solid : Bool) :
    (ctx.addEdge segid fromVid toVid solid).Inv ∧
      (ctx.addEdge segid fromVid toVid solid).waitEdges =
        ⟨segid, fromVid, toVid, solid⟩ ::ₘ ctx.waitEdges := by
  obtain ⟨hI1, hout1, graph, hgraph, hgid⟩ := hI.getGraph segid
  -- `gddGraphMakeEdge`: the two verts
  let F : GddGraph → GddGraph := fun graph => (graph.getVert fromVid).getVert toVid
  have hid : ∀ graph, (F graph).id = graph.id :=
    fun _ => GddGraph.id_getVert.trans GddGraph.id_getVert
  obtain ⟨hI2, hout2⟩ := hI1.updateGraph segid F hid
    (fun _ => ⟨(GddGraph.edgesOf_getVert rfl).trans (GddGraph.edgesOf_getVert rfl),
      (GddGraph.edgesOf_getVert rfl).trans (GddGraph.edgesOf_getVert rfl)⟩)
    (fun _ h => GddGraph.nodup_getVert (GddGraph.nodup_getVert h))
    (fun _ vert hvert => by
      rcases GddGraph.mem_getVert hvert with hvert | rfl
      · rcases GddGraph.mem_getVert hvert with hvert | rfl
        · exact Or.inl hvert
        · exact Or.inr ⟨rfl, rfl⟩
      · exact Or.inr ⟨rfl, rfl⟩)
  set ctx2 : GddCtx := { ctx.getGraph segid with
    graphs := ArrayMap.update GddGraph.id (ctx.getGraph segid).graphs segid F } with hctx2
  have hfrom2 : ctx2.HasVert segid fromVid := by
    obtain ⟨vert, hvert, hvid⟩ := GddGraph.exists_mem_getVert graph fromVid
    exact hasVert_update hid hgraph hgid
      (List.mem_map.mpr ⟨vert, GddGraph.subset_getVert hvert, hvid⟩)
  have hto2 : ctx2.HasVert segid toVid := by
    obtain ⟨vert, hvert, hvid⟩ :=
      GddGraph.exists_mem_getVert (graph.getVert fromVid) toVid
    exact hasVert_update hid hgraph hgid (List.mem_map.mpr ⟨vert, hvert, hvid⟩)
  -- the new edge, then counters for its ends
  set ctx3 : GddCtx := { ctx2 with allocated := ctx2.allocated + 1 } with hctx3
  have hI3 : ctx3.Inv := hI2.of_edgesOf_eq (hI2.toWf.of_graphs_eq rfl) rfl rfl (fun _ => rfl)
    (fun _ h => h) rfl (Nat.le_succ _)
  obtain ⟨hI4a, hout4a, hga⟩ := hI3.getGlobalStat fromVid
  obtain ⟨hI4, hout4, hgb⟩ := hI4a.getGlobalStat toVid
  have hshape : ((ctx3.getGlobalStat fromVid).getGlobalStat toVid).shape = ctx2.shape :=
    shape_getGlobalStat.trans shape_getGlobalStat
  have halloc : ((ctx3.getGlobalStat fromVid).getGlobalStat toVid).allocated =
      ctx2.allocated + 1 := allocated_getGlobalStat.trans allocated_getGlobalStat
  have hout : ((ctx3.getGlobalStat fromVid).getGlobalStat toVid).outEdges = ctx.outEdges :=
    hout4.trans (hout4a.trans (hout2.trans hout1))
  obtain ⟨hI5, hwaits⟩ := hI4.edgeLink segid ⟨ctx2.allocated, solid, fromVid, toVid⟩
    (hfrom2.of_shape_eq hshape) (hto2.of_shape_eq hshape)
    ((isSome_getGlobalStat fromVid).mpr (Or.inr hga)) hgb
    (fun p hp => hI2.ptr_lt p (by rwa [hout, ← hout1, ← hout2] at hp))
    (by rw [halloc]; exact Nat.lt_succ_self _)
  refine ⟨hI5, hwaits.trans ?_⟩
  rw [waitEdges, hout]
  rfl

/-- The detector loaded with `edges`, added with `GddCtxAddEdge` in the order of the list. -/
def loadEdges (edges : List WaitEdge) : GddCtx :=
  edges.foldl (fun ctx e => ctx.addEdge e.segid e.waiter e.holder e.solid) GddCtx.new

/-- Loading a list of edges, in any order, gives the detector its waits. -/
theorem inv_loadEdges (edges : List WaitEdge) :
    (loadEdges edges).Inv ∧ (loadEdges edges).waitEdges = edges := by
  -- the fold from any context with the invariant adds the list's waits to its own
  have hfold : ∀ (l : List WaitEdge) (ctx : GddCtx), ctx.Inv →
      (l.foldl (fun ctx e => ctx.addEdge e.segid e.waiter e.holder e.solid) ctx).Inv ∧
      (l.foldl (fun ctx e => ctx.addEdge e.segid e.waiter e.holder e.solid) ctx).waitEdges =
        ctx.waitEdges + l := by
    intro l
    induction l with
    | nil => exact fun ctx hI => ⟨hI, by simp⟩
    | cons e l ih =>
      intro ctx hI
      obtain ⟨hI', hwaits⟩ := hI.addEdge e.segid e.waiter e.holder e.solid
      obtain ⟨hI'', hwaits'⟩ := ih _ hI'
      refine ⟨hI'', ?_⟩
      rw [List.foldl_cons, hwaits', hwaits, ← Multiset.cons_coe, Multiset.add_cons,
        Multiset.cons_add]
  obtain ⟨hI, hwaits⟩ := hfold edges GddCtx.new Inv.new
  exact ⟨hI, hwaits.trans (zero_add _)⟩

end GddCtx

end Cloudberry.Gdd
