import Cloudberry.Gdd.Invariant

/-!
# `GddCtxReduce` computes the greatest set of waits that the rules keep

Every edge that `gddVertReduce` unlinks is refused by the rules in the waits left when it is
unlinked (`Inv.vertReduce`), so a run of the reduction is a run of deletions of refused waits and
stays above the greatest set of waits that the rules keep (`Prune.Prunes.greatest_le`). A pass that
deletes nothing has visited every vert, the one that each deletion moves into a freed slot
included, and found each of them as `gddVertReduce` leaves it alone (`VertClean`); the rules then
keep every wait (`Inv.stable_of_allClean`). Each other pass deletes an edge, so the passes stop
(`Inv.reduceLoop`).

* `Inv.reduce`: `GddCtxReduce` ends, with the greatest set of waits that the rules keep;
* `reduce_eq_greatest`: so the waits left, and `GddCtxEmpty`, do not depend on the order in which
  the edges were added;
* `reduce_sound_complete`: an acyclic wait graph reduces to nothing, and a cycle of solid waits
  survives.
-/

namespace Cloudberry.Gdd

namespace GddCtx

open WaitEdge

variable {ctx : GddCtx}

/-- What a step of the reduction does: it keeps the invariant and the maps' keys and deletes only
waits that the rules refuse; when it says it is dirty it has deleted an edge, and otherwise it has
changed nothing. -/
structure ReduceStep (ctx ctx' : GddCtx) (dirty : Bool) : Prop where
  inv : ctx'.Inv
  prunes : Prune.Prunes keepRule ctx.waitEdges ctx'.waitEdges
  shape_eq : ctx'.shape = ctx.shape
  card_lt : dirty = true → Multiset.card ctx'.outEdges < Multiset.card ctx.outEdges
  eq_of_clean : dirty = false → ctx' = ctx

theorem card_waitEdges (ctx : GddCtx) : Multiset.card ctx.waitEdges = Multiset.card ctx.outEdges :=
  Multiset.card_map _ _

theorem ReduceStep.card_le {ctx' : GddCtx} {dirty : Bool} (h : ReduceStep ctx ctx' dirty) :
    Multiset.card ctx'.outEdges ≤ Multiset.card ctx.outEdges := by
  rw [← card_waitEdges, ← card_waitEdges]
  exact Multiset.card_le_card h.prunes.le

theorem ReduceStep.refl (hI : ctx.Inv) : ReduceStep ctx ctx false :=
  ⟨hI, Relation.ReflTransGen.refl, rfl, fun h => absurd h Bool.false_ne_true, fun _ => rfl⟩

theorem ReduceStep.trans {ctx₁ ctx₂ : GddCtx} {d₁ d₂ : Bool} (h₁ : ReduceStep ctx ctx₁ d₁)
    (h₂ : ReduceStep ctx₁ ctx₂ d₂) : ReduceStep ctx ctx₂ (d₁ || d₂) where
  inv := h₂.inv
  prunes := h₁.prunes.trans h₂.prunes
  shape_eq := h₂.shape_eq.trans h₁.shape_eq
  card_lt := by
    intro hd
    rcases Bool.or_eq_true_iff.mp hd with hd | hd
    · exact (h₂.card_le).trans_lt (h₁.card_lt hd)
    · exact (h₂.card_lt hd).trans_le h₁.card_le
  eq_of_clean := by
    intro hd
    rw [Bool.or_eq_false_iff] at hd
    rw [h₂.eq_of_clean hd.2, h₁.eq_of_clean hd.1]

/-! ## Unlinking edges the rules refuse -/

/-- Unlinking, one after the other, edges of segment `segid` that the rules refuse in every part
of the waits where `P` holds, when `P` holds of the waits there are. -/
theorem Inv.foldl_edgeUnlink {segid : Int32} (P : Multiset WaitEdge → Prop)
    (hanti : ∀ {F G : Multiset WaitEdge}, G ≤ F → P F → P G)
    {L : List GddEdge} (hrefuse : ∀ edge ∈ L, ∀ F, P F → ¬ Keep F (edge.waitEdge segid)) :
    ∀ {ctx ctx' : GddCtx}, ctx.Inv → L.Nodup → (∀ edge ∈ L, (segid, edge) ∈ ctx.outEdges) →
      P ctx.waitEdges → L.foldl (fun ctx edge => ctx.edgeUnlink segid edge) ctx = ctx' →
      ReduceStep ctx ctx' !L.isEmpty := by
  induction L with
  | nil =>
    intro ctx ctx' hI _ _ _ h
    rw [← h]
    exact ReduceStep.refl hI
  | cons edge L ih =>
    intro ctx ctx' hI hL hmem hP h
    rw [List.nodup_cons] at hL
    have he := hmem edge List.mem_cons_self
    obtain ⟨hI1, hshape1, hout1⟩ := hI.edgeUnlink he
    have hwaits := hI.waitEdges_edgeUnlink he
    -- the first unlink deletes one refused wait
    have hstep : ReduceStep ctx (ctx.edgeUnlink segid edge) true := by
      refine ⟨hI1, ?_, hshape1, fun _ => ?_, fun h => by cases h⟩
      · have hrefused := hrefuse edge List.mem_cons_self _ hP
        rw [hwaits] at hrefused ⊢
        simpa using Prune.Prunes.erase (Multiset.mem_cons_self _ _) hrefused
      · rw [hout1, Multiset.card_erase_of_mem he]
        exact Nat.pred_lt (Multiset.card_pos_iff_exists_mem.mpr ⟨_, he⟩).ne'
    have hrest := ih (fun e he => hrefuse e (List.mem_cons_of_mem _ he)) hI1 hL.2
      (fun e he' => by
        rw [hout1]
        exact Multiset.mem_erase_of_ne (fun h => hL.1 (by cases h; exact he')) |>.mpr
          (hmem e (List.mem_cons_of_mem _ he')))
      (hanti hstep.prunes.le hP) h
    simpa using hstep.trans hrest

/-! ## `gddVertReduce` -/

/-- Rules 1 and 2: unlinking all the edges of a vert with no global in or no global out wait. -/
theorem Inv.vertUnlinkAll (hI : ctx.Inv) (segid : Int32) (vid : DistributedTransactionId)
    (hzero : inDeg ctx.waitEdges vid = 0 ∨ outDeg ctx.waitEdges vid = 0) :
    ReduceStep ctx (ctx.vertUnlinkAll segid vid).1 (ctx.vertUnlinkAll segid vid).2 := by
  let P : Multiset WaitEdge → Prop := fun F => inDeg F vid = 0 ∨ outDeg F vid = 0
  have hanti : ∀ {F G : Multiset WaitEdge}, G ≤ F → P F → P G := fun hle hP =>
    hP.imp (fun h => Nat.eq_zero_of_le_zero ((inDeg_mono hle vid).trans h.le))
      (fun h => Nat.eq_zero_of_le_zero ((outDeg_mono hle vid).trans h.le))
  -- rules 1 and 2 refuse every wait with an end at `vid`
  have hrefuse : ∀ edge : GddEdge, edge.toVid = vid ∨ edge.fromVid = vid →
      ∀ F, P F → ¬ Keep F (edge.waitEdge segid) := by
    rintro edge hend F hP ⟨hwi, hwo, hhi, hho, -⟩
    simp only [GddEdge.waitEdge] at hwi hwo hhi hho
    rcases hend with rfl | rfl <;> rcases hP with hP | hP <;> omega
  -- the in edges first, then the out edges left
  have hstep1 := hI.foldl_edgeUnlink P hanti (L := (ctx.vert segid vid).edgesIn)
    (fun edge he => hrefuse edge (Or.inl (hI.mem_of_mem_edgesIn he).2))
    (hI.nodup_edgesIn segid vid) (fun edge he => (hI.mem_of_mem_edgesIn he).1) hzero rfl
  set ctx1 := (ctx.vert segid vid).edgesIn.foldl (fun ctx edge => ctx.edgeUnlink segid edge) ctx
  have hI1 : ctx1.Inv := hstep1.inv
  have hstep2 := hI1.foldl_edgeUnlink P hanti (L := (ctx1.vert segid vid).edgesOut)
    (fun edge he => hrefuse edge (Or.inr (hI1.mem_of_mem_edgesOut he).2))
    (hI1.nodup_edgesOut segid vid) (fun edge he => (hI1.mem_of_mem_edgesOut he).1)
    (hanti hstep1.prunes.le hzero) rfl
  have heq : ctx.vertUnlinkAll segid vid =
      ((ctx1.vert segid vid).edgesOut.foldl (fun ctx edge => ctx.edgeUnlink segid edge) ctx1,
        !(ctx.vert segid vid).edgesIn.isEmpty || !(ctx1.vert segid vid).edgesOut.isEmpty) := rfl
  rw [heq]
  exact hstep1.trans hstep2

theorem any_eq_not_isEmpty_filter {α : Type*} (L : List α) (p : α → Bool) :
    L.any p = !(L.filter p).isEmpty := by
  induction L with
  | nil => rfl
  | cons a L ih => cases h : p a <;> simp [h, ih]

/-- `List.foldl` over the edges that pass a test is the fold that skips the others. -/
theorem foldl_if_solid (segid : Int32) (L : List GddEdge) (ctx : GddCtx) :
    L.foldl (fun ctx edge => if edge.solid then ctx else ctx.edgeUnlink segid edge) ctx =
      (L.filter fun edge => !edge.solid).foldl (fun ctx edge => ctx.edgeUnlink segid edge) ctx := by
  rw [List.foldl_filter]
  congr
  funext c edge
  cases edge.solid <;> rfl

/-- Rule 3: unlinking the dotted in edges of a vert with no out edge on its segment. -/
theorem Inv.unlinkDotted (hI : ctx.Inv) (segid : Int32) (vid : DistributedTransactionId)
    (hlocal : (ctx.vert segid vid).edgesOut.length = 0) :
    ReduceStep ctx ((ctx.vert segid vid).edgesIn.foldl
        (fun ctx edge => if edge.solid then ctx else ctx.edgeUnlink segid edge) ctx)
      ((ctx.vert segid vid).edgesIn.any fun edge => !edge.solid) := by
  let P : Multiset WaitEdge → Prop := fun F => localOutDeg F segid vid = 0
  have hanti : ∀ {F G : Multiset WaitEdge}, G ≤ F → P F → P G := fun hle hP =>
    Nat.eq_zero_of_le_zero (hP ▸ Multiset.countP_le_of_le _ hle)
  -- `vid` waits for nothing on `segid`: its out edges there are its local out edges
  have hP : P ctx.waitEdges := by
    refine Multiset.countP_eq_zero.mpr fun w hw hloc => ?_
    obtain ⟨⟨s, edge⟩, hp, rfl⟩ := Multiset.mem_map.mp hw
    obtain ⟨hs, hfrom⟩ := hloc
    obtain ⟨graph, -, vert, -, -, -, hvert, hedge⟩ := hI.toWf.mem_edgesOf hI.out_from hp
    simp only [GddEdge.waitEdge] at hs hfrom
    subst hs hfrom
    rw [hvert, List.length_eq_zero_iff] at hlocal
    simp [hlocal] at hedge
  have hstep := hI.foldl_edgeUnlink P hanti
    (L := (ctx.vert segid vid).edgesIn.filter fun edge => !edge.solid)
    (fun edge he F hP' hkeep => by
      -- rule 3 refuses a dotted wait for `vid`
      obtain ⟨he, hdotted⟩ := List.mem_filter.mp he
      have hto := (hI.mem_of_mem_edgesIn he).2
      simp only [Bool.not_eq_eq_eq_not, Bool.not_true] at hdotted
      have hloc := hkeep.2.2.2.2 hdotted
      simp only [GddEdge.waitEdge, hto] at hloc
      exact absurd hP' hloc.ne')
    ((hI.nodup_edgesIn segid vid).filter _)
    (fun edge he => (hI.mem_of_mem_edgesIn (List.mem_filter.mp he).1).1) hP rfl
  rw [foldl_if_solid, any_eq_not_isEmpty_filter]
  exact hstep

/-- **`gddVertReduce` is a step of the reduction.** -/
theorem Inv.vertReduce (hI : ctx.Inv) (segid : Int32) (vid : DistributedTransactionId) :
    ReduceStep ctx (ctx.vertReduce segid vid).1 (ctx.vertReduce segid vid).2 := by
  dsimp only [GddCtx.vertReduce]
  split_ifs with hzero hlocal
  · -- rules 1 and 2: the counters are the degrees
    refine hI.vertUnlinkAll segid vid ?_
    rw [hI.global_indeg, hI.global_outdeg] at hzero
    exact hzero.imp (fun h => by exact_mod_cast h) (fun h => by exact_mod_cast h)
  · exact hI.unlinkDotted segid vid hlocal
  · exact ReduceStep.refl hI

/-- A vert that `gddVertReduce` leaves alone: if it has an edge, its global in and out degrees are
not 0, and if it has no local out edge, its in edges are solid. -/
def VertClean (global : GddStat) (vert : GddVert) : Prop :=
  (vert.edgesIn ≠ [] ∨ vert.edgesOut ≠ [] → global.indeg ≠ 0 ∧ global.outdeg ≠ 0) ∧
    (vert.edgesOut = [] → ∀ edge ∈ vert.edgesIn, edge.solid = true)

/-- A vert on which `gddVertReduce` finds nothing to do is clean. -/
theorem vertClean_of_vertReduce {segid : Int32} {vid : DistributedTransactionId}
    (h : (ctx.vertReduce segid vid).2 = false) : VertClean (ctx.global vid) (ctx.vert segid vid) := by
  dsimp only [GddCtx.vertReduce] at h
  split_ifs at h with hzero hlocal
  · -- rules 1 and 2 found no edge to unlink
    simp only [vertUnlinkAll, Bool.or_eq_false_iff, Bool.not_eq_false', List.isEmpty_iff] at h
    obtain ⟨hin, hout⟩ := h
    rw [hin, List.foldl_nil] at hout
    exact ⟨fun h => by simp [hin, hout] at h, fun _ e he => by simp [hin] at he⟩
  · -- rule 3 found no dotted in edge
    refine ⟨fun _ => not_or.mp hzero, fun _ edge he => ?_⟩
    simpa using List.any_eq_false.mp h edge he
  · exact ⟨fun _ => not_or.mp hzero, fun h => absurd (by simp [h]) hlocal⟩

/-- Every vert of every graph is as `gddVertReduce` leaves it. -/
def AllClean (ctx : GddCtx) : Prop :=
  ∀ graph ∈ ctx.graphs, ∀ vert ∈ graph.verts, VertClean (ctx.global vert.id) vert

/-- **When every vert is clean, the rules keep every wait.** The waiter of a wait has an out edge,
so its global degrees are not 0; so has the holder, which has an in edge, and a dotted wait's holder
has an out edge on the wait's segment. -/
theorem Inv.stable_of_allClean (hI : ctx.Inv) (hclean : ctx.AllClean) :
    Prune.Stable keepRule ctx.waitEdges := by
  intro w hw
  obtain ⟨⟨s, edge⟩, hp, rfl⟩ := Multiset.mem_map.mp hw
  obtain ⟨ga, hga, va, hva, -, hvaid, -, hea⟩ := hI.toWf.mem_edgesOf hI.out_from hp
  obtain ⟨gb, hgb, vb, hvb, hgbid, hvbid, -, heb⟩ :=
    hI.toWf.mem_edgesOf hI.in_to (hI.in_eq_out ▸ hp : (s, edge) ∈ ctx.inEdges)
  have hcleanA := hclean ga hga va hva
  have hcleanB := hclean gb hgb vb hvb
  rw [hvaid] at hcleanA
  rw [hvbid] at hcleanB
  -- the global counters of the ends are their degrees in the waits
  have hfrom := hcleanA.1 (Or.inr (List.ne_nil_of_mem hea))
  have hto := hcleanB.1 (Or.inl (List.ne_nil_of_mem heb))
  rw [hI.global_indeg, hI.global_outdeg] at hfrom hto
  have hself : 0 < outDeg ctx.waitEdges edge.fromVid ∧ 0 < inDeg ctx.waitEdges edge.toVid :=
    ⟨Multiset.countP_pos.mpr ⟨_, hw, rfl⟩, Multiset.countP_pos.mpr ⟨_, hw, rfl⟩⟩
  refine ⟨Nat.pos_of_ne_zero (by exact_mod_cast hfrom.1), hself.1, hself.2,
    Nat.pos_of_ne_zero (by exact_mod_cast hto.2), fun hdotted => ?_⟩
  -- a dotted wait's holder has an out edge on its segment
  obtain ⟨edge', he'⟩ : ∃ edge', edge' ∈ vb.edgesOut := by
    by_contra hnone
    push Not at hnone
    have hsolid := hcleanB.2 (List.eq_nil_iff_forall_not_mem.mpr hnone) edge heb
    have hdotted' : edge.solid = false := hdotted
    rw [hdotted'] at hsolid
    exact Bool.false_ne_true hsolid
  have hp' : (s, edge') ∈ ctx.outEdges := mem_edgesOf.mpr ⟨gb, hgb, vb, hvb, hgbid.symm, he'⟩
  have hfrom' : edge'.fromVid = vb.id := hI.out_from gb hgb vb hvb edge' he'
  exact Multiset.countP_pos.mpr ⟨edge'.waitEdge s, Multiset.mem_map_of_mem _ hp',
    ⟨rfl, by simp [GddEdge.waitEdge, hfrom', hvbid]⟩⟩

/-! ## The loop over the verts of a graph -/

/-- The loop only ever sets its flag: it returns the flag it was given, or-ed with what it did. -/
theorem reduceVerts_eq_or (gi : ℕ) : ∀ (n : ℕ) (ctx : GddCtx) (pos : ℕ) (dirty : Bool),
    reduceVerts gi n ctx pos dirty =
      ((reduceVerts gi n ctx pos false).1, dirty || (reduceVerts gi n ctx pos false).2) := by
  intro n
  induction n with
  | zero => intro ctx pos dirty; simp [reduceVerts]
  | succ n ih =>
    intro ctx pos dirty
    simp only [reduceVerts]
    cases hg : ctx.graphs[gi]? with
    | none => simp
    | some graph =>
      cases hv : graph.verts[pos]? with
      | none => simp [hv]
      | some vert =>
        simp only [hv]
        obtain ⟨c1, red⟩ := ctx.vertReduce graph.id vert.id
        split_ifs
        · rw [ih, ih _ _ (false || red)]
          simp [Bool.or_assoc]
        · rw [ih, ih _ _ (false || red)]
          simp [Bool.or_assoc]

/-- What a loop of a pass does: like a step of the reduction, except that it may also delete verts
with no edge, which moves the other verts. -/
structure PassStep (ctx ctx' : GddCtx) (dirty : Bool) : Prop where
  inv : ctx'.Inv
  prunes : Prune.Prunes keepRule ctx.waitEdges ctx'.waitEdges
  length_eq : ctx'.graphs.length = ctx.graphs.length
  card_lt : dirty = true → Multiset.card ctx'.outEdges < Multiset.card ctx.outEdges

theorem PassStep.card_le {ctx' : GddCtx} {dirty : Bool} (h : PassStep ctx ctx' dirty) :
    Multiset.card ctx'.outEdges ≤ Multiset.card ctx.outEdges := by
  rw [← card_waitEdges, ← card_waitEdges]
  exact Multiset.card_le_card h.prunes.le

theorem PassStep.refl (hI : ctx.Inv) : PassStep ctx ctx false :=
  ⟨hI, Relation.ReflTransGen.refl, rfl, fun h => absurd h Bool.false_ne_true⟩

theorem PassStep.trans {ctx₁ ctx₂ : GddCtx} {d₁ d₂ : Bool} (h₁ : PassStep ctx ctx₁ d₁)
    (h₂ : PassStep ctx₁ ctx₂ d₂) : PassStep ctx ctx₂ (d₁ || d₂) where
  inv := h₂.inv
  prunes := h₁.prunes.trans h₂.prunes
  length_eq := h₂.length_eq.trans h₁.length_eq
  card_lt := by
    intro hd
    rcases Bool.or_eq_true_iff.mp hd with hd | hd
    · exact (h₂.card_le).trans_lt (h₁.card_lt hd)
    · exact (h₂.card_lt hd).trans_le h₁.card_le

theorem ReduceStep.passStep {ctx' : GddCtx} {dirty : Bool} (h : ReduceStep ctx ctx' dirty) :
    PassStep ctx ctx' dirty where
  inv := h.inv
  prunes := h.prunes
  length_eq := by simpa [shape] using congrArg List.length h.shape_eq
  card_lt := h.card_lt

/-- Deleting a vert with no edge deletes no wait. -/
theorem Inv.passStep_vertIterDelete (hI : ctx.Inv) {gi pos : ℕ} {graph : GddGraph}
    (hg : ctx.graphs[gi]? = some graph) {vert : GddVert} (hv : graph.verts[pos]? = some vert)
    (hempty : vert.edgesIn = [] ∧ vert.edgesOut = []) :
    PassStep ctx (ctx.vertIterDelete gi pos) false := by
  obtain ⟨hI', hout⟩ := hI.vertIterDelete hg hv hempty
  refine ⟨hI', ?_, ?_, fun h => absurd h Bool.false_ne_true⟩
  · rw [waitEdges, waitEdges, hout]
  · simp [GddCtx.vertIterDelete]

theorem Wf.vert_eq_of_getElem? (hw : ctx.Wf) {gi pos : ℕ} {graph : GddGraph}
    (hg : ctx.graphs[gi]? = some graph) {vert : GddVert} (hv : graph.verts[pos]? = some vert) :
    ctx.vert graph.id vert.id = vert :=
  hw.vert_eq (List.mem_of_getElem? hg) (List.mem_of_getElem? hv)

/-- Keeping the keys keeps the positions of the graphs and verts. -/
theorem getElem?_of_shape_eq {ctx' : GddCtx} (hs : ctx'.shape = ctx.shape) {gi pos : ℕ}
    {graph : GddGraph} (hg : ctx.graphs[gi]? = some graph) {vert : GddVert}
    (hv : graph.verts[pos]? = some vert) :
    ∃ graph' vert', ctx'.graphs[gi]? = some graph' ∧ graph'.verts[pos]? = some vert' ∧
      graph'.id = graph.id ∧ vert'.id = vert.id := by
  have hshape := congrArg (·[gi]?) hs
  simp only [shape, List.getElem?_map, hg, Option.map_some] at hshape
  obtain ⟨graph', hg', hid⟩ := Option.map_eq_some_iff.mp hshape
  simp only [Prod.mk.injEq] at hid
  have hverts := congrArg (·[pos]?) hid.2
  simp only [List.getElem?_map, hv, Option.map_some] at hverts
  obtain ⟨vert', hv', hvid⟩ := Option.map_eq_some_iff.mp hverts
  exact ⟨graph', vert', hg', hv', hid.1, hvid⟩

/-- **The loop over a graph is a run of deletions of refused waits**, and deletes an edge when it
says it is dirty. -/
theorem Inv.reduceVerts (gi : ℕ) : ∀ (n : ℕ) {ctx : GddCtx} (pos : ℕ), ctx.Inv →
    PassStep ctx (reduceVerts gi n ctx pos false).1 (reduceVerts gi n ctx pos false).2 := by
  intro n
  induction n with
  | zero => intro ctx pos hI; exact PassStep.refl hI
  | succ n ih =>
    intro ctx pos hI
    simp only [GddCtx.reduceVerts]
    cases hg : ctx.graphs[gi]? with
    | none => exact PassStep.refl hI
    | some graph =>
      cases hv : graph.verts[pos]? with
      | none => simpa [hv] using PassStep.refl hI
      | some vert =>
        have hstep := hI.vertReduce graph.id vert.id
        simp only [hv]
        rcases hres : ctx.vertReduce graph.id vert.id with ⟨c1, red⟩
        rw [hres] at hstep
        dsimp only at hstep ⊢
        split_ifs with hempty
        · -- the vert has no edge left: it is deleted and the last vert moves into its slot
          obtain ⟨g1, v1, hg1, hv1, hgid, hvid⟩ := getElem?_of_shape_eq hstep.shape_eq hg hv
          have hv1eq := hstep.inv.toWf.vert_eq_of_getElem? hg1 hv1
          rw [hgid, hvid] at hv1eq
          rw [hv1eq] at hempty
          have hdel := hstep.inv.passStep_vertIterDelete hg1 hv1
            ⟨List.length_eq_zero_iff.mp hempty.1, List.length_eq_zero_iff.mp hempty.2⟩
          rw [reduceVerts_eq_or]
          simpa using (hstep.passStep.trans hdel).trans (ih pos hdel.inv)
        · rw [reduceVerts_eq_or]
          simpa using hstep.passStep.trans (ih (pos + 1) hstep.inv)

/-- The verts before `pos` of the graph at position `gi` are clean. -/
def CleanBefore (ctx : GddCtx) (gi pos : ℕ) : Prop :=
  ∀ graph, ctx.graphs[gi]? = some graph → ∀ vert ∈ graph.verts.take pos,
    VertClean (ctx.global vert.id) vert

/-- Every vert of the graph at position `gi` is clean. -/
def GraphClean (ctx : GddCtx) (gi : ℕ) : Prop :=
  ∀ graph, ctx.graphs[gi]? = some graph → ∀ vert ∈ graph.verts, VertClean (ctx.global vert.id) vert

theorem CleanBefore.graphClean {gi pos : ℕ} (h : ctx.CleanBefore gi pos)
    (hcount : vertCount ctx gi ≤ pos) : ctx.GraphClean gi := by
  intro graph hg vert hvert
  have hlen : graph.verts.length ≤ pos := by simpa [vertCount, hg] using hcount
  exact h graph hg vert (by rw [List.take_of_length_le hlen]; exact hvert)

theorem CleanBefore.succ {gi pos : ℕ} (h : ctx.CleanBefore gi pos) {graph : GddGraph}
    (hg : ctx.graphs[gi]? = some graph) {vert : GddVert} (hv : graph.verts[pos]? = some vert)
    (hclean : VertClean (ctx.global vert.id) vert) : ctx.CleanBefore gi (pos + 1) := by
  intro graph' hg' vert' hvert'
  rw [hg, Option.some_inj] at hg'
  subst hg'
  rw [List.take_add_one, hv, Option.toList_some] at hvert'
  rcases List.mem_append.mp hvert' with hvert' | hvert'
  · exact h graph hg vert' hvert'
  · rw [List.mem_singleton.mp hvert']
    exact hclean

/-- The deletion at `pos` keeps the verts before it where they are. -/
theorem CleanBefore.vertIterDelete {gi pos : ℕ} (h : ctx.CleanBefore gi pos) {graph : GddGraph}
    (hg : ctx.graphs[gi]? = some graph) (hpos : pos < graph.verts.length) :
    (ctx.vertIterDelete gi pos).CleanBefore gi pos := by
  intro graph' hg' vert hvert
  have hgi : gi < ctx.graphs.length := (List.getElem?_eq_some_iff.mp hg).1
  rw [vertIterDelete_graphs hg, List.getElem?_set_self hgi, Option.some_inj] at hg'
  subst hg'
  obtain ⟨rest, heq, -⟩ := ArrayMap.swapRemove_eq_append hpos
  have htake : (graph.verts.take pos).length = pos := List.length_take_of_le hpos.le
  rw [heq, List.take_append_of_le_length htake.ge, List.take_of_length_le htake.le] at hvert
  exact h graph hg vert hvert

theorem vertCount_vertIterDelete {gi pos : ℕ} {graph : GddGraph}
    (hg : ctx.graphs[gi]? = some graph) (hpos : pos < graph.verts.length) :
    vertCount (ctx.vertIterDelete gi pos) gi = vertCount ctx gi - 1 := by
  rw [vertCount, vertCount, vertIterDelete_graphs hg, hg]
  have hgi : gi < ctx.graphs.length := (List.getElem?_eq_some_iff.mp hg).1
  simp [hgi, ArrayMap.length_swapRemove hpos]

theorem getElem?_vertIterDelete_of_ne {gi pos j : ℕ} (hj : j ≠ gi) :
    (ctx.vertIterDelete gi pos).graphs[j]? = ctx.graphs[j]? := by
  simp [GddCtx.vertIterDelete, Ne.symm hj]

/-- **A clean loop over a graph cleans it.** When no `gddVertReduce` of the loop over the graph
at position `gi` unlinks an edge, the loop only deletes verts with no edge; and if it has an
iteration for each vert it has still to visit, it leaves every vert of the graph clean: each vert
it deletes moves the last vert into the slot that it visits next. -/
theorem Inv.reduceVerts_clean (gi : ℕ) : ∀ (n : ℕ) {ctx ctx' : GddCtx} (pos : ℕ), ctx.Inv →
    GddCtx.reduceVerts gi n ctx pos false = (ctx', false) →
    ctx'.globals = ctx.globals ∧ (∀ j ≠ gi, ctx'.graphs[j]? = ctx.graphs[j]?) ∧
      (vertCount ctx gi ≤ pos + n → ctx.CleanBefore gi pos → ctx'.GraphClean gi) := by
  intro n
  induction n with
  | zero =>
    intro ctx ctx' pos hI h
    simp only [GddCtx.reduceVerts, Prod.mk.injEq] at h
    obtain ⟨rfl, -⟩ := h
    exact ⟨rfl, fun _ _ => rfl, fun hcount hclean => hclean.graphClean hcount⟩
  | succ n ih =>
    intro ctx ctx' pos hI h
    simp only [GddCtx.reduceVerts] at h
    cases hg : ctx.graphs[gi]? with
    | none =>
      simp only [hg, Prod.mk.injEq] at h
      obtain ⟨rfl, -⟩ := h
      exact ⟨rfl, fun _ _ => rfl, fun _ _ graph hg' => by simp [hg] at hg'⟩
    | some graph =>
      cases hv : graph.verts[pos]? with
      | none =>
        simp only [hg, hv, Prod.mk.injEq] at h
        obtain ⟨rfl, -⟩ := h
        have hlen : graph.verts.length ≤ pos := List.getElem?_eq_none_iff.mp hv
        exact ⟨rfl, fun _ _ => rfl,
          fun _ hclean => hclean.graphClean (by simpa [vertCount, hg] using hlen)⟩
      | some vert =>
        have hstep := hI.vertReduce graph.id vert.id
        have hclean : (ctx.vertReduce graph.id vert.id).2 = false →
            VertClean (ctx.global vert.id) (ctx.vert graph.id vert.id) := vertClean_of_vertReduce
        simp only [hg, hv] at h
        rcases hres : ctx.vertReduce graph.id vert.id with ⟨c1, red⟩
        rw [hres] at hstep hclean h
        dsimp only at hstep hclean h
        -- the run is clean, so this vert's reduction unlinked nothing and changed nothing
        have hred : red = false := by
          have h2 := congrArg Prod.snd h
          split_ifs at h2 <;>
          · rw [reduceVerts_eq_or] at h2
            simp only [Bool.false_or, Bool.or_eq_false_iff] at h2
            exact h2.1
        subst hred
        have hc1 : c1 = ctx := hstep.eq_of_clean rfl
        rw [hc1] at h
        rw [hI.toWf.vert_eq_of_getElem? hg hv] at hclean h
        have hpos : pos < graph.verts.length := (List.getElem?_eq_some_iff.mp hv).1
        split_ifs at h with hempty
        · -- the vert has no edge: it is deleted and the last vert moves into its slot
          have hdel := hI.passStep_vertIterDelete hg hv
            ⟨List.length_eq_zero_iff.mp hempty.1, List.length_eq_zero_iff.mp hempty.2⟩
          obtain ⟨hglob, hother, hgraph⟩ := ih pos hdel.inv (by simpa using h)
          refine ⟨hglob, fun j hj => (hother j hj).trans (getElem?_vertIterDelete_of_ne hj),
            fun hcount hcb => hgraph ?_ (hcb.vertIterDelete hg hpos)⟩
          rw [vertCount_vertIterDelete hg hpos]
          omega
        · obtain ⟨hglob, hother, hgraph⟩ := ih (pos + 1) hI (by simpa using h)
          exact ⟨hglob, hother,
            fun hcount hcb => hgraph (by omega) (hcb.succ hg hv (hclean rfl))⟩

/-! ## The passes -/

/-- The loop of a pass of `GddCtxReduce` over the graphs at the positions `L`. -/
def reduceGraphs (L : List ℕ) (acc : GddCtx × Bool) : GddCtx × Bool :=
  L.foldl (fun acc gi => reduceVerts gi (vertCount acc.1 gi) acc.1 0 acc.2) acc

theorem reduceGraphs_cons (gi : ℕ) (L : List ℕ) (ctx : GddCtx) (dirty : Bool) :
    reduceGraphs (gi :: L) (ctx, dirty) =
      reduceGraphs L (reduceVerts gi (vertCount ctx gi) ctx 0 dirty) := rfl

theorem reduceGraphs_eq_or : ∀ (L : List ℕ) (ctx : GddCtx) (dirty : Bool),
    reduceGraphs L (ctx, dirty) =
      ((reduceGraphs L (ctx, false)).1, dirty || (reduceGraphs L (ctx, false)).2) := by
  intro L
  induction L with
  | nil => intro ctx dirty; simp [reduceGraphs]
  | cons gi L ih =>
    intro ctx dirty
    rw [reduceGraphs_cons, reduceGraphs_cons, reduceVerts_eq_or gi _ ctx 0 dirty,
      reduceVerts_eq_or gi _ ctx 0 false, ih _ (dirty || _), ih _ (false || _)]
    simp [Bool.or_assoc]

theorem Inv.reduceGraphs : ∀ (L : List ℕ) {ctx : GddCtx}, ctx.Inv →
    PassStep ctx (reduceGraphs L (ctx, false)).1 (reduceGraphs L (ctx, false)).2 := by
  intro L
  induction L with
  | nil => intro ctx hI; exact PassStep.refl hI
  | cons gi L ih =>
    intro ctx hI
    have hfirst := hI.reduceVerts gi (vertCount ctx gi) 0
    rw [reduceGraphs_cons, reduceVerts_eq_or, Bool.false_or, reduceGraphs_eq_or]
    exact hfirst.trans (ih hfirst.inv)

theorem GraphClean.of_eq {ctx' : GddCtx} {gi : ℕ} (h : ctx.GraphClean gi)
    (hg : ctx'.graphs[gi]? = ctx.graphs[gi]?) (hglob : ctx'.globals = ctx.globals) :
    ctx'.GraphClean gi := by
  intro graph hg' vert hvert
  have hglobal : ctx'.global vert.id = ctx.global vert.id := by
    rw [GddCtx.global, GddCtx.global, hglob]
  rw [hglobal]
  exact h graph (hg ▸ hg') vert hvert

/-- **A clean pass cleans every graph it visits**, and leaves the counters and the other graphs as
they were. -/
theorem Inv.reduceGraphs_clean : ∀ (L : List ℕ) {ctx ctx' : GddCtx}, ctx.Inv →
    GddCtx.reduceGraphs L (ctx, false) = (ctx', false) →
    ctx'.globals = ctx.globals ∧ (∀ j ∉ L, ctx'.graphs[j]? = ctx.graphs[j]?) ∧
      ∀ gi ∈ L, ctx'.GraphClean gi := by
  intro L
  induction L with
  | nil =>
    intro ctx ctx' _ h
    simp only [GddCtx.reduceGraphs, List.foldl_nil, Prod.mk.injEq] at h
    obtain ⟨rfl, -⟩ := h
    exact ⟨rfl, fun _ _ => rfl, fun _ h => absurd h List.not_mem_nil⟩
  | cons gi L ih =>
    intro ctx ctx' hI h
    rw [reduceGraphs_cons, reduceVerts_eq_or, Bool.false_or, reduceGraphs_eq_or,
      Prod.mk.injEq, Bool.or_eq_false_iff] at h
    obtain ⟨hrest, hfirst, hrest'⟩ := h
    set first := GddCtx.reduceVerts gi (vertCount ctx gi) ctx 0 false
    -- the loop over graph `gi` is clean and cleans it; the loops after it are clean
    obtain ⟨hglob1, hother1, hclean1⟩ := hI.reduceVerts_clean gi (vertCount ctx gi) 0
      (Prod.ext rfl hfirst)
    obtain ⟨hglob2, hother2, hclean2⟩ := ih (hI.reduceVerts gi (vertCount ctx gi) 0).inv
      (Prod.ext hrest hrest')
    refine ⟨hglob2.trans hglob1, fun j hj => ?_, fun g hgL => ?_⟩
    · rw [List.mem_cons, not_or] at hj
      exact (hother2 j hj.2).trans (hother1 j hj.1)
    · by_cases hg : g ∈ L
      · exact hclean2 g hg
      · have hgi : g = gi := by simpa [hg] using hgL
        subst hgi
        exact (hclean1 (by omega) fun _ _ _ h => absurd h List.not_mem_nil).of_eq
          (hother2 g hg) hglob2

theorem Inv.reducePass (hI : ctx.Inv) : PassStep ctx ctx.reducePass.1 ctx.reducePass.2 :=
  hI.reduceGraphs _

/-- **A pass that deletes nothing leaves every vert clean.** -/
theorem Inv.allClean_reducePass (hI : ctx.Inv) (h : ctx.reducePass.2 = false) :
    ctx.reducePass.1.AllClean := by
  have hpass : GddCtx.reduceGraphs (List.range ctx.graphs.length) (ctx, false) =
      (ctx.reducePass.1, false) :=
    Prod.ext rfl h
  obtain ⟨-, -, hclean⟩ := hI.reduceGraphs_clean _ hpass
  intro graph hgraph vert hvert
  obtain ⟨gi, hgi⟩ := List.mem_iff_getElem?.mp hgraph
  have hlt : gi < ctx.graphs.length := by
    rw [← hI.reducePass.length_eq]
    exact (List.getElem?_eq_some_iff.mp hgi).1
  exact hclean gi (List.mem_range.mpr hlt) graph hgi vert hvert

/-! ## `GddCtxReduce` -/

/-- Each pass but the last deletes an edge, so with more fuel than edges the passes end with one
that deletes nothing, which leaves every vert clean. -/
theorem Inv.reduceLoop : ∀ (fuel : ℕ) {ctx : GddCtx}, ctx.Inv →
    Multiset.card ctx.outEdges < fuel →
    ∃ ctx', ctx.reduceLoop fuel = some ctx' ∧ ctx'.Inv ∧
      Prune.Prunes keepRule ctx.waitEdges ctx'.waitEdges ∧ ctx'.AllClean := by
  intro fuel
  induction fuel with
  | zero => intro ctx _ hfuel; exact absurd hfuel (Nat.not_lt_zero _)
  | succ fuel ih =>
    intro ctx hI hfuel
    have hpass := hI.reducePass
    have hclean := hI.allClean_reducePass
    simp only [GddCtx.reduceLoop]
    rcases hres : ctx.reducePass with ⟨c1, dirty⟩
    rw [hres] at hpass hclean
    cases dirty with
    | false => exact ⟨c1, rfl, hpass.inv, hpass.prunes, hclean rfl⟩
    | true =>
      obtain ⟨ctx', hloop, hI', hprunes, hall⟩ :=
        ih hpass.inv (lt_of_lt_of_le (hpass.card_lt rfl) (Nat.lt_succ_iff.mp hfuel))
      exact ⟨ctx', hloop, hI', hpass.prunes.trans hprunes, hall⟩

theorem card_list_sum {α : Type*} (l : List (Multiset α)) :
    Multiset.card l.sum = (l.map Multiset.card).sum := by
  induction l with
  | nil => rfl
  | cons a l ih => simp [ih]

theorem edgeCount_eq_card (ctx : GddCtx) : ctx.edgeCount = Multiset.card ctx.outEdges := by
  simp [edgeCount, outEdges, edgesOf, GddGraph.edgesOf, card_list_sum, Function.comp_def]

/-- **`GddCtxReduce` ends, with the greatest set of waits that the rules keep.** -/
theorem Inv.reduce (hI : ctx.Inv) :
    ∃ ctx', ctx.reduce = some ctx' ∧ ctx'.Inv ∧
      ctx'.waitEdges = Prune.greatest keepRule ctx.waitEdges := by
  obtain ⟨ctx', hloop, hI', hprunes, hall⟩ :=
    hI.reduceLoop (ctx.edgeCount + 1) (by rw [edgeCount_eq_card]; omega)
  exact ⟨ctx', hloop, hI', Prune.eq_greatest hprunes.le hprunes.greatest_le
    (hI'.stable_of_allClean hall)⟩

/-- `GddCtxEmpty` holds when no wait is left. -/
theorem Inv.empty_iff (hI : ctx.Inv) : ctx.empty = true ↔ ctx.waitEdges = 0 := by
  rw [GddCtx.empty, beq_iff_eq, hI.top_indeg, ← Multiset.card_eq_zero, card_waitEdges]
  omega

end GddCtx

/-! ## What the detector computes -/

open GddCtx WaitEdge

/-- **`GddCtxReduce` computes the greatest set of waits that the rules keep, whatever the order in
which the edges were added.** Loading the edges with `GddCtxAddEdge` and reducing ends, with waits
that are part of the edges, that the rules keep whole, and that hold every other such part; the
edges in another order reduce to the same waits, and `GddCtxEmpty` says the same. -/
theorem reduce_eq_greatest (edges : List WaitEdge) :
    ∃ ctx', (loadEdges edges).reduce = some ctx' ∧
      ctx'.waitEdges ≤ (edges : Multiset WaitEdge) ∧ Prune.Stable keepRule ctx'.waitEdges ∧
      (∀ F ≤ (edges : Multiset WaitEdge), Prune.Stable keepRule F → F ≤ ctx'.waitEdges) ∧
      ∀ edges' : List WaitEdge, edges'.Perm edges →
        ∃ ctx'', (loadEdges edges').reduce = some ctx'' ∧ ctx''.waitEdges = ctx'.waitEdges ∧
          ctx''.empty = ctx'.empty := by
  obtain ⟨hI, hwaits⟩ := inv_loadEdges edges
  obtain ⟨ctx', hred, hI', hgreat⟩ := hI.reduce
  rw [hwaits] at hgreat
  refine ⟨ctx', hred, hgreat ▸ Prune.greatest_le _, hgreat ▸ Prune.stable_greatest _,
    fun F hle hF => hgreat ▸ Prune.le_greatest hle hF, fun edges' hperm => ?_⟩
  -- the other order loads the same multiset of waits
  obtain ⟨hIp, hwaitsp⟩ := inv_loadEdges edges'
  obtain ⟨ctx'', hred'', hI'', hgreat''⟩ := hIp.reduce
  rw [hwaitsp, Multiset.coe_eq_coe.mpr hperm] at hgreat''
  have hsame : ctx''.waitEdges = ctx'.waitEdges := hgreat''.trans hgreat.symm
  refine ⟨ctx'', hred'', hsame, Bool.eq_iff_iff.mpr ?_⟩
  rw [hI''.empty_iff, hI'.empty_iff, hsame]

/-- **Global deadlock detection is sound and complete for its rules.** After loading the edges
and reducing: if the waits hold no cycle, `GddCtxEmpty` holds; and every wait of a cycle of solid
waits survives, every copy of it, so `GddCtxEmpty` fails when there is such a cycle. -/
theorem reduce_sound_complete (edges : List WaitEdge) :
    ∃ ctx', (loadEdges edges).reduce = some ctx' ∧
      ((∀ vid, ¬ Relation.TransGen (Waits edges) vid vid) → ctx'.empty = true) ∧
      ∀ c : List WaitEdge, IsSolidCycle c → (∀ e ∈ c, e ∈ edges) →
        (∀ e ∈ c, ctx'.waitEdges.count e = edges.count e) ∧ ctx'.empty = false := by
  obtain ⟨hI, hwaits⟩ := inv_loadEdges edges
  obtain ⟨ctx', hred, hI', hgreat⟩ := hI.reduce
  rw [hwaits] at hgreat
  refine ⟨ctx', hred, fun hacyclic => ?_, fun c hc hsub => ?_⟩
  · rw [hI'.empty_iff, hgreat]
    exact greatest_eq_zero_of_acyclic hacyclic
  · have hcount : ∀ e ∈ c, ctx'.waitEdges.count e = edges.count e := fun e he => by
      rw [hgreat, count_greatest_of_isSolidCycle hc (fun e he => Multiset.mem_coe.mpr (hsub e he))
        he, Multiset.coe_count]
    refine ⟨hcount, Bool.eq_false_iff.mpr fun hempty => ?_⟩
    -- a wait of the cycle is left
    obtain ⟨e, he⟩ := List.exists_mem_of_ne_nil c hc.1
    have hpos : 0 < ctx'.waitEdges.count e := by
      rw [hcount e he]
      exact List.count_pos_iff.mpr (hsub e he)
    rw [(hI'.empty_iff).mp hempty, Multiset.count_zero] at hpos
    exact absurd hpos (Nat.lt_irrefl 0)

end Cloudberry.Gdd
