import Trident.Graph500.Pack

/-! # What the builders of the graph agree on -/

namespace Trident.Graph500

open Relation Transition

section EdgeLists

variable {edges : List PackedEdge}

theorem mem_scatters {e : PackedEdge} {i j : Nat} : (i, j) ∈ e.scatters ↔
    j ≠ i ∧ ((e.i = i ∧ e.j = j) ∨ (e.i = j ∧ e.j = i)) := by
  rw [PackedEdge.scatters]
  split
  · rename_i hNe
    simp only [List.mem_cons, List.not_mem_nil, or_false, Prod.mk.injEq]
    omega
  · rename_i hEq
    simp only [List.not_mem_nil, false_iff]
    omega

theorem mem_scatterCalls {i j : Nat} : (i, j) ∈ scatterCalls edges ↔
    j ≠ i ∧ ∃ e ∈ edges, (e.i = i ∧ e.j = j) ∨ (e.i = j ∧ e.j = i) := by
  rw [scatterCalls, List.mem_flatMap]
  constructor
  · rintro ⟨e, he, hCall⟩
    obtain ⟨hNe, hEnds⟩ := mem_scatters.mp hCall
    exact ⟨hNe, e, he, hEnds⟩
  · rintro ⟨hNe, e, he, hEnds⟩
    exact ⟨e, he, mem_scatters.mpr ⟨hNe, hEnds⟩⟩

theorem map_fst_scatterCalls (edges : List PackedEdge) :
    (scatterCalls edges).map Prod.fst = edges.flatMap PackedEdge.increments := by
  rw [scatterCalls, List.map_flatMap]
  refine List.flatMap_congr fun e _ => ?_
  rw [PackedEdge.scatters, PackedEdge.increments]
  split <;> rfl

theorem lt_vertexCount {e : PackedEdge} (he : e ∈ edges) :
    e.i < vertexCount (scanMax edges) ∧ e.j < vertexCount (scanMax edges) := by
  have hBound := (scanMax_isMax edges).bound e he
  rw [vertexCount]
  omega

theorem card_filter_get {α : Type*} (calls : List α) (p : α → Prop) [DecidablePred p] :
    (Finset.univ.filter fun k : Fin calls.length => p (calls.get k)).card = calls.countP (p ·) := by
  rw [Finset.card_filter]
  refine (Fin.sum_univ_fun_getElem calls fun call => if p call then 1 else 0).trans ?_
  induction calls with
  | nil => rfl
  | cons call calls ih =>
    rw [List.map_cons, List.sum_cons, ih, List.countP_cons, Nat.add_comm]
    simp

theorem slots_of_slotBegin {nv : Nat} {xoff : Nat → Nat} (hnv : nv = vertexCount (scanMax edges))
    (hOff : ∀ c ≤ nv, xoff c = slotBegin nv edges c) :
    Slots nv xoff (scatterCalls edges).get where
  known k := by
    obtain ⟨_, e, he, hEnds⟩ := mem_scatterCalls.mp (List.get_mem (scatterCalls edges) k)
    have hLt := lt_vertexCount he
    omega
  room i hi := by
    have hRoom := slotBegin_succ nv edges i
    rw [← map_fst_scatterCalls, List.count, List.countP_map] at hRoom
    rw [hOff i hi.le, hOff (i + 1) hi, card_filter_get _ fun call : Nat × Nat => call.1 = i]
    exact hRoom

end EdgeLists

section Represents

variable {edges : List PackedEdge} {g g' : Csr}

theorem Csr.Represents.adjacency_eq (h : g.Represents edges) (h' : g'.Represents edges)
    (hnv : g.nv = g'.nv) {i : Nat} (hi : i < g.nv) : g.adjacency i = g'.adjacency i :=
  (h.ascending i hi).eq_of_mem_iff (h'.ascending i (hnv ▸ hi)) fun v =>
    (h.neighbours i hi v).trans (h'.neighbours i (hnv ▸ hi) v).symm

/-- Any order of the scatters and of the packing gives a graph that represents the edges. -/
theorem represents_of_scatter (hnv : g.nv = vertexCount (scanMax edges))
    (hOff : ∀ c ≤ g.nv, g.xoff c = slotBegin g.nv edges c)
    {s : ScatterState (Fin (scatterCalls edges).length)}
    (hInv : ScatterInv g.nv g.xoff (scatterCalls edges).get s)
    (hEnds : g.xend = s.xend) (hCells : g.xadj = s.xadj) (hAll : ∀ k, ∃ w, s.phase k = .stored w)
    {packing : List Nat} (hPacking : packing.Perm (List.range g.nv)) :
    g.Slotted ∧ (packEdges g packing).Represents edges := by
  have hSlots := slots_of_slotBegin hnv hOff
  have hSlotted : g.Slotted := by
    intro i hi
    rw [hEnds]
    exact ⟨by rw [hInv.ends i hi]; omega, hInv.xend_le hSlots hi⟩
  have hMem : ∀ i, i ∈ packing ↔ i < g.nv := fun i => by rw [hPacking.mem_iff, List.mem_range]
  have hPacked := packEdges_packsAll hSlotted fun i hi => (hMem i).mp hi
  refine ⟨hSlotted, hPacked.slotted, ?_, ?_⟩
  · intro i hi
    exact hPacked.ascending i ((hMem i).mpr (hPacked.nv ▸ hi))
  · intro i hi v
    rw [hPacked.nv] at hi
    rw [hPacked.mem i hi, Csr.adjacency, mem_cells, hEnds, hCells, hInv.mem_iff hAll hi]
    constructor
    · rintro ⟨k, hFirst, rfl⟩
      obtain ⟨hNe, e, he, hEdge⟩ := mem_scatterCalls.mp (List.get_mem (scatterCalls edges) k)
      rw [hFirst] at hNe hEdge
      exact ⟨_, rfl, hNe, e, he, hEdge⟩
    · rintro ⟨j, rfl, hNe, hEdge⟩
      obtain ⟨k, hk⟩ := List.get_of_mem (mem_scatterCalls.mpr ⟨hNe, hEdge⟩)
      exact ⟨k, by rw [hk], by rw [hk]⟩

end Represents

section Sequential

theorem createGraph_nv (edges : List PackedEdge) :
    (createGraph edges).nv = vertexCount (scanMax edges) := packEdges_nv _ _

theorem createGraph_represents (edges : List PackedEdge) : (createGraph edges).Represents edges := by
  obtain ⟨nv, hnv⟩ : ∃ nv, nv = vertexCount (scanMax edges) := ⟨_, rfl⟩
  have hOff : ∀ c ≤ nv, setupDegOff nv edges c = slotBegin nv edges c :=
    fun c hc => setupDegOff_apply hc
  obtain ⟨s, hReach, hFold, hStored, _⟩ :=
    reaches_foldl (scatterCalls edges).get (List.finRange (scatterCalls edges).length)
      (scatterStart nv (setupDegOff nv edges)) (List.nodup_finRange _) (fun _ _ => rfl)
  rw [List.map_get_finRange] at hFold
  have hInv := scatterInv_of_reaches (slots_of_slotBegin hnv hOff) hReach
  have hEnds : s.xend = _ := congrArg Prod.fst hFold
  have hCells : s.xadj = _ := congrArg Prod.snd hFold
  have hGraph : createGraph edges =
      packEdges ⟨nv, setupDegOff nv edges, s.xend, s.xadj⟩ (List.range nv) := by
    rw [createGraph, ← hnv, hEnds, hCells]
    rfl
  rw [hGraph]
  exact (represents_of_scatter hnv hOff hInv rfl rfl (fun k => hStored k (List.mem_finRange k))
    (List.Perm.refl _)).2

end Sequential

section Parallel

variable {nt : Nat} {edges : List PackedEdge} (run : Schedule nt edges)
  {s : ScatterState (Fin (scatterCalls edges).length)}

theorem Schedule.nv_eq : run.nv = vertexCount (scanMax edges) := by
  rw [Schedule.nv, run.maxvtx_eq]

theorem Schedule.xoff_apply {c : Nat} (hc : c ≤ run.nv) : run.xoff c = slotBegin run.nv edges c :=
  setupDegOffOmp_apply run.threads_pos run.counting_perm hc

theorem Schedule.slots : Slots run.nv run.xoff (scatterCalls edges).get :=
  slots_of_slotBegin run.nv_eq fun _ hc => run.xoff_apply hc

theorem Schedule.inv (h : ReflTransGen (ScatterStep (scatterCalls edges).get) run.scatterStart s) :
    ScatterInv run.nv run.xoff (scatterCalls edges).get s := scatterInv_of_reaches run.slots h

theorem Schedule.cell_in_slot
    (h : ReflTransGen (ScatterStep (scatterCalls edges).get) run.scatterStart s)
    {k : Fin (scatterCalls edges).length} {w : Nat} (hCell : (s.phase k).cell? = some w) :
    run.xoff ((scatterCalls edges).get k).1 ≤ w ∧
      w < run.xoff (((scatterCalls edges).get k).1 + 1) := by
  obtain ⟨hLow, hHigh⟩ := (run.inv h).inside k w hCell
  exact ⟨hLow, hHigh.trans_le ((run.inv h).xend_le run.slots (run.slots.known k))⟩

theorem Schedule.gathered_slotted_and_represents
    (h : ReflTransGen (ScatterStep (scatterCalls edges).get) run.scatterStart s)
    (hFinal : ∀ t, ¬ ScatterStep (scatterCalls edges).get s t) :
    (run.gathered s).Slotted ∧ (run.graph s).Represents edges :=
  represents_of_scatter (g := run.gathered s) run.nv_eq (fun _ hc => run.xoff_apply hc) (run.inv h)
    rfl rfl (stored_of_final hFinal) run.packing_perm

/-- What is asked of the parallel builder, whatever its threads do: the scatters end, each stays in
the slot of its vertex, and so does the packing; the graph represents the edges and lists what the
sequential builder lists. -/
structure Schedule.BuildsGraph : Prop where
  ends : WellFounded fun t s => ScatterStep (scatterCalls edges).get s t
  scattered : ∀ s, ReflTransGen (ScatterStep (scatterCalls edges).get) run.scatterStart s →
    ∀ k w, (s.phase k).cell? = some w →
      run.xoff ((scatterCalls edges).get k).1 ≤ w ∧ w < run.xoff (((scatterCalls edges).get k).1 + 1)
  packed : ∀ s, ReflTransGen (ScatterStep (scatterCalls edges).get) run.scatterStart s →
    (∀ t, ¬ ScatterStep (scatterCalls edges).get s t) →
      ∀ before i after, run.packing = before ++ i :: after → ∀ c, c < run.xoff i ∨ run.xoff (i + 1) ≤ c →
        (packEdges (run.gathered s) (before ++ [i])).xadj c = (packEdges (run.gathered s) before).xadj c
  built : ∀ s, ReflTransGen (ScatterStep (scatterCalls edges).get) run.scatterStart s →
    (∀ t, ¬ ScatterStep (scatterCalls edges).get s t) →
      ∃ g, run.createGraphOmp s = some g ∧ g.Represents edges ∧ g.nv = (createGraph edges).nv ∧
        ∀ i < g.nv, g.adjacency i = (createGraph edges).adjacency i
  sequential : (createGraph edges).Represents edges

/-- The ids with which `bm_init` gets a size that there is memory for: with a greatest id between these
bounds the number of vertices, or what is added to it, is a negative `int`. -/
def BitmapsFit (edges : List PackedEdge) : Prop :=
  (∀ e ∈ edges, e.i + 64 < 2 ^ 31 ∧ e.j + 64 < 2 ^ 31) ∨
    ∃ e ∈ edges, 2 ^ 32 ≤ e.i + 127 ∨ 2 ^ 32 ≤ e.j + 127

theorem allocGraph_isSome_iff (edges : List PackedEdge) :
    (allocGraph (vertexCount (scanMax edges))).isSome ↔ BitmapsFit edges := by
  have hInit : ∀ nv, (allocGraph nv).isSome ↔ (bmInit nv).isSome := by
    intro nv
    rw [allocGraph]
    cases bmInit nv <;> rfl
  obtain ⟨hBound, hReached⟩ := scanMax_isMax edges
  have hWords : vertexCount (scanMax edges) ≤ 2 ^ 32 := by
    rw [vertexCount]
    rcases hReached with hNone | ⟨e, _, hi | hj⟩
    · omega
    · have hi' := e.v0.toNat_lt
      rw [PackedEdge.i] at hi
      omega
    · have hj' := e.v1.toNat_lt
      rw [PackedEdge.j] at hj
      omega
  rw [hInit, bmInit_isSome_iff hWords, vertexCount, BitmapsFit]
  refine or_congr ⟨fun hSmall e he => ?_, fun hSmall => ?_⟩ ⟨fun hLast => ?_, ?_⟩
  · obtain ⟨hi, hj⟩ := hBound e he
    omega
  · rcases hReached with hNone | ⟨e, he, hi | hj⟩
    · omega
    · have hLess := (hSmall e he).1
      omega
    · have hLess := (hSmall e he).2
      omega
  · rcases hReached with hNone | ⟨e, he, hi | hj⟩
    · omega
    · exact ⟨e, he, Or.inl (by omega)⟩
    · exact ⟨e, he, Or.inr (by omega)⟩
  · rintro ⟨e, he, hLast⟩
    obtain ⟨hi, hj⟩ := hBound e he
    omega

theorem bitmapsFit_of_lt (h : vertexCount (scanMax edges) + 63 < 2 ^ 31) : BitmapsFit edges := by
  refine Or.inl fun e he => ?_
  have hBelow := lt_vertexCount he
  omega

theorem Schedule.packing_outside
    (h : ReflTransGen (ScatterStep (scatterCalls edges).get) run.scatterStart s)
    (hFinal : ∀ t, ¬ ScatterStep (scatterCalls edges).get s t) {before after : List Nat} {i : Nat}
    (hSplit : run.packing = before ++ i :: after) {c : Nat} (hc : c < run.xoff i ∨ run.xoff (i + 1) ≤ c) :
    (packEdges (run.gathered s) (before ++ [i])).xadj c = (packEdges (run.gathered s) before).xadj c := by
  have hIn : ∀ i ∈ run.packing, i < (run.gathered s).nv := fun i hi =>
    List.mem_range.mp (run.packing_perm.mem_iff.mp hi)
  refine packEdges_outside (run.gathered_slotted_and_represents h hFinal).1 (fun v hv => hIn v ?_) hc
  rw [hSplit]
  simp only [List.mem_append, List.mem_cons, List.not_mem_nil, or_false] at hv ⊢
  tauto

theorem Schedule.graph_nv : (run.graph s).nv = (createGraph edges).nv := by
  rw [Schedule.graph, packEdges_nv, createGraph_nv]
  exact run.nv_eq

theorem Schedule.createGraphOmp_eq (hFits : BitmapsFit edges) : run.createGraphOmp s = some (run.graph s) := by
  have hAlloc := (allocGraph_isSome_iff edges).mpr hFits
  rw [← run.nv_eq] at hAlloc
  obtain ⟨_, hSome⟩ := Option.isSome_iff_exists.mp hAlloc
  rw [Schedule.createGraphOmp, hSome]
  rfl

theorem Schedule.createGraphOmp_eq_none (hMisfit : ¬ BitmapsFit edges) : run.createGraphOmp s = none := by
  have hAlloc := (allocGraph_isSome_iff edges).not.mpr hMisfit
  rw [← run.nv_eq, Option.not_isSome_iff_eq_none] at hAlloc
  rw [Schedule.createGraphOmp, hAlloc]
  rfl

theorem Schedule.bitmapsFit_of_buildsGraph (h : run.BuildsGraph) : BitmapsFit edges := by
  by_contra hMisfit
  obtain ⟨s, hRun, hFinal⟩ := exists_final h.ends run.scatterStart
  obtain ⟨g, hg, _⟩ := h.built s hRun hFinal
  rw [run.createGraphOmp_eq_none hMisfit] at hg
  cases hg

/-- The parallel builder makes the graph in every order of its threads' steps, or in none: it depends on
the ids alone whether there are bitmaps. -/
theorem Schedule.buildsGraph_iff : run.BuildsGraph ↔ BitmapsFit edges := by
  refine ⟨run.bitmapsFit_of_buildsGraph, fun hFits => ?_⟩
  constructor
  · exact scatterStep_ends
  · exact fun s hRun k w hCell => run.cell_in_slot hRun hCell
  · exact fun s hRun hFinal before i after hSplit c hc => run.packing_outside hRun hFinal hSplit hc
  · intro s hRun hFinal
    have hRepresents := (run.gathered_slotted_and_represents hRun hFinal).2
    exact ⟨run.graph s, run.createGraphOmp_eq hFits, hRepresents, run.graph_nv, fun i hi =>
      hRepresents.adjacency_eq (createGraph_represents edges) run.graph_nv hi⟩
  · exact createGraph_represents edges

/-- The greatest `int` there is, with which the sequential builder makes its graph. -/
theorem full_int_not_built : ∃ run : Schedule 1 [⟨0, 2147483646⟩],
    (∀ s, run.createGraphOmp s = none) ∧ ¬ run.BuildsGraph := by
  obtain ⟨run, _⟩ : ∃ run : Schedule 1 [⟨0, 2147483646⟩], run.chunk = fun _ => [⟨0, 2147483646⟩] :=
    exists_schedule one_pos _ (List.Perm.refl _)
  have hMisfit : ¬ BitmapsFit [⟨0, 2147483646⟩] := by
    rw [BitmapsFit, not_or]
    decide
  refine ⟨run, fun s => run.createGraphOmp_eq_none hMisfit, fun hBuilds => hMisfit ?_⟩
  exact run.bitmapsFit_of_buildsGraph hBuilds

/-- Two threads; with a self-loop, an edge in both directions and a vertex without edges. -/
theorem two_threads_adjacency :
    ∃ (run : Schedule 2 [⟨0, 1⟩, ⟨1, 1⟩, ⟨3, 1⟩, ⟨1, 0⟩])
      (s : ScatterState (Fin (scatterCalls [⟨0, 1⟩, ⟨1, 1⟩, ⟨3, 1⟩, ⟨1, 0⟩]).length)) (g : Csr),
      ReflTransGen (ScatterStep (scatterCalls [⟨0, 1⟩, ⟨1, 1⟩, ⟨3, 1⟩, ⟨1, 0⟩]).get) run.scatterStart s ∧
      run.createGraphOmp s = some g ∧ g.nv = 4 ∧ g.adjacency 1 = [0, 3] ∧ g.adjacency 2 = [] := by
  obtain ⟨run, _⟩ := exists_schedule two_pos
    (fun t => if t = 0 then [⟨0, 1⟩, ⟨1, 1⟩] else [⟨3, 1⟩, ⟨1, 0⟩]) (List.Perm.refl _)
  have hBuilds : run.BuildsGraph := run.buildsGraph_iff.mpr (Or.inl (by decide))
  obtain ⟨s, hRun, hFinal⟩ := exists_final hBuilds.ends run.scatterStart
  obtain ⟨g, hg, _, hnv, hSame⟩ := hBuilds.built s hRun hFinal
  have hFour : g.nv = 4 := hnv.trans (by decide)
  refine ⟨run, s, g, hRun, hg, hFour, ?_, ?_⟩
  · exact (hSame 1 (by omega)).trans (by decide)
  · exact (hSame 2 (by omega)).trans (by decide)

end Parallel

end Trident.Graph500
