import Trident.Graph500.SearchRuns
import Trident.Graph500.SequentialSearch

/-! # What the searches agree on

The threads of `omp-csr` stay together unless one of them subtracts `scout_count` from its
`edges_to_check` after another has set it to 0.
-/

namespace Trident.Graph500

open Relation Transition BlockQueue BreadthFirst

section Stuck

variable {nt : Nat} {g : Csr} {s s' : Search nt}

theorem Search.Diverged.stuck (h : s.Diverged) : ¬ SearchMove g s s' := by
  rintro ⟨late, hStep⟩
  obtain ⟨hPhase, _, ⟨t, ht⟩, t', ht'⟩ := h
  cases hStep with
  | topDown m edgesToCheck awake share hAwake hAll hShare => exact ht' (hAll t')
  | bottomUp m edgesToCheck awake share hAwake hAll hShare => exact hAll t ht
  | topDownTurn | topDownEnd | fillBitmapTurn | fillBitmapEnd | bottomUpTurn | bottomUpAgain
  | bottomUpEnd | fillQueueTurn | fillQueueEnd => cases hPhase

end Stuck

section Runs

variable {nt : Nat} {g : Csr} {edges : List PackedEdge} {src : Nat}
  (vlist : Nat → Nat) (past next : Bitmap)

theorem search_ends (hSearch : g.Searchable edges src) (hnt : 0 < nt) :
    Acc (fun t s : Search nt => SearchMove g s t) (startSearch g nt vlist past next src) := by
  obtain ⟨r, hStart⟩ : ∃ r, SearchAt g edges src (startSearch g nt vlist past next src) r :=
    searchAt_start hSearch vlist past next
  refine acc_of_ranked (SearchAt g edges src) (fun s r t hAt hMove => ?_) hStart
  obtain ⟨late, hStep⟩ := hMove
  exact hAt.step hSearch hnt hStep

theorem searchAt_of_reaches (hSearch : g.Searchable edges src) (hnt : 0 < nt) {s : Search nt}
    (hRun : ReflTransGen (SearchMove g) (startSearch g nt vlist past next src) s) :
    ∃ r, SearchAt g edges src s r := by
  refine invariant_of_reaches (I := fun s => ∃ r, SearchAt g edges src s r) (fun s t hAt hMove => ?_)
    (searchAt_start hSearch vlist past next) hRun
  obtain ⟨r, hAt⟩ := hAt
  obtain ⟨late, hStep⟩ := hMove
  obtain ⟨r', _, hNext⟩ := hAt.step hSearch hnt hStep
  exact ⟨r', hNext⟩

theorem agreed_of_reaches {s : Search nt}
    (hRun : ReflTransGen (SearchStep g ∅) (startSearch g nt vlist past next src) s) : s.Agreed :=
  invariant_of_reaches (I := Search.Agreed) (fun _ _ h hStep => hStep.agreed h) (fun _ _ => rfl) hRun

end Runs

section Builders

variable {nt : Nat} {edges : List PackedEdge} (run : Schedule nt edges)
  {built : ScatterState (Fin (scatterCalls edges).length)}

theorem Schedule.searchable
    (hBuilt : ReflTransGen (ScatterStep (scatterCalls edges).get) run.scatterStart built)
    (hFinal : ∀ t, ¬ ScatterStep (scatterCalls edges).get built t)
    (hFits : (run.graph built).nv + 63 < 2 ^ 31) {src : Nat} (hSrc : src < (run.graph built).nv) :
    (run.graph built).Searchable edges src where
  built :=
    { nv := (packEdges_nv _ _).trans run.nv_eq
      represents := (run.gathered_slotted_and_represents hBuilt hFinal).2 }
  fits := hFits
  source := hSrc

/-- A call of the parallel `make_bfs_tree` on a graph of the parallel builder, whatever is left of
earlier calls. No run goes on for ever, and each goes on until it is finished or its threads have
parted; if it is finished, the tree is a breadth-first tree, with the vertices and levels of both
sequential searches. As long as no thread is late the threads do not part. -/
theorem Schedule.search_correct
    (hBuilt : ReflTransGen (ScatterStep (scatterCalls edges).get) run.scatterStart built)
    (hFinal : ∀ t, ¬ ScatterStep (scatterCalls edges).get built t)
    (hFits : (run.graph built).nv + 63 < 2 ^ 31) {src : Nat} (hSrc : src < (run.graph built).nv)
    (vlist csrVlist listVlist : Nat → Nat) (past next : Bitmap) (listNext : Nat → Int) :
    run.createGraphOmp built = some (run.graph built) ∧
    ∃ csr list, makeBfsTreeCsr (createGraph edges) csrVlist src = some csr ∧
      makeBfsTreeList edges listNext listVlist src = some list ∧
      Acc (fun t s => SearchMove (run.graph built) s t)
        (startSearch (run.graph built) nt vlist past next src) ∧
      (∀ s, ReflTransGen (SearchMove (run.graph built))
          (startSearch (run.graph built) nt vlist past next src) s →
        (s.Finished → IsBfsTree edges src s.mem.tree ∧ SameSearch src s.mem.tree csr ∧
          SameSearch src s.mem.tree list) ∧
        ((∀ t, ¬ SearchMove (run.graph built) s t) → s.Finished ∨ s.Diverged)) ∧
      ∀ s, ReflTransGen (SearchStep (run.graph built) ∅)
          (startSearch (run.graph built) nt vlist past next src) s → ¬ s.Diverged := by
  have hSearch := run.searchable hBuilt hFinal hFits hSrc
  have hnv := hSearch.built.nv
  refine ⟨run.createGraphOmp_eq (bitmapsFit_of_lt (hnv ▸ hFits)), ?_⟩
  obtain ⟨csr, hCsr, hCsrTree⟩ := makeBfsTreeCsr_isBfsTree (createGraph_builtFrom edges)
    (show src < (createGraph edges).nv by rw [createGraph_nv, ← hnv]; exact hSrc) csrVlist
  obtain ⟨list, hList, hListTree⟩ := makeBfsTreeList_isBfsTree (hnv ▸ hSrc) listNext listVlist
  refine ⟨csr, list, hCsr, hList, search_ends vlist past next hSearch run.threads_pos, fun s hRun => ?_,
    fun s hRun => (agreed_of_reaches vlist past next hRun).together⟩
  obtain ⟨r, hAt⟩ := searchAt_of_reaches vlist past next hSearch run.threads_pos hRun
  refine ⟨fun hFinished => ?_, fun hStuck => ?_⟩
  · have hTree := hAt.isBfsTree hFinished
    exact ⟨hTree, hTree.sameSearch hCsrTree, hTree.sameSearch hListTree⟩
  · by_contra hNeither
    rw [not_or] at hNeither
    obtain ⟨t, hStep⟩ := hAt.exists_step hSearch run.threads_pos hNeither.1 hNeither.2
    exact hStuck t ⟨∅, hStep⟩

theorem two_threads_search :
    ∃ (run : Schedule 2 [⟨0, 1⟩, ⟨1, 2⟩])
      (built : ScatterState (Fin (scatterCalls [⟨0, 1⟩, ⟨1, 2⟩]).length)),
      Acc (fun t s => SearchMove (run.graph built) s t)
        (startSearch (run.graph built) 2 id (fun _ => 0) (fun _ => 1) 1) ∧
      ∀ s, ReflTransGen (SearchStep (run.graph built) ∅)
        (startSearch (run.graph built) 2 id (fun _ => 0) (fun _ => 1) 1) s → ¬ s.Diverged := by
  obtain ⟨run, _⟩ := exists_schedule two_pos
    (fun t => if t = 0 then [⟨0, 1⟩] else [⟨1, 2⟩]) (List.Perm.refl _)
  obtain ⟨built, hBuilt, hFinal⟩ := exists_final scatterStep_ends run.scatterStart
  have hnv : (run.graph built).nv = 3 := (packEdges_nv _ _).trans (run.nv_eq.trans (by decide))
  obtain ⟨_, _, _, _, _, hEnds, _, hTogether⟩ := run.search_correct hBuilt hFinal (by omega)
    (show 1 < (run.graph built).nv by omega) id id id (fun _ => 0) (fun _ => 1) fun _ => 0
  exact ⟨run, built, hEnds, hTogether⟩

end Builders

section LateThread

variable {g : Csr}

theorem searches_of_turns {nt : Nat} {m m' : Memory} {threads threads' : Fin nt → Scan}
    (edgesToCheck : Fin nt → Int) (awake oldk2 : Nat)
    (h : ReflTransGen (Interleave (TopDownStep g)) (m, threads) (m', threads')) :
    ReflTransGen (SearchMove g) ⟨m, edgesToCheck, awake, .topDown oldk2 threads⟩
      ⟨m', edgesToCheck, awake, .topDown oldk2 threads'⟩ :=
  h.lift (p := SearchMove g)
    (fun s : Memory × (Fin nt → Scan) => ⟨s.1, edgesToCheck, awake, .topDown oldk2 s.2⟩)
    fun a b hTurn => ⟨∅, .topDownTurn a.1 b.1 edgesToCheck awake oldk2 a.2 b.2 hTurn⟩

theorem scan_path (hnv : g.nv = 22) (hNeighbours : g.neighbours 0 = [1]) {m : Memory} (hk2 : m.k2 = 1)
    (hv : m.vlist 0 = 0) (hTree : m.tree 1 = -1) :
    ∃ m', ReflTransGen (Alone (TopDownStep g)) (m, ⟨[0], 0, [], [], .scanning⟩)
        (m', ⟨[], 0, [], [], .finished⟩) ∧
      m'.tree = Function.update m.tree 1 0 ∧ m'.k2 = 2 ∧ m'.vlist 1 = 1 ∧ m'.scoutCount = m.scoutCount := by
  obtain ⟨tree, vlist, k1, k2, past, next, scoutCount⟩ := m
  obtain rfl : k2 = 1 := hk2
  have hVertex := TopDownStep.vertex (g := g) ⟨tree, vlist, k1, 1, past, next, scoutCount⟩ 0 [] 0 []
  rw [hv, hNeighbours] at hVertex
  refine ⟨_, .head (.turn hVertex) (.head (.turn (.look _ [] 0 1 [] [] hTree))
    (.head (.turn (.win _ [] 0 1 [] [] hTree (by decide)))
    (.head (.turn (.last _ 0 [1] (List.cons_ne_nil 1 []))) (.head (.turn (.reserve _ [] 0 [] [1] 1 []))
    (.head (.turn (.store _ [] 0 [] [1] 1 1 [] ?_)) (.single (.turn (.finish _ 0)))))))), rfl, rfl, rfl, rfl⟩
  omega

/-- Two threads search the path 0, 1, 2 beside 19 vertices without edges. The second thread subtracts
the new `scout_count`, 0, and alone goes on top-down. -/
theorem exists_diverged (hnv : g.nv = 22) (hOff : g.xoff g.nv = 44) (hFirst : (g.xend 0 : Int) - g.xoff 0 = 1)
    (hSecond : (g.xend 1 : Int) - g.xoff 1 = 2) (hNeighbours : g.neighbours 0 = [1])
    (vlist : Nat → Nat) (past next : Bitmap) :
    ∃ s, ReflTransGen (SearchMove g) (startSearch g 2 vlist past next 0) s ∧ s.Diverged ∧ s.mem.tree 2 = -1 := by
  obtain ⟨m, hm⟩ : ∃ m, m = (startSearch g 2 vlist past next 0).mem := ⟨_, rfl⟩
  have hStart : startSearch g 2 vlist past next 0 = ⟨m, fun _ => 44, 1, .test⟩ := by
    rw [hm, startSearch, hOff]
    rfl
  have hv : m.vlist 0 = 0 := by
    rw [hm]
    exact Function.update_self 0 0 vlist
  have hTree : ∀ v, v ≠ 0 → m.tree v = -1 := fun v hNe => by
    rw [hm]
    exact Function.update_of_ne hNe (0 : Int) fun _ => -1
  have hScout : m.scoutCount = 1 := by
    rw [hm]
    exact hFirst
  have hk1 : m.k1 = 0 := congrArg Memory.k1 hm
  have hk2 : m.k2 = 1 := congrArg Memory.k2 hm
  have hAll : ∀ t : Fin 2, Search.TopDown ⟨m, fun _ => 44, 1, .test⟩ t := fun t => by
    show m.scoutCount < (44 - m.scoutCount).tdiv alpha
    rw [hScout]
    decide
  have hShare : Shares ![[0], []] (List.range' m.k1 (m.k2 - m.k1)) := by
    rw [hk1, hk2]
    exact List.Perm.refl _
  have hBegin : SearchMove g ⟨m, fun _ => 44, 1, .test⟩ _ :=
    ⟨∅, .topDown m _ 1 _ Nat.one_ne_zero hAll hShare⟩
  obtain ⟨m', hScan, hTree', hk2', hv', hScout'⟩ := scan_path hnv hNeighbours hk2 hv (hTree 1 Nat.one_ne_zero)
  have hTurns := (interleave_of_alone hScan (fun t : Fin 2 => ⟨![[0], []] t, 0, [], [], .scanning⟩)
    (i := 0) rfl).tail (c := (m', Function.update _ 1 _)) ⟨1, _, TopDownStep.finish m' 0, rfl⟩
  have hScanned := searches_of_turns (fun _ => 44) 1 m.k2 hTurns
  have hDegrees : frontierDegrees g { m' with k1 := m.k2 } = 2 := by
    rw [frontierDegrees]
    dsimp only
    rw [hk2, hk2', List.range'_one, List.map_singleton, List.sum_singleton, hv', hSecond]
  have hAwake : m'.k2 - m.k2 ≠ 0 := by omega
  rw [hStart]
  refine ⟨_, .head hBegin (hScanned.tail ⟨{1}, .topDownEnd m' _ 1 m.k2 _ {1}
    (Fin.forall_fin_two.mpr ⟨rfl, rfl⟩) ⟨0, by decide⟩⟩), ⟨rfl, hAwake, ⟨1, ?_⟩, ⟨0, ?_⟩⟩, ?_⟩
  · show frontierDegrees g { m' with k1 := m.k2 } <
      ((44 - 0 : Int) - frontierDegrees g { m' with k1 := m.k2 }).tdiv alpha
    rw [hDegrees]
    decide
  · show ¬ frontierDegrees g { m' with k1 := m.k2 } <
      ((44 - m'.scoutCount) - frontierDegrees g { m' with k1 := m.k2 }).tdiv alpha
    rw [hDegrees, hScout', hScout]
    decide
  · show m'.tree 2 = -1
    rw [hTree', Function.update_of_ne (by decide)]
    exact hTree 2 two_ne_zero

theorem Csr.Represents.path_adjacency (h : g.Represents [⟨0, 1⟩, ⟨1, 2⟩, ⟨21, 21⟩]) (hnv : g.nv = 22) :
    g.adjacency 0 = [1] ∧ g.adjacency 1 = [0, 2] := by
  have hEnds : ∀ i < 22, ∀ v, v ∈ g.adjacency i ↔ ∃ j : Nat, v = j ∧ j ≠ i ∧
      ((0 = i ∧ 1 = j ∨ 0 = j ∧ 1 = i) ∨ (1 = i ∧ 2 = j ∨ 1 = j ∧ 2 = i) ∨
        (21 = i ∧ 21 = j ∨ 21 = j ∧ 21 = i)) := fun i hi v => by
    rw [h.neighbours i (hnv ▸ hi) v]
    simp only [List.mem_cons, List.not_mem_nil, or_false, exists_eq_or_imp, exists_eq_left]
    rfl
  constructor
  · refine (h.ascending 0 (by omega)).eq_of_mem_iff (List.pairwise_singleton _ _) fun v => ?_
    rw [hEnds 0 (by omega), List.mem_singleton]
    constructor
    · rintro ⟨j, rfl, hj⟩
      omega
    · rintro rfl
      exact ⟨1, by omega⟩
  · refine (h.ascending 1 (by omega)).eq_of_mem_iff (by decide) fun v => ?_
    rw [hEnds 1 (by omega), List.mem_cons, List.mem_singleton]
    constructor
    · rintro ⟨j, rfl, hj⟩
      omega
    · rintro (rfl | rfl)
      · exact ⟨0, by omega⟩
      · exact ⟨2, by omega⟩

theorem late_thread_stops_search :
    ∃ (run : Schedule 2 [⟨0, 1⟩, ⟨1, 2⟩, ⟨21, 21⟩])
      (built : ScatterState (Fin (scatterCalls [⟨0, 1⟩, ⟨1, 2⟩, ⟨21, 21⟩]).length)),
      ReflTransGen (ScatterStep (scatterCalls [⟨0, 1⟩, ⟨1, 2⟩, ⟨21, 21⟩]).get) run.scatterStart built ∧
      (∀ t, ¬ ScatterStep (scatterCalls [⟨0, 1⟩, ⟨1, 2⟩, ⟨21, 21⟩]).get built t) ∧
      (run.graph built).nv = 22 ∧
      ∃ s, ReflTransGen (SearchMove (run.graph built))
          (startSearch (run.graph built) 2 (fun _ => 0) (fun _ => 0) (fun _ => 0) 0) s ∧
        (∀ t, ¬ SearchMove (run.graph built) s t) ∧ ¬ s.Finished ∧
        ¬ IsBfsTree [⟨0, 1⟩, ⟨1, 2⟩, ⟨21, 21⟩] 0 s.mem.tree := by
  obtain ⟨run, _⟩ := exists_schedule two_pos
    (fun t => if t = 0 then [⟨0, 1⟩, ⟨1, 2⟩] else [⟨21, 21⟩]) (List.Perm.refl _)
  obtain ⟨built, hBuilt, hFinal⟩ := exists_final scatterStep_ends run.scatterStart
  have hRepresents := (run.gathered_slotted_and_represents hBuilt hFinal).2
  have hRunNv : run.nv = 22 := run.nv_eq.trans (by decide)
  have hnv : (run.graph built).nv = 22 := (packEdges_nv _ _).trans hRunNv
  have hOff : (run.graph built).xoff (run.graph built).nv = 44 := by
    rw [hnv, Schedule.graph, packEdges_xoff]
    show run.xoff 22 = 44
    rw [run.xoff_apply hRunNv.ge, hRunNv]
    decide
  obtain ⟨hFirst, hSecond⟩ := hRepresents.path_adjacency hnv
  have hDegree : ∀ i < 22, ((run.graph built).xend i : Int) - (run.graph built).xoff i =
      ((run.graph built).adjacency i).length := fun i hi => by
    have hSlot := (hRepresents.slot i (hnv ▸ hi)).1
    rw [Csr.adjacency, length_cells]
    omega
  obtain ⟨s, hRun, hDiverged, hNone⟩ := exists_diverged hnv hOff
    (by rw [hDegree 0 (by omega), hFirst]; rfl) (by rw [hDegree 1 (by omega), hSecond]; rfl)
    (by rw [Csr.neighbours, hFirst]; rfl) (fun _ => 0) (fun _ => 0) (fun _ => 0)
  refine ⟨run, built, hBuilt, hFinal, hnv, s, hRun, fun t => hDiverged.stuck,
    fun hFinished => hDiverged.2.1 hFinished.2, fun hTree => (hTree.unreached 2).mp hNone ?_⟩
  have hOne : (edgeGraph [⟨0, 1⟩, ⟨1, 2⟩, ⟨21, 21⟩]).Adj 0 1 :=
    edgeGraph_adj.mpr ⟨zero_ne_one, ⟨0, 1⟩, by simp, Or.inl ⟨rfl, rfl⟩⟩
  have hTwo : (edgeGraph [⟨0, 1⟩, ⟨1, 2⟩, ⟨21, 21⟩]).Adj 1 2 :=
    edgeGraph_adj.mpr ⟨by decide, ⟨1, 2⟩, by simp, Or.inl ⟨rfl, rfl⟩⟩
  exact hOne.reachable.trans hTwo.reachable

end LateThread

end Trident.Graph500
