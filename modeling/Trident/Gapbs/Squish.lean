import Trident.Gapbs.Insertions

/-! # The built graph

Sorting, `unique` and `remove` leave the distinct neighbors of a row, and the second compaction moves
the rows together. So the graph lists the targets of the edges, however the edges were inserted.
-/

namespace Trident.Gapbs

open BlockQueue Transition

section Rows

variable {W : Type*}

theorem mem_destutter' {a : NodeWeight W} {l : List (NodeWeight W)} {v : Nat} :
    v ∈ (l.destutter' (fun a b => a.v ≠ b.v) a).map NodeWeight.v ↔
      v = a.v ∨ v ∈ l.map NodeWeight.v := by
  induction l generalizing a with
  | nil => simp
  | cons b l ih =>
    rw [List.map_cons, List.mem_cons]
    by_cases hNe : a.v ≠ b.v
    · rw [List.destutter'_cons_pos l hNe, List.map_cons, List.mem_cons, ih]
    · rw [List.destutter'_cons_neg l hNe, ih, ← not_not.mp hNe, ← or_assoc, or_self_iff]

theorem pairwise_destutter' {a : NodeWeight W} {l : List (NodeWeight W)}
    (h : (a :: l).Pairwise fun a b => a.v ≤ b.v) :
    ((l.destutter' (fun a b => a.v ≠ b.v) a).map NodeWeight.v).Pairwise (· < ·) := by
  induction l generalizing a with
  | nil => exact List.pairwise_singleton _ _
  | cons b l ih =>
    obtain ⟨hFirst, hRest⟩ := List.pairwise_cons.mp h
    by_cases hNe : a.v ≠ b.v
    · rw [List.destutter'_cons_pos l hNe, List.map_cons, List.pairwise_cons]
      refine ⟨fun v hv => ?_, ih hRest⟩
      have hLess : a.v < b.v := lt_of_le_of_ne (hFirst b List.mem_cons_self) hNe
      rcases mem_destutter'.mp hv with rfl | hLater
      · exact hLess
      · obtain ⟨c, hc, rfl⟩ := List.mem_map.mp hLater
        exact hLess.trans_le ((List.pairwise_cons.mp hRest).1 c hc)
    · rw [List.destutter'_cons_neg l hNe]
      exact ih (List.pairwise_cons.mpr ⟨fun c hc => hFirst c (List.mem_cons_of_mem b hc),
        (List.pairwise_cons.mp hRest).2⟩)

variable [LinearOrder W]

theorem NodeWeight.Le.v_le {a b : NodeWeight W} (h : a.Le b) : a.v ≤ b.v := by
  rw [NodeWeight.Le] at h
  split at h <;> omega

instance : Std.Total (NodeWeight.Le (W := W)) where
  total a b := by
    rw [NodeWeight.Le, NodeWeight.Le]
    rcases Nat.lt_trichotomy a.v b.v with hLess | hSame | hMore
    · exact Or.inl (by rwa [if_neg hLess.ne])
    · rw [if_pos hSame, if_pos hSame.symm]
      exact le_total a.w b.w
    · exact Or.inr (by rwa [if_neg hMore.ne])

instance : IsTrans (NodeWeight W) NodeWeight.Le where
  trans a b c hab hbc := by
    have hFirst := hab.v_le
    have hSecond := hbc.v_le
    rw [NodeWeight.Le] at hab hbc ⊢
    split
    · rename_i hSame
      rw [if_pos (by omega)] at hab hbc
      exact hab.trans hbc
    · omega

theorem squishRow_spec (n : Nat) (row : List (NodeWeight W)) :
    ((squishRow n row).map NodeWeight.v).Pairwise (· < ·) ∧
      (∀ v, v ∈ (squishRow n row).map NodeWeight.v ↔ v ≠ n ∧ v ∈ row.map NodeWeight.v) ∧
      squishRow n row ⊆ row ∧ (squishRow n row).length ≤ row.length := by
  have hSorted : (row.insertionSort NodeWeight.Le).Pairwise fun a b => a.v ≤ b.v :=
    (List.pairwise_insertionSort NodeWeight.Le row).imp NodeWeight.Le.v_le
  have hPerm := List.perm_insertionSort NodeWeight.Le row
  have hIds : ∀ v, v ∈ (squishRow n row).map NodeWeight.v ↔ v ≠ n ∧
      v ∈ ((row.insertionSort NodeWeight.Le).destutter fun a b => a.v ≠ b.v).map NodeWeight.v := by
    intro v
    simp only [squishRow, List.mem_map, List.mem_filter, decide_eq_true_iff]
    constructor
    · rintro ⟨a, ⟨ha, hNe⟩, rfl⟩
      exact ⟨hNe, a, ha, rfl⟩
    · rintro ⟨hNe, a, ha, rfl⟩
      exact ⟨a, ⟨ha, hNe⟩, rfl⟩
  have hMem : ∀ v, v ∈ ((row.insertionSort NodeWeight.Le).destutter fun a b => a.v ≠ b.v).map
      NodeWeight.v ↔ v ∈ row.map NodeWeight.v := by
    intro v
    rw [← (hPerm.map NodeWeight.v).mem_iff]
    cases row.insertionSort NodeWeight.Le with
    | nil => rfl
    | cons a l => rw [List.destutter_cons', mem_destutter', List.map_cons, List.mem_cons]
  have hSub : (squishRow n row).Sublist (row.insertionSort NodeWeight.Le) :=
    List.filter_sublist.trans (List.destutter_sublist _ _)
  refine ⟨?_, fun v => (hIds v).trans (and_congr_right fun _ => hMem v),
    fun a ha => hPerm.mem_iff.mp (hSub.subset ha), ?_⟩
  · have hAscending : (((row.insertionSort NodeWeight.Le).destutter fun a b => a.v ≠ b.v).map
        NodeWeight.v).Pairwise (· < ·) := by
      cases hList : row.insertionSort NodeWeight.Le with
      | nil => exact List.Pairwise.nil
      | cons a l =>
        rw [List.destutter_cons']
        exact pairwise_destutter' (hList ▸ hSorted)
    exact hAscending.sublist (List.filter_sublist.map NodeWeight.v)
  · exact hSub.length_le.trans hPerm.length_eq.le

end Rows

section Compaction

variable {D : Type*} {numNodes : Nat} {index : Nat → Nat} {row : Nat → List D}

theorem copyRows_spec (hNext : Consecutive numNodes index fun x => (row x).length) (neighs : Nat → D)
    {m : Nat} (hm : m ≤ numNodes) {x : Nat} (hx : x < m) :
    neighborhood index ((List.range m).foldl (fun neighs n => writeBlock neighs (index n) (row n)) neighs)
      x 0 = row x := by
  induction m with
  | zero => omega
  | succ m ih =>
    rw [List.range_succ, List.foldl_append, List.foldl_cons, List.foldl_nil]
    obtain rfl | hBefore := Nat.eq_or_lt_of_le (Nat.le_of_lt_succ hx)
    · rw [neighborhood_zero, hNext x hm, Nat.add_sub_cancel_left]
      exact map_writeBlock _ (index x) (row x)
    · rw [← ih (Nat.le_of_succ_le hm) hBefore, neighborhood_zero, neighborhood_zero]
      refine List.map_congr_left fun c hc => writeBlock_outside (Or.inl ?_)
      have hMono : index (x + 1) ≤ index m := hNext.mono hBefore (Nat.le_of_succ_le hm)
      have hRow := hNext x (by omega)
      rw [List.mem_range'_1] at hc
      omega

end Compaction

section Graphs

variable {W : Type*} {calls inCalls : List (Nat × NodeWeight W)} {symmetrize transpose : Bool}
  {el : List (EdgePair W)}

/-- A row lists the distinct values that go to `x`, but not `x` itself, in ascending order. -/
structure RowOk (calls : List (Nat × NodeWeight W)) (x : Nat) (row : List (NodeWeight W)) : Prop where
  ascending : (row.map NodeWeight.v).Pairwise (· < ·)
  mem : ∀ v, v ∈ row.map NodeWeight.v ↔ v ≠ x ∧ v ∈ (rowOf calls x).map NodeWeight.v
  subset : row ⊆ rowOf calls x

/-- What the builder makes of a list that fits: the rows lie one behind the other, and no edge has a new
weight. -/
structure Built (symmetrize : Bool) (el : List (EdgePair W)) (g : CSRGraph (NodeWeight W)) : Prop
    extends Represents symmetrize el g where
  out_mono : ∀ u < g.numNodes, g.outIndex u ≤ g.outIndex (u + 1)
  in_mono : ∀ u < g.numNodes, g.inIndex u ≤ g.inIndex (u + 1)
  weights : ∀ u < g.numNodes, ∀ wn ∈ g.outNeigh u 0, ∃ e ∈ el, e.v.w = wn.w

theorem mem_insertions {e : EdgePair W} {c : Nat × NodeWeight W} :
    c ∈ e.insertions symmetrize transpose ↔
      c = (e.u, e.v) ∧ (symmetrize = true ∨ transpose = false) ∨
        c = (e.v.v, ⟨e.u, e.v.w⟩) ∧ (symmetrize = true ∨ transpose = true) := by
  cases symmetrize <;> cases transpose <;> simp [EdgePair.insertions]

theorem mem_rowOf {x v : Nat} :
    v ∈ (rowOf (el.flatMap (EdgePair.insertions symmetrize transpose)) x).map NodeWeight.v ↔
      ∃ e ∈ el, (e.u = x ∧ e.v.v = v ∧ (symmetrize = true ∨ transpose = false)) ∨
        (e.v.v = x ∧ e.u = v ∧ (symmetrize = true ∨ transpose = true)) := by
  simp only [rowOf, List.map_map, List.mem_map, List.mem_filter, List.mem_flatMap, decide_eq_true_iff,
    mem_insertions]
  constructor
  · rintro ⟨c, ⟨⟨e, he, ⟨rfl, hForward⟩ | ⟨rfl, hBackward⟩⟩, rfl⟩, rfl⟩
    · exact ⟨e, he, Or.inl ⟨rfl, rfl, hForward⟩⟩
    · exact ⟨e, he, Or.inr ⟨rfl, rfl, hBackward⟩⟩
  · rintro ⟨e, he, ⟨rfl, rfl, hForward⟩ | ⟨rfl, rfl, hBackward⟩⟩
    · exact ⟨(e.u, e.v), ⟨⟨e, he, Or.inl ⟨rfl, hForward⟩⟩, rfl⟩, rfl⟩
    · exact ⟨(e.v.v, ⟨e.u, e.v.w⟩), ⟨⟨e, he, Or.inr ⟨rfl, hBackward⟩⟩, rfl⟩, rfl⟩

theorem le_findMaxNodeID {e : EdgePair W} (he : e ∈ el) :
    e.u ≤ findMaxNodeID el ∧ e.v.v ≤ findMaxNodeID el := by
  induction el using List.reverseRecOn with
  | nil => cases he
  | append_singleton el d ih =>
    rw [findMaxNodeID, List.foldl_append, List.foldl_cons, List.foldl_nil, ← findMaxNodeID]
    rcases List.mem_append.mp he with hOld | hLast
    · have hBefore := ih hOld
      omega
    · rw [List.mem_singleton.mp hLast]
      omega

theorem Fits.degree (h : Fits symmetrize el) (transpose : Bool) (n : Nat) :
    ((el.flatMap (EdgePair.insertions symmetrize transpose)).map Prod.fst).count n < 2 ^ 63 := by
  have hCount := List.count_le_length (a := n)
    (l := (el.flatMap (EdgePair.insertions symmetrize transpose)).map Prod.fst)
  rw [List.length_map] at hCount
  exact hCount.trans_lt (h.neighbors transpose)

theorem makeGraph_spec (hFits : Fits symmetrize el) {result : Option (CSRGraph (NodeWeight W))}
    (h : MakeGraphFromEL symmetrize el result) :
    ∃ g, result = some g ∧ g.numNodes = findMaxNodeID el + 1 ∧ g.directed = !symmetrize ∧
      ∀ x < g.numNodes,
        (g.outNeigh x 0).Perm (rowOf (el.flatMap (EdgePair.insertions symmetrize false)) x) ∧
        (g.inNeigh x 0).Perm (rowOf (el.flatMap (EdgePair.insertions symmetrize true)) x) := by
  classical
  have hNodes := hFits.nodes
  have hCount : countNodes el = some (findMaxNodeID el + 1) := if_pos (by omega)
  have hKnown : ∀ transpose, ∀ c ∈ el.flatMap (EdgePair.insertions symmetrize transpose),
      c.1 < findMaxNodeID el + 1 := by
    intro transpose c hc
    obtain ⟨e, he, hc⟩ := List.mem_flatMap.mp hc
    obtain ⟨hu, hv⟩ := le_findMaxNodeID he
    rcases mem_insertions.mp hc with ⟨rfl, _⟩ | ⟨rfl, _⟩
    · exact Nat.lt_succ_of_le hu
    · exact Nat.lt_succ_of_le hv
  cases h with
  | overflow hNone =>
    rw [hCount] at hNone
    cases hNone
  | symmetric n hn hSymmetrize out hOut =>
    rw [hCount, Option.some_inj] at hn
    subst hn
    subst hSymmetrize
    obtain ⟨index, neighs, rfl, hRows⟩ :=
      makeCSR_spec (by omega) (hKnown false) (hFits.degree false) hOut
    exact ⟨_, rfl, rfl, rfl, fun x hx => ⟨hRows x hx, hRows x hx⟩⟩
  | directed n hn hDirected out inv hOut hInv =>
    rw [hCount, Option.some_inj] at hn
    subst hn
    subst hDirected
    obtain ⟨index, neighs, rfl, hRows⟩ :=
      makeCSR_spec (by omega) (hKnown false) (hFits.degree false) hOut
    obtain ⟨index', neighs', rfl, hRows'⟩ :=
      makeCSR_spec (by omega) (hKnown true) (hFits.degree true) hInv
    exact ⟨_, rfl, rfl, rfl, fun x hx => ⟨hRows x hx, hRows' x hx⟩⟩

theorem represents_of_rows {g : CSRGraph (NodeWeight W)} (hNodes : g.numNodes = findMaxNodeID el + 1)
    (hDirected : g.directed = !symmetrize)
    (hUndirected : g.directed = false → g.inIndex = g.outIndex ∧ g.inNeighbors = g.outNeighbors)
    (hRows : ∀ x < g.numNodes,
      RowOk (el.flatMap (EdgePair.insertions symmetrize false)) x (g.outNeigh x 0) ∧
      RowOk (el.flatMap (EdgePair.insertions symmetrize true)) x (g.inNeigh x 0)) :
    Represents symmetrize el g := by
  have hOut : ∀ u < g.numNodes, ∀ v, v ∈ g.outIds u ↔
      v ≠ u ∧ ∃ e ∈ el, (e.u = u ∧ e.v.v = v) ∨ (symmetrize = true ∧ e.u = v ∧ e.v.v = u) := by
    intro u hu v
    rw [CSRGraph.outIds, (hRows u hu).1.mem v, mem_rowOf]
    refine and_congr_right fun _ => exists_congr fun e => and_congr_right fun _ => ?_
    cases symmetrize <;> simp [and_comm]
  have hIn : ∀ u < g.numNodes, ∀ v, v ∈ g.inIds u ↔
      v ≠ u ∧ ∃ e ∈ el, (e.u = v ∧ e.v.v = u) ∨ (symmetrize = true ∧ e.u = u ∧ e.v.v = v) := by
    intro u hu v
    rw [CSRGraph.inIds, (hRows u hu).2.mem v, mem_rowOf]
    refine and_congr_right fun _ => exists_congr fun e => and_congr_right fun _ => ?_
    cases symmetrize <;> simp [and_comm, or_comm]
  refine ⟨hNodes, hDirected, hUndirected, fun u hu => (hRows u hu).1.ascending,
    fun u hu => (hRows u hu).2.ascending, hOut, ?_⟩
  intro u hu v
  rw [hIn u hu v]
  constructor
  · rintro ⟨hNe, e, he, hEdge⟩
    obtain ⟨hFirst, hSecond⟩ := le_findMaxNodeID he
    have hv : v < g.numNodes := by
      rw [hNodes]
      rcases hEdge with ⟨rfl, _⟩ | ⟨_, _, rfl⟩
      · exact Nat.lt_succ_of_le hFirst
      · exact Nat.lt_succ_of_le hSecond
    exact ⟨hv, (hOut v hv u).mpr ⟨hNe.symm, e, he, hEdge⟩⟩
  · rintro ⟨hv, hEdge⟩
    obtain ⟨hNe, hEdge⟩ := (hOut v hv u).mp hEdge
    exact ⟨hNe.symm, hEdge⟩

variable [LinearOrder W] {g : CSRGraph (NodeWeight W)}

theorem squishRow_ok {x : Nat} {row : List (NodeWeight W)} (h : row.Perm (rowOf calls x)) :
    RowOk calls x (squishRow x row) := by
  obtain ⟨hAscending, hMem, hSub, _⟩ := squishRow_spec x row
  refine ⟨hAscending, fun v => (hMem v).trans ?_, fun a ha => h.mem_iff.mp (hSub ha)⟩
  rw [(h.map NodeWeight.v).mem_iff]

theorem squishCSR_spec (hNodes : g.numNodes + 1 < 2 ^ 63) (transpose : Bool)
    (hRows : ∀ x < g.numNodes, (if transpose then g.inNeigh x 0 else g.outNeigh x 0).Perm (rowOf calls x))
    (hFits : ∀ x, (rowOf calls x).length < 2 ^ 63) (sums : Nat → Int) (neighs : Nat → NodeWeight W) :
    ∃ index neighs', squishCSR g transpose sums neighs = some (index, neighs') ∧
      (∀ x < g.numNodes, index x ≤ index (x + 1)) ∧
      ∀ x < g.numNodes, RowOk calls x (neighborhood index neighs' x 0) := by
  have hDiffs : ∀ x < g.numNodes,
      nodeID (squishRow x (if transpose then g.inNeigh x 0 else g.outNeigh x 0)).length =
        ((squishRow x (if transpose then g.inNeigh x 0 else g.outNeigh x 0)).length : Nat) := by
    intro x hx
    have hLength := (squishRow_spec x (if transpose then g.inNeigh x 0 else g.outNeigh x 0)).2.2.2
    have hRow := (hRows x hx).length_eq
    have hLess := hFits x
    exact nodeID_of_lt (by omega) (by omega)
  obtain ⟨index, hIndex, hNext⟩ := genIndex_eq hNodes sums _ hDiffs
  refine ⟨index, _, by rw [squishCSR]; dsimp only; rw [hIndex]; rfl,
    fun x hx => hNext.mono (Nat.le_succ x) hx, fun x hx => ?_⟩
  rw [copyRows_spec hNext neighs le_rfl hx]
  exact squishRow_ok (hRows x hx)

theorem squishGraph_spec (hNodes : g.numNodes + 1 < 2 ^ 63)
    (hOut : ∀ x < g.numNodes, (g.outNeigh x 0).Perm (rowOf calls x))
    (hIn : ∀ x < g.numNodes, (g.inNeigh x 0).Perm (rowOf inCalls x))
    (hSame : g.directed = false → calls = inCalls) (hFits : ∀ x, (rowOf calls x).length < 2 ^ 63)
    (hFitsIn : ∀ x, (rowOf inCalls x).length < 2 ^ 63) {result : Option (CSRGraph (NodeWeight W))}
    (h : SquishGraph g result) :
    ∃ g', result = some g' ∧ g'.numNodes = g.numNodes ∧ g'.directed = g.directed ∧
      (g'.directed = false → g'.inIndex = g'.outIndex ∧ g'.inNeighbors = g'.outNeighbors) ∧
      (∀ x < g.numNodes, g'.outIndex x ≤ g'.outIndex (x + 1)) ∧
      (∀ x < g.numNodes, g'.inIndex x ≤ g'.inIndex (x + 1)) ∧
      ∀ x < g.numNodes, RowOk calls x (g'.outNeigh x 0) ∧ RowOk inCalls x (g'.inNeigh x 0) := by
  cases h with
  | directed hDirected sums sums' neighs neighs' =>
    obtain ⟨index, cells, hFirst, hMono, hRows⟩ := squishCSR_spec hNodes false hOut hFits sums neighs
    obtain ⟨index', cells', hSecond, hMono', hRows'⟩ := squishCSR_spec hNodes true hIn hFitsIn sums' neighs'
    rw [hFirst, hSecond]
    exact ⟨_, rfl, rfl, hDirected.symm, nofun, hMono, hMono', fun x hx => ⟨hRows x hx, hRows' x hx⟩⟩
  | undirected hUndirected sums neighs =>
    obtain ⟨index, cells, hFirst, hMono, hRows⟩ := squishCSR_spec hNodes false hOut hFits sums neighs
    rw [hFirst]
    exact ⟨_, rfl, rfl, hUndirected.symm, fun _ => ⟨rfl, rfl⟩, hMono, hMono, fun x hx =>
      ⟨hRows x hx, hSame hUndirected ▸ hRows x hx⟩⟩

theorem Fits.built (hFits : Fits symmetrize el) {result : Option (CSRGraph (NodeWeight W))}
    (h : Builds symmetrize el result) : ∃ g, result = some g ∧ Built symmetrize el g := by
  cases h with
  | undefined hNone =>
    obtain ⟨g, hg, _⟩ := makeGraph_spec hFits hNone
    cases hg
  | squished g hGraph _ hSquish =>
    obtain ⟨_, hg, hNodes, hDirected, hRows⟩ := makeGraph_spec hFits hGraph
    cases hg
    have hSame : g.directed = false → el.flatMap (EdgePair.insertions symmetrize false) =
        el.flatMap (EdgePair.insertions symmetrize true) := by
      intro hUndirected
      rw [hDirected] at hUndirected
      cases symmetrize with
      | false => cases hUndirected
      | true => rfl
    have hLength : ∀ transpose x,
        (rowOf (el.flatMap (EdgePair.insertions symmetrize transpose)) x).length < 2 ^ 63 := by
      intro transpose x
      rw [length_rowOf]
      exact hFits.degree transpose x
    have hBound := hFits.nodes
    obtain ⟨g', rfl, hNodes', hDirected', hArrays, hMono, hMono', hRows'⟩ := squishGraph_spec (by omega)
      (fun x hx => (hRows x hx).1) (fun x hx => (hRows x hx).2) hSame (hLength false) (hLength true)
      hSquish
    rw [← hNodes'] at hMono hMono' hRows'
    refine ⟨g', rfl, represents_of_rows (hNodes'.trans hNodes) (hDirected'.trans hDirected) hArrays hRows',
      hMono, hMono', fun u hu wn hwn => ?_⟩
    have hCall := (hRows' u hu).1.subset hwn
    obtain ⟨c, hc, rfl⟩ := List.mem_map.mp hCall
    obtain ⟨e, he, hInsert⟩ := List.mem_flatMap.mp (List.mem_of_mem_filter hc)
    obtain ⟨rfl, _⟩ | ⟨rfl, _⟩ := mem_insertions.mp hInsert
    · exact ⟨e, he, rfl⟩
    · exact ⟨e, he, rfl⟩

end Graphs

end Trident.Gapbs
