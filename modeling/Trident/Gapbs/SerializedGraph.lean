import Trident.Lib.Records
import Trident.Gapbs.EdgeComponents

/-! # Serialized graphs

What `WriteSerializedGraph` writes, byte for byte, and the graph that `ReadSerializedGraph` makes of a
file. Node ids, offsets and counts have 64 bits in memory and in the file. The type of the weights
decides whether the file is a `.sg` or a `.wsg`.
-/

namespace Trident.Gapbs

open Records

section Program

variable {D : Type}

/-- `NodeWeight`; without weights it is the node alone. -/
def nodeWeight {W : Type} (weight : Layout W) : Layout (NodeWeight W) :=
  (nat64.pair weight).via (fun wn => (wn.v, wn.w)) fun p => some ⟨p.1, p.2⟩

/-- `VertexOffsets` of one of the indices -/
def vertexOffsets (index : Nat → Nat) (numNodes : Nat) : List Nat :=
  (List.range (numNodes + 1)).map fun n => index n - index 0

/-- The cells from `begin` on. -/
def cells (neighbors : Nat → D) (start count : Nat) : List D := (List.range' start count).map neighbors

def WriteSerializedGraph (L : Layout D) (g : CSRGraph D) : List Byte :=
  let edgesToWrite := g.numEdgesDirected
  bool.store g.directed ++ (nat64.store edgesToWrite ++ (nat64.store g.numNodes ++
    (nat64.writeAll (vertexOffsets g.outIndex g.numNodes) ++
    (L.writeAll (cells g.outNeighbors (g.outIndex 0) edgesToWrite) ++
    if g.directed then
      nat64.writeAll (vertexOffsets g.inIndex g.numNodes) ++
        L.writeAll (cells g.inNeighbors (g.inIndex 0) edgesToWrite)
    else []))))

/-- `GenIndex`, whose pointers have to stay in the array -/
def neighborPointers (length : Nat) (offsets : List Nat) : Option (Nat → Nat) :=
  if ∀ offset ∈ offsets, offset ≤ length then some fun n => offsets.getD n 0 else none

/-- The reading of one index and its neighbors -/
def readRows [Inhabited D] (L : Layout D) (numNodes numEdges : Nat) (file : List Byte) :
    Option (((Nat → Nat) × (Nat → D)) × List Byte) := do
  let (offsets, file) ← nat64.readAll (numNodes + 1) file
  let (neighs, file) ← L.readAll numEdges file
  let index ← neighborPointers numEdges offsets
  return ((index, fun c => neighs.getD c default), file)

/-- `none` where memory is not there, is not filled, or is left. -/
def ReadSerializedGraph [Inhabited D] (L : Layout D) (file : List Byte) : Option (CSRGraph D) := do
  let (directed, file) ← bool.readOne file
  let (numEdges, file) ← nat64.readOne file
  let (numNodes, file) ← nat64.readOne file
  if (numNodes + 1) * 8 < 2 ^ 63 ∧ numEdges * L.size < 2 ^ 63 then
    let ((index, neighs), file) ← readRows L numNodes numEdges file
    if directed then
      let ((invIndex, invNeighs), _) ← readRows L numNodes numEdges file
      return ⟨true, numNodes, index, neighs, invIndex, invNeighs⟩
    else
      return ⟨false, numNodes, index, neighs, index, neighs⟩
  else none

end Program

/-- A graph as the builder leaves it: the rows ascend, they lie one behind the other, and the inverse
is the converse. -/
structure StoredGraph (W : Type) extends CSRGraph (NodeWeight W) where
  undirected : directed = false → inIndex = outIndex ∧ inNeighbors = outNeighbors
  out_mono : ∀ u < numNodes, outIndex u ≤ outIndex (u + 1)
  in_mono : ∀ u < numNodes, inIndex u ≤ inIndex (u + 1)
  out_ascending : ∀ u < numNodes, (toCSRGraph.outIds u).Pairwise (· < ·)
  in_ascending : ∀ u < numNodes, (toCSRGraph.inIds u).Pairwise (· < ·)
  out_lt : ∀ u < numNodes, ∀ v ∈ toCSRGraph.outIds u, v < numNodes
  no_loops : ∀ u < numNodes, u ∉ toCSRGraph.outIds u
  converse : ∀ u < numNodes, ∀ v, v ∈ toCSRGraph.inIds u ↔ v < numNodes ∧ u ∈ toCSRGraph.outIds v

/-- What the builder makes of a list of edges. -/
def Built.stored {W : Type} {symmetrize : Bool} {el : List (EdgePair W)} {g : CSRGraph (NodeWeight W)}
    (h : Built symmetrize el g) : StoredGraph W where
  toCSRGraph := g
  undirected := h.undirected
  out_mono := h.out_mono
  in_mono := h.in_mono
  out_ascending := h.out_ascending
  in_ascending := h.in_ascending
  out_lt _ hu _ hv := h.out_lt hu hv
  no_loops u hu hLoop := ((h.out u hu u).mp hLoop).1 rfl
  converse := h.converse

theorem Builds.stored {W : Type} [LinearOrder W] {symmetrize : Bool} {el : List (EdgePair W)}
    (hFits : Fits symmetrize el) {result : Option (CSRGraph (NodeWeight W))}
    (h : Builds symmetrize el result) : ∃ g : StoredGraph W, result = some g.toCSRGraph := by
  obtain ⟨g, rfl, hBuilt⟩ := hFits.built h
  exact ⟨hBuilt.stored, rfl⟩

section Arcs

variable {W : Type} {g : StoredGraph W} {index : Nat → Nat} {n : Nat}

theorem index_mono (h : ∀ u < n, index u ≤ index (u + 1)) {u v : Nat} (hLe : u ≤ v) (hv : v ≤ n) :
    index u ≤ index v := by
  induction v, hLe using Nat.le_induction with
  | base => exact le_rfl
  | succ v _ ih => exact (ih (Nat.le_of_succ_le hv)).trans (h v hv)

/-- The rows take up all the cells. -/
theorem sum_rows (h : ∀ u < n, index u ≤ index (u + 1)) :
    ∑ u ∈ Finset.range n, (index (u + 1) - index u) = index n - index 0 := by
  induction n with
  | zero => rw [Finset.sum_range_zero, Nat.sub_self]
  | succ n ih =>
    have hBefore := index_mono h (Nat.zero_le n) (Nat.le_succ n)
    have hLast := h n (Nat.lt_succ_self n)
    rw [Finset.sum_range_succ, ih fun u hu => h u (hu.trans (Nat.lt_succ_self n))]
    omega

theorem length_neighborhood {D : Type} (neighbors : Nat → D) (u : Nat) :
    (neighborhood index neighbors u 0).length = index (u + 1) - index u := by
  rw [neighborhood_zero, List.length_map, List.length_range']

/-- The edges, each from its first node to its second. -/
def StoredGraph.arcs (g : StoredGraph W) : Finset (Σ _ : Nat, Nat) :=
  (Finset.range g.numNodes).sigma fun u => (g.outIds u).toFinset

theorem StoredGraph.card_arcs (g : StoredGraph W) :
    g.arcs.card = g.outIndex g.numNodes - g.outIndex 0 := by
  rw [arcs, Finset.card_sigma, ← sum_rows g.out_mono]
  refine Finset.sum_congr rfl fun u hu => ?_
  have hNodup : (g.outIds u).Nodup := (g.out_ascending u (Finset.mem_range.mp hu)).imp Nat.ne_of_lt
  rw [List.toFinset_card_of_nodup hNodup, CSRGraph.outIds, List.length_map]
  exact length_neighborhood g.outNeighbors u

theorem StoredGraph.mem_arcs {u v : Nat} : ⟨u, v⟩ ∈ g.arcs ↔ u < g.numNodes ∧ v ∈ g.outIds u := by
  rw [arcs, Finset.mem_sigma, Finset.mem_range, List.mem_toFinset]

/-- Every edge stands in one row of each direction. -/
theorem StoredGraph.in_cells (g : StoredGraph W) :
    g.inIndex g.numNodes - g.inIndex 0 = g.outIndex g.numNodes - g.outIndex 0 := by
  have hIn : ((Finset.range g.numNodes).sigma fun v => (g.inIds v).toFinset).card =
      g.inIndex g.numNodes - g.inIndex 0 := by
    rw [Finset.card_sigma, ← sum_rows g.in_mono]
    refine Finset.sum_congr rfl fun v hv => ?_
    have hNodup : (g.inIds v).Nodup := (g.in_ascending v (Finset.mem_range.mp hv)).imp Nat.ne_of_lt
    rw [List.toFinset_card_of_nodup hNodup, CSRGraph.inIds, List.length_map]
    exact length_neighborhood g.inNeighbors v
  rw [← hIn, ← g.card_arcs]
  refine Finset.card_bij' (fun a _ => ⟨a.2, a.1⟩) (fun a _ => ⟨a.2, a.1⟩) ?_ ?_ (fun _ _ => rfl) fun _ _ => rfl
  · rintro ⟨v, u⟩ h
    rw [Finset.mem_sigma, Finset.mem_range, List.mem_toFinset] at h
    exact mem_arcs.mpr ((g.converse v h.1 u).mp h.2)
  · rintro ⟨u, v⟩ h
    obtain ⟨hu, hOut⟩ := mem_arcs.mp h
    rw [Finset.mem_sigma, Finset.mem_range, List.mem_toFinset]
    have hv := g.out_lt u hu v hOut
    exact ⟨hv, (g.converse v hv u).mpr ⟨hu, hOut⟩⟩

/-- An undirected edge stands in the rows of both of its nodes. -/
theorem StoredGraph.even_cells (g : StoredGraph W) (hUndirected : g.directed = false) :
    2 ∣ g.outIndex g.numNodes - g.outIndex 0 := by
  have hSymm : ∀ u v, ⟨u, v⟩ ∈ g.arcs → (⟨v, u⟩ : Σ _ : Nat, Nat) ∈ g.arcs := by
    intro u v h
    obtain ⟨hu, hOut⟩ := mem_arcs.mp h
    have hv := g.out_lt u hu v hOut
    have hIn := (g.converse v hv u).mpr ⟨hu, hOut⟩
    obtain ⟨hIndex, hNeighbors⟩ := g.undirected hUndirected
    rw [CSRGraph.inIds, CSRGraph.inNeigh, hIndex, hNeighbors] at hIn
    exact mem_arcs.mpr ⟨hv, hIn⟩
  have hSwap : (g.arcs.filter fun a => a.1 < a.2).card = (g.arcs.filter fun a => ¬ a.1 < a.2).card := by
    refine Finset.card_bij' (fun a _ => ⟨a.2, a.1⟩) (fun a _ => ⟨a.2, a.1⟩) ?_ ?_ (fun _ _ => rfl)
      fun _ _ => rfl
    · rintro ⟨u, v⟩ h
      obtain ⟨hArc, hLess⟩ := Finset.mem_filter.mp h
      exact Finset.mem_filter.mpr ⟨hSymm u v hArc, hLess.not_gt⟩
    · rintro ⟨u, v⟩ h
      obtain ⟨hArc, hNot⟩ := Finset.mem_filter.mp h
      obtain ⟨hu, hOut⟩ := mem_arcs.mp hArc
      have hNe : v ≠ u := by
        rintro rfl
        exact g.no_loops v hu hOut
      exact Finset.mem_filter.mpr ⟨hSymm u v hArc, lt_of_le_of_ne (not_lt.mp hNot) hNe⟩
  have hTotal := Finset.card_filter_add_card_filter_not (s := g.arcs) fun a => a.1 < a.2
  rw [← g.card_arcs]
  omega

theorem StoredGraph.numEdgesDirected_eq (g : StoredGraph W) :
    g.numEdgesDirected = g.outIndex g.numNodes - g.outIndex 0 := by
  rw [CSRGraph.numEdgesDirected, CSRGraph.numEdges]
  cases hDirected : g.directed with
  | true => rfl
  | false => exact Nat.mul_div_cancel' (g.even_cells hDirected)

end Arcs

section Rereading

variable {D : Type} {index : Nat → Nat} {neighbors : Nat → D} {n : Nat}

theorem exists_row (h : ∀ u < n, index u ≤ index (u + 1)) {c : Nat} (hLow : index 0 ≤ c) (hHigh : c < index n) :
    ∃ u < n, index u ≤ c ∧ c < index (u + 1) := by
  induction n with
  | zero => omega
  | succ n ih =>
    obtain hBefore | hLast := Nat.lt_or_ge c (index n)
    · obtain ⟨u, hu, hRow⟩ := ih (fun u hu => h u (hu.trans (Nat.lt_succ_self n))) hBefore
      exact ⟨u, hu.trans (Nat.lt_succ_self n), hRow⟩
    · exact ⟨n, Nat.lt_succ_self n, hLast, hHigh⟩

/-- What is in the cells is in the rows. -/
theorem mem_cells (h : ∀ u < n, index u ≤ index (u + 1)) {d : D}
    (hd : d ∈ cells neighbors (index 0) (index n - index 0)) :
    ∃ u < n, d ∈ neighborhood index neighbors u 0 := by
  rw [cells, List.mem_map] at hd
  obtain ⟨c, hc, rfl⟩ := hd
  rw [List.mem_range'_1] at hc
  obtain ⟨u, hu, hLow, hHigh⟩ := exists_row h hc.1 (by omega)
  refine ⟨u, hu, ?_⟩
  rw [neighborhood_zero]
  exact List.mem_map_of_mem (List.mem_range'_1.mpr (by omega))

variable [Inhabited D]

/-- An index and its neighbors as they are read. -/
def rereadIndex (index : Nat → Nat) (n k : Nat) : Nat := (vertexOffsets index n).getD k 0

def rereadNeighbors (index : Nat → Nat) (neighbors : Nat → D) (n c : Nat) : D :=
  (cells neighbors (index 0) (index n - index 0)).getD c default

theorem rereadIndex_eq {k : Nat} (hk : k ≤ n) : rereadIndex index n k = index k - index 0 := by
  have hLength : k < (vertexOffsets index n).length := by
    rw [vertexOffsets, List.length_map, List.length_range]
    omega
  rw [rereadIndex, List.getD_eq_getElem?_getD, List.getElem?_eq_getElem hLength,
    Option.getD_some]
  simp only [vertexOffsets, List.getElem_map, List.getElem_range]

theorem rereadNeighbors_eq {c : Nat} (hc : c < index n - index 0) :
    rereadNeighbors index neighbors n c = neighbors (index 0 + c) := by
  have hLength : c < (cells neighbors (index 0) (index n - index 0)).length := by
    rwa [cells, List.length_map, List.length_range']
  rw [rereadNeighbors, List.getD_eq_getElem?_getD, List.getElem?_eq_getElem hLength,
    Option.getD_some]
  simp only [cells, List.getElem_map, List.getElem_range', Nat.one_mul]

/-- Every row is found again. -/
theorem reread_row (h : ∀ u < n, index u ≤ index (u + 1)) {u : Nat} (hu : u < n) :
    neighborhood (rereadIndex index n) (rereadNeighbors index neighbors n) u 0 =
      neighborhood index neighbors u 0 := by
  have hFirst := index_mono h (Nat.zero_le u) hu.le
  have hLast : index (u + 1) ≤ index n := index_mono h hu le_rfl
  have hNext := h u hu
  rw [neighborhood_zero, neighborhood_zero, rereadIndex_eq hu.le, rereadIndex_eq (Nat.succ_le_of_lt hu),
    show index (u + 1) - index 0 - (index u - index 0) = index (u + 1) - index u by omega]
  apply List.ext_getElem
  · rw [List.length_map, List.length_map, List.length_range', List.length_range']
  · intro k hk _
    rw [List.length_map, List.length_range'] at hk
    simp only [List.getElem_map, List.getElem_range', Nat.one_mul]
    rw [rereadNeighbors_eq (by omega)]
    congr 1
    omega

theorem readRows_write {L : Layout D} (h : ∀ u < n, index u ≤ index (u + 1))
    (hSize : index n - index 0 < 2 ^ 63)
    (hKeeps : ∀ u < n, ∀ d ∈ neighborhood index neighbors u 0, L.Keeps d) (rest : List Byte) :
    readRows L n (index n - index 0) (nat64.writeAll (vertexOffsets index n) ++
      (L.writeAll (cells neighbors (index 0) (index n - index 0)) ++ rest)) =
      some ((rereadIndex index n, rereadNeighbors index neighbors n), rest) := by
  have hOffset : ∀ offset ∈ vertexOffsets index n, offset ≤ index n - index 0 := by
    intro offset hMem
    rw [vertexOffsets, List.mem_map] at hMem
    obtain ⟨k, hk, rfl⟩ := hMem
    rw [List.mem_range] at hk
    have hLe := index_mono h (Nat.le_of_lt_succ hk) le_rfl
    omega
  have hOffsets := readAll_writeAll (L := nat64)
    (fun offset hMem => keeps_nat64 ((hOffset offset hMem).trans_lt hSize))
    (L.writeAll (cells neighbors (index 0) (index n - index 0)) ++ rest)
  have hNeighs : L.readAll (cells neighbors (index 0) (index n - index 0)).length
      (L.writeAll (cells neighbors (index 0) (index n - index 0)) ++ rest) =
      some (cells neighbors (index 0) (index n - index 0), rest) := by
    refine readAll_writeAll (fun d hd => ?_) rest
    obtain ⟨u, hu, hRow⟩ := mem_cells h hd
    exact hKeeps u hu d hRow
  have hLength : (vertexOffsets index n).length = n + 1 := by
    rw [vertexOffsets, List.length_map, List.length_range]
  have hCount : (cells neighbors (index 0) (index n - index 0)).length = index n - index 0 := by
    rw [cells, List.length_map, List.length_range']
  rw [hLength] at hOffsets
  rw [hCount] at hNeighs
  simp only [readRows, hOffsets, hNeighs, Option.bind_eq_bind, Option.bind_some, neighborPointers,
    if_pos hOffset]
  rfl

theorem rereadIndex_zero : rereadIndex index n 0 = 0 := by
  rw [rereadIndex_eq (Nat.zero_le n), Nat.sub_self]

/-- Offsets from the first cell have lost nothing. -/
theorem vertexOffsets_reread : vertexOffsets (rereadIndex index n) n = vertexOffsets index n := by
  refine List.map_congr_left fun k hk => ?_
  rw [rereadIndex_zero, rereadIndex_eq (Nat.le_of_lt_succ (List.mem_range.mp hk)), Nat.sub_zero]

theorem cells_reread : cells (rereadNeighbors index neighbors n) (rereadIndex index n 0) (index n - index 0) =
    cells neighbors (index 0) (index n - index 0) := by
  rw [rereadIndex_zero]
  apply List.ext_getElem
  · rw [cells, cells, List.length_map, List.length_map, List.length_range', List.length_range']
  · intro c hc _
    rw [cells, List.length_map, List.length_range'] at hc
    simp only [cells, List.getElem_map, List.getElem_range', Nat.one_mul, Nat.zero_add]
    exact rereadNeighbors_eq hc

end Rereading

section RoundTrip

variable {W : Type} [Inhabited W] {g : StoredGraph W} {weight : Layout W}

instance : Inhabited (NodeWeight W) := ⟨⟨0, default⟩⟩

/-- The graph in the file. -/
def StoredGraph.reread (g : StoredGraph W) : CSRGraph (NodeWeight W) where
  directed := g.directed
  numNodes := g.numNodes
  outIndex := rereadIndex g.outIndex g.numNodes
  outNeighbors := rereadNeighbors g.outIndex g.outNeighbors g.numNodes
  inIndex := rereadIndex g.inIndex g.numNodes
  inNeighbors := rereadNeighbors g.inIndex g.inNeighbors g.numNodes

structure SameGraph (g h : CSRGraph (NodeWeight W)) : Prop where
  directed : h.directed = g.directed
  numNodes : h.numNodes = g.numNodes
  out : ∀ u < g.numNodes, h.outNeigh u 0 = g.outNeigh u 0
  inverse : ∀ u < g.numNodes, h.inNeigh u 0 = g.inNeigh u 0

theorem StoredGraph.reread_same (g : StoredGraph W) : SameGraph g.toCSRGraph g.reread where
  directed := rfl
  numNodes := rfl
  out _ hu := reread_row g.out_mono hu
  inverse _ hu := reread_row g.in_mono hu

theorem rereadIndex_mono {index : Nat → Nat} {n : Nat} (h : ∀ u < n, index u ≤ index (u + 1)) :
    ∀ u < n, rereadIndex index n u ≤ rereadIndex index n (u + 1) := by
  intro u hu
  rw [rereadIndex_eq hu.le, rereadIndex_eq (Nat.succ_le_of_lt hu)]
  exact Nat.sub_le_sub_right (h u hu) _

def StoredGraph.rereadGraph (g : StoredGraph W) : StoredGraph W :=
  have hOut : ∀ u < g.numNodes, g.reread.outIds u = g.outIds u :=
    fun u hu => congrArg (List.map NodeWeight.v) (g.reread_same.out u hu)
  have hIn : ∀ u < g.numNodes, g.reread.inIds u = g.inIds u :=
    fun u hu => congrArg (List.map NodeWeight.v) (g.reread_same.inverse u hu)
  { g.reread with
    undirected := fun hUndirected => by
      obtain ⟨hIndex, hNeighbors⟩ := g.undirected hUndirected
      exact ⟨congrArg (rereadIndex · g.numNodes) hIndex,
        congrArg₂ (fun index neighbors => rereadNeighbors index neighbors g.numNodes) hIndex hNeighbors⟩
    out_mono := rereadIndex_mono g.out_mono
    in_mono := rereadIndex_mono g.in_mono
    out_ascending := fun u hu => (hOut u hu).symm ▸ g.out_ascending u hu
    in_ascending := fun u hu => (hIn u hu).symm ▸ g.in_ascending u hu
    out_lt := fun u hu => (hOut u hu).symm ▸ g.out_lt u hu
    no_loops := fun u hu => (hOut u hu).symm ▸ g.no_loops u hu
    converse := fun u hu v => by
      rw [hIn u hu, g.converse u hu v]
      exact and_congr_right fun hv => by rw [hOut v hv] }

theorem StoredGraph.reread_edges (g : StoredGraph W) :
    g.rereadGraph.numEdgesDirected = g.numEdgesDirected := by
  rw [g.rereadGraph.numEdgesDirected_eq, g.numEdgesDirected_eq]
  have hLast : g.rereadGraph.outIndex g.numNodes = g.outIndex g.numNodes - g.outIndex 0 :=
    rereadIndex_eq le_rfl
  have hFirst : g.rereadGraph.outIndex 0 = 0 := rereadIndex_zero
  exact (congrArg₂ (· - ·) hLast hFirst).trans (Nat.sub_zero _)

theorem StoredGraph.write_reread (g : StoredGraph W) (L : Layout (NodeWeight W)) :
    WriteSerializedGraph L g.rereadGraph.toCSRGraph = WriteSerializedGraph L g.toCSRGraph := by
  have hIn : g.numEdgesDirected = g.inIndex g.numNodes - g.inIndex 0 := by
    rw [g.numEdgesDirected_eq, g.in_cells]
  have hOutCells : cells g.rereadGraph.outNeighbors (g.rereadGraph.outIndex 0) g.numEdgesDirected =
      cells g.outNeighbors (g.outIndex 0) g.numEdgesDirected := by
    rw [g.numEdgesDirected_eq]
    exact cells_reread
  have hInCells : cells g.rereadGraph.inNeighbors (g.rereadGraph.inIndex 0) g.numEdgesDirected =
      cells g.inNeighbors (g.inIndex 0) g.numEdgesDirected := by
    rw [hIn]
    exact cells_reread
  have hOutOffsets : vertexOffsets g.rereadGraph.outIndex g.numNodes = vertexOffsets g.outIndex g.numNodes :=
    vertexOffsets_reread
  have hInOffsets : vertexOffsets g.rereadGraph.inIndex g.numNodes = vertexOffsets g.inIndex g.numNodes :=
    vertexOffsets_reread
  have hDirected : g.rereadGraph.directed = g.directed := rfl
  have hNodes : g.rereadGraph.numNodes = g.numNodes := rfl
  rw [WriteSerializedGraph, WriteSerializedGraph, g.reread_edges, hDirected, hNodes, hOutOffsets,
    hInOffsets, hOutCells, hInCells]

/-- The three numbers that the file begins with. -/
theorem read_header (L : Layout (NodeWeight W)) (directed : Bool) {numEdges numNodes : Nat}
    (hEdges : numEdges < 2 ^ 63) (hNodes : numNodes < 2 ^ 63)
    (hSize : (numNodes + 1) * 8 < 2 ^ 63 ∧ numEdges * L.size < 2 ^ 63) (rest : List Byte) :
    ReadSerializedGraph L (bool.store directed ++ (nat64.store numEdges ++ (nat64.store numNodes ++ rest))) =
      (readRows L numNodes numEdges rest).bind fun r =>
        if directed then (readRows L numNodes numEdges r.2).bind fun r' =>
          some ⟨true, numNodes, r.1.1, r.1.2, r'.1.1, r'.1.2⟩
        else some ⟨false, numNodes, r.1.1, r.1.2, r.1.1, r.1.2⟩ := by
  rw [ReadSerializedGraph, readOne_store (keeps_bool directed)]
  apply (Option.bind_some _ _).trans
  dsimp only
  rw [readOne_store (keeps_nat64 hEdges)]
  apply (Option.bind_some _ _).trans
  dsimp only
  rw [readOne_store (keeps_nat64 hNodes)]
  apply (Option.bind_some _ _).trans
  dsimp only
  rw [if_pos hSize]
  rfl

theorem read_write (hNodes : (g.numNodes + 1) * 8 < 2 ^ 63)
    (hEdges : g.numEdgesDirected * (nodeWeight weight).size < 2 ^ 63)
    (hOut : ∀ u < g.numNodes, ∀ wn ∈ g.outNeigh u 0, weight.Keeps wn.w)
    (hIn : ∀ u < g.numNodes, ∀ wn ∈ g.inNeigh u 0, weight.Keeps wn.w) :
    ReadSerializedGraph (nodeWeight weight) (WriteSerializedGraph (nodeWeight weight) g.toCSRGraph) =
      some g.rereadGraph.toCSRGraph := by
  have hSize : (nodeWeight weight).size = 8 + weight.size := rfl
  have hCount : g.numEdgesDirected < 2 ^ 63 :=
    (Nat.le_mul_of_pos_right _ (by omega)).trans_lt hEdges
  have hKeep {wn : NodeWeight W} (hv : wn.v < g.numNodes) (hw : weight.Keeps wn.w) :
      (nodeWeight weight).Keeps wn := keeps_via (keeps_pair (keeps_nat64 (by omega)) hw) rfl
  have hOutRow : ∀ u < g.numNodes, ∀ wn ∈ g.outNeigh u 0, (nodeWeight weight).Keeps wn :=
    fun u hu wn hwn => hKeep (g.out_lt u hu wn.v (List.mem_map_of_mem hwn)) (hOut u hu wn hwn)
  have hInRow : ∀ u < g.numNodes, ∀ wn ∈ g.inNeigh u 0, (nodeWeight weight).Keeps wn :=
    fun u hu wn hwn => hKeep ((g.converse u hu wn.v).mp (List.mem_map_of_mem hwn)).1 (hIn u hu wn hwn)
  have hCells := g.numEdgesDirected_eq
  rw [hCells] at hCount
  have hRead := readRows_write g.out_mono hCount hOutRow
  rw [← hCells] at hRead
  have hReadIn := readRows_write g.in_mono (g.in_cells ▸ hCount) hInRow
  rw [g.in_cells, ← hCells] at hReadIn
  have hReread : g.rereadGraph.toCSRGraph = ⟨g.directed, g.numNodes, rereadIndex g.outIndex g.numNodes,
      rereadNeighbors g.outIndex g.outNeighbors g.numNodes, rereadIndex g.inIndex g.numNodes,
      rereadNeighbors g.inIndex g.inNeighbors g.numNodes⟩ := rfl
  rw [WriteSerializedGraph, read_header _ _ (hCells ▸ hCount) (by omega) ⟨hNodes, hEdges⟩, hRead, hReread,
    Option.bind_some]
  cases hDirected : g.directed with
  | true =>
    have hEnd := hReadIn []
    rw [List.append_nil] at hEnd
    simp only [if_true, hEnd, Option.bind_some]
  | false =>
    obtain ⟨hIndex, hNeighbors⟩ := g.undirected hDirected
    rw [hIndex, hNeighbors]
    rfl

/-- A `.sg` -/
example (g : StoredGraph Unit) (hNodes : (g.numNodes + 1) * 8 < 2 ^ 63)
    (hEdges : g.numEdgesDirected * 8 < 2 ^ 63) :
    ReadSerializedGraph (nodeWeight unit) (WriteSerializedGraph (nodeWeight unit) g.toCSRGraph) =
      some g.rereadGraph.toCSRGraph :=
  read_write hNodes hEdges (fun _ _ wn _ => keeps_unit wn.w) fun _ _ wn _ => keeps_unit wn.w

/-- A graph of the builder comes back from its file, and would go into the same file again. -/
theorem serialized_round_trip (g : StoredGraph W) (weight : Layout W)
    (hNodes : (g.numNodes + 1) * 8 < 2 ^ 63)
    (hEdges : g.numEdgesDirected * (nodeWeight weight).size < 2 ^ 63)
    (hOut : ∀ u < g.numNodes, ∀ wn ∈ g.outNeigh u 0, weight.Keeps wn.w)
    (hIn : ∀ u < g.numNodes, ∀ wn ∈ g.inNeigh u 0, weight.Keeps wn.w) :
    ∃ h : StoredGraph W,
      ReadSerializedGraph (nodeWeight weight) (WriteSerializedGraph (nodeWeight weight) g.toCSRGraph) =
        some h.toCSRGraph ∧
      SameGraph g.toCSRGraph h.toCSRGraph ∧
      WriteSerializedGraph (nodeWeight weight) h.toCSRGraph =
        WriteSerializedGraph (nodeWeight weight) g.toCSRGraph :=
  ⟨g.rereadGraph, read_write hNodes hEdges hOut hIn, g.reread_same, g.write_reread _⟩

def weighedArcRows : CSRGraph (NodeWeight Int) where
  directed := true
  numNodes := 2
  outIndex n := min n 1
  outNeighbors _ := ⟨1, -3⟩
  inIndex n := n - 1
  inNeighbors _ := ⟨0, -3⟩

/-- An edge from 0 to 1. -/
def weighedArc : StoredGraph Int where
  toCSRGraph := weighedArcRows
  undirected h := absurd h (by decide)
  out_mono := by decide
  in_mono := by decide
  out_ascending := by decide
  in_ascending := by decide
  out_lt := by decide
  no_loops := by decide
  converse u hu v := by
    have hIn : ∀ u < 2, ∀ v ∈ weighedArcRows.inIds u, v < 2 ∧ u ∈ weighedArcRows.outIds v := by decide
    have hOut : ∀ u < 2, ∀ v < 2, u ∈ weighedArcRows.outIds v → v ∈ weighedArcRows.inIds u := by decide
    exact ⟨hIn u hu v, fun h => hOut u hu v h.1 h.2⟩

theorem weighedArc_round_trip :
    ∃ h : StoredGraph Int,
      ReadSerializedGraph (nodeWeight int64) (WriteSerializedGraph (nodeWeight int64) weighedArc.toCSRGraph) =
        some h.toCSRGraph ∧
      SameGraph weighedArc.toCSRGraph h.toCSRGraph ∧
      WriteSerializedGraph (nodeWeight int64) h.toCSRGraph =
        WriteSerializedGraph (nodeWeight int64) weighedArc.toCSRGraph := by
  have hOut : ∀ u < 2, ∀ wn ∈ weighedArc.outNeigh u 0, -2 ^ 63 ≤ wn.w ∧ wn.w < 2 ^ 63 := by decide
  have hIn : ∀ u < 2, ∀ wn ∈ weighedArc.inNeigh u 0, -2 ^ 63 ≤ wn.w ∧ wn.w < 2 ^ 63 := by decide
  exact serialized_round_trip weighedArc int64 (by decide) (by decide)
    (fun u hu wn hwn => keeps_int64 (hOut u hu wn hwn).1 (hOut u hu wn hwn).2)
    (fun u hu wn hwn => keeps_int64 (hIn u hu wn hwn).1 (hIn u hu wn hwn).2)

end RoundTrip

end Trident.Gapbs
