import Trident.Lib.Streams
import Trident.Gapbs.EdgeComponents

/-! # Edge lists as text

`WriteEL` and `ReadInEL`, for graphs without weights. The greatest node that a `NodeID_` can hold is
`limit`.
-/

namespace Trident.Gapbs

open Streams

section Program

variable (g : CSRGraph (NodeWeight Unit))

/-- `out << u << " " << v << std::endl` -/
def printEdge (u v : Nat) : List Char := decimal u ++ ' ' :: (decimal v ++ ['\n'])

def WriteEL : List Char :=
  (List.range g.numNodes).flatMap fun u => (g.outNeigh u 0).flatMap fun v => printEdge u v.v

/-- `while (in >> u >> v)`; `none` where the fuel does not last. -/
def readEdges (limit : Nat) : Nat → Stream → Option (List (Int × Int))
  | 0, _ => none
  | fuel + 1, stream =>
    let (u, stream) := readSigned limit stream
    let (v, stream) := readSigned limit stream
    if stream.fail then some []
    else
      match u, v with
      | some u, some v => (readEdges limit fuel stream).map ((u, v) :: ·)
      | _, _ => some []

/-- Each edge takes up a character at least. -/
def ReadInEL (limit : Nat) (text : List Char) : Option (List (Int × Int)) :=
  readEdges limit (text.length + 1) (.opened text)

end Program

section Files

/-- The edges in the order of the rows. -/
def CSRGraph.arcList (g : CSRGraph (NodeWeight Unit)) : List (Nat × Nat) :=
  (List.range g.numNodes).flatMap fun u => (g.outIds u).map fun v => (u, v)

theorem WriteEL_eq (g : CSRGraph (NodeWeight Unit)) :
    WriteEL g = g.arcList.flatMap fun e => printEdge e.1 e.2 := by
  rw [WriteEL, CSRGraph.arcList, List.flatMap_assoc]
  simp only [CSRGraph.outIds, List.map_map, List.flatMap_map]
  rfl

theorem isSpace_of_mem {c : Char} (hc : isSpace c = true) : ∀ d ∈ [c], isSpace d = true := by
  intro d hd
  rw [List.mem_singleton.mp hd]
  exact hc

theorem readEdges_lines {limit : Nat} (edges : List (Nat × Nat))
    (hFits : ∀ e ∈ edges, e.1 ≤ limit ∧ e.2 ≤ limit) {fuel : Nat} (hFuel : edges.length < fuel)
    (spaces : List Char) (hSpaces : ∀ d ∈ spaces, isSpace d = true) :
    readEdges limit fuel (.opened (spaces ++ edges.flatMap fun e => printEdge e.1 e.2)) =
      some (edges.map fun e => ((e.1 : Int), (e.2 : Int))) := by
  induction edges generalizing fuel spaces with
  | nil =>
    obtain ⟨fuel, rfl⟩ := Nat.exists_eq_succ_of_ne_zero (Nat.ne_of_gt hFuel)
    have hEnd : readSigned limit (.opened spaces) = (none, ⟨[], true, true⟩) := extract_end _ hSpaces
    have hFailed : readSigned limit ⟨[], true, true⟩ = (none, ⟨[], true, true⟩) := extract_failed _ rfl
    rw [List.flatMap_nil, List.append_nil, readEdges, hEnd]
    dsimp only
    rw [hFailed]
    rfl
  | cons e edges ih =>
    obtain ⟨fuel, rfl⟩ := Nat.exists_eq_succ_of_ne_zero (Nat.ne_of_gt (Nat.zero_lt_of_lt hFuel))
    obtain ⟨hFirst, hSecond⟩ := hFits e List.mem_cons_self
    have hRest := ih (fun e' he' => hFits e' (List.mem_cons_of_mem e he')) (Nat.lt_of_succ_lt_succ hFuel)
      ['\n'] (isSpace_of_mem rfl)
    generalize hText : edges.flatMap (fun e => printEdge e.1 e.2) = text at hRest
    have hLine : spaces ++ (e :: edges).flatMap (fun e => printEdge e.1 e.2) =
        spaces ++ (decimal e.1 ++ ' ' :: (decimal e.2 ++ '\n' :: text)) := by
      rw [List.flatMap_cons, hText, printEdge, List.append_assoc, List.cons_append, List.append_assoc]
      rfl
    have hSource : readSigned limit (.opened (spaces ++ (decimal e.1 ++ ' ' :: (decimal e.2 ++ '\n' :: text)))) =
        (some (e.1 : Int), .opened (' ' :: (decimal e.2 ++ '\n' :: text))) :=
      readSigned_decimal hFirst hSpaces rfl
    have hTarget : readSigned limit (.opened (' ' :: (decimal e.2 ++ '\n' :: text))) =
        (some (e.2 : Int), .opened ('\n' :: text)) :=
      @readSigned_decimal limit e.2 hSecond [' '] text '\n' (isSpace_of_mem rfl) rfl
    rw [hLine, readEdges, hSource]
    dsimp only
    rw [hTarget]
    exact congrArg (Option.map ((↑e.1, ↑e.2) :: ·)) hRest

theorem lines_le (edges : List (Nat × Nat)) :
    edges.length ≤ (edges.flatMap fun e => printEdge e.1 e.2).length := by
  induction edges with
  | nil => exact Nat.le_refl 0
  | cons e edges ih =>
    rw [List.length_cons, List.flatMap_cons, List.length_append, Nat.add_comm]
    apply Nat.add_le_add _ ih
    rw [printEdge, List.length_append, List.length_cons]
    omega

end Files

section Graphs

variable {symmetrize : Bool} {el : List (EdgePair Unit)} {g : CSRGraph (NodeWeight Unit)}

theorem mem_arcList {u v : Nat} : (u, v) ∈ g.arcList ↔ u < g.numNodes ∧ v ∈ g.outIds u := by
  rw [CSRGraph.arcList, List.mem_flatMap]
  constructor
  · rintro ⟨u', hu', hEdge⟩
    obtain ⟨v', hv', hSame⟩ := List.mem_map.mp hEdge
    obtain ⟨rfl, rfl⟩ := Prod.mk.inj hSame
    exact ⟨List.mem_range.mp hu', hv'⟩
  · rintro ⟨hu, hv⟩
    exact ⟨u, List.mem_range.mpr hu, List.mem_map.mpr ⟨v, hv, rfl⟩⟩

/-- The list of edges that the file has. -/
def CSRGraph.fileEdges (g : CSRGraph (NodeWeight Unit)) : List (EdgePair Unit) :=
  g.arcList.map fun e => ⟨e.1, ⟨e.2, ()⟩⟩

theorem mem_fileEdges {u v : Nat} :
    (∃ e ∈ g.fileEdges, e.u = u ∧ e.v.v = v) ↔ u < g.numNodes ∧ v ∈ g.outIds u := by
  rw [← mem_arcList]
  constructor
  · rintro ⟨e, he, rfl, rfl⟩
    obtain ⟨arc, hArc, rfl⟩ := List.mem_map.mp he
    exact hArc
  · intro hArc
    exact ⟨⟨u, ⟨v, ()⟩⟩, List.mem_map.mpr ⟨(u, v), hArc, rfl⟩, rfl, rfl⟩

/-- The rows are those of the file's edges. -/
theorem Represents.fileEdges_out (h : Represents symmetrize el g) {u : Nat} (hu : u < g.numNodes) (v : Nat) :
    v ∈ g.outIds u ↔ v ≠ u ∧ ∃ e ∈ g.fileEdges,
      (e.u = u ∧ e.v.v = v) ∨ (symmetrize = true ∧ e.u = v ∧ e.v.v = u) := by
  constructor
  · intro hv
    obtain ⟨e, he, hEdge⟩ := mem_fileEdges.mpr ⟨hu, hv⟩
    exact ⟨((h.out u hu v).mp hv).1, e, he, .inl hEdge⟩
  · rintro ⟨hNe, e, he, hEdge | ⟨hSymmetric, hEdge⟩⟩
    · exact (mem_fileEdges.mp ⟨e, he, hEdge⟩).2
    · obtain ⟨hv, hRow⟩ := mem_fileEdges.mp ⟨e, he, hEdge⟩
      obtain ⟨_, e', he', hCases⟩ := (h.out v hv u).mp hRow
      apply (h.out u hu v).mpr
      refine ⟨hNe, e', he', ?_⟩
      obtain hForth | ⟨_, hBack⟩ := hCases
      · exact .inr ⟨hSymmetric, hForth⟩
      · exact .inl hBack

/-- What is written is read again edge by edge, and is an edge list of the same graph just where no node
is lost at the end. -/
theorem edgeList_round_trip (h : Represents symmetrize el g) {limit : Nat} (hLimit : g.numNodes ≤ limit + 1) :
    ReadInEL limit (WriteEL g) = some (g.fileEdges.map fun e => ((e.u : Int), (e.v.v : Int))) ∧
      (Represents symmetrize g.fileEdges g ↔ findMaxNodeID g.fileEdges + 1 = g.numNodes) := by
  constructor
  · have hFits : ∀ e ∈ g.arcList, e.1 ≤ limit ∧ e.2 ≤ limit := by
      intro e he
      obtain ⟨hu, hv⟩ := mem_arcList.mp he
      have hv := h.out_lt hu hv
      omega
    have hFuel : g.arcList.length < (WriteEL g).length + 1 := by
      rw [WriteEL_eq]
      exact Nat.lt_succ_of_le (lines_le g.arcList)
    have hRead := readEdges_lines g.arcList hFits hFuel [] fun d hd => absurd hd List.not_mem_nil
    rw [List.nil_append, ← WriteEL_eq] at hRead
    rw [ReadInEL, hRead, CSRGraph.fileEdges, List.map_map]
    rfl
  · constructor
    · exact fun hAgain => hAgain.numNodes.symm
    · intro hNodes
      exact ⟨hNodes.symm, h.directed, h.undirected, h.out_ascending, h.in_ascending,
        fun u hu v => h.fileEdges_out hu v, h.converse⟩

def unweighedArc : CSRGraph (NodeWeight Unit) where
  directed := true
  numNodes := 2
  outIndex n := min n 1
  outNeighbors _ := ⟨1, ()⟩
  inIndex n := n - 1
  inNeighbors _ := ⟨0, ()⟩

theorem unweighedArc_represents : Represents false [⟨0, ⟨1, ()⟩⟩] unweighedArc where
  numNodes := rfl
  directed := rfl
  undirected := nofun
  out_ascending := by decide
  in_ascending := by decide
  out u hu v := by
    have hFirst : unweighedArc.outIds 0 = [1] := rfl
    have hSecond : unweighedArc.outIds 1 = [] := rfl
    obtain rfl | rfl : u = 0 ∨ u = 1 := Nat.le_one_iff_eq_zero_or_eq_one.mp (Nat.le_of_lt_succ hu)
    · rw [hFirst]
      simp
      omega
    · rw [hSecond]
      simp
  converse u hu v := by
    have hIn : ∀ u < 2, ∀ v ∈ unweighedArc.inIds u, v < 2 ∧ u ∈ unweighedArc.outIds v := by decide
    have hOut : ∀ u < 2, ∀ v < 2, u ∈ unweighedArc.outIds v → v ∈ unweighedArc.inIds u := by decide
    exact ⟨hIn u hu v, fun h => hOut u hu v h.1 h.2⟩

theorem unweighedArc_round_trip :
    ReadInEL (2 ^ 63 - 1) (WriteEL unweighedArc) =
        some (unweighedArc.fileEdges.map fun e => ((e.u : Int), (e.v.v : Int))) ∧
      (Represents false unweighedArc.fileEdges unweighedArc ↔
        findMaxNodeID unweighedArc.fileEdges + 1 = unweighedArc.numNodes) :=
  edgeList_round_trip unweighedArc_represents (by decide)

end Graphs

end Trident.Gapbs
