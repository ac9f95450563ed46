import Trident.Gapbs.Components
import Trident.Gapbs.Squish

/-! # From the edges to the labels

What the builder hands over is what `Afforest` relies on.
-/

namespace Trident.Gapbs

open Relation

variable {W : Type*} {symmetrize : Bool} {el : List (EdgePair W)} {g : CSRGraph (NodeWeight W)}

def CSRGraph.nodes (g : CSRGraph (NodeWeight W)) : CSRGraph Nat where
  directed := g.directed
  numNodes := g.numNodes
  outIndex := g.outIndex
  outNeighbors c := (g.outNeighbors c).v
  inIndex := g.inIndex
  inNeighbors c := (g.inNeighbors c).v

theorem nodes_outNeigh (g : CSRGraph (NodeWeight W)) (u : Nat) : g.nodes.outNeigh u 0 = g.outIds u := by
  rw [CSRGraph.outIds, CSRGraph.outNeigh, CSRGraph.outNeigh, neighborhood_zero, neighborhood_zero,
    List.map_map]
  rfl

theorem nodes_inNeigh (g : CSRGraph (NodeWeight W)) (u : Nat) : g.nodes.inNeigh u 0 = g.inIds u := by
  rw [CSRGraph.inIds, CSRGraph.inNeigh, CSRGraph.inNeigh, neighborhood_zero, neighborhood_zero,
    List.map_map]
  rfl

theorem Represents.out_lt (h : Represents symmetrize el g) {u v : Nat} (hu : u < g.numNodes)
    (hv : v ∈ g.outIds u) : v < g.numNodes := by
  obtain ⟨_, e, he, hEdge⟩ := (h.out u hu v).mp hv
  obtain ⟨hFirst, hSecond⟩ := le_findMaxNodeID he
  have hNodes := h.numNodes
  omega

def Represents.graph (h : Represents symmetrize el g) : Graph where
  toCSRGraph := g.nodes
  nonempty := h.numNodes ▸ Nat.succ_pos _
  undirected hUndirected := by
    obtain ⟨hIndex, hNeighbors⟩ := h.undirected hUndirected
    refine ⟨hIndex, ?_⟩
    rw [CSRGraph.nodes, hNeighbors]
  out_lt u hu v hv := h.out_lt hu (nodes_outNeigh g u ▸ hv)
  in_lt u hu v hv := ((h.converse u hu v).mp (nodes_inNeigh g u ▸ hv)).1
  inverse u hu v hv := by
    rw [nodes_outNeigh, nodes_inNeigh, h.converse v hv u]
    exact (and_iff_right hu).symm

/-- Two different nodes with an edge in either direction. -/
def nodesGraph (el : List (EdgePair W)) : SimpleGraph Nat where
  Adj u v := u ≠ v ∧ ∃ e ∈ el, (e.u = u ∧ e.v.v = v) ∨ (e.u = v ∧ e.v.v = u)
  symm := ⟨fun _ _ h => ⟨h.1.symm, h.2.imp fun _ he => ⟨he.1, he.2.symm⟩⟩⟩
  loopless := ⟨fun _ h => h.1 rfl⟩

theorem Represents.underlying_eq (h : Represents symmetrize el g) :
    h.graph.underlying = nodesGraph el := by
  ext u v
  have hOut : ∀ a b, h.graph.outNeigh a b = g.nodes.outNeigh a b := fun _ _ => rfl
  constructor
  · rintro ⟨hNe, hu, hv, hForward | hBackward⟩
    · rw [hOut, nodes_outNeigh] at hForward
      obtain ⟨_, e, he, hEdge⟩ := (h.out u hu v).mp hForward
      exact ⟨hNe, e, he, hEdge.imp_right And.right⟩
    · rw [hOut, nodes_outNeigh] at hBackward
      obtain ⟨_, e, he, hEdge⟩ := (h.out v hv u).mp hBackward
      exact ⟨hNe, e, he, (hEdge.imp_right And.right).symm⟩
  · rintro ⟨hNe, e, he, hEdge⟩
    obtain ⟨hFirst, hSecond⟩ := le_findMaxNodeID he
    have hNodes := h.numNodes
    have hu : u < g.numNodes := by omega
    have hv : v < g.numNodes := by omega
    refine ⟨hNe, hu, hv, ?_⟩
    rw [hOut, hOut, nodes_outNeigh, nodes_outNeigh, h.out u hu v, h.out v hv u]
    rcases hEdge with hForward | hBackward
    · exact Or.inl ⟨hNe.symm, e, he, Or.inl hForward⟩
    · exact Or.inr ⟨hNe, e, he, Or.inl hBackward⟩

/-- The labels tell which nodes the edges connect. -/
theorem Represents.labels (h : Represents symmetrize el g) {neighborRounds : Nat}
    {s : Run h.graph.numNodes} (hRun : ReflTransGen (AfforestStep h.graph neighborRounds) h.graph.start s)
    (hStuck : ∀ t, ¬ AfforestStep h.graph neighborRounds s t) {u v : Nat} (hu : u < g.numNodes)
    (hv : v < g.numNodes) : s.comp u = s.comp v ↔ (nodesGraph el).Reachable u v := by
  rw [(afforest_labels hRun hStuck).2 u hu v hv, h.underlying_eq]

end Trident.Gapbs
