import Mathlib.Combinatorics.SimpleGraph.Basic
import Mathlib.Data.List.Range

/-! # Compressed sparse rows

A `CSRGraph` as its readers see it. A pointer into an array of neighbors is an index.
-/

namespace Trident.Gapbs

/-- An undirected graph has the same arrays for both directions. -/
structure CSRGraph (DestID : Type*) where
  directed : Bool
  numNodes : Nat
  outIndex : Nat → Nat
  outNeighbors : Nat → DestID
  inIndex : Nat → Nat
  inNeighbors : Nat → DestID

section Neighborhoods

variable {DestID : Type*}

/-- `Neighborhood(n, g_index, start_offset)`, from `begin()` to `end()` -/
def neighborhood (gIndex : Nat → Nat) (neighbors : Nat → DestID) (n startOffset : Nat) :
    List DestID :=
  let maxOffset := gIndex (n + 1) - gIndex n
  let start := gIndex n + min startOffset maxOffset
  (List.range' start (gIndex (n + 1) - start)).map neighbors

variable (g : CSRGraph DestID)

def CSRGraph.outNeigh (n startOffset : Nat) : List DestID :=
  neighborhood g.outIndex g.outNeighbors n startOffset

def CSRGraph.inNeigh (n startOffset : Nat) : List DestID :=
  neighborhood g.inIndex g.inNeighbors n startOffset

/-- An undirected edge stands in two rows. -/
def CSRGraph.numEdges : Nat :=
  let arcs := g.outIndex g.numNodes - g.outIndex 0
  if g.directed then arcs else arcs / 2

def CSRGraph.numEdgesDirected : Nat := if g.directed then g.numEdges else 2 * g.numEdges

def CSRGraph.outDegree (v : Nat) : Nat := g.outIndex (v + 1) - g.outIndex v

theorem neighborhood_drop (gIndex : Nat → Nat) (neighbors : Nat → DestID) (n startOffset : Nat) :
    neighborhood gIndex neighbors n startOffset =
      (neighborhood gIndex neighbors n 0).drop startOffset := by
  simp only [neighborhood, ← List.map_drop, List.drop_range', Nat.zero_min, Nat.add_zero, Nat.mul_one]
  apply congrArg (List.map neighbors)
  obtain hIn | hOut := Nat.le_total startOffset (gIndex (n + 1) - gIndex n)
  · rw [Nat.min_eq_left hIn, Nat.sub_add_eq]
  · rw [Nat.min_eq_right hOut, Nat.sub_eq_zero_of_le hOut,
      show gIndex (n + 1) - (gIndex n + (gIndex (n + 1) - gIndex n)) = 0 by omega]
    rfl

theorem neighborhood_zero (gIndex : Nat → Nat) (neighbors : Nat → DestID) (n : Nat) :
    neighborhood gIndex neighbors n 0 =
      (List.range' (gIndex n) (gIndex (n + 1) - gIndex n)).map neighbors := by
  simp only [neighborhood, Nat.zero_min, Nat.add_zero]

end Neighborhoods

end Trident.Gapbs
