import Mathlib.Algebra.BigOperators.Intervals
import Mathlib.Data.List.Destutter
import Mathlib.Data.List.Sort
import Trident.Lib.BlockQueue
import Trident.Gapbs.Graph

/-! # The builder of graphs

`MakeGraphFromEL` and `SquishGraph`, with the inverse that all kernels ask for. Node ids and degrees
are numbers of 64 bits, and `none` is what has no defined value; the memory is there. The weights of
the edges are those that `InsertWeights` has left; without weights `W` has one value.
-/

namespace Trident.Gapbs

open Relation Transition BlockQueue

structure NodeWeight (W : Type*) where
  v : Nat
  w : W

structure EdgePair (W : Type*) where
  u : Nat
  v : NodeWeight W

/-- What a `NodeID_`, an `int64_t` in all kernels, keeps of a number. -/
def nodeID (x : Int) : Int := x.bmod (2 ^ 64)

section PrefixSums

/-- `count` turns of the loop with `sums[n] = total` and `total += degrees[n]`. -/
def scanDegrees (degrees sums : Nat → Int) (total : Int) (n : Nat) : Nat → (Nat → Int) × Int
  | 0 => (sums, total)
  | count + 1 => scanDegrees degrees (Function.update sums n total) (total + degrees n) (n + 1) count

/-- `PrefixSum`, where the new array holds `sums` -/
def prefixSum (sums : Nat → Int) (size : Nat) (degrees : Nat → Int) : Nat → Int :=
  let scan := scanDegrees degrees sums 0 0 size
  Function.update scan.1 size scan.2

def blockSize : Nat := 2 ^ 20

def blockEnd (size block : Nat) : Nat := min ((block + 1) * blockSize) size

def localSum (size : Nat) (degrees : Nat → Int) (block : Nat) : Int :=
  ∑ i ∈ Finset.Ico (block * blockSize) (blockEnd size block), degrees i

/-- `ParallelPrefixSum`; no cell belongs to two blocks. -/
def parallelPrefixSum (sums : Nat → Int) (size : Nat) (degrees : Nat → Int) : Nat → Int :=
  let numBlocks := (size + blockSize - 1) / blockSize
  let bulkPrefix := prefixSum sums numBlocks (localSum size degrees)
  let sums := (List.range numBlocks).foldl (fun sums block =>
    (scanDegrees degrees sums (bulkPrefix block) (block * blockSize)
      (blockEnd size block - block * blockSize)).1) sums
  Function.update sums size (bulkPrefix numBlocks)

end PrefixSums

section MakeCSR

variable {W D : Type*}

def findMaxNodeID (el : List (EdgePair W)) : Nat :=
  el.foldl (fun maxSeen e => max (max maxSeen e.u) e.v.v) 0

/-- `FindMaxNodeID(el)+1`, a sum of `NodeID_` -/
def countNodes (el : List (EdgePair W)) : Option Nat :=
  if findMaxNodeID el + 1 < 2 ^ 63 then some (findMaxNodeID el + 1) else none

/-- What an edge inserts, behind the node that gets it. -/
def EdgePair.insertions (symmetrize transpose : Bool) (e : EdgePair W) : List (Nat × NodeWeight W) :=
  (if symmetrize || (!symmetrize && !transpose) then [(e.u, e.v)] else []) ++
    if symmetrize || (!symmetrize && transpose) then [(e.v.v, ⟨e.u, e.v.w⟩)] else []

/-- `fetch_and_add(degrees[n], 1)` -/
def countDegree (degrees : Nat → Int) (n : Nat) : Nat → Int :=
  Function.update degrees n (nodeID (degrees n + 1))

/-- `CountDegrees`, with the nodes in the order of the increments -/
def countDegrees (counting : List Nat) : Nat → Int := counting.foldl countDegree fun _ => 0

/-- `GenIndex`, for an array of `offsets[num_nodes]` neighbors. A pointer has to stay in the array,
and an index that `NodeID_ length` has cut short lacks its end. -/
def genIndex (numNodes : Nat) (offsets : Nat → Int) : Option (Nat → Nat) :=
  if nodeID (numNodes + 1 : Nat) = (numNodes + 1 : Nat) ∧
      ∀ n < numNodes + 1, 0 ≤ offsets n ∧ offsets n ≤ offsets numNodes then
    some fun n => (offsets n).toNat
  else none

inductive InsertPhase where
  | waiting
  | placed (cell : Nat)
  | stored
  deriving DecidableEq

structure Insertion (D : Type*) where
  node : Nat
  value : D
  phase : InsertPhase

structure Rows (D : Type*) where
  offsets : Nat → Nat
  neighs : Nat → D

/-- `(*neighs)[fetch_and_add(offsets[node], 1)] = value;` -/
inductive InsertStep (length : Nat) : Rows D → Insertion D → Rows D → Insertion D → Prop
  | fetchAndAdd (m : Rows D) (node : Nat) (value : D) :
      InsertStep length m ⟨node, value, .waiting⟩
        { m with offsets := Function.update m.offsets node (m.offsets node + 1) }
        ⟨node, value, .placed (m.offsets node)⟩
  | store (m : Rows D) (node : Nat) (value : D) (cell : Nat) (h : cell < length) :
      InsertStep length m ⟨node, value, .placed cell⟩
        { m with neighs := Function.update m.neighs cell value } ⟨node, value, .stored⟩

def startInsertions (index : Nat → Nat) (neighs : Nat → D) (calls : List (Nat × D)) :
    Rows D × (Fin calls.length → Insertion D) :=
  (⟨index, neighs⟩, fun k => ⟨calls[k].1, calls[k].2, .waiting⟩)

/-- `MakeCSR`, for one order of the increments and one of the insertions. Each insertion is a thread
of its own, and one that would store behind the array gets no further. -/
inductive MakeCSR (numNodes : Nat) (calls : List (Nat × D)) :
    Option ((Nat → Nat) × (Nat → D)) → Prop
  | undefined (counting : List Nat) (hCounting : counting.Perm (calls.map Prod.fst))
      (sums : Nat → Int)
      (h : genIndex numNodes (parallelPrefixSum sums numNodes (countDegrees counting)) = none) :
      MakeCSR numNodes calls none
  | done (counting : List Nat) (hCounting : counting.Perm (calls.map Prod.fst)) (sums : Nat → Int)
      (index : Nat → Nat)
      (hIndex : genIndex numNodes (parallelPrefixSum sums numNodes (countDegrees counting)) = some index)
      (neighs : Nat → D) (ends : Rows D × (Fin calls.length → Insertion D))
      (hRun : ReflTransGen (Interleave (InsertStep (index numNodes)))
        (startInsertions index neighs calls) ends)
      (hEnd : ∀ t, ¬ Interleave (InsertStep (index numNodes)) ends t) :
      MakeCSR numNodes calls
        (if ∀ k, (ends.2 k).phase = .stored then some (index, ends.1.neighs) else none)

inductive MakeGraphFromEL (symmetrize : Bool) (el : List (EdgePair W)) :
    Option (CSRGraph (NodeWeight W)) → Prop
  | overflow (h : countNodes el = none) : MakeGraphFromEL symmetrize el none
  | symmetric (numNodes : Nat) (hNodes : countNodes el = some numNodes) (hSymmetrize : symmetrize = true)
      (out : Option ((Nat → Nat) × (Nat → NodeWeight W)))
      (hOut : MakeCSR numNodes (el.flatMap (EdgePair.insertions symmetrize false)) out) :
      MakeGraphFromEL symmetrize el
        (out.map fun (index, neighs) => ⟨false, numNodes, index, neighs, index, neighs⟩)
  | directed (numNodes : Nat) (hNodes : countNodes el = some numNodes) (hDirected : symmetrize = false)
      (out inv : Option ((Nat → Nat) × (Nat → NodeWeight W)))
      (hOut : MakeCSR numNodes (el.flatMap (EdgePair.insertions symmetrize false)) out)
      (hInv : MakeCSR numNodes (el.flatMap (EdgePair.insertions symmetrize true)) inv) :
      MakeGraphFromEL symmetrize el (out.bind fun (index, neighs) =>
        inv.map fun (invIndex, invNeighs) => ⟨true, numNodes, index, neighs, invIndex, invNeighs⟩)

end MakeCSR

section Squish

variable {W : Type*} [LinearOrder W]

/-- `b < a` fails. -/
def NodeWeight.Le (a b : NodeWeight W) : Prop := if a.v = b.v then a.w ≤ b.w else a.v < b.v

instance (a b : NodeWeight W) : Decidable (a.Le b) :=
  inferInstanceAs (Decidable (if a.v = b.v then a.w ≤ b.w else a.v < b.v))

/-- `std::sort`, `std::unique` and `std::remove` on the neighbors of `n` -/
def squishRow (n : Nat) (row : List (NodeWeight W)) : List (NodeWeight W) :=
  ((row.insertionSort NodeWeight.Le).destutter fun a b => a.v ≠ b.v).filter fun a => a.v ≠ n

/-- `SquishCSR`, where the new arrays hold `sums` and `neighs` -/
def squishCSR (g : CSRGraph (NodeWeight W)) (transpose : Bool) (sums : Nat → Int)
    (neighs : Nat → NodeWeight W) : Option ((Nat → Nat) × (Nat → NodeWeight W)) :=
  let row n := squishRow n (if transpose then g.inNeigh n 0 else g.outNeigh n 0)
  let diffs n := nodeID (row n).length
  (genIndex g.numNodes (parallelPrefixSum sums g.numNodes diffs)).map fun sqIndex =>
    (sqIndex, (List.range g.numNodes).foldl (fun neighs n => writeBlock neighs (sqIndex n) (row n)) neighs)

inductive SquishGraph (g : CSRGraph (NodeWeight W)) : Option (CSRGraph (NodeWeight W)) → Prop
  | directed (h : g.directed = true) (sums sums' : Nat → Int) (neighs neighs' : Nat → NodeWeight W) :
      SquishGraph g ((squishCSR g false sums neighs).bind fun (outIndex, outNeighs) =>
        (squishCSR g true sums' neighs').map fun (inIndex, inNeighs) =>
          ⟨true, g.numNodes, outIndex, outNeighs, inIndex, inNeighs⟩)
  | undirected (h : g.directed = false) (sums : Nat → Int) (neighs : Nat → NodeWeight W) :
      SquishGraph g ((squishCSR g false sums neighs).map fun (outIndex, outNeighs) =>
        ⟨false, g.numNodes, outIndex, outNeighs, outIndex, outNeighs⟩)

/-- `MakeGraphFromEL` and behind it `SquishGraph` -/
inductive Builds (symmetrize : Bool) (el : List (EdgePair W)) :
    Option (CSRGraph (NodeWeight W)) → Prop
  | undefined (h : MakeGraphFromEL symmetrize el none) : Builds symmetrize el none
  | squished (g : CSRGraph (NodeWeight W)) (h : MakeGraphFromEL symmetrize el (some g))
      (result : Option (CSRGraph (NodeWeight W))) (hSquish : SquishGraph g result) :
      Builds symmetrize el result

end Squish

section Statements

variable {W : Type*}

def CSRGraph.outIds (g : CSRGraph (NodeWeight W)) (u : Nat) : List Nat :=
  (g.outNeigh u 0).map NodeWeight.v

def CSRGraph.inIds (g : CSRGraph (NodeWeight W)) (u : Nat) : List Nat :=
  (g.inNeigh u 0).map NodeWeight.v

/-- The rows are strictly ascending and list the distinct targets, and the inverse is the converse. -/
structure Represents (symmetrize : Bool) (el : List (EdgePair W)) (g : CSRGraph (NodeWeight W)) :
    Prop where
  numNodes : g.numNodes = findMaxNodeID el + 1
  directed : g.directed = !symmetrize
  undirected : g.directed = false → g.inIndex = g.outIndex ∧ g.inNeighbors = g.outNeighbors
  out_ascending : ∀ u < g.numNodes, (g.outIds u).Pairwise (· < ·)
  in_ascending : ∀ u < g.numNodes, (g.inIds u).Pairwise (· < ·)
  out : ∀ u < g.numNodes, ∀ v, v ∈ g.outIds u ↔
    v ≠ u ∧ ∃ e ∈ el, (e.u = u ∧ e.v.v = v) ∨ (symmetrize = true ∧ e.u = v ∧ e.v.v = u)
  converse : ∀ u < g.numNodes, ∀ v, v ∈ g.inIds u ↔ v < g.numNodes ∧ u ∈ g.outIds v

/-- Every run builds the graph of the edges, and there is one. -/
def BuildsGraph [LinearOrder W] (symmetrize : Bool) (el : List (EdgePair W)) : Prop :=
  (∃ result, Builds symmetrize el result) ∧
    ∀ result, Builds symmetrize el result → ∃ g, result = some g ∧ Represents symmetrize el g

/-- Neither the nodes and their offsets nor the neighbors are too many for an `int64_t`. -/
structure Fits (symmetrize : Bool) (el : List (EdgePair W)) : Prop where
  nodes : findMaxNodeID el + 2 < 2 ^ 63
  neighbors : ∀ transpose, (el.flatMap (EdgePair.insertions symmetrize transpose)).length < 2 ^ 63

end Statements

end Trident.Gapbs
