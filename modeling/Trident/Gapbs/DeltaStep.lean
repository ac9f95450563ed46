import Trident.Lib.BlockQueue
import Trident.Lib.Distances
import Trident.Gapbs.SerializedGraph

/-! # Single-source shortest paths

`DeltaStep` of the shortest paths kernel. Every access to `dist` is a step. A chunk of the dynamic
schedule goes to any thread that asks for one; at a barrier the stage ends for all threads at once.
-/

namespace Trident.Gapbs

open Transition BlockQueue Distances

/-- A weighted graph of the builder. A weight may be any `WeightT`, as it comes out of a file. -/
structure WGraph extends CSRGraph (NodeWeight Int) where
  ascending : ∀ u < numNodes, outIndex u ≤ outIndex (u + 1)
  even : directed = false → 2 ∣ outIndex numNodes - outIndex 0
  out_lt : ∀ u < numNodes, ∀ wn ∈ toCSRGraph.outNeigh u 0, wn.v < numNodes

/-- What the builder has stored, with the weights. -/
def StoredGraph.weighted (g : StoredGraph Int) : WGraph where
  toCSRGraph := g.toCSRGraph
  ascending := g.out_mono
  even := g.even_cells
  out_lt u hu wn hwn := g.out_lt u hu wn.v (List.mem_map_of_mem hwn)

/-- An edge of the graph, with its weight. -/
def WGraph.arc (g : WGraph) (u v : Nat) (w : Int) : Prop :=
  u < g.numNodes ∧ ∃ wn ∈ g.outNeigh u 0, wn.v = v ∧ wn.w = w

/-- What the edges of `u` weigh together. -/
def WGraph.rowWeight (g : WGraph) (u : Nat) : Int := ((g.outNeigh u 0).map NodeWeight.w).sum

def WGraph.totalWeight (g : WGraph) : Int := ∑ u ∈ Finset.range g.numNodes, g.rowWeight u

/-- One edge, from 0 to 1. -/
def oneEdge : WGraph where
  directed := true
  numNodes := 2
  outIndex n := min n 1
  outNeighbors _ := ⟨1, 3⟩
  inIndex n := n - 1
  inNeighbors _ := ⟨0, 3⟩
  ascending := by decide
  even := nofun
  out_lt := by decide

def kDistInf : Int := (2 ^ 63 - 1) / 2

/-- No weight is negative or beyond `kDistInf`. `InsertWeights` draws from 1 to 255, and nothing checks
the weights that a file has. -/
def WGraph.WeightsFit (g : WGraph) : Prop :=
  ∀ u < g.numNodes, ∀ wn ∈ g.outNeigh u 0, 0 ≤ wn.w ∧ wn.w ≤ kDistInf

instance (g : WGraph) : Decidable g.WeightsFit :=
  inferInstanceAs (Decidable (∀ u < g.numNodes, ∀ wn ∈ g.outNeigh u 0, 0 ≤ wn.w ∧ wn.w ≤ kDistInf))

theorem Builds.weighted {symmetrize : Bool} {el : List (EdgePair Int)} (hFits : Fits symmetrize el)
    {result : Option (CSRGraph (NodeWeight Int))} (h : Builds symmetrize el result) :
    ∃ g : WGraph, result = some g.toCSRGraph ∧
      ((∀ e ∈ el, 0 ≤ e.v.w ∧ e.v.w ≤ kDistInf) → g.WeightsFit) := by
  obtain ⟨g, rfl, hBuilt⟩ := hFits.built h
  refine ⟨hBuilt.stored.weighted, rfl, fun hWeights u hu wn hwn => ?_⟩
  obtain ⟨e, he, hSame⟩ := hBuilt.weights u hu wn hwn
  exact hSame ▸ hWeights e he

section Program

def kMaxBin : Nat := (2 ^ 64 - 1) / 2

/-- What the threads share. `next` is the first turn of the loop that no thread has got, and `single`
whether a thread has come to the single block. -/
structure Shared where
  dist : Nat → Int
  frontier : Nat → Nat
  sharedIndexes : Nat → Nat
  frontierTails : Nat → Nat
  next : Nat
  single : Bool

abbrev Bins := List (List Nat)

def Bins.bin (bins : Bins) (i : Nat) : List Nat := bins.getD i []

/-- `resize(dest_bin+1)` where it is needed, and `push_back` -/
def Bins.push (bins : Bins) (destBin v : Nat) : Bins :=
  let grown : Bins := bins ++ List.replicate (destBin + 1 - bins.length) []
  grown.set destBin (grown.bin destBin ++ [v])

/-- The smallest bin from `curr_bin_index` on that is not empty. -/
def Bins.vote (bins : Bins) (currBin : Nat) : Option Nat :=
  (List.range' currBin (bins.length - currBin)).find? fun i => bins.bin i ≠ []

/-- `size_t dest_bin = new_dist/delta;` -/
def destBin (delta newDist : Int) : Nat := (newDist.tdiv delta % 2 ^ 64).toNat

inductive RelaxPhase where
  | turn
  | checking
  | edge
  | comparing (oldDist : Int)
  | swapping (oldDist newDist : Int)
  | again (newDist : Int)
  | changed (newDist : Int)
  | voted

/-- A thread before the first barrier: the turns of its chunk that are left, the node of the present
turn, and the edges that are left for it. -/
structure Relaxer where
  todo : List Nat
  u : Nat
  edges : List (NodeWeight Int)
  localBins : Bins
  phase : RelaxPhase

inductive CopyPhase where
  | arriving
  | single
  | resetting
  | testing
  | adding
  | copying (copyStart : Nat)
  | waiting

/-- A thread between the barriers. -/
structure Copier where
  localBins : Bins
  phase : CopyPhase

variable (g : WGraph) (delta : Int) (room : Bins → Bool) (iter : Nat)

def chunk : Nat := 64

/-- Bins for which there is no `room` in the memory end the program, and the thread gets no further. -/
def relaxStep (m : Shared) (s : Relaxer) : Option (Shared × Relaxer) :=
  let currBin := m.sharedIndexes (iter % 2)
  let currTail := m.frontierTails (iter % 2)
  match s.phase with
  | .turn =>
    match s.todo with
    | i :: todo => some (m, { s with todo, u := m.frontier i, phase := .checking })
    | [] =>
      if m.next < currTail then
        let count := min chunk (currTail - m.next)
        some ({ m with next := m.next + count }, { s with todo := List.range' m.next count })
      else
        match s.localBins.vote currBin with
        | some i =>
          let nextBin := min (m.sharedIndexes ((iter + 1) % 2)) i
          some ({ m with sharedIndexes := Function.update m.sharedIndexes ((iter + 1) % 2) nextBin },
            { s with phase := .voted })
        | none => some (m, { s with phase := .voted })
  | .checking =>
    if m.dist s.u ≥ delta * currBin then
      some (m, { s with edges := g.outNeigh s.u 0, phase := .edge })
    else some (m, { s with phase := .turn })
  | .edge =>
    match s.edges with
    | [] => some (m, { s with phase := .turn })
    | wn :: _ => some (m, { s with phase := .comparing (m.dist wn.v) })
  | .comparing oldDist =>
    match s.edges with
    | [] => none
    | wn :: edges =>
      let newDist := m.dist s.u + wn.w
      if newDist < oldDist then some (m, { s with phase := .swapping oldDist newDist })
      else some (m, { s with edges, phase := .edge })
  | .swapping oldDist newDist =>
    match s.edges with
    | [] => none
    | wn :: _ =>
      if m.dist wn.v = oldDist then
        some ({ m with dist := Function.update m.dist wn.v newDist },
          { s with phase := .changed newDist })
      else some (m, { s with phase := .again newDist })
  | .again newDist =>
    match s.edges with
    | [] => none
    | wn :: edges =>
      if m.dist wn.v ≤ newDist then some (m, { s with edges, phase := .edge })
      else some (m, { s with phase := .swapping (m.dist wn.v) newDist })
  | .changed newDist =>
    match s.edges with
    | [] => none
    | wn :: edges =>
      let localBins := s.localBins.push (destBin delta newDist) wn.v
      if room localBins then some (m, { s with edges, localBins, phase := .edge }) else none
  | .voted => none

/-- A copy that does not fit into the frontier gets no further. -/
def copyStep (m : Shared) (s : Copier) : Option (Shared × Copier) :=
  let nextBin := m.sharedIndexes ((iter + 1) % 2)
  match s.phase with
  | .arriving =>
    if m.single then some (m, { s with phase := .testing })
    else some ({ m with single := true }, { s with phase := .single })
  | .single =>
    some ({ m with sharedIndexes := Function.update m.sharedIndexes (iter % 2) kMaxBin },
      { s with phase := .resetting })
  | .resetting =>
    some ({ m with frontierTails := Function.update m.frontierTails (iter % 2) 0 },
      { s with phase := .testing })
  | .testing =>
    if nextBin < s.localBins.length then some (m, { s with phase := .adding })
    else some (m, { s with phase := .waiting })
  | .adding =>
    let nextTail := m.frontierTails ((iter + 1) % 2)
    let newTail := nextTail + (s.localBins.bin nextBin).length
    some ({ m with frontierTails := Function.update m.frontierTails ((iter + 1) % 2) newTail },
      { s with phase := .copying nextTail })
  | .copying copyStart =>
    if copyStart + (s.localBins.bin nextBin).length ≤ g.numEdgesDirected then
      some ({ m with frontier := writeBlock m.frontier copyStart (s.localBins.bin nextBin) },
        { localBins := s.localBins.set nextBin [], phase := .waiting })
    else none
  | .waiting => none

inductive DeltaStage (nt : Nat) where
  | relaxing (threads : Fin nt → Relaxer)
  | copying (threads : Fin nt → Copier)
  | finished

structure DeltaRun (nt : Nat) where
  mem : Shared
  iter : Nat
  stage : DeltaStage nt

variable {nt : Nat}

/-- `DeltaStep`, with all its threads -/
inductive DeltaStep : DeltaRun nt → DeltaRun nt → Prop
  | relax (m m' : Shared) (iter : Nat) (threads threads' : Fin nt → Relaxer)
      (h : Interleave (fun m s m' s' => relaxStep g delta room iter m s = some (m', s')) (m, threads)
        (m', threads')) :
      DeltaStep ⟨m, iter, .relaxing threads⟩ ⟨m', iter, .relaxing threads'⟩
  | firstBarrier (m : Shared) (iter : Nat) (threads : Fin nt → Relaxer)
      (h : ∀ t, (threads t).phase = .voted) :
      DeltaStep ⟨m, iter, .relaxing threads⟩
        ⟨{ m with single := false }, iter, .copying fun t => ⟨(threads t).localBins, .arriving⟩⟩
  | copy (m m' : Shared) (iter : Nat) (threads threads' : Fin nt → Copier)
      (h : Interleave (fun m s m' s' => copyStep g iter m s = some (m', s')) (m, threads)
        (m', threads')) :
      DeltaStep ⟨m, iter, .copying threads⟩ ⟨m', iter, .copying threads'⟩
  | secondBarrier (m : Shared) (iter : Nat) (threads : Fin nt → Copier)
      (h : ∀ t, (threads t).phase = .waiting) (hMore : m.sharedIndexes ((iter + 1) % 2) ≠ kMaxBin) :
      DeltaStep ⟨m, iter, .copying threads⟩
        ⟨{ m with next := 0 }, iter + 1, .relaxing fun t => ⟨[], 0, [], (threads t).localBins, .turn⟩⟩
  | finish (m : Shared) (iter : Nat) (threads : Fin nt → Copier)
      (h : ∀ t, (threads t).phase = .waiting) (hLast : m.sharedIndexes ((iter + 1) % 2) = kMaxBin) :
      DeltaStep ⟨m, iter, .copying threads⟩ ⟨m, iter + 1, .finished⟩

/-- The start, with any memory for the frontier. -/
def deltaStart (nt : Nat) (frontier : Nat → Nat) (source : Nat) : DeltaRun nt where
  mem :=
    { dist := Function.update (fun _ => kDistInf) source 0
      frontier := Function.update frontier 0 source
      sharedIndexes := Function.update (fun _ => kMaxBin) 0 0
      frontierTails := Function.update (fun _ => 0) 0 1
      next := 0
      single := false }
  iter := 0
  stage := .relaxing fun _ => ⟨[], 0, [], [], .turn⟩

end Program

end Trident.Gapbs
