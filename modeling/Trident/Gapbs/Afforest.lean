import Trident.Lib.Forest
import Trident.Lib.Transition
import Trident.Gapbs.Graph

/-! # Connected components

`Afforest` of the connected components kernel. Every access to `comp` is a step. A turn of a parallel
loop is a process of its own, so that whatever share of the turns a thread has, and in whatever order
it takes them, is among the runs.
-/

namespace Trident.Gapbs

open Relation Transition Forest

/-- A graph of the builder: not empty, rows that stay inside, and both arrays from the same edges. -/
structure Graph extends CSRGraph Nat where
  nonempty : 0 < numNodes
  undirected : directed = false → inIndex = outIndex ∧ inNeighbors = outNeighbors
  out_lt : ∀ u < numNodes, ∀ v ∈ toCSRGraph.outNeigh u 0, v < numNodes
  in_lt : ∀ u < numNodes, ∀ v ∈ toCSRGraph.inNeigh u 0, v < numNodes
  inverse : ∀ u < numNodes, ∀ v < numNodes,
    v ∈ toCSRGraph.outNeigh u 0 ↔ u ∈ toCSRGraph.inNeigh v 0

section Program

inductive LinkPhase where
  | checking (c : Nat)
  | idle
  | first
  | second (p1 : Nat)
  | reading (high low : Nat)
  | swapping (high low : Nat)
  | again (high low : Nat)
  | grand (p low : Nat)
  | lower (p1 low : Nat)

/-- One `u`: the neighbors that are left for it, and the one that `Link` has. -/
structure Linker where
  u : Nat
  todo : List Nat
  v : Nat
  phase : LinkPhase

/-- `while (p1 != p2)` with `high` and `low` -/
def linkTest (p1 p2 : Nat) : LinkPhase :=
  if p1 ≠ p2 then
    let high := if p1 > p2 then p1 else p2
    .reading high (p1 + p2 - high)
  else .idle

def linkStep (comp : Nat → Nat) (s : Linker) : Option ((Nat → Nat) × Linker) :=
  match s.phase with
  | .checking c =>
    if comp s.u = c then some (comp, { s with todo := [], phase := .idle })
    else some (comp, { s with phase := .idle })
  | .idle =>
    match s.todo with
    | [] => none
    | v :: todo => some (comp, { s with todo, v, phase := .first })
  | .first => some (comp, { s with phase := .second (comp s.u) })
  | .second p1 => some (comp, { s with phase := linkTest p1 (comp s.v) })
  | .reading high low =>
    if comp high = low then some (comp, { s with phase := .idle })
    else if comp high = high then some (comp, { s with phase := .swapping high low })
    else some (comp, { s with phase := .again high low })
  | .swapping high low =>
    if comp high = high then some (Function.update comp high low, { s with phase := .idle })
    else some (comp, { s with phase := .again high low })
  | .again high low => some (comp, { s with phase := .grand (comp high) low })
  | .grand p low => some (comp, { s with phase := .lower (comp p) low })
  | .lower p1 low => some (comp, { s with phase := linkTest p1 (comp low) })

inductive CompressPhase where
  | outer
  | inner (p : Nat)
  | parent (p q : Nat)
  | again
  | grand (q : Nat)
  | store (x : Nat)
  | finished

/-- One `n` of `Compress`. -/
structure Compressor where
  n : Nat
  phase : CompressPhase

def compressStep (comp : Nat → Nat) (s : Compressor) : Option ((Nat → Nat) × Compressor) :=
  match s.phase with
  | .outer => some (comp, { s with phase := .inner (comp s.n) })
  | .inner p => some (comp, { s with phase := .parent p (comp s.n) })
  | .parent p q => some (comp, { s with phase := if p ≠ comp q then .again else .finished })
  | .again => some (comp, { s with phase := .grand (comp s.n) })
  | .grand q => some (comp, { s with phase := .store (comp q) })
  | .store x => some (Function.update comp s.n x, { s with phase := .outer })
  | .finished => none

variable (g : Graph) (neighborRounds : Nat)

/-- `Link` at most one time if neighbor available at offset `r`. -/
def Graph.sampler (r u : Nat) : Linker := ⟨u, (g.outNeigh u r).take 1, 0, .idle⟩

/-- The rest of the neighbors, and for a directed graph the whole of the reverse graph. -/
def Graph.finisher (c u : Nat) : Linker :=
  ⟨u, g.outNeigh u neighborRounds ++ if g.directed then g.inNeigh u 0 else [], 0, .checking c⟩

/-- The parallel loops belong to a round, or to the end of the function. -/
inductive Stage (numNodes : Nat) where
  | round (r : Nat)
  | linking (r : Option Nat) (linkers : Fin numNodes → Linker)
  | compressing (r : Option Nat) (compressors : Fin numNodes → Compressor)
  | finished

structure Run (numNodes : Nat) where
  comp : Nat → Nat
  stage : Stage numNodes

inductive AfforestStep : Run g.numNodes → Run g.numNodes → Prop
  | round (comp : Nat → Nat) (r : Nat) (h : r < neighborRounds) :
      AfforestStep ⟨comp, .round r⟩ ⟨comp, .linking (some r) fun u => g.sampler r u⟩
  | sample (comp : Nat → Nat) (r : Nat) (h : ¬ r < neighborRounds) (c n : Nat)
      (hn : n < g.numNodes) (hc : comp n = c) :
      AfforestStep ⟨comp, .round r⟩ ⟨comp, .linking none fun u => g.finisher neighborRounds c u⟩
  | link (comp comp' : Nat → Nat) (r : Option Nat) (linkers linkers' : Fin g.numNodes → Linker)
      (h : Interleave (fun m s m' s' => linkStep m s = some (m', s')) (comp, linkers) (comp', linkers')) :
      AfforestStep ⟨comp, .linking r linkers⟩ ⟨comp', .linking r linkers'⟩
  | linked (comp : Nat → Nat) (r : Option Nat) (linkers : Fin g.numNodes → Linker)
      (h : ∀ u, linkStep comp (linkers u) = none) :
      AfforestStep ⟨comp, .linking r linkers⟩ ⟨comp, .compressing r fun n => ⟨n, .outer⟩⟩
  | compress (comp comp' : Nat → Nat) (r : Option Nat)
      (compressors compressors' : Fin g.numNodes → Compressor)
      (h : Interleave (fun m s m' s' => compressStep m s = some (m', s')) (comp, compressors)
        (comp', compressors')) :
      AfforestStep ⟨comp, .compressing r compressors⟩ ⟨comp', .compressing r compressors'⟩
  | compressed (comp : Nat → Nat) (r : Nat) (compressors : Fin g.numNodes → Compressor)
      (h : ∀ n, compressStep comp (compressors n) = none) :
      AfforestStep ⟨comp, .compressing (some r) compressors⟩ ⟨comp, .round (r + 1)⟩
  | finish (comp : Nat → Nat) (compressors : Fin g.numNodes → Compressor)
      (h : ∀ n, compressStep comp (compressors n) = none) :
      AfforestStep ⟨comp, .compressing none compressors⟩ ⟨comp, .finished⟩

/-- Each node is a single-node self-pointing tree. -/
def Graph.start : Run g.numNodes := ⟨id, .round 0⟩

end Program

end Trident.Gapbs
