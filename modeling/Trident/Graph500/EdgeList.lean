import Mathlib.Algebra.BigOperators.Intervals
import Trident.Lib.Transition
import Trident.Graph500.Bitmap

/-! # From an edge list to adjacency arrays

`create_graph_from_edgelist` of `seq-csr` and of `omp-csr`. `XOFF` and `XENDOFF`, the even and
the odd cells of one array, are two arrays here. What the threads do between
two barriers is a step relation where they meet in a cell, and a loop where
they do not.
-/

namespace Trident.Graph500

open Relation Transition

structure PackedEdge where
  v0 : UInt32
  v1 : UInt32
  deriving DecidableEq

/-- `get_v0_from_edge`: never negative, so that the tests `i >= 0` and `j >= 0` are left out. -/
def PackedEdge.i (e : PackedEdge) : Nat := e.v0.toNat

/-- `get_v1_from_edge` -/
def PackedEdge.j (e : PackedEdge) : Nat := e.v1.toNat

/-- Words of 64 bits go into fields of 32; the warning about edges that are too big is left out. -/
def writeEdge (v0 v1 : Int) : PackedEdge := ⟨UInt32.ofInt v0, UInt32.ofInt v1⟩

theorem writeEdge_fits {v0 v1 : Int} (hv0 : 0 ≤ v0 ∧ v0 < 2 ^ 32) (hv1 : 0 ≤ v1 ∧ v1 < 2 ^ 32) :
    ((writeEdge v0 v1).i : Int) = v0 ∧ ((writeEdge v0 v1).j : Int) = v1 := by
  have hField : ∀ v : Int, 0 ≤ v ∧ v < 2 ^ 32 → ((UInt32.ofInt v).toNat : Int) = v := by
    intro v hv
    have hNat : (v % 2 ^ 32).toNat < 2 ^ 32 := by omega
    rw [UInt32.ofInt, UInt32.toNat_ofNat_of_lt' hNat]
    omega
  exact ⟨hField v0 hv0, hField v1 hv1⟩

section FindNv

/-- The loop of `find_nv` over the edges of one thread. -/
def scanMax (edges : List PackedEdge) : Int :=
  edges.foldl (fun tmaxvtx e =>
    let tmaxvtx := if (e.i : Int) > tmaxvtx then (e.i : Int) else tmaxvtx
    if (e.j : Int) > tmaxvtx then (e.j : Int) else tmaxvtx) (-1)

inductive MaxPhase where
  | reading
  | comparing (gmaxvtx : Int)
  | finished
  deriving DecidableEq

structure MaxThread where
  tmaxvtx : Int
  phase : MaxPhase

/-- `while (tmaxvtx > gmaxvtx) gmaxvtx = int64_casval (&maxvtx, gmaxvtx, tmaxvtx);` where the call
returns what it has found, also when it stores. -/
inductive MaxStep : Int → MaxThread → Int → MaxThread → Prop
  | read (maxvtx t : Int) : MaxStep maxvtx ⟨t, .reading⟩ maxvtx ⟨t, .comparing maxvtx⟩
  | swap (maxvtx t : Int) (h : t > maxvtx) :
      MaxStep maxvtx ⟨t, .comparing maxvtx⟩ t ⟨t, .comparing maxvtx⟩
  | retry (maxvtx t gmaxvtx : Int) (h : t > gmaxvtx) (hNe : maxvtx ≠ gmaxvtx) :
      MaxStep maxvtx ⟨t, .comparing gmaxvtx⟩ maxvtx ⟨t, .comparing maxvtx⟩
  | leave (maxvtx t gmaxvtx : Int) (h : ¬ t > gmaxvtx) :
      MaxStep maxvtx ⟨t, .comparing gmaxvtx⟩ maxvtx ⟨t, .finished⟩

end FindNv

section SetupDegOff

def minvectSize : Nat := 2

def PackedEdge.increments (e : PackedEdge) : List Nat := if e.i ≠ e.j then [e.i, e.j] else []

def countVertex (xoff : Nat → Nat) (i : Nat) : Nat → Nat := Function.update xoff i (xoff i + 1)

def countDegrees (vertices : List Nat) : Nat → Nat := vertices.foldl countVertex fun _ => 0

/-- `if (XOFF(k) < MINVECT_SIZE) XOFF(k) = MINVECT_SIZE;` -/
def padDegree (degree : Nat) : Nat := if degree < minvectSize then minvectSize else degree

def padDegrees (nv : Nat) (xoff : Nat → Nat) (k : Nat) : Nat :=
  if k < nv then padDegree (xoff k) else xoff k

/-- `count` turns of the second loop of `prefix_sum`. -/
def scanSlice (xoff : Nat → Nat) (t1 k : Nat) : Nat → Nat → Nat
  | 0 => xoff
  | count + 1 => scanSlice (Function.update xoff k t1) (t1 + xoff k) (k + 1) count

/-- `slice_begin` of a thread; `slice_end` is the same for the next one. -/
def sliceBegin (nv nt tid : Nat) : Nat := nv / nt * tid + (if tid < nv % nt then tid else nv % nt)

/-- The first loop of `prefix_sum` in every thread. -/
def sliceSums (nv nt : Nat) (xoff : Nat → Nat) (tid : Nat) : Nat :=
  ∑ k ∈ Finset.Ico (sliceBegin nv nt tid) (sliceBegin nv nt (tid + 1)), xoff k

/-- `for (k = 1; k < nt; ++k) buf[k] += buf[k-1];` -/
def addPrevious (buf : Nat → Nat) (k : Nat) : Nat → Nat → Nat
  | 0 => buf
  | count + 1 => addPrevious (Function.update buf k (buf k + buf (k - 1))) (k + 1) count

/-- `prefix_sum`: the threads share `buf`, but no cell of `xoff`. -/
def prefixSum (nv nt : Nat) (xoff : Nat → Nat) : (Nat → Nat) × Nat :=
  let buf := addPrevious (sliceSums nv nt xoff) 1 (nt - 1)
  ((List.range nt).foldl (fun xoff tid =>
    scanSlice xoff (if tid = 0 then 0 else buf (tid - 1)) (sliceBegin nv nt tid)
      (sliceBegin nv nt (tid + 1) - sliceBegin nv nt tid)) xoff, buf (nt - 1))

/-- The parallel `setup_deg_off`, with the increments in the order in which they happen. -/
def setupDegOffOmp (nv nt : Nat) (vertices : List Nat) : Nat → Nat :=
  let (xoff, accum) := prefixSum nv nt (padDegrees nv (countDegrees vertices))
  Function.update xoff nv accum

/-- The second loop of the sequential `setup_deg_off`: `count` turns, and `XOFF(nv)`. -/
def offsetsFrom (xoff : Nat → Nat) (accum k : Nat) : Nat → Nat → Nat
  | 0 => Function.update xoff k accum
  | count + 1 =>
    offsetsFrom (Function.update xoff k accum) (accum + padDegree (xoff k)) (k + 1) count

def setupDegOff (nv : Nat) (edges : List PackedEdge) : Nat → Nat :=
  offsetsFrom (countDegrees (edges.flatMap PackedEdge.increments)) 0 0 nv

end SetupDegOff

section GatherEdges

def PackedEdge.scatters (e : PackedEdge) : List (Nat × Nat) :=
  if e.i ≠ e.j then [(e.i, e.j), (e.j, e.i)] else []

def scatterCalls (edges : List PackedEdge) : List (Nat × Nat) := edges.flatMap PackedEdge.scatters

/-- Where a call of `scatter_edge` stands. -/
inductive ScatterPhase where
  | waiting
  | placed (cell : Nat)
  | stored (cell : Nat)
  deriving DecidableEq

structure ScatterState (ι : Type*) where
  xend : Nat → Nat
  xadj : Nat → Int
  phase : ι → ScatterPhase

/-- `XENDOFF(k) = XOFF(k)`, with the zero of the first loop behind the last vertex. -/
def startEnds (nv : Nat) (xoff : Nat → Nat) (k : Nat) : Nat := if k < nv then xoff k else 0

/-- Before the loop: every slot is empty and every call waits. -/
def scatterStart {ι : Type*} (nv : Nat) (xoff : Nat → Nat) : ScatterState ι where
  xend := startEnds nv xoff
  xadj _ := -1
  phase _ := .waiting

section Calls

variable {ι : Type*} [DecidableEq ι] (call : ι → Nat × Nat)

/-- `where = int64_fetch_add (&XENDOFF(i), 1);` -/
def ScatterState.fetchAdd (s : ScatterState ι) (k : ι) : ScatterState ι :=
  { s with
    xend := Function.update s.xend (call k).1 (s.xend (call k).1 + 1)
    phase := Function.update s.phase k (.placed (s.xend (call k).1)) }

/-- `xadj[where] = j;` -/
def ScatterState.store (s : ScatterState ι) (k : ι) (w : Nat) : ScatterState ι :=
  { s with
    xadj := Function.update s.xadj w (call k).2
    phase := Function.update s.phase k (.stored w) }

variable (s : ScatterState ι) (k : ι) (w : Nat)

@[simp] theorem ScatterState.fetchAdd_xend : (s.fetchAdd call k).xend =
    Function.update s.xend (call k).1 (s.xend (call k).1 + 1) := rfl

@[simp] theorem ScatterState.fetchAdd_xadj : (s.fetchAdd call k).xadj = s.xadj := rfl

@[simp] theorem ScatterState.fetchAdd_phase : (s.fetchAdd call k).phase =
    Function.update s.phase k (.placed (s.xend (call k).1)) := rfl

@[simp] theorem ScatterState.store_xend : (s.store call k w).xend = s.xend := rfl

@[simp] theorem ScatterState.store_xadj : (s.store call k w).xadj =
    Function.update s.xadj w (call k).2 := rfl

@[simp] theorem ScatterState.store_phase : (s.store call k w).phase =
    Function.update s.phase k (.stored w) := rfl

/-- Each call is taken for a thread of its own, which allows every order that a schedule of the
loop allows. -/
inductive ScatterStep : ScatterState ι → ScatterState ι → Prop
  | fetchAdd (s : ScatterState ι) (k : ι) (h : s.phase k = .waiting) :
      ScatterStep s (s.fetchAdd call k)
  | store (s : ScatterState ι) (k : ι) (w : Nat) (h : s.phase k = .placed w) :
      ScatterStep s (s.store call k w)

end Calls

def scatterEdge (s : (Nat → Nat) × (Nat → Int)) (call : Nat × Nat) :
    (Nat → Nat) × (Nat → Int) :=
  (Function.update s.1 call.1 (s.1 call.1 + 1), Function.update s.2 (s.1 call.1) call.2)

end GatherEdges

structure Csr where
  nv : Nat
  xoff : Nat → Nat
  xend : Nat → Nat
  xadj : Nat → Int

section PackEdges

def cells (xadj : Nat → Int) (lo hi : Nat) : List Int := (List.range' lo (hi - lo)).map xadj

def writeCells (xadj : Nat → Int) (lo : Nat) (values : List Int) (k : Nat) : Int :=
  if lo ≤ k then (values[k - lo]?).getD (xadj k) else xadj k

/-- `qsort` with `i64cmp` -/
def sortCells (xadj : Nat → Int) (lo hi : Nat) : Nat → Int :=
  writeCells xadj lo ((cells xadj lo hi).insertionSort (· ≤ ·))

/-- `count` turns of the loop that moves the values together; the last value stays at `kcur`. -/
def mergeEqual (xadj : Nat → Int) (kcur k : Nat) : Nat → (Nat → Int) × Nat
  | 0 => (xadj, kcur)
  | count + 1 =>
    if xadj k ≠ xadj kcur then
      mergeEqual (Function.update xadj (kcur + 1) (xadj k)) (kcur + 1) (k + 1) count
    else mergeEqual xadj kcur (k + 1) count

def packVtxEdges (g : Csr) (i : Nat) : Csr :=
  if g.xoff i + 1 ≥ g.xend i then g
  else
    let sorted := sortCells g.xadj (g.xoff i) (g.xend i)
    let (merged, kcur) :=
      mergeEqual sorted (g.xoff i) (g.xoff i + 1) (g.xend i - (g.xoff i + 1))
    { g with
      xadj := fun k => if kcur + 1 ≤ k ∧ k < g.xend i then -1 else merged k
      xend := Function.update g.xend i (kcur + 1) }

def packEdges (g : Csr) (vertices : List Nat) : Csr := vertices.foldl packVtxEdges g

def Csr.adjacency (g : Csr) (i : Nat) : List Int := cells g.xadj (g.xoff i) (g.xend i)

end PackEdges

/-- `nv = 1 + maxvtx` -/
def vertexCount (maxvtx : Int) : Nat := (1 + maxvtx).toNat

/-- `alloc_graph` of `omp-csr`, as far as the bitmaps `past` and `next`; the memory of the other arrays
is there. -/
def allocGraph (nv : Nat) : Option ((Nat × Bitmap) × (Nat × Bitmap)) := do
  let past ← bmInit nv
  let next ← bmInit nv
  return (past, next)

/-- The sequential `create_graph_from_edgelist`, which has no bitmaps. -/
def createGraph (edges : List PackedEdge) : Csr :=
  let nv := vertexCount (scanMax edges)
  let xoff := setupDegOff nv edges
  let (xend, xadj) := (scatterCalls edges).foldl scatterEdge (startEnds nv xoff, fun _ => -1)
  packEdges { nv, xoff, xend, xadj } (List.range nv)

/-- What `nt` threads decide among themselves: who scans which edges, how the compare-and-swap
loops take turns, and in which order the increments happen and the vertices are packed. -/
structure Schedule (nt : Nat) (edges : List PackedEdge) where
  threads_pos : 0 < nt
  chunk : Fin nt → List PackedEdge
  chunk_perm : ((List.finRange nt).flatMap chunk).Perm edges
  maxvtx : Int
  scanned : Fin nt → MaxThread
  finished : ∀ t, (scanned t).phase = .finished
  reached : ReflTransGen (Interleave MaxStep)
    (-1, fun t => ⟨scanMax (chunk t), .reading⟩) (maxvtx, scanned)
  counting : List Nat
  counting_perm : counting.Perm (edges.flatMap PackedEdge.increments)
  packing : List Nat
  packing_perm : packing.Perm (List.range (vertexCount maxvtx))

namespace Schedule

variable {nt : Nat} {edges : List PackedEdge} (run : Schedule nt edges)

def nv : Nat := vertexCount run.maxvtx

def xoff : Nat → Nat := setupDegOffOmp run.nv nt run.counting

def scatterStart : ScatterState (Fin (scatterCalls edges).length) :=
  Graph500.scatterStart run.nv run.xoff

def gathered (s : ScatterState (Fin (scatterCalls edges).length)) : Csr where
  nv := run.nv
  xoff := run.xoff
  xend := s.xend
  xadj := s.xadj

/-- What `setup_deg_off` and `gather_edges` leave. -/
def graph (s : ScatterState (Fin (scatterCalls edges).length)) : Csr :=
  packEdges (run.gathered s) run.packing

/-- The parallel `create_graph_from_edgelist`; nothing is left where `alloc_graph` ends the program. -/
def createGraphOmp (s : ScatterState (Fin (scatterCalls edges).length)) : Option Csr :=
  (allocGraph run.nv).map fun _ => run.graph s

end Schedule

/-- The graph lists for every vertex its neighbours, each once and in ascending order, in the
slot of the vertex. -/
structure Csr.Represents (g : Csr) (edges : List PackedEdge) : Prop where
  slot : ∀ i < g.nv, g.xoff i ≤ g.xend i ∧ g.xend i ≤ g.xoff (i + 1)
  ascending : ∀ i < g.nv, (g.adjacency i).Pairwise (· < ·)
  neighbours : ∀ i < g.nv, ∀ v : Int, v ∈ g.adjacency i ↔
    ∃ j : Nat, v = j ∧ j ≠ i ∧ ∃ e ∈ edges, (e.i = i ∧ e.j = j) ∨ (e.i = j ∧ e.j = i)

end Trident.Graph500
