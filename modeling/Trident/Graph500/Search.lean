import Trident.Lib.BlockQueue
import Trident.Lib.BreadthFirst
import Trident.Graph500.Bitmap
import Trident.Graph500.EdgeList

/-! # The searches

`make_bfs_tree` of `seq-csr`, of `seq-list` and of `omp-csr`. The queue is what stands in `vlist`
before the place that is filled next. Loops of one thread take fuel; what the threads of `omp-csr`
do is a step relation, with a phase for the code between two points where all of them meet.
-/

namespace Trident.Graph500

open Relation Transition BlockQueue BreadthFirst

section Trees

/-- Two different vertices are joined by an edge in either direction. -/
def edgeGraph (edges : List PackedEdge) : SimpleGraph Nat where
  Adj u v := u ≠ v ∧ ∃ e ∈ edges, (e.i = u ∧ e.j = v) ∨ (e.i = v ∧ e.j = u)
  symm := ⟨fun _ _ h => ⟨h.1.symm, h.2.imp fun _ he => ⟨he.1, he.2.symm⟩⟩⟩
  loopless := ⟨fun _ h => h.1 rfl⟩

/-- The parents that `bfs_tree` holds, where -1 stands for none. -/
def parentOf (tree : Nat → Int) (v : Nat) : Option Nat :=
  if tree v = -1 then none else some (tree v).toNat

structure IsBfsTree (edges : List PackedEdge) (src : Nat) (tree : Nat → Int) : Prop where
  root : tree src = src
  unreached : ∀ v, tree v = -1 ↔ ¬ (edgeGraph edges).Reachable src v
  nearer : ∀ v ≠ src, tree v ≠ -1 → ∃ u : Nat, tree v = u ∧ (edgeGraph edges).Adj u v ∧
    (edgeGraph edges).dist src u + 1 = (edgeGraph edges).dist src v

/-- `XOFF(v)` to `XENDOFF(v)`: what the searches read as indices. -/
def Csr.neighbours (g : Csr) (v : Nat) : List Nat := (g.adjacency v).map Int.toNat

end Trees

section Sequential

structure Queue where
  tree : Nat → Int
  vlist : Nat → Nat
  tail : Nat

/-- `vlist[k2++] = j` for a neighbor without a parent. -/
def visitNeighbour (unvisited : Int → Bool) (v : Nat) (s : Queue) (j : Nat) : Queue :=
  if unvisited (s.tree j) then
    { tree := Function.update s.tree j v
      vlist := Function.update s.vlist s.tail j
      tail := s.tail + 1 }
  else s

def startQueue (vlist : Nat → Nat) (src : Nat) : Queue where
  tree := Function.update (fun _ => -1) src src
  vlist := Function.update vlist 0 src
  tail := 1

section CompressedRows

variable (g : Csr)

/-- The body of the loop over `k` in `seq-csr`. -/
def scanVertex (s : Queue) (k : Nat) : Queue :=
  (g.neighbours (s.vlist k)).foldl (visitNeighbour (· == -1) (s.vlist k)) s

/-- `while (k1 != k2)` in `seq-csr` -/
def csrLevels : Nat → Nat → Queue → Option Queue
  | 0, _, _ => none
  | fuel + 1, k1, s =>
    if k1 = s.tail then some s
    else csrLevels fuel s.tail ((List.range' k1 (s.tail - k1)).foldl (scanVertex g) s)

/-- `make_bfs_tree` of `seq-csr`, with any memory for `vlist` -/
def makeBfsTreeCsr (vlist : Nat → Nat) (src : Nat) : Option (Nat → Int) :=
  (csrLevels g (g.nv + 1) 0 (startQueue vlist src)).map Queue.tree

end CompressedRows

section LinkedLists

structure Links where
  head : Nat → Int
  next : Nat → Int

/-- `head[i] = t` with what was the head behind `t`. -/
def Links.push (s : Links) (i t : Nat) : Links where
  head := Function.update s.head i t
  next := Function.update s.next t (s.head i)

def Links.pushEdge (s : Links) (k : Nat) (e : PackedEdge) : Links :=
  if e.i ≠ e.j then (s.push e.i (2 * k + 1)).push e.j (2 * k) else s

/-- `create_graph_from_edgelist` of `seq-list`, from the edge `k` on -/
def Links.pushAll (s : Links) (k : Nat) : List PackedEdge → Links
  | [] => s
  | e :: edges => (s.pushEdge k e).pushAll (k + 1) edges

def createLinks (edges : List PackedEdge) (next : Nat → Int) : Links :=
  Links.pushAll { head := fun _ => -1, next } 0 edges

variable (edges : List PackedEdge) (next : Nat → Int)

/-- `((p % 2) ? get_v1_from_edge(&IJ[p / 2]) : get_v0_from_edge(&IJ[p / 2]))` -/
def endpoint (p : Nat) : Option Nat :=
  edges[p / 2]?.map fun e => if p % 2 ≠ 0 then e.j else e.i

/-- `while (p >= 0)` -/
def walkLinks (v : Nat) : Nat → Int → Queue → Option Queue
  | 0, _, _ => none
  | fuel + 1, p, s =>
    if p ≥ 0 then do
      let newv ← endpoint edges p.toNat
      walkLinks v fuel (next p.toNat) (visitNeighbour (· < 0) v s newv)
    else some s

variable (head : Nat → Int)

/-- `for (k = k1; k < k2; ++k)` in `seq-list`, where each turn sets `k1` and `k2`. -/
def listScan : Nat → Nat → Nat → Nat → Queue → Option (Nat × Nat × Queue)
  | 0, _, _, _, _ => none
  | fuel + 1, k, k1, k2, s =>
    if k < k2 then do
      let s ← walkLinks edges next (s.vlist k) (2 * edges.length + 1) (head (s.vlist k)) s
      listScan fuel (k + 1) k2 s.tail s
    else some (k1, k2, s)

/-- `while (k1 != k2)` in `seq-list` -/
def listLevels (nv : Nat) : Nat → Nat → Nat → Queue → Option Queue
  | 0, _, _, _ => none
  | fuel + 1, k1, k2, s =>
    if k1 = k2 then some s
    else do
      let (k1, k2, s) ← listScan edges next head (nv + 1) k1 k1 k2 { s with tail := k2 }
      listLevels nv fuel k1 k2 s

/-- `make_bfs_tree` of `seq-list`, with any memory for `vlist` and `next` -/
def makeBfsTreeList (next : Nat → Int) (vlist : Nat → Nat) (src : Nat) : Option (Nat → Int) :=
  let nv := vertexCount (scanMax edges)
  let links := createLinks edges next
  (listLevels edges links.next links.head nv (nv + 1) 0 1 (startQueue vlist src)).map Queue.tree

end LinkedLists

end Sequential

section Parallel

def threadBufLen : Nat := 16384

def alpha : Int := 14

def beta : Nat := 24

structure Memory where
  tree : Nat → Int
  vlist : Nat → Nat
  k1 : Nat
  k2 : Nat
  past : Bitmap
  next : Bitmap
  scoutCount : Int

section TopDown

inductive ScanPhase where
  | scanning
  | swapping
  | flushing (count : Nat) (left : List Nat)
  | storing (voff count : Nat) (left : List Nat)
  | finished

/-- A thread in `bfs_top_down_step`: the turns of the loop that it still has to take, the vertex of
the present one, the neighbors that are left, and the `kbuf` cells of `local`. -/
structure Scan where
  ks : List Nat
  v : Nat
  js : List Nat
  buffer : List Nat
  phase : ScanPhase

inductive TopDownStep (g : Csr) : Memory → Scan → Memory → Scan → Prop
  | vertex (m : Memory) (k : Nat) (ks : List Nat) (v : Nat) (buffer : List Nat) :
      TopDownStep g m ⟨k :: ks, v, [], buffer, .scanning⟩
        m ⟨ks, m.vlist k, g.neighbours (m.vlist k), buffer, .scanning⟩
  | skip (m : Memory) (ks : List Nat) (v j : Nat) (js buffer : List Nat) (h : m.tree j ≠ -1) :
      TopDownStep g m ⟨ks, v, j :: js, buffer, .scanning⟩ m ⟨ks, v, js, buffer, .scanning⟩
  | look (m : Memory) (ks : List Nat) (v j : Nat) (js buffer : List Nat) (h : m.tree j = -1) :
      TopDownStep g m ⟨ks, v, j :: js, buffer, .scanning⟩ m ⟨ks, v, j :: js, buffer, .swapping⟩
  | lose (m : Memory) (ks : List Nat) (v j : Nat) (js buffer : List Nat) (h : m.tree j ≠ -1) :
      TopDownStep g m ⟨ks, v, j :: js, buffer, .swapping⟩ m ⟨ks, v, js, buffer, .scanning⟩
  | win (m : Memory) (ks : List Nat) (v j : Nat) (js buffer : List Nat) (h : m.tree j = -1)
      (hRoom : buffer.length < threadBufLen) :
      TopDownStep g m ⟨ks, v, j :: js, buffer, .swapping⟩
        { m with tree := Function.update m.tree j v } ⟨ks, v, js, buffer ++ [j], .scanning⟩
  | winFull (m : Memory) (ks : List Nat) (v j : Nat) (js buffer : List Nat) (h : m.tree j = -1)
      (hFull : ¬ buffer.length < threadBufLen) :
      TopDownStep g m ⟨ks, v, j :: js, buffer, .swapping⟩
        { m with tree := Function.update m.tree j v }
        ⟨ks, v, js, buffer, .flushing threadBufLen [j]⟩
  | last (m : Memory) (v : Nat) (buffer : List Nat) (h : buffer ≠ []) :
      TopDownStep g m ⟨[], v, [], buffer, .scanning⟩ m ⟨[], v, [], buffer, .flushing buffer.length []⟩
  | reserve (m : Memory) (ks : List Nat) (v : Nat) (js buffer : List Nat) (count : Nat)
      (left : List Nat) :
      TopDownStep g m ⟨ks, v, js, buffer, .flushing count left⟩
        { m with k2 := m.k2 + count } ⟨ks, v, js, buffer, .storing m.k2 count left⟩
  | store (m : Memory) (ks : List Nat) (v : Nat) (js buffer : List Nat) (voff count : Nat)
      (left : List Nat) (hAssert : voff + count ≤ g.nv) :
      TopDownStep g m ⟨ks, v, js, buffer, .storing voff count left⟩
        { m with vlist := writeBlock m.vlist voff (buffer.take count) }
        ⟨ks, v, js, left, .scanning⟩
  | finish (m : Memory) (v : Nat) :
      TopDownStep g m ⟨[], v, [], [], .scanning⟩ m ⟨[], v, [], [], .finished⟩

end TopDown

section Bitmaps

inductive BitPhase where
  | idle
  | setting (pos : Nat)
  | loaded (pos : Nat) (old : BitVec 64)

/-- A thread in a loop that sets bits of `next` atomically. -/
structure BitThread where
  todo : List Nat
  phase : BitPhase
  count : Nat

/-- `visit` is the body of the loop up to `bm_set_bit_atomic`: it may assign a parent and says which
bit is to be set. No other thread touches the cell that it reads and writes. -/
inductive BitStep (visit : (Nat → Int) → Nat → (Nat → Int) × Option Nat) :
    Memory → BitThread → Memory → BitThread → Prop
  | pass (m : Memory) (x : Nat) (todo : List Nat) (count : Nat) (tree : Nat → Int)
      (h : visit m.tree x = (tree, none)) :
      BitStep visit m ⟨x :: todo, .idle, count⟩ { m with tree } ⟨todo, .idle, count⟩
  | take (m : Memory) (x : Nat) (todo : List Nat) (count : Nat) (tree : Nat → Int) (pos : Nat)
      (h : visit m.tree x = (tree, some pos)) :
      BitStep visit m ⟨x :: todo, .idle, count⟩ { m with tree } ⟨todo, .setting pos, count⟩
  | load (m : Memory) (todo : List Nat) (pos count : Nat) :
      BitStep visit m ⟨todo, .setting pos, count⟩
        m ⟨todo, .loaded pos (m.next (wordOffset pos)), count⟩
  | swap (m : Memory) (todo : List Nat) (pos count : Nat) :
      BitStep visit m ⟨todo, .loaded pos (m.next (wordOffset pos)), count⟩
        { m with next := bmSetBit m.next pos } ⟨todo, .idle, count + 1⟩
  | retry (m : Memory) (todo : List Nat) (pos : Nat) (old : BitVec 64) (count : Nat)
      (h : m.next (wordOffset pos) ≠ old) :
      BitStep visit m ⟨todo, .loaded pos old, count⟩ m ⟨todo, .setting pos, count⟩

/-- `fill_bitmap_from_queue`: the turns are places of the queue. -/
def fillVisit (vlist : Nat → Nat) (tree : Nat → Int) (q : Nat) : (Nat → Int) × Option Nat :=
  (tree, some (vlist q))

/-- The loop of `bfs_bottom_up_step`: the first neighbor in `past` becomes the parent. -/
def bottomUpVisit (g : Csr) (past : Bitmap) (tree : Nat → Int) (i : Nat) :
    (Nat → Int) × Option Nat :=
  if tree i = -1 then
    match (g.neighbours i).find? fun j => bmGetBit past j with
    | some j => (Function.update tree i j, some i)
    | none => (tree, none)
  else (tree, none)

end Bitmaps

section QueueFromBitmap

/-- The loop of `fill_queue_from_bitmap` from the vertex `i` on, as the blocks that it stores. -/
def gatherBlocks (longs : Nat) (bm : Bitmap) (iEnd : Nat) :
    Nat → Option Nat → List Nat → List (List Nat)
  | 0, _, buffer => [buffer]
  | _ + 1, none, buffer => [buffer]
  | fuel + 1, some i, buffer =>
    if i < iEnd then
      if (buffer ++ [i]).length = threadBufLen then
        (buffer ++ [i]) :: gatherBlocks longs bm iEnd fuel (bmGetNextBit longs bm i) []
      else gatherBlocks longs bm iEnd fuel (bmGetNextBit longs bm i) (buffer ++ [i])
    else [buffer]

def nodesPerThread (nv nt : Nat) : Nat := (nv + nt - 1) / nt

def sliceBlocks (longs : Nat) (bm : Bitmap) (nv nt tid : Nat) : List (List Nat) :=
  let i := nodesPerThread nv nt * tid
  if i < nv then
    let iEnd := if i + nodesPerThread nv nt ≥ nv then nv else i + nodesPerThread nv nt
    gatherBlocks longs bm iEnd (nv + 1) (bmGetNextBit longs bm i) (if bmGetBit bm i then [i] else [])
  else [[]]

/-- A thread in `fill_queue_from_bitmap`: the blocks that are left and the one that it stores. -/
structure Filler where
  blocks : List (List Nat)
  storing : Option (Nat × List Nat)

inductive FillStep : Memory → Filler → Memory → Filler → Prop
  | reserve (m : Memory) (block : List Nat) (blocks : List (List Nat)) :
      FillStep m ⟨block :: blocks, none⟩
        { m with k2 := m.k2 + block.length } ⟨blocks, some (m.k2, block)⟩
  | store (m : Memory) (blocks : List (List Nat)) (start : Nat) (block : List Nat) :
      FillStep m ⟨blocks, some (start, block)⟩
        { m with vlist := writeBlock m.vlist start block } ⟨blocks, none⟩

end QueueFromBitmap

section Search

inductive Phase (nt : Nat) where
  | test
  | topDown (oldk2 : Nat) (threads : Fin nt → Scan)
  | fillBitmap (threads : Fin nt → BitThread)
  | bottomUp (threads : Fin nt → BitThread)
  | fillQueue (threads : Fin nt → Filler)

/-- `edges_to_check` is private to a thread. So is `awake_count`, but there they agree. -/
structure Search (nt : Nat) where
  mem : Memory
  edgesToCheck : Fin nt → Int
  awakeCount : Nat
  phase : Phase nt

def Search.TopDown {nt : Nat} (s : Search nt) (t : Fin nt) : Prop :=
  s.mem.scoutCount < (s.edgesToCheck t - s.mem.scoutCount).tdiv alpha

/-- How an `omp for` may share out its turns. -/
def Shares {nt : Nat} (share : Fin nt → List Nat) (turns : List Nat) : Prop :=
  ((List.finRange nt).flatMap share).Perm turns

def frontierDegrees (g : Csr) (m : Memory) : Int :=
  ((List.range' m.k1 (m.k2 - m.k1)).map fun k =>
    (g.xend (m.vlist k) : Int) - g.xoff (m.vlist k)).sum

/-- `bm_swap (past, next)` and `bm_reset (next)` -/
def Memory.swapBitmaps (longs : Nat) (m : Memory) : Memory :=
  { m with past := m.next, next := bmReset longs m.past }

variable {nt : Nat} (g : Csr)

/-- From `test` the team goes on only if all threads take the same branch: the branches meet at
different barriers, and a barrier is passed when all have come to it.

In `topDownEnd` nothing keeps the thread that sets `scout_count` to 0 from doing so before the
threads in `late` have subtracted it; a step is labelled with these threads. -/
inductive SearchStep : Finset (Fin nt) → Search nt → Search nt → Prop
  | topDown (m : Memory) (edges : Fin nt → Int) (awake : Nat) (share : Fin nt → List Nat)
      (hAwake : awake ≠ 0) (hAll : ∀ t, Search.TopDown ⟨m, edges, awake, .test⟩ t)
      (hShare : Shares share (List.range' m.k1 (m.k2 - m.k1))) :
      SearchStep ∅ ⟨m, edges, awake, .test⟩
        ⟨m, edges, awake, .topDown m.k2 fun t => ⟨share t, 0, [], [], .scanning⟩⟩
  | topDownTurn (m m' : Memory) (edges : Fin nt → Int) (awake oldk2 : Nat)
      (threads threads' : Fin nt → Scan)
      (hTurn : Interleave (TopDownStep g) (m, threads) (m', threads')) :
      SearchStep ∅ ⟨m, edges, awake, .topDown oldk2 threads⟩
        ⟨m', edges, awake, .topDown oldk2 threads'⟩
  | topDownEnd (m : Memory) (edges : Fin nt → Int) (awake oldk2 : Nat) (threads : Fin nt → Scan)
      (late : Finset (Fin nt)) (hDone : ∀ t, (threads t).phase = .finished) (hFirst : ∃ t, t ∉ late) :
      SearchStep late ⟨m, edges, awake, .topDown oldk2 threads⟩
        ⟨{ m with k1 := oldk2, scoutCount := frontierDegrees g { m with k1 := oldk2 } },
          fun t => edges t - (if t ∈ late then 0 else m.scoutCount), m.k2 - oldk2, .test⟩
  | bottomUp (m : Memory) (edges : Fin nt → Int) (awake : Nat) (share : Fin nt → List Nat)
      (hAwake : awake ≠ 0) (hAll : ∀ t, ¬ Search.TopDown ⟨m, edges, awake, .test⟩ t)
      (hShare : Shares share (List.range' m.k1 (m.k2 - m.k1))) :
      SearchStep ∅ ⟨m, edges, awake, .test⟩
        ⟨m, edges, awake, .fillBitmap fun t => ⟨share t, .idle, 0⟩⟩
  | fillBitmapTurn (m m' : Memory) (edges : Fin nt → Int) (awake : Nat)
      (threads threads' : Fin nt → BitThread)
      (hTurn : Interleave (BitStep (fillVisit m.vlist)) (m, threads) (m', threads')) :
      SearchStep ∅ ⟨m, edges, awake, .fillBitmap threads⟩ ⟨m', edges, awake, .fillBitmap threads'⟩
  | fillBitmapEnd (m : Memory) (edges : Fin nt → Int) (awake : Nat) (threads : Fin nt → BitThread)
      (hDone : ∀ t, (threads t).todo = [] ∧ (threads t).phase = .idle) (share : Fin nt → List Nat)
      (hShare : Shares share (List.range g.nv)) :
      SearchStep ∅ ⟨m, edges, awake, .fillBitmap threads⟩
        ⟨m.swapBitmaps (numLongs g.nv), edges, awake, .bottomUp fun t => ⟨share t, .idle, 0⟩⟩
  | bottomUpTurn (m m' : Memory) (edges : Fin nt → Int) (awake : Nat)
      (threads threads' : Fin nt → BitThread)
      (hTurn : Interleave (BitStep (bottomUpVisit g m.past)) (m, threads) (m', threads')) :
      SearchStep ∅ ⟨m, edges, awake, .bottomUp threads⟩ ⟨m', edges, awake, .bottomUp threads'⟩
  | bottomUpAgain (m : Memory) (edges : Fin nt → Int) (awake : Nat) (threads : Fin nt → BitThread)
      (hDone : ∀ t, (threads t).todo = [] ∧ (threads t).phase = .idle)
      (hMany : ∑ t, (threads t).count > g.nv / beta) (share : Fin nt → List Nat)
      (hShare : Shares share (List.range g.nv)) :
      SearchStep ∅ ⟨m, edges, awake, .bottomUp threads⟩
        ⟨m.swapBitmaps (numLongs g.nv), edges, ∑ t, (threads t).count,
          .bottomUp fun t => ⟨share t, .idle, 0⟩⟩
  | bottomUpEnd (m : Memory) (edges : Fin nt → Int) (awake : Nat) (threads : Fin nt → BitThread)
      (hDone : ∀ t, (threads t).todo = [] ∧ (threads t).phase = .idle)
      (hFew : ¬ ∑ t, (threads t).count > g.nv / beta) :
      SearchStep ∅ ⟨m, edges, awake, .bottomUp threads⟩
        ⟨{ m with k1 := 0, k2 := 0 }, edges, ∑ t, (threads t).count,
          .fillQueue fun t => ⟨sliceBlocks (numLongs g.nv) m.next g.nv nt t, none⟩⟩
  | fillQueueTurn (m m' : Memory) (edges : Fin nt → Int) (awake : Nat) (threads threads' : Fin nt → Filler)
      (hTurn : Interleave FillStep (m, threads) (m', threads')) :
      SearchStep ∅ ⟨m, edges, awake, .fillQueue threads⟩ ⟨m', edges, awake, .fillQueue threads'⟩
  | fillQueueEnd (m : Memory) (edges : Fin nt → Int) (awake : Nat) (threads : Fin nt → Filler)
      (hDone : ∀ t, (threads t).blocks = [] ∧ (threads t).storing = none) :
      SearchStep ∅ ⟨m, edges, awake, .fillQueue threads⟩
        ⟨{ m with scoutCount := frontierDegrees g m }, edges, awake, .test⟩

def SearchMove (s s' : Search nt) : Prop := ∃ late, SearchStep g late s s'

/-- The call of `make_bfs_tree` on what earlier calls have left in `vlist` and the bitmaps. -/
def startSearch (nt : Nat) (vlist : Nat → Nat) (past next : Bitmap) (src : Nat) : Search nt where
  mem :=
    { tree := Function.update (fun _ => -1) src src
      vlist := Function.update vlist 0 src
      k1 := 0
      k2 := 1
      past := bmReset (numLongs g.nv) past
      next := bmReset (numLongs g.nv) next
      scoutCount := (g.xend src : Int) - g.xoff src }
  edgesToCheck _ := g.xoff g.nv
  awakeCount := 1
  phase := .test

def Search.Finished (s : Search nt) : Prop := s.phase = .test ∧ s.awakeCount = 0

def Search.Diverged (s : Search nt) : Prop :=
  s.phase = .test ∧ s.awakeCount ≠ 0 ∧ (∃ t, s.TopDown t) ∧ ∃ t, ¬ s.TopDown t

end Search

end Parallel

end Trident.Graph500
