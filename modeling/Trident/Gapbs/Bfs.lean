import Trident.Lib.Distances
import Trident.Gapbs.Afforest
import Trident.Gapbs.SlidingQueue

/-! # Breadth-first search

`DOBFS` of the breadth-first search kernel, with the `Bitmap` of `bitmap.h`. A negative parent is that
of a node which is not visited yet. The loops over `parent` before and after the search, whose turns
touch a cell of their own each, are maps.
-/

namespace Trident.Gapbs

open Relation Transition Distances

section Trees

def Graph.arc (g : Graph) (u v : Nat) : Prop := u < g.numNodes ∧ v ∈ g.outNeigh u 0

/-- One arc, from 0 to 1. -/
def oneArc : Graph where
  directed := true
  numNodes := 2
  outIndex n := min n 1
  outNeighbors _ := 1
  inIndex n := n - 1
  inNeighbors _ := 0
  nonempty := by decide
  undirected := nofun
  out_lt := by decide
  in_lt := by decide
  inverse := by decide

/-- What is reached has a parent one level nearer, with an edge to it. -/
structure Graph.IsBfsTree (g : Graph) (source : Nat) (parent : Nat → Int) : Prop where
  root : parent source = source
  unreached : ∀ v < g.numNodes, parent v = -1 ↔ ¬ ReflTransGen g.arc source v
  nearer : ∀ v < g.numNodes, v ≠ source → parent v ≠ -1 → ∃ u n : Nat, parent v = u ∧ g.arc u v ∧
    Level g.arc source u n ∧ Level g.arc source v (n + 1)

end Trees

section Bitmaps

abbrev Bitmap := Nat → BitVec 64

namespace Bitmap

def wordOffset (n : Nat) : Nat := n / 64

def bitOffset (n : Nat) : Nat := n &&& 63

def bitMask (pos : Nat) : BitVec 64 := 1#64 <<< bitOffset pos

def reset (size : Nat) (bm : Bitmap) : Bitmap := fun w => if w < (size + 63) / 64 then 0#64 else bm w

def setBit (bm : Bitmap) (pos : Nat) : Bitmap :=
  Function.update bm (wordOffset pos) (bm (wordOffset pos) ||| bitMask pos)

def GetBit (bm : Bitmap) (pos : Nat) : Prop := (bm (wordOffset pos) >>> bitOffset pos) &&& 1#64 ≠ 0#64

instance (bm : Bitmap) (pos : Nat) : Decidable (GetBit bm pos) := inferInstanceAs (Decidable (_ ≠ _))

end Bitmap

end Bitmaps

section Loops

open Bitmap

inductive SetPhase where
  | turn
  | setting (u : Nat)
  | loaded (u : Nat) (oldVal : BitVec 64)
  | finished

/-- A turn of `QueueToBitmap`, with `set_bit_atomic`. -/
structure BitSetter where
  qIter : Nat
  phase : SetPhase

def setterStep (queue : SlidingQueue) (bm : Bitmap) (s : BitSetter) : Option (Bitmap × BitSetter) :=
  match s.phase with
  | .turn => some (bm, { s with phase := .setting (queue.shared s.qIter) })
  | .setting u => some (bm, { s with phase := .loaded u (bm (wordOffset u)) })
  | .loaded u oldVal =>
    if bm (wordOffset u) = oldVal then
      some (Function.update bm (wordOffset u) (oldVal ||| bitMask u), { s with phase := .finished })
    else some (bm, { s with phase := .setting u })
  | .finished => none

/-- Each cell of the queue has a turn if it lies in the window. -/
def setter (queue : SlidingQueue) (c : Nat) : BitSetter where
  qIter := c
  phase := if queue.outStart ≤ c ∧ c < queue.outEnd then .turn else .finished

/-- `BitmapToQueue` in a thread: the nodes that are left. -/
def gatherBody (bm : Bitmap) (_ : SlidingQueue) (_ : Unit) (todo : List Nat) :
    Option (Unit × List Nat × Option Nat) :=
  match todo with
  | [] => none
  | n :: todo => some ((), todo, if GetBit bm n then some n else none)

/-- `schedule(dynamic, 1024)` -/
def chunkSize : Nat := 1024

def numChunks (numNodes : Nat) : Nat := (numNodes + chunkSize - 1) / chunkSize

def chunkNodes (numNodes c : Nat) : List Nat :=
  List.range' (chunkSize * c) (min chunkSize (numNodes - chunkSize * c))

inductive BottomUpPhase where
  | looking
  | setting (u : Nat)
  | loaded (u : Nat) (word : BitVec 64)

/-- A chunk of the loop in `BUStep`, which is all one thread's: the nodes that are left of it, and what
it adds to `awake_count`. -/
structure BottomUp where
  todo : List Nat
  awake : Nat
  phase : BottomUpPhase

/-- `set_bit` is a load and a store. -/
def bottomUpStep (g : Graph) (front : Bitmap) (parent : Nat → Int) (next : Bitmap) (s : BottomUp) :
    Option ((Nat → Int) × Bitmap × BottomUp) :=
  match s.phase with
  | .looking =>
    match s.todo with
    | [] => none
    | u :: todo =>
      if parent u < 0 then
        match (g.inNeigh u 0).find? fun v => GetBit front v with
        | some v => some (Function.update parent u v, next, ⟨todo, s.awake + 1, .setting u⟩)
        | none => some (parent, next, { s with todo })
      else some (parent, next, { s with todo })
  | .setting u => some (parent, next, { s with phase := .loaded u (next (wordOffset u)) })
  | .loaded u word =>
    some (parent, Function.update next (wordOffset u) (word ||| bitMask u), { s with phase := .looking })

inductive TopDownPhase where
  | looking
  | swapping (currVal : Int)

/-- The loop of `TDStep` in a thread: the places of the queue that are left, the node of the present
one, the neighbors that are left, and what it adds to `scout_count`. -/
structure TopDown where
  places : List Nat
  u : Nat
  neighbors : List Nat
  phase : TopDownPhase
  scout : Int

def topDownBody (g : Graph) (queue : SlidingQueue) (parent : Nat → Int) (s : TopDown) :
    Option ((Nat → Int) × TopDown × Option Nat) :=
  match s.neighbors with
  | [] =>
    match s.places with
    | [] => none
    | q :: places =>
      let u := queue.shared q
      some (parent, { s with places, u, neighbors := g.outNeigh u 0, phase := .looking }, none)
  | v :: neighbors =>
    match s.phase with
    | .looking =>
      if parent v < 0 then some (parent, { s with phase := .swapping (parent v) }, none)
      else some (parent, { s with neighbors }, none)
    | .swapping currVal =>
      if parent v = currVal then
        some (Function.update parent v s.u,
          { s with neighbors, phase := .looking, scout := s.scout + -currVal }, some v)
      else some (parent, { s with neighbors, phase := .looking }, none)

end Loops

section Search

def alpha : Int := 15

def beta : Nat := 18

inductive BfsStage (nt numNodes : Nat) where
  | test
  | queueToBitmap (setters : Fin numNodes → BitSetter)
  | bottomUp (oldAwakeCount : Nat) (chunks : Fin (numChunks numNodes) → BottomUp)
  | bitmapToQueue (workers : Fin nt → Worker (List Nat))
  | topDown (workers : Fin nt → Worker TopDown)
  | finished

structure Bfs (nt numNodes : Nat) where
  parent : Nat → Int
  queue : SlidingQueue
  front : Bitmap
  curr : Bitmap
  edgesToCheck : Int
  scoutCount : Int
  stage : BfsStage nt numNodes

variable {nt : Nat} (g : Graph)

def initParent (n : Nat) : Int := if g.outDegree n ≠ 0 then -(g.outDegree n : Int) else -1

/-- Before the loop, with any memory for the queue and the bitmaps. -/
def dobfsStart (nt source : Nat) (shared : Nat → Nat) (curr front : Bitmap) : Bfs nt g.numNodes where
  parent := Function.update (initParent g) source source
  queue := ((SlidingQueue.new shared).pushBack source).slideWindow
  curr := curr.reset g.numNodes
  front := front.reset g.numNodes
  edgesToCheck := g.numEdgesDirected
  scoutCount := g.outDegree source
  stage := .test

/-- The loop that ends `DOBFS`. -/
def trimParent (parent : Nat → Int) (n : Nat) : Int :=
  if n < g.numNodes ∧ parent n < -1 then -1 else parent n

def bottomUps (numNodes : Nat) (c : Fin (numChunks numNodes)) : BottomUp :=
  ⟨chunkNodes numNodes c, 0, .looking⟩

/-- The condition of the loop around `BUStep`. -/
def Again (numNodes awakeCount oldAwakeCount : Nat) : Prop :=
  awakeCount ≥ oldAwakeCount ∨ awakeCount > numNodes / beta

inductive DobfsStep : Bfs nt g.numNodes → Bfs nt g.numNodes → Prop
  | finish (s : Bfs nt g.numNodes) (hStage : s.stage = .test) (hEmpty : s.queue.Empty) :
      DobfsStep s { s with parent := trimParent g s.parent, stage := .finished }
  | queueToBitmap (s : Bfs nt g.numNodes) (hStage : s.stage = .test) (hMore : ¬ s.queue.Empty)
      (hScout : s.scoutCount > s.edgesToCheck.tdiv alpha) :
      DobfsStep s { s with stage := .queueToBitmap fun c => setter s.queue c }
  | setBit (s : Bfs nt g.numNodes) (setters setters' : Fin g.numNodes → BitSetter) (front : Bitmap)
      (hStage : s.stage = .queueToBitmap setters)
      (hTurn : Interleave (fun m l m' l' => setterStep s.queue m l = some (m', l'))
        (s.front, setters) (front, setters')) :
      DobfsStep s { s with front, stage := .queueToBitmap setters' }
  | bottomUp (s : Bfs nt g.numNodes) (setters : Fin g.numNodes → BitSetter)
      (hStage : s.stage = .queueToBitmap setters) (hDone : ∀ c, (setters c).phase = .finished) :
      DobfsStep s { s with
        queue := s.queue.slideWindow
        curr := s.curr.reset g.numNodes
        stage := .bottomUp s.queue.size (bottomUps g.numNodes) }
  | scan (s : Bfs nt g.numNodes) (old : Nat) (chunks chunks' : Fin (numChunks g.numNodes) → BottomUp)
      (parent : Nat → Int) (curr : Bitmap) (hStage : s.stage = .bottomUp old chunks)
      (hTurn : Interleave (fun m l m' l' => bottomUpStep g s.front m.1 m.2 l = some (m'.1, m'.2, l'))
        ((s.parent, s.curr), chunks) ((parent, curr), chunks')) :
      DobfsStep s { s with parent, curr, stage := .bottomUp old chunks' }
  | again (s : Bfs nt g.numNodes) (old : Nat) (chunks : Fin (numChunks g.numNodes) → BottomUp)
      (hStage : s.stage = .bottomUp old chunks)
      (hDone : ∀ c, (chunks c).todo = [] ∧ (chunks c).phase = .looking)
      (hAgain : Again g.numNodes (∑ c, (chunks c).awake) old) :
      DobfsStep s { s with
        front := s.curr
        curr := s.front.reset g.numNodes
        stage := .bottomUp (∑ c, (chunks c).awake) (bottomUps g.numNodes) }
  | bitmapToQueue (s : Bfs nt g.numNodes) (old : Nat)
      (chunks : Fin (numChunks g.numNodes) → BottomUp) (share : Fin nt → List Nat)
      (hStage : s.stage = .bottomUp old chunks)
      (hDone : ∀ c, (chunks c).todo = [] ∧ (chunks c).phase = .looking)
      (hEnough : ¬ Again g.numNodes (∑ c, (chunks c).awake) old)
      (hShare : Shares share (List.range g.numNodes)) :
      DobfsStep s { s with
        front := s.curr
        curr := s.front
        stage := .bitmapToQueue fun t => ⟨share t, [], .looping⟩ }
  | gather (s : Bfs nt g.numNodes) (workers workers' : Fin nt → Worker (List Nat)) (queue : SlidingQueue)
      (hStage : s.stage = .bitmapToQueue workers)
      (hTurn : Interleave (fun m l m' l' => workerStep (gatherBody s.front) m () l = some (m', (), l'))
        (s.queue, workers) (queue, workers')) :
      DobfsStep s { s with queue, stage := .bitmapToQueue workers' }
  | gathered (s : Bfs nt g.numNodes) (workers : Fin nt → Worker (List Nat))
      (hStage : s.stage = .bitmapToQueue workers) (hDone : ∀ t, (workers t).phase = .finished) :
      DobfsStep s { s with queue := s.queue.slideWindow, scoutCount := 1, stage := .test }
  | topDown (s : Bfs nt g.numNodes) (share : Fin nt → List Nat) (hStage : s.stage = .test)
      (hMore : ¬ s.queue.Empty) (hScout : ¬ s.scoutCount > s.edgesToCheck.tdiv alpha)
      (hShare : Shares share s.queue.places) :
      DobfsStep s { s with
        edgesToCheck := s.edgesToCheck - s.scoutCount
        stage := .topDown fun t => ⟨⟨share t, 0, [], .looking, 0⟩, [], .looping⟩ }
  | claim (s : Bfs nt g.numNodes) (workers workers' : Fin nt → Worker TopDown) (queue : SlidingQueue)
      (parent : Nat → Int) (hStage : s.stage = .topDown workers)
      (hTurn : Interleave
        (fun m l m' l' => workerStep (topDownBody g) m.1 m.2 l = some (m'.1, m'.2, l'))
        ((s.queue, s.parent), workers) ((queue, parent), workers')) :
      DobfsStep s { s with queue, parent, stage := .topDown workers' }
  | claimed (s : Bfs nt g.numNodes) (workers : Fin nt → Worker TopDown)
      (hStage : s.stage = .topDown workers) (hDone : ∀ t, (workers t).phase = .finished) :
      DobfsStep s { s with
        queue := s.queue.slideWindow
        scoutCount := ∑ t, (workers t).loop.scout
        stage := .test }

end Search

end Trident.Gapbs
