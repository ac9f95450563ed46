import Mathlib.Algebra.Group.Nat.Defs
import Mathlib.Logic.Function.Basic
import Trident.Lib.FreeList
import Trident.Lib.Loops

/-! # Nodes, records and their slabs

`order` is fixed for the life of a tree. The key and pointer arrays of a node are
allocated and freed with it; nodes and records come from slabs and go back to
`free_nodes` and `free_recs`. Allocation does not fail.
-/

namespace Trident.Btree

open FreeList

/-- `MIN_ORDER <= order <= MAX_ORDER` -/
structure TreeOrder where
  order : Nat
  min : 3 ≤ order
  max : order ≤ 20

abbrev NodeId := Nat

abbrev RecId := Nat

inductive Ptr where
  | null
  | node (x : NodeId)
  | record (r : RecId)
  deriving DecidableEq

/-- `(node *)p` where a node is needed -/
def Ptr.asNode : Ptr → Option NodeId
  | .node x => some x
  | _ => none

/-- `(record *)p` where a record is needed -/
def Ptr.asRecord : Ptr → Option RecId
  | .record r => some r
  | _ => none

/-- The arrays of a node that is not allocated are empty. -/
structure Node where
  pointers : List Ptr
  keys : List UInt64
  parent : Option NodeId
  isLeaf : Bool
  numKeys : Nat
  next : Option NodeId

/-- The union of a record: its value, or its link in `free_recs`. -/
inductive Cell where
  | value (v : UInt64)
  | next (r : Option RecId)
  deriving DecidableEq

def Cell.link : Cell → Option RecId
  | .value _ => none
  | .next r => r

structure Heap where
  nodes : NodeId → Node
  nodeBrk : Nat
  freeNodes : Option NodeId
  recs : RecId → Cell
  recBrk : Nat
  freeRecs : Option RecId

def zeroNode : Node :=
  { pointers := [], keys := [], parent := none, isLeaf := false, numKeys := 0, next := none }

def emptyHeap : Heap :=
  { nodes := fun _ => zeroNode, nodeBrk := 0, freeNodes := none,
    recs := fun _ => .next none, recBrk := 0, freeRecs := none }

namespace Heap

def set (h : Heap) (x : NodeId) (n : Node) : Heap := { h with nodes := Function.update h.nodes x n }

def setRec (h : Heap) (r : RecId) (c : Cell) : Heap := { h with recs := Function.update h.recs r c }

def setParent (h : Heap) (x : NodeId) (p : Option NodeId) : Heap :=
  h.set x { h.nodes x with parent := p }

end Heap

/-- `NODE_SLAB_GROW / sizeof(struct node)` -/
def nodesPerSlab : Nat := 2 ^ 18 / 48

/-- `RECORD_SLAB_GROW / sizeof(struct record)` -/
def recordsPerSlab : Nat := 2 ^ 18 / 16

/-- One turn of the loop of `alloc_node` over a new slab. -/
def carveNode (h : Heap) : Heap :=
  { h.set h.nodeBrk { zeroNode with next := h.freeNodes } with
    freeNodes := some h.nodeBrk, nodeBrk := h.nodeBrk + 1 }

def growNodes (h : Heap) : Heap := carveNode^[nodesPerSlab] h

def allocNode (h : Heap) : Option (Heap × NodeId) := do
  let h := if h.freeNodes = none then growNodes h else h
  let nd ← h.freeNodes
  return ({ h with freeNodes := (h.nodes nd).next }, nd)

def freeNode (h : Heap) (n : NodeId) : Heap :=
  { h.set n { h.nodes n with next := h.freeNodes } with freeNodes := some n }

/-- `free(n->keys); free(n->pointers); free_node(n);` -/
def releaseNode (h : Heap) (n : NodeId) : Heap :=
  freeNode (h.set n { h.nodes n with keys := [], pointers := [] }) n

def carveRecord (h : Heap) : Heap :=
  { h.setRec h.recBrk (.next h.freeRecs) with freeRecs := some h.recBrk, recBrk := h.recBrk + 1 }

def growRecords (h : Heap) : Heap := carveRecord^[recordsPerSlab] h

def allocRecord (h : Heap) : Option (Heap × RecId) := do
  let h := if h.freeRecs = none then growRecords h else h
  let rec' ← h.freeRecs
  return ({ h with freeRecs := (h.recs rec').link }, rec')

def freeRecord (h : Heap) (r : RecId) : Heap :=
  { h.setRec r (.next h.freeRecs) with freeRecs := some r }

def makeRecord (h : Heap) (value : UInt64) : Option (Heap × RecId) := do
  let (h, r) ← allocRecord h
  return (h.setRec r (.value value), r)

def freshNode (o : TreeOrder) : Node :=
  { pointers := List.replicate o.order .null, keys := List.replicate (o.order - 1) 0,
    parent := none, isLeaf := false, numKeys := 0, next := none }

def makeNode (o : TreeOrder) (h : Heap) : Option (Heap × NodeId) := do
  let (h, x) ← allocNode h
  return (h.set x (freshNode o), x)

def makeLeaf (o : TreeOrder) (h : Heap) : Option (Heap × NodeId) := do
  let (h, x) ← makeNode o h
  return (h.set x { h.nodes x with isLeaf := true }, x)

section Pools

/-- The nodes in use are `live`, the others are on `free_nodes`. -/
def NodePool (h : Heap) (live : List NodeId) : Prop :=
  Pool (fun x => (h.nodes x).next) h.freeNodes h.nodeBrk live

def RecPool (h : Heap) (live : List RecId) : Prop :=
  Pool (fun r => (h.recs r).link) h.freeRecs h.recBrk live

@[simp] theorem set_nodes_self (h : Heap) (x : NodeId) (n : Node) : (h.set x n).nodes x = n := by
  simp [Heap.set]

@[simp] theorem set_nodes_of_ne (h : Heap) {x y : NodeId} (n : Node) (hne : y ≠ x) :
    (h.set x n).nodes y = h.nodes y := by
  simp [Heap.set, hne]

@[simp] theorem setRec_recs_self (h : Heap) (r : RecId) (c : Cell) : (h.setRec r c).recs r = c := by
  simp [Heap.setRec]

@[simp] theorem setRec_recs_of_ne (h : Heap) {r q : RecId} (c : Cell) (hne : q ≠ r) :
    (h.setRec r c).recs q = h.recs q := by
  simp [Heap.setRec, hne]

def SameRecords (h h' : Heap) : Prop :=
  h'.recs = h.recs ∧ h'.recBrk = h.recBrk ∧ h'.freeRecs = h.freeRecs

def SameNodes (h h' : Heap) : Prop :=
  h'.nodes = h.nodes ∧ h'.nodeBrk = h.nodeBrk ∧ h'.freeNodes = h.freeNodes

theorem SameRecords.refl (h : Heap) : SameRecords h h := ⟨rfl, rfl, rfl⟩

theorem SameRecords.trans {h h' h'' : Heap} (h₁ : SameRecords h h') (h₂ : SameRecords h' h'') :
    SameRecords h h'' :=
  ⟨h₂.1.trans h₁.1, h₂.2.1.trans h₁.2.1, h₂.2.2.trans h₁.2.2⟩

theorem sameRecords_set (h : Heap) (x : NodeId) (n : Node) : SameRecords h (h.set x n) :=
  ⟨rfl, rfl, rfl⟩

theorem SameRecords.pool {h h' : Heap} (hSame : SameRecords h h') {live : List RecId}
    (hPool : RecPool h live) : RecPool h' live := by
  rw [RecPool, hSame.1, hSame.2.1, hSame.2.2]
  exact hPool

theorem SameNodes.pool {h h' : Heap} (hSame : SameNodes h h') {live : List NodeId}
    (hPool : NodePool h live) : NodePool h' live := by
  rw [NodePool, hSame.1, hSame.2.1, hSame.2.2]
  exact hPool

theorem NodePool.set {h : Heap} {live : List NodeId} (hPool : NodePool h live) {x : NodeId}
    (hx : x ∈ live) (n : Node) : NodePool (h.set x n) live := by
  refine hPool.congr fun y hy => ?_
  have hne : y ≠ x := fun hEq => hy (hEq ▸ hx)
  rw [set_nodes_of_ne h n hne]

theorem RecPool.setRec {h : Heap} {live : List RecId} (hPool : RecPool h live) {r : RecId}
    (hr : r ∈ live) (c : Cell) : RecPool (h.setRec r c) live := by
  refine hPool.congr fun q hq => ?_
  have hne : q ≠ r := fun hEq => hq (hEq ▸ hr)
  rw [setRec_recs_of_ne h c hne]

theorem carveNode_spec {h : Heap} {live : List NodeId} (hPool : NodePool h live) :
    NodePool (carveNode h) live ∧ SameRecords h (carveNode h) ∧
      ∀ x ∈ live, (carveNode h).nodes x = h.nodes x := by
  refine ⟨hPool.carve (fun y hy => ?_) ?_, ⟨rfl, rfl, rfl⟩, fun x hx => ?_⟩
  · exact congrArg Node.next (set_nodes_of_ne h _ hy)
  · exact congrArg Node.next (set_nodes_self h _ _)
  · exact set_nodes_of_ne h _ (Nat.ne_of_lt (hPool.lt_brk hx))

theorem iterate_carveNode_spec (n : Nat) {h : Heap} {live : List NodeId} (hPool : NodePool h live) :
    NodePool (carveNode^[n] h) live ∧ SameRecords h (carveNode^[n] h) ∧
      ∀ x ∈ live, (carveNode^[n] h).nodes x = h.nodes x := by
  induction n generalizing h with
  | zero => exact ⟨hPool, .refl h, fun _ _ => rfl⟩
  | succ n ih =>
    obtain ⟨hFirst, hRecords, hNodes⟩ := carveNode_spec hPool
    obtain ⟨hRest, hRecords', hNodes'⟩ := ih hFirst
    rw [Function.iterate_succ_apply]
    exact ⟨hRest, hRecords.trans hRecords', fun x hx => (hNodes' x hx).trans (hNodes x hx)⟩

theorem growNodes_spec {h : Heap} {live : List NodeId} (hPool : NodePool h live) :
    NodePool (growNodes h) live ∧ SameRecords h (growNodes h) ∧
      ∀ x ∈ live, (growNodes h).nodes x = h.nodes x := by
  rw [growNodes]
  exact iterate_carveNode_spec nodesPerSlab hPool

theorem freeNodes_growNodes (h : Heap) : (growNodes h).freeNodes ≠ none := by
  have hSlab : nodesPerSlab = nodesPerSlab - 1 + 1 := by simp [nodesPerSlab]
  rw [growNodes, hSlab, Function.iterate_succ_apply']
  exact Option.some_ne_none _

theorem allocNode_spec {h : Heap} {live : List NodeId} (hPool : NodePool h live) :
    ∃ h' x, allocNode h = some (h', x) ∧ NodePool h' (x :: live) ∧ x ∉ live ∧
      SameRecords h h' ∧ ∀ y ∈ live, h'.nodes y = h.nodes y := by
  obtain ⟨g, hGrown, hPool', hRecords, hNodes, hFree⟩ : ∃ g,
      (if h.freeNodes = none then growNodes h else h) = g ∧ NodePool g live ∧ SameRecords h g ∧
        (∀ y ∈ live, g.nodes y = h.nodes y) ∧ g.freeNodes ≠ none := by
    rcases eq_or_ne h.freeNodes none with hEmpty | hEmpty
    · obtain ⟨hPool', hRecords, hNodes⟩ := growNodes_spec hPool
      exact ⟨growNodes h, if_pos hEmpty, hPool', hRecords, hNodes, freeNodes_growNodes h⟩
    · exact ⟨h, if_neg hEmpty, hPool, .refl h, fun _ _ => rfl, hEmpty⟩
  obtain ⟨x, hx⟩ := Option.ne_none_iff_exists'.mp hFree
  rw [NodePool, hx] at hPool'
  obtain ⟨hTaken, hNew⟩ := hPool'.take
  refine ⟨{ g with freeNodes := (g.nodes x).next }, x, ?_, hTaken, hNew, hRecords, hNodes⟩
  simp only [allocNode, hGrown, hx, Option.bind_eq_bind, Option.bind_some, Option.pure_def]

theorem makeNode_spec (o : TreeOrder) {h : Heap} {live : List NodeId} (hPool : NodePool h live) :
    ∃ h' x, makeNode o h = some (h', x) ∧ NodePool h' (x :: live) ∧ x ∉ live ∧
      SameRecords h h' ∧ h'.nodes x = freshNode o ∧ ∀ y ∈ live, h'.nodes y = h.nodes y := by
  obtain ⟨g, x, hAlloc, hPool', hNew, hRecords, hNodes⟩ := allocNode_spec hPool
  refine ⟨g.set x (freshNode o), x, ?_, hPool'.set List.mem_cons_self _, hNew,
    hRecords.trans (sameRecords_set _ _ _), set_nodes_self _ _ _, fun y hy => ?_⟩
  · rw [makeNode, hAlloc]
    rfl
  · rw [set_nodes_of_ne _ _ (ne_of_mem_of_not_mem hy hNew), hNodes y hy]

theorem makeLeaf_spec (o : TreeOrder) {h : Heap} {live : List NodeId} (hPool : NodePool h live) :
    ∃ h' x, makeLeaf o h = some (h', x) ∧ NodePool h' (x :: live) ∧ x ∉ live ∧
      SameRecords h h' ∧ h'.nodes x = { freshNode o with isLeaf := true } ∧
      ∀ y ∈ live, h'.nodes y = h.nodes y := by
  obtain ⟨g, x, hMake, hPool', hNew, hRecords, hx, hNodes⟩ := makeNode_spec o hPool
  refine ⟨g.set x { g.nodes x with isLeaf := true }, x, ?_, hPool'.set List.mem_cons_self _, hNew,
    hRecords.trans (sameRecords_set _ _ _), ?_, fun y hy => ?_⟩
  · rw [makeLeaf, hMake]
    rfl
  · rw [set_nodes_self, hx]
  · rw [set_nodes_of_ne _ _ (ne_of_mem_of_not_mem hy hNew), hNodes y hy]

theorem releaseNode_spec {h : Heap} {x : NodeId} {live : List NodeId}
    (hPool : NodePool h (x :: live)) : NodePool (releaseNode h x) live ∧
      SameRecords h (releaseNode h x) ∧ ∀ y, y ≠ x → (releaseNode h x).nodes y = h.nodes y := by
  have hNodes : ∀ y, y ≠ x → (releaseNode h x).nodes y = h.nodes y := fun y hy =>
    (set_nodes_of_ne _ _ hy).trans (set_nodes_of_ne h _ hy)
  refine ⟨hPool.give (fun y hy => congrArg Node.next (hNodes y hy)) ?_, ⟨rfl, rfl, rfl⟩, hNodes⟩
  exact congrArg Node.next (set_nodes_self _ _ _)

theorem carveRecord_spec {h : Heap} {live : List RecId} (hPool : RecPool h live) :
    RecPool (carveRecord h) live ∧ SameNodes h (carveRecord h) ∧
      ∀ r ∈ live, (carveRecord h).recs r = h.recs r := by
  refine ⟨hPool.carve (fun y hy => ?_) ?_, ⟨rfl, rfl, rfl⟩, fun r hr => ?_⟩
  · exact congrArg Cell.link (setRec_recs_of_ne h _ hy)
  · exact congrArg Cell.link (setRec_recs_self h _ _)
  · exact setRec_recs_of_ne h _ (Nat.ne_of_lt (hPool.lt_brk hr))

theorem iterate_carveRecord_spec (n : Nat) {h : Heap} {live : List RecId} (hPool : RecPool h live) :
    RecPool (carveRecord^[n] h) live ∧ SameNodes h (carveRecord^[n] h) ∧
      ∀ r ∈ live, (carveRecord^[n] h).recs r = h.recs r := by
  induction n generalizing h with
  | zero => exact ⟨hPool, ⟨rfl, rfl, rfl⟩, fun _ _ => rfl⟩
  | succ n ih =>
    obtain ⟨hFirst, hNodes, hRecs⟩ := carveRecord_spec hPool
    obtain ⟨hRest, hNodes', hRecs'⟩ := ih hFirst
    rw [Function.iterate_succ_apply]
    exact ⟨hRest, ⟨hNodes'.1.trans hNodes.1, hNodes'.2.1.trans hNodes.2.1,
      hNodes'.2.2.trans hNodes.2.2⟩, fun r hr => (hRecs' r hr).trans (hRecs r hr)⟩

theorem growRecords_spec {h : Heap} {live : List RecId} (hPool : RecPool h live) :
    RecPool (growRecords h) live ∧ SameNodes h (growRecords h) ∧
      ∀ r ∈ live, (growRecords h).recs r = h.recs r := by
  rw [growRecords]
  exact iterate_carveRecord_spec recordsPerSlab hPool

theorem freeRecs_growRecords (h : Heap) : (growRecords h).freeRecs ≠ none := by
  have hSlab : recordsPerSlab = recordsPerSlab - 1 + 1 := by simp [recordsPerSlab]
  rw [growRecords, hSlab, Function.iterate_succ_apply']
  exact Option.some_ne_none _

theorem allocRecord_spec {h : Heap} {live : List RecId} (hPool : RecPool h live) :
    ∃ h' r, allocRecord h = some (h', r) ∧ RecPool h' (r :: live) ∧ r ∉ live ∧
      SameNodes h h' ∧ ∀ q ∈ live, h'.recs q = h.recs q := by
  obtain ⟨g, hGrown, hPool', hNodes, hRecs, hFree⟩ : ∃ g,
      (if h.freeRecs = none then growRecords h else h) = g ∧ RecPool g live ∧ SameNodes h g ∧
        (∀ q ∈ live, g.recs q = h.recs q) ∧ g.freeRecs ≠ none := by
    rcases eq_or_ne h.freeRecs none with hEmpty | hEmpty
    · obtain ⟨hPool', hNodes, hRecs⟩ := growRecords_spec hPool
      exact ⟨growRecords h, if_pos hEmpty, hPool', hNodes, hRecs, freeRecs_growRecords h⟩
    · exact ⟨h, if_neg hEmpty, hPool, ⟨rfl, rfl, rfl⟩, fun _ _ => rfl, hEmpty⟩
  obtain ⟨r, hr⟩ := Option.ne_none_iff_exists'.mp hFree
  rw [RecPool, hr] at hPool'
  obtain ⟨hTaken, hNew⟩ := hPool'.take
  refine ⟨{ g with freeRecs := (g.recs r).link }, r, ?_, hTaken, hNew, hNodes, hRecs⟩
  simp only [allocRecord, hGrown, hr, Option.bind_eq_bind, Option.bind_some, Option.pure_def]

theorem makeRecord_spec {h : Heap} {live : List RecId} (hPool : RecPool h live) (value : UInt64) :
    ∃ h' r, makeRecord h value = some (h', r) ∧ RecPool h' (r :: live) ∧ r ∉ live ∧
      SameNodes h h' ∧ h'.recs r = .value value ∧ ∀ q ∈ live, h'.recs q = h.recs q := by
  obtain ⟨g, r, hAlloc, hPool', hNew, hNodes, hRecs⟩ := allocRecord_spec hPool
  refine ⟨g.setRec r (.value value), r, ?_, hPool'.setRec List.mem_cons_self _, hNew, hNodes,
    setRec_recs_self _ _ _, fun q hq => ?_⟩
  · rw [makeRecord, hAlloc]
    rfl
  · rw [setRec_recs_of_ne _ _ (ne_of_mem_of_not_mem hq hNew), hRecs q hq]

theorem freeRecord_spec {h : Heap} {r : RecId} {live : List RecId} (hPool : RecPool h (r :: live)) :
    RecPool (freeRecord h r) live ∧ SameNodes h (freeRecord h r) ∧
      ∀ q, q ≠ r → (freeRecord h r).recs q = h.recs q := by
  have hRecs : ∀ q, q ≠ r → (freeRecord h r).recs q = h.recs q := fun q hq => setRec_recs_of_ne h _ hq
  refine ⟨hPool.give (fun y hy => congrArg Cell.link (hRecs y hy)) ?_, ⟨rfl, rfl, rfl⟩, hRecs⟩
  exact congrArg Cell.link (setRec_recs_self _ _ _)

end Pools

end Trident.Btree
