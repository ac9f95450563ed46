import Trident.Btree.Memory

/-! # Searching, inserting and deleting

`find`, `insert` and `delete` with everything they call, less the output of the
verbose mode. A step outside an array, through a NULL or through a pointer of the
wrong kind is `none`; so is a call that recurses more often than there are nodes.
-/

namespace Trident.Btree

open Loops

def cut (length : Nat) : Nat := if length % 2 = 0 then length / 2 else length / 2 + 1

/-- One statement or loop that changes both arrays of a node. -/
def Node.both (n : Node) (keys : List UInt64 → Option (List UInt64))
    (pointers : List Ptr → Option (List Ptr)) : Option Node := do
  let ks ← keys n.keys
  let ps ← pointers n.pointers
  return { n with keys := ks, pointers := ps }

/-- The same, followed by `num_keys++`. -/
def Node.push (n : Node) (keys : List UInt64 → Option (List UInt64))
    (pointers : List Ptr → Option (List Ptr)) : Option Node := do
  let n ← n.both keys pointers
  return { n with numKeys := n.numKeys + 1 }

section Search

/-- `while (i < c->num_keys) { if (key >= c->keys[i]) i++; else break; }` -/
def childIndex (c : Node) (key : UInt64) : Option Nat :=
  scan (fun i => c.keys[i]?.map fun k => decide (k ≤ key)) 0 c.numKeys

def findLeaf (h : Heap) (key : UInt64) : Nat → NodeId → Option NodeId
  | 0, _ => none
  | fuel + 1, c =>
    if (h.nodes c).isLeaf then some c
    else do
      let i ← childIndex (h.nodes c) key
      let child ← (h.nodes c).pointers[i]?.bind Ptr.asNode
      findLeaf h key fuel child

/-- `leaf_out` and the record. -/
def find (h : Heap) (root : Option NodeId) (key : UInt64) : Option (Option NodeId × Option RecId) :=
  match root with
  | none => some (none, none)
  | some root => do
    let leaf ← findLeaf h key (h.nodeBrk + 1) root
    let n := h.nodes leaf
    let i ← scan (fun i => n.keys[i]?.map fun k => decide (k ≠ key)) 0 n.numKeys
    if i = n.numKeys then return (some leaf, none)
    else
      let r ← n.pointers[i]?.bind Ptr.asRecord
      return (some leaf, some r)

/-- The index of `child` among the pointers in use, or one more than there are. -/
def pointerIndex (parent : Node) (child : NodeId) : Option Nat :=
  scan (fun i => parent.pointers[i]?.map fun p => decide (p ≠ .node child)) 0 (parent.numKeys + 1)

end Search

section Insertion

def insertIntoLeaf (leaf : Node) (key : UInt64) (pointer : Ptr) : Option Node := do
  let insertionPoint ← scan (fun i => leaf.keys[i]?.map fun k => decide (k < key)) 0 leaf.numKeys
  let leaf ← forDown (fun i n => n.both (fun ks => copyCell ks i ks (i - 1))
    fun ps => copyCell ps i ps (i - 1)) insertionPoint (leaf.numKeys - insertionPoint) leaf
  leaf.push (fun ks => store ks insertionPoint key) fun ps => store ps insertionPoint pointer

/-- The arrays `temp[j]` of a split: `if (j == skipped) j++;` before each of the copies. -/
def skipping {σ : Type} (skipped : Nat) (copy : Nat → Nat → σ → Option σ) (i : Nat) (s : Nat × σ) :
    Option (Nat × σ) :=
  let j := if s.1 = skipped then s.1 + 1 else s.1
  (copy i j s.2).map fun temp => (j + 1, temp)

/-- `temp_keys` and `temp_pointers` of a leaf that is to hold one entry more than it can. -/
def leafTemps (o : TreeOrder) (leaf : Node) (key : UInt64) (pointer : Ptr) :
    Option (List UInt64 × List Ptr) := do
  let insertionIndex ←
    scan (fun i => leaf.keys[i]?.map fun k => decide (k < key)) 0 (o.order - 1)
  let (_, tempKeys, tempPointers) ← forUp (skipping insertionIndex fun i j temp => do
      let ks ← copyCell temp.1 j leaf.keys i
      let ps ← copyCell temp.2 j leaf.pointers i
      return (ks, ps)) 0 leaf.numKeys
    (0, List.replicate (o.order + 1) 0, List.replicate (o.order + 1) .null)
  let tempKeys ← store tempKeys insertionIndex key
  let tempPointers ← store tempPointers insertionIndex pointer
  return (tempKeys, tempPointers)

/-- The temporary arrays are dealt to both halves of a leaf, the new one with id `newId`. -/
def dealLeaf (o : TreeOrder) (leaf newLeaf : Node) (newId : NodeId) (tempKeys : List UInt64)
    (tempPointers : List Ptr) : Option (Node × Node) := do
  let split := cut (o.order - 1)
  let leaf ← forUp (fun i n => n.push (fun ks => copyCell ks i tempKeys i)
    fun ps => copyCell ps i tempPointers i) 0 split { leaf with numKeys := 0 }
  let newLeaf ← forUp (fun i n => n.push (fun ks => copyCell ks (i - split) tempKeys i)
    fun ps => copyCell ps (i - split) tempPointers i) split (o.order - split) newLeaf
  let newPointers ← copyCell newLeaf.pointers (o.order - 1) leaf.pointers (o.order - 1)
  let pointers ← store leaf.pointers (o.order - 1) (.node newId)
  let pointers ← forUp (fun i ps => store ps i .null) leaf.numKeys (o.order - 1 - leaf.numKeys)
    pointers
  let newPointers ← forUp (fun i ps => store ps i .null) newLeaf.numKeys
    (o.order - 1 - newLeaf.numKeys) newPointers
  return ({ leaf with pointers },
    { newLeaf with pointers := newPointers, parent := leaf.parent })

def insertIntoNode (n : Node) (leftIndex : Nat) (key : UInt64) (right : NodeId) : Option Node := do
  let n ← forDown (fun i n => n.both (fun ks => copyCell ks i ks (i - 1))
    fun ps => copyCell ps (i + 1) ps i) leftIndex (n.numKeys - leftIndex) n
  n.push (fun ks => store ks leftIndex key) fun ps => store ps (leftIndex + 1) (.node right)

/-- `temp_pointers` and `temp_keys` of an internal node that is to hold one key more. -/
def nodeTemps (o : TreeOrder) (oldNode : Node) (leftIndex : Nat) (key : UInt64) (right : NodeId) :
    Option (List UInt64 × List Ptr) := do
  let (_, tempPointers) ← forUp (skipping (leftIndex + 1) fun i j temp =>
    copyCell temp j oldNode.pointers i) 0 (oldNode.numKeys + 1) (0, List.replicate (o.order + 1) .null)
  let (_, tempKeys) ← forUp (skipping leftIndex fun i j temp => copyCell temp j oldNode.keys i) 0
    oldNode.numKeys (0, List.replicate o.order 0)
  let tempPointers ← store tempPointers (leftIndex + 1) (.node right)
  let tempKeys ← store tempKeys leftIndex key
  return (tempKeys, tempPointers)

/-- Both halves of an internal node, and `k_prime` between them. -/
def dealNode (o : TreeOrder) (oldNode newNode : Node) (tempKeys : List UInt64)
    (tempPointers : List Ptr) : Option (Node × UInt64 × Node) := do
  let split := cut o.order
  let oldNode ← forUp (fun i n => n.push (fun ks => copyCell ks i tempKeys i)
    fun ps => copyCell ps i tempPointers i) 0 (split - 1) { oldNode with numKeys := 0 }
  let pointers ← copyCell oldNode.pointers (split - 1) tempPointers (split - 1)
  let kPrime ← tempKeys[split - 1]?
  let newNode ← forUp (fun i n => n.push (fun ks => copyCell ks (i - split) tempKeys i)
    fun ps => copyCell ps (i - split) tempPointers i) split (o.order - split) newNode
  let newPointers ← copyCell newNode.pointers (o.order - split) tempPointers o.order
  return ({ oldNode with pointers }, kPrime,
    { newNode with pointers := newPointers, parent := oldNode.parent })

/-- `for (i = 0; i < count; i++) n->pointers[i]->parent = x;` -/
def adopt (h : Heap) (n : Node) (count : Nat) (x : NodeId) : Option Heap :=
  forUp (fun i h => (n.pointers[i]?.bind Ptr.asNode).map fun child => h.setParent child (some x))
    0 count h

def insertIntoNewRoot (o : TreeOrder) (h : Heap) (left : NodeId) (key : UInt64) (right : NodeId) :
    Option (Heap × NodeId) := do
  let (h, root) ← makeNode o h
  let n := h.nodes root
  let keys ← store n.keys 0 key
  let pointers ← store n.pointers 0 (.node left)
  let pointers ← store pointers 1 (.node right)
  let h := h.set root { n with keys, pointers, numKeys := n.numKeys + 1, parent := none }
  return ((h.setParent left (some root)).setParent right (some root), root)

/-- The call of `insert_into_parent` at its end is `up`. -/
def insertIntoNodeAfterSplitting (o : TreeOrder)
    (up : Heap → NodeId → NodeId → UInt64 → NodeId → Option (Heap × NodeId))
    (h : Heap) (root oldNode : NodeId) (leftIndex : Nat) (key : UInt64) (right : NodeId) :
    Option (Heap × NodeId) := do
  let (h, newNode) ← makeNode o h
  let (tempKeys, tempPointers) ← nodeTemps o (h.nodes oldNode) leftIndex key right
  let (old, kPrime, new) ← dealNode o (h.nodes oldNode) (h.nodes newNode) tempKeys tempPointers
  let h ← adopt ((h.set oldNode old).set newNode new) new (new.numKeys + 1) newNode
  up h root oldNode kPrime newNode

def insertIntoParent (o : TreeOrder) :
    Nat → Heap → NodeId → NodeId → UInt64 → NodeId → Option (Heap × NodeId)
  | 0, _, _, _, _, _ => none
  | fuel + 1, h, root, left, key, right =>
    match (h.nodes left).parent with
    | none => insertIntoNewRoot o h left key right
    | some parent => do
      let leftIndex ← pointerIndex (h.nodes parent) left
      if (h.nodes parent).numKeys < o.order - 1 then
        let n ← insertIntoNode (h.nodes parent) leftIndex key right
        return (h.set parent n, root)
      else
        insertIntoNodeAfterSplitting o (insertIntoParent o fuel) h root parent leftIndex key right

def insertIntoLeafAfterSplitting (o : TreeOrder) (h : Heap) (root leaf : NodeId) (key : UInt64)
    (pointer : Ptr) : Option (Heap × NodeId) := do
  let (h, newLeaf) ← makeLeaf o h
  let (tempKeys, tempPointers) ← leafTemps o (h.nodes leaf) key pointer
  let (left, right) ← dealLeaf o (h.nodes leaf) (h.nodes newLeaf) newLeaf tempKeys tempPointers
  let h := (h.set leaf left).set newLeaf right
  let newKey ← right.keys[0]?
  insertIntoParent o (h.nodeBrk + 1) h root leaf newKey newLeaf

def startNewTree (o : TreeOrder) (h : Heap) (key : UInt64) (pointer : Ptr) :
    Option (Heap × NodeId) := do
  let (h, root) ← makeLeaf o h
  let n := h.nodes root
  let keys ← store n.keys 0 key
  let pointers ← store n.pointers 0 pointer
  let pointers ← store pointers (o.order - 1) .null
  return (h.set root { n with keys, pointers, parent := none, numKeys := n.numKeys + 1 }, root)

def insert (o : TreeOrder) (h : Heap) (root : Option NodeId) (key value : UInt64) :
    Option (Heap × Option NodeId) := do
  match ← find h root key with
  | (_, some r) => return (h.setRec r (.value value), root)
  | (_, none) =>
    let (h, r) ← makeRecord h value
    match root with
    | none =>
      let (h, root) ← startNewTree o h key (.record r)
      return (h, some root)
    | some root =>
      let leaf ← findLeaf h key (h.nodeBrk + 1) root
      if (h.nodes leaf).numKeys < o.order - 1 then
        let n ← insertIntoLeaf (h.nodes leaf) key (.record r)
        return (h.set leaf n, some root)
      else
        let (h, root) ← insertIntoLeafAfterSplitting o h root leaf key (.record r)
        return (h, some root)

end Insertion

section Deletion

/-- The value `-1` of an unsigned index. -/
def noNeighbor : UInt64 := 0 - 1

/-- `none` is the `exit` of the error state. -/
def getNeighborIndex (h : Heap) (n : NodeId) : Option UInt64 := do
  let parent ← (h.nodes n).parent
  let i ← pointerIndex (h.nodes parent) n
  if i ≤ (h.nodes parent).numKeys then return UInt64.ofNat i - 1 else none

/-- Both searches of it go on until they have found what they look for. -/
def removeEntryFromNode (o : TreeOrder) (n : Node) (key : UInt64) (pointer : Ptr) : Option Node := do
  let i ← scan (fun i => n.keys[i]?.map fun k => decide (k ≠ key)) 0 (n.keys.length + 1)
  let keys ← forUp (fun i ks => copyCell ks (i - 1) ks i) (i + 1) (n.numKeys - (i + 1)) n.keys
  let numPointers := if n.isLeaf then n.numKeys else n.numKeys + 1
  let i ← scan (fun i => n.pointers[i]?.map fun p => decide (p ≠ pointer)) 0 (n.pointers.length + 1)
  let pointers ← forUp (fun i ps => copyCell ps (i - 1) ps i) (i + 1) (numPointers - (i + 1))
    n.pointers
  let numKeys := n.numKeys - 1
  let pointers ←
    if n.isLeaf then forUp (fun i ps => store ps i .null) numKeys (o.order - 1 - numKeys) pointers
    else forUp (fun i ps => store ps i .null) (numKeys + 1) (o.order - (numKeys + 1)) pointers
  return { n with keys, pointers, numKeys }

def adjustRoot (h : Heap) (root : NodeId) : Option (Heap × Option NodeId) :=
  if 0 < (h.nodes root).numKeys then some (h, some root)
  else if (h.nodes root).isLeaf then some (releaseNode h root, none)
  else do
    let newRoot ← (h.nodes root).pointers[0]?.bind Ptr.asNode
    return (releaseNode (h.setParent newRoot none) root, some newRoot)

/-- The loops of `coalesce_nodes` over an internal node. -/
def appendNode (neighbor n : Node) (kPrime : UInt64) : Option Node := do
  let start := neighbor.numKeys
  let keys ← store neighbor.keys start kPrime
  let neighbor ← forUp (fun j nb => nb.push (fun ks => copyCell ks (start + 1 + j) n.keys j)
      fun ps => copyCell ps (start + 1 + j) n.pointers j) 0 n.numKeys
    { neighbor with keys, numKeys := start + 1 }
  let pointers ← copyCell neighbor.pointers (start + 1 + n.numKeys) n.pointers n.numKeys
  return { neighbor with pointers }

/-- The loop of `coalesce_nodes` over a leaf. -/
def appendLeaf (o : TreeOrder) (neighbor n : Node) : Option Node := do
  let start := neighbor.numKeys
  let neighbor ← forUp (fun j nb => nb.push (fun ks => copyCell ks (start + j) n.keys j)
    fun ps => copyCell ps (start + j) n.pointers j) 0 n.numKeys neighbor
  let pointers ← copyCell neighbor.pointers (o.order - 1) n.pointers (o.order - 1)
  return { neighbor with pointers }

/-- The call of `delete_entry` is `up`. -/
def coalesceNodes (o : TreeOrder)
    (up : Heap → NodeId → NodeId → UInt64 → Ptr → Option (Heap × Option NodeId))
    (h : Heap) (root n neighbor : NodeId) (neighborIndex kPrime : UInt64) :
    Option (Heap × Option NodeId) := do
  let (n, neighbor) := if neighborIndex = noNeighbor then (neighbor, n) else (n, neighbor)
  let right := h.nodes n
  let h ←
    if right.isLeaf then do
      let left ← appendLeaf o (h.nodes neighbor) right
      pure (h.set neighbor left)
    else do
      let left ← appendNode (h.nodes neighbor) right kPrime
      adopt ((h.set neighbor left).set n { right with numKeys := 0 }) left (left.numKeys + 1) neighbor
  let parent ← right.parent
  let (h, root) ← up h root parent kPrime (.node n)
  return (releaseNode h n, root)

/-- `n` takes the last entry of the neighbor to its left. The third component goes to
`n->parent->keys[k_prime_index]`. -/
def takeFromLeft (n neighbor : Node) (kPrime : UInt64) : Option (Node × Node × UInt64) := do
  let pointers ←
    if n.isLeaf then pure n.pointers else copyCell n.pointers (n.numKeys + 1) n.pointers n.numKeys
  let n ← forDown (fun i n => n.both (fun ks => copyCell ks i ks (i - 1))
    fun ps => copyCell ps i ps (i - 1)) 0 n.numKeys { n with pointers }
  if n.isLeaf then
    let pointers ← copyCell n.pointers 0 neighbor.pointers (neighbor.numKeys - 1)
    let neighborPointers ← store neighbor.pointers (neighbor.numKeys - 1) .null
    let keys ← copyCell n.keys 0 neighbor.keys (neighbor.numKeys - 1)
    let newKey ← keys[0]?
    return ({ n with pointers, keys, numKeys := n.numKeys + 1 },
      { neighbor with pointers := neighborPointers, numKeys := neighbor.numKeys - 1 }, newKey)
  else
    let pointers ← copyCell n.pointers 0 neighbor.pointers neighbor.numKeys
    let neighborPointers ← store neighbor.pointers neighbor.numKeys .null
    let keys ← store n.keys 0 kPrime
    let newKey ← neighbor.keys[neighbor.numKeys - 1]?
    return ({ n with pointers, keys, numKeys := n.numKeys + 1 },
      { neighbor with pointers := neighborPointers, numKeys := neighbor.numKeys - 1 }, newKey)

/-- `n` takes the first entry of the neighbor to its right. -/
def takeFromRight (n neighbor : Node) (kPrime : UInt64) : Option (Node × Node × UInt64) := do
  let (n, newKey) ←
    if n.isLeaf then do
      let keys ← copyCell n.keys n.numKeys neighbor.keys 0
      let pointers ← copyCell n.pointers n.numKeys neighbor.pointers 0
      let newKey ← neighbor.keys[1]?
      pure ({ n with keys, pointers }, newKey)
    else do
      let keys ← store n.keys n.numKeys kPrime
      let pointers ← copyCell n.pointers (n.numKeys + 1) neighbor.pointers 0
      let newKey ← neighbor.keys[0]?
      pure ({ n with keys, pointers }, newKey)
  let neighbor ← forUp (fun i nb => nb.both (fun ks => copyCell ks i ks (i + 1))
    fun ps => copyCell ps i ps (i + 1)) 0 (neighbor.numKeys - 1) neighbor
  let pointers ←
    if n.isLeaf then pure neighbor.pointers
    else copyCell neighbor.pointers (neighbor.numKeys - 1) neighbor.pointers neighbor.numKeys
  return ({ n with numKeys := n.numKeys + 1 },
    { neighbor with pointers, numKeys := neighbor.numKeys - 1 }, newKey)

def redistributeNodes (h : Heap) (root n neighbor : NodeId) (neighborIndex : UInt64)
    (kPrimeIndex : Nat) (kPrime : UInt64) : Option (Heap × Option NodeId) := do
  let left := neighborIndex ≠ noNeighbor
  let (node, other, newKey) ←
    if left then takeFromLeft (h.nodes n) (h.nodes neighbor) kPrime
    else takeFromRight (h.nodes n) (h.nodes neighbor) kPrime
  let h := (h.set n node).set neighbor other
  -- the child that has changed sides
  let h ←
    if node.isLeaf then pure h
    else do
      let tmp ← node.pointers[if left then 0 else node.numKeys]?.bind Ptr.asNode
      pure (h.setParent tmp (some n))
  let parent ← node.parent
  let keys ← store (h.nodes parent).keys kPrimeIndex newKey
  return (h.set parent { h.nodes parent with keys }, some root)

def deleteEntry (o : TreeOrder) :
    Nat → Heap → NodeId → NodeId → UInt64 → Ptr → Option (Heap × Option NodeId)
  | 0, _, _, _, _, _ => none
  | fuel + 1, h, root, n, key, pointer => do
    let node ← removeEntryFromNode o (h.nodes n) key pointer
    let h := h.set n node
    if n = root then adjustRoot h root
    else
      let minKeys := if node.isLeaf then cut (o.order - 1) else cut o.order - 1
      if minKeys ≤ node.numKeys then return (h, some root)
      else
        let neighborIndex ← getNeighborIndex h n
        let kPrimeIndex := if neighborIndex = noNeighbor then 0 else neighborIndex.toNat
        let parent ← node.parent
        let kPrime ← (h.nodes parent).keys[kPrimeIndex]?
        let neighbor ← (h.nodes parent).pointers[
          if neighborIndex = noNeighbor then 1 else neighborIndex.toNat]?.bind Ptr.asNode
        let capacity := if node.isLeaf then o.order else o.order - 1
        if (h.nodes neighbor).numKeys + node.numKeys < capacity then
          coalesceNodes o (deleteEntry o fuel) h root n neighbor neighborIndex kPrime
        else
          redistributeNodes h root n neighbor neighborIndex kPrimeIndex kPrime

def delete (o : TreeOrder) (h : Heap) (root : Option NodeId) (key : UInt64) :
    Option (Heap × Option NodeId) := do
  let found ← find h root key
  match root, found with
  | some root, (some leaf, some r) =>
    let (h, root) ← deleteEntry o (h.nodeBrk + 1) h root leaf key (.record r)
    return (freeRecord h r, root)
  | root, _ => return (h, root)

end Deletion

section Runs

inductive Op where
  | insert (key value : UInt64)
  | delete (key : UInt64)

def applyOp (o : TreeOrder) (s : Heap × Option NodeId) : Op → Option (Heap × Option NodeId)
  | .insert key value => insert o s.1 s.2 key value
  | .delete key => delete o s.1 s.2 key

def run (o : TreeOrder) (ops : List Op) : Option (Heap × Option NodeId) :=
  ops.foldlM (applyOp o) (emptyHeap, none)

end Runs

end Trident.Btree
