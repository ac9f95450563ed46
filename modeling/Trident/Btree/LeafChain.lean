import Trident.Btree.Invariants

/-! # The chain of leaves

`print_leaves` and `find_range` go along the last pointers of the leaves, from the
first leaf or from the one a key belongs to.
-/

namespace Trident.Btree

open Loops Expansion

section Scans

def firstLeaf (h : Heap) : Nat → NodeId → Option NodeId
  | 0, _ => none
  | fuel + 1, c =>
    if (h.nodes c).isLeaf then some c
    else do
      let child ← (h.nodes c).pointers[0]?.bind Ptr.asNode
      firstLeaf h fuel child

/-- The leaves that the loop of `print_leaves` comes to. -/
def chain (o : TreeOrder) (h : Heap) : Nat → NodeId → Option (List NodeId)
  | 0, _ => none
  | fuel + 1, c => do
    match ← (h.nodes c).pointers[o.order - 1]? with
    | .node next => (chain o h fuel next).map (c :: ·)
    | .null => some [c]
    | .record _ => none

def printedKeys (n : Node) : Option (List UInt64) := (List.range n.numKeys).mapM fun i => n.keys[i]?

/-- The leaves in the order of `print_leaves`, and the keys it prints. -/
def printLeaves (o : TreeOrder) (h : Heap) (root : NodeId) : Option (List NodeId × List UInt64) := do
  let c ← firstLeaf h (h.nodeBrk + 1) root
  let leaves ← chain o h (h.nodeBrk + 1) c
  let keys ← leaves.mapM fun c => printedKeys (h.nodes c)
  return (leaves, keys.flatten)

/-- `for (; i < n->num_keys && n->keys[i] <= key_end; i++)` with what it has returned so far. -/
def takeRange (n : Node) (keyEnd : UInt64) :
    Nat → Nat → List (UInt64 × Ptr) → Option (List (UInt64 × Ptr))
  | _, 0, found => some found
  | i, count + 1, found => do
    let key ← n.keys[i]?
    if key ≤ keyEnd then
      let pointer ← n.pointers[i]?
      takeRange n keyEnd (i + 1) count (found ++ [(key, pointer)])
    else return found

/-- `while (n != NULL)` -/
def scanRange (o : TreeOrder) (h : Heap) (keyEnd : UInt64) :
    Nat → Ptr → Nat → List (UInt64 × Ptr) → Option (List (UInt64 × Ptr))
  | _, .null, _, found => some found
  | fuel + 1, .node n, i, found => do
    let found ← takeRange (h.nodes n) keyEnd i ((h.nodes n).numKeys - i) found
    let next ← (h.nodes n).pointers[o.order - 1]?
    scanRange o h keyEnd fuel next 0 found
  | _, _, _, _ => none

/-- `returned_keys` and `returned_pointers`, of which `num_found` are set, and that number. -/
def findRange (o : TreeOrder) (h : Heap) (root : Option NodeId) (keyStart keyEnd : UInt64) :
    Option (List (UInt64 × Ptr) × Nat) :=
  match root with
  | none => some ([], 0)
  | some root => do
    let n ← findLeaf h keyStart (h.nodeBrk + 1) root
    let i ← scan (fun i => (h.nodes n).keys[i]?.map fun k => decide (k < keyStart)) 0 (h.nodes n).numKeys
    if i = (h.nodes n).numKeys then return ([], 0)
    else
      let found ← scanRange o h keyEnd (h.nodeBrk + 1) (.node n) i []
      return (found, found.length)

end Scans

section Leaves

variable {o : TreeOrder} {h : Heap} {root : NodeId} {d : Nat} {above : List NodeId}
  {row items : List Tok}

theorem Upper.firstLeaf (hUp : Upper o h root d above row) :
    ∃ x B, row = .node x :: B ∧ ∀ fuel, firstLeaf h (d + fuel) root = firstLeaf h fuel x := by
  induction hUp with
  | top _ => exact ⟨root, [], rfl, fun fuel => by rw [Nat.zero_add]⟩
  | @down d above row row' _ hRow ih =>
    obtain ⟨x, B, rfl, hFirst⟩ := ih
    obtain ⟨w, PB, rfl, hInner, _⟩ := hRow.cons_inv
    obtain ⟨c, prs, rfl, hNode, _, _⟩ := hInner.node_inv
    refine ⟨c, behind prs ++ PB, rfl, fun fuel => ?_⟩
    obtain ⟨K, hPointers⟩ := hNode.pointers
    have hPointer : (h.nodes x).pointers[0]? = some (.node c) := by
      rw [hPointers]
      rfl
    rw [show d + 1 + fuel = d + (fuel + 1) by omega, hFirst, Btree.firstLeaf]
    simp only [hNode.isLeaf, Bool.false_eq_true, if_false, hPointer, Option.bind_eq_bind,
      Option.bind_some, Ptr.asNode]

/-- The loop comes to the leaves from left to right. -/
theorem chain_eq {x : NodeId} {l : List NodeId} {fuel : Nat} (hLinked : Linked o h .null (x :: l))
    (hFuel : l.length < fuel) : chain o h fuel x = some (x :: l) := by
  induction l generalizing x fuel with
  | nil =>
    cases fuel with
    | zero => omega
    | succ fuel =>
      have hLast := hLinked.1
      simp only [chain, hLast, firstOf, Option.bind_eq_bind, Option.bind_some]
  | cons y l ih =>
    cases fuel with
    | zero => omega
    | succ fuel =>
      have hNext := hLinked.1
      have hRest : chain o h fuel y = some (y :: l) :=
        ih hLinked.2 (by rw [List.length_cons] at hFuel; omega)
      simp only [chain, hNext, firstOf, Option.bind_eq_bind, Option.bind_some, hRest, Option.map_some]

theorem mapM_getElem? {α : Type} (A J : List α) :
    (List.range A.length).mapM (fun i => (A ++ J)[i]?) = some A := by
  induction A using List.reverseRecOn generalizing J with
  | nil => rfl
  | append_singleton A a ih =>
    have hInit := ih (a :: J)
    have hLast : (A ++ a :: J)[A.length]? = some a := getElem?_eq rfl rfl
    rw [List.length_append, List.length_singleton, List.range_succ, List.mapM_append, List.append_assoc,
      List.singleton_append, hInit]
    simp only [List.mapM_cons, List.mapM_nil, hLast, Option.bind_eq_bind, Option.bind_some,
      Option.pure_def]

theorem LeafNode.printedKeys {n : Node} {es : List (UInt64 × RecId)} {link : Ptr}
    (hNode : LeafNode o n es link) : printedKeys n = some (es.map Prod.fst) := by
  obtain ⟨J, hKeys⟩ := hNode.keys
  have hRange := mapM_getElem? (es.map Prod.fst) J
  rwa [List.length_map, ← hNode.numKeys, ← hKeys] at hRange

theorem printed_leaves (hRow : Expands (Leaf o h root) row items) :
    ∃ keys, (ids row).mapM (fun c => printedKeys (h.nodes c)) = some keys ∧
      keys.flatten = (entries items).map Prod.fst := by
  induction hRow with
  | nil => exact ⟨[], rfl, rfl⟩
  | @cons a w l r hFirst _ ih =>
    obtain ⟨keys, hKeys, hFlat⟩ := ih
    cases hFirst with
    | sep k => exact ⟨keys, hKeys, hFlat⟩
    | @node x es link hNode _ =>
      refine ⟨es.map Prod.fst :: keys, ?_, ?_⟩
      · simp only [ids_cons_node, List.mapM_cons, hNode.printedKeys, hKeys, Option.bind_eq_bind,
          Option.bind_some, Option.pure_def]
      · rw [List.flatten_cons, hFlat, entries_append, entries_slots, List.map_append]

theorem Shape.fuel (hShape : Shape o h root d above row items) :
    d ≤ h.nodeBrk ∧ (ids row).length ≤ h.nodeBrk := by
  have hDepth := hShape.upper.depth_le.1
  have hLength := hShape.pool.length_le
  rw [List.length_append] at hLength
  omega

theorem Shape.printLeaves (hShape : Shape o h root d above row items) :
    printLeaves o h root = some (ids row, (entries items).map Prod.fst) := by
  obtain ⟨x, B, rfl, hFirst⟩ := hShape.upper.firstLeaf
  obtain ⟨hDepth, hLeaves⟩ := hShape.fuel
  obtain ⟨keys, hKeys, hFlat⟩ := printed_leaves hShape.leaves
  rw [ids_cons_node] at hLeaves hKeys
  have hLeaf : (h.nodes x).isLeaf = true := by
    obtain ⟨_, _, _, _, _, _, _, _, _, _, hNode, _⟩ := hShape.leaf_of_mem (x := x) (by simp)
    exact hNode.isLeaf
  have hStart : Btree.firstLeaf h (h.nodeBrk + 1) root = some x := by
    obtain ⟨fuel, hFuel⟩ : ∃ fuel, h.nodeBrk + 1 = d + (fuel + 1) := ⟨h.nodeBrk - d, by omega⟩
    rw [hFuel, hFirst, Btree.firstLeaf, if_pos hLeaf]
  have hChain : chain o h (h.nodeBrk + 1) x = some (x :: ids B) :=
    chain_eq hShape.linked (by rw [List.length_cons] at hLeaves; omega)
  simp only [Btree.printLeaves, hStart, hChain, hKeys, hFlat, Option.bind_eq_bind, Option.bind_some,
    Option.pure_def, ids_cons_node]

/-- What `print_leaves` comes to and prints. -/
theorem printLeaves_run (o : TreeOrder) (ops : List Op) :
    ∃ h root, run o ops = some (h, root) ∧ ∀ x ∈ root, ∃ leaves keys,
      printLeaves o h x = some (leaves, keys) ∧ leaves.Nodup ∧
      (∀ y, y ∈ leaves ↔ InTree h root y ∧ (h.nodes y).isLeaf = true) ∧
      keys.Pairwise (· < ·) ∧ ∀ k, k ∈ keys ↔ ∃ leaf r, find h root k = some (leaf, some r) := by
  obtain ⟨h, root, es, hRun, hHolds⟩ := holds_run o ops
  refine ⟨h, root, hRun, fun x hx => ?_⟩
  obtain rfl := Option.mem_def.mp hx
  have hTree := hHolds.tree
  obtain ⟨d, above, row, items, hShape, rfl⟩ := hHolds.tree
  refine ⟨ids row, _, hShape.printLeaves, (List.nodup_append'.mp hShape.pool.nodup).2.1, fun y => ?_,
    hTree.sorted, fun k => ?_⟩
  · rw [hShape.inTree_iff]
    constructor
    · intro hy
      obtain ⟨_, _, _, _, _, _, _, _, _, _, hNode, _⟩ := hShape.leaf_of_mem hy
      exact ⟨List.mem_append_right _ hy, hNode.isLeaf⟩
    · rintro ⟨hy, hLeaf⟩
      cases List.mem_append.mp hy with
      | inl hy =>
        obtain ⟨_, _, hNode, _⟩ := hShape.upper.inner_of_mem hShape.pool.nodup hy
        rw [hNode.isLeaf] at hLeaf
        cases hLeaf
      | inr hy => exact hy
  · constructor
    · intro hk
      obtain ⟨⟨k', r⟩, hIn, hKey⟩ := List.mem_map.mp hk
      obtain rfl : k' = k := hKey
      obtain ⟨leaf, r', hFind, _⟩ | ⟨_, hAbsent⟩ := hTree.find_cases k'
      · exact ⟨leaf, r', hFind⟩
      · exact absurd hIn (hAbsent r)
    · rintro ⟨leaf, r, hFind⟩
      obtain ⟨leaf', r', _, hIn⟩ | ⟨⟨leaf', hNone⟩, _⟩ := hTree.find_cases k
      · exact List.mem_map_of_mem (f := Prod.fst) hIn
      · rw [hFind] at hNone
        cases hNone

end Leaves

section Ranges

variable {o : TreeOrder} {h : Heap} {root : NodeId} {d : Nat} {above : List NodeId}
  {row items : List Tok}

def returned (es : List (UInt64 × RecId)) : List (UInt64 × Ptr) := es.map fun e => (e.1, .record e.2)

def upTo (keyEnd : UInt64) (es : List (UInt64 × RecId)) : List (UInt64 × RecId) :=
  es.filter fun e => decide (e.1 ≤ keyEnd)

theorem returned_append (a b : List (UInt64 × RecId)) : returned (a ++ b) = returned a ++ returned b :=
  List.map_append

theorem upTo_append (keyEnd : UInt64) (a b : List (UInt64 × RecId)) :
    upTo keyEnd (a ++ b) = upTo keyEnd a ++ upTo keyEnd b := List.filter_append a b

theorem takeRange_eq {n : Node} {L es : List (UInt64 × RecId)} {link : Ptr} (keyEnd : UInt64)
    (hNode : LeafNode o n (L ++ es) link) (hSorted : (es.map Prod.fst).Pairwise (· < ·))
    (found : List (UInt64 × Ptr)) :
    takeRange n keyEnd L.length es.length found = some (found ++ returned (upTo keyEnd es)) := by
  induction es generalizing L found with
  | nil => simp [takeRange, returned, upTo]
  | cons e es ih =>
    obtain ⟨J, hKeys⟩ := hNode.keys
    obtain ⟨K, hPointers⟩ := hNode.pointers
    have hKey : n.keys[L.length]? = some e.1 :=
      getElem?_eq (A := L.map Prod.fst) (B := es.map Prod.fst ++ J) (by simp [hKeys]) (by simp)
    have hPointer : n.pointers[L.length]? = some (.record e.2) :=
      getElem?_eq (A := (L.map Prod.snd).map Ptr.record)
        (B := (es.map Prod.snd).map Ptr.record ++ K ++ [link]) (by simp [hPointers]) (by simp)
    rw [List.map_cons, List.pairwise_cons] at hSorted
    have hRest := ih (L := L ++ [e]) (by simpa using hNode) hSorted.2 (found ++ [(e.1, .record e.2)])
    rw [List.length_append, List.length_singleton] at hRest
    rw [List.length_cons, takeRange]
    simp only [hKey, hPointer, Option.bind_eq_bind, Option.bind_some, Option.pure_def]
    cases Decidable.em (e.1 ≤ keyEnd) with
    | inl hIn =>
      rw [if_pos hIn, hRest]
      simp [returned, upTo, hIn]
    | inr hOut =>
      have hNone : upTo keyEnd (e :: es) = [] := by
        refine List.filter_eq_nil_iff.mpr fun a ha => ?_
        rw [decide_eq_true_eq]
        cases List.mem_cons.mp ha with
        | inl hEq => rwa [hEq]
        | inr ha =>
          have hLt := hSorted.1 a.1 (List.mem_map_of_mem ha)
          exact fun hLe => hOut (UInt64.le_of_lt (UInt64.lt_of_lt_of_le hLt hLe))
      rw [if_neg hOut, hNone]
      simp [returned]

theorem scanRange_eq (keyEnd : UInt64) {fuel : Nat} (hRow : Expands (Leaf o h root) row items)
    (hLinked : Linked o h .null (ids row)) (hSorted : items.Pairwise Tok.Before)
    (hFuel : (ids row).length ≤ fuel) (found : List (UInt64 × Ptr)) :
    scanRange o h keyEnd fuel (firstOf .null (ids row)) 0 found =
      some (found ++ returned (upTo keyEnd (entries items))) := by
  induction hRow generalizing fuel found with
  | nil => cases fuel <;> simp [firstOf, scanRange, returned, upTo]
  | @cons a w l r hFirst _ ih =>
    have hRest := (List.pairwise_append.mp hSorted).2.1
    cases hFirst with
    | sep k => exact ih hLinked hRest hFuel found
    | @node x es link hNode _ =>
      cases fuel with
      | zero => simp at hFuel
      | succ fuel =>
        have hKeys := ascending_keys (List.pairwise_append.mp hSorted).1
        rw [entries_slots] at hKeys
        have hTake := takeRange_eq (L := []) keyEnd hNode hKeys found
        have hTail := ih hLinked.2 hRest (by simpa using hFuel) (found ++ returned (upTo keyEnd es))
        have hFirst : firstOf .null (ids (.node x :: l)) = .node x := rfl
        have hNext : (h.nodes x).pointers[o.order - 1]? = some (firstOf .null (ids l)) := hLinked.1
        rw [List.length_nil] at hTake
        simp only [hFirst, scanRange, hNode.numKeys, Nat.sub_zero, hTake, hNext, hTail,
          Option.bind_eq_bind, Option.bind_some]
        rw [entries_append, entries_slots, upTo_append, returned_append, List.append_assoc]

theorem LeafFor.findRange {A B IA IB : List Tok} {x : NodeId} {L R : List (UInt64 × RecId)} {link : Ptr}
    {keyStart : UInt64} (keyEnd : UInt64)
    (hShape : Shape o h root d above (A ++ .node x :: B) (IA ++ (slots (L ++ R) ++ IB)))
    (hLeaf : LeafFor o h root keyStart A x B IA (L ++ R) IB link) (hL : ∀ e ∈ L, e.1 < keyStart)
    (hR : ∀ e ∈ R, ¬ e.1 < keyStart) :
    findRange o h (some root) keyStart keyEnd =
      if R = [] then some ([], 0)
      else some (returned (upTo keyEnd (R ++ entries IB)), (upTo keyEnd (R ++ entries IB)).length) := by
  have hPoint := insertionPoint_eq hLeaf.node hL hR hLeaf.node.numKeys
  have hCount : (h.nodes x).numKeys = L.length + R.length := by
    rw [hLeaf.node.numKeys, List.length_append]
  cases R with
  | nil =>
    have hEnd : L.length = (h.nodes x).numKeys := hCount.symm
    simp only [Btree.findRange, hLeaf.found, hPoint, Option.bind_eq_bind, Option.bind_some, if_pos hEnd,
      Option.pure_def, if_true]
  | cons e R =>
    have hIn : L.length ≠ (h.nodes x).numKeys := by
      rw [hCount, List.length_cons]
      omega
    have hSorted := (List.pairwise_append.mp hShape.sorted).2.1
    have hKeys := ascending_keys (List.pairwise_append.mp hSorted).1
    rw [entries_slots, List.map_append] at hKeys
    have hLinked := hShape.linked
    rw [ids_append, ids_cons_node, linked_append] at hLinked
    have hFuel := hShape.fuel.2
    rw [ids_append, ids_cons_node, List.length_append, List.length_cons] at hFuel
    have hTake := takeRange_eq keyEnd hLeaf.node (List.pairwise_append.mp hKeys).2.1 []
    have hRest := scanRange_eq keyEnd hLeaf.behind hLinked.2.2 (List.pairwise_append.mp hSorted).2.1
      (show (ids B).length ≤ h.nodeBrk by omega) ([] ++ returned (upTo keyEnd (e :: R)))
    have hSub : (h.nodes x).numKeys - L.length = (e :: R).length := by omega
    have hFound : scanRange o h keyEnd (h.nodeBrk + 1) (.node x) L.length [] =
        some (returned (upTo keyEnd (e :: R ++ entries IB))) := by
      simp only [scanRange, hSub, hTake, hLinked.2.1, hRest, Option.bind_eq_bind, Option.bind_some]
      rw [upTo_append, returned_append, List.nil_append]
    have hSome : ¬ e :: R = [] := List.cons_ne_nil e R
    simp only [Btree.findRange, hLeaf.found, hPoint, Option.bind_eq_bind, Option.bind_some, if_neg hIn,
      if_neg hSome, hFound, Option.pure_def]
    simp [returned]

/-- The keys from `keyStart` to `keyEnd` with their records, in order. -/
def RangeFound (h : Heap) (root : Option NodeId) (keyStart keyEnd : UInt64)
    (found : List (UInt64 × Ptr)) : Prop :=
  (found.map Prod.fst).Pairwise (· < ·) ∧ ∀ k p, (k, p) ∈ found ↔
    keyStart ≤ k ∧ k ≤ keyEnd ∧ ∃ leaf r, find h root k = some (leaf, some r) ∧ p = .record r

theorem TreeOf.find_iff {root : Option NodeId} {es : List (UInt64 × RecId)} (hTree : TreeOf o h root es)
    (k : UInt64) (r : RecId) : (∃ leaf, find h root k = some (leaf, some r)) ↔ (k, r) ∈ es := by
  obtain ⟨leaf, r', hFind, hIn⟩ | ⟨⟨leaf, hFind⟩, hAbsent⟩ := hTree.find_cases k
  · constructor
    · rintro ⟨leaf', hFind'⟩
      rw [hFind] at hFind'
      cases hFind'
      exact hIn
    · intro hIn'
      have hSame := List.inj_on_of_nodup_map hTree.nodup hIn hIn' rfl
      cases hSame
      exact ⟨leaf, hFind⟩
  · constructor
    · rintro ⟨leaf', hFind'⟩
      rw [hFind] at hFind'
      cases hFind'
    · exact fun hIn => absurd hIn (hAbsent r)

theorem mem_returned {es : List (UInt64 × RecId)} {k : UInt64} {p : Ptr} :
    (k, p) ∈ returned es ↔ ∃ r, (k, r) ∈ es ∧ p = .record r := by
  constructor
  · intro hIn
    obtain ⟨⟨_, r⟩, hEntry, hEq⟩ := List.mem_map.mp hIn
    cases hEq
    exact ⟨r, hEntry, rfl⟩
  · rintro ⟨r, hEntry, rfl⟩
    exact List.mem_map_of_mem (f := fun e : UInt64 × RecId => (e.1, Ptr.record e.2)) hEntry

theorem mem_upTo {es : List (UInt64 × RecId)} {k keyEnd : UInt64} {r : RecId} :
    (k, r) ∈ upTo keyEnd es ↔ (k, r) ∈ es ∧ k ≤ keyEnd := by
  rw [upTo, List.mem_filter, decide_eq_true_eq]

theorem LeafFor.mem_from {A B IA IB : List Tok} {x : NodeId} {L R : List (UInt64 × RecId)} {link : Ptr}
    {keyStart k : UInt64} {r : RecId} (hLeaf : LeafFor o h root keyStart A x B IA (L ++ R) IB link)
    (hSorted : (IA ++ (slots (L ++ R) ++ IB)).Pairwise Tok.Before) (hL : ∀ e ∈ L, e.1 < keyStart)
    (hR : ∀ e ∈ R, ¬ e.1 < keyStart) :
    (k, r) ∈ R ++ entries IB ↔ (k, r) ∈ entries (IA ++ (slots (L ++ R) ++ IB)) ∧ keyStart ≤ k := by
  obtain ⟨hIA, hRest, _⟩ := List.pairwise_append.mp hSorted
  have hIB := (List.pairwise_append.mp hRest).2.1
  rw [entries_append, entries_append, entries_slots, List.mem_append, List.mem_append, List.mem_append,
    List.mem_append]
  constructor
  · rintro (hIn | hIn)
    · exact ⟨Or.inr (Or.inl (Or.inr hIn)), UInt64.not_lt.mp (hR _ hIn)⟩
    · have hAfter := hLeaf.ends.after hIB r _ (mem_entries.mp hIn)
      exact ⟨Or.inr (Or.inr hIn), UInt64.le_of_lt hAfter⟩
  · rintro ⟨hIn | (hIn | hIn) | hIn, hFrom⟩
    · have hBefore := hLeaf.starts.before hIA r _ (mem_entries.mp hIn)
      exact absurd hFrom (UInt64.not_le.mpr hBefore)
    · exact absurd hFrom (UInt64.not_le.mpr (hL _ hIn))
    · exact Or.inl hIn
    · exact Or.inr hIn

theorem single_leaf {IA IB : List Tok} {es es' : List (UInt64 × RecId)} {key : UInt64}
    (hItems : slots es = IA ++ (slots es' ++ IB)) (hStart : StartsAt key IA) (hEnd : EndsBefore key IB) :
    IA = [] ∧ IB = [] ∧ es' = es := by
  have hNoSep : ∀ s, Tok.sep s ∉ IA ++ (slots es' ++ IB) := by
    intro s hIn
    rw [← hItems] at hIn
    obtain ⟨e, _, he⟩ := List.mem_map.mp hIn
    cases he
  obtain rfl | ⟨IA, s, rfl, _⟩ := hStart
  · obtain rfl | ⟨s, IB, rfl, _⟩ := hEnd
    · have hEntries := congrArg entries hItems
      rw [List.nil_append, List.append_nil, entries_slots, entries_slots] at hEntries
      exact ⟨rfl, rfl, hEntries.symm⟩
    · exact absurd (by simp) (hNoSep s)
  · exact absurd (by simp) (hNoSep s)

theorem all_below {L R es : List (UInt64 × RecId)} {key : UInt64} (hSplit : L ++ R = es)
    (hBelow : ∀ e ∈ es, e.1 < key) (hR : ∀ e ∈ R, ¬ e.1 < key) : L = es ∧ R = [] := by
  cases R with
  | nil => exact ⟨by rw [← hSplit, List.append_nil], rfl⟩
  | cons e R => exact absurd (hBelow e (by simp [← hSplit])) (hR e List.mem_cons_self)

/-- `find_range` gives up when the leaf of `key_start` ends before it. -/
theorem findRange_run (o : TreeOrder) (ops : List Op) :
    ∃ h root, run o ops = some (h, root) ∧ ∀ keyStart keyEnd, ∃ found,
      findRange o h root keyStart keyEnd = some (found, found.length) ∧
      (RangeFound h root keyStart keyEnd found ↔
        (∀ k leaf r, find h root k = some (leaf, some r) → ¬ (keyStart ≤ k ∧ k ≤ keyEnd)) ∨
        ∃ x ∈ root, ∃ n, findLeaf h keyStart (h.nodeBrk + 1) x = some n ∧
          ∃ k ∈ (h.nodes n).keysInUse, keyStart ≤ k) := by
  obtain ⟨h, root, es, hRun, hHolds⟩ := holds_run o ops
  refine ⟨h, root, hRun, fun keyStart keyEnd => ?_⟩
  have hTree := hHolds.tree
  have hNothing : RangeFound h root keyStart keyEnd [] ↔
      ∀ k leaf r, find h root k = some (leaf, some r) → ¬ (keyStart ≤ k ∧ k ≤ keyEnd) := by
    constructor
    · rintro ⟨_, hMem⟩ k leaf r hFind ⟨hFrom, hTo⟩
      exact List.not_mem_nil ((hMem k (.record r)).mpr ⟨hFrom, hTo, leaf, r, hFind, rfl⟩)
    · intro hNone
      refine ⟨.nil, fun k p => ⟨fun hIn => absurd hIn List.not_mem_nil, ?_⟩⟩
      rintro ⟨hFrom, hTo, leaf, r, hFind, _⟩
      exact absurd ⟨hFrom, hTo⟩ (hNone k leaf r hFind)
  cases root with
  | none =>
    refine ⟨[], rfl, hNothing.trans ⟨Or.inl, fun hCase => hCase.elim id ?_⟩⟩
    rintro ⟨x, hx, _⟩
    cases hx
  | some root =>
    obtain ⟨d, above, row, items, hShape, rfl⟩ := hHolds.tree
    obtain ⟨A, x, B, IA, es, IB, link, rfl, rfl, hLeaf⟩ := leafFor hShape keyStart
    obtain ⟨L, R, rfl, hL, hTail⟩ := split_passing (fun e => e.1 < keyStart) es
    have hR : ∀ e ∈ R, ¬ e.1 < keyStart := by
      obtain rfl | ⟨e, R, rfl, he⟩ := hTail
      · simp
      · have hSlots := (List.pairwise_append.mp (List.pairwise_append.mp hShape.sorted).2.1).1
        have hKeys := ascending_keys hSlots
        rw [entries_slots, List.map_append, List.pairwise_append, List.map_cons, List.pairwise_cons]
          at hKeys
        intro e' he' hLt
        cases List.mem_cons.mp he' with
        | inl hEq =>
          rw [hEq] at hLt
          exact he hLt
        | inr he' => exact he (UInt64.lt_trans (hKeys.2.1.1 e'.1 (List.mem_map_of_mem he')) hLt)
    have hCall := hLeaf.findRange keyEnd hShape hL hR
    cases R with
    | nil =>
      refine ⟨[], hCall, hNothing.trans ⟨Or.inl, fun hCase => hCase.elim id ?_⟩⟩
      rintro ⟨y, hy, n, hFind, k, hk, hFrom⟩
      cases hy
      obtain rfl := Option.some.inj (hLeaf.found.symm.trans hFind)
      rw [hLeaf.node.keysInUse, List.append_nil] at hk
      obtain ⟨e, he, rfl⟩ := List.mem_map.mp hk
      exact absurd hFrom (UInt64.not_le.mpr (hL e he))
    | cons e R =>
      rw [if_neg (List.cons_ne_nil e R)] at hCall
      have hLength : (returned (upTo keyEnd (e :: R ++ entries IB))).length =
          (upTo keyEnd (e :: R ++ entries IB)).length := List.length_map _
      refine ⟨_, hCall.trans (by rw [hLength]), ⟨fun _ => Or.inr ?_, fun _ => ⟨?_, fun k p => ?_⟩⟩⟩
      · refine ⟨root, rfl, x, hLeaf.found, e.1, ?_, UInt64.not_lt.mp (hR e List.mem_cons_self)⟩
        rw [hLeaf.node.keysInUse]
        simp
      · have hKeys := ascending_keys (List.pairwise_append.mp hShape.sorted).2.1
        rw [entries_append, entries_slots, List.append_assoc, List.map_append] at hKeys
        have hSub : ((returned (upTo keyEnd (e :: R ++ entries IB))).map Prod.fst).Sublist
            ((e :: R ++ entries IB).map Prod.fst) := by
          rw [returned, List.map_map]
          exact List.filter_sublist.map _
        exact (List.pairwise_append.mp hKeys).2.1.sublist hSub
      · rw [mem_returned]
        constructor
        · rintro ⟨r, hIn, rfl⟩
          obtain ⟨hIn, hTo⟩ := mem_upTo.mp hIn
          obtain ⟨hIn, hFrom⟩ := (hLeaf.mem_from hShape.sorted hL hR).mp hIn
          obtain ⟨leaf, hFind⟩ := (hTree.find_iff k r).mpr hIn
          exact ⟨hFrom, hTo, leaf, r, hFind, rfl⟩
        · rintro ⟨hFrom, hTo, leaf, r, hFind, rfl⟩
          have hIn := (hTree.find_iff k r).mp ⟨leaf, hFind⟩
          exact ⟨r, mem_upTo.mpr ⟨(hLeaf.mem_from hShape.sorted hL hR).mpr ⟨hIn, hFrom⟩, hTo⟩, rfl⟩

theorem slots_before_sep {E es : List (UInt64 × RecId)} {s s' : UInt64} {X Y : List Tok}
    (hItems : slots E ++ .sep s :: X = slots es ++ .sep s' :: Y) : es = E ∧ .sep s' :: Y = .sep s :: X := by
  induction E generalizing es with
  | nil =>
    cases es with
    | nil => exact ⟨rfl, hItems.symm⟩
    | cons e es => cases hItems
  | cons a E ih =>
    obtain ⟨k, r⟩ := a
    cases es with
    | nil => cases hItems
    | cons e es =>
      obtain ⟨k', r'⟩ := e
      obtain ⟨hHead, hTail⟩ := List.cons.inj hItems
      obtain ⟨rfl, hRest⟩ := ih hTail
      cases hHead
      exact ⟨rfl, hRest⟩

theorem first_leaf {IA IB : List Tok} {es E F : List (UInt64 × RecId)} {s key : UInt64}
    (hItems : slots E ++ .sep s :: slots F = IA ++ (slots es ++ IB)) (hKey : key < s)
    (hStart : StartsAt key IA) (hEnd : EndsBefore key IB) : IA = [] ∧ es = E ∧ IB = .sep s :: slots F := by
  have hSep : ∀ s', Tok.sep s' ∈ IA ++ (slots es ++ IB) → s' = s := by
    intro s' hIn
    rw [← hItems] at hIn
    simpa [slots] using hIn
  obtain rfl | ⟨IA, s', rfl, hs'⟩ := hStart
  · obtain rfl | ⟨s', IB, rfl, _⟩ := hEnd
    · have hIn : Tok.sep s ∈ slots E ++ .sep s :: slots F := by simp
      rw [hItems] at hIn
      simp [slots] at hIn
    · exact ⟨rfl, slots_before_sep hItems⟩
  · obtain rfl := hSep s' (by simp)
    exact absurd hKey (UInt64.not_lt.mpr hs')

def smallestOrder : TreeOrder := ⟨3, by decide, by decide⟩

/-- The leaves are 1 and 5, 6: the search for 2 ends at the first. -/
theorem findRange_gap : ∃ h root,
    run smallestOrder [.insert 1 10, .insert 5 50, .insert 6 60] = some (h, root) ∧
      findRange smallestOrder h root 2 6 = some ([], 0) ∧
      ∃ leaf r, find h root 5 = some (leaf, some r) := by
  obtain ⟨h₁, root₁, r₁, hCall₁, hShape₁, hMade₁⟩ :=
    insert_none (o := smallestOrder) (h := emptyHeap) 1 10 FreeList.Pool.empty FreeList.Pool.empty
  obtain ⟨h₂, root₂, r₂, d₂, above₂, row₂, items₂, IA, L, R, IB, hCall₂, hMade₂, hShape₂, hItems,
    hStart, hEnd, _, hR, hGrown₂⟩ := insert_some 5 50 hShape₁ hMade₁.pool (by simp)
  have hOne : slots [(1, r₁)] = IA ++ (slots (L ++ R) ++ IB) := hItems
  obtain ⟨rfl, rfl, hEs⟩ := single_leaf hOne hStart hEnd
  obtain ⟨rfl, rfl⟩ := all_below hEs (by simp) hR
  obtain rfl : items₂ = slots [(1, r₁), (5, r₂)] := by
    cases hGrown₂ with
    | room => simp
    | split hFull => cases hFull
  obtain ⟨h₃, root₃, r₃, d₃, above₃, row₃, items₃, IA, L, R, IB, hCall₃, _, hShape₃, hItems,
    hStart, hEnd, _, hR, hGrown₃⟩ := insert_some 6 60 hShape₂
      (hMade₂.pool.perm (List.Perm.swap r₁ r₂ [])) (by simp)
  obtain ⟨rfl, rfl, hEs⟩ := single_leaf hItems hStart hEnd
  obtain ⟨rfl, rfl⟩ := all_below hEs (by simp) hR
  obtain rfl : items₃ = slots [(1, r₁)] ++ .sep 5 :: slots [(5, r₂), (6, r₃)] := by
    cases hGrown₃ with
    | room hRoom => exact absurd hRoom (Nat.lt_irrefl 3)
    | @split S T e _ hAll hCut =>
      have hOne : S.length = 1 := hCut
      obtain ⟨a, rfl⟩ := List.length_eq_one_iff.mp hOne
      cases hAll
      simp
  have hTree : TreeOf smallestOrder h₃ (some root₃) _ := ⟨d₃, above₃, row₃, _, hShape₃, rfl⟩
  refine ⟨h₃, some root₃, ?_, ?_, ?_⟩
  · simp only [run, List.foldlM, applyOp, hCall₁, hCall₂, hCall₃, Option.bind_eq_bind, Option.bind_some,
      Option.pure_def]
  · obtain ⟨A, x, B, IA, es, IB, link, rfl, hItems, hLeaf⟩ := leafFor hShape₃ 2
    obtain ⟨rfl, rfl, rfl⟩ := first_leaf hItems (by decide) hLeaf.starts hLeaf.ends
    exact LeafFor.findRange (L := [(1, r₁)]) (R := []) 6 hShape₃ hLeaf (by simp) (by simp)
  · obtain ⟨leaf, hFind⟩ := (hTree.find_iff 5 r₂).mpr (by simp)
    exact ⟨leaf, r₂, hFind⟩

end Ranges

end Trident.Btree
