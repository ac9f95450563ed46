import Trident.Btree.Invariants
import Trident.Btree.LeafChain

/-! # Destroying a tree

`destroy_tree_nodes` gives the nodes of a tree back to their free list. The records
it hands to `free`, although they come from slabs as well, so that no record returns
to `free_recs`; with `free_record` in its place every slot does.
-/

namespace Trident.Btree

open Loops Expansion FreeList

/-- `free` on a pointer into a slab: `allocate` has returned only the address of the first
slot, and any other is not one that `free` may take. -/
def free (h : Heap) : Ptr → Option Heap
  | .null => some h
  | .node x => if x % nodesPerSlab = 0 then some h else none
  | .record r => if r % recordsPerSlab = 0 then some h else none

/-- `destroy_tree_nodes`, with what it calls for the pointers of a leaf. -/
def destroyNodesWith (release : Heap → Ptr → Option Heap) : Nat → Heap → NodeId → Option Heap
  | 0, _, _ => none
  | fuel + 1, h, root =>
    (if (h.nodes root).isLeaf then
      forUp (fun i h => (h.nodes root).pointers[i]?.bind (release h)) 0 (h.nodes root).numKeys h
    else
      forUp (fun i h => ((h.nodes root).pointers[i]?.bind Ptr.asNode).bind
        (destroyNodesWith release fuel h)) 0 ((h.nodes root).numKeys + 1) h).map
      fun h => releaseNode h root

def destroyTreeNodes : Nat → Heap → NodeId → Option Heap := destroyNodesWith free

/-- `destroy_tree`; without a tree `root->is_leaf` is read through a null pointer. -/
def destroyTree (h : Heap) (root : Option NodeId) : Option (Heap × Option NodeId) := do
  let root ← root
  let h ← destroyTreeNodes (h.nodeBrk + 1) h root
  return (h, none)

inductive Call where
  | op (op : Op)
  | destroyTree

def applyCall (o : TreeOrder) (s : Heap × Option NodeId) : Call → Option (Heap × Option NodeId)
  | .op op => applyOp o s op
  | .destroyTree => destroyTree s.1 s.2

/-- A sequence of calls of `insert`, `delete` and `destroy_tree`. -/
def runCalls (o : TreeOrder) (calls : List Call) : Option (Heap × Option NodeId) :=
  calls.foldlM (applyCall o) (emptyHeap, none)

section Records

variable {release : Heap → Ptr → Option Heap} {fuel : Nat} {h h' : Heap} {root : NodeId}

theorem sameRecords_releaseNode (h : Heap) (x : NodeId) : SameRecords h (releaseNode h x) :=
  ⟨rfl, rfl, rfl⟩

/-- What leaves the records as they are for one pointer does so for the tree. -/
theorem sameRecords_destroyNodesWith
    (hRelease : ∀ {h p h'}, release h p = some h' → SameRecords h h')
    (hDestroy : destroyNodesWith release fuel h root = some h') : SameRecords h h' := by
  induction fuel generalizing h root h' with
  | zero => cases hDestroy
  | succ fuel ih =>
    rw [destroyNodesWith] at hDestroy
    obtain ⟨g, hLoop, rfl⟩ := Option.map_eq_some_iff.mp hDestroy
    refine SameRecords.trans ?_ (sameRecords_releaseNode g root)
    split at hLoop
    · refine forUp_invariant (I := fun _ g => SameRecords h g) ?_ (.refl h) hLoop
      intro i g g' _ _ hSame hTurn
      obtain ⟨p, _, hTurn⟩ := Option.bind_eq_some_iff.mp hTurn
      exact hSame.trans (hRelease hTurn)
    · refine forUp_invariant (I := fun _ g => SameRecords h g) ?_ (.refl h) hLoop
      intro i g g' _ _ hSame hTurn
      obtain ⟨y, _, hTurn⟩ := Option.bind_eq_some_iff.mp hTurn
      exact hSame.trans (ih hTurn)

theorem sameRecords_free {p : Ptr} (hFree : free h p = some h') : SameRecords h h' := by
  cases p with
  | null =>
    cases hFree
    exact .refl h
  | node x | record x =>
    rw [free] at hFree
    split at hFree
    · cases hFree
      exact .refl h
    · cases hFree

end Records

section Slots

variable {o : TreeOrder} {h h' : Heap} {root : NodeId} {k : Nat}

abbrev Slot := NodeId ⊕ RecId

def nodesOf (w : List Slot) : List NodeId := w.filterMap Sum.getLeft?

def recsOf (w : List Slot) : List RecId := w.filterMap Sum.getRight?

@[simp] theorem nodesOf_nil : nodesOf [] = [] := rfl

@[simp] theorem recsOf_nil : recsOf [] = [] := rfl

@[simp] theorem nodesOf_append (v w : List Slot) : nodesOf (v ++ w) = nodesOf v ++ nodesOf w :=
  List.filterMap_append

@[simp] theorem recsOf_append (v w : List Slot) : recsOf (v ++ w) = recsOf v ++ recsOf w :=
  List.filterMap_append

@[simp] theorem nodesOf_cons_node (x : NodeId) (w : List Slot) :
    nodesOf (.inl x :: w) = x :: nodesOf w := rfl

@[simp] theorem recsOf_cons_node (x : NodeId) (w : List Slot) : recsOf (.inl x :: w) = recsOf w := rfl

@[simp] theorem nodesOf_entries (es : List (UInt64 × RecId)) :
    nodesOf (es.map fun e => .inr e.2) = [] := by
  simp [nodesOf, List.filterMap_map, Function.comp_def]

@[simp] theorem recsOf_entries (es : List (UInt64 × RecId)) :
    recsOf (es.map fun e => .inr e.2) = es.map Prod.snd := by
  simp [recsOf, List.filterMap_map, Function.comp_def]

/-- The slots of the tree of height `k` under `x`, the children before their parent. -/
def Under (o : TreeOrder) (h : Heap) : Nat → NodeId → List Slot → Prop
  | 0, x, w => ∃ es link, LeafNode o (h.nodes x) es link ∧ w = es.map (fun e => .inr e.2) ++ [.inl x]
  | k + 1, x, w => ∃ c prs v, InnerNode o (h.nodes x) c prs ∧
      Expands (Under o h k) (c :: prs.map Prod.snd) v ∧ w = v ++ [.inl x]

theorem Under.congr {x : NodeId} {w : List Slot} (hUnder : Under o h k x w)
    (hNodes : ∀ y ∈ nodesOf w, h'.nodes y = h.nodes y) : Under o h' k x w := by
  induction k generalizing x w with
  | zero =>
    obtain ⟨es, link, hNode, rfl⟩ := hUnder
    rw [← hNodes x (by simp)] at hNode
    exact ⟨es, link, hNode, rfl⟩
  | succ k ih =>
    obtain ⟨c, prs, v, hNode, hKids, rfl⟩ := hUnder
    rw [← hNodes x (by simp)] at hNode
    refine ⟨c, prs, v, hNode, hKids.mono fun y _ u hu hUnder => ih hUnder fun z hz => ?_, rfl⟩
    apply hNodes z
    rw [nodesOf_append]
    obtain ⟨t, ht, hSlot⟩ := List.mem_filterMap.mp hz
    exact List.mem_append_left _ (List.mem_filterMap.mpr ⟨t, hu t ht, hSlot⟩)

theorem under_leaves {row items : List Tok} (hLeaves : Expands (Leaf o h root) row items) :
    ∃ w, Expands (Under o h 0) (ids row) w ∧ nodesOf w = ids row ∧
      recsOf w = (entries items).map Prod.snd := by
  induction hLeaves with
  | nil => exact ⟨[], .nil, rfl, rfl⟩
  | cons hFirst _ ih =>
    obtain ⟨w, hRow, hNodes, hRecs⟩ := ih
    cases hFirst with
    | sep k => exact ⟨w, hRow, hNodes, hRecs⟩
    | @node x es link hNode _ =>
      refine ⟨es.map (fun e => .inr e.2) ++ [.inl x] ++ w, ?_, ?_, ?_⟩
      · exact .cons ⟨es, link, hNode, rfl⟩ hRow
      · simp [hNodes]
      · simp [hRecs]

theorem under_row {row row' : List Tok} (hRow : Expands (Inner o h root) row row') {v : List Slot}
    (hBelow : Expands (Under o h k) (ids row') v) :
    ∃ w, Expands (Under o h (k + 1)) (ids row) w ∧ (nodesOf w).Perm (ids row ++ nodesOf v) ∧
      recsOf w = recsOf v := by
  induction hRow generalizing v with
  | nil =>
    obtain rfl := hBelow.nil_inv
    exact ⟨[], .nil, .refl _, rfl⟩
  | cons hFirst _ ih =>
    rw [ids_append] at hBelow
    obtain ⟨v₁, v₂, rfl, hKids, hRest⟩ := hBelow.append_inv
    obtain ⟨w, hWord, hNodes, hRecs⟩ := ih hRest
    cases hFirst with
    | sep k =>
      obtain rfl := hKids.nil_inv
      exact ⟨w, hWord, hNodes, hRecs⟩
    | @node x c prs hNode _ _ =>
      rw [ids_weave] at hKids
      refine ⟨v₁ ++ [.inl x] ++ w, .cons ⟨c, prs, v₁, hNode, hKids, rfl⟩ hWord, ?_, by simp [hRecs]⟩
      rw [nodesOf_append, nodesOf_append, nodesOf_append, nodesOf_cons_node, ids_cons_node,
        List.append_assoc]
      refine List.perm_middle.trans (List.Perm.cons x ?_)
      exact (hNodes.append_left (nodesOf v₁)).trans (List.perm_append_comm_assoc _ _ _)

theorem under_upper {d : Nat} {above : List NodeId} {row : List Tok} (hUp : Upper o h root d above row)
    {v : List Slot} (hBelow : Expands (Under o h k) (ids row) v) :
    ∃ w, Under o h (d + k) root w ∧ (nodesOf w).Perm (above ++ nodesOf v) ∧ recsOf w = recsOf v := by
  induction hUp generalizing k v with
  | top _ =>
    rw [Nat.zero_add]
    exact ⟨v, hBelow.single_inv, .refl _, rfl⟩
  | @down d above row row' _ hRow ih =>
    obtain ⟨u, hAbove, hNodes, hRecs⟩ := under_row hRow hBelow
    obtain ⟨w, hRoot, hNodes', hRecs'⟩ := ih hAbove
    rw [show d + 1 + k = d + (k + 1) by omega, List.append_assoc]
    exact ⟨w, hRoot, hNodes'.trans (hNodes.append_left above), hRecs'.trans hRecs⟩

theorem Shape.under {d : Nat} {above : List NodeId} {row items : List Tok}
    (hShape : Shape o h root d above row items) :
    ∃ w, Under o h d root w ∧ (nodesOf w).Perm (above ++ ids row) ∧
      recsOf w = (entries items).map Prod.snd := by
  obtain ⟨v, hRow, hNodes, hRecs⟩ := under_leaves hShape.leaves
  obtain ⟨w, hRoot, hAll, hAllRecs⟩ := under_upper hShape.upper hRow
  rw [hNodes] at hAll
  exact ⟨w, hRoot, hAll, hAllRecs.trans hRecs⟩

end Slots

section Release

variable {o : TreeOrder} {release : Heap → Ptr → Option Heap} {h : Heap} {x : NodeId}

/-- A call that puts a record on its free list. -/
def Returns (release : Heap → Ptr → Option Heap) : Prop :=
  ∀ h r live, RecPool h (r :: live) →
    ∃ h', release h (.record r) = some h' ∧ RecPool h' live ∧ SameNodes h h'

theorem SameNodes.trans {h h' h'' : Heap} (h₁ : SameNodes h h') (h₂ : SameNodes h' h'') :
    SameNodes h h'' :=
  ⟨h₂.1.trans h₁.1, h₂.2.1.trans h₁.2.1, h₂.2.2.trans h₁.2.2⟩

theorem LeafNode.pointer {n : Node} {es : List (UInt64 × RecId)} {link : Ptr}
    (hNode : LeafNode o n es link) {i : Nat} (hi : i < es.length) :
    n.pointers[i]? = some (.record (es[i]).2) := by
  obtain ⟨J, hPointers⟩ := hNode.pointers
  rw [hPointers, List.append_assoc, List.getElem?_append_left (by simpa using hi)]
  simp [hi]

theorem InnerNode.pointer {n : Node} {c : NodeId} {prs : List (UInt64 × NodeId)}
    (hNode : InnerNode o n c prs) {i : Nat} (hi : i < (c :: prs.map Prod.snd).length) :
    n.pointers[i]? = some (.node (c :: prs.map Prod.snd)[i]) := by
  obtain ⟨J, hPointers⟩ := hNode.pointers
  rw [hPointers, List.getElem?_append_left (by simpa using hi), List.getElem?_map,
    List.getElem?_eq_getElem hi]
  rfl

/-- The loop over the records of a leaf. -/
theorem releaseRecords_spec (hReturns : Returns release) {es : List (UInt64 × RecId)} {link : Ptr}
    (hNode : LeafNode o (h.nodes x) es link) {recs : List RecId}
    (hRecs : RecPool h (es.map Prod.snd ++ recs)) :
    ∃ h', forUp (fun i h => (h.nodes x).pointers[i]?.bind (release h)) 0 (h.nodes x).numKeys h = some h' ∧
      RecPool h' recs ∧ SameNodes h h' := by
  obtain ⟨h', hLoop, hRest, hSame⟩ := forUp_total
    (f := fun i h => (h.nodes x).pointers[i]?.bind (release h)) (i := 0) (m := (h.nodes x).numKeys)
    (I := fun i g => RecPool g ((es.map Prod.snd).drop i ++ recs) ∧ SameNodes h g)
    (fun i g _ hi hInv => by
      obtain ⟨hPool, hSame⟩ := hInv
      rw [hNode.numKeys, Nat.zero_add] at hi
      have hDrop : (es.map Prod.snd).drop i = (es[i]).2 :: (es.map Prod.snd).drop (i + 1) := by
        rw [List.drop_eq_getElem_cons (by simpa using hi), List.getElem_map]
      rw [hDrop] at hPool
      obtain ⟨g', hRelease, hPool', hSame'⟩ := hReturns g (es[i]).2 _ hPool
      refine ⟨g', ?_, hPool', hSame.trans hSame'⟩
      rw [hSame.1, hNode.pointer hi]
      exact hRelease)
    (s := h) ⟨hRecs, ⟨rfl, rfl, rfl⟩⟩
  refine ⟨h', hLoop, ?_, hSame⟩
  rw [hNode.numKeys, Nat.zero_add, List.drop_eq_nil_of_le (by simp)] at hRest
  exact hRest

/-- A call that returns all the slots under a node and touches no other node. -/
def ReturnsUnder (o : TreeOrder) (k : Nat) (visit : Heap → NodeId → Option Heap) : Prop :=
  ∀ h x w nodes recs, Under o h k x w → NodePool h (nodesOf w ++ nodes) →
    RecPool h (recsOf w ++ recs) →
    ∃ h', visit h x = some h' ∧ NodePool h' nodes ∧ RecPool h' recs ∧
      ∀ y, y ∉ nodesOf w → h'.nodes y = h.nodes y

theorem mem_nodesOf {w : List Slot} {y : NodeId} : y ∈ nodesOf w ↔ .inl y ∈ w := by
  rw [nodesOf, List.mem_filterMap]
  constructor
  · rintro ⟨t, ht, hy⟩
    cases t with
    | inl z =>
      cases hy
      exact ht
    | inr r => cases hy
  · intro hy
    exact ⟨.inl y, hy, rfl⟩

/-- The slots of one child are returned, those of the children behind it are still there. -/
theorem expands_under_congr {k : Nat} {g : Heap} {kids : List NodeId} {v w : List Slot}
    {nodes : List NodeId} (hKids : Expands (Under o h k) kids v)
    (hPool : NodePool h (nodesOf w ++ (nodesOf v ++ nodes)))
    (hFrame : ∀ y, y ∉ nodesOf w → g.nodes y = h.nodes y) : Expands (Under o g k) kids v := by
  have hApart := (List.nodup_append'.mp hPool.nodup).2.2
  refine hKids.mono fun y _ u hu hUnder => hUnder.congr fun z hz => hFrame z fun hw => ?_
  have hv : z ∈ nodesOf v := mem_nodesOf.mpr (hu _ (mem_nodesOf.mp hz))
  exact hApart hw (List.mem_append_left nodes hv)

/-- The loop over the children of an internal node. -/
theorem destroyKids_spec {k : Nat} {visit : Heap → NodeId → Option Heap}
    (hVisit : ReturnsUnder o k visit) {c : NodeId} {prs : List (UInt64 × NodeId)}
    (hNode : InnerNode o (h.nodes x) c prs) {v : List Slot}
    (hKids : Expands (Under o h k) (c :: prs.map Prod.snd) v) {nodes : List NodeId} {recs : List RecId}
    (hNodes : NodePool h (nodesOf v ++ x :: nodes)) (hRecs : RecPool h (recsOf v ++ recs)) :
    ∃ h', forUp (fun i h => ((h.nodes x).pointers[i]?.bind Ptr.asNode).bind (visit h)) 0
        ((h.nodes x).numKeys + 1) h = some h' ∧
      NodePool h' (x :: nodes) ∧ RecPool h' recs ∧ ∀ y, y ∉ nodesOf v → h'.nodes y = h.nodes y := by
  have hx : x ∉ nodesOf v := fun hIn =>
    (List.nodup_append'.mp hNodes.nodup).2.2 hIn List.mem_cons_self
  have hLength : (c :: prs.map Prod.snd).length = (h.nodes x).numKeys + 1 := by
    rw [hNode.numKeys, List.length_cons, List.length_map]
  obtain ⟨h', hLoop, u, v', hv, hLast, hPool, hPool', hFrame⟩ := forUp_total
    (f := fun i h => ((h.nodes x).pointers[i]?.bind Ptr.asNode).bind (visit h)) (i := 0)
    (m := (h.nodes x).numKeys + 1)
    (I := fun i g => ∃ u v', v = u ++ v' ∧ Expands (Under o g k) ((c :: prs.map Prod.snd).drop i) v' ∧
      NodePool g (nodesOf v' ++ x :: nodes) ∧ RecPool g (recsOf v' ++ recs) ∧
      ∀ y, y ∉ nodesOf v → g.nodes y = h.nodes y)
    (fun i g _ hi hInv => by
      obtain ⟨u, v', hv, hRest, hPool, hPool', hFrame⟩ := hInv
      rw [Nat.zero_add, ← hLength] at hi
      rw [List.drop_eq_getElem_cons hi] at hRest
      obtain ⟨w, v'', rfl, hChild, hBehind⟩ := hRest.cons_inv
      rw [nodesOf_append, List.append_assoc] at hPool
      rw [recsOf_append, List.append_assoc] at hPool'
      obtain ⟨g', hCall, hNext, hNext', hKept⟩ := hVisit g _ w _ _ hChild hPool hPool'
      refine ⟨g', ?_, u ++ w, v'', by rw [hv, List.append_assoc],
        expands_under_congr hBehind hPool hKept, hNext, hNext', fun y hy => ?_⟩
      · rw [hFrame x hx, hNode.pointer hi]
        exact hCall
      · rw [hKept y fun hw => hy ?_, hFrame y hy]
        rw [hv, nodesOf_append, nodesOf_append]
        exact List.mem_append_right _ (List.mem_append_left _ hw))
    (s := h) ⟨[], v, rfl, hKids, hNodes, hRecs, fun _ _ => rfl⟩
  rw [Nat.zero_add, ← hLength, List.drop_length] at hLast
  obtain rfl := hLast.nil_inv
  exact ⟨h', hLoop, hPool, hPool', hFrame⟩

/-- Where a record goes back to its free list, every slot under a node does, once. -/
theorem destroyNodesWith_spec (hReturns : Returns release) {k fuel : Nat} (hFuel : k < fuel) :
    ReturnsUnder o k (destroyNodesWith release fuel) := by
  induction k generalizing fuel with
  | zero =>
    intro h x w nodes recs hUnder hNodes hRecs
    obtain ⟨fuel, rfl⟩ : ∃ n, fuel = n + 1 := ⟨fuel - 1, by omega⟩
    obtain ⟨es, link, hNode, rfl⟩ := hUnder
    rw [nodesOf_append, nodesOf_entries] at hNodes
    rw [recsOf_append, recsOf_entries, recsOf_cons_node, recsOf_nil, List.append_nil] at hRecs
    obtain ⟨g, hLoop, hPool, hSame⟩ := releaseRecords_spec hReturns hNode hRecs
    obtain ⟨hPool', hRecords, hKept⟩ := releaseNode_spec (x := x) (hSame.pool hNodes)
    refine ⟨releaseNode g x, ?_, hPool', hRecords.pool hPool, fun y hy => ?_⟩
    · rw [destroyNodesWith, if_pos hNode.isLeaf, hLoop]
      rfl
    · rw [hKept y fun hEq => hy (by simp [hEq]), hSame.1]
  | succ k ih =>
    intro h x w nodes recs hUnder hNodes hRecs
    obtain ⟨fuel, rfl⟩ : ∃ n, fuel = n + 1 := ⟨fuel - 1, by omega⟩
    obtain ⟨c, prs, v, hNode, hKids, rfl⟩ := hUnder
    rw [nodesOf_append, List.append_assoc] at hNodes
    rw [recsOf_append, recsOf_cons_node, recsOf_nil, List.append_nil] at hRecs
    have hBelow : k < fuel := by omega
    obtain ⟨g, hLoop, hPool, hPool', hFrame⟩ :=
      destroyKids_spec (ih hBelow) hNode hKids hNodes hRecs
    obtain ⟨hRest, hRecords, hKept⟩ := releaseNode_spec hPool
    refine ⟨releaseNode g x, ?_, hRest, hRecords.pool hPool', fun y hy => ?_⟩
    · have hInternal : ¬ (h.nodes x).isLeaf = true := by
        rw [hNode.isLeaf]
        exact Bool.false_ne_true
      rw [destroyNodesWith, if_neg hInternal, hLoop]
      rfl
    · rw [nodesOf_append, List.mem_append, not_or] at hy
      rw [hKept y fun hEq => hy.2 (by simp [hEq]), hFrame y hy.1]

end Release

section Runs

variable {o : TreeOrder} {h : Heap} {root : NodeId} {d : Nat} {above : List NodeId}
  {row items : List Tok}

/-- Every slot is in the tree or free, after a call or a sequence of them. -/
def Accounted (s : Option (Heap × Option NodeId)) : Prop :=
  ∃ h root freeNodes freeRecs, s = some (h, root) ∧ Ledger h root freeNodes freeRecs

/-- `free_record`, as `delete` calls it. -/
theorem returns_freeRecord : Returns fun h p => p.asRecord.map (freeRecord h) := by
  intro h r live hPool
  obtain ⟨hPool', hSame, _⟩ := freeRecord_spec hPool
  exact ⟨freeRecord h r, rfl, hPool', hSame⟩

/-- With `free_record` in place of `free`, all slots of a tree are free after the call. -/
theorem Shape.destroy_freeRecord (hShape : Shape o h root d above row items)
    (hRecs : RecPool h ((entries items).map Prod.snd)) :
    ∃ h', destroyNodesWith (fun h p => p.asRecord.map (freeRecord h)) (h.nodeBrk + 1) h root = some h' ∧
      Accounted (some (h', none)) := by
  obtain ⟨w, hUnder, hNodes, hRecords⟩ := hShape.under
  have hFuel : d < h.nodeBrk + 1 := Nat.lt_succ_of_le hShape.fuel.1
  have hPool : NodePool h (nodesOf w ++ []) := by
    rw [List.append_nil]
    exact hShape.pool.perm hNodes.symm
  have hPool' : RecPool h (recsOf w ++ []) := by
    rw [List.append_nil, hRecords]
    exact hRecs
  obtain ⟨h', hCall, hLeft, hLeft', _⟩ :=
    destroyNodesWith_spec returns_freeRecord hFuel h root w [] [] hUnder hPool hPool'
  obtain ⟨freeNodes, freeRecs, hLedger⟩ := ledger_none hLeft hLeft'
  exact ⟨h', hCall, h', none, freeNodes, freeRecs, rfl, hLedger⟩

theorem Shape.exists_record (hShape : Shape o h root d above row items) :
    ∃ r, r ∈ (entries items).map Prod.snd := by
  obtain ⟨x, B, rfl, _⟩ := hShape.upper.firstLeaf
  obtain ⟨A, _, IA, es, IB, link, _, rfl, _, _, hNode, hFilled⟩ := hShape.leaf_of_mem (x := x) (by simp)
  have hPos : 0 < es.length := by
    have hCut := (cut_pred_bounds o).1
    rcases hFilled with hFloor | hBoth
    · omega
    · exact hBoth.2
  obtain ⟨e, rest, rfl⟩ := List.exists_cons_of_length_pos hPos
  exact ⟨e.2, by simp⟩

/-- A tree has a record, and the call does not put it on the free list. -/
theorem not_accounted_destroyTree {root : Option NodeId} {es : List (UInt64 × RecId)} {m : Contents}
    (hHolds : Holds o h root es m) : ¬ Accounted (destroyTree h root) := by
  rintro ⟨h', root', freeNodes, freeRecs, hCall, hLedger⟩
  cases root with
  | none => cases hCall
  | some root =>
    obtain ⟨g, hDestroy, hLast⟩ := Option.bind_eq_some_iff.mp hCall
    cases hLast
    obtain ⟨hRecs, hBrk, hFree⟩ := sameRecords_destroyNodesWith sameRecords_free hDestroy
    obtain ⟨d, above, row, items, hShape, rfl⟩ := hHolds.tree
    obtain ⟨r, hr⟩ := hShape.exists_record
    obtain ⟨freeRecs', hList, hPerm⟩ := hHolds.records
    have hSame : freeRecs = freeRecs' := by
      have hNow := hLedger.recList
      rw [hRecs, hFree] at hNow
      exact hNow.unique hList
    have hIn : r ∈ freeRecs := by
      have hLt : r < h'.recBrk := by
        rw [hBrk]
        exact hHolds.records.lt_brk hr
      refine ((hLedger.recs r).mp hLt).resolve_left ?_
      rintro ⟨x, i, ⟨y, hy, _⟩, _⟩
      cases hy
    rw [hSame] at hIn
    exact (List.nodup_append'.mp (hPerm.nodup_iff.mpr List.nodup_range)).2.2 hr hIn

/-- So `free` is all that is wrong with the call, on any tree that there can be. -/
theorem accounted_destroy_freeRecord (o : TreeOrder) (ops : List Op)
    (hRun : run o ops = some (h, some root)) :
    ∃ h', destroyNodesWith (fun h p => p.asRecord.map (freeRecord h)) (h.nodeBrk + 1) h root = some h' ∧
      Accounted (some (h', none)) := by
  obtain ⟨h', root', es, hRun', hHolds⟩ := holds_run o ops
  rw [hRun] at hRun'
  cases hRun'
  obtain ⟨d, above, row, items, hShape, rfl⟩ := hHolds.tree
  exact hShape.destroy_freeRecord hHolds.records

theorem runCalls_ops (o : TreeOrder) (ops : List Op) : runCalls o (ops.map Call.op) = run o ops := by
  rw [runCalls, List.foldlM_map]
  rfl

theorem runCalls_destroyTree {ops : List Op} {root : Option NodeId} (hRun : run o ops = some (h, root)) :
    runCalls o (ops.map Call.op ++ [Call.destroyTree]) = destroyTree h root := by
  have hOps := runCalls_ops o ops
  rw [hRun, runCalls] at hOps
  rw [runCalls, List.foldlM_append, hOps]
  simp [applyCall]

/-- The calls before the first `destroy_tree`. -/
theorem ops_before_destroy {calls : List Call} (h : Call.destroyTree ∈ calls) :
    ∃ ops : List Op, ops.map Call.op ++ [Call.destroyTree] <+: calls := by
  induction calls with
  | nil => cases h
  | cons call calls ih =>
    cases call with
    | destroyTree => exact ⟨[], calls, rfl⟩
    | op op =>
      obtain ⟨ops, rest, rfl⟩ := ih ((List.mem_cons.mp h).resolve_left nofun)
      exact ⟨op :: ops, rest, rfl⟩

theorem exists_ops {calls : List Call} (h : Call.destroyTree ∉ calls) :
    ∃ ops : List Op, calls = ops.map Call.op := by
  induction calls with
  | nil => exact ⟨[], rfl⟩
  | cons call calls ih =>
    cases call with
    | destroyTree => exact absurd List.mem_cons_self h
    | op op =>
      obtain ⟨ops, rfl⟩ := ih fun hIn => h (List.mem_cons_of_mem _ hIn)
      exact ⟨op :: ops, rfl⟩

/-- No call of `destroy_tree` on a reachable tree returns all of it, and a sequence of calls
keeps account of every slot as long as there is none. -/
theorem accounted_calls_iff (o : TreeOrder) :
    (∀ ops h root, run o ops = some (h, root) → ¬ Accounted (destroyTree h root)) ∧
      ∀ calls, (∀ earlier, earlier <+: calls → Accounted (runCalls o earlier)) ↔
        Call.destroyTree ∉ calls := by
  have hNever : ∀ ops h root, run o ops = some (h, root) → ¬ Accounted (destroyTree h root) := by
    intro ops h root hRun
    obtain ⟨h', root', es, hRun', hHolds⟩ := holds_run o ops
    rw [hRun] at hRun'
    cases hRun'
    exact not_accounted_destroyTree hHolds
  refine ⟨hNever, fun calls => ⟨fun hAll hDestroy => ?_, fun hNone earlier hEarlier => ?_⟩⟩
  · obtain ⟨ops, hPrefix⟩ := ops_before_destroy hDestroy
    obtain ⟨h, root, es, hRun, hHolds⟩ := holds_run o ops
    apply hNever ops h root hRun
    rw [← runCalls_destroyTree hRun]
    exact hAll _ hPrefix
  · obtain ⟨ops, rfl⟩ := exists_ops fun hIn => hNone (hEarlier.subset hIn)
    obtain ⟨h, root, es, hRun, hHolds⟩ := holds_run o ops
    obtain ⟨freeNodes, freeRecs, hLedger⟩ := hHolds.ledger
    exact ⟨h, root, freeNodes, freeRecs, (runCalls_ops o ops).trans hRun, hLedger⟩

/-- A tree of one record, destroyed. -/
theorem not_accounted_insert_destroy :
    ¬ Accounted (runCalls ⟨16, by decide, by decide⟩ [.op (.insert 5 7), .destroyTree]) := by
  obtain ⟨h, root, es, hRun, hHolds⟩ := holds_run ⟨16, by decide, by decide⟩ [.insert 5 7]
  have hCalls := runCalls_destroyTree hRun
  rw [List.map_cons, List.map_nil, List.singleton_append] at hCalls
  rw [hCalls]
  exact not_accounted_destroyTree hHolds

end Runs

end Trident.Btree
