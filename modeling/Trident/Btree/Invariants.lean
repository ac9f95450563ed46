import Trident.Btree.Contents

/-! # Balance and ownership

What the tree guarantees on its heap, said without rows: which nodes and records the
root leads to, how full they are and how their keys lie, and that every slot ever
carved is either in the tree or free.
-/

namespace Trident.Btree

open Loops Expansion FreeList

section Paths

/-- `y` is the child of index `i` of the internal node `x`. -/
def ChildOf (h : Heap) (x y : NodeId) (i : Nat) : Prop :=
  (h.nodes x).isLeaf = false ∧ i ≤ (h.nodes x).numKeys ∧ (h.nodes x).pointers[i]? = some (.node y)

inductive At (h : Heap) (root : NodeId) : Nat → NodeId → Prop
  | root : At h root 0 root
  | child {n i : Nat} {x y : NodeId} : At h root n x → ChildOf h x y i → At h root (n + 1) y

def Node.keysInUse (n : Node) : List UInt64 := n.keys.take n.numKeys

def SlotOf (h : Heap) (x : NodeId) (i : Nat) (r : RecId) : Prop :=
  (h.nodes x).isLeaf = true ∧ i < (h.nodes x).numKeys ∧ (h.nodes x).pointers[i]? = some (.record r)

variable {o : TreeOrder} {h : Heap} {root : NodeId}

theorem InnerNode.keysInUse {n : Node} {c : NodeId} {prs : List (UInt64 × NodeId)}
    (hNode : InnerNode o n c prs) : n.keysInUse = prs.map Prod.fst := by
  obtain ⟨J, hKeys⟩ := hNode.keys
  rw [Node.keysInUse, hKeys, hNode.numKeys]
  exact List.take_left' (List.length_map _)

theorem LeafNode.keysInUse {n : Node} {es : List (UInt64 × RecId)} {link : Ptr}
    (hNode : LeafNode o n es link) : n.keysInUse = es.map Prod.fst := by
  obtain ⟨J, hKeys⟩ := hNode.keys
  rw [Node.keysInUse, hKeys, hNode.numKeys]
  exact List.take_left' (List.length_map _)

theorem InnerNode.childOf_iff {x y c : NodeId} {prs : List (UInt64 × NodeId)} {i : Nat}
    (hNode : InnerNode o (h.nodes x) c prs) :
    ChildOf h x y i ↔ (c :: prs.map Prod.snd)[i]? = some y := by
  obtain ⟨K, hPointers⟩ := hNode.pointers
  have hLength : (c :: prs.map Prod.snd).length = prs.length + 1 := by simp
  constructor
  · rintro ⟨_, hi, hPointer⟩
    rw [hNode.numKeys] at hi
    rw [hPointers, List.getElem?_append_left (by simp; omega), List.getElem?_map,
      Option.map_eq_some_iff] at hPointer
    obtain ⟨z, hz, hEq⟩ := hPointer
    rw [hz, Ptr.node.inj hEq]
  · intro hChild
    have hi : i < prs.length + 1 := by
      rw [← hLength]
      exact (List.getElem?_eq_some_iff.mp hChild).1
    refine ⟨hNode.isLeaf, ?_, ?_⟩
    · rw [hNode.numKeys]
      omega
    · rw [hPointers, List.getElem?_append_left (by simp; omega), List.getElem?_map, hChild]
      rfl

theorem LeafNode.slotOf_iff {x : NodeId} {es : List (UInt64 × RecId)} {link : Ptr} {i : Nat} {r : RecId}
    (hNode : LeafNode o (h.nodes x) es link) : SlotOf h x i r ↔ (es.map Prod.snd)[i]? = some r := by
  obtain ⟨K, hPointers⟩ := hNode.pointers
  rw [List.append_assoc] at hPointers
  constructor
  · rintro ⟨_, hi, hPointer⟩
    rw [hNode.numKeys] at hi
    rw [hPointers, List.getElem?_append_left (by simpa using hi), List.getElem?_map,
      Option.map_eq_some_iff] at hPointer
    obtain ⟨q, hq, hEq⟩ := hPointer
    rw [hq, Ptr.record.inj hEq]
  · intro hSlot
    have hi := (List.getElem?_eq_some_iff.mp hSlot).1
    rw [List.length_map] at hi
    refine ⟨hNode.isLeaf, by rwa [hNode.numKeys], ?_⟩
    rw [hPointers, List.getElem?_append_left (by simpa using hi), List.getElem?_map, hSlot]
    rfl

theorem Upper.descends {d : Nat} {above : List NodeId} {row : List Tok}
    (hUp : Upper o h root d above row) : Descends (Inner o h root) d [.node root] row := by
  induction hUp with
  | top _ => exact .here _
  | down _ hRow ih => exact ih.snoc hRow

theorem row_of_at {m n : Nat} {x z : NodeId} {w : List Tok}
    (hDown : Descends (Inner o h root) m [.node x] w)
    (hLeaves : ∀ y ∈ ids w, (h.nodes y).isLeaf = true) (hAt : At h x n z) :
    ∃ A B k, m = n + k ∧ Descends (Inner o h root) k (A ++ .node z :: B) w := by
  induction hAt with
  | root => exact ⟨[], [], m, by omega, hDown⟩
  | @child n i p z _ hChild ih =>
    obtain ⟨A, B, k, hDepth, hRest⟩ := ih
    cases hRest with
    | here _ =>
      have hLeaf := hLeaves p (by simp)
      rw [hChild.1] at hLeaf
      cases hLeaf
    | @lower k _ mid _ hRow hRest =>
      obtain ⟨PA, w', PB, rfl, _, hInner, _⟩ := hRow.mid_inv
      obtain ⟨c, prs, rfl, hNode, _, _⟩ := hInner.node_inv
      have hMem : z ∈ ids (PA ++ (weave c prs ++ PB)) := by
        have hKid := List.mem_of_getElem? (hNode.childOf_iff.mp hChild)
        rw [ids_append, ids_append, ids_weave]
        exact List.mem_append_right _ (List.mem_append_left _ hKid)
      obtain ⟨A', B', hSplit⟩ := List.append_of_mem (mem_ids.mp hMem)
      exact ⟨A', B', k, by omega, hSplit ▸ hRest⟩

end Paths

section Bounds

variable {o : TreeOrder} {h : Heap} {root : NodeId}

def Tok.key? : Tok → Option UInt64
  | .node _ => none
  | .sep k => some k
  | .entry k _ => some k

theorem descends_seps {m : Nat} {l w : List Tok} (hDown : Descends (Inner o h root) m l w) :
    (seps l).Sublist (seps w) := by
  induction hDown with
  | here l => exact .refl _
  | lower hRow _ ih => exact (seps_sublist hRow).trans ih

theorem descends_sep {m : Nat} {k : UInt64} {w : List Tok}
    (hDown : Descends (Inner o h root) m [.sep k] w) : w = [.sep k] := by
  induction m generalizing w with
  | zero =>
    cases hDown
    rfl
  | succ m ih =>
    cases hDown with
    | lower hRow hRest =>
      have hSingle := hRow.single_inv
      cases hSingle
      exact ih hRest

theorem key_mem_items {m n : Nat} {x z : NodeId} {w items : List Tok} {k : UInt64}
    (hDown : Descends (Inner o h root) m [.node x] w) (hItems : Expands (Leaf o h root) w items)
    (hAt : At h x n z) (hKey : k ∈ (h.nodes z).keysInUse) : ∃ t ∈ items, t.key? = some k := by
  have hLeaves : ∀ y ∈ ids w, (h.nodes y).isLeaf = true := by
    intro y hy
    obtain ⟨A, B, rfl⟩ := List.append_of_mem (mem_ids.mp hy)
    obtain ⟨_, _, _, _, _, hLeaf, _⟩ := hItems.mid_inv
    obtain ⟨_, _, _, hNode, _⟩ := hLeaf.node_inv
    exact hNode.isLeaf
  obtain ⟨A, B, j, _, hRest⟩ := row_of_at hDown hLeaves hAt
  cases hRest with
  | here _ =>
    obtain ⟨IA, _, IB, rfl, _, hLeaf, _⟩ := hItems.mid_inv
    obtain ⟨es, _, rfl, hNode, _⟩ := hLeaf.node_inv
    rw [hNode.keysInUse] at hKey
    obtain ⟨e, he, rfl⟩ := List.mem_map.mp hKey
    refine ⟨.entry e.1 e.2, ?_, rfl⟩
    exact List.mem_append_right _ (List.mem_append_left _ (List.mem_map_of_mem he))
  | lower hRow hRest =>
    obtain ⟨PA, _, PB, rfl, _, hInner, _⟩ := hRow.mid_inv
    obtain ⟨c, prs, rfl, hNode, _, _⟩ := hInner.node_inv
    rw [hNode.keysInUse] at hKey
    have hSep : k ∈ seps items := by
      rw [seps_leaves hItems]
      refine (descends_seps hRest).subset ?_
      rw [seps_append, seps_append, seps_weave]
      exact List.mem_append_right _ (List.mem_append_left _ hKey)
    obtain ⟨t, ht, hSep⟩ := List.mem_filterMap.mp hSep
    refine ⟨t, ht, ?_⟩
    cases t with
    | sep k' => exact hSep
    | node x => cases hSep
    | entry k' r => cases hSep

end Bounds

section Balance

/-- Every leaf as deep as the others, every node filled, and every key on its side. -/
structure Balanced (o : TreeOrder) (h : Heap) (root : NodeId) : Prop where
  depth : ∃ d, ∀ n x, At h root n x → ((h.nodes x).isLeaf = true ↔ n = d)
  keys : ∀ n x, At h root n x → 1 ≤ (h.nodes x).numKeys ∧ (h.nodes x).numKeys ≤ o.order - 1 ∧
    (h.nodes x).keysInUse.length = (h.nodes x).numKeys ∧ (h.nodes x).keysInUse.Pairwise (· < ·)
  leaves : ∀ n x, At h root n x → x ≠ root → (h.nodes x).isLeaf = true →
    cut (o.order - 1) ≤ (h.nodes x).numKeys
  internal : ∀ n x, At h root n x → x ≠ root → (h.nodes x).isLeaf = false →
    cut o.order - 1 ≤ (h.nodes x).numKeys
  children : ∀ n x, At h root n x → (h.nodes x).isLeaf = false →
    ∃ cs : List NodeId, cs.length = (h.nodes x).numKeys + 1 ∧ cs.Nodup ∧
      (∀ i y, ChildOf h x y i ↔ cs[i]? = some y) ∧ ∀ y ∈ cs, (h.nodes y).parent = some x
  below : ∀ n x y i k m z k', At h root n x → (h.nodes x).keysInUse[i]? = some k →
    ChildOf h x y i → At h y m z → k' ∈ (h.nodes z).keysInUse → k' < k
  above : ∀ n x y i k m z k', At h root n x → (h.nodes x).keysInUse[i]? = some k →
    ChildOf h x y (i + 1) → At h y m z → k' ∈ (h.nodes z).keysInUse → k ≤ k'

variable {o : TreeOrder} {h : Heap} {root : NodeId} {d : Nat} {above : List NodeId}
  {row items : List Tok}

theorem Upper.inner_of_mem (hUp : Upper o h root d above row) (hNodup : (above ++ ids row).Nodup)
    {x : NodeId} (hx : x ∈ above) :
    ∃ c prs, InnerNode o (h.nodes x) c prs ∧ Filled (cut o.order - 1) root x prs.length ∧
      (c :: prs.map Prod.snd).Nodup ∧
      ∀ y ∈ c :: prs.map Prod.snd, (h.nodes y).parent = some x ∧ y ∈ above ++ ids row := by
  induction hUp with
  | top _ => cases hx
  | @down d above row row' _ hRow ih =>
    obtain ⟨hAbove, hBelow, _⟩ := List.nodup_append'.mp hNodup
    cases List.mem_append.mp hx with
    | inl hx =>
      obtain ⟨c, prs, hNode, hMin, hOnce, hKids⟩ := ih hAbove hx
      refine ⟨c, prs, hNode, hMin, hOnce, fun y hy => ⟨(hKids y hy).1, ?_⟩⟩
      exact List.mem_append_left _ (hKids y hy).2
    | inr hx =>
      obtain ⟨A, B, rfl⟩ := List.append_of_mem (mem_ids.mp hx)
      obtain ⟨PA, _, PB, rfl, _, hInner, _⟩ := hRow.mid_inv
      obtain ⟨c, prs, rfl, hNode, hMin, hKids⟩ := hInner.node_inv
      have hIds : ids (PA ++ (weave c prs ++ PB)) = ids PA ++ (c :: prs.map Prod.snd ++ ids PB) := by
        rw [ids_append, ids_append, ids_weave]
      rw [hIds] at hBelow ⊢
      refine ⟨c, prs, hNode, hMin, ?_, fun y hy => ⟨hKids y hy, ?_⟩⟩
      · exact (List.nodup_append'.mp (List.nodup_append'.mp hBelow).2.1).1
      · exact List.mem_append_right _ (List.mem_append_right _ (List.mem_append_left _ hy))

theorem Upper.at_of_mem (hUp : Upper o h root d above row) :
    (∀ x ∈ above, ∃ n, At h root n x) ∧ ∀ x ∈ ids row, At h root d x := by
  induction hUp with
  | top _ =>
    refine ⟨fun x hx => absurd hx List.not_mem_nil, fun x hx => ?_⟩
    rw [List.mem_singleton.mp hx]
    exact .root
  | @down d above row row' _ hRow ih =>
    obtain ⟨hAbove, hLast⟩ := ih
    refine ⟨fun x hx => ?_, fun y hy => ?_⟩
    · cases List.mem_append.mp hx with
      | inl hx => exact hAbove x hx
      | inr hx => exact ⟨d, hLast x hx⟩
    · obtain ⟨A, B, rfl⟩ := List.append_of_mem (mem_ids.mp hy)
      obtain ⟨A₀, p, B₀, _, _, c, P, Q, As, rfl, _, _, _, _, hChild, hNode, _, _⟩ := parent_of_mem hRow
      have hParent : At h root d p := hLast p (by simp)
      have hKid : (c :: (P ++ Q).map Prod.snd)[(ids As).length]? = some y := by
        apply getElem?_eq (B := Q.map Prod.snd) _ rfl
        rw [List.map_append, ← List.cons_append, (last_child hChild).1]
        simp
      exact hParent.child (hNode.childOf_iff.mpr hKid)

theorem Shape.leaf_of_mem (hShape : Shape o h root d above row items) {x : NodeId} (hx : x ∈ ids row) :
    ∃ A B IA es IB link, row = A ++ .node x :: B ∧ items = IA ++ (slots es ++ IB) ∧
      Expands (Leaf o h root) A IA ∧ Expands (Leaf o h root) B IB ∧
      LeafNode o (h.nodes x) es link ∧ Filled (cut (o.order - 1)) root x es.length := by
  obtain ⟨A, B, rfl⟩ := List.append_of_mem (mem_ids.mp hx)
  obtain ⟨IA, _, IB, rfl, hA, hLeaf, hB⟩ := hShape.leaves.mid_inv
  obtain ⟨es, link, rfl, hNode, hMin⟩ := hLeaf.node_inv
  exact ⟨A, B, IA, es, IB, link, rfl, rfl, hA, hB, hNode, hMin⟩

theorem Shape.at_iff (hShape : Shape o h root d above row items) (x : NodeId) :
    (∃ n, At h root n x) ↔ x ∈ above ++ ids row := by
  obtain ⟨hAbove, hLast⟩ := hShape.upper.at_of_mem
  constructor
  · rintro ⟨n, hAt⟩
    induction hAt with
    | root =>
      obtain ⟨_, rfl, rfl⟩ | ⟨_, hMem⟩ := hShape.upper.root_cases
      · exact List.mem_cons_self
      · exact List.mem_append_left _ hMem
    | child _ hChild ih =>
      cases List.mem_append.mp ih with
      | inl hx =>
        obtain ⟨c, prs, hNode, _, _, hKids⟩ := hShape.upper.inner_of_mem hShape.pool.nodup hx
        exact (hKids _ (List.mem_of_getElem? (hNode.childOf_iff.mp hChild))).2
      | inr hx =>
        obtain ⟨_, _, _, _, _, _, _, _, _, _, hNode, _⟩ := hShape.leaf_of_mem hx
        have hInternal := hChild.1
        rw [hNode.isLeaf] at hInternal
        cases hInternal
  · intro hx
    cases List.mem_append.mp hx with
    | inl hx => exact hAbove x hx
    | inr hx => exact ⟨d, hLast x hx⟩

theorem Shape.descends_of_at (hShape : Shape o h root d above row items) {n : Nat} {x : NodeId}
    (hAt : At h root n x) :
    ∃ A B k, d = n + k ∧ Descends (Inner o h root) k (A ++ .node x :: B) row := by
  refine row_of_at hShape.upper.descends (fun y hy => ?_) hAt
  obtain ⟨_, _, _, _, _, _, _, _, _, _, hNode, _⟩ := hShape.leaf_of_mem hy
  exact hNode.isLeaf

theorem Shape.depth (hShape : Shape o h root d above row items) {n : Nat} {x : NodeId}
    (hAt : At h root n x) : (h.nodes x).isLeaf = true ↔ n = d := by
  obtain ⟨A, B, k, rfl, hRest⟩ := hShape.descends_of_at hAt
  cases hRest with
  | here _ =>
    obtain ⟨_, _, _, _, _, _, _, _, _, _, hNode, _⟩ := hShape.leaf_of_mem (x := x) (by simp)
    exact ⟨fun _ => rfl, fun _ => hNode.isLeaf⟩
  | lower hRow _ =>
    obtain ⟨_, _, _, _, _, hInner, _⟩ := hRow.mid_inv
    obtain ⟨_, _, _, hNode, _⟩ := hInner.node_inv
    constructor
    · intro hLeaf
      rw [hNode.isLeaf] at hLeaf
      cases hLeaf
    · intro hDepth
      omega

theorem Shape.around_key (hShape : Shape o h root d above row items) {n i : Nat} {x : NodeId}
    {k : UInt64} (hAt : At h root n x) (hInternal : (h.nodes x).isLeaf = false)
    (hKey : (h.nodes x).keysInUse[i]? = some k) :
    ∃ l r I J IL IR m WL WR, ChildOf h x l i ∧ ChildOf h x r (i + 1) ∧
      items = I ++ (IL ++ .sep k :: (IR ++ J)) ∧
      Descends (Inner o h root) m [.node l] WL ∧ Expands (Leaf o h root) WL IL ∧
      Descends (Inner o h root) m [.node r] WR ∧ Expands (Leaf o h root) WR IR := by
  obtain ⟨A, B, j, _, hRest⟩ := hShape.descends_of_at hAt
  cases hRest with
  | here _ =>
    obtain ⟨_, _, _, _, _, _, _, _, _, _, hNode, _⟩ := hShape.leaf_of_mem (x := x) (by simp)
    rw [hNode.isLeaf] at hInternal
    cases hInternal
  | @lower j _ mid _ hRow hRest =>
    obtain ⟨PA, _, PB, rfl, _, hInner, _⟩ := hRow.mid_inv
    obtain ⟨c, prs, rfl, hNode, _, _⟩ := hInner.node_inv
    rw [hNode.keysInUse, List.getElem?_map, Option.map_eq_some_iff] at hKey
    obtain ⟨⟨k', r⟩, hPair, hFirst⟩ := hKey
    obtain rfl : k' = k := hFirst
    obtain ⟨hLength, hPair⟩ := List.getElem?_eq_some_iff.mp hPair
    obtain ⟨P, Q, rfl, rfl⟩ : ∃ P Q, prs = P ++ (k', r) :: Q ∧ P.length = i := by
      refine ⟨prs.take i, prs.drop (i + 1), ?_, by rw [List.length_take]; omega⟩
      rw [← hPair, ← List.drop_eq_getElem_cons hLength, List.take_append_drop]
    obtain ⟨As, l, hChild⟩ := weave_last c P
    obtain ⟨hChildren, hIndex⟩ := last_child hChild
    have hMid : PA ++ (weave c (P ++ (k', r) :: Q) ++ PB) =
        (PA ++ As) ++ ([.node l] ++ ([.sep k'] ++ ([.node r] ++ (behind Q ++ PB)))) := by
      rw [weave_append, hChild, behind_cons]
      simp
    rw [hMid] at hRest
    obtain ⟨W₀, _, rfl, _, hRest⟩ := hRest.append_inv
    obtain ⟨WL, _, rfl, hLeft, hRest⟩ := hRest.append_inv
    obtain ⟨WS, _, rfl, hSep, hRest⟩ := hRest.append_inv
    obtain ⟨WR, W₁, rfl, hRight, _⟩ := hRest.append_inv
    obtain rfl := descends_sep hSep
    obtain ⟨I, _, rfl, _, hItems⟩ := hShape.leaves.append_inv
    obtain ⟨IL, _, rfl, hIL, hItems⟩ := hItems.append_inv
    obtain ⟨_, _, rfl, hSep, hItems⟩ := hItems.append_inv
    obtain ⟨IR, J, rfl, hIR, _⟩ := hItems.append_inv
    have hSep := hSep.single_inv
    cases hSep
    have hAll : c :: (P ++ (k', r) :: Q).map Prod.snd = ids As ++ l :: r :: Q.map Prod.snd := by
      rw [List.map_append, ← List.cons_append, hChildren, List.append_assoc]
      rfl
    refine ⟨l, r, I, J, IL, IR, j, WL, WR, ?_, ?_, rfl, hLeft, hIL, hRight, hIR⟩
    · exact hNode.childOf_iff.mpr (getElem?_eq hAll hIndex.symm)
    · refine hNode.childOf_iff.mpr (getElem?_eq (A := ids As ++ [l]) (B := Q.map Prod.snd) ?_ ?_)
      · rw [hAll]
        simp
      · rw [List.length_append, hIndex]
        rfl

theorem ChildOf.unique {x y z : NodeId} {i : Nat} (hy : ChildOf h x y i) (hz : ChildOf h x z i) :
    y = z :=
  Ptr.node.inj (Option.some.inj (hy.2.2.symm.trans hz.2.2))

theorem Shape.below_key (hShape : Shape o h root d above row items) {n i m : Nat} {x y z : NodeId}
    {k k' : UInt64} (hAt : At h root n x) (hKey : (h.nodes x).keysInUse[i]? = some k)
    (hChild : ChildOf h x y i) (hUnder : At h y m z) (hKey' : k' ∈ (h.nodes z).keysInUse) : k' < k := by
  obtain ⟨l, r, I, J, IL, IR, j, WL, WR, hl, _, rfl, hLeft, hIL, _, _⟩ :=
    hShape.around_key hAt hChild.1 hKey
  obtain rfl := hl.unique hChild
  obtain ⟨t, ht, hTok⟩ := key_mem_items hLeft hIL hUnder hKey'
  have hSorted := (List.pairwise_append.mp hShape.sorted).2.1
  have hBefore := (List.pairwise_append.mp hSorted).2.2 t ht (.sep k) List.mem_cons_self
  cases t with
  | node x => cases hTok
  | sep a =>
    cases hTok
    exact hBefore
  | entry a q =>
    cases hTok
    exact hBefore

theorem Shape.above_key (hShape : Shape o h root d above row items) {n i m : Nat} {x y z : NodeId}
    {k k' : UInt64} (hAt : At h root n x) (hKey : (h.nodes x).keysInUse[i]? = some k)
    (hChild : ChildOf h x y (i + 1)) (hUnder : At h y m z) (hKey' : k' ∈ (h.nodes z).keysInUse) :
    k ≤ k' := by
  obtain ⟨l, r, I, J, IL, IR, j, WL, WR, _, hr, rfl, _, _, hRight, hIR⟩ :=
    hShape.around_key hAt hChild.1 hKey
  obtain rfl := hr.unique hChild
  obtain ⟨t, ht, hTok⟩ := key_mem_items hRight hIR hUnder hKey'
  have hSorted := (List.pairwise_append.mp (List.pairwise_append.mp hShape.sorted).2.1).2.1
  have hBefore := (List.pairwise_cons.mp hSorted).1 t (List.mem_append_left _ ht)
  cases t with
  | node x => cases hTok
  | sep a =>
    cases hTok
    exact UInt64.le_of_lt hBefore
  | entry a q =>
    cases hTok
    exact hBefore

theorem Shape.node_cases (hShape : Shape o h root d above row items) {n : Nat} {x : NodeId}
    (hAt : At h root n x) :
    (∃ c prs, InnerNode o (h.nodes x) c prs ∧ Filled (cut o.order - 1) root x prs.length ∧
      (prs.map Prod.fst).Pairwise (· < ·) ∧ (c :: prs.map Prod.snd).Nodup ∧
      ∀ y ∈ c :: prs.map Prod.snd, (h.nodes y).parent = some x) ∨
    ∃ es link, LeafNode o (h.nodes x) es link ∧ Filled (cut (o.order - 1)) root x es.length ∧
      (es.map Prod.fst).Pairwise (· < ·) := by
  cases List.mem_append.mp ((hShape.at_iff x).mp ⟨n, hAt⟩) with
  | inl hx =>
    obtain ⟨c, prs, hNode, hMin, hOnce, hKids⟩ := hShape.upper.inner_of_mem hShape.pool.nodup hx
    refine Or.inl ⟨c, prs, hNode, hMin, ?_, hOnce, fun y hy => (hKids y hy).1⟩
    obtain ⟨A, B, k, _, hRest⟩ := hShape.descends_of_at hAt
    cases hRest with
    | here _ =>
      obtain ⟨_, _, _, _, _, _, _, _, _, _, hLeaf, _⟩ := hShape.leaf_of_mem (x := x) (by simp)
      have hKind := hLeaf.isLeaf
      rw [hNode.isLeaf] at hKind
      cases hKind
    | lower hRow hRest =>
      obtain ⟨PA, _, PB, rfl, _, hInner, _⟩ := hRow.mid_inv
      obtain ⟨c', prs', rfl, hNode', _, _⟩ := hInner.node_inv
      have hSorted := seps_sorted hShape.sorted
      rw [seps_leaves hShape.leaves] at hSorted
      have hBelow := hSorted.sublist (descends_seps hRest)
      rw [seps_append, seps_append, seps_weave] at hBelow
      rw [← hNode.keysInUse, hNode'.keysInUse]
      exact (List.pairwise_append.mp (List.pairwise_append.mp hBelow).2.1).1
  | inr hx =>
    obtain ⟨_, _, IA, es, IB, link, _, rfl, _, _, hNode, hMin⟩ := hShape.leaf_of_mem hx
    refine Or.inr ⟨es, link, hNode, hMin, ?_⟩
    have hSorted := ascending_keys hShape.sorted
    simp only [entries_append, entries_slots, List.map_append] at hSorted
    exact (List.pairwise_append.mp (List.pairwise_append.mp hSorted).2.1).1

theorem Shape.balanced (hShape : Shape o h root d above row items) : Balanced o h root := by
  obtain ⟨hCut, _⟩ := cut_bounds o
  obtain ⟨hCut', _⟩ := cut_pred_bounds o
  constructor
  · exact ⟨d, fun n x hAt => hShape.depth hAt⟩
  · intro n x hAt
    obtain ⟨c, prs, hNode, hMin, hSorted, _⟩ | ⟨es, link, hNode, hMin, hSorted⟩ := hShape.node_cases hAt
    · rw [hNode.keysInUse, hNode.numKeys, List.length_map]
      refine ⟨?_, hNode.length_le, rfl, hSorted⟩
      exact hMin.elim (fun hFloor => by omega) fun hBoth => hBoth.2
    · rw [hNode.keysInUse, hNode.numKeys, List.length_map]
      refine ⟨?_, hNode.length_le, rfl, hSorted⟩
      exact hMin.elim (fun hFloor => by omega) fun hBoth => hBoth.2
  · intro n x hAt hRoot hLeaf
    obtain ⟨c, prs, hNode, _⟩ | ⟨es, link, hNode, hMin, _⟩ := hShape.node_cases hAt
    · rw [hNode.isLeaf] at hLeaf
      cases hLeaf
    · rw [hNode.numKeys]
      exact hMin.resolve_right fun hBoth => hRoot hBoth.1
  · intro n x hAt hRoot hInternal
    obtain ⟨c, prs, hNode, hMin, _⟩ | ⟨es, link, hNode, _⟩ := hShape.node_cases hAt
    · rw [hNode.numKeys]
      exact hMin.resolve_right fun hBoth => hRoot hBoth.1
    · rw [hNode.isLeaf] at hInternal
      cases hInternal
  · intro n x hAt hInternal
    obtain ⟨c, prs, hNode, _, _, hOnce, hKids⟩ | ⟨es, link, hNode, _⟩ := hShape.node_cases hAt
    · refine ⟨c :: prs.map Prod.snd, ?_, hOnce, fun i y => hNode.childOf_iff, hKids⟩
      rw [hNode.numKeys, List.length_cons, List.length_map]
    · rw [hNode.isLeaf] at hInternal
      cases hInternal
  · exact fun n x y i k m z k' hAt hKey hChild hUnder hKey' =>
      hShape.below_key hAt hKey hChild hUnder hKey'
  · exact fun n x y i k m z k' hAt hKey hChild hUnder hKey' =>
      hShape.above_key hAt hKey hChild hUnder hKey'

theorem balanced_run (o : TreeOrder) (ops : List Op) :
    ∃ h root, run o ops = some (h, root) ∧ ∀ x ∈ root, Balanced o h x := by
  obtain ⟨h, root, es, hRun, hHolds⟩ := holds_run o ops
  refine ⟨h, root, hRun, fun x hx => ?_⟩
  obtain rfl := Option.mem_def.mp hx
  obtain ⟨d, above, row, items, hShape, _⟩ := hHolds.tree
  exact hShape.balanced

end Balance

section Ownership

def InTree (h : Heap) (root : Option NodeId) (x : NodeId) : Prop := ∃ y ∈ root, ∃ n, At h y n x

def RecordIn (h : Heap) (root : Option NodeId) (r : RecId) : Prop :=
  ∃ x i, InTree h root x ∧ SlotOf h x i r

/-- Every slot ever carved is in the tree or on its free list, and only once. -/
structure Ledger (h : Heap) (root : Option NodeId) (freeNodes : List NodeId) (freeRecs : List RecId) :
    Prop where
  nodeList : Chained (fun x => (h.nodes x).next) h.freeNodes freeNodes
  recList : Chained (fun r => (h.recs r).link) h.freeRecs freeRecs
  nodesOnce : freeNodes.Nodup
  recsOnce : freeRecs.Nodup
  nodesApart : ∀ x, InTree h root x → x ∉ freeNodes
  recsApart : ∀ r, RecordIn h root r → r ∉ freeRecs
  slots : ∀ x y i j r, InTree h root x → InTree h root y → SlotOf h x i r → SlotOf h y j r →
    x = y ∧ i = j
  nodes : ∀ x, x < h.nodeBrk ↔ InTree h root x ∨ x ∈ freeNodes
  recs : ∀ r, r < h.recBrk ↔ RecordIn h root r ∨ r ∈ freeRecs

variable {o : TreeOrder} {h : Heap} {root : NodeId} {d : Nat} {above : List NodeId}
  {row items : List Tok}

theorem inTree_some (h : Heap) (root x : NodeId) : InTree h (some root) x ↔ ∃ n, At h root n x := by
  simp [InTree]

/-- `P x i a`: the place `i` of the leaf `x` holds `a`, which is `f` of its entry. -/
structure Places {α : Type} (o : TreeOrder) (h : Heap) (f : UInt64 × RecId → α)
    (P : NodeId → Nat → α → Prop) : Prop where
  isLeaf : ∀ x i a, P x i a → (h.nodes x).isLeaf = true
  place : ∀ x es link, LeafNode o (h.nodes x) es link → ∀ i a, P x i a ↔ (es.map f)[i]? = some a

theorem slot_places (o : TreeOrder) (h : Heap) : Places o h Prod.snd (SlotOf h) :=
  ⟨fun _ _ _ hSlot => hSlot.1, fun _ _ _ hNode _ _ => hNode.slotOf_iff⟩

variable {α : Type} {f : UInt64 × RecId → α} {P : NodeId → Nat → α → Prop}

theorem Places.mem (hP : Places o h f P) {A IA : List Tok} (hA : Expands (Leaf o h root) A IA)
    {x : NodeId} {i : Nat} {a : α} (hx : x ∈ ids A) (hPlace : P x i a) : a ∈ (entries IA).map f := by
  obtain ⟨B, C, rfl⟩ := List.append_of_mem (mem_ids.mp hx)
  obtain ⟨IB, _, IC, rfl, _, hLeaf, _⟩ := hA.mid_inv
  obtain ⟨es, link, rfl, hNode, _⟩ := hLeaf.node_inv
  have hMem := List.mem_of_getElem? ((hP.place x es link hNode i a).mp hPlace)
  simp only [entries_append, entries_slots, List.map_append, List.mem_append]
  exact Or.inr (Or.inl hMem)

theorem Shape.inTree_iff (hShape : Shape o h root d above row items) (x : NodeId) :
    InTree h (some root) x ↔ x ∈ above ++ ids row :=
  (inTree_some h root x).trans (hShape.at_iff x)

theorem Shape.place_row (hShape : Shape o h root d above row items) (hP : Places o h f P) {x : NodeId}
    {i : Nat} {a : α} (hx : InTree h (some root) x) (hPlace : P x i a) : x ∈ ids row := by
  cases List.mem_append.mp ((hShape.inTree_iff x).mp hx) with
  | inl hx =>
    obtain ⟨_, _, hNode, _⟩ := hShape.upper.inner_of_mem hShape.pool.nodup hx
    have hLeaf := hP.isLeaf x i a hPlace
    rw [hNode.isLeaf] at hLeaf
    cases hLeaf
  | inr hx => exact hx

theorem Shape.place_iff (hShape : Shape o h root d above row items) (hP : Places o h f P) (a : α) :
    (∃ x i, InTree h (some root) x ∧ P x i a) ↔ a ∈ (entries items).map f := by
  constructor
  · rintro ⟨x, i, hx, hPlace⟩
    exact hP.mem hShape.leaves (hShape.place_row hP hx hPlace) hPlace
  · intro ha
    obtain ⟨⟨k, r⟩, hIn, rfl⟩ := List.mem_map.mp ha
    obtain ⟨A', B', rfl⟩ := List.append_of_mem (mem_entries.mp hIn)
    obtain ⟨A, a, B, PA, w, w', PB, rfl, _, hLeaf, _, _, _⟩ := hShape.leaves.split
    generalize hw : w ++ .entry k r :: w' = v at hLeaf
    cases hLeaf with
    | sep k' =>
      have hMem : Tok.entry k r ∈ [Tok.sep k'] := hw ▸ by simp
      simp at hMem
    | @node x es link hNode _ =>
      have hMem : Tok.entry k r ∈ slots es := hw ▸ by simp
      have hEntry := mem_entries.mpr hMem
      rw [entries_slots] at hEntry
      obtain ⟨i, hi⟩ := List.getElem?_of_mem (List.mem_map_of_mem (f := f) hEntry)
      refine ⟨x, i, (hShape.inTree_iff x).mpr ?_, (hP.place x es link hNode i _).mpr hi⟩
      exact List.mem_append_right _ (by simp)

/-- What the entries have once stands in one place. -/
theorem Shape.place_unique (hShape : Shape o h root d above row items) (hP : Places o h f P)
    (hOnce : ((entries items).map f).Nodup) {x y : NodeId} {i j : Nat} {a : α}
    (hx : InTree h (some root) x) (hy : InTree h (some root) y) (hi : P x i a) (hj : P y j a) :
    x = y ∧ i = j := by
  have hyRow := hShape.place_row hP hy hj
  obtain ⟨A, B, IA, es, IB, link, rfl, rfl, hA, hB, hNode, _⟩ :=
    hShape.leaf_of_mem (hShape.place_row hP hx hi)
  have hPlace := (hP.place x es link hNode i a).mp hi
  have ha := List.mem_of_getElem? hPlace
  simp only [entries_append, entries_slots, List.map_append] at hOnce
  obtain ⟨_, hRest, hBefore⟩ := List.nodup_append'.mp hOnce
  obtain ⟨hes, _, hBehind⟩ := List.nodup_append'.mp hRest
  rw [ids_append, ids_cons_node] at hyRow
  have hxy : x = y := by
    cases List.mem_append.mp hyRow with
    | inl hyA => exact absurd (List.mem_append_left _ ha) (hBefore (hP.mem hA hyA hj))
    | inr hyRow =>
      cases List.mem_cons.mp hyRow with
      | inl hEq => exact hEq.symm
      | inr hyB => exact absurd (hP.mem hB hyB hj) (hBehind ha)
  subst hxy
  have hPlace' := (hP.place x es link hNode j a).mp hj
  refine ⟨rfl, ?_⟩
  exact (List.getElem?_inj (List.getElem?_eq_some_iff.mp hPlace).1 hes).mp (hPlace.trans hPlace'.symm)

theorem ledger_of_pools {root : Option NodeId} {liveNodes : List NodeId} {liveRecs : List RecId}
    (hNodes : NodePool h liveNodes) (hRecs : RecPool h liveRecs)
    (hInTree : ∀ x, InTree h root x ↔ x ∈ liveNodes) (hRecordIn : ∀ r, RecordIn h root r ↔ r ∈ liveRecs)
    (hSlots : ∀ x y i j r, InTree h root x → InTree h root y → SlotOf h x i r → SlotOf h y j r →
      x = y ∧ i = j) : ∃ freeNodes freeRecs, Ledger h root freeNodes freeRecs := by
  obtain ⟨freeNodes, hNodeList, hNodePerm⟩ := hNodes
  obtain ⟨freeRecs, hRecList, hRecPerm⟩ := hRecs
  obtain ⟨_, hNodesOnce, hNodesApart⟩ :=
    List.nodup_append'.mp (hNodePerm.nodup_iff.mpr List.nodup_range)
  obtain ⟨_, hRecsOnce, hRecsApart⟩ := List.nodup_append'.mp (hRecPerm.nodup_iff.mpr List.nodup_range)
  refine ⟨freeNodes, freeRecs, hNodeList, hRecList, hNodesOnce, hRecsOnce, fun x hx => ?_,
    fun r hr => ?_, hSlots, fun x => ?_, fun r => ?_⟩
  · exact hNodesApart ((hInTree x).mp hx)
  · exact hRecsApart ((hRecordIn r).mp hr)
  · rw [← List.mem_range, ← hNodePerm.mem_iff, List.mem_append, hInTree]
  · rw [← List.mem_range, ← hRecPerm.mem_iff, List.mem_append, hRecordIn]

theorem ledger_none (hNodes : NodePool h []) (hRecs : RecPool h []) :
    ∃ freeNodes freeRecs, Ledger h none freeNodes freeRecs := by
  have hNone : ∀ x, ¬ InTree h none x := by
    rintro x ⟨y, hy, _⟩
    cases hy
  refine ledger_of_pools hNodes hRecs (fun x => ?_) (fun r => ?_) fun x _ _ _ _ hx => ?_
  · simp [hNone x]
  · simp [RecordIn, hNone]
  · exact absurd hx (hNone x)

theorem Holds.ledger {root : Option NodeId} {es : List (UInt64 × RecId)} {m : Contents}
    (hHolds : Holds o h root es m) : ∃ freeNodes freeRecs, Ledger h root freeNodes freeRecs := by
  cases root with
  | none =>
    obtain ⟨hPool, rfl⟩ := hHolds.tree
    exact ledger_none hPool hHolds.records
  | some root =>
    obtain ⟨d, above, row, items, hShape, rfl⟩ := hHolds.tree
    have hPlaces := slot_places o h
    exact ledger_of_pools hShape.pool hHolds.records hShape.inTree_iff (hShape.place_iff hPlaces)
      fun x y i j r hx hy hi hj => hShape.place_unique hPlaces hHolds.records.nodup hx hy hi hj

theorem ledger_run (o : TreeOrder) (ops : List Op) :
    ∃ h root freeNodes freeRecs, run o ops = some (h, root) ∧ Ledger h root freeNodes freeRecs := by
  obtain ⟨h, root, es, hRun, hHolds⟩ := holds_run o ops
  obtain ⟨freeNodes, freeRecs, hLedger⟩ := hHolds.ledger
  exact ⟨h, root, freeNodes, freeRecs, hRun, hLedger⟩

end Ownership

end Trident.Btree
