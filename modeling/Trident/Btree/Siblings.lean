import Trident.Btree.NodeDeletion
import Trident.Btree.Growth

/-! # Neighbors under one parent

A node below the root has a sibling to its left or to its right. The key between
the two is the one `delete_entry` calls `k_prime`.
-/

namespace Trident.Btree

open Loops Expansion

variable {o : TreeOrder} {h : Heap} {root : NodeId}

/-- `l` and `r` are the children of `q` before and behind its key `k` of index `i`. -/
structure Siblings (o : TreeOrder) (h : Heap) (root : NodeId) (d : Nat) (above : List NodeId)
    (A : List Tok) (l : NodeId) (k : UInt64) (r : NodeId) (B : List Tok) (q : NodeId) (i : Nat) :
    Prop where
  parentLeft : (h.nodes l).parent = some q
  parentRight : (h.nodes r).parent = some q
  key : (h.nodes q).keys[i]? = some k
  left : (h.nodes q).pointers[i]? = some (.node l)
  right : (h.nodes q).pointers[i + 1]? = some (.node r)
  indexLeft : pointerIndex (h.nodes q) l = some i
  indexRight : pointerIndex (h.nodes q) r = some (i + 1)
  inUse : i + 1 ≤ (h.nodes q).numKeys ∧ (h.nodes q).numKeys < 20
  mem : q ∈ above
  /-- Another key between them changes nothing but the row. -/
  replace : ∀ (h' : Heap) (k' : UInt64),
    h'.nodes q = { h.nodes q with keys := (h.nodes q).keys.set i k' } →
    (∀ y ∈ above, y ≠ q → h'.nodes y = h.nodes y) →
    (∀ y ∈ ids (A ++ .node l :: .sep k :: .node r :: B),
      (h'.nodes y).parent = (h.nodes y).parent) →
    Upper o h' root d above (A ++ .node l :: .sep k' :: .node r :: B)

theorem weave_last (c : NodeId) (P : List (UInt64 × NodeId)) :
    ∃ As l, weave c P = As ++ [.node l] := by
  obtain rfl | ⟨P, p, rfl⟩ := List.eq_nil_or_concat P
  · exact ⟨[], c, rfl⟩
  · exact ⟨weave c P ++ [.sep p.1], p.2, by rw [List.concat_eq_append, weave_append]; simp⟩

theorem InnerNode.length_le {n : Node} {c : NodeId} {prs : List (UInt64 × NodeId)}
    (hNode : InnerNode o n c prs) : prs.length ≤ o.order - 1 := by
  obtain ⟨J, hKeys⟩ := hNode.keys
  have hLength := hNode.keysLength
  rw [hKeys, List.length_append, List.length_map] at hLength
  omega

theorem LeafNode.length_le {n : Node} {es : List (UInt64 × RecId)} {link : Ptr}
    (hNode : LeafNode o n es link) : es.length ≤ o.order - 1 := by
  obtain ⟨J, hKeys⟩ := hNode.keys
  have hLength := hNode.keysLength
  rw [hKeys, List.length_append, List.length_map] at hLength
  omega

theorem InnerNode.setKey {n : Node} {c r : NodeId} {P Q : List (UInt64 × NodeId)} {k : UInt64}
    (hNode : InnerNode o n c (P ++ (k, r) :: Q)) (k' : UInt64) :
    InnerNode o { n with keys := n.keys.set P.length k' } c (P ++ (k', r) :: Q) := by
  obtain ⟨J, hKeys⟩ := hNode.keys
  obtain ⟨K, hPointers⟩ := hNode.pointers
  constructor
  · exact hNode.isLeaf
  · simp [hNode.numKeys]
  · exact ⟨J, by simp [hKeys]⟩
  · exact ⟨K, by simp [hPointers]⟩
  · simp [hNode.keysLength]
  · exact hNode.pointersLength

theorem siblings_of_node {d : Nat} {above : List NodeId} {A₀ B₀ PA PB As : List Tok}
    {q c l r : NodeId} {k : UInt64} {P Q : List (UInt64 × NodeId)}
    (hUp : Upper o h root d above (A₀ ++ .node q :: B₀))
    (hA : Expands (Inner o h root) A₀ PA) (hB : Expands (Inner o h root) B₀ PB)
    (hLeft : weave c P = As ++ [.node l]) (hNode : InnerNode o (h.nodes q) c (P ++ (k, r) :: Q))
    (hMin : Filled (cut o.order - 1) root q (P ++ (k, r) :: Q).length)
    (hKids : ∀ y ∈ c :: (P ++ (k, r) :: Q).map Prod.snd, (h.nodes y).parent = some q)
    (hRow : (ids (PA ++ As ++ .node l :: .sep k :: .node r :: (behind Q ++ PB))).Nodup)
    (hUpper : (above ++ ids (A₀ ++ .node q :: B₀)).Nodup) :
    Siblings o h root (d + 1) (above ++ ids (A₀ ++ .node q :: B₀)) (PA ++ As) l k r
      (behind Q ++ PB) q P.length := by
  obtain ⟨hChildren, hIndex⟩ := last_child hLeft
  have hAllKids : c :: (P ++ (k, r) :: Q).map Prod.snd = ids As ++ l :: r :: Q.map Prod.snd := by
    rw [List.map_append, ← List.cons_append, hChildren, List.append_assoc]
    rfl
  obtain ⟨J, hKeys⟩ := hNode.keys
  obtain ⟨K, hPointers⟩ := hNode.pointers
  rw [hAllKids] at hPointers
  have hKidsNodup : (ids As ++ l :: r :: Q.map Prod.snd).Nodup := by
    refine hRow.sublist ?_
    simp only [ids_append, ids_cons_node, ids_cons_sep, ids_behind]
    rw [List.append_assoc]
    refine (List.Sublist.append_left ?_ _).trans (List.sublist_append_right _ _)
    exact ((List.sublist_append_left _ _).cons_cons r).cons_cons l
  rw [List.nodup_append] at hKidsNodup
  have hlAs : l ∉ ids As := fun hIn => hKidsNodup.2.2 l hIn l (by simp) rfl
  have hrAs : r ∉ ids As ++ [l] := by
    intro hIn
    obtain hIn | hIn := List.mem_append.mp hIn
    · exact hKidsNodup.2.2 r hIn r (by simp) rfl
    · rw [List.mem_singleton] at hIn
      subst hIn
      simp at hKidsNodup
  constructor
  · exact hKids l (by rw [hAllKids]; simp)
  · exact hKids r (by rw [hAllKids]; simp)
  · exact getElem?_eq (A := P.map Prod.fst) (B := Q.map Prod.fst ++ J) (by simp [hKeys]) (by simp)
  · exact getElem?_eq (A := (ids As).map Ptr.node) (B := (r :: Q.map Prod.snd).map Ptr.node ++ K)
      (by simp [hPointers]) (by simp [hIndex])
  · exact getElem?_eq (A := (ids As ++ [l]).map Ptr.node) (B := (Q.map Prod.snd).map Ptr.node ++ K)
      (by simp [hPointers]) (by simp [hIndex])
  · rw [← hIndex]
    exact pointerIndex_eq hNode hAllKids hlAs
  · have hEq := pointerIndex_eq hNode (U := ids As ++ [l]) (V := Q.map Prod.snd)
      (by rw [hAllKids]; simp) hrAs
    rwa [List.length_append, List.length_singleton, hIndex] at hEq
  · have hLength := hNode.length_le
    have hMax := o.max
    have hMin := o.min
    rw [hNode.numKeys]
    simp only [List.length_append, List.length_cons] at hLength ⊢
    omega
  · simp
  · intro h' k' hq hOthers hParents
    obtain ⟨_, hRow₀, hApart⟩ := List.nodup_append'.mp hUpper
    have hqOut : q ∉ ids A₀ ∧ q ∉ ids B₀ := by
      rw [ids_append, ids_cons_node, List.nodup_middle, List.nodup_cons, List.mem_append, not_or]
        at hRow₀
      exact hRow₀.1
    have hSame : ∀ y ∈ ids (A₀ ++ .node q :: B₀), y ≠ q → h'.nodes y = h.nodes y := fun y hy hne =>
      hOthers y (List.mem_append_right above hy) hne
    have hUp' : Upper o h' root d above (A₀ ++ .node q :: B₀) := by
      apply hUp.congr
      · exact fun y hy => hOthers y (List.mem_append_left _ hy) fun hEq =>
          hApart hy (by simp [hEq])
      · intro y hy
        rcases eq_or_ne y q with hyq | hyq
        · rw [hyq, hq]
        · rw [hSame y hy hyq]
    have hA' : Expands (Inner o h' root) A₀ PA := by
      apply expands_congr hA
      · exact fun y hy => .of_eq (hSame y (by simp [hy]) (ne_of_mem_of_not_mem hy hqOut.1))
      · exact fun _ => rfl
      · exact fun y hy => hParents y (by simp [hy])
    have hB' : Expands (Inner o h' root) B₀ PB := by
      apply expands_congr hB
      · exact fun y hy => .of_eq (hSame y (by simp [hy]) (ne_of_mem_of_not_mem hy hqOut.2))
      · exact fun _ => rfl
      · exact fun y hy => hParents y (by simp [hy])
    have hInner : Inner o h' root (.node q) (weave c (P ++ (k', r) :: Q)) := by
      refine .node ?_ (hMin.mono (by simp)) fun y hy => ?_
      · rw [hq]
        exact hNode.setKey k'
      · have hyKid : y ∈ c :: (P ++ (k, r) :: Q).map Prod.snd := by
          simpa using hy
        rw [hParents y ?_, hKids y hyKid]
        rw [hAllKids] at hyKid
        simp only [ids_append, ids_cons_node, ids_cons_sep, ids_behind, List.mem_append,
          List.mem_cons] at hyKid ⊢
        tauto
    have hDown := hUp'.down (Expands.mid hA' hInner hB')
    have hWeave : PA ++ (weave c (P ++ (k', r) :: Q) ++ PB) =
        PA ++ As ++ .node l :: .sep k' :: .node r :: (behind Q ++ PB) := by
      rw [weave_append, hLeft, behind_cons]
      simp
    rwa [hWeave] at hDown

theorem siblings_cases {d : Nat} {above : List NodeId} {A B : List Tok} {p : NodeId}
    (hUp : Upper o h root d above (A ++ .node p :: B)) (hp : p ≠ root)
    (hNodup : (above ++ ids (A ++ .node p :: B)).Nodup) :
    (∃ k r B' q, B = .sep k :: .node r :: B' ∧ Siblings o h root d above A p k r B' q 0) ∨
    (∃ A' l k q i, A = A' ++ [.node l, .sep k] ∧ Siblings o h root d above A' l k p B q i) := by
  obtain ⟨hUpper, hRow, _⟩ := List.nodup_append'.mp hNodup
  generalize hLower : A ++ .node p :: B = row at hUp
  cases hUp with
  | top _ =>
    obtain ⟨rfl, hRest⟩ | ⟨_, hRest⟩ := List.append_eq_singleton_iff.mp hLower
    · obtain ⟨hNode, _⟩ := List.cons.inj hRest
      exact absurd (Tok.node.inj hNode) hp
    · simp at hRest
  | @down d above row _ hUp hExp =>
    subst hLower
    obtain ⟨A₀, q, B₀, PA, PB, c, P, Q, As, rfl, hA, hB, rfl, rfl, hLeft, hNode, hMin, hKids⟩ :=
      parent_of_mem hExp
    obtain rfl | ⟨P, ⟨k, y⟩, rfl⟩ := List.eq_nil_or_concat P
    · cases Q with
      | nil =>
        have hCut := (cut_bounds o).1
        obtain hFull | ⟨_, hOne⟩ := hMin
        · rw [List.append_nil, List.length_nil] at hFull
          omega
        · simp at hOne
      | cons pr Q =>
        obtain ⟨k, r⟩ := pr
        refine Or.inl ⟨k, r, behind Q ++ PB, q, rfl, ?_⟩
        exact siblings_of_node hUp hA hB hLeft hNode hMin hKids hRow hUpper
    · rw [List.concat_eq_append] at hLeft hNode hMin hKids
      obtain ⟨As', l, hLast⟩ := weave_last c P
      have hSplit : As' ++ [.node l, .sep k] = As ∧ y = p := by
        rw [weave_append, hLast] at hLeft
        have hEq : (As' ++ [.node l, .sep k]) ++ [.node y] = As ++ [.node p] := by
          rw [← hLeft]
          simp
        obtain ⟨hAs, hLastNode⟩ := List.append_inj' hEq rfl
        exact ⟨hAs, Tok.node.inj (List.cons.inj hLastNode).1⟩
      obtain ⟨rfl, rfl⟩ := hSplit
      rw [List.append_assoc, List.singleton_append] at hNode hMin hKids
      refine Or.inr ⟨PA ++ As', l, k, q, P.length, by simp, ?_⟩
      apply siblings_of_node hUp hA hB hLast hNode hMin hKids _ hUpper
      simpa using hRow

end Trident.Btree
