import Trident.Btree.Leaves

/-! # Searching

`find_leaf` goes down to the one leaf between whose separators the key belongs.
-/

namespace Trident.Btree

open Loops Expansion

variable {o : TreeOrder} {h : Heap} {root : NodeId} {key : UInt64}

theorem split_passing {α : Type} (pass : α → Prop) [DecidablePred pass] (l : List α) :
    ∃ A B, l = A ++ B ∧ (∀ a ∈ A, pass a) ∧ (B = [] ∨ ∃ b B', B = b :: B' ∧ ¬ pass b) := by
  induction l with
  | nil => exact ⟨[], [], rfl, by simp, Or.inl rfl⟩
  | cons a l ih =>
    by_cases ha : pass a
    · obtain ⟨A, B, rfl, hA, hB⟩ := ih
      exact ⟨a :: A, B, rfl, by simpa [ha] using hA, hB⟩
    · exact ⟨[], a :: l, rfl, by simp, Or.inr ⟨a, l, rfl, ha⟩⟩

section Descent

theorem childIndex_eq {n : Node} {c : NodeId} {P Q : List (UInt64 × NodeId)}
    (hNode : InnerNode o n c (P ++ Q)) (hP : ∀ p ∈ P, p.1 ≤ key)
    (hQ : Q = [] ∨ ∃ q Q', Q = q :: Q' ∧ ¬ q.1 ≤ key) : childIndex n key = some P.length := by
  obtain ⟨J, hKeys⟩ := hNode.keys
  have hSplit : n.keys = P.map Prod.fst ++ (Q.map Prod.fst ++ J) := by simp [hKeys]
  have hScan : childIndex n key = some (P.map Prod.fst).length := by
    refine scan_list hSplit (fun k hk => ?_) ?_
    · obtain ⟨p, hp, rfl⟩ := List.mem_map.mp hk
      exact decide_eq_true (hP p hp)
    · obtain rfl | ⟨q, Q', rfl, hq⟩ := hQ
      · refine Or.inl ?_
        rw [hNode.numKeys, List.append_nil, List.length_map]
      · refine Or.inr ⟨?_, q.1, Q'.map Prod.fst ++ J, rfl, decide_eq_false hq⟩
        rw [hNode.numKeys]
        simp
  rwa [List.length_map] at hScan

theorem findLeaf_step {x y c : NodeId} {P Q : List (UInt64 × NodeId)} {As : List Tok}
    (hNode : InnerNode o (h.nodes x) c (P ++ Q)) (hChild : weave c P = As ++ [.node y])
    (hP : ∀ p ∈ P, p.1 ≤ key) (hQ : Q = [] ∨ ∃ q Q', Q = q :: Q' ∧ ¬ q.1 ≤ key) (fuel : Nat) :
    findLeaf h key (fuel + 1) x = findLeaf h key fuel y := by
  obtain ⟨hChildren, hIndex⟩ := last_child hChild
  obtain ⟨K, hPointers⟩ := hNode.pointers
  have hPointer : (h.nodes x).pointers[P.length]? = some (.node y) := by
    apply getElem?_eq (A := (ids As).map Ptr.node) (B := (Q.map Prod.snd).map Ptr.node ++ K)
    · rw [hPointers, List.map_append, ← List.cons_append, hChildren]
      simp
    · rw [List.length_map, hIndex]
  simp only [findLeaf, hNode.isLeaf, Bool.false_eq_true, if_false, childIndex_eq hNode hP hQ, hPointer,
    Option.bind_eq_bind, Option.bind_some, Ptr.asNode]

/-- The search is at the node of the row whose separators the key fits. -/
theorem descent {d : Nat} {above : List NodeId} {row : List Tok} (hUp : Upper o h root d above row)
    (key : UInt64) : ∃ A x B, row = A ++ .node x :: B ∧ StartsAt key A ∧ EndsBefore key B ∧
      ∀ fuel, findLeaf h key (d + fuel) root = findLeaf h key fuel x := by
  induction hUp with
  | top _ =>
    exact ⟨[], root, [], rfl, Or.inl rfl, Or.inl rfl, fun fuel => by rw [Nat.zero_add]⟩
  | @down d above row row' _ hRow ih =>
    obtain ⟨A, x, B, rfl, hStart, hEnd, hFind⟩ := ih
    obtain ⟨PA, w, PB, rfl, hA, hInner, hB⟩ := hRow.mid_inv
    obtain ⟨c, prs, rfl, hNode, _, _⟩ := hInner.node_inv
    obtain ⟨P, Q, rfl, hP, hQ⟩ := split_passing (fun p => p.1 ≤ key) prs
    obtain ⟨As, y, hChild⟩ := weave_last c P
    refine ⟨PA ++ As, y, behind Q ++ PB, by rw [weave_append, hChild]; simp, ?_, ?_, fun fuel => ?_⟩
    · obtain rfl | ⟨P, p, rfl⟩ := List.eq_nil_or_concat P
      · obtain rfl : As = [] := by
          cases As with
          | nil => rfl
          | cons t As => exact absurd (List.cons.inj hChild).2 (by simp)
        rw [List.append_nil]
        obtain rfl | ⟨A, s, rfl, hs⟩ := hStart
        · exact Or.inl hA.nil_inv
        · obtain ⟨PA, w, rfl, _, hSep⟩ := hA.append_inv
          have hLast := hSep.single_inv
          cases hLast
          exact Or.inr ⟨PA, s, rfl, hs⟩
      · rw [List.concat_eq_append] at hChild hP
        have hLast : weave c P ++ [.sep p.1] ++ [.node p.2] = As ++ [.node y] := by
          rw [← hChild, weave_append]
          simp
        obtain ⟨rfl, _⟩ := List.append_inj' hLast rfl
        exact Or.inr ⟨PA ++ weave c P, p.1, by simp, hP p (by simp)⟩
    · obtain rfl | ⟨q, Q, rfl, hq⟩ := hQ
      · obtain rfl | ⟨s, B, rfl, hs⟩ := hEnd
        · exact Or.inl hB.nil_inv
        · obtain ⟨_, PB, rfl, hSep, _⟩ := hB.cons_inv
          cases hSep
          exact Or.inr ⟨s, PB, rfl, hs⟩
      · exact Or.inr ⟨q.1, _, rfl, UInt64.not_le.mp hq⟩
    · rw [show d + 1 + fuel = d + (fuel + 1) by omega, hFind, findLeaf_step hNode hChild hP hQ]

end Descent

section Leaves

/-- The leaf `x` is the one that the search for `key` ends at. -/
structure LeafFor (o : TreeOrder) (h : Heap) (root : NodeId) (key : UInt64) (A : List Tok) (x : NodeId)
    (B IA : List Tok) (es : List (UInt64 × RecId)) (IB : List Tok) (link : Ptr) : Prop where
  before : Expands (Leaf o h root) A IA
  behind : Expands (Leaf o h root) B IB
  node : LeafNode o (h.nodes x) es link
  filled : Filled (cut (o.order - 1)) root x es.length
  starts : StartsAt key IA
  ends : EndsBefore key IB
  found : findLeaf h key (h.nodeBrk + 1) root = some x

theorem leafFor {d : Nat} {above : List NodeId} {row items : List Tok}
    (hShape : Shape o h root d above row items) (key : UInt64) :
    ∃ A x B IA es IB link, row = A ++ .node x :: B ∧ items = IA ++ (slots es ++ IB) ∧
      LeafFor o h root key A x B IA es IB link := by
  obtain ⟨A, x, B, rfl, hStart, hEnd, hFind⟩ := descent hShape.upper key
  obtain ⟨IA, w, IB, rfl, hA, hLeaf, hB⟩ := hShape.leaves.mid_inv
  obtain ⟨es, link, rfl, hNode, hFill⟩ := hLeaf.node_inv
  refine ⟨A, x, B, IA, es, IB, link, rfl, rfl, hA, hB, hNode, hFill, ?_, ?_, ?_⟩
  · obtain rfl | ⟨A, s, rfl, hs⟩ := hStart
    · exact Or.inl hA.nil_inv
    · obtain ⟨IA, w, rfl, _, hSep⟩ := hA.append_inv
      have hLast := hSep.single_inv
      cases hLast
      exact Or.inr ⟨IA, s, rfl, hs⟩
  · obtain rfl | ⟨s, B, rfl, hs⟩ := hEnd
    · exact Or.inl hB.nil_inv
    · obtain ⟨_, IB, rfl, hSep, _⟩ := hB.cons_inv
      cases hSep
      exact Or.inr ⟨s, IB, rfl, hs⟩
  · have hDepth := hShape.upper.depth_le.1
    have hLength := hShape.pool.length_le
    rw [List.length_append] at hLength
    obtain ⟨fuel, hFuel⟩ : ∃ fuel, h.nodeBrk + 1 = d + (fuel + 1) := ⟨h.nodeBrk - d, by omega⟩
    rw [hFuel, hFind, findLeaf, if_pos hNode.isLeaf]

variable {A B IA IB : List Tok} {x : NodeId} {es : List (UInt64 × RecId)} {link : Ptr}

theorem LeafFor.mem_iff (hLeaf : LeafFor o h root key A x B IA es IB link)
    (hSorted : (IA ++ (slots es ++ IB)).Pairwise Tok.Before) (r : RecId) :
    (key, r) ∈ entries (IA ++ (slots es ++ IB)) ↔ (key, r) ∈ es := by
  rw [entries_append, entries_append, entries_slots, List.mem_append, List.mem_append]
  constructor
  · rintro (hIn | hIn | hIn)
    · have hBefore := hLeaf.starts.before (List.pairwise_append.mp hSorted).1 r _ (mem_entries.mp hIn)
      exact absurd hBefore (UInt64.lt_irrefl key)
    · exact hIn
    · have hRest := (List.pairwise_append.mp (List.pairwise_append.mp hSorted).2.1).2.1
      have hAfter := hLeaf.ends.after hRest r _ (mem_entries.mp hIn)
      exact absurd hAfter (UInt64.lt_irrefl key)
  · exact fun hIn => Or.inr (Or.inl hIn)

theorem LeafFor.find_absent (hLeaf : LeafFor o h root key A x B IA es IB link)
    (hAbsent : ∀ r, (key, r) ∉ es) : find h (some root) key = some (some x, none) := by
  obtain ⟨J, hKeys⟩ := hLeaf.node.keys
  have hScan : scan (fun i => (h.nodes x).keys[i]?.map fun k => decide (k ≠ key)) 0
      (h.nodes x).numKeys = some (es.map Prod.fst).length := by
    refine scan_list hKeys (fun k hk => ?_) (Or.inl (by rw [hLeaf.node.numKeys, List.length_map]))
    obtain ⟨⟨_, r⟩, he, rfl⟩ := List.mem_map.mp hk
    refine decide_eq_true fun hEq => hAbsent r ?_
    rwa [← hEq]
  have hEnd : (es.map Prod.fst).length = (h.nodes x).numKeys := by
    rw [hLeaf.node.numKeys, List.length_map]
  simp only [find, hLeaf.found, hScan, Option.bind_eq_bind, Option.bind_some, if_pos hEnd,
    Option.pure_def]

theorem LeafFor.find_present {L R : List (UInt64 × RecId)} {r : RecId}
    (hLeaf : LeafFor o h root key A x B IA (L ++ (key, r) :: R) IB link)
    (hL : key ∉ L.map Prod.fst) : find h (some root) key = some (some x, some r) := by
  obtain ⟨J, hKeys⟩ := hLeaf.node.keys
  obtain ⟨K, hPointers⟩ := hLeaf.node.pointers
  have hSplit : (h.nodes x).keys = L.map Prod.fst ++ key :: (R.map Prod.fst ++ J) := by
    simp [hKeys]
  have hCount : (h.nodes x).numKeys = L.length + (R.length + 1) := by
    rw [hLeaf.node.numKeys, List.length_append, List.length_cons]
  have hScan : scan (fun i => (h.nodes x).keys[i]?.map fun k => decide (k ≠ key)) 0
      (h.nodes x).numKeys = some (L.map Prod.fst).length := by
    refine scan_list hSplit (fun k hk => decide_eq_true (ne_of_mem_of_not_mem hk hL))
      (Or.inr ⟨?_, key, _, rfl, by simp⟩)
    rw [hCount, List.length_map]
    omega
  have hPointer : (h.nodes x).pointers[(L.map Prod.fst).length]? = some (.record r) :=
    getElem?_eq (A := (L.map Prod.snd).map Ptr.record)
      (B := (R.map Prod.snd).map Ptr.record ++ K ++ [link]) (by simp [hPointers]) (by simp)
  have hEnd : (L.map Prod.fst).length ≠ (h.nodes x).numKeys := by
    rw [hCount, List.length_map]
    omega
  simp only [find, hLeaf.found, hScan, Option.bind_eq_bind, Option.bind_some, if_neg hEnd, hPointer,
    Ptr.asRecord, Option.pure_def]

end Leaves

end Trident.Btree
