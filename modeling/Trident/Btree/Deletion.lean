import Trident.Btree.Insertion

/-! # Deletion of an entry -/

namespace Trident.Btree

open Loops Expansion

variable {o : TreeOrder} {h h' : Heap} {root : NodeId} {d : Nat} {above : List NodeId}
  {A B IA IB : List Tok}

section Siblings

variable {l r q : NodeId} {k : UInt64} {L R : List (UInt64 × RecId)} {link link' : Ptr}
  {up : Heap → NodeId → NodeId → UInt64 → Ptr → Option (Heap × Option NodeId)}

theorem coalesceNodes_leaf (hAbsorbs : Absorbs o d up)
    (hUp : Upper o h root d above (A ++ .node l :: .sep k :: .node r :: B))
    (hA : Expands (Leaf o h root) A IA) (hB : Expands (Leaf o h root) B IB)
    (hLeft : LeafNode o (h.nodes l) L link) (hRight : LeafNode o (h.nodes r) R link')
    (hParents : (h.nodes l).parent = some q ∧ (h.nodes r).parent = some q)
    (hSeps : (seps (A ++ .node l :: .sep k :: .node r :: B)).Nodup)
    (hLinked : Linked o h .null (ids (A ++ .node l :: .sep k :: .node r :: B)))
    (hSorted : (IA ++ (slots L ++ .sep k :: (slots R ++ IB))).Pairwise Tok.Before)
    (hPool : NodePool h (above ++ ids (A ++ .node l :: .sep k :: .node r :: B)))
    (hRoom : L.length + R.length ≤ o.order - 1) (hFloor : cut (o.order - 1) ≤ L.length + R.length) :
    ∃ h' root' d' above', coalesceNodes o up h root r l 0 k = some (h', some root') ∧
      Shape o h' root' d' above' (A ++ .node l :: B) (IA ++ (slots (L ++ R) ++ IB)) ∧
      SameRecords h h' := by
  obtain ⟨left, hAppend, hNode, hParent⟩ := appendLeaf_spec hLeft hRight hRoom
  obtain ⟨_, hRow, hApart⟩ := List.nodup_append'.mp hPool.nodup
  obtain ⟨hrl, ⟨hlA, hrA⟩, hlB, hrB⟩ := apart_siblings hRow
  have hRoot := root_notMem_row hUp hApart
  have hl₁ : (h.set l left).nodes l = left := set_nodes_self h l left
  have hSame₁ : ∀ y, y ≠ l → (h.set l left).nodes y = h.nodes y := fun y hy => set_nodes_of_ne h left hy
  have hUp₁ : Upper o (h.set l left) root d above (A ++ .node l :: .sep k :: .node r :: B) := by
    apply hUp.congr
    · exact fun y hy => hSame₁ y fun hEq => hApart hy (by simp [hEq])
    · intro y _
      rcases eq_or_ne y l with hy | hy
      · rw [hy, hl₁, hParent]
      · rw [hSame₁ y hy]
  obtain ⟨h₂, root', d', above', hCall, hUp₂, hPool₂, hFrame⟩ := hAbsorbs.release [] hUp₁
    (by rw [hl₁, hParent, hParents.1]) (by rw [hSame₁ r hrl, hParents.2]) hSeps
    (by rw [List.append_nil]; exact hPool.set (by simp) left)
  have hl₂ : SameBody left (h₂.nodes l) := hl₁ ▸ hFrame.row l (by simp)
  have hAcross : ∀ y ∈ ids A ++ ids B, SameBody (h.nodes y) (h₂.nodes y) := by
    intro y hy
    have hyl : y ≠ l := by
      rintro rfl
      exact (List.mem_append.mp hy).elim hlA hlB
    have hBody := hFrame.row y (by
      simp only [ids_append, ids_cons_node, List.mem_append, List.mem_cons] at hy ⊢
      tauto)
    rwa [hSame₁ y hyl] at hBody
  refine ⟨h₂, root', d', above', ?_, ⟨hUp₂, ?_, ?_, sorted_join hSorted, ?_⟩, ?_⟩
  · rw [← hCall, coalesceNodes, if_neg (show (0 : UInt64) ≠ noNeighbor by decide)]
    simp only [if_pos hRight.isLeaf, hAppend, Option.bind_eq_bind, Option.bind_some, Option.pure_def,
      hParents.2]
  · refine Expands.mid ?_ (.node (hNode.sameBody hl₂) (Or.inl ?_)) ?_
    · exact leaves_congr hA (fun y hy => hAcross y (List.mem_append_left _ hy))
        fun hIn => absurd (by simp [hIn]) hRoot
    · rwa [List.length_append]
    · exact leaves_congr hB (fun y hy => hAcross y (List.mem_append_right _ hy))
        fun hIn => absurd (by simp [hIn]) hRoot
  · simp only [ids_append, ids_cons_node, ids_cons_sep] at hLinked ⊢
    rw [linked_append] at hLinked ⊢
    obtain ⟨hBefore, _, hr, hBehind⟩ := hLinked
    have hLink : link' = firstOf .null (ids B) := Option.some.inj (hRight.last.symm.trans hr)
    refine ⟨linked_congr (fun y hy => ?_) hBefore, ?_, linked_congr (fun y hy => ?_) hBehind⟩
    · rw [(hAcross y (List.mem_append_left _ hy)).pointers]
    · rw [← hLink]
      exact (hNode.sameBody hl₂).last
    · rw [(hAcross y (List.mem_append_right _ hy)).pointers]
  · rwa [List.append_nil] at hPool₂
  · exact (sameRecords_set _ _ _).trans hFrame.records

theorem exchanged_leaves {i : Nat} {n m : NodeId} {node other : Node} {e : UInt64 × RecId}
    {T : List (UInt64 × RecId)} (hSib : Siblings o h root d above A l k r B q i)
    (hA : Expands (Leaf o h root) A IA) (hB : Expands (Leaf o h root) B IB)
    (hEx : Exchanged h h' n m q node other { h.nodes q with keys := (h.nodes q).keys.set i e.1 } [])
    (hSides : n = l ∧ m = r ∨ n = r ∧ m = l)
    (hLeft : LeafNode o (h'.nodes l) L link) (hRight : LeafNode o (h'.nodes r) (e :: T) link')
    (hLast : (h.nodes l).pointers[o.order - 1]? = some link ∧
      (h.nodes r).pointers[o.order - 1]? = some link')
    (hFill : cut (o.order - 1) ≤ L.length ∧ cut (o.order - 1) ≤ (e :: T).length)
    (hParents : (h'.nodes l).parent = (h.nodes l).parent ∧ (h'.nodes r).parent = (h.nodes r).parent)
    (hLinked : Linked o h .null (ids (A ++ .node l :: .sep k :: .node r :: B)))
    (hSorted : (IA ++ (slots (L ++ e :: T) ++ IB)).Pairwise Tok.Before)
    (hPool : NodePool h (above ++ ids (A ++ .node l :: .sep k :: .node r :: B))) :
    Shape o h' root d above (A ++ .node l :: .sep e.1 :: .node r :: B)
      (IA ++ (slots L ++ .sep e.1 :: (slots (e :: T) ++ IB))) := by
  obtain ⟨_, hRow, hApart⟩ := List.nodup_append'.mp hPool.nodup
  obtain ⟨hrl, ⟨hlA, hrA⟩, hlB, hrB⟩ := apart_siblings hRow
  have hqRow : q ∉ ids (A ++ .node l :: .sep k :: .node r :: B) := fun hIn => hApart hSib.mem hIn
  have hOthers : ∀ y, y ≠ l → y ≠ r → y ≠ q → h'.nodes y = h.nodes y := by
    intro y hyl hyr hyq
    obtain ⟨rfl, rfl⟩ | ⟨rfl, rfl⟩ := hSides
    · exact hEx.others y hyl hyr hyq List.not_mem_nil
    · exact hEx.others y hyr hyl hyq List.not_mem_nil
  have hRowSame : ∀ y ∈ ids (A ++ .node l :: .sep k :: .node r :: B), y ≠ l → y ≠ r →
      h'.nodes y = h.nodes y := fun y hy hyl hyr =>
    hOthers y hyl hyr (ne_of_mem_of_not_mem hy hqRow)
  constructor
  · apply hSib.replace h' e.1 hEx.parent
    · intro y hy hyq
      have hyRow : y ∉ ids (A ++ .node l :: .sep k :: .node r :: B) := fun hIn => hApart hy hIn
      exact hOthers y (by rintro rfl; simp at hyRow) (by rintro rfl; simp at hyRow) hyq
    · intro y hy
      rcases eq_or_ne y l with hyl | hyl
      · rw [hyl, hParents.1]
      · rcases eq_or_ne y r with hyr | hyr
        · rw [hyr, hParents.2]
        · rw [hRowSame y hy hyl hyr]
  · have hl : Leaf o h' root (.node l) (slots L) := .node hLeft (Or.inl hFill.1)
    have hr : Leaf o h' root (.node r) (slots (e :: T)) := .node hRight (Or.inl hFill.2)
    refine Expands.mid (w := slots L) ?_ hl (.cons (.sep e.1) (.cons hr ?_))
    · apply leaves_congr hA
      · exact fun y hy => .of_eq (hRowSame y (by simp [hy]) (ne_of_mem_of_not_mem hy hlA)
          (ne_of_mem_of_not_mem hy hrA))
      · exact fun _ => rfl
    · apply leaves_congr hB
      · exact fun y hy => .of_eq (hRowSame y (by simp [hy]) (ne_of_mem_of_not_mem hy hlB)
          (ne_of_mem_of_not_mem hy hrB))
      · exact fun _ => rfl
  · refine linked_congr (h := h) (fun y hy => ?_) (by simpa using hLinked)
    rcases eq_or_ne y l with hyl | hyl
    · rw [hyl, hLeft.last, hLast.1]
    · rcases eq_or_ne y r with hyr | hyr
      · rw [hyr, hRight.last, hLast.2]
      · rw [hRowSame y (by simpa using hy) hyl hyr]
  · have hCut := (cut_pred_bounds o).1
    exact sorted_split (by omega) hSorted
  · have hIds : ids (A ++ .node l :: .sep e.1 :: .node r :: B) =
        ids (A ++ .node l :: .sep k :: .node r :: B) := by simp
    rw [hIds]
    refine hEx.pool hPool ?_ ?_ (List.mem_append_left _ hSib.mem) (by simp)
    · obtain ⟨rfl, _⟩ | ⟨rfl, _⟩ := hSides <;> simp
    · obtain ⟨_, rfl⟩ | ⟨_, rfl⟩ := hSides <;> simp

theorem redistributeLeaves_fromLeft {i : Nat} {e : UInt64 × RecId}
    (hSib : Siblings o h root d above A l k r B q i)
    (hA : Expands (Leaf o h root) A IA) (hB : Expands (Leaf o h root) B IB)
    (hLeft : LeafNode o (h.nodes l) (L ++ [e]) link) (hRight : LeafNode o (h.nodes r) R link')
    (hFill : cut (o.order - 1) ≤ L.length ∧ cut (o.order - 1) ≤ R.length + 1)
    (hRoom : R.length < o.order - 1)
    (hLinked : Linked o h .null (ids (A ++ .node l :: .sep k :: .node r :: B)))
    (hSorted : (IA ++ (slots (L ++ e :: R) ++ IB)).Pairwise Tok.Before)
    (hPool : NodePool h (above ++ ids (A ++ .node l :: .sep k :: .node r :: B))) :
    ∃ h', redistributeNodes h root r l (UInt64.ofNat i) i k = some (h', some root) ∧
      Shape o h' root d above (A ++ .node l :: .sep e.1 :: .node r :: B)
        (IA ++ (slots L ++ .sep e.1 :: (slots (e :: R) ++ IB))) ∧ SameRecords h h' := by
  obtain ⟨node, other, hTake, hNode, hOther, hParent, hParent'⟩ := takeFromLeft_leaf k hRight hLeft hRoom
  obtain ⟨_, hRow, hApart⟩ := List.nodup_append'.mp hPool.nodup
  have hrl := (apart_siblings hRow).1
  have hqNe := (parent_apart hSib.mem hApart).symm
  obtain ⟨hLast, hMax⟩ := hSib.inUse
  have hSide : UInt64.ofNat i ≠ noNeighbor := (ofNat_ne_noNeighbor (by omega)).1
  have hEx := exchanged h node other { h.nodes q with keys := (h.nodes q).keys.set i e.1 } []
    hrl hqNe (by simp)
  have hCall := redistributeNodes_eq root [] (i := i) ((if_pos hSide).trans hTake)
    (Or.inl ⟨rfl, hNode.isLeaf⟩) (hParent.trans hSib.parentRight) hqNe List.not_mem_nil
    (List.getElem?_eq_some_iff.mp hSib.key).1
  refine ⟨_, hCall, ?_, hEx.records⟩
  apply exchanged_leaves hSib hA hB hEx (Or.inr ⟨rfl, rfl⟩) (by rwa [hEx.neighbor])
    (by rwa [hEx.self]) ⟨hLeft.last, hRight.last⟩ (by simpa using hFill) _ hLinked hSorted hPool
  rw [hEx.neighbor, hEx.self]
  exact ⟨hParent', hParent⟩

theorem redistributeLeaves_fromRight {e e' : UInt64 × RecId}
    (hSib : Siblings o h root d above A l k r B q 0)
    (hA : Expands (Leaf o h root) A IA) (hB : Expands (Leaf o h root) B IB)
    (hLeft : LeafNode o (h.nodes l) L link) (hRight : LeafNode o (h.nodes r) (e :: e' :: R) link')
    (hFill : cut (o.order - 1) ≤ L.length + 1 ∧ cut (o.order - 1) ≤ R.length + 1)
    (hRoom : L.length < o.order - 1)
    (hLinked : Linked o h .null (ids (A ++ .node l :: .sep k :: .node r :: B)))
    (hSorted : (IA ++ (slots (L ++ [e] ++ e' :: R) ++ IB)).Pairwise Tok.Before)
    (hPool : NodePool h (above ++ ids (A ++ .node l :: .sep k :: .node r :: B))) :
    ∃ h', redistributeNodes h root l r noNeighbor 0 k = some (h', some root) ∧
      Shape o h' root d above (A ++ .node l :: .sep e'.1 :: .node r :: B)
        (IA ++ (slots (L ++ [e]) ++ .sep e'.1 :: (slots (e' :: R) ++ IB))) ∧ SameRecords h h' := by
  obtain ⟨node, other, hTake, hNode, hOther, hParent, hParent'⟩ := takeFromRight_leaf k hLeft hRight hRoom
  obtain ⟨_, hRow, hApart⟩ := List.nodup_append'.mp hPool.nodup
  have hrl := (apart_siblings hRow).1
  have hqNe := parent_apart hSib.mem hApart
  have hSide : ¬ noNeighbor ≠ noNeighbor := fun hNe => hNe rfl
  have hEx := exchanged h node other { h.nodes q with keys := (h.nodes q).keys.set 0 e'.1 } []
    hrl.symm hqNe (by simp)
  have hCall := redistributeNodes_eq root [] (i := 0) ((if_neg hSide).trans hTake)
    (Or.inl ⟨rfl, hNode.isLeaf⟩) (hParent.trans hSib.parentLeft) hqNe List.not_mem_nil
    (List.getElem?_eq_some_iff.mp hSib.key).1
  refine ⟨_, hCall, ?_, hEx.records⟩
  apply exchanged_leaves hSib hA hB hEx (Or.inl ⟨rfl, rfl⟩) (by rwa [hEx.self])
    (by rwa [hEx.neighbor]) ⟨hLeft.last, hRight.last⟩ (by simpa using hFill) _ hLinked hSorted hPool
  rw [hEx.neighbor, hEx.self]
  exact ⟨hParent, hParent'⟩

end Siblings

section Entries

variable {p : NodeId} {key : UInt64} {node : Node} {es : List (UInt64 × RecId)} {link : Ptr} {r : RecId}

theorem Leaf.filled {x : NodeId} {w : List Tok} (hx : Leaf o h root (.node x) w) (hRoot : x ≠ root) :
    ∃ es link, w = slots es ∧ LeafNode o (h.nodes x) es link ∧ cut (o.order - 1) ≤ es.length := by
  obtain ⟨es, link, rfl, hNode, hMin⟩ := hx.node_inv
  exact ⟨es, link, rfl, hNode, hMin.resolve_right fun hBoth => hRoot hBoth.1⟩

/-- A leaf that has lost an entry it cannot spare. -/
theorem rebalance_leaf {fuel : Nat} {pointer : Ptr} (hFuel : d ≤ fuel)
    (hRemove : removeEntryFromNode o (h.nodes p) key pointer = some node) (hp : p ≠ root)
    (hUp : Upper o (h.set p node) root d above (A ++ .node p :: B))
    (hA : Expands (Leaf o (h.set p node) root) A IA) (hB : Expands (Leaf o (h.set p node) root) B IB)
    (hNode : LeafNode o node es link)
    (hThin : es.length < cut (o.order - 1) ∧ cut (o.order - 1) ≤ es.length + 1)
    (hLinked : Linked o (h.set p node) .null (ids (A ++ .node p :: B)))
    (hSorted : (IA ++ (slots es ++ IB)).Pairwise Tok.Before)
    (hPool : NodePool (h.set p node) (above ++ ids (A ++ .node p :: B))) :
    ∃ h' root' d' above' row' items', deleteEntry o (fuel + 1) h root p key pointer = some (h', some root') ∧
      Shape o h' root' d' above' row' items' ∧ entries items' = entries (IA ++ (slots es ++ IB)) ∧
      SameRecords (h.set p node) h' := by
  obtain ⟨hCutMin, hCutMax, hCutHalf⟩ := cut_pred_bounds o
  have hSelf : (h.set p node).nodes p = node := set_nodes_self h p node
  have hCount : node.numKeys < if node.isLeaf then cut (o.order - 1) else cut o.order - 1 := by
    simp only [if_pos hNode.isLeaf, hNode.numKeys]
    exact hThin.1
  have hSeps : (seps (A ++ .node p :: B)).Nodup := by
    have hLeaves : seps (IA ++ (slots es ++ IB)) = seps (A ++ .node p :: B) := by
      simp only [seps_append, seps_cons_node, seps_slots, seps_leaves hA, seps_leaves hB,
        List.nil_append]
    rw [← hLeaves]
    exact seps_nodup hSorted
  have hAbsorbs : Absorbs o d (deleteEntry o fuel) := deleteEntry_spec d fuel hFuel
  obtain ⟨k, r, B', q, rfl, hSib⟩ | ⟨A', l, k, q, i, rfl, hSib⟩ := siblings_cases hUp hp hPool.nodup
  · obtain ⟨_, IB', rfl, hSep, hRest⟩ := hB.cons_inv
    obtain ⟨_, IB', rfl, hLeaf, hB'⟩ := hRest.cons_inv
    cases hSep
    have hRoot := root_notMem_row hUp (List.nodup_append'.mp hPool.nodup).2.2
    obtain ⟨R, link', rfl, hRight, hFull⟩ := hLeaf.filled (by rintro rfl; simp at hRoot)
    rw [deleteEntry_right hRemove hp hCount hSib, hRight.numKeys, hNode.numKeys]
    simp only [if_pos hNode.isLeaf]
    by_cases hRoom : R.length + es.length < o.order
    · rw [if_pos hRoom, coalesceNodes_right]
      obtain ⟨h', root', d', above', hCall, hShape, hRecords⟩ := coalesceNodes_leaf hAbsorbs hUp hA hB'
        (by rwa [hSelf]) hRight ⟨hSib.parentLeft, hSib.parentRight⟩ hSeps hLinked hSorted hPool
        (by omega) (by omega)
      exact ⟨h', root', d', above', _, _, hCall, hShape, by simp, hRecords⟩
    · rw [if_neg hRoom]
      obtain ⟨e, e', R, rfl⟩ : ∃ e e' T, R = e :: e' :: T := by
        match R with
        | [] => simp at hRoom; omega
        | [_] => simp at hRoom; omega
        | e :: e' :: T => exact ⟨e, e', T, rfl⟩
      simp only [List.length_cons] at hRoom
      obtain ⟨h', hCall, hShape, hRecords⟩ := redistributeLeaves_fromRight hSib hA hB'
        (by rwa [hSelf]) hRight (by omega) (by omega) hLinked
        (by have hJoined := sorted_join hSorted; simpa using hJoined) hPool
      exact ⟨h', root, d, above, _, _, hCall, hShape, by simp, hRecords⟩
  · have hRow₀ : A' ++ [.node l, .sep k] ++ .node p :: B = A' ++ .node l :: .sep k :: .node p :: B := by
      simp
    rw [hRow₀] at hUp hPool hSeps hLinked
    obtain ⟨IA', _, rfl, hA', hRest⟩ := hA.append_inv
    obtain ⟨_, _, rfl, hLeaf, hRest⟩ := hRest.cons_inv
    have hSep := hRest.single_inv
    cases hSep
    have hRoot := root_notMem_row hUp (List.nodup_append'.mp hPool.nodup).2.2
    obtain ⟨L, link', rfl, hLeft, hFull⟩ := hLeaf.filled (by rintro rfl; simp at hRoot)
    have hItems : IA' ++ (slots L ++ [.sep k]) ++ (slots es ++ IB) =
        IA' ++ (slots L ++ .sep k :: (slots es ++ IB)) := by simp
    rw [hItems] at hSorted ⊢
    obtain ⟨hLast, hMax⟩ := hSib.inUse
    rw [deleteEntry_left hRemove hp hCount hSib, hLeft.numKeys, hNode.numKeys]
    simp only [if_pos hNode.isLeaf]
    by_cases hRoom : L.length + es.length < o.order
    · rw [if_pos hRoom, coalesceNodes_left _ _ _ _ _ _ (by omega)]
      obtain ⟨h', root', d', above', hCall, hShape, hRecords⟩ := coalesceNodes_leaf hAbsorbs hUp hA' hB
        hLeft (by rwa [hSelf]) ⟨hSib.parentLeft, hSib.parentRight⟩ hSeps hLinked hSorted hPool
        (by omega) (by omega)
      exact ⟨h', root', d', above', _, _, hCall, hShape, by simp, hRecords⟩
    · rw [if_neg hRoom]
      obtain rfl | ⟨L, e, rfl⟩ := List.eq_nil_or_concat L
      · rw [List.length_nil] at hRoom
        omega
      · rw [List.concat_eq_append] at *
        rw [List.length_append, List.length_singleton] at hRoom
        obtain ⟨h', hCall, hShape, hRecords⟩ := redistributeLeaves_fromLeft hSib hA' hB hLeft
          (by rwa [hSelf]) (by omega) (by omega) hLinked
          (by have hJoined := sorted_join hSorted; simpa using hJoined) hPool
        exact ⟨h', root, d, above, _, _, hCall, hShape, by simp, hRecords⟩

theorem deleteEntry_tree {L R : List (UInt64 × RecId)} {x : NodeId}
    (hShape : Shape o h root d above (A ++ .node x :: B) (IA ++ (slots (L ++ (key, r) :: R) ++ IB)))
    (hLeaf : LeafFor o h root key A x B IA (L ++ (key, r) :: R) IB link)
    (hKey : key ∉ L.map Prod.fst) (hRec : r ∉ L.map Prod.snd) :
    ∃ h' root', deleteEntry o (h.nodeBrk + 1) h root x key (.record r) = some (h', root') ∧
      TreeOf o h' root' (entries (IA ++ (slots (L ++ R) ++ IB))) ∧ SameRecords h h' := by
  obtain ⟨node, hRemove, hNode, hParent⟩ := removeEntry_leaf hLeaf.node hKey hRec
  obtain ⟨hUp, hA, hB, hLinked, hPool⟩ := set_leaf_rows hShape hLeaf hNode hParent
  have hLength : (L ++ (key, r) :: R).length = (L ++ R).length + 1 := by
    simp only [List.length_append, List.length_cons]
    omega
  have hSorted : (IA ++ (slots (L ++ R) ++ IB)).Pairwise Tok.Before := by
    refine hShape.sorted.sublist (List.Sublist.append_left (List.Sublist.append_right ?_ _) _)
    rw [slots_append, slots_append, slots_cons]
    exact List.Sublist.append_left (List.sublist_cons_self _ _) _
  have hKeep : Filled (cut (o.order - 1)) root x (L ++ R).length →
      TreeOf o (h.set x node) (some root) (entries (IA ++ (slots (L ++ R) ++ IB))) := fun hFill =>
    ⟨d, above, _, _, set_leaf hShape hLeaf hNode hFill hParent hSorted, rfl⟩
  rcases eq_or_ne x root with hRoot | hRoot
  · subst hRoot
    rw [deleteEntry, hRemove]
    simp only [Option.bind_eq_bind, Option.bind_some, if_true]
    by_cases hSome : 0 < (L ++ R).length
    · refine ⟨h.set x node, some x, ?_, hKeep (Or.inr ⟨rfl, hSome⟩), sameRecords_set _ _ _⟩
      rw [adjustRoot, if_pos (by rwa [set_nodes_self, hNode.numKeys])]
    · have hNone : L ++ R = [] := List.eq_nil_of_length_eq_zero (by omega)
      rw [hNone] at hNode ⊢
      obtain ⟨_, rfl, hSingle⟩ | ⟨_, hMem⟩ := hUp.root_cases
      · obtain ⟨rfl, hSingle⟩ | ⟨_, hSingle⟩ := List.append_eq_singleton_iff.mp hSingle
        · obtain ⟨_, rfl⟩ := List.cons.inj hSingle
          obtain rfl := hA.nil_inv
          obtain rfl := hB.nil_inv
          obtain ⟨hPool', hRecords, _⟩ := releaseNode_spec hPool
          refine ⟨releaseNode (h.set x node) x, none, ?_, ⟨hPool', rfl⟩,
            (sameRecords_set _ _ _).trans hRecords⟩
          have hEmpty : ¬ 0 < node.numKeys := by simp [hNode.numKeys]
          rw [adjustRoot, set_nodes_self, if_neg hEmpty, if_pos hNode.isLeaf]
        · simp at hSingle
      · exact absurd (show x ∈ ids (A ++ .node x :: B) by simp)
          ((List.nodup_append'.mp hPool.nodup).2.2 hMem)
  · by_cases hEnough : cut (o.order - 1) ≤ (L ++ R).length
    · refine ⟨h.set x node, some root, ?_, hKeep (Or.inl hEnough), sameRecords_set _ _ _⟩
      rw [deleteEntry, hRemove]
      simp only [Option.bind_eq_bind, Option.bind_some, if_neg hRoot, if_pos hNode.isLeaf,
        hNode.numKeys, if_pos hEnough, Option.pure_def]
    · have hFloor := hLeaf.filled.resolve_right fun hBoth => hRoot hBoth.1
      have hFuel : d ≤ h.nodeBrk := by
        have hDepth := hShape.upper.depth_le.1
        have hAll := hShape.pool.length_le
        rw [List.length_append] at hAll
        omega
      obtain ⟨h', root', d', above', row', items', hCall, hShape', hEntries, hRecords⟩ :=
        rebalance_leaf hFuel hRemove hRoot hUp hA hB hNode ⟨by omega, by omega⟩ hLinked hSorted hPool
      exact ⟨h', some root', hCall, ⟨d', above', row', items', hShape', hEntries⟩,
        (sameRecords_set _ _ _).trans hRecords⟩

end Entries

end Trident.Btree
