import Trident.Btree.Search

/-! # Insertion of an entry -/

namespace Trident.Btree

open Loops Expansion

variable {o : TreeOrder} {h : Heap} {root x : NodeId} {key : UInt64} {d : Nat} {above : List NodeId}
  {A B IA IB : List Tok} {es : List (UInt64 × RecId)} {link : Ptr}

section Place

/-- The place of a new key among the entries of its leaf. -/
theorem split_entries (hLeaf : LeafFor o h root key A x B IA es IB link)
    (hSorted : (IA ++ (slots es ++ IB)).Pairwise Tok.Before) (hAbsent : ∀ r, (key, r) ∉ es) (r : RecId) :
    ∃ L R, es = L ++ R ∧ (∀ e ∈ L, e.1 < key) ∧ (∀ e ∈ R, ¬ e.1 < key) ∧
      (IA ++ (slots (L ++ (key, r) :: R) ++ IB)).Pairwise Tok.Before := by
  obtain ⟨L, R, rfl, hL, hR⟩ := split_passing (fun e => e.1 < key) es
  have hAfter : ∀ e ∈ R, key < e.1 := by
    obtain rfl | ⟨e, R, rfl, he⟩ := hR
    · simp
    · have hLt : key < e.1 := by
        refine UInt64.lt_of_le_of_ne (UInt64.not_lt.mp he) fun hEq => hAbsent e.2 ?_
        rw [hEq]
        simp
      have hTail := (List.pairwise_append.mp (List.pairwise_append.mp hSorted).2.1).1
      rw [slots_append, slots_cons, List.pairwise_append, List.pairwise_cons] at hTail
      intro e' he'
      obtain rfl | he' := List.mem_cons.mp he'
      · exact hLt
      · exact UInt64.lt_trans hLt (hTail.2.1.1 _ (List.mem_map_of_mem he'))
  refine ⟨L, R, rfl, hL, fun e he hLt => UInt64.lt_irrefl key (UInt64.lt_trans (hAfter e he) hLt), ?_⟩
  obtain ⟨hIA, hRest, hAcross⟩ := List.pairwise_append.mp hSorted
  have hStart := hLeaf.starts.before hIA r
  have hEnd := hLeaf.ends.after (List.pairwise_append.mp hRest).2.1 r
  have hFirst : ∀ t ∈ IA ++ slots L, t.Before (.entry key r) := by
    intro t ht
    obtain ht | ht := List.mem_append.mp ht
    · exact hStart t ht
    · obtain ⟨e, he, rfl⟩ := List.mem_map.mp ht
      exact hL e he
  have hLast : ∀ t ∈ slots R ++ IB, (Tok.entry key r).Before t := by
    intro t ht
    obtain ht | ht := List.mem_append.mp ht
    · obtain ⟨e, he, rfl⟩ := List.mem_map.mp ht
      exact hAfter e he
    · exact hEnd t ht
  have hSplit : IA ++ (slots (L ++ R) ++ IB) = (IA ++ slots L) ++ (slots R ++ IB) := by simp
  have hTarget : IA ++ (slots (L ++ (key, r) :: R) ++ IB) =
      (IA ++ slots L) ++ .entry key r :: (slots R ++ IB) := by simp
  rw [hSplit] at hSorted
  rw [hTarget]
  obtain ⟨hLow, hHigh, hCross⟩ := List.pairwise_append.mp hSorted
  rw [List.pairwise_append, List.pairwise_cons]
  refine ⟨hLow, ⟨hLast, hHigh⟩, fun t ht u hu => ?_⟩
  obtain rfl | hu := List.mem_cons.mp hu
  · exact hFirst t ht
  · exact hCross t ht u hu

theorem perm_entry (IA IB : List Tok) (key : UInt64) (r : RecId) (L R : List (UInt64 × RecId)) :
    (entries (IA ++ (slots (L ++ (key, r) :: R) ++ IB))).Perm
      ((key, r) :: entries (IA ++ (slots (L ++ R) ++ IB))) := by
  simp only [entries_append, entries_slots]
  rw [List.perm_iff_count]
  intro y
  simp only [List.count_append, List.count_cons]
  omega

end Place

section Steps

theorem set_leaf_rows {n : Node} {es' : List (UInt64 × RecId)}
    (hShape : Shape o h root d above (A ++ .node x :: B) (IA ++ (slots es ++ IB)))
    (hLeaf : LeafFor o h root key A x B IA es IB link) (hNode : LeafNode o n es' link)
    (hParent : n.parent = (h.nodes x).parent) :
    Upper o (h.set x n) root d above (A ++ .node x :: B) ∧
      Expands (Leaf o (h.set x n) root) A IA ∧ Expands (Leaf o (h.set x n) root) B IB ∧
      Linked o (h.set x n) .null (ids (A ++ .node x :: B)) ∧
      NodePool (h.set x n) (above ++ ids (A ++ .node x :: B)) := by
  obtain ⟨_, hRow, hApart⟩ := List.nodup_append'.mp hShape.pool.nodup
  have hOut : x ∉ ids A ∧ x ∉ ids B := by
    rw [ids_append, ids_cons_node, List.nodup_middle, List.nodup_cons, List.mem_append, not_or]
      at hRow
    exact hRow.1
  have hSame : ∀ y, y ≠ x → (h.set x n).nodes y = h.nodes y := fun y hy => set_nodes_of_ne h n hy
  refine ⟨?_, ?_, ?_, ?_, hShape.pool.set (by simp) n⟩
  · apply hShape.upper.congr
    · exact fun y hy => hSame y fun hEq => hApart hy (by simp [hEq])
    · intro y _
      rcases eq_or_ne y x with hy | hy
      · rw [hy, set_nodes_self, hParent]
      · rw [hSame y hy]
  · apply leaves_congr hLeaf.before
    · exact fun y hy => .of_eq (hSame y (ne_of_mem_of_not_mem hy hOut.1))
    · exact fun _ => rfl
  · apply leaves_congr hLeaf.behind
    · exact fun y hy => .of_eq (hSame y (ne_of_mem_of_not_mem hy hOut.2))
    · exact fun _ => rfl
  · refine linked_congr (fun y _ => ?_) hShape.linked
    rcases eq_or_ne y x with hy | hy
    · rw [hy, set_nodes_self, hNode.last, hLeaf.node.last]
    · rw [hSame y hy]

theorem set_leaf {n : Node} {es' : List (UInt64 × RecId)}
    (hShape : Shape o h root d above (A ++ .node x :: B) (IA ++ (slots es ++ IB)))
    (hLeaf : LeafFor o h root key A x B IA es IB link) (hNode : LeafNode o n es' link)
    (hFill : Filled (cut (o.order - 1)) root x es'.length) (hParent : n.parent = (h.nodes x).parent)
    (hSorted : (IA ++ (slots es' ++ IB)).Pairwise Tok.Before) :
    Shape o (h.set x n) root d above (A ++ .node x :: B) (IA ++ (slots es' ++ IB)) := by
  obtain ⟨hUp, hA, hB, hLinked, hPool⟩ := set_leaf_rows hShape hLeaf hNode hParent
  exact ⟨hUp, Expands.mid hA (.node (by rwa [set_nodes_self]) hFill) hB, hLinked, hSorted, hPool⟩

theorem insertIntoLeaf_shape (r : RecId)
    (hShape : Shape o h root d above (A ++ .node x :: B) (IA ++ (slots es ++ IB)))
    (hLeaf : LeafFor o h root key A x B IA es IB link) (hAbsent : ∀ q, (key, q) ∉ es)
    (hRoom : es.length < o.order - 1) :
    ∃ n' L R, es = L ++ R ∧ (∀ e ∈ L, e.1 < key) ∧ (∀ e ∈ R, ¬ e.1 < key) ∧
      insertIntoLeaf (h.nodes x) key (.record r) = some n' ∧
      Shape o (h.set x n') root d above (A ++ .node x :: B)
        (IA ++ (slots (L ++ (key, r) :: R) ++ IB)) := by
  obtain ⟨L, R, rfl, hL, hR, hSorted⟩ := split_entries hLeaf hShape.sorted hAbsent r
  obtain ⟨n', hCall, hNode, hParent⟩ := insertIntoLeaf_spec r hLeaf.node hL hR hRoom
  refine ⟨n', L, R, rfl, hL, hR, hCall,
    set_leaf hShape hLeaf hNode (hLeaf.filled.mono ?_) hParent hSorted⟩
  simp only [List.length_append, List.length_cons]
  omega

theorem insertIntoLeafAfterSplitting_shape (r : RecId)
    (hShape : Shape o h root d above (A ++ .node x :: B) (IA ++ (slots es ++ IB)))
    (hLeaf : LeafFor o h root key A x B IA es IB link) (hAbsent : ∀ q, (key, q) ∉ es)
    (hFull : es.length = o.order - 1) :
    ∃ h' root' d' above' row' L R S e T, es = L ++ R ∧ (∀ e ∈ L, e.1 < key) ∧
      (∀ e ∈ R, ¬ e.1 < key) ∧ L ++ (key, r) :: R = S ++ e :: T ∧ S.length = cut (o.order - 1) ∧
      insertIntoLeafAfterSplitting o h root x key (.record r) = some (h', root') ∧
      Shape o h' root' d' above' row'
        (IA ++ (slots S ++ ([.sep e.1] ++ (slots (e :: T) ++ IB)))) ∧ SameRecords h h' := by
  obtain ⟨L, R, rfl, hL, hR, hSorted⟩ := split_entries hLeaf hShape.sorted hAbsent r
  obtain ⟨hCutMin, hCutMax, hCutHalf⟩ := cut_pred_bounds o
  obtain ⟨h₁, y, hMake, hPool₁, hNew, hRecords, hy, hLive⟩ := makeLeaf_spec o hShape.pool
  have hTemps := leafTemps_spec r hLeaf.node hL hR hFull
  have hTotal : (L ++ (key, r) :: R).length = o.order := by
    have hMin := o.min
    rw [List.length_append, List.length_cons] at *
    omega
  generalize hAll : L ++ (key, r) :: R = all at hTemps hTotal hSorted
  obtain ⟨S, e, T, rfl, hS⟩ : ∃ S e T, all = S ++ e :: T ∧ S.length = cut (o.order - 1) := by
    have hIn : cut (o.order - 1) < all.length := by omega
    refine ⟨all.take (cut (o.order - 1)), all[cut (o.order - 1)], all.drop (cut (o.order - 1) + 1), ?_,
      by rw [List.length_take]; omega⟩
    exact (List.take_append_drop _ _).symm.trans (congrArg _ (List.drop_eq_getElem_cons hIn))
  have hT : (e :: T).length = o.order - cut (o.order - 1) := by
    rw [List.length_append, hS] at hTotal
    omega
  obtain ⟨left, right, hDeal, hLeft, hRight, hParent, hParent'⟩ :=
    dealLeaf_spec y hLeaf.node hy hFull hS hT
  obtain ⟨_, hRow, hApart⟩ := List.nodup_append'.mp hShape.pool.nodup
  have hOut : x ∉ ids A ∧ x ∉ ids B := by
    rw [ids_append, ids_cons_node, List.nodup_middle, List.nodup_cons, List.mem_append, not_or]
      at hRow
    exact hRow.1
  have hRoot := root_notMem_beside hShape.upper hShape.pool.nodup
  have hxLive : x ∈ above ++ ids (A ++ .node x :: B) := by simp
  have hxy : x ≠ y := ne_of_mem_of_not_mem hxLive hNew
  generalize hSplit : (h₁.set x left).set y right = h₂
  have hx₂ : h₂.nodes x = left := by
    rw [← hSplit, set_nodes_of_ne _ _ hxy, set_nodes_self]
  have hy₂ : h₂.nodes y = right := by
    rw [← hSplit, set_nodes_self]
  have hSame₂ : ∀ z ∈ above ++ ids (A ++ .node x :: B), z ≠ x → h₂.nodes z = h.nodes z := by
    intro z hz hzx
    rw [← hSplit, set_nodes_of_ne _ _ (ne_of_mem_of_not_mem hz hNew), set_nodes_of_ne _ _ hzx,
      hLive z hz]
  have hUp₂ : Upper o h₂ root d above (A ++ .node x :: B) := by
    apply hShape.upper.congr
    · exact fun z hz => hSame₂ z (List.mem_append_left _ hz) fun hEq => hApart hz (by simp [hEq])
    · intro z hz
      rcases eq_or_ne z x with hzx | hzx
      · rw [hzx, hx₂, hParent]
      · rw [hSame₂ z (List.mem_append_right _ hz) hzx]
  have hPool₂ : NodePool h₂ (above ++ (ids (A ++ .node x :: B) ++ y :: [])) := by
    have hPerm₂ : (y :: (above ++ ids (A ++ .node x :: B))).Perm
        (above ++ (ids (A ++ .node x :: B) ++ y :: [])) := by
      rw [List.perm_iff_count]
      intro z
      simp only [List.count_append, List.count_cons, List.count_nil]
      omega
    rw [← hSplit]
    exact ((hPool₁.set (List.mem_cons_of_mem y hxLive) left).set List.mem_cons_self right).perm hPerm₂
  have hFuel : d < h₂.nodeBrk + 1 := by
    have hDepth := hShape.upper.depth_le.1
    have hLength := hPool₂.length_le
    rw [List.length_append] at hLength
    omega
  obtain ⟨h₃, root', d', above', hCall, hUp₃, hPool₃, hFrame⟩ := insertIntoParent_spec e.1 hUp₂
    (by rw [hx₂, hy₂, hParent, hParent']) hPool₂ hFuel
  have hx₃ : SameBody left (h₃.nodes x) := hx₂ ▸ hFrame.row x (by simp)
  have hy₃ : SameBody right (h₃.nodes y) := hy₂ ▸ hFrame.row y List.mem_cons_self
  have hAcross : ∀ z ∈ ids A ++ ids B, SameBody (h.nodes z) (h₃.nodes z) := by
    intro z hz
    have hzRow : z ∈ ids (A ++ .node x :: B) := by
      simp only [ids_append, ids_cons_node, List.mem_append, List.mem_cons] at hz ⊢
      tauto
    have hzx : z ≠ x := by
      rintro rfl
      exact (List.mem_append.mp hz).elim hOut.1 hOut.2
    have hBefore := SameBody.of_eq (hSame₂ z (List.mem_append_right _ hzRow) hzx)
    exact hBefore.trans (hFrame.row z (List.mem_cons_of_mem y hzRow))
  have hKey : right.keys[0]? = some e.1 := by
    obtain ⟨J, hKeys⟩ := hRight.keys
    rw [hKeys]
    rfl
  refine ⟨h₃, root', d', above', _, L, R, S, e, T, rfl, hL, hR, hAll, hS, ?_, ⟨hUp₃, ?_, ?_, ?_, ?_⟩, ?_⟩
  · rw [insertIntoLeafAfterSplitting, hMake]
    simp only [Option.bind_eq_bind, Option.bind_some, hLive x hxLive, hTemps, hDeal, hSplit, hKey, hCall]
  · refine Expands.mid ?_ (.node (hLeft.sameBody hx₃) (Or.inl hS.ge))
      (.cons (.sep e.1) (.cons (.node (hRight.sameBody hy₃) (Or.inl (hT ▸ hCutHalf))) ?_))
    · exact leaves_congr hLeaf.before (fun z hz => hAcross z (List.mem_append_left _ hz))
        fun hIn => absurd hIn hRoot.1
    · exact leaves_congr hLeaf.behind (fun z hz => hAcross z (List.mem_append_right _ hz))
        fun hIn => absurd hIn hRoot.2
  · have hLinked := hShape.linked
    simp only [ids_append, ids_cons_node, ids_cons_sep] at hLinked ⊢
    rw [linked_append] at hLinked ⊢
    obtain ⟨hA, hx, hB⟩ := hLinked
    have hLink : link = firstOf .null (ids B) := Option.some.inj (hLeaf.node.last.symm.trans hx)
    refine ⟨linked_congr (fun z hz => ?_) hA, ?_, ?_, linked_congr (fun z hz => ?_) hB⟩
    · rw [(hAcross z (List.mem_append_left _ hz)).pointers]
    · exact (hLeft.sameBody hx₃).last
    · rw [← hLink]
      exact (hRight.sameBody hy₃).last
    · rw [(hAcross z (List.mem_append_right _ hz)).pointers]
  · exact sorted_split (by omega) hSorted
  · apply hPool₃.perm
    rw [List.perm_iff_count]
    intro z
    simp only [ids_append, ids_cons_node, ids_cons_sep, List.count_append, List.count_cons,
      List.count_nil]
    omega
  · refine SameRecords.trans ?_ hFrame.records
    rw [← hSplit]
    exact hRecords.trans ((sameRecords_set _ _ _).trans (sameRecords_set _ _ _))

theorem startNewTree_shape (key : UInt64) (r : RecId) (hPool : NodePool h []) :
    ∃ h' root, startNewTree o h key (.record r) = some (h', root) ∧
      Shape o h' root 0 [] [.node root] [.entry key r] ∧ SameRecords h h' := by
  obtain ⟨h₁, x, hMake, hPool₁, _, hRecords, hx, _⟩ := makeLeaf_spec o hPool
  have hMin := o.min
  obtain ⟨m, hm⟩ : ∃ m, o.order = m + 2 := ⟨o.order - 2, by omega⟩
  have hKeys : (h₁.nodes x).keys = [] ++ 0 :: List.replicate m 0 := by
    rw [hx, freshNode, hm]
    rfl
  have hPointers : (h₁.nodes x).pointers = [] ++ .null :: (List.replicate m .null ++ [.null]) := by
    rw [hx, freshNode, hm, ← List.replicate_succ']
    rfl
  have hKey := store_eq hKeys (i := 0) rfl key
  have hFirst := store_eq hPointers (i := 0) rfl (.record r)
  have hLast : store ([] ++ Ptr.record r :: (List.replicate m .null ++ [.null])) (o.order - 1) .null =
      some (.record r :: List.replicate m .null ++ .null :: []) :=
    store_eq (A := Ptr.record r :: List.replicate m Ptr.null) (B := []) rfl (by simp [hm]) _
  generalize hRoot : ({ h₁.nodes x with
      keys := [] ++ key :: List.replicate m 0
      pointers := .record r :: List.replicate m .null ++ .null :: []
      parent := none, numKeys := (h₁.nodes x).numKeys + 1 } : Node) = n
  have hNode : LeafNode o n [(key, r)] .null := by
    rw [← hRoot, hx]
    constructor
    · rfl
    · rfl
    · exact ⟨List.replicate m 0, rfl⟩
    · exact ⟨List.replicate m .null, rfl⟩
    · simp [hm]
    · simp [hm]
  refine ⟨h₁.set x n, x, ?_, ⟨?_, ?_, ?_, ?_, ?_⟩, hRecords.trans (sameRecords_set _ _ _)⟩
  · rw [startNewTree, hMake]
    simp only [hKey, hFirst, hLast, Option.bind_eq_bind, Option.bind_some, Option.pure_def]
    rw [← hRoot]
  · apply Upper.top
    rw [set_nodes_self, ← hRoot]
  · have hLeaf : LeafNode o ((h₁.set x n).nodes x) [(key, r)] .null := by rwa [set_nodes_self]
    exact .single (.node hLeaf (Or.inr ⟨rfl, le_refl 1⟩))
  · refine ⟨?_, trivial⟩
    rw [set_nodes_self]
    exact hNode.last
  · exact List.pairwise_singleton _ _
  · exact hPool₁.set List.mem_cons_self n

end Steps

end Trident.Btree
