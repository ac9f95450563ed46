import Trident.Btree.NodeSpecs

/-! # What deletion does to the contents of a node -/

namespace Trident.Btree

open Loops

section Deletion

variable {o : TreeOrder}

/-- The loops that take a key out of an array and close the gap. -/
theorem removeCell {α : Type} [DecidableEq α] {l A B J : List α} {a : α} {m : Nat}
    (hl : l = A ++ a :: (B ++ J)) (hA : a ∉ A) (hm : m - (A.length + 1) = B.length) :
    scan (fun i => l[i]?.map fun b => decide (b ≠ a)) 0 (l.length + 1) = some A.length ∧
      ∃ b, forUp (fun i bs => copyCell bs (i - 1) bs i) (A.length + 1) (m - (A.length + 1)) l =
        some (A ++ B ++ b :: J) := by
  constructor
  · refine scan_list hl (fun b hb => ?_) (Or.inr ⟨?_, a, _, rfl, by simp⟩)
    · exact decide_eq_true (ne_of_mem_of_not_mem hb hA)
    · rw [hl, List.length_append, List.length_cons]
      omega
  · rw [hm, hl]
    exact forUp_shift A B a J fun k _ l => by
      rw [show A.length + 1 + k - 1 = A.length + k by omega,
        show A.length + 1 + k = A.length + k + 1 by omega]

theorem removeEntry_leaf {n : Node} {A B : List (UInt64 × RecId)} {key : UInt64} {r : RecId}
    {link : Ptr} (h : LeafNode o n (A ++ (key, r) :: B) link) (hKey : key ∉ A.map Prod.fst)
    (hRec : r ∉ A.map Prod.snd) :
    ∃ n', removeEntryFromNode o n key (.record r) = some n' ∧ LeafNode o n' (A ++ B) link ∧
      n'.parent = n.parent := by
  obtain ⟨J, hKeys⟩ := h.keys
  obtain ⟨K, hPointers⟩ := h.pointers
  have hKeysLength := h.keysLength
  have hPointersLength := h.pointersLength
  have hCount : n.numKeys = A.length + B.length + 1 := by
    rw [h.numKeys, List.length_append, List.length_cons]
    omega
  have hRec' : Ptr.record r ∉ (A.map Prod.snd).map Ptr.record := by
    intro hMem
    obtain ⟨q, hq, hEq⟩ := List.mem_map.mp hMem
    exact hRec (Ptr.record.inj hEq ▸ hq)
  obtain ⟨hScan, x, hShift⟩ := removeCell (l := n.keys) (A := A.map Prod.fst) (B := B.map Prod.fst)
    (J := J) (a := key) (m := n.numKeys) (by simp [hKeys]) hKey (by simp [hCount])
  obtain ⟨hScan', y, hShift'⟩ := removeCell (l := n.pointers) (A := (A.map Prod.snd).map Ptr.record)
    (B := (B.map Prod.snd).map Ptr.record) (J := K ++ [link]) (a := .record r) (m := n.numKeys)
    (by simp [hPointers]) hRec' (by simp [hCount])
  rw [List.length_map] at hScan hShift
  rw [List.length_map, List.length_map] at hScan' hShift'
  rw [hKeys] at hKeysLength
  rw [hPointers] at hPointersLength
  simp at hKeysLength hPointersLength
  have hClear := clearLeaf
    (U := (A.map Prod.snd).map Ptr.record ++ (B.map Prod.snd).map Ptr.record) (W := y :: K)
    (p := link) (i := n.numKeys - 1) (m := o.order - 1 - (n.numKeys - 1))
    (by simp [hCount]) (by simp [hCount]; omega)
  rw [show (A.map Prod.snd).map Ptr.record ++ (B.map Prod.snd).map Ptr.record ++ y :: K ++ [link] =
    (A.map Prod.snd).map Ptr.record ++ (B.map Prod.snd).map Ptr.record ++ y :: (K ++ [link]) by simp]
    at hClear
  refine ⟨{ n with
      keys := A.map Prod.fst ++ B.map Prod.fst ++ x :: J
      pointers := (A.map Prod.snd).map Ptr.record ++ (B.map Prod.snd).map Ptr.record ++
        List.replicate (o.order - 1 - (n.numKeys - 1)) .null ++ [link]
      numKeys := n.numKeys - 1 }, ?_, ?_, rfl⟩
  · simp only [removeEntryFromNode, h.isLeaf, if_true, hScan, hShift, hScan', hShift', hClear,
      Option.bind_eq_bind, Option.bind_some, Option.pure_def]
  · constructor
    · exact h.isLeaf
    · simp [hCount]
    · exact ⟨x :: J, by simp⟩
    · exact ⟨List.replicate (o.order - 1 - (n.numKeys - 1)) .null, by simp⟩
    · simp
      omega
    · simp [hCount]
      omega

theorem removeEntry_node {n : Node} {c x : NodeId} {A B : List (UInt64 × NodeId)} {key : UInt64}
    (h : InnerNode o n c (A ++ (key, x) :: B)) (hKey : key ∉ A.map Prod.fst)
    (hChild : x ∉ c :: A.map Prod.snd) :
    ∃ n', removeEntryFromNode o n key (.node x) = some n' ∧ InnerNode o n' c (A ++ B) ∧
      n'.parent = n.parent := by
  obtain ⟨J, hKeys⟩ := h.keys
  obtain ⟨K, hPointers⟩ := h.pointers
  have hKeysLength := h.keysLength
  have hPointersLength := h.pointersLength
  have hCount : n.numKeys = A.length + B.length + 1 := by
    rw [h.numKeys, List.length_append, List.length_cons]
    omega
  have hChild' : Ptr.node x ∉ (c :: A.map Prod.snd).map Ptr.node := by
    intro hMem
    obtain ⟨q, hq, hEq⟩ := List.mem_map.mp hMem
    exact hChild (Ptr.node.inj hEq ▸ hq)
  obtain ⟨hScan, z, hShift⟩ := removeCell (l := n.keys) (A := A.map Prod.fst) (B := B.map Prod.fst)
    (J := J) (a := key) (m := n.numKeys) (by simp [hKeys]) hKey (by simp [hCount])
  obtain ⟨hScan', y, hShift'⟩ := removeCell (l := n.pointers)
    (A := (c :: A.map Prod.snd).map Ptr.node) (B := (B.map Prod.snd).map Ptr.node) (J := K)
    (a := .node x) (m := n.numKeys + 1) (by simp [hPointers]) hChild' (by simp [hCount])
  rw [List.length_map] at hScan hShift
  rw [List.length_map, List.length_cons, List.length_map] at hScan' hShift'
  rw [hKeys] at hKeysLength
  rw [hPointers] at hPointersLength
  simp at hKeysLength hPointersLength
  have hClear := forUp_fill (f := fun i ps => store ps i .null)
    ((c :: A.map Prod.snd).map Ptr.node ++ (B.map Prod.snd).map Ptr.node) (y :: K) [] .null
    (i := n.numKeys - 1 + 1) fun k _ l => by simp [hCount]
  have hLength : (y :: K).length = o.order - (n.numKeys - 1 + 1) := by
    simp [hCount]
    omega
  rw [List.append_nil, List.append_nil, hLength] at hClear
  refine ⟨{ n with
      keys := A.map Prod.fst ++ B.map Prod.fst ++ z :: J
      pointers := (c :: A.map Prod.snd).map Ptr.node ++ (B.map Prod.snd).map Ptr.node ++
        List.replicate (o.order - (n.numKeys - 1 + 1)) .null
      numKeys := n.numKeys - 1 }, ?_, ?_, rfl⟩
  · simp only [removeEntryFromNode, h.isLeaf, Bool.false_eq_true, if_false, hScan, hShift, hScan',
      hShift', hClear, Option.bind_eq_bind, Option.bind_some, Option.pure_def]
  · constructor
    · exact h.isLeaf
    · simp [hCount]
    · exact ⟨z :: J, by simp⟩
    · exact ⟨List.replicate (o.order - (n.numKeys - 1 + 1)) .null, by simp⟩
    · simp
      omega
    · simp [hCount]
      omega

theorem appendNode_spec {n m : Node} {c d : NodeId} {L R : List (UInt64 × NodeId)} (kPrime : UInt64)
    (h : InnerNode o n c L) (h' : InnerNode o m d R) (hRoom : L.length + R.length < o.order - 1) :
    ∃ n', appendNode n m kPrime = some n' ∧ InnerNode o n' c (L ++ (kPrime, d) :: R) ∧
      n'.parent = n.parent := by
  obtain ⟨x, J, hKeys⟩ := h.freeKey (by omega)
  obtain ⟨K, hPointers⟩ := h.pointers
  obtain ⟨J', hKeys'⟩ := h'.keys
  obtain ⟨K', hPointers'⟩ := h'.pointers
  have hKeysLength := h.keysLength
  have hPointersLength := h.pointersLength
  rw [hKeys] at hKeysLength
  rw [hPointers] at hPointersLength
  simp at hKeysLength hPointersLength
  obtain ⟨V, v, hRight, hV⟩ := cons_eq_concat d (R.map Prod.snd)
  rw [List.length_map] at hV
  rw [hRight, List.map_append, List.append_assoc] at hPointers'
  obtain ⟨y, K'', hK⟩ : ∃ y K'', K.drop R.length = y :: K'' :=
    List.exists_cons_of_length_pos (by rw [List.length_drop]; omega)
  have hStore : store n.keys n.numKeys kPrime = some (L.map Prod.fst ++ kPrime :: J) :=
    store_eq hKeys (by rw [h.numKeys, List.length_map]) kPrime
  have hKeyCopy := forUp_copy (f := fun j ks => copyCell ks (n.numKeys + 1 + j) m.keys j) []
    (R.map Prod.fst) J' (L.map Prod.fst ++ [kPrime]) (J.take R.length) (J.drop R.length) (i := 0)
    hKeys' (by simp; omega) fun k _ l => by simp [h.numKeys]
  have hPointerCopy := forUp_copy (f := fun j ps => copyCell ps (n.numKeys + 1 + j) m.pointers j) []
    (V.map Ptr.node) ([Ptr.node v] ++ K') ((c :: L.map Prod.snd).map Ptr.node) (K.take R.length)
    (K.drop R.length) (i := 0) hPointers' (by simp [hV]; omega)
    fun k _ l => by simp [h.numKeys]
  rw [List.length_map] at hKeyCopy
  rw [List.length_map, hV] at hPointerCopy
  rw [List.append_assoc, List.append_assoc, List.take_append_drop, List.append_assoc] at hKeyCopy
  rw [List.append_assoc, List.take_append_drop, List.append_assoc, hK] at hPointerCopy
  have hLoop := forUp_push (n := { n with
      keys := L.map Prod.fst ++ kPrime :: J, numKeys := n.numKeys + 1 }) (i := 0)
    (f := fun j ks => copyCell ks (n.numKeys + 1 + j) m.keys j)
    (g := fun j ps => copyCell ps (n.numKeys + 1 + j) m.pointers j) hKeyCopy
    (by rw [hPointers]; exact hPointerCopy)
  have hLast : copyCell ((c :: L.map Prod.snd).map Ptr.node ++ (V.map Ptr.node ++ y :: K''))
      (n.numKeys + 1 + R.length) m.pointers R.length =
      some ((c :: L.map Prod.snd).map Ptr.node ++ V.map Ptr.node ++ .node v :: K'') := by
    apply copyCell_eq (P := V.map Ptr.node) (Q := K') (by rw [List.append_assoc]) _ hPointers'
      (by simp [hV])
    simp [h.numKeys, hV]
    omega
  have hLengthK := congrArg List.length hK
  rw [List.length_drop, List.length_cons] at hLengthK
  refine ⟨{ n with
      keys := L.map Prod.fst ++ [kPrime] ++ (R.map Prod.fst ++ J.drop R.length)
      pointers := (c :: L.map Prod.snd).map Ptr.node ++ V.map Ptr.node ++ .node v :: K''
      numKeys := n.numKeys + 1 + R.length }, ?_, ?_, rfl⟩
  · simp only [appendNode, hStore, h'.numKeys, hLoop, hLast, Option.bind_eq_bind, Option.bind_some,
      Option.pure_def]
  · constructor
    · exact h.isLeaf
    · simp [h.numKeys]
      omega
    · exact ⟨J.drop R.length, by simp⟩
    · have hAll : c :: (L ++ (kPrime, d) :: R).map Prod.snd = c :: L.map Prod.snd ++ (V ++ [v]) := by
        rw [← hRight]
        simp
      exact ⟨K'', by rw [hAll]; simp⟩
    · simp
      omega
    · simp [hV]
      omega

theorem appendLeaf_spec {n m : Node} {L R : List (UInt64 × RecId)} {link link' : Ptr}
    (h : LeafNode o n L link) (h' : LeafNode o m R link') (hRoom : L.length + R.length ≤ o.order - 1) :
    ∃ n', appendLeaf o n m = some n' ∧ LeafNode o n' (L ++ R) link' ∧ n'.parent = n.parent := by
  obtain ⟨J, hKeys⟩ := h.keys
  obtain ⟨K, hPointers⟩ := h.pointers
  obtain ⟨J', hKeys'⟩ := h'.keys
  obtain ⟨K', hPointers'⟩ := h'.pointers
  have hKeysLength := h.keysLength
  have hPointersLength := h.pointersLength
  have hPointersLength' := h'.pointersLength
  rw [hKeys] at hKeysLength
  rw [hPointers] at hPointersLength
  rw [hPointers'] at hPointersLength'
  simp at hKeysLength hPointersLength hPointersLength'
  have hKeyCopy := forUp_copy (f := fun j ks => copyCell ks (n.numKeys + j) m.keys j) []
    (R.map Prod.fst) J' (L.map Prod.fst) (J.take R.length) (J.drop R.length) (i := 0)
    hKeys' (by simp; omega) fun k _ l => by simp [h.numKeys]
  have hPointerCopy := forUp_copy (f := fun j ps => copyCell ps (n.numKeys + j) m.pointers j) []
    ((R.map Prod.snd).map Ptr.record) (K' ++ [link']) ((L.map Prod.snd).map Ptr.record)
    (K.take R.length) (K.drop R.length ++ [link]) (i := 0) (hPointers'.trans (List.append_assoc _ _ _)) (by simp; omega)
    fun k _ l => by simp [h.numKeys]
  rw [List.length_map] at hKeyCopy
  rw [List.length_map, List.length_map] at hPointerCopy
  rw [List.append_assoc, List.take_append_drop] at hKeyCopy
  rw [← List.append_assoc, List.append_assoc _ (K.take R.length), List.take_append_drop,
    ← List.append_assoc] at hPointerCopy
  have hLoop := forUp_push (n := n) (i := 0)
    (f := fun j ks => copyCell ks (n.numKeys + j) m.keys j)
    (g := fun j ps => copyCell ps (n.numKeys + j) m.pointers j) (by rw [hKeys]; exact hKeyCopy)
    (by rw [hPointers]; exact hPointerCopy)
  have hLast : copyCell ((L.map Prod.snd).map Ptr.record ++ (R.map Prod.snd).map Ptr.record ++
      K.drop R.length ++ [link]) (o.order - 1) m.pointers (o.order - 1) =
      some ((L.map Prod.snd).map Ptr.record ++ (R.map Prod.snd).map Ptr.record ++
        K.drop R.length ++ [link']) := by
    apply copyCell_eq rfl _ hPointers'
    · simp
      omega
    · simp
      omega
  refine ⟨{ n with
      keys := L.map Prod.fst ++ R.map Prod.fst ++ J.drop R.length
      pointers := (L.map Prod.snd).map Ptr.record ++ (R.map Prod.snd).map Ptr.record ++
        K.drop R.length ++ [link']
      numKeys := n.numKeys + R.length }, ?_, ?_, rfl⟩
  · simp only [appendLeaf, h'.numKeys, hLoop, hLast, Option.bind_eq_bind, Option.bind_some,
      Option.pure_def]
  · constructor
    · exact h.isLeaf
    · simp [h.numKeys]
    · exact ⟨J.drop R.length, by simp⟩
    · exact ⟨K.drop R.length, by simp⟩
    · simp
      omega
    · simp
      omega

theorem takeFromLeft_leaf {n m : Node} {L R : List (UInt64 × RecId)} {link link' : Ptr}
    {k : UInt64} {r : RecId} (kPrime : UInt64) (h : LeafNode o n R link)
    (h' : LeafNode o m (L ++ [(k, r)]) link') (hRoom : R.length < o.order - 1) :
    ∃ n' m', takeFromLeft n m kPrime = some (n', m', k) ∧ LeafNode o n' ((k, r) :: R) link ∧
      LeafNode o m' L link' ∧ n'.parent = n.parent ∧ m'.parent = m.parent := by
  obtain ⟨x, J, hKeys⟩ := h.freeKey hRoom
  obtain ⟨y, K, hPointers⟩ := h.freePointer hRoom
  obtain ⟨J', hKeys'⟩ := h'.keys
  obtain ⟨K', hPointers'⟩ := h'.pointers
  have hKeysLength := h.keysLength
  have hPointersLength := h.pointersLength
  have hKeysLength' := h'.keysLength
  have hPointersLength' := h'.pointersLength
  have hCount : m.numKeys - 1 = L.length := by simp [h'.numKeys]
  have hKeys'' : m.keys = L.map Prod.fst ++ k :: J' := by simp [hKeys']
  have hPointers'' : m.pointers = (L.map Prod.snd).map Ptr.record ++ .record r :: (K' ++ [link']) := by
    simp [hPointers']
  obtain ⟨x', y', hLoop⟩ := openGap (n := { n with pointers := n.pointers }) (i := 0) (m := n.numKeys) (x := x) (y := y)
    (f := fun i ks => copyCell ks i ks (i - 1)) (g := fun i ps => copyCell ps i ps (i - 1))
    (A := []) (B := R.map Prod.fst) (J := J) (C := []) (D := (R.map Prod.snd).map Ptr.record)
    (K := K ++ [link]) hKeys (by simp [hPointers]) (by simp [h.numKeys]) (by simp [h.numKeys])
    (fun k _ l => by simp) (fun k _ l => by simp)
  have hPointer : copyCell ([] ++ y' :: ((R.map Prod.snd).map Ptr.record ++ (K ++ [link]))) 0
      m.pointers L.length =
      some ([] ++ .record r :: ((R.map Prod.snd).map Ptr.record ++ (K ++ [link]))) :=
    copyCell_eq rfl rfl hPointers'' (by simp)
  have hKey : copyCell ([] ++ x' :: (R.map Prod.fst ++ J)) 0 m.keys L.length =
      some ([] ++ k :: (R.map Prod.fst ++ J)) := copyCell_eq rfl rfl hKeys'' (by simp)
  have hClear : store m.pointers L.length .null =
      some ((L.map Prod.snd).map Ptr.record ++ .null :: (K' ++ [link'])) :=
    store_eq hPointers'' (by simp) _
  rw [hKeys] at hKeysLength
  rw [hPointers] at hPointersLength
  rw [hKeys''] at hKeysLength'
  rw [hPointers''] at hPointersLength'
  simp at hKeysLength hPointersLength hKeysLength' hPointersLength'
  refine ⟨{ n with
      keys := [] ++ k :: (R.map Prod.fst ++ J)
      pointers := [] ++ .record r :: ((R.map Prod.snd).map Ptr.record ++ (K ++ [link]))
      numKeys := n.numKeys + 1 },
    { m with
      pointers := (L.map Prod.snd).map Ptr.record ++ .null :: (K' ++ [link'])
      numKeys := m.numKeys - 1 }, ?_, ?_, ?_, rfl, rfl⟩
  · simp only [takeFromLeft, if_pos h.isLeaf, Option.pure_def, Option.bind_eq_bind,
      Option.bind_some, hLoop, hCount, hPointer, hClear, hKey]
    rfl
  · constructor
    · exact h.isLeaf
    · simp [h.numKeys]
    · exact ⟨J, by simp⟩
    · exact ⟨K, by simp⟩
    · simp
      omega
    · simp
      omega
  · constructor
    · exact h'.isLeaf
    · exact hCount
    · exact ⟨k :: J', by simp [hKeys']⟩
    · exact ⟨.null :: K', by simp⟩
    · simp [hKeys'']
      omega
    · simp
      omega

theorem takeFromLeft_node {n m : Node} {c c' d : NodeId} {L R : List (UInt64 × NodeId)}
    {k : UInt64} (kPrime : UInt64) (h : InnerNode o n c R)
    (h' : InnerNode o m c' (L ++ [(k, d)])) (hRoom : R.length < o.order - 1) :
    ∃ n' m', takeFromLeft n m kPrime = some (n', m', k) ∧ InnerNode o n' d ((kPrime, c) :: R) ∧
      InnerNode o m' c' L ∧ n'.parent = n.parent ∧ m'.parent = m.parent := by
  obtain ⟨x, J, hKeys⟩ := h.freeKey hRoom
  obtain ⟨y, K, hPointers⟩ := h.freePointer hRoom
  obtain ⟨J', hKeys'⟩ := h'.keys
  obtain ⟨K', hPointers'⟩ := h'.pointers
  have hKeysLength := h.keysLength
  have hPointersLength := h.pointersLength
  have hKeysLength' := h'.keysLength
  have hPointersLength' := h'.pointersLength
  have hCount : m.numKeys = L.length + 1 := by simp [h'.numKeys]
  have hKeys'' : m.keys = L.map Prod.fst ++ k :: J' := by simp [hKeys']
  have hPointers'' : m.pointers = (c' :: L.map Prod.snd).map Ptr.node ++ .node d :: K' := by
    simp [hPointers']
  obtain ⟨V, v, hChildren, hV⟩ := cons_eq_concat c (R.map Prod.snd)
  rw [List.length_map] at hV
  have hUp : copyCell n.pointers (n.numKeys + 1) n.pointers n.numKeys =
      some ((c :: R.map Prod.snd).map Ptr.node ++ .node v :: K) := by
    apply copyCell_eq hPointers (by simp [h.numKeys]) (P := V.map Ptr.node) (Q := y :: K)
    · rw [hPointers, hChildren]
      simp
    · simp [hV, h.numKeys]
  obtain ⟨x', y', hLoop⟩ := openGap (i := 0) (m := n.numKeys) (x := x) (y := .node v)
    (n := { n with pointers := (c :: R.map Prod.snd).map Ptr.node ++ .node v :: K })
    (f := fun i ks => copyCell ks i ks (i - 1)) (g := fun i ps => copyCell ps i ps (i - 1))
    (A := []) (B := R.map Prod.fst) (J := J) (C := []) (D := V.map Ptr.node)
    (K := .node v :: K) hKeys (by rw [hChildren]; simp) (by simp [h.numKeys])
    (by simp [hV, h.numKeys]) (fun k _ l => by simp) (fun k _ l => by simp)
  have hPointer : copyCell ([] ++ y' :: (V.map Ptr.node ++ .node v :: K)) 0 m.pointers
      (L.length + 1) = some ([] ++ .node d :: (V.map Ptr.node ++ .node v :: K)) :=
    copyCell_eq rfl rfl hPointers'' (by simp)
  have hKey : store ([] ++ x' :: (R.map Prod.fst ++ J)) 0 kPrime =
      some ([] ++ kPrime :: (R.map Prod.fst ++ J)) := store_eq rfl rfl _
  have hClear : store m.pointers (L.length + 1) .null =
      some ((c' :: L.map Prod.snd).map Ptr.node ++ .null :: K') :=
    store_eq hPointers'' (by simp) _
  have hNewKey : m.keys[L.length + 1 - 1]? = some k := getElem?_eq hKeys'' (by simp)
  rw [hKeys] at hKeysLength
  rw [hPointers] at hPointersLength
  rw [hKeys''] at hKeysLength'
  rw [hPointers''] at hPointersLength'
  simp at hKeysLength hPointersLength hKeysLength' hPointersLength'
  refine ⟨{ n with
      keys := [] ++ kPrime :: (R.map Prod.fst ++ J)
      pointers := [] ++ .node d :: (V.map Ptr.node ++ .node v :: K)
      numKeys := n.numKeys + 1 },
    { m with
      pointers := (c' :: L.map Prod.snd).map Ptr.node ++ .null :: K'
      numKeys := L.length + 1 - 1 }, ?_, ?_, ?_, rfl, rfl⟩
  · have hNode : ¬ n.isLeaf = true := by simp [h.isLeaf]
    simp only [takeFromLeft, if_neg hNode, Option.pure_def, Option.bind_eq_bind, Option.bind_some, hUp, hLoop,
      hCount, hPointer, hClear, hKey, hNewKey]
  · constructor
    · exact h.isLeaf
    · simp [h.numKeys]
    · exact ⟨J, by simp⟩
    · have hAll : d :: ((kPrime, c) :: R).map Prod.snd = d :: (V ++ [v]) := by
        rw [← hChildren]
        rfl
      exact ⟨K, by rw [hAll]; simp⟩
    · simp
      omega
    · simp [hV]
      omega
  · constructor
    · exact h'.isLeaf
    · rfl
    · exact ⟨k :: J', hKeys''⟩
    · exact ⟨.null :: K', rfl⟩
    · simp [hKeys'']
      omega
    · simp
      omega

theorem takeFromRight_leaf {n m : Node} {L R : List (UInt64 × RecId)} {link link' : Ptr}
    {k k' : UInt64} {r r' : RecId} (kPrime : UInt64) (h : LeafNode o n L link)
    (h' : LeafNode o m ((k, r) :: (k', r') :: R) link') (hRoom : L.length < o.order - 1) :
    ∃ n' m', takeFromRight n m kPrime = some (n', m', k') ∧ LeafNode o n' (L ++ [(k, r)]) link ∧
      LeafNode o m' ((k', r') :: R) link' ∧ n'.parent = n.parent ∧ m'.parent = m.parent := by
  obtain ⟨x, J, hKeys⟩ := h.freeKey hRoom
  obtain ⟨y, K, hPointers⟩ := h.freePointer hRoom
  obtain ⟨J', hKeys'⟩ := h'.keys
  obtain ⟨K', hPointers'⟩ := h'.pointers
  have hKeysLength := h.keysLength
  have hPointersLength := h.pointersLength
  have hKeysLength' := h'.keysLength
  have hPointersLength' := h'.pointersLength
  have hCount : m.numKeys - 1 = (((k', r') :: R).map Prod.fst).length := by simp [h'.numKeys]
  have hKey : copyCell n.keys n.numKeys m.keys 0 = some (L.map Prod.fst ++ k :: J) :=
    copyCell_eq hKeys (by simp [h.numKeys]) (P := []) hKeys' rfl
  have hPointer : copyCell n.pointers n.numKeys m.pointers 0 =
      some ((L.map Prod.snd).map Ptr.record ++ .record r :: (K ++ [link])) :=
    copyCell_eq (x := y) (hPointers.trans (by simp)) (by simp [h.numKeys]) (P := [])
      (Q := ((k', r') :: R).map (Ptr.record ∘ Prod.snd) ++ (K' ++ [link'])) (hPointers'.trans (by simp)) rfl
  have hNewKey : m.keys[1]? = some k' := getElem?_eq (A := [k]) hKeys' rfl
  obtain ⟨x', hShift⟩ := forUp_shift (f := fun i ks => copyCell ks i ks (i + 1)) []
    (((k', r') :: R).map Prod.fst) k J' (i := 0) fun k _ l => by simp
  obtain ⟨y', hShift'⟩ := forUp_shift (f := fun i ps => copyCell ps i ps (i + 1)) []
    ((((k', r') :: R).map Prod.snd).map Ptr.record) (.record r) (K' ++ [link']) (i := 0)
    fun k _ l => by simp
  have hLoop := forUp_both (n := m) (f := fun i ks => copyCell ks i ks (i + 1))
    (g := fun i ps => copyCell ps i ps (i + 1)) (i := 0)
    (by rw [hKeys']; exact hShift)
    (by
      rw [List.length_map, List.length_map] at hShift'
      rw [hPointers', List.length_map]
      simpa using hShift')
  rw [← hCount] at hLoop
  rw [hKeys] at hKeysLength
  rw [hPointers] at hPointersLength
  rw [hKeys'] at hKeysLength'
  rw [hPointers'] at hPointersLength'
  simp at hKeysLength hPointersLength hKeysLength' hPointersLength'
  refine ⟨{ n with
      keys := L.map Prod.fst ++ k :: J
      pointers := (L.map Prod.snd).map Ptr.record ++ .record r :: (K ++ [link])
      numKeys := n.numKeys + 1 },
    { m with
      keys := ((k', r') :: R).map Prod.fst ++ x' :: J'
      pointers := (((k', r') :: R).map Prod.snd).map Ptr.record ++ y' :: (K' ++ [link'])
      numKeys := m.numKeys - 1 }, ?_, ?_, ?_, rfl, rfl⟩
  · simp only [takeFromRight, if_pos h.isLeaf, Option.pure_def, Option.bind_eq_bind,
      Option.bind_some, hKey, hPointer, hNewKey, hLoop]
    simp
  · constructor
    · exact h.isLeaf
    · simp [h.numKeys]
    · exact ⟨J, by simp⟩
    · exact ⟨K, by simp⟩
    · simp
      omega
    · simp
      omega
  · constructor
    · exact h'.isLeaf
    · simp [h'.numKeys]
    · exact ⟨x' :: J', rfl⟩
    · exact ⟨y' :: K', by simp⟩
    · simp
      omega
    · simp
      omega

theorem takeFromRight_node {n m : Node} {c c' d : NodeId} {L R : List (UInt64 × NodeId)}
    {k : UInt64} (kPrime : UInt64) (h : InnerNode o n c L)
    (h' : InnerNode o m c' ((k, d) :: R)) (hRoom : L.length < o.order - 1) :
    ∃ n' m', takeFromRight n m kPrime = some (n', m', k) ∧
      InnerNode o n' c (L ++ [(kPrime, c')]) ∧ InnerNode o m' d R ∧
      n'.parent = n.parent ∧ m'.parent = m.parent := by
  obtain ⟨x, J, hKeys⟩ := h.freeKey hRoom
  obtain ⟨y, K, hPointers⟩ := h.freePointer hRoom
  obtain ⟨J', hKeys'⟩ := h'.keys
  obtain ⟨K', hPointers'⟩ := h'.pointers
  have hKeysLength := h.keysLength
  have hPointersLength := h.pointersLength
  have hKeysLength' := h'.keysLength
  have hPointersLength' := h'.pointersLength
  have hCount : m.numKeys - 1 = R.length := by simp [h'.numKeys]
  obtain ⟨V, v, hChildren, hV⟩ := cons_eq_concat d (R.map Prod.snd)
  rw [List.length_map] at hV
  have hPointers'' : m.pointers = [] ++ .node c' :: (V.map Ptr.node ++ .node v :: K') := by
    have hAll : c' :: ((k, d) :: R).map Prod.snd = c' :: (V ++ [v]) := by
      rw [← hChildren]
      rfl
    rw [hPointers', hAll]
    simp
  have hKey : store n.keys n.numKeys kPrime = some (L.map Prod.fst ++ kPrime :: J) :=
    store_eq hKeys (by simp [h.numKeys]) _
  have hPointer : copyCell n.pointers (n.numKeys + 1) m.pointers 0 =
      some ((c :: L.map Prod.snd).map Ptr.node ++ .node c' :: K) :=
    copyCell_eq hPointers (by simp [h.numKeys]) hPointers'' rfl
  have hNewKey : m.keys[0]? = some k := getElem?_eq (A := []) hKeys' rfl
  obtain ⟨x', hShift⟩ := forUp_shift (f := fun i ks => copyCell ks i ks (i + 1)) []
    (R.map Prod.fst) k J' (i := 0) fun k _ l => by simp
  obtain ⟨y', hShift'⟩ := forUp_shift (f := fun i ps => copyCell ps i ps (i + 1)) []
    (V.map Ptr.node) (.node c') (.node v :: K') (i := 0) fun k _ l => by simp
  rw [List.length_map] at hShift
  rw [List.length_map, hV, ← hPointers''] at hShift'
  have hLoop := forUp_both (n := m) (f := fun i ks => copyCell ks i ks (i + 1))
    (g := fun i ps => copyCell ps i ps (i + 1)) (i := 0) (by rw [hKeys']; exact hShift) hShift'
  have hLast : copyCell ([] ++ V.map Ptr.node ++ y' :: .node v :: K') R.length
      ([] ++ V.map Ptr.node ++ y' :: .node v :: K') m.numKeys =
      some ([] ++ V.map Ptr.node ++ .node v :: .node v :: K') := by
    apply copyCell_eq rfl (by simp [hV]) (P := V.map Ptr.node ++ [y']) (Q := K') (by simp)
    simp [h'.numKeys, hV]
  rw [hKeys] at hKeysLength
  rw [hPointers] at hPointersLength
  rw [hKeys'] at hKeysLength'
  rw [hPointers''] at hPointersLength'
  simp [hV] at hKeysLength hPointersLength hKeysLength' hPointersLength'
  refine ⟨{ n with
      keys := L.map Prod.fst ++ kPrime :: J
      pointers := (c :: L.map Prod.snd).map Ptr.node ++ .node c' :: K
      numKeys := n.numKeys + 1 },
    { m with
      keys := [] ++ R.map Prod.fst ++ x' :: J'
      pointers := [] ++ V.map Ptr.node ++ .node v :: .node v :: K'
      numKeys := m.numKeys - 1 }, ?_, ?_, ?_, rfl, rfl⟩
  · have hNode : ¬ n.isLeaf = true := by simp [h.isLeaf]
    simp only [takeFromRight, if_neg hNode, Option.pure_def, Option.bind_eq_bind, Option.bind_some, hKey,
      hPointer, hNewKey, hCount, hLoop, hLast]
  · constructor
    · exact h.isLeaf
    · simp [h.numKeys]
    · exact ⟨J, by simp⟩
    · exact ⟨K, by simp⟩
    · simp
      omega
    · simp
      omega
  · constructor
    · exact h'.isLeaf
    · exact hCount
    · exact ⟨x' :: J', rfl⟩
    · exact ⟨.node v :: K', by rw [hChildren]; simp⟩
    · simp
      omega
    · simp [hV]
      omega

end Deletion

end Trident.Btree
