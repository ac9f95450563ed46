import Trident.Btree.Operations

/-! # What insertion does to the contents of a node

The contents of an internal node are its first child and the pairs of a key and
the child behind it, those of a leaf its entries and its link. The cells behind
them hold whatever earlier operations have left there.
-/

namespace Trident.Btree

open Loops

structure InnerNode (o : TreeOrder) (n : Node) (c : NodeId) (prs : List (UInt64 × NodeId)) : Prop where
  isLeaf : n.isLeaf = false
  numKeys : n.numKeys = prs.length
  keys : ∃ J, n.keys = prs.map Prod.fst ++ J
  pointers : ∃ J, n.pointers = (c :: prs.map Prod.snd).map Ptr.node ++ J
  keysLength : n.keys.length = o.order - 1
  pointersLength : n.pointers.length = o.order

structure LeafNode (o : TreeOrder) (n : Node) (es : List (UInt64 × RecId)) (link : Ptr) : Prop where
  isLeaf : n.isLeaf = true
  numKeys : n.numKeys = es.length
  keys : ∃ J, n.keys = es.map Prod.fst ++ J
  pointers : ∃ J, n.pointers = (es.map Prod.snd).map Ptr.record ++ J ++ [link]
  keysLength : n.keys.length = o.order - 1
  pointersLength : n.pointers.length = o.order

section Loops

theorem forDown_both {f : Nat → List UInt64 → Option (List UInt64)}
    {g : Nat → List Ptr → Option (List Ptr)} {lo count : Nat} {n : Node} {ks : List UInt64}
    {ps : List Ptr} (hKeys : forDown f lo count n.keys = some ks)
    (hPointers : forDown g lo count n.pointers = some ps) :
    forDown (fun i n => n.both (f i) (g i)) lo count n =
      some { n with keys := ks, pointers := ps } := by
  induction count generalizing n with
  | zero =>
    cases hKeys
    cases hPointers
    rfl
  | succ count ih =>
    obtain ⟨ks', hFirst, hKeys⟩ := Option.bind_eq_some_iff.mp hKeys
    obtain ⟨ps', hFirst', hPointers⟩ := Option.bind_eq_some_iff.mp hPointers
    rw [forDown, Node.both, hFirst, hFirst']
    exact ih (n := { n with keys := ks', pointers := ps' }) hKeys hPointers

theorem forUp_both {f : Nat → List UInt64 → Option (List UInt64)}
    {g : Nat → List Ptr → Option (List Ptr)} {i count : Nat} {n : Node} {ks : List UInt64}
    {ps : List Ptr} (hKeys : forUp f i count n.keys = some ks)
    (hPointers : forUp g i count n.pointers = some ps) :
    forUp (fun i n => n.both (f i) (g i)) i count n =
      some { n with keys := ks, pointers := ps } := by
  induction count generalizing i n with
  | zero =>
    cases hKeys
    cases hPointers
    rfl
  | succ count ih =>
    obtain ⟨ks', hFirst, hKeys⟩ := Option.bind_eq_some_iff.mp hKeys
    obtain ⟨ps', hFirst', hPointers⟩ := Option.bind_eq_some_iff.mp hPointers
    rw [forUp, Node.both, hFirst, hFirst']
    exact ih (n := { n with keys := ks', pointers := ps' }) hKeys hPointers

theorem forUp_push {f : Nat → List UInt64 → Option (List UInt64)}
    {g : Nat → List Ptr → Option (List Ptr)} {i count : Nat} {n : Node} {ks : List UInt64}
    {ps : List Ptr} (hKeys : forUp f i count n.keys = some ks)
    (hPointers : forUp g i count n.pointers = some ps) :
    forUp (fun i n => n.push (f i) (g i)) i count n =
      some { n with keys := ks, pointers := ps, numKeys := n.numKeys + count } := by
  induction count generalizing i n with
  | zero =>
    cases hKeys
    cases hPointers
    rfl
  | succ count ih =>
    obtain ⟨ks', hFirst, hKeys⟩ := Option.bind_eq_some_iff.mp hKeys
    obtain ⟨ps', hFirst', hPointers⟩ := Option.bind_eq_some_iff.mp hPointers
    rw [forUp, Node.push, Node.both, hFirst, hFirst']
    have hRest := ih (n := { n with keys := ks', pointers := ps', numKeys := n.numKeys + 1 })
      hKeys hPointers
    rw [Nat.add_assoc, Nat.add_comm 1 count] at hRest
    exact hRest

/-- The loops that copy a part of the temporary arrays to the front of a node. -/
theorem fillNode {f : Nat → List UInt64 → Option (List UInt64)}
    {g : Nat → List Ptr → Option (List Ptr)} {i m : Nat} {n : Node} {P S Q tempKeys : List UInt64}
    {T U V tempPointers : List Ptr} (hKeys : tempKeys = P ++ S ++ Q)
    (hPointers : tempPointers = T ++ U ++ V) (hP : P.length = i) (hT : T.length = i)
    (hS : S.length = m) (hU : U.length = m) (hRoom : m ≤ n.keys.length)
    (hRoom' : m ≤ n.pointers.length)
    (hf : ∀ k < m, ∀ l, f (i + k) l = copyCell l k tempKeys (i + k))
    (hg : ∀ k < m, ∀ l, g (i + k) l = copyCell l k tempPointers (i + k)) :
    forUp (fun i n => n.push (f i) (g i)) i m n = some { n with
      keys := S ++ n.keys.drop m, pointers := U ++ n.pointers.drop m,
      numKeys := n.numKeys + m } := by
  apply forUp_push
  · have hCopy := forUp_copy (f := f) P S Q [] (n.keys.take m) (n.keys.drop m) (i := i) hKeys
      (by rw [List.length_take, hS]; omega) fun k hk l => by
        rw [hf k (hS ▸ hk) l, List.length_nil, Nat.zero_add, hP]
    rwa [List.nil_append, List.nil_append, List.take_append_drop, hS] at hCopy
  · have hCopy := forUp_copy (f := g) T U V [] (n.pointers.take m) (n.pointers.drop m) (i := i)
      hPointers (by rw [List.length_take, hU]; omega) fun k hk l => by
        rw [hg k (hU ▸ hk) l, List.length_nil, Nat.zero_add, hT]
    rwa [List.nil_append, List.nil_append, List.take_append_drop, hU] at hCopy

theorem forUp_skipping {σ : Type} (copy : Nat → Nat → σ → Option σ) {p i m : Nat} {s t : σ}
    (h : forUp (fun i => copy i (if i < p then i else i + 1)) i m s = some t) :
    ∃ j, forUp (skipping p copy) i m (if i ≤ p then i else i + 1, s) = some (j, t) := by
  induction m generalizing i s with
  | zero =>
    cases h
    exact ⟨_, rfl⟩
  | succ m ih =>
    obtain ⟨s₁, hFirst, hRest⟩ := Option.bind_eq_some_iff.mp h
    have hTarget : (if (if i ≤ p then i else i + 1) = p then (if i ≤ p then i else i + 1) + 1
        else if i ≤ p then i else i + 1) = if i < p then i else i + 1 := by
      split_ifs <;> omega
    have hNext : (if i < p then i else i + 1) + 1 = if i + 1 ≤ p then i + 1 else i + 1 + 1 := by
      split_ifs <;> omega
    obtain ⟨j, hEnd⟩ := ih hRest
    refine ⟨j, ?_⟩
    simp only [forUp, skipping, hTarget, hFirst, Option.map_some, Option.bind_some, hNext]
    exact hEnd

theorem push_eq {n : Node} {f : List UInt64 → Option (List UInt64)}
    {g : List Ptr → Option (List Ptr)} {ks : List UInt64} {ps : List Ptr} (hKeys : f n.keys = some ks)
    (hPointers : g n.pointers = some ps) :
    n.push f g = some { n with keys := ks, pointers := ps, numKeys := n.numKeys + 1 } := by
  rw [Node.push, Node.both, hKeys, hPointers]
  rfl

/-- The loops that make room for one key and one pointer. -/
theorem openGap {f : Nat → List UInt64 → Option (List UInt64)}
    {g : Nat → List Ptr → Option (List Ptr)} {i m : Nat} {n : Node} {A B J : List UInt64}
    {C D K : List Ptr} {x : UInt64} {y : Ptr} (hKeys : n.keys = A ++ B ++ x :: J)
    (hPointers : n.pointers = C ++ D ++ y :: K) (hB : B.length = m) (hD : D.length = m)
    (hf : ∀ k < B.length, ∀ l, f (i + k + 1) l = copyCell l (A.length + k + 1) l (A.length + k))
    (hg : ∀ k < D.length, ∀ l, g (i + k + 1) l = copyCell l (C.length + k + 1) l (C.length + k)) :
    ∃ x' y', forDown (fun i n => n.both (f i) (g i)) i m n =
      some { n with keys := A ++ x' :: (B ++ J), pointers := C ++ y' :: (D ++ K) } := by
  obtain ⟨x', hKeys'⟩ := forDown_shift A B x J hf
  obtain ⟨y', hPointers'⟩ := forDown_shift C D y K hg
  rw [← hKeys, hB] at hKeys'
  rw [← hPointers, hD] at hPointers'
  exact ⟨x', y', forDown_both hKeys' hPointers'⟩

end Loops

section Room

variable {o : TreeOrder} {n : Node}

theorem LeafNode.freeKey {es : List (UInt64 × RecId)} {link : Ptr} (h : LeafNode o n es link)
    (hRoom : es.length < o.order - 1) : ∃ x J, n.keys = es.map Prod.fst ++ x :: J := by
  obtain ⟨J, hKeys⟩ := h.keys
  have hLength := h.keysLength
  rw [hKeys, List.length_append, List.length_map] at hLength
  cases J with
  | nil =>
    rw [List.length_nil] at hLength
    omega
  | cons x J => exact ⟨x, J, hKeys⟩

theorem LeafNode.freePointer {es : List (UInt64 × RecId)} {link : Ptr} (h : LeafNode o n es link)
    (hRoom : es.length < o.order - 1) :
    ∃ y K, n.pointers = (es.map Prod.snd).map Ptr.record ++ y :: K ++ [link] := by
  obtain ⟨K, hPointers⟩ := h.pointers
  have hLength := h.pointersLength
  rw [hPointers, List.length_append, List.length_append, List.length_map, List.length_map,
    List.length_singleton] at hLength
  cases K with
  | nil =>
    rw [List.length_nil] at hLength
    omega
  | cons y K => exact ⟨y, K, hPointers⟩

theorem InnerNode.freeKey {c : NodeId} {prs : List (UInt64 × NodeId)} (h : InnerNode o n c prs)
    (hRoom : prs.length < o.order - 1) : ∃ x J, n.keys = prs.map Prod.fst ++ x :: J := by
  obtain ⟨J, hKeys⟩ := h.keys
  have hLength := h.keysLength
  rw [hKeys, List.length_append, List.length_map] at hLength
  cases J with
  | nil =>
    rw [List.length_nil] at hLength
    omega
  | cons x J => exact ⟨x, J, hKeys⟩

theorem InnerNode.freePointer {c : NodeId} {prs : List (UInt64 × NodeId)} (h : InnerNode o n c prs)
    (hRoom : prs.length < o.order - 1) :
    ∃ y K, n.pointers = (c :: prs.map Prod.snd).map Ptr.node ++ y :: K := by
  obtain ⟨K, hPointers⟩ := h.pointers
  have hLength := h.pointersLength
  rw [hPointers, List.length_append, List.length_map, List.length_cons, List.length_map] at hLength
  cases K with
  | nil =>
    rw [List.length_nil] at hLength
    omega
  | cons y K => exact ⟨y, K, hPointers⟩

end Room

section Cuts

theorem cut_pred_bounds (o : TreeOrder) : 1 ≤ cut (o.order - 1) ∧ cut (o.order - 1) ≤ o.order - 1 ∧
    cut (o.order - 1) ≤ o.order - cut (o.order - 1) := by
  have hMin := o.min
  rw [cut]
  split_ifs <;> omega

theorem cut_bounds (o : TreeOrder) : 2 ≤ cut o.order ∧ cut o.order ≤ o.order - 1 ∧
    cut o.order - 1 ≤ o.order - cut o.order := by
  have hMin := o.min
  rw [cut]
  split_ifs <;> omega

end Cuts

section Insertion

variable {o : TreeOrder}

theorem insertionPoint_eq {n : Node} {A B : List (UInt64 × RecId)} {link : Ptr} {key : UInt64}
    (h : LeafNode o n (A ++ B) link) (hA : ∀ e ∈ A, e.1 < key) (hB : ∀ e ∈ B, ¬ e.1 < key)
    {count : Nat} (hCount : count = (A ++ B).length) :
    scan (fun i => n.keys[i]?.map fun k => decide (k < key)) 0 count = some A.length := by
  obtain ⟨J, hKeys⟩ := h.keys
  have hSplit : n.keys = A.map Prod.fst ++ (B.map Prod.fst ++ J) := by simp [hKeys]
  have hLength : A.length = (A.map Prod.fst).length := (List.length_map _).symm
  rw [hLength]
  refine scan_list hSplit (fun k hk => ?_) ?_
  · obtain ⟨e, he, rfl⟩ := List.mem_map.mp hk
    exact decide_eq_true (hA e he)
  · cases B with
    | nil => exact Or.inl (by simp [hCount])
    | cons b B =>
      exact Or.inr ⟨by simp [hCount], b.1, _, rfl, decide_eq_false (hB b List.mem_cons_self)⟩

theorem insertIntoLeaf_spec {n : Node} {A B : List (UInt64 × RecId)} {link : Ptr} {key : UInt64}
    (r : RecId) (h : LeafNode o n (A ++ B) link) (hA : ∀ e ∈ A, e.1 < key)
    (hB : ∀ e ∈ B, ¬ e.1 < key) (hRoom : (A ++ B).length < o.order - 1) :
    ∃ n', insertIntoLeaf n key (.record r) = some n' ∧ LeafNode o n' (A ++ (key, r) :: B) link ∧
      n'.parent = n.parent := by
  obtain ⟨x, J, hKeys⟩ := h.freeKey hRoom
  obtain ⟨y, K, hPointers⟩ := h.freePointer hRoom
  have hPoint := insertionPoint_eq h hA hB h.numKeys
  have hCount : n.numKeys - A.length = B.length := by
    rw [h.numKeys, List.length_append]
    omega
  obtain ⟨x', y', hLoop⟩ := openGap (n := n) (i := A.length) (m := B.length) (x := x) (y := y)
    (f := fun i ks => copyCell ks i ks (i - 1)) (g := fun i ps => copyCell ps i ps (i - 1))
    (A := A.map Prod.fst) (B := B.map Prod.fst) (J := J)
    (C := (A.map Prod.snd).map Ptr.record) (D := (B.map Prod.snd).map Ptr.record) (K := K ++ [link])
    (by simp [hKeys]) (by simp [hPointers]) (by simp) (by simp) (fun k _ l => by simp)
    (fun k _ l => by simp)
  refine ⟨{ n with
    keys := A.map Prod.fst ++ key :: (B.map Prod.fst ++ J)
    pointers := (A.map Prod.snd).map Ptr.record ++
      .record r :: ((B.map Prod.snd).map Ptr.record ++ (K ++ [link]))
    numKeys := n.numKeys + 1 }, ?_, ?_, rfl⟩
  · simp only [insertIntoLeaf, hPoint, Option.bind_eq_bind, Option.bind_some, hCount, hLoop]
    exact push_eq (store_eq rfl (by simp) _) (store_eq rfl (by simp) _)
  · have hKeysLength := h.keysLength
    have hPointersLength := h.pointersLength
    rw [hKeys] at hKeysLength
    rw [hPointers] at hPointersLength
    simp at hKeysLength hPointersLength
    constructor
    · exact h.isLeaf
    · simp [h.numKeys]
      omega
    · exact ⟨J, by simp⟩
    · exact ⟨K, by simp⟩
    · simp
      omega
    · simp
      omega

theorem leafTemps_spec {n : Node} {A B : List (UInt64 × RecId)} {link : Ptr} {key : UInt64}
    (r : RecId) (h : LeafNode o n (A ++ B) link) (hA : ∀ e ∈ A, e.1 < key)
    (hB : ∀ e ∈ B, ¬ e.1 < key) (hFull : (A ++ B).length = o.order - 1) :
    leafTemps o n key (.record r) = some ((A ++ (key, r) :: B).map Prod.fst ++ [0],
      ((A ++ (key, r) :: B).map Prod.snd).map Ptr.record ++ [.null]) := by
  obtain ⟨J, hKeys⟩ := h.keys
  obtain ⟨K, hPointers⟩ := h.pointers
  have hMin := o.min
  have hPoint := insertionPoint_eq h hA hB hFull.symm
  rw [List.length_append] at hFull
  have hReplicate {α : Type} (v : α) : List.replicate (o.order + 1) v =
      List.replicate A.length v ++ v :: (List.replicate B.length v ++ [v]) := by
    rw [show o.order + 1 = A.length + (1 + (B.length + 1)) by omega, List.replicate_add,
      List.replicate_add, List.replicate_add]
    rfl
  have hKeyTemp := forUp_gapped (f := fun i ks =>
      copyCell ks (if i < A.length then i else i + 1) n.keys i) (A.map Prod.fst) (B.map Prod.fst) J
    (List.replicate A.length 0) (List.replicate B.length 0) [0] 0 (hKeys.trans (by simp)) (hReplicate 0)
    (by simp) (by simp) (fun i l => by rw [List.length_map])
  have hPointerTemp := forUp_gapped (f := fun i ps =>
      copyCell ps (if i < A.length then i else i + 1) n.pointers i) ((A.map Prod.snd).map Ptr.record)
    ((B.map Prod.snd).map Ptr.record) (K ++ [link]) (List.replicate A.length .null)
    (List.replicate B.length .null) [.null] .null (hPointers.trans (by simp)) (hReplicate Ptr.null)
    (by simp) (by simp) (fun i l => by rw [List.length_map, List.length_map])
  rw [List.length_map, List.length_map] at hKeyTemp
  rw [List.length_map, List.length_map, List.length_map, List.length_map] at hPointerTemp
  obtain ⟨j, hTemps⟩ := forUp_skipping (fun i j temp => do
    let ks ← copyCell temp.1 j n.keys i
    let ps ← copyCell temp.2 j n.pointers i
    return (ks, ps)) (forUp_pair hKeyTemp hPointerTemp)
  simp only [Option.bind_eq_bind, Option.pure_def, Nat.zero_le, if_true] at hTemps
  have hCount : n.numKeys = A.length + B.length := by rw [h.numKeys, List.length_append]
  simp only [leafTemps, hPoint, hCount, Option.bind_eq_bind, Option.bind_some, Option.pure_def, hTemps]
  rw [store_eq rfl (by simp), Option.bind_some, store_eq rfl (by simp), Option.bind_some]
  simp

theorem clearLeaf {U W : List Ptr} {p : Ptr} {i m : Nat} (hU : U.length = i) (hW : W.length = m) :
    forUp (fun i ps => store ps i .null) i m (U ++ W ++ [p]) =
      some (U ++ List.replicate m .null ++ [p]) := by
  have hFill := forUp_fill (f := fun i ps => store ps i .null) U W [p] .null (i := i)
    fun k _ l => by rw [hU]
  rwa [hW] at hFill

theorem dealLeaf_spec {n m : Node} {es L R : List (UInt64 × RecId)} {link : Ptr} (newId : NodeId)
    (h : LeafNode o n es link) (hm : m = { freshNode o with isLeaf := true })
    (hFull : es.length = o.order - 1) (hL : L.length = cut (o.order - 1))
    (hR : R.length = o.order - cut (o.order - 1)) :
    ∃ n' m', dealLeaf o n m newId ((L ++ R).map Prod.fst ++ [0])
        (((L ++ R).map Prod.snd).map Ptr.record ++ [.null]) = some (n', m') ∧
      LeafNode o n' L (.node newId) ∧ LeafNode o m' R link ∧
      n'.parent = n.parent ∧ m'.parent = n.parent := by
  obtain ⟨K, hPointers⟩ := h.pointers
  obtain ⟨hCutMin, hCutMax, _⟩ := cut_pred_bounds o
  have hMin := o.min
  have hKeysLength := h.keysLength
  have hPointersLength := h.pointersLength
  generalize hSplit : cut (o.order - 1) = split at *
  obtain ⟨W, hW, hOld⟩ : ∃ W, W.length = o.order - 1 - split ∧
      n.pointers.drop split = W ++ [link] := by
    rw [hPointers, List.length_append, List.length_append, List.length_map, List.length_map,
      List.length_singleton] at hPointersLength
    refine ⟨((es.map Prod.snd).map Ptr.record ++ K).drop split, ?_, ?_⟩
    · rw [List.length_drop, List.length_append, List.length_map, List.length_map]
      omega
    · rw [hPointers, List.drop_append_of_le_length]
      rw [List.length_append, List.length_map, List.length_map]
      omega
  have hNew : m.pointers.drop (o.order - split) = List.replicate (split - 1) .null ++ [.null] := by
    rw [hm]
    simp only [freshNode, List.drop_replicate]
    rw [show o.order - (o.order - split) = split - 1 + 1 by omega, List.replicate_succ']
  have hNewKeys : m.numKeys = 0 ∧ m.isLeaf = true ∧ m.keys.length = o.order - 1 ∧
      m.pointers.length = o.order := by simp [hm, freshNode]
  obtain ⟨hNumKeys, hLeaf, hNewKeysLength, hNewPointersLength⟩ := hNewKeys
  generalize hTempKeys : (L ++ R).map Prod.fst ++ [0] = tempKeys
  generalize hTempPointers : ((L ++ R).map Prod.snd).map Ptr.record ++ [.null] = tempPointers
  have hFillOld := fillNode (n := { n with numKeys := 0 }) (i := 0) (m := split)
    (f := fun i ks => copyCell ks i tempKeys i) (g := fun i ps => copyCell ps i tempPointers i)
    (P := []) (S := L.map Prod.fst) (T := []) (U := (L.map Prod.snd).map Ptr.record)
    (hTempKeys.symm.trans (by rw [List.map_append, List.append_assoc]; rfl))
    (hTempPointers.symm.trans (by rw [List.map_append, List.map_append, List.append_assoc]; rfl))
    rfl rfl (by simp [hL]) (by simp [hL]) (by simp only [hKeysLength]; omega)
    (by simp only [hPointersLength]; omega) (fun k _ l => by simp) (fun k _ l => by simp)
  have hFillNew := fillNode (n := m) (i := split) (m := o.order - split)
    (f := fun i ks => copyCell ks (i - split) tempKeys i)
    (g := fun i ps => copyCell ps (i - split) tempPointers i)
    (P := L.map Prod.fst) (S := R.map Prod.fst) (T := (L.map Prod.snd).map Ptr.record)
    (U := (R.map Prod.snd).map Ptr.record)
    (hTempKeys.symm.trans (by rw [List.map_append]))
    (hTempPointers.symm.trans (by rw [List.map_append, List.map_append]))
    (by simp [hL]) (by simp [hL]) (by simp [hR]) (by simp [hR])
    (by omega) (by omega) (fun k _ l => by simp) (fun k _ l => by simp)
  have hLink : copyCell ((R.map Prod.snd).map Ptr.record ++ m.pointers.drop (o.order - split))
      (o.order - 1) ((L.map Prod.snd).map Ptr.record ++ n.pointers.drop split) (o.order - 1) =
      some ((R.map Prod.snd).map Ptr.record ++ List.replicate (split - 1) .null ++ [link]) := by
    apply copyCell_eq (x := .null) (P := (L.map Prod.snd).map Ptr.record ++ W) (Q := [])
    · rw [hNew, List.append_assoc]
    · simp [hR]
      omega
    · rw [hOld, List.append_assoc]
    · simp [hL, hW]
      omega
  have hLink' : store ((L.map Prod.snd).map Ptr.record ++ n.pointers.drop split) (o.order - 1)
      (.node newId) = some ((L.map Prod.snd).map Ptr.record ++ W ++ [.node newId]) := by
    apply store_eq (x := link)
    · rw [hOld, List.append_assoc]
    · simp [hL, hW]
      omega
  have hClear := clearLeaf (U := (L.map Prod.snd).map Ptr.record) (p := .node newId) (i := 0 + split)
    (m := o.order - 1 - (0 + split)) (by simp [hL]) (hW.trans (by omega))
  have hClear' := clearLeaf (U := (R.map Prod.snd).map Ptr.record)
    (W := List.replicate (split - 1) .null) (p := link) (i := m.numKeys + (o.order - split))
    (m := o.order - 1 - (m.numKeys + (o.order - split))) (by simp [hR, hNumKeys])
    (by rw [List.length_replicate]; omega)
  refine ⟨{ n with
      keys := L.map Prod.fst ++ n.keys.drop split
      pointers := (L.map Prod.snd).map Ptr.record ++
        List.replicate (o.order - 1 - (0 + split)) .null ++ [.node newId]
      numKeys := 0 + split },
    { m with
      keys := R.map Prod.fst ++ m.keys.drop (o.order - split)
      pointers := (R.map Prod.snd).map Ptr.record ++
        List.replicate (o.order - 1 - (m.numKeys + (o.order - split))) .null ++ [link]
      numKeys := m.numKeys + (o.order - split), parent := n.parent }, ?_, ?_, ?_, rfl, rfl⟩
  · simp only [dealLeaf, hSplit, hFillOld, hFillNew, hLink, hLink', hClear, hClear',
      Option.bind_eq_bind, Option.bind_some, Option.pure_def]
  · constructor
    · exact h.isLeaf
    · simp [hL]
    · exact ⟨_, rfl⟩
    · exact ⟨_, rfl⟩
    · simp [hL, hKeysLength]
      omega
    · simp [hL]
      omega
  · constructor
    · exact hLeaf
    · simp [hR, hNumKeys]
    · exact ⟨_, rfl⟩
    · exact ⟨_, rfl⟩
    · simp [hR, hNewKeysLength]
      omega
    · simp [hR, hNumKeys]
      omega

theorem insertIntoNode_spec (key : UInt64) (right : NodeId) {n : Node} {c : NodeId}
    {P Q : List (UInt64 × NodeId)} (h : InnerNode o n c (P ++ Q)) (hRoom : (P ++ Q).length < o.order - 1) :
    ∃ n', insertIntoNode n P.length key right = some n' ∧
      InnerNode o n' c (P ++ (key, right) :: Q) ∧ n'.parent = n.parent := by
  obtain ⟨x, J, hKeys⟩ := h.freeKey hRoom
  obtain ⟨y, K, hPointers⟩ := h.freePointer hRoom
  have hCount : n.numKeys - P.length = Q.length := by
    rw [h.numKeys, List.length_append]
    omega
  obtain ⟨x', y', hLoop⟩ := openGap (n := n) (i := P.length) (m := Q.length) (x := x) (y := y)
    (f := fun i ks => copyCell ks i ks (i - 1)) (g := fun i ps => copyCell ps (i + 1) ps i)
    (A := P.map Prod.fst) (B := Q.map Prod.fst) (J := J)
    (C := (c :: P.map Prod.snd).map Ptr.node) (D := (Q.map Prod.snd).map Ptr.node) (K := K)
    (by simp [hKeys]) (by simp [hPointers]) (by simp) (by simp) (fun k _ l => by simp)
    (fun k _ l => by simp [Nat.add_right_comm])
  refine ⟨{ n with
    keys := P.map Prod.fst ++ key :: (Q.map Prod.fst ++ J)
    pointers := (c :: P.map Prod.snd).map Ptr.node ++
      .node right :: ((Q.map Prod.snd).map Ptr.node ++ K)
    numKeys := n.numKeys + 1 }, ?_, ?_, rfl⟩
  · simp only [insertIntoNode, Option.bind_eq_bind, hCount, hLoop, Option.bind_some]
    exact push_eq (store_eq rfl (by simp) _) (store_eq rfl (by simp) _)
  · have hKeysLength := h.keysLength
    have hPointersLength := h.pointersLength
    rw [hKeys] at hKeysLength
    rw [hPointers] at hPointersLength
    simp at hKeysLength hPointersLength
    constructor
    · exact h.isLeaf
    · simp [h.numKeys]
      omega
    · exact ⟨J, by simp⟩
    · exact ⟨K, by simp⟩
    · simp
      omega
    · simp
      omega

theorem nodeTemps_spec (key : UInt64) (right : NodeId) {n : Node} {c : NodeId}
    {P Q : List (UInt64 × NodeId)} (h : InnerNode o n c (P ++ Q)) (hFull : (P ++ Q).length = o.order - 1) :
    nodeTemps o n P.length key right = some ((P ++ (key, right) :: Q).map Prod.fst,
      (c :: (P ++ (key, right) :: Q).map Prod.snd).map Ptr.node) := by
  obtain ⟨J, hKeys⟩ := h.keys
  obtain ⟨K, hPointers⟩ := h.pointers
  have hMin := o.min
  rw [List.length_append] at hFull
  have hKeyTemp := forUp_gapped (f := fun i ks =>
      copyCell ks (if i < P.length then i else i + 1) n.keys i) (P.map Prod.fst) (Q.map Prod.fst) J
    (List.replicate P.length 0) (List.replicate Q.length 0) [] 0 (hKeys.trans (by simp)) rfl
    (by simp) (by simp) (fun i l => by rw [List.length_map])
  have hPointerTemp := forUp_gapped (f := fun i ps =>
      copyCell ps (if i < P.length + 1 then i else i + 1) n.pointers i)
    ((c :: P.map Prod.snd).map Ptr.node) ((Q.map Prod.snd).map Ptr.node) K
    (List.replicate (P.length + 1) .null) (List.replicate Q.length .null) [] .null
    (hPointers.trans (by simp)) rfl (by simp) (by simp) (fun i l => by simp)
  have hKeyRoom : List.replicate P.length 0 ++ 0 :: (List.replicate Q.length 0 ++ []) =
      List.replicate o.order (0 : UInt64) := by
    rw [List.append_nil, ← List.replicate_succ, List.replicate_append_replicate]
    congr 1
    omega
  have hPointerRoom : List.replicate (P.length + 1) .null ++
      .null :: (List.replicate Q.length .null ++ []) = List.replicate (o.order + 1) Ptr.null := by
    rw [List.append_nil, ← List.replicate_succ, List.replicate_append_replicate]
    congr 1
    omega
  rw [hKeyRoom, List.length_map, List.length_map] at hKeyTemp
  rw [hPointerRoom, List.length_map, List.length_cons, List.length_map, List.length_map,
    List.length_map] at hPointerTemp
  obtain ⟨j, hKeyTemp⟩ := forUp_skipping (fun i j temp => copyCell temp j n.keys i) hKeyTemp
  obtain ⟨j', hPointerTemp⟩ := forUp_skipping (fun i j temp => copyCell temp j n.pointers i) hPointerTemp
  rw [if_pos (Nat.zero_le _)] at hKeyTemp hPointerTemp
  have hCount : n.numKeys = P.length + Q.length := by rw [h.numKeys, List.length_append]
  have hCount' : n.numKeys + 1 = P.length + 1 + Q.length := by omega
  rw [← hCount'] at hPointerTemp
  rw [← hCount] at hKeyTemp
  simp only [nodeTemps, Option.bind_eq_bind, hPointerTemp, hKeyTemp, Option.bind_some, Option.pure_def]
  rw [store_eq rfl (by simp), Option.bind_some, store_eq rfl (by simp), Option.bind_some]
  simp

theorem cons_eq_concat {α : Type*} (a : α) (l : List α) :
    ∃ U u, a :: l = U ++ [u] ∧ U.length = l.length := by
  refine ⟨(a :: l).dropLast, (a :: l).getLast (List.cons_ne_nil a l), ?_, by simp⟩
  exact (List.dropLast_append_getLast _).symm

theorem dealNode_spec (c d : NodeId) (kPrime : UInt64) {n m : Node} {c' : NodeId}
    {prs L R : List (UInt64 × NodeId)} (h : InnerNode o n c' prs) (hm : m = freshNode o)
    (hL : L.length = cut o.order - 1) (hR : R.length = o.order - cut o.order) :
    ∃ n' m', dealNode o n m ((L ++ (kPrime, d) :: R).map Prod.fst)
        ((c :: (L ++ (kPrime, d) :: R).map Prod.snd).map Ptr.node) = some (n', kPrime, m') ∧
      InnerNode o n' c L ∧ InnerNode o m' d R ∧ n'.parent = n.parent ∧ m'.parent = n.parent := by
  obtain ⟨hCutMin, hCutMax, _⟩ := cut_bounds o
  have hKeysLength := h.keysLength
  have hPointersLength := h.pointersLength
  generalize hSplit : cut o.order = split at *
  have hNew : m.numKeys = 0 ∧ m.isLeaf = false ∧ m.keys.length = o.order - 1 ∧
      m.pointers.length = o.order := by simp [hm, freshNode]
  obtain ⟨hNumKeys, hInner, hNewKeysLength, hNewPointersLength⟩ := hNew
  obtain ⟨U, u, hLeft, hU⟩ := cons_eq_concat c (L.map Prod.snd)
  obtain ⟨V, v, hRight, hV⟩ := cons_eq_concat d (R.map Prod.snd)
  rw [List.length_map] at hU hV
  have hTempKeys : (L ++ (kPrime, d) :: R).map Prod.fst = L.map Prod.fst ++ kPrime :: R.map Prod.fst := by
    simp
  have hTempPointers : (c :: (L ++ (kPrime, d) :: R).map Prod.snd).map Ptr.node =
      U.map Ptr.node ++ .node u :: (V.map Ptr.node ++ [.node v]) := by
    have hAll : c :: (L ++ (kPrime, d) :: R).map Prod.snd = (U ++ [u]) ++ (V ++ [v]) := by
      rw [← hLeft, ← hRight]
      simp
    rw [hAll]
    simp
  rw [hTempKeys, hTempPointers]
  generalize hKeys : L.map Prod.fst ++ kPrime :: R.map Prod.fst = tempKeys
  generalize hPointers : U.map Ptr.node ++ .node u :: (V.map Ptr.node ++ [.node v]) = tempPointers
  have hFillOld := fillNode (n := { n with numKeys := 0 }) (i := 0) (m := split - 1)
    (f := fun i ks => copyCell ks i tempKeys i) (g := fun i ps => copyCell ps i tempPointers i)
    (P := []) (S := L.map Prod.fst) (T := []) (U := U.map Ptr.node) hKeys.symm hPointers.symm
    rfl rfl (by simp [hL]) (by simp [hU, hL]) (by simp only [hKeysLength]; omega)
    (by simp only [hPointersLength]; omega) (fun k _ l => by simp) (fun k _ l => by simp)
  have hFillNew := fillNode (n := m) (i := split) (m := o.order - split)
    (f := fun i ks => copyCell ks (i - split) tempKeys i)
    (g := fun i ps => copyCell ps (i - split) tempPointers i)
    (P := L.map Prod.fst ++ [kPrime]) (S := R.map Prod.fst) (Q := []) (T := U.map Ptr.node ++ [.node u])
    (U := V.map Ptr.node) (V := [.node v])
    (hKeys.symm.trans (by simp)) (hPointers.symm.trans (by simp))
    (by simp [hL]; omega) (by simp [hU, hL]; omega) (by simp [hR]) (by simp [hV, hR])
    (by omega) (by omega) (fun k _ l => by simp) (fun k _ l => by simp)
  obtain ⟨y, K, hOld⟩ : ∃ y K, n.pointers.drop (split - 1) = y :: K :=
    List.exists_cons_of_length_pos (by rw [List.length_drop]; omega)
  obtain ⟨z, K', hFresh⟩ : ∃ z K', m.pointers.drop (o.order - split) = z :: K' :=
    List.exists_cons_of_length_pos (by rw [List.length_drop]; omega)
  have hLast : copyCell (U.map Ptr.node ++ n.pointers.drop (split - 1)) (split - 1) tempPointers
      (split - 1) = some (U.map Ptr.node ++ .node u :: K) :=
    copyCell_eq (congrArg _ hOld) (by simp [hU, hL]) hPointers.symm (by simp [hU, hL])
  have hLast' : copyCell (V.map Ptr.node ++ m.pointers.drop (o.order - split)) (o.order - split)
      tempPointers o.order = some (V.map Ptr.node ++ .node v :: K') := by
    apply copyCell_eq (congrArg _ hFresh) (by simp [hV, hR]) (P := U.map Ptr.node ++ .node u :: V.map Ptr.node)
      (Q := [])
    · rw [← hPointers]
      simp
    · simp [hU, hV, hL, hR]
      omega
  have hMiddle : tempKeys[split - 1]? = some kPrime := getElem?_eq hKeys.symm (by simp [hL])
  have hOldLength := congrArg List.length hOld
  have hFreshLength := congrArg List.length hFresh
  rw [List.length_drop, List.length_cons] at hOldLength hFreshLength
  refine ⟨{ n with
      keys := L.map Prod.fst ++ n.keys.drop (split - 1)
      pointers := U.map Ptr.node ++ .node u :: K
      numKeys := 0 + (split - 1) },
    { m with
      keys := R.map Prod.fst ++ m.keys.drop (o.order - split)
      pointers := V.map Ptr.node ++ .node v :: K'
      numKeys := m.numKeys + (o.order - split), parent := n.parent }, ?_, ?_, ?_, rfl, rfl⟩
  · simp only [dealNode, hSplit, hFillOld, hLast, hMiddle, hFillNew, hLast', Option.bind_eq_bind,
      Option.bind_some, Option.pure_def]
  · constructor
    · exact h.isLeaf
    · simp [hL]
    · exact ⟨_, rfl⟩
    · exact ⟨K, by rw [hLeft]; simp⟩
    · simp [hL, hKeysLength]
      omega
    · simp [hU, hL]
      omega
  · constructor
    · exact hInner
    · simp [hR, hNumKeys]
    · exact ⟨_, rfl⟩
    · exact ⟨K', by rw [hRight]; simp⟩
    · simp [hR, hNewKeysLength]
      omega
    · simp [hV, hR]
      omega

end Insertion

end Trident.Btree
