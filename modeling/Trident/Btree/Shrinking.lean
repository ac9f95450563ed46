import Trident.Btree.Siblings

/-! # Deletion above the leaves

A node with too few keys merges with a sibling or takes a key from it. A merge
takes a key and a child from the parent, which may fall short in turn.
-/

namespace Trident.Btree

open Loops Expansion

variable {o : TreeOrder}

section Calls

variable {h : Heap} {root p q : NodeId} {d i fuel : Nat} {above : List NodeId} {key k : UInt64}
  {pointer : Ptr} {node : Node}

theorem ofNat_ne_noNeighbor (hi : i < 20) : UInt64.ofNat i ≠ noNeighbor ∧ (UInt64.ofNat i).toNat = i := by
  have hToNat : (UInt64.ofNat i).toNat = i := by
    rw [UInt64.toNat_ofNat']
    omega
  refine ⟨fun hEq => ?_, hToNat⟩
  have hLast : noNeighbor.toNat = 2 ^ 64 - 1 := by decide
  rw [← hEq, hToNat] at hLast
  omega

theorem deleteEntry_right {A B : List Tok} {r : NodeId}
    (hRemove : removeEntryFromNode o (h.nodes p) key pointer = some node) (hRoot : p ≠ root)
    (hThin : node.numKeys < if node.isLeaf then cut (o.order - 1) else cut o.order - 1)
    (hSib : Siblings o (h.set p node) root d above A p k r B q 0) :
    deleteEntry o (fuel + 1) h root p key pointer =
      if ((h.set p node).nodes r).numKeys + node.numKeys <
          if node.isLeaf then o.order else o.order - 1 then
        coalesceNodes o (deleteEntry o fuel) (h.set p node) root p r noNeighbor k
      else redistributeNodes (h.set p node) root p r noNeighbor 0 k := by
  have hParent : node.parent = some q := by
    rw [← hSib.parentLeft, set_nodes_self]
  have hIndex : getNeighborIndex (h.set p node) p = some noNeighbor := by
    rw [getNeighborIndex, hSib.parentLeft]
    simp only [Option.bind_eq_bind, Option.bind_some, hSib.indexLeft, if_pos (Nat.zero_le _)]
    rfl
  rw [deleteEntry, hRemove]
  simp only [Option.bind_eq_bind, Option.bind_some, if_neg hRoot, if_neg (Nat.not_le.mpr hThin), hIndex,
    hParent, if_true, hSib.key, hSib.right, Ptr.asNode]

theorem deleteEntry_left {A B : List Tok} {l : NodeId}
    (hRemove : removeEntryFromNode o (h.nodes p) key pointer = some node) (hRoot : p ≠ root)
    (hThin : node.numKeys < if node.isLeaf then cut (o.order - 1) else cut o.order - 1)
    (hSib : Siblings o (h.set p node) root d above A l k p B q i) :
    deleteEntry o (fuel + 1) h root p key pointer =
      if ((h.set p node).nodes l).numKeys + node.numKeys <
          if node.isLeaf then o.order else o.order - 1 then
        coalesceNodes o (deleteEntry o fuel) (h.set p node) root p l (UInt64.ofNat i) k
      else redistributeNodes (h.set p node) root p l (UInt64.ofNat i) i k := by
  have hParent : node.parent = some q := by
    rw [← hSib.parentRight, set_nodes_self]
  obtain ⟨hLast, hMax⟩ := hSib.inUse
  obtain ⟨hNeighbor, hToNat⟩ := ofNat_ne_noNeighbor (show i < 20 by omega)
  have hPred : UInt64.ofNat (i + 1) - 1 = UInt64.ofNat i := by
    rw [UInt64.ofNat_add]
    exact UInt64.add_sub_cancel _ _
  have hIndex : getNeighborIndex (h.set p node) p = some (UInt64.ofNat i) := by
    rw [getNeighborIndex, hSib.parentRight]
    simp only [Option.bind_eq_bind, Option.bind_some, hSib.indexRight, if_pos hLast, hPred]
    rfl
  rw [deleteEntry, hRemove]
  simp only [Option.bind_eq_bind, Option.bind_some, if_neg hRoot, if_neg (Nat.not_le.mpr hThin), hIndex,
    hParent, if_neg hNeighbor, hToNat, hSib.key, hSib.left, Ptr.asNode]

/-- In either case the left node takes over the right one. -/
theorem coalesceNodes_right (up : Heap → NodeId → NodeId → UInt64 → Ptr → Option (Heap × Option NodeId))
    (h : Heap) (root l r : NodeId) (k : UInt64) :
    coalesceNodes o up h root l r noNeighbor k = coalesceNodes o up h root r l 0 k := rfl

theorem coalesceNodes_left (up : Heap → NodeId → NodeId → UInt64 → Ptr → Option (Heap × Option NodeId))
    (h : Heap) (root l r : NodeId) (k : UInt64) (hi : i < 20) :
    coalesceNodes o up h root r l (UInt64.ofNat i) k = coalesceNodes o up h root r l 0 k := by
  have hZero : (0 : UInt64) ≠ noNeighbor := by decide
  rw [coalesceNodes, coalesceNodes, if_neg (ofNat_ne_noNeighbor hi).1, if_neg hZero]

end Calls

section Merging

/-- What is expected of the call that takes the key before `r` and `r` out of their parent. -/
def Absorbs (o : TreeOrder) (d : Nat)
    (up : Heap → NodeId → NodeId → UInt64 → Ptr → Option (Heap × Option NodeId)) : Prop :=
  ∀ {h : Heap} {root l r q : NodeId} {k : UInt64} {above extra : List NodeId} {A B : List Tok},
    Upper o h root d above (A ++ .node l :: .sep k :: .node r :: B) →
    (h.nodes l).parent = some q → (h.nodes r).parent = some q →
    (seps (A ++ .node l :: .sep k :: .node r :: B)).Nodup →
    NodePool h (above ++ (ids (A ++ .node l :: .sep k :: .node r :: B) ++ extra)) →
    ∃ h' root' d' above', up h root q k (.node r) = some (h', some root') ∧
      Upper o h' root' d' above' (A ++ .node l :: B) ∧
      NodePool h' (above' ++ (ids (A ++ .node l :: .sep k :: .node r :: B) ++ extra)) ∧
      Frame h h' (ids (A ++ .node l :: .sep k :: .node r :: B)) extra

variable {up : Heap → NodeId → NodeId → UInt64 → Ptr → Option (Heap × Option NodeId)}
  {h : Heap} {root l r q : NodeId} {k : UInt64} {d : Nat} {above extra : List NodeId} {A B : List Tok}

theorem Absorbs.release (extra : List NodeId) (hAbsorbs : Absorbs o d up)
    (hUp : Upper o h root d above (A ++ .node l :: .sep k :: .node r :: B))
    (hLeft : (h.nodes l).parent = some q) (hRight : (h.nodes r).parent = some q)
    (hSeps : (seps (A ++ .node l :: .sep k :: .node r :: B)).Nodup)
    (hPool : NodePool h (above ++ (ids (A ++ .node l :: .sep k :: .node r :: B) ++ extra))) :
    ∃ h' root' d' above',
      ((up h root q k (.node r)).bind fun s => some (releaseNode s.1 r, s.2)) = some (h', some root') ∧
      Upper o h' root' d' above' (A ++ .node l :: B) ∧
      NodePool h' (above' ++ (ids (A ++ .node l :: B) ++ extra)) ∧
      Frame h h' (ids (A ++ .node l :: B)) extra := by
  obtain ⟨h₁, root', d', above', hCall, hUp₁, hPool₁, hFrame⟩ := hAbsorbs hUp hLeft hRight hSeps hPool
  have hMove : NodePool h₁ (r :: (above' ++ (ids (A ++ .node l :: B) ++ extra))) := by
    apply hPool₁.perm
    rw [List.perm_iff_count]
    intro y
    simp only [ids_append, ids_cons_node, ids_cons_sep, List.count_append, List.count_cons]
    omega
  obtain ⟨hPool', hRecords, hSame⟩ := releaseNode_spec hMove
  have hOut : ∀ y ∈ above' ++ (ids (A ++ .node l :: B) ++ extra), y ≠ r := by
    have hNodup := hMove.nodup
    rw [List.nodup_cons] at hNodup
    exact fun y hy => ne_of_mem_of_not_mem hy hNodup.1
  refine ⟨releaseNode h₁ r, root', d', above', by rw [hCall]; rfl, ?_, hPool', ?_, ?_, ?_⟩
  · apply hUp₁.congr
    · exact fun y hy => hSame y (hOut y (List.mem_append_left _ hy))
    · intro y hy
      rw [hSame y (hOut y (List.mem_append_right _ (List.mem_append_left _ hy)))]
  · exact hFrame.records.trans hRecords
  · intro y hy
    rw [hSame y (hOut y (List.mem_append_right _ (List.mem_append_right _ hy)))]
    exact hFrame.extra y hy
  · intro y hy
    rw [hSame y (hOut y (List.mem_append_right _ (List.mem_append_left _ hy)))]
    apply hFrame.row
    simp only [ids_append, ids_cons_node, ids_cons_sep, List.mem_append, List.mem_cons] at hy ⊢
    tauto

theorem apart_siblings (hNodup : (ids (A ++ .node l :: .sep k :: .node r :: B)).Nodup) :
    r ≠ l ∧ (l ∉ ids A ∧ r ∉ ids A) ∧ l ∉ ids B ∧ r ∉ ids B := by
  simp only [ids_append, ids_cons_node, ids_cons_sep] at hNodup
  rw [List.nodup_middle, List.nodup_cons, List.nodup_middle, List.nodup_cons] at hNodup
  simp only [List.mem_append, List.mem_cons] at hNodup
  tauto

theorem parent_apart (hq : q ∈ above)
    (hApart : List.Disjoint above (ids (A ++ .node l :: .sep k :: .node r :: B))) :
    q ≠ l ∧ q ≠ r := by
  constructor
  · rintro rfl
    exact hApart hq (by simp)
  · rintro rfl
    exact hApart hq (by simp)

theorem root_notMem_row (hUp : Upper o h root d above (A ++ .node l :: .sep k :: .node r :: B))
    (hApart : above.Disjoint (ids (A ++ .node l :: .sep k :: .node r :: B))) :
    root ∉ ids (A ++ .node l :: .sep k :: .node r :: B) := by
  obtain ⟨_, _, hRow⟩ | ⟨_, hMem⟩ := hUp.root_cases
  · have hLength := congrArg List.length hRow
    simp only [List.length_append, List.length_cons, List.length_nil] at hLength
    omega
  · exact fun hIn => hApart hMem hIn

theorem coalesceNodes_node (hAbsorbs : Absorbs o d up) {c e : NodeId} {L R : List (UInt64 × NodeId)}
    {PA PB : List Tok} (hUp : Upper o h root d above (A ++ .node l :: .sep k :: .node r :: B))
    (hA : Expands (Inner o h root) A PA) (hB : Expands (Inner o h root) B PB)
    (hLeft : InnerNode o (h.nodes l) c L) (hRight : InnerNode o (h.nodes r) e R)
    (hParents : (h.nodes l).parent = some q ∧ (h.nodes r).parent = some q)
    (hSeps : (seps (A ++ .node l :: .sep k :: .node r :: B)).Nodup)
    (hPool : NodePool h (above ++ (ids (A ++ .node l :: .sep k :: .node r :: B) ++
      (ids (PA ++ (weave c (L ++ (k, e) :: R) ++ PB)) ++ extra))))
    (hRoom : L.length + R.length < o.order - 1) (hFloor : cut o.order - 1 ≤ L.length + R.length + 1) :
    ∃ h' root' d' above', coalesceNodes o up h root r l 0 k = some (h', some root') ∧
      Upper o h' root' d' above' (PA ++ (weave c (L ++ (k, e) :: R) ++ PB)) ∧
      NodePool h' (above' ++ (ids (PA ++ (weave c (L ++ (k, e) :: R) ++ PB)) ++ extra)) ∧
      Frame h h' (ids (PA ++ (weave c (L ++ (k, e) :: R) ++ PB))) extra := by
  obtain ⟨left, hAppend, hNode, hParent⟩ := appendNode_spec k hLeft hRight hRoom
  obtain ⟨_, hLower, hApart⟩ := List.nodup_append'.mp hPool.nodup
  obtain ⟨hRow, hRest, hApart'⟩ := List.nodup_append'.mp hLower
  obtain ⟨hBelow, _, hExtra⟩ := List.nodup_append'.mp hRest
  obtain ⟨hrl, ⟨hlA, hrA⟩, hlB, hrB⟩ := apart_siblings hRow
  have hRoot := root_notMem_row hUp fun _ hx hIn => hApart hx (List.mem_append_left _ hIn)
  generalize hKids : c :: (L ++ (k, e) :: R).map Prod.snd = kids
  have hKidsBelow : ids (PA ++ (weave c (L ++ (k, e) :: R) ++ PB)) = ids PA ++ (kids ++ ids PB) := by
    rw [ids_append, ids_append, ids_weave, hKids]
  have hKidsRow : ∀ y ∈ above ++ ids (A ++ .node l :: .sep k :: .node r :: B), y ∉ kids := by
    intro y hy hIn
    have hyBelow : y ∈ ids (PA ++ (weave c (L ++ (k, e) :: R) ++ PB)) ++ extra := by
      rw [hKidsBelow]
      simp [hIn]
    obtain hy | hy := List.mem_append.mp hy
    · exact hApart hy (List.mem_append_right _ hyBelow)
    · exact hApart' hy hyBelow
  -- the heap in which the parent is changed
  generalize hMerged : adoptAll ((h.set l left).set r { h.nodes r with numKeys := 0 }) kids l = h₁
  have hlKids : l ∉ kids := hKidsRow l (by simp)
  have hrKids : r ∉ kids := hKidsRow r (by simp)
  have hl₁ : h₁.nodes l = left := by
    rw [← hMerged, adoptAll_of_notMem hlKids, set_nodes_of_ne _ _ hrl.symm, set_nodes_self]
  have hr₁ : (h₁.nodes r).parent = (h.nodes r).parent := by
    rw [← hMerged, adoptAll_of_notMem hrKids, set_nodes_self]
  have hKids₁ : ∀ y ∈ kids, (h₁.nodes y).parent = some l := by
    rw [← hMerged]
    exact fun y hy => adoptAll_parent hy _ l
  have hBody₁ : ∀ y, y ≠ l → y ≠ r → SameBody (h.nodes y) (h₁.nodes y) := by
    intro y hyl hyr
    rw [← hMerged]
    refine SameBody.trans ?_ (adoptAll_sameBody _ _ _ _)
    rw [set_nodes_of_ne _ _ hyr, set_nodes_of_ne _ _ hyl]
    exact .refl _
  have hOther₁ : ∀ y, y ≠ l → y ≠ r → y ∉ kids → h₁.nodes y = h.nodes y := by
    intro y hyl hyr hyKids
    rw [← hMerged, adoptAll_of_notMem hyKids, set_nodes_of_ne _ _ hyr, set_nodes_of_ne _ _ hyl]
  have hRecords₁ : SameRecords h h₁ := by
    rw [← hMerged]
    exact (sameRecords_set _ _ _).trans ((sameRecords_set _ _ _).trans (adoptAll_records _ _ _))
  have hUp₁ : Upper o h₁ root d above (A ++ .node l :: .sep k :: .node r :: B) := by
    apply hUp.congr
    · intro y hy
      have hyRow : y ∉ ids (A ++ .node l :: .sep k :: .node r :: B) := fun hIn =>
        hApart hy (List.mem_append_left _ hIn)
      exact hOther₁ y (by rintro rfl; simp at hyRow) (by rintro rfl; simp at hyRow)
        (hKidsRow y (List.mem_append_left _ hy))
    · intro y hy
      rcases eq_or_ne y l with hyl | hyl
      · rw [hyl, hl₁, hParent]
      · rcases eq_or_ne y r with hyr | hyr
        · rw [hyr, hr₁]
        · rw [hOther₁ y hyl hyr (hKidsRow y (List.mem_append_right _ hy))]
  have hPool₁ : NodePool h₁ (above ++ (ids (A ++ .node l :: .sep k :: .node r :: B) ++
      (ids (PA ++ (weave c (L ++ (k, e) :: R) ++ PB)) ++ extra))) := by
    rw [← hMerged]
    apply NodePool.adoptAll ((hPool.set (by simp) left).set (by simp) _)
    rw [hKidsBelow]
    intro y hy
    simp [hy]
  obtain ⟨h₂, root', d', above', hCall, hUp₂, hPool₂, hFrame⟩ := hAbsorbs.release _ hUp₁
    (by rw [hl₁, hParent, hParents.1]) (hr₁.trans hParents.2) hSeps hPool₁
  have hStay : ∀ y ∈ ids (PA ++ (weave c (L ++ (k, e) :: R) ++ PB)) ++ extra,
      h₂.nodes y = h₁.nodes y := hFrame.extra
  have hBelow₁ : ∀ y ∈ ids (PA ++ (weave c (L ++ (k, e) :: R) ++ PB)) ++ extra, y ≠ l ∧ y ≠ r := by
    intro y hy
    constructor
    · rintro rfl
      exact hApart' (by simp) hy
    · rintro rfl
      exact hApart' (by simp) hy
  have hBody : ∀ y ∈ ids (A ++ .node l :: B), y ≠ l → y ≠ r → SameBody (h.nodes y) (h₂.nodes y) :=
    fun y hy hyl hyr => (hBody₁ y hyl hyr).trans (hFrame.row y hy)
  have hKidsNodup : (ids PA ++ (kids ++ ids PB)).Nodup := hKidsBelow ▸ hBelow
  obtain ⟨_, hKidsRest, hPAKids⟩ := List.nodup_append'.mp hKidsNodup
  have hPBKids := (List.nodup_append'.mp hKidsRest).2.2
  have hParents₂ : ∀ y ∈ ids (PA ++ (weave c (L ++ (k, e) :: R) ++ PB)), y ∉ kids →
      (h₂.nodes y).parent = (h.nodes y).parent := by
    intro y hy hyKids
    obtain ⟨hyl, hyr⟩ := hBelow₁ y (List.mem_append_left _ hy)
    rw [hStay y (List.mem_append_left _ hy), hOther₁ y hyl hyr hyKids]
  have hA' : Expands (Inner o h₂ root') A PA := by
    apply expands_congr hA
    · exact fun y hy => hBody y (by simp [hy]) (ne_of_mem_of_not_mem hy hlA)
        (ne_of_mem_of_not_mem hy hrA)
    · exact fun hIn => absurd (by simp [hIn]) hRoot
    · exact fun y hy => hParents₂ y (by simp [hy]) fun hIn => hPAKids hy (by simp [hIn])
  have hB' : Expands (Inner o h₂ root') B PB := by
    apply expands_congr hB
    · exact fun y hy => hBody y (by simp [hy]) (ne_of_mem_of_not_mem hy hlB)
        (ne_of_mem_of_not_mem hy hrB)
    · exact fun hIn => absurd (by simp [hIn]) hRoot
    · exact fun y hy => hParents₂ y (by simp [hy]) fun hIn => hPBKids hIn hy
  have hInner : Inner o h₂ root' (.node l) (weave c (L ++ (k, e) :: R)) := by
    refine .node ?_ (Or.inl ?_) fun y hy => ?_
    · exact hNode.sameBody (hl₁ ▸ hFrame.row l (by simp))
    · rw [List.length_append, List.length_cons]
      omega
    · rw [hKids] at hy
      rw [hStay y (by rw [hKidsBelow]; simp [hy]), hKids₁ y hy]
  refine ⟨h₂, root', d' + 1, _, ?_, hUp₂.down (Expands.mid hA' hInner hB'), ?_, ?_, ?_, ?_⟩
  · rw [← hCall, coalesceNodes, if_neg (show (0 : UInt64) ≠ noNeighbor by decide)]
    have hInternal : ¬ (h.nodes r).isLeaf = true := by simp [hRight.isLeaf]
    simp only [if_neg hInternal, hAppend, Option.bind_eq_bind, Option.bind_some, Option.pure_def,
      adopt_eq hNode, hKids, hMerged]
    rw [hParents.2]
    rfl
  · rwa [List.append_assoc]
  · exact hRecords₁.trans hFrame.records
  · intro y hy
    obtain ⟨hyl, hyr⟩ := hBelow₁ y (List.mem_append_right _ hy)
    rw [hStay y (List.mem_append_right _ hy), hOther₁ y hyl hyr fun hIn =>
      hExtra (by rw [hKidsBelow]; simp [hIn]) hy]
  · intro y hy
    obtain ⟨hyl, hyr⟩ := hBelow₁ y (List.mem_append_left _ hy)
    rw [hStay y (List.mem_append_left _ hy)]
    exact hBody₁ y hyl hyr

end Merging

section Redistribution

variable {h h' : Heap} {root l r q : NodeId} {k : UInt64} {d i : Nat} {above extra : List NodeId}
  {A B PA PB : List Tok} {c e : NodeId} {L R : List (UInt64 × NodeId)}

/-- The child `x` changes sides; the row below stays. -/
theorem redistribute_rows {k' : UInt64} {e' x : NodeId} {L' R' : List (UInt64 × NodeId)}
    (hSib : Siblings o h root d above A l k r B q i)
    (hA : Expands (Inner o h root) A PA) (hB : Expands (Inner o h root) B PB)
    (hLeft : InnerNode o (h'.nodes l) c L') (hRight : InnerNode o (h'.nodes r) e' R')
    (hPairs : L' ++ (k', e') :: R' = L ++ (k, e) :: R)
    (hFill : cut o.order - 1 ≤ L'.length ∧ cut o.order - 1 ≤ R'.length)
    (hParents : (h'.nodes l).parent = (h.nodes l).parent ∧ (h'.nodes r).parent = (h.nodes r).parent)
    (hKids : (∀ y ∈ c :: L'.map Prod.snd, (h'.nodes y).parent = some l) ∧
      ∀ y ∈ e' :: R'.map Prod.snd, (h'.nodes y).parent = some r)
    (hKey : h'.nodes q = { h.nodes q with keys := (h.nodes q).keys.set i k' })
    (hOthers : ∀ y, y ≠ l → y ≠ r → y ≠ q → y ≠ x → h'.nodes y = h.nodes y)
    (hx : x ∈ c :: (L ++ (k, e) :: R).map Prod.snd)
    (hNodup : (above ++ (ids (A ++ .node l :: .sep k :: .node r :: B) ++
      (ids (PA ++ (weave c (L ++ (k, e) :: R) ++ PB)) ++ extra))).Nodup) :
    Upper o h' root (d + 1) (above ++ ids (A ++ .node l :: .sep k :: .node r :: B))
      (PA ++ (weave c (L ++ (k, e) :: R) ++ PB)) := by
  obtain ⟨_, hLower, hApart⟩ := List.nodup_append'.mp hNodup
  obtain ⟨hRow, hRest, hApart'⟩ := List.nodup_append'.mp hLower
  obtain ⟨hBelow, _, _⟩ := List.nodup_append'.mp hRest
  obtain ⟨hrl, ⟨hlA, hrA⟩, hlB, hrB⟩ := apart_siblings hRow
  generalize hAll : c :: (L ++ (k, e) :: R).map Prod.snd = kids at hx
  have hKidsBelow : ids (PA ++ (weave c (L ++ (k, e) :: R) ++ PB)) = ids PA ++ (kids ++ ids PB) := by
    rw [ids_append, ids_append, ids_weave, hAll]
  rw [hKidsBelow] at hBelow hApart hApart'
  obtain ⟨_, hKidsRest, hPAKids⟩ := List.nodup_append'.mp hBelow
  have hPBKids := (List.nodup_append'.mp hKidsRest).2.2
  have hxApart : x ∉ above ∧ x ∉ ids (A ++ .node l :: .sep k :: .node r :: B) :=
    ⟨fun hIn => hApart hIn (by simp [hx]), fun hIn => hApart' hIn (by simp [hx])⟩
  have hAboveRow : ∀ y ∈ above, y ∉ ids (A ++ .node l :: .sep k :: .node r :: B) :=
    fun y hy hIn => hApart hy (List.mem_append_left _ hIn)
  have hqRow := hAboveRow q hSib.mem
  have hRowSame : ∀ y ∈ ids (A ++ .node l :: .sep k :: .node r :: B), y ≠ l → y ≠ r →
      h'.nodes y = h.nodes y := fun y hy hyl hyr =>
    hOthers y hyl hyr (ne_of_mem_of_not_mem hy hqRow) (ne_of_mem_of_not_mem hy hxApart.2)
  have hBelowSame : ∀ y ∈ ids PA ++ (kids ++ ids PB), y ≠ x → h'.nodes y = h.nodes y := by
    intro y hy hyx
    have hyRow : y ∉ ids (A ++ .node l :: .sep k :: .node r :: B) := fun hIn =>
      hApart' hIn (List.mem_append_left _ hy)
    refine hOthers y ?_ ?_ ?_ hyx
    · rintro rfl
      simp at hyRow
    · rintro rfl
      simp at hyRow
    · rintro rfl
      exact hApart hSib.mem (List.mem_append_right _ (List.mem_append_left _ hy))
  have hUp' : Upper o h' root d above (A ++ .node l :: .sep k' :: .node r :: B) := by
    apply hSib.replace h' k' hKey
    · intro y hy hyq
      have hyRow := hAboveRow y hy
      exact hOthers y (by rintro rfl; simp at hyRow) (by rintro rfl; simp at hyRow) hyq
        (ne_of_mem_of_not_mem hy hxApart.1)
    · intro y hy
      rcases eq_or_ne y l with hyl | hyl
      · rw [hyl, hParents.1]
      · rcases eq_or_ne y r with hyr | hyr
        · rw [hyr, hParents.2]
        · rw [hRowSame y hy hyl hyr]
  have hA' : Expands (Inner o h' root) A PA := by
    apply expands_congr hA
    · exact fun y hy => .of_eq (hRowSame y (by simp [hy]) (ne_of_mem_of_not_mem hy hlA)
        (ne_of_mem_of_not_mem hy hrA))
    · exact fun _ => rfl
    · intro y hy
      rw [hBelowSame y (by simp [hy]) fun hEq => hPAKids hy (by simp [hEq, hx])]
  have hB' : Expands (Inner o h' root) B PB := by
    apply expands_congr hB
    · exact fun y hy => .of_eq (hRowSame y (by simp [hy]) (ne_of_mem_of_not_mem hy hlB)
        (ne_of_mem_of_not_mem hy hrB))
    · exact fun _ => rfl
    · intro y hy
      rw [hBelowSame y (by simp [hy]) fun hEq => hPBKids hx (hEq ▸ hy)]
  have hl : Inner o h' root (.node l) (weave c L') := .node hLeft (Or.inl hFill.1) hKids.1
  have hr : Inner o h' root (.node r) (weave e' R') := .node hRight (Or.inl hFill.2) hKids.2
  have hDown := hUp'.down (Expands.mid hA' hl (.cons (.sep k') (.cons hr hB')))
  have hWeave : PA ++ (weave c L' ++ ([.sep k'] ++ (weave e' R' ++ PB))) =
      PA ++ (weave c (L ++ (k, e) :: R) ++ PB) := by
    rw [← hPairs, weave_append_cons]
    simp
  rw [hWeave] at hDown
  simpa using hDown

/-- The heap after `n` has got `node`, its neighbor `m` has got `other`, the children in `moved`
have gone to `n`, and their parent `q` has got a new key. -/
structure Exchanged (h h' : Heap) (n m q : NodeId) (node other parent : Node) (moved : List NodeId) :
    Prop where
  self : h'.nodes n = node
  neighbor : h'.nodes m = other
  parent : h'.nodes q = parent
  adopted : ∀ x ∈ moved, h'.nodes x = { h.nodes x with parent := some n }
  others : ∀ y, y ≠ n → y ≠ m → y ≠ q → y ∉ moved → h'.nodes y = h.nodes y
  records : SameRecords h h'
  pool : ∀ {live : List NodeId}, NodePool h live → n ∈ live → m ∈ live → q ∈ live →
    (∀ x ∈ moved, x ∈ live) → NodePool h' live

theorem exchanged (h : Heap) {n m q : NodeId} (node other parent : Node) (moved : List NodeId)
    (hnm : n ≠ m) (hq : q ≠ n ∧ q ≠ m) (hMoved : n ∉ moved ∧ m ∉ moved ∧ q ∉ moved) :
    Exchanged h ((adoptAll ((h.set n node).set m other) moved n).set q parent) n m q node other parent
      moved := by
  constructor
  · rw [set_nodes_of_ne _ _ hq.1.symm, adoptAll_of_notMem hMoved.1, set_nodes_of_ne _ _ hnm,
      set_nodes_self]
  · rw [set_nodes_of_ne _ _ hq.2.symm, adoptAll_of_notMem hMoved.2.1, set_nodes_self]
  · exact set_nodes_self _ _ _
  · intro x hx
    rw [set_nodes_of_ne _ _ (ne_of_mem_of_not_mem hx hMoved.2.2), adoptAll_nodes, if_pos hx,
      set_nodes_of_ne _ _ (ne_of_mem_of_not_mem hx hMoved.2.1),
      set_nodes_of_ne _ _ (ne_of_mem_of_not_mem hx hMoved.1)]
  · intro y hyn hym hyq hy
    rw [set_nodes_of_ne _ _ hyq, adoptAll_of_notMem hy, set_nodes_of_ne _ _ hym,
      set_nodes_of_ne _ _ hyn]
  · exact (sameRecords_set _ _ _).trans ((sameRecords_set _ _ _).trans
      ((adoptAll_records _ _ _).trans (sameRecords_set _ _ _)))
  · intro live hPool hn hm hqLive hMovedLive
    exact NodePool.set (((hPool.set hn _).set hm _).adoptAll hMovedLive n) hqLive _

theorem redistributeNodes_eq (root : NodeId) (moved : List NodeId) {n m : NodeId} {node other : Node}
    {neighborIndex newKey : UInt64}
    (hTake : (if neighborIndex ≠ noNeighbor then takeFromLeft (h.nodes n) (h.nodes m) k
      else takeFromRight (h.nodes n) (h.nodes m) k) = some (node, other, newKey))
    (hMoved : moved = [] ∧ node.isLeaf = true ∨ ∃ x, moved = [x] ∧ node.isLeaf = false ∧
      node.pointers[if neighborIndex ≠ noNeighbor then 0 else node.numKeys]? = some (.node x))
    (hParent : node.parent = some q) (hq : q ≠ n ∧ q ≠ m) (hqMoved : q ∉ moved)
    (hKey : i < (h.nodes q).keys.length) :
    redistributeNodes h root n m neighborIndex i k =
      some ((adoptAll ((h.set n node).set m other) moved n).set q
        { h.nodes q with keys := (h.nodes q).keys.set i newKey }, some root) := by
  have hSame : (adoptAll ((h.set n node).set m other) moved n).nodes q = h.nodes q := by
    rw [adoptAll_of_notMem hqMoved, set_nodes_of_ne _ _ hq.2, set_nodes_of_ne _ _ hq.1]
  have hStore : store (h.nodes q).keys i newKey = some ((h.nodes q).keys.set i newKey) := if_pos hKey
  obtain ⟨rfl, hLeaf⟩ | ⟨x, rfl, hLeaf, hPointer⟩ := hMoved
  · have hHeap : adoptAll ((h.set n node).set m other) [] n = (h.set n node).set m other := rfl
    rw [hHeap] at hSame ⊢
    by_cases hSide : neighborIndex ≠ noNeighbor
    · rw [if_pos hSide] at hTake
      simp only [redistributeNodes, if_pos hSide, hTake, hLeaf, if_true, hParent, hSame, hStore,
        Option.bind_eq_bind, Option.bind_some, Option.pure_def]
    · rw [if_neg hSide] at hTake
      simp only [redistributeNodes, if_neg hSide, hTake, hLeaf, if_true, hParent, hSame, hStore,
        Option.bind_eq_bind, Option.bind_some, Option.pure_def]
  · have hHeap : adoptAll ((h.set n node).set m other) [x] n =
        ((h.set n node).set m other).setParent x (some n) := rfl
    rw [hHeap] at hSame ⊢
    by_cases hSide : neighborIndex ≠ noNeighbor
    · rw [if_pos hSide] at hTake hPointer
      simp only [redistributeNodes, if_pos hSide, hTake, hLeaf, Bool.false_eq_true, if_false, hPointer,
        Ptr.asNode, hParent, hSame, hStore, Option.bind_eq_bind, Option.bind_some, Option.pure_def]
    · rw [if_neg hSide] at hTake hPointer
      simp only [redistributeNodes, if_neg hSide, hTake, hLeaf, Bool.false_eq_true, if_false, hPointer,
        Ptr.asNode, hParent, hSame, hStore, Option.bind_eq_bind, Option.bind_some, Option.pure_def]

theorem exchanged_rows {n m x e' : NodeId} {node other : Node} {k' : UInt64}
    {L' R' : List (UInt64 × NodeId)} (hSib : Siblings o h root d above A l k r B q i)
    (hA : Expands (Inner o h root) A PA) (hB : Expands (Inner o h root) B PB)
    (hEx : Exchanged h h' n m q node other { h.nodes q with keys := (h.nodes q).keys.set i k' } [x])
    (hSides : n = l ∧ m = r ∨ n = r ∧ m = l)
    (hLeft : InnerNode o (h'.nodes l) c L') (hRight : InnerNode o (h'.nodes r) e' R')
    (hPairs : L' ++ (k', e') :: R' = L ++ (k, e) :: R)
    (hFill : cut o.order - 1 ≤ L'.length ∧ cut o.order - 1 ≤ R'.length)
    (hParents : (h'.nodes l).parent = (h.nodes l).parent ∧ (h'.nodes r).parent = (h.nodes r).parent)
    (hKids : (∀ y ∈ c :: L'.map Prod.snd, y = x ∧ n = l ∨ y ≠ x ∧ (h.nodes y).parent = some l) ∧
      ∀ y ∈ e' :: R'.map Prod.snd, y = x ∧ n = r ∨ y ≠ x ∧ (h.nodes y).parent = some r)
    (hx : x ∈ c :: (L ++ (k, e) :: R).map Prod.snd)
    (hPool : NodePool h (above ++ (ids (A ++ .node l :: .sep k :: .node r :: B) ++
      (ids (PA ++ (weave c (L ++ (k, e) :: R) ++ PB)) ++ extra)))) :
    Upper o h' root (d + 1) (above ++ ids (A ++ .node l :: .sep k :: .node r :: B))
        (PA ++ (weave c (L ++ (k, e) :: R) ++ PB)) ∧
      NodePool h' (above ++ ids (A ++ .node l :: .sep k :: .node r :: B) ++
        (ids (PA ++ (weave c (L ++ (k, e) :: R) ++ PB)) ++ extra)) ∧
      Frame h h' (ids (PA ++ (weave c (L ++ (k, e) :: R) ++ PB))) extra := by
  obtain ⟨_, hLower, hApart⟩ := List.nodup_append'.mp hPool.nodup
  obtain ⟨_, hRest, hApart'⟩ := List.nodup_append'.mp hLower
  have hBelow : ∀ y ∈ ids (PA ++ (weave c (L ++ (k, e) :: R) ++ PB)) ++ extra,
      y ≠ l ∧ y ≠ r ∧ y ≠ q := by
    intro y hy
    refine ⟨?_, ?_, ?_⟩
    · rintro rfl
      exact hApart' (by simp) hy
    · rintro rfl
      exact hApart' (by simp) hy
    · rintro rfl
      exact hApart hSib.mem (List.mem_append_right _ hy)
  have hOthers : ∀ y, y ≠ l → y ≠ r → y ≠ q → y ≠ x → h'.nodes y = h.nodes y := by
    intro y hyl hyr hyq hyx
    have hyMoved : y ∉ [x] := by simp [hyx]
    obtain ⟨rfl, rfl⟩ | ⟨rfl, rfl⟩ := hSides
    · exact hEx.others y hyl hyr hyq hyMoved
    · exact hEx.others y hyr hyl hyq hyMoved
  have hxBelow : x ∈ ids (PA ++ (weave c (L ++ (k, e) :: R) ++ PB)) := by
    rw [ids_append, ids_append, ids_weave]
    exact List.mem_append_right _ (List.mem_append_left _ hx)
  have hAdopted := hEx.adopted x List.mem_cons_self
  have hKid : ∀ y ∈ c :: (L ++ (k, e) :: R).map Prod.snd, ∀ z,
      (y = x ∧ n = z ∨ y ≠ x ∧ (h.nodes y).parent = some z) → (h'.nodes y).parent = some z := by
    intro y hy z hCases
    obtain ⟨rfl, rfl⟩ | ⟨hyx, hParent⟩ := hCases
    · rw [hAdopted]
    · obtain ⟨hyl, hyr, hyq⟩ := hBelow y (by
        rw [ids_append, ids_append, ids_weave]
        simp only [List.mem_append]
        tauto)
      rw [hOthers y hyl hyr hyq hyx, hParent]
  have hMem : ∀ y, (y ∈ c :: L'.map Prod.snd ∨ y ∈ e' :: R'.map Prod.snd) →
      y ∈ c :: (L ++ (k, e) :: R).map Prod.snd := by
    intro y hy
    rw [← hPairs]
    simp only [List.map_append, List.map_cons, List.mem_cons, List.mem_append] at hy ⊢
    tauto
  refine ⟨?_, ?_, hEx.records, fun y hy => ?_, fun y hy => ?_⟩
  · exact redistribute_rows hSib hA hB hLeft hRight hPairs hFill hParents
      ⟨fun y hy => hKid y (hMem y (Or.inl hy)) l (hKids.1 y hy),
        fun y hy => hKid y (hMem y (Or.inr hy)) r (hKids.2 y hy)⟩ hEx.parent hOthers hx hPool.nodup
  · rw [List.append_assoc]
    refine hEx.pool hPool ?_ ?_ (List.mem_append_left _ hSib.mem) ?_
    · obtain ⟨rfl, _⟩ | ⟨rfl, _⟩ := hSides <;> simp
    · obtain ⟨_, rfl⟩ | ⟨_, rfl⟩ := hSides <;> simp
    · rintro y hy
      rw [List.mem_singleton.mp hy]
      simp only [List.mem_append]
      tauto
  · obtain ⟨hyl, hyr, hyq⟩ := hBelow y (List.mem_append_right _ hy)
    refine hOthers y hyl hyr hyq ?_
    rintro rfl
    exact (List.nodup_append'.mp hRest).2.2 hxBelow hy
  · obtain ⟨hyl, hyr, hyq⟩ := hBelow y (List.mem_append_left _ hy)
    rcases eq_or_ne y x with hyx | hyx
    · rw [hyx, hAdopted]
      exact sameBody_parent _ _
    · exact .of_eq (hOthers y hyl hyr hyq hyx)

/-- The child that changes sides is none of the three nodes that take part and is one of the
children once. -/
theorem moved_apart {x : NodeId} {prs : List (UInt64 × NodeId)} {front behind : List NodeId}
    (hq : q ∈ above) (hAll : c :: prs.map Prod.snd = front ++ x :: behind)
    (hNodup : (above ++ (ids (A ++ .node l :: .sep k :: .node r :: B) ++
      (ids (PA ++ (weave c prs ++ PB)) ++ extra))).Nodup) :
    (q ≠ l ∧ q ≠ r) ∧ (l ∉ [x] ∧ r ∉ [x] ∧ q ∉ [x]) ∧ x ∉ front ∧ x ∉ behind := by
  obtain ⟨_, hLower, hApart⟩ := List.nodup_append'.mp hNodup
  obtain ⟨_, hRest, hApart'⟩ := List.nodup_append'.mp hLower
  have hx : x ∈ ids (PA ++ (weave c prs ++ PB)) ++ extra := by
    rw [ids_append, ids_append, ids_weave, hAll]
    simp
  refine ⟨parent_apart hq fun _ hy hIn => hApart hy (List.mem_append_left _ hIn), ⟨?_, ?_, ?_⟩, ?_⟩
  · rw [List.mem_singleton]
    rintro rfl
    exact hApart' (by simp) hx
  · rw [List.mem_singleton]
    rintro rfl
    exact hApart' (by simp) hx
  · rw [List.mem_singleton]
    rintro rfl
    exact hApart hq (List.mem_append_right _ hx)
  · have hKids := (List.nodup_append'.mp hRest).1
    rw [ids_append, ids_append, ids_weave, hAll] at hKids
    have hRow := (List.nodup_append'.mp (List.nodup_append'.mp hKids).2.1).1
    rw [List.nodup_middle, List.nodup_cons, List.mem_append, not_or] at hRow
    exact hRow.1

theorem redistributeNodes_fromLeft {x : NodeId} {k' : UInt64}
    (hSib : Siblings o h root d above A l k r B q i)
    (hA : Expands (Inner o h root) A PA) (hB : Expands (Inner o h root) B PB)
    (hLeft : InnerNode o (h.nodes l) c (L ++ [(k', x)])) (hRight : InnerNode o (h.nodes r) e R)
    (hFill : cut o.order - 1 ≤ L.length ∧ cut o.order - 1 ≤ R.length + 1)
    (hRoom : R.length < o.order - 1)
    (hKids : (∀ y ∈ c :: (L ++ [(k', x)]).map Prod.snd, (h.nodes y).parent = some l) ∧
      ∀ y ∈ e :: R.map Prod.snd, (h.nodes y).parent = some r)
    (hPool : NodePool h (above ++ (ids (A ++ .node l :: .sep k :: .node r :: B) ++
      (ids (PA ++ (weave c (L ++ [(k', x)] ++ (k, e) :: R) ++ PB)) ++ extra)))) :
    ∃ h', redistributeNodes h root r l (UInt64.ofNat i) i k = some (h', some root) ∧
      Upper o h' root (d + 1) (above ++ ids (A ++ .node l :: .sep k :: .node r :: B))
        (PA ++ (weave c (L ++ [(k', x)] ++ (k, e) :: R) ++ PB)) ∧
      NodePool h' (above ++ ids (A ++ .node l :: .sep k :: .node r :: B) ++
        (ids (PA ++ (weave c (L ++ [(k', x)] ++ (k, e) :: R) ++ PB)) ++ extra)) ∧
      Frame h h' (ids (PA ++ (weave c (L ++ [(k', x)] ++ (k, e) :: R) ++ PB))) extra := by
  obtain ⟨node, other, hTake, hNode, hOther, hParent, hParent'⟩ :=
    takeFromLeft_node k hRight hLeft hRoom
  obtain ⟨_, hLower, _⟩ := List.nodup_append'.mp hPool.nodup
  have hrl := (apart_siblings (List.nodup_append'.mp hLower).1).1
  have hAll : c :: (L ++ [(k', x)] ++ (k, e) :: R).map Prod.snd =
      (c :: L.map Prod.snd) ++ x :: e :: R.map Prod.snd := by simp
  obtain ⟨⟨hql, hqr⟩, ⟨hlx, hrx, hqx⟩, hxKids⟩ := moved_apart hSib.mem hAll hPool.nodup
  obtain ⟨hLast, hMax⟩ := hSib.inUse
  have hSide : UInt64.ofNat i ≠ noNeighbor := (ofNat_ne_noNeighbor (by omega)).1
  have hEx := exchanged h node other { h.nodes q with keys := (h.nodes q).keys.set i k' } [x] hrl
    ⟨hqr, hql⟩ ⟨hrx, hlx, hqx⟩
  obtain ⟨K, hPointers⟩ := hNode.pointers
  have hCall := redistributeNodes_eq root [x] (i := i) ((if_pos hSide).trans hTake)
    (Or.inr ⟨x, rfl, hNode.isLeaf, by rw [if_pos hSide, hPointers]; rfl⟩)
    (hParent.trans hSib.parentRight) ⟨hqr, hql⟩ hqx (List.getElem?_eq_some_iff.mp hSib.key).1
  refine ⟨_, hCall, ?_⟩
  apply exchanged_rows hSib hA hB hEx (Or.inr ⟨rfl, rfl⟩) (by rwa [hEx.neighbor])
    (by rwa [hEx.self]) (by simp) (by simpa using hFill)
  · rw [hEx.neighbor, hEx.self]
    exact ⟨hParent', hParent⟩
  · constructor
    · intro y hy
      refine Or.inr ⟨ne_of_mem_of_not_mem hy hxKids.1, hKids.1 y ?_⟩
      rw [List.map_append, ← List.cons_append]
      exact List.mem_append_left _ hy
    · intro y hy
      obtain rfl | hy := List.mem_cons.mp hy
      · exact Or.inl ⟨rfl, rfl⟩
      · exact Or.inr ⟨ne_of_mem_of_not_mem hy hxKids.2, hKids.2 y hy⟩
  · simp
  · exact hPool

theorem redistributeNodes_fromRight {x : NodeId} {k' : UInt64}
    (hSib : Siblings o h root d above A l k r B q 0)
    (hA : Expands (Inner o h root) A PA) (hB : Expands (Inner o h root) B PB)
    (hLeft : InnerNode o (h.nodes l) c L) (hRight : InnerNode o (h.nodes r) x ((k', e) :: R))
    (hFill : cut o.order - 1 ≤ L.length + 1 ∧ cut o.order - 1 ≤ R.length)
    (hRoom : L.length < o.order - 1)
    (hKids : (∀ y ∈ c :: L.map Prod.snd, (h.nodes y).parent = some l) ∧
      ∀ y ∈ x :: ((k', e) :: R).map Prod.snd, (h.nodes y).parent = some r)
    (hPool : NodePool h (above ++ (ids (A ++ .node l :: .sep k :: .node r :: B) ++
      (ids (PA ++ (weave c (L ++ (k, x) :: (k', e) :: R) ++ PB)) ++ extra)))) :
    ∃ h', redistributeNodes h root l r noNeighbor 0 k = some (h', some root) ∧
      Upper o h' root (d + 1) (above ++ ids (A ++ .node l :: .sep k :: .node r :: B))
        (PA ++ (weave c (L ++ (k, x) :: (k', e) :: R) ++ PB)) ∧
      NodePool h' (above ++ ids (A ++ .node l :: .sep k :: .node r :: B) ++
        (ids (PA ++ (weave c (L ++ (k, x) :: (k', e) :: R) ++ PB)) ++ extra)) ∧
      Frame h h' (ids (PA ++ (weave c (L ++ (k, x) :: (k', e) :: R) ++ PB))) extra := by
  obtain ⟨node, other, hTake, hNode, hOther, hParent, hParent'⟩ :=
    takeFromRight_node k hLeft hRight hRoom
  obtain ⟨_, hLower, _⟩ := List.nodup_append'.mp hPool.nodup
  have hrl := (apart_siblings (List.nodup_append'.mp hLower).1).1
  have hAll : c :: (L ++ (k, x) :: (k', e) :: R).map Prod.snd =
      (c :: L.map Prod.snd) ++ x :: e :: R.map Prod.snd := by simp
  obtain ⟨hqNe, hMoved, hxKids⟩ := moved_apart hSib.mem hAll hPool.nodup
  have hSide : ¬ noNeighbor ≠ noNeighbor := fun hNe => hNe rfl
  have hEx := exchanged h node other { h.nodes q with keys := (h.nodes q).keys.set 0 k' } [x] hrl.symm
    hqNe hMoved
  have hPointer : node.pointers[node.numKeys]? = some (.node x) := by
    obtain ⟨K, hPointers⟩ := hNode.pointers
    apply getElem?_eq (A := (c :: L.map Prod.snd).map Ptr.node) (B := K)
    · simp [hPointers]
    · simp [hNode.numKeys]
  have hCall := redistributeNodes_eq root [x] (i := 0) ((if_neg hSide).trans hTake)
    (Or.inr ⟨x, rfl, hNode.isLeaf, by rwa [if_neg hSide]⟩)
    (hParent.trans hSib.parentLeft) hqNe hMoved.2.2 (List.getElem?_eq_some_iff.mp hSib.key).1
  refine ⟨_, hCall, ?_⟩
  apply exchanged_rows hSib hA hB hEx (Or.inl ⟨rfl, rfl⟩) (by rwa [hEx.self])
    (by rwa [hEx.neighbor]) (by simp) (by simpa using hFill)
  · rw [hEx.neighbor, hEx.self]
    exact ⟨hParent, hParent'⟩
  · constructor
    · intro y hy
      rw [List.map_append, ← List.cons_append] at hy
      obtain hy | hy := List.mem_append.mp hy
      · exact Or.inr ⟨ne_of_mem_of_not_mem hy hxKids.1, hKids.1 y hy⟩
      · exact Or.inl ⟨by simpa using hy, rfl⟩
    · intro y hy
      exact Or.inr ⟨ne_of_mem_of_not_mem hy hxKids.2, hKids.2 y (List.mem_cons_of_mem _ hy)⟩
  · simp
  · exact hPool

end Redistribution

section Rebalancing

variable {h : Heap} {root p : NodeId} {key : UInt64} {pointer : Ptr} {node : Node} {d fuel : Nat}
  {above extra : List NodeId} {A B PA PB : List Tok} {c : NodeId} {prs : List (UInt64 × NodeId)}

theorem Inner.filled {x : NodeId} {w : List Tok} (hx : Inner o h root (.node x) w) (hRoot : x ≠ root) :
    ∃ e R, w = weave e R ∧ InnerNode o (h.nodes x) e R ∧ cut o.order - 1 ≤ R.length ∧
      ∀ y ∈ e :: R.map Prod.snd, (h.nodes y).parent = some x := by
  obtain ⟨e, R, rfl, hNode, hMin, hKids⟩ := hx.node_inv
  exact ⟨e, R, rfl, hNode, hMin.resolve_right fun hBoth => hRoot hBoth.1, hKids⟩

theorem rebalance_node (hAbsorbs : Absorbs o d (deleteEntry o fuel))
    (hRemove : removeEntryFromNode o (h.nodes p) key pointer = some node) (hp : p ≠ root)
    (hUp : Upper o (h.set p node) root d above (A ++ .node p :: B))
    (hA : Expands (Inner o (h.set p node) root) A PA) (hB : Expands (Inner o (h.set p node) root) B PB)
    (hNode : InnerNode o node c prs)
    (hThin : prs.length < cut o.order - 1 ∧ cut o.order - 1 ≤ prs.length + 1)
    (hKids : ∀ y ∈ c :: prs.map Prod.snd, ((h.set p node).nodes y).parent = some p)
    (hSeps : (seps (A ++ .node p :: B)).Nodup)
    (hPool : NodePool (h.set p node) (above ++ (ids (A ++ .node p :: B) ++
      (ids (PA ++ (weave c prs ++ PB)) ++ extra)))) :
    ∃ h' root' d' above', deleteEntry o (fuel + 1) h root p key pointer = some (h', some root') ∧
      Upper o h' root' d' above' (PA ++ (weave c prs ++ PB)) ∧
      NodePool h' (above' ++ (ids (PA ++ (weave c prs ++ PB)) ++ extra)) ∧
      Frame (h.set p node) h' (ids (PA ++ (weave c prs ++ PB))) extra := by
  obtain ⟨hCutMin, hCutMax, hCutHalf⟩ := cut_bounds o
  have hSelf : (h.set p node).nodes p = node := set_nodes_self h p node
  have hCount : node.numKeys < if node.isLeaf then cut (o.order - 1) else cut o.order - 1 := by
    simp only [hNode.isLeaf, hNode.numKeys, Bool.false_eq_true, if_false]
    exact hThin.1
  have hNodup : (above ++ ids (A ++ .node p :: B)).Nodup := by
    have hAll := hPool.nodup
    rw [← List.append_assoc] at hAll
    exact hAll.of_append_left
  obtain ⟨k, r, B', q, rfl, hSib⟩ | ⟨A', l, k, q, i, rfl, hSib⟩ := siblings_cases hUp hp hNodup
  · obtain ⟨_, PB', rfl, hSep, hRest⟩ := hB.cons_inv
    obtain ⟨_, PB', rfl, hInner, hB'⟩ := hRest.cons_inv
    cases hSep
    have hRoot := root_notMem_row hUp (List.nodup_append'.mp hNodup).2.2
    obtain ⟨e, R, rfl, hRight, hFull, hKidsRight⟩ := hInner.filled (by rintro rfl; simp at hRoot)
    have hRow : PA ++ (weave c (prs ++ (k, e) :: R) ++ PB') =
        PA ++ (weave c prs ++ ([.sep k] ++ (weave e R ++ PB'))) := by
      rw [weave_append_cons]
      simp
    rw [← hRow] at hPool ⊢
    rw [deleteEntry_right hRemove hp hCount hSib, hRight.numKeys, hNode.numKeys]
    simp only [hNode.isLeaf, Bool.false_eq_true, if_false]
    by_cases hRoom : R.length + prs.length < o.order - 1
    · rw [if_pos hRoom, coalesceNodes_right]
      exact coalesceNodes_node hAbsorbs hUp hA hB' (by rwa [hSelf]) hRight
        ⟨hSib.parentLeft, hSib.parentRight⟩ hSeps hPool (by omega) (by omega)
    · rw [if_neg hRoom]
      cases R with
      | nil =>
        rw [List.length_nil] at hRoom
        omega
      | cons pr R =>
        obtain ⟨k', e'⟩ := pr
        rw [List.length_cons] at hRoom
        obtain ⟨h', hCall, hUp', hPool', hFrame⟩ := redistributeNodes_fromRight hSib hA hB'
          (by rwa [hSelf]) hRight (by omega) (by omega) ⟨hKids, hKidsRight⟩ hPool
        exact ⟨h', root, d + 1, _, hCall, hUp', hPool', hFrame⟩
  · have hRow₀ : A' ++ [.node l, .sep k] ++ .node p :: B = A' ++ .node l :: .sep k :: .node p :: B := by
      simp
    rw [hRow₀] at hUp hPool hSeps hNodup
    obtain ⟨PA', _, rfl, hA', hRest⟩ := hA.append_inv
    obtain ⟨_, _, rfl, hInner, hRest⟩ := hRest.cons_inv
    have hSep := hRest.single_inv
    cases hSep
    have hRoot := root_notMem_row hUp (List.nodup_append'.mp hNodup).2.2
    obtain ⟨e, L, rfl, hLeft, hFull, hKidsLeft⟩ := hInner.filled (by rintro rfl; simp at hRoot)
    have hRow : PA' ++ (weave e (L ++ (k, c) :: prs) ++ PB) =
        PA' ++ (weave e L ++ [.sep k]) ++ (weave c prs ++ PB) := by
      rw [weave_append_cons]
      simp
    rw [← hRow] at hPool ⊢
    obtain ⟨hLast, hMax⟩ := hSib.inUse
    rw [deleteEntry_left hRemove hp hCount hSib, hLeft.numKeys, hNode.numKeys]
    simp only [hNode.isLeaf, Bool.false_eq_true, if_false]
    by_cases hRoom : L.length + prs.length < o.order - 1
    · rw [if_pos hRoom, coalesceNodes_left _ _ _ _ _ _ (by omega)]
      exact coalesceNodes_node hAbsorbs hUp hA' hB hLeft (by rwa [hSelf])
        ⟨hSib.parentLeft, hSib.parentRight⟩ hSeps hPool (by omega) (by omega)
    · rw [if_neg hRoom]
      obtain rfl | ⟨L, ⟨k', x⟩, rfl⟩ := List.eq_nil_or_concat L
      · rw [List.length_nil] at hRoom
        omega
      · rw [List.concat_eq_append] at *
        rw [List.length_append, List.length_singleton] at hRoom
        obtain ⟨h', hCall, hUp', hPool', hFrame⟩ := redistributeNodes_fromLeft hSib hA' hB hLeft
          (by rwa [hSelf]) (by omega) (by omega) ⟨hKidsLeft, hKids⟩ hPool
        exact ⟨h', root, d + 1, _, hCall, hUp', hPool', hFrame⟩

end Rebalancing

section Deletion

variable {h : Heap} {root : NodeId}

theorem parent_mem {row row' : List Tok} (hRow : Expands (Inner o h root) row row') {x : NodeId}
    (hx : x ∈ ids row') : ∃ p ∈ ids row, (h.nodes x).parent = some p := by
  obtain ⟨A, B, rfl⟩ := List.append_of_mem (mem_ids.mp hx)
  obtain ⟨A₀, p, B₀, _, _, c, P, Q, As, rfl, _, _, _, _, hLeft, _, _, hKids⟩ := parent_of_mem hRow
  refine ⟨p, by simp, hKids x ?_⟩
  rw [List.map_append, ← List.cons_append, (last_child hLeft).1]
  simp

theorem parent_of_siblings {row A B : List Tok} {l r p : NodeId} {k : UInt64}
    (hRow : Expands (Inner o h root) row (A ++ .node l :: .sep k :: .node r :: B))
    (hLeft : (h.nodes l).parent = some p) (hRight : (h.nodes r).parent = some p)
    (hNodup : (ids row).Nodup) :
    ∃ A₀ B₀ PA PB c P Q As, row = A₀ ++ .node p :: B₀ ∧ Expands (Inner o h root) A₀ PA ∧
      Expands (Inner o h root) B₀ PB ∧ A = PA ++ As ∧ B = behind Q ++ PB ∧
      weave c P = As ++ [.node l] ∧ InnerNode o (h.nodes p) c (P ++ (k, r) :: Q) ∧
      Filled (cut o.order - 1) root p (P ++ (k, r) :: Q).length ∧
      ∀ y ∈ c :: (P ++ (k, r) :: Q).map Prod.snd, (h.nodes y).parent = some p := by
  obtain ⟨A₀, p', B₀, PA, PB, c, P, Q, As, rfl, hA, hB, rfl, hRest, hLast, hNode, hMin, hKids⟩ :=
    parent_of_mem hRow
  have hParent : (h.nodes l).parent = some p' := by
    apply hKids
    rw [List.map_append, ← List.cons_append, (last_child hLast).1]
    simp
  obtain rfl : p = p' := Option.some.inj (hLeft.symm.trans hParent)
  cases Q with
  | nil =>
    rw [behind_nil, List.nil_append] at hRest
    obtain ⟨p', hIn, hParent'⟩ := parent_mem hB (x := r) (by rw [← hRest]; simp)
    obtain rfl : p = p' := Option.some.inj (hRight.symm.trans hParent')
    rw [ids_append, ids_cons_node, List.nodup_middle, List.nodup_cons] at hNodup
    exact absurd (List.mem_append_right _ hIn) hNodup.1
  | cons pr Q =>
    obtain ⟨k', r'⟩ := pr
    rw [behind_cons, List.cons_append, List.cons_append] at hRest
    obtain ⟨hSep, hRest⟩ := List.cons.inj hRest
    obtain ⟨hChild, rfl⟩ := List.cons.inj hRest
    cases hSep
    cases hChild
    exact ⟨A₀, B₀, PA, PB, c, P, Q, As, rfl, hA, hB, rfl, rfl, hLast, hNode, hMin, hKids⟩

/-- The root keeps a key or leaves the tree to its only child. -/
theorem adjustRoot_collapse {l : NodeId} (extra : List NodeId)
    (hNode : InnerNode o (h.nodes root) l []) (hPool : NodePool h (root :: l :: extra)) :
    ∃ h', adjustRoot h root = some (h', some l) ∧ Upper o h' l 0 [] [.node l] ∧
      NodePool h' (l :: extra) ∧ Frame h h' [l] extra := by
  have hNodup := hPool.nodup
  simp only [List.nodup_cons, List.mem_cons, not_or] at hNodup
  obtain ⟨⟨hRootLeft, hRootExtra⟩, hlExtra, _⟩ := hNodup
  obtain ⟨K, hPointers⟩ := hNode.pointers
  have hFirst : (h.nodes root).pointers[0]? = some (.node l) := by
    rw [hPointers]
    rfl
  obtain ⟨hPool', hRecords, hSame⟩ := releaseNode_spec
    (hPool.set (x := l) (by simp) { h.nodes l with parent := none })
  refine ⟨releaseNode (h.setParent l none) root, ?_, ?_, hPool', hRecords, ?_, ?_⟩
  · have hInternal : ¬ (h.nodes root).isLeaf = true := by simp [hNode.isLeaf]
    have hEmpty : ¬ 0 < (h.nodes root).numKeys := by simp [hNode.numKeys]
    simp only [adjustRoot, if_neg hEmpty, if_neg hInternal, hFirst, Option.bind_eq_bind,
      Option.bind_some, Ptr.asNode, Option.pure_def]
  · apply Upper.top
    refine (congrArg Node.parent (hSame l (Ne.symm hRootLeft))).trans ?_
    rw [set_nodes_self]
  · intro y hy
    refine (hSame y (ne_of_mem_of_not_mem hy hRootExtra)).trans ?_
    rw [set_nodes_of_ne _ _ (ne_of_mem_of_not_mem hy hlExtra)]
  · intro y hy
    obtain rfl := List.mem_singleton.mp hy
    refine SameBody.trans ?_ (.of_eq (hSame y (Ne.symm hRootLeft)))
    rw [set_nodes_self]
    exact sameBody_parent _ _

theorem deleteEntry_spec (d : Nat) : ∀ fuel, d ≤ fuel → Absorbs o d (deleteEntry o fuel) := by
  induction d with
  | zero =>
    intro fuel _ h root l r q k above extra A B hUp
    generalize hRow : A ++ .node l :: .sep k :: .node r :: B = row at hUp
    cases hUp
    have hLength := congrArg List.length hRow
    simp only [List.length_append, List.length_cons, List.length_nil] at hLength
    omega
  | succ d ih =>
    intro fuel hFuel h root l r q k above extra A B hUp hl hr hSeps hPool
    obtain ⟨fuel, rfl⟩ : ∃ m, fuel = m + 1 := ⟨fuel - 1, by omega⟩
    generalize hLower : A ++ .node l :: .sep k :: .node r :: B = row at hUp hSeps hPool
    cases hUp with
    | @down _ above row _ hUp hRow =>
      subst hLower
      have hRowNodup := (List.nodup_append'.mp (List.nodup_append'.mp hPool.nodup).1).2.1
      obtain ⟨A₀, B₀, PA, PB, c, P, Q, As, rfl, hA, hB, rfl, rfl, hLast, hNode, hMin, hKids⟩ :=
        parent_of_siblings hRow hl hr hRowNodup
      obtain ⟨hChildren, hIndex⟩ := last_child hLast
      have hpRow : q ∈ ids (A₀ ++ .node q :: B₀) := by simp
      have hRow' : PA ++ As ++ .node l :: (behind Q ++ PB) = PA ++ (weave c (P ++ Q) ++ PB) := by
        rw [weave_append, hLast]
        simp
      rw [hRow']
      obtain ⟨hUpper, hRest, hApart⟩ := List.nodup_append'.mp hPool.nodup
      -- the key and the child go
      have hKey : k ∉ P.map Prod.fst := by
        have hSepsLast := congrArg seps hLast
        simp only [seps_weave, seps_append, seps_cons_node, seps_nil, List.append_nil] at hSepsLast
        simp only [seps_append, seps_cons_node, seps_cons_sep] at hSeps
        rw [List.nodup_middle, List.nodup_cons] at hSeps
        rw [hSepsLast]
        exact fun hIn => hSeps.1 (by simp [hIn])
      have hChild : r ∉ c :: P.map Prod.snd := by
        obtain ⟨hrl, ⟨_, hrBefore⟩, _⟩ := apart_siblings (List.nodup_append'.mp hRest).1
        rw [ids_append, List.mem_append, not_or] at hrBefore
        rw [hChildren]
        simp [hrl, hrBefore.2]
      obtain ⟨node, hRemove, hNode', hParent⟩ := removeEntry_node hNode hKey hChild
      obtain ⟨hUp', hA', hB', hParents⟩ := set_rows hUp hA hB hUpper hParent
      have hKids' : ∀ y ∈ c :: (P ++ Q).map Prod.snd, ((h.set q node).nodes y).parent = some q := by
        intro y hy
        rw [hParents y]
        apply hKids
        simp only [List.map_append, List.map_cons, List.mem_cons, List.mem_append] at hy ⊢
        tauto
      have hNotRest : ∀ y ∈ ids (PA ++ (weave c (P ++ Q) ++ PB)) ++ r :: extra, y ≠ q := by
        intro y hy hEq
        subst hEq
        refine hApart (List.mem_append_right above hpRow) ?_
        rw [← hRow'] at hy
        simp only [ids_append, ids_cons_node, ids_cons_sep, List.mem_append, List.mem_cons] at hy ⊢
        tauto
      have hPool' : NodePool (h.set q node) (above ++ (ids (A₀ ++ .node q :: B₀) ++
          (ids (PA ++ (weave c (P ++ Q) ++ PB)) ++ r :: extra))) := by
        rw [← hRow']
        apply (hPool.set (x := q) (by simp) node).perm
        rw [List.perm_iff_count]
        intro y
        simp only [ids_append, ids_cons_node, ids_cons_sep, List.count_append, List.count_cons]
        omega
      have hCase : ∃ h' root' d' above', deleteEntry o (fuel + 1) h root q k (.node r) =
            some (h', some root') ∧
          Upper o h' root' d' above' (PA ++ (weave c (P ++ Q) ++ PB)) ∧
          NodePool h' (above' ++ (ids (PA ++ (weave c (P ++ Q) ++ PB)) ++ r :: extra)) ∧
          Frame (h.set q node) h' (ids (PA ++ (weave c (P ++ Q) ++ PB))) (r :: extra) := by
        have hKeep : Filled (cut o.order - 1) root q (P ++ Q).length →
            Upper o (h.set q node) root (d + 1) (above ++ ids (A₀ ++ .node q :: B₀))
              (PA ++ (weave c (P ++ Q) ++ PB)) ∧
            NodePool (h.set q node) (above ++ ids (A₀ ++ .node q :: B₀) ++
              (ids (PA ++ (weave c (P ++ Q) ++ PB)) ++ r :: extra)) ∧
            Frame (h.set q node) (h.set q node) (ids (PA ++ (weave c (P ++ Q) ++ PB))) (r :: extra) := by
          intro hFill
          refine ⟨?_, by rwa [List.append_assoc], .refl _, fun _ _ => rfl, fun _ _ => .refl _⟩
          exact hUp'.down (Expands.mid hA' (.node (by rwa [set_nodes_self]) hFill hKids') hB')
        rcases eq_or_ne q root with hRoot | hRoot
        · subst hRoot
          rw [deleteEntry, hRemove]
          simp only [Option.bind_eq_bind, Option.bind_some, if_true]
          by_cases hSome : 0 < (P ++ Q).length
          · refine ⟨h.set q node, q, d + 1, _, ?_, hKeep (Or.inr ⟨rfl, hSome⟩)⟩
            rw [adjustRoot, if_pos (by rwa [set_nodes_self, hNode'.numKeys])]
          · have hNone : P ++ Q = [] := List.eq_nil_of_length_eq_zero (by omega)
            rw [hNone] at hNode' hPool' ⊢
            obtain ⟨_, rfl, hSingle⟩ | ⟨_, hMem⟩ := hUp.root_cases
            · obtain ⟨rfl, hSingle⟩ | ⟨_, hSingle⟩ := List.append_eq_singleton_iff.mp hSingle
              · obtain ⟨_, rfl⟩ := List.cons.inj hSingle
                obtain rfl := hA'.nil_inv
                obtain rfl := hB'.nil_inv
                obtain ⟨h', hRest⟩ := adjustRoot_collapse (h := h.set q node) (l := c)
                  (r :: extra) (by rwa [set_nodes_self]) hPool'
                exact ⟨h', c, 0, [], hRest⟩
              · simp at hSingle
            · exact absurd hpRow ((List.nodup_append'.mp hUpper).2.2 hMem)
        · by_cases hEnough : cut o.order - 1 ≤ (P ++ Q).length
          · refine ⟨h.set q node, root, d + 1, _, ?_, hKeep (Or.inl hEnough)⟩
            rw [deleteEntry, hRemove]
            simp only [Option.bind_eq_bind, Option.bind_some, if_neg hRoot, hNode'.isLeaf,
              Bool.false_eq_true, if_false, hNode'.numKeys, if_pos hEnough, Option.pure_def]
          · have hLength : (P ++ (k, r) :: Q).length = (P ++ Q).length + 1 := by
              simp only [List.length_append, List.length_cons]
              omega
            have hFloor := hMin.resolve_right fun hBoth => hRoot hBoth.1
            exact rebalance_node (ih fuel (by omega)) hRemove hRoot hUp' hA' hB' hNode'
              ⟨by omega, by omega⟩ hKids' (hSeps.sublist (seps_sublist hRow)) hPool'
      obtain ⟨h', root', d', above', hCall, hUp₁, hPool₁, hFrame⟩ := hCase
      refine ⟨h', root', d', above', hCall, hUp₁, ?_, ?_, ?_, ?_⟩
      · rw [← hRow'] at hPool₁
        apply hPool₁.perm
        rw [List.perm_iff_count]
        intro y
        simp only [ids_append, ids_cons_node, ids_cons_sep, List.count_append, List.count_cons]
        omega
      · exact (sameRecords_set _ _ _).trans hFrame.records
      · intro y hy
        rw [hFrame.extra y (List.mem_cons_of_mem r hy), set_nodes_of_ne _ _ (hNotRest y (by simp [hy]))]
      · intro y hy
        rcases eq_or_ne y r with hyr | hyr
        · rw [hyr, hFrame.extra r List.mem_cons_self, set_nodes_of_ne _ _ (hNotRest r (by simp))]
          exact .refl _
        · have hyRow : y ∈ ids (PA ++ (weave c (P ++ Q) ++ PB)) := by
            rw [← hRow']
            simp only [ids_append, ids_cons_node, ids_cons_sep, List.mem_append, List.mem_cons] at hy ⊢
            tauto
          have hBody := hFrame.row y hyRow
          rwa [set_nodes_of_ne _ _ (hNotRest y (List.mem_append_left _ hyRow))] at hBody

end Deletion

end Trident.Btree
