import Trident.Btree.Rows

/-! # Insertion above the leaves

A node that has been split stands in the row of its depth with its new right
neighbor and the key between them; the rows above take them in.
-/

namespace Trident.Btree

open Loops Expansion

variable {o : TreeOrder}

/-- What an operation on the rows above leaves as it was: in `row` all but the parents. -/
structure Frame (h h' : Heap) (row extra : List NodeId) : Prop where
  records : SameRecords h h'
  extra : ∀ x ∈ extra, h'.nodes x = h.nodes x
  row : ∀ x ∈ row, SameBody (h.nodes x) (h'.nodes x)

theorem insertIntoNewRoot_spec {h : Heap} {left right : NodeId} {extra : List NodeId} (key : UInt64)
    (hPool : NodePool h (left :: right :: extra)) :
    ∃ h' root', insertIntoNewRoot o h left key right = some (h', root') ∧
      Upper o h' root' 1 [root'] (weave left [(key, right)]) ∧
      NodePool h' (root' :: left :: right :: extra) ∧ Frame h h' [right, left] extra := by
  have hMin := o.min
  obtain ⟨h₁, x, hMake, hPool₁, hNew, hRecords, hx, hLive⟩ := makeNode_spec o hPool
  simp only [List.mem_cons, not_or] at hNew
  obtain ⟨hxLeft, hxRight, hxExtra⟩ := hNew
  have hNodup := hPool.nodup
  rw [List.nodup_cons, List.nodup_cons, List.mem_cons, not_or] at hNodup
  obtain ⟨⟨hLeftRight, hLeftExtra⟩, hRightExtra, _⟩ := hNodup
  obtain ⟨m, hm⟩ : ∃ m, o.order = m + 3 := ⟨o.order - 3, by omega⟩
  have hKeys : (h₁.nodes x).keys = [] ++ 0 :: List.replicate (m + 1) 0 := by
    rw [hx, freshNode, hm]
    rfl
  have hPointers : (h₁.nodes x).pointers = [] ++ .null :: .null :: List.replicate (m + 1) .null := by
    rw [hx, freshNode, hm]
    rfl
  have hKey := store_eq hKeys (i := 0) rfl key
  have hFirst := store_eq hPointers (i := 0) rfl (.node left)
  have hSecond : store ([] ++ Ptr.node left :: .null :: List.replicate (m + 1) .null) 1 (.node right) =
      some ([Ptr.node left] ++ .node right :: List.replicate (m + 1) .null) :=
    store_eq (A := [Ptr.node left]) rfl rfl _
  generalize hRoot : ({ h₁.nodes x with
      keys := [] ++ key :: List.replicate (m + 1) 0
      pointers := [.node left] ++ .node right :: List.replicate (m + 1) .null
      numKeys := (h₁.nodes x).numKeys + 1, parent := none } : Node) = n
  have hNode : InnerNode o n left [(key, right)] := by
    rw [← hRoot, hx]
    constructor
    · rfl
    · rfl
    · exact ⟨_, rfl⟩
    · exact ⟨_, rfl⟩
    · simp
      omega
    · simp
      omega
  refine ⟨adoptAll (h₁.set x n) [left, right] x, x, ?_, ?_, ?_, ?_, ?_, ?_⟩
  · simp only [insertIntoNewRoot, hMake, hKey, hFirst, hSecond, Option.bind_eq_bind, Option.bind_some,
      Option.pure_def]
    rw [← hRoot]
    rfl
  · have hSelf : (adoptAll (h₁.set x n) [left, right] x).nodes x = n := by
      rw [adoptAll_of_notMem (by simp [hxLeft, hxRight]), set_nodes_self]
    have hUp : Upper o (adoptAll (h₁.set x n) [left, right] x) x 0 [] [.node x] := by
      apply Upper.top
      rw [hSelf, ← hRoot]
    refine Upper.down hUp (.single (.node ?_ (Or.inr ⟨rfl, le_refl 1⟩) fun y hy => ?_))
    · rw [hSelf]
      exact hNode
    · exact adoptAll_parent hy _ x
  · exact (hPool₁.set List.mem_cons_self n).adoptAll (by simp) x
  · exact hRecords.trans ((sameRecords_set _ _ _).trans (adoptAll_records _ _ _))
  · intro y hy
    have hyx : y ≠ x := ne_of_mem_of_not_mem hy hxExtra
    have hyKids : y ∉ [left, right] := by
      simp only [List.mem_cons, List.not_mem_nil, or_false, not_or]
      exact ⟨ne_of_mem_of_not_mem hy hLeftExtra, ne_of_mem_of_not_mem hy hRightExtra⟩
    rw [adoptAll_of_notMem hyKids, set_nodes_of_ne _ _ hyx]
    exact hLive y (List.mem_cons_of_mem _ (List.mem_cons_of_mem _ hy))
  · intro y hy
    have hyLive : y ∈ left :: right :: extra := by
      simp only [List.mem_cons, List.not_mem_nil, or_false] at hy ⊢
      tauto
    have hyx : y ≠ x := by
      rintro rfl
      simp only [List.mem_cons, List.not_mem_nil, or_false] at hy
      exact hy.elim hxRight hxLeft
    refine SameBody.trans ?_ (adoptAll_sameBody _ _ _ _)
    rw [set_nodes_of_ne _ _ hyx]
    exact .of_eq (hLive y hyLive)

section Parents

variable {h : Heap} {root : NodeId}

theorem parent_of_mem {row A B : List Tok} {x : NodeId}
    (hRow : Expands (Inner o h root) row (A ++ .node x :: B)) :
    ∃ A₀ p B₀ PA PB c P Q As, row = A₀ ++ .node p :: B₀ ∧ Expands (Inner o h root) A₀ PA ∧
      Expands (Inner o h root) B₀ PB ∧ A = PA ++ As ∧ B = behind Q ++ PB ∧
      weave c P = As ++ [.node x] ∧ InnerNode o (h.nodes p) c (P ++ Q) ∧
      Filled (cut o.order - 1) root p (P ++ Q).length ∧
      ∀ y ∈ c :: (P ++ Q).map Prod.snd, (h.nodes y).parent = some p := by
  obtain ⟨A₀, a, B₀, PA, w, w', PB, rfl, hA, hInner, hB, rfl, rfl⟩ := hRow.split
  cases a with
  | node p =>
    obtain ⟨c, prs, hw, hNode, hMin, hKids⟩ := hInner.node_inv
    obtain ⟨P, Q, rfl, hP, rfl⟩ := weave_eq_append hw.symm
    exact ⟨A₀, p, B₀, PA, PB, c, P, Q, w, rfl, hA, hB, rfl, rfl, hP, hNode, hMin, hKids⟩
  | sep k =>
    generalize hw : w ++ .node x :: w' = v at hInner
    cases hInner
    exact absurd hw (by simp [List.append_eq_singleton_iff])
  | entry k r => cases hInner

theorem last_child {c x : NodeId} {P : List (UInt64 × NodeId)} {As : List Tok}
    (h : weave c P = As ++ [.node x]) : c :: P.map Prod.snd = ids As ++ [x] ∧
      (ids As).length = P.length := by
  have hIds := congrArg ids h
  rw [ids_weave, ids_append] at hIds
  have hLength := congrArg List.length hIds
  simp only [List.length_cons, List.length_map, List.length_append, ids_cons_node, ids_nil,
    List.length_nil] at hLength
  exact ⟨hIds, by omega⟩

theorem root_notMem_beside {d : Nat} {above : List NodeId} {A B : List Tok} {p : NodeId}
    (hUp : Upper o h root d above (A ++ .node p :: B))
    (hNodup : (above ++ ids (A ++ .node p :: B)).Nodup) : root ∉ ids A ∧ root ∉ ids B := by
  obtain ⟨_, _, hRow⟩ | ⟨_, hMem⟩ := hUp.root_cases
  · obtain ⟨rfl, hRest⟩ | ⟨_, hRest⟩ := List.append_eq_singleton_iff.mp hRow
    · obtain ⟨_, rfl⟩ := List.cons.inj hRest
      simp
    · simp at hRest
  · have hDisjoint := (List.nodup_append'.mp hNodup).2.2
    constructor
    · exact fun hIn => hDisjoint hMem (by simp [hIn])
    · exact fun hIn => hDisjoint hMem (by simp [hIn])

theorem set_rows {d : Nat} {above : List NodeId} {A B PA PB : List Tok} {p : NodeId} {n : Node}
    (hUp : Upper o h root d above (A ++ .node p :: B))
    (hA : Expands (Inner o h root) A PA) (hB : Expands (Inner o h root) B PB)
    (hNodup : (above ++ ids (A ++ .node p :: B)).Nodup) (hParent : n.parent = (h.nodes p).parent) :
    Upper o (h.set p n) root d above (A ++ .node p :: B) ∧
      Expands (Inner o (h.set p n) root) A PA ∧ Expands (Inner o (h.set p n) root) B PB ∧
      ∀ y, ((h.set p n).nodes y).parent = (h.nodes y).parent := by
  obtain ⟨_, hRow, hApart⟩ := List.nodup_append'.mp hNodup
  have hOut : p ∉ ids A ∧ p ∉ ids B := by
    rw [ids_append, ids_cons_node, List.nodup_middle, List.nodup_cons, List.mem_append, not_or]
      at hRow
    exact hRow.1
  have hSame : ∀ y, y ≠ p → (h.set p n).nodes y = h.nodes y := fun y hy => set_nodes_of_ne h n hy
  have hParents : ∀ y, ((h.set p n).nodes y).parent = (h.nodes y).parent := by
    intro y
    rcases eq_or_ne y p with hy | hy
    · rw [hy, set_nodes_self, hParent]
    · rw [hSame y hy]
  refine ⟨?_, ?_, ?_, hParents⟩
  · apply hUp.congr
    · exact fun y hy => hSame y fun hEq => hApart hy (by simp [hEq])
    · exact fun y _ => hParents y
  · apply expands_congr hA
    · exact fun y hy => .of_eq (hSame y (ne_of_mem_of_not_mem hy hOut.1))
    · exact fun _ => rfl
    · exact fun y _ => hParents y
  · apply expands_congr hB
    · exact fun y hy => .of_eq (hSame y (ne_of_mem_of_not_mem hy hOut.2))
    · exact fun _ => rfl
    · exact fun y _ => hParents y

end Parents

section Steps

variable {h : Heap} {root p left right c : NodeId} {d : Nat} {above extra : List NodeId}
  {A₀ B₀ PA PB As : List Tok} {P Q : List (UInt64 × NodeId)} {key : UInt64}

theorem insertIntoNode_rows (hUp : Upper o h root d above (A₀ ++ .node p :: B₀))
    (hA : Expands (Inner o h root) A₀ PA) (hB : Expands (Inner o h root) B₀ PB)
    (hLeft : weave c P = As ++ [.node left]) (hNode : InnerNode o (h.nodes p) c (P ++ Q))
    (hMin : Filled (cut o.order - 1) root p (P ++ Q).length)
    (hKids : ∀ y ∈ c :: (P ++ Q).map Prod.snd, (h.nodes y).parent = some p)
    (hRight : (h.nodes right).parent = some p)
    (hPool : NodePool h (above ++ ids (A₀ ++ .node p :: B₀) ++
      (ids (PA ++ As ++ .node left :: (behind Q ++ PB)) ++ right :: extra)))
    (hRoom : (P ++ Q).length < o.order - 1) :
    ∃ n', insertIntoNode (h.nodes p) P.length key right = some n' ∧
      Upper o (h.set p n') root (d + 1) (above ++ ids (A₀ ++ .node p :: B₀))
        (PA ++ As ++ .node left :: .sep key :: .node right :: (behind Q ++ PB)) ∧
      NodePool (h.set p n') (above ++ ids (A₀ ++ .node p :: B₀) ++
        (ids (PA ++ As ++ .node left :: (behind Q ++ PB)) ++ right :: extra)) ∧
      Frame h (h.set p n') (right :: ids (PA ++ As ++ .node left :: (behind Q ++ PB))) extra := by
  obtain ⟨n', hCall, hNode', hParent⟩ := insertIntoNode_spec key right hNode hRoom
  obtain ⟨hUpper, _, hApart⟩ := List.nodup_append'.mp hPool.nodup
  have hpRest := hApart (List.mem_append_right above (show p ∈ ids (A₀ ++ .node p :: B₀) by simp))
  have hSame : ∀ y, y ≠ p → (h.set p n').nodes y = h.nodes y := fun y hy => set_nodes_of_ne h n' hy
  obtain ⟨hUp', hA', hB', hParents⟩ := set_rows hUp hA hB hUpper hParent
  refine ⟨n', hCall, ?_, hPool.set (by simp) n', ?_, ?_, ?_⟩
  · have hInner : Inner o (h.set p n') root (.node p) (weave c (P ++ (key, right) :: Q)) := by
      refine .node (by rwa [set_nodes_self]) (hMin.mono ?_) fun y hy => ?_
      · simp
      · rw [hParents y]
        rcases eq_or_ne y right with hyRight | hyRight
        · rw [hyRight, hRight]
        · apply hKids
          simp only [List.map_append, List.map_cons, List.mem_cons, List.mem_append] at hy ⊢
          tauto
    have hRow := Expands.mid hA' hInner hB'
    have hWeave : weave c (P ++ (key, right) :: Q) =
        As ++ .node left :: .sep key :: .node right :: behind Q := by
      rw [weave_append, hLeft, behind_cons]
      simp
    rw [hWeave] at hRow
    have hDown := hUp'.down hRow
    simpa using hDown
  · exact sameRecords_set _ _ _
  · exact fun x hx => hSame x fun hEq => hpRest (by simp [← hEq, hx])
  · exact fun x hx => .of_eq (hSame x fun hEq => hpRest (by
      rw [← hEq]
      simp only [List.mem_cons] at hx
      simp only [List.mem_append, List.mem_cons]
      tauto))

/-- Both halves of `p` after the split, before its own parent hears of it. -/
structure Halves (o : TreeOrder) (h h' : Heap) (live : List NodeId) (p x c e : NodeId)
    (L R : List (UInt64 × NodeId)) : Prop where
  left : InnerNode o (h'.nodes p) c L
  right : InnerNode o (h'.nodes x) e R
  leftLength : L.length = cut o.order - 1
  rightLength : R.length = o.order - cut o.order
  parent : (h'.nodes p).parent = (h.nodes p).parent ∧ (h'.nodes x).parent = (h.nodes p).parent
  moved : ∀ y ∈ e :: R.map Prod.snd, (h'.nodes y).parent = some x
  body : ∀ y ∈ live, y ≠ p → SameBody (h.nodes y) (h'.nodes y)
  others : ∀ y ∈ live, y ≠ p → y ∉ e :: R.map Prod.snd → h'.nodes y = h.nodes y
  records : SameRecords h h'

theorem splitNode_halves (root : NodeId) (key : UInt64) (right : NodeId)
    (up : Heap → NodeId → NodeId → UInt64 → NodeId → Option (Heap × NodeId))
    {live : List NodeId} (hNode : InnerNode o (h.nodes p) c (P ++ Q))
    (hPool : NodePool h live) (hp : p ∈ live) (hRight : right ∈ live) (hpRight : p ≠ right)
    (hKids : ∀ y ∈ c :: (P ++ Q).map Prod.snd, y ∈ live ∧ y ≠ p)
    (hFull : (P ++ Q).length = o.order - 1) :
    ∃ h' x L kPrime e R, P ++ (key, right) :: Q = L ++ (kPrime, e) :: R ∧
      insertIntoNodeAfterSplitting o up h root p P.length key right = up h' root p kPrime x ∧
      NodePool h' (x :: live) ∧ x ∉ live ∧ Halves o h h' live p x c e L R := by
  obtain ⟨hCutMin, hCutMax, _⟩ := cut_bounds o
  have hTotal : (P ++ (key, right) :: Q).length = o.order := by
    have hMin := o.min
    rw [List.length_append, List.length_cons] at *
    omega
  obtain ⟨L, kPrime, e, R, hPairs, hL⟩ : ∃ L kPrime e R,
      P ++ (key, right) :: Q = L ++ (kPrime, e) :: R ∧ L.length = cut o.order - 1 := by
    generalize P ++ (key, right) :: Q = prs at hTotal
    have hIn : cut o.order - 1 < prs.length := by omega
    refine ⟨prs.take (cut o.order - 1), prs[cut o.order - 1].1, prs[cut o.order - 1].2,
      prs.drop (cut o.order - 1 + 1), ?_, by rw [List.length_take]; omega⟩
    exact (List.take_append_drop _ _).symm.trans (congrArg _ (List.drop_eq_getElem_cons hIn))
  have hR : R.length = o.order - cut o.order := by
    rw [hPairs, List.length_append, List.length_cons] at hTotal
    omega
  obtain ⟨h₁, x, hMake, hPool₁, hNew, hRecords, hx, hLive⟩ := makeNode_spec o hPool
  have hTemps := nodeTemps_spec key right hNode hFull
  obtain ⟨n, m, hDeal, hLeftNode, hRightNode, hParent, hParent'⟩ :=
    dealNode_spec c e kPrime hNode hx hL hR
  have hpx : p ≠ x := ne_of_mem_of_not_mem hp hNew
  have hMoved : ∀ y ∈ e :: R.map Prod.snd, y ∈ live ∧ y ≠ p := by
    intro y hy
    have hMem : y = e ∨ y ∈ R.map Prod.snd := List.mem_cons.mp hy
    have hAll : y ∈ c :: (P ++ (key, right) :: Q).map Prod.snd := by
      rw [hPairs]
      simp only [List.map_append, List.map_cons, List.mem_cons, List.mem_append]
      tauto
    rcases eq_or_ne y right with hyRight | hyRight
    · exact hyRight ▸ ⟨hRight, hpRight.symm⟩
    · apply hKids
      simp only [List.map_append, List.map_cons, List.mem_cons, List.mem_append] at hAll ⊢
      tauto
  have hpMoved : p ∉ e :: R.map Prod.snd := fun hIn => (hMoved p hIn).2 rfl
  have hxMoved : x ∉ e :: R.map Prod.snd := fun hIn => hNew (hMoved x hIn).1
  have hOther : ∀ y ∈ live, y ≠ p → ((h₁.set p n).set x m).nodes y = h.nodes y := by
    intro y hy hyp
    rw [set_nodes_of_ne _ _ (ne_of_mem_of_not_mem hy hNew), set_nodes_of_ne _ _ hyp, hLive y hy]
  have hOld : (adoptAll ((h₁.set p n).set x m) (e :: R.map Prod.snd) x).nodes p = n := by
    rw [adoptAll_of_notMem hpMoved, set_nodes_of_ne _ _ hpx, set_nodes_self]
  have hFresh : (adoptAll ((h₁.set p n).set x m) (e :: R.map Prod.snd) x).nodes x = m := by
    rw [adoptAll_of_notMem hxMoved, set_nodes_self]
  refine ⟨adoptAll ((h₁.set p n).set x m) (e :: R.map Prod.snd) x, x, L, kPrime, e, R, hPairs, ?_, ?_,
    hNew, ?_⟩
  · rw [← hPairs] at hDeal
    rw [insertIntoNodeAfterSplitting, hMake]
    simp only [Option.bind_eq_bind, Option.bind_some, hLive p hp, hTemps, hDeal, adopt_eq hRightNode]
  · refine NodePool.adoptAll ((hPool₁.set (List.mem_cons_of_mem x hp) n).set List.mem_cons_self m)
      (fun y hy => List.mem_cons_of_mem x (hMoved y hy).1) x
  · constructor
    · rwa [hOld]
    · rwa [hFresh]
    · exact hL
    · exact hR
    · exact ⟨by rw [hOld, hParent], by rw [hFresh, hParent']⟩
    · exact fun y hy => adoptAll_parent hy _ x
    · intro y hy hyp
      exact (SameBody.of_eq (hOther y hy hyp)).trans (adoptAll_sameBody _ _ _ _)
    · intro y hy hyp hyMoved
      rw [adoptAll_of_notMem hyMoved, hOther y hy hyp]
    · exact hRecords.trans ((sameRecords_set _ _ _).trans ((sameRecords_set _ _ _).trans
        (adoptAll_records _ _ _)))

/-- The rows take in both halves and the rows above them. -/
theorem splitNode_rows {h₃ h₄ : Heap} {root' x e : NodeId} {d' : Nat} {above' : List NodeId}
    {L R : List (UInt64 × NodeId)} {kPrime : UInt64}
    (hA : Expands (Inner o h root) A₀ PA) (hB : Expands (Inner o h root) B₀ PB)
    (hLeft : weave c P = As ++ [.node left])
    (hKids : ∀ y ∈ c :: (P ++ Q).map Prod.snd, (h.nodes y).parent = some p)
    (hRight : (h.nodes right).parent = some p)
    (hRoot : root ∉ ids A₀ ∧ root ∉ ids B₀)
    (hNodup : (above ++ ids (A₀ ++ .node p :: B₀) ++
      (ids (PA ++ As ++ .node left :: (behind Q ++ PB)) ++ right :: extra)).Nodup)
    (hPairs : P ++ (key, right) :: Q = L ++ (kPrime, e) :: R)
    (hHalves : Halves o h h₃ (above ++ ids (A₀ ++ .node p :: B₀) ++
      (ids (PA ++ As ++ .node left :: (behind Q ++ PB)) ++ right :: extra)) p x c e L R)
    (hUp : Upper o h₄ root' d' above' (A₀ ++ .node p :: .sep kPrime :: .node x :: B₀))
    (hFrame : Frame h₃ h₄ (x :: ids (A₀ ++ .node p :: B₀))
      (ids (PA ++ As ++ .node left :: (behind Q ++ PB)) ++ right :: extra)) :
    Upper o h₄ root' (d' + 1) (above' ++ ids (A₀ ++ .node p :: .sep kPrime :: .node x :: B₀))
        (PA ++ As ++ .node left :: .sep key :: .node right :: (behind Q ++ PB)) ∧
      Frame h h₄ (right :: ids (PA ++ As ++ .node left :: (behind Q ++ PB))) extra := by
  obtain ⟨hUpper, hRest, hApart⟩ := List.nodup_append'.mp hNodup
  obtain ⟨_, hRow₀, _⟩ := List.nodup_append'.mp hUpper
  obtain ⟨hChildren, _⟩ := last_child hLeft
  obtain ⟨hCutMin, hCutMax, hCutHalf⟩ := cut_bounds o
  have hKidsRow : c :: (P ++ Q).map Prod.snd = ids As ++ left :: Q.map Prod.snd := by
    rw [List.map_append, ← List.cons_append, hChildren, List.append_assoc]
    rfl
  have hAllKids : c :: (P ++ (key, right) :: Q).map Prod.snd =
      ids As ++ left :: right :: Q.map Prod.snd := by
    rw [List.map_append, ← List.cons_append, hChildren, List.append_assoc]
    rfl
  have hHalvesKids : c :: (P ++ (key, right) :: Q).map Prod.snd =
      (c :: L.map Prod.snd) ++ (e :: R.map Prod.snd) := by
    rw [hPairs]
    simp
  have hRestPerm : (ids (PA ++ As ++ .node left :: (behind Q ++ PB)) ++ right :: extra).Perm
      ((ids PA ++ ids PB ++ extra) ++ (ids As ++ left :: right :: Q.map Prod.snd)) := by
    rw [List.perm_iff_count]
    intro y
    simp only [ids_append, ids_cons_node, ids_behind, List.count_append, List.count_cons]
    omega
  rw [← hAllKids, hHalvesKids] at hRestPerm
  have hRest' := hRestPerm.nodup_iff.mp hRest
  obtain ⟨_, hKidsNodup, hBeside⟩ := List.nodup_append'.mp hRest'
  obtain ⟨_, _, hLR⟩ := List.nodup_append'.mp hKidsNodup
  have hLive : ∀ y ∈ (ids PA ++ ids PB ++ extra) ++ ((c :: L.map Prod.snd) ++ (e :: R.map Prod.snd)),
      y ∈ ids (PA ++ As ++ .node left :: (behind Q ++ PB)) ++ right :: extra ∧ y ≠ p := by
    intro y hy
    have hyRest := hRestPerm.mem_iff.mpr hy
    refine ⟨hyRest, fun hEq => hApart (List.mem_append_right above ?_) hyRest⟩
    rw [hEq]
    simp
  -- a node of the lower row keeps its parent unless it has gone to the new half
  have hStay : ∀ y ∈ (ids PA ++ ids PB ++ extra) ++ (c :: L.map Prod.snd),
      h₄.nodes y = h.nodes y := by
    intro y hy
    have hy' : y ∈ (ids PA ++ ids PB ++ extra) ++ ((c :: L.map Prod.snd) ++ (e :: R.map Prod.snd)) := by
      simp only [List.mem_append] at hy ⊢
      tauto
    obtain ⟨hyRest, hyp⟩ := hLive y hy'
    have hyMoved : y ∉ e :: R.map Prod.snd := by
      intro hIn
      obtain hOut | hL := List.mem_append.mp hy
      · exact hBeside hOut (List.mem_append_right _ hIn)
      · exact hLR hL hIn
    rw [hFrame.extra y hyRest, hHalves.others y (List.mem_append_right _ hyRest) hyp hyMoved]
  have hBody : ∀ y ∈ ids (A₀ ++ .node p :: B₀), y ≠ p → SameBody (h.nodes y) (h₄.nodes y) := by
    intro y hy hyp
    have hBefore := hHalves.body y (List.mem_append_left _ (List.mem_append_right above hy)) hyp
    exact hBefore.trans (hFrame.row y (List.mem_cons_of_mem x hy))
  have hpOut : p ∉ ids A₀ ∧ p ∉ ids B₀ := by
    rw [ids_append, ids_cons_node, List.nodup_middle, List.nodup_cons, List.mem_append, not_or]
      at hRow₀
    exact hRow₀.1
  constructor
  · have hA' : Expands (Inner o h₄ root') A₀ PA := by
      apply expands_congr hA
      · exact fun y hy => hBody y (by simp [hy]) (ne_of_mem_of_not_mem hy hpOut.1)
      · exact fun hIn => absurd hIn hRoot.1
      · exact fun y hy => congrArg Node.parent (hStay y (by simp [hy]))
    have hB' : Expands (Inner o h₄ root') B₀ PB := by
      apply expands_congr hB
      · exact fun y hy => hBody y (by simp [hy]) (ne_of_mem_of_not_mem hy hpOut.2)
      · exact fun hIn => absurd hIn hRoot.2
      · exact fun y hy => congrArg Node.parent (hStay y (by simp [hy]))
    have hOld : Inner o h₄ root' (.node p) (weave c L) := by
      refine .node (hHalves.left.sameBody (hFrame.row p (by simp))) (Or.inl ?_) fun y hy => ?_
      · rw [hHalves.leftLength]
      · rw [hStay y (List.mem_append_right _ hy)]
        have hyKid : y ∈ c :: (P ++ (key, right) :: Q).map Prod.snd :=
          hHalvesKids ▸ List.mem_append_left _ hy
        rcases eq_or_ne y right with hyRight | hyRight
        · rw [hyRight, hRight]
        · apply hKids
          rw [hAllKids] at hyKid
          rw [hKidsRow]
          simp only [List.mem_append, List.mem_cons] at hyKid ⊢
          tauto
    have hFresh : Inner o h₄ root' (.node x) (weave e R) := by
      refine .node (hHalves.right.sameBody (hFrame.row x List.mem_cons_self)) (Or.inl ?_)
        fun y hy => ?_
      · rw [hHalves.rightLength]
        exact hCutHalf
      · have hyLive := (hLive y (List.mem_append_right _ (List.mem_append_right _ hy))).1
        rw [hFrame.extra y hyLive]
        exact hHalves.moved y hy
    have hRow := Expands.mid hA' hOld (.cons (.sep kPrime) (.cons hFresh hB'))
    have hWeave : weave c L ++ .sep kPrime :: weave e R =
        As ++ .node left :: .sep key :: .node right :: behind Q := by
      rw [← weave_append_cons, ← hPairs, weave_append, hLeft, behind_cons]
      simp
    have hWhole : PA ++ (weave c L ++ ([.sep kPrime] ++ (weave e R ++ PB))) =
        PA ++ As ++ .node left :: .sep key :: .node right :: (behind Q ++ PB) := by
      calc PA ++ (weave c L ++ ([.sep kPrime] ++ (weave e R ++ PB)))
          = PA ++ ((weave c L ++ .sep kPrime :: weave e R) ++ PB) := by simp
        _ = PA ++ As ++ .node left :: .sep key :: .node right :: (behind Q ++ PB) := by
          rw [hWeave]
          simp
    rw [← List.append_assoc, List.append_assoc, hWhole] at hRow
    exact hUp.down hRow
  · refine ⟨hHalves.records.trans hFrame.records, fun y hy => hStay y (by simp [hy]), fun y hy => ?_⟩
    have hyRest : y ∈ ids (PA ++ As ++ .node left :: (behind Q ++ PB)) ++ right :: extra := by
      simp only [List.mem_cons, List.mem_append] at hy ⊢
      tauto
    have hyp : y ≠ p := by
      intro hEq
      refine hApart (List.mem_append_right above ?_) hyRest
      rw [hEq]
      simp
    rw [hFrame.extra y hyRest]
    exact hHalves.body y (List.mem_append_right _ hyRest) hyp

end Steps

theorem insertIntoParent_spec {d : Nat} : ∀ {h : Heap} {root left right : NodeId}
    {above extra : List NodeId} {A B : List Tok} (key : UInt64) {fuel : Nat},
    Upper o h root d above (A ++ .node left :: B) →
    (h.nodes right).parent = (h.nodes left).parent →
    NodePool h (above ++ (ids (A ++ .node left :: B) ++ right :: extra)) → d < fuel →
    ∃ h' root' d' above', insertIntoParent o fuel h root left key right = some (h', root') ∧
      Upper o h' root' d' above' (A ++ .node left :: .sep key :: .node right :: B) ∧
      NodePool h' (above' ++ (ids (A ++ .node left :: B) ++ right :: extra)) ∧
      Frame h h' (right :: ids (A ++ .node left :: B)) extra := by
  induction d with
  | zero =>
    intro h root left right above extra A B key fuel hUp hRight hPool hFuel
    obtain ⟨fuel, rfl⟩ : ∃ m, fuel = m + 1 := ⟨fuel - 1, by omega⟩
    generalize hRow : A ++ .node left :: B = row at hUp
    cases hUp with
    | top hTop =>
      obtain ⟨rfl, hLeft⟩ | ⟨_, _⟩ := List.append_eq_singleton_iff.mp hRow
      · obtain ⟨hNode, rfl⟩ := List.cons.inj hLeft
        cases hNode
        obtain ⟨h', root', hCall, hUp', hPool', hFrame⟩ := insertIntoNewRoot_spec key hPool
        refine ⟨h', root', 1, [root'], ?_, hUp', hPool', hFrame⟩
        rw [insertIntoParent, hTop]
        exact hCall
      · simp_all
  | succ d ih =>
    intro h root left right above extra A B key fuel hUp hRight hPool hFuel
    obtain ⟨fuel, rfl⟩ : ∃ m, fuel = m + 1 := ⟨fuel - 1, by omega⟩
    generalize hLower : A ++ .node left :: B = row at hUp
    cases hUp with
    | @down _ above row _ hUp hRow =>
      subst hLower
      obtain ⟨A₀, p, B₀, PA, PB, c, P, Q, As, rfl, hA, hB, rfl, rfl, hLeft, hNode, hMin, hKids⟩ :=
        parent_of_mem hRow
      obtain ⟨hChildren, hIndex⟩ := last_child hLeft
      have hParent : (h.nodes left).parent = some p := by
        apply hKids
        rw [List.map_append, ← List.cons_append, hChildren]
        simp
      rw [insertIntoParent, hParent]
      have hFind : pointerIndex (h.nodes p) left = some P.length := by
        rw [← hIndex]
        apply pointerIndex_eq hNode (V := Q.map Prod.snd)
        · rw [List.map_append, ← List.cons_append, hChildren, List.append_assoc]
          rfl
        · have hRow := (List.nodup_append'.mp (List.nodup_append'.mp hPool.nodup).2.1).1
          rw [ids_append, ids_append, ids_cons_node, List.nodup_middle, List.nodup_cons] at hRow
          exact fun hIn => hRow.1 (by simp [hIn])
      simp only [hFind, hNode.numKeys, Option.bind_eq_bind, Option.bind_some]
      by_cases hRoom : (P ++ Q).length < o.order - 1
      · obtain ⟨n', hCall, hUp', hPool', hFrame⟩ := insertIntoNode_rows hUp hA hB hLeft hNode hMin
          hKids (hRight.trans hParent) hPool hRoom
        refine ⟨h.set p n', root, d + 1, _, ?_, hUp', hPool', hFrame⟩
        rw [if_pos hRoom, hCall]
        rfl
      · rw [if_neg hRoom]
        obtain ⟨_, hRest, hApart⟩ := List.nodup_append'.mp hPool.nodup
        have hRoot := root_notMem_beside hUp (List.nodup_append'.mp hPool.nodup).1
        have hpLive : p ∈ above ++ ids (A₀ ++ .node p :: B₀) := by simp
        have hNotUpper : ∀ y ∈ ids (PA ++ As ++ .node left :: (behind Q ++ PB)) ++ right :: extra,
            y ∉ above ++ ids (A₀ ++ .node p :: B₀) := fun y hy hIn => hApart hIn hy
        have hKidsLive : ∀ y ∈ c :: (P ++ Q).map Prod.snd,
            y ∈ ids (PA ++ As ++ .node left :: (behind Q ++ PB)) ++ right :: extra := by
          intro y hy
          rw [List.map_append, ← List.cons_append, hChildren] at hy
          simp only [ids_append, ids_cons_node, ids_behind, List.mem_append, List.mem_cons,
            List.not_mem_nil, or_false] at hy ⊢
          tauto
        have hRightLive : right ∈ ids (PA ++ As ++ .node left :: (behind Q ++ PB)) ++ right :: extra := by
          simp
        obtain ⟨h₃, x, L, kPrime, e, R, hPairs, hCall, hPool₃, hx, hHalves⟩ :=
          splitNode_halves root key right (insertIntoParent o fuel) hNode hPool
            (List.mem_append_left _ hpLive) (List.mem_append_right _ hRightLive)
            (fun hEq => hNotUpper right hRightLive (hEq ▸ hpLive))
            (fun y hy => ⟨List.mem_append_right _ (hKidsLive y hy),
              fun hEq => hNotUpper y (hKidsLive y hy) (hEq ▸ hpLive)⟩)
            (by have hLength := hNode.keysLength
                obtain ⟨J, hKeys⟩ := hNode.keys
                rw [hKeys, List.length_append, List.length_map] at hLength
                omega)
        have hMoved : ∀ y ∈ above ++ ids (A₀ ++ .node p :: B₀), y ∉ e :: R.map Prod.snd := by
          intro y hy hIn
          refine hNotUpper y ?_ hy
          have hAll : y ∈ c :: (P ++ (key, right) :: Q).map Prod.snd := by
            rw [hPairs]
            simp only [List.map_append, List.map_cons, List.mem_cons, List.mem_append] at hIn ⊢
            tauto
          rcases eq_or_ne y right with hyRight | hyRight
          · exact hyRight ▸ hRightLive
          · apply hKidsLive
            simp only [List.map_append, List.map_cons, List.mem_cons, List.mem_append] at hAll ⊢
            tauto
        have hStay : ∀ y ∈ above ++ ids (A₀ ++ .node p :: B₀), y ≠ p → h₃.nodes y = h.nodes y :=
          fun y hy hyp => hHalves.others y (List.mem_append_left _ hy) hyp (hMoved y hy)
        have hpAbove : p ∉ above := by
          obtain ⟨_, _, hApart'⟩ := List.nodup_append'.mp (List.nodup_append'.mp hPool.nodup).1
          exact fun hIn => hApart' hIn (by simp)
        have hUp₃ : Upper o h₃ root d above (A₀ ++ .node p :: B₀) := by
          apply hUp.congr
          · exact fun y hy => hStay y (List.mem_append_left _ hy) (ne_of_mem_of_not_mem hy hpAbove)
          · intro y hy
            rcases eq_or_ne y p with hyp | hyp
            · rw [hyp, hHalves.parent.1]
            · rw [hStay y (List.mem_append_right _ hy) hyp]
        have hPool₃' : NodePool h₃ (above ++ (ids (A₀ ++ .node p :: B₀) ++
            x :: (ids (PA ++ As ++ .node left :: (behind Q ++ PB)) ++ right :: extra))) := by
          apply hPool₃.perm
          rw [List.perm_iff_count]
          intro y
          simp only [List.count_append, List.count_cons]
          omega
        obtain ⟨h₄, root', d', above', hCall₄, hUp₄, hPool₄, hFrame₄⟩ := ih kPrime hUp₃
          (hHalves.parent.2.trans hHalves.parent.1.symm) hPool₃' (show d < fuel by omega)
        obtain ⟨hUp', hFrame⟩ := splitNode_rows hA hB hLeft hKids (hRight.trans hParent) hRoot
          hPool.nodup hPairs hHalves hUp₄ hFrame₄
        refine ⟨h₄, root', d' + 1, _, hCall.trans hCall₄, hUp', ?_, hFrame⟩
        apply hPool₄.perm
        rw [List.perm_iff_count]
        intro y
        simp only [ids_append, ids_cons_node, ids_cons_sep, List.count_append, List.count_cons]
        omega

end Trident.Btree
