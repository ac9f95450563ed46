import Trident.Btree.Deletion

/-! # The tree as a finite map

After any calls of `insert` and `delete` the tree holds the map that the same calls
make of an empty one.
-/

namespace Trident.Btree

open Loops Expansion

variable {o : TreeOrder} {h h' : Heap} {root : Option NodeId} {es : List (UInt64 × RecId)}

/-- The map from keys to values. -/
abbrev Contents := UInt64 → Option UInt64

def Op.update : Op → Contents → Contents
  | .insert key value, m => Function.update m key (some value)
  | .delete key, m => Function.update m key none

def contents (ops : List Op) : Contents := ops.foldl (fun m op => op.update m) fun _ => none

section Trees

theorem Shape.sameNodes {root : NodeId} {d : Nat} {above : List NodeId} {row items : List Tok}
    (hSame : SameNodes h h') (hShape : Shape o h root d above row items) :
    Shape o h' root d above row items := by
  have hNodes : ∀ x, h'.nodes x = h.nodes x := fun x => by rw [hSame.1]
  refine ⟨?_, ?_, ?_, hShape.sorted, hSame.pool hShape.pool⟩
  · exact hShape.upper.congr (fun x _ => hNodes x) fun x _ => by rw [hNodes x]
  · exact leaves_congr hShape.leaves (fun x _ => .of_eq (hNodes x)) fun _ => rfl
  · exact linked_congr (fun x _ => by rw [hNodes x]) hShape.linked

theorem TreeOf.sameNodes (hSame : SameNodes h h') (hTree : TreeOf o h root es) : TreeOf o h' root es := by
  cases root with
  | none => exact ⟨hSame.pool hTree.1, hTree.2⟩
  | some root =>
    obtain ⟨d, above, row, items, hShape, hEntries⟩ := hTree
    exact ⟨d, above, row, items, hShape.sameNodes hSame, hEntries⟩

theorem TreeOf.sorted (hTree : TreeOf o h root es) : (es.map Prod.fst).Pairwise (· < ·) := by
  cases root with
  | none =>
    rw [hTree.2]
    exact .nil
  | some root =>
    obtain ⟨d, above, row, items, hShape, rfl⟩ := hTree
    exact ascending_keys hShape.sorted

theorem TreeOf.nodup (hTree : TreeOf o h root es) : (es.map Prod.fst).Nodup := by
  apply hTree.sorted.imp
  rintro a b hLt rfl
  exact UInt64.lt_irrefl a hLt

theorem key_notMem_before {IA IB : List Tok} {L R : List (UInt64 × RecId)} {key : UInt64} {r : RecId}
    (hSorted : (IA ++ (slots (L ++ (key, r) :: R) ++ IB)).Pairwise Tok.Before) :
    key ∉ L.map Prod.fst := by
  intro hIn
  obtain ⟨e, he, hKey⟩ := List.mem_map.mp hIn
  have hSlots := (List.pairwise_append.mp (List.pairwise_append.mp hSorted).2.1).1
  rw [slots_append, List.pairwise_append] at hSlots
  have hLt : e.1 < key := hSlots.2.2 _ (List.mem_map_of_mem he) (.entry key r) List.mem_cons_self
  rw [hKey] at hLt
  exact UInt64.lt_irrefl key hLt

theorem TreeOf.find_cases (hTree : TreeOf o h root es) (key : UInt64) :
    (∃ leaf r, find h root key = some (leaf, some r) ∧ (key, r) ∈ es) ∨
      ((∃ leaf, find h root key = some (leaf, none)) ∧ ∀ r, (key, r) ∉ es) := by
  cases root with
  | none =>
    obtain ⟨_, rfl⟩ := hTree
    exact Or.inr ⟨⟨none, rfl⟩, fun r => List.not_mem_nil⟩
  | some root =>
    obtain ⟨d, above, row, items, hShape, rfl⟩ := hTree
    obtain ⟨A, x, B, IA, es, IB, link, rfl, rfl, hLeaf⟩ := leafFor hShape key
    by_cases hPresent : ∃ r, (key, r) ∈ es
    · obtain ⟨r, hIn⟩ := hPresent
      obtain ⟨L, R, rfl⟩ := List.append_of_mem hIn
      refine Or.inl ⟨some x, r, ?_, (hLeaf.mem_iff hShape.sorted r).mpr hIn⟩
      exact hLeaf.find_present (key_notMem_before hShape.sorted)
    · have hAbsent : ∀ r, (key, r) ∉ es := fun r hIn => hPresent ⟨r, hIn⟩
      exact Or.inr ⟨⟨some x, hLeaf.find_absent hAbsent⟩, fun r hIn =>
        hAbsent r ((hLeaf.mem_iff hShape.sorted r).mp hIn)⟩

structure Recorded (h h' : Heap) (live : List RecId) (r : RecId) (value : UInt64) : Prop where
  pool : RecPool h' (r :: live)
  value : h'.recs r = .value value
  others : ∀ q ∈ live, h'.recs q = h.recs q

/-- The items once `all` are the entries between `IA` and `IB`, in one leaf or in two. -/
inductive Grown (o : TreeOrder) (IA : List Tok) (all : List (UInt64 × RecId)) (IB : List Tok) :
    List Tok → Prop
  | room : all.length < o.order → Grown o IA all IB (IA ++ (slots all ++ IB))
  | split {S T : List (UInt64 × RecId)} {e : UInt64 × RecId} : all.length = o.order →
      all = S ++ e :: T → S.length = cut (o.order - 1) →
      Grown o IA all IB (IA ++ (slots S ++ ([.sep e.1] ++ (slots (e :: T) ++ IB))))

theorem Grown.entries {IA IB items : List Tok} {all : List (UInt64 × RecId)}
    (hGrown : Grown o IA all IB items) : entries items = entries (IA ++ (slots all ++ IB)) := by
  cases hGrown with
  | room => rfl
  | split _ hAll _ => simp [hAll]

theorem insert_none (key value : UInt64) (hPool : NodePool h []) (hRecords : RecPool h []) :
    ∃ h' root r, insert o h none key value = some (h', some root) ∧
      Shape o h' root 0 [] [.node root] [.entry key r] ∧ Recorded h h' [] r value := by
  obtain ⟨h₁, r, hMake, hRecords₁, _, hNodes, hValue, hOthers⟩ := makeRecord_spec hRecords value
  obtain ⟨h₂, root, hCall, hShape, hSame⟩ := startNewTree_shape (o := o) key r (hNodes.pool hPool)
  refine ⟨h₂, root, r, ?_, hShape, hSame.pool hRecords₁, ?_, fun q hq => ?_⟩
  · simp only [insert, find, hMake, hCall, Option.bind_eq_bind, Option.bind_some, Option.pure_def]
  · rw [hSame.1, hValue]
  · rw [hSame.1, hOthers q hq]

theorem insert_some {root : NodeId} {d : Nat} {above : List NodeId} {row items : List Tok}
    (key value : UInt64) (hShape : Shape o h root d above row items)
    (hRecords : RecPool h ((entries items).map Prod.snd)) (hAbsent : ∀ r, (key, r) ∉ entries items) :
    ∃ h' root' r d' above' row' items' IA L R IB, insert o h (some root) key value = some (h', some root') ∧
      Recorded h h' ((entries items).map Prod.snd) r value ∧ Shape o h' root' d' above' row' items' ∧
      items = IA ++ (slots (L ++ R) ++ IB) ∧ StartsAt key IA ∧ EndsBefore key IB ∧
      (∀ e ∈ L, e.1 < key) ∧ (∀ e ∈ R, ¬ e.1 < key) ∧ Grown o IA (L ++ (key, r) :: R) IB items' := by
  obtain ⟨h₁, r, hMake, hRecords₁, _, hNodes, hValue, hOthers⟩ := makeRecord_spec hRecords value
  have hTree : TreeOf o h (some root) (entries items) := ⟨d, above, row, items, hShape, rfl⟩
  obtain ⟨leaf, hFind⟩ : ∃ leaf, find h (some root) key = some (leaf, none) := by
    obtain ⟨_, q, _, hIn⟩ | ⟨hFind, _⟩ := hTree.find_cases key
    · exact absurd hIn (hAbsent q)
    · exact hFind
  have hMade : ∀ h', SameRecords h₁ h' → Recorded h h' ((entries items).map Prod.snd) r value :=
    fun h' hSame => ⟨hSame.pool hRecords₁, by rw [hSame.1, hValue], fun q hq => by rw [hSame.1, hOthers q hq]⟩
  replace hShape := hShape.sameNodes hNodes
  obtain ⟨A, x, B, IA, es, IB, link, rfl, rfl, hLeaf⟩ := leafFor hShape key
  have hAbsent' : ∀ q, (key, q) ∉ es := fun q hIn =>
    hAbsent q ((hLeaf.mem_iff hShape.sorted q).mpr hIn)
  have hLength := hLeaf.node.length_le
  cases Nat.lt_or_ge es.length (o.order - 1) with
  | inl hRoom =>
    obtain ⟨n', L, R, rfl, hL, hR, hCall, hShape'⟩ := insertIntoLeaf_shape r hShape hLeaf hAbsent' hRoom
    refine ⟨h₁.set x n', root, r, d, above, _, _, IA, L, R, IB, ?_, hMade _ (sameRecords_set _ _ _),
      hShape', rfl, hLeaf.starts, hLeaf.ends, hL, hR, .room ?_⟩
    · simp only [insert, hFind, hMake, hLeaf.found, hLeaf.node.numKeys, if_pos hRoom, hCall,
        Option.bind_eq_bind, Option.bind_some, Option.pure_def]
    · rw [List.length_append] at hRoom
      rw [List.length_append, List.length_cons]
      omega
  | inr hFull =>
    obtain ⟨h₂, root', d', above', row', L, R, S, e, T, rfl, hL, hR, hAll, hS, hCall, hShape', hSame⟩ :=
      insertIntoLeafAfterSplitting_shape r hShape hLeaf hAbsent' (Nat.le_antisymm hLength hFull)
    refine ⟨h₂, root', r, d', above', row', _, IA, L, R, IB, ?_, hMade _ hSame, hShape', rfl,
      hLeaf.starts, hLeaf.ends, hL, hR, .split ?_ hAll hS⟩
    · simp only [insert, hFind, hMake, hLeaf.found, hLeaf.node.numKeys, if_neg (Nat.not_lt.mpr hFull),
        hCall, Option.bind_eq_bind, Option.bind_some, Option.pure_def]
    · have hMin := o.min
      rw [List.length_append] at hFull hLength
      rw [List.length_append, List.length_cons]
      omega

/-- The call on a tree without `key`, once the record is made. -/
theorem insert_absent {key : UInt64} (value : UInt64) (hTree : TreeOf o h root es)
    (hRecords : RecPool h (es.map Prod.snd)) (hAbsent : ∀ r, (key, r) ∉ es) :
    ∃ h' root' es' r, insert o h root key value = some (h', root') ∧ TreeOf o h' root' es' ∧
      es'.Perm ((key, r) :: es) ∧ Recorded h h' (es.map Prod.snd) r value := by
  cases root with
  | none =>
    obtain ⟨hPool, rfl⟩ := hTree
    obtain ⟨h', root', r, hCall, hShape, hMade⟩ := insert_none (o := o) key value hPool hRecords
    exact ⟨h', some root', [(key, r)], r, hCall, ⟨0, [], _, _, hShape, rfl⟩, .refl _, hMade⟩
  | some root =>
    obtain ⟨d, above, row, items, hShape, rfl⟩ := hTree
    obtain ⟨h', root', r, d', above', row', items', IA, L, R, IB, hCall, hMade, hShape', rfl, _, _, _, _,
      hGrown⟩ := insert_some key value hShape hRecords hAbsent
    refine ⟨h', some root', _, r, hCall, ⟨d', above', row', items', hShape', rfl⟩, ?_, hMade⟩
    rw [hGrown.entries]
    exact perm_entry IA IB key r L R

theorem insert_present {key value : UInt64} {r : RecId} (hTree : TreeOf o h root es)
    (hIn : (key, r) ∈ es) : insert o h root key value = some (h.setRec r (.value value), root) := by
  obtain ⟨leaf, r', hFind, hIn'⟩ | ⟨_, hAbsent⟩ := hTree.find_cases key
  · have hSame : r' = r := by
      have hInj := List.inj_on_of_nodup_map hTree.nodup hIn' hIn rfl
      exact congrArg Prod.snd hInj
    simp only [insert, hFind, hSame, Option.bind_eq_bind, Option.bind_some, Option.pure_def]
  · exact absurd hIn (hAbsent r)

theorem delete_absent {key : UInt64} (hTree : TreeOf o h root es) (hAbsent : ∀ r, (key, r) ∉ es) :
    delete o h root key = some (h, root) := by
  obtain ⟨_, r, _, hIn⟩ | ⟨⟨leaf, hFind⟩, _⟩ := hTree.find_cases key
  · exact absurd hIn (hAbsent r)
  · cases root <;> simp only [delete, hFind, Option.bind_eq_bind, Option.bind_some, Option.pure_def]

theorem delete_present {key : UInt64} {r : RecId} (hTree : TreeOf o h root es)
    (hRecords : RecPool h (es.map Prod.snd)) (hIn : (key, r) ∈ es) :
    ∃ h' root' es', delete o h root key = some (h', root') ∧ TreeOf o h' root' es' ∧
      es.Perm ((key, r) :: es') ∧ RecPool h' (es'.map Prod.snd) ∧
      ∀ q ∈ es'.map Prod.snd, h'.recs q = h.recs q := by
  cases root with
  | none =>
    rw [hTree.2] at hIn
    cases hIn
  | some root =>
    obtain ⟨d, above, row, items, hShape, rfl⟩ := hTree
    obtain ⟨A, x, B, IA, es, IB, link, rfl, rfl, hLeaf⟩ := leafFor hShape key
    obtain ⟨L, R, rfl⟩ := List.append_of_mem ((hLeaf.mem_iff hShape.sorted r).mp hIn)
    have hKey := key_notMem_before hShape.sorted
    have hRec : r ∉ L.map Prod.snd := by
      have hNodup := hRecords.nodup
      simp only [entries_append, entries_slots, List.map_append, List.map_cons] at hNodup
      have hLeafRecs := (List.nodup_append'.mp (List.nodup_append'.mp hNodup).2.1).1
      rw [List.nodup_middle, List.nodup_cons] at hLeafRecs
      exact fun hMem => hLeafRecs.1 (List.mem_append_left _ hMem)
    obtain ⟨h₁, root', hCall, hTree₁, hSame⟩ := deleteEntry_tree hShape hLeaf hKey hRec
    have hPerm := perm_entry IA IB key r L R
    have hRecords₁ : RecPool h₁ (r :: (entries (IA ++ (slots (L ++ R) ++ IB))).map Prod.snd) :=
      hSame.pool (hRecords.perm (hPerm.map Prod.snd))
    obtain ⟨hRecords', hNodes, hOthers⟩ := freeRecord_spec hRecords₁
    refine ⟨freeRecord h₁ r, root', _, ?_, hTree₁.sameNodes hNodes, hPerm, hRecords', fun q hq => ?_⟩
    · simp only [delete, hLeaf.find_present hKey, hCall, Option.bind_eq_bind, Option.bind_some,
        Option.pure_def]
    · have hNodup := hRecords₁.nodup
      rw [List.nodup_cons] at hNodup
      rw [hOthers q (ne_of_mem_of_not_mem hq hNodup.1), hSame.1]

end Trees

section Runs

/-- The tree under `root` has the entries `es` and holds the map `m`. -/
structure Holds (o : TreeOrder) (h : Heap) (root : Option NodeId) (es : List (UInt64 × RecId))
    (m : Contents) : Prop where
  tree : TreeOf o h root es
  records : RecPool h (es.map Prod.snd)
  stored : ∀ e ∈ es, ∃ v, h.recs e.2 = .value v ∧ m e.1 = some v
  absent : ∀ k, (∀ r, (k, r) ∉ es) → m k = none

theorem holds_start (o : TreeOrder) : Holds o emptyHeap none [] fun _ => none := by
  refine ⟨⟨FreeList.Pool.empty, rfl⟩, FreeList.Pool.empty, fun e he => ?_, fun _ _ => rfl⟩
  cases he

theorem holds_insert {m : Contents} (hHolds : Holds o h root es m) (key value : UInt64) :
    ∃ h' root' es', insert o h root key value = some (h', root') ∧
      Holds o h' root' es' (Op.update (.insert key value) m) := by
  by_cases hPresent : ∃ r, (key, r) ∈ es
  · obtain ⟨r, hIn⟩ := hPresent
    have hrLive : r ∈ es.map Prod.snd := List.mem_map_of_mem (f := Prod.snd) hIn
    refine ⟨h.setRec r (.value value), root, es, insert_present hHolds.tree hIn, ?_, ?_, ?_, ?_⟩
    · have hSame : SameNodes h (h.setRec r (.value value)) := ⟨rfl, rfl, rfl⟩
      exact hHolds.tree.sameNodes hSame
    · exact hHolds.records.setRec hrLive _
    · intro e he
      rcases eq_or_ne e.1 key with hKey | hKey
      · have hEq := List.inj_on_of_nodup_map hHolds.tree.nodup he hIn hKey
        refine ⟨value, ?_, ?_⟩
        · rw [hEq, setRec_recs_self]
        · rw [hKey]
          exact Function.update_self ..
      · obtain ⟨v, hValue, hMap⟩ := hHolds.stored e he
        have hRec : e.2 ≠ r := fun hEq => hKey (congrArg Prod.fst
          (List.inj_on_of_nodup_map hHolds.records.nodup he hIn hEq))
        refine ⟨v, ?_, ?_⟩
        · rw [setRec_recs_of_ne _ _ hRec, hValue]
        · rw [← hMap]
          exact Function.update_of_ne hKey ..
    · intro k hk
      have hKey : k ≠ key := by
        rintro rfl
        exact hk r hIn
      rw [← hHolds.absent k hk]
      exact Function.update_of_ne hKey ..
  · have hAbsent : ∀ r, (key, r) ∉ es := fun r hIn => hPresent ⟨r, hIn⟩
    obtain ⟨h', root', es', r, hCall, hTree, hPerm, hMade⟩ :=
      insert_absent value hHolds.tree hHolds.records hAbsent
    have hRecords := hMade.pool.perm (hPerm.map Prod.snd).symm
    refine ⟨h', root', es', hCall, hTree, hRecords, fun e he => ?_, fun k hk => ?_⟩
    · obtain rfl | he := List.mem_cons.mp (hPerm.mem_iff.mp he)
      · exact ⟨value, hMade.value, Function.update_self ..⟩
      · obtain ⟨v, hOld, hMap⟩ := hHolds.stored e he
        have hKey : e.1 ≠ key := by
          rintro rfl
          exact hAbsent e.2 he
        refine ⟨v, ?_, ?_⟩
        · rw [hMade.others e.2 (List.mem_map_of_mem he), hOld]
        · rw [← hMap]
          exact Function.update_of_ne hKey ..
    · have hKey : k ≠ key := by
        rintro rfl
        exact hk r (hPerm.mem_iff.mpr List.mem_cons_self)
      rw [← hHolds.absent k fun q hIn => hk q (hPerm.mem_iff.mpr (List.mem_cons_of_mem _ hIn))]
      exact Function.update_of_ne hKey ..

theorem holds_delete {m : Contents} (hHolds : Holds o h root es m) (key : UInt64) :
    ∃ h' root' es', delete o h root key = some (h', root') ∧
      Holds o h' root' es' (Op.update (.delete key) m) := by
  by_cases hPresent : ∃ r, (key, r) ∈ es
  · obtain ⟨r, hIn⟩ := hPresent
    obtain ⟨h', root', es', hCall, hTree, hPerm, hRecords, hOthers⟩ :=
      delete_present hHolds.tree hHolds.records hIn
    have hNodup := (hPerm.map Prod.fst).nodup_iff.mp hHolds.tree.nodup
    rw [List.map_cons, List.nodup_cons] at hNodup
    refine ⟨h', root', es', hCall, hTree, hRecords, fun e he => ?_, fun k hk => ?_⟩
    · obtain ⟨v, hOld, hMap⟩ := hHolds.stored e (hPerm.mem_iff.mpr (List.mem_cons_of_mem _ he))
      have hKey : e.1 ≠ key := ne_of_mem_of_not_mem (List.mem_map_of_mem he) hNodup.1
      refine ⟨v, ?_, ?_⟩
      · rw [hOthers e.2 (List.mem_map_of_mem he), hOld]
      · rw [← hMap]
        exact Function.update_of_ne hKey ..
    · rcases eq_or_ne k key with hKey | hKey
      · rw [hKey]
        exact Function.update_self ..
      · rw [← hHolds.absent k fun q hIn => ?_]
        · exact Function.update_of_ne hKey ..
        · obtain hEq | hIn := List.mem_cons.mp (hPerm.mem_iff.mp hIn)
          · exact hKey (congrArg Prod.fst hEq)
          · exact hk q hIn
  · have hAbsent : ∀ r, (key, r) ∉ es := fun r hIn => hPresent ⟨r, hIn⟩
    refine ⟨h, root, es, delete_absent hHolds.tree hAbsent, ?_⟩
    have hSame : Op.update (.delete key) m = m := by
      rw [Op.update, ← hHolds.absent key hAbsent]
      exact Function.update_eq_self key m
    rwa [hSame]

theorem holds_applyOp {m : Contents} (hHolds : Holds o h root es m) (op : Op) :
    ∃ s es', applyOp o (h, root) op = some s ∧ Holds o s.1 s.2 es' (op.update m) := by
  cases op with
  | insert key value =>
    obtain ⟨h', root', es', hCall, hHolds'⟩ := holds_insert hHolds key value
    exact ⟨(h', root'), es', hCall, hHolds'⟩
  | delete key =>
    obtain ⟨h', root', es', hCall, hHolds'⟩ := holds_delete hHolds key
    exact ⟨(h', root'), es', hCall, hHolds'⟩

theorem holds_foldlM {m : Contents} (hHolds : Holds o h root es m) (ops : List Op) :
    ∃ s es', ops.foldlM (applyOp o) (h, root) = some s ∧
      Holds o s.1 s.2 es' (ops.foldl (fun m op => op.update m) m) := by
  induction ops generalizing h root es m with
  | nil => exact ⟨(h, root), es, rfl, hHolds⟩
  | cons op ops ih =>
    obtain ⟨⟨h₁, root₁⟩, es₁, hCall, hHolds₁⟩ := holds_applyOp hHolds op
    obtain ⟨s, es', hRest, hHolds'⟩ := ih hHolds₁
    refine ⟨s, es', ?_, hHolds'⟩
    rw [List.foldlM_cons, hCall]
    exact hRest

theorem holds_run (o : TreeOrder) (ops : List Op) :
    ∃ h root es, run o ops = some (h, root) ∧ Holds o h root es (contents ops) := by
  obtain ⟨⟨h, root⟩, es, hRun, hHolds⟩ := holds_foldlM (holds_start o) ops
  exact ⟨h, root, es, hRun, hHolds⟩

theorem find_run (o : TreeOrder) (ops : List Op) :
    ∃ h root, run o ops = some (h, root) ∧ ∀ key,
      (∀ v, (∃ leaf r, find h root key = some (leaf, some r) ∧ h.recs r = .value v) ↔
        contents ops key = some v) ∧
      ((∃ leaf, find h root key = some (leaf, none)) ↔ contents ops key = none) := by
  obtain ⟨h, root, es, hRun, hHolds⟩ := holds_run o ops
  refine ⟨h, root, hRun, fun key => ?_⟩
  obtain ⟨leaf, r, hFind, hIn⟩ | ⟨⟨leaf, hFind⟩, hAbsent⟩ := hHolds.tree.find_cases key
  · obtain ⟨v, hValue, hMap⟩ := hHolds.stored (key, r) hIn
    simp [hFind, hValue, hMap]
  · simp [hFind, hHolds.absent key hAbsent]

end Runs

end Trident.Btree
