import Trident.Btree.Shrinking

/-! # The last row and the entries

The leaves expand into their entries. Entries and separators stand in ascending
order; an entry may equal the separator before it.
-/

namespace Trident.Btree

open Loops Expansion

section Symbols

def Tok.entry? : Tok → Option (UInt64 × RecId)
  | .entry k r => some (k, r)
  | _ => none

def entries (items : List Tok) : List (UInt64 × RecId) := items.filterMap Tok.entry?

def slots (es : List (UInt64 × RecId)) : List Tok := es.map fun e => .entry e.1 e.2

@[simp] theorem entries_nil : entries [] = [] := rfl

@[simp] theorem entries_append (a b : List Tok) : entries (a ++ b) = entries a ++ entries b :=
  List.filterMap_append

@[simp] theorem entries_cons_sep (k : UInt64) (items : List Tok) :
    entries (.sep k :: items) = entries items := rfl

@[simp] theorem entries_cons_entry (k : UInt64) (r : RecId) (items : List Tok) :
    entries (.entry k r :: items) = (k, r) :: entries items := rfl

@[simp] theorem slots_append (a b : List (UInt64 × RecId)) : slots (a ++ b) = slots a ++ slots b :=
  List.map_append

@[simp] theorem slots_cons (e : UInt64 × RecId) (es : List (UInt64 × RecId)) :
    slots (e :: es) = .entry e.1 e.2 :: slots es := rfl

@[simp] theorem slots_nil : slots [] = [] := rfl

@[simp] theorem entries_slots (es : List (UInt64 × RecId)) : entries (slots es) = es := by
  induction es with
  | nil => rfl
  | cons e es ih => simp [ih]

@[simp] theorem seps_slots (es : List (UInt64 × RecId)) : seps (slots es) = [] := by
  induction es with
  | nil => rfl
  | cons e es ih => exact ih

theorem mem_entries {items : List Tok} {k : UInt64} {r : RecId} :
    (k, r) ∈ entries items ↔ Tok.entry k r ∈ items := by
  rw [entries, List.mem_filterMap]
  constructor
  · rintro ⟨t, ht, hEntry⟩
    cases t with
    | entry k' r' =>
      cases hEntry
      exact ht
    | node x => cases hEntry
    | sep k' => cases hEntry
  · exact fun h => ⟨_, h, rfl⟩

end Symbols

section Order

def Tok.Before : Tok → Tok → Prop
  | .entry a _, .entry b _ => a < b
  | .entry a _, .sep b => a < b
  | .sep a, .entry b _ => a ≤ b
  | .sep a, .sep b => a < b
  | _, _ => True

/-- `key` is not below the separator that ends `A`. -/
def StartsAt (key : UInt64) (A : List Tok) : Prop :=
  A = [] ∨ ∃ A' s, A = A' ++ [.sep s] ∧ s ≤ key

/-- `key` is below the separator that begins `B`. -/
def EndsBefore (key : UInt64) (B : List Tok) : Prop := B = [] ∨ ∃ s B', B = .sep s :: B' ∧ key < s

theorem StartsAt.before {key : UInt64} {A : List Tok} (hStart : StartsAt key A)
    (hSorted : A.Pairwise Tok.Before) (r : RecId) : ∀ t ∈ A, t.Before (.entry key r) := by
  obtain rfl | ⟨A, s, rfl, hs⟩ := hStart
  · simp
  · rw [List.pairwise_append] at hSorted
    obtain ⟨_, _, hLast⟩ := hSorted
    intro t ht
    obtain ht | ht := List.mem_append.mp ht
    · have hBefore := hLast t ht (.sep s) List.mem_cons_self
      cases t with
      | node x => trivial
      | sep a => exact UInt64.le_of_lt (UInt64.lt_of_lt_of_le hBefore hs)
      | entry a q => exact UInt64.lt_of_lt_of_le hBefore hs
    · rw [List.mem_singleton.mp ht]
      exact hs

theorem EndsBefore.after {key : UInt64} {B : List Tok} (hEnd : EndsBefore key B)
    (hSorted : B.Pairwise Tok.Before) (r : RecId) : ∀ t ∈ B, (Tok.entry key r).Before t := by
  obtain rfl | ⟨s, B, rfl, hs⟩ := hEnd
  · simp
  · rw [List.pairwise_cons] at hSorted
    intro t ht
    obtain rfl | ht := List.mem_cons.mp ht
    · exact hs
    · have hBefore := hSorted.1 t ht
      cases t with
      | node x => trivial
      | sep a => exact UInt64.lt_trans hs hBefore
      | entry a q => exact UInt64.lt_of_lt_of_le hs hBefore

theorem pairwise_insert_sep {X Y : List Tok} {a k : UInt64} {r q : RecId}
    (hSorted : (X ++ .entry a r :: .entry k q :: Y).Pairwise Tok.Before) :
    (X ++ .entry a r :: .sep k :: .entry k q :: Y).Pairwise Tok.Before := by
  simp only [List.pairwise_append, List.pairwise_cons, List.mem_cons, forall_eq_or_imp] at hSorted ⊢
  obtain ⟨hX, ⟨⟨hak, haY⟩, hkY, hY⟩, hBoth⟩ := hSorted
  refine ⟨hX, ⟨⟨hak, hak, haY⟩, ⟨UInt64.le_refl k, fun t ht => ?_⟩, hkY, hY⟩, fun t ht => ?_⟩
  · have hBefore := hkY t ht
    cases t with
    | node x => trivial
    | sep b => exact hBefore
    | entry b p => exact UInt64.le_of_lt hBefore
  · obtain ⟨hta, htk, htY⟩ := hBoth t ht
    refine ⟨hta, ?_, htk, htY⟩
    cases t with
    | node x => trivial
    | sep b => exact UInt64.lt_of_le_of_lt hta hak
    | entry b p => exact htk

/-- Neighbors that share out their entries with the first one of the right node between them. -/
theorem sorted_split {IA IB : List Tok} {L T : List (UInt64 × RecId)} {e : UInt64 × RecId}
    (hL : 0 < L.length) (hSorted : (IA ++ (slots (L ++ e :: T) ++ IB)).Pairwise Tok.Before) :
    (IA ++ (slots L ++ .sep e.1 :: (slots (e :: T) ++ IB))).Pairwise Tok.Before := by
  obtain rfl | ⟨S, a, rfl⟩ := List.eq_nil_or_concat L
  · exact absurd hL (Nat.lt_irrefl 0)
  · rw [List.concat_eq_append] at *
    have hBefore : IA ++ (slots (S ++ [a] ++ e :: T) ++ IB) =
        (IA ++ slots S) ++ .entry a.1 a.2 :: .entry e.1 e.2 :: (slots T ++ IB) := by simp
    have hAfter : IA ++ (slots (S ++ [a]) ++ .sep e.1 :: (slots (e :: T) ++ IB)) =
        (IA ++ slots S) ++ .entry a.1 a.2 :: .sep e.1 :: .entry e.1 e.2 :: (slots T ++ IB) := by simp
    rw [hBefore] at hSorted
    rw [hAfter]
    exact pairwise_insert_sep hSorted

theorem sorted_join {IA IB : List Tok} {L R : List (UInt64 × RecId)} {k : UInt64}
    (hSorted : (IA ++ (slots L ++ .sep k :: (slots R ++ IB))).Pairwise Tok.Before) :
    (IA ++ (slots (L ++ R) ++ IB)).Pairwise Tok.Before := by
  refine hSorted.sublist ?_
  rw [slots_append, List.append_assoc]
  refine List.Sublist.append_left (List.Sublist.append_left ?_ _) _
  exact List.sublist_cons_self _ _

theorem ascending_keys {items : List Tok} (hSorted : items.Pairwise Tok.Before) :
    ((entries items).map Prod.fst).Pairwise (· < ·) := by
  induction items with
  | nil => exact .nil
  | cons t items ih =>
    rw [List.pairwise_cons] at hSorted
    have hRest := ih hSorted.2
    cases t with
    | node x => exact hRest
    | sep k => exact hRest
    | entry k r =>
      rw [entries_cons_entry, List.map_cons, List.pairwise_cons]
      refine ⟨fun k' hk' => ?_, hRest⟩
      obtain ⟨⟨_, r'⟩, hMem, rfl⟩ := List.mem_map.mp hk'
      exact hSorted.1 _ (mem_entries.mp hMem)

theorem seps_sorted {items : List Tok} (hSorted : items.Pairwise Tok.Before) :
    (seps items).Pairwise (· < ·) := by
  induction items with
  | nil => exact .nil
  | cons t items ih =>
    rw [List.pairwise_cons] at hSorted
    have hRest := ih hSorted.2
    cases t with
    | node x => exact hRest
    | entry k r => exact hRest
    | sep k =>
      rw [seps_cons_sep, List.pairwise_cons]
      refine ⟨fun k' hk' => ?_, hRest⟩
      obtain ⟨t, ht, hSep⟩ := List.mem_filterMap.mp hk'
      cases t with
      | sep k'' =>
        cases hSep
        exact hSorted.1 _ ht
      | node x => cases hSep
      | entry k'' r => cases hSep

theorem seps_nodup {items : List Tok} (hSorted : items.Pairwise Tok.Before) : (seps items).Nodup := by
  apply (seps_sorted hSorted).imp
  rintro a b hLt rfl
  exact UInt64.lt_irrefl a hLt

end Order

section Rows

variable (o : TreeOrder) (h : Heap) (root : NodeId)

inductive Leaf : Tok → List Tok → Prop
  | sep (k : UInt64) : Leaf (.sep k) [.sep k]
  | node {x : NodeId} {es : List (UInt64 × RecId)} {link : Ptr} :
      LeafNode o (h.nodes x) es link → Filled (cut (o.order - 1)) root x es.length →
      Leaf (.node x) (slots es)

/-- A pointer to the first of the leaves, if there are any. -/
def firstOf (last : Ptr) : List NodeId → Ptr
  | [] => last
  | x :: _ => .node x

/-- The last pointer of each leaf leads to the next, that of the last one is `last`. -/
def Linked (last : Ptr) : List NodeId → Prop
  | [] => True
  | x :: l => (h.nodes x).pointers[o.order - 1]? = some (firstOf last l) ∧ Linked last l

end Rows

section RowRules

variable {o : TreeOrder} {h h' : Heap} {root root' : NodeId}

theorem Leaf.node_inv {x : NodeId} {w : List Tok} (hx : Leaf o h root (.node x) w) :
    ∃ es link, w = slots es ∧ LeafNode o (h.nodes x) es link ∧
      Filled (cut (o.order - 1)) root x es.length := by
  cases hx with
  | node hNode hMin => exact ⟨_, _, rfl, hNode, hMin⟩

theorem leaves_congr {row items : List Tok} (hRow : Expands (Leaf o h root) row items)
    (hBody : ∀ x ∈ ids row, SameBody (h.nodes x) (h'.nodes x))
    (hRoot : root ∈ ids row → root = root') : Expands (Leaf o h' root') row items := by
  refine hRow.mono fun a ha w _ hLeaf => ?_
  cases hLeaf with
  | sep k => exact .sep k
  | node hNode hMin =>
    have hIn := mem_ids.mpr ha
    refine .node (hNode.sameBody (hBody _ hIn)) (hMin.imp_right fun ⟨hx, hOne⟩ => ⟨?_, hOne⟩)
    subst hx
    exact hRoot hIn

theorem seps_leaves {row items : List Tok} (hRow : Expands (Leaf o h root) row items) :
    seps items = seps row := by
  induction hRow with
  | nil => rfl
  | cons hFirst _ ih =>
    rw [seps_append, ih]
    cases hFirst with
    | sep k => rfl
    | node _ _ => rw [seps_slots, seps_cons_node, List.nil_append]

theorem LeafNode.last {n : Node} {es : List (UInt64 × RecId)} {link : Ptr}
    (hNode : LeafNode o n es link) : n.pointers[o.order - 1]? = some link := by
  obtain ⟨J, hPointers⟩ := hNode.pointers
  have hLength := hNode.pointersLength
  rw [hPointers, List.length_append, List.length_singleton] at hLength
  exact getElem?_eq hPointers (by omega)

theorem linked_congr {last : Ptr} {l : List NodeId}
    (hSame : ∀ x ∈ l, (h'.nodes x).pointers[o.order - 1]? = (h.nodes x).pointers[o.order - 1]?)
    (hLinked : Linked o h last l) : Linked o h' last l := by
  induction l with
  | nil => trivial
  | cons x l ih =>
    refine ⟨?_, ih (fun y hy => hSame y (List.mem_cons_of_mem x hy)) hLinked.2⟩
    rw [hSame x List.mem_cons_self]
    exact hLinked.1

theorem SameBody.pointers {n n' : Node} (hSame : SameBody n n') : n'.pointers = n.pointers := by
  rw [hSame]

theorem linked_append {last : Ptr} {A B : List NodeId} :
    Linked o h last (A ++ B) ↔ Linked o h (firstOf last B) A ∧ Linked o h last B := by
  induction A with
  | nil => exact ⟨fun hB => ⟨trivial, hB⟩, fun hB => hB.2⟩
  | cons x A ih =>
    have hFirst : firstOf last (A ++ B) = firstOf (firstOf last B) A := by
      cases A <;> rfl
    rw [List.cons_append, Linked, Linked, ih, hFirst, and_assoc]

/-- A tree with more than nothing in it: the rows down to the entries. -/
structure Shape (o : TreeOrder) (h : Heap) (root : NodeId) (d : Nat) (above : List NodeId)
    (row items : List Tok) : Prop where
  upper : Upper o h root d above row
  leaves : Expands (Leaf o h root) row items
  linked : Linked o h .null (ids row)
  sorted : items.Pairwise Tok.Before
  pool : NodePool h (above ++ ids row)

/-- The tree under `root`, if there is one, with its entries from left to right. -/
def TreeOf (o : TreeOrder) (h : Heap) : Option NodeId → List (UInt64 × RecId) → Prop
  | none, es => NodePool h [] ∧ es = []
  | some root, es => ∃ d above row items, Shape o h root d above row items ∧ entries items = es

end RowRules

end Trident.Btree
