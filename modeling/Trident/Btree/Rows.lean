import Mathlib.Data.List.Nodup
import Trident.Lib.Expansion
import Trident.Btree.NodeSpecs

/-! # The rows of a tree

A row lists the nodes of one depth from left to right with the keys that stand
between them on any level above. Each node expands into its children and keys; below
the last row the leaves expand into their entries.
-/

namespace Trident.Btree

open Loops Expansion

inductive Tok where
  | node (x : NodeId)
  | sep (k : UInt64)
  | entry (k : UInt64) (r : RecId)
  deriving DecidableEq

section Symbols

def Tok.id? : Tok → Option NodeId
  | .node x => some x
  | _ => none

def Tok.sep? : Tok → Option UInt64
  | .sep k => some k
  | _ => none

def ids (row : List Tok) : List NodeId := row.filterMap Tok.id?

def seps (row : List Tok) : List UInt64 := row.filterMap Tok.sep?

/-- The keys of an internal node, each with the child behind it. -/
def behind (prs : List (UInt64 × NodeId)) : List Tok := prs.flatMap fun p => [.sep p.1, .node p.2]

def weave (c : NodeId) (prs : List (UInt64 × NodeId)) : List Tok := .node c :: behind prs

@[simp] theorem ids_nil : ids [] = [] := rfl

@[simp] theorem ids_append (a b : List Tok) : ids (a ++ b) = ids a ++ ids b := List.filterMap_append

@[simp] theorem ids_cons_node (x : NodeId) (row : List Tok) : ids (.node x :: row) = x :: ids row := rfl

@[simp] theorem ids_cons_sep (k : UInt64) (row : List Tok) : ids (.sep k :: row) = ids row := rfl

@[simp] theorem seps_nil : seps [] = [] := rfl

@[simp] theorem seps_append (a b : List Tok) : seps (a ++ b) = seps a ++ seps b :=
  List.filterMap_append

@[simp] theorem seps_cons_node (x : NodeId) (row : List Tok) : seps (.node x :: row) = seps row := rfl

@[simp] theorem seps_cons_sep (k : UInt64) (row : List Tok) : seps (.sep k :: row) = k :: seps row := rfl

theorem mem_ids {row : List Tok} {x : NodeId} : x ∈ ids row ↔ Tok.node x ∈ row := by
  rw [ids, List.mem_filterMap]
  constructor
  · rintro ⟨t, ht, hx⟩
    cases t with
    | node y =>
      cases hx
      exact ht
    | sep k => cases hx
    | entry k r => cases hx
  · exact fun h => ⟨_, h, rfl⟩

@[simp] theorem behind_nil : behind [] = [] := rfl

@[simp] theorem behind_cons (p : UInt64 × NodeId) (prs : List (UInt64 × NodeId)) :
    behind (p :: prs) = .sep p.1 :: .node p.2 :: behind prs := rfl

@[simp] theorem behind_append (P Q : List (UInt64 × NodeId)) :
    behind (P ++ Q) = behind P ++ behind Q := List.flatMap_append

@[simp] theorem ids_behind (prs : List (UInt64 × NodeId)) : ids (behind prs) = prs.map Prod.snd := by
  induction prs with
  | nil => rfl
  | cons p prs ih => simp [ih]

@[simp] theorem seps_behind (prs : List (UInt64 × NodeId)) : seps (behind prs) = prs.map Prod.fst := by
  induction prs with
  | nil => rfl
  | cons p prs ih => simp [ih]

@[simp] theorem ids_weave (c : NodeId) (prs : List (UInt64 × NodeId)) :
    ids (weave c prs) = c :: prs.map Prod.snd := by simp [weave]

@[simp] theorem seps_weave (c : NodeId) (prs : List (UInt64 × NodeId)) :
    seps (weave c prs) = prs.map Prod.fst := by simp [weave]

theorem weave_append (c : NodeId) (P Q : List (UInt64 × NodeId)) :
    weave c (P ++ Q) = weave c P ++ behind Q := by simp [weave]

theorem weave_append_cons (c d : NodeId) (k : UInt64) (P Q : List (UInt64 × NodeId)) :
    weave c (P ++ (k, d) :: Q) = weave c P ++ .sep k :: weave d Q := by simp [weave]

theorem weave_eq_append {c x : NodeId} {prs : List (UInt64 × NodeId)} {A B : List Tok}
    (h : weave c prs = A ++ .node x :: B) :
    ∃ P Q, prs = P ++ Q ∧ weave c P = A ++ [.node x] ∧ B = behind Q := by
  induction prs generalizing c A with
  | nil =>
    cases A with
    | nil =>
      obtain ⟨hx, rfl⟩ := List.cons.inj h
      exact ⟨[], [], rfl, by rw [← hx]; rfl, rfl⟩
    | cons t A =>
      obtain ⟨_, hRest⟩ := List.cons.inj h
      exact absurd hRest.symm (by simp)
  | cons p prs ih =>
    cases A with
    | nil =>
      obtain ⟨hx, rfl⟩ := List.cons.inj h
      exact ⟨[], p :: prs, rfl, by rw [← hx]; rfl, rfl⟩
    | cons t A =>
      obtain ⟨rfl, hRest⟩ := List.cons.inj h
      cases A with
      | nil =>
        obtain ⟨hSep, _⟩ := List.cons.inj hRest
        cases hSep
      | cons t A =>
        have hPair : .sep p.1 :: weave p.2 prs = t :: (A ++ .node x :: B) := hRest
        obtain ⟨rfl, hTail⟩ := List.cons.inj hPair
        obtain ⟨P, Q, rfl, hP, rfl⟩ := ih hTail
        refine ⟨p :: P, Q, rfl, ?_, rfl⟩
        rw [weave, behind_cons, List.cons_append, List.cons_append, ← hP]
        rfl

end Symbols

section Nodes

def SameBody (n n' : Node) : Prop := n' = { n with parent := n'.parent }

theorem SameBody.refl (n : Node) : SameBody n n := rfl

theorem SameBody.trans {n n' n'' : Node} (h : SameBody n n') (h' : SameBody n' n'') :
    SameBody n n'' := by
  rw [SameBody, h', h]

theorem sameBody_parent (n : Node) (p : Option NodeId) : SameBody n { n with parent := p } := rfl

theorem SameBody.of_eq {n n' : Node} (h : n' = n) : SameBody n n' := h ▸ .refl n

theorem InnerNode.sameBody {o : TreeOrder} {n n' : Node} {c : NodeId} {prs : List (UInt64 × NodeId)}
    (h : InnerNode o n c prs) (hSame : SameBody n n') : InnerNode o n' c prs := by
  rw [hSame]
  exact ⟨h.isLeaf, h.numKeys, h.keys, h.pointers, h.keysLength, h.pointersLength⟩

theorem LeafNode.sameBody {o : TreeOrder} {n n' : Node} {es : List (UInt64 × RecId)} {link : Ptr}
    (h : LeafNode o n es link) (hSame : SameBody n n') : LeafNode o n' es link := by
  rw [hSame]
  exact ⟨h.isLeaf, h.numKeys, h.keys, h.pointers, h.keysLength, h.pointersLength⟩

theorem pointerIndex_eq {o : TreeOrder} {n : Node} {c x : NodeId} {prs : List (UInt64 × NodeId)}
    {U V : List NodeId} (h : InnerNode o n c prs) (hChildren : c :: prs.map Prod.snd = U ++ x :: V)
    (hx : x ∉ U) : pointerIndex n x = some U.length := by
  obtain ⟨K, hPointers⟩ := h.pointers
  have hSplit : n.pointers = U.map Ptr.node ++ .node x :: (V.map Ptr.node ++ K) := by
    rw [hPointers, hChildren]
    simp
  have hLength := congrArg List.length hChildren
  simp only [List.length_cons, List.length_map, List.length_append] at hLength
  have hScan : scan (fun i => n.pointers[i]?.map fun p => decide (p ≠ .node x)) 0 (n.numKeys + 1) =
      some (U.map Ptr.node).length := by
    refine scan_list hSplit (fun p hp => ?_) (Or.inr ⟨?_, _, _, rfl, by simp⟩)
    · obtain ⟨y, hy, rfl⟩ := List.mem_map.mp hp
      exact decide_eq_true fun hEq => hx (Ptr.node.inj hEq ▸ hy)
    · rw [List.length_map, h.numKeys]
      omega
  rwa [List.length_map] at hScan

end Nodes

section Adoption

def adoptAll (h : Heap) (ys : List NodeId) (x : NodeId) : Heap :=
  ys.foldl (fun h y => h.setParent y (some x)) h

theorem forUp_adopt {n : Node} {A K : List Ptr} (ys : List NodeId) (x : NodeId)
    (hPointers : n.pointers = A ++ (ys.map Ptr.node ++ K)) (h : Heap) :
    forUp (fun i h => (n.pointers[i]?.bind Ptr.asNode).map fun child => h.setParent child (some x))
      A.length ys.length h = some (adoptAll h ys x) := by
  induction ys generalizing A h with
  | nil => rfl
  | cons y ys ih =>
    have hCell : n.pointers[A.length]? = some (.node y) := getElem?_eq hPointers rfl
    have hRest := ih (A := A ++ [.node y]) (by rw [hPointers]; simp) (h.setParent y (some x))
    rw [List.length_append, List.length_singleton] at hRest
    simp only [List.length_cons, forUp, hCell, Option.bind_some, Ptr.asNode, Option.map_some]
    exact hRest

theorem adopt_eq {o : TreeOrder} {n : Node} {c : NodeId} {prs : List (UInt64 × NodeId)}
    (hNode : InnerNode o n c prs) (h : Heap) (x : NodeId) :
    adopt h n (n.numKeys + 1) x = some (adoptAll h (c :: prs.map Prod.snd) x) := by
  obtain ⟨K, hPointers⟩ := hNode.pointers
  have hLoop := forUp_adopt (c :: prs.map Prod.snd) x (A := []) hPointers h
  rwa [List.length_cons, List.length_map, ← hNode.numKeys] at hLoop

theorem adoptAll_nodes (ys : List NodeId) (x : NodeId) (h : Heap) (y : NodeId) :
    (adoptAll h ys x).nodes y =
      if y ∈ ys then { h.nodes y with parent := some x } else h.nodes y := by
  induction ys generalizing h with
  | nil => rw [if_neg List.not_mem_nil]; rfl
  | cons z ys ih =>
    have hStep : (adoptAll h (z :: ys) x).nodes y = (adoptAll (h.setParent z (some x)) ys x).nodes y :=
      rfl
    rw [hStep, ih]
    rcases eq_or_ne y z with hyz | hyz
    · subst hyz
      simp [Heap.setParent]
    · simp [Heap.setParent, hyz]

theorem adoptAll_of_notMem {ys : List NodeId} {y : NodeId} (hy : y ∉ ys) (h : Heap) (x : NodeId) :
    (adoptAll h ys x).nodes y = h.nodes y := by
  rw [adoptAll_nodes, if_neg hy]

theorem adoptAll_parent {ys : List NodeId} {y : NodeId} (hy : y ∈ ys) (h : Heap) (x : NodeId) :
    ((adoptAll h ys x).nodes y).parent = some x := by
  rw [adoptAll_nodes, if_pos hy]

theorem adoptAll_sameBody (ys : List NodeId) (h : Heap) (x y : NodeId) :
    SameBody (h.nodes y) ((adoptAll h ys x).nodes y) := by
  rw [adoptAll_nodes]
  split
  · exact sameBody_parent _ _
  · exact .refl _

theorem adoptAll_records (ys : List NodeId) (x : NodeId) (h : Heap) :
    SameRecords h (adoptAll h ys x) := by
  induction ys generalizing h with
  | nil => exact .refl h
  | cons y ys ih => exact (sameRecords_set _ _ _).trans (ih _)

theorem NodePool.adoptAll {live : List NodeId} {ys : List NodeId} {h : Heap}
    (hPool : NodePool h live) (hys : ∀ y ∈ ys, y ∈ live) (x : NodeId) :
    NodePool (adoptAll h ys x) live := by
  induction ys generalizing h with
  | nil => exact hPool
  | cons y ys ih =>
    exact ih (hPool.set (hys y List.mem_cons_self) _) fun z hz => hys z (List.mem_cons_of_mem y hz)

end Adoption

section Levels

/-- At least `floor` entries, which the root may fall short of. -/
def Filled (floor : Nat) (root x : NodeId) (m : Nat) : Prop := floor ≤ m ∨ x = root ∧ 1 ≤ m

theorem Filled.mono {floor m m' : Nat} {root x : NodeId} (h : Filled floor root x m) (hm : m ≤ m') :
    Filled floor root x m' :=
  h.imp (fun hFloor => hFloor.trans hm) fun ⟨hx, hOne⟩ => ⟨hx, hOne.trans hm⟩

variable (o : TreeOrder) (h : Heap) (root : NodeId)

/-- The expansion of an internal node with at least `floor` keys, or of the root. -/
inductive Inner : Tok → List Tok → Prop
  | sep (k : UInt64) : Inner (.sep k) [.sep k]
  | node {x c : NodeId} {prs : List (UInt64 × NodeId)} :
      InnerNode o (h.nodes x) c prs →
      Filled (cut o.order - 1) root x prs.length →
      (∀ y ∈ c :: prs.map Prod.snd, (h.nodes y).parent = some x) →
      Inner (.node x) (weave c prs)

/-- The row at a depth, over the nodes of the rows above it. -/
inductive Upper : Nat → List NodeId → List Tok → Prop
  | top : (h.nodes root).parent = none → Upper 0 [] [.node root]
  | down {d : Nat} {above : List NodeId} {row row' : List Tok} :
      Upper d above row → Expands (Inner o h root) row row' →
      Upper (d + 1) (above ++ ids row) row'

end Levels

section LevelRules

variable {o : TreeOrder} {h h' : Heap} {root root' : NodeId}

theorem Inner.node_inv {x : NodeId} {w : List Tok} (hx : Inner o h root (.node x) w) :
    ∃ c prs, w = weave c prs ∧ InnerNode o (h.nodes x) c prs ∧
      Filled (cut o.order - 1) root x prs.length ∧
      ∀ y ∈ c :: prs.map Prod.snd, (h.nodes y).parent = some x := by
  cases hx with
  | node hNode hMin hParent => exact ⟨_, _, rfl, hNode, hMin, hParent⟩

theorem Inner.congr {a : Tok} {w : List Tok} (hw : Inner o h root a w)
    (hBody : ∀ x, a = .node x → SameBody (h.nodes x) (h'.nodes x))
    (hRoot : ∀ x, a = .node x → x = root → x = root')
    (hParent : ∀ y ∈ ids w, (h'.nodes y).parent = (h.nodes y).parent) : Inner o h' root' a w := by
  cases hw with
  | sep k => exact .sep k
  | @node x c prs hNode hMin hKids =>
    refine .node (hNode.sameBody (hBody x rfl)) (hMin.imp_right fun ⟨hx, hOne⟩ => ⟨hRoot x rfl hx, hOne⟩)
      fun y hy => ?_
    rw [hParent y (by rwa [ids_weave]), hKids y hy]

theorem expands_congr {row row' : List Tok} (hRow : Expands (Inner o h root) row row')
    (hBody : ∀ x ∈ ids row, SameBody (h.nodes x) (h'.nodes x))
    (hRoot : root ∈ ids row → root = root')
    (hParent : ∀ y ∈ ids row', (h'.nodes y).parent = (h.nodes y).parent) :
    Expands (Inner o h' root') row row' := by
  refine hRow.mono fun a ha w hw hInner => hInner.congr ?_ ?_ ?_
  · rintro x rfl
    exact hBody x (mem_ids.mpr ha)
  · rintro x rfl rfl
    exact hRoot (mem_ids.mpr ha)
  · exact fun y hy => hParent y (mem_ids.mpr (hw _ (mem_ids.mp hy)))

theorem Upper.root_cases {d : Nat} {above : List NodeId} {row : List Tok}
    (hUp : Upper o h root d above row) :
    (d = 0 ∧ above = [] ∧ row = [.node root]) ∨ (0 < d ∧ root ∈ above) := by
  induction hUp with
  | top _ => exact Or.inl ⟨rfl, rfl, rfl⟩
  | down _ _ ih =>
    refine Or.inr ⟨Nat.succ_pos _, ?_⟩
    obtain ⟨_, _, rfl⟩ | ⟨_, hMem⟩ := ih
    · exact List.mem_append_right _ List.mem_cons_self
    · exact List.mem_append_left _ hMem

theorem Upper.congr {d : Nat} {above : List NodeId} {row : List Tok}
    (hUp : Upper o h root d above row) (hAbove : ∀ x ∈ above, h'.nodes x = h.nodes x)
    (hParent : ∀ x ∈ ids row, (h'.nodes x).parent = (h.nodes x).parent) :
    Upper o h' root d above row := by
  induction hUp with
  | top hTop => exact .top ((hParent root List.mem_cons_self).trans hTop)
  | down _ hRow ih =>
    refine .down (ih (fun x hx => hAbove x (List.mem_append_left _ hx)) fun x hx => ?_) ?_
    · rw [hAbove x (List.mem_append_right _ hx)]
    · exact expands_congr hRow (fun x hx => .of_eq (hAbove x (List.mem_append_right _ hx)))
        (fun _ => rfl) hParent

theorem Upper.depth_le {d : Nat} {above : List NodeId} {row : List Tok}
    (hUp : Upper o h root d above row) : d ≤ above.length ∧ 0 < (ids row).length := by
  induction hUp with
  | top _ => exact ⟨le_refl 0, Nat.succ_pos 0⟩
  | @down d above row row' _ hRow ih =>
    obtain ⟨hDepth, hSome⟩ := ih
    refine ⟨by rw [List.length_append]; omega, ?_⟩
    obtain ⟨x, hx⟩ := List.exists_mem_of_length_pos hSome
    obtain ⟨A, B, rfl⟩ := List.append_of_mem (mem_ids.mp hx)
    obtain ⟨PA, w, PB, rfl, _, hInner, _⟩ := hRow.mid_inv
    obtain ⟨c, prs, rfl, _⟩ := hInner.node_inv
    simp only [ids_append, ids_weave, List.length_append, List.length_cons]
    omega

theorem seps_sublist {row row' : List Tok} (hRow : Expands (Inner o h root) row row') :
    (seps row).Sublist (seps row') := by
  induction hRow with
  | nil => exact .slnil
  | @cons a w l r hFirst _ ih =>
    rw [seps_append]
    cases hFirst with
    | sep k => exact ih.cons_cons k
    | node _ _ _ => exact ih.trans (List.sublist_append_right _ _)

end LevelRules

end Trident.Btree
