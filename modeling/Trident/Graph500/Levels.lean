import Trident.Graph500.CreateGraph
import Trident.Graph500.Search

/-! # Trees by levels

What the three searches have in common: a level of the tree from the one before.
-/

namespace Trident.Graph500

open BreadthFirst

section Built

variable {g : Csr} {edges : List PackedEdge}

structure Csr.BuiltFrom (g : Csr) (edges : List PackedEdge) : Prop where
  nv : g.nv = vertexCount (scanMax edges)
  represents : g.Represents edges

theorem createGraph_builtFrom (edges : List PackedEdge) : (createGraph edges).BuiltFrom edges :=
  ⟨createGraph_nv edges, createGraph_represents edges⟩

variable (h : g.BuiltFrom edges)

theorem edgeGraph_adj {u v : Nat} : (edgeGraph edges).Adj u v ↔
    u ≠ v ∧ ∃ e ∈ edges, (e.i = u ∧ e.j = v) ∨ (e.i = v ∧ e.j = u) := Iff.rfl

theorem adj_lt {u v : Nat} (hAdj : (edgeGraph edges).Adj u v) :
    u < vertexCount (scanMax edges) ∧ v < vertexCount (scanMax edges) := by
  obtain ⟨_, e, he, hEnds⟩ := edgeGraph_adj.mp hAdj
  have hLt := lt_vertexCount he
  omega

theorem reachable_lt {src v : Nat} (hSrc : src < vertexCount (scanMax edges))
    (hv : (edgeGraph edges).Reachable src v) : v < vertexCount (scanMax edges) := by
  obtain ⟨p⟩ := hv
  induction p with
  | nil => exact hSrc
  | cons hAdj _ ih => exact ih (adj_lt hAdj).2

theorem Csr.BuiltFrom.mem_neighbours (h : g.BuiltFrom edges) {i : Nat} (hi : i < g.nv) {j : Nat} :
    j ∈ g.neighbours i ↔ (edgeGraph edges).Adj i j := by
  rw [Csr.neighbours, List.mem_map, edgeGraph_adj]
  constructor
  · rintro ⟨v, hv, rfl⟩
    obtain ⟨j, rfl, hNe, hEdge⟩ := (h.represents.neighbours i hi v).mp hv
    exact ⟨hNe.symm, hEdge⟩
  · rintro ⟨hNe, hEdge⟩
    exact ⟨j, (h.represents.neighbours i hi j).mpr ⟨j, rfl, hNe.symm, hEdge⟩, rfl⟩

theorem Csr.BuiltFrom.neighbours_lt (h : g.BuiltFrom edges) :
    ∀ v < g.nv, ∀ j ∈ g.neighbours v, j < g.nv := fun v hv j hj => by
  have hLt := (adj_lt ((h.mem_neighbours hv).mp hj)).2
  rwa [← h.nv] at hLt

end Built

section Parents

variable {tree : Nat → Int} {v u : Nat}

def TreeOk (tree : Nat → Int) : Prop := ∀ v, tree v = -1 ∨ ∃ u : Nat, tree v = u

theorem parentOf_eq_none : parentOf tree v = none ↔ tree v = -1 := by
  rw [parentOf]
  split <;> simp_all

theorem isSome_parentOf : (parentOf tree v).isSome ↔ tree v ≠ -1 := by
  rw [← not_iff_not, not_not, Option.not_isSome_iff_eq_none, parentOf_eq_none]

theorem TreeOk.parentOf_eq_some (h : TreeOk tree) : parentOf tree v = some u ↔ tree v = u := by
  rw [parentOf]
  rcases h v with hNone | ⟨w, hw⟩
  · rw [if_pos hNone, hNone]
    constructor
    · nofun
    · intro hu
      omega
  · rw [if_neg (by omega), hw, Int.toNat_natCast, Option.some_inj]
    exact Int.natCast_inj.symm

end Parents

section Levels

variable {edges : List PackedEdge} {src d : Nat} {tree tree' : Nat → Int}

def OnLevel (edges : List PackedEdge) (src d v : Nat) : Prop :=
  (edgeGraph edges).Reachable src v ∧ (edgeGraph edges).dist src v = d

def Within (edges : List PackedEdge) (src d v : Nat) : Prop :=
  (edgeGraph edges).Reachable src v ∧ (edgeGraph edges).dist src v ≤ d

theorem OnLevel.within {v : Nat} (h : OnLevel edges src d v) : Within edges src d v := ⟨h.1, h.2.le⟩

theorem Within.succ {v : Nat} (h : Within edges src d v) : Within edges src (d + 1) v :=
  ⟨h.1, Nat.le_succ_of_le h.2⟩

theorem onLevel_succ_iff {v : Nat} :
    OnLevel edges src (d + 1) v ↔ Within edges src (d + 1) v ∧ ¬ Within edges src d v := by
  rw [OnLevel, Within, Within, and_assoc]
  refine and_congr_right fun hv => ⟨fun hDist => ⟨hDist.le, fun hEarly => ?_⟩, fun ⟨hLe, hNot⟩ => ?_⟩
  · have hLe := hEarly.2
    omega
  · have hLater : ¬ (edgeGraph edges).dist src v ≤ d := fun hEarly => hNot ⟨hv, hEarly⟩
    omega

theorem Within.neighbour {u v : Nat} (hu : Within edges src d u) (hAdj : (edgeGraph edges).Adj u v) :
    Within edges src (d + 1) v := by
  obtain ⟨hv, hLe⟩ := dist_le_succ hu.1 hAdj
  exact ⟨hv, hLe.trans (Nat.succ_le_succ hu.2)⟩

theorem Within.onLevel {u v : Nat} (hu : Within edges src d u) (hAdj : (edgeGraph edges).Adj u v)
    (hv : ¬ Within edges src d v) : OnLevel edges src d u := by
  obtain ⟨hReach, hLe⟩ := dist_le_succ hu.1 hAdj
  have hLater : ¬ (edgeGraph edges).dist src v ≤ d := fun hEarly => hv ⟨hReach, hEarly⟩
  have hDist := hu.2
  exact ⟨hu.1, by omega⟩

structure TreeTo (edges : List PackedEdge) (src d : Nat) (tree : Nat → Int) : Prop where
  ok : TreeOk tree
  searched : SearchedTo (edgeGraph edges) src d (parentOf tree)

theorem treeTo_zero (edges : List PackedEdge) (src : Nat) :
    TreeTo edges src 0 (Function.update (fun _ => -1) src src) := by
  have hOk : TreeOk (Function.update (fun _ => -1) src src) := by
    intro v
    obtain rfl | hNe := eq_or_ne v src
    · exact Or.inr ⟨v, Function.update_self ..⟩
    · exact Or.inl (Function.update_of_ne hNe ..)
  refine ⟨hOk, searchedTo_zero (hOk.parentOf_eq_some.mpr (Function.update_self ..)) fun v hNe => ?_⟩
  exact parentOf_eq_none.mpr (Function.update_of_ne hNe ..)

theorem TreeTo.visited (h : TreeTo edges src d tree) (v : Nat) :
    tree v ≠ -1 ↔ Within edges src d v := by
  rw [← isSome_parentOf]
  exact h.searched.visited v

theorem TreeTo.unvisited (h : TreeTo edges src d tree) (v : Nat) :
    tree v = -1 ↔ ¬ Within edges src d v := by
  rw [← h.visited v, not_not]

/-- The tree has got the parents of the next level, and no others. -/
structure Advances (edges : List PackedEdge) (src d : Nat) (tree tree' : Nat → Int) : Prop where
  cell : ∀ v, tree' v = tree v ∨ (tree v = -1 ∧ ∃ u : Nat, tree' v = u ∧ (edgeGraph edges).Adj u v ∧
    OnLevel edges src d u)
  all : ∀ u v, OnLevel edges src d u → (edgeGraph edges).Adj u v → tree' v ≠ -1

theorem TreeTo.next (h : TreeTo edges src d tree) (hAdvances : Advances edges src d tree tree') :
    TreeTo edges src (d + 1) tree' := by
  have hOk : TreeOk tree' := fun v => by
    rcases hAdvances.cell v with hSame | ⟨_, u, hu, _⟩
    · rw [hSame]
      exact h.ok v
    · exact Or.inr ⟨u, hu⟩
  refine ⟨hOk, h.searched.next ⟨fun v u hParent => ?_, fun v u hOld hNew => ?_, fun u v hu hDist hAdj => ?_⟩⟩
  · rw [h.ok.parentOf_eq_some] at hParent
    rcases hAdvances.cell v with hSame | ⟨hNone, _⟩
    · exact hOk.parentOf_eq_some.mpr (hSame.trans hParent)
    · omega
  · rw [parentOf_eq_none] at hOld
    rw [hOk.parentOf_eq_some] at hNew
    rcases hAdvances.cell v with hSame | ⟨_, w, hw, hFound⟩
    · omega
    · rwa [Int.natCast_inj.mp (hNew.symm.trans hw)]
  · exact isSome_parentOf.mpr (hAdvances.all u v ⟨hu, hDist⟩ hAdj)

theorem TreeTo.new_iff (h : TreeTo edges src d tree) (h' : TreeTo edges src (d + 1) tree') (v : Nat) :
    tree v = -1 ∧ tree' v ≠ -1 ↔ OnLevel edges src (d + 1) v := by
  rw [h.unvisited, h'.visited, onLevel_succ_iff, and_comm]

theorem TreeOk.isBfsTree (hOk : TreeOk tree)
    (h : ShortestPaths (edgeGraph edges) src (parentOf tree)) : IsBfsTree edges src tree := by
  refine ⟨hOk.parentOf_eq_some.mp h.root, fun v => ?_, fun v hNe hSome => ?_⟩
  · rw [← not_iff_not, not_not, ← h.visited v, isSome_parentOf]
  · obtain ⟨u, hu⟩ := (hOk v).resolve_left hSome
    exact ⟨u, hu, h.nearer v u hNe (hOk.parentOf_eq_some.mpr hu)⟩

theorem TreeTo.isBfsTree (h : TreeTo edges src d tree) (hEmpty : ∀ v, ¬ OnLevel edges src d v) :
    IsBfsTree edges src tree :=
  h.ok.isBfsTree (h.searched.shortestPaths fun v hv hDist => hEmpty v ⟨hv, hDist⟩)

end Levels

section Agreement

variable {edges : List PackedEdge} {src : Nat} {tree tree' : Nat → Int}

/-- Both trees visit the same vertices at the same levels. -/
def SameSearch (src : Nat) (tree tree' : Nat → Int) : Prop :=
  (∀ v, tree v = -1 ↔ tree' v = -1) ∧
    ∀ v n, AtLevel src (parentOf tree) v n ↔ AtLevel src (parentOf tree') v n

theorem IsBfsTree.shortestPaths (h : IsBfsTree edges src tree) :
    ShortestPaths (edgeGraph edges) src (parentOf tree) := by
  have hOk : TreeOk tree := fun v => by
    obtain rfl | hNe := eq_or_ne v src
    · exact Or.inr ⟨v, h.root⟩
    · rcases eq_or_ne (tree v) (-1) with hNone | hSome
      · exact Or.inl hNone
      · obtain ⟨u, hu, _⟩ := h.nearer v hNe hSome
        exact Or.inr ⟨u, hu⟩
  refine ⟨hOk.parentOf_eq_some.mpr h.root, fun v => ?_, fun v u hNe hParent => ?_⟩
  · rw [isSome_parentOf, ← not_iff_not, not_not]
    exact h.unreached v
  · rw [hOk.parentOf_eq_some] at hParent
    obtain ⟨w, hw, hNearer⟩ := h.nearer v hNe (by omega)
    rwa [Int.natCast_inj.mp (hParent.symm.trans hw)]

theorem IsBfsTree.sameSearch (h : IsBfsTree edges src tree) (h' : IsBfsTree edges src tree') :
    SameSearch src tree tree' :=
  ⟨fun v => (h.unreached v).trans (h'.unreached v).symm, (h.shortestPaths.agree h'.shortestPaths).2⟩

end Agreement

end Trident.Graph500
