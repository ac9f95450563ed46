import Mathlib.Logic.Function.Basic
import Mathlib.Order.Lattice
import Mathlib.Order.WellFounded

/-! # Forests of parent pointers

A parent is never above its child, and a root is its own parent. A root can be hung under
a vertex below it; a vertex can be moved to any vertex of its tree that is below it.
-/

namespace Trident.Forest

variable {V : Type*} [LinearOrder V]

section Roots

def root [WellFoundedLT V] (parent : V → V) (x : V) : V :=
  if parent x < x then root parent (parent x) else x
termination_by wellFounded_lt.wrap x
decreasing_by assumption

def Descends (parent : V → V) : Prop := ∀ x, parent x ≤ x

variable [WellFoundedLT V] {parent : V → V}

theorem root_le (parent : V → V) (x : V) : root parent x ≤ x := by
  induction x using WellFoundedLT.induction with
  | ind x ih =>
    rw [root]
    split
    · rename_i hLess
      exact (ih _ hLess).trans hLess.le
    · exact le_rfl

theorem root_of_fixed {x : V} (hx : parent x = x) : root parent x = x := by
  rw [root, if_neg hx.not_lt]

theorem root_parent (h : Descends parent) (x : V) : root parent (parent x) = root parent x := by
  rcases (h x).lt_or_eq with hLess | hFixed
  · rw [root.eq_def parent x, if_pos hLess]
  · rw [hFixed]

theorem parent_root (h : Descends parent) (x : V) : parent (root parent x) = root parent x := by
  induction x using WellFoundedLT.induction with
  | ind x ih =>
    rcases (h x).lt_or_eq with hLess | hFixed
    · rw [← root_parent h x]
      exact ih _ hLess
    · rw [root_of_fixed hFixed, hFixed]

theorem root_eq_self (h : Descends parent) {x : V} : root parent x = x ↔ parent x = x := by
  constructor
  · intro hRoot
    have hFixed := parent_root h x
    rwa [hRoot] at hFixed
  · exact root_of_fixed

def Same (parent : V → V) (x y : V) : Prop := root parent x = root parent y

theorem same_parent (h : Descends parent) (x : V) : Same parent (parent x) x := root_parent h x

theorem Same.symm {x y : V} (h : Same parent x y) : Same parent y x := Eq.symm h

theorem Same.trans {x y z : V} (h : Same parent x y) (h' : Same parent y z) : Same parent x z :=
  Eq.trans h h'

/-- What relates every vertex to its parent relates all vertices of a tree. -/
theorem Same.induce (h : Descends parent) {r : V → V → Prop} (hr : Equivalence r)
    (hParent : ∀ x, r x (parent x)) {x y : V} (hSame : Same parent x y) : r x y := by
  have hRoot : ∀ x, r x (root parent x) := by
    intro x
    induction x using WellFoundedLT.induction with
    | ind x ih =>
      rcases (h x).lt_or_eq with hLess | hFixed
      · rw [← root_parent h x]
        exact hr.trans (hParent x) (ih _ hLess)
      · rw [root_of_fixed hFixed]
        exact hr.refl x
  have hy := hr.symm (hRoot y)
  rw [← hSame] at hy
  exact hr.trans (hRoot x) hy

end Roots

section Updates

variable {parent : V → V} {x y : V}

theorem descends_update (h : Descends parent) (hLess : y ≤ x) :
    Descends (Function.update parent x y) := by
  intro z
  obtain rfl | hNe := eq_or_ne z x
  · rwa [Function.update_self]
  · rw [Function.update_of_ne hNe]
    exact h z

variable [WellFoundedLT V]

/-- A root that is hung under `y` takes its tree along. -/
theorem root_hang (h : Descends parent) (hx : parent x = x) (hLess : y < x) (z : V) :
    root (Function.update parent x y) z =
      if root parent z = x then root parent y else root parent z := by
  have hDescends := descends_update h hLess.le
  induction z using WellFoundedLT.induction with
  | ind z ih =>
    rw [← root_parent hDescends z]
    obtain rfl | hNe := eq_or_ne z x
    · have hy : root parent y ≠ z := ((root_le parent y).trans_lt hLess).ne
      rw [Function.update_self, ih y hLess, if_neg hy, if_pos (root_of_fixed hx)]
    · rw [Function.update_of_ne hNe]
      rcases (h z).lt_or_eq with hDown | hFixed
      · rw [ih _ hDown, root_parent h z]
      · have hStill : Function.update parent x y z = z := by rwa [Function.update_of_ne hNe]
        rw [hFixed, root_of_fixed hFixed, if_neg hNe, root_of_fixed hStill]

/-- A vertex that is moved within its tree, to one below it, changes no root. -/
theorem root_move (h : Descends parent) (hLess : y < x) (hSame : Same parent y x) :
    root (Function.update parent x y) = root parent := by
  have hDescends := descends_update h hLess.le
  funext z
  induction z using WellFoundedLT.induction with
  | ind z ih =>
    rw [← root_parent hDescends z]
    obtain rfl | hNe := eq_or_ne z x
    · rw [Function.update_self, ih y hLess]
      exact hSame
    · rw [Function.update_of_ne hNe]
      rcases (h z).lt_or_eq with hDown | hFixed
      · rw [ih _ hDown, root_parent h z]
      · have hStill : Function.update parent x y z = z := by rwa [Function.update_of_ne hNe]
        rw [hFixed, root_of_fixed hFixed, root_of_fixed hStill]

/-- Pointers only go down, and trees only grow together. -/
structure Later (parent parent' : V → V) : Prop where
  le : ∀ x, parent' x ≤ parent x
  same : ∀ x y, Same parent x y → Same parent' x y

theorem Later.refl (parent : V → V) : Later parent parent := ⟨fun _ => le_rfl, fun _ _ => id⟩

theorem later_hang (h : Descends parent) (hx : parent x = x) (hLess : y < x) :
    Later parent (Function.update parent x y) := by
  constructor
  · intro z
    obtain rfl | hNe := eq_or_ne z x
    · rw [Function.update_self, hx]
      exact hLess.le
    · rw [Function.update_of_ne hNe]
  · intro z w hSame
    rw [Same, root_hang h hx hLess, root_hang h hx hLess, hSame]

theorem same_hang (h : Descends parent) (hLess : y < x) :
    Same (Function.update parent x y) x y := by
  have hy := root_parent (descends_update h hLess.le) x
  rw [Function.update_self] at hy
  exact hy.symm

end Updates

end Trident.Forest
