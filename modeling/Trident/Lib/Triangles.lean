import Mathlib.Algebra.Order.BigOperators.Group.Finset
import Mathlib.Combinatorics.SimpleGraph.Clique
import Mathlib.Data.Set.Card
import Mathlib.Tactic.Order

/-! # Triangles

The triangles of a graph on ordered vertices, counted once each, as the triples that descend, and six
times each, as the triples in any order.
-/

namespace Trident.Triangles

open Finset

variable {V : Type*} [LinearOrder V] (G : SimpleGraph V) [DecidableRel G.Adj]

/-- Triangles `u > v > w` with vertices in `s`. -/
def descending (s : Finset V) : Finset (Σ _ : V, Σ _ : V, V) :=
  s.sigma fun u => {v ∈ s | v < u ∧ G.Adj u v}.sigma fun v => {w ∈ s | w < v ∧ G.Adj u w ∧ G.Adj v w}

variable {G} {s : Finset V}

theorem mem_descending {u v w : V} :
    ⟨u, v, w⟩ ∈ descending G s ↔ u ∈ s ∧ (v ∈ s ∧ v < u ∧ G.Adj u v) ∧
      w ∈ s ∧ w < v ∧ G.Adj u w ∧ G.Adj v w := by
  simp only [descending, mem_sigma, mem_filter]

theorem card_descending :
    #(descending G s) =
      ∑ u ∈ s, ∑ v ∈ s with v < u ∧ G.Adj u v, #{w ∈ s | w < v ∧ G.Adj u w ∧ G.Adj v w} := by
  simp only [descending, card_sigma]

def vertices (t : Σ _ : V, Σ _ : V, V) : Finset V := {t.1, t.2.1, t.2.2}

theorem le_of_vertices {u v w u' v' w' : V} (hv : v < u) (hw : w < v) (hv' : v' < u') (hw' : w' < v')
    (hSame : ({u, v, w} : Finset V) = {u', v', w'}) :
    u ≤ u' ∧ (u = u' → v ≤ v') ∧ (u = u' → v = v' → w ≤ w') := by
  have hMem (x : V) : (x = u ∨ x = v ∨ x = w) ↔ (x = u' ∨ x = v' ∨ x = w') := by
    have hx := Finset.ext_iff.mp hSame x
    simpa only [mem_insert, mem_singleton] using hx
  have hu := (hMem u).mp (Or.inl rfl)
  have hMid := (hMem v).mp (Or.inr (Or.inl rfl))
  have hLow := (hMem w).mp (Or.inr (Or.inr rfl))
  refine ⟨?_, ?_, ?_⟩
  · obtain h | h | h := hu <;> order
  · intro hTop
    obtain h | h | h := hMid <;> order
  · intro hTop hNext
    obtain h | h | h := hLow <;> order

theorem vertices_injOn : Set.InjOn vertices (descending G s : Set (Σ _ : V, Σ _ : V, V)) := by
  rintro ⟨u, v, w⟩ h ⟨u', v', w'⟩ h' hSame
  obtain ⟨_, ⟨_, hv, _⟩, _, hw, _⟩ := mem_descending.mp (mem_coe.mp h)
  obtain ⟨_, ⟨_, hv', _⟩, _, hw', _⟩ := mem_descending.mp (mem_coe.mp h')
  have hLe := le_of_vertices hv hw hv' hw' hSame
  have hGe := le_of_vertices hv' hw' hv hw hSame.symm
  obtain rfl : u = u' := le_antisymm hLe.1 hGe.1
  obtain rfl : v = v' := le_antisymm (hLe.2.1 rfl) (hGe.2.1 rfl)
  obtain rfl : w = w' := le_antisymm (hLe.2.2 rfl rfl) (hGe.2.2 rfl rfl)
  rfl

/-- Three mutually adjacent vertices, the greatest first. -/
theorem exists_descending (hs : ∀ u v, G.Adj u v → u ∈ s) {a b c : V} (hab : G.Adj a b)
    (hac : G.Adj a c) (hbc : G.Adj b c) : ∃ t ∈ descending G s, vertices t = {a, b, c} := by
  have ha := hs a b hab
  have hb := hs b c hbc
  have hc := hs c b hbc.symm
  have hTriple (u v w : V) (hu : u ∈ s) (hv : v ∈ s) (hw : w ∈ s) (hvu : v < u) (hwv : w < v)
      (huv : G.Adj u v) (huw : G.Adj u w) (hvw : G.Adj v w)
      (hSame : ({u, v, w} : Finset V) = {a, b, c}) : ∃ t ∈ descending G s, vertices t = {a, b, c} :=
    ⟨⟨u, v, w⟩, mem_descending.mpr ⟨hu, ⟨hv, hvu, huv⟩, hw, hwv, huw, hvw⟩, hSame⟩
  obtain hLess | hLess := lt_or_gt_of_ne hab.ne <;> obtain hLess' | hLess' := lt_or_gt_of_ne hac.ne <;>
    obtain hLess'' | hLess'' := lt_or_gt_of_ne hbc.ne
  · exact hTriple c b a hc hb ha hLess'' hLess hbc.symm hac.symm hab.symm (by grind)
  · exact hTriple b c a hb hc ha hLess'' hLess' hbc hab.symm hac.symm (by grind)
  · order
  · exact hTriple b a c hb ha hc hLess hLess' hab.symm hbc hac (by grind)
  · exact hTriple c a b hc ha hb hLess' hLess hac.symm hbc.symm hab (by grind)
  · order
  · exact hTriple a c b ha hc hb hLess' hLess'' hac hab hbc.symm (by grind)
  · exact hTriple a b c ha hb hc hLess hLess'' hab hac hbc (by grind)

/-- A descending triple for each triangle. -/
theorem ncard_triangles (hs : ∀ u v, G.Adj u v → u ∈ s) :
    {t : Finset V | G.IsNClique 3 t}.ncard = #(descending G s) := by
  have hImage : {t : Finset V | G.IsNClique 3 t} = ((descending G s).image vertices : Set (Finset V)) := by
    ext t
    rw [Set.mem_ofPred_eq, mem_coe, mem_image, SimpleGraph.is3Clique_iff]
    constructor
    · rintro ⟨a, b, c, hab, hac, hbc, rfl⟩
      exact exists_descending hs hab hac hbc
    · rintro ⟨⟨u, v, w⟩, h, rfl⟩
      obtain ⟨_, ⟨_, _, huv⟩, _, _, huw, hvw⟩ := mem_descending.mp h
      exact ⟨u, v, w, huv, huw, hvw, rfl⟩
  rw [hImage, Set.ncard_coe_finset, card_image_of_injOn vertices_injOn]

section Sixfold

variable (G)

def triangle (u v w : V) : Nat := if G.Adj u v ∧ G.Adj u w ∧ G.Adj v w then 1 else 0

def falling (u v w : V) : Nat := if v < u ∧ w < v then triangle G u v w else 0

/-- Three different vertices fall in one of six orders. -/
theorem triangle_eq (u v w : V) :
    triangle G u v w = falling G u v w + falling G u w v + falling G v u w + falling G v w u +
      falling G w u v + falling G w v u := by
  by_cases h : G.Adj u v ∧ G.Adj u w ∧ G.Adj v w
  · obtain ⟨huv, huw, hvw⟩ := h
    simp only [falling, triangle, huv, huw, hvw, huv.symm, huw.symm, hvw.symm, and_self, if_true]
    obtain hLess | hLess := lt_or_gt_of_ne huv.ne <;>
      obtain hLess' | hLess' := lt_or_gt_of_ne huw.ne <;>
      obtain hLess'' | hLess'' := lt_or_gt_of_ne hvw.ne <;>
      simp [hLess, hLess', hLess'', hLess.not_gt, hLess'.not_gt, hLess''.not_gt] <;> order
  · have hZero : ∀ a b c : V, (G.Adj a b ∧ G.Adj a c ∧ G.Adj b c ↔ G.Adj u v ∧ G.Adj u w ∧ G.Adj v w) →
        falling G a b c = 0 := by
      intro a b c hSame
      rw [falling, triangle, if_neg (hSame.not.mpr h), ite_self]
    rw [triangle, if_neg h, hZero u v w Iff.rfl, hZero u w v, hZero v u w, hZero v w u, hZero w u v, hZero w v u] <;>
      grind [SimpleGraph.adj_comm]

theorem sum_triangle (s : Finset V) :
    ∑ u ∈ s, ∑ v ∈ s, ∑ w ∈ s, triangle G u v w = 6 * ∑ u ∈ s, ∑ v ∈ s, ∑ w ∈ s, falling G u v w := by
  have hInner (f : V → V → V → Nat) :
      ∑ u ∈ s, ∑ v ∈ s, ∑ w ∈ s, f u w v = ∑ u ∈ s, ∑ v ∈ s, ∑ w ∈ s, f u v w :=
    sum_congr rfl fun u _ => sum_comm
  have hOuter (f : V → V → V → Nat) :
      ∑ u ∈ s, ∑ v ∈ s, ∑ w ∈ s, f v u w = ∑ u ∈ s, ∑ v ∈ s, ∑ w ∈ s, f u v w := sum_comm
  simp only [triangle_eq, sum_add_distrib]
  rw [hInner (falling G), hOuter (falling G), hOuter fun u v w => falling G u w v, hInner (falling G),
    hInner fun u v w => falling G v u w, hOuter (falling G), hInner fun u v w => falling G v w u,
    hOuter fun u v w => falling G u w v, hInner (falling G)]
  omega

/-- The common neighbors of adjacent vertices count every triangle six times. -/
theorem sum_common (s : Finset V) :
    ∑ u ∈ s, ∑ v ∈ s with G.Adj u v, #{w ∈ s | G.Adj u w ∧ G.Adj v w} = 6 * #(descending G s) := by
  have hAny : ∑ u ∈ s, ∑ v ∈ s with G.Adj u v, #{w ∈ s | G.Adj u w ∧ G.Adj v w} =
      ∑ u ∈ s, ∑ v ∈ s, ∑ w ∈ s, triangle G u v w := by
    refine sum_congr rfl fun u _ => ?_
    rw [sum_filter]
    refine sum_congr rfl fun v _ => ?_
    rw [card_filter]
    split
    · rename_i hAdj
      refine sum_congr rfl fun w _ => ?_
      simp only [triangle, hAdj, true_and]
    · rename_i hNot
      symm
      apply sum_eq_zero
      intro w _
      exact if_neg fun h => hNot h.1
  have hFall : #(descending G s) = ∑ u ∈ s, ∑ v ∈ s, ∑ w ∈ s, falling G u v w := by
    rw [card_descending]
    refine sum_congr rfl fun u _ => ?_
    rw [sum_filter]
    refine sum_congr rfl fun v _ => ?_
    rw [card_filter]
    split
    · rename_i hBoth
      refine sum_congr rfl fun w _ => ?_
      simp only [falling, triangle, hBoth.1, hBoth.2, true_and, ← ite_and]
    · rename_i hNot
      symm
      apply sum_eq_zero
      intro w _
      simp only [falling, triangle, ← ite_and]
      apply if_neg
      rintro ⟨⟨hLess, _⟩, hAdj, _⟩
      exact hNot ⟨hLess, hAdj⟩
  rw [hAny, hFall, sum_triangle]

end Sixfold

end Trident.Triangles
