import Mathlib.Algebra.BigOperators.Group.List.Basic
import Mathlib.Algebra.Group.End
import Mathlib.Logic.Equiv.Basic
import Mathlib.Order.Basic

/-! # Shuffles

Products of exchanges, each of an element with one that is not before it, from the first element on.
-/

namespace Trident.Shuffle

open Equiv

variable {ι : Type*} [LinearOrder ι]

/-- The place that each element is exchanged with. -/
abbrev Places (ι : Type*) [LinearOrder ι] := (k : ι) → {place : ι // k ≤ place}

def exchanges (places : Places ι) (l : List ι) : Perm ι := (l.map fun k => swap k (places k).val).prod

theorem exchanges_cons (places : Places ι) (k : ι) (l : List ι) :
    exchanges places (k :: l) = swap k (places k).val * exchanges places l := by
  rw [exchanges, exchanges, List.map_cons, List.prod_cons]

/-- The exchanges that follow leave an element alone. -/
theorem exchanges_of_lt (places : Places ι) {l : List ι} {i : ι} (h : ∀ k ∈ l, i < k) :
    exchanges places l i = i := by
  induction l with
  | nil => rfl
  | cons k l ih =>
    have hk : i < k := h k List.mem_cons_self
    have hPlace : i < (places k).val := hk.trans_le (places k).property
    rw [exchanges_cons, Perm.mul_apply, ih fun j hj => h j (List.mem_cons_of_mem k hj),
      swap_apply_of_ne_of_ne hk.ne hPlace.ne]

theorem exchanges_head (places : Places ι) {k : ι} {l : List ι} (h : ∀ j ∈ l, k < j) :
    exchanges places (k :: l) k = (places k).val := by
  rw [exchanges_cons, Perm.mul_apply, exchanges_of_lt places h, swap_apply_left]

theorem places_eq {first second : Places ι} {l : List ι} (hSorted : l.Pairwise (· < ·))
    (h : exchanges first l = exchanges second l) : ∀ k ∈ l, first k = second k := by
  induction l with
  | nil => exact fun k hk => absurd hk List.not_mem_nil
  | cons k l ih =>
    obtain ⟨hHead, hSorted⟩ := List.pairwise_cons.mp hSorted
    have hPlace : (first k).val = (second k).val := by
      rw [← exchanges_head first hHead, ← exchanges_head second hHead, h]
    rw [exchanges_cons, exchanges_cons, hPlace] at h
    have hRest := ih hSorted (mul_left_cancel h)
    intro j hj
    obtain rfl | hj := List.mem_cons.mp hj
    · exact Subtype.ext hPlace
    · exact hRest j hj

theorem exchanges_congr {first second : Places ι} {l : List ι} (h : ∀ k ∈ l, first k = second k) :
    exchanges first l = exchanges second l := by
  rw [exchanges, exchanges]
  apply congrArg List.prod
  apply List.map_congr_left
  intro k hk
  rw [h k hk]

/-- Every permutation that leaves the other elements alone is one of these products. -/
theorem exists_places {l : List ι} (hSorted : l.Pairwise (· < ·)) (σ : Perm ι)
    (hFixed : ∀ i, i ∉ l → σ i = i) : ∃ places : Places ι, exchanges places l = σ := by
  induction l generalizing σ with
  | nil =>
    refine ⟨fun k => ⟨k, le_rfl⟩, ?_⟩
    apply Equiv.ext
    exact fun i => (hFixed i List.not_mem_nil).symm
  | cons k l ih =>
    obtain ⟨hHead, hSorted⟩ := List.pairwise_cons.mp hSorted
    have hPlace : k ≤ σ k := by
      have hMem : σ k ∈ k :: l := by
        by_contra hOut
        have hSame : σ k = k := σ.injective (hFixed _ hOut)
        rw [hSame] at hOut
        exact hOut List.mem_cons_self
      obtain hSame | hLater := List.mem_cons.mp hMem
      · exact hSame.ge
      · exact (hHead _ hLater).le
    have hRest : ∀ i, i ∉ l → (swap k (σ k) * σ) i = i := by
      intro i hi
      rw [Perm.mul_apply]
      by_cases hk : i = k
      · rw [hk, swap_apply_right]
      · have hStays : σ i = i := hFixed i fun hMem => (List.mem_cons.mp hMem).elim hk hi
        have hOther : i ≠ σ k := fun h => hk (σ.injective (hStays.trans h))
        rw [hStays, swap_apply_of_ne_of_ne hk hOther]
    obtain ⟨places, hPlaces⟩ := ih hSorted (swap k (σ k) * σ) hRest
    refine ⟨Function.update places k ⟨σ k, hPlace⟩, ?_⟩
    have hSame : exchanges (Function.update places k ⟨σ k, hPlace⟩) l = exchanges places l :=
      exchanges_congr fun j hj => Function.update_of_ne (hHead j hj).ne' _ _
    rw [exchanges_cons, hSame, hPlaces, Function.update_self, ← mul_assoc, swap_mul_self, one_mul]

end Trident.Shuffle
