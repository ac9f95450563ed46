import Mathlib.Logic.Basic

/-! # Bisection

The search for the place where a predicate on indices becomes true.
-/

namespace Trident.Bisect

/-- Halves the range until the two limits are neighbours; returns the lower one. -/
def bisect (above : Nat → Bool) (lowerLimit upperLimit : Nat) : Nat :=
  if 1 < upperLimit - lowerLimit then
    let examinationPoint := lowerLimit + (upperLimit - lowerLimit) / 2
    if above examinationPoint then bisect above lowerLimit examinationPoint
    else bisect above examinationPoint upperLimit
  else lowerLimit
termination_by upperLimit - lowerLimit

/-- The predicate becomes true between `k` and `k + 1`, as far as the limits allow. -/
structure Brackets (above : Nat → Bool) (low high k : Nat) : Prop where
  low_le : low ≤ k
  lt_high : k < high
  left : k = low ∨ above k = false
  right : k + 1 = high ∨ above (k + 1) = true

section Rules

variable {above : Nat → Bool} {low high k : Nat}

theorem bisect_brackets (h : low < high) : Brackets above low high (bisect above low high) := by
  fun_induction bisect above low high with
  | case1 low high hFar examinationPoint hAbove ih =>
    have hMiddle : low < examinationPoint ∧ examinationPoint < high := by omega
    obtain ⟨hLow, hHigh, hLeft, hRight⟩ := ih hMiddle.1
    refine ⟨hLow, Nat.lt_trans hHigh hMiddle.2, hLeft, Or.inr ?_⟩
    cases hRight with
    | inl hEnd => rwa [hEnd]
    | inr hTrue => exact hTrue
  | case2 low high hFar examinationPoint hAbove ih =>
    have hMiddle : low < examinationPoint ∧ examinationPoint < high := by omega
    obtain ⟨hLow, hHigh, hLeft, hRight⟩ := ih hMiddle.2
    refine ⟨Nat.le_trans (Nat.le_of_lt hMiddle.1) hLow, hHigh, Or.inr ?_, hRight⟩
    cases hLeft with
    | inl hStart => rwa [hStart, ← Bool.not_eq_true]
    | inr hFalse => exact hFalse
  | case3 low high hNear => exact ⟨Nat.le_refl low, h, Or.inl rfl, Or.inl (by omega)⟩

theorem Brackets.unique (hMono : ∀ i j, i ≤ j → j ≤ high → above i = true → above j = true) {l : Nat}
    (hk : Brackets above low high k) (hl : Brackets above low high l) : k = l := by
  have hNot : ∀ {i j}, Brackets above low high i → Brackets above low high j → ¬ i < j := by
    intro i j hi hj hLt
    have hTrue : above (i + 1) = true := hi.right.resolve_left (by have := hj.lt_high; omega)
    have hFalse : above j = false := hj.left.resolve_left (by have := hi.low_le; omega)
    rw [hMono (i + 1) j hLt (Nat.le_of_lt hj.lt_high) hTrue] at hFalse
    cases hFalse
  exact Nat.le_antisymm (Nat.le_of_not_lt (hNot hl hk)) (Nat.le_of_not_lt (hNot hk hl))

/-- A search between two indices that are known to lie on the right sides. -/
theorem Brackets.widen {low' high' : Nat} (h : Brackets above low' high' k) (hLow : low ≤ low')
    (hHigh : high' ≤ high) (hLeft : above low' = false) (hRight : above high' = true) :
    Brackets above low high k where
  low_le := Nat.le_trans hLow h.low_le
  lt_high := Nat.lt_of_lt_of_le h.lt_high hHigh
  left := Or.inr (h.left.elim (fun hEq => hEq ▸ hLeft) id)
  right := Or.inr (h.right.elim (fun hEq => hEq ▸ hRight) id)

end Rules

end Trident.Bisect
