import Mathlib.Data.Fin.VecNotation
import Mathlib.Data.Nat.Periodic
import Mathlib.Tactic.FinCases
import Mathlib.Tactic.IntervalCases
import Mathlib.Tactic.NormNum.GCD
import Trident.Graph500.SplittableMrg

/-! # Draws without bias

`generate_4way_bernoulli` draws again until a number is not below `limit`.
-/

namespace Trident.Graph500

open Function

section Program

/-- `UINT32_C(0x7FFFFFFF) % INITIATOR_DENOMINATOR` -/
def limit : Nat := 0x7FFFFFFF % 10000

def mrgGetUintOrig (st : MrgState) : Residue × MrgState := ((mrgOrigStep st).z1, mrgOrigStep st)

/-- `mrg_get_double_orig`, where `real` makes a value of its two numbers; the calls go from left to right. -/
def mrgGetDoubleOrig {α : Type} (real : Residue → Residue → α) (st : MrgState) : α × MrgState :=
  let (first, st) := mrgGetUintOrig st
  let (second, st) := mrgGetUintOrig st
  (real first second, st)

/-- The square for a number that is taken, without noise. -/
def squareOf (val : Nat) : Nat :=
  let val := val % 10000
  if val < 1900 then 1
  else
    let val := val - 1900
    if val < 1900 then 2
    else
      let val := val - 1900
      if val < 5700 then 0 else 3

theorem squareOf_lt (val : Nat) : squareOf val < 4 := by
  rw [squareOf]
  dsimp only
  split_ifs <;> decide

/-- `none` where as many draws as there is fuel are all too small. -/
def generate4wayBernoulli : Nat → MrgState → Option (Fin 4 × MrgState)
  | 0, _ => none
  | fuel + 1, st =>
    let (val, st) := mrgGetUintOrig st
    if val.val < limit then generate4wayBernoulli fuel st else some (⟨squareOf val.val, squareOf_lt val.val⟩, st)

end Program

section Rejections

def MrgState.zero : MrgState := ⟨0, 0, 0, 0, 0⟩

/-- No other multiples of the factors come as near to each other, or to the modulus. -/
theorem zero_of_near {b r w : Nat} (hb : b < 3647) (hr : r < 20) (hw : w ≤ 4920)
    (h : b * 104480 + r * 107374182 = w ∨ b * 104480 + r * 107374182 = w + 0x7FFFFFFF) :
    w = 0 ∧ r = 0 ∧ b = 0 := by
  interval_cases r <;> omega

/-- Twenty times the first factor is the modulus less 7. -/
theorem zero_of_sum {a b : Nat} (ha : a < 3647) (hb : b < 3647)
    (h : (b * 104480 + a * 107374182) % 0x7FFFFFFF < 3647) : a = 0 ∧ b = 0 := by
  have hNear : b * 104480 + a % 20 * 107374182 =
        (b * 104480 + a * 107374182) % 0x7FFFFFFF + 7 * (a / 20) ∨
      b * 104480 + a % 20 * 107374182 =
        (b * 104480 + a * 107374182) % 0x7FFFFFFF + 7 * (a / 20) + 0x7FFFFFFF := by
    have hSum := Nat.div_add_mod (b * 104480 + a * 107374182) 0x7FFFFFFF
    generalize (b * 104480 + a * 107374182) % 0x7FFFFFFF = e at h hSum ⊢
    generalize (b * 104480 + a * 107374182) / 0x7FFFFFFF = k at hSum
    have hRound : k = a / 20 ∨ k = a / 20 + 1 := by omega
    omega
  have hRest : a % 20 < 20 := Nat.mod_lt a (by decide)
  generalize (b * 104480 + a * 107374182) % 0x7FFFFFFF = e at h hNear
  obtain ⟨hNone, hRest, hb⟩ := zero_of_near hb hRest (by omega) hNear
  exact ⟨by omega, hb⟩

/-- A small number after two small ones means that both of them are zero. -/
theorem zero_of_small {a b : Residue} (ha : a.val < limit) (hb : b.val < limit)
    (h : (modMacY (modMulX a) b).val < limit) : a = 0 ∧ b = 0 := by
  have hNext : (b.val * 104480 + a.val * 107374182) % 0x7FFFFFFF < limit := by
    rw [modMacY, modMac_val, modMulX, modMul_val, Nat.add_mod, Nat.mod_mod] at h
    rw [Nat.add_mod]
    exact h
  obtain ⟨ha, hb⟩ := zero_of_sum ha hb hNext
  exact ⟨Fin.ext ha, Fin.ext hb⟩

theorem mrgOrigStep_ne {st : MrgState} (h : st ≠ .zero) : mrgOrigStep st ≠ .zero := by
  intro hZero
  apply h
  obtain ⟨z1, z2, z3, z4, z5⟩ := st
  have hNext : modMacY (modMulX z1) z5 = 0 := congrArg MrgState.z1 hZero
  have h1 : z1 = 0 := congrArg MrgState.z2 hZero
  have h2 : z2 = 0 := congrArg MrgState.z3 hZero
  have h3 : z3 = 0 := congrArg MrgState.z4 hZero
  have h4 : z4 = 0 := congrArg MrgState.z5 hZero
  have hProduct : 0x7FFFFFFF ∣ z5.val * 104480 := by
    have hNone : (modMulX 0).val = 0 := rfl
    have hVal : (z5.val * 104480 + (modMulX z1).val) % 0x7FFFFFFF = 0 :=
      (modMac_val (modMulX z1) z5 104480).symm.trans (congrArg Fin.val hNext)
    rw [h1, hNone, Nat.add_zero] at hVal
    exact Nat.dvd_of_mod_eq_zero hVal
  have hCoprime : Nat.Coprime 0x7FFFFFFF 104480 := by norm_num
  have h5 : z5 = 0 := Fin.ext (Nat.eq_zero_of_dvd_of_lt (hCoprime.dvd_of_dvd_mul_right hProduct) z5.isLt)
  rw [h1, h2, h3, h4, h5]
  rfl

theorem iterate_ne {st : MrgState} (h : st ≠ .zero) (n : Nat) : mrgOrigStep^[n] st ≠ .zero := by
  induction n with
  | zero => exact h
  | succ n ih =>
    rw [iterate_succ_apply']
    exact mrgOrigStep_ne ih

/-- All draws of a loop that runs out of fuel are small. -/
theorem small_of_none {fuel : Nat} {st : MrgState} (h : generate4wayBernoulli fuel st = none) {n : Nat}
    (hn : n < fuel) : (mrgOrigStep^[n + 1] st).z1.val < limit := by
  induction fuel generalizing st n with
  | zero => exact absurd hn (Nat.not_lt_zero n)
  | succ fuel ih =>
    rw [generate4wayBernoulli] at h
    dsimp only [mrgGetUintOrig] at h
    split at h
    · rename_i hSmall
      cases n with
      | zero => exact hSmall
      | succ n =>
        rw [iterate_succ_apply]
        exact ih h (Nat.lt_of_succ_lt_succ hn)
    · cases h

theorem generate4wayBernoulli_some {st : MrgState} (h : st ≠ .zero) (fuel : Nat) {square : Fin 4} {st' : MrgState}
    (hRun : generate4wayBernoulli fuel st = some (square, st')) : st' ≠ .zero := by
  induction fuel generalizing st with
  | zero => cases hRun
  | succ fuel ih =>
    rw [generate4wayBernoulli] at hRun
    dsimp only [mrgGetUintOrig] at hRun
    split at hRun
    · exact ih (mrgOrigStep_ne h) hRun
    · obtain ⟨-, rfl⟩ := Prod.mk.inj (Option.some.inj hRun)
      exact mrgOrigStep_ne h

theorem nine_draws {st : MrgState} (h : st ≠ .zero) :
    ∃ square st', generate4wayBernoulli 9 st = some (square, st') ∧ st' ≠ .zero := by
  cases hRun : generate4wayBernoulli 9 st with
  | some result => exact ⟨result.1, result.2, rfl, generate4wayBernoulli_some h 9 hRun⟩
  | none =>
    -- the numbers drawn, of which the sixth from the first and the fifth is made
    have hDraw : ∀ n, (mrgOrigStep^[n + 6] st).z1 =
        modMacY (modMulX (mrgOrigStep^[n + 5] st).z1) (mrgOrigStep^[n + 1] st).z1 := by
      intro n
      simp only [iterate_succ_apply']
      rfl
    have hZero : ∀ n < 4, (mrgOrigStep^[n + 5] st).z1 = 0 ∧ (mrgOrigStep^[n + 1] st).z1 = 0 := by
      intro n hn
      have hSmall := small_of_none hRun (n := n + 5) (by omega)
      rw [hDraw n] at hSmall
      exact zero_of_small (small_of_none hRun (by omega)) (small_of_none hRun (by omega)) hSmall
    have hState : mrgOrigStep^[5] st = .zero := by
      have hDraws : mrgOrigStep^[5] st = ⟨(mrgOrigStep^[5] st).z1, (mrgOrigStep^[4] st).z1,
          (mrgOrigStep^[3] st).z1, (mrgOrigStep^[2] st).z1, (mrgOrigStep^[1] st).z1⟩ := rfl
      rw [hDraws, (hZero 0 (by decide)).1, (hZero 3 (by decide)).2, (hZero 2 (by decide)).2,
        (hZero 1 (by decide)).2, (hZero 0 (by decide)).2]
      rfl
    exact absurd hState (iterate_ne h 5)

theorem generate4wayBernoulli_zero (fuel : Nat) : generate4wayBernoulli fuel .zero = none := by
  induction fuel with
  | zero => rfl
  | succ fuel ih => exact ih

theorem generate4wayBernoulli_mono {fuel more : Nat} (h : fuel ≤ more) {st : MrgState} {result : Fin 4 × MrgState}
    (hRun : generate4wayBernoulli fuel st = some result) : generate4wayBernoulli more st = some result := by
  induction fuel generalizing st more with
  | zero => cases hRun
  | succ fuel ih =>
    obtain ⟨more, rfl⟩ := Nat.exists_eq_add_of_le' (Nat.le_trans (Nat.succ_le_succ (Nat.zero_le fuel)) h)
    rw [generate4wayBernoulli] at hRun ⊢
    dsimp only at hRun ⊢
    split
    · rename_i hSmall
      rw [if_pos hSmall] at hRun
      exact ih (Nat.le_of_succ_le_succ h) hRun
    · rename_i hLarge
      rwa [if_neg hLarge] at hRun

theorem generate4wayBernoulli_enough {fuel : Nat} (hFuel : 9 ≤ fuel) {st : MrgState} (h : st ≠ .zero) :
    ∃ square st', generate4wayBernoulli fuel st = some (square, st') ∧ st' ≠ .zero := by
  obtain ⟨square, st', hRun, hNe⟩ := nine_draws h
  exact ⟨square, st', generate4wayBernoulli_mono hFuel hRun, hNe⟩

/-- The loop that draws again takes nine numbers at most, and has no end only where all is zero. -/
theorem generate4wayBernoulli_ends (st : MrgState) (more : Nat) :
    (∃ square st', generate4wayBernoulli (9 + more) st = some (square, st')) ↔ st ≠ .zero := by
  constructor
  · rintro ⟨square, st', hRun⟩ rfl
    rw [generate4wayBernoulli_zero] at hRun
    cases hRun
  · intro h
    obtain ⟨square, st', hRun, _⟩ := generate4wayBernoulli_enough (Nat.le_add_right 9 more) h
    exact ⟨square, st', hRun⟩

end Rejections

section Shares

/-- The numerators of the initiator. -/
def initiator : Fin 4 → Nat := ![5700, 1900, 1900, 500]

/-- The least remainder of a square. -/
def firstOf : Fin 4 → Nat := ![3800, 0, 1900, 9500]

theorem squareOf_iff (val : Nat) (square : Fin 4) :
    squareOf val = square.val ↔
      firstOf square ≤ val % 10000 ∧ val % 10000 < firstOf square + initiator square := by
  have hRest := Nat.mod_lt val (show 0 < 10000 by decide)
  rw [squareOf]
  fin_cases square <;> dsimp [firstOf, initiator] <;> split_ifs <;> simp <;> omega

theorem count_square (square : Fin 4) :
    ((Finset.range 10000).filter fun val => squareOf val = square.val).card = initiator square := by
  have hInterval : ((Finset.range 10000).filter fun val => squareOf val = square.val) =
      Finset.Ico (firstOf square) (firstOf square + initiator square) := by
    have hInside : firstOf square + initiator square ≤ 10000 := by
      revert square
      decide
    ext val
    rw [Finset.mem_filter, Finset.mem_range, Finset.mem_Ico, squareOf_iff]
    constructor
    · rintro ⟨hVal, hSquare⟩
      rwa [Nat.mod_eq_of_lt hVal] at hSquare
    · intro hVal
      have hLess : val < 10000 := hVal.2.trans_le hInside
      rw [Nat.mod_eq_of_lt hLess]
      exact ⟨hLess, hVal⟩
  rw [hInterval, Nat.card_Ico, Nat.add_sub_cancel_left]

/-- Periods one behind the other. -/
theorem card_periods {p : Nat → Prop} [DecidablePred p] {d : Nat} (hPeriodic : Periodic p d) (start rounds : Nat) :
    ((Finset.Ico start (start + d * rounds)).filter p).card = rounds * Nat.count p d := by
  induction rounds with
  | zero => rw [Nat.mul_zero, Nat.add_zero, Finset.Ico_self, Finset.filter_empty, Finset.card_empty, Nat.zero_mul]
  | succ rounds ih =>
    have hSplit : Finset.Ico start (start + d * (rounds + 1)) =
        Finset.Ico start (start + d * rounds) ∪ Finset.Ico (start + d * rounds) (start + d * rounds + d) := by
      rw [Finset.Ico_union_Ico_eq_Ico (Nat.le_add_right _ _) (Nat.le_add_right _ _), Nat.mul_succ, Nat.add_assoc]
    have hApart : Disjoint ((Finset.Ico start (start + d * rounds)).filter p)
        ((Finset.Ico (start + d * rounds) (start + d * rounds + d)).filter p) :=
      (Finset.Ico_disjoint_Ico_consecutive _ _ _).mono (Finset.filter_subset _ _) (Finset.filter_subset _ _)
    rw [hSplit, Finset.filter_union, Finset.card_union_of_disjoint hApart, ih,
      Nat.filter_Ico_card_eq_of_periodic _ _ _ hPeriodic, Nat.succ_mul]

/-- Of the numbers that are taken, each square has just its numerator in 10000. -/
theorem squareOf_unbiased (square : Fin 4) :
    10000 * ((Finset.Ico limit 0x7FFFFFFF).filter fun val => squareOf val = square.val).card =
      initiator square * (0x7FFFFFFF - limit) := by
  have hPeriodic : Periodic (fun val => squareOf val = square.val) 10000 := by
    intro val
    simp only [squareOf, Nat.add_mod_right]
  have hNumbers : 0x7FFFFFFF = limit + 10000 * 214748 := rfl
  rw [hNumbers, card_periods hPeriodic, Nat.count_eq_card_filter_range, count_square, Nat.add_sub_cancel_left]
  ring

end Shares

end Trident.Graph500
