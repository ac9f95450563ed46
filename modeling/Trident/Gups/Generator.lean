import Mathlib.Logic.Function.Iterate
import Mathlib.Tactic.Ring
import Trident.Lib.BitMaps

/-! # The random stream of the gups benchmark

One step multiplies by the generator of a ring of polynomials over two
elements; `HPCC_starts` jumps ahead by squaring. The squaring table makes
both maps additive for xor, so they agree once they agree on single bits.
-/

namespace Trident.Gups

open BitMaps

abbrev Word := BitVec 64

def POLY : Word := 0x0000000000000007

def PERIOD : Int := 1317624576693539401

/-- `(x << 1) ^ ((int64_t) x < 0 ? POLY : 0)` -/
def step (x : Word) : Word := (x <<< 1) ^^^ (if x.toInt < 0 then POLY else 0)

/-- `m2[i]`, the value of `temp` at the start of turn `i` of the table loop. -/
def m2 : Nat → Word
  | 0 => 1
  | i + 1 => step (step (m2 i))

def addPeriod (n : Int) : Int := if n < 0 then addPeriod (n + PERIOD) else n
termination_by (-n).toNat
decreasing_by simp only [PERIOD]; omega

def subPeriod (n : Int) : Int := if n > PERIOD then subPeriod (n - PERIOD) else n
termination_by n.toNat
decreasing_by simp only [PERIOD] at *; omega

/-- The downward scan for the top set bit, from bit `i`. -/
def topBit (n : Nat) : Nat → Nat
  | 0 => 0
  | i + 1 => if n.testBit (i + 1) then i + 1 else topBit n i

/-- The inner loop over `m2`, for the turns in the list. -/
def xorSquares (ran : Word) (turns : List Nat) (temp : Word) : Word :=
  turns.foldl (fun temp j => if ran.getLsbD j then temp ^^^ m2 j else temp) temp

def square (ran : Word) : Word := xorSquares ran (List.range 64) 0

/-- The loop `while (i > 0)`. -/
def jump (n : Nat) : Nat → Word → Word
  | 0, ran => ran
  | i + 1, ran => jump n i (if n.testBit i then step (square ran) else square ran)

def hpccStarts (n : Int) : Word :=
  let n := subPeriod (addPeriod n)
  if n = 0 then 0x1 else jump n.toNat (topBit n.toNat 62) 0x2

theorem step_eq (x : Word) : step x = (x <<< 1) ^^^ (if x.msb then POLY else 0) := by
  rw [step, BitVec.msb_eq_toInt]
  simp

theorem xor_swap (a b c d : Word) : (a ^^^ b) ^^^ (c ^^^ d) = (a ^^^ c) ^^^ (b ^^^ d) := by
  ac_rfl

theorem ite_xor (a b : Bool) (p : Word) :
    (if (a ^^ b) then p else 0) = (if a then p else 0) ^^^ (if b then p else 0) := by
  cases a <;> cases b <;> simp

theorem step_xor : XorAdditive step := by
  intro x y
  rw [step_eq, step_eq, step_eq, BitVec.msb_xor, BitVec.shiftLeft_xor_distrib, ite_xor, xor_swap]

theorem xorSquares_xor (x y : Word) (turns : List Nat) (s t : Word) :
    xorSquares (x ^^^ y) turns (s ^^^ t) = xorSquares x turns s ^^^ xorSquares y turns t := by
  induction turns generalizing s t with
  | nil => rfl
  | cons j turns ih =>
    have hTurn : ∀ (b : Bool) (u : Word), (if b then u ^^^ m2 j else u) =
        u ^^^ (if b then m2 j else 0) := fun b u => by cases b <;> simp
    simp only [xorSquares, List.foldl_cons, hTurn, BitVec.getLsbD_xor, ite_xor] at ih ⊢
    rw [xor_swap, ih]

theorem square_xor : XorAdditive square := by
  intro x y
  have h := xorSquares_xor x y (List.range 64) 0 0
  rwa [BitVec.xor_self] at h

theorem square_step_twoPow (k : Nat) (hk : k < 64) :
    square (step (BitVec.twoPow 64 k)) = step (step (square (BitVec.twoPow 64 k))) := by
  have h : ∀ k : Fin 64, square (step (BitVec.twoPow 64 k)) =
      step (step (square (BitVec.twoPow 64 k))) := by decide +kernel
  exact h ⟨k, hk⟩

theorem square_step (x : Word) : square (step x) = step (step (square x)) :=
  (square_xor.comp step_xor).ext (step_xor.comp (step_xor.comp square_xor)) square_step_twoPow x

theorem square_iterate (k : Nat) : square (step^[k] 1) = step^[2 * k] 1 := by
  induction k with
  | zero => decide
  | succ k ih =>
    rw [Function.iterate_succ_apply', square_step, ih, Nat.mul_succ,
      Function.iterate_succ_apply', Function.iterate_succ_apply']

theorem shiftRight_topBit {n k : Nat} (hPos : 0 < n) (hn : n < 2 ^ (k + 1)) :
    n >>> topBit n k = 1 := by
  induction k with
  | zero => simp only [topBit, Nat.shiftRight_zero]; omega
  | succ k ih =>
    rw [topBit]
    split_ifs with hBit
    · have hLow := Nat.ge_two_pow_of_testBit hBit
      rw [Nat.shiftRight_eq_div_pow]
      exact Nat.div_eq_of_lt_le (by omega) (by rw [Nat.pow_succ] at hn; omega)
    · apply ih
      apply Nat.lt_pow_two_of_testBit
      intro i hi
      rcases eq_or_ne i (k + 1) with hik | hik
      · subst hik
        simpa using hBit
      · exact Nat.testBit_lt_two_pow
          (lt_of_lt_of_le hn (Nat.pow_le_pow_right (by decide) (by omega)))

/-- Before the turn for bit `i` the walk has taken as many steps as the bits above say. -/
theorem jump_eq (n i : Nat) {ran : Word} (h : ran = step^[n >>> i] 1) :
    jump n i ran = step^[n] 1 := by
  induction i generalizing ran with
  | zero => simpa [jump] using h
  | succ i ih =>
    have hSquare : square ran = step^[2 * (n >>> (i + 1))] 1 := by rw [h, square_iterate]
    have hHalf : n >>> (i + 1) = (n >>> i) / 2 := by
      rw [Nat.shiftRight_succ]
    have hBit : n.testBit i = decide ((n >>> i) % 2 = 1) := by
      rw [Nat.testBit_eq_decide_div_mod_eq, Nat.shiftRight_eq_div_pow]
    rw [jump]
    apply ih
    rw [hSquare, hHalf, hBit]
    by_cases hOdd : (n >>> i) % 2 = 1
    · rw [if_pos (decide_eq_true hOdd), ← Function.iterate_succ_apply' step]
      congr 1
      omega
    · rw [if_neg (by rw [decide_eq_true_eq]; exact hOdd)]
      congr 1
      omega

theorem hpccStarts_eq_iterate {n : Nat} (hn : (n : Int) ≤ PERIOD) :
    hpccStarts n = step^[n] 1 := by
  have hReduce : subPeriod (addPeriod n) = n := by
    rw [addPeriod, if_neg (by omega), subPeriod, if_neg (by omega)]
  rw [hpccStarts, hReduce]
  by_cases hZero : (n : Int) = 0
  · have hn0 : n = 0 := by omega
    simp [hn0]
  · simp only [if_neg hZero, Int.toNat_natCast]
    have hBound : n < 2 ^ (62 + 1) := by
      simp only [PERIOD] at hn
      omega
    apply jump_eq
    rw [shiftRight_topBit (by omega) hBound]
    decide

/-- After the two loops at its start `n` is unchanged modulo the period, but may be the period itself. -/
theorem addPeriod_spec (n : Int) : 0 ≤ addPeriod n ∧ addPeriod n % PERIOD = n % PERIOD := by
  induction n using addPeriod.induct with
  | case1 n hNeg ih =>
    rw [addPeriod, if_pos hNeg]
    exact ⟨ih.1, ih.2.trans (Int.add_emod_right n PERIOD)⟩
  | case2 n hPos =>
    rw [addPeriod, if_neg hPos]
    exact ⟨by omega, rfl⟩

theorem subPeriod_spec {n : Int} (hPos : 0 ≤ n) :
    0 ≤ subPeriod n ∧ subPeriod n ≤ PERIOD ∧ subPeriod n % PERIOD = n % PERIOD := by
  induction n using subPeriod.induct with
  | case1 n hMore ih =>
    rw [subPeriod, if_pos hMore]
    obtain ⟨hLow, hHigh, hMod⟩ := ih (by omega)
    exact ⟨hLow, hHigh, hMod.trans (Int.sub_emod_right n PERIOD)⟩
  | case2 n hLess =>
    rw [subPeriod, if_neg hLess]
    exact ⟨hPos, by omega, rfl⟩

/-- The loops stop at the period as well as at zero, which makes no difference. -/
theorem step_period : step^[PERIOD.toNat] 1 = 1 := by
  have hJump : jump PERIOD.toNat 60 0x2 = step^[PERIOD.toNat] 1 := jump_eq _ _ (by decide)
  rw [← hJump]
  decide +kernel

theorem hpccStarts_reduced (n : Int) : hpccStarts n = hpccStarts (subPeriod (addPeriod n)) := by
  obtain ⟨hLow, hHigh, _⟩ := subPeriod_spec (addPeriod_spec n).1
  have hSame : subPeriod (addPeriod (subPeriod (addPeriod n))) = subPeriod (addPeriod n) := by
    generalize subPeriod (addPeriod n) = m at hLow hHigh
    rw [addPeriod, if_neg (by omega), subPeriod, if_neg (by omega)]
  rw [hpccStarts, hpccStarts, hSame]

theorem hpccStarts_mod_period :
    (∀ n : Nat, (n : Int) ≤ PERIOD → hpccStarts n = step^[n] 1) ∧
      ∀ n : Int, hpccStarts n = step^[(n % PERIOD).toNat] 1 := by
  refine ⟨fun n hn => hpccStarts_eq_iterate hn, fun n => ?_⟩
  obtain ⟨hLow, hHigh, hMod⟩ := subPeriod_spec (addPeriod_spec n).1
  rw [hpccStarts_reduced, ← (addPeriod_spec n).2, ← hMod]
  obtain ⟨m, hm⟩ := Int.eq_ofNat_of_zero_le hLow
  rw [hm] at hHigh ⊢
  rw [hpccStarts_eq_iterate hHigh]
  obtain hLess | hEnd := Int.lt_or_eq_of_le hHigh
  · rw [Int.emod_eq_of_lt (by omega) hLess, Int.toNat_natCast]
  · have hm' : m = PERIOD.toNat := by rw [← hEnd, Int.toNat_natCast]
    rw [hEnd, Int.emod_self, hm', step_period]
    rfl

end Trident.Gups
