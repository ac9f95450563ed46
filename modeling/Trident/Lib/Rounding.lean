import Mathlib.Algebra.Group.Nat.Defs
import Mathlib.Algebra.Order.Monoid.Unbundled.Basic
import Mathlib.Tactic.Ring

/-! # Rounding to a number of significant bits

The nearest number with at most `p` significant bits, a tie going to the even
one, as a floating-point format of that precision keeps a natural number.
-/

namespace Trident.Rounding

/-- `n / 2 ^ s`, to the nearest integer and to the even one of two. -/
def shiftHalfEven (n s : Nat) : Nat :=
  let q := n / 2 ^ s
  let r := n % 2 ^ s
  if 2 * r < 2 ^ s ∨ 2 * r = 2 ^ s ∧ q % 2 = 0 then q else q + 1

def significant (p n : Nat) : Nat :=
  let s := n.log2 + 1 - p
  shiftHalfEven n s * 2 ^ s

theorem two_mul_shiftHalfEven_le (n s : Nat) : 2 * (shiftHalfEven n s * 2 ^ s) ≤ 2 * n + 2 ^ s := by
  have hn := Nat.div_add_mod n (2 ^ s)
  have hr := Nat.mod_lt n (Nat.two_pow_pos s)
  rw [Nat.mul_comm] at hn
  rw [shiftHalfEven]
  split
  · omega
  · rw [Nat.add_mul]
    omega

theorem shiftHalfEven_mono (s : Nat) {m n : Nat} (h : m ≤ n) : shiftHalfEven m s ≤ shiftHalfEven n s := by
  have hm := Nat.div_add_mod m (2 ^ s)
  have hn := Nat.div_add_mod n (2 ^ s)
  have hQuotients : m / 2 ^ s ≤ n / 2 ^ s := Nat.div_le_div_right h
  rw [shiftHalfEven, shiftHalfEven]
  obtain hSame | hLess := Nat.eq_or_lt_of_le hQuotients
  · rw [hSame] at hm ⊢
    split <;> split <;> omega
  · split <;> split <;> omega

theorem shiftHalfEven_mul_pow (q s : Nat) : shiftHalfEven (q * 2 ^ s) s = q := by
  have hPos := Nat.two_pow_pos s
  rw [shiftHalfEven, Nat.mul_div_cancel q hPos, Nat.mul_mod_left, if_pos (Or.inl hPos)]

theorem significant_of_lt {p n : Nat} (h : n < 2 ^ p) : significant p n = n := by
  have hlog : n.log2 + 1 ≤ p ∨ n = 0 := by
    by_cases hn : n = 0
    · exact .inr hn
    · exact .inl ((Nat.log2_lt hn).mpr h)
  rcases hlog with hlog | rfl
  · rw [significant, Nat.sub_eq_zero_of_le hlog]
    simp [shiftHalfEven, Nat.mod_one]
  · simp [significant, shiftHalfEven]

/-- What the rest of the mantissa cannot hold is not rounded. -/
theorem significant_mul_pow {p q : Nat} (h : q < 2 ^ p) (e : Nat) : significant p (q * 2 ^ e) = q * 2 ^ e := by
  by_cases hq : q = 0
  · rw [hq, Nat.zero_mul, significant_of_lt (Nat.two_pow_pos p)]
  · have hLog : (q * 2 ^ e).log2 + 1 - p ≤ e := by
      have hBelow : q * 2 ^ e < 2 ^ (p + e) := by
        rw [Nat.pow_add]
        exact Nat.mul_lt_mul_of_pos_right h (Nat.two_pow_pos e)
      have hLess := (Nat.log2_lt (Nat.mul_ne_zero hq (Nat.two_pow_pos e).ne')).mpr hBelow
      omega
    have hSplit : q * 2 ^ e = q * 2 ^ (e - ((q * 2 ^ e).log2 + 1 - p)) * 2 ^ ((q * 2 ^ e).log2 + 1 - p) := by
      rw [Nat.mul_assoc, ← Nat.pow_add, Nat.sub_add_cancel hLog]
    rw [significant]
    generalize (q * 2 ^ e).log2 + 1 - p = s at hSplit ⊢
    rw [hSplit, shiftHalfEven_mul_pow]

/-- Rounding adds at most the part `2 ^ -p`. -/
theorem significant_mul_le (p n : Nat) : significant p n * 2 ^ p ≤ n * (2 ^ p + 1) := by
  by_cases hlt : n < 2 ^ p
  · rw [significant_of_lt hlt, Nat.mul_add]
    exact Nat.le_add_right _ _
  · have hn : n ≠ 0 := by
      rintro rfl
      exact hlt (Nat.two_pow_pos p)
    have hlog : p ≤ n.log2 + 1 :=
      ((Nat.le_log2 hn).mpr (Nat.le_of_not_lt hlt)).trans (Nat.le_succ _)
    have hstep : 2 ^ (n.log2 + 1 - p) * 2 ^ p ≤ 2 * n := by
      rw [← Nat.pow_add, Nat.sub_add_cancel hlog, Nat.pow_succ, Nat.mul_comm]
      exact Nat.mul_le_mul_left 2 (Nat.log2_self_le hn)
    have hround := Nat.mul_le_mul_right (2 ^ p)
      (two_mul_shiftHalfEven_le n (n.log2 + 1 - p))
    rw [Nat.add_mul] at hround
    rw [significant, Nat.mul_add]
    have hassoc : 2 * (shiftHalfEven n (n.log2 + 1 - p) * 2 ^ (n.log2 + 1 - p)) * 2 ^ p =
        2 * (shiftHalfEven n (n.log2 + 1 - p) * 2 ^ (n.log2 + 1 - p) * 2 ^ p) := by ring
    have hdouble : 2 * n * 2 ^ p = 2 * (n * 2 ^ p) := by ring
    omega

variable {p m n e : Nat}

theorem significant_exact (hp : 0 < p) (h : n ≤ 2 ^ p) (e : Nat) : significant p (n * 2 ^ e) = n * 2 ^ e := by
  obtain hLess | rfl := Nat.lt_or_eq_of_le h
  · exact significant_mul_pow hLess e
  · have hPow := significant_mul_pow (Nat.one_lt_two_pow hp.ne') (p + e)
    rwa [Nat.one_mul, Nat.pow_add] at hPow

/-- Rounding stays between two powers of 2. -/
theorem significant_bounds (hp : 0 < p) (hn : n ≠ 0) :
    2 ^ n.log2 ≤ significant p n ∧ significant p n ≤ 2 ^ (n.log2 + 1) := by
  have hPow : ∀ k, n.log2 ≤ k → 2 ^ k = 2 ^ (k - (n.log2 + 1 - p)) * 2 ^ (n.log2 + 1 - p) := by
    intro k hk
    rw [← Nat.pow_add, Nat.sub_add_cancel (by omega)]
  have hLow := shiftHalfEven_mono (n.log2 + 1 - p) (Nat.log2_self_le hn)
  have hHigh := shiftHalfEven_mono (n.log2 + 1 - p) (Nat.lt_log2_self (n := n)).le
  rw [hPow _ le_rfl, shiftHalfEven_mul_pow] at hLow
  rw [hPow _ (Nat.le_succ _), shiftHalfEven_mul_pow] at hHigh
  rw [significant, hPow _ le_rfl, hPow _ (Nat.le_succ _)]
  exact ⟨Nat.mul_le_mul_right _ hLow, Nat.mul_le_mul_right _ hHigh⟩

theorem significant_mono (hp : 0 < p) (h : m ≤ n) : significant p m ≤ significant p n := by
  by_cases hm : m = 0
  · rw [hm, significant_of_lt (Nat.two_pow_pos p)]
    exact Nat.zero_le _
  have hn : n ≠ 0 := by omega
  have hLog : m.log2 ≤ n.log2 := (Nat.le_log2 hn).mpr ((Nat.log2_self_le hm).trans h)
  obtain hSame | hLess := Nat.eq_or_lt_of_le hLog
  · rw [significant, significant, hSame]
    exact Nat.mul_le_mul_right _ (shiftHalfEven_mono _ h)
  · exact calc
      significant p m ≤ 2 ^ (m.log2 + 1) := (significant_bounds hp hm).2
      _ ≤ 2 ^ n.log2 := Nat.pow_le_pow_right (by decide) hLess
      _ ≤ significant p n := (significant_bounds hp hn).1

/-- Below a power of 2 the next number lies a step of the precision away. -/
theorem significant_gap (hp : 0 < p) (he : p ≤ e) (h : significant p n < 2 ^ e) :
    significant p n + 2 ^ (e - p) ≤ 2 ^ e := by
  by_cases hn : n = 0
  · rw [hn, significant_of_lt (Nat.two_pow_pos p), Nat.zero_add]
    exact Nat.pow_le_pow_right (by decide) (Nat.sub_le e p)
  obtain ⟨hLow, hHigh⟩ := significant_bounds hp hn
  have hLog : n.log2 < e := (Nat.pow_lt_pow_iff_right (by decide)).mp (hLow.trans_lt h)
  obtain hLast | hBefore := Nat.eq_or_lt_of_le (Nat.succ_le_of_lt hLog)
  · have hPow : 2 ^ e = 2 ^ p * 2 ^ (e - p) := by rw [← Nat.pow_add, Nat.add_sub_cancel' he]
    have hShift : n.log2 + 1 - p = e - p := by omega
    rw [significant, hShift, hPow] at h ⊢
    have hQuotient := Nat.lt_of_mul_lt_mul_right h
    rw [← Nat.succ_mul]
    exact Nat.mul_le_mul_right _ hQuotient
  · obtain ⟨e, rfl⟩ : ∃ k, e = k + 1 := ⟨e - 1, by omega⟩
    have hHalf : significant p n ≤ 2 ^ e := hHigh.trans (Nat.pow_le_pow_right (by decide) (by omega))
    have hStep : 2 ^ (e + 1 - p) ≤ 2 ^ e := Nat.pow_le_pow_right (by decide) (by omega)
    rw [Nat.pow_succ]
    omega

end Trident.Rounding
