import Mathlib.Data.Nat.Bitwise

/-! # Maps on words that are given by their bits

A map of words that commutes with `|||` or with `^^^` is known once it is known on 0 and on the
single bits.
-/

namespace Trident.BitMaps

variable {w v : Nat}

theorem or_twoPow {x : BitVec w} {k : Nat} (hk : k < w) (hx : x.toNat < 2 ^ k) :
    (x ||| BitVec.twoPow w k).toNat = x.toNat + 2 ^ k := by
  have hSum := Nat.two_pow_add_eq_or_of_lt hx 1
  rw [Nat.mul_one, Nat.or_comm] at hSum
  rw [BitVec.toNat_or, BitVec.toNat_twoPow_of_lt hk, ← hSum, Nat.add_comm]

theorem bits_induction {P : BitVec w → Prop} (hZero : P 0)
    (hBit : ∀ (x : BitVec w) (k : Nat), k < w → x.toNat < 2 ^ k → P x → P (x ||| BitVec.twoPow w k))
    (x : BitVec w) : P x := by
  suffices h : ∀ k ≤ w, ∀ x : BitVec w, x.toNat < 2 ^ k → P x from h w le_rfl x x.isLt
  intro k
  induction k with
  | zero =>
    intro _ x hx
    have hSame : x = 0 := BitVec.eq_of_toNat_eq (by simpa using hx)
    rwa [hSame]
  | succ k ih =>
    intro hk x hx
    cases Nat.lt_or_ge x.toNat (2 ^ k) with
    | inl hLow => exact ih (by omega) x hLow
    | inr hHigh =>
      have hRest : x.toNat - 2 ^ k < 2 ^ k := by
        rw [Nat.pow_succ] at hx
        omega
      have hWord : (BitVec.ofNat w (x.toNat - 2 ^ k)).toNat = x.toNat - 2 ^ k :=
        Nat.mod_eq_of_lt (hRest.trans (Nat.pow_lt_pow_right (by decide) hk))
      have hLow : (BitVec.ofNat w (x.toNat - 2 ^ k)).toNat < 2 ^ k := by rwa [hWord]
      have hSplit : x = BitVec.ofNat w (x.toNat - 2 ^ k) ||| BitVec.twoPow w k := by
        apply BitVec.eq_of_toNat_eq
        rw [or_twoPow hk hLow, hWord, Nat.sub_add_cancel hHigh]
      rw [hSplit]
      exact hBit _ k hk hLow (ih (by omega) _ hLow)

theorem or_twoPow_eq_xor {x : BitVec w} {k : Nat} (hx : x.toNat < 2 ^ k) :
    x ||| BitVec.twoPow w k = x ^^^ BitVec.twoPow w k := by
  apply BitVec.eq_of_getLsbD_eq
  intro i _
  rw [BitVec.getLsbD_or, BitVec.getLsbD_xor, BitVec.getLsbD_twoPow]
  rcases eq_or_ne k i with rfl | hik
  · have hClear : x.getLsbD k = false := Nat.testBit_lt_two_pow hx
    rw [hClear, Bool.false_or, Bool.false_xor]
  · rw [decide_eq_false hik, Bool.and_false, Bool.or_false, Bool.xor_false]

def OrAdditive (f : BitVec w → BitVec v) : Prop := ∀ x y, f (x ||| y) = f x ||| f y

namespace OrAdditive

variable {f g : BitVec w → BitVec v}

theorem or (hf : OrAdditive f) (hg : OrAdditive g) : OrAdditive fun x => f x ||| g x := by
  intro x y
  dsimp only
  rw [hf, hg]
  ac_rfl

theorem and (hf : OrAdditive f) (mask : BitVec v) : OrAdditive fun x => f x &&& mask := by
  intro x y
  dsimp only
  rw [hf, BitVec.and_comm, BitVec.and_or_distrib_left, BitVec.and_comm mask, BitVec.and_comm mask]

theorem shiftLeft (hf : OrAdditive f) (s : Nat) : OrAdditive fun x => f x <<< s := by
  intro x y
  dsimp only
  rw [hf, BitVec.shiftLeft_or_distrib]

theorem ushiftRight (hf : OrAdditive f) (s : Nat) : OrAdditive fun x => f x >>> s := by
  intro x y
  dsimp only
  rw [hf, BitVec.ushiftRight_or_distrib]

theorem self : OrAdditive fun x : BitVec w => x := fun _ _ => rfl

theorem reverse : OrAdditive (BitVec.reverse : BitVec w → BitVec w) := by
  intro x y
  apply BitVec.eq_of_getLsbD_eq
  intro i _
  simp only [BitVec.getLsbD_reverse, BitVec.getLsbD_or, BitVec.getMsbD_or]

/-- Two such maps are equal once they agree on 0 and on the single bits. -/
theorem ext (hf : OrAdditive f) (hg : OrAdditive g) (hZero : f 0 = g 0)
    (hBits : ∀ k < w, f (BitVec.twoPow w k) = g (BitVec.twoPow w k)) (x : BitVec w) : f x = g x := by
  induction x using bits_induction with
  | hZero => exact hZero
  | hBit x k hk _ ih => rw [hf, hg, ih, hBits k hk]

end OrAdditive

def XorAdditive (f : BitVec w → BitVec v) : Prop := ∀ x y, f (x ^^^ y) = f x ^^^ f y

namespace XorAdditive

variable {f g : BitVec w → BitVec v}

theorem zero (hf : XorAdditive f) : f 0 = 0 := by
  have hTwice := hf 0 0
  rwa [BitVec.xor_self, BitVec.xor_self] at hTwice

theorem comp {u : Nat} {f : BitVec v → BitVec u} (hf : XorAdditive f) (hg : XorAdditive g) :
    XorAdditive fun x => f (g x) := by
  intro x y
  dsimp only
  rw [hg, hf]

theorem ext (hf : XorAdditive f) (hg : XorAdditive g)
    (hBits : ∀ k < w, f (BitVec.twoPow w k) = g (BitVec.twoPow w k)) (x : BitVec w) : f x = g x := by
  induction x using bits_induction with
  | hZero => rw [hf.zero, hg.zero]
  | hBit x k hk hx ih => rw [or_twoPow_eq_xor hx, hf, hg, ih, hBits k hk]

end XorAdditive

end Trident.BitMaps
