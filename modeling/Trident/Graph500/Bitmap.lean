import Mathlib.Data.BitVec
import Mathlib.Data.Set.Basic
import Mathlib.Tactic.Ring

/-! # The bitmaps of the search

`bitmap.h` of `omp-csr`. A bitmap is its words; how many of them there are is kept apart, since all
bitmaps of a graph have the same size.
-/

namespace Trident.Graph500

section Words

/-- `int num_longs = (size + 63) / 64`, where the sum is an `int` as well. -/
def numLongs (size : Nat) : Nat := ((((size : Int) + 63).bmod (2 ^ 32)).tdiv 64).toNat

theorem numLongs_eq {size : Nat} (h : size + 63 < 2 ^ 31) : numLongs size = (size + 63) / 64 := by
  have hSum : ((size : Int) + 63).bmod (2 ^ 32) = ((size + 63 : Nat) : Int) :=
    Int.bmod_eq_of_le_mul_two (by omega) (by omega)
  have hLongs : (((size + 63 : Nat) : Int).tdiv 64).toNat = (size + 63) / 64 := by
    rw [Int.natCast_tdiv_eq_ediv]
    omega
  exact (congrArg (fun n : Int => (n.tdiv 64).toNat) hSum).trans hLongs

def wordOffset (n : Nat) : Nat := n / 64

def bitOffset (n : Nat) : Nat := n &&& 0x3f

theorem bitOffset_eq (n : Nat) : bitOffset n = n % 64 := Nat.and_two_pow_sub_one_eq_mod n 6

/-- `1l<<BIT_OFFSET(pos)` -/
def bitMask (pos : Nat) : BitVec 64 := 1#64 <<< bitOffset pos

theorem getLsbD_bitMask (pos k : Nat) : (bitMask pos).getLsbD k = decide (k = pos % 64) := by
  rw [bitMask, bitOffset_eq, BitVec.getLsbD_shiftLeft, BitVec.getLsbD_one]
  have hLt := Nat.mod_lt pos (show 0 < 64 by decide)
  rw [Bool.eq_iff_iff]
  simp only [Bool.and_eq_true, Bool.not_eq_true', decide_eq_true_eq, decide_eq_false_iff_not]
  omega

end Words

section Bits

abbrev Bitmap := Nat → BitVec 64

def bmReset (longs : Nat) (bm : Bitmap) : Bitmap := fun it => if it < longs then 0#64 else bm it

def bmGetBit (bm : Bitmap) (pos : Nat) : Prop := bm (wordOffset pos) &&& bitMask pos ≠ 0#64

instance (bm : Bitmap) (pos : Nat) : Decidable (bmGetBit bm pos) :=
  inferInstanceAs (Decidable (_ ≠ _))

def bmSetBit (bm : Bitmap) (pos : Nat) : Bitmap :=
  Function.update bm (wordOffset pos) (bm (wordOffset pos) ||| bitMask pos)

theorem bmGetBit_iff (bm : Bitmap) (pos : Nat) :
    bmGetBit bm pos ↔ (bm (pos / 64)).getLsbD (pos % 64) = true := by
  rw [bmGetBit, wordOffset]
  constructor
  · intro hNe
    by_contra hBit
    refine hNe (BitVec.eq_of_getLsbD_eq fun k hk => ?_)
    rw [BitVec.getLsbD_and, getLsbD_bitMask]
    obtain rfl | hOther := eq_or_ne k (pos % 64)
    · rw [Bool.not_eq_true] at hBit
      simp [hBit]
    · simp [hOther]
  · intro hBit hZero
    have hAt := congrArg (fun w : BitVec 64 => w.getLsbD (pos % 64)) hZero
    simp only [BitVec.getLsbD_and, getLsbD_bitMask, hBit] at hAt
    simp at hAt

theorem bmGetBit_reset {longs pos : Nat} (hPos : pos < 64 * longs) (bm : Bitmap) :
    ¬ bmGetBit (bmReset longs bm) pos := by
  rw [bmGetBit_iff, bmReset, if_pos (by omega)]
  simp

theorem bmGetBit_setBit (bm : Bitmap) (pos q : Nat) :
    bmGetBit (bmSetBit bm pos) q ↔ q = pos ∨ bmGetBit bm q := by
  rw [bmGetBit_iff, bmGetBit_iff, bmSetBit, wordOffset]
  obtain hWord | hWord := eq_or_ne (q / 64) (pos / 64)
  · rw [hWord, Function.update_self, BitVec.getLsbD_or, getLsbD_bitMask, Bool.or_eq_true,
      decide_eq_true_eq]
    constructor
    · rintro (hOld | hNew)
      · exact Or.inr hOld
      · exact Or.inl (by omega)
    · rintro (rfl | hOld)
      · exact Or.inr rfl
      · exact Or.inl hOld
  · rw [Function.update_of_ne hWord]
    constructor
    · exact Or.inr
    · rintro (rfl | hOld)
      · exact absurd rfl hWord
      · exact hOld

/-- The set that a bitmap of so many words stands for. -/
def bmSet (longs : Nat) (bm : Bitmap) : Set Nat := {pos | pos < 64 * longs ∧ bmGetBit bm pos}

end Bits

section Init

/-- `xmalloc`: more than `PTRDIFF_MAX` bytes are never there, and the program exits. -/
def xmalloc (sz : Nat) : Option Bitmap := if sz < 2 ^ 63 then some fun _ => 0#64 else none

/-- `bm_init`: the number of words and the words. The vertex count becomes an `int size`, and the
number of words a `size_t`. -/
def bmInit (nv : Nat) : Option (Nat × Bitmap) :=
  let size : Int := (nv : Int).bmod (2 ^ 32)
  let numLongs : Int := ((size + 63).bmod (2 ^ 32)).tdiv 64
  (xmalloc (8 * numLongs % 2 ^ 64).toNat).map fun start =>
    (numLongs.toNat, bmReset numLongs.toNat start)

theorem numLongs_bounds {size : Nat} (h : size + 63 < 2 ^ 31) :
    size ≤ 64 * numLongs size ∧ 64 * numLongs size ≤ 2 ^ 32 := by
  rw [numLongs_eq h]
  omega

theorem bmInit_eq {nv : Nat} (h : nv + 63 < 2 ^ 31) :
    ∃ bm, bmInit nv = some (numLongs nv, bm) ∧ bmSet (numLongs nv) bm = ∅ := by
  have hSum : ((nv : Int) + 63).bmod (2 ^ 32) = ((nv + 63 : Nat) : Int) :=
    Int.bmod_eq_of_le_mul_two (by omega) (by omega)
  have hLongs : ((nv + 63 : Nat) : Int).tdiv 64 = ((nv + 63) / 64 : Nat) := by
    rw [Int.natCast_tdiv_eq_ediv]
    rfl
  have hBytes : (8 * (((nv + 63) / 64 : Nat) : Int) % 2 ^ 64).toNat < 2 ^ 63 := by omega
  refine ⟨bmReset (numLongs nv) fun _ => 0#64, ?_, Set.eq_empty_of_forall_notMem fun pos hPos => ?_⟩
  · rw [bmInit, Int.bmod_add_bmod, hSum, hLongs, xmalloc, if_pos hBytes, numLongs_eq h]
    rfl
  · exact bmGetBit_reset hPos.1 _ hPos.2

/-- From `2 ^ 31 - 63` on the sum or the count itself is a negative `int`, and the size asked for is
close to `2 ^ 64`; the last counts give no words at all. -/
theorem bmInit_isSome_iff {nv : Nat} (hWords : nv ≤ 2 ^ 32) :
    (bmInit nv).isSome ↔ nv + 63 < 2 ^ 31 ∨ 2 ^ 32 - 126 ≤ nv := by
  constructor
  · intro hSome
    by_contra hBetween
    have hSum : ((nv : Int) + 63).bmod (2 ^ 32) = -((2 ^ 32 - 63 - nv : Nat) : Int) := by
      rw [Int.bmod_def]
      omega
    have hLongs : (-((2 ^ 32 - 63 - nv : Nat) : Int)).tdiv 64 =
        -(((2 ^ 32 - 63 - nv) / 64 : Nat) : Int) := by
      rw [Int.neg_tdiv, Int.natCast_tdiv_eq_ediv]
      rfl
    have hBytes : ¬ (8 * -(((2 ^ 32 - 63 - nv) / 64 : Nat) : Int) % 2 ^ 64).toNat < 2 ^ 63 := by
      omega
    rw [bmInit, Int.bmod_add_bmod, hSum, hLongs, xmalloc, if_neg hBytes] at hSome
    cases hSome
  · rintro (hSmall | hLast)
    · obtain ⟨bm, hInit, -⟩ := bmInit_eq hSmall
      rw [hInit]
      rfl
    · have hSum : ((nv : Int) + 63).bmod (2 ^ 32) = (nv : Int) + 63 - 2 ^ 32 := by
        rw [Int.bmod_def]
        omega
      have hLongs : ((nv : Int) + 63 - 2 ^ 32).tdiv 64 = 0 := by
        obtain hPos | hNeg := Int.le_total 0 ((nv : Int) + 63 - 2 ^ 32)
        · exact Int.tdiv_eq_zero_of_lt hPos (by omega)
        · rw [← Int.neg_neg ((nv : Int) + 63 - 2 ^ 32), Int.neg_tdiv,
            Int.tdiv_eq_zero_of_lt (by omega) (by omega), Int.neg_zero]
      rw [bmInit, Int.bmod_add_bmod, hSum, hLongs]
      rfl

end Init

section NextBit

/-- `while(!(temp&1)) { temp = temp >> 1; next++; }` -/
def skipZeros : Nat → BitVec 64 → Nat → Nat
  | 0, _, next => next
  | fuel + 1, temp, next => if temp &&& 1#64 = 0#64 then skipZeros fuel (temp >>> 1) (next + 1) else next

/-- `while (!temp) { it++; if (it >= bm->end) return -1; temp = *it; next += 64; }` -/
def skipWords (longs : Nat) (bm : Bitmap) : Nat → Nat → BitVec 64 → Nat → Option (BitVec 64 × Nat)
  | 0, _, _, _ => none
  | fuel + 1, it, temp, next =>
    if temp = 0#64 then
      if it + 1 ≥ longs then none else skipWords longs bm fuel (it + 1) (bm (it + 1)) (next + 64)
    else some (temp, next)

/-- `bm_get_next_bit`, where `none` is -1. -/
def bmGetNextBit (longs : Nat) (bm : Bitmap) (pos : Nat) : Option Nat :=
  let word := bm (wordOffset pos)
  let temp := if bitOffset pos ≠ 63 then word >>> (bitOffset pos + 1) else 0#64
  if temp = 0#64 then
    (skipWords longs bm (longs + 1) (wordOffset pos) temp (pos &&& 0xffffffc0)).map
      fun (temp, next) => skipZeros 64 temp next
  else some (skipZeros 64 temp (pos + 1))

theorem skipZeros_spec {fuel : Nat} {temp : BitVec 64} (next : Nat)
    (hSome : ∃ k < fuel, temp.getLsbD k = true) :
    ∃ k < fuel, temp.getLsbD k = true ∧ (∀ i < k, temp.getLsbD i = false) ∧
      skipZeros fuel temp next = next + k := by
  induction fuel generalizing temp next with
  | zero => obtain ⟨k, hk, _⟩ := hSome; omega
  | succ fuel ih =>
    have hBit : temp &&& 1#64 = 0#64 ↔ temp.getLsbD 0 = false := by
      have hMask : bitMask 0 = 1#64 := rfl
      have hGet := bmGetBit_iff (fun _ => temp) 0
      rw [bmGetBit, hMask] at hGet
      rw [← Bool.not_eq_true, ← not_iff_not, not_not]
      exact hGet
    rw [skipZeros]
    split
    · rename_i hZero
      obtain ⟨k, hk, hSet⟩ := hSome
      have hShift : ∀ i, (temp >>> 1).getLsbD i = temp.getLsbD (i + 1) := fun i => by
        rw [BitVec.getLsbD_ushiftRight, Nat.add_comm]
      obtain rfl | hPos := Nat.eq_zero_or_pos k
      · rw [hBit.mp hZero] at hSet
        cases hSet
      · obtain ⟨j, hj, hSet', hBefore, hEq⟩ := ih (next + 1)
          ⟨k - 1, by omega, by rw [hShift, Nat.sub_add_cancel hPos]; exact hSet⟩
        refine ⟨j + 1, by omega, (hShift j).symm.trans hSet', fun i hi => ?_, by omega⟩
        obtain rfl | hPos' := Nat.eq_zero_or_pos i
        · exact hBit.mp hZero
        · have hEarlier := hBefore (i - 1) (by omega)
          rwa [hShift, Nat.sub_add_cancel hPos'] at hEarlier
    · rename_i hOne
      rw [hBit, Bool.not_eq_false] at hOne
      exact ⟨0, by omega, hOne, fun i hi => by omega, rfl⟩

theorem exists_getLsbD_of_ne_zero {temp : BitVec 64} (h : temp ≠ 0#64) :
    ∃ k < 64, temp.getLsbD k = true := by
  by_contra hNone
  refine h (BitVec.eq_of_getLsbD_eq fun k hk => ?_)
  rw [BitVec.getLsbD_zero, ← Bool.not_eq_true]
  exact fun hBit => hNone ⟨k, hk, hBit⟩

variable {longs : Nat} {bm : Bitmap}

def IsNext (longs : Nat) (bm : Bitmap) (place : Nat) : Option Nat → Prop
  | some q => place ≤ q ∧ q < 64 * longs ∧ bmGetBit bm q ∧ ∀ r, place ≤ r → r < q → ¬ bmGetBit bm r
  | none => ∀ r, place ≤ r → r < 64 * longs → ¬ bmGetBit bm r

theorem IsNext.earlier {place place' : Nat} {found : Option Nat} (h : IsNext longs bm place found)
    (hLe : place' ≤ place) (hGap : ∀ r, place' ≤ r → r < place → ¬ bmGetBit bm r) :
    IsNext longs bm place' found := by
  cases found with
  | none =>
    intro r hLow hHigh
    rcases Nat.lt_or_ge r place with hLt | hGe
    · exact hGap r hLow hLt
    · exact h r hGe hHigh
  | some q =>
    obtain ⟨hPlace, hEnd, hBit, hBefore⟩ := h
    refine ⟨by omega, hEnd, hBit, fun r hLow hHigh => ?_⟩
    rcases Nat.lt_or_ge r place with hLt | hGe
    · exact hGap r hLow hLt
    · exact hBefore r hGe hHigh

theorem isNext_of_word {it k : Nat} (hIt : it < longs) (hk : k ≤ 63) {temp : BitVec 64}
    (hTemp : temp = bm it >>> k) (hNe : temp ≠ 0#64) :
    IsNext longs bm (64 * it + k) (some (skipZeros 64 temp (64 * it + k))) := by
  obtain ⟨j, hj, hBit, hBefore, hEq⟩ := skipZeros_spec (64 * it + k) (exists_getLsbD_of_ne_zero hNe)
  have hShift : ∀ i, temp.getLsbD i = (bm it).getLsbD (k + i) := fun i => by
    rw [hTemp, BitVec.getLsbD_ushiftRight]
  have hIn : k + j < 64 := by
    by_contra hOut
    rw [hShift, BitVec.getLsbD_of_ge _ _ (by omega)] at hBit
    cases hBit
  have hAt : ∀ i, k + i < 64 → (bmGetBit bm (64 * it + k + i) ↔ temp.getLsbD i = true) := by
    intro i hi
    rw [bmGetBit_iff, hShift, show (64 * it + k + i) / 64 = it by omega,
      show (64 * it + k + i) % 64 = k + i by omega]
  rw [hEq]
  refine ⟨by omega, by omega, (hAt j hIn).mpr hBit, fun r hLow hHigh => ?_⟩
  obtain ⟨i, rfl⟩ := Nat.exists_eq_add_of_le hLow
  rw [hAt i (by omega), hBefore i (by omega)]
  exact Bool.false_ne_true

theorem not_bmGetBit_of_zero {it k : Nat} (hZero : bm it >>> k = 0#64) {r : Nat} (hLow : 64 * it + k ≤ r)
    (hHigh : r < 64 * (it + 1)) : ¬ bmGetBit bm r := by
  have hBit := congrArg (fun w : BitVec 64 => w.getLsbD (r % 64 - k)) hZero
  simp only [BitVec.getLsbD_ushiftRight, BitVec.getLsbD_zero] at hBit
  rw [bmGetBit_iff, show r / 64 = it by omega, show r % 64 = k + (r % 64 - k) by omega, hBit]
  exact Bool.false_ne_true

theorem skipWords_isNext {fuel it : Nat} (hFuel : longs ≤ it + fuel) (hIt : it < longs)
    {temp : BitVec 64} (hTemp : temp = bm it) :
    IsNext longs bm (64 * it)
      ((skipWords longs bm fuel it temp (64 * it)).map fun (temp, next) => skipZeros 64 temp next) := by
  induction fuel generalizing it temp with
  | zero => omega
  | succ fuel ih =>
    rw [skipWords]
    split
    · rename_i hZero
      have hGap : ∀ r, 64 * it ≤ r → r < 64 * (it + 1) → ¬ bmGetBit bm r := fun r hLow hHigh =>
        not_bmGetBit_of_zero (k := 0) (by rw [← hTemp, hZero]; rfl) hLow hHigh
      split
      · rename_i hLast
        exact fun r hLow hHigh => hGap r hLow (by omega)
      · rename_i hMore
        have hNext := ih (by omega) (by omega : it + 1 < longs) rfl
        rw [Nat.mul_succ] at hNext hGap
        exact hNext.earlier (by omega) hGap
    · rename_i hNe
      exact isNext_of_word (k := 0) hIt (by omega) (by rw [hTemp]; exact (BitVec.ushiftRight_zero _).symm) hNe

theorem land_mask {pos : Nat} (hPos : pos < 2 ^ 32) : pos &&& 0xffffffc0 = 64 * (pos / 64) := by
  have hMask : (0xffffffc0 : Nat) = (2 ^ 26 - 1) <<< 6 := by decide
  refine Nat.eq_of_testBit_eq fun i => ?_
  rw [Nat.testBit_and, hMask, Nat.testBit_shiftLeft, Nat.testBit_two_pow_sub_one,
    show 64 * (pos / 64) = (pos >>> 6) <<< 6 by rw [Nat.shiftRight_eq_div_pow, Nat.shiftLeft_eq]; ring,
    Nat.testBit_shiftLeft, Nat.testBit_shiftRight]
  rcases Nat.lt_or_ge i 6 with hLow | hHigh
  · simp [Nat.not_le.mpr hLow]
  · rw [Nat.add_sub_cancel' hHigh]
    rcases Nat.lt_or_ge i 32 with hIn | hOut
    · simp only [ge_iff_le, hHigh, decide_true, show i - 6 < 26 by omega, Bool.and_true, Bool.true_and]
    · rw [Nat.testBit_lt_two_pow (hPos.trans_le (Nat.pow_le_pow_right (by decide) hOut))]
      simp

theorem bmGetNextBit_isNext {pos : Nat} (hPos : pos < 64 * longs) (hSize : 64 * longs ≤ 2 ^ 32) :
    IsNext longs bm (pos + 1) (bmGetNextBit longs bm pos) := by
  have hIt : pos / 64 < longs := by omega
  have hPlace : 64 * (pos / 64) + (pos % 64 + 1) = pos + 1 := by omega
  -- what is left of the word of `pos`
  obtain ⟨temp, hTemp⟩ : ∃ temp, temp = bm (pos / 64) >>> (pos % 64 + 1) := ⟨_, rfl⟩
  have hRest : (if pos % 64 ≠ 63 then bm (pos / 64) >>> (pos % 64 + 1) else 0#64) = temp := by
    split
    · exact hTemp.symm
    · rename_i hLast
      rw [hTemp, not_not.mp hLast, BitVec.ushiftRight_eq_zero (by omega)]
  simp only [bmGetNextBit, wordOffset, bitOffset_eq, hRest]
  split
  · rename_i hZero
    have hGap : ∀ r, pos + 1 ≤ r → r < 64 * (pos / 64 + 1) → ¬ bmGetBit bm r := fun r hLow hHigh =>
      not_bmGetBit_of_zero (hTemp.symm.trans hZero) (by omega) hHigh
    rw [land_mask (by omega), skipWords, if_pos hZero]
    split
    · rename_i hLast
      exact fun r hLow hHigh => hGap r hLow (by omega)
    · rename_i hMore
      have hNext : IsNext longs bm (64 * (pos / 64 + 1))
          ((skipWords longs bm longs (pos / 64 + 1) (bm (pos / 64 + 1)) (64 * (pos / 64 + 1))).map
            fun (temp, next) => skipZeros 64 temp next) := skipWords_isNext (by omega) (by omega) rfl
      rw [Nat.mul_succ] at hNext hGap
      exact hNext.earlier (by omega) hGap
  · rename_i hNe
    have hLast : pos % 64 + 1 ≤ 63 := by
      by_contra hOver
      rw [hTemp, BitVec.ushiftRight_eq_zero (by omega)] at hNe
      exact hNe rfl
    have hNext := isNext_of_word hIt hLast hTemp hNe
    rwa [hPlace] at hNext

end NextBit

end Trident.Graph500
