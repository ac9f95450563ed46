import Mathlib.Data.Set.Function
import Mathlib.Data.Finset.Card
import Mathlib.Data.Int.ConditionallyCompleteOrder
import Mathlib.Data.Int.Interval
import Mathlib.Data.Int.ModEq
import Mathlib.Data.Nat.Prime.Basic
import Trident.Lib.BitMaps
import Trident.Graph500.EdgeList

/-! # Scrambled Kronecker edges

`make_one_edge` descends through the levels of the adjacency matrix and scrambles both ends.
-/

namespace Trident.Graph500

open BitMaps

section Program

/-- `((x >> s) & mask) | ((x & mask) << s)` -/
def swapBits (s : Nat) (mask x : BitVec 64) : BitVec 64 := ((x >>> s) &&& mask) ||| ((x &&& mask) <<< s)

/-- `__builtin_bswap64`, as the code for other compilers has it. -/
def bswap64 (x : BitVec 64) : BitVec 64 :=
  let x := (x >>> 32) ||| (x <<< 32)
  let x := swapBits 16 0x0000FFFF0000FFFF x
  swapBits 8 0x00FF00FF00FF00FF x

/-- The code for `FAST_64BIT_ARITHMETIC`. -/
def bitreverse (x : BitVec 64) : BitVec 64 :=
  let x := bswap64 x
  let x := swapBits 4 0x0F0F0F0F0F0F0F0F x
  let x := swapBits 2 0x3333333333333333 x
  swapBits 1 0x5555555555555555 x

/-- `x >> s`, which is not defined from 64 on. -/
def shiftRight (x : BitVec 64) (s : Nat) : Option (BitVec 64) := if s < 64 then some (x >>> s) else none

/-- `none` is an assertion that fails, or a shift that is not defined. -/
def scramble (v0 : Int) (lgN : Nat) (val0 val1 : BitVec 64) : Option Int := do
  let v := BitVec.ofInt 64 v0
  let v := v + (val0 + val1)
  let v := v * (val0 ||| 0x4519840211493211)
  let v ← shiftRight (bitreverse v) (64 - lgN)
  if v >>> lgN ≠ 0 then none
  else
    let v := v * (val1 ||| 0x3050852102C843A5)
    let v ← shiftRight (bitreverse v) (64 - lgN)
    if v >>> lgN ≠ 0 then none
    else some v.toInt

/-- Clip-and-flip for undirected graph. -/
def clip (baseSrc baseTgt : Int) (srcOffset tgtOffset : Nat) : Nat × Nat :=
  if baseSrc = baseTgt ∧ srcOffset > tgtOffset then (tgtOffset, srcOffset) else (srcOffset, tgtOffset)

section Generators

variable {S : Type} (generate : S → Option (Fin 4 × S))

/-- The loop of `make_one_edge`, where `generate` is `generate_4way_bernoulli` on the state of a
generator. -/
def descendBy (st : S) (nverts : Nat) (baseSrc baseTgt : Int) : Option (Int × Int) :=
  if nverts > 1 then do
    let (square, st) ← generate st
    if baseSrc ≤ baseTgt then
      let offsets := clip baseSrc baseTgt (square.val / 2) (square.val % 2)
      descendBy st (nverts / 2) (baseSrc + (nverts / 2 : Nat) * offsets.1)
        (baseTgt + (nverts / 2 : Nat) * offsets.2)
    else none
  else some (baseSrc, baseTgt)
termination_by nverts

def makeOneEdgeBy (st : S) (lgN : Nat) (val0 val1 : BitVec 64) : Option PackedEdge := do
  let (baseSrc, baseTgt) ← descendBy generate st (2 ^ lgN) 0 0
  let v0 ← scramble baseSrc lgN val0 val1
  let v1 ← scramble baseTgt lgN val0 val1
  some (writeEdge v0 v1)

end Generators

/-- Any outcomes, one for each level. -/
def outcomes (square : Nat → Fin 4) (level : Nat) : Option (Fin 4 × Nat) := some (square level, level + 1)

def descend (square : Nat → Fin 4) (nverts level : Nat) : Int → Int → Option (Int × Int) :=
  descendBy (outcomes square) level nverts

def makeOneEdge (square : Nat → Fin 4) : Nat → BitVec 64 → BitVec 64 → Option PackedEdge :=
  makeOneEdgeBy (outcomes square) 0

end Program

section Reversal

theorem swapBits_orAdditive {f : BitVec 64 → BitVec 64} (hf : OrAdditive f) (s : Nat) (mask : BitVec 64) :
    OrAdditive fun x => swapBits s mask (f x) :=
  ((hf.ushiftRight s).and mask).or ((hf.and mask).shiftLeft s)

theorem bitreverse_eq_reverse (x : BitVec 64) : bitreverse x = x.reverse := by
  have hHalves : OrAdditive fun x : BitVec 64 => (x >>> 32) ||| (x <<< 32) :=
    (OrAdditive.self.ushiftRight 32).or (OrAdditive.self.shiftLeft 32)
  have hStages : OrAdditive bitreverse :=
    swapBits_orAdditive (swapBits_orAdditive (swapBits_orAdditive (swapBits_orAdditive
      (swapBits_orAdditive hHalves 16 _) 8 _) 4 _) 2 _) 1 _
  have hBits : ∀ k : Fin 64, bitreverse (BitVec.twoPow 64 k) = (BitVec.twoPow 64 k).reverse := by decide +kernel
  apply hStages.ext OrAdditive.reverse
  · decide +kernel
  · exact fun k hk => hBits ⟨k, hk⟩

theorem keptBits (v : BitVec 64) {lgN i : Nat} (hi : i < lgN) (hL : lgN ≤ 64) :
    (bitreverse v >>> (64 - lgN)).toNat.testBit i = v.toNat.testBit (lgN - 1 - i) := by
  rw [BitVec.testBit_toNat, BitVec.testBit_toNat, BitVec.getLsbD_ushiftRight, bitreverse_eq_reverse,
    BitVec.getLsbD_reverse, BitVec.getMsbD_eq_getLsbD]
  have hIndex : 64 - 1 - (64 - lgN + i) = lgN - 1 - i := by omega
  have hBound : 64 - lgN + i < 64 := by omega
  rw [hIndex, decide_eq_true hBound, Bool.true_and]

theorem kept_lt (v : BitVec 64) {lgN : Nat} (hL : lgN ≤ 64) : (v >>> (64 - lgN)).toNat < 2 ^ lgN := by
  rw [BitVec.toNat_ushiftRight, Nat.shiftRight_eq_div_pow]
  apply Nat.div_lt_of_lt_mul
  rw [← Nat.pow_add, Nat.sub_add_cancel hL]
  exact v.isLt

theorem kept_injective {v w : BitVec 64} {lgN : Nat} (hL : lgN ≤ 64)
    (h : bitreverse v >>> (64 - lgN) = bitreverse w >>> (64 - lgN)) :
    v.toNat ≡ w.toNat [MOD 2 ^ lgN] := by
  apply Nat.eq_of_testBit_eq
  intro i
  rw [Nat.testBit_mod_two_pow, Nat.testBit_mod_two_pow]
  cases Nat.lt_or_ge i lgN with
  | inl hi =>
    have hBit : lgN - 1 - i < lgN := by omega
    have hKept := keptBits v hBit hL
    rw [h, keptBits w hBit hL] at hKept
    have hIndex : lgN - 1 - (lgN - 1 - i) = i := by omega
    rw [hIndex] at hKept
    rw [hKept]
  | inr hi => rw [decide_eq_false (Nat.not_lt.mpr hi), Bool.false_and, Bool.false_and]

end Reversal

section Scrambling

variable {lgN : Nat}

/-- A round of `scramble`: an addition, a multiplication by an odd word, and the low bits reversed. -/
def scrambleRound (lgN : Nat) (c a v : BitVec 64) : BitVec 64 := bitreverse ((v + c) * a) >>> (64 - lgN)

theorem scrambleRound_lt (hL : lgN ≤ 64) (c a v : BitVec 64) : (scrambleRound lgN c a v).toNat < 2 ^ lgN :=
  kept_lt _ hL

theorem scrambleRound_injective {c a v w : BitVec 64} (hL : lgN ≤ 64) (ha : a.toNat % 2 = 1)
    (hv : v.toNat < 2 ^ lgN) (hw : w.toNat < 2 ^ lgN)
    (h : scrambleRound lgN c a v = scrambleRound lgN c a w) : v = w := by
  have hDvd : 2 ^ lgN ∣ 2 ^ 64 := Nat.pow_dvd_pow 2 hL
  have hWord : ∀ x : BitVec 64, ((x + c) * a).toNat ≡ (x.toNat + c.toNat) * a.toNat [MOD 2 ^ lgN] := by
    intro x
    rw [BitVec.toNat_mul, BitVec.toNat_add]
    apply Nat.ModEq.trans ((Nat.mod_modEq _ (2 ^ 64)).of_dvd hDvd)
    exact ((Nat.mod_modEq _ (2 ^ 64)).of_dvd hDvd).mul_right a.toNat
  have hProducts : (v.toNat + c.toNat) * a.toNat ≡ (w.toNat + c.toNat) * a.toNat [MOD 2 ^ lgN] :=
    (hWord v).symm.trans ((kept_injective hL h).trans (hWord w))
  have hCoprime : Nat.gcd (2 ^ lgN) a.toNat = 1 :=
    Nat.Coprime.pow_left lgN (Nat.coprime_two_left.mpr (Nat.odd_iff.mpr ha))
  have hSums := Nat.ModEq.cancel_right_of_coprime hCoprime hProducts
  have hSame := Nat.ModEq.add_right_cancel' c.toNat hSums
  apply BitVec.eq_of_toNat_eq
  rwa [Nat.ModEq, Nat.mod_eq_of_lt hv, Nat.mod_eq_of_lt hw] at hSame

theorem odd_or (x : BitVec 64) {mask : BitVec 64} (hMask : mask.toNat.testBit 0 = true) :
    (x ||| mask).toNat % 2 = 1 := by
  have hBit : (x ||| mask).toNat.testBit 0 = true := by
    rw [BitVec.toNat_or, Nat.testBit_or, hMask, Bool.or_true]
  rwa [Nat.testBit_zero, decide_eq_true_eq] at hBit

/-- The value that `scramble` computes. -/
def scrambled (lgN : Nat) (val0 val1 v : BitVec 64) : BitVec 64 :=
  scrambleRound lgN 0 (val1 ||| 0x3050852102C843A5)
    (scrambleRound lgN (val0 + val1) (val0 ||| 0x4519840211493211) v)

theorem scramble_eq (hPos : 1 ≤ lgN) (hL : lgN ≤ 31) (val0 val1 : BitVec 64) (v0 : Int) :
    scramble v0 lgN val0 val1 = some ((scrambled lgN val0 val1 (BitVec.ofInt 64 v0)).toNat : Int) := by
  have hShift : ∀ x : BitVec 64, x.toNat < 2 ^ lgN → ¬ x >>> lgN ≠ 0 := by
    intro x hx
    rw [not_ne_iff]
    apply BitVec.eq_of_toNat_eq
    rw [BitVec.toNat_ushiftRight, Nat.shiftRight_eq_div_pow, Nat.div_eq_of_lt hx]
    rfl
  have hFirst := scrambleRound_lt (hL.trans (by decide)) (val0 + val1) (val0 ||| 0x4519840211493211)
    (BitVec.ofInt 64 v0)
  have hLast := scrambleRound_lt (hL.trans (by decide)) 0 (val1 ||| 0x3050852102C843A5)
    (scrambleRound lgN (val0 + val1) (val0 ||| 0x4519840211493211) (BitVec.ofInt 64 v0))
  have hSmall : 2 ^ lgN ≤ 2 ^ 31 := Nat.pow_le_pow_right (by decide) hL
  have hInt : (scrambled lgN val0 val1 (BitVec.ofInt 64 v0)).toInt =
      ((scrambled lgN val0 val1 (BitVec.ofInt 64 v0)).toNat : Int) := by
    apply BitVec.toInt_eq_toNat_of_lt
    rw [scrambled]
    omega
  have hZero : ∀ x : BitVec 64, x + 0 = x := fun x => BitVec.add_zero x
  have hDefined : ∀ x, shiftRight x (64 - lgN) = some (x >>> (64 - lgN)) := fun x => if_pos (by omega)
  rw [← hInt, scramble, scrambled]
  simp only [scrambleRound, hZero] at hFirst hLast ⊢
  simp only [hDefined, Option.bind_eq_bind, Option.bind_some]
  rw [if_neg (hShift _ hFirst), if_neg (hShift _ hLast)]

theorem scrambled_lt (hL : lgN ≤ 64) (val0 val1 v : BitVec 64) : (scrambled lgN val0 val1 v).toNat < 2 ^ lgN :=
  scrambleRound_lt hL _ _ _

theorem scrambled_injective {val0 val1 v w : BitVec 64} (hL : lgN ≤ 64) (hv : v.toNat < 2 ^ lgN)
    (hw : w.toNat < 2 ^ lgN) (h : scrambled lgN val0 val1 v = scrambled lgN val0 val1 w) : v = w := by
  have hInner := scrambleRound_injective hL (odd_or val1 (by decide)) (scrambleRound_lt hL _ _ v)
    (scrambleRound_lt hL _ _ w) h
  exact scrambleRound_injective hL (odd_or val0 (by decide)) hv hw hInner

theorem scrambled_bijOn (hL : lgN ≤ 31) (val0 val1 : BitVec 64) :
    Set.BijOn (fun v0 : Int => ((scrambled lgN val0 val1 (BitVec.ofInt 64 v0)).toNat : Int))
      (Set.Ico 0 (2 ^ lgN)) (Set.Ico 0 (2 ^ lgN)) := by
  have hSmall : 2 ^ lgN ≤ 2 ^ 31 := Nat.pow_le_pow_right (by decide) hL
  have hL' : lgN ≤ 64 := hL.trans (by decide)
  have hMaps : Set.MapsTo (fun v0 : Int => ((scrambled lgN val0 val1 (BitVec.ofInt 64 v0)).toNat : Int))
      (Finset.Ico (0 : Int) (2 ^ lgN)) (Finset.Ico (0 : Int) (2 ^ lgN)) := by
    intro v _
    rw [Finset.coe_Ico]
    have hLt := scrambled_lt hL' val0 val1 (BitVec.ofInt 64 v)
    dsimp only
    constructor
    · exact Int.natCast_nonneg _
    · exact_mod_cast hLt
  have hInj : Set.InjOn (fun v0 : Int => ((scrambled lgN val0 val1 (BitVec.ofInt 64 v0)).toNat : Int))
      (Finset.Ico (0 : Int) (2 ^ lgN)) := by
    have hWord : ∀ v : Int, v ∈ Set.Ico (0 : Int) (2 ^ lgN) →
        ((BitVec.ofInt 64 v).toNat : Int) = v ∧ (BitVec.ofInt 64 v).toNat < 2 ^ lgN := by
      rintro v ⟨hLow, hHigh⟩
      obtain ⟨n, rfl⟩ := Int.eq_ofNat_of_zero_le hLow
      have hn : n < 2 ^ lgN := by exact_mod_cast hHigh
      have hNat : (BitVec.ofInt 64 (n : Int)).toNat = n := by
        rw [BitVec.ofInt_natCast, BitVec.toNat_ofNat]
        exact Nat.mod_eq_of_lt (by omega)
      rw [hNat]
      exact ⟨rfl, hn⟩
    intro v hv w hw hEq
    rw [Finset.coe_Ico] at hv hw
    obtain ⟨hvWord, hvLt⟩ := hWord v hv
    obtain ⟨hwWord, hwLt⟩ := hWord w hw
    have hSame := scrambled_injective hL' hvLt hwLt (BitVec.eq_of_toNat_eq (Int.natCast_inj.mp hEq))
    rw [← hvWord, ← hwWord, hSame]
  have hSurj := Finset.surjOn_of_injOn_of_card_le _ hMaps hInj le_rfl
  rw [← Finset.coe_Ico]
  exact ⟨hMaps, hInj, hSurj⟩

end Scrambling

section Descent

variable {lgN : Nat}

/-- The two ends in a block of `width` rows: on the diagonal, or `width` apart at least. -/
structure Aligned (width : Nat) (bound baseSrc baseTgt : Int) : Prop where
  nonneg : 0 ≤ baseSrc
  inside : baseTgt + width ≤ bound
  apart : baseSrc = baseTgt ∨ baseSrc + width ≤ baseTgt

theorem Aligned.le {width : Nat} {bound baseSrc baseTgt : Int} (h : Aligned width bound baseSrc baseTgt) :
    baseSrc ≤ baseTgt := by
  cases h.apart with
  | inl hEq => exact hEq.le
  | inr hApart => omega

/-- A quadrant of the block; above the diagonal where the block is on it. -/
theorem Aligned.quadrant {half : Nat} {bound baseSrc baseTgt : Int}
    (h : Aligned (2 * half) bound baseSrc baseTgt) {srcOffset tgtOffset : Nat} (hSrc : srcOffset < 2)
    (hTgt : tgtOffset < 2) (hFlip : baseSrc = baseTgt → srcOffset ≤ tgtOffset) :
    Aligned half bound (baseSrc + half * srcOffset) (baseTgt + half * tgtOffset) := by
  have hNonneg := h.nonneg
  have hInside := h.inside
  have hApart := h.apart
  push_cast at hInside hApart
  obtain rfl | rfl : srcOffset = 0 ∨ srcOffset = 1 := by omega
  · obtain rfl | rfl : tgtOffset = 0 ∨ tgtOffset = 1 := by omega
    all_goals constructor <;> push_cast <;> omega
  · obtain rfl | rfl : tgtOffset = 0 ∨ tgtOffset = 1 := by omega
    all_goals constructor <;> push_cast <;> omega

theorem clip_spec (baseSrc baseTgt : Int) (square : Fin 4) :
    (clip baseSrc baseTgt (square.val / 2) (square.val % 2)).1 < 2 ∧
      (clip baseSrc baseTgt (square.val / 2) (square.val % 2)).2 < 2 ∧
      (baseSrc = baseTgt → (clip baseSrc baseTgt (square.val / 2) (square.val % 2)).1 ≤
        (clip baseSrc baseTgt (square.val / 2) (square.val % 2)).2) := by
  have hSquare := square.isLt
  rw [clip]
  split
  · next hFlip => exact ⟨by omega, by omega, fun _ => by omega⟩
  · next hStay => exact ⟨by omega, by omega, fun hEq => by omega⟩

section Draws

variable {S : Type} {generate : S → Option (Fin 4 × S)} {Live : S → Prop}

theorem descendBy_spec (hLive : ∀ st, Live st → ∃ square st', generate st = some (square, st') ∧ Live st')
    (k : Nat) {st : S} (hSt : Live st) {bound baseSrc baseTgt : Int}
    (h : Aligned (2 ^ k) bound baseSrc baseTgt) :
    ∃ s t, descendBy generate st (2 ^ k) baseSrc baseTgt = some (s, t) ∧ 0 ≤ s ∧ s ≤ t ∧ t < bound := by
  induction k generalizing st baseSrc baseTgt with
  | zero =>
    have hInside := h.inside
    refine ⟨baseSrc, baseTgt, ?_, h.nonneg, h.le, ?_⟩
    · rw [descendBy, if_neg (by decide)]
    · push_cast at hInside
      omega
  | succ k ih =>
    have hMore : 2 ^ (k + 1) > 1 := Nat.one_lt_two_pow (Nat.succ_ne_zero k)
    have hHalf : 2 ^ (k + 1) / 2 = 2 ^ k := by rw [Nat.pow_succ, Nat.mul_div_cancel _ (by decide)]
    rw [Nat.pow_succ, Nat.mul_comm] at h
    obtain ⟨square, st', hDraw, hSt'⟩ := hLive st hSt
    obtain ⟨hSrc, hTgt, hFlip⟩ := clip_spec baseSrc baseTgt square
    obtain ⟨s, t, hRest, hBounds⟩ := ih hSt' (h.quadrant hSrc hTgt hFlip)
    refine ⟨s, t, ?_, hBounds⟩
    rw [descendBy, if_pos hMore, hDraw, Option.bind_eq_bind, Option.bind_some]
    dsimp only
    rw [if_pos h.le, hHalf]
    exact hRest

/-- A generator that goes on makes an edge of two vertices, which are those of the descent,
scrambled. -/
theorem makeOneEdgeBy_spec (hLive : ∀ st, Live st → ∃ square st', generate st = some (square, st') ∧ Live st')
    {st : S} (hSt : Live st) (hPos : 1 ≤ lgN) (hL : lgN ≤ 31) (val0 val1 : BitVec 64) :
    ∃ baseSrc baseTgt e, descendBy generate st (2 ^ lgN) 0 0 = some (baseSrc, baseTgt) ∧
      baseSrc ∈ Set.Ico 0 (2 ^ lgN) ∧ baseTgt ∈ Set.Ico 0 (2 ^ lgN) ∧
      makeOneEdgeBy generate st lgN val0 val1 = some e ∧ scramble baseSrc lgN val0 val1 = some (e.i : Int) ∧
      scramble baseTgt lgN val0 val1 = some (e.j : Int) ∧ e.i < 2 ^ lgN ∧ e.j < 2 ^ lgN := by
  have hStart : Aligned (2 ^ lgN) (2 ^ lgN) 0 0 := ⟨le_rfl, by push_cast; omega, .inl rfl⟩
  obtain ⟨s, t, hDescend, hs, hLe, ht⟩ := descendBy_spec hLive lgN hSt hStart
  have hSmall : 2 ^ lgN ≤ 2 ^ 31 := Nat.pow_le_pow_right (by decide) hL
  have hEnd : ∀ v0, (scrambled lgN val0 val1 (BitVec.ofInt 64 v0)).toNat < 2 ^ lgN := fun v0 =>
    scrambled_lt (hL.trans (by decide)) val0 val1 _
  have hFits : ∀ v0, 0 ≤ ((scrambled lgN val0 val1 (BitVec.ofInt 64 v0)).toNat : Int) ∧
      ((scrambled lgN val0 val1 (BitVec.ofInt 64 v0)).toNat : Int) < 2 ^ 32 := by
    intro v0
    have hLt := hEnd v0
    omega
  obtain ⟨hi, hj⟩ := writeEdge_fits (hFits s) (hFits t)
  have hEdge : makeOneEdgeBy generate st lgN val0 val1 =
      some (writeEdge ((scrambled lgN val0 val1 (BitVec.ofInt 64 s)).toNat : Int)
        ((scrambled lgN val0 val1 (BitVec.ofInt 64 t)).toNat : Int)) := by
    rw [makeOneEdgeBy, hDescend]
    simp only [Option.bind_eq_bind, Option.bind_some, scramble_eq hPos hL]
  refine ⟨s, t, _, hDescend, ⟨hs, hLe.trans_lt ht⟩, ⟨hs.trans hLe, ht⟩, hEdge, ?_, ?_, ?_, ?_⟩
  · rw [scramble_eq hPos hL, hi]
  · rw [scramble_eq hPos hL, hj]
  · rw [Int.natCast_inj.mp hi]
    exact hEnd s
  · rw [Int.natCast_inj.mp hj]
    exact hEnd t

end Draws

/-- The scrambling is a permutation of the vertices, and every run of outcomes makes an edge between
two of them. -/
theorem kronecker_edges (hPos : 1 ≤ lgN) (hL : lgN ≤ 31) (val0 val1 : BitVec 64) :
    (∃ f : Int → Int, (∀ v0 ∈ Set.Ico 0 (2 ^ lgN), scramble v0 lgN val0 val1 = some (f v0)) ∧
      Set.BijOn f (Set.Ico 0 (2 ^ lgN)) (Set.Ico 0 (2 ^ lgN))) ∧
    ∀ square : Nat → Fin 4, ∃ baseSrc baseTgt e,
      descend square (2 ^ lgN) 0 0 0 = some (baseSrc, baseTgt) ∧
      baseSrc ∈ Set.Ico 0 (2 ^ lgN) ∧ baseTgt ∈ Set.Ico 0 (2 ^ lgN) ∧
      makeOneEdge square lgN val0 val1 = some e ∧ scramble baseSrc lgN val0 val1 = some (e.i : Int) ∧
      scramble baseTgt lgN val0 val1 = some (e.j : Int) ∧ e.i < 2 ^ lgN ∧ e.j < 2 ^ lgN := by
  constructor
  · exact ⟨_, fun v0 _ => scramble_eq hPos hL val0 val1 v0, scrambled_bijOn hL val0 val1⟩
  · intro square
    have hLive : ∀ level, True → ∃ drawn next, outcomes square level = some (drawn, next) ∧ True :=
      fun level _ => ⟨_, _, rfl, trivial⟩
    exact makeOneEdgeBy_spec hLive trivial hPos hL val0 val1

theorem kronecker_edges_largest :
    (∃ f : Int → Int, (∀ v0 ∈ Set.Ico 0 (2 ^ 31), scramble v0 31 7 11 = some (f v0)) ∧
      Set.BijOn f (Set.Ico 0 (2 ^ 31)) (Set.Ico 0 (2 ^ 31))) ∧
    ∀ square : Nat → Fin 4, ∃ baseSrc baseTgt e,
      descend square (2 ^ 31) 0 0 0 = some (baseSrc, baseTgt) ∧
      baseSrc ∈ Set.Ico 0 (2 ^ 31) ∧ baseTgt ∈ Set.Ico 0 (2 ^ 31) ∧
      makeOneEdge square 31 7 11 = some e ∧ scramble baseSrc 31 7 11 = some (e.i : Int) ∧
      scramble baseTgt 31 7 11 = some (e.j : Int) ∧ e.i < 2 ^ 31 ∧ e.j < 2 ^ 31 :=
  kronecker_edges (by decide) (by decide) 7 11

end Descent

end Trident.Graph500
