import Trident.Graph500.KroneckerEdges
import Trident.Graph500.Bernoulli

/-! # The generated edges

`make_graph`, where each edge has a place of its own in the stream of the generator, so that every
process makes its own range of them, and `make_random_numbers`.
-/

namespace Trident.Graph500

open Function

section Program

/-- 30 bits of a seed, and one more; the sum is in the range of `mrg_seed`. -/
def seedPart (userseed : BitVec 64) : Residue where
  val := (userseed &&& 0x3FFFFFFF).toNat + 1
  isLt := by
    rw [BitVec.toNat_and]
    exact Nat.lt_of_le_of_lt (Nat.succ_le_succ Nat.and_le_right) (by decide)

/-- The state that `mrg_seed` takes from the five values. -/
def makeMrgSeed (userseed1 userseed2 : BitVec 64) : MrgState where
  z1 := seedPart userseed1
  z2 := seedPart (userseed1 >>> 30)
  z3 := seedPart userseed2
  z4 := seedPart (userseed2 >>> 30)
  z5 :=
    { val := ((userseed2 >>> 60) <<< 4).toNat + (userseed1 >>> 60).toNat + 1
      isLt := by
        have hFirst := userseed1.isLt
        have hSecond := userseed2.isLt
        rw [BitVec.toNat_shiftLeft, BitVec.toNat_ushiftRight, BitVec.toNat_ushiftRight,
          Nat.shiftRight_eq_div_pow, Nat.shiftRight_eq_div_pow, Nat.shiftLeft_eq]
        omega }

/-- `count` calls of `mrg_get_double_orig` -/
def drawDoubles {α : Type} (real : Residue → Residue → α) : Nat → MrgState → List α
  | 0, _ => []
  | count + 1, st =>
    let (value, st) := mrgGetDoubleOrig real st
    value :: drawDoubles real count st

def makeRandomNumbers {α : Type} (real : Residue → Residue → α) (nvalues : Nat)
    (userseed1 userseed2 position : BitVec 64) : Option (List α) := do
  let st ← mrgSkip (makeMrgSeed userseed1 userseed2) 2 0 (2 * position)
  return drawDoubles real nvalues st

end Program

section Seeds

end Seeds

section Edges

variable {fuel lgN : Nat} {st : MrgState}

end Edges

section Ranges

end Ranges

section Doubles

theorem drawDoubles_succ {α : Type} (real : Residue → Residue → α) (count : Nat) (st : MrgState) :
    drawDoubles real (count + 1) st = real (mrgOrigStep st).z1 (mrgOrigStep (mrgOrigStep st)).z1 ::
      drawDoubles real count (mrgOrigStep (mrgOrigStep st)) := by
  rw [drawDoubles]
  dsimp only [mrgGetDoubleOrig, mrgGetUintOrig]

theorem drawDoubles_add {α : Type} (real : Residue → Residue → α) (m n : Nat) (st : MrgState) :
    drawDoubles real (m + n) st = drawDoubles real m st ++ drawDoubles real n (mrgOrigStep^[2 * m] st) := by
  induction m generalizing st with
  | zero =>
    rw [Nat.zero_add, drawDoubles, List.nil_append, Nat.mul_zero, iterate_zero_apply]
  | succ m ih =>
    rw [Nat.mul_succ, iterate_succ_apply, iterate_succ_apply, Nat.add_right_comm, drawDoubles_succ,
      drawDoubles_succ, ih, List.cons_append]

/-- A call gives the values from its position on, in whatever calls they are asked for. -/
theorem makeRandomNumbers_add {α : Type} (real : Residue → Residue → α) (m n : Nat)
    (userseed1 userseed2 : BitVec 64) {position : Nat} (hPosition : position + m < 2 ^ 63) :
    ∃ first second, makeRandomNumbers real m userseed1 userseed2 (BitVec.ofNat 64 position) = some first ∧
      makeRandomNumbers real n userseed1 userseed2 (BitVec.ofNat 64 (position + m)) = some second ∧
      makeRandomNumbers real (m + n) userseed1 userseed2 (BitVec.ofNat 64 position) = some (first ++ second) := by
  generalize hState : makeMrgSeed userseed1 userseed2 = state
  have hTwice : ∀ p < 2 ^ 63, (2 * BitVec.ofNat 64 p).toNat = 2 * p := by
    intro p hp
    have hTwo : (2 : BitVec 64).toNat = 2 := rfl
    rw [BitVec.toNat_mul, hTwo, BitVec.toNat_ofNat, Nat.mod_eq_of_lt (a := p) (by omega),
      Nat.mod_eq_of_lt (by omega)]
  obtain ⟨base, hSkip⟩ : ∃ base, ∀ p < 2 ^ 63, mrgSkip state 2 0 (2 * BitVec.ofNat 64 p) =
      some (mrgOrigStep^[2 * p] (mrgOrigStep^[base] state)) := by
    refine ⟨(2 : BitVec 64).toNat * 2 ^ 128 + (0 : BitVec 64).toNat * 2 ^ 64, fun p hp => ?_⟩
    rw [skip_steps, hTwice p hp, Nat.add_comm, iterate_add_apply]
  have hCall : ∀ count, ∀ p < 2 ^ 63, makeRandomNumbers real count userseed1 userseed2 (BitVec.ofNat 64 p) =
      some (drawDoubles real count (mrgOrigStep^[2 * p] (mrgOrigStep^[base] state))) := by
    intro count p hp
    rw [makeRandomNumbers, hState, hSkip p hp]
    rfl
  refine ⟨_, _, hCall m position (by omega), hCall n (position + m) hPosition, ?_⟩
  rw [hCall (m + n) position (by omega), drawDoubles_add, Nat.mul_add, Nat.add_comm (2 * position),
    iterate_add_apply mrgOrigStep (2 * m)]

theorem makeRandomNumbers_three : ∃ first second,
    makeRandomNumbers Prod.mk 2 1 2 (BitVec.ofNat 64 5) = some first ∧
      makeRandomNumbers Prod.mk 1 1 2 (BitVec.ofNat 64 (5 + 2)) = some second ∧
      makeRandomNumbers Prod.mk (2 + 1) 1 2 (BitVec.ofNat 64 5) = some (first ++ second) :=
  makeRandomNumbers_add Prod.mk 2 1 1 2 (by decide)

end Doubles

end Trident.Graph500
