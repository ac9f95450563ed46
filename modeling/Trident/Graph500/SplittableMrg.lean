import Trident.Lib.SkipAhead
import Trident.Graph500.ModArith

/-! # The splittable generator

`splittable_mrg.c`: a multiple recursive generator of order five, its transition matrices, and the table
of their powers by which `mrg_skip` goes ahead. The table `mrg_transitions.c` is what `dump_mrg_powers`
writes.
-/

namespace Trident.Graph500

open Function SkipAhead

section Program

@[ext]
structure MrgState where
  z1 : Residue
  z2 : Residue
  z3 : Residue
  z4 : Residue
  z5 : Residue
deriving DecidableEq

/-- The last row of a power of the matrix, and a cache for other parts. -/
structure TransitionMatrix where
  s : Residue
  t : Residue
  u : Residue
  v : Residue
  w : Residue
  a : Residue
  b : Residue
  c : Residue
  d : Residue

def mrgUpdateCache (s t u v w : Residue) : TransitionMatrix :=
  let a := modAdd (modMulX s) t
  let b := modAdd (modMulX a) u
  let c := modAdd (modMulX b) v
  let d := modAdd (modMulX c) w
  ⟨s, t, u, v, w, a, b, c, d⟩

def mrgMakeIdentity : TransitionMatrix := mrgUpdateCache 0 0 0 0 1

/-- Initial RNG transition matrix -/
def mrgMakeA : TransitionMatrix := mrgUpdateCache 0 0 0 1 0

def mrgMultiply (m n : TransitionMatrix) : TransitionMatrix :=
  mrgUpdateCache
    (modMac (modMac (modMac (modMac (modMul m.s n.d) m.t n.c) m.u n.b) m.v n.a) m.w n.s)
    (modMac (modMac (modMac (modMac (modMulY (modMul m.s n.s)) m.t n.w) m.u n.v) m.v n.u) m.w n.t)
    (modMac (modMac (modMac (modMulY (modMac (modMul m.s n.a) m.t n.s)) m.u n.w) m.v n.v) m.w n.u)
    (modMac (modMac (modMulY (modMac (modMac (modMul m.s n.b) m.t n.a) m.u n.s)) m.v n.w) m.w n.v)
    (modMac (modMulY (modMac (modMac (modMac (modMul m.s n.c) m.t n.b) m.u n.a) m.v n.s)) m.w n.w)

def mrgPower (m : TransitionMatrix) (exponent : Nat) : TransitionMatrix :=
  powerLoop mrgMultiply mrgMakeIdentity m exponent

def mrgApplyTransition (mat : TransitionMatrix) (st : MrgState) : MrgState where
  z1 := modMacY (modMul mat.d st.z1) (modMac4 0 mat.s st.z2 mat.a st.z3 mat.b st.z4 mat.c st.z5)
  z2 := modMacY (modMac2 0 mat.c st.z1 mat.w st.z2) (modMac3 0 mat.s st.z3 mat.a st.z4 mat.b st.z5)
  z3 := modMacY (modMac3 0 mat.b st.z1 mat.v st.z2 mat.w st.z3) (modMac2 0 mat.s st.z4 mat.a st.z5)
  z4 := modMacY (modMac4 0 mat.a st.z1 mat.u st.z2 mat.v st.z3 mat.w st.z4) (modMul mat.s st.z5)
  z5 := modMac2 (modMac3 0 mat.s st.z1 mat.t st.z2 mat.u st.z3) mat.v st.z4 mat.w st.z5

def mrgOrigStep (st : MrgState) : MrgState :=
  ⟨modMacY (modMulX st.z1) st.z5, st.z1, st.z2, st.z3, st.z4⟩

/-- `transitions` of `dump_mrg_powers` -/
def transitions : Nat → TransitionMatrix
  | 0 => mrgMakeA
  | i + 1 => mrgPower (transitions i) 256

/-- An entry of the table; nothing past its 24 rows. -/
def mrgSkipMatrices (byteIndex : Nat) (val : Fin 256) : Option TransitionMatrix :=
  if byteIndex < 192 / 8 then
    some (match val.val with
      | 0 => mrgMakeIdentity
      | 1 => transitions byteIndex
      | j => mrgPower (transitions byteIndex) j)
  else none

/-- One turn of a loop of `mrg_skip`. -/
def skipByte (byteIndex : Nat) (val : Fin 256) (st : MrgState) : Option MrgState :=
  if val ≠ 0 then (mrgSkipMatrices byteIndex val).map (mrgApplyTransition · st) else some st

/-- One of the three loops of `mrg_skip`. -/
def skipBytes (byteIndex : Nat) (exponent : BitVec 64) (st : MrgState) : Option MrgState :=
  if exponent = 0 then some st
  else
    (skipByte byteIndex (Fin.ofNat 256 (exponent &&& 0xFF).toNat) st).bind
      (skipBytes (byteIndex + 1) (exponent >>> 8))
termination_by exponent.toNat
decreasing_by
  rename_i hMore
  have hPos : exponent.toNat ≠ 0 := fun h => hMore (BitVec.eq_of_toNat_eq h)
  rw [BitVec.toNat_ushiftRight, Nat.shiftRight_eq_div_pow]
  exact Nat.div_lt_self (Nat.pos_of_ne_zero hPos) (by decide)

def mrgSkip (st : MrgState) (exponentHigh exponentMiddle exponentLow : BitVec 64) : Option MrgState := do
  let st ← skipBytes 0 exponentLow st
  let st ← skipBytes 8 exponentMiddle st
  skipBytes 16 exponentHigh st

end Program

section Matrices

/-- The factors of the recurrence. -/
abbrev mrgX : ZMod 0x7FFFFFFF := 107374182

abbrev mrgY : ZMod 0x7FFFFFFF := 104480

def MrgState.toState (st : MrgState) : State (ZMod 0x7FFFFFFF) :=
  ⟨st.z1.toZMod, st.z2.toZMod, st.z3.toZMod, st.z4.toZMod, st.z5.toZMod⟩

theorem MrgState.toState_injective : Injective MrgState.toState := by
  intro st st' hSame
  obtain ⟨h1, h2, h3, h4, h5⟩ := State.mk.inj hSame
  exact MrgState.ext (toZMod_injective h1) (toZMod_injective h2) (toZMod_injective h3) (toZMod_injective h4)
    (toZMod_injective h5)

def TransitionMatrix.toRow (m : TransitionMatrix) : Row (ZMod 0x7FFFFFFF) :=
  ⟨m.s.toZMod, m.t.toZMod, m.u.toZMod, m.v.toZMod, m.w.toZMod⟩

/-- The cache is that of the row. -/
structure TransitionMatrix.Cached (m : TransitionMatrix) : Prop where
  a : m.a.toZMod = m.toRow.a mrgX
  b : m.b.toZMod = m.toRow.b mrgX
  c : m.c.toZMod = m.toRow.c mrgX
  d : m.d.toZMod = m.toRow.d mrgX

@[simp]
theorem toZMod_modMulX (a : Residue) : (modMulX a).toZMod = mrgX * a.toZMod := by
  rw [modMulX, toZMod_modMul, mul_comm]
  rfl

@[simp]
theorem toZMod_modMulY (a : Residue) : (modMulY a).toZMod = mrgY * a.toZMod := by
  rw [modMulY, toZMod_modMul, mul_comm]
  rfl

@[simp]
theorem toZMod_modMacY (sum a : Residue) : (modMacY sum a).toZMod = mrgY * a.toZMod + sum.toZMod := by
  rw [modMacY, toZMod_modMac, mul_comm]
  rfl

@[simp]
theorem toZMod_zero : (0 : Residue).toZMod = 0 := Nat.cast_zero

@[simp]
theorem toZMod_one : (1 : Residue).toZMod = 1 := Nat.cast_one

theorem mrgUpdateCache_cached (s t u v w : Residue) : (mrgUpdateCache s t u v w).Cached := by
  constructor <;> simp [mrgUpdateCache, TransitionMatrix.toRow, Row.a, Row.b, Row.c, Row.d]

theorem mrgMultiply_toRow {m n : TransitionMatrix} (hn : n.Cached) :
    (mrgMultiply m n).toRow = m.toRow.mul mrgX mrgY n.toRow := by
  simp only [mrgMultiply, mrgUpdateCache, TransitionMatrix.toRow, Row.mul, toZMod_modMac, toZMod_modMul,
    toZMod_modMulY, hn.a, hn.b, hn.c, hn.d]
  congr 1 <;> ring

theorem mrgApplyTransition_toState {m : TransitionMatrix} (hm : m.Cached) (st : MrgState) :
    (mrgApplyTransition m st).toState = m.toRow.act mrgX mrgY st.toState := by
  simp only [mrgApplyTransition, MrgState.toState, Row.act, toZMod_modMacY, toZMod_modMac4, toZMod_modMac3,
    toZMod_modMac2, toZMod_modMul, toZMod_zero, hm.a, hm.b, hm.c, hm.d, TransitionMatrix.toRow]
  congr 1 <;> ring

theorem mrgOrigStep_toState (st : MrgState) : (mrgOrigStep st).toState = st.toState.next mrgX mrgY := by
  simp only [mrgOrigStep, MrgState.toState, State.next, toZMod_modMacY, toZMod_modMulX]
  congr 1
  ring

end Matrices

section Powers

/-- The matrix takes a state `n` steps ahead. -/
structure TransitionMatrix.Skips (m : TransitionMatrix) (n : Nat) : Prop where
  cached : m.Cached
  skips : ∀ z, m.toRow.act mrgX mrgY z = (State.next mrgX mrgY)^[n] z

theorem mrgMakeIdentity_skips : mrgMakeIdentity.Skips 0 where
  cached := mrgUpdateCache_cached 0 0 0 0 1
  skips z := by
    have hRow : mrgMakeIdentity.toRow = Row.one := by
      simp [mrgMakeIdentity, mrgUpdateCache, TransitionMatrix.toRow, Row.one]
    rw [hRow, Row.act_one, iterate_zero_apply]

theorem mrgMakeA_skips : mrgMakeA.Skips 1 where
  cached := mrgUpdateCache_cached 0 0 0 1 0
  skips z := by
    have hRow : mrgMakeA.toRow = Row.gen := by
      simp [mrgMakeA, mrgUpdateCache, TransitionMatrix.toRow, Row.gen]
    rw [hRow, Row.act_gen, iterate_one]

theorem TransitionMatrix.Skips.power {m : TransitionMatrix} {n : Nat} (hm : m.Skips n) (exponent : Nat) :
    (mrgPower m exponent).Skips (n * exponent) where
  cached := powerLoop_of_mul (fun _ _ => mrgUpdateCache_cached ..) mrgMakeIdentity_skips.cached
  skips z := by
    have hAct : ∀ m n : TransitionMatrix, ∀ z, n.Cached →
        (mrgMultiply m n).toRow.act mrgX mrgY z = m.toRow.act mrgX mrgY (n.toRow.act mrgX mrgY z) := by
      intro m n z hn
      rw [mrgMultiply_toRow hn, Row.act_mul]
    have hIterate : m.toRow.act mrgX mrgY = (State.next mrgX mrgY)^[n] := funext hm.skips
    have hLoop := powerLoop_act (fun m : TransitionMatrix => m.toRow.act mrgX mrgY) hAct
      (fun _ _ => mrgUpdateCache_cached ..) mrgMakeIdentity hm.cached exponent z
    rw [mrgPower, hLoop, mrgMakeIdentity_skips.skips, iterate_zero_apply, hIterate, ← iterate_mul]

theorem transitions_skips (i : Nat) : (transitions i).Skips (256 ^ i) := by
  induction i with
  | zero => exact mrgMakeA_skips
  | succ i ih => exact ih.power 256

theorem mrgSkipMatrices_skips {byteIndex : Nat} (hRow : byteIndex < 24) (val : Fin 256) :
    ∃ m, mrgSkipMatrices byteIndex val = some m ∧ m.Skips (256 ^ byteIndex * val.val) := by
  rw [mrgSkipMatrices, if_pos hRow]
  split
  · rename_i hVal
    exact ⟨_, rfl, by rw [hVal]; exact mrgMakeIdentity_skips⟩
  · rename_i hVal
    exact ⟨_, rfl, by rw [hVal, mul_one]; exact transitions_skips byteIndex⟩
  · exact ⟨_, rfl, (transitions_skips byteIndex).power val.val⟩

theorem toState_iterate (st : MrgState) (n : Nat) :
    (mrgOrigStep^[n] st).toState = (State.next mrgX mrgY)^[n] st.toState := by
  induction n with
  | zero => rfl
  | succ n ih => rw [iterate_succ_apply', iterate_succ_apply', mrgOrigStep_toState, ih]

theorem mrgApplyTransition_eq {m : TransitionMatrix} {n : Nat} (hm : m.Skips n) (st : MrgState) :
    mrgApplyTransition m st = mrgOrigStep^[n] st := by
  apply MrgState.toState_injective
  rw [mrgApplyTransition_toState hm.cached, hm.skips, toState_iterate]

end Powers

section Skips

/-- The byte at hand, and the bytes above it. -/
theorem byte_add (exponent : BitVec 64) :
    256 * (exponent >>> 8).toNat + (Fin.ofNat 256 (exponent &&& 0xFF).toNat).val = exponent.toNat := by
  have hByte : (exponent &&& 0xFF).toNat = exponent.toNat % 2 ^ 8 := by
    rw [BitVec.toNat_and]
    exact Nat.and_two_pow_sub_one_eq_mod exponent.toNat 8
  rw [BitVec.toNat_ushiftRight, Nat.shiftRight_eq_div_pow, hByte, Fin.val_ofNat]
  omega

theorem skipByte_eq {byteIndex : Nat} (hRow : byteIndex < 24) (val : Fin 256) (st : MrgState) :
    skipByte byteIndex val st = some (mrgOrigStep^[256 ^ byteIndex * val.val] st) := by
  obtain ⟨m, hEntry, hSkips⟩ := mrgSkipMatrices_skips hRow val
  rw [skipByte]
  split
  · rw [hEntry, Option.map_some, mrgApplyTransition_eq hSkips]
  · rename_i hVal
    rw [not_not.mp hVal]
    rfl

theorem skipBytes_eq (count : Nat) {byteIndex : Nat} {exponent : BitVec 64} (hCount : exponent.toNat < 256 ^ count)
    (hRows : byteIndex + count ≤ 24) (st : MrgState) :
    skipBytes byteIndex exponent st = some (mrgOrigStep^[256 ^ byteIndex * exponent.toNat] st) := by
  induction count generalizing byteIndex exponent st with
  | zero =>
    have hZero : exponent = 0 := BitVec.eq_of_toNat_eq (Nat.lt_one_iff.mp hCount)
    rw [skipBytes, if_pos hZero, hZero]
    rfl
  | succ count ih =>
    rw [skipBytes]
    split
    · rename_i hZero
      rw [hZero]
      rfl
    · have hByte := byte_add exponent
      generalize Fin.ofNat 256 (exponent &&& 0xFF).toNat = val at hByte ⊢
      have hRest : (exponent >>> 8).toNat < 256 ^ count := by
        rw [pow_succ] at hCount
        omega
      rw [skipByte_eq (by omega), Option.bind_some, ih hRest (by omega), ← iterate_add_apply, ← hByte]
      congr 2
      ring

theorem skip_steps (st : MrgState) (exponentHigh exponentMiddle exponentLow : BitVec 64) :
    mrgSkip st exponentHigh exponentMiddle exponentLow =
      some (mrgOrigStep^[exponentHigh.toNat * 2 ^ 128 + exponentMiddle.toNat * 2 ^ 64 + exponentLow.toNat] st) := by
  have hLow : skipBytes 0 exponentLow st = some (mrgOrigStep^[256 ^ 0 * exponentLow.toNat] st) :=
    skipBytes_eq 8 exponentLow.isLt (by decide) st
  rw [mrgSkip, hLow, Option.bind_eq_bind, Option.bind_some, skipBytes_eq 8 exponentMiddle.isLt (by decide),
    Option.bind_some, skipBytes_eq 8 exponentHigh.isLt (by decide),
    ← iterate_add_apply, ← iterate_add_apply]
  congr 2
  ring

/-- `mrg_skip` takes a state `n` steps ahead, for every number of 192 bits in its three words. -/
theorem mrgSkip_words (st : MrgState) (n : Nat) :
    mrgSkip st (BitVec.ofNat 64 (n / 2 ^ 128)) (BitVec.ofNat 64 (n / 2 ^ 64)) (BitVec.ofNat 64 n) =
      some (mrgOrigStep^[n % 2 ^ 192] st) := by
  have hWords : n / 2 ^ 128 % 2 ^ 64 * 2 ^ 128 + n / 2 ^ 64 % 2 ^ 64 * 2 ^ 64 + n % 2 ^ 64 = n % 2 ^ 192 := by
    omega
  rw [skip_steps, BitVec.toNat_ofNat, BitVec.toNat_ofNat, BitVec.toNat_ofNat, hWords]

end Skips

end Trident.Graph500
