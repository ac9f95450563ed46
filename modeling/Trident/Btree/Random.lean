import Mathlib.Data.BitVec
import Mathlib.Logic.Function.Iterate
import Mathlib.Tactic.Ring

/-! # The random numbers of the btree benchmark

`redisLrand48` keeps the state of a 48-bit generator in three limbs of 16 bits,
each in a 64-bit variable. The limbs are followed through one call as numbers;
the carries then make up one multiplication modulo `2 ^ 48`.
-/

namespace Trident.Btree

def MASK : BitVec 32 := (1 <<< 15) + (1 <<< 15) - 1

/-- `LOW`: the argument becomes `unsigned`, the result a limb. -/
def low {w : Nat} (x : BitVec w) : BitVec 64 := (x.setWidth 32 &&& MASK).setWidth 64

/-- `HIGH` on a signed 32-bit value. -/
def high (x : BitVec 32) : BitVec 64 := low (x.sshiftRight 16)

/-- `MUL`: both limbs of the product. -/
def mul (x y : BitVec 64) : BitVec 64 × BitVec 64 :=
  let l : BitVec 32 := (x * y).setWidth 32
  (low l, high l)

/-- `CARRY`: a comparison of signed 64-bit values. -/
def carry (x y : BitVec 64) : BitVec 64 :=
  if (MASK.signExtend 64).slt ((x.setWidth 32).signExtend 64 + y) then 1 else 0

/-- `ADDEQU`: the new value of the first argument and the carry. -/
def addequ (x y : BitVec 64) : BitVec 64 × BitVec 64 := (low (x + y), carry x y)

def X0 : BitVec 64 := 0x330E
def X1 : BitVec 64 := 0xABCD
def X2 : BitVec 64 := 0x1234
def A0 : BitVec 64 := 0xE66D
def A1 : BitVec 64 := 0xDEEC
def A2 : BitVec 64 := 0x5
def C : BitVec 64 := 0xB

/-- The static arrays `x` and `a` and the variable `c`. -/
structure Rand48 where
  x : BitVec 64 × BitVec 64 × BitVec 64 := (X0, X1, X2)
  a : BitVec 64 × BitVec 64 × BitVec 64 := (A0, A1, A2)
  c : BitVec 64 := C
deriving DecidableEq

/-- `SEED` -/
def seed (s : Rand48) (x0 x1 x2 : BitVec 64) : Rand48 :=
  { s with x := (x0, x1, x2), a := (A0, A1, A2), c := C }

def redisSrand48 (seedval : BitVec 32) (s : Rand48) : Rand48 :=
  seed s X0 (low seedval) (high seedval)

def next (s : Rand48) : Rand48 :=
  let (x0, x1, x2) := s.x
  let (a0, a1, a2) := s.a
  let (p0, p1) := mul a0 x0
  let (p0, carry0) := addequ p0 s.c
  let (p1, carry1) := addequ p1 carry0
  let (q0, q1) := mul a0 x1
  let (p1, carry0) := addequ p1 q0
  let (r0, r1) := mul a1 x0
  { s with
    x := (low p0, low (p1 + r0),
      low (carry0 + carry1 + carry p1 r0 + q1 + r1 + a0 * x2 + a1 * x1 + a2 * x0)) }

def redisLrand48 (s : Rand48) : BitVec 64 × Rand48 :=
  let s := next s
  ((s.x.2.2 <<< 15) + (s.x.2.1 >>> 1), s)

/-! ## The macros on limbs -/

def IsLimb (x : BitVec 64) : Prop := x.toNat < 2 ^ 16

instance (x : BitVec 64) : Decidable (IsLimb x) := inferInstanceAs (Decidable (_ < _))

theorem low_toNat {w : Nat} (x : BitVec w) : (low x).toNat = x.toNat % 2 ^ 16 := by
  have hmask : MASK.toNat = 2 ^ 16 - 1 := by decide
  rw [low, BitVec.toNat_setWidth, BitVec.toNat_and, hmask, Nat.and_two_pow_sub_one_eq_mod,
    BitVec.toNat_setWidth]
  omega

theorem isLimb_low {w : Nat} (x : BitVec w) : IsLimb (low x) := by
  rw [IsLimb, low_toNat]
  exact Nat.mod_lt _ (Nat.two_pow_pos 16)

theorem high_toNat (x : BitVec 32) : (high x).toNat = x.toNat / 2 ^ 16 := by
  have hx := x.isLt
  rw [high, low_toNat, BitVec.toNat_sshiftRight]
  simp only [Nat.shiftRight_eq_div_pow]
  split <;> omega

theorem isLimb_mul (x y : BitVec 64) : IsLimb (mul x y).1 ∧ IsLimb (mul x y).2 :=
  ⟨isLimb_low _, isLimb_low _⟩

theorem mul_spec {x y : BitVec 64} (hx : IsLimb x) (hy : IsLimb y) :
    (mul x y).1.toNat + 2 ^ 16 * (mul x y).2.toNat = x.toNat * y.toNat := by
  have hlt : x.toNat * y.toNat < 2 ^ 16 * 2 ^ 16 := Nat.mul_lt_mul'' hx hy
  have hxy : ((x * y).setWidth 32).toNat = x.toNat * y.toNat := by
    rw [BitVec.toNat_setWidth, BitVec.toNat_mul]
    omega
  simp only [mul]
  rw [low_toNat, high_toNat, hxy]
  exact Nat.mod_add_div _ _

/-- A limb is its own cast to a signed 32-bit value. -/
theorem signExtend_setWidth {x : BitVec 64} (hx : IsLimb x) :
    (x.setWidth 32).signExtend 64 = x := by
  have hlt : x.toNat < 2 ^ 16 := hx
  have hmod : (x.setWidth 32).toNat = x.toNat := by
    rw [BitVec.toNat_setWidth]
    omega
  have hmsb : (x.setWidth 32).msb = false := by
    rw [BitVec.msb_eq_false_iff_two_mul_lt, hmod]
    omega
  rw [BitVec.signExtend_eq_setWidth_of_msb_false hmsb]
  apply BitVec.eq_of_toNat_eq
  rw [BitVec.toNat_setWidth, hmod]
  omega

theorem carry_toNat {x y : BitVec 64} (hx : IsLimb x) (hy : IsLimb y) :
    (carry x y).toNat = (x.toNat + y.toNat) / 2 ^ 16 := by
  have hxlt : x.toNat < 2 ^ 16 := hx
  have hylt : y.toNat < 2 ^ 16 := hy
  have hmask : (MASK.signExtend 64).toInt = 2 ^ 16 - 1 := by decide
  have hsum : (x + y).toNat = x.toNat + y.toNat := by
    rw [BitVec.toNat_add]
    omega
  have hint : (x + y).toInt = (x.toNat + y.toNat : Nat) := by
    rw [← hsum]
    apply BitVec.toInt_eq_toNat_of_lt
    omega
  simp only [carry, signExtend_setWidth hx, BitVec.slt_iff_toInt_lt, hmask, hint]
  split
  · rw [show (1 : BitVec 64).toNat = 1 from rfl]
    omega
  · rw [show (0 : BitVec 64).toNat = 0 from rfl]
    omega

theorem addequ_spec {x y : BitVec 64} (hx : IsLimb x) (hy : IsLimb y) :
    (addequ x y).1.toNat + 2 ^ 16 * (addequ x y).2.toNat = x.toNat + y.toNat := by
  have hxlt : x.toNat < 2 ^ 16 := hx
  have hylt : y.toNat < 2 ^ 16 := hy
  simp only [addequ]
  rw [low_toNat, carry_toNat hx hy, BitVec.toNat_add]
  omega

theorem isLimb_carry {x y : BitVec 64} (hx : IsLimb x) (hy : IsLimb y) : IsLimb (carry x y) := by
  have hxlt : x.toNat < 2 ^ 16 := hx
  have hylt : y.toNat < 2 ^ 16 := hy
  rw [IsLimb, carry_toNat hx hy]
  omega

/-! ## One call -/

/-- `X = x[2] * 2^32 + x[1] * 2^16 + x[0]`, and the same number of the array `a`. -/
def limbValue (x : BitVec 64 × BitVec 64 × BitVec 64) : Nat :=
  x.2.2.toNat * 2 ^ 32 + x.2.1.toNat * 2 ^ 16 + x.1.toNat

def AreLimbs (x : BitVec 64 × BitVec 64 × BitVec 64) : Prop :=
  IsLimb x.1 ∧ IsLimb x.2.1 ∧ IsLimb x.2.2

theorem isLimb_X0 : IsLimb X0 := by decide

theorem areLimbs_A : AreLimbs (A0, A1, A2) := ⟨by decide, by decide, by decide⟩

theorem isLimb_C : IsLimb C := by decide

/-- The multiplication of two numbers of three limbs, with the carries of the
two lower ones and the products above the third left out. -/
theorem limbs_mul_add (a2 x2 : Nat) {x0 x1 a0 a1 c p0 p1 p0' p1' p1'' q0 q1 r0 r1 x1' : Nat}
    {carry0 carry1 carry0' carry2 : Nat}
    (hp : p0 + 2 ^ 16 * p1 = a0 * x0) (h0 : p0' + 2 ^ 16 * carry0 = p0 + c)
    (h1 : p1' + 2 ^ 16 * carry1 = p1 + carry0) (hq : q0 + 2 ^ 16 * q1 = a0 * x1)
    (h2 : p1'' + 2 ^ 16 * carry0' = p1' + q0) (hr : r0 + 2 ^ 16 * r1 = a1 * x0)
    (h3 : x1' + 2 ^ 16 * carry2 = p1'' + r0) (hp0 : p0' < 2 ^ 16) (hx1 : x1' < 2 ^ 16) :
    ((a2 * 2 ^ 32 + a1 * 2 ^ 16 + a0) * (x2 * 2 ^ 32 + x1 * 2 ^ 16 + x0) + c) % 2 ^ 48 =
      (carry0' + carry1 + carry2 + q1 + r1 + a0 * x2 + a1 * x1 + a2 * x0) % 2 ^ 16 * 2 ^ 32 +
        x1' * 2 ^ 16 + p0' := by
  have hprod : (a2 * 2 ^ 32 + a1 * 2 ^ 16 + a0) * (x2 * 2 ^ 32 + x1 * 2 ^ 16 + x0) =
      a0 * x0 + (a0 * x1 + a1 * x0) * 2 ^ 16 + (a0 * x2 + a1 * x1 + a2 * x0) * 2 ^ 32 +
        (a1 * x2 + a2 * x1 + a2 * x2 * 2 ^ 16) * 2 ^ 48 := by ring
  have hlow : a0 * x0 + (a0 * x1 + a1 * x0) * 2 ^ 16 + c =
      (carry0' + carry1 + carry2 + q1 + r1) * 2 ^ 32 + x1' * 2 ^ 16 + p0' := by
    rw [← hp, ← hq, ← hr]
    omega
  calc ((a2 * 2 ^ 32 + a1 * 2 ^ 16 + a0) * (x2 * 2 ^ 32 + x1 * 2 ^ 16 + x0) + c) % 2 ^ 48
      = ((a0 * x0 + (a0 * x1 + a1 * x0) * 2 ^ 16 + c +
          (a0 * x2 + a1 * x1 + a2 * x0) * 2 ^ 32) +
          (a1 * x2 + a2 * x1 + a2 * x2 * 2 ^ 16) * 2 ^ 48) % 2 ^ 48 := by
        rw [hprod]
        ring_nf
    _ = (a0 * x0 + (a0 * x1 + a1 * x0) * 2 ^ 16 + c +
          (a0 * x2 + a1 * x1 + a2 * x0) * 2 ^ 32) % 2 ^ 48 := Nat.add_mul_mod_self_right _ _ _
    _ = _ := by
        rw [hlow]
        omega

theorem areLimbs_next (s : Rand48) : AreLimbs (next s).x :=
  ⟨isLimb_low _, isLimb_low _, isLimb_low _⟩

/-- The sum that becomes the top limb wraps at `2 ^ 64`, which no limb shows. -/
theorem low_sum_toNat (u v w y z k l m : BitVec 64) (x0 x1 x2 : BitVec 64) :
    (low (u + v + w + y + z + k * x2 + l * x1 + m * x0)).toNat =
      (u.toNat + v.toNat + w.toNat + y.toNat + z.toNat + k.toNat * x2.toNat +
        l.toNat * x1.toNat + m.toNat * x0.toNat) % 2 ^ 16 := by
  rw [low_toNat]
  simp only [BitVec.toNat_add, BitVec.toNat_mul]
  omega

theorem next_value {s : Rand48} (hx : AreLimbs s.x) (ha : AreLimbs s.a) (hc : IsLimb s.c) :
    limbValue (next s).x = (limbValue s.a * limbValue s.x + s.c.toNat) % 2 ^ 48 := by
  obtain ⟨⟨x0, x1, x2⟩, ⟨a0, a1, a2⟩, c⟩ := s
  obtain ⟨hx0, hx1, -⟩ := hx
  obtain ⟨ha0, ha1, -⟩ := ha
  dsimp only at hx0 hx1 ha0 ha1 hc
  have hp := mul_spec ha0 hx0
  have hq := mul_spec ha0 hx1
  have hr := mul_spec ha1 hx0
  obtain ⟨hp0, hp1⟩ := isLimb_mul a0 x0
  obtain ⟨hq0, -⟩ := isLimb_mul a0 x1
  obtain ⟨hr0, -⟩ := isLimb_mul a1 x0
  -- one carry out of the low limb, three additions in the middle one
  have h0 := addequ_spec hp0 hc
  have h1 := addequ_spec hp1 (isLimb_carry hp0 hc)
  have h2 := addequ_spec (isLimb_low ((mul a0 x0).2 + carry (mul a0 x0).1 c)) hq0
  have h3 := addequ_spec
    (isLimb_low (low ((mul a0 x0).2 + carry (mul a0 x0).1 c) + (mul a0 x1).1)) hr0
  have hlow : (low (addequ (mul a0 x0).1 c).1).toNat = (addequ (mul a0 x0).1 c).1.toNat := by
    rw [low_toNat]
    exact Nat.mod_eq_of_lt (isLimb_low _)
  have hvalue := limbs_mul_add a2.toNat x2.toNat hp h0 h1 hq h2 hr h3
    (isLimb_low _) (isLimb_low _)
  simp only [limbValue, next]
  rw [hvalue, low_sum_toNat, hlow]
  rfl

/-! ## Runs from a seed -/

/-- The 48-bit linear congruential generator. -/
def lcg (X : Nat) : Nat := (0x5DEECE66D * X + 0xB) % 2 ^ 48

/-- `X = seed * 2^16 + 0x330E`, modulo `2 ^ 48` when the seed is negative. -/
def lcgSeed (seedval : Int) : Nat := ((seedval * 2 ^ 16 + 0x330E) % 2 ^ 48).toNat

/-- What the calls of `redisLrand48` keep: limbs, and the multiplier and the
addend of the last `SEED`. -/
structure Rand48.Seeded (s : Rand48) : Prop where
  limbs : AreLimbs s.x
  a : s.a = (A0, A1, A2)
  c : s.c = C

theorem seeded_redisSrand48 (seedval : BitVec 32) (s : Rand48) :
    (redisSrand48 seedval s).Seeded where
  limbs := ⟨isLimb_X0, isLimb_low _, isLimb_low _⟩
  a := rfl
  c := rfl

theorem redisSrand48_value (seedval : BitVec 32) (s : Rand48) :
    limbValue (redisSrand48 seedval s).x = lcgSeed seedval.toInt := by
  have hlt := seedval.isLt
  have h0 : X0.toNat = 0x330E := by decide
  have hint : seedval.toInt = seedval.toNat ∨ seedval.toInt = seedval.toNat - 2 ^ 32 := by
    rw [BitVec.toInt_eq_toNat_cond]
    split <;> omega
  simp only [limbValue, redisSrand48, seed, low_toNat, high_toNat, h0, lcgSeed]
  omega

theorem Rand48.Seeded.next {s : Rand48} (hs : s.Seeded) : (next s).Seeded where
  limbs := areLimbs_next s
  a := hs.a
  c := hs.c

theorem Rand48.Seeded.next_value {s : Rand48} (hs : s.Seeded) :
    limbValue (Btree.next s).x = lcg (limbValue s.x) := by
  have ha : AreLimbs s.a := by
    rw [hs.a]
    exact areLimbs_A
  have hc : IsLimb s.c := by
    rw [hs.c]
    exact isLimb_C
  have hmul : limbValue s.a = 0x5DEECE66D := by
    rw [hs.a]
    decide
  have hadd : s.c.toNat = 0xB := by
    rw [hs.c]
    decide
  rw [Btree.next_value hs.limbs ha hc, hmul, hadd, lcg]

/-- The returned value: the top 31 of the 48 bits. -/
theorem redisLrand48_toNat {s : Rand48} (hs : s.Seeded) :
    (redisLrand48 s).1.toNat = lcg (limbValue s.x) / 2 ^ 17 := by
  obtain ⟨h0, h1, h2⟩ := hs.next.limbs
  rw [← hs.next_value, redisLrand48, limbValue]
  rw [IsLimb] at h0 h1 h2
  simp only [BitVec.toNat_add, BitVec.toNat_shiftLeft, BitVec.toNat_ushiftRight,
    Nat.shiftLeft_eq, Nat.shiftRight_eq_div_pow]
  omega

/-- The state after `n` calls. -/
def afterCalls (n : Nat) (s : Rand48) : Rand48 := (fun s => (redisLrand48 s).2)^[n] s

theorem Rand48.Seeded.afterCalls {s : Rand48} (hs : s.Seeded) (n : Nat) :
    (afterCalls n s).Seeded ∧ limbValue (Btree.afterCalls n s).x = lcg^[n] (limbValue s.x) := by
  induction n generalizing s with
  | zero => exact ⟨hs, rfl⟩
  | succ n ih =>
    obtain ⟨hseeded, hvalue⟩ := ih hs.next
    refine ⟨hseeded, ?_⟩
    rw [Function.iterate_succ_apply, ← hs.next_value, ← hvalue]
    rfl

theorem redisLrand48_lcg (seedval : BitVec 32) (s : Rand48) (n : Nat) :
    let state := afterCalls n (redisSrand48 seedval s)
    AreLimbs state.x ∧ limbValue state.x = lcg^[n] (lcgSeed seedval.toInt) ∧
      (redisLrand48 state).1.toNat = lcg^[n + 1] (lcgSeed seedval.toInt) / 2 ^ 17 := by
  intro state
  obtain ⟨hseeded, hvalue⟩ := (seeded_redisSrand48 seedval s).afterCalls n
  rw [redisSrand48_value] at hvalue
  refine ⟨hseeded.limbs, hvalue, ?_⟩
  rw [redisLrand48_toNat hseeded, hvalue, ← Function.iterate_succ_apply' lcg]

end Trident.Btree
