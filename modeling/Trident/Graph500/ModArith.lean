import Mathlib.Data.ZMod.Basic
import Mathlib.Data.Nat.Bitwise
import Mathlib.Tactic.Ring

/-! # Arithmetic modulo 2^31 - 1

`mod_arith_64bit.h`, and the other way to do it of `mod_arith_32bit.h`. Type `uint_fast32_t` has `fast`
bits, at least 32.
-/

namespace Trident.Graph500

/-- What the assertions demand of every argument. -/
abbrev Residue := Fin 0x7FFFFFFF

instance modulusNeZero : NeZero 0x7FFFFFFF := ⟨by decide⟩

section Program

/-- The remainder of a sum in `uint_fast64_t` -/
def reduce (temp : Nat) : Residue := ⟨temp % 2 ^ 64 % 0x7FFFFFFF, Nat.mod_lt _ (by decide)⟩

/-- A sum in `uint_fast32_t`, which holds all that comes up here -/
def modAdd (a b : Residue) : Residue := ⟨(a.val + b.val) % 0x7FFFFFFF, Nat.mod_lt _ (by decide)⟩

def modMul (a b : Residue) : Residue := reduce (a.val * b.val)

def modMac (sum a b : Residue) : Residue := reduce (a.val * b.val + sum.val)

def modMac2 (sum a b c d : Residue) : Residue := reduce (a.val * b.val + c.val * d.val + sum.val)

def modMac3 (sum a b c d e f : Residue) : Residue :=
  reduce (a.val * b.val + c.val * d.val + e.val * f.val + sum.val)

def modMac4 (sum a b c d e f g h : Residue) : Residue :=
  reduce (a.val * b.val + c.val * d.val + e.val * f.val + g.val * h.val + sum.val)

def modMulX (a : Residue) : Residue := modMul a 107374182

def modMulY (a : Residue) : Residue := modMul a 104480

def modMacY (sum a : Residue) : Residue := modMac sum a 104480

namespace Bits32

variable (fast : Nat)

/-- `(x >= 0x7FFFFFFF) ? (x - 0x7FFFFFFF) : x` -/
def wrap (x : Nat) : Nat := if x ≥ 0x7FFFFFFF then x - 0x7FFFFFFF else x

def modAdd (a b : Nat) : Nat := wrap ((a + b) % 2 ^ fast)

/-- The sum of the two halves of `temp` -/
def fold (temp : Nat) : Nat :=
  wrap (((temp &&& 0x7FFFFFFF) % 2 ^ fast + (temp >>> 31) % 2 ^ fast) % 2 ^ fast)

def modMul (a b : Nat) : Nat := fold fast (a * b % 2 ^ 64)

def modMac (sum a b : Nat) : Nat := fold fast ((a * b + sum) % 2 ^ 64)

def modMac2 (sum a b c d : Nat) : Nat := modMac fast (modMac fast sum a b) c d

def modMac3 (sum a b c d e f : Nat) : Nat := modMac2 fast (modMac fast sum a b) c d e f

def modMac4 (sum a b c d e f g h : Nat) : Nat := modMac2 fast (modMac2 fast sum a b c d) e f g h

/-- A result in `int_fast32_t`; nothing where it overflows. -/
def signed (x : Int) : Option Int := if -2 ^ (fast - 1) ≤ x ∧ x < 2 ^ (fast - 1) then some x else none

/-- `mod_mul_x` and `mod_mul_y`, for a factor `k` with `0x7FFFFFFF = k * q + r` -/
def modMulBy (k q r : Int) (a : Nat) : Option Nat := do
  let quotient ← signed fast ((a : Int) / q)
  let part ← signed fast (quotient * q)
  let rest ← signed fast (a - part)
  let high ← signed fast (k * rest)
  let low ← signed fast (quotient * r)
  let difference ← signed fast (high - low)
  let result ← signed fast (difference + if difference < 0 then 0x7FFFFFFF else 0)
  return result.toNat

def modMulX (a : Nat) : Option Nat := modMulBy fast 107374182 20 7 a

def modMulY (a : Nat) : Option Nat := modMulBy fast 104480 20554 1727 a

def modMacY (sum a : Nat) : Option Nat := (modMulY fast a).map (modAdd fast sum)

end Bits32

end Program

section Sixtyfour

theorem Residue.le (a : Residue) : a.val ≤ 0x7FFFFFFE := Nat.le_of_lt_succ a.isLt

theorem Residue.mul_le (a b : Residue) : a.val * b.val ≤ 0x7FFFFFFE * 0x7FFFFFFE := Nat.mul_le_mul a.le b.le

/-- The residue as an element of the field. -/
def Residue.toZMod (a : Residue) : ZMod 0x7FFFFFFF := (a.val : ZMod 0x7FFFFFFF)

theorem toZMod_injective : Function.Injective Residue.toZMod := by
  intro a b hSame
  have hMod := (ZMod.natCast_eq_natCast_iff' a.val b.val 0x7FFFFFFF).mp hSame
  rw [Nat.mod_eq_of_lt a.isLt, Nat.mod_eq_of_lt b.isLt] at hMod
  exact Fin.ext hMod

theorem reduce_val {temp : Nat} (h : temp < 2 ^ 64) : (reduce temp).val = temp % 0x7FFFFFFF := by
  rw [reduce]
  dsimp only
  rw [Nat.mod_eq_of_lt h]

theorem toZMod_of_val {a : Residue} {n : Nat} (h : a.val = n % 0x7FFFFFFF) :
    a.toZMod = (n : ZMod 0x7FFFFFFF) := by
  rw [Residue.toZMod, h, ZMod.natCast_mod]

variable (sum a b c d e f g h : Residue)

theorem modMac4_val : (modMac4 sum a b c d e f g h).val =
    (a.val * b.val + c.val * d.val + e.val * f.val + g.val * h.val + sum.val) % 0x7FFFFFFF := by
  have hab := a.mul_le b
  have hcd := c.mul_le d
  have hef := e.mul_le f
  have hgh := g.mul_le h
  have hSum := sum.le
  exact reduce_val (by omega)

theorem modMac3_val : (modMac3 sum a b c d e f).val =
    (a.val * b.val + c.val * d.val + e.val * f.val + sum.val) % 0x7FFFFFFF := by
  have hab := a.mul_le b
  have hcd := c.mul_le d
  have hef := e.mul_le f
  have hSum := sum.le
  exact reduce_val (by omega)

theorem modMac2_val :
    (modMac2 sum a b c d).val = (a.val * b.val + c.val * d.val + sum.val) % 0x7FFFFFFF := by
  have hab := a.mul_le b
  have hcd := c.mul_le d
  have hSum := sum.le
  exact reduce_val (by omega)

theorem modMac_val : (modMac sum a b).val = (a.val * b.val + sum.val) % 0x7FFFFFFF := by
  have hab := a.mul_le b
  have hSum := sum.le
  exact reduce_val (by omega)

theorem modMul_val : (modMul a b).val = a.val * b.val % 0x7FFFFFFF := by
  have hab := a.mul_le b
  exact reduce_val (by omega)

@[simp]
theorem toZMod_modAdd : (modAdd a b).toZMod = a.toZMod + b.toZMod := by
  rw [toZMod_of_val (n := a.val + b.val) rfl, Nat.cast_add]
  rfl

@[simp]
theorem toZMod_modMul : (modMul a b).toZMod = a.toZMod * b.toZMod := by
  rw [toZMod_of_val (modMul_val a b), Nat.cast_mul]
  rfl

@[simp]
theorem toZMod_modMac : (modMac sum a b).toZMod = a.toZMod * b.toZMod + sum.toZMod := by
  rw [toZMod_of_val (modMac_val sum a b)]
  push_cast
  rfl

@[simp]
theorem toZMod_modMac2 :
    (modMac2 sum a b c d).toZMod = a.toZMod * b.toZMod + c.toZMod * d.toZMod + sum.toZMod := by
  rw [toZMod_of_val (modMac2_val sum a b c d)]
  push_cast
  rfl

@[simp]
theorem toZMod_modMac3 : (modMac3 sum a b c d e f).toZMod =
    a.toZMod * b.toZMod + c.toZMod * d.toZMod + e.toZMod * f.toZMod + sum.toZMod := by
  rw [toZMod_of_val (modMac3_val sum a b c d e f)]
  push_cast
  rfl

@[simp]
theorem toZMod_modMac4 : (modMac4 sum a b c d e f g h).toZMod =
    a.toZMod * b.toZMod + c.toZMod * d.toZMod + e.toZMod * f.toZMod + g.toZMod * h.toZMod + sum.toZMod := by
  rw [toZMod_of_val (modMac4_val sum a b c d e f g h)]
  push_cast
  rfl

end Sixtyfour

section Thirtytwo

variable {fast : Nat}

theorem wordMod {n : Nat} (hFast : 32 ≤ fast) (h : n < 2 ^ 32) : n % 2 ^ fast = n :=
  Nat.mod_eq_of_lt (Nat.lt_of_lt_of_le h (Nat.pow_le_pow_right (by decide) hFast))

theorem wrap_eq {n : Nat} (h : n < 2 * 0x7FFFFFFF) : Bits32.wrap n = n % 0x7FFFFFFF := by
  rw [Bits32.wrap]
  split <;> omega

/-- The bits from 31 on count as often as the low ones do, since 2^31 is 1. -/
theorem fold_eq {temp : Nat} (hFast : 32 ≤ fast) (h : temp ≤ 0x7FFFFFFE * 0x7FFFFFFF) :
    Bits32.fold fast temp = temp % 0x7FFFFFFF := by
  have hLow : temp &&& 0x7FFFFFFF = temp % 2 ^ 31 := Nat.and_two_pow_sub_one_eq_mod temp 31
  have hHigh : temp >>> 31 = temp / 2 ^ 31 := Nat.shiftRight_eq_div_pow temp 31
  rw [Bits32.fold, hLow, hHigh, wordMod hFast (n := temp % 2 ^ 31) (by omega),
    wordMod hFast (n := temp / 2 ^ 31) (by omega), wordMod hFast (by omega), wrap_eq (by omega)]
  omega

theorem Bits32.modMac_eq (hFast : 32 ≤ fast) (sum a b : Residue) :
    Bits32.modMac fast sum.val a.val b.val = (Graph500.modMac sum a b).val := by
  have hab := a.mul_le b
  have hSum := sum.le
  rw [modMac_val, Bits32.modMac, Nat.mod_eq_of_lt (by omega), fold_eq hFast (by omega)]

/-- Two sums one after the other are one sum. -/
theorem modMac_modMac (sum a b c d : Residue) : modMac (modMac sum a b) c d = modMac2 sum a b c d := by
  apply toZMod_injective
  rw [toZMod_modMac, toZMod_modMac, toZMod_modMac2]
  ring

theorem modMac2_modMac (sum a b c d e f : Residue) :
    modMac2 (modMac sum a b) c d e f = modMac3 sum a b c d e f := by
  apply toZMod_injective
  rw [toZMod_modMac2, toZMod_modMac, toZMod_modMac3]
  ring

theorem modMac2_modMac2 (sum a b c d e f g h : Residue) :
    modMac2 (modMac2 sum a b c d) e f g h = modMac4 sum a b c d e f g h := by
  apply toZMod_injective
  rw [toZMod_modMac2, toZMod_modMac2, toZMod_modMac4]
  ring

theorem Bits32.modMac2_eq (hFast : 32 ≤ fast) (sum a b c d : Residue) :
    Bits32.modMac2 fast sum.val a.val b.val c.val d.val = (Graph500.modMac2 sum a b c d).val := by
  rw [Bits32.modMac2, modMac_eq hFast, modMac_eq hFast, modMac_modMac]

theorem signed_eq {x : Int} (hFast : 32 ≤ fast) (h : -2 ^ 31 ≤ x ∧ x < 2 ^ 31) :
    Bits32.signed fast x = some x := by
  have hPower : (2 ^ 31 : Int) ≤ 2 ^ (fast - 1) := by
    gcongr
    · decide
    · omega
  exact if_pos ⟨by omega, by omega⟩

/-- With `a = quotient * q + rest`, a product by `k` is `k * rest - quotient * r`, modulo `k * q + r`. -/
theorem modMulBy_eq {k q r a : Nat} (hFast : 32 ≤ fast) (hModulus : k * q + r = 0x7FFFFFFF) (hk : 0 < k)
    (hr : r < q) (ha : a < 0x7FFFFFFF) :
    Bits32.modMulBy fast k q r a = some (a * k % 0x7FFFFFFF) := by
  have hParts : q * (a / q) + a % q = a := Nat.div_add_mod a q
  have hRest : a % q < q := Nat.mod_lt _ (Nat.zero_lt_of_lt hr)
  have hQuotient : a / q ≤ a := Nat.div_le_self a q
  have hIntQuotient : (a : Int) / q = (a / q : Nat) := Int.natCast_ediv a q |>.symm
  rw [Bits32.modMulBy, hIntQuotient]
  generalize a / q = quotient at hParts hQuotient ⊢
  generalize a % q = rest at hParts hRest
  have hHigh : k * rest + k ≤ k * q := Nat.mul_le_mul_left k hRest
  have hLow : quotient * r ≤ q * quotient := by
    rw [Nat.mul_comm]
    exact Nat.mul_le_mul_right quotient hr.le
  have hProduct : a * k + quotient * r = quotient * 0x7FFFFFFF + k * rest := by
    rw [← hModulus, ← hParts]
    ring
  have hPart : (a : Int) - quotient * q = rest := by
    rw [← hParts]
    push_cast
    ring
  have hFits {n : Nat} (h : n ≤ 0x7FFFFFFF) : Bits32.signed fast (n : Int) = some (n : Int) :=
    signed_eq hFast (by omega)
  have hTaken : Bits32.signed fast ((quotient : Int) * q) = some ((quotient : Int) * q) := by
    rw [← Int.natCast_mul]
    exact hFits (by rw [Nat.mul_comm]; omega)
  have hLeft : Bits32.signed fast ((k : Int) * rest) = some ((k * rest : Nat) : Int) := by
    rw [← Int.natCast_mul]
    exact hFits (by omega)
  have hRight : Bits32.signed fast ((quotient : Int) * r) = some ((quotient * r : Nat) : Int) := by
    rw [← Int.natCast_mul]
    exact hFits (by omega)
  have hDifference : Bits32.signed fast ((k * rest : Nat) - (quotient * r : Nat) : Int) =
      some ((k * rest : Nat) - (quotient * r : Nat) : Int) := signed_eq hFast (by omega)
  simp only [Option.bind_eq_bind, hFits (n := quotient) (by omega), hTaken, hPart,
    hFits (n := rest) (by omega), hLeft, hRight, hDifference, Option.bind_some]
  rw [signed_eq hFast, Option.bind_some]
  · apply congrArg some
    split <;> omega
  · split <;> omega

/-- The 32-bit operations give what the 64-bit ones give, without an overflow in `int_fast32_t`. -/
theorem Bits32.agrees (hFast : 32 ≤ fast) (sum a b c d e f g h : Residue) :
    Bits32.modAdd fast a.val b.val = (Graph500.modAdd a b).val ∧
    Bits32.modMul fast a.val b.val = (Graph500.modMul a b).val ∧
    Bits32.modMac fast sum.val a.val b.val = (Graph500.modMac sum a b).val ∧
    Bits32.modMac2 fast sum.val a.val b.val c.val d.val = (Graph500.modMac2 sum a b c d).val ∧
    Bits32.modMac3 fast sum.val a.val b.val c.val d.val e.val f.val =
      (Graph500.modMac3 sum a b c d e f).val ∧
    Bits32.modMac4 fast sum.val a.val b.val c.val d.val e.val f.val g.val h.val =
      (Graph500.modMac4 sum a b c d e f g h).val ∧
    Bits32.modMulX fast a.val = some (Graph500.modMulX a).val ∧
    Bits32.modMulY fast a.val = some (Graph500.modMulY a).val ∧
    Bits32.modMacY fast sum.val a.val = some (Graph500.modMacY sum a).val := by
  have hAdd (a b : Residue) : Bits32.modAdd fast a.val b.val = (Graph500.modAdd a b).val := by
    have ha := a.le
    have hb := b.le
    rw [Bits32.modAdd, wordMod hFast (by omega), wrap_eq (by omega), Graph500.modAdd]
  have hTimesY : Bits32.modMulY fast a.val = some (Graph500.modMulY a).val := by
    rw [Bits32.modMulY, Graph500.modMulY, modMul_val]
    exact modMulBy_eq hFast (by decide) (by decide) (by decide) a.isLt
  refine ⟨hAdd a b, ?_, modMac_eq hFast sum a b, modMac2_eq hFast sum a b c d, ?_, ?_, ?_, hTimesY, ?_⟩
  · have hab := a.mul_le b
    rw [modMul_val, Bits32.modMul, Nat.mod_eq_of_lt (by omega), fold_eq hFast (by omega)]
  · rw [Bits32.modMac3, modMac_eq hFast, modMac2_eq hFast, modMac2_modMac]
  · rw [Bits32.modMac4, modMac2_eq hFast, modMac2_eq hFast, modMac2_modMac2]
  · rw [Bits32.modMulX, Graph500.modMulX, modMul_val]
    exact modMulBy_eq hFast (by decide) (by decide) (by decide) a.isLt
  · rw [Bits32.modMacY, hTimesY, Option.map_some, hAdd]
    apply congrArg some
    apply congrArg Fin.val
    apply toZMod_injective
    rw [toZMod_modAdd, Graph500.modMulY, toZMod_modMul, Graph500.modMacY, toZMod_modMac, add_comm]

theorem agrees_32 : Bits32.modMulX 32 2147483646 = some (modMulX 2147483646).val :=
  (Bits32.agrees (le_refl 32) 0 2147483646 0 0 0 0 0 0 0).2.2.2.2.2.2.1

end Thirtytwo

end Trident.Graph500
