import Mathlib.Logic.Function.Iterate
import Mathlib.Tactic.Ring

/-! # Skipping ahead

Powers of a transition by repeated squaring, and the transitions of a linear recurrence of order five,
each given by the last row of its matrix.
-/

namespace Trident.SkipAhead

section Powers

variable {α β : Type*} {mul : α → α → α}

/-- Squares and multiplies, the last binary digit first. -/
def powerLoop (mul : α → α → α) (result current : α) (exponent : Nat) : α :=
  if exponent = 0 then result
  else powerLoop mul (if exponent % 2 = 1 then mul result current else result) (mul current current)
    (exponent / 2)

/-- What holds of every product holds of the result. -/
theorem powerLoop_of_mul {P : α → Prop} (hMul : ∀ m n, P (mul m n)) {result current : α} {exponent : Nat}
    (hResult : P result) : P (powerLoop mul result current exponent) := by
  induction exponent using Nat.strongRecOn generalizing result current with
  | ind exponent ih =>
    rw [powerLoop]
    split
    · exact hResult
    · rename_i hMore
      apply ih _ (Nat.div_lt_self (Nat.pos_of_ne_zero hMore) (Nat.lt_succ_self 1))
      split
      · exact hMul _ _
      · exact hResult

/-- Where a product acts as its factors do one after the other, the loop repeats an action. -/
theorem powerLoop_act (act : α → β → β) {P : α → Prop}
    (hAct : ∀ m n z, P n → act (mul m n) z = act m (act n z)) (hMul : ∀ m n, P (mul m n))
    (result : α) {current : α} (hCurrent : P current) (exponent : Nat) (z : β) :
    act (powerLoop mul result current exponent) z = act result ((act current)^[exponent] z) := by
  induction exponent using Nat.strongRecOn generalizing result current with
  | ind exponent ih =>
    rw [powerLoop]
    split
    · rename_i hZero
      rw [hZero, Function.iterate_zero_apply]
    · rename_i hMore
      have hSquare : act (mul current current) = (act current)^[2] :=
        funext fun z => hAct current current z hCurrent
      have hLess : exponent / 2 < exponent := Nat.div_lt_self (Nat.pos_of_ne_zero hMore) (Nat.lt_succ_self 1)
      rw [ih _ hLess _ (hMul current current), hSquare, ← Function.iterate_mul]
      split
      · rename_i hOdd
        rw [hAct _ _ _ hCurrent, ← Function.iterate_succ_apply' (act current)]
        congr 2
        omega
      · rename_i hEven
        congr 2
        omega

end Powers

section Recurrences

variable {R : Type*} [CommRing R]

/-- The last five elements, the newest first. -/
@[ext]
structure State (R : Type*) where
  z1 : R
  z2 : R
  z3 : R
  z4 : R
  z5 : R

/-- The last row of a matrix. -/
structure Row (R : Type*) where
  s : R
  t : R
  u : R
  v : R
  w : R

variable (x y : R)

def State.next (z : State R) : State R := ⟨x * z.z1 + y * z.z5, z.z1, z.z2, z.z3, z.z4⟩

namespace Row

/-- The first column, from below. -/
def a (m : Row R) : R := x * m.s + m.t

def b (m : Row R) : R := x * m.a x + m.u

def c (m : Row R) : R := x * m.b x + m.v

def d (m : Row R) : R := x * m.c x + m.w

def act (m : Row R) (z : State R) : State R where
  z1 := m.d x * z.z1 + m.s * y * z.z2 + m.a x * y * z.z3 + m.b x * y * z.z4 + m.c x * y * z.z5
  z2 := m.c x * z.z1 + m.w * z.z2 + m.s * y * z.z3 + m.a x * y * z.z4 + m.b x * y * z.z5
  z3 := m.b x * z.z1 + m.v * z.z2 + m.w * z.z3 + m.s * y * z.z4 + m.a x * y * z.z5
  z4 := m.a x * z.z1 + m.u * z.z2 + m.v * z.z3 + m.w * z.z4 + m.s * y * z.z5
  z5 := m.s * z.z1 + m.t * z.z2 + m.u * z.z3 + m.v * z.z4 + m.w * z.z5

def one : Row R := ⟨0, 0, 0, 0, 1⟩

/-- The row of the recurrence itself. -/
def gen : Row R := ⟨0, 0, 0, 1, 0⟩

def mul (m n : Row R) : Row R where
  s := m.s * n.d x + m.t * n.c x + m.u * n.b x + m.v * n.a x + m.w * n.s
  t := m.s * n.s * y + m.t * n.w + m.u * n.v + m.v * n.u + m.w * n.t
  u := m.s * n.a x * y + m.t * n.s * y + m.u * n.w + m.v * n.v + m.w * n.u
  v := m.s * n.b x * y + m.t * n.a x * y + m.u * n.s * y + m.v * n.w + m.w * n.v
  w := m.s * n.c x * y + m.t * n.b x * y + m.u * n.a x * y + m.v * n.s * y + m.w * n.w

theorem act_one (z : State R) : one.act x y z = z := by
  apply State.ext <;> simp only [act, one, a, b, c, d] <;> ring

theorem act_gen (z : State R) : gen.act x y z = z.next x y := by
  apply State.ext <;> simp only [act, gen, State.next, a, b, c, d] <;> ring

/-- The product of two rows is the last row of the product of the matrices. -/
theorem act_mul (m n : Row R) (z : State R) : (mul x y m n).act x y z = m.act x y (n.act x y z) := by
  apply State.ext <;> simp only [act, mul, a, b, c, d] <;> ring

end Row

end Recurrences

end Trident.SkipAhead
