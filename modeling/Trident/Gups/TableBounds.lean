import Mathlib.Data.Nat.Log
import Trident.Gups.Updates

/-! # The sizes of the tables

`gups` rounds the size that it is given down and allocates two words more than the table has;
`gupstoy` has a fixed size and allocates just the table.
-/

namespace Trident.Gups

section Programs

/-- `1ULL << i`; `none` is a shift that is not defined. -/
def shiftOne (i : Int) : Option Nat := if 0 ≤ i ∧ i < 64 then some (2 ^ i.toNat) else none

/-- The last `count` turns of the rounding loop, from turn `i`. -/
def roundFrom (mem : Nat) : Nat → Nat → Option Nat
  | 0, _ => some mem
  | count + 1, i =>
    (shiftOne i).bind fun bound =>
      if mem < bound then shiftOne ((i : Int) - 1) else roundFrom mem count (i + 1)

def roundDown (mem : Nat) : Option Nat := roundFrom mem 64 0

/-- `mem` before the rounding; the argument is what `strtoull` made of it. -/
def requested : Option UInt64 → Nat
  | none => 2 ^ 6 * 2 ^ 30 % 2 ^ 64
  | some n => n.toNat * 2 ^ 30 % 2 ^ 64

/-- Both accesses of an update, and the remainder, are defined. -/
def Inside (allocated tableSize : Nat) (r : Word) : Prop :=
  tableSize ≠ 0 ∧ r.toNat % tableSize < allocated ∧ tableSize - r.toNat % tableSize < allocated

instance (allocated tableSize : Nat) (r : Word) : Decidable (Inside allocated tableSize r) :=
  inferInstanceAs (Decidable (_ ∧ _))

/-- `updateStream` on an allocation of so many words. -/
def updateStreamIn (allocated tableSize : Nat) (s : Streams) (j : Nat) : Option Streams :=
  if Inside allocated tableSize (step (s.ran j)) then some (updateStream tableSize s j) else none

def updateAllIn (allocated tableSize : Nat) (s : Streams) : Option Streams :=
  (List.range 128).foldlM (updateStreamIn allocated tableSize) s

def roundsIn (allocated tableSize : Nat) : Nat → Streams → Option Streams
  | 0, s => some s
  | n + 1, s => (updateAllIn allocated tableSize s).bind (roundsIn allocated tableSize n)

/-- The update loop of either program; `none` is an access outside the allocation. -/
def updateLoopIn (allocated tableSize nupdate : Nat) (t : Table) : Option Table :=
  (roundsIn allocated tableSize (nupdate / 128) { ran := seed nupdate, table := t }).map Streams.table

inductive Program where
  | gups (argument : Option UInt64)
  | gupstoy

/-- The size of the table is a power of two, not more than `size`, and every access of the update loop
is inside the allocation. -/
structure Accommodates (size mem allocated nupdate : Nat) : Prop where
  power : ∃ k, mem = 2 ^ k
  le : mem ≤ size
  word : 8 ≤ mem
  updates : ∀ t, ∃ t', updateLoopIn allocated (mem / 8) nupdate t = some t'

def Safe : Program → Prop
  | .gups argument => ∃ mem, roundDown (requested argument) = some mem ∧
      Accommodates (requested argument) mem ((mem + 16) % 2 ^ 64 / 8) (2 ^ 28)
  | .gupstoy => Accommodates (2 ^ 26) (2 ^ 26) (2 ^ 26 / 8) (2 ^ 27)

/-- The sizes for which `gups` is safe; there is none for `gupstoy`. -/
def Fits : Program → Prop
  | .gups argument => 0 < requested argument ∧ requested argument ≤ 2 ^ 63
  | .gupstoy => False

end Programs

section Rounding

theorem roundFrom_eq {mem count i : Nat} (hTurns : i + count = 64) (hSmall : mem < 2 ^ 63)
    (hLow : ∀ k < i, 2 ^ k ≤ mem) (hPos : 0 < mem) :
    ∃ k, roundFrom mem count i = some (2 ^ k) ∧ 2 ^ k ≤ mem ∧ mem < 2 ^ (k + 1) := by
  induction count generalizing i with
  | zero =>
    have hTop := hLow 63 (by omega)
    omega
  | succ count ih =>
    have hBound : shiftOne i = some (2 ^ i) := if_pos (by omega)
    rw [roundFrom, hBound, Option.bind_some]
    split
    · next hLess =>
      obtain ⟨j, rfl⟩ : ∃ j, i = j + 1 := by
        apply Nat.exists_eq_add_one_of_ne_zero
        rintro rfl
        omega
      refine ⟨j, ?_, hLow j (by omega), hLess⟩
      have hPrevious : ((j + 1 : Nat) : Int) - 1 = j := by omega
      rw [hPrevious]
      exact if_pos (by omega)
    · next hMore =>
      apply ih (by omega)
      intro k hk
      obtain rfl | hLess := Nat.eq_or_lt_of_le (Nat.le_of_lt_succ hk)
      · exact Nat.le_of_not_lt hMore
      · exact hLow k hLess

theorem roundFrom_large {mem count i : Nat} (hTurns : i + count = 64) (hLarge : 2 ^ 63 ≤ mem) :
    roundFrom mem count i = some mem := by
  induction count generalizing i with
  | zero => rfl
  | succ count ih =>
    have hBound : shiftOne i = some (2 ^ i) := if_pos (by omega)
    have hPower : 2 ^ i ≤ 2 ^ 63 := Nat.pow_le_pow_right (by decide) (by omega)
    rw [roundFrom, hBound, Option.bind_some, if_neg (by omega)]
    exact ih (by omega)

theorem roundDown_zero : roundDown 0 = none := by decide

theorem roundDown_spec {mem : Nat} (hPos : 0 < mem) (hLe : mem ≤ 2 ^ 63) :
    ∃ k, roundDown mem = some (2 ^ k) ∧ 2 ^ k ≤ mem ∧ mem < 2 ^ (k + 1) := by
  obtain hLess | rfl := Nat.lt_or_eq_of_le hLe
  · apply roundFrom_eq (by omega) hLess _ hPos
    intro k hk
    omega
  · exact ⟨63, roundFrom_large rfl le_rfl, le_rfl, by decide⟩

theorem requested_dvd (argument : Option UInt64) : 2 ^ 30 ∣ requested argument := by
  have hWord : 2 ^ 30 ∣ 2 ^ 64 := Nat.pow_dvd_pow 2 (by decide)
  cases argument with
  | none => exact (Nat.dvd_mod_iff hWord).mpr (Nat.dvd_mul_left _ _)
  | some n => exact (Nat.dvd_mod_iff hWord).mpr (Nat.dvd_mul_left _ _)

end Rounding

section Accesses

variable {allocated tableSize : Nat}

theorem foldlM_updateStreamIn (allocated tableSize : Nat) {js : List Nat} (hjs : js.Nodup) (s : Streams) :
    js.foldlM (updateStreamIn allocated tableSize) s =
      if ∀ j ∈ js, Inside allocated tableSize (step (s.ran j)) then
        some (js.foldl (updateStream tableSize) s)
      else none := by
  induction js generalizing s with
  | nil => simp
  | cons i js ih =>
    obtain ⟨hi, hjs⟩ := List.nodup_cons.mp hjs
    have hOther : ∀ j ∈ js, (updateStream tableSize s i).ran j = s.ran j := fun j hj =>
      Function.update_of_ne (ne_of_mem_of_not_mem hj hi) _ _
    have hRest : (∀ j ∈ js, Inside allocated tableSize (step ((updateStream tableSize s i).ran j))) ↔
        ∀ j ∈ js, Inside allocated tableSize (step (s.ran j)) :=
      forall₂_congr fun j hj => by rw [hOther j hj]
    simp only [List.foldlM_cons, List.foldl_cons, updateStreamIn, List.forall_mem_cons]
    split
    · next hFirst =>
      simp only [hFirst, true_and, Option.bind_eq_bind, Option.bind_some, ih hjs, hRest]
    · next hFirst =>
      simp only [hFirst, false_and, if_false]
      rfl

theorem updateAllIn_eq (allocated tableSize : Nat) (s : Streams) :
    updateAllIn allocated tableSize s =
      if ∀ j ∈ List.range 128, Inside allocated tableSize (step (s.ran j)) then some (updateAll tableSize s)
      else none :=
  foldlM_updateStreamIn allocated tableSize List.nodup_range s

theorem roundsIn_isSome (allocated tableSize n : Nat) (s : Streams) :
    (∃ s', roundsIn allocated tableSize n s = some s') ↔
      ∀ i < n, ∀ j < 128, Inside allocated tableSize (step^[i + 1] (s.ran j)) := by
  induction n generalizing s with
  | zero => simp [roundsIn]
  | succ n ih =>
    rw [roundsIn, updateAllIn_eq]
    have hRan : ∀ j < 128, (updateAll tableSize s).ran j = step (s.ran j) := (iterate_updateAll tableSize 1 s).2
    split
    · next hRound =>
      rw [Option.bind_some, ih]
      constructor
      · intro hRest i hi j hj
        cases i with
        | zero => exact hRound j (List.mem_range.mpr hj)
        | succ i =>
          have hLater := hRest i (by omega) j hj
          rwa [hRan j hj, ← Function.iterate_succ_apply] at hLater
      · intro hAll i hi j hj
        rw [hRan j hj, ← Function.iterate_succ_apply]
        exact hAll (i + 1) (by omega) j hj
    · next hRound =>
      simp only [Option.bind_none, reduceCtorEq, exists_false, false_iff]
      intro hAll
      exact hRound fun j hj => hAll 0 (by omega) j (List.mem_range.mp hj)

theorem updateLoopIn_isSome (allocated tableSize nupdate : Nat) :
    (∀ t, ∃ t', updateLoopIn allocated tableSize nupdate t = some t') ↔
      ∀ i < nupdate / 128, ∀ j < 128, Inside allocated tableSize (step^[i + 1] (seed nupdate j)) := by
  constructor
  · intro h
    obtain ⟨t', hRun⟩ := h 0
    obtain ⟨s', hRounds, _⟩ := Option.map_eq_some_iff.mp hRun
    exact (roundsIn_isSome allocated tableSize (nupdate / 128) ⟨seed nupdate, 0⟩).mp ⟨s', hRounds⟩
  · intro h t
    obtain ⟨s', hRounds⟩ := (roundsIn_isSome allocated tableSize (nupdate / 128) ⟨seed nupdate, t⟩).mpr h
    exact ⟨s'.table, Option.map_eq_some_iff.mpr ⟨s', hRounds, rfl⟩⟩

theorem inside_slack (hPos : 0 < tableSize) (hSlack : tableSize < allocated) (r : Word) :
    Inside allocated tableSize r := by
  have hLess := Nat.mod_lt r.toNat hPos
  exact ⟨hPos.ne', by omega, by omega⟩

end Accesses

section Programs

theorem gups_safe {argument : Option UInt64} (hPos : 0 < requested argument)
    (hLe : requested argument ≤ 2 ^ 63) : Safe (.gups argument) := by
  obtain ⟨k, hRound, hLow, hHigh⟩ := roundDown_spec hPos hLe
  have hSize : 2 ^ 30 ≤ requested argument := Nat.le_of_dvd hPos (requested_dvd argument)
  have hDouble : 2 ^ (k + 1) = 2 * 2 ^ k := by ring
  generalize hMem : 2 ^ k = mem at *
  have hWords : (mem + 16) % 2 ^ 64 / 8 = mem / 8 + 2 := by omega
  refine ⟨mem, hRound, ⟨k, hMem.symm⟩, hLow, by omega, ?_⟩
  rw [hWords, updateLoopIn_isSome]
  intro i _ j _
  exact inside_slack (by omega) (by omega) _

/-- Nothing to round down, or no power of two below the next one that a word could hold. -/
theorem gups_fits {argument : Option UInt64} (hSafe : Safe (.gups argument)) : Fits (.gups argument) := by
  obtain ⟨mem, hRound, ⟨k, hPower⟩, hLe, _, _⟩ := hSafe
  constructor
  · apply Nat.pos_of_ne_zero
    intro hZero
    rw [hZero, roundDown_zero] at hRound
    cases hRound
  · by_contra hLarge
    rw [Nat.not_le] at hLarge
    have hSame : roundDown (requested argument) = some (requested argument) := roundFrom_large rfl hLarge.le
    obtain rfl : requested argument = mem := Option.some.inj (hSame.symm.trans hRound)
    have hWord : requested argument < 2 ^ 64 := by
      cases argument <;> exact Nat.mod_lt _ (by decide)
    rw [hPower] at hLarge hWord
    have hLow := (Nat.pow_lt_pow_iff_right (by decide)).mp hLarge
    have hHigh := (Nat.pow_lt_pow_iff_right (by decide)).mp hWord
    omega

/-- After 23 steps the first stream is at the size of the table. -/
theorem gupstoy_outside : ¬ Safe .gupstoy := by
  rintro ⟨_, _, _, hUpdates⟩
  have hFirst := (updateLoopIn_isSome _ _ _).mp hUpdates 22 (by decide) 0 (by decide)
  have hOut : ¬ Inside (2 ^ 26 / 8) (2 ^ 26 / 8) (step^[22 + 1] (seed (2 ^ 27) 0)) := by
    have hSeed : seed (2 ^ 27) 0 = step^[2 ^ 27 / 128 * 0] 1 := seed_eq (by decide) (by decide)
    rw [hSeed, Nat.mul_zero, Function.iterate_zero_apply]
    decide +kernel
  exact hOut hFirst

theorem safe_iff (program : Program) : Safe program ↔ Fits program := by
  cases program with
  | gups argument =>
    constructor
    · exact gups_fits
    · exact fun hFits => gups_safe hFits.1 hFits.2
  | gupstoy =>
    constructor
    · exact gupstoy_outside
    · exact False.elim

/-- The table of `gupstoy`, and a size of 0 for `gups`, whose rounding shifts by -1. -/
theorem unsafe_sizes : ¬ Safe .gupstoy ∧ ¬ Safe (.gups (some 0)) := by
  constructor
  · exact gupstoy_outside
  · intro hSafe
    exact absurd (gups_fits hSafe).1 (by decide)

end Programs

end Trident.Gups
