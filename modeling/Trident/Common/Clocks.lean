import Mathlib.Data.BitVec
import Mathlib.Data.List.Sort
import Mathlib.Tactic.Ring
import Trident.Lib.Rounding
import Trident.Lib.Streams

/-! # The times the harness reports

The `Took:` line of the benchmark mains subtracts seconds and microseconds on
their own; `calculate_time` subtracts two readings of the cycle counter. Both
are right for one order of the readings only.
-/

namespace Trident.Common

open Streams

abbrev Word := BitVec 64

/-- `struct timeval`, as `gettimeofday` fills it. -/
structure Timeval where
  tvSec : Int
  tvUsec : Int
  sec_bound : -2 ^ 63 ≤ tvSec ∧ tvSec < 2 ^ 63
  usec_bound : 0 ≤ tvUsec ∧ tvUsec < 1000000

instance : LE Timeval where
  le tstart tend :=
    tstart.tvSec < tend.tvSec ∨ tstart.tvSec = tend.tvSec ∧ tstart.tvUsec ≤ tend.tvUsec

def zu (n : Int) : Nat := (n % 2 ^ 64).toNat

def padded (n : Nat) : List Char :=
  List.replicate (3 - (decimal n).length) '0' ++ decimal n

/-- `"Took: %zu.%03zu\n"` -/
def tookLine (seconds millis : Nat) : List Char :=
  "Took: ".toList ++ (decimal seconds ++ '.' :: (padded millis ++ ['\n']))

def took (tstart tend : Timeval) : List Char :=
  tookLine (zu (tend.tvSec - tstart.tvSec)) (zu ((tend.tvUsec - tstart.tvUsec).tdiv 1000))

def elapsedMicros (tstart tend : Timeval) : Int :=
  (tend.tvSec - tstart.tvSec) * 1000000 + (tend.tvUsec - tstart.tvUsec)

def trueLine (tstart tend : Timeval) : List Char :=
  let millis := (elapsedMicros tstart tend / 1000).toNat
  tookLine (millis / 1000) (millis % 1000)

def LONG_MAX : Word := 0x7FFFFFFFFFFFFFFF

def benchTscoverhead : Word := 30

def calculateTime (tscStart tscEnd : Word) : Word :=
  let result :=
    if tscEnd < tscStart then (LONG_MAX - tscStart) + tscEnd - benchTscoverhead
    else tscEnd - tscStart - benchTscoverhead
  if result < tscEnd - tscStart then result else result

/-- Two readings of the counter, the earlier one first. -/
abbrev Reading := Word × Word

def runBenchmarkMap (r : Reading) : Word := calculateTime r.1 r.2

def runBenchmarkMprotect (r : Reading) : Word := calculateTime r.1 r.2 / 2

def runBenchmarkUnmap (r : Reading) : Word := calculateTime r.1 r.2

inductive Dimension where
  | mapShared | mapSharedEager | unmapShared | protectShared
  | map | mapEager | unmap | protect
deriving DecidableEq

/-- What `run_shared` and `run_non_shared` store in a row, from the readings of a round. -/
def Dimension.sample : Dimension → Reading → Word
  | .mapShared | .mapSharedEager | .map | .mapEager => runBenchmarkMap
  | .protectShared | .protect => runBenchmarkMprotect
  | .unmapShared | .unmap => runBenchmarkUnmap

def comp (a b : Word) : Int := if a < b then -1 else if a = b then 0 else 1

/-- `(size_t)((num - 1)*0.99)`, with the two roundings of a `double`. -/
def ninefiveIndex (num : Nat) : Nat :=
  Rounding.significant 53 (Rounding.significant 53 (num - 1) * 8917127262193582) / 2 ^ 53

structure Row where
  min : Word
  avg : Word
  ninefive : Word
  max : Word
  perPage : Word × Word × Word × Word

/-- `dump_analysis`, with `none` for an empty row and for a division by zero. -/
def dumpAnalysis (npages : Word) (vals : List Word) : Option Row := do
  let num := vals.length
  let vals := vals.mergeSort fun a b => comp a b ≤ 0
  let min ← vals[0]?
  let max ← vals[num - 1]?
  let avg ← vals[num / 2]?
  let ninefive ← vals[ninefiveIndex num]?
  if npages = 0 then none
  else some ⟨min, avg, ninefive, max, min / npages, avg / npages, ninefive / npages, max / npages⟩

/-! ## The line -/

theorem ofDigitChars_decimal (n : Nat) : Nat.ofDigitChars 10 (decimal n) 0 = n := by
  rw [decimal, Nat.toList_repr, Nat.ofDigitChars_ten_toDigits]

theorem ofDigitChars_padded (n : Nat) : Nat.ofDigitChars 10 (padded n) 0 = n := by
  rw [padded, Nat.ofDigitChars_append, Nat.ofDigitChars_replicate_zero, Nat.mul_zero,
    ofDigitChars_decimal]

theorem tookLine_inj {seconds millis seconds' millis' : Nat}
    (h : tookLine seconds millis = tookLine seconds' millis') :
    seconds = seconds' ∧ millis = millis' := by
  have hdigits : ∀ n, ∀ c ∈ decimal n, c.isDigit = true := fun _ _ hc =>
    PyText.isDigit_of_mem_repr hc
  have hdot : Char.isDigit '.' = false := by decide
  have hrest := List.append_cancel_left h
  have hseconds := congrArg (List.takeWhile Char.isDigit) hrest
  rw [takeWhile_append (hdigits _) hdot, takeWhile_append (hdigits _) hdot] at hseconds
  have hmillis : padded millis = padded millis' := by
    rw [hseconds] at hrest
    have htail := List.append_cancel_left hrest
    exact List.append_cancel_right (List.cons.inj htail).2
  constructor
  · rw [← ofDigitChars_decimal seconds, hseconds, ofDigitChars_decimal]
  · rw [← ofDigitChars_padded millis, hmillis, ofDigitChars_padded]

theorem zu_of_nonneg {n : Int} (h0 : 0 ≤ n) (hlt : n < 2 ^ 64) : zu n = n.toNat := by
  rw [zu, Int.emod_eq_of_lt h0 hlt]

theorem took_eq_trueLine_iff {tstart tend : Timeval} (h : tstart ≤ tend) :
    took tstart tend = trueLine tstart tend ↔ tstart.tvUsec ≤ tend.tvUsec := by
  obtain ⟨hs0, hs1⟩ := tstart.sec_bound
  obtain ⟨he0, he1⟩ := tend.sec_bound
  obtain ⟨hu0, hu1⟩ := tstart.usec_bound
  obtain ⟨hv0, hv1⟩ := tend.usec_bound
  have hsec : tstart.tvSec ≤ tend.tvSec := by
    rcases h with h | ⟨h, -⟩
    · exact h.le
    · exact h.le
  have hzu := zu_of_nonneg (n := tend.tvSec - tstart.tvSec) (by omega) (by omega)
  constructor
  · intro hline
    obtain ⟨hseconds, hmillis⟩ := tookLine_inj hline
    by_contra hlt
    rcases h with h | ⟨h, hle⟩
    · -- the seconds count one that has not passed
      rw [hzu, elapsedMicros] at hseconds
      omega
    · exact hlt hle
  · intro hle
    have hdiv : (tend.tvUsec - tstart.tvUsec).tdiv 1000 =
        (tend.tvUsec - tstart.tvUsec) / 1000 := Int.tdiv_eq_ediv_of_nonneg (by omega)
    have hmillis := zu_of_nonneg (n := (tend.tvUsec - tstart.tvUsec) / 1000) (by omega) (by omega)
    rw [took, trueLine, hzu, hdiv, hmillis, elapsedMicros]
    congr 1 <;> omega

/-! ## The cycles -/

def elapsed (r : Reading) : Nat := (r.2 - r.1).toNat

/-- The wrap branch is `2 ^ 63 - 1` too late. -/
theorem calculateTime_toNat (r : Reading) :
    (calculateTime r.1 r.2).toNat =
      if r.2 < r.1 then (elapsed r + (2 ^ 63 - 1) + 2 ^ 64 - 30) % 2 ^ 64
      else (elapsed r + 2 ^ 64 - 30) % 2 ^ 64 := by
  obtain ⟨tscStart, tscEnd⟩ := r
  have hmax : LONG_MAX.toNat = 2 ^ 63 - 1 := rfl
  have hoverhead : benchTscoverhead.toNat = 30 := rfl
  have h1 := tscStart.isLt
  have h2 := tscEnd.isLt
  simp only [calculateTime, ite_self, elapsed]
  split
  · rw [BitVec.toNat_sub, BitVec.toNat_add, BitVec.toNat_sub, BitVec.toNat_sub, hmax, hoverhead]
    omega
  · rw [BitVec.toNat_sub, BitVec.toNat_sub, hoverhead]
    omega

theorem elapsed_lt (r : Reading) : elapsed r < 2 ^ 64 := (r.2 - r.1).isLt

/-- The readings that `calculate_time` measures: in order, and not closer than the overhead. -/
def Measurable (r : Reading) : Prop := r.1 ≤ r.2 ∧ 30 ≤ elapsed r

theorem calculateTime_eq_iff (r : Reading) :
    (calculateTime r.1 r.2).toNat = elapsed r - 30 ↔ Measurable r := by
  have hlt := elapsed_lt r
  rw [Measurable, calculateTime_toNat]
  split
  · next hwrap =>
    have hnot : ¬ r.1 ≤ r.2 := BitVec.not_le.mpr hwrap
    constructor
    · intro h
      omega
    · intro h
      exact absurd h.1 hnot
  · next hwrap =>
    have hle : r.1 ≤ r.2 := BitVec.not_lt.mp hwrap
    constructor
    · intro h
      exact ⟨hle, by omega⟩
    · intro h
      have := h.2
      omega

/-- A time beyond the elapsed count: too short an interval, or a wrapped one below
half of the counter's range. -/
theorem calculateTime_le_iff (r : Reading) :
    (calculateTime r.1 r.2).toNat ≤ elapsed r ↔
      Measurable r ∨ r.2 < r.1 ∧ 2 ^ 63 + 31 ≤ elapsed r := by
  have hlt := elapsed_lt r
  rw [Measurable, calculateTime_toNat]
  split
  · next hwrap =>
    have hnot : ¬ r.1 ≤ r.2 := BitVec.not_le.mpr hwrap
    simp only [hnot, hwrap, false_and, true_and, false_or]
    omega
  · next hwrap =>
    have hle : r.1 ≤ r.2 := BitVec.not_lt.mp hwrap
    simp only [hle, hwrap, false_and, true_and, or_false]
    omega

theorem Dimension.sample_le (d : Dimension) (r : Reading) :
    (d.sample r).toNat ≤ (calculateTime r.1 r.2).toNat := by
  have hhalf : (calculateTime r.1 r.2 / 2).toNat ≤ (calculateTime r.1 r.2).toNat := by
    rw [BitVec.toNat_udiv]
    exact Nat.div_le_self _ _
  cases d
  case protectShared | protect => exact hhalf
  all_goals exact Nat.le_refl _

/-! ## The rows -/

theorem ninefiveIndex_le (num : Nat) : ninefiveIndex num ≤ num - 1 := by
  have hcount := Rounding.significant_mul_le 53 (num - 1)
  have hproduct := Rounding.significant_mul_le 53
    (Rounding.significant 53 (num - 1) * 8917127262193582)
  rw [ninefiveIndex]
  omega

theorem comp_nonpos_iff {a b : Word} : comp a b ≤ 0 ↔ a ≤ b := by
  rw [comp]
  split
  · next hlt => simp [BitVec.le_of_lt hlt]
  · next hlt =>
    have hle : b ≤ a := BitVec.not_lt.mp hlt
    split
    · next heq => simp [heq]
    · next hne =>
      have hnot : ¬ a ≤ b := fun hab => hne (BitVec.le_antisymm hab hle)
      simp [hnot]

theorem sorted_vals (vals : List Word) :
    (vals.mergeSort fun a b => comp a b ≤ 0).Pairwise (· ≤ ·) := by
  have h := @List.pairwise_mergeSort Word (fun a b => decide (comp a b ≤ 0))
    (fun a b c hab hbc => by
      simp only [decide_eq_true_eq, comp_nonpos_iff] at hab hbc ⊢
      exact BitVec.le_trans hab hbc)
    (fun a b => by
      simp only [Bool.or_eq_true, decide_eq_true_eq, comp_nonpos_iff]
      exact BitVec.le_total a b) vals
  exact h.imp fun hab => by simpa [comp_nonpos_iff] using hab

theorem le_of_getLast {vals : List Word} {max v : Word} (hsorted : vals.Pairwise (· ≤ ·))
    (hmax : vals[vals.length - 1]? = some max) (hv : v ∈ vals) : v ≤ max := by
  obtain ⟨i, hi, rfl⟩ := List.mem_iff_getElem.mp hv
  obtain ⟨hlast, rfl⟩ := List.getElem?_eq_some_iff.mp hmax
  rcases Nat.lt_or_eq_of_le (Nat.le_sub_one_of_lt hi) with hlt | rfl
  · exact List.pairwise_iff_getElem.mp hsorted i _ hi hlast hlt
  · exact BitVec.le_refl _

theorem dumpAnalysis_mem {npages : Word} {vals : List Word} {row : Row}
    (h : dumpAnalysis npages vals = some row) :
    row.max ∈ vals ∧ row.ninefive ∈ vals ∧ ∀ v ∈ vals, v ≤ row.max := by
  simp only [dumpAnalysis, Option.bind_eq_bind, Option.bind_eq_some_iff] at h
  obtain ⟨min, hmin, max, hmax, avg, havg, ninefive, hninefive, hrow⟩ := h
  split at hrow
  · exact absurd hrow (by simp)
  · cases hrow
    refine ⟨List.mem_mergeSort.mp (List.mem_of_getElem? hmax),
      List.mem_mergeSort.mp (List.mem_of_getElem? hninefive), fun v hv => ?_⟩
    refine le_of_getLast (sorted_vals vals) ?_ (List.mem_mergeSort.mpr hv)
    rw [List.length_mergeSort]
    exact hmax

theorem dumpAnalysis_isSome {npages : Word} {vals : List Word} (hvals : vals ≠ [])
    (hnpages : npages ≠ 0) : ∃ row, dumpAnalysis npages vals = some row := by
  have hpos := List.length_pos_iff.mpr hvals
  have hget : ∀ i, i < vals.length →
      ∃ v, (vals.mergeSort fun a b => comp a b ≤ 0)[i]? = some v := fun i hi =>
    ⟨_, List.getElem?_eq_getElem (by rw [List.length_mergeSort]; exact hi)⟩
  have hindex := ninefiveIndex_le vals.length
  obtain ⟨min, hmin⟩ := hget 0 hpos
  obtain ⟨max, hmax⟩ := hget (vals.length - 1) (by omega)
  obtain ⟨avg, havg⟩ := hget (vals.length / 2) (by omega)
  obtain ⟨ninefive, hninefive⟩ := hget (ninefiveIndex vals.length) (by omega)
  simp only [dumpAnalysis, hmin, hmax, havg, hninefive, Option.bind_eq_bind, Option.bind_some,
    if_neg hnpages]
  exact ⟨_, rfl⟩

/-! ## A run of the harness -/

/-- Every time reported of a run is the true one: the `Took:` line, the time of each reading,
and with these the samples of a row of `measurements` and the figures taken from it. -/
structure ReportsTrue (tstart tend : Timeval) (d : Dimension) (readings : List Reading) :
    Prop where
  line : took tstart tend = trueLine tstart tend
  times : ∀ r ∈ readings, (calculateTime r.1 r.2).toNat = elapsed r - 30
  samples : ∀ r ∈ readings, (d.sample r).toNat ≤ elapsed r
  max : ∀ npages row, dumpAnalysis npages (readings.map d.sample) = some row →
    ∃ r ∈ readings, row.max = d.sample r ∧ row.max.toNat ≤ elapsed r
  ninefive : ∀ npages row, dumpAnalysis npages (readings.map d.sample) = some row →
    ∃ r ∈ readings, row.ninefive = d.sample r ∧ row.ninefive.toNat ≤ elapsed r

theorem reportsTrue_iff {tstart tend : Timeval} (h : tstart ≤ tend) (d : Dimension)
    (readings : List Reading) :
    ReportsTrue tstart tend d readings ↔
      tstart.tvUsec ≤ tend.tvUsec ∧ ∀ r ∈ readings, r.1 ≤ r.2 ∧ 30 ≤ elapsed r := by
  constructor
  · intro htrue
    exact ⟨(took_eq_trueLine_iff h).mp htrue.line, fun r hr =>
      (calculateTime_eq_iff r).mp (htrue.times r hr)⟩
  · rintro ⟨husec, hmeasurable⟩
    have hsamples : ∀ r ∈ readings, (d.sample r).toNat ≤ elapsed r := fun r hr =>
      (d.sample_le r).trans ((calculateTime_le_iff r).mpr (.inl (hmeasurable r hr)))
    have hrow : ∀ v ∈ readings.map d.sample,
        ∃ r ∈ readings, v = d.sample r ∧ v.toNat ≤ elapsed r := by
      intro v hv
      obtain ⟨r, hr, rfl⟩ := List.mem_map.mp hv
      exact ⟨r, hr, rfl, hsamples r hr⟩
    exact {
      line := (took_eq_trueLine_iff h).mpr husec
      times := fun r hr => (calculateTime_eq_iff r).mpr (hmeasurable r hr)
      samples := hsamples
      max := fun _ _ hdump => hrow _ (dumpAnalysis_mem hdump).1
      ninefive := fun _ _ hdump => hrow _ (dumpAnalysis_mem hdump).2.1 }

theorem reportsTrue_iff_ordered :
    ReportsTrue ⟨5, 100000, by decide, by decide⟩ ⟨6, 900000, by decide, by decide⟩ .map
      [(1000, 1500)] :=
  (reportsTrue_iff (.inl (by decide)) .map [(1000, 1500)]).mpr
    ⟨by decide, List.forall_mem_singleton.mpr ⟨by decide, by decide⟩⟩

/-- 200 ms across a change of the second, an interval of 10 cycles, and one of 100 across
the wrap of the counter. -/
theorem reportsTrue_fails :
    (took ⟨5, 900000, by decide, by decide⟩ ⟨6, 100000, by decide, by decide⟩ =
        "Took: 1.18446744073709550816\n".toList ∧
      ¬ ReportsTrue ⟨5, 900000, by decide, by decide⟩ ⟨6, 100000, by decide, by decide⟩ .map []) ∧
    (calculateTime 1000 1010 = 18446744073709551596 ∧
      ¬ ReportsTrue ⟨5, 100000, by decide, by decide⟩ ⟨6, 900000, by decide, by decide⟩ .map
        [(1000, 1010)]) ∧
    (calculateTime 18446744073709551566 50 = 9223372036854775877 ∧
      ¬ ReportsTrue ⟨5, 100000, by decide, by decide⟩ ⟨6, 900000, by decide, by decide⟩ .map
        [(18446744073709551566, 50)]) := by
  refine ⟨⟨by decide, fun h => ?_⟩, ⟨by decide, fun h => ?_⟩, ⟨by decide, fun h => ?_⟩⟩
  · exact absurd h.line (by decide)
  · exact absurd (h.times _ List.mem_cons_self) (by decide)
  · exact absurd (h.times _ List.mem_cons_self) (by decide)

end Trident.Common
