import Mathlib.Data.BitVec
import Mathlib.Data.List.Nodup
import Mathlib.Data.List.FinRange
import Trident.Gups.Generator

/-! # The update loop of the gups benchmark

128 interleaved streams against one plain stream. The updates are xors into
the table, so only the collection of values counts, not their order.
-/

namespace Trident.Gups

/-- The allocation is longer than the table: index `TableSize` is inside it. -/
abbrev Table := Nat → Word

def xorAt (t : Table) (i : Nat) (r : Word) : Table := Function.update t i (t i ^^^ r)

/-- The two updates made with one random value. -/
def touch (tableSize : Nat) (t : Table) (r : Word) : Table :=
  let elm := r.toNat % tableSize
  xorAt (xorAt t elm r) (tableSize - elm) r

structure Streams where
  ran : Nat → Word
  table : Table

/-- One turn of the inner loop, for stream `j`. -/
def updateStream (tableSize : Nat) (s : Streams) (j : Nat) : Streams :=
  let r := step (s.ran j)
  { ran := Function.update s.ran j r, table := touch tableSize s.table r }

def updateAll (tableSize : Nat) (s : Streams) : Streams :=
  (List.range 128).foldl (updateStream tableSize) s

/-- The argument of `HPCC_starts` is computed on unsigned words and passed as `int64_t`. -/
def seed (nupdate j : Nat) : Word :=
  hpccStarts (BitVec.ofNat 64 (nupdate / 128 * j)).toInt

/-- The whole update loop: seeding, then `NUPDATE/128` rounds. -/
def updateLoop (tableSize nupdate : Nat) (t : Table) : Table :=
  ((updateAll tableSize)^[nupdate / 128] { ran := seed nupdate, table := t }).table

/-- One stream that starts from 1. -/
def plainLoop (tableSize : Nat) : Nat → Word → Table → Table
  | 0, _, t => t
  | n + 1, x, t => plainLoop tableSize n (step x) (touch tableSize t (step x))

/-- `Table[i] = i` over whatever `malloc` returned. -/
def initTable (tableSize : Nat) (t : Table) : Table :=
  fun i => if i < tableSize then BitVec.ofNat 64 i else t i

theorem xorAt_apply (t : Table) (i : Nat) (r : Word) (k : Nat) :
    xorAt t i r k = t k ^^^ xorAt 0 i r k := by
  rcases eq_or_ne k i with hk | hk
  · subst hk
    simp [xorAt]
  · simp [xorAt, Function.update_of_ne hk]

theorem touch_apply (tableSize : Nat) (t : Table) (r : Word) (k : Nat) :
    touch tableSize t r k = t k ^^^ touch tableSize 0 r k := by
  simp only [touch]
  rw [xorAt_apply, xorAt_apply t, xorAt_apply (xorAt 0 _ _), BitVec.xor_assoc]

theorem foldl_touch_apply (tableSize : Nat) (vs : List Word) (t : Table) (k : Nat) :
    vs.foldl (touch tableSize) t k = t k ^^^ vs.foldl (touch tableSize) 0 k := by
  induction vs generalizing t with
  | nil => simp
  | cons r vs ih =>
    rw [List.foldl_cons, List.foldl_cons, ih, ih (touch tableSize 0 r), touch_apply,
      BitVec.xor_assoc]

theorem touch_comm (tableSize : Nat) (t : Table) (r s : Word) :
    touch tableSize (touch tableSize t r) s = touch tableSize (touch tableSize t s) r := by
  funext k
  rw [touch_apply _ (touch tableSize t r), touch_apply _ t r, touch_apply _ (touch tableSize t s),
    touch_apply _ t s, BitVec.xor_assoc, BitVec.xor_assoc, BitVec.xor_comm (touch tableSize 0 r k)]

theorem foldl_touch_perm (tableSize : Nat) {vs ws : List Word} (h : vs.Perm ws) (t : Table) :
    vs.foldl (touch tableSize) t = ws.foldl (touch tableSize) t :=
  h.foldl_eq' (fun r _ s _ u => touch_comm tableSize u r s) t

theorem foldl_touch_twice (tableSize : Nat) (vs : List Word) (t : Table) :
    vs.foldl (touch tableSize) (vs.foldl (touch tableSize) t) = t := by
  funext k
  rw [foldl_touch_apply, foldl_touch_apply tableSize vs t, BitVec.xor_assoc, BitVec.xor_self,
    BitVec.xor_zero]

theorem foldl_updateStream (tableSize : Nat) (js : List Nat) (hjs : js.Nodup) (s : Streams) :
    js.foldl (updateStream tableSize) s =
      { ran := fun j => if j ∈ js then step (s.ran j) else s.ran j
        table := (js.map fun j => step (s.ran j)).foldl (touch tableSize) s.table } := by
  induction js generalizing s with
  | nil => simp
  | cons i js ih =>
    obtain ⟨hi, hjs⟩ := List.nodup_cons.mp hjs
    have hOther : ∀ j ∈ js, Function.update s.ran i (step (s.ran i)) j = s.ran j :=
      fun j hj => Function.update_of_ne (by rintro rfl; exact hi hj) _ _
    rw [List.foldl_cons, ih hjs]
    simp only [updateStream, List.map_cons, List.foldl_cons, Streams.mk.injEq]
    refine ⟨funext fun j => ?_, ?_⟩
    · by_cases hj : j ∈ js
      · rw [if_pos hj, if_pos (List.mem_cons_of_mem i hj), hOther j hj]
      · rcases eq_or_ne j i with hji | hji
        · subst hji
          rw [if_neg hj, if_pos List.mem_cons_self, Function.update_self]
        · rw [if_neg hj, if_neg (by simp [hji, hj]), Function.update_of_ne hji]
    · rw [List.map_congr_left fun j hj => by rw [hOther j hj]]

/-- The values of `rounds` rounds, in the order the loop produces them. -/
def roundValues (ran : Nat → Word) (rounds : Nat) : List Word :=
  (List.range rounds).flatMap fun i => (List.range 128).map fun j => step^[i + 1] (ran j)

theorem iterate_updateAll (tableSize rounds : Nat) (s : Streams) :
    ((updateAll tableSize)^[rounds] s).table =
      (roundValues s.ran rounds).foldl (touch tableSize) s.table ∧
    ∀ j < 128, ((updateAll tableSize)^[rounds] s).ran j = step^[rounds] (s.ran j) := by
  induction rounds with
  | zero => exact ⟨rfl, fun _ _ => rfl⟩
  | succ rounds ih =>
    obtain ⟨hTable, hRan⟩ := ih
    rw [Function.iterate_succ_apply', updateAll, foldl_updateStream _ _ List.nodup_range]
    have hValues : ((List.range 128).map fun j =>
        step (((updateAll tableSize)^[rounds] s).ran j)) =
        (List.range 128).map fun j => step^[rounds + 1] (s.ran j) := by
      apply List.map_congr_left
      intro j hj
      rw [hRan j (List.mem_range.mp hj), Function.iterate_succ_apply']
    refine ⟨?_, fun j hj => ?_⟩
    · rw [hValues, hTable, roundValues, roundValues, @List.range_succ rounds, List.flatMap_append,
        List.foldl_append]
      simp
    · simp only [List.mem_range, hj, if_true]
      rw [hRan j hj, Function.iterate_succ_apply']

theorem plainLoop_eq (tableSize n : Nat) (x : Word) (t : Table) :
    plainLoop tableSize n x t =
      ((List.range n).map fun k => step^[k + 1] x).foldl (touch tableSize) t := by
  induction n generalizing x t with
  | zero => rfl
  | succ n ih =>
    rw [plainLoop, ih, List.range_succ_eq_map, List.map_cons, List.foldl_cons, List.map_map]
    rfl

/-- Round `i` of stream `j` is step `rounds * j + i` of the plain stream. -/
theorem rounds_perm (rounds : Nat) :
    ((List.range rounds).flatMap fun i => (List.range 128).map fun j => rounds * j + i).Perm
      (List.range (rounds * 128)) := by
  rw [List.perm_ext_iff_of_nodup _ List.nodup_range]
  · intro k
    simp only [List.mem_flatMap, List.mem_range, List.mem_map]
    constructor
    · rintro ⟨i, hi, j, hj, rfl⟩
      calc rounds * j + i < rounds * j + rounds := by omega
        _ = rounds * (j + 1) := by ring
        _ ≤ rounds * 128 := Nat.mul_le_mul_left rounds hj
    · intro hk
      have hRounds : 0 < rounds := Nat.pos_of_ne_zero (by rintro rfl; simp at hk)
      exact ⟨k % rounds, Nat.mod_lt k hRounds, k / rounds, Nat.div_lt_of_lt_mul hk,
        Nat.div_add_mod k rounds⟩
  · rw [List.nodup_flatMap]
    refine ⟨fun i hi => ?_, ?_⟩
    · have hRounds : 0 < rounds := Nat.lt_of_le_of_lt (Nat.zero_le i) (List.mem_range.mp hi)
      exact List.nodup_range.map fun a b h => Nat.eq_of_mul_eq_mul_left hRounds (by omega)
    · apply List.nodup_range.pairwise_of_forall_ne
      intro a ha b hb hab x hxa hxb
      simp only [List.mem_map] at hxa hxb
      obtain ⟨j, _, rfl⟩ := hxa
      obtain ⟨j', _, h⟩ := hxb
      have hMod := congrArg (· % rounds) h
      simp only [Nat.mul_add_mod, Nat.mod_eq_of_lt (List.mem_range.mp ha),
        Nat.mod_eq_of_lt (List.mem_range.mp hb)] at hMod
      exact hab hMod.symm

theorem seed_eq {nupdate j : Nat} (hPeriod : ((nupdate / 128 * 127 : Nat) : Int) ≤ PERIOD)
    (hj : j < 128) : seed nupdate j = step^[nupdate / 128 * j] 1 := by
  have hLe : nupdate / 128 * j ≤ nupdate / 128 * 127 := Nat.mul_le_mul_left _ (by omega)
  have hSmall : nupdate / 128 * j < 2 ^ 63 := by
    simp only [PERIOD] at hPeriod
    omega
  have hInt : (BitVec.ofNat 64 (nupdate / 128 * j)).toInt = ((nupdate / 128 * j : Nat) : Int) := by
    have hNat : (BitVec.ofNat 64 (nupdate / 128 * j)).toNat = nupdate / 128 * j := by
      rw [BitVec.toNat_ofNat]
      exact Nat.mod_eq_of_lt (by omega)
    rw [BitVec.toInt_eq_toNat_of_lt (by omega), hNat]
  rw [seed, hInt]
  exact hpccStarts_eq_iterate (by omega)

theorem roundValues_perm {nupdate : Nat} (hDvd : 128 ∣ nupdate)
    (hPeriod : ((nupdate / 128 * 127 : Nat) : Int) ≤ PERIOD) :
    (roundValues (seed nupdate) (nupdate / 128)).Perm
      ((List.range nupdate).map fun k => step^[k + 1] 1) := by
  have hRounds : nupdate / 128 * 128 = nupdate := Nat.div_mul_cancel hDvd
  have h := (rounds_perm (nupdate / 128)).map fun k => step^[k + 1] (1 : Word)
  rw [hRounds, List.map_flatMap] at h
  refine List.Perm.trans (List.Perm.of_eq ?_) h
  apply List.flatMap_congr
  intro i _
  rw [List.map_map]
  apply List.map_congr_left
  intro j hj
  rw [seed_eq hPeriod (List.mem_range.mp hj), ← Function.iterate_add_apply]
  congr 1
  ring

theorem updateLoop_eq_plain {nupdate : Nat} (hDvd : 128 ∣ nupdate)
    (hPeriod : ((nupdate / 128 * 127 : Nat) : Int) ≤ PERIOD) (tableSize : Nat) (t : Table) :
    updateLoop tableSize nupdate t = plainLoop tableSize nupdate 1 t := by
  rw [updateLoop, (iterate_updateAll _ _ _).1, plainLoop_eq]
  exact foldl_touch_perm tableSize (roundValues_perm hDvd hPeriod) t

theorem updateLoop_twice (tableSize nupdate : Nat) (t : Table) :
    updateLoop tableSize nupdate (updateLoop tableSize nupdate t) = t := by
  rw [updateLoop, updateLoop, (iterate_updateAll _ _ _).1, (iterate_updateAll _ _ _).1]
  exact foldl_touch_twice tableSize _ t

/-- The interleaved loop leaves the table of one plain stream, and a second run of it
restores the initial table, whatever memory lies behind that. -/
theorem updates_equal_plain_stream (tableSize nupdate : Nat)
    (hDvd : 128 ∣ nupdate) (hPeriod : ((nupdate / 128 * 127 : Nat) : Int) ≤ PERIOD) (t : Table) :
    updateLoop tableSize nupdate (initTable tableSize t) =
      plainLoop tableSize nupdate 1 (initTable tableSize t) ∧
    ∀ i < tableSize, updateLoop tableSize nupdate
      (updateLoop tableSize nupdate (initTable tableSize t)) i = BitVec.ofNat 64 i := by
  refine ⟨updateLoop_eq_plain hDvd hPeriod tableSize _, fun i hi => ?_⟩
  rw [updateLoop_twice, initTable, if_pos hi]

theorem updates_equal_plain_stream_256 :
    updateLoop 8 256 (initTable 8 0) = plainLoop 8 256 1 (initTable 8 0) ∧
    ∀ i < 8, updateLoop 8 256 (updateLoop 8 256 (initTable 8 0)) i = BitVec.ofNat 64 i :=
  updates_equal_plain_stream 8 256 (by decide) (by decide) 0

end Trident.Gups
