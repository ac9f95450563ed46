import Mathlib.Algebra.BigOperators.Fin
import Trident.Graph500.Search

/-! # The queue from a bitmap

The slices of the threads cover the vertices, and whichever way their blocks come into the queue,
it holds the vertices of the bitmap, each once.
-/

namespace Trident.Graph500

open Relation Transition BlockQueue

section Slices

variable {longs : Nat} {bm : Bitmap}

def bitsBetween (bm : Bitmap) (place iEnd : Nat) : List Nat :=
  (List.range' place (iEnd - place)).filter fun i => bmGetBit bm i

theorem mem_bitsBetween {place iEnd i : Nat} :
    i ∈ bitsBetween bm place iEnd ↔ place ≤ i ∧ i < iEnd ∧ bmGetBit bm i := by
  rw [bitsBetween, List.mem_filter, List.mem_range'_1, decide_eq_true_eq, and_assoc]
  refine and_congr_right fun hLow => and_congr_left fun _ => ?_
  omega

theorem bitsBetween_append {a b c : Nat} (hab : a ≤ b) (hbc : b ≤ c) :
    bitsBetween bm a b ++ bitsBetween bm b c = bitsBetween bm a c := by
  have hRange : List.range' a (c - a) = List.range' a (b - a) ++ List.range' b (c - b) := by
    have hSplit := List.range'_append_1 (s := a) (m := b - a) (n := c - b)
    rw [Nat.add_sub_cancel' hab] at hSplit
    rw [hSplit]
    congr 1
    omega
  rw [bitsBetween, bitsBetween, bitsBetween, hRange, List.filter_append]

theorem bitsBetween_eq_nil {a b : Nat} (h : ∀ i, a ≤ i → i < b → ¬ bmGetBit bm i) :
    bitsBetween bm a b = [] := by
  refine List.eq_nil_iff_forall_not_mem.mpr fun i hi => ?_
  obtain ⟨hLow, hHigh, hBit⟩ := mem_bitsBetween.mp hi
  exact h i hLow hHigh hBit

theorem bitsBetween_succ {a b : Nat} (hab : a < b) :
    bitsBetween bm a b = (if bmGetBit bm a then [a] else []) ++ bitsBetween bm (a + 1) b := by
  have hFirst : bitsBetween bm a (a + 1) = if bmGetBit bm a then [a] else [] := by
    rw [bitsBetween, Nat.add_sub_cancel_left, List.range'_one, List.filter_cons]
    simp
  rw [← hFirst, bitsBetween_append (Nat.le_succ a) hab]

theorem flatten_gatherBlocks {iEnd : Nat} (hEnd : iEnd ≤ 64 * longs) (hSize : 64 * longs ≤ 2 ^ 32)
    (place : Nat) {fuel : Nat} (hFuel : iEnd < place + fuel) {i : Option Nat}
    (hNext : IsNext longs bm place i) (buffer : List Nat) :
    (gatherBlocks longs bm iEnd fuel i buffer).flatten = buffer ++ bitsBetween bm place iEnd := by
  have hStop : ∀ buffer : List Nat, (∀ r, place ≤ r → r < iEnd → ¬ bmGetBit bm r) →
      [buffer].flatten = buffer ++ bitsBetween bm place iEnd := fun buffer hNone => by
    rw [bitsBetween_eq_nil hNone, List.append_nil, List.flatten_singleton]
  induction fuel generalizing place i buffer with
  | zero => exact hStop buffer fun r hLow hHigh => by omega
  | succ fuel ih =>
    cases i with
    | none => exact hStop buffer fun r hLow hHigh => hNext r hLow (hHigh.trans_le hEnd)
    | some i =>
      obtain ⟨hPlace, hTop, hBit, hBefore⟩ := hNext
      rw [gatherBlocks]
      split
      · rename_i hIn
        have hRest : bitsBetween bm place iEnd = i :: bitsBetween bm (i + 1) iEnd := by
          rw [← bitsBetween_append hPlace hIn.le, bitsBetween_eq_nil hBefore, bitsBetween_succ hIn,
            if_pos hBit]
          rfl
        have hLater : ∀ buffer : List Nat,
            (gatherBlocks longs bm iEnd fuel (bmGetNextBit longs bm i) buffer).flatten =
              buffer ++ bitsBetween bm (i + 1) iEnd := fun buffer =>
          ih (i + 1) (by omega) (bmGetNextBit_isNext hTop hSize) buffer fun buffer hNone => by
            rw [bitsBetween_eq_nil hNone, List.append_nil, List.flatten_singleton]
        split
        · rw [List.flatten_cons, hLater, hRest, List.nil_append, List.append_assoc, List.singleton_append]
        · rw [hLater, hRest, List.append_assoc, List.singleton_append]
      · rename_i hOut
        exact hStop buffer fun r hLow hHigh => hBefore r hLow (by omega)

variable {nv nt : Nat}

theorem nodesPerThread_spec (hnt : 0 < nt) (hnv : 0 < nv) :
    0 < nodesPerThread nv nt ∧ nv ≤ nodesPerThread nv nt * nt := by
  have hDiv := Nat.div_add_mod (nv + nt - 1) nt
  have hMod := Nat.mod_lt (nv + nt - 1) hnt
  rw [nodesPerThread]
  rw [Nat.mul_comm] at hDiv
  refine ⟨Nat.div_pos (by omega) hnt, by omega⟩

theorem flatten_sliceBlocks (hnt : 0 < nt) (hEnd : nv ≤ 64 * longs) (hSize : 64 * longs ≤ 2 ^ 32)
    (tid : Nat) : (sliceBlocks longs bm nv nt tid).flatten =
      bitsBetween bm (min nv (nodesPerThread nv nt * tid)) (min nv (nodesPerThread nv nt * (tid + 1))) := by
  obtain ⟨i, hi⟩ : ∃ i, nodesPerThread nv nt * tid = i := ⟨_, rfl⟩
  have hStop : (if i + nodesPerThread nv nt ≥ nv then nv else i + nodesPerThread nv nt) =
      min nv (i + nodesPerThread nv nt) := by
    split <;> omega
  rw [Nat.mul_succ]
  simp only [sliceBlocks, hi, hStop]
  split
  · rename_i hIn
    have hPos := (nodesPerThread_spec hnt (by omega : 0 < nv)).1
    rw [flatten_gatherBlocks (by omega) hSize (i + 1) (by omega)
      (bmGetNextBit_isNext (by omega) hSize), Nat.min_eq_right hIn.le,
      bitsBetween_succ (a := i) (by omega)]
  · rename_i hOut
    rw [Nat.min_eq_left (not_lt.mp hOut), Nat.min_eq_left (by omega)]
    exact (bitsBetween_eq_nil fun r hLow hHigh => by omega).symm

theorem sum_sliceBlocks (hnt : 0 < nt) (hEnd : nv ≤ 64 * longs) (hSize : 64 * longs ≤ 2 ^ 32) (x : Nat) :
    ∑ t : Fin nt, (sliceBlocks longs bm nv nt t).flatten.count x = (bitsBetween bm 0 nv).count x := by
  have hPrefix : ∀ n, ∑ tid ∈ Finset.range n, (sliceBlocks longs bm nv nt tid).flatten.count x =
      (bitsBetween bm 0 (min nv (nodesPerThread nv nt * n))).count x := by
    intro n
    induction n with
    | zero => simp [bitsBetween]
    | succ n ih =>
      have hMono : nodesPerThread nv nt * n ≤ nodesPerThread nv nt * (n + 1) :=
        Nat.mul_le_mul_left _ (Nat.le_succ n)
      rw [Finset.sum_range_succ, ih, flatten_sliceBlocks hnt hEnd hSize, ← List.count_append,
        bitsBetween_append (Nat.zero_le _) (by omega)]
  rw [Fin.sum_univ_eq_sum_range fun tid => (sliceBlocks longs bm nv nt tid).flatten.count x, hPrefix]
  congr 2
  rcases Nat.eq_zero_or_pos nv with rfl | hPos
  · exact Nat.zero_min _
  · exact Nat.min_eq_left (nodesPerThread_spec hnt hPos).2

end Slices

section Fill

variable {nt : Nat} {m₀ m m' : Memory} {threads threads' : Fin nt → Filler} {bits : List Nat}

/-- `bits` are the vertices that are to come into the queue. -/
structure FillInv (bits : List Nat) (m₀ m : Memory) (threads : Fin nt → Filler) : Prop where
  tree : m.tree = m₀.tree
  k1 : m.k1 = m₀.k1
  next : m.next = m₀.next
  queue : ∃ queue, Queued 0 m.k2 m.vlist (Filler.storing ∘ threads) queue ∧
    Accounts queue ((fun thread => thread.blocks.flatten) ∘ threads) (bits.count ·)

theorem fillInv_start {longs nv : Nat} (hnt : 0 < nt) (hEnd : nv ≤ 64 * longs)
    (hSize : 64 * longs ≤ 2 ^ 32) (m : Memory) (hk2 : m.k2 = 0) (bm : Bitmap) :
    FillInv (bitsBetween bm 0 nv) m m fun t : Fin nt => ⟨sliceBlocks longs bm nv nt t, none⟩ := by
  refine ⟨rfl, rfl, rfl, [], ?_, fun x => ?_⟩
  · rw [hk2]
    exact queued_nil 0 m.vlist
  · rw [List.count_nil, Nat.zero_add]
    exact sum_sliceBlocks hnt hEnd hSize x

theorem FillInv.step (h : FillInv bits m₀ m threads)
    (hTurn : Interleave FillStep (m, threads) (m', threads')) : FillInv bits m₀ m' threads' := by
  obtain ⟨hTree, hk1, hNext, queue, hQueued, hAccounts⟩ := h
  obtain ⟨t, next, hStep, rfl⟩ := hTurn
  obtain ⟨thread, hThread⟩ : ∃ thread, threads t = thread := ⟨_, rfl⟩
  have hStep : FillStep m thread m' next := hThread ▸ hStep
  cases hStep with
  | reserve block blocks =>
    refine ⟨hTree, hk1, hNext, queue ++ block, ?_, ?_⟩
    · rw [Function.comp_update]
      exact hQueued.reserve (by rw [Function.comp_apply, hThread]) block
    · rw [Function.comp_update]
      refine hAccounts.reserve ?_
      rw [Function.comp_apply, hThread, List.flatten_cons]
  | store blocks start block =>
    refine ⟨hTree, hk1, hNext, queue, ?_, ?_⟩
    · rw [Function.comp_update]
      exact hQueued.store (by rw [Function.comp_apply, hThread])
    · have hRest : (fun thread : Filler => thread.blocks.flatten) ∘
          Function.update threads t ⟨blocks, none⟩ = (fun thread => thread.blocks.flatten) ∘ threads := by
        rw [Function.comp_update]
        refine Function.update_eq_self_iff.mpr ?_
        rw [Function.comp_apply, hThread]
      rw [hRest]
      exact hAccounts

theorem FillInv.finished (h : FillInv bits m₀ m threads)
    (hDone : ∀ t, (threads t).blocks = [] ∧ (threads t).storing = none) :
    ((List.range m.k2).map m.vlist).Perm bits := by
  obtain ⟨_, _, _, queue, hQueued, hAccounts⟩ := h
  have hCells := hQueued.cells_eq fun t => (hDone t).2
  rw [Nat.sub_zero, ← List.range_eq_range'] at hCells
  rw [hCells]
  refine List.perm_iff_count.mpr fun x => hAccounts.queue_count (fun t => ?_) x
  rw [Function.comp_apply, (hDone t).1]
  rfl

theorem exists_fillStep {t : Fin nt} (hOn : ¬ ((threads t).blocks = [] ∧ (threads t).storing = none)) :
    ∃ s, Interleave FillStep (m, threads) s := by
  suffices hStep : ∃ m' next, FillStep m (threads t) m' next by
    obtain ⟨m', next, hStep⟩ := hStep
    exact ⟨(m', Function.update threads t next), t, next, hStep, rfl⟩
  obtain ⟨thread, hThread⟩ : ∃ thread, threads t = thread := ⟨_, rfl⟩
  rw [hThread] at hOn ⊢
  obtain ⟨blocks, storing⟩ := thread
  cases storing with
  | none =>
    cases blocks with
    | nil => exact absurd ⟨rfl, rfl⟩ hOn
    | cons block blocks => exact ⟨_, _, .reserve m block blocks⟩
  | some held => exact ⟨_, _, .store m blocks held.1 held.2⟩

def Filler.weight (thread : Filler) : Nat :=
  2 * thread.blocks.length + if thread.storing.isSome then 1 else 0

theorem fillStep_weight_lt (hTurn : Interleave FillStep (m, threads) (m', threads')) :
    ∑ t, (threads' t).weight < ∑ t, (threads t).weight := by
  obtain ⟨t, next, hStep, rfl⟩ := hTurn
  refine sum_update_lt Filler.weight threads ?_
  obtain ⟨thread, hThread⟩ : ∃ thread, threads t = thread := ⟨_, rfl⟩
  have hStep : FillStep m thread m' next := hThread ▸ hStep
  rw [hThread]
  cases hStep with
  | reserve =>
    simp only [Filler.weight, List.length_cons, Option.isSome_none, Option.isSome_some, if_true,
      Bool.false_eq_true, if_false]
    omega
  | store => simp [Filler.weight]

end Fill

end Trident.Graph500
