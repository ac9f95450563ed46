import Mathlib.Order.Bounds.Basic
import Trident.Graph500.BitmapLoops
import Trident.Graph500.QueueFill

/-! # The frontier as a bitmap and as a queue

What a bitmap from `bm_init` is good for: the scan for the next bit, the loop that
makes a queue of it and the loop that makes it of a queue. All of it rests on the
number of words, which `bm_init` computes in an `int`.
-/

namespace Trident.Graph500

open Relation Transition BlockQueue

/-- The start of `fill_queue_from_bitmap`, with `out` and `in` set to 0. -/
def fillQueueStart (longs nv nt : Nat) (m : Memory) : Memory × (Fin nt → Filler) :=
  ({ m with k1 := 0, k2 := 0 }, fun t => ⟨sliceBlocks longs m.next nv nt t, none⟩)

/-- The start of `fill_bitmap_from_queue` on a cleared bitmap. -/
def fillBitmapStart {nt : Nat} (longs : Nat) (share : Fin nt → List Nat) (m : Memory) :
    Memory × (Fin nt → BitThread) :=
  ({ m with next := bmReset longs m.next }, fun t => ⟨share t, .idle, 0⟩)

def Memory.queue (m : Memory) : List Nat := (List.range' m.k1 (m.k2 - m.k1)).map m.vlist

/-- A run from `s` that cannot go on. -/
def EndsIn {σ : Type*} (step : σ → σ → Prop) (s t : σ) : Prop :=
  ReflTransGen step s t ∧ ∀ u, ¬ step t u

/-- What is asked of bitmaps of `longs` words for the vertices below `nv`, for teams of any size and
for any order of their steps. -/
structure FrontierLoops (longs nv : Nat) : Prop where
  ends : ∀ nt, (WellFounded fun t s : Memory × (Fin nt → Filler) => Interleave FillStep s t) ∧
    ∀ vlist, WellFounded fun t s : Memory × (Fin nt → BitThread) =>
      Interleave (BitStep (fillVisit vlist)) s t
  next : ∀ bm, bmSet longs bm ⊆ Set.Iio nv → ∀ pos < nv,
    match bmGetNextBit longs bm pos with
    | some i => IsLeast {p | p ∈ bmSet longs bm ∧ pos < p} i
    | none => {p | p ∈ bmSet longs bm ∧ pos < p} = ∅
  fillQueue : ∀ nt, 0 < nt → ∀ m, bmSet longs m.next ⊆ Set.Iio nv →
    ∀ s, EndsIn (Interleave FillStep) (fillQueueStart longs nv nt m) s →
      s.1.k1 = 0 ∧ s.1.queue.Nodup ∧ ∀ p, p ∈ s.1.queue ↔ p ∈ bmSet longs m.next
  fillBitmap : ∀ nt, 0 < nt → ∀ (share : Fin nt → List Nat) (m : Memory), (∀ p ∈ m.queue, p < nv) →
    Shares share (List.range' m.k1 (m.k2 - m.k1)) →
    ∀ s, EndsIn (Interleave (BitStep (fillVisit m.vlist))) (fillBitmapStart longs share m) s →
      (∀ p, p ∈ bmSet longs s.1.next ↔ p ∈ m.queue) ∧
      ∀ u, EndsIn (Interleave FillStep) (fillQueueStart longs nv nt s.1) u →
        u.1.queue.Nodup ∧ ∀ p, p ∈ u.1.queue ↔ p ∈ m.queue

/-- No run of the two loops goes on for ever. -/
theorem wellFounded_fillStep (nt : Nat) :
    WellFounded fun t s : Memory × (Fin nt → Filler) => Interleave FillStep s t :=
  wellFounded_of_decreasing (fun s => ∑ t, (s.2 t).weight) fun _ _ hStep => fillStep_weight_lt hStep

theorem wellFounded_bitStep (nt : Nat) (visit : (Nat → Int) → Nat → (Nat → Int) × Option Nat) :
    WellFounded fun t s : Memory × (Fin nt → BitThread) => Interleave (BitStep visit) s t :=
  wellFounded_of_decreasing (fun s => ∑ t, (s.2 t).weight nt s.1.next) fun _ _ hStep =>
    bitStep_weight_lt hStep

/-! ## The loops -/

section Loops

variable {longs nv nt : Nat}

theorem nextBit_least {bm : Bitmap} (hSize : 64 * longs ≤ 2 ^ 32) {pos : Nat} (hPos : pos < 64 * longs) :
    match bmGetNextBit longs bm pos with
    | some i => IsLeast {p | p ∈ bmSet longs bm ∧ pos < p} i
    | none => {p | p ∈ bmSet longs bm ∧ pos < p} = ∅ := by
  have hNext : IsNext longs bm (pos + 1) (bmGetNextBit longs bm pos) :=
    bmGetNextBit_isNext hPos hSize
  cases hFound : bmGetNextBit longs bm pos with
  | none =>
    rw [hFound] at hNext
    refine Set.eq_empty_of_forall_notMem fun p hp => ?_
    exact hNext p hp.2 hp.1.1 hp.1.2
  | some i =>
    rw [hFound] at hNext
    obtain ⟨hLow, hHigh, hBit, hBefore⟩ := hNext
    refine ⟨⟨⟨hHigh, hBit⟩, hLow⟩, fun p hp => ?_⟩
    by_contra hLess
    exact hBefore p hp.2 (Nat.lt_of_not_le hLess) hp.1.2

theorem mem_bitsBetween_iff {bm : Bitmap} (hEnd : nv ≤ 64 * longs) (hBits : bmSet longs bm ⊆ Set.Iio nv)
    (p : Nat) : p ∈ bitsBetween bm 0 nv ↔ p ∈ bmSet longs bm := by
  rw [mem_bitsBetween]
  constructor
  · rintro ⟨-, hLt, hBit⟩
    exact ⟨hLt.trans_le hEnd, hBit⟩
  · intro hp
    exact ⟨Nat.zero_le p, hBits hp, hp.2⟩

theorem nodup_bitsBetween (bm : Bitmap) (a b : Nat) : (bitsBetween bm a b).Nodup :=
  List.Nodup.filter _ List.nodup_range'

theorem fillQueue_ends (hnt : 0 < nt) (hEnd : nv ≤ 64 * longs) (hSize : 64 * longs ≤ 2 ^ 32) {m : Memory}
    {s : Memory × (Fin nt → Filler)}
    (h : EndsIn (Interleave FillStep) (fillQueueStart longs nv nt m) s) :
    s.1.k1 = 0 ∧ s.1.queue.Perm (bitsBetween m.next 0 nv) := by
  obtain ⟨hRun, hFinal⟩ := h
  have hInv : FillInv (bitsBetween m.next 0 nv) { m with k1 := 0, k2 := 0 } s.1 s.2 := by
    refine invariant_of_reaches
      (I := fun s => FillInv (bitsBetween m.next 0 nv) { m with k1 := 0, k2 := 0 } s.1 s.2) ?_ ?_ hRun
    · intro s t hs hStep
      exact hs.step hStep
    · exact fillInv_start hnt hEnd hSize { m with k1 := 0, k2 := 0 } rfl m.next
  have hDone : ∀ t, (s.2 t).blocks = [] ∧ (s.2 t).storing = none := by
    intro t
    by_contra hOn
    obtain ⟨u, hStep⟩ := exists_fillStep (m := s.1) hOn
    exact hFinal u hStep
  have hk1 : s.1.k1 = 0 := hInv.k1
  refine ⟨hk1, ?_⟩
  rw [Memory.queue, hk1, Nat.sub_zero, ← List.range_eq_range']
  exact hInv.finished hDone

theorem fillBitmap_ends {share : Fin nt → List Nat} {m : Memory}
    (hShare : Shares share (List.range' m.k1 (m.k2 - m.k1))) {s : Memory × (Fin nt → BitThread)}
    (h : EndsIn (Interleave (BitStep (fillVisit m.vlist))) (fillBitmapStart longs share m) s) (p : Nat) :
    bmGetBit s.1.next p ↔ bmGetBit (bmReset longs m.next) p ∨ p ∈ m.queue := by
  obtain ⟨hRun, hFinal⟩ := h
  have hNodup : (List.range' m.k1 (m.k2 - m.k1)).Nodup := List.nodup_range'
  have hInv : BitInv m.tree (fun q => some (m.vlist q)) (List.range' m.k1 (m.k2 - m.k1))
      { m with next := bmReset longs m.next } s.1 s.2 := by
    refine invariant_of_reaches (I := fun s => BitInv m.tree (fun q => some (m.vlist q))
      (List.range' m.k1 (m.k2 - m.k1)) { m with next := bmReset longs m.next } s.1 s.2) ?_ ?_ hRun
    · intro s t hs hStep
      exact hs.step hNodup (fillVisit_visits m.vlist _) hStep
    · exact bitInv_start hShare
  have hDone : ∀ t, (s.2 t).todo = [] ∧ (s.2 t).phase = .idle := by
    intro t
    by_contra hOn
    obtain ⟨u, hStep⟩ := exists_bitStep (m := s.1) hOn
    exact hFinal u hStep
  obtain ⟨-, -, hBits, -⟩ := hInv.finished hDone
  rw [hBits p, Memory.queue, List.mem_map]
  simp only [Option.some.injEq]

theorem frontierLoops (hEnd : nv ≤ 64 * longs) (hSize : 64 * longs ≤ 2 ^ 32) :
    FrontierLoops longs nv where
  ends nt := ⟨wellFounded_fillStep nt, fun vlist => wellFounded_bitStep nt (fillVisit vlist)⟩
  next bm _ pos hPos := nextBit_least hSize (hPos.trans_le hEnd)
  fillQueue nt hnt m hBits s hs := by
    obtain ⟨hk1, hPerm⟩ := fillQueue_ends hnt hEnd hSize hs
    refine ⟨hk1, hPerm.nodup_iff.mpr (nodup_bitsBetween _ _ _), fun p => ?_⟩
    rw [hPerm.mem_iff, mem_bitsBetween_iff hEnd hBits]
  fillBitmap nt hnt share m hQueue hShare s hs := by
    have hSet : ∀ p, p ∈ bmSet longs s.1.next ↔ p ∈ m.queue := by
      intro p
      constructor
      · rintro ⟨hLt, hBit⟩
        exact ((fillBitmap_ends hShare hs p).mp hBit).resolve_left (bmGetBit_reset hLt _)
      · intro hp
        exact ⟨(hQueue p hp).trans_le hEnd, (fillBitmap_ends hShare hs p).mpr (.inr hp)⟩
    have hBits : bmSet longs s.1.next ⊆ Set.Iio nv := fun p hp => hQueue p ((hSet p).mp hp)
    refine ⟨hSet, fun u hu => ?_⟩
    obtain ⟨-, hPerm⟩ := fillQueue_ends hnt hEnd hSize hu
    refine ⟨hPerm.nodup_iff.mpr (nodup_bitsBetween _ _ _), fun p => ?_⟩
    rw [hPerm.mem_iff, mem_bitsBetween_iff hEnd hBits, hSet]

end Loops

/-- The bitmaps are right exactly where `size + 63` does not overflow an `int`. -/
theorem frontierLoops_iff {nv : Nat} (hInt : nv < 2 ^ 31) :
    (∃ longs bm, bmInit nv = some (longs, bm) ∧ bmSet longs bm = ∅ ∧ FrontierLoops longs nv) ↔
      nv + 63 < 2 ^ 31 := by
  constructor
  · rintro ⟨longs, bm, hInit, -, -⟩
    have hSome : (bmInit nv).isSome := hInit ▸ rfl
    rw [bmInit_isSome_iff (by omega)] at hSome
    omega
  · intro hSmall
    obtain ⟨hEnd, hSize⟩ := numLongs_bounds hSmall
    obtain ⟨bm, hInit, hEmpty⟩ := bmInit_eq hSmall
    exact ⟨numLongs nv, bm, hInit, hEmpty, frontierLoops hEnd hSize⟩

theorem frontierLoops_iff_thousand :
    ∃ longs bm, bmInit 1000 = some (longs, bm) ∧ bmSet longs bm = ∅ ∧ FrontierLoops longs 1000 :=
  (frontierLoops_iff (by decide)).mpr (by decide)

/-- The largest `int` there is. -/
theorem frontierLoops_fails : bmInit 2147483647 = none ∧
    ¬ ∃ longs bm, bmInit 2147483647 = some (longs, bm) ∧ bmSet longs bm = ∅ ∧
      FrontierLoops longs 2147483647 := by
  have hNone : bmInit 2147483647 = none := rfl
  refine ⟨hNone, ?_⟩
  rintro ⟨longs, bm, hInit, -, -⟩
  rw [hNone] at hInit
  cases hInit

end Trident.Graph500
