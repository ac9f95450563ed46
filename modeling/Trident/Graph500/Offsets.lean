import Mathlib.Algebra.Order.BigOperators.Group.Finset
import Mathlib.Tactic.Ring
import Trident.Graph500.EdgeList

/-! # The offsets of the slots

However the threads take turns, `find_nv` finds the greatest vertex, and slot by slot the
offsets add up the padded degrees.
-/

namespace Trident.Graph500

open Relation Transition

section GreatestVertex

/-- At least every endpoint, and one of them unless there is none. -/
structure IsMax (edges : List PackedEdge) (m : Int) : Prop where
  bound : ∀ e ∈ edges, (e.i : Int) ≤ m ∧ (e.j : Int) ≤ m
  reached : m = -1 ∨ ∃ e ∈ edges, m = e.i ∨ m = e.j

theorem IsMax.le {edges : List PackedEdge} {m m' : Int} (h : IsMax edges m) (h' : IsMax edges m') :
    m ≤ m' := by
  cases h.reached with
  | inl hNone =>
    rcases h'.reached with hNone' | ⟨e, _, hi | hj⟩ <;> omega
  | inr hSome =>
    obtain ⟨e, he, hi | hj⟩ := hSome
    · exact hi ▸ (h'.bound e he).1
    · exact hj ▸ (h'.bound e he).2

theorem IsMax.unique {edges : List PackedEdge} {m m' : Int} (h : IsMax edges m)
    (h' : IsMax edges m') : m = m' := le_antisymm (h.le h') (h'.le h)

theorem scanMax_isMax (edges : List PackedEdge) : IsMax edges (scanMax edges) := by
  induction edges using List.reverseRecOn with
  | nil => exact ⟨fun e he => absurd he List.not_mem_nil, Or.inl rfl⟩
  | append_singleton edges e ih =>
    obtain ⟨hBound, hReached⟩ := ih
    obtain ⟨m, hm⟩ : ∃ m, scanMax edges = m := ⟨_, rfl⟩
    have hLast : scanMax (edges ++ [e]) = max (max m e.i) e.j := by
      rw [← hm, scanMax, List.foldl_append, ← scanMax, List.foldl_cons, List.foldl_nil]
      simp only [gt_iff_lt]
      split <;> split <;> omega
    rw [hm] at hBound hReached
    rw [hLast]
    constructor
    · intro d hd
      cases List.mem_append.mp hd with
      | inl hOld =>
        have h := hBound d hOld
        omega
      | inr hNew =>
        rw [List.mem_singleton.mp hNew]
        omega
    · have hNew : ∀ v : Int, v = e.i ∨ v = e.j → v = -1 ∨ ∃ d ∈ edges ++ [e], v = d.i ∨ v = d.j :=
        fun v hv => Or.inr ⟨e, List.mem_append_right edges (List.mem_singleton_self e), hv⟩
      have hOld : m = -1 ∨ ∃ d ∈ edges ++ [e], m = d.i ∨ m = d.j :=
        hReached.imp_right fun ⟨d, hd, hv⟩ => ⟨d, List.mem_append_left _ hd, hv⟩
      rcases max_choice (max m (e.i : Int)) e.j with hMax | hMax
      · rw [hMax]
        rcases max_choice m (e.i : Int) with hMax' | hMax'
        · rwa [hMax']
        · rw [hMax']
          exact hNew _ (Or.inl rfl)
      · rw [hMax]
        exact hNew _ (Or.inr rfl)

structure MaxInv {nt : Nat} (chunk : Fin nt → List PackedEdge) (s : Int × (Fin nt → MaxThread)) :
    Prop where
  scanned : ∀ t, (s.2 t).tmaxvtx = scanMax (chunk t)
  source : s.1 = -1 ∨ ∃ t, s.1 = scanMax (chunk t)
  comparing : ∀ t g, (s.2 t).phase = .comparing g → g ≤ s.1
  finished : ∀ t, (s.2 t).phase = .finished → (s.2 t).tmaxvtx ≤ s.1

theorem MaxStep.mono {m m' : Int} {a b : MaxThread} (h : MaxStep m a m' b) : m ≤ m' := by
  cases h with
  | read | retry | leave => exact le_refl _
  | swap t h => exact le_of_lt h

variable {nt : Nat} {chunk : Fin nt → List PackedEdge}

theorem MaxInv.step {s s' : Int × (Fin nt → MaxThread)} (h : MaxInv chunk s)
    (hStep : Interleave MaxStep s s') : MaxInv chunk s' := by
  obtain ⟨t, next, hTurn, hThreads⟩ := hStep
  have hMono := hTurn.mono
  have hOwn : s'.2 t = next := by rw [hThreads, Function.update_self]
  have hOther : ∀ t' ≠ t, s'.2 t' = s.2 t' := fun t' hNe => by
    rw [hThreads, Function.update_of_ne hNe]
  have hNext : next.tmaxvtx = (s.2 t).tmaxvtx ∧ (s'.1 = s.1 ∨ s'.1 = (s.2 t).tmaxvtx) ∧
      (∀ g, next.phase = .comparing g → g ≤ s'.1) ∧
      (next.phase = .finished → next.tmaxvtx ≤ s'.1) := by
    have hCompare := h.comparing t
    generalize s.2 t = thread at hTurn hCompare
    generalize s.1 = m at hTurn hCompare
    generalize s'.1 = m' at hTurn
    cases hTurn with
    | read v =>
      refine ⟨rfl, Or.inl rfl, fun g hg => ?_, nofun⟩
      cases hg
      exact le_refl _
    | swap v hGt =>
      refine ⟨rfl, Or.inr rfl, fun g hg => ?_, nofun⟩
      cases hg
      exact le_of_lt hGt
    | retry v g hGt hNe =>
      refine ⟨rfl, Or.inl rfl, fun g hg => ?_, nofun⟩
      cases hg
      exact le_refl _
    | leave v g hLe => exact ⟨rfl, Or.inl rfl, nofun, fun _ => (not_lt.mp hLe).trans (hCompare g rfl)⟩
  obtain ⟨hSame, hShared, hCompare, hFinish⟩ := hNext
  constructor
  · intro t'
    obtain rfl | hNe := eq_or_ne t' t
    · rw [hOwn, hSame, h.scanned]
    · rw [hOther t' hNe, h.scanned]
  · rcases hShared with hOld | hNew
    · rw [hOld]
      exact h.source
    · exact Or.inr ⟨t, hNew.trans (h.scanned t)⟩
  · intro t' g hg
    obtain rfl | hNe := eq_or_ne t' t
    · exact hCompare g (hOwn ▸ hg)
    · exact (h.comparing t' g (hOther t' hNe ▸ hg)).trans hMono
  · intro t' hFinished
    obtain rfl | hNe := eq_or_ne t' t
    · rw [hOwn] at hFinished ⊢
      exact hFinish hFinished
    · rw [hOther t' hNe] at hFinished ⊢
      exact (h.finished t' hFinished).trans hMono

theorem Schedule.maxvtx_eq {edges : List PackedEdge} (run : Schedule nt edges) :
    run.maxvtx = scanMax edges := by
  have hStart : MaxInv run.chunk (-1, fun t => ⟨scanMax (run.chunk t), .reading⟩) :=
    ⟨fun _ => rfl, Or.inl rfl, fun _ _ h => (by cases h), fun _ h => (by cases h)⟩
  obtain ⟨hScanned, hSource, _, hFinished⟩ :=
    invariant_of_reaches (fun _ _ hInv hStep => hInv.step hStep) hStart run.reached
  have hMem : ∀ e, e ∈ edges ↔ ∃ t, e ∈ run.chunk t := fun e => by
    rw [← run.chunk_perm.mem_iff, List.mem_flatMap]
    simp
  have hMax : IsMax edges run.maxvtx := by
    constructor
    · intro e he
      obtain ⟨t, ht⟩ := (hMem e).mp he
      have hLe : scanMax (run.chunk t) ≤ run.maxvtx := hScanned t ▸ hFinished t (run.finished t)
      have hBound := (scanMax_isMax (run.chunk t)).bound e ht
      exact ⟨hBound.1.trans hLe, hBound.2.trans hLe⟩
    · rcases hSource with hNone | ⟨t, ht⟩
      · exact Or.inl hNone
      · have hSource : run.maxvtx = scanMax (run.chunk t) := ht
        rw [hSource]
        exact (scanMax_isMax (run.chunk t)).reached.imp_right
          fun ⟨e, he, hv⟩ => ⟨e, (hMem e).mpr ⟨t, he⟩, hv⟩
  exact hMax.unique (scanMax_isMax edges)

/-- The steps that a thread has left as long as `maxvtx` stays as it is. -/
def MaxPhase.weight (maxvtx : Int) : MaxPhase → Nat
  | .reading => 2
  | .comparing gmaxvtx => if gmaxvtx = maxvtx then 1 else 2
  | .finished => 0

theorem MaxPhase.weight_le (maxvtx : Int) (phase : MaxPhase) : phase.weight maxvtx ≤ 2 := by
  cases phase with
  | reading => exact le_refl 2
  | comparing gmaxvtx =>
    rw [weight]
    split <;> omega
  | finished => exact Nat.zero_le 2

/-- A swap may send every other thread back once, and takes its own thread out of those that have
more than `maxvtx`. -/
def maxWeight (s : Int × (Fin nt → MaxThread)) : Nat :=
  (2 * nt + 1) * (Finset.univ.filter fun t => (s.2 t).tmaxvtx > s.1).card +
    ∑ t, (s.2 t).phase.weight s.1

theorem sum_weight_le (m : Int) (threads : Fin nt → MaxThread) :
    ∑ t, (threads t).phase.weight m ≤ 2 * nt := by
  have hEach : ∑ t, (threads t).phase.weight m ≤ ∑ _t : Fin nt, 2 :=
    Finset.sum_le_sum fun t _ => MaxPhase.weight_le m (threads t).phase
  rwa [Finset.sum_const, Finset.card_univ, Fintype.card_fin, nsmul_eq_mul, Nat.mul_comm] at hEach

theorem maxWeight_of_same {m : Int} {threads : Fin nt → MaxThread} {t : Fin nt} {next : MaxThread}
    (hSame : next.tmaxvtx = (threads t).tmaxvtx)
    (hLess : next.phase.weight m < (threads t).phase.weight m) :
    maxWeight (m, Function.update threads t next) < maxWeight (m, threads) := by
  have hValues : ∀ t', (Function.update threads t next t').tmaxvtx = (threads t').tmaxvtx := by
    intro t'
    obtain rfl | hNe := eq_or_ne t' t
    · rw [Function.update_self, hSame]
    · rw [Function.update_of_ne hNe]
  have hSum := sum_update_add (fun thread : MaxThread => thread.phase.weight m) threads t next
  simp only [maxWeight, hValues]
  omega

theorem maxWeight_of_swap {m : Int} {threads : Fin nt → MaxThread} {t : Fin nt} (next : MaxThread)
    (hSame : next.tmaxvtx = (threads t).tmaxvtx) (hGt : (threads t).tmaxvtx > m) :
    maxWeight ((threads t).tmaxvtx, Function.update threads t next) < maxWeight (m, threads) := by
  have hFewer : (Finset.univ.filter fun t' =>
        (Function.update threads t next t').tmaxvtx > (threads t).tmaxvtx).card <
      (Finset.univ.filter fun t' => (threads t').tmaxvtx > m).card := by
    refine Finset.card_lt_card ⟨fun t' ht' => ?_, fun hAll => ?_⟩
    · obtain rfl | hNe := eq_or_ne t' t
      · exact Finset.mem_filter.mpr ⟨Finset.mem_univ t', hGt⟩
      · have hIn := (Finset.mem_filter.mp ht').2
        rw [Function.update_of_ne hNe] at hIn
        exact Finset.mem_filter.mpr ⟨Finset.mem_univ t', hGt.trans hIn⟩
    · have hIn := (Finset.mem_filter.mp (hAll (Finset.mem_filter.mpr ⟨Finset.mem_univ t, hGt⟩))).2
      rw [Function.update_self, hSame] at hIn
      exact lt_irrefl _ hIn
  have hSum := sum_weight_le (threads t).tmaxvtx (Function.update threads t next)
  have hScale := Nat.mul_le_mul_left (2 * nt + 1) hFewer
  simp only [maxWeight]
  rw [Nat.succ_eq_add_one, Nat.mul_add, Nat.mul_one] at hScale
  omega

theorem maxStep_ends : WellFounded fun (s' s : Int × (Fin nt → MaxThread)) =>
    Interleave MaxStep s s' := by
  refine wellFounded_of_decreasing maxWeight ?_
  rintro ⟨m, threads⟩ ⟨m', threads'⟩ ⟨t, next, hTurn, hThreads⟩
  obtain rfl : threads' = Function.update threads t next := hThreads
  obtain ⟨thread, hThread⟩ : ∃ thread, threads t = thread := ⟨_, rfl⟩
  have hTurn : MaxStep m thread m' next := hThread ▸ hTurn
  cases hTurn with
  | read v =>
    refine maxWeight_of_same (by rw [hThread]) ?_
    rw [hThread, MaxPhase.weight, MaxPhase.weight, if_pos rfl]
    exact Nat.lt_succ_self 1
  | swap v hGt =>
    have hValue : (threads t).tmaxvtx = m' := by rw [hThread]
    have hSwap := maxWeight_of_swap ⟨m', .comparing m⟩ hValue.symm (hValue.symm ▸ hGt)
    rwa [hValue] at hSwap
  | retry v g hGt hNe =>
    refine maxWeight_of_same (by rw [hThread]) ?_
    rw [hThread, MaxPhase.weight, MaxPhase.weight, if_pos rfl, if_neg hNe.symm]
    exact Nat.lt_succ_self 1
  | leave v g hLe =>
    refine maxWeight_of_same (by rw [hThread]) ?_
    rw [hThread, MaxPhase.weight, MaxPhase.weight]
    split <;> omega

theorem exists_maxStep {m : Int} {thread : MaxThread} (h : thread.phase ≠ .finished) :
    ∃ m' next, MaxStep m thread m' next := by
  obtain ⟨v, phase⟩ := thread
  cases phase with
  | reading => exact ⟨_, _, .read m v⟩
  | comparing g =>
    cases lt_or_ge g v with
    | inl hGt =>
      obtain rfl | hNe := eq_or_ne m g
      · exact ⟨_, _, .swap m v hGt⟩
      · exact ⟨_, _, .retry m v g hGt hNe⟩
    | inr hLe => exact ⟨_, _, .leave m v g (not_lt.mpr hLe)⟩
  | finished => exact absurd rfl h

theorem exists_schedule {edges : List PackedEdge} (hnt : 0 < nt)
    (chunk : Fin nt → List PackedEdge) (hPerm : ((List.finRange nt).flatMap chunk).Perm edges) :
    ∃ run : Schedule nt edges, run.chunk = chunk := by
  obtain ⟨⟨maxvtx, scanned⟩, hRun, hFinal⟩ :=
    exists_final maxStep_ends (-1, fun t => ⟨scanMax (chunk t), .reading⟩)
  have hFinished : ∀ t, (scanned t).phase = .finished := by
    intro t
    by_contra hNot
    obtain ⟨m', next, hTurn⟩ := exists_maxStep (m := maxvtx) hNot
    exact hFinal (m', Function.update scanned t next) ⟨t, next, hTurn, rfl⟩
  exact ⟨{ threads_pos := hnt, chunk, chunk_perm := hPerm, maxvtx, scanned, finished := hFinished
           reached := hRun, counting := _, counting_perm := List.Perm.refl _
           packing := _, packing_perm := List.Perm.refl _ }, rfl⟩

end GreatestVertex

section Degrees

theorem countDegrees_apply (vertices : List Nat) (i : Nat) :
    countDegrees vertices i = vertices.count i := by
  have hFrom : ∀ xoff : Nat → Nat, vertices.foldl countVertex xoff i = xoff i + vertices.count i := by
    induction vertices with
    | nil => exact fun _ => rfl
    | cons v vertices ih =>
      intro xoff
      rw [List.foldl_cons, ih, countVertex, List.count_cons]
      obtain rfl | hNe := eq_or_ne i v
      · rw [Function.update_self, if_pos (beq_self_eq_true i)]
        ring
      · rw [Function.update_of_ne hNe, if_neg (by simpa using hNe.symm)]
        rfl
  exact (hFrom _).trans (Nat.zero_add _)

theorem countDegrees_perm {vertices vertices' : List Nat} (h : vertices.Perm vertices') :
    countDegrees vertices = countDegrees vertices' := by
  funext i
  rw [countDegrees_apply, countDegrees_apply, h.count_eq]

end Degrees

section PrefixSum

theorem scanSlice_apply (xoff : Nat → Nat) (t1 k count c : Nat) :
    scanSlice xoff t1 k count c =
      if k ≤ c ∧ c < k + count then t1 + ∑ m ∈ Finset.Ico k c, xoff m else xoff c := by
  induction count generalizing xoff t1 k with
  | zero => rw [scanSlice, if_neg (by omega)]
  | succ count ih =>
    rw [scanSlice, ih]
    obtain hLt | rfl | hGt := Nat.lt_trichotomy c k
    · rw [if_neg (by omega), if_neg (by omega), Function.update_of_ne (by omega)]
    · rw [if_neg (by omega), if_pos (by omega), Function.update_self, Finset.Ico_self]
      rfl
    · have hRest : ∑ m ∈ Finset.Ico (k + 1) c, Function.update xoff k t1 m =
          ∑ m ∈ Finset.Ico (k + 1) c, xoff m := by
        refine Finset.sum_congr rfl fun m hm => ?_
        rw [Function.update_of_ne (by have := (Finset.mem_Ico.mp hm).1; omega)]
      cases Nat.lt_or_ge c (k + 1 + count) with
      | inl hIn =>
        rw [if_pos (by omega), if_pos (by omega), hRest, Finset.sum_eq_sum_Ico_succ_bot hGt, add_assoc]
      | inr hOut => rw [if_neg (by omega), if_neg (by omega), Function.update_of_ne (by omega)]

theorem addPrevious_apply {base buf : Nat → Nat} {k count : Nat} (hk : 1 ≤ k)
    (hDone : ∀ c < k, buf c = ∑ m ∈ Finset.range (c + 1), base m) (hRest : ∀ c, k ≤ c → buf c = base c)
    {c : Nat} (hc : c < k + count) :
    addPrevious buf k count c = ∑ m ∈ Finset.range (c + 1), base m := by
  induction count generalizing buf k with
  | zero => exact hDone c hc
  | succ count ih =>
    refine ih (by omega) ?_ ?_ (by omega)
    · intro d hd
      obtain rfl | hNe := eq_or_ne d k
      · have hPrevious : buf (d - 1) = ∑ m ∈ Finset.range d, base m := by
          rw [hDone (d - 1) (by omega), Nat.sub_add_cancel hk]
        rw [Function.update_self, hRest d (Nat.le_refl d), hPrevious, Finset.sum_range_succ, add_comm]
      · rw [Function.update_of_ne hNe, hDone d (by omega)]
    · intro d hd
      rw [Function.update_of_ne (by omega), hRest d (by omega)]

variable {nv nt : Nat}

theorem sliceBegin_zero : sliceBegin nv nt 0 = 0 := by
  rw [sliceBegin, Nat.mul_zero]
  split <;> omega

theorem sliceBegin_mono (tid : Nat) : sliceBegin nv nt tid ≤ sliceBegin nv nt (tid + 1) := by
  rw [sliceBegin, sliceBegin, Nat.mul_succ]
  generalize nv / nt = share
  split <;> split <;> omega

theorem sliceBegin_last (hnt : 0 < nt) : sliceBegin nv nt nt = nv := by
  have hMod := Nat.mod_lt nv hnt
  rw [sliceBegin, if_neg (by omega), Nat.mul_comm, Nat.div_add_mod]

theorem sum_sliceSums (xoff : Nat → Nat) (tid : Nat) :
    ∑ m ∈ Finset.range tid, sliceSums nv nt xoff m =
      ∑ k ∈ Finset.range (sliceBegin nv nt tid), xoff k := by
  induction tid with
  | zero => rw [sliceBegin_zero, Finset.sum_range_zero, Finset.sum_range_zero]
  | succ tid ih =>
    rw [Finset.sum_range_succ, ih, sliceSums]
    exact Finset.sum_range_add_sum_Ico xoff (sliceBegin_mono tid)

variable (nv nt)

theorem buf_apply (xoff : Nat → Nat) {tid : Nat} (hTid : tid < nt) :
    addPrevious (sliceSums nv nt xoff) 1 (nt - 1) tid =
      ∑ k ∈ Finset.range (sliceBegin nv nt (tid + 1)), xoff k := by
  rw [← sum_sliceSums]
  refine addPrevious_apply (Nat.le_refl 1) ?_ (fun _ _ => rfl) (by omega)
  intro c hc
  rw [Nat.lt_one_iff.mp hc, Finset.sum_range_one]

theorem scanSlices_apply (xoff : Nat → Nat) {t : Nat} (ht : t ≤ nt) (c : Nat) :
    (List.range t).foldl (fun xoff' tid => scanSlice xoff'
        (if tid = 0 then 0 else addPrevious (sliceSums nv nt xoff) 1 (nt - 1) (tid - 1))
        (sliceBegin nv nt tid) (sliceBegin nv nt (tid + 1) - sliceBegin nv nt tid)) xoff c =
      if c < sliceBegin nv nt t then ∑ k ∈ Finset.range c, xoff k else xoff c := by
  induction t generalizing c with
  | zero => rw [sliceBegin_zero, if_neg (by omega), List.range_zero, List.foldl_nil]
  | succ t ih =>
    have hMono : sliceBegin nv nt t ≤ sliceBegin nv nt (t + 1) := sliceBegin_mono t
    have hStart : (if t = 0 then 0 else addPrevious (sliceSums nv nt xoff) 1 (nt - 1) (t - 1)) =
        ∑ k ∈ Finset.range (sliceBegin nv nt t), xoff k := by
      cases t with
      | zero => rw [if_pos rfl, sliceBegin_zero, Finset.sum_range_zero]
      | succ t => rw [if_neg (Nat.succ_ne_zero t), Nat.add_sub_cancel, buf_apply nv nt xoff (by omega)]
    rw [List.range_succ, List.foldl_append, List.foldl_cons, List.foldl_nil, hStart, scanSlice_apply,
      Nat.add_sub_cancel' hMono]
    obtain hBefore | hSlice := Nat.lt_or_ge c (sliceBegin nv nt t)
    · rw [if_neg (by omega), ih (by omega), if_pos hBefore, if_pos (by omega)]
    · obtain hIn | hAfter := Nat.lt_or_ge c (sliceBegin nv nt (t + 1))
      · rw [if_pos ⟨hSlice, hIn⟩, if_pos hIn, ← Finset.sum_range_add_sum_Ico xoff hSlice]
        refine congrArg _ (Finset.sum_congr rfl fun m hm => ?_)
        rw [ih (by omega), if_neg (by have := (Finset.mem_Ico.mp hm).1; omega)]
      · rw [if_neg (by omega), ih (by omega), if_neg (by omega), if_neg (by omega)]

theorem prefixSum_apply (hnt : 0 < nt) (xoff : Nat → Nat) :
    (∀ c < nv, (prefixSum nv nt xoff).1 c = ∑ k ∈ Finset.range c, xoff k) ∧
      (prefixSum nv nt xoff).2 = ∑ k ∈ Finset.range nv, xoff k := by
  constructor
  · intro c hc
    have h := scanSlices_apply nv nt xoff (Nat.le_refl nt) c
    rw [sliceBegin_last hnt, if_pos hc] at h
    exact h
  · have hLast : nt - 1 < nt := by omega
    have h := buf_apply nv nt xoff hLast
    rw [Nat.sub_add_cancel hnt, sliceBegin_last hnt] at h
    exact h

end PrefixSum

section Slots

variable {nv nt : Nat} {edges : List PackedEdge}

def slotBegin (nv : Nat) (edges : List PackedEdge) (c : Nat) : Nat :=
  ∑ m ∈ Finset.range c, padDegrees nv (countDegrees (edges.flatMap PackedEdge.increments)) m

theorem setupDegOffOmp_apply (hnt : 0 < nt) {vertices : List Nat}
    (hPerm : vertices.Perm (edges.flatMap PackedEdge.increments)) {c : Nat} (hc : c ≤ nv) :
    setupDegOffOmp nv nt vertices c = slotBegin nv edges c := by
  obtain ⟨hCells, hTotal⟩ := prefixSum_apply nv nt hnt (padDegrees nv (countDegrees vertices))
  show Function.update (prefixSum nv nt (padDegrees nv (countDegrees vertices))).1 nv
    (prefixSum nv nt (padDegrees nv (countDegrees vertices))).2 c = _
  rw [countDegrees_perm hPerm] at *
  obtain rfl | hNe := eq_or_ne c nv
  · rw [Function.update_self, hTotal, slotBegin]
  · rw [Function.update_of_ne hNe, hCells c (by omega), slotBegin]

theorem offsetsFrom_apply (xoff : Nat → Nat) (accum k count c : Nat) :
    offsetsFrom xoff accum k count c =
      if k ≤ c ∧ c ≤ k + count then
        accum + ∑ m ∈ Finset.Ico k c, padDegree (xoff m)
      else xoff c := by
  induction count generalizing xoff accum k with
  | zero =>
    rw [offsetsFrom]
    obtain rfl | hNe := eq_or_ne c k
    · rw [Function.update_self, if_pos (by omega), Finset.Ico_self]
      rfl
    · rw [Function.update_of_ne hNe, if_neg (by omega)]
  | succ count ih =>
    rw [offsetsFrom, ih]
    obtain hLt | rfl | hGt := Nat.lt_trichotomy c k
    · rw [if_neg (by omega), if_neg (by omega), Function.update_of_ne (by omega)]
    · rw [if_neg (by omega), if_pos (by omega), Function.update_self, Finset.Ico_self]
      rfl
    · have hRest : ∑ m ∈ Finset.Ico (k + 1) c, padDegree (Function.update xoff k accum m) =
          ∑ m ∈ Finset.Ico (k + 1) c, padDegree (xoff m) := by
        refine Finset.sum_congr rfl fun m hm => ?_
        rw [Function.update_of_ne (by have := (Finset.mem_Ico.mp hm).1; omega)]
      cases Nat.lt_or_ge (k + 1 + count) c with
      | inl hOut => rw [if_neg (by omega), if_neg (by omega), Function.update_of_ne (by omega)]
      | inr hIn =>
        rw [if_pos (by omega), if_pos (by omega), hRest, Finset.sum_eq_sum_Ico_succ_bot hGt, add_assoc]

theorem setupDegOff_apply {c : Nat} (hc : c ≤ nv) :
    setupDegOff nv edges c = slotBegin nv edges c := by
  rw [setupDegOff, offsetsFrom_apply, if_pos (by omega), Nat.zero_add, slotBegin, Finset.range_eq_Ico]
  refine Finset.sum_congr rfl fun m hm => ?_
  have hIn := (Finset.mem_Ico.mp hm).2
  rw [padDegrees, if_pos (by omega)]

theorem slotBegin_succ (nv : Nat) (edges : List PackedEdge) (i : Nat) :
    slotBegin nv edges i + (edges.flatMap PackedEdge.increments).count i ≤ slotBegin nv edges (i + 1) := by
  rw [slotBegin, slotBegin, Finset.sum_range_succ, ← countDegrees_apply, padDegrees, padDegree]
  split
  · split <;> omega
  · omega

end Slots

end Trident.Graph500
