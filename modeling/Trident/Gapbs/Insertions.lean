import Mathlib.Algebra.BigOperators.Fin
import Mathlib.Algebra.Order.BigOperators.Group.Finset
import Mathlib.Data.List.Count
import Trident.Gapbs.PrefixSums

/-! # Counting and inserting the edges

Every row is a queue with cells of its own. An insertion reserves the next cell of its row and stores
into it later, so that in the end the row holds what the edges have inserted, in some order.
-/

namespace Trident.Gapbs

open Relation Transition BlockQueue

section Counting

theorem nodeID_of_lt {x : Int} (hLow : 0 ≤ x) (hHigh : x < 2 ^ 63) : nodeID x = x :=
  Int.bmod_eq_of_le (by omega) (by omega)

theorem countDegrees_eq {counting : List Nat} (hFits : ∀ n, counting.count n < 2 ^ 63) (n : Nat) :
    countDegrees counting n = counting.count n := by
  induction counting using List.reverseRecOn generalizing n with
  | nil => rfl
  | append_singleton counting m ih =>
    have hBefore : ∀ k, counting.count k ≤ (counting ++ [m]).count k := fun k => by
      rw [List.count_append]
      exact Nat.le_add_right _ _
    have hOld := ih fun k => (hBefore k).trans_lt (hFits k)
    rw [countDegrees, List.foldl_append, List.foldl_cons, List.foldl_nil, ← countDegrees, countDegree]
    obtain rfl | hNe := eq_or_ne n m
    · have hLess := hFits n
      rw [List.count_append, List.count_singleton_self] at hLess ⊢
      rw [Function.update_self, hOld, nodeID_of_lt (by omega) (by omega)]
      omega
    · have hNone : [m].count n = 0 := List.count_eq_zero_of_not_mem (by simpa using hNe)
      rw [Function.update_of_ne hNe, hOld, List.count_append, hNone, Nat.add_zero]

/-- The rows lie one behind the other. -/
def Consecutive (numNodes : Nat) (index len : Nat → Nat) : Prop :=
  ∀ x < numNodes, index (x + 1) = index x + len x

theorem Consecutive.mono {numNodes : Nat} {index len : Nat → Nat} (h : Consecutive numNodes index len)
    {x y : Nat} (hLe : x ≤ y) (hy : y ≤ numNodes) : index x ≤ index y := by
  induction y, hLe using Nat.le_induction with
  | base => exact le_rfl
  | succ y _ ih =>
    have hNext := h y hy
    have hBefore := ih (Nat.le_of_succ_le hy)
    omega

theorem genIndex_eq {numNodes : Nat} (hNodes : numNodes + 1 < 2 ^ 63) (sums : Nat → Int)
    {degrees : Nat → Int} (d : Nat → Nat) (hDegrees : ∀ n < numNodes, degrees n = d n) :
    ∃ index, genIndex numNodes (parallelPrefixSum sums numNodes degrees) = some index ∧
      Consecutive numNodes index d := by
  have hOffsets : ∀ n ≤ numNodes, parallelPrefixSum sums numNodes degrees n =
      (∑ i ∈ Finset.range n, d i : Nat) := by
    intro n hn
    rw [parallelPrefixSum_eq sums degrees hn, Nat.cast_sum]
    exact Finset.sum_congr rfl fun i hi => hDegrees i ((Finset.mem_range.mp hi).trans_le hn)
  have hInside : ∀ n < numNodes + 1, 0 ≤ parallelPrefixSum sums numNodes degrees n ∧
      parallelPrefixSum sums numNodes degrees n ≤ parallelPrefixSum sums numNodes degrees numNodes := by
    intro n hn
    have hLe := Nat.le_of_lt_succ hn
    rw [hOffsets n hLe, hOffsets numNodes le_rfl]
    exact ⟨Int.natCast_nonneg _,
      Int.ofNat_le.mpr (Finset.sum_le_sum_of_subset (Finset.range_mono hLe))⟩
  refine ⟨_, if_pos ⟨nodeID_of_lt (by omega) (by omega), hInside⟩, fun n hn => ?_⟩
  rw [hOffsets n hn.le, hOffsets (n + 1) hn, Int.toNat_natCast, Int.toNat_natCast,
    Finset.sum_range_succ]

end Counting

section Rows

variable {D : Type*}

/-- What the insertions put into the row of a node. -/
def rowOf (calls : List (Nat × D)) (x : Nat) : List D := (calls.filter fun c => c.1 = x).map Prod.snd

structure IndexOf (numNodes : Nat) (index : Nat → Nat) (calls : List (Nat × D)) : Prop where
  known : ∀ c ∈ calls, c.1 < numNodes
  next : Consecutive numNodes index fun x => (rowOf calls x).length

variable {numNodes length : Nat} {index : Nat → Nat} {calls : List (Nat × D)}

def pending (x : Nat) (s : Insertion D) : Option (Nat × List D) :=
  if s.node = x then
    match s.phase with
    | .placed cell => some (cell, [s.value])
    | _ => none
  else none

def unplaced (x : Nat) (s : Insertion D) : List D :=
  if s.node = x ∧ s.phase = .waiting then [s.value] else []

theorem pending_of_ne {x : Nat} {s : Insertion D} (h : s.node ≠ x) : pending x s = none := if_neg h

theorem unplaced_of_ne {x : Nat} {s : Insertion D} (h : s.node ≠ x) : unplaced x s = [] :=
  if_neg fun hBoth => h hBoth.1

theorem comp_update {ι β : Type*} [DecidableEq ι] (f : Insertion D → β) (threads : ι → Insertion D)
    (k : ι) (next : Insertion D) : (fun j => f (Function.update threads k next j)) =
      Function.update (fun j => f (threads j)) k (f next) :=
  funext fun j => Function.apply_update (fun _ => f) threads k next j

variable {ι : Type*} [Fintype ι] [DecidableEq D] {s t : Rows D × (ι → Insertion D)}
  {queue : Nat → List D}

/-- The rows during the loop; `queue` is what each of them will hold. -/
structure Inserted (numNodes : Nat) (index : Nat → Nat) (calls : List (Nat × D))
    (s : Rows D × (ι → Insertion D)) (queue : Nat → List D) : Prop where
  node : ∀ k, (s.2 k).node < numNodes
  queued : ∀ x < numNodes,
    Queued (index x) (s.1.offsets x) s.1.neighs (fun k => pending x (s.2 k)) (queue x)
  accounts : ∀ x < numNodes,
    Accounts (queue x) (fun k => unplaced x (s.2 k)) fun a => (rowOf calls x).count a

theorem Inserted.offsets_le (h : Inserted numNodes index calls s queue)
    (hIndex : IndexOf numNodes index calls) {x : Nat} (hx : x < numNodes) :
    s.1.offsets x ≤ index (x + 1) := by
  have hSub : (queue x).Subperm (rowOf calls x) := by
    refine List.subperm_iff_count.mpr fun a => ?_
    have hCount := h.accounts x hx a
    dsimp only at hCount
    omega
  have hLength := (h.queued x hx).length
  rw [hIndex.next x hx, ← hLength]
  exact Nat.add_le_add_left hSub.length_le _

theorem Inserted.rows (h : Inserted numNodes index calls s queue) (hIndex : IndexOf numNodes index calls)
    (hAll : ∀ k, (s.2 k).phase = .stored) {x : Nat} (hx : x < numNodes) :
    (neighborhood index s.1.neighs x 0).Perm (rowOf calls x) := by
  have hPlaced : ∀ k, unplaced x (s.2 k) = [] := fun k => by simp [unplaced, hAll k]
  have hStored : ∀ k, pending x (s.2 k) = none := fun k => by simp [pending, hAll k]
  have hPerm : (queue x).Perm (rowOf calls x) :=
    List.perm_iff_count.mpr fun a => (h.accounts x hx).queue_count hPlaced a
  have hLength := (h.queued x hx).length
  have hTop : s.1.offsets x = index (x + 1) := by
    rw [← hLength, hPerm.length_eq, hIndex.next x hx]
  have hCells := (h.queued x hx).cells_eq hStored
  rw [hTop] at hCells
  rwa [neighborhood_zero, hCells]

variable [DecidableEq ι]

theorem Inserted.step (h : Inserted numNodes index calls s queue) (hIndex : IndexOf numNodes index calls)
    (hStep : Interleave (InsertStep length) s t) : ∃ queue', Inserted numNodes index calls t queue' := by
  obtain ⟨m, threads⟩ := s
  obtain ⟨m', threads'⟩ := t
  obtain ⟨k, next, hTurn, hThreads⟩ := hStep
  dsimp only at hTurn hThreads
  subst hThreads
  have hKnown := h.node k
  dsimp only at hKnown
  generalize hThread : threads k = thread at hTurn hKnown
  have hNode : ∀ j, thread.node = next.node → (Function.update threads k next j).node < numNodes := by
    intro j hSame
    obtain rfl | hNe := eq_or_ne j k
    · rwa [Function.update_self, ← hSame]
    · rw [Function.update_of_ne hNe]
      exact h.node j
  -- the rows of the other nodes have nothing to do with this thread
  have hOther : ∀ {β : Type _} (f : Insertion D → β), f next = f thread →
      (fun j => f (Function.update threads k next j)) = fun j => f (threads j) := by
    intro β f hSame
    rw [comp_update, hSame, ← hThread]
    exact Function.update_eq_self k fun j => f (threads j)
  cases hTurn with
  | fetchAndAdd x d =>
    refine ⟨Function.update queue x (queue x ++ [d]), fun j => hNode j rfl, fun y hy => ?_, fun y hy => ?_⟩
    · obtain rfl | hNe := eq_or_ne y x
      · have hFree : (fun j => pending y (threads j)) k = none := by
          simp only [hThread, pending, if_true]
        have hReserved := (h.queued y hy).reserve hFree [d]
        simp only [Function.update_self, comp_update]
        simpa only [pending, if_true, List.length_singleton] using hReserved
      · simp only [Function.update_of_ne hNe]
        rw [hOther (pending y) (by rw [pending_of_ne hNe.symm, pending_of_ne hNe.symm])]
        exact h.queued y hy
    · obtain rfl | hNe := eq_or_ne y x
      · have hSplit : ((fun j => unplaced y (threads j)) k).Perm ([d] ++ []) := by
          simp only [hThread, unplaced, and_self, if_true]
          exact List.Perm.refl _
        have hReserved := (h.accounts y hy).reserve hSplit
        simp only [Function.update_self, comp_update]
        simpa only [unplaced, true_and, reduceCtorEq, if_false] using hReserved
      · simp only [Function.update_of_ne hNe]
        rw [hOther (unplaced y) (by rw [unplaced_of_ne hNe.symm, unplaced_of_ne hNe.symm])]
        exact h.accounts y hy
  | store x d cell hRoom =>
    refine ⟨queue, fun j => hNode j rfl, fun y hy => ?_, fun y hy => ?_⟩
    · have hCell : (fun j => pending x (threads j)) k = some (cell, [d]) := by
        simp only [hThread, pending, if_true]
      obtain rfl | hNe := eq_or_ne y x
      · have hStored := (h.queued y hy).store hCell
        rw [writeBlock_singleton] at hStored
        rw [comp_update]
        simpa only [pending, if_true] using hStored
      · rw [hOther (pending y) (by rw [pending_of_ne hNe.symm, pending_of_ne hNe.symm])]
        refine (h.queued y hy).congr fun c hLow hHigh => Function.update_of_ne ?_ _ _
        obtain ⟨hStart, hEnd, _⟩ := (h.queued x hKnown).held k cell [d] hCell
        have hTop := h.offsets_le hIndex hKnown
        have hTop' := h.offsets_le hIndex hy
        rw [List.length_singleton] at hEnd
        dsimp only at hHigh hEnd hTop hTop'
        rcases Nat.lt_or_gt_of_ne hNe with hBefore | hBehind
        · have hMono : index (y + 1) ≤ index x := hIndex.next.mono hBefore hKnown.le
          omega
        · have hMono : index (x + 1) ≤ index y := hIndex.next.mono hBehind hy.le
          omega
    · rw [hOther (unplaced y) (by simp [unplaced])]
      exact h.accounts y hy

theorem inserted_of_reaches (hIndex : IndexOf numNodes index calls) (h : Inserted numNodes index calls s queue)
    (hRun : ReflTransGen (Interleave (InsertStep length)) s t) :
    ∃ queue', Inserted numNodes index calls t queue' :=
  invariant_of_reaches (I := fun s => ∃ queue, Inserted numNodes index calls s queue)
    (fun _ _ ⟨_, hOld⟩ hStep => hOld.step hIndex hStep) ⟨queue, h⟩ hRun

theorem Inserted.stored (h : Inserted numNodes index calls s queue) (hIndex : IndexOf numNodes index calls)
    (hEnd : ∀ t, ¬ Interleave (InsertStep (index numNodes)) s t) (k : ι) : (s.2 k).phase = .stored := by
  obtain ⟨m, threads⟩ := s
  have hKnown := h.node k
  have hNone : ∀ m' next, ¬ InsertStep (index numNodes) m (threads k) m' next :=
    fun m' next hTurn => hEnd (m', _) ⟨k, next, hTurn, rfl⟩
  dsimp only at hKnown ⊢
  cases hThread : threads k with
  | mk x d phase =>
    rw [hThread] at hKnown hNone
    cases phase with
    | stored => rfl
    | waiting => exact absurd (.fetchAndAdd m x d) (hNone _ _)
    | placed cell =>
      have hCell : (fun j => pending x (threads j)) k = some (cell, [d]) := by
        simp only [hThread, pending, if_true]
      obtain ⟨_, hLast, _⟩ := (h.queued x hKnown).held k cell [d] hCell
      have hTop : m.offsets x ≤ index (x + 1) := h.offsets_le hIndex hKnown
      have hMono : index (x + 1) ≤ index numNodes := hIndex.next.mono hKnown le_rfl
      rw [List.length_singleton] at hLast
      exact absurd (.store m x d cell (hLast.trans (hTop.trans hMono))) (hNone _ _)

def InsertPhase.weight : InsertPhase → Nat
  | .waiting => 2
  | .placed _ => 1
  | .stored => 0

end Rows

section Runs

variable {D : Type*} {ι : Type*} [Fintype ι] [DecidableEq ι] {numNodes length : Nat}
  {calls : List (Nat × D)}

variable {index : Nat → Nat}

theorem length_rowOf (calls : List (Nat × D)) (x : Nat) :
    (rowOf calls x).length = (calls.map Prod.fst).count x := by
  rw [rowOf, List.length_map, ← List.countP_eq_length_filter, List.count, List.countP_map]
  exact List.countP_congr fun c _ => by simp

theorem count_rowOf [DecidableEq D] (calls : List (Nat × D)) (x : Nat) (a : D) :
    (calls.map fun c => (unplaced x ⟨c.1, c.2, .waiting⟩).count a).sum = (rowOf calls x).count a := by
  induction calls with
  | nil => rfl
  | cons c calls ih =>
    rw [List.map_cons, List.sum_cons, ih]
    by_cases hc : c.1 = x
    · simp [rowOf, unplaced, hc, List.count_cons, Nat.add_comm]
    · simp [rowOf, unplaced, hc]

theorem startInsertions_inserted [DecidableEq D] (hIndex : IndexOf numNodes index calls) (neighs : Nat → D) :
    Inserted numNodes index calls (startInsertions index neighs calls) fun _ => [] where
  node k := hIndex.known calls[k] (List.getElem_mem k.isLt)
  queued x _ := by
    have hNone : ∀ k, pending x ((startInsertions index neighs calls).2 k) = none := fun k => ite_self none
    simp only [hNone]
    exact queued_nil (index x) neighs
  accounts x _ a := by
    dsimp only
    rw [List.count_nil, Nat.zero_add, ← count_rowOf]
    exact Fin.sum_univ_fun_getElem calls fun c => (unplaced x ⟨c.1, c.2, .waiting⟩).count a

/-- Every run of `MakeCSR` fills the rows with what the edges insert. -/
theorem makeCSR_spec [DecidableEq D] (hNodes : numNodes + 1 < 2 ^ 63)
    (hKnown : ∀ c ∈ calls, c.1 < numNodes) (hFits : ∀ n, (calls.map Prod.fst).count n < 2 ^ 63)
    {result : Option ((Nat → Nat) × (Nat → D))} (h : MakeCSR numNodes calls result) :
    ∃ index neighs, result = some (index, neighs) ∧
      ∀ x < numNodes, (neighborhood index neighs x 0).Perm (rowOf calls x) := by
  have hGen : ∀ counting, counting.Perm (calls.map Prod.fst) → ∀ sums, ∃ index,
      genIndex numNodes (parallelPrefixSum sums numNodes (countDegrees counting)) = some index ∧
        IndexOf numNodes index calls := by
    intro counting hCounting sums
    have hDegrees : ∀ n < numNodes, countDegrees counting n = ((rowOf calls n).length : Nat) := by
      intro n _
      rw [countDegrees_eq (fun n => by rw [hCounting.count_eq]; exact hFits n), hCounting.count_eq,
        length_rowOf]
    obtain ⟨index, hIndex, hNext⟩ := genIndex_eq hNodes sums _ hDegrees
    exact ⟨index, hIndex, hKnown, hNext⟩
  cases h with
  | undefined counting hCounting sums hNone =>
    obtain ⟨index, hSome, _⟩ := hGen counting hCounting sums
    rw [hNone] at hSome
    cases hSome
  | done counting hCounting sums index hIndex neighs ends hRun hEnd =>
    obtain ⟨index', hSome, hIndexOf⟩ := hGen counting hCounting sums
    rw [hIndex, Option.some_inj] at hSome
    subst hSome
    obtain ⟨queue, hInserted⟩ :=
      inserted_of_reaches hIndexOf (startInsertions_inserted hIndexOf neighs) hRun
    have hAll := hInserted.stored hIndexOf hEnd
    exact ⟨index, ends.1.neighs, if_pos hAll, fun x hx => hInserted.rows hIndexOf hAll hx⟩

end Runs

end Trident.Gapbs
