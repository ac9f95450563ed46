import Mathlib.Data.Prod.Lex
import Trident.Gapbs.TriangleCount

/-! # Relabeling by degree

`RelabelByDegree` of the builder and the `Hybrid` count that may call it. A turn of the parallel loop
over the rows is a process of its own. The ids have 64 bits, and no number here needs as many.
-/

namespace Trident.Gapbs

open Relation Transition BlockQueue

section Program

variable (g : CSRGraph Nat)

/-- `degree_id_pairs`, in the order of `greater` -/
def degreeIdPairs : List (Nat × Nat) :=
  ((List.range g.numNodes).map fun n => (g.outDegree n, n)).insertionSort fun a b => toLex b ≤ toLex a

/-- `new_ids[degree_id_pairs[n].second] = n`, where the new array holds `ids` -/
def storeIds (ids : Nat → Nat) (pairs : List (Nat × Nat)) : Nat → Nat :=
  pairs.zipIdx.foldl (fun ids p => Function.update ids p.1.2 p.2) ids

def newIds (ids : Nat → Nat) : Nat → Nat := storeIds ids (degreeIdPairs g)

def newDegrees (n : Nat) : Nat := (((degreeIdPairs g)[n]?).getD (0, 0)).1

/-- `index`, whose cells are those of `offsets` before the loop -/
def newIndex (sums : Nat → Int) (n : Nat) : Nat :=
  (parallelPrefixSum sums g.numNodes (fun n => newDegrees g n) n).toNat

/-- One `u` with the neighbors that are left for it, and whether its new row is sorted. -/
structure Relabeler where
  u : Nat
  todo : List Nat
  sorted : Bool

def relabelStep (ids index : Nat → Nat) (length : Nat) (m : Rows Nat) (s : Relabeler) :
    Option (Rows Nat × Relabeler) :=
  let u := ids s.u
  match s.todo with
  | v :: todo =>
    if m.offsets u < length then
      some (⟨Function.update m.offsets u (m.offsets u + 1),
        Function.update m.neighs (m.offsets u) (ids v)⟩, { s with todo })
    else none
  | [] =>
    if s.sorted then none
    else
      let row := (neighborhood index m.neighs u 0).insertionSort (· ≤ ·)
      some ({ m with neighs := writeBlock m.neighs (index u) row }, { s with sorted := true })

def RelabelStep (ids index : Nat → Nat) (length : Nat) {n : Nat} :
    Rows Nat × (Fin n → Relabeler) → Rows Nat × (Fin n → Relabeler) → Prop :=
  Interleave fun m s m' s' => relabelStep ids index length m s = some (m', s')

def startRelabel (index neighs : Nat → Nat) : Rows Nat × (Fin g.numNodes → Relabeler) :=
  (⟨index, neighs⟩, fun u => ⟨u, g.outNeigh u 0, false⟩)

/-- `RelabelByDegree`, where the new arrays hold `ids`, `sums` and `neighs`. A turn that would store
behind the array gets no further. -/
inductive RelabelByDegree : Option (CSRGraph Nat) → Prop
  | directed (h : g.directed = true) : RelabelByDegree none
  | done (h : g.directed = false) (ids : Nat → Nat) (sums : Nat → Int) (neighs : Nat → Nat)
      (ends : Rows Nat × (Fin g.numNodes → Relabeler))
      (hRun : ReflTransGen (RelabelStep (newIds g ids) (newIndex g sums) (newIndex g sums g.numNodes))
        (startRelabel g (newIndex g sums) neighs) ends)
      (hEnd : ∀ t, ¬ RelabelStep (newIds g ids) (newIndex g sums) (newIndex g sums g.numNodes) ends t) :
      RelabelByDegree (if ∀ u, (ends.2 u).sorted then
        some ⟨false, g.numNodes, newIndex g sums, ends.1.neighs, newIndex g sums, ends.1.neighs⟩
        else none)

/-- `Hybrid`, for whatever `WorthRelabelling` finds. -/
inductive Hybrid {nt : Nat} (share : Fin nt → List Nat) : Option (BitVec 64) → Prop
  | asIs : Hybrid share (OrderedCount g share)
  | relabeled (result : Option (CSRGraph Nat)) (h : RelabelByDegree g result) :
      Hybrid share (result.bind fun g => OrderedCount g share)

end Program

section Ids

variable {g : CSRGraph Nat} {u v : Nat}

theorem length_outNeigh (g : CSRGraph Nat) (u : Nat) : (g.outNeigh u 0).length = g.outDegree u := by
  rw [CSRGraph.outNeigh, neighborhood_zero, List.length_map, List.length_range', CSRGraph.outDegree]

/-- What is stored last stays. -/
theorem storeIds_eq {pairs : List (Nat × Nat)} (hNodup : (pairs.map Prod.snd).Nodup) (ids : Nat → Nat) {k : Nat}
    (hk : k < pairs.length) : storeIds ids pairs pairs[k].2 = k := by
  have hStore (start : Nat) (pairs : List (Nat × Nat)) (hNodup : (pairs.map Prod.snd).Nodup)
      (ids : Nat → Nat) :
      (∀ x ∉ pairs.map Prod.snd, (pairs.zipIdx start).foldl (fun ids p => Function.update ids p.1.2 p.2) ids x =
        ids x) ∧ ∀ k, ∀ hk : k < pairs.length,
        (pairs.zipIdx start).foldl (fun ids p => Function.update ids p.1.2 p.2) ids pairs[k].2 = start + k := by
    induction pairs generalizing start ids with
    | nil => exact ⟨fun _ _ => rfl, fun k hk => absurd hk (Nat.not_lt_zero k)⟩
    | cons p pairs ih =>
      rw [List.map_cons, List.nodup_cons] at hNodup
      obtain ⟨hOther, hOwn⟩ := ih (start + 1) hNodup.2 (Function.update ids p.2 start)
      rw [List.zipIdx_cons, List.foldl_cons]
      constructor
      · intro x hx
        rw [List.map_cons, List.mem_cons, not_or] at hx
        rw [hOther x hx.2, Function.update_of_ne hx.1]
      · intro k hk
        cases k with
        | zero => rw [List.getElem_cons_zero, hOther p.2 hNodup.1, Function.update_self, Nat.add_zero]
        | succ k =>
          rw [List.getElem_cons_succ, hOwn k (Nat.lt_of_succ_lt_succ hk)]
          omega
  have hOwn := (hStore 0 pairs hNodup ids).2 k hk
  rw [Nat.zero_add] at hOwn
  exact hOwn

theorem degreeIdPairs_perm (g : CSRGraph Nat) :
    (degreeIdPairs g).Perm ((List.range g.numNodes).map fun n => (g.outDegree n, n)) :=
  List.perm_insertionSort _ _

theorem length_degreeIdPairs (g : CSRGraph Nat) : (degreeIdPairs g).length = g.numNodes := by
  rw [(degreeIdPairs_perm g).length_eq, List.length_map, List.length_range]

theorem mem_degreeIdPairs {p : Nat × Nat} :
    p ∈ degreeIdPairs g ↔ p.2 < g.numNodes ∧ p.1 = g.outDegree p.2 := by
  rw [(degreeIdPairs_perm g).mem_iff, List.mem_map]
  constructor
  · rintro ⟨n, hn, rfl⟩
    exact ⟨List.mem_range.mp hn, rfl⟩
  · rintro ⟨hn, hDegree⟩
    exact ⟨p.2, List.mem_range.mpr hn, Prod.ext hDegree.symm rfl⟩

theorem nodup_ids (g : CSRGraph Nat) : ((degreeIdPairs g).map Prod.snd).Nodup := by
  rw [((degreeIdPairs_perm g).map Prod.snd).nodup_iff, List.map_map]
  exact (List.map_id _).symm ▸ List.nodup_range

/-- The ids are a renaming, and the degrees come in descending order. -/
structure Renames (g : CSRGraph Nat) (ids degrees : Nat → Nat) : Prop where
  bijOn : Set.BijOn ids (Set.Iio g.numNodes) (Set.Iio g.numNodes)
  degree : ∀ u < g.numNodes, degrees (ids u) = g.outDegree u
  decreasing : ∀ i j, i ≤ j → j < g.numNodes → degrees j ≤ degrees i

theorem newIds_renames (g : CSRGraph Nat) (ids : Nat → Nat) : Renames g (newIds g ids) (newDegrees g) := by
  have hPlace : ∀ u < g.numNodes, ∃ k, ∃ hk : k < (degreeIdPairs g).length,
      (degreeIdPairs g)[k] = (g.outDegree u, u) ∧ newIds g ids u = k := by
    intro u hu
    obtain ⟨k, hk, hPair⟩ := List.mem_iff_getElem.mp (mem_degreeIdPairs.mpr ⟨hu, rfl⟩ :
      (g.outDegree u, u) ∈ degreeIdPairs g)
    have hStored := storeIds_eq (nodup_ids g) ids hk
    rw [hPair] at hStored
    exact ⟨k, hk, hPair, hStored⟩
  have hDegree : ∀ k, ∀ hk : k < (degreeIdPairs g).length, newDegrees g k = (degreeIdPairs g)[k].1 := by
    intro k hk
    rw [newDegrees, List.getElem?_eq_getElem hk, Option.getD_some]
  refine ⟨⟨?_, ?_, ?_⟩, ?_, ?_⟩
  · intro u hu
    obtain ⟨k, hk, _, hId⟩ := hPlace u hu
    rw [Set.mem_Iio, hId, ← length_degreeIdPairs g]
    exact hk
  · intro u hu v hv hSame
    obtain ⟨k, hk, hPair, hId⟩ := hPlace u hu
    obtain ⟨k', hk', hPair', hId'⟩ := hPlace v hv
    obtain rfl : k = k' := by rw [← hId, ← hId', hSame]
    exact congrArg Prod.snd (hPair.symm.trans hPair')
  · intro k hk
    rw [Set.mem_Iio, ← length_degreeIdPairs g] at hk
    have hPair := (mem_degreeIdPairs.mp (List.getElem_mem hk)).1
    exact ⟨(degreeIdPairs g)[k].2, hPair, storeIds_eq (nodup_ids g) ids hk⟩
  · intro u hu
    obtain ⟨k, hk, hPair, hId⟩ := hPlace u hu
    rw [hId, hDegree k hk, hPair]
  · intro i j hLe hj
    rw [← length_degreeIdPairs g] at hj
    obtain rfl | hLess := Nat.eq_or_lt_of_le hLe
    · exact le_rfl
    · have hSorted : (degreeIdPairs g).Pairwise fun a b => toLex b ≤ toLex a :=
        List.pairwise_insertionSort _ _
      have hPair := List.pairwise_iff_getElem.mp hSorted i j (hLess.trans hj) hj hLess
      rw [hDegree i (hLess.trans hj), hDegree j hj]
      exact Prod.Lex.monotone_fst _ _ hPair

theorem newIndex_consecutive (g : CSRGraph Nat) (sums : Nat → Int) :
    Consecutive g.numNodes (newIndex g sums) (newDegrees g) := by
  have hIndex : ∀ n ≤ g.numNodes, newIndex g sums n = ∑ i ∈ Finset.range n, newDegrees g i := by
    intro n hn
    rw [newIndex, parallelPrefixSum_eq sums _ hn, ← Nat.cast_sum, Int.toNat_natCast]
  intro n hn
  rw [hIndex n hn.le, hIndex (n + 1) hn, Finset.sum_range_succ]

end Ids

section Rows

variable {g : SquishedGraph} {ids index degrees : Nat → Nat} {m m' : Rows Nat}

/-- The cells from `index[new_ids[u]]` on hold what the turn has done so far. -/
structure Relabeler.Ok (g : SquishedGraph) (ids index : Nat → Nat) (m : Rows Nat) (u : Nat)
    (s : Relabeler) : Prop where
  same : s.u = u
  split : ∃ before, g.outNeigh u 0 = before ++ s.todo ∧
    m.offsets (ids u) = index (ids u) + before.length ∧
    (s.sorted = false → (List.range' (index (ids u)) before.length).map m.neighs = before.map ids)
  sorted : s.sorted = true → s.todo = [] ∧
    neighborhood index m.neighs (ids u) 0 = ((g.outNeigh u 0).map ids).insertionSort (· ≤ ·)

/-- The rows of the new graph, as far as the loop needs them. -/
structure Laid (g : SquishedGraph) (ids index : Nat → Nat) : Prop where
  injOn : Set.InjOn ids (Set.Iio g.numNodes)
  lt : ∀ u < g.numNodes, ids u < g.numNodes
  next : ∀ u < g.numNodes, index (ids u + 1) = index (ids u) + (g.outNeigh u 0).length
  mono : ∀ i j, i ≤ j → j ≤ g.numNodes → index i ≤ index j

theorem Renames.laid (h : Renames g.toCSRGraph ids degrees) (hIndex : Consecutive g.numNodes index degrees) :
    Laid g ids index where
  injOn := h.bijOn.injOn
  lt u hu := h.bijOn.mapsTo hu
  next u hu := by
    rw [hIndex (ids u) (h.bijOn.mapsTo hu), h.degree u hu, length_outNeigh]
  mono _ _ := hIndex.mono

/-- No cell belongs to two rows. -/
theorem Laid.apart (h : Laid g ids index) {u v : Nat} (hu : u < g.numNodes) (hv : v < g.numNodes)
    (hNe : u ≠ v) {c : Nat} (hc : index (ids u) ≤ c) (hc' : c < index (ids u + 1)) :
    c < index (ids v) ∨ index (ids v + 1) ≤ c := by
  have hIds : ids u ≠ ids v := fun hSame => hNe (h.injOn hu hv hSame)
  obtain hLess | hLess := Nat.lt_or_gt_of_ne hIds
  · have hLe := h.mono (ids u + 1) (ids v) hLess (h.lt v hv).le
    exact Or.inl (hc'.trans_le hLe)
  · have hLe := h.mono (ids v + 1) (ids u) hLess (h.lt u hu).le
    exact Or.inr (hLe.trans hc)

/-- A turn does not see what others do to their cells. -/
theorem Relabeler.Ok.frame {u : Nat} {s : Relabeler} (h : s.Ok g ids index m u) (hLaid : Laid g ids index)
    (hu : u < g.numNodes) (hOffset : m'.offsets (ids u) = m.offsets (ids u))
    (hNeighs : ∀ c, index (ids u) ≤ c → c < index (ids u + 1) → m'.neighs c = m.neighs c) :
    s.Ok g ids index m' u where
  same := h.same
  split := by
    obtain ⟨before, hRow, hOld, hCells⟩ := h.split
    refine ⟨before, hRow, hOffset.trans hOld, fun hSorted => ?_⟩
    rw [← hCells hSorted]
    have hLength := congrArg List.length hRow
    rw [List.length_append] at hLength
    have hNext := hLaid.next u hu
    refine List.map_congr_left fun c hc => ?_
    rw [List.mem_range'_1] at hc
    exact hNeighs c hc.1 (by omega)
  sorted hSorted := by
    obtain ⟨hTodo, hRow⟩ := h.sorted hSorted
    refine ⟨hTodo, ?_⟩
    rw [← hRow, neighborhood_zero, neighborhood_zero]
    refine List.map_congr_left fun c hc => ?_
    rw [List.mem_range'_1] at hc
    exact hNeighs c hc.1 (by omega)

theorem Relabeler.Ok.not_sorted {u v : Nat} {s : Relabeler} {todo : List Nat} (h : s.Ok g ids index m u)
    (hTodo : s.todo = v :: todo) : s.sorted = false := by
  by_contra hSorted
  have hNil := (h.sorted (Bool.not_eq_false _ ▸ hSorted)).1
  rw [hTodo] at hNil
  cases hNil

theorem Relabeler.Ok.place {v : Nat} {s : Relabeler} {todo : List Nat} (h : s.Ok g ids index m s.u)
    (hTodo : s.todo = v :: todo) :
    ({ s with todo } : Relabeler).Ok g ids index
      ⟨Function.update m.offsets (ids s.u) (m.offsets (ids s.u) + 1),
        Function.update m.neighs (m.offsets (ids s.u)) (ids v)⟩ s.u where
  same := rfl
  split := by
    obtain ⟨before, hRow, hOffset, hCells⟩ := h.split
    refine ⟨before ++ [v], ?_, ?_, fun hSorted => ?_⟩
    · rw [hRow, hTodo, List.append_assoc, List.singleton_append]
    · dsimp only
      rw [Function.update_self, hOffset, List.length_append, List.length_singleton, Nat.add_assoc]
    · dsimp only
      have hOld : (List.range' (index (ids s.u)) before.length).map
          (Function.update m.neighs (m.offsets (ids s.u)) (ids v)) = before.map ids := by
        rw [← hCells hSorted]
        refine List.map_congr_left fun c hc => ?_
        rw [List.mem_range'_1] at hc
        exact Function.update_of_ne (by omega) ..
      rw [List.length_append, List.length_singleton, List.range'_concat, List.map_append, List.map_append,
        hOld, Nat.one_mul, ← hOffset, List.map_singleton, List.map_singleton, Function.update_self]
  sorted hSorted := absurd ((h.not_sorted hTodo).symm.trans hSorted) Bool.false_ne_true

theorem Relabeler.Ok.written {s : Relabeler} (h : s.Ok g ids index m s.u) (hLaid : Laid g ids index)
    (hu : s.u < g.numNodes) (hTodo : s.todo = []) (hSorted : s.sorted = false) :
    neighborhood index m.neighs (ids s.u) 0 = (g.outNeigh s.u 0).map ids := by
  obtain ⟨before, hRow, _, hCells⟩ := h.split
  have hBefore : before = g.outNeigh s.u 0 := by rw [hRow, hTodo, List.append_nil]
  rw [neighborhood_zero, hLaid.next s.u hu, Nat.add_sub_cancel_left, ← hBefore, hCells hSorted]

theorem Relabeler.Ok.sort {s : Relabeler} {row : List Nat} (h : s.Ok g ids index m s.u)
    (hLaid : Laid g ids index) (hu : s.u < g.numNodes) (hTodo : s.todo = [])
    (hRow : row = ((g.outNeigh s.u 0).map ids).insertionSort (· ≤ ·)) :
    ({ s with sorted := true } : Relabeler).Ok g ids index
      { m with neighs := writeBlock m.neighs (index (ids s.u)) row } s.u where
  same := rfl
  split := by
    obtain ⟨before, hSplit, hOffset, _⟩ := h.split
    exact ⟨before, hSplit, hOffset, fun hNot => absurd hNot Bool.false_ne_true.symm⟩
  sorted _ := by
    have hSize : row.length = (g.outNeigh s.u 0).length := by
      rw [hRow, List.length_insertionSort, List.length_map]
    refine ⟨hTodo, ?_⟩
    rw [neighborhood_zero, hLaid.next s.u hu, Nat.add_sub_cancel_left, ← hSize, ← hRow]
    exact map_writeBlock ..

/-- What a turn does, and that it stays in its own row. -/
theorem Relabeler.Ok.step {u : Nat} {s s' : Relabeler} (h : s.Ok g ids index m u)
    (hLaid : Laid g ids index) (hu : u < g.numNodes)
    (hStep : relabelStep ids index (index g.numNodes) m s = some (m', s')) :
    s'.Ok g ids index m' u ∧ (∀ x, x ≠ ids u → m'.offsets x = m.offsets x) ∧
      ∀ c, c < index (ids u) ∨ index (ids u + 1) ≤ c → m'.neighs c = m.neighs c := by
  obtain ⟨before, hRow, hOffset, _⟩ := h.split
  obtain rfl := h.same
  have hNext := hLaid.next s.u hu
  have hLength := congrArg List.length hRow
  rw [List.length_append] at hLength
  rw [relabelStep] at hStep
  split at hStep
  · rename_i v todo hTodo
    rw [hTodo, List.length_cons] at hLength
    split at hStep
    · cases hStep
      refine ⟨h.place hTodo, ?_, ?_⟩
      · intro x hx
        exact Function.update_of_ne hx ..
      · intro c hc
        exact Function.update_of_ne (by omega) ..
    · cases hStep
  · rename_i hTodo
    split at hStep
    · cases hStep
    · rename_i hNotSorted
      have hSorted : s.sorted = false := by simpa using hNotSorted
      rw [h.written hLaid hu hTodo hSorted] at hStep
      cases hStep
      refine ⟨h.sort hLaid hu hTodo rfl, fun _ _ => rfl, fun c hc => ?_⟩
      apply writeBlock_outside
      rw [List.length_insertionSort, List.length_map]
      omega

/-- A turn that cannot go on has sorted its row. -/
theorem Relabeler.Ok.sorted_of_stuck {u : Nat} {s : Relabeler} (h : s.Ok g ids index m u)
    (hLaid : Laid g ids index) (hu : u < g.numNodes)
    (hStuck : relabelStep ids index (index g.numNodes) m s = none) : s.sorted = true := by
  obtain ⟨before, hRow, hOffset, _⟩ := h.split
  obtain rfl := h.same
  have hNext := hLaid.next s.u hu
  have hEnd := hLaid.mono (ids s.u + 1) g.numNodes (hLaid.lt s.u hu) le_rfl
  have hLength := congrArg List.length hRow
  rw [List.length_append] at hLength
  rw [relabelStep] at hStuck
  split at hStuck
  · rename_i v todo hTodo
    rw [hTodo, List.length_cons] at hLength
    rw [if_pos (by omega)] at hStuck
    cases hStuck
  · split at hStuck
    · assumption
    · cases hStuck

end Rows

section Runs

variable {g : SquishedGraph} {ids index degrees neighs : Nat → Nat}

def Relabeling (g : SquishedGraph) (ids index : Nat → Nat)
    (s : Rows Nat × (Fin g.numNodes → Relabeler)) : Prop :=
  ∀ u, (s.2 u).Ok g ids index s.1 u

theorem startRelabel_ok (g : SquishedGraph) (ids index neighs : Nat → Nat) :
    Relabeling g ids index (startRelabel g.toCSRGraph index neighs) := by
  intro u
  refine ⟨rfl, ⟨[], rfl, rfl, fun _ => rfl⟩, fun hSorted => ?_⟩
  cases hSorted

theorem Relabeling.step {s t : Rows Nat × (Fin g.numNodes → Relabeler)} (h : Relabeling g ids index s)
    (hLaid : Laid g ids index) (hStep : RelabelStep ids index (index g.numNodes) s t) :
    Relabeling g ids index t := by
  obtain ⟨m, turns⟩ := s
  obtain ⟨m', turns'⟩ := t
  obtain ⟨u, next, hTurn, rfl⟩ := hStep
  dsimp only at hTurn
  obtain ⟨hOwn, hOffsets, hNeighs⟩ := (h u).step hLaid u.isLt hTurn
  intro v
  dsimp only
  obtain rfl | hNe := eq_or_ne v u
  · rw [Function.update_self]
    exact hOwn
  · have hDiffer : (v : Nat) ≠ u := Fin.val_ne_of_ne hNe
    rw [Function.update_of_ne hNe]
    apply (h v).frame hLaid v.isLt
    · exact hOffsets (ids v) fun hSame => hDiffer (hLaid.injOn v.isLt u.isLt hSame)
    · intro c hLow hHigh
      exact hNeighs c (hLaid.apart v.isLt u.isLt hDiffer hLow hHigh)

/-- The neighbors and the sort that are left. -/
def Relabeler.work (s : Relabeler) : Nat := s.todo.length + (!s.sorted).toNat

theorem relabelStep_work {length : Nat} {m m' : Rows Nat} {s s' : Relabeler}
    (hStep : relabelStep ids index length m s = some (m', s')) : s'.work < s.work := by
  rw [relabelStep] at hStep
  split at hStep
  · rename_i v todo hTodo
    split at hStep
    · cases hStep
      rw [Relabeler.work, Relabeler.work, hTodo, List.length_cons]
      exact Nat.add_lt_add_right (Nat.lt_succ_self _) _
    · cases hStep
  · split at hStep
    · cases hStep
    · rename_i hNotSorted
      cases hStep
      rw [Relabeler.work, Relabeler.work, Bool.eq_false_of_not_eq_true hNotSorted]
      exact Nat.add_lt_add_left Nat.zero_lt_one _

theorem relabelStep_ends (ids index : Nat → Nat) (length n : Nat) :
    WellFounded fun t s : Rows Nat × (Fin n → Relabeler) => RelabelStep ids index length s t := by
  refine wellFounded_of_decreasing (fun s => ∑ u, (s.2 u).work) fun s t hStep => ?_
  obtain ⟨u, next, hTurn, hNext⟩ := hStep
  rw [hNext]
  exact sum_update_lt Relabeler.work s.2 (relabelStep_work hTurn)

theorem Relabeling.sorted {ends : Rows Nat × (Fin g.numNodes → Relabeler)} (h : Relabeling g ids index ends)
    (hLaid : Laid g ids index) (hEnd : ∀ t, ¬ RelabelStep ids index (index g.numNodes) ends t)
    (u : Fin g.numNodes) : (ends.2 u).sorted = true := by
  apply (h u).sorted_of_stuck hLaid u.isLt
  rw [Option.eq_none_iff_forall_ne_some]
  rintro ⟨m', next⟩ hTurn
  exact hEnd (m', Function.update ends.2 u next) ⟨u, next, hTurn, rfl⟩

end Runs

section NewGraph

/-- The nodes of `h` are those of `g` under new names, those with more neighbors first. -/
structure Relabels (g h : SquishedGraph) (ids : Nat → Nat) : Prop where
  numNodes : h.numNodes = g.numNodes
  bijOn : Set.BijOn ids (Set.Iio g.numNodes) (Set.Iio g.numNodes)
  adj : ∀ u < g.numNodes, ∀ v < g.numNodes,
    h.underlying.Adj (ids u) (ids v) ↔ g.underlying.Adj u v
  degree : ∀ u < g.numNodes, h.outDegree (ids u) = g.outDegree u
  decreasing : ∀ i j, i ≤ j → j < g.numNodes → h.outDegree j ≤ h.outDegree i

/-- The graph that the loop leaves. -/
def relabeled (g : CSRGraph Nat) (index neighs : Nat → Nat) : CSRGraph Nat :=
  ⟨false, g.numNodes, index, neighs, index, neighs⟩

/-- The rows under their new names. -/
structure Renamed (g : SquishedGraph) (ids degrees index neighs : Nat → Nat) : Prop
    extends Renames g.toCSRGraph ids degrees where
  consecutive : Consecutive g.numNodes index degrees
  rows : ∀ u < g.numNodes,
    neighborhood index neighs (ids u) 0 = ((g.outNeigh u 0).map ids).insertionSort (· ≤ ·)

variable {g h : SquishedGraph} {ids degrees index neighs : Nat → Nat}

theorem Renamed.mem_row (h : Renamed g ids degrees index neighs) {u v : Nat} (hu : u < g.numNodes)
    (hv : v < g.numNodes) : ids v ∈ neighborhood index neighs (ids u) 0 ↔ v ∈ g.outNeigh u 0 := by
  rw [h.rows u hu, List.mem_insertionSort, List.mem_map]
  constructor
  · rintro ⟨w, hw, hSame⟩
    obtain rfl := h.bijOn.injOn (g.out_lt u hu w hw) hv hSame
    exact hw
  · exact fun hOut => ⟨v, hOut, rfl⟩

theorem Renamed.exists_old (h : Renamed g ids degrees index neighs) {x : Nat} (hx : x < g.numNodes) :
    ∃ u < g.numNodes, ids u = x := h.bijOn.surjOn hx

theorem Renamed.row_lt (h : Renamed g ids degrees index neighs) :
    ∀ x < g.numNodes, ∀ y ∈ neighborhood index neighs x 0, y < g.numNodes := by
  intro x hx y hy
  obtain ⟨u, hu, rfl⟩ := h.exists_old hx
  rw [h.rows u hu, List.mem_insertionSort, List.mem_map] at hy
  obtain ⟨v, hv, rfl⟩ := hy
  exact h.bijOn.mapsTo (g.out_lt u hu v hv)

theorem Renamed.symm (h : Renamed g ids degrees index neighs) {x y : Nat} (hx : x < g.numNodes)
    (hy : y < g.numNodes) (hRow : y ∈ neighborhood index neighs x 0) :
    x ∈ neighborhood index neighs y 0 := by
  obtain ⟨u, hu, rfl⟩ := h.exists_old hx
  obtain ⟨v, hv, rfl⟩ := h.exists_old hy
  rw [h.mem_row hu hv] at hRow
  rw [h.mem_row hv hu]
  exact (g.mem_symm hu hRow).2

theorem Renamed.ascending (h : Renamed g ids degrees index neighs) {x : Nat} (hx : x < g.numNodes) :
    (neighborhood index neighs x 0).Pairwise (· < ·) := by
  obtain ⟨u, hu, rfl⟩ := h.exists_old hx
  have hSorted := List.pairwise_insertionSort (· ≤ ·) ((g.outNeigh u 0).map ids)
  have hNodup : (((g.outNeigh u 0).map ids).insertionSort (· ≤ ·)).Nodup := by
    rw [(List.perm_insertionSort _ _).nodup_iff]
    exact (g.nodup hu).map_on fun v hv w hw hSame =>
      h.bijOn.injOn (g.out_lt u hu v hv) (g.out_lt u hu w hw) hSame
  rw [h.rows u hu]
  exact (hSorted.and hNodup).imp fun hBoth => lt_of_le_of_ne hBoth.1 hBoth.2

/-- Rows under new names make a graph again. -/
def Renamed.graph (h : Renamed g ids degrees index neighs) : SquishedGraph where
  toCSRGraph := relabeled g.toCSRGraph index neighs
  nonempty := g.nonempty
  undirected _ := ⟨rfl, rfl⟩
  out_lt := h.row_lt
  in_lt := h.row_lt
  inverse _ hx _ hy := ⟨h.symm hx hy, h.symm hy hx⟩
  symmetric := rfl
  ascending _ hx := h.ascending hx
  no_loops x hx hLoop := by
    obtain ⟨u, hu, rfl⟩ := h.exists_old hx
    exact g.no_loops u hu ((h.mem_row hu hu).mp hLoop)

theorem Renamed.outDegree (h : Renamed g ids degrees index neighs) {x : Nat} (hx : x < g.numNodes) :
    h.graph.outDegree x = degrees x := by
  have hNext := h.consecutive x hx
  rw [CSRGraph.outDegree]
  exact Nat.sub_eq_of_eq_add' hNext

theorem Renamed.relabels (h : Renamed g ids degrees index neighs) : Relabels g h.graph ids where
  numNodes := rfl
  bijOn := h.bijOn
  adj u hu v hv := by
    rw [SquishedGraph.adj_iff (g := h.graph) (h.bijOn.mapsTo hu), SquishedGraph.adj_iff hu]
    exact h.mem_row hu hv
  degree u hu := (h.outDegree (h.bijOn.mapsTo hu)).trans (h.degree u hu)
  decreasing i j hLe hj := by
    rw [h.outDegree hj, h.outDegree (hLe.trans_lt hj)]
    exact h.decreasing i j hLe hj

theorem RelabelByDegree.relabels {result : Option (CSRGraph Nat)}
    (hRelabel : RelabelByDegree g.toCSRGraph result) :
    ∃ h : SquishedGraph, result = some h.toCSRGraph ∧ ∃ ids, Relabels g h ids := by
  cases hRelabel with
  | directed hDirected => exact absurd (g.symmetric.symm.trans hDirected) Bool.false_ne_true
  | done _ ids sums neighs ends hRun hEnd =>
    have hRenames := newIds_renames g.toCSRGraph ids
    have hIndex := newIndex_consecutive g.toCSRGraph sums
    have hLaid := hRenames.laid hIndex
    have hEnds : Relabeling g (newIds g.toCSRGraph ids) (newIndex g.toCSRGraph sums) ends :=
      invariant_of_reaches (fun _ _ h hStep => h.step hLaid hStep) (startRelabel_ok g _ _ neighs) hRun
    have hSorted := hEnds.sorted hLaid hEnd
    have hRenamed : Renamed g (newIds g.toCSRGraph ids) (newDegrees g.toCSRGraph)
        (newIndex g.toCSRGraph sums) ends.1.neighs :=
      ⟨hRenames, hIndex, fun u hu => ((hEnds ⟨u, hu⟩).sorted (hSorted ⟨u, hu⟩)).2⟩
    rw [if_pos hSorted]
    exact ⟨hRenamed.graph, rfl, newIds g.toCSRGraph ids, hRenamed.relabels⟩

theorem exists_relabelByDegree (g : SquishedGraph) : ∃ result, RelabelByDegree g.toCSRGraph result := by
  obtain ⟨ends, hRun, hEnd⟩ := exists_final
    (relabelStep_ends (newIds g.toCSRGraph id) (newIndex g.toCSRGraph 0) (newIndex g.toCSRGraph 0 g.numNodes)
      g.numNodes) (startRelabel g.toCSRGraph (newIndex g.toCSRGraph 0) id)
  exact ⟨_, .done g.symmetric id 0 id ends hRun hEnd⟩

/-- The new names carry triangles to triangles. -/
theorem Relabels.image_mem (hRelabels : Relabels g h ids) {t : Finset Nat} (ht : t ∈ g.triangles) :
    t.image ids ∈ h.triangles := by
  obtain ⟨a, b, c, hab, hac, hbc, rfl⟩ := SimpleGraph.is3Clique_iff.mp ht
  have hAdj {u v : Nat} (huv : g.underlying.Adj u v) : h.underlying.Adj (ids u) (ids v) :=
    (hRelabels.adj u huv.2.1 v huv.2.2.1).mpr huv
  refine SimpleGraph.is3Clique_iff.mpr ⟨ids a, ids b, ids c, hAdj hab, hAdj hac, hAdj hbc, ?_⟩
  rw [Finset.image_insert, Finset.image_insert, Finset.image_singleton]

theorem Graph.triangle_subset {g : Graph} {t : Finset Nat} (ht : t ∈ g.triangles) :
    (t : Set Nat) ⊆ Set.Iio g.numNodes := by
  obtain ⟨a, b, c, hab, hac, _, rfl⟩ := SimpleGraph.is3Clique_iff.mp ht
  intro x hx
  simp only [Finset.coe_insert, Finset.coe_singleton, Set.mem_insert_iff, Set.mem_singleton_iff] at hx
  obtain rfl | rfl | rfl := hx
  · exact hab.2.1
  · exact hab.2.2.1
  · exact hac.2.2.1

theorem Relabels.exists_image (hRelabels : Relabels g h ids) {t : Finset Nat} (ht : t ∈ h.triangles) :
    ∃ s ∈ g.triangles, s.image ids = t := by
  obtain ⟨a, b, c, hab, hac, hbc, rfl⟩ := SimpleGraph.is3Clique_iff.mp ht
  have hOld {x : Nat} (hx : x < h.numNodes) : ∃ u < g.numNodes, ids u = x :=
    hRelabels.bijOn.surjOn (hRelabels.numNodes ▸ hx)
  obtain ⟨u, hu, rfl⟩ := hOld hab.2.1
  obtain ⟨v, hv, rfl⟩ := hOld hab.2.2.1
  obtain ⟨w, hw, rfl⟩ := hOld hac.2.2.1
  rw [hRelabels.adj u hu v hv] at hab
  rw [hRelabels.adj u hu w hw] at hac
  rw [hRelabels.adj v hv w hw] at hbc
  refine ⟨{u, v, w}, SimpleGraph.is3Clique_iff.mpr ⟨u, v, w, hab, hac, hbc, rfl⟩, ?_⟩
  rw [Finset.image_insert, Finset.image_insert, Finset.image_singleton]

theorem Relabels.ncard_triangles (hRelabels : Relabels g h ids) :
    g.triangles.ncard = h.triangles.ncard := by
  refine Set.ncard_congr (fun t _ => t.image ids) (fun t ht => hRelabels.image_mem ht) ?_ ?_
  · intro s t hs ht hSame
    have hCoe : ids '' s = ids '' t := by rw [← Finset.coe_image, ← Finset.coe_image, hSame]
    rw [hRelabels.bijOn.injOn.image_eq_image_iff (Graph.triangle_subset hs) (Graph.triangle_subset ht)] at hCoe
    exact Finset.coe_injective hCoe
  · intro t ht
    obtain ⟨s, hs, hImage⟩ := hRelabels.exists_image ht
    exact ⟨s, hs, hImage⟩

/-- No run of `RelabelByDegree` goes on for ever, and each that has ended names the nodes anew, in the
order of their degrees. -/
theorem relabelByDegree_isomorphic (g : SquishedGraph) :
    (∀ ids index : Nat → Nat, ∀ length, WellFounded fun t s : Rows Nat × (Fin g.numNodes → Relabeler) =>
      RelabelStep ids index length s t) ∧
    (∃ result, RelabelByDegree g.toCSRGraph result) ∧
      ∀ result, RelabelByDegree g.toCSRGraph result →
        ∃ h : SquishedGraph, result = some h.toCSRGraph ∧ ∃ ids, Relabels g h ids :=
  ⟨fun ids index length => relabelStep_ends ids index length g.numNodes, exists_relabelByDegree g,
    fun _ hRelabel => hRelabel.relabels⟩

/-- Relabeled or not, the kernel ends and counts the triangles of its graph. -/
theorem hybrid_counts (g : SquishedGraph) {nt : Nat} {share : Fin nt → List Nat}
    (hShare : Shares share (List.range g.numNodes)) :
    (∀ ids index : Nat → Nat, ∀ length, WellFounded fun t s : Rows Nat × (Fin g.numNodes → Relabeler) =>
      RelabelStep ids index length s t) ∧
    ∀ total, Hybrid g.toCSRGraph share total ↔ total = some (BitVec.ofNat 64 g.triangles.ncard) := by
  refine ⟨fun ids index length => relabelStep_ends ids index length g.numNodes, fun total => ⟨?_, ?_⟩⟩
  · intro hTotal
    cases hTotal with
    | asIs => exact OrderedCount_eq g hShare
    | relabeled result hRelabel =>
      obtain ⟨h, rfl, ids, hRelabels⟩ := hRelabel.relabels
      rw [hRelabels.ncard_triangles]
      exact OrderedCount_eq h (hRelabels.numNodes ▸ hShare)
  · rintro rfl
    rw [← OrderedCount_eq g hShare]
    exact .asIs

theorem oneTriangle_hybrid :
    Hybrid oneTriangle.toCSRGraph (fun _ : Fin 1 => [0, 1, 2]) (some 1#64) := by
  have hShare : Shares (fun _ : Fin 1 => [0, 1, 2]) (List.range oneTriangle.numNodes) :=
    List.Perm.refl [0, 1, 2]
  exact ((hybrid_counts oneTriangle hShare).2 (some 1#64)).mpr (by rw [ncard_oneTriangle])

end NewGraph

end Trident.Gapbs
