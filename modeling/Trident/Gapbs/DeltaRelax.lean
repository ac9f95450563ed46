import Mathlib.Data.Prod.Lex
import Mathlib.Algebra.Order.BigOperators.Group.Finset
import Trident.Gapbs.DeltaStep

/-! # Relaxing a bin

What the threads keep before the first barrier. A distance that an edge might still lower is owed by
somebody: by a turn that is left, by a thread that has the edge at hand, or by a later bin.
-/

namespace Trident.Gapbs

open Transition Distances

section LocalBins

variable {bins : Bins} {i j : Nat}

theorem Bins.lt_length (h : bins.bin i ≠ []) : i < bins.length := by
  by_contra hNot
  apply h
  rw [Bins.bin, List.getD_eq_getElem?_getD, List.getElem?_eq_none (not_lt.mp hNot), Option.getD_none]

theorem Bins.bin_set (hi : i < bins.length) (row : List Nat) :
    Bins.bin (bins.set i row) j = if j = i then row else bins.bin j := by
  rw [Bins.bin, Bins.bin, List.getD_eq_getElem?_getD, List.getD_eq_getElem?_getD, List.getElem?_set]
  obtain rfl | hNe := eq_or_ne j i
  · rw [if_pos rfl, if_pos rfl, if_pos hi, Option.getD_some]
  · rw [if_neg hNe.symm, if_neg hNe]

theorem Bins.bin_grow (bins : Bins) (k j : Nat) :
    Bins.bin (bins ++ List.replicate k []) j = bins.bin j := by
  rw [Bins.bin, Bins.bin, List.getD_eq_getElem?_getD, List.getD_eq_getElem?_getD, List.getElem?_append]
  split
  · rfl
  · rename_i hOut
    rw [List.getElem?_eq_none (not_lt.mp hOut), List.getElem?_replicate]
    split <;> rfl

def Bins.size (bins : Bins) : Nat := (bins.map List.length).sum

theorem Bins.size_set (hi : i < bins.length) (row : List Nat) :
    Bins.size (bins.set i row) + (bins.bin i).length = bins.size + row.length := by
  have hSplit : bins = bins.take i ++ bins.bin i :: bins.drop (i + 1) := by
    rw [Bins.bin, List.getD_eq_getElem?_getD, List.getElem?_eq_getElem hi, Option.getD_some,
      List.getElem_cons_drop, List.take_append_drop]
  rw [Bins.size, Bins.size, List.set_eq_take_append_cons_drop, if_pos hi]
  nth_rewrite 4 [hSplit]
  simp only [List.map_append, List.map_cons, List.sum_append, List.sum_cons]
  omega

theorem Bins.size_grow (bins : Bins) (k : Nat) : Bins.size (bins ++ List.replicate k []) = bins.size := by
  simp [Bins.size]

theorem Bins.grown_length (bins : Bins) (destBin : Nat) :
    destBin < (bins ++ List.replicate (destBin + 1 - bins.length) []).length := by
  rw [List.length_append, List.length_replicate]
  omega

theorem Bins.length_push (bins : Bins) (destBin v : Nat) :
    (bins.push destBin v).length = max bins.length (destBin + 1) := by
  rw [Bins.push, List.length_set, List.length_append, List.length_replicate]
  omega

theorem Bins.bin_push (bins : Bins) (destBin v j : Nat) :
    (bins.push destBin v).bin j = if j = destBin then bins.bin j ++ [v] else bins.bin j := by
  rw [Bins.push, Bins.bin_set (bins.grown_length destBin), Bins.bin_grow, Bins.bin_grow]
  split
  · rename_i hSame
    rw [hSame]
  · rfl

theorem Bins.size_push (bins : Bins) (destBin v : Nat) : (bins.push destBin v).size = bins.size + 1 := by
  have hSet := Bins.size_set (bins.grown_length destBin)
    (Bins.bin (bins ++ List.replicate (destBin + 1 - bins.length) []) destBin ++ [v])
  rw [Bins.size_grow, List.length_append, List.length_singleton] at hSet
  rw [Bins.push]
  omega

theorem Bins.vote_spec (bins : Bins) (currBin : Nat) :
    (∀ i, bins.vote currBin = some i → bins.bin i ≠ []) ∧
      ∀ i, currBin ≤ i → bins.bin i ≠ [] → ∃ j ≤ i, bins.vote currBin = some j := by
  constructor
  · intro i hVote
    simpa using List.find?_some hVote
  · intro i hFrom hBin
    have hLength := Bins.lt_length hBin
    cases hVote : bins.vote currBin with
    | none =>
      have hNone := List.find?_eq_none.mp hVote i (by rw [List.mem_range'_1]; omega)
      exact absurd hBin (by simpa using hNone)
    | some j =>
      refine ⟨j, ?_, rfl⟩
      by_contra hLater
      obtain ⟨_, _, hBefore⟩ := List.find?_range'_eq_some.mp hVote
      exact absurd hBin (by simpa using hBefore i hFrom (not_le.mp hLater))

end LocalBins

section Costs

variable {g : WGraph} {src : Nat} {delta d d' : Int}

theorem WGraph.WeightsFit.arc_nonneg (hWeights : g.WeightsFit) (u v : Nat) (w : Int) (h : g.arc u v w) :
    0 ≤ w := by
  obtain ⟨hu, wn, hwn, _, rfl⟩ := h
  exact (hWeights u hu wn hwn).1

theorem WGraph.WeightsFit.weight_le_row (hWeights : g.WeightsFit) {u : Nat} (hu : u < g.numNodes)
    {wn : NodeWeight Int} (hwn : wn ∈ g.outNeigh u 0) : wn.w ≤ g.rowWeight u := by
  refine List.single_le_sum (fun w hw => ?_) _ (List.mem_map_of_mem hwn)
  obtain ⟨e, he, rfl⟩ := List.mem_map.mp hw
  exact (hWeights u hu e he).1

theorem WGraph.WeightsFit.row_nonneg (hWeights : g.WeightsFit) (u : Nat) (hu : u ∈ Finset.range g.numNodes) :
    0 ≤ g.rowWeight u := by
  refine List.sum_nonneg fun w hw => ?_
  obtain ⟨e, he, rfl⟩ := List.mem_map.mp hw
  exact (hWeights u (Finset.mem_range.mp hu) e he).1

/-- No distance that is found lies beyond. -/
def WGraph.maxDist (g : WGraph) : Int := min (kDistInf - 1) g.totalWeight

theorem WGraph.maxDist_lt (g : WGraph) (h : d ≤ g.maxDist) : d < kDistInf :=
  Int.lt_of_le_sub_one (h.trans (min_le_left _ _))

theorem destBin_eq (hDelta : 0 < delta) (hNonneg : 0 ≤ d) (hInf : d < kDistInf) :
    (destBin delta d : Int) = d / delta := by
  have hLow : 0 ≤ d / delta := Int.ediv_nonneg hNonneg hDelta.le
  have hHigh : d / delta ≤ d := Int.ediv_le_self delta hNonneg
  rw [kDistInf] at hInf
  rw [destBin, Int.tdiv_eq_ediv_of_nonneg hNonneg, Int.emod_eq_of_lt hLow (by omega), Int.toNat_of_nonneg hLow]

theorem destBin_le_iff (hDelta : 0 < delta) (hNonneg : 0 ≤ d) (hInf : d < kDistInf) {i : Nat} :
    destBin delta d ≤ i ↔ d < delta * (i + 1) := by
  rw [← Int.ofNat_le, destBin_eq hDelta hNonneg hInf, ← Int.lt_add_one_iff, Int.ediv_lt_iff_lt_mul hDelta,
    Int.mul_comm]

theorem le_destBin_iff (hDelta : 0 < delta) (hNonneg : 0 ≤ d) (hInf : d < kDistInf) {i : Nat} :
    i ≤ destBin delta d ↔ delta * i ≤ d := by
  rw [← Int.ofNat_le, destBin_eq hDelta hNonneg hInf, Int.le_ediv_iff_mul_le hDelta, Int.mul_comm]

theorem destBin_mono (hDelta : 0 < delta) (hNonneg : 0 ≤ d) (hLe : d ≤ d') (hInf : d' < kDistInf) :
    destBin delta d ≤ destBin delta d' := by
  rw [← Int.ofNat_le, destBin_eq hDelta hNonneg (hLe.trans_lt hInf), destBin_eq hDelta (hNonneg.trans hLe) hInf]
  exact Int.ediv_le_ediv hDelta hLe

/-- `delta` times the index of a bin is a `WeightT`, and the index is not `kMaxBin`. -/
theorem lt_max_of_mul_le (hDelta : 0 < delta) {i : Nat} (h : delta * i ≤ g.maxDist) : i < kMaxBin := by
  replace h := g.maxDist_lt h
  have hLow := Int.mul_le_mul_of_nonneg_right (Int.add_one_le_of_lt hDelta) (Int.natCast_nonneg i)
  rw [kDistInf] at h
  rw [kMaxBin]
  omega

end Costs

section Invariants

variable {g : WGraph} {src b : Nat} {delta floor : Int} {dist dist' : Nat → Int}

/-- The nodes carry the cost by their edges. -/
abbrev WGraph.Carried (g : WGraph) (dist : Nat → Int) (nodes : Finset Nat) (d : Int) : Prop :=
  Distances.Carried (Finset.range g.numNodes) g.rowWeight dist nodes d

structure DistOk (g : WGraph) (src : Nat) (dist : Nat → Int) : Prop where
  source : dist src = 0
  nonneg : ∀ v, 0 ≤ dist v
  cap : ∀ v, dist v ≤ kDistInf
  sound : ∀ v, dist v < kDistInf → Route g.arc src v (dist v)
  carried : ∀ v, dist v < kDistInf → ∃ nodes, v ∉ nodes ∧ g.Carried dist nodes (dist v)

/-- A thread has found a way to `v`, and it goes through nodes that are no farther away. -/
def Finds (g : WGraph) (src : Nat) (dist : Nat → Int) (v : Nat) (newDist : Int) : Prop :=
  Route g.arc src v newDist ∧ ∃ nodes, g.Carried dist nodes newDist

theorem Finds.lower {v : Nat} {newDist : Int} (h : Finds g src dist v newDist) (hLe : ∀ x, dist' x ≤ dist x) :
    Finds g src dist' v newDist :=
  ⟨h.1, h.2.imp fun _ hCarried => hCarried.lower hLe⟩

theorem Finds.le_maxDist {v : Nat} {newDist : Int} (h : Finds g src dist v newDist) (hWeights : g.WeightsFit)
    (hInf : newDist < kDistInf) : newDist ≤ g.maxDist := by
  obtain ⟨nodes, hCarried⟩ := h.2
  exact le_min (Int.le_sub_one_of_lt hInf) (hCarried.le_sum hWeights.row_nonneg)

theorem DistOk.update (h : DistOk g src dist) (hWeights : g.WeightsFit) {v : Nat} {newDist : Int}
    (hFinds : Finds g src dist v newDist) (hLess : newDist < dist v) :
    DistOk g src (Function.update dist v newDist) := by
  obtain ⟨hRoute, nodes, hCarried⟩ := hFinds
  have hNonneg := hRoute.nonneg hWeights.arc_nonneg
  have hLe : ∀ x, Function.update dist v newDist x ≤ dist x := by
    intro x
    obtain rfl | hx := eq_or_ne x v
    · rw [Function.update_self]
      exact hLess.le
    · rw [Function.update_of_ne hx]
  have hNe : src ≠ v := by
    rintro rfl
    rw [h.source] at hLess
    exact absurd hNonneg (not_le.mpr hLess)
  constructor
  · rw [Function.update_of_ne hNe]
    exact h.source
  · intro x
    obtain rfl | hx := eq_or_ne x v
    · rwa [Function.update_self]
    · rw [Function.update_of_ne hx]
      exact h.nonneg x
  · exact fun x => (hLe x).trans (h.cap x)
  · intro x hInf
    obtain rfl | hx := eq_or_ne x v
    · rw [Function.update_self]
      exact hRoute
    · rw [Function.update_of_ne hx] at hInf ⊢
      exact h.sound x hInf
  · intro x hInf
    obtain rfl | hx := eq_or_ne x v
    · refine ⟨nodes, hCarried.notMem hLess, ?_⟩
      rw [Function.update_self]
      exact hCarried.lower hLe
    · rw [Function.update_of_ne hx] at hInf ⊢
      obtain ⟨others, hNew, hOther⟩ := h.carried x hInf
      exact ⟨others, hNew, hOther.lower hLe⟩

/-- The edge `wn` of `u` makes a way to `wn.v` of one to `u`. -/
theorem DistOk.finds (h : DistOk g src dist) (hWeights : g.WeightsFit) {u : Nat} (hu : u < g.numNodes)
    (hInf : dist u < kDistInf) {wn : NodeWeight Int} (hwn : wn ∈ g.outNeigh u 0) :
    Finds g src dist wn.v (dist u + wn.w) := by
  obtain ⟨nodes, hNew, hCarried⟩ := h.carried u hInf
  have hEdge := (hWeights u hu wn hwn).1
  refine ⟨(h.sound u hInf).step ⟨hu, wn, hwn, rfl, rfl⟩, insert u nodes, ?_⟩
  exact hCarried.insert (Finset.mem_range.mpr hu) hNew hEdge (hWeights.weight_le_row hu hwn)

theorem startDist_lt {v : Nat} (h : Function.update (fun _ => kDistInf) src 0 v < kDistInf) : v = src := by
  by_contra hNe
  rw [Function.update_of_ne hNe] at h
  exact lt_irrefl _ h

theorem startDist_ok (g : WGraph) (src : Nat) : DistOk g src (Function.update (fun _ => kDistInf) src 0) := by
  have hInf : 0 ≤ kDistInf := by decide
  constructor
  · exact Function.update_self ..
  · intro v
    obtain rfl | hNe := eq_or_ne v src
    · rw [Function.update_self]
    · rwa [Function.update_of_ne hNe]
  · intro v
    obtain rfl | hNe := eq_or_ne v src
    · rwa [Function.update_self]
    · rw [Function.update_of_ne hNe]
  · intro v hv
    obtain rfl := startDist_lt hv
    rw [Function.update_self]
    exact .start
  · intro v hv
    obtain rfl := startDist_lt hv
    rw [Function.update_self]
    exact ⟨∅, Finset.notMem_empty v, Finset.empty_subset _, nofun, le_rfl⟩

/-- Distances only go down, and not below the bin that is relaxed. -/
structure Lowers (floor : Int) (dist dist' : Nat → Int) : Prop where
  le : ∀ v, dist' v ≤ dist v
  above : ∀ v, dist' v ≠ dist v → floor ≤ dist' v

theorem Lowers.refl (floor : Int) (dist : Nat → Int) : Lowers floor dist dist :=
  ⟨fun _ => le_rfl, fun _ h => absurd rfl h⟩

theorem Lowers.floor_le (h : Lowers floor dist dist') {u : Nat} (hFloor : floor ≤ dist u) :
    floor ≤ dist' u := by
  by_cases hSame : dist' u = dist u
  · rwa [hSame]
  · exact h.above u hSame

theorem Lowers.eq (h : Lowers floor dist dist') {u : Nat} (hBelow : dist u < floor) :
    dist' u = dist u := by
  by_contra hNe
  exact absurd ((h.above u hNe).trans (h.le u)) (not_le.mpr hBelow)

theorem lowers_update {v : Nat} {newDist : Int} (hLess : newDist < dist v) (hFloor : floor ≤ newDist) :
    Lowers floor dist (Function.update dist v newDist) := by
  constructor
  · intro x
    obtain rfl | hNe := eq_or_ne x v
    · rw [Function.update_self]
      exact hLess.le
    · rw [Function.update_of_ne hNe]
  · intro x hx
    obtain rfl | hNe := eq_or_ne x v
    · rwa [Function.update_self]
    · exact absurd (Function.update_of_ne hNe _ _) hx

/-- A node stands in bins from `b` on, none of them before the bin of its distance. -/
structure BinsOk (g : WGraph) (delta : Int) (b : Nat) (dist : Nat → Int) (bins : Bins) : Prop where
  index : ∀ i, bins.bin i ≠ [] → b ≤ i
  fits : ∀ i < bins.length, delta * i ≤ g.maxDist
  entry : ∀ i, ∀ v ∈ bins.bin i, dist v < kDistInf ∧ destBin delta (dist v) ≤ i

theorem BinsOk.lower {bins : Bins} (h : BinsOk g delta b dist bins) (hDelta : 0 < delta)
    (hNonneg : ∀ v, 0 ≤ dist' v) (hLe : ∀ v, dist' v ≤ dist v) : BinsOk g delta b dist' bins where
  index := h.index
  fits := h.fits
  entry i v hv := by
    obtain ⟨hInf, hBin⟩ := h.entry i v hv
    exact ⟨(hLe v).trans_lt hInf, (destBin_mono hDelta (hNonneg v) (hLe v) hInf).trans hBin⟩

theorem BinsOk.push {bins : Bins} (h : BinsOk g delta b dist bins) (hDelta : 0 < delta) {v : Nat}
    {newDist : Int} (hNonneg : 0 ≤ dist v) (hLe : dist v ≤ newDist) (hMax : newDist ≤ g.maxDist)
    (hFloor : delta * b ≤ newDist) : BinsOk g delta b dist (bins.push (destBin delta newDist) v) := by
  have hNew := hNonneg.trans hLe
  have hInf := g.maxDist_lt hMax
  have hIndex : b ≤ destBin delta newDist := (le_destBin_iff hDelta hNew hInf).mpr hFloor
  have hBound : delta * destBin delta newDist ≤ g.maxDist :=
    ((le_destBin_iff hDelta hNew hInf).mp le_rfl).trans hMax
  constructor
  · intro i hi
    rw [Bins.bin_push] at hi
    split at hi
    · rename_i hSame
      rwa [hSame]
    · exact h.index i hi
  · intro i hi
    rw [Bins.length_push] at hi
    obtain hOld | hAdded := lt_max_iff.mp hi
    · exact h.fits i hOld
    · have hUp : delta * i ≤ delta * destBin delta newDist :=
        Int.mul_le_mul_of_nonneg_left (by omega) hDelta.le
      exact hUp.trans hBound
  · intro i x hx
    rw [Bins.bin_push] at hx
    split at hx
    · rename_i hSame
      rcases List.mem_append.mp hx with hOld | hNew
      · exact h.entry i x hOld
      · rw [List.mem_singleton.mp hNew, hSame]
        exact ⟨hLe.trans_lt hInf, destBin_mono hDelta hNonneg hLe hInf⟩
    · exact h.entry i x hx

/-- The thread has an edge of a node that belongs to the present bin. -/
def Relaxing (floor : Int) (dist : Nat → Int) (u : Nat) : Prop := floor ≤ dist u ∧ dist u < kDistInf

theorem Relaxing.lower {u : Nat} (h : Relaxing floor dist u) (hLowers : Lowers floor dist dist') :
    Relaxing floor dist' u :=
  ⟨hLowers.floor_le h.1, (hLowers.le u).trans_lt h.2⟩

def RelaxPhase.Ok (g : WGraph) (src : Nat) (floor : Int) (dist : Nat → Int) (u : Nat)
    (edges : List (NodeWeight Int)) : RelaxPhase → Prop
  | .turn | .voted => edges = []
  | .checking => edges = [] ∧ dist u < kDistInf
  | .edge => Relaxing floor dist u
  | .comparing oldDist => Relaxing floor dist u ∧
    ∃ wn rest, edges = wn :: rest ∧ dist wn.v ≤ oldDist ∧ oldDist ≤ kDistInf
  | .swapping oldDist newDist => Relaxing floor dist u ∧ floor ≤ newDist ∧
    ∃ wn rest, edges = wn :: rest ∧ newDist < oldDist ∧ oldDist ≤ kDistInf ∧ Finds g src dist wn.v newDist
  | .again newDist => Relaxing floor dist u ∧ floor ≤ newDist ∧
    ∃ wn rest, edges = wn :: rest ∧ newDist < kDistInf ∧ Finds g src dist wn.v newDist
  | .changed newDist => Relaxing floor dist u ∧ floor ≤ newDist ∧
    ∃ wn rest, edges = wn :: rest ∧ dist wn.v ≤ newDist ∧ newDist ≤ g.maxDist

theorem RelaxPhase.Ok.lower {u : Nat} {edges : List (NodeWeight Int)} {phase : RelaxPhase}
    (h : phase.Ok g src floor dist u edges) (hLowers : Lowers floor dist dist') :
    phase.Ok g src floor dist' u edges := by
  cases phase with
  | turn | voted => exact h
  | checking => exact ⟨h.1, (hLowers.le u).trans_lt h.2⟩
  | edge => exact Relaxing.lower h hLowers
  | comparing oldDist =>
    obtain ⟨hRelaxing, wn, rest, hEdges, hLe, hInf⟩ := h
    exact ⟨hRelaxing.lower hLowers, wn, rest, hEdges, (hLowers.le wn.v).trans hLe, hInf⟩
  | swapping oldDist newDist =>
    obtain ⟨hRelaxing, hFloor, wn, rest, hEdges, hLess, hInf, hFinds⟩ := h
    exact ⟨hRelaxing.lower hLowers, hFloor, wn, rest, hEdges, hLess, hInf, hFinds.lower hLowers.le⟩
  | again newDist =>
    obtain ⟨hRelaxing, hFloor, wn, rest, hEdges, hInf, hFinds⟩ := h
    exact ⟨hRelaxing.lower hLowers, hFloor, wn, rest, hEdges, hInf, hFinds.lower hLowers.le⟩
  | changed newDist =>
    obtain ⟨hRelaxing, hFloor, wn, rest, hEdges, hLe, hInf⟩ := h
    exact ⟨hRelaxing.lower hLowers, hFloor, wn, rest, hEdges, (hLowers.le wn.v).trans hLe, hInf⟩

structure Relaxer.Ok (g : WGraph) (src : Nat) (delta : Int) (b tail : Nat) (dist : Nat → Int) (s : Relaxer) :
    Prop where
  todo : ∀ c ∈ s.todo, c < tail
  edges : s.edges <:+ g.outNeigh s.u 0
  bins : BinsOk g delta b dist s.localBins
  phase : s.phase.Ok g src (delta * b) dist s.u s.edges

theorem Relaxer.Ok.lower {tail : Nat} {s : Relaxer} (h : s.Ok g src delta b tail dist) (hDelta : 0 < delta)
    (hNonneg : ∀ v, 0 ≤ dist' v) (hLowers : Lowers (delta * b) dist dist') :
    s.Ok g src delta b tail dist' where
  todo := h.todo
  edges := h.edges
  bins := h.bins.lower hDelta hNonneg hLowers.le
  phase := h.phase.lower hLowers

/-- What a thread at `u'` still has to do for the edge `wn` of `u`, whose distance is `d`. -/
def RelaxPhase.Owes (floor d : Int) (u' : Nat) (edges : List (NodeWeight Int)) (u : Nat) (wn : NodeWeight Int) :
    RelaxPhase → Prop
  | .turn | .voted => False
  | .checking => u' = u ∧ floor ≤ d
  | .edge | .comparing _ => u' = u ∧ wn ∈ edges
  | .swapping _ newDist | .again newDist =>
    u' = u ∧ (wn ∈ edges.tail ∨ (edges.head? = some wn ∧ newDist = d + wn.w))
  | .changed newDist =>
    (u' = u ∧ wn ∈ edges.tail) ∨ ∃ first, edges.head? = some first ∧ first.v = u ∧ newDist = d

def Relaxer.Owes (delta : Int) (b : Nat) (frontier : Nat → Nat) (s : Relaxer) (d : Int) (u : Nat)
    (wn : NodeWeight Int) : Prop :=
  u ∈ s.localBins.bin (destBin delta d) ∨ (delta * b ≤ d ∧ ∃ c ∈ s.todo, frontier c = u) ∨
    s.phase.Owes (delta * b) d s.u s.edges u wn

structure RelaxMemory (g : WGraph) (src : Nat) (delta : Int) (iter b tail : Nat) (frontier : Nat → Nat)
    (m : Shared) : Prop where
  dist : DistOk g src m.dist
  bin : m.sharedIndexes (iter % 2) = b
  binFits : delta * b ≤ g.maxDist
  tail_eq : m.frontierTails (iter % 2) = tail
  nextTail : m.frontierTails ((iter + 1) % 2) = 0
  frontier_eq : m.frontier = frontier
  entries : ∀ c < tail, m.dist (frontier c) < kDistInf ∧ destBin delta (m.dist (frontier c)) ≤ b
  next : m.next ≤ tail

theorem RelaxMemory.lower {iter tail : Nat} {frontier : Nat → Nat} {m : Shared}
    (h : RelaxMemory g src delta iter b tail frontier m) (hDelta : 0 < delta) (hDist : DistOk g src dist')
    (hLowers : Lowers floor m.dist dist') :
    RelaxMemory g src delta iter b tail frontier { m with dist := dist' } where
  dist := hDist
  bin := h.bin
  binFits := h.binFits
  tail_eq := h.tail_eq
  nextTail := h.nextTail
  frontier_eq := h.frontier_eq
  entries c hc := by
    obtain ⟨hInf, hBin⟩ := h.entries c hc
    exact ⟨(hLowers.le _).trans_lt hInf, (destBin_mono hDelta (hDist.nonneg _) (hLowers.le _) hInf).trans hBin⟩
  next := h.next

end Invariants

section Turns

variable (g : WGraph) (src : Nat) (delta : Int) (iter b tail : Nat) (frontier : Nat → Nat)

/-- The entries of the frontier and of the bins that a thread has. -/
def Relaxer.items (s : Relaxer) : Nat :=
  s.todo.length + s.localBins.size + match s.phase with
    | .changed _ => 1
    | _ => 0

/-- The steps that a thread has left for its node, while no distance changes. -/
def Relaxer.work (dist : Nat → Int) (s : Relaxer) : Nat :=
  5 * s.edges.length + match s.phase with
    | .turn => 1
    | .checking => 5 * (g.outNeigh s.u 0).length + 5
    | .edge => 4
    | .comparing _ => 3
    | .swapping oldDist _ =>
      match s.edges with
      | [] => 0
      | wn :: _ => if dist wn.v = oldDist then 0 else 2
    | .again _ => 1
    | .changed _ => 0
    | .voted => 0

/-- Fewer entries, or as many and less work. -/
def Advances (dist : Nat → Int) (left : Nat) (s : Relaxer) (left' : Nat) (s' : Relaxer) : Prop :=
  left' + s'.items < left + s.items ∨
    left' + s'.items = left + s.items ∧ left' + s'.todo.length = left + s.todo.length ∧
      left' + s'.work g dist < left + s.work g dist

structure RelaxTurn (m : Shared) (s : Relaxer) (m' : Shared) (s' : Relaxer) : Prop where
  memory : RelaxMemory g src delta iter b tail frontier m'
  lowers : Lowers (delta * b) m.dist m'.dist
  ok : s'.Ok g src delta b tail m'.dist
  next : m.next ≤ m'.next
  handed : ∀ c, m.next ≤ c → c < m'.next → c ∈ s'.todo
  kept : ∀ u, m'.dist u = m.dist u → ∀ wn ∈ g.outNeigh u 0, s.Owes delta b frontier (m.dist u) u wn →
    m'.dist wn.v ≤ m.dist u + wn.w ∨ s'.Owes delta b frontier (m.dist u) u wn
  lowered : ∀ u, m'.dist u ≠ m.dist u → ∀ wn, s'.Owes delta b frontier (m'.dist u) u wn
  votes : m'.sharedIndexes ((iter + 1) % 2) ≤ m.sharedIndexes ((iter + 1) % 2)
  voted : s'.phase = .voted → s'.todo = [] ∧ m'.next = tail ∧
    ∀ i, s'.localBins.bin i ≠ [] → m'.sharedIndexes ((iter + 1) % 2) ≤ i
  vote : m'.sharedIndexes ((iter + 1) % 2) = m.sharedIndexes ((iter + 1) % 2) ∨
    s'.phase = .voted ∧ s'.localBins.bin (m'.sharedIndexes ((iter + 1) % 2)) ≠ []
  progress : (∃ v < g.numNodes, m'.dist v < m.dist v) ∨
    m'.dist = m.dist ∧ Advances g m.dist (tail - m.next) s (tail - m'.next) s'

variable {g src delta iter b tail frontier} {room : Bins → Bool} {m m' : Shared} {s s' : Relaxer}

/-- A step that leaves the shared memory as it is. -/
theorem RelaxTurn.of_local (hMemory : RelaxMemory g src delta iter b tail frontier m)
    (hOk : s'.Ok g src delta b tail m.dist)
    (hKept : ∀ u, ∀ wn ∈ g.outNeigh u 0, s.Owes delta b frontier (m.dist u) u wn →
      m.dist wn.v ≤ m.dist u + wn.w ∨ s'.Owes delta b frontier (m.dist u) u wn)
    (hVoted : s'.phase = .voted → s'.todo = [] ∧ m.next = tail ∧ ∀ i, s'.localBins.bin i = [])
    (hProgress : Advances g m.dist (tail - m.next) s (tail - m.next) s') :
    RelaxTurn g src delta iter b tail frontier m s m s' where
  memory := hMemory
  lowers := .refl _ _
  ok := hOk
  next := le_rfl
  handed c hLow hHigh := absurd hLow (not_le.mpr hHigh)
  kept u _ := hKept u
  lowered u hu := absurd rfl hu
  votes := le_rfl
  voted hPhase := by
    obtain ⟨hTodo, hNext, hBins⟩ := hVoted hPhase
    exact ⟨hTodo, hNext, fun i hi => absurd (hBins i) hi⟩
  vote := Or.inl rfl
  progress := Or.inr ⟨rfl, hProgress⟩

theorem WGraph.route_lt (hSource : src < g.numNodes) {v : Nat} {c : Int} (h : Route g.arc src v c) :
    v < g.numNodes := by
  apply h.closed (p := (· < g.numNodes)) hSource
  rintro u v w hu ⟨_, wn, hMem, rfl, _⟩
  exact g.out_lt u hu wn hMem

theorem DistOk.lt {dist : Nat → Int} (h : DistOk g src dist) (hSource : src < g.numNodes) {u : Nat}
    (hu : dist u < kDistInf) : u < g.numNodes :=
  g.route_lt hSource (h.sound u hu)

/-- The thread takes a turn of its chunk. -/
theorem RelaxTurn.take (hMemory : RelaxMemory g src delta iter b tail frontier m) {i u : Nat}
    {todo : List Nat} {bins : Bins} (hOk : Relaxer.Ok g src delta b tail m.dist ⟨i :: todo, u, [], bins, .turn⟩) :
    RelaxTurn g src delta iter b tail frontier m ⟨i :: todo, u, [], bins, .turn⟩
      m ⟨todo, m.frontier i, [], bins, .checking⟩ := by
  have hi := hOk.todo i List.mem_cons_self
  apply RelaxTurn.of_local hMemory
  · constructor
    · exact fun c hc => hOk.todo c (List.mem_cons_of_mem i hc)
    · exact List.nil_suffix
    · exact hOk.bins
    · rw [hMemory.frontier_eq]
      exact ⟨rfl, (hMemory.entries i hi).1⟩
  · rintro v wn _ (hBin | ⟨hFloor, c, hc, rfl⟩ | hPhase)
    · exact Or.inr (Or.inl hBin)
    · rcases List.mem_cons.mp hc with rfl | hRest
      · rw [← hMemory.frontier_eq] at hFloor ⊢
        exact Or.inr (Or.inr (Or.inr ⟨rfl, hFloor⟩))
      · exact Or.inr (Or.inr (Or.inl ⟨hFloor, c, hRest, rfl⟩))
    · exact hPhase.elim
  · exact nofun
  · left
    simp only [Relaxer.items, List.length_cons]
    omega

/-- The thread gets a chunk. -/
theorem RelaxTurn.chunk (hMemory : RelaxMemory g src delta iter b tail frontier m) {u : Nat}
    {bins : Bins} (hOk : Relaxer.Ok g src delta b tail m.dist ⟨[], u, [], bins, .turn⟩) {count : Nat}
    (hCount : 0 < count) (hFits : m.next + count ≤ tail) :
    RelaxTurn g src delta iter b tail frontier m ⟨[], u, [], bins, .turn⟩
      { m with next := m.next + count } ⟨List.range' m.next count, u, [], bins, .turn⟩ where
  memory := { hMemory with next := hFits }
  lowers := .refl _ _
  ok := by
    constructor
    · intro c hc
      rw [List.mem_range'_1] at hc
      exact hc.2.trans_le hFits
    · exact List.nil_suffix
    · exact hOk.bins
    · exact rfl
  next := Nat.le_add_right _ _
  handed c hLow hHigh := List.mem_range'_1.mpr ⟨hLow, hHigh⟩
  kept v _ wn _ hOwes := by
    rcases hOwes with hBin | ⟨_, c, hc, _⟩ | hPhase
    · exact Or.inr (Or.inl hBin)
    · cases hc
    · exact hPhase.elim
  lowered v hv := absurd rfl hv
  votes := le_rfl
  voted hPhase := by cases hPhase
  vote := Or.inl rfl
  progress := by
    right
    refine ⟨rfl, Or.inr ?_⟩
    simp only [Relaxer.items, Relaxer.work, List.length_range', List.length_nil]
    omega

/-- The thread votes for the next bin. -/
theorem RelaxTurn.castVote (hMemory : RelaxMemory g src delta iter b tail frontier m) {u : Nat}
    {bins : Bins} (hOk : Relaxer.Ok g src delta b tail m.dist ⟨[], u, [], bins, .turn⟩)
    (hNext : m.next = tail) {i low : Nat} (hBin : bins.bin i ≠ []) (hFirst : ∀ j, bins.bin j ≠ [] → i ≤ j)
    (hLow : low = min (m.sharedIndexes ((iter + 1) % 2)) i) :
    RelaxTurn g src delta iter b tail frontier m ⟨[], u, [], bins, .turn⟩
      { m with sharedIndexes := Function.update m.sharedIndexes ((iter + 1) % 2) low }
      ⟨[], u, [], bins, .voted⟩ where
  memory := by
    have hOther : iter % 2 ≠ (iter + 1) % 2 := by omega
    refine ⟨hMemory.dist, ?_, hMemory.binFits, hMemory.tail_eq, hMemory.nextTail, hMemory.frontier_eq,
      hMemory.entries, hMemory.next⟩
    dsimp only
    rw [Function.update_of_ne hOther]
    exact hMemory.bin
  lowers := .refl _ _
  ok := ⟨nofun, List.nil_suffix, hOk.bins, rfl⟩
  next := le_rfl
  handed c hLow hHigh := absurd hLow (not_le.mpr hHigh)
  kept v _ wn _ hOwes := by
    rcases hOwes with hBin | ⟨_, c, hc, _⟩ | hPhase
    · exact Or.inr (Or.inl hBin)
    · cases hc
    · exact hPhase.elim
  lowered v hv := absurd rfl hv
  votes := by
    dsimp only
    rw [Function.update_self, hLow]
    exact Nat.min_le_left _ _
  voted _ := by
    dsimp only
    rw [Function.update_self, hLow]
    exact ⟨rfl, hNext, fun j hj => (Nat.min_le_right _ _).trans (hFirst j hj)⟩
  vote := by
    dsimp only
    rw [Function.update_self, hLow]
    rcases Nat.le_total (m.sharedIndexes ((iter + 1) % 2)) i with hLess | hMore
    · exact Or.inl (Nat.min_eq_left hLess)
    · rw [Nat.min_eq_right hMore]
      exact Or.inr ⟨rfl, hBin⟩
  progress := by
    right
    exact ⟨rfl, Or.inr ⟨rfl, rfl, Nat.lt_succ_self _⟩⟩

/-- The swap of `compare_and_swap` succeeds. -/
theorem RelaxTurn.swap (hSource : src < g.numNodes) (hDelta : 0 < delta) (hWeights : g.WeightsFit)
    (hMemory : RelaxMemory g src delta iter b tail frontier m) {todo : List Nat} {u : Nat} {newDist : Int}
    {wn : NodeWeight Int} {edges : List (NodeWeight Int)} {bins : Bins}
    (hOk : Relaxer.Ok g src delta b tail m.dist
      ⟨todo, u, wn :: edges, bins, .swapping (m.dist wn.v) newDist⟩) :
    RelaxTurn g src delta iter b tail frontier m
      ⟨todo, u, wn :: edges, bins, .swapping (m.dist wn.v) newDist⟩
      { m with dist := Function.update m.dist wn.v newDist }
      ⟨todo, u, wn :: edges, bins, .changed newDist⟩ := by
  obtain ⟨hRelaxing, hFloor, _, _, hEdges, hLess, hCap, hFinds⟩ := hOk.phase
  cases hEdges
  have hLowers : Lowers (delta * b) m.dist (Function.update m.dist wn.v newDist) :=
    lowers_update hLess hFloor
  have hDist : DistOk g src (Function.update m.dist wn.v newDist) := hMemory.dist.update hWeights hFinds hLess
  have hOnly : ∀ x, Function.update m.dist wn.v newDist x ≠ m.dist x → x = wn.v := by
    intro x hx
    by_contra hNe
    exact hx (Function.update_of_ne hNe _ _)
  constructor
  case memory => exact hMemory.lower hDelta hDist hLowers
  case lowers => exact hLowers
  case ok =>
    refine ⟨hOk.todo, hOk.edges, hOk.bins.lower hDelta hDist.nonneg hLowers.le, hRelaxing.lower hLowers,
      hFloor, wn, edges, rfl, ?_, hFinds.le_maxDist hWeights (hLess.trans_le hCap)⟩
    exact (Function.update_self wn.v newDist m.dist).le
  case next => exact le_rfl
  case handed => exact fun c hLow hHigh => absurd hLow (not_le.mpr hHigh)
  case kept =>
    rintro x hSame e _ (hBin | hTodo | ⟨rfl, hRest | ⟨hFirst, hNew⟩⟩)
    · exact Or.inr (Or.inl hBin)
    · exact Or.inr (Or.inr (Or.inl hTodo))
    · exact Or.inr (Or.inr (Or.inr (Or.inl ⟨rfl, hRest⟩)))
    · obtain rfl : wn = e := Option.some_inj.mp hFirst
      left
      dsimp only
      rw [Function.update_self, hNew]
  case lowered =>
    intro x hx e
    obtain rfl := hOnly x hx
    refine Or.inr (Or.inr (Or.inr ⟨wn, rfl, rfl, ?_⟩))
    exact (Function.update_self wn.v newDist m.dist).symm
  case votes => exact le_rfl
  case voted => exact nofun
  case vote => exact Or.inl rfl
  case progress =>
    refine Or.inl ⟨wn.v, g.route_lt hSource hFinds.1, ?_⟩
    dsimp only
    rwa [Function.update_self]

/-- An edge is done with when its node has no greater distance than along the edge. -/
theorem RelaxTurn.skip (hMemory : RelaxMemory g src delta iter b tail frontier m) {todo : List Nat}
    {u : Nat} {wn : NodeWeight Int} {edges : List (NodeWeight Int)} {bins : Bins} {phase : RelaxPhase}
    (hOk : Relaxer.Ok g src delta b tail m.dist ⟨todo, u, wn :: edges, bins, phase⟩)
    (hRelaxing : Relaxing (delta * b) m.dist u)
    (hOwes : ∀ x e, phase.Owes (delta * b) (m.dist x) u (wn :: edges) x e →
      m.dist e.v ≤ m.dist x + e.w ∨ u = x ∧ e ∈ edges)
    (hItems : Relaxer.items ⟨todo, u, wn :: edges, bins, phase⟩ = todo.length + bins.size) :
    RelaxTurn g src delta iter b tail frontier m ⟨todo, u, wn :: edges, bins, phase⟩
      m ⟨todo, u, edges, bins, .edge⟩ := by
  apply RelaxTurn.of_local hMemory
  · exact ⟨hOk.todo, (List.suffix_cons wn edges).trans hOk.edges, hOk.bins, hRelaxing⟩
  · rintro x e _ (hBin | hTodo | hPhase)
    · exact Or.inr (Or.inl hBin)
    · exact Or.inr (Or.inr (Or.inl hTodo))
    · exact (hOwes x e hPhase).imp_right fun h => Or.inr (Or.inr h)
  · exact nofun
  · right
    refine ⟨congrArg (tail - m.next + ·) hItems.symm, rfl, ?_⟩
    simp only [Relaxer.work, List.length_cons]
    omega

/-- A step of a thread that keeps its entries and does some of its work. -/
theorem RelaxTurn.work (hMemory : RelaxMemory g src delta iter b tail frontier m) {todo : List Nat}
    {u : Nat} {edges edges' : List (NodeWeight Int)} {bins : Bins} {phase phase' : RelaxPhase}
    (hOk : Relaxer.Ok g src delta b tail m.dist ⟨todo, u, edges, bins, phase⟩)
    (hEdges : edges' <:+ g.outNeigh u 0)
    (hPhase : phase'.Ok g src (delta * b) m.dist u edges')
    (hOwes : ∀ x, ∀ e ∈ g.outNeigh x 0, phase.Owes (delta * b) (m.dist x) u edges x e →
      phase'.Owes (delta * b) (m.dist x) u edges' x e)
    (hVoted : phase' = .voted → todo = [] ∧ m.next = tail ∧ ∀ i, bins.bin i = [])
    (hItems : Relaxer.items ⟨todo, u, edges', bins, phase'⟩ = Relaxer.items ⟨todo, u, edges, bins, phase⟩)
    (hWork : Relaxer.work g m.dist ⟨todo, u, edges', bins, phase'⟩ <
      Relaxer.work g m.dist ⟨todo, u, edges, bins, phase⟩) :
    RelaxTurn g src delta iter b tail frontier m ⟨todo, u, edges, bins, phase⟩
      m ⟨todo, u, edges', bins, phase'⟩ := by
  apply RelaxTurn.of_local hMemory
  · exact ⟨hOk.todo, hEdges, hOk.bins, hPhase⟩
  · rintro x e he (hBin | hTodo | hCurrent)
    · exact Or.inr (Or.inl hBin)
    · exact Or.inr (Or.inr (Or.inl hTodo))
    · exact Or.inr (Or.inr (Or.inr (hOwes x e he hCurrent)))
  · exact hVoted
  · exact Or.inr ⟨congrArg (tail - m.next + ·) hItems, rfl, Nat.add_lt_add_left hWork _⟩

section Phases

variable {todo : List Nat} {u : Nat} {edges : List (NodeWeight Int)} {bins : Bins}

theorem relaxStep_turn (hMemory : RelaxMemory g src delta iter b tail frontier m)
    (hOk : Relaxer.Ok g src delta b tail m.dist ⟨todo, u, edges, bins, .turn⟩)
    (hStep : relaxStep g delta room iter m ⟨todo, u, edges, bins, .turn⟩ = some (m', s')) :
    RelaxTurn g src delta iter b tail frontier m ⟨todo, u, edges, bins, .turn⟩ m' s' := by
  obtain rfl : edges = [] := hOk.phase
  cases todo with
  | cons i todo =>
    cases hStep
    exact .take hMemory hOk
  | nil =>
    rw [relaxStep] at hStep
    dsimp only at hStep
    rw [hMemory.tail_eq, hMemory.bin] at hStep
    split at hStep
    · rename_i hMore
      cases hStep
      apply RelaxTurn.chunk hMemory hOk
      · exact lt_min (by decide) (Nat.sub_pos_of_lt hMore)
      · have hLe := Nat.min_le_right chunk (tail - m.next)
        omega
    · rename_i hLast
      have hNext : m.next = tail := le_antisymm hMemory.next (not_lt.mp hLast)
      obtain ⟨hSome, hFirst⟩ := bins.vote_spec b
      cases hVote : bins.vote b with
      | some i =>
        rw [hVote] at hStep
        cases hStep
        apply RelaxTurn.castVote hMemory hOk hNext (hSome i hVote)
        · intro j hj
          obtain ⟨k, hk, hEq⟩ := hFirst j (hOk.bins.index j hj) hj
          rw [hVote] at hEq
          cases hEq
          exact hk
        · rfl
      | none =>
        rw [hVote] at hStep
        cases hStep
        apply RelaxTurn.work hMemory hOk
        · exact hOk.edges
        · exact rfl
        · exact fun _ _ _ h => h.elim
        · refine fun _ => ⟨rfl, hNext, fun i => ?_⟩
          by_contra hi
          obtain ⟨k, _, hEq⟩ := hFirst i (hOk.bins.index i hi) hi
          rw [hVote] at hEq
          cases hEq
        · rfl
        · exact Nat.lt_succ_self _

theorem relaxStep_checking (hMemory : RelaxMemory g src delta iter b tail frontier m)
    (hOk : Relaxer.Ok g src delta b tail m.dist ⟨todo, u, edges, bins, .checking⟩)
    (hStep : relaxStep g delta room iter m ⟨todo, u, edges, bins, .checking⟩ = some (m', s')) :
    RelaxTurn g src delta iter b tail frontier m ⟨todo, u, edges, bins, .checking⟩ m' s' := by
  obtain ⟨hNil, hInf⟩ := hOk.phase
  obtain rfl : edges = [] := hNil
  rw [relaxStep] at hStep
  dsimp only at hStep
  rw [hMemory.bin] at hStep
  split at hStep
  · rename_i hFloor
    cases hStep
    apply RelaxTurn.work hMemory hOk
    · exact List.suffix_rfl
    · exact ⟨hFloor, hInf⟩
    · rintro x e he ⟨rfl, _⟩
      exact ⟨rfl, he⟩
    · exact nofun
    · rfl
    · simp only [Relaxer.work, List.length_nil]
      omega
  · rename_i hBelow
    cases hStep
    apply RelaxTurn.work hMemory hOk
    · exact hOk.edges
    · exact rfl
    · rintro x e _ ⟨rfl, hFloor⟩
      exact hBelow hFloor
    · exact nofun
    · rfl
    · simp only [Relaxer.work, List.length_nil]
      omega

theorem relaxStep_edge (hMemory : RelaxMemory g src delta iter b tail frontier m)
    (hOk : Relaxer.Ok g src delta b tail m.dist ⟨todo, u, edges, bins, .edge⟩)
    (hStep : relaxStep g delta room iter m ⟨todo, u, edges, bins, .edge⟩ = some (m', s')) :
    RelaxTurn g src delta iter b tail frontier m ⟨todo, u, edges, bins, .edge⟩ m' s' := by
  cases edges with
  | nil =>
    cases hStep
    apply RelaxTurn.work hMemory hOk
    · exact hOk.edges
    · exact rfl
    · rintro x e _ ⟨_, he⟩
      cases he
    · exact nofun
    · rfl
    · simp only [Relaxer.work, List.length_nil]
      omega
  | cons wn edges =>
    cases hStep
    apply RelaxTurn.work hMemory hOk
    · exact hOk.edges
    · exact ⟨hOk.phase, wn, edges, rfl, le_rfl, hMemory.dist.cap _⟩
    · exact fun _ _ _ h => h
    · exact nofun
    · rfl
    · exact Nat.add_lt_add_left (Nat.lt_succ_self 3) _

theorem relaxStep_comparing (hSource : src < g.numNodes) (hWeights : g.WeightsFit)
    (hMemory : RelaxMemory g src delta iter b tail frontier m) {oldDist : Int}
    (hOk : Relaxer.Ok g src delta b tail m.dist ⟨todo, u, edges, bins, .comparing oldDist⟩)
    (hStep : relaxStep g delta room iter m ⟨todo, u, edges, bins, .comparing oldDist⟩ = some (m', s')) :
    RelaxTurn g src delta iter b tail frontier m ⟨todo, u, edges, bins, .comparing oldDist⟩ m' s' := by
  obtain ⟨hRelaxing, wn, edges, rfl, hOld, hCap⟩ := hOk.phase
  rw [relaxStep] at hStep
  dsimp only at hStep
  split at hStep
  · rename_i hLess
    cases hStep
    apply RelaxTurn.work hMemory hOk
    · exact hOk.edges
    · have hu := hMemory.dist.lt hSource hRelaxing.2
      have hwn : wn ∈ g.outNeigh u 0 := hOk.edges.subset List.mem_cons_self
      have hFloor : delta * b ≤ m.dist u + wn.w :=
        hRelaxing.1.trans (le_add_of_nonneg_right (hWeights u hu wn hwn).1)
      exact ⟨hRelaxing, hFloor, wn, edges, rfl, hLess, hCap, hMemory.dist.finds hWeights hu hRelaxing.2 hwn⟩
    · rintro x e _ ⟨rfl, he⟩
      rcases List.mem_cons.mp he with rfl | hRest
      · exact ⟨rfl, Or.inr ⟨rfl, rfl⟩⟩
      · exact ⟨rfl, Or.inl hRest⟩
    · exact nofun
    · rfl
    · simp only [Relaxer.work]
      split <;> omega
  · rename_i hNot
    cases hStep
    apply RelaxTurn.skip hMemory hOk hRelaxing
    · rintro x e ⟨rfl, he⟩
      rcases List.mem_cons.mp he with rfl | hRest
      · exact Or.inl (hOld.trans (not_lt.mp hNot))
      · exact Or.inr ⟨rfl, hRest⟩
    · rfl

theorem relaxStep_swapping (hSource : src < g.numNodes) (hDelta : 0 < delta) (hWeights : g.WeightsFit)
    (hMemory : RelaxMemory g src delta iter b tail frontier m) {oldDist newDist : Int}
    (hOk : Relaxer.Ok g src delta b tail m.dist ⟨todo, u, edges, bins, .swapping oldDist newDist⟩)
    (hStep : relaxStep g delta room iter m ⟨todo, u, edges, bins, .swapping oldDist newDist⟩ = some (m', s')) :
    RelaxTurn g src delta iter b tail frontier m ⟨todo, u, edges, bins, .swapping oldDist newDist⟩ m' s' := by
  obtain ⟨hRelaxing, hFloor, wn, edges, rfl, hLess, hCap, hFinds⟩ := hOk.phase
  rw [relaxStep] at hStep
  dsimp only at hStep
  split at hStep
  · rename_i hSame
    cases hStep
    subst hSame
    exact .swap hSource hDelta hWeights hMemory hOk
  · rename_i hNe
    cases hStep
    apply RelaxTurn.work hMemory hOk
    · exact hOk.edges
    · exact ⟨hRelaxing, hFloor, wn, edges, rfl, hLess.trans_le hCap, hFinds⟩
    · exact fun _ _ _ h => h
    · exact nofun
    · rfl
    · simp only [Relaxer.work]
      rw [if_neg hNe]
      omega

theorem relaxStep_again
    (hMemory : RelaxMemory g src delta iter b tail frontier m) {newDist : Int}
    (hOk : Relaxer.Ok g src delta b tail m.dist ⟨todo, u, edges, bins, .again newDist⟩)
    (hStep : relaxStep g delta room iter m ⟨todo, u, edges, bins, .again newDist⟩ = some (m', s')) :
    RelaxTurn g src delta iter b tail frontier m ⟨todo, u, edges, bins, .again newDist⟩ m' s' := by
  obtain ⟨hRelaxing, hFloor, wn, edges, rfl, hInf, hFinds⟩ := hOk.phase
  rw [relaxStep] at hStep
  dsimp only at hStep
  split at hStep
  · rename_i hLe
    cases hStep
    apply RelaxTurn.skip hMemory hOk hRelaxing
    · rintro x e ⟨rfl, hRest | ⟨hFirst, rfl⟩⟩
      · exact Or.inr ⟨rfl, hRest⟩
      · obtain rfl : wn = e := Option.some_inj.mp hFirst
        exact Or.inl hLe
    · rfl
  · rename_i hNot
    cases hStep
    apply RelaxTurn.work hMemory hOk
    · exact hOk.edges
    · exact ⟨hRelaxing, hFloor, wn, edges, rfl, not_le.mp hNot, hMemory.dist.cap _, hFinds⟩
    · exact fun _ _ _ h => h
    · exact nofun
    · rfl
    · simp only [Relaxer.work]
      rw [if_pos trivial]
      omega

theorem relaxStep_changed (hDelta : 0 < delta)
    (hMemory : RelaxMemory g src delta iter b tail frontier m) {newDist : Int}
    (hOk : Relaxer.Ok g src delta b tail m.dist ⟨todo, u, edges, bins, .changed newDist⟩)
    (hStep : relaxStep g delta room iter m ⟨todo, u, edges, bins, .changed newDist⟩ = some (m', s')) :
    RelaxTurn g src delta iter b tail frontier m ⟨todo, u, edges, bins, .changed newDist⟩ m' s' := by
  obtain ⟨hRelaxing, hFloor, wn, edges, rfl, hLe, hMax⟩ := hOk.phase
  rw [relaxStep] at hStep
  dsimp only at hStep
  split at hStep <;> cases hStep
  apply RelaxTurn.of_local hMemory
  · exact ⟨hOk.todo, (List.suffix_cons wn edges).trans hOk.edges,
      hOk.bins.push hDelta (hMemory.dist.nonneg _) hLe hMax hFloor, hRelaxing⟩
  · have hKeeps : ∀ i x, x ∈ bins.bin i → x ∈ (bins.push (destBin delta newDist) wn.v).bin i := by
      intro i x hx
      rw [Bins.bin_push]
      split
      · exact List.mem_append_left _ hx
      · exact hx
    rintro x e _ (hBin | hTodo | ⟨rfl, hRest⟩ | ⟨first, hFirst, rfl, rfl⟩)
    · exact Or.inr (Or.inl (hKeeps _ x hBin))
    · exact Or.inr (Or.inr (Or.inl hTodo))
    · exact Or.inr (Or.inr (Or.inr ⟨rfl, hRest⟩))
    · obtain rfl : wn = first := Option.some_inj.mp hFirst
      right
      left
      dsimp only
      rw [Bins.bin_push, if_pos rfl]
      exact List.mem_append_right _ List.mem_cons_self
  · exact nofun
  · refine Or.inr ⟨?_, rfl, ?_⟩
    · simp only [Relaxer.items, Bins.size_push]
      omega
    · simp only [Relaxer.work, List.length_cons]
      omega

end Phases

theorem relaxStep_spec (hSource : src < g.numNodes) (hDelta : 0 < delta) (hWeights : g.WeightsFit)
    (hMemory : RelaxMemory g src delta iter b tail frontier m) (hOk : s.Ok g src delta b tail m.dist)
    (hStep : relaxStep g delta room iter m s = some (m', s')) :
    RelaxTurn g src delta iter b tail frontier m s m' s' := by
  obtain ⟨todo, u, edges, bins, phase⟩ := s
  cases phase with
  | turn => exact relaxStep_turn hMemory hOk hStep
  | checking => exact relaxStep_checking hMemory hOk hStep
  | edge => exact relaxStep_edge hMemory hOk hStep
  | comparing oldDist => exact relaxStep_comparing hSource hWeights hMemory hOk hStep
  | swapping oldDist newDist => exact relaxStep_swapping hSource hDelta hWeights hMemory hOk hStep
  | again newDist => exact relaxStep_again hMemory hOk hStep
  | changed newDist => exact relaxStep_changed hDelta hMemory hOk hStep
  | voted => cases hStep

/-- The thread has an entry for which there is no room. -/
def Relaxer.LacksRoom (delta : Int) (room : Bins → Bool) (s : Relaxer) : Prop :=
  ∃ newDist wn edges, s.phase = .changed newDist ∧ s.edges = wn :: edges ∧
    room (s.localBins.push (destBin delta newDist) wn.v) = false

theorem voted_of_none (hOk : s.Ok g src delta b tail m.dist) (hNone : relaxStep g delta room iter m s = none) :
    s.phase = .voted ∨ s.LacksRoom delta room := by
  obtain ⟨todo, u, edges, bins, phase⟩ := s
  have hPhase := hOk.phase
  rw [relaxStep] at hNone
  cases phase with
  | turn =>
    cases todo with
    | nil =>
      dsimp only at hNone
      split at hNone
      · cases hNone
      · split at hNone <;> cases hNone
    | cons => cases hNone
  | checking =>
    dsimp only at hNone
    split at hNone <;> cases hNone
  | edge =>
    cases edges with
    | nil => cases hNone
    | cons => cases hNone
  | comparing =>
    obtain ⟨_, wn, rest, hEdges, _⟩ := hPhase
    dsimp only at hNone hEdges
    rw [hEdges] at hNone
    dsimp only at hNone
    split at hNone <;> cases hNone
  | swapping | again =>
    obtain ⟨_, _, wn, rest, hEdges, _⟩ := hPhase
    dsimp only at hNone hEdges
    rw [hEdges] at hNone
    dsimp only at hNone
    split at hNone <;> cases hNone
  | changed =>
    obtain ⟨_, _, wn, rest, hEdges, _⟩ := hPhase
    dsimp only at hNone hEdges
    rw [hEdges] at hNone
    dsimp only at hNone
    split at hNone
    · cases hNone
    · rename_i hFull
      exact Or.inr ⟨_, wn, rest, rfl, hEdges, Bool.eq_false_of_not_eq_true hFull⟩
  | voted => exact Or.inl rfl

end Turns

section Teams

variable {nt : Nat} (g : WGraph) (src : Nat) (delta : Int) (iter b tail : Nat) (frontier : Nat → Nat)

/-- The edge cannot lower a distance, or its node is in a turn that is left, or a thread owes it. -/
def CoversArc (m : Shared) (threads : Fin nt → Relaxer) (u : Nat) (wn : NodeWeight Int) : Prop :=
  m.dist wn.v ≤ m.dist u + wn.w ∨
    (delta * b ≤ m.dist u ∧ ∃ c, m.next ≤ c ∧ c < tail ∧ frontier c = u) ∨
    ∃ t, (threads t).Owes delta b frontier (m.dist u) u wn

structure RelaxInv (m : Shared) (threads : Fin nt → Relaxer) : Prop where
  memory : RelaxMemory g src delta iter b tail frontier m
  ok : ∀ t, (threads t).Ok g src delta b tail m.dist
  covered : ∀ u, m.dist u < kDistInf → ∀ wn ∈ g.outNeigh u 0,
    CoversArc delta b tail frontier m threads u wn
  voted : ∀ t, (threads t).phase = .voted → (threads t).todo = [] ∧ m.next = tail ∧
    ∀ i, (threads t).localBins.bin i ≠ [] → m.sharedIndexes ((iter + 1) % 2) ≤ i
  vote : m.sharedIndexes ((iter + 1) % 2) = kMaxBin ∨ ∃ t, (threads t).phase = .voted ∧
    (threads t).localBins.bin (m.sharedIndexes ((iter + 1) % 2)) ≠ []

variable {g src delta iter b tail frontier} {room : Bins → Bool} {m m' : Shared}
  {threads threads' : Fin nt → Relaxer}

theorem CoversArc.turn {t : Fin nt} {next : Relaxer} {u : Nat} {wn : NodeWeight Int}
    (hTurn : RelaxTurn g src delta iter b tail frontier m (threads t) m' next)
    (hwn : wn ∈ g.outNeigh u 0) (h : CoversArc delta b tail frontier m threads u wn) :
    CoversArc delta b tail frontier m' (Function.update threads t next) u wn := by
  have hNew : next.Owes delta b frontier (m'.dist u) u wn →
      CoversArc delta b tail frontier m' (Function.update threads t next) u wn := by
    intro hOwes
    refine Or.inr (Or.inr ⟨t, ?_⟩)
    rwa [Function.update_self]
  by_cases hSame : m'.dist u = m.dist u
  · rcases h with hRelaxed | ⟨hFloor, c, hLow, hHigh, hu⟩ | ⟨t', hOwes⟩
    · left
      rw [hSame]
      exact (hTurn.lowers.le wn.v).trans hRelaxed
    · rcases Nat.lt_or_ge c m'.next with hHanded | hLeft
      · apply hNew
        rw [hSame]
        exact Or.inr (Or.inl ⟨hFloor, c, hTurn.handed c hLow hHanded, hu⟩)
      · right
        left
        rw [hSame]
        exact ⟨hFloor, c, hLeft, hHigh, hu⟩
    · obtain rfl | hNe := eq_or_ne t' t
      · rcases hTurn.kept u hSame wn hwn hOwes with hRelaxed | hStill
        · left
          rwa [hSame]
        · apply hNew
          rwa [hSame]
      · refine Or.inr (Or.inr ⟨t', ?_⟩)
        rwa [Function.update_of_ne hNe, hSame]
  · exact hNew (hTurn.lowered u hSame wn)

theorem RelaxInv.step (hSource : src < g.numNodes) (hDelta : 0 < delta) (hWeights : g.WeightsFit)
    (h : RelaxInv g src delta iter b tail frontier m threads) {t : Fin nt} {next : Relaxer}
    (hStep : relaxStep g delta room iter m (threads t) = some (m', next)) :
    RelaxInv g src delta iter b tail frontier m' (Function.update threads t next) := by
  have hTurn := relaxStep_spec hSource hDelta hWeights h.memory (h.ok t) hStep
  have hOther : ∀ t', t' = t ∧ Function.update threads t next t' = next ∨
      t' ≠ t ∧ Function.update threads t next t' = threads t' := by
    intro t'
    obtain rfl | hNe := eq_or_ne t' t
    · exact Or.inl ⟨rfl, Function.update_self ..⟩
    · exact Or.inr ⟨hNe, Function.update_of_ne hNe ..⟩
  constructor
  case memory => exact hTurn.memory
  case ok =>
    intro t'
    rcases hOther t' with ⟨_, hThread⟩ | ⟨_, hThread⟩
    · rw [hThread]
      exact hTurn.ok
    · rw [hThread]
      exact (h.ok t').lower hDelta hTurn.memory.dist.nonneg hTurn.lowers
  case covered =>
    intro u hu wn hwn
    by_cases hSame : m'.dist u = m.dist u
    · rw [hSame] at hu
      exact (h.covered u hu wn hwn).turn hTurn hwn
    · refine Or.inr (Or.inr ⟨t, ?_⟩)
      rw [Function.update_self]
      exact hTurn.lowered u hSame wn
  case voted =>
    intro t' hPhase
    rcases hOther t' with ⟨_, hThread⟩ | ⟨_, hThread⟩
    · rw [hThread] at hPhase ⊢
      exact hTurn.voted hPhase
    · rw [hThread] at hPhase ⊢
      obtain ⟨hTodo, hNext, hBins⟩ := h.voted t' hPhase
      refine ⟨hTodo, ?_, fun i hi => hTurn.votes.trans (hBins i hi)⟩
      exact le_antisymm hTurn.memory.next (hNext ▸ hTurn.next)
  case vote =>
    rcases hTurn.vote with hSame | ⟨hPhase, hBin⟩
    · rw [hSame]
      refine h.vote.imp_right fun ⟨t', hPhase, hBin⟩ => ⟨t', ?_⟩
      rcases hOther t' with ⟨rfl, _⟩ | ⟨_, hThread⟩
      · rw [relaxStep, hPhase] at hStep
        cases hStep
      · rw [hThread]
        exact ⟨hPhase, hBin⟩
    · refine Or.inr ⟨t, ?_⟩
      rw [Function.update_self]
      exact ⟨hPhase, hBin⟩

/-- The sum of the distances, then the entries that are left, then the steps that are left. -/
def relaxRank (g : WGraph) (tail : Nat) (m : Shared) (threads : Fin nt → Relaxer) : Nat ×ₗ Nat ×ₗ Nat :=
  let left := tail - m.next + ∑ t, (threads t).todo.length
  toLex (∑ v ∈ Finset.range g.numNodes, (m.dist v).toNat,
    toLex (3 * (tail - m.next + ∑ t, (threads t).items) + if left = 0 then 2 else 0,
      tail - m.next + ∑ t, (threads t).work g m.dist))

theorem relaxRank_lt {t : Fin nt} {next : Relaxer}
    (hTurn : RelaxTurn g src delta iter b tail frontier m (threads t) m' next) :
    relaxRank g tail m' (Function.update threads t next) < relaxRank g tail m threads := by
  rcases hTurn.progress with ⟨v, hv, hLess⟩ | ⟨hSame, hAdvances⟩
  · apply Prod.Lex.toLex_lt_toLex.mpr
    left
    have hPos := (hTurn.memory.dist.nonneg v).trans_lt hLess
    exact Finset.sum_lt_sum (fun u _ => Int.toNat_le_toNat (hTurn.lowers.le u))
      ⟨v, Finset.mem_range.mpr hv, (Int.toNat_lt_toNat hPos).mpr hLess⟩
  · have hTodo := sum_update_add (fun s : Relaxer => s.todo.length) threads t next
    have hItems := sum_update_add Relaxer.items threads t next
    have hWork := sum_update_add (Relaxer.work g m.dist) threads t next
    apply Prod.Lex.toLex_lt_toLex.mpr
    right
    rw [hSame]
    refine ⟨rfl, Prod.Lex.toLex_lt_toLex.mpr ?_⟩
    rcases hAdvances with hFewer | ⟨hEntries, hLeft, hLess⟩
    · left
      dsimp only
      split_ifs <;> omega
    · right
      dsimp only
      constructor
      · congr 1
        · omega
        · congr 2
          omega
      · omega

end Teams

end Trident.Gapbs
