import Trident.Gapbs.DeltaRuns

/-! # The room in the frontier

The frontier has a cell for each edge. Where no weight is below `delta`, the nodes of a bin keep their
distances while the bin is relaxed, each edge adds an entry at most once, and all copies fit.
-/

namespace Trident.Gapbs

open Relation Transition BlockQueue Distances

section Edges

variable {g : WGraph}

theorem WGraph.sum_degrees (g : WGraph) :
    ∑ u ∈ Finset.range g.numNodes, (g.outNeigh u 0).length = g.numEdgesDirected := by
  have hRow : ∀ u ∈ Finset.range g.numNodes, (g.outNeigh u 0).length = g.outIndex (u + 1) - g.outIndex u :=
    fun u _ => length_neighborhood g.outNeighbors u
  rw [Finset.sum_congr rfl hRow, sum_rows g.ascending, CSRGraph.numEdgesDirected, CSRGraph.numEdges]
  cases hDirected : g.directed with
  | true => rfl
  | false => exact (Nat.mul_div_cancel' (g.even hDirected)).symm

/-- The edge of `u` that has `len - 1` edges behind it. -/
def WGraph.Stands (g : WGraph) (u len : Nat) (wn : NodeWeight Int) : Prop :=
  ∃ rest, wn :: rest <:+ g.outNeigh u 0 ∧ rest.length + 1 = len

theorem WGraph.Stands.unique {u len : Nat} {wn wn' : NodeWeight Int} (h : g.Stands u len wn)
    (h' : g.Stands u len wn') : wn = wn' := by
  obtain ⟨rest, hSuffix, hLength⟩ := h
  obtain ⟨rest', hSuffix', hLength'⟩ := h'
  have hSame : (wn :: rest).length = (wn' :: rest').length := by
    rw [List.length_cons, List.length_cons, hLength, hLength']
  have hEq := (List.suffix_of_suffix_length_le hSuffix hSuffix' hSame.le).eq_of_length hSame
  exact (List.cons.inj hEq).1

/-- Edges that have lowered a distance and cannot do so again. -/
structure Used (g : WGraph) (delta : Int) (b : Nat) (dist : Nat → Int) (used : Finset (Nat × Nat)) : Prop where
  node : ∀ e ∈ used, e.1 < g.numNodes ∧ 0 < e.2 ∧ e.2 ≤ (g.outNeigh e.1 0).length
  settled : ∀ e ∈ used, dist e.1 < delta * (b + 1)
  relaxed : ∀ e ∈ used, ∀ wn, g.Stands e.1 e.2 wn → dist wn.v ≤ dist e.1 + wn.w

theorem Used.card_le {delta : Int} {b : Nat} {dist : Nat → Int} {used : Finset (Nat × Nat)}
    (h : Used g delta b dist used) : used.card ≤ g.numEdgesDirected := by
  rw [← g.sum_degrees]
  have hSub : used ⊆ (Finset.range g.numNodes).biUnion fun u =>
      (Finset.Ioc 0 (g.outNeigh u 0).length).map ⟨(u, ·), Prod.mk_right_injective u⟩ := by
    rintro ⟨u, len⟩ he
    obtain ⟨hu, hPos, hLen⟩ := h.node _ he
    simp only [Finset.mem_biUnion, Finset.mem_range, Finset.mem_map, Finset.mem_Ioc,
      Function.Embedding.coeFn_mk, Prod.mk.injEq]
    exact ⟨u, hu, len, ⟨hPos, hLen⟩, rfl, rfl⟩
  apply (Finset.card_le_card hSub).trans
  apply Finset.card_biUnion_le.trans
  apply Finset.sum_le_sum
  intro u _
  rw [Finset.card_map, Nat.card_Ioc, Nat.sub_zero]

theorem Used.lower {delta : Int} {b : Nat} {dist dist' : Nat → Int} {used : Finset (Nat × Nat)}
    (h : Used g delta b dist used) (hLowers : Lowers (delta * (b + 1)) dist dist') :
    Used g delta b dist' used := by
  constructor
  · exact h.node
  · exact fun e he => (hLowers.le e.1).trans_lt (h.settled e he)
  · intro e he wn hStands
    rw [hLowers.eq (h.settled e he)]
    exact (hLowers.le wn.v).trans (h.relaxed e he wn hStands)

theorem Used.insert {delta : Int} {b : Nat} {dist : Nat → Int} {used : Finset (Nat × Nat)} {u len : Nat}
    {wn : NodeWeight Int} (h : Used g delta b dist used) (hu : u < g.numNodes)
    (hStands : g.Stands u len wn) (hSettled : dist u < delta * (b + 1))
    (hRelaxed : dist wn.v ≤ dist u + wn.w) : Used g delta b dist (insert (u, len) used) := by
  constructor
  · intro e he
    rcases Finset.mem_insert.mp he with rfl | hOld
    · obtain ⟨rest, hSuffix, rfl⟩ := hStands
      exact ⟨hu, Nat.succ_pos _, hSuffix.length_le⟩
    · exact h.node e hOld
  · intro e he
    rcases Finset.mem_insert.mp he with rfl | hOld
    · exact hSettled
    · exact h.settled e hOld
  · intro e he wn' hStands'
    rcases Finset.mem_insert.mp he with rfl | hOld
    · obtain rfl := hStands.unique hStands'
      exact hRelaxed
    · exact h.relaxed e hOld wn' hStands'

end Edges

section Relaxing

variable {g : WGraph} {delta : Int} {room : Bins → Bool} {src iter b tail : Nat} {frontier : Nat → Nat}
  {m m' : Shared} {s s' : Relaxer}

def WGraph.Heavy (g : WGraph) (delta : Int) : Prop :=
  ∀ u < g.numNodes, ∀ wn ∈ g.outNeigh u 0, delta ≤ wn.w

/-- The node of the thread keeps its distance, and with it the sum that the thread has computed. -/
def Relaxer.Fixed (delta : Int) (b : Nat) (dist : Nat → Int) (s : Relaxer) : Prop :=
  match s.phase with
  | .turn | .voted => True
  | .checking | .edge | .comparing _ | .changed _ => dist s.u < delta * (b + 1)
  | .swapping _ newDist | .again newDist => dist s.u < delta * (b + 1) ∧
    ∃ wn rest, s.edges = wn :: rest ∧ newDist = dist s.u + wn.w

theorem Relaxer.Fixed.lower {dist dist' : Nat → Int} (h : s.Fixed delta b dist)
    (hLowers : Lowers (delta * (b + 1)) dist dist') : s.Fixed delta b dist' := by
  obtain ⟨todo, u, edges, bins, phase⟩ := s
  have hSettled : dist u < delta * (b + 1) → dist' u < delta * (b + 1) := (hLowers.le u).trans_lt
  cases phase with
  | turn | voted => trivial
  | checking | edge | comparing | changed => exact hSettled h
  | swapping | again =>
    obtain ⟨hNode, hSum⟩ := h
    refine ⟨hSettled hNode, ?_⟩
    rw [hLowers.eq hNode]
    exact hSum

/-- The entries that a thread has added to its bins, or is about to add. -/
def Relaxer.pushes (s : Relaxer) : Nat :=
  s.localBins.size + match s.phase with
    | .changed _ => 1
    | _ => 0

/-- A step lowers no distance, or one by an edge that has lowered none before. -/
structure HeavyTurn (g : WGraph) (delta : Int) (b : Nat) (m : Shared) (s : Relaxer) (m' : Shared) (s' : Relaxer) :
    Prop where
  lowers : Lowers (delta * (b + 1)) m.dist m'.dist
  fixed : s'.Fixed delta b m'.dist
  used : ∀ used, Used g delta b m.dist used → ∃ used', Used g delta b m'.dist used' ∧
    s'.pushes + used.card ≤ s.pushes + used'.card

theorem HeavyTurn.of_local (hFixed : s'.Fixed delta b m.dist) (hDist : m'.dist = m.dist)
    (hPushes : s'.pushes = s.pushes) : HeavyTurn g delta b m s m' s' := by
  constructor
  · rw [hDist]
    exact .refl _ _
  · rw [hDist]
    exact hFixed
  · intro used hUsed
    rw [hDist, hPushes]
    exact ⟨used, hUsed, le_rfl⟩

theorem HeavyTurn.swap (hSource : src < g.numNodes) (hHeavy : g.Heavy delta)
    (hDist : DistOk g src m.dist) {todo : List Nat} {u : Nat} {newDist : Int} {wn : NodeWeight Int}
    {edges : List (NodeWeight Int)} {bins : Bins}
    (hOk : Relaxer.Ok g src delta b tail m.dist
      ⟨todo, u, wn :: edges, bins, .swapping (m.dist wn.v) newDist⟩)
    (hFixed : Relaxer.Fixed delta b m.dist ⟨todo, u, wn :: edges, bins, .swapping (m.dist wn.v) newDist⟩) :
    HeavyTurn g delta b m ⟨todo, u, wn :: edges, bins, .swapping (m.dist wn.v) newDist⟩
      { m with dist := Function.update m.dist wn.v newDist }
      ⟨todo, u, wn :: edges, bins, .changed newDist⟩ := by
  obtain ⟨hRelaxing, _, _, _, hEdges, hLess, _⟩ := hOk.phase
  obtain ⟨hNode, _, _, hEdges', hSum⟩ := hFixed
  cases hEdges
  cases hEdges'
  obtain rfl : newDist = m.dist u + wn.w := hSum
  have hu := hDist.lt hSource hRelaxing.2
  have hWeight := hHeavy u hu wn (hOk.edges.subset List.mem_cons_self)
  have hAbove : delta * (b + 1) ≤ m.dist u + wn.w := by
    rw [Int.mul_add, Int.mul_one]
    exact Int.add_le_add hRelaxing.1 hWeight
  have hLowers : Lowers (delta * (b + 1)) m.dist (Function.update m.dist wn.v (m.dist u + wn.w)) :=
    lowers_update hLess hAbove
  have hStands : g.Stands u (edges.length + 1) wn := ⟨edges, hOk.edges, rfl⟩
  constructor
  case lowers => exact hLowers
  case fixed => exact (hLowers.le u).trans_lt hNode
  case used =>
    intro used hUsed
    have hNew : (u, edges.length + 1) ∉ used := by
      intro hOld
      exact absurd (hUsed.relaxed _ hOld wn hStands) (not_le.mpr hLess)
    refine ⟨insert (u, edges.length + 1) used, ?_, ?_⟩
    · apply (hUsed.lower hLowers).insert hu hStands ((hLowers.le u).trans_lt hNode)
      dsimp only
      rw [Function.update_self, hLowers.eq hNode]
    · rw [Finset.card_insert_of_notMem hNew]
      simp only [Relaxer.pushes]
      omega

theorem relaxStep_heavy (hSource : src < g.numNodes) (hHeavy : g.Heavy delta) (hDelta : 0 < delta)
    (hMemory : RelaxMemory g src delta iter b tail frontier m) (hOk : s.Ok g src delta b tail m.dist)
    (hFixed : s.Fixed delta b m.dist) (hStep : relaxStep g delta room iter m s = some (m', s')) :
    HeavyTurn g delta b m s m' s' := by
  obtain ⟨todo, u, edges, bins, phase⟩ := s
  rw [relaxStep] at hStep
  cases phase with
  | turn =>
    cases todo with
    | cons i todo =>
      cases hStep
      obtain ⟨hInf, hBin⟩ := hMemory.entries i (hOk.todo i List.mem_cons_self)
      rw [destBin_le_iff hDelta (hMemory.dist.nonneg _) hInf, ← hMemory.frontier_eq] at hBin
      exact .of_local hBin rfl rfl
    | nil =>
      dsimp only at hStep
      split at hStep
      · cases hStep
        exact .of_local trivial rfl rfl
      · split at hStep <;> cases hStep <;> exact .of_local trivial rfl rfl
  | checking =>
    dsimp only at hStep
    split at hStep <;> cases hStep
    · exact .of_local hFixed rfl rfl
    · exact .of_local trivial rfl rfl
  | edge =>
    cases edges with
    | nil =>
      cases hStep
      exact .of_local trivial rfl rfl
    | cons wn edges =>
      cases hStep
      exact .of_local hFixed rfl rfl
  | comparing oldDist =>
    obtain ⟨_, wn, rest, hEdges, _⟩ := hOk.phase
    cases hEdges
    dsimp only at hStep
    split at hStep <;> cases hStep
    · exact .of_local ⟨hFixed, wn, rest, rfl, rfl⟩ rfl rfl
    · exact .of_local hFixed rfl rfl
  | swapping oldDist newDist =>
    obtain ⟨_, _, wn, rest, hEdges, _⟩ := hOk.phase
    cases hEdges
    dsimp only at hStep
    split at hStep
    · rename_i hSame
      cases hStep
      subst hSame
      exact .swap hSource hHeavy hMemory.dist hOk hFixed
    · cases hStep
      exact .of_local hFixed rfl rfl
  | again newDist =>
    obtain ⟨_, _, wn, rest, hEdges, _⟩ := hOk.phase
    cases hEdges
    dsimp only at hStep
    split at hStep <;> cases hStep
    · exact .of_local hFixed.1 rfl rfl
    · exact .of_local hFixed rfl rfl
  | changed newDist =>
    obtain ⟨_, _, wn, rest, hEdges, _⟩ := hOk.phase
    cases hEdges
    dsimp only at hStep
    split at hStep <;> cases hStep
    apply HeavyTurn.of_local
    · exact hFixed
    · rfl
    · simp only [Relaxer.pushes, Bins.size_push]
  | voted => cases hStep

end Relaxing

section Runs

variable {g : WGraph} {src : Nat} {delta : Int} {room : Bins → Bool} {nt : Nat}

/-- No more entries are in the bins, or on their way, than edges that have lowered a distance. -/
def DeltaRun.Bounded (g : WGraph) (delta : Int) (s : DeltaRun nt) : Prop :=
  match s.stage with
  | .relaxing threads => s.mem.sharedIndexes (s.iter % 2) ≤ kMaxBin ∧
    (∀ t, (threads t).Fixed delta (s.mem.sharedIndexes (s.iter % 2)) s.mem.dist) ∧
    ∃ used, Used g delta (s.mem.sharedIndexes (s.iter % 2)) s.mem.dist used ∧
      ∑ t, (threads t).pushes ≤ used.card
  | .copying threads =>
    ∃ used, Used g delta (s.mem.sharedIndexes ((s.iter + 1) % 2)) s.mem.dist used ∧
      s.mem.frontierTails ((s.iter + 1) % 2) +
        ∑ t, (threads t).items (s.mem.sharedIndexes ((s.iter + 1) % 2)) ≤ used.card
  | .finished => True

theorem deltaStep_bounded {s t : DeltaRun nt} (hSource : src < g.numNodes) (hDelta : 0 < delta)
    (hWeights : g.WeightsFit) (hHeavy : g.Heavy delta) (hOk : s.Ok g src delta) (h : s.Bounded g delta)
    (hStep : DeltaStep g delta room s t) : t.Bounded g delta := by
  cases hStep with
  | relax m m' iter threads threads' hTurn =>
    obtain ⟨b, tail, hInv⟩ := hOk
    obtain ⟨i, next, hNext, rfl⟩ := hTurn
    obtain ⟨hLow, hFixed, used, hUsed, hCard⟩ := h
    have hBin := hInv.memory.bin
    have hBin' := (relaxStep_spec hSource hDelta hWeights hInv.memory (hInv.ok i) hNext).memory.bin
    dsimp only at hNext hBin hBin' hLow hFixed hUsed hCard
    rw [hBin] at hLow hFixed hUsed
    have hHeavyTurn := relaxStep_heavy hSource hHeavy hDelta hInv.memory (hInv.ok i) (hFixed i) hNext
    obtain ⟨used', hUsed', hMore⟩ := hHeavyTurn.used used hUsed
    have hPushes := sum_update_add Relaxer.pushes threads i next
    rw [DeltaRun.Bounded]
    dsimp only
    rw [hBin']
    refine ⟨hLow, fun t' => ?_, used', hUsed', by omega⟩
    obtain rfl | hNe := eq_or_ne t' i
    · rw [Function.update_self]
      exact hHeavyTurn.fixed
    · rw [Function.update_of_ne hNe]
      exact (hFixed t').lower hHeavyTurn.lowers
  | firstBarrier m iter threads hVoted =>
    obtain ⟨b, tail, hInv⟩ := hOk
    obtain ⟨hLow, _, used, hUsed, hCard⟩ := h
    have hBin := hInv.memory.bin
    dsimp only at hBin hLow hUsed hCard
    rw [hBin] at hLow hUsed
    have hUp : b ≤ m.sharedIndexes ((iter + 1) % 2) := by
      rcases hInv.vote with hNone | ⟨t, _, hSome⟩
      · rwa [hNone]
      · exact (hInv.ok t).bins.index _ hSome
    have hFloor : delta * (b + 1) ≤ delta * (m.sharedIndexes ((iter + 1) % 2) + 1) :=
      Int.mul_le_mul_of_nonneg_left (by omega) hDelta.le
    refine ⟨used, ⟨hUsed.node, fun e he => ?_, hUsed.relaxed⟩, ?_⟩
    · exact (hUsed.settled e he).trans_le hFloor
    · dsimp only
      rw [hInv.memory.nextTail, Nat.zero_add]
      refine le_trans (Finset.sum_le_sum fun t _ => ?_) hCard
      exact Nat.le_add_right _ _
  | copy m m' iter threads threads' hTurn =>
    obtain ⟨nextBin, bins, hInv⟩ := hOk
    obtain ⟨i, next, hNext, rfl⟩ := hTurn
    obtain ⟨used, hUsed, hCard⟩ := h
    obtain ⟨hDist, hBin, _⟩ := copyStep_frame hNext
    obtain ⟨hEntries, _⟩ := copyStep_items hInv.nextBin_eq hNext
    have hItems := sum_update_add (Copier.items nextBin) threads i next
    have hNextBin := hInv.nextBin_eq
    dsimp only at hNext hDist hBin hEntries hItems hNextBin hUsed hCard
    rw [hNextBin] at hBin hUsed hCard
    refine ⟨used, ?_, ?_⟩
    · dsimp only
      rw [hDist, hBin]
      exact hUsed
    · dsimp only
      rw [hBin]
      omega
  | secondBarrier m iter threads hDone hMore =>
    obtain ⟨nextBin, bins, hInv⟩ := hOk
    obtain ⟨used, hUsed, hCard⟩ := h
    have hNextBin := hInv.nextBin_eq
    have hItems : ∀ t, (threads t).items nextBin = (threads t).localBins.size := by
      intro t
      rw [Copier.items, hDone t]
    dsimp only at hNextBin hUsed hCard hMore
    rw [hNextBin] at hUsed hCard hMore
    rw [Finset.sum_congr rfl fun t _ => hItems t] at hCard
    rw [DeltaRun.Bounded]
    dsimp only
    rw [hNextBin]
    refine ⟨?_, fun _ => trivial, used, hUsed, ?_⟩
    · obtain ⟨t, hBin⟩ := hInv.vote.resolve_left hMore
      exact (lt_max_of_mul_le hDelta ((hInv.entries t).fits nextBin (Bins.lt_length hBin))).le
    · exact le_trans (Nat.le_add_left _ _) hCard
  | finish => trivial

theorem deltaStart_bounded (g : WGraph) (delta : Int) (frontier : Nat → Nat) :
    (deltaStart nt frontier src).Bounded g delta := by
  refine ⟨Nat.zero_le _, fun _ => trivial, ∅, ⟨nofun, nofun, nofun⟩, ?_⟩
  rw [Finset.card_empty]
  exact (Finset.sum_eq_zero fun _ _ => rfl).le

theorem DeltaRun.Bounded.not_overflows {s : DeltaRun nt} (h : s.Bounded g delta) (hOk : s.Ok g src delta)
    (hEdges : 0 < g.numEdgesDirected) : ¬ s.Overflows g := by
  rintro (hNone | ⟨threads, t, copyStart, hStage, hPhase, hOver⟩)
  · omega
  obtain ⟨m, iter, stage⟩ := s
  dsimp only at hStage hOver
  subst hStage
  obtain ⟨nextBin, bins, hInv⟩ := hOk
  obtain ⟨used, hUsed, hCard⟩ := h
  obtain ⟨queue, hQueued, _⟩ := hInv.queue
  have hHeld : (Copier.hold nextBin ∘ threads) t = some (copyStart, (threads t).localBins.bin nextBin) := by
    rw [Function.comp_apply, Copier.hold, hPhase]
  have hTop := (hQueued.held t _ _ hHeld).2.1
  have hRoom := hUsed.card_le
  have hNextBin := hInv.nextBin_eq
  dsimp only at hNextBin hTop hCard
  rw [hNextBin] at hOver
  omega

/-- The bins that a thread asks for end with that of the greatest distance, and no edge has more than
one entry in them. -/
theorem DeltaRun.Bounded.not_lacksRoom {s : DeltaRun nt} (h : s.Bounded g delta) (hOk : s.Ok g src delta)
    (hDelta : 0 < delta)
    (hRoom : ∀ bins : Bins, (∀ i < bins.length, delta * i ≤ g.totalWeight) →
      bins.size ≤ g.numEdgesDirected → room bins = true) : ¬ s.LacksRoom delta room := by
  rintro ⟨threads, t, hStage, newDist, wn, edges, hPhase, hEdges, hFull⟩
  obtain ⟨m, iter, stage⟩ := s
  dsimp only at hStage
  subst hStage
  obtain ⟨b, tail, hInv⟩ := hOk
  obtain ⟨_, _, used, hUsed, hCard⟩ := h
  have hThread := (hInv.ok t).phase
  rw [hPhase, hEdges] at hThread
  obtain ⟨_, hFloor, _, _, hFirst, hLe, hMax⟩ := hThread
  cases hFirst
  have hBins := (hInv.ok t).bins.push hDelta (hInv.memory.dist.nonneg wn.v) hLe hMax hFloor
  have hPushes : (threads t).pushes = (threads t).localBins.size + 1 := by rw [Relaxer.pushes, hPhase]
  have hOne := Finset.single_le_sum (f := fun t => (threads t).pushes) (fun _ _ => Nat.zero_le _)
    (Finset.mem_univ t)
  have hSome := hRoom ((threads t).localBins.push (destBin delta newDist) wn.v)
    (fun i hi => (hBins.fits i hi).trans (min_le_right _ _)) (by
      have hEntries := hUsed.card_le
      rw [Bins.size_push]
      omega)
  rw [hFull] at hSome
  cases hSome

/-- Where no weight is below `delta`, and the memory has room for bins up to the weight of all edges and
for an entry of each edge, every run ends with the distances. -/
theorem deltaStep_heavy (g : WGraph) (hWeights : g.WeightsFit) (hSource : src < g.numNodes)
    (hEdges : 0 < g.numEdgesDirected) (hDelta : 0 < delta) (hTeam : 0 < nt) (hHeavy : g.Heavy delta)
    (hRoom : ∀ bins : Bins, (∀ i < bins.length, delta * i ≤ g.totalWeight) →
      bins.size ≤ g.numEdgesDirected → room bins = true) (frontier : Nat → Nat) :
    Acc (fun t s => DeltaStep g delta room s t) (deltaStart nt frontier src) ∧
      ∀ s, ReflTransGen (DeltaStep g delta room) (deltaStart nt frontier src) s → ¬ s.Overflows g ∧
        ((∀ t, ¬ DeltaStep g delta room s t) →
          s.stage = .finished ∧ ∀ v, Capped g.arc src kDistInf v (s.mem.dist v)) := by
  refine ⟨deltaStep_ends hSource hDelta hWeights hTeam frontier, fun s hRun => ?_⟩
  obtain ⟨hOk, hBounded⟩ := invariant_of_reaches (I := fun s : DeltaRun nt => s.Ok g src delta ∧ s.Bounded g delta)
    (fun _ _ hs hStep => ⟨(deltaStep_spec hSource hDelta hWeights hTeam hs.1 hStep).1,
      deltaStep_bounded hSource hDelta hWeights hHeavy hs.1 hs.2 hStep⟩)
    ⟨deltaStart_ok hWeights src hDelta frontier, deltaStart_bounded g delta frontier⟩ hRun
  have hFits := hBounded.not_overflows hOk hEdges
  have hHolds := hBounded.not_lacksRoom hOk hDelta hRoom
  exact ⟨hFits, fun hStuck => (hOk.final hWeights hStuck).resolve_right (not_or.mpr ⟨hFits, hHolds⟩)⟩

theorem oneEdge_heavy : Acc (fun t s => DeltaStep oneEdge 3 (·.length ≤ 100) s t) (deltaStart 2 id 0) ∧
    ∀ s, ReflTransGen (DeltaStep oneEdge 3 (·.length ≤ 100)) (deltaStart 2 id 0) s → ¬ s.Overflows oneEdge ∧
      ((∀ t, ¬ DeltaStep oneEdge 3 (·.length ≤ 100) s t) →
        s.stage = .finished ∧ ∀ v, Capped oneEdge.arc 0 kDistInf v (s.mem.dist v)) := by
  have hHeavy : ∀ u < 2, ∀ wn ∈ oneEdge.outNeigh u 0, 3 ≤ wn.w := by decide
  refine deltaStep_heavy oneEdge (by decide) (by decide) (by decide) (by decide) (by decide) hHeavy
    (fun bins hLength _ => ?_) id
  have hTotal : oneEdge.totalWeight = 3 := by decide
  rw [hTotal] at hLength
  by_contra hLong
  have hMany : 100 < bins.length := by simpa using hLong
  have hLast := hLength 99 (by omega)
  omega

end Runs

end Trident.Gapbs
