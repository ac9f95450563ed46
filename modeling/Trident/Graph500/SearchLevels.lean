import Trident.Graph500.Levels
import Trident.Graph500.TopDown
import Trident.Graph500.BitmapLoops
import Trident.Graph500.QueueFill

/-! # Levels of the parallel search

Between two phases the memory stands at a level: its vertices are in the queue or in a bitmap, and
what else a bitmap holds has been visited before.
-/

namespace Trident.Graph500

open Relation Transition BreadthFirst

section Bounds

variable {g : Csr} {edges : List PackedEdge} {src d : Nat}

/-- What the search takes for granted: `bm_init` can count the words, and the source is a vertex. -/
structure Csr.Searchable (g : Csr) (edges : List PackedEdge) (src : Nat) : Prop where
  built : g.BuiltFrom edges
  fits : g.nv + 63 < 2 ^ 31
  source : src < g.nv

theorem Csr.Searchable.longs (h : g.Searchable edges src) :
    g.nv ≤ 64 * numLongs g.nv ∧ 64 * numLongs g.nv ≤ 2 ^ 32 := by
  have hFits := h.fits
  rw [numLongs_eq h.fits]
  omega

theorem Csr.Searchable.lt (h : g.Searchable edges src) {v : Nat} (hv : Within edges src d v) : v < g.nv := by
  have hSource := h.source
  rw [h.built.nv] at hSource ⊢
  exact reachable_lt hSource hv.1

theorem Csr.Searchable.bit_lt (h : g.Searchable edges src) {v : Nat} (hv : v < g.nv) :
    v < 64 * numLongs g.nv := hv.trans_le h.longs.1

end Bounds

section States

theorem startSearch_next (g : Csr) (nt : Nat) (vlist : Nat → Nat) (past next : Bitmap) (src : Nat) :
    (startSearch g nt vlist past next src).mem.next = bmReset (numLongs g.nv) next := by
  rw [startSearch]

theorem Memory.swapBitmaps_next (longs : Nat) (m : Memory) :
    (m.swapBitmaps longs).next = bmReset longs m.past := rfl

variable (g : Csr) (edges : List PackedEdge) (src d : Nat)

/-- The level is in the queue; `next` may hold vertices from before. -/
structure InQueue (m : Memory) (awake : Nat) : Prop where
  tree : TreeTo edges src d m.tree
  queue : QueueOk g m
  frontier : ∀ v, m.InFrontier v ↔ OnLevel edges src d v
  stale : ∀ p < 64 * numLongs g.nv, bmGetBit m.next p → Within edges src d p
  awake : awake = m.k2 - m.k1

/-- The level is in `past`, perhaps with vertices from before. -/
structure InPast (m : Memory) : Prop where
  tree : TreeTo edges src d m.tree
  stale : ∀ p < 64 * numLongs g.nv, bmGetBit m.past p → Within edges src d p
  covers : ∀ v, OnLevel edges src d v → bmGetBit m.past v
  clear : ∀ p < 64 * numLongs g.nv, ¬ bmGetBit m.next p

/-- The level is in `next`, and nothing else. -/
structure InNext (m : Memory) (awake : Nat) : Prop where
  tree : TreeTo edges src d m.tree
  level : ∀ p < 64 * numLongs g.nv, bmGetBit m.next p ↔ OnLevel edges src d p
  awake : awake = (bitsBetween m.next 0 g.nv).length

end States

section Queues

variable {g : Csr} {edges : List PackedEdge} {src d awake : Nat} {m m₀ : Memory} {nt : Nat}

theorem mem_frontier {v : Nat} : m.InFrontier v ↔ v ∈ (List.range' m.k1 (m.k2 - m.k1)).map m.vlist := by
  rw [Memory.InFrontier, List.mem_map]
  refine exists_congr fun k => ?_
  rw [List.mem_range'_1, ← and_assoc]
  refine and_congr_left fun _ => ?_
  omega

theorem inQueue_start (hSearch : g.Searchable edges src) (vlist : Nat → Nat) (past next : Bitmap) :
    InQueue g edges src 0 (startSearch g nt vlist past next src).mem 1 := by
  have hTree := treeTo_zero edges src
  have hFirst : ∀ k < 1, Function.update vlist 0 src k = src := fun k hk => by
    rw [Nat.lt_one_iff.mp hk, Function.update_self]
  constructor
  case tree => exact hTree
  case queue =>
    refine ⟨Nat.zero_le 1, List.nodup_singleton _, fun k hk => ?_, fun k hk => ?_⟩
    · show Function.update (fun _ => -1) src (src : Int) (Function.update vlist 0 src k) ≠ -1
      rw [hFirst k hk, Function.update_self]
      omega
    · show Function.update vlist 0 src k < g.nv
      rw [hFirst k hk]
      exact hSearch.source
  case frontier =>
    intro v
    constructor
    · rintro ⟨k, _, hk, rfl⟩
      have hk : (startSearch g nt vlist past next src).mem.vlist k = src := hFirst k hk
      rw [hk]
      exact ⟨.refl src, SimpleGraph.dist_self⟩
    · rintro ⟨hv, hDist⟩
      exact ⟨0, Nat.le_refl 0, Nat.one_pos,
        (hFirst 0 Nat.one_pos).trans (hv.dist_eq_zero_iff.mp hDist)⟩
  case stale =>
    intro p hp hBit
    rw [startSearch_next] at hBit
    exact absurd hBit (bmGetBit_reset hp next)
  case awake => rfl

theorem InQueue.isBfsTree (h : InQueue g edges src d m 0) : IsBfsTree edges src m.tree := by
  have hNone := h.awake
  refine h.tree.isBfsTree fun v hv => ?_
  obtain ⟨k, hLow, hHigh, _⟩ := (h.frontier v).mpr hv
  omega

theorem InQueue.exists_onLevel (h : InQueue g edges src d m awake) (hAwake : awake ≠ 0) :
    ∃ v, OnLevel edges src d v := by
  have hCount := h.awake
  exact ⟨_, (h.frontier _).mp ⟨m.k1, Nat.le_refl _, by omega, rfl⟩⟩

variable {threads : Fin nt → Scan}

theorem InQueue.topDown (hSearch : g.Searchable edges src) (h : InQueue g edges src d m₀ awake)
    (hInv : TopDownInv g m₀ m threads) (hDone : ∀ t, (threads t).phase = .finished) (scoutCount : Int) :
    InQueue g edges src (d + 1) { m with k1 := m₀.k2, scoutCount } (m.k2 - m₀.k2) := by
  obtain ⟨hScanned, hLe, hNodup, hNew⟩ := hInv.finished hDone
  have hBound := hSearch.built.neighbours_lt
  have hAdvances : Advances edges src d m₀.tree m.tree := by
    constructor
    · intro v
      refine (hInv.memory.tree v).imp_right fun ⟨hOld, u, hu, hFrontier, hv⟩ => ?_
      have hLevel := (h.frontier u).mp hFrontier
      exact ⟨hOld, u, hu, (hSearch.built.mem_neighbours (hSearch.lt hLevel.within)).mp hv, hLevel⟩
    · intro u v hLevel hAdj
      exact hScanned u ((h.frontier u).mpr hLevel) v
        ((hSearch.built.mem_neighbours (hSearch.lt hLevel.within)).mpr hAdj)
  have hTree := h.tree.next hAdvances
  have hKept : ∀ v, m₀.tree v ≠ -1 → m.tree v ≠ -1 := fun v hv =>
    (hTree.visited v).mpr ((h.tree.visited v).mp hv).succ
  have hCells : (List.range m.k2).map m.vlist = (List.range m₀.k2).map m₀.vlist ++
      (List.range' m₀.k2 (m.k2 - m₀.k2)).map m.vlist := by
    have hRange : List.range m.k2 = List.range m₀.k2 ++ List.range' m₀.k2 (m.k2 - m₀.k2) := by
      have hSplit := List.range'_append_1 (s := 0) (m := m₀.k2) (n := m.k2 - m₀.k2)
      rw [Nat.zero_add, Nat.add_sub_cancel' hLe] at hSplit
      rw [List.range_eq_range', List.range_eq_range', hSplit]
    rw [hRange, List.map_append]
    congr 1
    exact List.map_congr_left fun k hk => hInv.memory.before k (List.mem_range.mp hk)
  have hBehind : ∀ k, m₀.k2 ≤ k → k < m.k2 → m₀.tree (m.vlist k) = -1 ∧ m.tree (m.vlist k) ≠ -1 :=
    fun k hLow hHigh => (hNew (m.vlist k)).mp (List.mem_map_of_mem (by rw [List.mem_range'_1]; omega))
  constructor
  case tree => exact hTree
  case queue =>
    refine ⟨hLe, ?_, fun k hk => ?_, fun k hk => ?_⟩
    · show ((List.range m.k2).map m.vlist).Nodup
      rw [hCells]
      refine List.Nodup.append h.queue.nodup hNodup fun v hOld hLate => ?_
      obtain ⟨k, hk, rfl⟩ := List.mem_map.mp hOld
      exact h.queue.visited k (List.mem_range.mp hk) ((hNew _).mp hLate).1
    · rcases Nat.lt_or_ge k m₀.k2 with hOld | hLate
      · show m.tree (m.vlist k) ≠ -1
        rw [hInv.memory.before k hOld]
        exact hKept _ (h.queue.visited k hOld)
      · exact (hBehind k hLate hk).2
    · rcases Nat.lt_or_ge k m₀.k2 with hOld | hLate
      · show m.vlist k < g.nv
        rw [hInv.memory.before k hOld]
        exact h.queue.bound k hOld
      · exact hInv.found_lt hBound h.queue (hBehind k hLate hk).1 (hBehind k hLate hk).2
  case frontier =>
    intro v
    rw [← h.tree.new_iff hTree v, ← hNew v]
    exact mem_frontier
  case stale =>
    intro p hp hBit
    refine (h.stale p hp ?_).succ
    rw [← hInv.memory.next]
    exact hBit
  case awake => rfl

end Queues

section Bitmaps

variable {g : Csr} {edges : List PackedEdge} {src d awake : Nat} {m m₀ : Memory} {nt : Nat}
  {threads : Fin nt → BitThread}

/-- `fill_bitmap_from_queue` and the swap that follows take the level from the queue into `past`. -/
theorem InQueue.inPast (h : InQueue g edges src d m₀ awake)
    (hInv : BitInv m₀.tree (fun q => some (m₀.vlist q)) (List.range' m₀.k1 (m₀.k2 - m₀.k1)) m₀ m threads)
    (hDone : ∀ t, (threads t).todo = [] ∧ (threads t).phase = .idle) :
    InPast g edges src d (m.swapBitmaps (numLongs g.nv)) := by
  obtain ⟨hIn, hOut, hBits, _⟩ := hInv.finished hDone
  have hTree : m.tree = m₀.tree := funext fun x =>
    (Classical.em (x ∈ List.range' m₀.k1 (m₀.k2 - m₀.k1))).elim (hIn x) (hOut x)
  have hFrontier : ∀ p, bmGetBit m.next p ↔ bmGetBit m₀.next p ∨ OnLevel edges src d p := fun p => by
    rw [hBits p, ← h.frontier p, mem_frontier, List.mem_map]
    simp only [Option.some_inj]
  constructor
  case tree =>
    show TreeTo edges src d m.tree
    rw [hTree]
    exact h.tree
  case stale => exact fun p hp hBit => ((hFrontier p).mp hBit).elim (h.stale p hp) OnLevel.within
  case covers => exact fun v hv => (hFrontier v).mpr (Or.inr hv)
  case clear =>
    intro p hp
    rw [Memory.swapBitmaps_next]
    exact bmGetBit_reset hp m.past

theorem InPast.target_iff (hSearch : g.Searchable edges src) (h : InPast g edges src d m) {i : Nat} :
    (i < g.nv ∧ m.tree i = -1 ∧ ∃ j ∈ g.neighbours i, bmGetBit m.past j) ↔ OnLevel edges src (d + 1) i := by
  constructor
  · rintro ⟨hi, hFree, j, hj, hBit⟩
    have hAdj := (hSearch.built.mem_neighbours hi).mp hj
    have hLevel := h.stale j (hSearch.bit_lt (hSearch.built.neighbours_lt i hi j hj)) hBit
    exact onLevel_succ_iff.mpr ⟨hLevel.neighbour hAdj.symm, (h.tree.unvisited i).mp hFree⟩
  · intro hLevel
    obtain ⟨u, hAdj, hu⟩ := exists_nearer hLevel.1 hLevel.2
    have hi := hSearch.lt hLevel.within
    exact ⟨hi, (h.tree.unvisited i).mpr (onLevel_succ_iff.mp hLevel).2, u,
      (hSearch.built.mem_neighbours hi).mpr hAdj.symm, h.covers u hu⟩

theorem InPast.inNext (hSearch : g.Searchable edges src) (h : InPast g edges src d m₀)
    (hInv : BitInv (bottomUpParent g m₀.past m₀.tree) (bottomUpTarget g m₀.past m₀.tree)
      (List.range g.nv) m₀ m threads)
    (hDone : ∀ t, (threads t).todo = [] ∧ (threads t).phase = .idle) :
    InNext g edges src (d + 1) m (∑ t, (threads t).count) := by
  obtain ⟨hIn, hOut, hBits, hCount⟩ := hInv.finished hDone
  have hFound : ∀ i p, i ∈ List.range g.nv ∧ bottomUpTarget g m₀.past m₀.tree i = some p ↔
      i = p ∧ OnLevel edges src (d + 1) p := by
    intro i p
    rw [bottomUpTarget_eq_some, List.mem_range, ← h.target_iff hSearch]
    constructor
    · rintro ⟨hi, rfl, hRest⟩
      exact ⟨rfl, hi, hRest⟩
    · rintro ⟨rfl, hi, hRest⟩
      exact ⟨hi, rfl, hRest⟩
  have hLevel : ∀ p < 64 * numLongs g.nv, bmGetBit m.next p ↔ OnLevel edges src (d + 1) p := by
    intro p hp
    rw [hBits p, or_iff_right (h.clear p hp)]
    simp only [hFound, exists_eq_left]
  have hAdvances : Advances edges src d m₀.tree m.tree := by
    constructor
    · intro v
      rcases Nat.lt_or_ge v g.nv with hv | hv
      · rw [hIn v (List.mem_range.mpr hv)]
        refine (bottomUpParent_cases g m₀.past m₀.tree v).imp And.left fun ⟨hFree, j, hj, hNear, hBit⟩ => ?_
        have hAdj := (hSearch.built.mem_neighbours hv).mp hNear
        have hWithin := h.stale j (hSearch.bit_lt (hSearch.built.neighbours_lt v hv j hNear)) hBit
        exact ⟨hFree, j, hj, hAdj.symm,
          hWithin.onLevel hAdj.symm ((h.tree.unvisited v).mp hFree)⟩
      · exact Or.inl (hOut v (by rw [List.mem_range]; omega))
    · intro u v hu hAdj
      have hv := hSearch.lt (hu.within.neighbour hAdj)
      rw [hIn v (List.mem_range.mpr hv)]
      rcases bottomUpParent_cases g m₀.past m₀.tree v with ⟨hSame, hNone⟩ | ⟨_, j, hj, _⟩
      · rw [hSame]
        intro hFree
        exact hNone hFree u ((hSearch.built.mem_neighbours hv).mpr hAdj.symm) (h.covers u hu)
      · omega
  refine ⟨h.tree.next hAdvances, hLevel, ?_⟩
  rw [hCount, bitsBetween, Nat.sub_zero, ← List.range_eq_range']
  congr 1
  refine List.filter_congr fun i hi => ?_
  rw [Bool.eq_iff_iff, decide_eq_true_eq, hLevel i (hSearch.bit_lt (List.mem_range.mp hi)),
    Option.isSome_iff_exists]
  constructor
  · rintro ⟨p, hp⟩
    obtain ⟨rfl, hLevel⟩ := (hFound i p).mp ⟨hi, hp⟩
    exact hLevel
  · intro hLevel
    exact ⟨i, ((hFound i i).mpr ⟨rfl, hLevel⟩).2⟩

theorem InNext.inPast (hSearch : g.Searchable edges src) (h : InNext g edges src d m awake) :
    InPast g edges src d (m.swapBitmaps (numLongs g.nv)) where
  tree := h.tree
  stale p hp hBit := ((h.level p hp).mp hBit).within
  covers v hv := (h.level v (hSearch.bit_lt (hSearch.lt hv.within))).mpr hv
  clear p hp := by
    rw [Memory.swapBitmaps_next]
    exact bmGetBit_reset hp m.past

theorem InNext.exists_onLevel (hSearch : g.Searchable edges src) (h : InNext g edges src d m awake)
    (hAwake : awake ≠ 0) : ∃ v, OnLevel edges src d v := by
  obtain ⟨v, hv⟩ := List.exists_mem_of_length_pos (Nat.pos_of_ne_zero (h.awake ▸ hAwake))
  obtain ⟨_, hLt, hBit⟩ := mem_bitsBetween.mp hv
  exact ⟨v, (h.level v (hSearch.bit_lt hLt)).mp hBit⟩

/-- `fill_queue_from_bitmap` takes the level from `next` into the queue, from its first cell on. -/
theorem InNext.inQueue (hSearch : g.Searchable edges src) (h : InNext g edges src d m₀ awake)
    {fillers : Fin nt → Filler} (hk1 : m₀.k1 = 0) (hInv : FillInv (bitsBetween m₀.next 0 g.nv) m₀ m fillers)
    (hDone : ∀ t, (fillers t).blocks = [] ∧ (fillers t).storing = none) (scoutCount : Int) :
    InQueue g edges src d { m with scoutCount } awake := by
  have hPerm := hInv.finished hDone
  have hStart : m.k1 = 0 := hInv.k1.trans hk1
  have hLevel : ∀ v, v ∈ (List.range m.k2).map m.vlist ↔ OnLevel edges src d v := by
    intro v
    rw [hPerm.mem_iff, mem_bitsBetween]
    constructor
    · rintro ⟨_, hLt, hBit⟩
      exact (h.level v (hSearch.bit_lt hLt)).mp hBit
    · intro hv
      have hLt := hSearch.lt hv.within
      exact ⟨Nat.zero_le v, hLt, (h.level v (hSearch.bit_lt hLt)).mpr hv⟩
  have hCell : ∀ k < m.k2, OnLevel edges src d (m.vlist k) := fun k hk =>
    (hLevel _).mp (List.mem_map_of_mem (List.mem_range.mpr hk))
  constructor
  case tree =>
    show TreeTo edges src d m.tree
    rw [hInv.tree]
    exact h.tree
  case queue =>
    refine ⟨hStart.trans_le (Nat.zero_le _), ?_, fun k hk => ?_, fun k hk => hSearch.lt (hCell k hk).within⟩
    · exact hPerm.nodup_iff.mpr ((List.nodup_range' 1).filter _)
    · show m.tree (m.vlist k) ≠ -1
      rw [hInv.tree]
      exact (h.tree.visited _).mpr (hCell k hk).within
  case frontier =>
    intro v
    rw [← hLevel v, List.range_eq_range', mem_frontier]
    show v ∈ (List.range' m.k1 (m.k2 - m.k1)).map m.vlist ↔ _
    rw [hStart, Nat.sub_zero]
  case stale =>
    intro p hp hBit
    have hBit : bmGetBit m₀.next p := hInv.next ▸ hBit
    exact ((h.level p hp).mp hBit).within
  case awake =>
    show awake = m.k2 - m.k1
    have hLength := hPerm.length_eq
    rw [List.length_map, List.length_range] at hLength
    rw [hStart, Nat.sub_zero, h.awake, hLength]

end Bitmaps

end Trident.Graph500
