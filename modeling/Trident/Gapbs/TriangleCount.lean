import Mathlib.Data.BitVec
import Trident.Lib.Triangles
import Trident.Gapbs.EdgeComponents
import Trident.Gapbs.SlidingQueue

/-! # Triangle counting

`OrderedCount` and `TCVerifier` of the triangle counting kernel. A count has the 64 bits of `size_t`,
and `none` is what has no defined value.
-/

namespace Trident.Gapbs

open Finset Triangles

/-- What the kernel requires of its input, and what `SquishGraph` leaves of an undirected graph. -/
structure SquishedGraph extends Graph where
  symmetric : directed = false
  ascending : ∀ u < numNodes, (toCSRGraph.outNeigh u 0).Pairwise (· < ·)
  no_loops : ∀ u < numNodes, u ∉ toCSRGraph.outNeigh u 0

section Program

variable (g : CSRGraph Nat)

/-- `while (*it < w) it++`, where `it` has to stay in its row -/
def skipBelow (w : Nat) : List Nat → Option (List Nat)
  | [] => none
  | x :: it => if x < w then skipBelow w it else some (x :: it)

/-- The loop over `w` -/
def countRow (v : Nat) : List Nat → List Nat → BitVec 64 → Option (BitVec 64)
  | [], _, total => some total
  | w :: row, it, total =>
    if w > v then some total
    else (skipBelow w it).bind fun it =>
      countRow v row it (if it.head? = some w then total + 1#64 else total)

/-- The loop over `v` -/
def countNode (u : Nat) : List Nat → BitVec 64 → Option (BitVec 64)
  | [], total => some total
  | v :: row, total =>
    if v > u then some total
    else (countRow v (g.outNeigh v 0) (g.outNeigh u 0) total).bind (countNode u row)

/-- `OrderedCount`, with the turns `share t` for thread `t` of the team -/
def OrderedCount {nt : Nat} (share : Fin nt → List Nat) : Option (BitVec 64) :=
  ((List.finRange nt).mapM fun t =>
    (share t).foldlM (fun total u => countNode g u (g.outNeigh u 0) total) 0#64).map List.sum

/-- `set_intersection` of two rows that ascend -/
def setIntersection : List Nat → List Nat → List Nat
  | x :: xs, y :: ys =>
    if x < y then setIntersection xs (y :: ys)
    else if y < x then setIntersection (x :: xs) ys
    else x :: setIntersection xs ys
  | _, _ => []
termination_by xs ys => xs.length + ys.length

/-- One `v` of the verifier, whose vector has room for `num_nodes` elements -/
def addCommon (u : Nat) (total : BitVec 64) (v : Nat) : Option (BitVec 64) :=
  let intersection := setIntersection (g.outNeigh u 0) (g.outNeigh v 0)
  if intersection.length ≤ g.numNodes then some (total + BitVec.ofNat 64 intersection.length) else none

def TCVerifier (testTotal : BitVec 64) : Option Bool :=
  ((List.range g.numNodes).foldlM (fun total u => (g.outNeigh u 0).foldlM (addCommon g u) total)
    0#64).map fun total => total / 6#64 == testTotal

end Program

/-- What the builder makes of edges that it symmetrizes. -/
def Represents.squished {W : Type*} {el : List (EdgePair W)} {g : CSRGraph (NodeWeight W)}
    (h : Represents true el g) : SquishedGraph where
  toGraph := h.graph
  symmetric := h.directed
  ascending u hu := by
    have hRow := h.out_ascending u hu
    rwa [← nodes_outNeigh] at hRow
  no_loops u hu hLoop := ((h.out u hu u).mp (nodes_outNeigh g u ▸ hLoop)).1 rfl

section Rows

variable {u v w : Nat} {row it : List Nat} {total : BitVec 64}

theorem skipBelow_eq (h : ∃ x ∈ it, w ≤ x) : skipBelow w it = some (it.dropWhile (· < w)) := by
  induction it with
  | nil => simp at h
  | cons x it ih =>
    rw [skipBelow, List.dropWhile_cons]
    obtain hLess | hLe := Nat.lt_or_ge x w
    · rw [if_pos hLess, if_pos (by simpa using hLess), ih]
      obtain ⟨y, hy, hLe⟩ := h
      obtain rfl | hy := List.mem_cons.mp hy
      · omega
      · exact ⟨y, hy, hLe⟩
    · rw [if_neg (by omega), if_neg (by simpa using hLe)]

theorem mem_dropWhile_lt (hAscending : it.Pairwise (· < ·)) {x : Nat} :
    x ∈ it.dropWhile (· < w) ↔ x ∈ it ∧ w ≤ x := by
  induction it with
  | nil => simp
  | cons y it ih =>
    have hRest := (List.pairwise_cons.mp hAscending).1
    rw [List.dropWhile_cons]
    obtain hLess | hLe := Nat.lt_or_ge y w
    · rw [if_pos (by simpa using hLess), ih hAscending.of_cons, List.mem_cons]
      grind
    · rw [if_neg (by simpa using hLe), List.mem_cons]
      grind

theorem head_dropWhile_lt (hAscending : it.Pairwise (· < ·)) :
    (it.dropWhile (· < w)).head? = some w ↔ w ∈ it := by
  induction it with
  | nil => simp
  | cons y it ih =>
    have hRest := (List.pairwise_cons.mp hAscending).1
    rw [List.dropWhile_cons]
    obtain hLess | hLe := Nat.lt_or_ge y w
    · rw [if_pos (by simpa using hLess), ih hAscending.of_cons, List.mem_cons]
      grind
    · rw [if_neg (by simpa using hLe), List.mem_cons, List.head?_cons, Option.some_inj]
      grind

/-- The loop over `w` stops at `v`, which `it` has not passed. -/
theorem countRow_eq (hRow : row.Pairwise (· < ·)) (hIt : it.Pairwise (· < ·)) (hv : v ∈ it) :
    countRow v row it total = some (total + BitVec.ofNat 64 #{w ∈ row.toFinset | w ≤ v ∧ w ∈ it}) := by
  induction row generalizing it total with
  | nil => simp [countRow]
  | cons w row ih =>
    have hRest := (List.pairwise_cons.mp hRow).1
    rw [countRow]
    split
    · rename_i hBehind
      have hNone : {x ∈ (w :: row).toFinset | x ≤ v ∧ x ∈ it} = ∅ := by
        rw [filter_eq_empty_iff]
        intro x hx
        obtain rfl | hx := List.mem_cons.mp (List.mem_toFinset.mp hx)
        · omega
        · have hLess := hRest x hx
          omega
      rw [hNone, card_empty, BitVec.add_zero]
    · rename_i hBefore
      have hSame : {x ∈ row.toFinset | x ≤ v ∧ x ∈ it.dropWhile (· < w)} =
          {x ∈ row.toFinset | x ≤ v ∧ x ∈ it} := by
        refine filter_congr fun x hx => ?_
        have hLess := hRest x (List.mem_toFinset.mp hx)
        rw [mem_dropWhile_lt hIt]
        grind
      have hNew : w ∉ row.toFinset := fun h => (hRest w (List.mem_toFinset.mp h)).false
      rw [skipBelow_eq ⟨v, hv, by omega⟩, Option.bind_some, ih hRow.of_cons
        (hIt.sublist (List.dropWhile_sublist _)) ((mem_dropWhile_lt hIt).mpr ⟨hv, by omega⟩), hSame,
        List.toFinset_cons, filter_insert, Option.some_inj]
      simp only [head_dropWhile_lt hIt]
      by_cases hw : w ∈ it
      · rw [if_pos hw, if_pos ⟨by omega, hw⟩, card_insert_of_notMem (fun h => hNew (mem_filter.mp h).1),
          BitVec.add_assoc, Nat.add_comm _ 1, BitVec.ofNat_add]
      · rw [if_neg hw, if_neg fun h => hw h.2]

theorem mem_setIntersection {xs ys : List Nat} (hxs : xs.Pairwise (· < ·)) (hys : ys.Pairwise (· < ·)) {x : Nat} :
    x ∈ setIntersection xs ys ↔ x ∈ xs ∧ x ∈ ys := by
  fun_induction setIntersection xs ys with
  | case1 a xs b ys hLess ih =>
    have hRest := (List.pairwise_cons.mp hys).1
    rw [ih hxs.of_cons hys]
    grind
  | case2 a xs b ys hNot hLess ih =>
    have hRest := (List.pairwise_cons.mp hxs).1
    rw [ih hxs hys.of_cons]
    grind
  | case3 a xs b ys hNot hNot' ih =>
    have hRest := (List.pairwise_cons.mp hxs).1
    have hRest' := (List.pairwise_cons.mp hys).1
    rw [List.mem_cons, ih hxs.of_cons hys.of_cons]
    grind
  | case4 xs ys hNone =>
    cases xs with
    | nil => simp
    | cons a xs =>
      cases ys with
      | nil => simp
      | cons b ys => exact absurd rfl (hNone a xs b ys rfl)

theorem setIntersection_sublist (xs ys : List Nat) : (setIntersection xs ys).Sublist xs := by
  fun_induction setIntersection xs ys with
  | case1 a xs b ys hLess ih => exact ih.trans (List.sublist_cons_self a xs)
  | case2 a xs b ys hNot hLess ih => exact ih
  | case3 a xs b ys hNot hNot' ih => exact ih.cons_cons a
  | case4 xs ys hNone => exact List.nil_sublist _

/-- Turns that add to the total. -/
theorem foldlM_add {α : Type*} {f : BitVec 64 → α → Option (BitVec 64)} {count : α → Nat} {turns : List α}
    (h : ∀ total, ∀ a ∈ turns, f total a = some (total + BitVec.ofNat 64 (count a))) (total : BitVec 64) :
    turns.foldlM f total = some (total + BitVec.ofNat 64 (turns.map count).sum) := by
  induction turns generalizing total with
  | nil => exact congrArg some (BitVec.add_zero total).symm
  | cons a turns ih =>
    have hRest : ∀ total, ∀ b ∈ turns, f total b = some (total + BitVec.ofNat 64 (count b)) :=
      fun total b hb => h total b (List.mem_cons_of_mem a hb)
    rw [List.foldlM_cons, h total a List.mem_cons_self, Option.bind_eq_bind, Option.bind_some, ih hRest,
      List.map_cons, List.sum_cons, BitVec.add_assoc, BitVec.ofNat_add]

end Rows

section Triangles

variable {g : SquishedGraph} {u v : Nat}

instance (g : Graph) : DecidableRel g.underlying.Adj := fun u v =>
  inferInstanceAs (Decidable (u ≠ v ∧ u < g.numNodes ∧ v < g.numNodes ∧
    (v ∈ g.outNeigh u 0 ∨ u ∈ g.outNeigh v 0)))

def Graph.triangles (g : Graph) : Set (Finset Nat) := {t | g.underlying.IsNClique 3 t}

theorem SquishedGraph.mem_symm (hu : u < g.numNodes) (hv : v ∈ g.outNeigh u 0) :
    v < g.numNodes ∧ u ∈ g.outNeigh v 0 := by
  have hLess := g.out_lt u hu v hv
  obtain ⟨hIndex, hNeighs⟩ := g.undirected g.symmetric
  have hIn := (g.inverse u hu v hLess).mp hv
  rw [CSRGraph.inNeigh, hIndex, hNeighs] at hIn
  exact ⟨hLess, hIn⟩

theorem SquishedGraph.adj_iff (hu : u < g.numNodes) : g.underlying.Adj u v ↔ v ∈ g.outNeigh u 0 := by
  constructor
  · rintro ⟨_, _, hv, hOut | hIn⟩
    · exact hOut
    · exact (g.mem_symm hv hIn).2
  · intro hOut
    refine ⟨?_, hu, g.out_lt u hu v hOut, Or.inl hOut⟩
    rintro rfl
    exact g.no_loops u hu hOut

theorem SquishedGraph.toFinset_row (hu : u < g.numNodes) :
    (g.outNeigh u 0).toFinset = {v ∈ range g.numNodes | g.underlying.Adj u v} := by
  ext v
  rw [List.mem_toFinset, mem_filter, mem_range, g.adj_iff hu]
  exact ⟨fun hv => ⟨g.out_lt u hu v hv, hv⟩, And.right⟩

theorem SquishedGraph.nodup (hu : u < g.numNodes) : (g.outNeigh u 0).Nodup :=
  (g.ascending u hu).imp Nat.ne_of_lt

/-- The triangles that the turns of `u` and `v` count. -/
def SquishedGraph.below (g : SquishedGraph) (u v : Nat) : Nat :=
  #{w ∈ range g.numNodes | w < v ∧ g.underlying.Adj u w ∧ g.underlying.Adj v w}

theorem SquishedGraph.countRow_row (hu : u < g.numNodes) (hv : v ∈ g.outNeigh u 0) (total : BitVec 64) :
    countRow v (g.outNeigh v 0) (g.outNeigh u 0) total = some (total + BitVec.ofNat 64 (g.below u v)) := by
  have hLess := g.out_lt u hu v hv
  rw [countRow_eq (g.ascending v hLess) (g.ascending u hu) hv, g.toFinset_row hLess, filter_filter, below]
  have hSame : ∀ w ∈ range g.numNodes, g.underlying.Adj v w ∧ w ≤ v ∧ w ∈ g.outNeigh u 0 ↔
      w < v ∧ g.underlying.Adj u w ∧ g.underlying.Adj v w := by
    intro w _
    rw [← g.adj_iff hu]
    constructor
    · rintro ⟨hAdj, hLe, hOut⟩
      exact ⟨lt_of_le_of_ne hLe hAdj.ne', hOut, hAdj⟩
    · rintro ⟨hBelow, hOut, hAdj⟩
      exact ⟨hAdj, hBelow.le, hOut⟩
  rw [filter_congr hSame]

theorem SquishedGraph.countNode_eq (hu : u < g.numNodes) {row : List Nat} (hRow : row.Sublist (g.outNeigh u 0))
    (total : BitVec 64) :
    countNode g.toCSRGraph u row total =
      some (total + BitVec.ofNat 64 ((row.filter (· ≤ u)).map (g.below u)).sum) := by
  induction row generalizing total with
  | nil => exact congrArg some (BitVec.add_zero total).symm
  | cons v row ih =>
    have hAfter := (List.pairwise_cons.mp ((g.ascending u hu).sublist hRow)).1
    rw [countNode]
    split
    · rename_i hBehind
      have hNone : (v :: row).filter (· ≤ u) = [] := by
        rw [List.filter_eq_nil_iff]
        intro w hw
        obtain rfl | hw := List.mem_cons.mp hw
        · simpa using hBehind
        · have hLess := hAfter w hw
          simp only [decide_eq_true_eq]
          omega
      rw [hNone, List.map_nil, List.sum_nil, BitVec.add_zero]
    · rename_i hBefore
      rw [g.countRow_row hu (hRow.subset List.mem_cons_self), Option.bind_some,
        ih ((List.sublist_cons_self v row).trans hRow), List.filter_cons, if_pos (by simpa using hBefore),
        List.map_cons, List.sum_cons, BitVec.add_assoc, BitVec.ofNat_add]

/-- The triangles with greatest vertex `u`. -/
def SquishedGraph.topped (g : SquishedGraph) (u : Nat) : Nat :=
  ∑ v ∈ range g.numNodes with v < u ∧ g.underlying.Adj u v, g.below u v

theorem SquishedGraph.countNode_row (hu : u < g.numNodes) (total : BitVec 64) :
    countNode g.toCSRGraph u (g.outNeigh u 0) total = some (total + BitVec.ofNat 64 (g.topped u)) := by
  have hFilter : ((g.outNeigh u 0).filter (· ≤ u)).toFinset =
      {v ∈ range g.numNodes | v < u ∧ g.underlying.Adj u v} := by
    rw [List.toFinset_filter, g.toFinset_row hu, filter_filter]
    refine filter_congr fun v _ => ?_
    simp only [decide_eq_true_eq]
    constructor
    · rintro ⟨hAdj, hLe⟩
      exact ⟨lt_of_le_of_ne hLe hAdj.ne', hAdj⟩
    · rintro ⟨hLess, hAdj⟩
      exact ⟨hAdj, hLess.le⟩
  rw [g.countNode_eq hu (List.Sublist.refl _), topped, ← hFilter,
    List.sum_toFinset _ ((g.nodup hu).filter _)]

theorem Graph.adj_mem {g : Graph} (hAdj : g.underlying.Adj u v) : u ∈ range g.numNodes :=
  mem_range.mpr hAdj.2.1

theorem SquishedGraph.sum_topped (g : SquishedGraph) :
    ∑ u ∈ range g.numNodes, g.topped u = g.triangles.ncard := by
  rw [Graph.triangles, ncard_triangles fun _ _ hAdj => Graph.adj_mem hAdj, card_descending]
  rfl

/-- However the nodes are shared out, every triangle is counted once, and `it` stays in its row. -/
theorem OrderedCount_eq (g : SquishedGraph) {nt : Nat} {share : Fin nt → List Nat}
    (hShare : Shares share (List.range g.numNodes)) :
    OrderedCount g.toCSRGraph share = some (BitVec.ofNat 64 g.triangles.ncard) := by
  have hMem : ∀ t, ∀ u ∈ share t, u < g.numNodes := by
    intro t u hu
    have hAny : u ∈ (List.finRange nt).flatMap share := List.mem_flatMap.mpr ⟨t, List.mem_finRange t, hu⟩
    exact List.mem_range.mp (hShare.mem_iff.mp hAny)
  have hThread : ∀ t, (share t).foldlM (fun total u => countNode g.toCSRGraph u (g.outNeigh u 0) total) 0#64 =
      some (BitVec.ofNat 64 ((share t).map g.topped).sum) := by
    intro t
    rw [foldlM_add fun total u hu => g.countNode_row (hMem t u hu) total, BitVec.zero_add]
  have hTotals (team : List (Fin nt)) :
      ((team.mapM fun t => (share t).foldlM (fun total u =>
        countNode g.toCSRGraph u (g.outNeigh u 0) total) 0#64).map List.sum) =
        some (BitVec.ofNat 64 ((team.flatMap share).map g.topped).sum) := by
    induction team with
    | nil => rfl
    | cons t team ih =>
      obtain ⟨totals, hTotals, hSum⟩ := Option.map_eq_some_iff.mp ih
      rw [List.mapM_cons, hThread t, hTotals, List.flatMap_cons, List.map_append, List.sum_append,
        BitVec.ofNat_add, ← hSum]
      exact congrArg some List.sum_cons
  rw [OrderedCount, hTotals, (hShare.map g.topped).sum_eq, ← g.sum_topped, ← List.sum_toFinset _ List.nodup_range,
    List.toFinset_range]

/-- The triangles with the edge from `u` to `v`. -/
def SquishedGraph.common (g : SquishedGraph) (u v : Nat) : Nat :=
  #{w ∈ range g.numNodes | g.underlying.Adj u w ∧ g.underlying.Adj v w}

theorem SquishedGraph.addCommon_eq (hu : u < g.numNodes) (hv : v ∈ g.outNeigh u 0) (total : BitVec 64) :
    addCommon g.toCSRGraph u total v = some (total + BitVec.ofNat 64 (g.common u v)) := by
  have hLess := g.out_lt u hu v hv
  have hNodup := (setIntersection_sublist (g.outNeigh u 0) (g.outNeigh v 0)).nodup (g.nodup hu)
  have hCommon : (setIntersection (g.outNeigh u 0) (g.outNeigh v 0)).toFinset =
      {w ∈ range g.numNodes | g.underlying.Adj u w ∧ g.underlying.Adj v w} := by
    ext w
    rw [List.mem_toFinset, mem_setIntersection (g.ascending u hu) (g.ascending v hLess), mem_filter,
      mem_range, g.adj_iff hu, g.adj_iff hLess]
    exact ⟨fun h => ⟨g.out_lt u hu w h.1, h⟩, And.right⟩
  have hCard : (setIntersection (g.outNeigh u 0) (g.outNeigh v 0)).length = g.common u v := by
    rw [common, ← hCommon, List.toFinset_card_of_nodup hNodup]
  have hRoom : g.common u v ≤ g.numNodes := (card_filter_le _ _).trans_eq (card_range g.numNodes)
  rw [addCommon, hCard, if_pos hRoom]

theorem SquishedGraph.foldlM_addCommon (hu : u < g.numNodes) (total : BitVec 64) :
    (g.outNeigh u 0).foldlM (addCommon g.toCSRGraph u) total =
      some (total + BitVec.ofNat 64 (∑ v ∈ range g.numNodes with g.underlying.Adj u v, g.common u v)) := by
  rw [foldlM_add fun total v hv => g.addCommon_eq hu hv total, ← g.toFinset_row hu,
    List.sum_toFinset _ (g.nodup hu)]

theorem SquishedGraph.sum_common (g : SquishedGraph) :
    ∑ u ∈ range g.numNodes, ∑ v ∈ range g.numNodes with g.underlying.Adj u v, g.common u v =
      6 * g.triangles.ncard := by
  rw [Graph.triangles, ncard_triangles fun _ _ hAdj => Graph.adj_mem hAdj, ← Triangles.sum_common]
  rfl

/-- The verifier counts every triangle six times, and its vector has room for what it finds. -/
theorem TCVerifier_passes (g : SquishedGraph) (hTotal : 6 * g.triangles.ncard < 2 ^ 64)
    (testTotal : BitVec 64) :
    TCVerifier g.toCSRGraph testTotal = some (decide (testTotal.toNat = g.triangles.ncard)) := by
  have hAll := foldlM_add (fun total u hu => g.foldlM_addCommon (List.mem_range.mp hu) total) 0#64
  rw [← List.sum_toFinset _ List.nodup_range, List.toFinset_range, g.sum_common, BitVec.zero_add] at hAll
  have hLess : g.triangles.ncard < 2 ^ 64 := by omega
  have hDiv : BitVec.ofNat 64 (6 * g.triangles.ncard) / 6#64 = BitVec.ofNat 64 g.triangles.ncard := by
    apply BitVec.eq_of_toNat_eq
    rw [BitVec.toNat_udiv, BitVec.toNat_ofNat, BitVec.toNat_ofNat, BitVec.toNat_ofNat,
      Nat.mod_eq_of_lt hTotal, Nat.mod_eq_of_lt hLess]
    exact Nat.mul_div_cancel_left _ (by decide)
  rw [TCVerifier, hAll, Option.map_some, hDiv, Option.some_inj, Bool.eq_iff_iff, beq_iff_eq,
    decide_eq_true_iff]
  constructor
  · rintro rfl
    rw [BitVec.toNat_ofNat, Nat.mod_eq_of_lt hLess]
  · intro hSame
    rw [← hSame, BitVec.ofNat_toNat, BitVec.setWidth_eq]

/-- Three nodes, and an edge between any two of them. -/
def oneTriangle : SquishedGraph where
  directed := false
  numNodes := 3
  outIndex n := 2 * n
  outNeighbors c := [1, 2, 0, 2, 0, 1].getD c 0
  inIndex n := 2 * n
  inNeighbors c := [1, 2, 0, 2, 0, 1].getD c 0
  nonempty := by decide
  undirected _ := ⟨rfl, rfl⟩
  out_lt := by decide
  in_lt := by decide
  inverse := by decide
  symmetric := rfl
  ascending := by decide
  no_loops := by decide

theorem ncard_oneTriangle : oneTriangle.triangles.ncard = 1 := by
  rw [Graph.triangles, ncard_triangles fun _ _ hAdj => Graph.adj_mem hAdj]
  decide

theorem oneTriangle_passes :
    TCVerifier oneTriangle.toCSRGraph 1#64 = some (decide ((1#64).toNat = oneTriangle.triangles.ncard)) :=
  TCVerifier_passes oneTriangle (by rw [ncard_oneTriangle]; decide) 1#64

end Triangles

end Trident.Gapbs
