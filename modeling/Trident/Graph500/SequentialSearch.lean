import Trident.Lib.FreeList
import Trident.Graph500.Levels

/-! # The sequential searches

Both fill one queue. The places of a level stand between those of the levels before and behind it;
`seq-list` never looks at these borders.
-/

namespace Trident.Graph500

open BreadthFirst FreeList

section Scan

def free (nv : Nat) (tree : Nat → Int) : Finset Nat := (Finset.range nv).filter fun v => tree v = -1

theorem card_free_update {nv : Nat} (tree : Nat → Int) {j : Nat} (hj : tree j = -1) (hLt : j < nv)
    (v : Nat) : (free nv (Function.update tree j v)).card + 1 = (free nv tree).card := by
  have hMem : j ∈ free nv tree := Finset.mem_filter.mpr ⟨Finset.mem_range.mpr hLt, hj⟩
  have hErase : free nv (Function.update tree j v) = (free nv tree).erase j := by
    ext w
    rw [free, free, Finset.mem_erase, Finset.mem_filter, Finset.mem_filter]
    obtain rfl | hNe := eq_or_ne w j
    · rw [Function.update_self]
      simp
    · rw [Function.update_of_ne hNe]
      exact (and_iff_right hNe).symm
  rw [hErase, Finset.card_erase_of_mem hMem]
  exact Nat.sub_add_cancel (Finset.card_pos.mpr ⟨j, hMem⟩)

/-- The scan of the level `d`, which fills the places from `lo` up to `hi`, as far as `k`. -/
structure LevelScan (edges : List PackedEdge) (src d lo hi k : Nat) (tree : Nat → Int) (s : Queue) :
    Prop where
  start : TreeTo edges src d tree
  cell : ∀ v, s.tree v = tree v ∨ (tree v = -1 ∧ ∃ u : Nat, s.tree v = u ∧ (edgeGraph edges).Adj u v ∧
    OnLevel edges src d u)
  le : hi ≤ s.tail
  level : ∀ v, OnLevel edges src d v ↔ ∃ c, lo ≤ c ∧ c < hi ∧ s.vlist c = v
  found : ∀ v, tree v = -1 ∧ s.tree v ≠ -1 ↔ ∃ c, hi ≤ c ∧ c < s.tail ∧ s.vlist c = v
  scanned : ∀ c, lo ≤ c → c < k → ∀ j, (edgeGraph edges).Adj (s.vlist c) j → s.tree j ≠ -1
  room : s.tail + (free (vertexCount (scanMax edges)) s.tree).card = vertexCount (scanMax edges)

/-- What the scan of one vertex leaves as it is. -/
structure Grows (hi : Nat) (s s' : Queue) : Prop where
  vlist : ∀ c < hi, s'.vlist c = s.vlist c
  tail : s.tail ≤ s'.tail
  visited : ∀ v, s.tree v ≠ -1 → s'.tree v ≠ -1

/-- A way to tell the vertices that have no parent yet. -/
def Tests (unvisited : Int → Bool) : Prop :=
  ∀ x : Int, (x = -1 ∨ ∃ u : Nat, x = u) → (unvisited x = true ↔ x = -1)

theorem tests_eq : Tests (· == -1) := fun _ _ => beq_iff_eq

theorem tests_neg : Tests (· < 0) := fun x hx => by
  rw [decide_eq_true_eq]
  omega

variable {edges : List PackedEdge} {src d lo hi k : Nat} {tree : Nat → Int} {s s' s'' : Queue}
  {unvisited : Int → Bool}

theorem Grows.refl (hi : Nat) (s : Queue) : Grows hi s s :=
  ⟨fun _ _ => rfl, Nat.le_refl _, fun _ hv => hv⟩

theorem Grows.trans (h : Grows hi s s') (h' : Grows hi s' s'') : Grows hi s s'' :=
  ⟨fun c hc => (h'.vlist c hc).trans (h.vlist c hc), h.tail.trans h'.tail,
    fun v hv => h'.visited v (h.visited v hv)⟩

theorem LevelScan.treeOk (h : LevelScan edges src d lo hi k tree s) : TreeOk s.tree := fun v => by
  rcases h.cell v with hSame | ⟨_, u, hu, _⟩
  · rw [hSame]
    exact h.start.ok v
  · exact Or.inr ⟨u, hu⟩

theorem LevelScan.visit (h : LevelScan edges src d lo hi k tree s) (hTests : Tests unvisited)
    (hLow : lo ≤ k) (hHigh : k < hi) {v j : Nat} (hv : s.vlist k = v) (hAdj : (edgeGraph edges).Adj v j) :
    LevelScan edges src d lo hi k tree (visitNeighbour unvisited v s j) ∧
      Grows hi s (visitNeighbour unvisited v s j) ∧ (visitNeighbour unvisited v s j).tree j ≠ -1 := by
  have hLe := h.le
  rw [visitNeighbour]
  split
  · rename_i hTest
    have hFree : s.tree j = -1 := (hTests _ (h.treeOk j)).mp hTest
    have hOld : tree j = -1 := by
      rcases h.cell j with hSame | ⟨hOld, _⟩
      · rw [← hSame, hFree]
      · exact hOld
    have hParent : Function.update s.tree j (v : Int) j ≠ -1 := by
      rw [Function.update_self]
      omega
    have hKept : ∀ w, s.tree w ≠ -1 → Function.update s.tree j (v : Int) w ≠ -1 := fun w hw => by
      have hNe : w ≠ j := by
        rintro rfl
        exact hw hFree
      rwa [Function.update_of_ne hNe]
    have hCells : ∀ c < s.tail, Function.update s.vlist s.tail j c = s.vlist c := fun c hc =>
      Function.update_of_ne hc.ne _ _
    have hLevel : OnLevel edges src d v := (h.level v).mpr ⟨k, hLow, hHigh, hv⟩
    refine ⟨⟨h.start, fun w => ?_, Nat.le_succ_of_le hLe, fun w => ?_, fun w => ?_, fun c hcLow hc w hw => ?_, ?_⟩,
      ⟨fun c hc => hCells c (by omega), Nat.le_succ _, hKept⟩, hParent⟩
    · obtain rfl | hNe := eq_or_ne w j
      · exact Or.inr ⟨hOld, v, Function.update_self .., hAdj, hLevel⟩
      · simp only [Function.update_of_ne hNe]
        exact h.cell w
    · rw [h.level w]
      refine exists_congr fun c => and_congr_right fun _ => and_congr_right fun hc => ?_
      dsimp only
      rw [hCells c (by omega)]
    · obtain rfl | hNe := eq_or_ne w j
      · refine iff_of_true ⟨hOld, hParent⟩ ⟨s.tail, hLe, Nat.lt_succ_self _, Function.update_self ..⟩
      · simp only [Function.update_of_ne hNe]
        rw [h.found w]
        constructor
        · rintro ⟨c, hc, hEnd, hw⟩
          exact ⟨c, hc, Nat.lt_succ_of_lt hEnd, (hCells c hEnd).trans hw⟩
        · rintro ⟨c, hc, hEnd, hw⟩
          rcases Nat.lt_succ_iff_lt_or_eq.mp hEnd with hBefore | rfl
          · exact ⟨c, hc, hBefore, (hCells c hBefore).symm.trans hw⟩
          · rw [Function.update_self] at hw
            exact absurd hw.symm hNe
    · refine hKept w (h.scanned c hcLow hc w ?_)
      dsimp only at hw
      rwa [hCells c (by omega)] at hw
    · have hCard := card_free_update s.tree hFree (adj_lt hAdj).2 v
      have hRoom := h.room
      dsimp only
      omega
  · rename_i hTest
    exact ⟨h, Grows.refl hi s, fun hFree => hTest ((hTests _ (h.treeOk j)).mpr hFree)⟩

theorem LevelScan.visitAll (hTests : Tests unvisited) (hLow : lo ≤ k) (hHigh : k < hi) {v : Nat}
    {js : List Nat} (hAdj : ∀ j ∈ js, (edgeGraph edges).Adj v j)
    (h : LevelScan edges src d lo hi k tree s) (hv : s.vlist k = v) :
    LevelScan edges src d lo hi k tree (js.foldl (visitNeighbour unvisited v) s) ∧
      Grows hi s (js.foldl (visitNeighbour unvisited v) s) ∧
      ∀ j ∈ js, (js.foldl (visitNeighbour unvisited v) s).tree j ≠ -1 := by
  induction js generalizing s with
  | nil => exact ⟨h, Grows.refl hi s, nofun⟩
  | cons j js ih =>
    obtain ⟨hOne, hGrows, hVisited⟩ := h.visit hTests hLow hHigh hv (hAdj j List.mem_cons_self)
    obtain ⟨hAll, hGrows', hRest⟩ := ih (fun j' hj' => hAdj j' (List.mem_cons_of_mem j hj')) hOne
      ((hGrows.vlist k hHigh).trans hv)
    refine ⟨hAll, hGrows.trans hGrows', fun j' hj' => ?_⟩
    rcases List.mem_cons.mp hj' with rfl | hLater
    · exact hGrows'.visited j' hVisited
    · exact hRest j' hLater

theorem LevelScan.vertex (h : LevelScan edges src d lo hi k tree s) (hTests : Tests unvisited)
    (hLow : lo ≤ k) (hHigh : k < hi) {js : List Nat}
    (hAll : ∀ j, j ∈ js ↔ (edgeGraph edges).Adj (s.vlist k) j) :
    LevelScan edges src d lo hi (k + 1) tree (js.foldl (visitNeighbour unvisited (s.vlist k)) s) ∧
      Grows hi s (js.foldl (visitNeighbour unvisited (s.vlist k)) s) := by
  obtain ⟨hScan, hGrows, hVisited⟩ := h.visitAll hTests hLow hHigh (fun j hj => (hAll j).mp hj) rfl
  refine ⟨{ hScan with scanned := fun c hcLow hc j hj => ?_ }, hGrows⟩
  rcases Nat.lt_succ_iff_lt_or_eq.mp hc with hBefore | rfl
  · exact hScan.scanned c hcLow hBefore j hj
  · rw [hGrows.vlist c hHigh] at hj
    exact hVisited j ((hAll j).mpr hj)

theorem LevelScan.next (h : LevelScan edges src d lo hi hi tree s) :
    LevelScan edges src (d + 1) hi s.tail hi s.tree s := by
  have hTree : TreeTo edges src (d + 1) s.tree := by
    refine h.start.next ⟨h.cell, fun u v hu hAdj => ?_⟩
    obtain ⟨c, hLow, hHigh, rfl⟩ := (h.level u).mp hu
    exact h.scanned c hLow hHigh v hAdj
  refine ⟨hTree, fun v => Or.inl rfl, Nat.le_refl _, fun v => ?_, fun v => ?_, fun c hLow hHigh => ?_, h.room⟩
  · rw [← h.start.new_iff hTree v]
    exact h.found v
  · refine iff_of_false (fun hBoth => hBoth.2 hBoth.1) ?_
    rintro ⟨c, hLow, hHigh, _⟩
    omega
  · omega

theorem LevelScan.isBfsTree (h : LevelScan edges src d lo lo lo tree s) (hTail : s.tail = lo) :
    IsBfsTree edges src s.tree := by
  have hEmpty : ∀ v, ¬ OnLevel edges src (d + 1) v := fun v hv => by
    obtain ⟨c, hLow, hHigh, _⟩ := (h.next.level v).mp hv
    omega
  exact h.next.start.isBfsTree hEmpty

theorem LevelScan.tail_le (h : LevelScan edges src d lo hi k tree s) :
    s.tail ≤ vertexCount (scanMax edges) := by
  have hRoom := h.room
  omega

theorem levelScan_start {src : Nat} (hSrc : src < vertexCount (scanMax edges)) (vlist : Nat → Nat) :
    LevelScan edges src 0 0 1 0 (startQueue vlist src).tree (startQueue vlist src) := by
  have hFirst : (startQueue vlist src).vlist 0 = src := by
    show Function.update vlist 0 src 0 = src
    exact Function.update_self ..
  refine ⟨treeTo_zero edges src, fun v => Or.inl rfl, Nat.le_refl 1, fun v => ?_, fun v => ?_,
    fun c _ hc => by omega, ?_⟩
  · constructor
    · rintro ⟨hv, hDist⟩
      exact ⟨0, Nat.le_refl 0, Nat.one_pos, hFirst.trans (hv.dist_eq_zero_iff.mp hDist)⟩
    · rintro ⟨c, _, hc, rfl⟩
      rw [Nat.lt_one_iff.mp hc, hFirst]
      exact ⟨.refl src, SimpleGraph.dist_self⟩
  · refine iff_of_false (fun hBoth => hBoth.2 hBoth.1) ?_
    rintro ⟨c, hLow, hHigh, _⟩
    have hHigh : c < 1 := hHigh
    omega
  · have hAll : (free (vertexCount (scanMax edges)) fun _ => -1).card = vertexCount (scanMax edges) := by
      rw [free, Finset.filter_true_of_mem fun _ _ => rfl, Finset.card_range]
    have hCard := card_free_update (fun _ => -1) rfl hSrc src
    rw [hAll] at hCard
    rw [Nat.add_comm]
    exact hCard

end Scan

section CompressedRows

variable {g : Csr} {edges : List PackedEdge} {src d lo hi k : Nat} {tree : Nat → Int} {s : Queue}

theorem LevelScan.scanVertex (hBuilt : g.BuiltFrom edges) (hSrc : src < g.nv)
    (h : LevelScan edges src d lo hi k tree s) (hLow : lo ≤ k) (hHigh : k < hi) :
    LevelScan edges src d lo hi (k + 1) tree (scanVertex g s k) ∧ Grows hi s (Graph500.scanVertex g s k) := by
  refine h.vertex tests_eq hLow hHigh fun j => hBuilt.mem_neighbours ?_
  have hLevel := (h.level _).mpr ⟨k, hLow, hHigh, rfl⟩
  rw [hBuilt.nv] at hSrc ⊢
  exact reachable_lt hSrc hLevel.1

theorem LevelScan.scanLevel (hBuilt : g.BuiltFrom edges) (hSrc : src < g.nv) {count : Nat}
    (hCount : k + count = hi) (hLow : lo ≤ k) (h : LevelScan edges src d lo hi k tree s) :
    LevelScan edges src d lo hi hi tree ((List.range' k count).foldl (Graph500.scanVertex g) s) := by
  induction count generalizing k s with
  | zero =>
    obtain rfl : k = hi := hCount
    exact h
  | succ count ih =>
    exact ih (by omega) (by omega) (h.scanVertex hBuilt hSrc hLow (by omega)).1

theorem csrLevels_isBfsTree (hBuilt : g.BuiltFrom edges) (hSrc : src < g.nv) {fuel : Nat}
    (hFuel : g.nv < lo + fuel) (hLe : lo ≤ s.tail) (h : LevelScan edges src d lo s.tail lo tree s) :
    ∃ s', csrLevels g fuel lo s = some s' ∧ IsBfsTree edges src s'.tree := by
  have hTail : s.tail ≤ g.nv := hBuilt.nv ▸ h.tail_le
  induction fuel generalizing d lo tree s with
  | zero => omega
  | succ fuel ih =>
    rw [csrLevels]
    split
    · rename_i hEnd
      rw [← hEnd] at h
      exact ⟨s, rfl, h.isBfsTree hEnd.symm⟩
    · rename_i hMore
      have hScanned := h.scanLevel hBuilt hSrc (Nat.add_sub_cancel' hLe) (Nat.le_refl lo)
      exact ih (by omega) hScanned.le hScanned.next (hBuilt.nv ▸ hScanned.tail_le)

theorem makeBfsTreeCsr_isBfsTree (hBuilt : g.BuiltFrom edges) (hSrc : src < g.nv) (vlist : Nat → Nat) :
    ∃ tree, makeBfsTreeCsr g vlist src = some tree ∧ IsBfsTree edges src tree := by
  have hStart : LevelScan edges src 0 0 (startQueue vlist src).tail 0 _ (startQueue vlist src) :=
    levelScan_start (hBuilt.nv ▸ hSrc) vlist
  have hFuel : g.nv < 0 + (g.nv + 1) := by omega
  obtain ⟨s, hRun, hTree⟩ := csrLevels_isBfsTree hBuilt hSrc hFuel (Nat.zero_le _) hStart
  exact ⟨s.tree, congrArg (Option.map Queue.tree) hRun, hTree⟩

end CompressedRows

section LinkedLists

variable {edges done : List PackedEdge} {links : Links} {members : Nat → List Nat}

/-- Where an index leads; a negative one ends a list. -/
def link (p : Int) : Option Nat := if p ≥ 0 then some p.toNat else none

theorem link_natCast (t : Nat) : link t = some t := by
  rw [link, if_pos (Int.natCast_nonneg t), Int.toNat_natCast]

/-- The list that begins at each vertex. -/
def Links.Lists (links : Links) (members : Nat → List Nat) : Prop :=
  ∀ i, Chained (fun t => link (links.next t)) (link (links.head i)) (members i)

theorem Links.Lists.push (h : links.Lists members) {i t : Nat} (hFresh : ∀ i', t ∉ members i') :
    (links.push i t).Lists (Function.update members i (t :: members i)) := by
  have hOld : ∀ i', Chained (fun t' => link (Function.update links.next t (links.head i) t'))
      (link (links.head i')) (members i') := fun i' => (h i').congr fun t' ht' => by
    have hNe : t' ≠ t := by
      rintro rfl
      exact hFresh i' ht'
    rw [Function.update_of_ne hNe]
  intro i'
  simp only [Links.push]
  obtain rfl | hNe := eq_or_ne i' i
  · rw [Function.update_self, Function.update_self, link_natCast]
    refine .cons ?_
    rw [Function.update_self]
    exact hOld i'
  · rw [Function.update_of_ne hNe, Function.update_of_ne hNe]
    exact hOld i'

/-- An index stands for one end of its edge, in the list of the vertex at the other end. -/
def StandsFor (edges : List PackedEdge) (t i j : Nat) : Prop :=
  ∃ e, edges[t / 2]? = some e ∧ e.i ≠ e.j ∧
    ((t % 2 = 1 ∧ e.i = i ∧ e.j = j) ∨ (t % 2 = 0 ∧ e.j = i ∧ e.i = j))

structure LinksOf (edges : List PackedEdge) (links : Links) (members : Nat → List Nat) : Prop where
  lists : links.Lists members
  nodup : ∀ i, (members i).Nodup
  mem : ∀ i t, t ∈ members i ↔ ∃ j, StandsFor edges t i j

theorem standsFor_append {e : PackedEdge} {t i j : Nat} : StandsFor (done ++ [e]) t i j ↔
    StandsFor done t i j ∨ (e.i ≠ e.j ∧
      ((t = 2 * done.length + 1 ∧ e.i = i ∧ e.j = j) ∨ (t = 2 * done.length ∧ e.j = i ∧ e.i = j))) := by
  rw [StandsFor, StandsFor]
  rcases Nat.lt_trichotomy (t / 2) done.length with hOld | hNew | hBeyond
  · rw [List.getElem?_append_left hOld]
    refine (or_iff_left ?_).symm
    omega
  · rw [hNew, List.getElem?_concat_length, List.getElem?_eq_none (Nat.le_refl _)]
    simp only [Option.some_inj, exists_eq_left', reduceCtorEq, false_and, exists_false, false_or]
    refine and_congr_right fun _ => or_congr ?_ ?_
    · refine and_congr_left fun _ => ?_
      omega
    · refine and_congr_left fun _ => ?_
      omega
  · rw [List.getElem?_eq_none (by rw [List.length_append, List.length_singleton]; omega),
      List.getElem?_eq_none hBeyond.le]
    simp only [reduceCtorEq, false_and, exists_false, false_or, false_iff]
    omega

theorem LinksOf.pushEdge (h : LinksOf done links members) (e : PackedEdge) :
    ∃ members', LinksOf (done ++ [e]) (links.pushEdge done.length e) members' := by
  have hBelow : ∀ i t, t ∈ members i → t < 2 * done.length := fun i t ht => by
    obtain ⟨j, e, he, _⟩ := (h.mem i t).mp ht
    have hLt := (List.getElem?_eq_some_iff.mp he).1
    omega
  have hFresh : ∀ t, 2 * done.length ≤ t → ∀ i, t ∉ members i := fun t hLe i ht => by
    have hLt := hBelow i t ht
    omega
  rw [Links.pushEdge]
  split
  · rename_i hNe
    have hFirst := h.lists.push (i := e.i) (hFresh (2 * done.length + 1) (Nat.le_succ _))
    have hMid : ∀ i, 2 * done.length ∉
        Function.update members e.i ((2 * done.length + 1) :: members e.i) i := fun i => by
      obtain rfl | hOther := eq_or_ne i e.i
      · rw [Function.update_self, List.mem_cons, not_or]
        exact ⟨by omega, hFresh _ (Nat.le_refl _) e.i⟩
      · rw [Function.update_of_ne hOther]
        exact hFresh _ (Nat.le_refl _) i
    refine ⟨_, hFirst.push (i := e.j) hMid, fun i => ?_, fun i t => ?_⟩
    · obtain rfl | hj := eq_or_ne i e.j
      · rw [Function.update_self, Function.update_of_ne hNe.symm]
        exact List.nodup_cons.mpr ⟨hFresh _ (Nat.le_refl _) e.j, h.nodup e.j⟩
      · rw [Function.update_of_ne hj]
        obtain rfl | hi := eq_or_ne i e.i
        · rw [Function.update_self]
          exact List.nodup_cons.mpr ⟨hFresh _ (Nat.le_succ _) e.i, h.nodup e.i⟩
        · rw [Function.update_of_ne hi]
          exact h.nodup i
    · have hStands : (∃ j, StandsFor (done ++ [e]) t i j) ↔ t ∈ members i ∨
          (t = 2 * done.length + 1 ∧ i = e.i) ∨ (t = 2 * done.length ∧ i = e.j) := by
        simp only [standsFor_append, exists_or, h.mem i t]
        refine or_congr_right ⟨?_, ?_⟩
        · rintro ⟨j, _, ⟨ht, hi, _⟩ | ⟨ht, hi, _⟩⟩
          · exact Or.inl ⟨ht, hi.symm⟩
          · exact Or.inr ⟨ht, hi.symm⟩
        · rintro (⟨ht, rfl⟩ | ⟨ht, rfl⟩)
          · exact ⟨e.j, hNe, Or.inl ⟨ht, rfl, rfl⟩⟩
          · exact ⟨e.i, hNe, Or.inr ⟨ht, rfl, rfl⟩⟩
      rw [hStands]
      obtain rfl | hj := eq_or_ne i e.j
      · rw [Function.update_self, Function.update_of_ne hNe.symm, List.mem_cons]
        simp only [and_true, hNe.symm, and_false, false_or]
        exact or_comm
      · rw [Function.update_of_ne hj]
        obtain rfl | hi := eq_or_ne i e.i
        · rw [Function.update_self, List.mem_cons]
          simp only [and_true, hj, and_false, or_false]
          exact or_comm
        · rw [Function.update_of_ne hi]
          simp only [hi, hj, and_false, or_false]
  · rename_i hEq
    refine ⟨members, h.lists, h.nodup, fun i t => ?_⟩
    rw [h.mem i t]
    refine exists_congr fun j => ?_
    rw [standsFor_append]
    exact (or_iff_left fun hNew => hEq hNew.1).symm

theorem LinksOf.pushAll (h : LinksOf done links members) (edges : List PackedEdge) :
    ∃ members', LinksOf (done ++ edges) (links.pushAll done.length edges) members' := by
  induction edges generalizing done links members with
  | nil =>
    rw [List.append_nil]
    exact ⟨members, h⟩
  | cons e edges ih =>
    obtain ⟨members', hEdge⟩ := h.pushEdge e
    have hRest := ih hEdge
    rwa [List.length_append, List.length_singleton, List.append_assoc, List.singleton_append] at hRest

theorem createLinks_linksOf (edges : List PackedEdge) (next : Nat → Int) :
    ∃ members, LinksOf edges (createLinks edges next) members := by
  have hStart : LinksOf [] { head := fun _ => -1, next } fun _ => [] := by
    refine ⟨fun i => .nil, fun i => List.nodup_nil, fun i t => iff_of_false List.not_mem_nil ?_⟩
    rintro ⟨j, e, he, _⟩
    rw [List.getElem?_nil] at he
    cases he
  exact hStart.pushAll edges

def ends (edges : List PackedEdge) (list : List Nat) : List Nat := list.filterMap (endpoint edges)

theorem StandsFor.endpoint {t i j : Nat} (h : StandsFor edges t i j) : endpoint edges t = some j := by
  obtain ⟨e, he, _, ⟨hOdd, _, rfl⟩ | ⟨hEven, _, rfl⟩⟩ := h
  · rw [Graph500.endpoint, he, Option.map_some, if_pos (by omega)]
  · rw [Graph500.endpoint, he, Option.map_some, if_neg (by omega)]

theorem LinksOf.mem_ends (h : LinksOf edges links members) (i j : Nat) :
    j ∈ ends edges (members i) ↔ (edgeGraph edges).Adj i j := by
  rw [ends, List.mem_filterMap, edgeGraph_adj]
  constructor
  · rintro ⟨t, ht, hEnd⟩
    obtain ⟨j', hStands⟩ := (h.mem i t).mp ht
    obtain rfl : j' = j := Option.some_inj.mp (hStands.endpoint.symm.trans hEnd)
    obtain ⟨e, he, hNe, ⟨_, rfl, rfl⟩ | ⟨_, rfl, rfl⟩⟩ := hStands
    · exact ⟨hNe, e, List.mem_of_getElem? he, Or.inl ⟨rfl, rfl⟩⟩
    · exact ⟨hNe.symm, e, List.mem_of_getElem? he, Or.inr ⟨rfl, rfl⟩⟩
  · rintro ⟨hNe, e, he, ⟨rfl, rfl⟩ | ⟨rfl, rfl⟩⟩
    · obtain ⟨k, hk⟩ := List.mem_iff_getElem?.mp he
      have hStands : StandsFor edges (2 * k + 1) e.i e.j :=
        ⟨e, by rwa [show (2 * k + 1) / 2 = k by omega], hNe, Or.inl ⟨by omega, rfl, rfl⟩⟩
      exact ⟨_, (h.mem _ _).mpr ⟨_, hStands⟩, hStands.endpoint⟩
    · obtain ⟨k, hk⟩ := List.mem_iff_getElem?.mp he
      have hStands : StandsFor edges (2 * k) e.j e.i :=
        ⟨e, by rwa [show 2 * k / 2 = k by omega], hNe.symm, Or.inr ⟨by omega, rfl, rfl⟩⟩
      exact ⟨_, (h.mem _ _).mpr ⟨_, hStands⟩, hStands.endpoint⟩

theorem LinksOf.length_le (h : LinksOf edges links members) (i : Nat) :
    (members i).length ≤ 2 * edges.length := by
  have hSub : members i ⊆ List.range (2 * edges.length) := fun t ht => by
    obtain ⟨j, e, he, _⟩ := (h.mem i t).mp ht
    have hLt := (List.getElem?_eq_some_iff.mp he).1
    rw [List.mem_range]
    omega
  have hLength := (List.subperm_of_subset (h.nodup i) hSub).length_le
  rwa [List.length_range] at hLength

theorem walkLinks_eq {next : Nat → Int} {v : Nat} {p : Int} {list : List Nat}
    (hList : Chained (fun t => link (next t)) (link p) list)
    (hEnds : ∀ t ∈ list, ∃ j, endpoint edges t = some j) {fuel : Nat} (hFuel : list.length < fuel)
    (s : Queue) :
    walkLinks edges next v fuel p s = some ((ends edges list).foldl (visitNeighbour (· < 0) v) s) := by
  induction list generalizing p fuel s with
  | nil =>
    obtain ⟨fuel, rfl⟩ := Nat.exists_eq_succ_of_ne_zero (Nat.ne_zero_of_lt hFuel)
    have hStop : ¬ p ≥ 0 := fun hp => by
      rw [link, if_pos hp] at hList
      cases hList
    rw [walkLinks, if_neg hStop]
    rfl
  | cons t list ih =>
    obtain ⟨fuel, rfl⟩ := Nat.exists_eq_succ_of_ne_zero (Nat.ne_zero_of_lt hFuel)
    have hOn : p ≥ 0 := by
      by_contra hp
      rw [link, if_neg hp] at hList
      cases hList
    rw [link, if_pos hOn] at hList
    obtain ⟨j, hj⟩ := hEnds t List.mem_cons_self
    generalize hNode : p.toNat = t' at hList
    cases hList with
    | cons hRest =>
      rw [walkLinks, if_pos hOn, hNode, hj, ends, List.filterMap_cons_some hj, List.foldl_cons]
      exact ih hRest (fun t' ht' => hEnds t' (List.mem_cons_of_mem t ht'))
        (by rw [List.length_cons] at hFuel; omega) _

theorem LinksOf.walkLinks (h : LinksOf edges links members) (v : Nat) (s : Queue) :
    walkLinks edges links.next v (2 * edges.length + 1) (links.head v) s =
      some ((ends edges (members v)).foldl (visitNeighbour (· < 0) v) s) := by
  refine walkLinks_eq (h.lists v) (fun t ht => ?_) (Nat.lt_succ_of_le (h.length_le v)) s
  obtain ⟨j, hStands⟩ := (h.mem v t).mp ht
  exact ⟨j, hStands.endpoint⟩

/-- The scan up to `k`, whatever the borders of the levels are: a level begins anew behind its
last vertex. -/
def QueueScan (edges : List PackedEdge) (src k : Nat) (s : Queue) : Prop :=
  ∃ d lo hi tree, LevelScan edges src d lo hi k tree s ∧ lo ≤ k ∧ (k < hi ∨ k = hi ∧ s.tail = hi)

theorem LevelScan.queueScan {src d lo hi k : Nat} {tree : Nat → Int} {s : Queue}
    (h : LevelScan edges src d lo hi k tree s) (hLow : lo ≤ k) (hHigh : k ≤ hi) : QueueScan edges src k s := by
  rcases Nat.lt_or_eq_of_le hHigh with hIn | rfl
  · exact ⟨d, lo, hi, tree, h, hLow, Or.inl hIn⟩
  · refine ⟨d + 1, k, s.tail, s.tree, h.next, Nat.le_refl k, ?_⟩
    have hLe := h.le
    omega

theorem listScan_isBfsTree (hLinks : LinksOf edges links members) {src k k1 : Nat} {s : Queue} {fuel : Nat}
    (hFuel : vertexCount (scanMax edges) < k + fuel) (h : QueueScan edges src k s)
    (hLast : k = s.tail → k1 = s.tail) :
    ∃ s', listScan edges links.next links.head fuel k k1 s.tail s = some (s'.tail, s'.tail, s') ∧
      IsBfsTree edges src s'.tree := by
  induction fuel generalizing k k1 s with
  | zero =>
    obtain ⟨d, lo, hi, tree, hScan, _, hEnd⟩ := h
    have hTail := hScan.tail_le
    have hLe := hScan.le
    omega
  | succ fuel ih =>
    obtain ⟨d, lo, hi, tree, hScan, hLow, hEnd⟩ := h
    have hLe := hScan.le
    rw [listScan]
    split
    · rename_i hMore
      have hHigh : k < hi := by omega
      obtain ⟨hNext, hGrows⟩ := hScan.vertex tests_neg hLow hHigh
        fun j => hLinks.mem_ends (s.vlist k) j
      have hTail := hGrows.tail
      rw [hLinks.walkLinks]
      exact ih (by omega) (hNext.queueScan (by omega) hHigh) fun hAtEnd => by omega
    · rename_i hDone
      have hAt : k = s.tail := by omega
      refine ⟨s, by rw [hLast hAt], ?_⟩
      obtain rfl : k = hi := by omega
      have hNext := hScan.next
      rw [← hAt] at hNext
      exact hNext.isBfsTree hAt.symm

theorem makeBfsTreeList_isBfsTree {src : Nat} (hSrc : src < vertexCount (scanMax edges)) (next : Nat → Int)
    (vlist : Nat → Nat) :
    ∃ tree, makeBfsTreeList edges next vlist src = some tree ∧ IsBfsTree edges src tree := by
  obtain ⟨members, hLinks⟩ := createLinks_linksOf edges next
  have hStart : QueueScan edges src 0 (startQueue vlist src) :=
    (levelScan_start hSrc vlist).queueScan (Nat.le_refl 0) (Nat.zero_le 1)
  have hFuel : vertexCount (scanMax edges) < 0 + (vertexCount (scanMax edges) + 1) := by omega
  have hLast : 0 = (startQueue vlist src).tail → 0 = (startQueue vlist src).tail := id
  obtain ⟨s, hRun, hTree⟩ := listScan_isBfsTree hLinks hFuel hStart hLast
  obtain ⟨fuel, hEq⟩ := Nat.exists_eq_succ_of_ne_zero (Nat.ne_zero_of_lt hSrc)
  have hRun : listScan edges (createLinks edges next).next (createLinks edges next).head
      (vertexCount (scanMax edges) + 1) 0 0 1 { startQueue vlist src with tail := 1 } =
      some (s.tail, s.tail, s) := hRun
  refine ⟨s.tree, ?_, hTree⟩
  rw [makeBfsTreeList, listLevels, if_neg (by omega), hRun]
  dsimp only [Option.bind_eq_bind, Option.bind_some]
  rw [hEq, listLevels, if_pos rfl]
  rfl

end LinkedLists

end Trident.Graph500
