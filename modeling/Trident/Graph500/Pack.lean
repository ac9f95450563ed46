import Mathlib.Data.List.Sort
import Trident.Graph500.Scatter

/-! # Sorting a slot and merging equal neighbours -/

namespace Trident.Graph500

section Cells

variable {xadj xadj' : Nat → Int} {lo hi : Nat}

theorem mem_cells {v : Int} : v ∈ cells xadj lo hi ↔ ∃ k, lo ≤ k ∧ k < hi ∧ xadj k = v := by
  rw [cells, List.mem_map]
  constructor
  · rintro ⟨k, hk, rfl⟩
    rw [List.mem_range'_1] at hk
    exact ⟨k, hk.1, by omega, rfl⟩
  · rintro ⟨k, hLow, hHigh, rfl⟩
    exact ⟨k, List.mem_range'_1.mpr ⟨hLow, by omega⟩, rfl⟩

theorem length_cells : (cells xadj lo hi).length = hi - lo := by
  rw [cells, List.length_map, List.length_range']

theorem getElem_cells {k : Nat} (hk : k < (cells xadj lo hi).length) :
    (cells xadj lo hi)[k] = xadj (lo + k) := by
  simp [cells]

theorem pairwise_cells {R : Int → Int → Prop} :
    (cells xadj lo hi).Pairwise R ↔ ∀ a b, lo ≤ a → a < b → b < hi → R (xadj a) (xadj b) := by
  rw [List.pairwise_iff_getElem]
  constructor
  · intro h a b hLow hLt hHigh
    have hIn : ∀ c, lo ≤ c → c < hi → c - lo < (cells xadj lo hi).length := fun c hc hc' => by
      rw [length_cells]
      omega
    have hPair := h (a - lo) (b - lo) (hIn a hLow (by omega)) (hIn b (by omega) hHigh) (by omega)
    rwa [getElem_cells, getElem_cells, Nat.add_sub_cancel' hLow, Nat.add_sub_cancel' (by omega)] at hPair
  · intro h a b ha hb hLt
    rw [getElem_cells, getElem_cells]
    rw [length_cells] at hb
    exact h _ _ (by omega) (by omega) (by omega)

theorem cells_congr (h : ∀ k, lo ≤ k → k < hi → xadj k = xadj' k) :
    cells xadj lo hi = cells xadj' lo hi := by
  refine List.map_congr_left fun k hk => ?_
  rw [List.mem_range'_1] at hk
  exact h k hk.1 (by omega)

end Cells

section Sorting

variable {xadj : Nat → Int} {lo hi : Nat}

theorem writeCells_outside {values : List Int} {k : Nat} (h : k < lo ∨ lo + values.length ≤ k) :
    writeCells xadj lo values k = xadj k := by
  rw [writeCells]
  split
  · rw [List.getElem?_eq_none (by omega)]
    rfl
  · rfl

theorem cells_writeCells (xadj : Nat → Int) (lo : Nat) (values : List Int) :
    cells (writeCells xadj lo values) lo (lo + values.length) = values := by
  refine List.ext_getElem (by rw [length_cells]; omega) fun k hk hk' => ?_
  rw [getElem_cells, writeCells, if_pos (Nat.le_add_right lo k), Nat.add_sub_cancel_left,
    List.getElem?_eq_getElem hk']
  rfl

theorem cells_sortCells (h : lo ≤ hi) :
    cells (sortCells xadj lo hi) lo hi = (cells xadj lo hi).insertionSort (· ≤ ·) := by
  have hLength : lo + ((cells xadj lo hi).insertionSort (· ≤ ·)).length = hi := by
    rw [List.length_insertionSort, length_cells]
    omega
  have hWrite := cells_writeCells xadj lo ((cells xadj lo hi).insertionSort (· ≤ ·))
  rwa [hLength] at hWrite

theorem sortCells_outside (h : lo ≤ hi) {k : Nat} (hk : k < lo ∨ hi ≤ k) :
    sortCells xadj lo hi k = xadj k := by
  refine writeCells_outside ?_
  rw [List.length_insertionSort, length_cells]
  omega

theorem sortCells_mono (h : lo ≤ hi) {a b : Nat} (ha : lo ≤ a) (hab : a ≤ b) (hb : b < hi) :
    sortCells xadj lo hi a ≤ sortCells xadj lo hi b := by
  have hSorted : (cells (sortCells xadj lo hi) lo hi).Pairwise (· ≤ ·) := by
    rw [cells_sortCells h]
    exact List.sortedLE_insertionSort.pairwise
  obtain rfl | hLt := Nat.eq_or_lt_of_le hab
  · exact le_refl _
  · exact pairwise_cells.mp hSorted a b ha hLt hb

theorem mem_sortCells (h : lo ≤ hi) (v : Int) :
    v ∈ cells (sortCells xadj lo hi) lo hi ↔ v ∈ cells xadj lo hi := by
  rw [cells_sortCells h, List.mem_insertionSort]

end Sorting

section Merge

variable {sorted xadj : Nat → Int} {lo hi kcur k : Nat}

/-- The cells up to `kcur` hold the different values of the cells before `k`. -/
structure Merged (sorted : Nat → Int) (lo : Nat) (xadj : Nat → Int) (kcur k : Nat) : Prop where
  lo_le : lo ≤ kcur
  lt : kcur < k
  outside : ∀ c, c < lo ∨ k ≤ c → xadj c = sorted c
  last : xadj kcur = sorted (k - 1)
  ascending : ∀ a b, lo ≤ a → a < b → b ≤ kcur → xadj a < xadj b
  sound : ∀ a, lo ≤ a → a ≤ kcur → ∃ c, lo ≤ c ∧ c < k ∧ sorted c = xadj a
  complete : ∀ c, lo ≤ c → c < k → ∃ a, lo ≤ a ∧ a ≤ kcur ∧ xadj a = sorted c

theorem Merged.le_last (h : Merged sorted lo xadj kcur k) {a : Nat} (hLow : lo ≤ a) (ha : a ≤ kcur) :
    xadj a ≤ xadj kcur := by
  obtain rfl | hLt := Nat.eq_or_lt_of_le ha
  · exact le_refl _
  · exact (h.ascending a kcur hLow hLt (Nat.le_refl _)).le

theorem Merged.skip (h : Merged sorted lo xadj kcur k) (hEq : xadj k = xadj kcur) :
    Merged sorted lo xadj kcur (k + 1) where
  lo_le := h.lo_le
  lt := Nat.lt_succ_of_lt h.lt
  outside c hc := h.outside c (by omega)
  last := by
    rw [Nat.add_sub_cancel, ← hEq]
    exact h.outside k (Or.inr (Nat.le_refl k))
  ascending := h.ascending
  sound a hLow ha := by
    obtain ⟨c, hc, hLt, hValue⟩ := h.sound a hLow ha
    exact ⟨c, hc, Nat.lt_succ_of_lt hLt, hValue⟩
  complete c hLow hc := by
    cases Nat.lt_succ_iff_lt_or_eq.mp hc with
    | inl hLt => exact h.complete c hLow hLt
    | inr hLast =>
      refine ⟨kcur, h.lo_le, Nat.le_refl _, ?_⟩
      rw [← hEq, hLast, h.outside k (Or.inr (Nat.le_refl k))]

theorem Merged.move (h : Merged sorted lo xadj kcur k) (hGt : xadj kcur < xadj k) :
    Merged sorted lo (Function.update xadj (kcur + 1) (xadj k)) (kcur + 1) (k + 1) := by
  have hLt := h.lt
  have hLow := h.lo_le
  have hAhead : xadj k = sorted k := h.outside k (Or.inr (Nat.le_refl k))
  have hOld : ∀ a, a ≤ kcur → Function.update xadj (kcur + 1) (xadj k) a = xadj a := fun a ha =>
    Function.update_of_ne (by omega) ..
  constructor
  · omega
  · omega
  · intro c hc
    rw [Function.update_of_ne (by omega)]
    exact h.outside c (by omega)
  · rw [Function.update_self, Nat.add_sub_cancel, hAhead]
  · intro a b ha hab hb
    cases Nat.le_succ_iff.mp hb with
    | inl hIn =>
      rw [hOld a (by omega), hOld b hIn]
      exact h.ascending a b ha hab hIn
    | inr hLast =>
      rw [hLast, Function.update_self, hOld a (by omega)]
      exact (h.le_last ha (by omega)).trans_lt hGt
  · intro a ha hEnd
    cases Nat.le_succ_iff.mp hEnd with
    | inl hIn =>
      obtain ⟨c, hc, hcLt, hValue⟩ := h.sound a ha hIn
      exact ⟨c, hc, by omega, by rw [hOld a hIn, hValue]⟩
    | inr hLast => exact ⟨k, by omega, by omega, by rw [hLast, Function.update_self, hAhead]⟩
  · intro c hc hEnd
    cases Nat.lt_succ_iff_lt_or_eq.mp hEnd with
    | inl hIn =>
      obtain ⟨a, ha, haLe, hValue⟩ := h.complete c hc hIn
      exact ⟨a, ha, by omega, by rw [hOld a haLe, hValue]⟩
    | inr hLast => exact ⟨kcur + 1, by omega, by omega, by rw [hLast, Function.update_self, hAhead]⟩

theorem mergeEqual_merged (hSorted : ∀ a b, lo ≤ a → a ≤ b → b < hi → sorted a ≤ sorted b) {count : Nat}
    (hEnd : k + count = hi) (h : Merged sorted lo xadj kcur k) :
    Merged sorted lo (mergeEqual xadj kcur k count).1 (mergeEqual xadj kcur k count).2 hi := by
  induction count generalizing xadj kcur k with
  | zero =>
    rw [← hEnd]
    exact h
  | succ count ih =>
    rw [mergeEqual]
    split
    · rename_i hNe
      refine ih (by omega) (h.move (lt_of_le_of_ne ?_ hNe.symm))
      have hLt := h.lt
      have hLow := h.lo_le
      rw [h.last, h.outside k (Or.inr (Nat.le_refl k))]
      exact hSorted (k - 1) k (by omega) (by omega) (by omega)
    · rename_i hEq
      exact ih (by omega) (h.skip (not_not.mp hEq))

end Merge

section Pack

variable {g : Csr} {i : Nat}

/-- What packing one vertex does to the graph: its slot gets shorter and ascending with the same
values, and no cell outside is written. -/
structure Packs (g g' : Csr) (i : Nat) : Prop where
  nv : g'.nv = g.nv
  xoff : g'.xoff = g.xoff
  xend : ∀ i' ≠ i, g'.xend i' = g.xend i'
  low : g'.xoff i ≤ g'.xend i
  high : g'.xend i ≤ g.xend i
  outside : ∀ c, c < g.xoff i ∨ g.xend i ≤ c → g'.xadj c = g.xadj c
  ascending : (g'.adjacency i).Pairwise (· < ·)
  mem : ∀ v, v ∈ g'.adjacency i ↔ v ∈ g.adjacency i

theorem Merged.packs {xadj : Nat → Int} {kcur : Nat} (h : g.xoff i ≤ g.xend i)
    (hMerged : Merged (sortCells g.xadj (g.xoff i) (g.xend i)) (g.xoff i) xadj kcur (g.xend i)) :
    Packs g
      { g with
        xadj := fun k => if kcur + 1 ≤ k ∧ k < g.xend i then -1 else xadj k
        xend := Function.update g.xend i (kcur + 1) } i := by
  have hLow := hMerged.lo_le
  have hLt := hMerged.lt
  have hInside : ∀ a ≤ kcur, (if kcur + 1 ≤ a ∧ a < g.xend i then -1 else xadj a) = xadj a :=
    fun a ha => if_neg (by omega)
  have hEnd : Function.update g.xend i (kcur + 1) i = kcur + 1 := Function.update_self ..
  constructor
  case nv => rfl
  case xoff => rfl
  case xend => exact fun i' hNe => Function.update_of_ne hNe ..
  case low =>
    show g.xoff i ≤ Function.update g.xend i (kcur + 1) i
    omega
  case high =>
    show Function.update g.xend i (kcur + 1) i ≤ g.xend i
    omega
  case outside =>
    intro c hc
    show (if kcur + 1 ≤ c ∧ c < g.xend i then -1 else xadj c) = g.xadj c
    rw [if_neg (by omega), hMerged.outside c hc, sortCells_outside h hc]
  case ascending =>
    rw [Csr.adjacency, pairwise_cells]
    simp only [hEnd]
    intro a b ha hab hb
    rw [hInside a (by omega), hInside b (by omega)]
    exact hMerged.ascending a b ha hab (by omega)
  case mem =>
    intro v
    rw [Csr.adjacency, Csr.adjacency, ← mem_sortCells h, mem_cells, mem_cells]
    simp only [hEnd]
    constructor
    · rintro ⟨a, ha, haLt, rfl⟩
      obtain ⟨c, hc, hcLt, hValue⟩ := hMerged.sound a ha (by omega)
      exact ⟨c, hc, hcLt, by rw [hValue, hInside a (by omega)]⟩
    · rintro ⟨c, hc, hcLt, rfl⟩
      obtain ⟨a, ha, haLe, hValue⟩ := hMerged.complete c hc hcLt
      exact ⟨a, ha, by omega, by rw [hInside a haLe, hValue]⟩

theorem packVtxEdges_packs (h : g.xoff i ≤ g.xend i) : Packs g (packVtxEdges g i) i := by
  rw [packVtxEdges]
  split
  · refine ⟨rfl, rfl, fun _ _ => rfl, h, Nat.le_refl _, fun _ _ => rfl, ?_, fun _ => Iff.rfl⟩
    rw [Csr.adjacency, pairwise_cells]
    intro a b ha hab hb
    omega
  · have hFirst : Merged (sortCells g.xadj (g.xoff i) (g.xend i)) (g.xoff i)
        (sortCells g.xadj (g.xoff i) (g.xend i)) (g.xoff i) (g.xoff i + 1) :=
      { lo_le := Nat.le_refl _
        lt := Nat.lt_succ_self _
        outside := fun _ _ => rfl
        last := rfl
        ascending := fun a b ha hab hb => by omega
        sound := fun a ha hEnd => ⟨a, ha, by omega, rfl⟩
        complete := fun c hc hEnd => ⟨c, hc, by omega, rfl⟩ }
    exact (mergeEqual_merged (fun a b ha hab hb => sortCells_mono h ha hab hb) (by omega)
      hFirst).packs h

end Pack

section PackAll

theorem packVtxEdges_nv (g : Csr) (i : Nat) : (packVtxEdges g i).nv = g.nv := by
  rw [packVtxEdges]
  split <;> rfl

theorem packEdges_nv (g : Csr) (vertices : List Nat) : (packEdges g vertices).nv = g.nv := by
  induction vertices generalizing g with
  | nil => rfl
  | cons i vertices ih => exact (ih (packVtxEdges g i)).trans (packVtxEdges_nv g i)

theorem packEdges_xoff (g : Csr) (vertices : List Nat) : (packEdges g vertices).xoff = g.xoff := by
  induction vertices generalizing g with
  | nil => rfl
  | cons i vertices ih =>
    refine (ih (packVtxEdges g i)).trans ?_
    rw [packVtxEdges]
    split <;> rfl

variable {g g' : Csr} {i : Nat}

def Csr.Slotted (g : Csr) : Prop :=
  ∀ i < g.nv, g.xoff i ≤ g.xend i ∧ g.xend i ≤ g.xoff (i + 1)

theorem Csr.Slotted.xend_le (h : g.Slotted) {i' : Nat} (hLt : i < i') (hi : i' ≤ g.nv) :
    g.xend i ≤ g.xoff i' := by
  induction i', hLt using Nat.le_induction with
  | base => exact (h i hi).2
  | succ i' hLe ih =>
    have hPrevious := ih (by omega)
    have hNext := h i' (by omega)
    omega

theorem Packs.slotted (h : Packs g g' i) (hSlotted : g.Slotted) (hi : i < g.nv) : g'.Slotted := by
  intro i' hi'
  rw [h.nv] at hi'
  rw [h.xoff]
  obtain rfl | hNe := eq_or_ne i' i
  · have hLow := h.low
    rw [h.xoff] at hLow
    exact ⟨hLow, h.high.trans (hSlotted i' hi).2⟩
  · rw [h.xend i' hNe]
    exact hSlotted i' hi'

theorem Packs.adjacency (h : Packs g g' i) (hSlotted : g.Slotted) (hi : i < g.nv) {i' : Nat}
    (hi' : i' < g.nv) (hNe : i' ≠ i) : g'.adjacency i' = g.adjacency i' := by
  rw [Csr.adjacency, Csr.adjacency, h.xoff, h.xend i' hNe]
  refine cells_congr fun c hLow hHigh => h.outside c ?_
  rcases Nat.lt_or_gt_of_ne hNe with hLt | hGt
  · have hApart := hSlotted.xend_le hLt hi.le
    omega
  · have hApart := hSlotted.xend_le hGt hi'.le
    omega

structure PacksAll (g g' : Csr) (vertices : List Nat) : Prop where
  nv : g'.nv = g.nv
  xoff : g'.xoff = g.xoff
  slotted : g'.Slotted
  mem : ∀ i < g.nv, ∀ v, v ∈ g'.adjacency i ↔ v ∈ g.adjacency i
  ascending : ∀ i ∈ vertices, (g'.adjacency i).Pairwise (· < ·)

theorem PacksAll.step {vertices : List Nat} (h : PacksAll g g' vertices) (hIn : ∀ v ∈ vertices, v < g.nv)
    (hi : i < g.nv) : PacksAll g (packVtxEdges g' i) (vertices ++ [i]) := by
  have hi' : i < g'.nv := h.nv ▸ hi
  have hPacks := packVtxEdges_packs (h.slotted i hi').1
  refine ⟨hPacks.nv.trans h.nv, hPacks.xoff.trans h.xoff, hPacks.slotted h.slotted hi', ?_, ?_⟩
  · intro i' hIn' v
    rw [← h.mem i' hIn']
    obtain rfl | hNe := eq_or_ne i' i
    · exact hPacks.mem v
    · rw [hPacks.adjacency h.slotted hi' (h.nv ▸ hIn') hNe]
  · intro i' hMem
    obtain rfl | hNe := eq_or_ne i' i
    · exact hPacks.ascending
    · have hOld : i' ∈ vertices := by simpa [hNe] using hMem
      rw [hPacks.adjacency h.slotted hi' (h.nv ▸ hIn i' hOld) hNe]
      exact h.ascending i' hOld

theorem packEdges_packsAll (hSlotted : g.Slotted) {vertices : List Nat}
    (hIn : ∀ v ∈ vertices, v < g.nv) : PacksAll g (packEdges g vertices) vertices := by
  induction vertices using List.reverseRecOn with
  | nil => exact ⟨rfl, rfl, hSlotted, fun _ _ _ => Iff.rfl, fun i hi => absurd hi List.not_mem_nil⟩
  | append_singleton vertices i ih =>
    have hBefore := ih fun v hv => hIn v (List.mem_append_left [i] hv)
    rw [packEdges, List.foldl_append, List.foldl_cons, List.foldl_nil]
    exact hBefore.step (fun v hv => hIn v (List.mem_append_left [i] hv))
      (hIn i (List.mem_append_right vertices (List.mem_singleton_self i)))

theorem packEdges_outside (hSlotted : g.Slotted) {vertices : List Nat}
    (hIn : ∀ v ∈ vertices ++ [i], v < g.nv) {c : Nat} (hc : c < g.xoff i ∨ g.xoff (i + 1) ≤ c) :
    (packEdges g (vertices ++ [i])).xadj c = (packEdges g vertices).xadj c := by
  have hBefore := packEdges_packsAll hSlotted fun v hv => hIn v (List.mem_append_left [i] hv)
  have hi := hIn i (List.mem_append_right vertices (List.mem_singleton_self i))
  have hSlot := hBefore.slotted i (hBefore.nv ▸ hi)
  rw [hBefore.xoff] at hSlot
  have hPacks := packVtxEdges_packs (hBefore.slotted i (hBefore.nv ▸ hi)).1
  rw [packEdges, List.foldl_append, List.foldl_cons, List.foldl_nil, ← packEdges]
  refine hPacks.outside c ?_
  rw [hBefore.xoff]
  omega

end PackAll

end Trident.Graph500
