import Mathlib.Tactic.Linarith
import Mathlib.Tactic.FieldSimp
import Trident.XsBench.Grids

/-! # When the three searches agree

The search of a nuclide's grid is the reference. The index table of the unionized grid is
reached through the points of the nuclide that lie in the part of the grid already passed;
the hash table brackets the search by what it finds at the two edges of a bin.
-/

namespace Trident.XsBench.NuclideGrids

open Bisect

open scoped List

variable (g : NuclideGrids)

def Selects (nuc : Nat) (pEnergy : ℚ) (k : Nat) : Prop :=
  Brackets (fun j => decide (pEnergy < g.energy nuc j)) 0 (g.nGridpoints - 1) k

section Reference

variable {g} {nuc : Nat} {pEnergy : ℚ} {k : Nat}

theorem energy_mono (hNuc : nuc < g.nIsotopes) {j : Nat} (hjk : j ≤ k) (hk : k < g.nGridpoints) :
    g.energy nuc j ≤ g.energy nuc k := g.sorted nuc hNuc j k hjk hk

theorem selects_iff : g.Selects nuc pEnergy k ↔ k + 1 < g.nGridpoints ∧
    (k = 0 ∨ g.energy nuc k ≤ pEnergy) ∧
    (k + 2 = g.nGridpoints ∨ pEnergy < g.energy nuc (k + 1)) := by
  have hTwo := g.two_le
  constructor
  · rintro ⟨_, hHigh, hLeft, hRight⟩
    refine ⟨by omega, ?_, ?_⟩
    · simpa using hLeft
    · rw [decide_eq_true_eq] at hRight
      exact hRight.imp_left fun hEnd => by omega
  · rintro ⟨hHigh, hLeft, hRight⟩
    refine ⟨Nat.zero_le k, by omega, ?_, ?_⟩
    · simpa using hLeft
    · rw [decide_eq_true_eq]
      exact hRight.imp_left fun hEnd => by omega

theorem gridSearchNuclide_selects :
    g.Selects nuc pEnergy (g.gridSearchNuclide pEnergy nuc 0 (g.nGridpoints - 1)) := by
  have hTwo := g.two_le
  exact bisect_brackets (by omega)

theorem Selects.unique (hNuc : nuc < g.nIsotopes) (h : g.Selects nuc pEnergy k) :
    k = g.gridSearchNuclide pEnergy nuc 0 (g.nGridpoints - 1) := by
  have hTwo := g.two_le
  refine Brackets.unique (fun i j hij hj hAbove => ?_) h gridSearchNuclide_selects
  rw [decide_eq_true_eq] at hAbove ⊢
  exact hAbove.trans_le (energy_mono hNuc hij (by omega))

theorem Selects.le_of_energy_le (hNuc : nuc < g.nIsotopes) (h : g.Selects nuc pEnergy k) {j : Nat}
    (hj : j + 1 < g.nGridpoints) (hEnergy : g.energy nuc j ≤ pEnergy) : j ≤ k := by
  obtain ⟨hHigh, _, hRight⟩ := selects_iff.mp h
  by_contra hLt
  have hAbove : pEnergy < g.energy nuc (k + 1) := hRight.resolve_left (by omega)
  have hMono : g.energy nuc (k + 1) ≤ g.energy nuc j := energy_mono hNuc (by omega) (by omega)
  linarith

theorem notLast_eq (hk : k + 1 < g.nGridpoints) : g.notLast k = k := by
  rw [notLast, if_neg (by omega)]

theorem lowIndex_nuclide {energyGrid : List GridPoint} {idx : Int} {hashBins : Nat} :
    g.lowIndex energyGrid idx hashBins pEnergy nuc .nuclide =
      some (g.gridSearchNuclide pEnergy nuc 0 (g.nGridpoints - 1)) := by
  rw [lowIndex, notLast_eq (selects_iff.mp gridSearchNuclide_selects).1]

end Reference

section HashTable

variable {g} {nuc : Nat} {pEnergy : ℚ}

theorem searchBetween_eq (hNuc : nuc < g.nIsotopes) {uLow uHigh : Nat} {e : ℚ}
    (hLow : uLow + 1 < g.nGridpoints) (hBin : pEnergy < e)
    (hHigh : uHigh = g.nGridpoints - 1 ∨ ∃ k, g.Selects nuc e k ∧ uHigh = k + 1) :
    g.notLast (g.searchBetween pEnergy nuc uLow uHigh) =
      if pEnergy ≤ g.energy nuc uLow then 0
      else g.gridSearchNuclide pEnergy nuc 0 (g.nGridpoints - 1) := by
  have hTwo := g.two_le
  rw [searchBetween]
  split
  · exact notLast_eq (by omega)
  · rename_i hAboveLow
    rw [not_le] at hAboveLow
    have hIn : uHigh < g.nGridpoints := by
      rcases hHigh with hEnd | ⟨k, hk, hEq⟩
      · omega
      · have := (selects_iff.mp hk).1
        omega
    split
    · rename_i hAboveHigh
      -- only the last point can lie below an energy of the bin
      have hEnd : uHigh = g.nGridpoints - 1 := by
        rcases hHigh with hEnd | ⟨k, hk, hEq⟩
        · exact hEnd
        · obtain ⟨hk1, _, hRight⟩ := selects_iff.mp hk
          rw [hEq] at hAboveHigh
          cases hRight with
          | inl hLast => omega
          | inr hAbove => exact absurd (hAboveHigh.trans_lt hBin) hAbove.not_gt
      rw [notLast, if_pos rfl]
      refine Selects.unique hNuc (selects_iff.mpr ⟨by omega, Or.inr ?_, Or.inl (by omega)⟩)
      have hMono : g.energy nuc (g.nGridpoints - 1 - 1) ≤ g.energy nuc uHigh :=
        energy_mono hNuc (by omega) hIn
      exact hMono.trans hAboveHigh
    · rename_i hBelowHigh
      rw [not_le] at hBelowHigh
      have hLt : uLow < uHigh := by
        by_contra hLe
        have hMono : g.energy nuc uHigh ≤ g.energy nuc uLow := energy_mono hNuc (by omega) (by omega)
        linarith
      have hSelects : g.Selects nuc pEnergy (g.gridSearchNuclide pEnergy nuc uLow uHigh) :=
        (bisect_brackets hLt).widen (Nat.zero_le _) (by omega)
          (decide_eq_false hAboveLow.not_gt) (decide_eq_true hBelowHigh)
      rw [notLast_eq (selects_iff.mp hSelects).1]
      exact hSelects.unique hNuc

/-- The energy is a point of the grid with points on both sides, and it is also the first point
or the edge of a bin. -/
def OnEdge (g : NuclideGrids) (hashBins nuc : Nat) (pEnergy : ℚ) : Prop :=
  ∃ j, 0 < j ∧ j + 1 < g.nGridpoints ∧ g.energy nuc j = pEnergy ∧
    (g.energy nuc 0 = pEnergy ∨ ∃ e : ℕ, e * (1 / (hashBins : ℚ)) = pEnergy)

theorem hash_bin {hashBins : Nat} (hBins : 1 ≤ hashBins) (hNonneg : 0 ≤ pEnergy) (hLt : pEnergy < 1) :
    ∃ e : ℕ, e < hashBins ∧ ⌊pEnergy / (1 / (hashBins : ℚ))⌋ = e ∧
      e * (1 / (hashBins : ℚ)) ≤ pEnergy ∧ pEnergy < (e + 1 : ℕ) * (1 / (hashBins : ℚ)) := by
  have hPos : (0 : ℚ) < hashBins := by exact_mod_cast hBins
  have hScaled : pEnergy / (1 / (hashBins : ℚ)) = pEnergy * hashBins := by
    rw [div_div_eq_mul_div, div_one]
  have hFloor : 0 ≤ ⌊pEnergy * hashBins⌋ := Int.floor_nonneg.mpr (mul_nonneg hNonneg hPos.le)
  obtain ⟨e, he⟩ := Int.eq_ofNat_of_zero_le hFloor
  have hLow : (e : ℚ) ≤ pEnergy * hashBins := by
    have h := Int.floor_le (pEnergy * hashBins)
    rw [he] at h
    exact_mod_cast h
  have hHigh : pEnergy * hashBins < ((e + 1 : ℕ) : ℚ) := by
    have h := Int.lt_floor_add_one (pEnergy * hashBins)
    rw [he] at h
    exact_mod_cast h
  refine ⟨e, ?_, by rw [hScaled, he], ?_, ?_⟩
  · have hBound : (e : ℚ) < hashBins := hLow.trans_lt (mul_lt_of_lt_one_left hPos hLt)
    exact_mod_cast hBound
  · rwa [mul_one_div, div_le_iff₀ hPos]
  · rwa [mul_one_div, lt_div_iff₀ hPos]

theorem hash_bin_unique {hashBins e e' : Nat} (hBins : 1 ≤ hashBins)
    (hLow : (e : ℚ) * (1 / (hashBins : ℚ)) ≤ e' * (1 / (hashBins : ℚ)))
    (hHigh : (e' : ℚ) * (1 / (hashBins : ℚ)) < (e + 1 : ℕ) * (1 / (hashBins : ℚ))) : e' = e := by
  have hPos : (0 : ℚ) < hashBins := by exact_mod_cast hBins
  have hWidth : 0 < 1 / (hashBins : ℚ) := one_div_pos.mpr hPos
  have hLe : (e : ℚ) ≤ e' := le_of_mul_le_mul_right hLow hWidth
  have hLt : (e' : ℚ) < (e + 1 : ℕ) := lt_of_mul_lt_mul_right hHigh hWidth.le
  have hLe' : e ≤ e' := by exact_mod_cast hLe
  have hLt' : e' < e + 1 := by exact_mod_cast hLt
  omega

theorem readPtr_generateHashTable (memory : Nat → ℚ) {hashBins e : Nat} (he : e < hashBins) :
    readPtr (g.generateHashTable memory hashBins) e nuc =
      some (g.gridSearchNuclide (e * (1 / (hashBins : ℚ))) nuc 0 (g.nGridpoints - 1)) := by
  rw [readPtr, if_pos (Int.natCast_nonneg e), Int.toNat_natCast, generateHashTable, List.getElem?_map,
    List.getElem?_range he]
  rfl

/-- The hash grid takes an energy on the lower bound of its bin for one below the whole grid. -/
theorem lowIndex_hash (hNuc : nuc < g.nIsotopes) (memory : Nat → ℚ) {hashBins e : Nat}
    (he : e < hashBins) (hBin : pEnergy < (e + 1 : ℕ) * (1 / (hashBins : ℚ))) :
    g.lowIndex (g.generateHashTable memory hashBins) e hashBins pEnergy nuc .hash =
      some (if pEnergy ≤ g.energy nuc
          (g.gridSearchNuclide (e * (1 / (hashBins : ℚ))) nuc 0 (g.nGridpoints - 1)) then 0
        else g.gridSearchNuclide pEnergy nuc 0 (g.nGridpoints - 1)) := by
  have hBound : g.Selects nuc (e * (1 / (hashBins : ℚ))) _ := gridSearchNuclide_selects
  have hLow := (selects_iff.mp hBound).1
  rw [lowIndex, readPtr_generateHashTable memory he]
  split
  · rename_i hLast
    exact congrArg some (searchBetween_eq hNuc hLow hBin (Or.inl rfl))
  · rename_i hLast
    have hNext : e + 1 < hashBins := by omega
    have hRead : readPtr (g.generateHashTable memory hashBins) ((e + 1 : ℕ) : Int) nuc = some _ :=
      readPtr_generateHashTable memory hNext
    rw [Nat.cast_add, Nat.cast_one] at hRead
    rw [hRead]
    exact congrArg some (searchBetween_eq hNuc hLow hBin
      (Or.inr ⟨_, gridSearchNuclide_selects, rfl⟩))

theorem lowIndex_hash_iff (hNuc : nuc < g.nIsotopes) (memory : Nat → ℚ) {hashBins : Nat}
    (hBins : 1 ≤ hashBins) (hNonneg : 0 ≤ pEnergy) (hLt : pEnergy < 1) :
    g.lowIndex (g.energyGrid memory hashBins .hash)
        (g.macroIndex (g.energyGrid memory hashBins .hash) hashBins pEnergy .hash) hashBins pEnergy
        nuc .hash = some (g.gridSearchNuclide pEnergy nuc 0 (g.nGridpoints - 1)) ↔
      ¬ g.OnEdge hashBins nuc pEnergy := by
  have hTwo := g.two_le
  obtain ⟨e, he, hFloor, hLow, hHigh⟩ := hash_bin hBins hNonneg hLt
  have hIndex : g.macroIndex (g.energyGrid memory hashBins .hash) hashBins pEnergy .hash = e := hFloor
  obtain ⟨k, hk⟩ : ∃ k, g.gridSearchNuclide pEnergy nuc 0 (g.nGridpoints - 1) = k := ⟨_, rfl⟩
  obtain ⟨u, hu⟩ : ∃ u, g.gridSearchNuclide (e * (1 / (hashBins : ℚ))) nuc 0 (g.nGridpoints - 1) = u :=
    ⟨_, rfl⟩
  have hSelects : g.Selects nuc pEnergy k := hk ▸ gridSearchNuclide_selects
  have hBound : g.Selects nuc (e * (1 / (hashBins : ℚ))) u := hu ▸ gridSearchNuclide_selects
  rw [hIndex, energyGrid, lowIndex_hash hNuc memory he hHigh, Option.some_inj, hk, hu]
  obtain ⟨hkIn, hkLow, _⟩ := selects_iff.mp hSelects
  obtain ⟨huIn, huLow, _⟩ := selects_iff.mp hBound
  split
  · rename_i hEdge
    constructor
    · rintro hZero ⟨j, hPos, hj, hEnergy, _⟩
      have hLe := hSelects.le_of_energy_le hNuc hj hEnergy.le
      omega
    · intro hNot
      by_contra hNe
      have hPos : 0 < k := Nat.pos_of_ne_zero (Ne.symm hNe)
      have hkEnergy : g.energy nuc k ≤ pEnergy := hkLow.resolve_left hPos.ne'
      cases huLow with
      | inl hFirst =>
        rw [hFirst] at hEdge
        have hMono : g.energy nuc 0 ≤ g.energy nuc k := energy_mono hNuc (Nat.zero_le _) (by omega)
        exact hNot ⟨k, hPos, hkIn, le_antisymm hkEnergy (hEdge.trans hMono),
          Or.inl (le_antisymm (hMono.trans hkEnergy) hEdge)⟩
      | inr huEnergy =>
        have hEq : e * (1 / (hashBins : ℚ)) = pEnergy := le_antisymm hLow (hEdge.trans huEnergy)
        have hUk : u = k := by
          rw [hEq] at hBound
          exact (hBound.unique hNuc).trans hk
        rw [hUk] at hEdge
        exact hNot ⟨k, hPos, hkIn, le_antisymm hkEnergy hEdge, Or.inr ⟨e, hEq⟩⟩
  · rename_i hInside
    refine iff_of_true rfl ?_
    rintro ⟨j, _, hj, hEnergy, hFirst | ⟨e', hEdge⟩⟩
    · refine hInside ?_
      rw [← hFirst]
      exact energy_mono hNuc (Nat.zero_le _) (by omega)
    · rw [← hEdge] at hLow hHigh
      have hSame : e' = e := hash_bin_unique hBins hLow hHigh
      rw [← hSame, hEdge] at hBound
      have hLe := hBound.le_of_energy_le hNuc hj hEnergy.le
      refine hInside ?_
      rw [← hEnergy]
      exact energy_mono hNuc hLe (by omega)

end HashTable

section UnionizedEnergies

theorem generateEnergyGrid_eq : g.generateEnergyGrid = ((List.range g.nIsotopes).flatMap fun i =>
    (List.range g.nGridpoints).map (g.energy i)).insertionSort (· ≤ ·) := by
  have hMap := fun points : List NuclideGridPoint => List.map_insertionSort
    (fun a b => a.energy ≤ b.energy) (· ≤ ·) NuclideGridPoint.energy points fun _ _ _ _ => Iff.rfl
  rw [generateEnergyGrid, hMap, List.map_flatMap]
  simp only [List.map_map]
  rfl

theorem sortedLE_generateEnergyGrid : g.generateEnergyGrid.SortedLE := by
  rw [generateEnergyGrid_eq]
  exact List.sortedLE_insertionSort

theorem length_generateEnergyGrid : g.generateEnergyGrid.length = g.nIsotopes * g.nGridpoints := by
  rw [generateEnergyGrid_eq, List.length_insertionSort, List.length_flatMap]
  simp

theorem mem_generateEnergyGrid {v : ℚ} :
    v ∈ g.generateEnergyGrid ↔ ∃ i < g.nIsotopes, ∃ j < g.nGridpoints, g.energy i j = v := by
  rw [generateEnergyGrid_eq, List.mem_insertionSort]
  simp

theorem energies_sublist {i : Nat} (hi : i < g.nIsotopes) :
    (List.range' 0 g.nGridpoints).map (g.energy i) <+ g.generateEnergyGrid := by
  have hOwn : ((List.range' 0 g.nGridpoints).map (g.energy i)).SortedLE := by
    rw [List.sortedLE_iff_pairwise, List.pairwise_map]
    refine List.Pairwise.imp_of_mem ?_ (List.pairwise_lt_range' (s := 0) (n := g.nGridpoints))
    intro j k _ hk hLt
    exact energy_mono hi hLt.le (by simpa using hk)
  refine List.sublist_of_subperm_of_sortedLE ?_ hOwn (sortedLE_generateEnergyGrid g)
  rw [generateEnergyGrid_eq, ← List.range_eq_range']
  refine List.Subperm.trans ?_ (List.perm_insertionSort _ _).symm.subperm
  have hMem : (List.range g.nGridpoints).map (g.energy i) ∈ (List.range g.nIsotopes).map fun i =>
      (List.range g.nGridpoints).map (g.energy i) := List.mem_map_of_mem (List.mem_range.mpr hi)
  exact (List.sublist_flatten_of_mem hMem).subperm

end UnionizedEnergies

section Cursors

variable {g} {i : Nat} {c : Cursor}

structure Cursor.Placed (g : NuclideGrids) (i : Nat) (c : Cursor) : Prop where
  idx_in : c.idxLow + 2 ≤ g.nGridpoints
  high : c.energyHigh = g.energy i (c.idxLow + 1)

theorem firstCursor_placed : (g.firstCursor i).Placed g i := ⟨g.two_le, rfl⟩

theorem advance_placed (h : c.Placed g i) (u : ℚ) : (g.advance i c u).Placed g i := by
  have hIn := h.idx_in
  rw [advance]
  split
  · exact h
  · split
    · exact h
    · exact ⟨by show c.idxLow + 1 + 2 ≤ g.nGridpoints; omega, rfl⟩

theorem foldl_placed (h : c.Placed g i) (us : List ℚ) : (us.foldl (g.advance i) c).Placed g i := by
  induction us generalizing c with
  | nil => exact h
  | cons u us ih => exact ih (advance_placed h u)

theorem foldl_le (h : c.Placed g i) {us : List ℚ} {v : ℚ} (hUs : ∀ u ∈ us, u ≤ v)
    (hLow : c.idxLow = 0 ∨ g.energy i c.idxLow ≤ v) :
    (us.foldl (g.advance i) c).idxLow = 0 ∨
      g.energy i (us.foldl (g.advance i) c).idxLow ≤ v := by
  induction us generalizing c with
  | nil => exact hLow
  | cons u us ih =>
    refine ih (advance_placed h u) (fun w hw => hUs w (List.mem_cons_of_mem u hw)) ?_
    have hu := hUs u List.mem_cons_self
    rw [advance]
    split
    · exact hLow
    · rename_i hReached
      split
      · exact hLow
      · rw [not_lt, h.high] at hReached
        exact Or.inr (hReached.trans hu)

theorem advance_passed (hi : i < g.nIsotopes) (h : c.Placed g i) {j : Nat} (hj : j < g.nGridpoints)
    (hStart : min j (g.nGridpoints - 1) ≤ c.idxLow + 1) :
    min (j + 1) (g.nGridpoints - 1) ≤ (g.advance i c (g.energy i j)).idxLow + 1 := by
  have hIn := h.idx_in
  rw [advance]
  split
  · rename_i hBelow
    rw [h.high] at hBelow
    have hPast : j < c.idxLow + 1 := by
      by_contra hLe
      have hMono : g.energy i (c.idxLow + 1) ≤ g.energy i j := energy_mono hi (by omega) hj
      linarith
    omega
  · split
    · omega
    · show min (j + 1) (g.nGridpoints - 1) ≤ c.idxLow + 1 + 1
      omega

theorem advance_mono (u : ℚ) : c.idxLow ≤ (g.advance i c u).idxLow := by
  rw [advance]
  split
  · exact Nat.le_refl _
  · split
    · exact Nat.le_refl _
    · exact Nat.le_succ _

theorem foldl_passed (hi : i < g.nIsotopes) (h : c.Placed g i) {us : List ℚ} {j m : Nat}
    (hSub : (List.range' j m).map (g.energy i) <+ us) (hIn : j + m ≤ g.nGridpoints)
    (hStart : min j (g.nGridpoints - 1) ≤ c.idxLow + 1) :
    min (j + m) (g.nGridpoints - 1) ≤ (us.foldl (g.advance i) c).idxLow + 1 := by
  induction us generalizing c j m with
  | nil =>
    cases m with
    | zero => exact hStart
    | succ m => simp [List.range'_succ] at hSub
  | cons u us ih =>
    have hPlaced := advance_placed h u
    cases m with
    | zero =>
      refine ih hPlaced (by simp) hIn ?_
      exact hStart.trans (Nat.succ_le_succ (advance_mono u))
    | succ m =>
      rw [List.range'_succ, List.map_cons] at hSub
      cases hSub with
      | cons _ hSkip =>
        have hRest : (List.range' j (m + 1)).map (g.energy i) <+ us := by
          rwa [List.range'_succ, List.map_cons]
        exact ih hPlaced hRest hIn (hStart.trans (Nat.succ_le_succ (advance_mono u)))
      | cons_cons _ hRest =>
        have hEnd := ih hPlaced hRest (by omega) (advance_passed hi h (by omega) hStart)
        rwa [Nat.add_right_comm, Nat.add_assoc] at hEnd

/-- After the part of the unionized grid that is not above an energy, the cursor stands where
the energy lies. One point may be missing at the end. -/
theorem foldl_selects (hi : i < g.nIsotopes) {before after : List ℚ} {v : ℚ}
    (hSplit : g.generateEnergyGrid = before ++ after) (hBefore : ∀ u ∈ before, u ≤ v)
    (hAfter : after.length ≤ 1 ∨ ∀ u ∈ after, v < u) :
    g.Selects i v (before.foldl (g.advance i) (g.firstCursor i)).idxLow := by
  have hPlaced : (before.foldl (g.advance i) (g.firstCursor i)).Placed g i :=
    foldl_placed firstCursor_placed before
  have hIn := hPlaced.idx_in
  have hLow := foldl_le (firstCursor_placed (g := g) (i := i)) hBefore (Or.inl rfl)
  refine selects_iff.mpr ⟨by omega, hLow, ?_⟩
  rw [or_iff_not_imp_left]
  intro hNotLast
  by_contra hReached
  rw [not_lt] at hReached
  have hOwn := energies_sublist g hi
  rw [hSplit, List.sublist_append_iff] at hOwn
  obtain ⟨passed, left, hEnergies, hPassed, hLeft⟩ := hOwn
  obtain ⟨js, ks, hRange, rfl, rfl⟩ := List.map_eq_append_iff.mp hEnergies
  obtain ⟨m, hm, rfl, rfl⟩ := List.range'_eq_append_iff.mp hRange
  have hMoved := foldl_passed hi firstCursor_placed hPassed (by omega) (by simp)
  -- the point after the cursor is one of those still to come
  cases hAfter with
  | inl hShort =>
    have hLength := hLeft.length_le
    simp only [List.length_map, List.length_range'] at hLength
    omega
  | inr hAbove =>
    refine absurd (hAbove _ (hLeft.subset (List.mem_map_of_mem ?_))) hReached.not_gt
    rw [List.mem_range'_1]
    omega

end Cursors

section UnionizedTable

variable {g} {nuc : Nat} {pEnergy : ℚ}

theorem getElem?_fillPtrs (cursors : Nat → Cursor) (us : List ℚ) (e : Nat) :
    (g.fillPtrs cursors us)[e]? = us[e]?.map fun u =>
      ⟨u, fun i => ((us.take (e + 1)).foldl (g.advance i) (cursors i)).idxLow⟩ := by
  induction us generalizing cursors e with
  | nil => rfl
  | cons u us ih =>
    cases e with
    | zero => rfl
    | succ e =>
      rw [fillPtrs, List.getElem?_cons_succ, List.getElem?_cons_succ, ih]
      rfl

theorem energyAbove_setGridPtrs (us : List ℚ) (k : Nat) :
    energyAbove pEnergy (g.setGridPtrs us) k = us[k]?.any fun u => decide (pEnergy < u) := by
  rw [energyAbove, setGridPtrs, getElem?_fillPtrs, Option.any_map]

structure BelowTie (g : NuclideGrids) (nuc : Nat) (pEnergy : ℚ) : Prop where
  three_le : 3 ≤ g.nGridpoints
  below : pEnergy < g.energy nuc 1
  least : ∀ i < g.nIsotopes, ∀ j < g.nGridpoints, g.energy nuc 1 ≤ g.energy i j

/-- The table has moved on at its first entry already, even if the energy lies below it. -/
theorem advance_first_eq_iff (hNuc : nuc < g.nIsotopes) {u : ℚ} (hMem : u ∈ g.generateEnergyGrid)
    (hLeast : ∀ v ∈ g.generateEnergyGrid, u ≤ v) (hBelow : pEnergy < u) :
    (g.advance nuc (g.firstCursor nuc) u).idxLow =
      g.gridSearchNuclide pEnergy nuc 0 (g.nGridpoints - 1) ↔ ¬ g.BelowTie nuc pEnergy := by
  have hTwo := g.two_le
  have hLe : ∀ i < g.nIsotopes, ∀ j < g.nGridpoints, u ≤ g.energy i j := fun i hi j hj =>
    hLeast _ ((mem_generateEnergyGrid g).mpr ⟨i, hi, j, hj, rfl⟩)
  have hZero : g.Selects nuc pEnergy 0 := selects_iff.mpr
    ⟨by omega, Or.inl rfl, Or.inr (hBelow.trans_le (hLe nuc hNuc 1 (by omega)))⟩
  rw [← hZero.unique hNuc, advance]
  split
  · rename_i hMore
    refine iff_of_true rfl fun hTie => ?_
    obtain ⟨i, hi, j, hj, rfl⟩ := (mem_generateEnergyGrid g).mp hMem
    exact absurd (hTie.least i hi j hj) hMore.not_ge
  · rename_i hReached
    split
    · rename_i hLast
      have hEnd : 0 = g.nGridpoints - 2 := hLast
      refine iff_of_true rfl fun hTie => ?_
      have := hTie.three_le
      omega
    · rename_i hInside
      have hNotEnd : 0 ≠ g.nGridpoints - 2 := hInside
      have hOne : g.energy nuc 1 ≤ u := not_lt.mp hReached
      refine iff_of_false (Nat.succ_ne_zero 0) (not_not.mpr ?_)
      exact ⟨by omega, hBelow.trans_le (hLe nuc hNuc 1 (by omega)),
        fun i hi j hj => hOne.trans (hLe i hi j hj)⟩

theorem readPtr_setGridPtrs {us : List ℚ} {e : Nat} (he : e < us.length) :
    readPtr (g.setGridPtrs us) e nuc =
      some ((us.take (e + 1)).foldl (g.advance nuc) (g.firstCursor nuc)).idxLow := by
  rw [readPtr, if_pos (Int.natCast_nonneg e), Int.toNat_natCast, setGridPtrs, getElem?_fillPtrs,
    List.getElem?_eq_getElem he]
  rfl

/-- The search of the unionized grid cuts it at the energy, except that its last entry is never
passed and its first one always is. -/
theorem gridSearch_cut {us : List ℚ} (hSorted : us.SortedLE) (hMany : 2 ≤ us.length) :
    ∃ e, gridSearch us.length pEnergy (g.setGridPtrs us) = e ∧ e + 1 < us.length ∧
      ((∀ u ∈ us.take (e + 1), u ≤ pEnergy) ∧
          ((us.drop (e + 1)).length ≤ 1 ∨ ∀ u ∈ us.drop (e + 1), pEnergy < u) ∨
        e = 0 ∧ ∀ u ∈ us, pEnergy < u) := by
  obtain ⟨e, he⟩ : ∃ e, gridSearch us.length pEnergy (g.setGridPtrs us) = e := ⟨_, rfl⟩
  have hBrackets : Brackets (energyAbove pEnergy (g.setGridPtrs us)) 0 (us.length - 1) e :=
    he ▸ bisect_brackets (by omega)
  obtain ⟨_, heHigh, heLeft, heRight⟩ := hBrackets
  have heIn : e < us.length := by omega
  have heNext : e + 1 < us.length := by omega
  rw [energyAbove_setGridPtrs, List.getElem?_eq_getElem heIn] at heLeft
  rw [energyAbove_setGridPtrs, List.getElem?_eq_getElem heNext] at heRight
  simp only [Option.any_some, decide_eq_true_eq, decide_eq_false_iff_not, not_lt] at heLeft heRight
  have hMono : ∀ {j k : Nat} (hk : k < us.length) (hjk : j ≤ k), us[j] ≤ us[k] := fun _ hjk =>
    hSorted.getElem_le_getElem_of_le hjk
  have hFirst : us[0] ≤ us[e] := hMono heIn (Nat.zero_le e)
  refine ⟨e, he, heNext, ?_⟩
  cases le_or_gt us[0] pEnergy with
  | inl hReached =>
    have heEnergy : us[e] ≤ pEnergy := by
      rcases heLeft with rfl | hLe
      · exact hReached
      · exact hLe
    refine Or.inl ⟨fun u hu => ?_, heRight.imp (fun hEnd => ?_) fun hAbove u hu => ?_⟩
    · obtain ⟨k, hk, rfl⟩ := List.mem_take_iff_getElem.mp hu
      exact (hMono heIn (by omega)).trans heEnergy
    · rw [List.length_drop]
      omega
    · obtain ⟨k, hk, rfl⟩ := List.mem_drop_iff_getElem.mp hu
      exact hAbove.trans_le (hMono _ (Nat.le_add_right _ _))
  | inr hBelow =>
    refine Or.inr ⟨heLeft.resolve_right fun hLe => ?_, fun u hu => ?_⟩
    · exact absurd (hFirst.trans hLe) hBelow.not_ge
    · obtain ⟨k, hk, rfl⟩ := List.getElem_of_mem hu
      exact hBelow.trans_le (hMono hk (Nat.zero_le k))

theorem lowIndex_unionized_iff (hNuc : nuc < g.nIsotopes) (memory : Nat → ℚ) (hashBins : Nat) :
    g.lowIndex (g.energyGrid memory hashBins .unionized)
        (g.macroIndex (g.energyGrid memory hashBins .unionized) hashBins pEnergy .unionized) hashBins
        pEnergy nuc .unionized = some (g.gridSearchNuclide pEnergy nuc 0 (g.nGridpoints - 1)) ↔
      ¬ g.BelowTie nuc pEnergy := by
  have hTwo := g.two_le
  have hMany : 2 ≤ g.generateEnergyGrid.length := by
    rw [length_generateEnergyGrid]
    exact hTwo.trans (Nat.le_mul_of_pos_left _ (by omega))
  obtain ⟨e, he, heNext, hCut⟩ : ∃ e, gridSearch g.generateEnergyGrid.length pEnergy
      (g.setGridPtrs g.generateEnergyGrid) = e ∧ _ :=
    gridSearch_cut (sortedLE_generateEnergyGrid g) hMany
  have hIndex : g.macroIndex (g.energyGrid memory hashBins .unionized) hashBins pEnergy .unionized
      = e := by
    rw [macroIndex, energyGrid, ← length_generateEnergyGrid, he]
  have hIn := (foldl_placed (firstCursor_placed (g := g) (i := nuc))
    (g.generateEnergyGrid.take (e + 1))).idx_in
  rw [hIndex, energyGrid, lowIndex, readPtr_setGridPtrs (by omega), Option.map_some,
    notLast_eq (by omega), Option.some_inj]
  rcases hCut with ⟨hBefore, hAfter⟩ | ⟨rfl, hBelow⟩
  · have hSelects := foldl_selects hNuc (List.take_append_drop (e + 1) _).symm hBefore hAfter
    refine iff_of_true (hSelects.unique hNuc) fun hTie => ?_
    obtain ⟨u, hu⟩ := List.exists_mem_of_length_pos
      (l := g.generateEnergyGrid.take (e + 1)) (by rw [List.length_take]; omega)
    obtain ⟨i, hi, j, hj, rfl⟩ := (mem_generateEnergyGrid g).mp (List.mem_of_mem_take hu)
    have hLe := hBefore _ hu
    have hLeast := hTie.least i hi j hj
    have hBelow := hTie.below
    linarith
  · cases hUs : g.generateEnergyGrid with
    | nil =>
      rw [hUs] at hMany
      cases hMany
    | cons u us =>
      have hMem : u ∈ g.generateEnergyGrid := hUs ▸ List.mem_cons_self
      refine advance_first_eq_iff hNuc hMem (fun v hv => ?_) (hBelow u hMem)
      have hSorted := (sortedLE_generateEnergyGrid g).pairwise
      rw [hUs] at hSorted hv
      rcases List.mem_cons.mp hv with rfl | hv
      · exact le_refl _
      · exact (List.pairwise_cons.mp hSorted).1 v hv

end UnionizedTable

/-- The interval that a lookup interpolates in, with the table and the index of its grid type. -/
def lookup (memory : Nat → ℚ) (hashBins : Nat) (pEnergy : ℚ) (nuc : Nat) (gridType : GridType) :
    Option Nat :=
  let energyGrid := g.energyGrid memory hashBins gridType
  g.lowIndex energyGrid (g.macroIndex energyGrid hashBins pEnergy gridType) hashBins pEnergy nuc
    gridType

def microXs (memory : Nat → ℚ) (hashBins : Nat) (pEnergy : ℚ) (nuc : Nat) (gridType : GridType) :
    Option XsVector :=
  let energyGrid := g.energyGrid memory hashBins gridType
  g.calculateMicroXs energyGrid (g.macroIndex energyGrid hashBins pEnergy gridType) hashBins pEnergy
    gridType nuc

/-- The three grid types interpolate in one interval, so that they give the same cross sections. -/
structure SameLookup (memory : Nat → ℚ) (hashBins : Nat) (pEnergy : ℚ) (nuc : Nat) : Prop where
  interval : ∃ low, low + 1 < g.nGridpoints ∧
    ∀ gridType, g.lookup memory hashBins pEnergy nuc gridType = some low
  xs : ∀ gridType gridType', g.microXs memory hashBins pEnergy nuc gridType =
    g.microXs memory hashBins pEnergy nuc gridType'

section Agreement

variable {g} {memory : Nat → ℚ} {hashBins nuc : Nat} {pEnergy : ℚ}

theorem microXs_eq_bind (gridType : GridType) :
    g.microXs memory hashBins pEnergy nuc gridType =
      (g.lookup memory hashBins pEnergy nuc gridType).bind fun low =>
        interpolate pEnergy (g.point nuc low) (g.point nuc (low + 1)) := rfl

/-- The unionized grid goes wrong below a least energy that stands twice in the nuclide, the hash
grid on a point of the nuclide that is also the edge of a bin or the first point; otherwise the
three lookups are one. -/
theorem sameLookup_iff (g : NuclideGrids) (memory : Nat → ℚ) (hNuc : nuc < g.nIsotopes)
    (hBins : 1 ≤ hashBins) (hNonneg : 0 ≤ pEnergy) (hLt : pEnergy < 1) :
    g.SameLookup memory hashBins pEnergy nuc ↔
      ¬ g.BelowTie nuc pEnergy ∧ ¬ g.OnEdge hashBins nuc pEnergy := by
  have hNuclide : g.lookup memory hashBins pEnergy nuc .nuclide =
      some (g.gridSearchNuclide pEnergy nuc 0 (g.nGridpoints - 1)) := by
    simp only [lookup, lowIndex_nuclide]
  have hUnionized : g.lookup memory hashBins pEnergy nuc .unionized = some _ ↔
      ¬ g.BelowTie nuc pEnergy := lowIndex_unionized_iff hNuc memory hashBins
  have hHash : g.lookup memory hashBins pEnergy nuc .hash = some _ ↔
      ¬ g.OnEdge hashBins nuc pEnergy := lowIndex_hash_iff hNuc memory hBins hNonneg hLt
  constructor
  · rintro ⟨⟨low, _, hAll⟩, _⟩
    have hLow : low = g.gridSearchNuclide pEnergy nuc 0 (g.nGridpoints - 1) :=
      Option.some_inj.mp ((hAll .nuclide).symm.trans hNuclide)
    rw [hLow] at hAll
    exact ⟨hUnionized.mp (hAll .unionized), hHash.mp (hAll .hash)⟩
  · rintro ⟨hTie, hEdge⟩
    have hAll : ∀ gridType, g.lookup memory hashBins pEnergy nuc gridType =
        some (g.gridSearchNuclide pEnergy nuc 0 (g.nGridpoints - 1)) := by
      intro gridType
      cases gridType with
      | unionized => exact hUnionized.mpr hTie
      | nuclide => exact hNuclide
      | hash => exact hHash.mpr hEdge
    refine ⟨⟨_, (selects_iff.mp gridSearchNuclide_selects).1, hAll⟩, fun gridType gridType' => ?_⟩
    rw [microXs_eq_bind, microXs_eq_bind, hAll, hAll]

theorem calculateMacroXs_congr {mat : List (Nat × ℚ)}
    (h : ∀ nuclide ∈ mat, g.SameLookup memory hashBins pEnergy nuclide.1)
    (gridType gridType' : GridType) :
    g.calculateMacroXs (g.energyGrid memory hashBins gridType) hashBins pEnergy gridType mat =
      g.calculateMacroXs (g.energyGrid memory hashBins gridType') hashBins pEnergy gridType' mat := by
  rw [calculateMacroXs, calculateMacroXs]
  generalize XsVector.zero = macroXs
  induction mat generalizing macroXs with
  | nil => rfl
  | cons nuclide mat ih =>
    have hSame : g.calculateMicroXs _ _ hashBins pEnergy gridType nuclide.1 =
        g.calculateMicroXs _ _ hashBins pEnergy gridType' nuclide.1 :=
      (h nuclide List.mem_cons_self).xs gridType gridType'
    rw [List.foldlM_cons, List.foldlM_cons, hSame]
    refine congrArg _ (funext fun next => ?_)
    exact ih (fun n hn => h n (List.mem_cons_of_mem nuclide hn)) next

end Agreement

def quarters : NuclideGrids where
  nIsotopes := 1
  nGridpoints := 4
  point _ j := ⟨j / 4, j * j, j, 1, 2, 3⟩
  two_le := by decide
  sorted := by
    intro i _ j k hjk _
    have hCast : (j : ℚ) ≤ k := by exact_mod_cast hjk
    show (j : ℚ) / 4 ≤ k / 4
    linarith

theorem quarters_sameLookup : quarters.SameLookup (fun _ => 0) 2 (1 / 3) 0 ↔
    ¬ quarters.BelowTie 0 (1 / 3) ∧ ¬ quarters.OnEdge 2 0 (1 / 3) :=
  sameLookup_iff quarters _ (by decide) (by decide) (by norm_num) (by norm_num)

/-- At 1/2, a point of the grid and the edge of the second of two bins, the hash grid
extrapolates from the first interval. -/
theorem quarters_hash_edge : ¬ quarters.SameLookup (fun _ => 0) 2 (1 / 2) 0 ∧
    quarters.lookup (fun _ => 0) 2 (1 / 2) 0 .nuclide = some 2 ∧
    quarters.lookup (fun _ => 0) 2 (1 / 2) 0 .hash = some 0 ∧
    (quarters.microXs (fun _ => 0) 2 (1 / 2) 0 .nuclide).map XsVector.total = some 4 ∧
    (quarters.microXs (fun _ => 0) 2 (1 / 2) 0 .hash).map XsVector.total = some 2 := by
  have hNuclide : quarters.lookup (fun _ => 0) 2 (1 / 2) 0 .nuclide = some 2 := by decide +kernel
  have hHash : quarters.lookup (fun _ => 0) 2 (1 / 2) 0 .hash = some 0 := by decide +kernel
  refine ⟨?_, hNuclide, hHash, by decide +kernel, by decide +kernel⟩
  rintro ⟨⟨low, _, hAll⟩, _⟩
  have hTwo := Option.some_inj.mp ((hAll .nuclide).symm.trans hNuclide)
  have hZero := Option.some_inj.mp ((hAll .hash).symm.trans hHash)
  omega

end Trident.XsBench.NuclideGrids
