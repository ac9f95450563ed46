import Mathlib.Algebra.BigOperators.Fin
import Trident.Graph500.Offsets

/-! # Scattering the edges into their slots

Each call gets a cell of its own from the fetch-and-add, so it does not matter in which order
the cells are stored.
-/

namespace Trident.Graph500

open Relation Transition

section Slots

variable {ι : Type*} [Fintype ι] {nv : Nat} {xoff : Nat → Nat} {call : ι → Nat × Nat}

/-- The slots lie one behind the other, each with room for its calls. -/
structure Slots (nv : Nat) (xoff : Nat → Nat) (call : ι → Nat × Nat) : Prop where
  known : ∀ k, (call k).1 < nv
  room : ∀ i < nv, xoff i + (Finset.univ.filter fun k => (call k).1 = i).card ≤ xoff (i + 1)

theorem Slots.succ_le (h : Slots nv xoff call) {i i' : Nat} (hLt : i < i') (hi : i' ≤ nv) :
    xoff (i + 1) ≤ xoff i' := by
  induction i', hLt using Nat.le_induction with
  | base => exact Nat.le_refl _
  | succ i' hLe ih =>
    have hRoom := h.room i' (by omega)
    have hPrevious := ih (by omega)
    omega

theorem Slots.eq_of_cell (h : Slots nv xoff call) {i i' w : Nat} (hi : i < nv) (hi' : i' < nv)
    (hLow : xoff i ≤ w) (hHigh : w < xoff (i + 1)) (hLow' : xoff i' ≤ w)
    (hHigh' : w < xoff (i' + 1)) : i = i' := by
  rcases Nat.lt_trichotomy i i' with hLt | hEq | hGt
  · have hLe := h.succ_le hLt hi'.le
    omega
  · exact hEq
  · have hLe := h.succ_le hGt hi.le
    omega

end Slots

def ScatterPhase.cell? : ScatterPhase → Option Nat
  | .waiting => none
  | .placed w => some w
  | .stored w => some w

section Scatter

variable {ι : Type*} [Fintype ι] {nv : Nat} {xoff : Nat → Nat} {call : ι → Nat × Nat}
  {s t : ScatterState ι}

/-- The calls for a vertex that have got a cell. -/
def placedCalls (call : ι → Nat × Nat) (phase : ι → ScatterPhase) (i : Nat) : Finset ι :=
  Finset.univ.filter fun k => (call k).1 = i ∧ phase k ≠ .waiting

/-- Each vertex has filled its slot from the front, a cell for each of its calls. -/
structure ScatterInv (nv : Nat) (xoff : Nat → Nat) (call : ι → Nat × Nat) (s : ScatterState ι) :
    Prop where
  ends : ∀ i < nv, s.xend i = xoff i + (placedCalls call s.phase i).card
  inside : ∀ k w, (s.phase k).cell? = some w →
    xoff (call k).1 ≤ w ∧ w < s.xend (call k).1
  apart : ∀ k k' w, (s.phase k).cell? = some w → (s.phase k').cell? = some w → k = k'
  covered : ∀ i < nv, ∀ w, xoff i ≤ w → w < s.xend i →
    ∃ k, (call k).1 = i ∧ (s.phase k).cell? = some w
  stored : ∀ k w, s.phase k = .stored w → s.xadj w = (call k).2

theorem ScatterInv.xend_le (hSlots : Slots nv xoff call) (h : ScatterInv nv xoff call s) {i : Nat}
    (hi : i < nv) : s.xend i ≤ xoff (i + 1) := by
  have hRoom := hSlots.room i hi
  have hSub : (placedCalls call s.phase i).card ≤ (Finset.univ.filter fun k => (call k).1 = i).card :=
    Finset.card_le_card fun k hk => by
      rw [placedCalls, Finset.mem_filter] at hk
      exact Finset.mem_filter.mpr ⟨hk.1, hk.2.1⟩
  rw [h.ends i hi]
  omega

theorem ScatterInv.xend_lt (hSlots : Slots nv xoff call) (h : ScatterInv nv xoff call s) {k : ι}
    (hk : s.phase k = .waiting) : s.xend (call k).1 < xoff ((call k).1 + 1) := by
  have hi := hSlots.known k
  have hRoom := hSlots.room _ hi
  have hSub : (placedCalls call s.phase (call k).1).card <
      (Finset.univ.filter fun k' => (call k').1 = (call k).1).card := by
    refine Finset.card_lt_card ⟨fun k' hk' => ?_, fun hAll => ?_⟩
    · rw [placedCalls, Finset.mem_filter] at hk'
      exact Finset.mem_filter.mpr ⟨hk'.1, hk'.2.1⟩
    · have hIn := hAll (Finset.mem_filter.mpr ⟨Finset.mem_univ k, rfl⟩)
      rw [placedCalls, Finset.mem_filter] at hIn
      exact hIn.2.2 hk
  rw [h.ends _ hi]
  omega

theorem scatterStart_inv : ScatterInv nv xoff call (scatterStart nv xoff) where
  ends i hi := by simp [scatterStart, startEnds, placedCalls, hi]
  inside k w hCell := by cases hCell
  apart k k' w hCell := by cases hCell
  covered i hi w hLow hHigh := by
    simp only [scatterStart, startEnds, hi, if_true] at hHigh
    omega
  stored k w hStored := by cases hStored

theorem ScatterInv.mem_iff (h : ScatterInv nv xoff call s) (hAll : ∀ k, ∃ w, s.phase k = .stored w)
    {i : Nat} (hi : i < nv) (v : Int) :
    (∃ w, xoff i ≤ w ∧ w < s.xend i ∧ s.xadj w = v) ↔ ∃ k, (call k).1 = i ∧ v = (call k).2 := by
  constructor
  · rintro ⟨w, hLow, hHigh, rfl⟩
    obtain ⟨k, hCall, hCell⟩ := h.covered i hi w hLow hHigh
    obtain ⟨w', hStored⟩ := hAll k
    rw [hStored] at hCell
    cases hCell
    exact ⟨k, hCall, h.stored k w hStored⟩
  · rintro ⟨k, rfl, rfl⟩
    obtain ⟨w, hStored⟩ := hAll k
    obtain ⟨hLow, hHigh⟩ := h.inside k w (by rw [hStored]; rfl)
    exact ⟨w, hLow, hHigh, h.stored k w hStored⟩

variable [DecidableEq ι]

theorem placedCalls_update {phase : ι → ScatterPhase} {k : ι} (hk : phase k = .waiting) (w i : Nat) :
    (placedCalls call (Function.update phase k (.placed w)) i).card =
      (placedCalls call phase i).card + if (call k).1 = i then 1 else 0 := by
  split
  · rename_i hCall
    have hInsert : placedCalls call (Function.update phase k (.placed w)) i =
        insert k (placedCalls call phase i) := by
      ext k'
      obtain rfl | hNe := eq_or_ne k' k
      · simp [placedCalls, hCall]
      · simp [placedCalls, hNe]
    rw [hInsert, Finset.card_insert_of_notMem (by simp [placedCalls, hk])]
  · rename_i hCall
    have hSame : placedCalls call (Function.update phase k (.placed w)) i =
        placedCalls call phase i := by
      ext k'
      obtain rfl | hNe := eq_or_ne k' k
      · simp [placedCalls, hCall]
      · simp [placedCalls, hNe]
    rw [hSame, Nat.add_zero]

theorem ScatterInv.fetchAdd (hSlots : Slots nv xoff call) (h : ScatterInv nv xoff call s) {k : ι}
    (hk : s.phase k = .waiting) :
    ScatterInv nv xoff call (s.fetchAdd call k) := by
  have hRoom := h.xend_lt hSlots hk
  have hStart : xoff (call k).1 ≤ s.xend (call k).1 := by
    rw [h.ends _ (hSlots.known k)]
    omega
  have hGrow : ∀ i, s.xend i ≤ Function.update s.xend (call k).1 (s.xend (call k).1 + 1) i := by
    intro i
    obtain rfl | hNe := eq_or_ne i (call k).1
    · rw [Function.update_self]
      omega
    · rw [Function.update_of_ne hNe]
  -- no call has got the cell behind the end
  have hFresh : ∀ k', (s.phase k').cell? ≠ some (s.xend (call k).1) := by
    intro k' hCell
    obtain ⟨hLow, hHigh⟩ := h.inside k' _ hCell
    have hSame := hSlots.eq_of_cell (hSlots.known k') (hSlots.known k) hLow
      (hHigh.trans_le (h.xend_le hSlots (hSlots.known k'))) hStart hRoom
    rw [hSame] at hHigh
    omega
  constructor
  · intro i hi
    rw [ScatterState.fetchAdd_xend, ScatterState.fetchAdd_phase, placedCalls_update hk, ← Nat.add_assoc, ← h.ends i hi]
    obtain rfl | hNe := eq_or_ne i (call k).1
    · rw [Function.update_self, if_pos rfl]
    · rw [Function.update_of_ne hNe, if_neg hNe.symm, Nat.add_zero]
  · intro k' w hCell
    rw [ScatterState.fetchAdd_phase] at hCell
    rw [ScatterState.fetchAdd_xend]
    obtain rfl | hNe := eq_or_ne k' k
    · simp only [Function.update_self, ScatterPhase.cell?, Option.some_inj] at hCell ⊢
      omega
    · simp only [Function.update_of_ne hNe] at hCell
      obtain ⟨hLow, hHigh⟩ := h.inside k' w hCell
      exact ⟨hLow, hHigh.trans_le (hGrow _)⟩
  · intro k₁ k₂ w h₁ h₂
    rw [ScatterState.fetchAdd_phase] at h₁ h₂
    obtain rfl | hNe₁ := eq_or_ne k₁ k
    · obtain rfl | hNe₂ := eq_or_ne k₂ k₁
      · rfl
      · simp only [Function.update_self, Function.update_of_ne hNe₂] at h₁ h₂
        cases h₁
        exact absurd h₂ (hFresh k₂)
    · obtain rfl | hNe₂ := eq_or_ne k₂ k
      · simp only [Function.update_self, Function.update_of_ne hNe₁] at h₁ h₂
        cases h₂
        exact absurd h₁ (hFresh k₁)
      · simp only [Function.update_of_ne hNe₁, Function.update_of_ne hNe₂] at h₁ h₂
        exact h.apart k₁ k₂ w h₁ h₂
  · intro i hi w hLow hHigh
    rw [ScatterState.fetchAdd_xend] at hHigh
    rw [ScatterState.fetchAdd_phase]
    have hOld : w < s.xend i → ∃ k', (call k').1 = i ∧
        (Function.update s.phase k (.placed (s.xend (call k).1)) k').cell? = some w := by
      intro hLt
      obtain ⟨k', hCall, hCell⟩ := h.covered i hi w hLow hLt
      have hNe : k' ≠ k := by
        rintro rfl
        rw [hk] at hCell
        cases hCell
      exact ⟨k', hCall, by rwa [Function.update_of_ne hNe]⟩
    obtain rfl | hNe := eq_or_ne i (call k).1
    · simp only [Function.update_self] at hHigh
      cases Nat.lt_succ_iff_lt_or_eq.mp hHigh with
      | inl hLt => exact hOld hLt
      | inr hEq => exact ⟨k, rfl, by simp [hEq, ScatterPhase.cell?]⟩
    · simp only [Function.update_of_ne hNe] at hHigh
      exact hOld hHigh
  · intro k' w hStored
    rw [ScatterState.fetchAdd_phase] at hStored
    obtain rfl | hNe := eq_or_ne k' k
    · simp only [Function.update_self] at hStored
      cases hStored
    · simp only [Function.update_of_ne hNe] at hStored
      exact h.stored k' w hStored

theorem ScatterInv.store (h : ScatterInv nv xoff call s) {k : ι} {w : Nat}
    (hk : s.phase k = .placed w) : ScatterInv nv xoff call (s.store call k w) := by
  have hCells : ∀ k', ((s.store call k w).phase k').cell? = (s.phase k').cell? := by
    intro k'
    rw [ScatterState.store_phase]
    obtain rfl | hNe := eq_or_ne k' k
    · rw [Function.update_self, hk]
      rfl
    · rw [Function.update_of_ne hNe]
  have hPlaced : ∀ i, placedCalls call (s.store call k w).phase i =
      placedCalls call s.phase i := by
    intro i
    ext k'
    rw [placedCalls, placedCalls, Finset.mem_filter, Finset.mem_filter, ScatterState.store_phase]
    obtain rfl | hNe := eq_or_ne k' k
    · simp [hk]
    · rw [Function.update_of_ne hNe]
  constructor
  · intro i hi
    rw [hPlaced]
    exact h.ends i hi
  · intro k' w' hCell
    rw [hCells] at hCell
    exact h.inside k' w' hCell
  · intro k₁ k₂ w' h₁ h₂
    rw [hCells] at h₁ h₂
    exact h.apart k₁ k₂ w' h₁ h₂
  · intro i hi w' hLow hHigh
    obtain ⟨k', hCall, hCell⟩ := h.covered i hi w' hLow hHigh
    exact ⟨k', hCall, (hCells k').trans hCell⟩
  · intro k' w' hStored
    rw [ScatterState.store_phase] at hStored
    rw [ScatterState.store_xadj]
    obtain rfl | hNe := eq_or_ne k' k
    · simp only [Function.update_self, ScatterPhase.stored.injEq] at hStored
      subst hStored
      exact Function.update_self ..
    · simp only [Function.update_of_ne hNe] at hStored
      have hOther : w' ≠ w := by
        rintro rfl
        exact hNe (h.apart k' k w' (by rw [hStored]; rfl) (by rw [hk]; rfl))
      rw [Function.update_of_ne hOther]
      exact h.stored k' w' hStored

theorem ScatterInv.step (hSlots : Slots nv xoff call) (h : ScatterInv nv xoff call s)
    (hStep : ScatterStep call s t) : ScatterInv nv xoff call t := by
  cases hStep with
  | fetchAdd k hk => exact h.fetchAdd hSlots hk
  | store k w hk => exact h.store hk

theorem scatterInv_of_reaches (hSlots : Slots nv xoff call)
    (h : ReflTransGen (ScatterStep call) (scatterStart nv xoff) s) : ScatterInv nv xoff call s :=
  invariant_of_reaches (fun _ _ hInv hStep => hInv.step hSlots hStep) scatterStart_inv h

def ScatterPhase.weight : ScatterPhase → Nat
  | .waiting => 2
  | .placed _ => 1
  | .stored _ => 0

theorem scatterStep_ends : WellFounded fun t s : ScatterState ι => ScatterStep call s t := by
  refine wellFounded_of_decreasing (fun s => ∑ k, (s.phase k).weight) ?_
  intro s t hStep
  cases hStep with
  | fetchAdd k hk =>
    exact sum_update_lt ScatterPhase.weight s.phase (by rw [hk]; exact Nat.lt_succ_self 1)
  | store k w hk => exact sum_update_lt ScatterPhase.weight s.phase (by rw [hk]; exact Nat.one_pos)

end Scatter

section Sequential

variable {ι : Type*} [DecidableEq ι] {call : ι → Nat × Nat}

theorem stored_of_final {s : ScatterState ι} (hFinal : ∀ t, ¬ ScatterStep call s t) (k : ι) :
    ∃ w, s.phase k = .stored w := by
  cases hk : s.phase k with
  | waiting => exact absurd (ScatterStep.fetchAdd s k hk) (hFinal _)
  | placed w => exact absurd (ScatterStep.store s k w hk) (hFinal _)
  | stored w => exact ⟨w, rfl⟩

theorem reaches_foldl (call : ι → Nat × Nat) (calls : List ι) (s : ScatterState ι) (hNodup : calls.Nodup)
    (hWaiting : ∀ k ∈ calls, s.phase k = .waiting) :
    ∃ t, ReflTransGen (ScatterStep call) s t ∧
      (t.xend, t.xadj) = (calls.map call).foldl scatterEdge (s.xend, s.xadj) ∧
      (∀ k ∈ calls, ∃ w, t.phase k = .stored w) ∧ ∀ k ∉ calls, t.phase k = s.phase k := by
  induction calls generalizing s with
  | nil => exact ⟨s, ReflTransGen.refl, rfl, fun k hk => absurd hk List.not_mem_nil, fun _ _ => rfl⟩
  | cons k calls ih =>
    obtain ⟨hNotIn, hRest⟩ := List.nodup_cons.mp hNodup
    have hFirst : ScatterStep call s (s.fetchAdd call k) :=
      .fetchAdd s k (hWaiting k List.mem_cons_self)
    have hSecond : ScatterStep call (s.fetchAdd call k)
        ((s.fetchAdd call k).store call k (s.xend (call k).1)) :=
      .store _ k (s.xend (call k).1) (Function.update_self ..)
    have hPhase : ∀ k' ≠ k,
        ((s.fetchAdd call k).store call k (s.xend (call k).1)).phase k' = s.phase k' :=
      fun k' hNe => by
        rw [ScatterState.store_phase, Function.update_of_ne hNe, ScatterState.fetchAdd_phase,
          Function.update_of_ne hNe]
    obtain ⟨t, hReach, hFold, hStored, hOther⟩ := ih _ hRest fun k' hk' =>
      (hPhase k' (fun hEq => hNotIn (hEq ▸ hk'))).trans (hWaiting k' (List.mem_cons_of_mem k hk'))
    refine ⟨t, (ReflTransGen.head hFirst (ReflTransGen.head hSecond hReach)), hFold, ?_, ?_⟩
    · intro k' hk'
      cases List.mem_cons.mp hk' with
      | inl hEq =>
        rw [hEq, hOther k hNotIn]
        exact ⟨_, Function.update_self ..⟩
      | inr hIn => exact hStored k' hIn
    · intro k' hk'
      have hLater : k' ∉ calls := fun hIn => hk' (List.mem_cons_of_mem k hIn)
      exact (hOther k' hLater).trans (hPhase k' fun hEq => hk' (hEq ▸ List.mem_cons_self))

end Sequential

end Trident.Graph500
