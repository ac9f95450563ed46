import Mathlib.Data.Prod.Lex
import Mathlib.Order.WellFounded
import Trident.Graph500.SearchLevels

/-! # Runs of the parallel search

Every step keeps the search at a level or takes it to the next, and lowers its rank.
-/

namespace Trident.Graph500

open Relation Transition BreadthFirst

section Ranks

/-- What is left of the search, of its round, and of its phase. -/
abbrev Rank := Nat ×ₗ Nat ×ₗ Nat

def rank (search round phase : Nat) : Rank := toLex (search, toLex (round, phase))

theorem rank_lt_iff {a b c a' b' c' : Nat} :
    rank a b c < rank a' b' c' ↔ a < a' ∨ a = a' ∧ (b < b' ∨ b = b' ∧ c < c') := by
  rw [rank, rank, Prod.Lex.toLex_lt_toLex, Prod.Lex.toLex_lt_toLex]

variable (g : Csr) (edges : List PackedEdge) (src d : Nat)

open Classical in
/-- The vertices that are not visited up to a level. -/
noncomputable def unvisited : Nat := ((Finset.range g.nv).filter fun v => ¬ Within edges src d v).card

/-- Whether the search goes on from a level of that size. -/
def rest (awake : Nat) : Nat := if awake = 0 then 0 else 1

variable {g edges src d}

theorem unvisited_succ_add_rest_le (hSearch : g.Searchable edges src) {awake : Nat}
    (hAwake : awake ≠ 0 → ∃ v, OnLevel edges src (d + 1) v) :
    unvisited g edges src (d + 1) + rest awake ≤ unvisited g edges src d := by
  classical
  have hSub : (Finset.range g.nv).filter (fun v => ¬ Within edges src (d + 1) v) ⊆
      (Finset.range g.nv).filter fun v => ¬ Within edges src d v :=
    Finset.monotone_filter_right _ fun v _ hv hEarly => hv hEarly.succ
  rw [rest]
  split
  · exact Finset.card_le_card hSub
  · rename_i hSome
    obtain ⟨v, hv⟩ := hAwake hSome
    refine Finset.card_lt_card (Finset.ssubset_iff_of_subset hSub |>.mpr ⟨v, ?_, ?_⟩)
    · exact Finset.mem_filter.mpr
        ⟨Finset.mem_range.mpr (hSearch.lt hv.within), (onLevel_succ_iff.mp hv).2⟩
    · rw [Finset.mem_filter, not_and_not_right]
      exact fun _ => hv.within

end Ranks

section Invariant

variable {nt : Nat} (g : Csr) (edges : List PackedEdge) (src : Nat)

inductive SearchAt : Search nt → Rank → Prop
  | test {d : Nat} {m : Memory} {edgesToCheck : Fin nt → Int} {awake : Nat}
      (h : InQueue g edges src d m awake) :
      SearchAt ⟨m, edgesToCheck, awake, .test⟩ (rank (unvisited g edges src d + rest awake) 3 0)
  | topDown {d : Nat} {m₀ m : Memory} {edgesToCheck : Fin nt → Int} {awake : Nat}
      {threads : Fin nt → Scan} (h : InQueue g edges src d m₀ awake) (hInv : TopDownInv g m₀ m threads) :
      SearchAt ⟨m, edgesToCheck, awake, .topDown m₀.k2 threads⟩
        (rank (unvisited g edges src d + 1) 2 (∑ t, (threads t).weight g m₀.vlist))
  | fillBitmap {d : Nat} {m₀ m : Memory} {edgesToCheck : Fin nt → Int} {awake : Nat}
      {threads : Fin nt → BitThread} (h : InQueue g edges src d m₀ awake)
      (hInv : BitInv m₀.tree (fun q => some (m₀.vlist q)) (List.range' m₀.k1 (m₀.k2 - m₀.k1)) m₀ m threads) :
      SearchAt ⟨m, edgesToCheck, awake, .fillBitmap threads⟩
        (rank (unvisited g edges src d + 1) 2 (∑ t, (threads t).weight nt m.next))
  | bottomUp {d : Nat} {m₀ m : Memory} {edgesToCheck : Fin nt → Int} {awake : Nat}
      {threads : Fin nt → BitThread} (h : InPast g edges src d m₀)
      (hInv : BitInv (bottomUpParent g m₀.past m₀.tree) (bottomUpTarget g m₀.past m₀.tree)
        (List.range g.nv) m₀ m threads) :
      SearchAt ⟨m, edgesToCheck, awake, .bottomUp threads⟩
        (rank (unvisited g edges src d + 1) 1 (∑ t, (threads t).weight nt m.next))
  | fillQueue {d : Nat} {m₀ m : Memory} {edgesToCheck : Fin nt → Int} {awake : Nat}
      {threads : Fin nt → Filler} (h : InNext g edges src d m₀ awake) (hk1 : m₀.k1 = 0)
      (hInv : FillInv (bitsBetween m₀.next 0 g.nv) m₀ m threads) :
      SearchAt ⟨m, edgesToCheck, awake, .fillQueue threads⟩
        (rank (unvisited g edges src d + rest awake) 4 (∑ t, (threads t).weight))

variable {g edges src} {s s' : Search nt} {r : Rank} {late : Finset (Fin nt)}

theorem searchAt_start (hSearch : g.Searchable edges src) (vlist : Nat → Nat) (past next : Bitmap) :
    ∃ r, SearchAt g edges src (startSearch g nt vlist past next src) r :=
  have hQueue : InQueue g edges src 0 (startSearch g nt vlist past next src).mem 1 :=
    inQueue_start hSearch vlist past next
  ⟨_, .test hQueue⟩

theorem SearchAt.step (hSearch : g.Searchable edges src) (hnt : 0 < nt) (h : SearchAt g edges src s r)
    (hStep : SearchStep g late s s') : ∃ r' < r, SearchAt g edges src s' r' := by
  cases hStep with
  | topDown m edgesToCheck awake share hAwake _ hShare =>
    cases h with
    | test hQueue =>
      rw [rest, if_neg hAwake]
      exact ⟨_, rank_lt_iff.mpr (Or.inr ⟨rfl, Or.inl (by omega)⟩), .topDown hQueue (topDownInv_start hShare)⟩
  | topDownTurn m m' edgesToCheck awake oldk2 threads threads' hTurn =>
    cases h with
    | topDown hQueue hInv =>
      exact ⟨_, rank_lt_iff.mpr (Or.inr ⟨rfl, Or.inr ⟨rfl, hInv.weight_lt hTurn⟩⟩),
        .topDown hQueue (hInv.step hTurn)⟩
  | topDownEnd m edgesToCheck awake oldk2 threads late hDone hFirst =>
    cases h with
    | topDown hQueue hInv =>
      rename_i d m₀
      have hNext := hQueue.topDown hSearch hInv hDone (frontierDegrees g { m with k1 := m₀.k2 })
      have hLess := unvisited_succ_add_rest_le hSearch hNext.exists_onLevel
      exact ⟨_, rank_lt_iff.mpr (Or.inl (by omega)), .test hNext⟩
  | bottomUp m edgesToCheck awake share hAwake _ hShare =>
    cases h with
    | test hQueue =>
      rw [rest, if_neg hAwake]
      exact ⟨_, rank_lt_iff.mpr (Or.inr ⟨rfl, Or.inl (by omega)⟩), .fillBitmap hQueue (bitInv_start hShare)⟩
  | fillBitmapTurn m m' edgesToCheck awake threads threads' hTurn =>
    cases h with
    | fillBitmap hQueue hInv =>
      refine ⟨_, rank_lt_iff.mpr (Or.inr ⟨rfl, Or.inr ⟨rfl, bitStep_weight_lt hTurn⟩⟩), .fillBitmap hQueue ?_⟩
      rw [hInv.vlist] at hTurn
      -- no place of the queue is taken twice
      exact hInv.step (List.nodup_range' 1) (fillVisit_visits _ _) hTurn
  | fillBitmapEnd m edgesToCheck awake threads hDone share hShare =>
    cases h with
    | fillBitmap hQueue hInv =>
      exact ⟨_, rank_lt_iff.mpr (Or.inr ⟨rfl, Or.inl (by omega)⟩),
        .bottomUp (hQueue.inPast hInv hDone) (bitInv_start hShare)⟩
  | bottomUpTurn m m' edgesToCheck awake threads threads' hTurn =>
    cases h with
    | bottomUp hPast hInv =>
      refine ⟨_, rank_lt_iff.mpr (Or.inr ⟨rfl, Or.inr ⟨rfl, bitStep_weight_lt hTurn⟩⟩), .bottomUp hPast ?_⟩
      rw [hInv.past] at hTurn
      exact hInv.step List.nodup_range (bottomUpVisit_visits _ _ _) hTurn
  | bottomUpAgain m edgesToCheck awake threads hDone hMany share hShare =>
    cases h with
    | bottomUp hPast hInv =>
      have hNext := hPast.inNext hSearch hInv hDone
      have hLess := unvisited_succ_add_rest_le hSearch (hNext.exists_onLevel hSearch)
      rw [rest, if_neg (Nat.ne_zero_of_lt hMany)] at hLess
      exact ⟨_, rank_lt_iff.mpr (Or.inl (by omega)), .bottomUp (hNext.inPast hSearch) (bitInv_start hShare)⟩
  | bottomUpEnd m edgesToCheck awake threads hDone hFew =>
    cases h with
    | bottomUp hPast hInv =>
      have hNext := hPast.inNext hSearch hInv hDone
      have hLess := unvisited_succ_add_rest_le hSearch (hNext.exists_onLevel hSearch)
      have hEmptied : InNext g edges src _ { m with k1 := 0, k2 := 0 } _ :=
        ⟨hNext.tree, hNext.level, hNext.awake⟩
      exact ⟨_, rank_lt_iff.mpr (Or.inl (by omega)), .fillQueue hEmptied rfl
        (fillInv_start hnt hSearch.longs.1 hSearch.longs.2 _ rfl _)⟩
  | fillQueueTurn m m' edgesToCheck awake threads threads' hTurn =>
    cases h with
    | fillQueue hNext hk1 hInv =>
      exact ⟨_, rank_lt_iff.mpr (Or.inr ⟨rfl, Or.inr ⟨rfl, fillStep_weight_lt hTurn⟩⟩),
        .fillQueue hNext hk1 (hInv.step hTurn)⟩
  | fillQueueEnd m edgesToCheck awake threads hDone =>
    cases h with
    | fillQueue hNext hk1 hInv =>
      exact ⟨_, rank_lt_iff.mpr (Or.inr ⟨rfl, Or.inl (by omega)⟩),
        .test (hNext.inQueue hSearch hk1 hInv hDone _)⟩

theorem SearchAt.isBfsTree (h : SearchAt g edges src s r) (hFinished : s.Finished) :
    IsBfsTree edges src s.mem.tree := by
  obtain ⟨hPhase, hAwake⟩ := hFinished
  cases h with
  | test hQueue =>
    obtain rfl : _ = 0 := hAwake
    exact hQueue.isBfsTree
  | topDown | fillBitmap | bottomUp | fillQueue => cases hPhase

theorem exists_shares (hnt : 0 < nt) (turns : List Nat) : ∃ share : Fin nt → List Nat, Shares share turns := by
  obtain ⟨nt, rfl⟩ := Nat.exists_eq_succ_of_ne_zero hnt.ne'
  refine ⟨fun t => if t = 0 then turns else [], ?_⟩
  rw [Shares, List.finRange_succ, List.flatMap_cons, if_pos rfl]
  have hRest : ((List.finRange nt).map Fin.succ).flatMap (fun t => if t = 0 then turns else []) = [] := by
    rw [List.flatMap_eq_nil_iff]
    intro t ht
    obtain ⟨t', _, rfl⟩ := List.mem_map.mp ht
    exact if_neg (Fin.succ_ne_zero t')
  rw [hRest, List.append_nil]

/-- The search stops only at its end, or where the threads part. -/
theorem SearchAt.exists_step (hSearch : g.Searchable edges src) (hnt : 0 < nt)
    (h : SearchAt g edges src s r) (hOn : ¬ s.Finished) (hTogether : ¬ s.Diverged) :
    ∃ s', SearchStep g ∅ s s' := by
  cases h with
  | test hQueue =>
    rename_i d m edgesToCheck awake
    have hAwake : awake ≠ 0 := fun hNone => hOn ⟨rfl, hNone⟩
    obtain ⟨share, hShare⟩ := exists_shares hnt (List.range' m.k1 (m.k2 - m.k1))
    rcases Classical.em (∀ t, Search.TopDown ⟨m, edgesToCheck, awake, .test⟩ t) with hAll | hSome
    · exact ⟨_, .topDown m edgesToCheck awake share hAwake hAll hShare⟩
    · rw [not_forall] at hSome
      refine ⟨_, .bottomUp m edgesToCheck awake share hAwake (fun t ht => ?_) hShare⟩
      exact hTogether ⟨rfl, hAwake, ⟨t, ht⟩, hSome⟩
  | topDown hQueue hInv =>
    rename_i d m₀ m edgesToCheck awake threads
    rcases Classical.em (∀ t, (threads t).phase = .finished) with hDone | hLeft
    · exact ⟨_, .topDownEnd m edgesToCheck awake m₀.k2 threads ∅ hDone ⟨⟨0, hnt⟩, Finset.notMem_empty _⟩⟩
    · obtain ⟨t, ht⟩ := not_forall.mp hLeft
      obtain ⟨⟨m', threads'⟩, hTurn⟩ :=
        hInv.exists_step hSearch.built.neighbours_lt hQueue.queue ht
      exact ⟨_, .topDownTurn m m' edgesToCheck awake m₀.k2 threads threads' hTurn⟩
  | fillBitmap hQueue hInv =>
    rename_i d m₀ m edgesToCheck awake threads
    rcases Classical.em (∀ t, (threads t).todo = [] ∧ (threads t).phase = .idle) with hDone | hLeft
    · obtain ⟨share, hShare⟩ := exists_shares hnt (List.range g.nv)
      exact ⟨_, .fillBitmapEnd m edgesToCheck awake threads hDone share hShare⟩
    · obtain ⟨t, ht⟩ := not_forall.mp hLeft
      obtain ⟨⟨m', threads'⟩, hTurn⟩ := exists_bitStep (m := m) ht
      exact ⟨_, .fillBitmapTurn m m' edgesToCheck awake threads threads' hTurn⟩
  | bottomUp hPast hInv =>
    rename_i d m₀ m edgesToCheck awake threads
    rcases Classical.em (∀ t, (threads t).todo = [] ∧ (threads t).phase = .idle) with hDone | hLeft
    · rcases Classical.em (∑ t, (threads t).count > g.nv / beta) with hMany | hFew
      · obtain ⟨share, hShare⟩ := exists_shares hnt (List.range g.nv)
        exact ⟨_, .bottomUpAgain m edgesToCheck awake threads hDone hMany share hShare⟩
      · exact ⟨_, .bottomUpEnd m edgesToCheck awake threads hDone hFew⟩
    · obtain ⟨t, ht⟩ := not_forall.mp hLeft
      obtain ⟨⟨m', threads'⟩, hTurn⟩ := exists_bitStep (m := m) ht
      exact ⟨_, .bottomUpTurn m m' edgesToCheck awake threads threads' hTurn⟩
  | fillQueue hNext hk1 hInv =>
    rename_i d m₀ m edgesToCheck awake threads
    rcases Classical.em (∀ t, (threads t).blocks = [] ∧ (threads t).storing = none) with hDone | hLeft
    · exact ⟨_, .fillQueueEnd m edgesToCheck awake threads hDone⟩
    · obtain ⟨t, ht⟩ := not_forall.mp hLeft
      obtain ⟨⟨m', threads'⟩, hTurn⟩ := exists_fillStep (m := m) ht
      exact ⟨_, .fillQueueTurn m m' edgesToCheck awake threads threads' hTurn⟩

end Invariant

section Agreement

variable {nt : Nat} {g : Csr} {s s' : Search nt}

def Search.Agreed (s : Search nt) : Prop := ∀ t t', s.edgesToCheck t = s.edgesToCheck t'

theorem SearchStep.agreed (hStep : SearchStep g ∅ s s') (h : s.Agreed) : s'.Agreed := by
  cases hStep with
  | topDownEnd m edgesToCheck awake oldk2 threads =>
    intro t t'
    exact congrArg (· - m.scoutCount) (h t t')
  | topDown | topDownTurn | bottomUp | fillBitmapTurn | fillBitmapEnd | bottomUpTurn | bottomUpAgain
  | bottomUpEnd | fillQueueTurn | fillQueueEnd => exact h

theorem Search.Agreed.together (h : s.Agreed) : ¬ s.Diverged := by
  rintro ⟨_, _, ⟨t, ht⟩, t', ht'⟩
  refine ht' ?_
  rw [Search.TopDown, h t' t]
  exact ht

end Agreement

end Trident.Graph500
