import Trident.Gapbs.DeltaRelax

/-! # Runs of delta-stepping

Between the barriers the bins that have won the vote move into the frontier, each thread's into cells
of its own. So every run ends with the distances, unless a copy does not fit into the frontier.
-/

namespace Trident.Gapbs

open Relation Transition BlockQueue Distances

section Copies

variable (nextBin : Nat)

/-- The cells that a thread has reserved and not yet filled. -/
def Copier.hold (s : Copier) : Option (Nat × List Nat) :=
  match s.phase with
  | .copying copyStart => some (copyStart, s.localBins.bin nextBin)
  | _ => none

/-- The entries for which a thread has not yet reserved cells. -/
def Copier.rest (s : Copier) : List Nat :=
  match s.phase with
  | .copying _ | .waiting => []
  | _ => s.localBins.bin nextBin

def Copier.items (s : Copier) : Nat :=
  match s.phase with
  | .copying _ => s.localBins.size - (s.localBins.bin nextBin).length
  | _ => s.localBins.size

def CopyPhase.rank : CopyPhase → Nat
  | .arriving => 6
  | .single => 5
  | .resetting => 4
  | .testing => 3
  | .adding => 2
  | .copying _ => 1
  | .waiting => 0

theorem Bins.bin_clear (bins : Bins) (i j : Nat) :
    Bins.bin (bins.set i []) j = if j = i then [] else bins.bin j := by
  rcases Nat.lt_or_ge i bins.length with hi | hi
  · exact Bins.bin_set hi []
  · rw [List.set_eq_of_length_le hi]
    split
    · rename_i hSame
      by_contra hNot
      exact absurd (Bins.lt_length hNot) (by omega)
    · rfl

theorem Bins.size_clear (bins : Bins) (i : Nat) :
    Bins.size (bins.set i []) + (bins.bin i).length = bins.size := by
  rcases Nat.lt_or_ge i bins.length with hi | hi
  · exact Bins.size_set hi []
  · have hNil : bins.bin i = [] := by
      by_contra hNot
      exact absurd (Bins.lt_length hNot) (by omega)
    rw [List.set_eq_of_length_le hi, hNil]
    rfl

variable {nt : Nat} (g : WGraph) (src : Nat) (delta : Int) (iter : Nat) (bins : Fin nt → Bins)

/-- How far the thread in the single block has come; at the end both cells of the last bin are reset. -/
def Resets (m : Shared) (threads : Fin nt → Copier) : Prop :=
  (m.single = false ∧ ∀ t, (threads t).phase = .arriving) ∨
    m.single = true ∧ ((∃ t, (threads t).phase = .single) ∨
      m.sharedIndexes (iter % 2) = kMaxBin ∧ ((∃ t, (threads t).phase = .resetting) ∨
        m.frontierTails (iter % 2) = 0))

/-- The cells of the new frontier, with what the threads hold. -/
def CopyQueue (target : Nat → Nat) (m : Shared) (threads : Fin nt → Copier) : Prop :=
  ∃ queue, Queued 0 (m.frontierTails ((iter + 1) % 2)) m.frontier (Copier.hold nextBin ∘ threads) queue ∧
    Accounts queue (Copier.rest nextBin ∘ threads) target

structure CopyInv (m : Shared) (threads : Fin nt → Copier) : Prop where
  dist : DistOk g src m.dist
  nextBin_eq : m.sharedIndexes ((iter + 1) % 2) = nextBin
  entries : ∀ t, BinsOk g delta nextBin m.dist (bins t)
  covered : ∀ u, m.dist u < kDistInf → ∀ wn ∈ g.outNeigh u 0,
    m.dist wn.v ≤ m.dist u + wn.w ∨ ∃ t, u ∈ (bins t).bin (destBin delta (m.dist u))
  vote : nextBin = kMaxBin ∨ ∃ t, (bins t).bin nextBin ≠ []
  before : ∀ t, (threads t).phase ≠ .waiting → (threads t).localBins = bins t
  after : ∀ t, (threads t).phase = .waiting → (threads t).localBins = (bins t).set nextBin []
  queue : CopyQueue nextBin iter (fun v => ∑ t, ((bins t).bin nextBin).count v) m threads
  resets : Resets iter m threads

variable {nextBin g src delta iter bins} {m m' : Shared} {threads threads' : Fin nt → Copier}
  {t : Fin nt} {s next : Copier}

theorem copyStep_frame (hStep : copyStep g iter m s = some (m', next)) :
    m'.dist = m.dist ∧ m'.sharedIndexes ((iter + 1) % 2) = m.sharedIndexes ((iter + 1) % 2) ∧
      s.phase ≠ .waiting := by
  have hOther : (iter + 1) % 2 ≠ iter % 2 := by omega
  obtain ⟨bins, phase⟩ := s
  cases phase with
  | arriving =>
    rw [copyStep] at hStep
    dsimp only at hStep
    split at hStep <;> cases hStep <;> exact ⟨rfl, rfl, nofun⟩
  | single =>
    cases hStep
    exact ⟨rfl, Function.update_of_ne hOther _ _, nofun⟩
  | testing =>
    rw [copyStep] at hStep
    dsimp only at hStep
    split at hStep <;> cases hStep <;> exact ⟨rfl, rfl, nofun⟩
  | copying =>
    rw [copyStep] at hStep
    dsimp only at hStep
    split at hStep <;> cases hStep
    exact ⟨rfl, rfl, nofun⟩
  | resetting | adding =>
    cases hStep
    exact ⟨rfl, rfl, nofun⟩
  | waiting => cases hStep

/-- A thread's bins stay as they are until it waits. -/
theorem copyStep_bins (hNext : m.sharedIndexes ((iter + 1) % 2) = nextBin)
    (hStep : copyStep g iter m s = some (m', next)) :
    (next.phase ≠ .waiting → next.localBins = s.localBins) ∧
      (next.phase = .waiting → next.localBins = s.localBins.set nextBin []) := by
  obtain ⟨bins, phase⟩ := s
  cases phase with
  | arriving =>
    rw [copyStep] at hStep
    dsimp only at hStep
    split at hStep <;> cases hStep <;> exact ⟨fun _ => rfl, nofun⟩
  | testing =>
    rw [copyStep] at hStep
    dsimp only at hStep
    rw [hNext] at hStep
    split at hStep
    · cases hStep
      exact ⟨fun _ => rfl, nofun⟩
    · rename_i hOut
      cases hStep
      exact ⟨fun hNot => absurd rfl hNot, fun _ => (List.set_eq_of_length_le (not_lt.mp hOut)).symm⟩
  | copying =>
    rw [copyStep] at hStep
    dsimp only at hStep
    split at hStep <;> cases hStep
    exact ⟨fun hNot => absurd rfl hNot, fun _ => by rw [hNext]⟩
  | single | resetting | adding =>
    cases hStep
    exact ⟨fun _ => rfl, nofun⟩
  | waiting => cases hStep

theorem CopyQueue.quiet {target : Nat → Nat} (h : CopyQueue nextBin iter target m threads)
    (hTail : m'.frontierTails ((iter + 1) % 2) = m.frontierTails ((iter + 1) % 2))
    (hFrontier : m'.frontier = m.frontier) (hHold : next.hold nextBin = (threads t).hold nextBin)
    (hRest : next.rest nextBin = (threads t).rest nextBin) :
    CopyQueue nextBin iter target m' (Function.update threads t next) := by
  obtain ⟨queue, hQueued, hAccounts⟩ := h
  refine ⟨queue, ?_, ?_⟩
  · rw [hTail, hFrontier, comp_update_eq _ _ hHold]
    exact hQueued
  · rw [comp_update_eq _ _ hRest]
    exact hAccounts

theorem copyStep_queue {target : Nat → Nat} (hNext : m.sharedIndexes ((iter + 1) % 2) = nextBin)
    (hStep : copyStep g iter m (threads t) = some (m', next)) (h : CopyQueue nextBin iter target m threads) :
    CopyQueue nextBin iter target m' (Function.update threads t next) := by
  have hOther : (iter + 1) % 2 ≠ iter % 2 := by omega
  obtain ⟨⟨localBins, phase⟩, hThread⟩ : ∃ s, threads t = s := ⟨_, rfl⟩
  rw [hThread, copyStep] at hStep
  cases phase with
  | arriving =>
    dsimp only at hStep
    split at hStep <;> cases hStep <;> exact h.quiet rfl rfl (by rw [hThread]; rfl) (by rw [hThread]; rfl)
  | single =>
    cases hStep
    exact h.quiet rfl rfl (by rw [hThread]; rfl) (by rw [hThread]; rfl)
  | resetting =>
    cases hStep
    exact h.quiet (Function.update_of_ne hOther _ _) rfl (by rw [hThread]; rfl) (by rw [hThread]; rfl)
  | testing =>
    dsimp only at hStep
    rw [hNext] at hStep
    split at hStep
    · cases hStep
      exact h.quiet rfl rfl (by rw [hThread]; rfl) (by rw [hThread]; rfl)
    · rename_i hOut
      cases hStep
      refine h.quiet rfl rfl (by rw [hThread]; rfl) ?_
      rw [hThread]
      by_contra hBin
      exact hOut (Bins.lt_length (Ne.symm hBin))
  | adding =>
    dsimp only at hStep
    rw [hNext] at hStep
    cases hStep
    obtain ⟨queue, hQueued, hAccounts⟩ := h
    have hFree : (Copier.hold nextBin ∘ threads) t = none := by
      rw [Function.comp_apply, hThread]
      rfl
    have hSplit : ((Copier.rest nextBin ∘ threads) t).Perm (localBins.bin nextBin ++ []) := by
      rw [Function.comp_apply, hThread, List.append_nil]
      exact List.Perm.refl _
    refine ⟨queue ++ localBins.bin nextBin, ?_, ?_⟩
    · dsimp only
      rw [Function.comp_update, Function.update_self]
      exact hQueued.reserve hFree _
    · rw [Function.comp_update]
      exact hAccounts.reserve hSplit
  | copying copyStart =>
    dsimp only at hStep
    rw [hNext] at hStep
    split at hStep <;> cases hStep
    obtain ⟨queue, hQueued, hAccounts⟩ := h
    have hHeld : (Copier.hold nextBin ∘ threads) t = some (copyStart, localBins.bin nextBin) := by
      rw [Function.comp_apply, hThread]
      rfl
    refine ⟨queue, ?_, ?_⟩
    · rw [Function.comp_update]
      exact hQueued.store hHeld
    · rw [comp_update_eq _ _ (by rw [hThread]; rfl)]
      exact hAccounts
  | waiting => cases hStep

theorem copyStep_resets (hStep : copyStep g iter m (threads t) = some (m', next))
    (h : Resets iter m threads) : Resets iter m' (Function.update threads t next) := by
  have hOther : ∀ {phase : CopyPhase}, (threads t).phase ≠ phase → (∃ t', (threads t').phase = phase) →
      ∃ t', (Function.update threads t next t').phase = phase := by
    rintro phase hNot ⟨t', ht'⟩
    refine ⟨t', ?_⟩
    rwa [Function.update_of_ne]
    rintro rfl
    exact hNot ht'
  have hSelf : ∃ t', (Function.update threads t next t').phase = next.phase :=
    ⟨t, by rw [Function.update_self]⟩
  have hCells : iter % 2 ≠ (iter + 1) % 2 := by omega
  obtain ⟨⟨localBins, phase⟩, hThread⟩ : ∃ s, threads t = s := ⟨_, rfl⟩
  rw [hThread] at hOther
  rw [hThread, copyStep] at hStep
  rcases h with ⟨hNone, hAll⟩ | ⟨hSingle, hRest⟩
  · obtain rfl : phase = .arriving := by
      have hPhase := hAll t
      rwa [hThread] at hPhase
    dsimp only at hStep
    rw [if_neg (by rw [hNone]; exact Bool.false_ne_true)] at hStep
    cases hStep
    exact Or.inr ⟨rfl, Or.inl hSelf⟩
  · cases phase with
    | arriving =>
      dsimp only at hStep
      rw [if_pos hSingle] at hStep
      cases hStep
      exact Or.inr ⟨hSingle, hRest.imp (hOther nofun) (And.imp_right (Or.imp_left (hOther nofun)))⟩
    | single =>
      cases hStep
      exact Or.inr ⟨hSingle, Or.inr ⟨Function.update_self .., Or.inl hSelf⟩⟩
    | resetting =>
      cases hStep
      exact Or.inr ⟨hSingle, hRest.imp (hOther nofun) (And.imp_right fun _ => Or.inr (Function.update_self ..))⟩
    | testing =>
      dsimp only at hStep
      split at hStep <;> cases hStep <;>
        exact Or.inr ⟨hSingle, hRest.imp (hOther nofun) (And.imp_right (Or.imp_left (hOther nofun)))⟩
    | adding =>
      cases hStep
      refine Or.inr ⟨hSingle, hRest.imp (hOther nofun) (And.imp_right (Or.imp (hOther nofun) fun hTail => ?_))⟩
      dsimp only
      rwa [Function.update_of_ne hCells]
    | copying =>
      dsimp only at hStep
      split at hStep <;> cases hStep
      exact Or.inr ⟨hSingle, hRest.imp (hOther nofun) (And.imp_right (Or.imp_left (hOther nofun)))⟩
    | waiting => cases hStep

theorem CopyInv.step (h : CopyInv nextBin g src delta iter bins m threads)
    (hStep : copyStep g iter m (threads t) = some (m', next)) :
    CopyInv nextBin g src delta iter bins m' (Function.update threads t next) := by
  obtain ⟨hDist, hBin, hBusy⟩ := copyStep_frame hStep
  obtain ⟨hBefore, hAfter⟩ := copyStep_bins h.nextBin_eq hStep
  rw [h.before t hBusy] at hBefore hAfter
  constructor
  case dist =>
    rw [hDist]
    exact h.dist
  case nextBin_eq => exact hBin.trans h.nextBin_eq
  case entries =>
    rw [hDist]
    exact h.entries
  case covered =>
    rw [hDist]
    exact h.covered
  case vote => exact h.vote
  case before =>
    intro t' hPhase
    obtain rfl | hNe := eq_or_ne t' t
    · rw [Function.update_self] at hPhase ⊢
      exact hBefore hPhase
    · rw [Function.update_of_ne hNe] at hPhase ⊢
      exact h.before t' hPhase
  case after =>
    intro t' hPhase
    obtain rfl | hNe := eq_or_ne t' t
    · rw [Function.update_self] at hPhase ⊢
      exact hAfter hPhase
    · rw [Function.update_of_ne hNe] at hPhase ⊢
      exact h.after t' hPhase
  case queue => exact copyStep_queue h.nextBin_eq hStep h.queue
  case resets => exact copyStep_resets hStep h.resets

/-- A copy moves entries from a bin into the frontier, and none is lost. -/
theorem copyStep_items (hNext : m.sharedIndexes ((iter + 1) % 2) = nextBin)
    (hStep : copyStep g iter m s = some (m', next)) :
    m'.frontierTails ((iter + 1) % 2) + next.items nextBin =
      m.frontierTails ((iter + 1) % 2) + s.items nextBin ∧ next.phase.rank < s.phase.rank := by
  have hOther : (iter + 1) % 2 ≠ iter % 2 := by omega
  obtain ⟨bins, phase⟩ := s
  have hClear := Bins.size_clear bins nextBin
  rw [copyStep] at hStep
  cases phase with
  | arriving =>
    dsimp only at hStep
    split at hStep <;> cases hStep
    · exact ⟨rfl, show 3 < 6 by decide⟩
    · exact ⟨rfl, Nat.lt_succ_self 5⟩
  | single =>
    cases hStep
    exact ⟨rfl, Nat.lt_succ_self 4⟩
  | resetting =>
    cases hStep
    refine ⟨?_, Nat.lt_succ_self 3⟩
    dsimp only
    rw [Function.update_of_ne hOther]
    rfl
  | testing =>
    dsimp only at hStep
    split at hStep <;> cases hStep
    · exact ⟨rfl, Nat.lt_succ_self 2⟩
    · exact ⟨rfl, Nat.succ_pos 2⟩
  | adding =>
    dsimp only at hStep
    rw [hNext] at hStep
    cases hStep
    refine ⟨?_, Nat.lt_succ_self 1⟩
    simp only [Function.update_self, Copier.items]
    omega
  | copying =>
    dsimp only at hStep
    rw [hNext] at hStep
    split at hStep <;> cases hStep
    refine ⟨?_, Nat.zero_lt_one⟩
    simp only [Copier.items]
    omega
  | waiting => cases hStep

theorem overflow_of_none (hBusy : s.phase ≠ .waiting) (hNone : copyStep g iter m s = none) :
    ∃ copyStart, s.phase = .copying copyStart ∧
      g.numEdgesDirected < copyStart + (s.localBins.bin (m.sharedIndexes ((iter + 1) % 2))).length := by
  obtain ⟨bins, phase⟩ := s
  rw [copyStep] at hNone
  cases phase with
  | arriving | testing =>
    dsimp only at hNone
    split at hNone <;> cases hNone
  | single | resetting | adding => cases hNone
  | copying copyStart =>
    dsimp only at hNone
    split at hNone
    · cases hNone
    · rename_i hOver
      exact ⟨copyStart, rfl, not_le.mp hOver⟩
  | waiting => exact absurd rfl hBusy

/-- What the frontier holds when all threads wait. -/
theorem CopyInv.frontier (h : CopyInv nextBin g src delta iter bins m threads)
    (hDone : ∀ t, (threads t).phase = .waiting) :
    ∀ v, (∃ c < m.frontierTails ((iter + 1) % 2), m.frontier c = v) ↔ ∃ t, v ∈ (bins t).bin nextBin := by
  obtain ⟨queue, hQueued, hAccounts⟩ := h.queue
  have hCells := hQueued.cells_eq fun t => by
    rw [Function.comp_apply, Copier.hold, hDone t]
  have hCount := hAccounts.queue_count fun t => by
    rw [Function.comp_apply, Copier.rest, hDone t]
  rw [Nat.sub_zero, ← List.range_eq_range'] at hCells
  intro v
  have hMem : v ∈ queue ↔ ∃ t, v ∈ (bins t).bin nextBin := by
    rw [← List.count_pos_iff, hCount, Finset.sum_pos_iff]
    simp only [Finset.mem_univ, true_and, List.count_pos_iff]
  rw [← hMem, ← hCells, List.mem_map]
  simp only [List.mem_range]

end Copies

section Runs

variable {nt : Nat} (g : WGraph) (src : Nat) (delta : Int) (room : Bins → Bool)

def DeltaRun.Ok (s : DeltaRun nt) : Prop :=
  match s.stage with
  | .relaxing threads => ∃ b tail, RelaxInv g src delta s.iter b tail s.mem.frontier s.mem threads
  | .copying threads => ∃ nextBin bins, CopyInv nextBin g src delta s.iter bins s.mem threads
  | .finished => DistOk g src s.mem.dist ∧ ∀ u, s.mem.dist u < kDistInf → ∀ wn ∈ g.outNeigh u 0,
    s.mem.dist wn.v ≤ s.mem.dist u + wn.w

def DeltaRun.rank (s : DeltaRun nt) : Nat ×ₗ Nat ×ₗ Nat :=
  match s.stage with
  | .relaxing threads => relaxRank g (s.mem.frontierTails (s.iter % 2)) s.mem threads
  | .copying threads =>
    toLex (∑ v ∈ Finset.range g.numNodes, (s.mem.dist v).toNat,
      toLex (3 * (s.mem.frontierTails ((s.iter + 1) % 2) +
          ∑ t, (threads t).items (s.mem.sharedIndexes ((s.iter + 1) % 2))) + 1,
        ∑ t, (threads t).phase.rank))
  | .finished => toLex (∑ v ∈ Finset.range g.numNodes, (s.mem.dist v).toNat, toLex (0, 0))

variable {g src delta room} {m m' : Shared} {iter : Nat}

theorem rank_lt_of_second {n a a' w w' : Nat} (h : a' < a) :
    toLex (n, toLex (a', w')) < toLex (n, toLex (a, w)) :=
  Prod.Lex.toLex_lt_toLex.mpr (Or.inr ⟨rfl, Prod.Lex.toLex_lt_toLex.mpr (Or.inl h)⟩)

theorem RelaxInv.firstBarrier {b tail : Nat} {frontier : Nat → Nat} {threads : Fin nt → Relaxer}
    (h : RelaxInv g src delta iter b tail frontier m threads) (hTeam : 0 < nt)
    (hVoted : ∀ t, (threads t).phase = .voted) :
    CopyInv (m.sharedIndexes ((iter + 1) % 2)) g src delta iter (fun t => (threads t).localBins)
      { m with single := false } fun t => ⟨(threads t).localBins, .arriving⟩ where
  dist := h.memory.dist
  nextBin_eq := rfl
  entries t := by
    exact { (h.ok t).bins with index := (h.voted t (hVoted t)).2.2 }
  covered u hu wn hwn := by
    have hNext : m.next = tail := (h.voted ⟨0, hTeam⟩ (hVoted _)).2.1
    rcases h.covered u hu wn hwn with hRelaxed | ⟨_, c, hLow, hHigh, _⟩ | ⟨t, hBin | ⟨_, c, hc, _⟩ | hPhase⟩
    · exact Or.inl hRelaxed
    · omega
    · exact Or.inr ⟨t, hBin⟩
    · rw [(h.voted t (hVoted t)).1] at hc
      cases hc
    · rw [hVoted t] at hPhase
      exact hPhase.elim
  vote := h.vote.imp_right fun ⟨t, _, hBin⟩ => ⟨t, hBin⟩
  before _ _ := rfl
  after _ hPhase := by cases hPhase
  queue := by
    refine ⟨[], ?_, fun v => ?_⟩
    · dsimp only
      rw [h.memory.nextTail]
      exact queued_nil 0 m.frontier
    · rw [List.count_nil, Nat.zero_add]
      rfl
  resets := Or.inl ⟨rfl, fun _ => rfl⟩

theorem CopyInv.secondBarrier {nextBin : Nat} {bins : Fin nt → Bins} {threads : Fin nt → Copier}
    (hTeam : 0 < nt) (hDelta : 0 < delta) (h : CopyInv nextBin g src delta iter bins m threads)
    (hDone : ∀ t, (threads t).phase = .waiting) (hMore : nextBin ≠ kMaxBin) :
    RelaxInv g src delta (iter + 1) nextBin (m.frontierTails ((iter + 1) % 2)) m.frontier
      { m with next := 0 } fun t => ⟨[], 0, [], (threads t).localBins, .turn⟩ := by
  have hCell : (iter + 1 + 1) % 2 = iter % 2 := by omega
  have hFrontier := h.frontier hDone
  obtain ⟨hIndex, hTail⟩ : m.sharedIndexes (iter % 2) = kMaxBin ∧ m.frontierTails (iter % 2) = 0 := by
    rcases h.resets with ⟨_, hAll⟩ | ⟨_, ⟨t, ht⟩ | ⟨hIndex, ⟨t, ht⟩ | hTail⟩⟩
    · exact absurd (hAll ⟨0, hTeam⟩) (by rw [hDone]; exact nofun)
    · exact absurd ht (by rw [hDone]; exact nofun)
    · exact absurd ht (by rw [hDone]; exact nofun)
    · exact ⟨hIndex, hTail⟩
  have hBins : ∀ t i, ((threads t).localBins).bin i = if i = nextBin then [] else (bins t).bin i := by
    intro t i
    rw [h.after t (hDone t), Bins.bin_clear]
  constructor
  case memory =>
    obtain ⟨winner, hWon⟩ := h.vote.resolve_left hMore
    refine ⟨h.dist, h.nextBin_eq, (h.entries winner).fits nextBin (Bins.lt_length hWon), rfl, hCell ▸ hTail,
      rfl, fun c hc => ?_, Nat.zero_le _⟩
    obtain ⟨t, ht⟩ := (hFrontier (m.frontier c)).mp ⟨c, hc, rfl⟩
    exact (h.entries t).entry nextBin _ ht
  case ok =>
    refine fun t => ⟨nofun, List.nil_suffix, ⟨fun i hi => ?_, fun i hi => ?_, fun i v hv => ?_⟩, rfl⟩
    · dsimp only at hi
      rw [hBins t i] at hi
      split at hi
      · exact absurd rfl hi
      · exact (h.entries t).index i hi
    · dsimp only at hi
      rw [h.after t (hDone t), List.length_set] at hi
      exact (h.entries t).fits i hi
    · dsimp only at hv
      rw [hBins t i] at hv
      split at hv
      · cases hv
      · exact (h.entries t).entry i v hv
  case covered =>
    intro u hu wn hwn
    rcases h.covered u hu wn hwn with hRelaxed | ⟨t, ht⟩
    · exact Or.inl hRelaxed
    · by_cases hBin : destBin delta (m.dist u) = nextBin
      · obtain ⟨c, hc, hEq⟩ := (hFrontier u).mpr ⟨t, hBin ▸ ht⟩
        refine Or.inr (Or.inl ⟨?_, c, Nat.zero_le c, hc, hEq⟩)
        exact (le_destBin_iff hDelta (h.dist.nonneg u) hu).mp hBin.ge
      · refine Or.inr (Or.inr ⟨t, Or.inl ?_⟩)
        dsimp only
        rwa [hBins, if_neg hBin]
  case voted => exact nofun
  case vote => exact Or.inl (hCell ▸ hIndex)

/-- The bin that has won the vote is not empty. -/
theorem CopyInv.tail_pos {nextBin : Nat} {bins : Fin nt → Bins} {threads : Fin nt → Copier}
    (h : CopyInv nextBin g src delta iter bins m threads) (hDone : ∀ t, (threads t).phase = .waiting)
    (hMore : nextBin ≠ kMaxBin) : 0 < m.frontierTails ((iter + 1) % 2) := by
  obtain ⟨t, hBin⟩ := h.vote.resolve_left hMore
  obtain ⟨v, hv⟩ := List.exists_mem_of_ne_nil _ hBin
  obtain ⟨c, hc, _⟩ := (h.frontier hDone v).mpr ⟨t, hv⟩
  exact Nat.zero_lt_of_lt hc

theorem CopyInv.finish {nextBin : Nat} {bins : Fin nt → Bins} {threads : Fin nt → Copier}
    (h : CopyInv nextBin g src delta iter bins m threads) (hDelta : 0 < delta) (hLast : nextBin = kMaxBin) {u : Nat}
    (hu : m.dist u < kDistInf) {wn : NodeWeight Int} (hwn : wn ∈ g.outNeigh u 0) :
    m.dist wn.v ≤ m.dist u + wn.w := by
  apply (h.covered u hu wn hwn).resolve_right
  rintro ⟨t, ht⟩
  have hBin := List.ne_nil_of_mem ht
  have hFrom := (h.entries t).index _ hBin
  have hBelow := lt_max_of_mul_le hDelta ((h.entries t).fits _ (Bins.lt_length hBin))
  omega

theorem deltaStep_spec {s t : DeltaRun nt} (hSource : src < g.numNodes) (hDelta : 0 < delta)
    (hWeights : g.WeightsFit) (hTeam : 0 < nt) (h : s.Ok g src delta) (hStep : DeltaStep g delta room s t) :
    t.Ok g src delta ∧ t.rank g < s.rank g := by
  cases hStep with
  | relax m m' iter threads threads' hTurn =>
    obtain ⟨b, tail, hInv⟩ := h
    obtain ⟨i, next, hNext, rfl⟩ := hTurn
    have hSpec := relaxStep_spec hSource hDelta hWeights hInv.memory (hInv.ok i) hNext
    have hAfter := hInv.step hSource hDelta hWeights hNext
    refine ⟨⟨b, tail, ?_⟩, ?_⟩
    · dsimp only at hAfter ⊢
      rw [hSpec.memory.frontier_eq]
      exact hAfter
    · have hRank := relaxRank_lt hSpec
      dsimp only [DeltaRun.rank] at hRank ⊢
      rw [hSpec.memory.tail_eq, hInv.memory.tail_eq]
      exact hRank
  | firstBarrier m iter threads hVoted =>
    obtain ⟨b, tail, hInv⟩ := h
    refine ⟨⟨_, _, hInv.firstBarrier hTeam hVoted⟩, ?_⟩
    have hNext : m.next = tail := (hInv.voted ⟨0, hTeam⟩ (hVoted _)).2.1
    have hTodo : ∑ t, (threads t).todo.length = 0 := by
      apply Finset.sum_eq_zero
      intro t _
      rw [(hInv.voted t (hVoted t)).1, List.length_nil]
    have hItems : ∀ t, (threads t).items = (threads t).localBins.size := by
      intro t
      rw [Relaxer.items, (hInv.voted t (hVoted t)).1, hVoted t]
      exact Nat.zero_add _
    apply rank_lt_of_second
    rw [hInv.memory.tail_eq, hInv.memory.nextTail, hNext, Nat.sub_self, hTodo, if_pos rfl,
      Finset.sum_congr rfl fun t _ => hItems t]
    exact Nat.lt_succ_self _
  | copy m m' iter threads threads' hTurn =>
    obtain ⟨nextBin, bins, hInv⟩ := h
    obtain ⟨i, next, hNext, rfl⟩ := hTurn
    refine ⟨⟨nextBin, bins, hInv.step hNext⟩, ?_⟩
    obtain ⟨hDist, hBin, _⟩ := copyStep_frame hNext
    obtain ⟨hEntries, hLess⟩ := copyStep_items hInv.nextBin_eq hNext
    have hItems := sum_update_add (Copier.items nextBin) threads i next
    have hRanks := sum_update_lt (fun s : Copier => s.phase.rank) threads hLess
    dsimp only [DeltaRun.rank] at hBin hEntries ⊢
    rw [hDist, hBin, hInv.nextBin_eq]
    apply Prod.Lex.toLex_lt_toLex.mpr
    refine Or.inr ⟨rfl, Prod.Lex.toLex_lt_toLex.mpr (Or.inr ⟨?_, hRanks⟩)⟩
    dsimp only at hEntries hItems ⊢
    omega
  | secondBarrier m iter threads hDone hMore =>
    obtain ⟨nextBin, bins, hInv⟩ := h
    have hPos := hInv.tail_pos hDone (hInv.nextBin_eq ▸ hMore)
    have hAfter := hInv.secondBarrier hTeam hDelta hDone (hInv.nextBin_eq ▸ hMore)
    refine ⟨⟨_, _, hAfter⟩, ?_⟩
    have hItems : ∀ t, (threads t).items nextBin = (threads t).localBins.size := by
      intro t
      rw [Copier.items, hDone t]
    have hNew : ∀ t, Relaxer.items ⟨[], 0, [], (threads t).localBins, .turn⟩ = (threads t).localBins.size :=
      fun t => Nat.zero_add _
    have hLeft : m.frontierTails ((iter + 1) % 2) - 0 + ∑ t : Fin nt, ([] : List Nat).length ≠ 0 := by
      dsimp only at hPos
      omega
    apply rank_lt_of_second
    rw [hInv.nextBin_eq, if_neg hLeft, Finset.sum_congr rfl fun t _ => hItems t,
      Finset.sum_congr rfl fun t _ => hNew t]
    exact Nat.lt_succ_self _
  | finish m iter threads hDone hLast =>
    obtain ⟨nextBin, bins, hInv⟩ := h
    refine ⟨⟨hInv.dist, fun u hu wn hwn => hInv.finish hDelta (hInv.nextBin_eq ▸ hLast) hu hwn⟩, ?_⟩
    apply rank_lt_of_second
    exact Nat.succ_pos _

theorem deltaStart_ok (hWeights : g.WeightsFit) (src : Nat) (hDelta : 0 < delta) (frontier : Nat → Nat) :
    (deltaStart nt frontier src).Ok g src delta := by
  have hZero : 0 < kDistInf := by decide
  have hFirst : delta * (0 : Nat) = 0 := Int.mul_zero delta
  have hMax : 0 ≤ g.maxDist := le_min (Int.le_sub_one_of_lt hZero) (Finset.sum_nonneg hWeights.row_nonneg)
  have hIndex : Function.update (fun _ => kMaxBin) 0 0 (0 % 2) = 0 := Function.update_self ..
  have hTail : Function.update (fun _ => 0) 0 1 (0 % 2) = 1 := Function.update_self ..
  refine ⟨0, 1, ?_⟩
  dsimp only [deltaStart]
  constructor
  case memory =>
    refine ⟨startDist_ok g src, hIndex, hFirst.trans_le hMax, hTail,
      Function.update_of_ne Nat.one_ne_zero 1 fun _ => 0, rfl, fun c hc => ?_, Nat.zero_le _⟩
    obtain rfl : c = 0 := Nat.lt_one_iff.mp hc
    dsimp only
    rw [Function.update_self, Function.update_self, destBin_le_iff hDelta le_rfl hZero]
    exact ⟨hZero, Int.mul_pos hDelta Int.one_pos⟩
  case ok =>
    exact fun t => ⟨nofun, List.nil_suffix,
      ⟨fun i hi => absurd rfl hi, fun i hi => absurd hi (Nat.not_lt_zero i), fun i v hv => by cases hv⟩, rfl⟩
  case covered =>
    intro u hu wn _
    obtain rfl := startDist_lt hu
    refine Or.inr (Or.inl ⟨?_, 0, le_rfl, Nat.one_pos, Function.update_self ..⟩)
    dsimp only
    rw [Function.update_self, hFirst]
  case voted => exact nofun
  case vote => exact Or.inl (Function.update_of_ne Nat.one_ne_zero 0 fun _ => kMaxBin)

/-- The frontier has no room for the source, or not for the copy that a thread stands before. -/
def DeltaRun.Overflows (g : WGraph) (s : DeltaRun nt) : Prop :=
  g.numEdgesDirected = 0 ∨ ∃ threads t copyStart,
    s.stage = .copying threads ∧ (threads t).phase = .copying copyStart ∧
    g.numEdgesDirected <
      copyStart + ((threads t).localBins.bin (s.mem.sharedIndexes ((s.iter + 1) % 2))).length

/-- A thread has an entry for which the memory has no room. -/
def DeltaRun.LacksRoom (delta : Int) (room : Bins → Bool) (s : DeltaRun nt) : Prop :=
  ∃ threads t, s.stage = .relaxing threads ∧ (threads t).LacksRoom delta room

theorem DeltaRun.Ok.final {s : DeltaRun nt} (h : s.Ok g src delta) (hWeights : g.WeightsFit)
    (hStuck : ∀ t, ¬ DeltaStep g delta room s t) :
    (s.stage = .finished ∧ ∀ v, Capped g.arc src kDistInf v (s.mem.dist v)) ∨ s.Overflows g ∨
      s.LacksRoom delta room := by
  obtain ⟨m, iter, stage⟩ := s
  cases stage with
  | relaxing threads =>
    obtain ⟨b, tail, hInv⟩ := h
    by_cases hVoted : ∀ t, (threads t).phase = .voted
    · exact absurd (.firstBarrier m iter threads hVoted) (hStuck _)
    · obtain ⟨t, hBusy⟩ := not_forall.mp hVoted
      cases hStep : relaxStep g delta room iter m (threads t) with
      | none => exact Or.inr (Or.inr ⟨threads, t, rfl, (voted_of_none (hInv.ok t) hStep).resolve_left hBusy⟩)
      | some next => exact absurd (.relax m next.1 iter threads _ ⟨t, next.2, hStep, rfl⟩) (hStuck _)
  | copying threads =>
    by_cases hDone : ∀ t, (threads t).phase = .waiting
    · by_cases hLast : m.sharedIndexes ((iter + 1) % 2) = kMaxBin
      · exact absurd (.finish m iter threads hDone hLast) (hStuck _)
      · exact absurd (.secondBarrier m iter threads hDone hLast) (hStuck _)
    · obtain ⟨t, hBusy⟩ := not_forall.mp hDone
      cases hStep : copyStep g iter m (threads t) with
      | none =>
        obtain ⟨copyStart, hPhase, hOver⟩ := overflow_of_none hBusy hStep
        exact Or.inr (Or.inl (Or.inr ⟨threads, t, copyStart, rfl, hPhase, hOver⟩))
      | some next => exact absurd (.copy m next.1 iter threads _ ⟨t, next.2, hStep, rfl⟩) (hStuck _)
  | finished =>
    obtain ⟨hDist, hRelaxed⟩ := h
    refine Or.inl ⟨rfl, capped_of_relaxed hWeights.arc_nonneg hDist.source hDist.cap hDist.sound ?_⟩
    rintro u v w hu ⟨_, wn, hwn, rfl, rfl⟩
    exact hRelaxed u hu wn hwn

theorem DeltaRun.Ok.of_run (hSource : src < g.numNodes) (hDelta : 0 < delta) (hWeights : g.WeightsFit)
    (hTeam : 0 < nt) {frontier : Nat → Nat} {s : DeltaRun nt}
    (hRun : ReflTransGen (DeltaStep g delta room) (deltaStart nt frontier src) s) : s.Ok g src delta :=
  invariant_of_reaches (I := DeltaRun.Ok g src delta)
    (fun _ _ hs hStep => (deltaStep_spec hSource hDelta hWeights hTeam hs hStep).1)
    (deltaStart_ok hWeights src hDelta frontier) hRun

theorem deltaStep_ends (hSource : src < g.numNodes) (hDelta : 0 < delta) (hWeights : g.WeightsFit)
    (hTeam : 0 < nt) (frontier : Nat → Nat) :
    Acc (fun t s => DeltaStep g delta room s t) (deltaStart nt frontier src) := by
  apply acc_of_ranked (fun s r => s.Ok g src delta ∧ s.rank g = r) (fun s r t hs hStep => ?_)
    ⟨deltaStart_ok hWeights src hDelta frontier, rfl⟩
  obtain ⟨hOk, hLess⟩ := deltaStep_spec hSource hDelta hWeights hTeam hs.1 hStep
  exact ⟨t.rank g, hs.2 ▸ hLess, hOk, rfl⟩

/-- The product and the sum that a thread is about to compare are a `WeightT`. -/
def DeltaRun.SumsFit (delta : Int) (s : DeltaRun nt) : Prop :=
  ∀ threads, s.stage = .relaxing threads → delta * s.mem.sharedIndexes (s.iter % 2) < 2 ^ 63 ∧
    ∀ t oldDist, (threads t).phase = .comparing oldDist → ∀ wn rest, (threads t).edges = wn :: rest →
      s.mem.dist (threads t).u + wn.w < 2 ^ 63

theorem DeltaRun.Ok.sumsFit {s : DeltaRun nt} (hSource : src < g.numNodes) (hWeights : g.WeightsFit)
    (h : s.Ok g src delta) : s.SumsFit delta := by
  intro threads hStage
  obtain ⟨m, iter, stage⟩ := s
  dsimp only at hStage ⊢
  subst hStage
  obtain ⟨b, tail, hInv⟩ := h
  have hHalf : kDistInf + kDistInf < 2 ^ 63 := by decide
  refine ⟨?_, fun t oldDist hPhase wn rest hEdges => ?_⟩
  · have hBin := g.maxDist_lt hInv.memory.binFits
    rw [← hInv.memory.bin] at hBin
    exact hBin.trans (by decide)
  · have hOk := (hInv.ok t).phase
    rw [hPhase] at hOk
    have hMem : wn ∈ g.outNeigh (threads t).u 0 := by
      apply (hInv.ok t).edges.subset
      rw [hEdges]
      exact List.mem_cons_self
    have hWeight := (hWeights _ (hInv.memory.dist.lt hSource hOk.1.2) wn hMem).2
    exact (add_lt_add_of_lt_of_le hOk.1.2 hWeight).trans hHalf

/-- Where the weights fit, every run ends with the distances, the greatest being `kDistInf`, or with a
frontier that is too small, or without room for the bins; no product or sum overflows on the way. -/
theorem deltaStep_distances (g : WGraph) (hWeights : g.WeightsFit) (hSource : src < g.numNodes)
    (hDelta : 0 < delta) (hTeam : 0 < nt) (room : Bins → Bool) (frontier : Nat → Nat) :
    Acc (fun t s => DeltaStep g delta room s t) (deltaStart nt frontier src) ∧
      ∀ s, ReflTransGen (DeltaStep g delta room) (deltaStart nt frontier src) s → s.SumsFit delta ∧
        ((∀ t, ¬ DeltaStep g delta room s t) →
          (s.stage = .finished ∧ ∀ v, Capped g.arc src kDistInf v (s.mem.dist v)) ∨ s.Overflows g ∨
            s.LacksRoom delta room) := by
  refine ⟨deltaStep_ends hSource hDelta hWeights hTeam frontier, fun s hRun => ?_⟩
  have hOk := DeltaRun.Ok.of_run hSource hDelta hWeights hTeam hRun
  exact ⟨hOk.sumsFit hSource hWeights, hOk.final hWeights⟩

theorem oneEdge_distances : Acc (fun t s => DeltaStep oneEdge 2 (·.length ≤ 100) s t) (deltaStart 2 id 0) ∧
    ∀ s, ReflTransGen (DeltaStep oneEdge 2 (·.length ≤ 100)) (deltaStart 2 id 0) s → s.SumsFit 2 ∧
      ((∀ t, ¬ DeltaStep oneEdge 2 (·.length ≤ 100) s t) →
        (s.stage = .finished ∧ ∀ v, Capped oneEdge.arc 0 kDistInf v (s.mem.dist v)) ∨
          s.Overflows oneEdge ∨ s.LacksRoom 2 (·.length ≤ 100)) :=
  deltaStep_distances oneEdge (by decide) (by decide) (by decide) (by decide) (·.length ≤ 100) id

end Runs

end Trident.Gapbs
