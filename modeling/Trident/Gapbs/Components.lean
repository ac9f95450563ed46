import Mathlib.Algebra.Order.BigOperators.Group.Finset
import Mathlib.Combinatorics.SimpleGraph.Connectivity.Connected
import Mathlib.Data.Prod.Lex
import Trident.Gapbs.LinkCompress

/-! # The labels of the components

Every run of `Afforest` ends, and then two nodes have one label just if they are connected.
-/

namespace Trident.Gapbs

open Relation Transition Forest

section Graphs

/-- Two different nodes with an edge in either direction. -/
def Graph.underlying (g : Graph) : SimpleGraph Nat where
  Adj u v := u ≠ v ∧ u < g.numNodes ∧ v < g.numNodes ∧ (v ∈ g.outNeigh u 0 ∨ u ∈ g.outNeigh v 0)
  symm := ⟨fun _ _ ⟨hNe, hu, hv, hEdge⟩ => ⟨hNe.symm, hv, hu, hEdge.symm⟩⟩
  loopless := ⟨fun _ h => h.1 rfl⟩

variable {g : Graph} {u v : Nat}

theorem Graph.reachable_of_out (hu : u < g.numNodes) (hv : v ∈ g.outNeigh u 0) :
    v < g.numNodes ∧ g.underlying.Reachable u v := by
  have hLess := g.out_lt u hu v hv
  obtain rfl | hNe := eq_or_ne u v
  · exact ⟨hu, .refl u⟩
  · have hAdj : g.underlying.Adj u v := ⟨hNe, hu, hLess, Or.inl hv⟩
    exact ⟨hLess, hAdj.reachable⟩

theorem Graph.reachable_of_in (hu : u < g.numNodes) (hv : v ∈ g.inNeigh u 0) :
    v < g.numNodes ∧ g.underlying.Reachable u v := by
  have hLess := g.in_lt u hu v hv
  have hOut := (g.inverse v hLess u hu).mpr hv
  exact ⟨hLess, (g.reachable_of_out hLess hOut).2.symm⟩

theorem Graph.outNeigh_drop (u start : Nat) : g.outNeigh u start = (g.outNeigh u 0).drop start :=
  neighborhood_drop ..

theorem Graph.sampler_work {r : Nat} (hu : u < g.numNodes) :
    ∀ w ∈ (g.sampler r u).todo, w < g.numNodes ∧ g.underlying.Reachable u w := by
  intro w hw
  have hOut : w ∈ g.outNeigh u r := List.mem_of_mem_take hw
  rw [g.outNeigh_drop] at hOut
  exact g.reachable_of_out hu (List.mem_of_mem_drop hOut)

theorem Graph.finisher_work {neighborRounds c : Nat} (hu : u < g.numNodes) :
    ∀ w ∈ (g.finisher neighborRounds c u).todo, w < g.numNodes ∧ g.underlying.Reachable u w := by
  intro w hw
  rcases List.mem_append.mp hw with hOut | hIn
  · rw [g.outNeigh_drop] at hOut
    exact g.reachable_of_out hu (List.mem_of_mem_drop hOut)
  · split at hIn
    · exact g.reachable_of_in hu hIn
    · cases hIn

end Graphs

section Loops

variable {g : Graph} {comp comp' : Nat → Nat}

structure Linking (g : Graph) (comp : Nat → Nat) (work : Nat → List Nat) (c : Option Nat)
    (linkers : Fin g.numNodes → Linker) : Prop where
  forest : ForestOk g.underlying.Reachable comp
  ok : ∀ u, (linkers u).Ok g.numNodes comp u (work u) c

theorem Linking.turn {work : Nat → List Nat} {c : Option Nat} {linkers linkers' : Fin g.numNodes → Linker}
    (hWork : ∀ u < g.numNodes, ∀ w ∈ work u, w < g.numNodes ∧ g.underlying.Reachable u w)
    (h : Linking g comp work c linkers)
    (hTurn : Interleave (fun m s m' s' => linkStep m s = some (m', s')) (comp, linkers) (comp', linkers')) :
    Linking g comp' work c linkers' ∧ Later comp comp' ∧
      ∑ u, (linkers' u).weight g.numNodes < ∑ u, (linkers u).weight g.numNodes := by
  obtain ⟨u, next, hStep, hOthers⟩ := hTurn
  dsimp only at hOthers
  subst hOthers
  obtain ⟨hForest, hLater, hOk, hWeight⟩ := linkStep_spec h.forest
    g.underlying.reachable_is_equivalence u.isLt (hWork u u.isLt) (h.ok u) hStep
  refine ⟨⟨hForest, fun k => ?_⟩, hLater, sum_update_lt (Linker.weight g.numNodes) linkers hWeight⟩
  obtain rfl | hNe := eq_or_ne k u
  · rwa [Function.update_self]
  · rw [Function.update_of_ne hNe]
    exact (h.ok k).later hLater

structure Compressing (g : Graph) (comp : Nat → Nat) (compressors : Fin g.numNodes → Compressor) :
    Prop where
  forest : ForestOk g.underlying.Reachable comp
  self : ∀ k, (compressors k).n = k
  ok : ∀ k, (compressors k).phase.Ok comp k

theorem compressing_start (h : ForestOk g.underlying.Reachable comp) :
    Compressing g comp fun n => ⟨n, .outer⟩ := ⟨h, fun _ => rfl, fun _ => trivial⟩

theorem Compressing.turn {compressors compressors' : Fin g.numNodes → Compressor}
    (h : Compressing g comp compressors)
    (hTurn : Interleave (fun m s m' s' => compressStep m s = some (m', s')) (comp, compressors)
      (comp', compressors')) :
    Compressing g comp' compressors' ∧ root comp' = root comp ∧
      ∑ k : Fin g.numNodes, (8 * comp' k + (compressors' k).phase.rank) <
        ∑ k : Fin g.numNodes, (8 * comp k + (compressors k).phase.rank) := by
  obtain ⟨n, next, hStep, hOthers⟩ := hTurn
  dsimp only at hOthers
  subst hOthers
  have hSelf := h.self n
  have hTurn := compressStep_spec h.forest g.underlying.reachable_is_equivalence
    (by rw [hSelf]; exact h.ok n) hStep
  have hOther : ∀ k ≠ n, comp' k = comp k := fun k hk =>
    hTurn.others k (by rw [hSelf]; exact Fin.val_ne_of_ne hk)
  refine ⟨⟨hTurn.forest, fun k => ?_, fun k => ?_⟩, hTurn.shortens.root, ?_⟩
  · obtain rfl | hNe := eq_or_ne k n
    · rw [Function.update_self, hTurn.self, hSelf]
    · rw [Function.update_of_ne hNe]
      exact h.self k
  · obtain rfl | hNe := eq_or_ne k n
    · rw [Function.update_self, ← hSelf]
      exact hTurn.ok
    · rw [Function.update_of_ne hNe]
      exact (h.ok k).later hTurn.shortens (hOther k hNe)
  · apply Finset.sum_lt_sum
    · intro k _
      obtain rfl | hNe := eq_or_ne k n
      · have hLess := hTurn.weight
        rw [hSelf] at hLess
        rw [Function.update_self]
        exact hLess.le
      · rw [Function.update_of_ne hNe, hOther k hNe]
    · refine ⟨n, Finset.mem_univ n, ?_⟩
      have hLess := hTurn.weight
      rw [hSelf] at hLess
      rwa [Function.update_self]

end Loops

section Invariant

variable {g : Graph} {neighborRounds : Nat} {comp comp' : Nat → Nat}

/-- The first `r` neighbors of every node have been linked. -/
def Covered (g : Graph) (r : Nat) (comp : Nat → Nat) : Prop :=
  ∀ u < g.numNodes, ∀ v ∈ (g.outNeigh u 0).take r, Same comp u v

def Complete (g : Graph) (comp : Nat → Nat) : Prop :=
  ∀ u v, g.underlying.Adj u v → Same comp u v

theorem Covered.later {r : Nat} (h : Covered g r comp) (hLater : Later comp comp') :
    Covered g r comp' := fun u hu v hv => hLater.same u v (h u hu v hv)

theorem Covered.of_root {r : Nat} (h : Covered g r comp) (hRoot : root comp' = root comp) :
    Covered g r comp' := fun u hu v hv => by
  rw [Same, hRoot]
  exact h u hu v hv

theorem Complete.of_root (h : Complete g comp) (hRoot : root comp' = root comp) :
    Complete g comp' := fun u v hAdj => by
  rw [Same, hRoot]
  exact h u v hAdj

theorem Covered.next {r : Nat} {linkers : Fin g.numNodes → Linker} (h : Covered g r comp)
    (hLinking : Linking g comp (fun u => (g.sampler r u).todo) none linkers)
    (hDone : ∀ u, linkStep comp (linkers u) = none) : Covered g (r + 1) comp := by
  intro u hu v hv
  rw [List.take_add, ← g.outNeigh_drop] at hv
  rcases List.mem_append.mp hv with hOld | hNew
  · exact h u hu v hOld
  · rcases (hLinking.ok ⟨u, hu⟩).linked (hDone ⟨u, hu⟩) with hAll | ⟨_, hNone, _⟩
    · exact hAll v hNew
    · cases hNone

/-- Where both ends of an edge are skipped they have the label `c`; else one end has linked it. -/
theorem Covered.complete {c : Nat} {linkers : Fin g.numNodes → Linker} (h : Covered g neighborRounds comp)
    (hLinking : Linking g comp (fun u => (g.finisher neighborRounds c u).todo) (some c) linkers)
    (hDone : ∀ u, linkStep comp (linkers u) = none) : Complete g comp := by
  have hTurn : ∀ u, u < g.numNodes →
      (∀ w ∈ (g.finisher neighborRounds c u).todo, Same comp u w) ∨ Same comp u c := by
    intro u hu
    refine ((hLinking.ok ⟨u, hu⟩).linked (hDone ⟨u, hu⟩)).imp_right ?_
    rintro ⟨_, hLabel, hSame⟩
    cases hLabel
    exact hSame
  have hOut : ∀ u, u < g.numNodes → ¬ Same comp u c → ∀ w ∈ g.outNeigh u 0, Same comp u w := by
    intro u hu hOther w hw
    rw [← List.take_append_drop neighborRounds (g.outNeigh u 0), ← g.outNeigh_drop] at hw
    rcases List.mem_append.mp hw with hEarly | hRest
    · exact h u hu w hEarly
    · exact (hTurn u hu).resolve_right hOther w (List.mem_append_left _ hRest)
  have hIn : ∀ u, u < g.numNodes → ¬ Same comp u c → ∀ w ∈ g.inNeigh u 0, Same comp u w := by
    intro u hu hOther w hw
    cases hDirected : g.directed with
    | true =>
      apply (hTurn u hu).resolve_right hOther w
      apply List.mem_append_right
      rwa [if_pos hDirected]
    | false =>
      obtain ⟨hIndex, hNeighbors⟩ := g.undirected hDirected
      rw [CSRGraph.inNeigh, hIndex, hNeighbors] at hw
      exact hOut u hu hOther w hw
  have hEdge : ∀ u v, u < g.numNodes → v < g.numNodes → v ∈ g.outNeigh u 0 → Same comp u v := by
    intro u v hu hv hEdge
    by_cases hu' : Same comp u c
    · by_cases hv' : Same comp v c
      · exact hu'.trans hv'.symm
      · exact (hIn v hv hv' u ((g.inverse u hu v hv).mp hEdge)).symm
    · exact hOut u hu hu' v hEdge
  rintro u v ⟨_, hu, hv, hForward | hBackward⟩
  · exact hEdge u v hu hv hForward
  · exact (hEdge v u hv hu hBackward).symm

def Run.Ok (g : Graph) (neighborRounds : Nat) (s : Run g.numNodes) : Prop :=
  match s.stage with
  | .round r => ForestOk g.underlying.Reachable s.comp ∧ r ≤ neighborRounds ∧ Covered g r s.comp
  | .linking (some r) linkers => r < neighborRounds ∧ Covered g r s.comp ∧
    Linking g s.comp (fun u => (g.sampler r u).todo) none linkers
  | .linking none linkers => Covered g neighborRounds s.comp ∧ ∃ c,
    Linking g s.comp (fun u => (g.finisher neighborRounds c u).todo) (some c) linkers
  | .compressing (some r) compressors => r < neighborRounds ∧ Covered g (r + 1) s.comp ∧
    Compressing g s.comp compressors
  | .compressing none compressors => Complete g s.comp ∧ Compressing g s.comp compressors
  | .finished => ForestOk g.underlying.Reachable s.comp ∧ Complete g s.comp ∧
    ∀ u < g.numNodes, s.comp (s.comp u) = s.comp u

def Stage.rank (neighborRounds : Nat) {n : Nat} : Stage n → Nat
  | .round r => 3 * (neighborRounds - r) + 3
  | .linking (some r) _ => 3 * (neighborRounds - r) + 2
  | .linking none _ => 2
  | .compressing (some r) _ => 3 * (neighborRounds - r) + 1
  | .compressing none _ => 1
  | .finished => 0

def Run.work {n : Nat} (s : Run n) : Nat :=
  match s.stage with
  | .linking _ linkers => ∑ u, (linkers u).weight n
  | .compressing _ compressors => ∑ k : Fin n, (8 * s.comp k + (compressors k).phase.rank)
  | _ => 0

def Run.rank (neighborRounds : Nat) {n : Nat} (s : Run n) : Nat ×ₗ Nat :=
  toLex (s.stage.rank neighborRounds, s.work)

theorem rank_of_stage {n : Nat} {s t : Run n}
    (h : t.stage.rank neighborRounds < s.stage.rank neighborRounds) :
    t.rank neighborRounds < s.rank neighborRounds := Prod.Lex.toLex_lt_toLex.mpr (Or.inl h)

theorem rank_of_work {n : Nat} {s t : Run n}
    (h : t.stage.rank neighborRounds = s.stage.rank neighborRounds) (hWork : t.work < s.work) :
    t.rank neighborRounds < s.rank neighborRounds :=
  Prod.Lex.toLex_lt_toLex.mpr (Or.inr ⟨h, hWork⟩)

theorem afforestStep_spec {s t : Run g.numNodes} (h : s.Ok g neighborRounds)
    (hStep : AfforestStep g neighborRounds s t) :
    t.Ok g neighborRounds ∧ t.rank neighborRounds < s.rank neighborRounds := by
  cases hStep with
  | round comp r hMore =>
    obtain ⟨hForest, _, hCovered⟩ := h
    exact ⟨⟨hMore, hCovered, hForest, fun u => ⟨rfl, fun _ hw => hw, nofun, trivial, nofun,
      Or.inl fun _ hw => Or.inl hw⟩⟩, rank_of_stage (Nat.lt_succ_self _)⟩
  | sample comp r hLast c n hn hc =>
    obtain ⟨hForest, hLe, hCovered⟩ := h
    obtain rfl : r = neighborRounds := hLe.antisymm (not_lt.mp hLast)
    refine ⟨⟨hCovered, c, hForest, fun u => ⟨rfl, fun _ hw => hw, nofun, trivial, fun label hLabel => ?_,
      Or.inl fun _ hw => Or.inl hw⟩⟩, rank_of_stage (Nat.lt_of_lt_of_le (Nat.lt_succ_self 2)
        (Nat.le_add_left _ _))⟩
    cases hLabel
    rfl
  | link comp comp' r linkers linkers' hTurn =>
    cases r with
    | some r =>
      obtain ⟨hMore, hCovered, hLinking⟩ := h
      obtain ⟨hNext, hLater, hWork⟩ := hLinking.turn (fun _ hu => g.sampler_work hu) hTurn
      exact ⟨⟨hMore, hCovered.later hLater, hNext⟩, rank_of_work rfl hWork⟩
    | none =>
      obtain ⟨hCovered, c, hLinking⟩ := h
      obtain ⟨hNext, hLater, hWork⟩ := hLinking.turn (fun _ hu => g.finisher_work hu) hTurn
      exact ⟨⟨hCovered.later hLater, c, hNext⟩, rank_of_work rfl hWork⟩
  | linked comp r linkers hDone =>
    cases r with
    | some r =>
      obtain ⟨hMore, hCovered, hLinking⟩ := h
      exact ⟨⟨hMore, hCovered.next hLinking hDone, compressing_start hLinking.forest⟩,
        rank_of_stage (Nat.lt_succ_self _)⟩
    | none =>
      obtain ⟨hCovered, c, hLinking⟩ := h
      exact ⟨⟨hCovered.complete hLinking hDone, compressing_start hLinking.forest⟩,
        rank_of_stage (Nat.lt_succ_self _)⟩
  | compress comp comp' r compressors compressors' hTurn =>
    cases r with
    | some r =>
      obtain ⟨hMore, hCovered, hCompressing⟩ := h
      obtain ⟨hNext, hRoot, hWork⟩ := hCompressing.turn hTurn
      exact ⟨⟨hMore, hCovered.of_root hRoot, hNext⟩, rank_of_work rfl hWork⟩
    | none =>
      obtain ⟨hComplete, hCompressing⟩ := h
      obtain ⟨hNext, hRoot, hWork⟩ := hCompressing.turn hTurn
      exact ⟨⟨hComplete.of_root hRoot, hNext⟩, rank_of_work rfl hWork⟩
  | compressed comp r compressors hDone =>
    obtain ⟨hMore, hCovered, hCompressing⟩ := h
    refine ⟨⟨hCompressing.forest, hMore, hCovered⟩, rank_of_stage ?_⟩
    simp only [Stage.rank]
    omega
  | finish comp compressors hDone =>
    obtain ⟨hComplete, hCompressing⟩ := h
    refine ⟨⟨hCompressing.forest, hComplete, fun u hu => ?_⟩, rank_of_stage Nat.zero_lt_one⟩
    have hOk : (compressors ⟨u, hu⟩).phase.Ok comp (compressors ⟨u, hu⟩).n := by
      rw [hCompressing.self]
      exact hCompressing.ok ⟨u, hu⟩
    have hFixed := compressed_of_none hOk (hDone ⟨u, hu⟩)
    rwa [hCompressing.self] at hFixed

theorem start_ok (g : Graph) (neighborRounds : Nat) : g.start.Ok g neighborRounds :=
  ⟨⟨fun _ => le_rfl, fun _ => .refl _⟩, Nat.zero_le _, fun _ _ _ hv => by
    rw [List.take_zero] at hv
    cases hv⟩

theorem Run.Ok.finished {s : Run g.numNodes} (h : s.Ok g neighborRounds)
    (hStuck : ∀ t, ¬ AfforestStep g neighborRounds s t) : s.stage = .finished := by
  obtain ⟨comp, stage⟩ := s
  cases stage with
  | round r =>
    by_cases hMore : r < neighborRounds
    · exact absurd (.round comp r hMore) (hStuck _)
    · exact absurd (.sample comp r hMore _ 0 g.nonempty rfl) (hStuck _)
  | linking r linkers =>
    refine absurd (.linked comp r linkers fun u => ?_) (hStuck _)
    cases hStep : linkStep comp (linkers u) with
    | none => rfl
    | some next => exact absurd (.link comp next.1 r linkers _ ⟨u, next.2, hStep, rfl⟩) (hStuck _)
  | compressing r compressors =>
    have hDone : ∀ n, compressStep comp (compressors n) = none := by
      intro n
      cases hStep : compressStep comp (compressors n) with
      | none => rfl
      | some next =>
        exact absurd (.compress comp next.1 r compressors _ ⟨n, next.2, hStep, rfl⟩) (hStuck _)
    cases r with
    | some r => exact absurd (.compressed comp r compressors hDone) (hStuck _)
    | none => exact absurd (.finish comp compressors hDone) (hStuck _)
  | finished => rfl

theorem Complete.same_iff (h : Complete g comp) (hForest : ForestOk g.underlying.Reachable comp)
    {u v : Nat} : Same comp u v ↔ g.underlying.Reachable u v := by
  constructor
  · exact Same.induce hForest.descends g.underlying.reachable_is_equivalence hForest.sound
  · rintro ⟨p⟩
    induction p with
    | nil => rfl
    | cons hAdj _ ih => exact (h _ _ hAdj).trans ih

theorem afforest_ends (g : Graph) (neighborRounds : Nat) :
    Acc (fun t s => AfforestStep g neighborRounds s t) g.start := by
  apply acc_of_ranked (fun s r => s.Ok g neighborRounds ∧ s.rank neighborRounds = r)
    (fun s r t hs hStep => ?_) ⟨start_ok g neighborRounds, rfl⟩
  obtain ⟨hOk, hLess⟩ := afforestStep_spec hs.1 hStep
  exact ⟨t.rank neighborRounds, hs.2 ▸ hLess, hOk, rfl⟩

theorem afforest_labels {s : Run g.numNodes}
    (hRun : ReflTransGen (AfforestStep g neighborRounds) g.start s)
    (hStuck : ∀ t, ¬ AfforestStep g neighborRounds s t) :
    s.stage = .finished ∧ ∀ u < g.numNodes, ∀ v < g.numNodes,
      s.comp u = s.comp v ↔ g.underlying.Reachable u v := by
  have hOk := invariant_of_reaches (I := Run.Ok g neighborRounds)
    (fun _ _ hs hStep => (afforestStep_spec hs hStep).1) (start_ok g neighborRounds) hRun
  have hFinished := hOk.finished hStuck
  rw [Run.Ok, hFinished] at hOk
  obtain ⟨hForest, hComplete, hFlat⟩ := hOk
  refine ⟨hFinished, fun u hu v hv => ?_⟩
  have hRoot : ∀ u < g.numNodes, root s.comp u = s.comp u := fun u hu => by
    rw [← root_parent hForest.descends u, root_of_fixed (hFlat u hu)]
  rw [← hComplete.same_iff hForest, Same, hRoot u hu, hRoot v hv]

/-- Every run of `Afforest` ends, with one label for each connected component. -/
theorem afforest_components (g : Graph) (neighborRounds : Nat) :
    Acc (fun t s => AfforestStep g neighborRounds s t) g.start ∧
      ∀ s, ReflTransGen (AfforestStep g neighborRounds) g.start s →
        (∀ t, ¬ AfforestStep g neighborRounds s t) →
        s.stage = .finished ∧ ∀ u < g.numNodes, ∀ v < g.numNodes,
          s.comp u = s.comp v ↔ g.underlying.Reachable u v :=
  ⟨afforest_ends g neighborRounds, fun _ => afforest_labels⟩

end Invariant

end Trident.Gapbs
