import Trident.Gapbs.Components

/-! # Connected components by hooking

`ShiloachVishkin` of the other components kernel. Its stores are not atomic: of two threads that hang the
same root, the later one wins, and what the earlier one did is lost. The loop goes on as long as any
thread hangs a root, and the shortcuts are those of `Compress`.
-/

namespace Trident.Gapbs

open Relation Transition Forest

section Program

inductive HookPhase where
  | idle
  | first
  | second (compU : Nat)
  | testing (highComp lowComp : Nat)
  | changing (highComp lowComp : Nat)
  | storing (highComp lowComp : Nat)

/-- One `u`: the neighbors that are left for it, and the one at hand. -/
structure Hooker where
  u : Nat
  todo : List Nat
  v : Nat
  phase : HookPhase

/-- Equal labels are passed over; of two others the higher one is to be hung. -/
def hookTest (compU compV : Nat) : HookPhase :=
  if compU = compV then .idle
  else
    let highComp := if compU > compV then compU else compV
    .testing highComp (compU + compV - highComp)

def hookStep (comp : Nat → Nat) (change : Bool) (s : Hooker) : Option ((Nat → Nat) × Bool × Hooker) :=
  match s.phase with
  | .idle =>
    match s.todo with
    | [] => none
    | v :: todo => some (comp, change, { s with todo, v, phase := .first })
  | .first => some (comp, change, { s with phase := .second (comp s.u) })
  | .second compU => some (comp, change, { s with phase := hookTest compU (comp s.v) })
  | .testing highComp lowComp =>
    if highComp = comp highComp then some (comp, change, { s with phase := .changing highComp lowComp })
    else some (comp, change, { s with phase := .idle })
  | .changing highComp lowComp => some (comp, true, { s with phase := .storing highComp lowComp })
  | .storing highComp lowComp =>
    some (Function.update comp highComp lowComp, change, { s with phase := .idle })

inductive HookStage (numNodes : Nat) where
  | test
  | hooking (hookers : Fin numNodes → Hooker)
  | shortcutting (compressors : Fin numNodes → Compressor)
  | finished

structure Hooks (numNodes : Nat) where
  comp : Nat → Nat
  change : Bool
  stage : HookStage numNodes

variable (g : Graph)

inductive HookingStep : Hooks g.numNodes → Hooks g.numNodes → Prop
  | enter (comp : Nat → Nat) :
      HookingStep ⟨comp, true, .test⟩ ⟨comp, false, .hooking fun u => ⟨u, g.outNeigh u 0, 0, .idle⟩⟩
  | leave (comp : Nat → Nat) : HookingStep ⟨comp, false, .test⟩ ⟨comp, false, .finished⟩
  | hook (comp comp' : Nat → Nat) (change change' : Bool) (hookers hookers' : Fin g.numNodes → Hooker)
      (hTurn : Interleave (fun m s m' s' => hookStep m.1 m.2 s = some (m'.1, m'.2, s'))
        ((comp, change), hookers) ((comp', change'), hookers')) :
      HookingStep ⟨comp, change, .hooking hookers⟩ ⟨comp', change', .hooking hookers'⟩
  | hooked (comp : Nat → Nat) (change : Bool) (hookers : Fin g.numNodes → Hooker)
      (hDone : ∀ u, (hookers u).todo = [] ∧ (hookers u).phase = .idle) :
      HookingStep ⟨comp, change, .hooking hookers⟩ ⟨comp, change, .shortcutting fun n => ⟨n, .outer⟩⟩
  | shortcut (comp comp' : Nat → Nat) (change : Bool) (compressors compressors' : Fin g.numNodes → Compressor)
      (hTurn : Interleave (fun m s m' s' => compressStep m s = some (m', s')) (comp, compressors)
        (comp', compressors')) :
      HookingStep ⟨comp, change, .shortcutting compressors⟩ ⟨comp', change, .shortcutting compressors'⟩
  | shortened (comp : Nat → Nat) (change : Bool) (compressors : Fin g.numNodes → Compressor)
      (hDone : ∀ n, compressStep comp (compressors n) = none) :
      HookingStep ⟨comp, change, .shortcutting compressors⟩ ⟨comp, change, .test⟩

def hooksStart : Hooks g.numNodes := ⟨id, true, .test⟩

end Program

section Hooking

variable {g : Graph} {comp₀ comp comp' : Nat → Nat} {change change' : Bool} {u v : Nat} {s s' : Hooker}
  {hookers hookers' : Fin g.numNodes → Hooker}

/-- `highComp` was a root when the round began, and is to come under a node of its component. -/
def Hangs (g : Graph) (highComp lowComp : Nat) : Prop :=
  lowComp < highComp ∧ highComp < g.numNodes ∧ g.underlying.Reachable highComp lowComp

def HookPhase.Ok (g : Graph) (comp₀ : Nat → Nat) (change : Bool) (u : Nat) : HookPhase → Prop
  | .idle => True
  | .first => True
  | .second compU => compU ≤ u ∧ g.underlying.Reachable u compU ∧ (change = false → compU = comp₀ u)
  | .testing highComp lowComp => Hangs g highComp lowComp ∧ (change = false → comp₀ highComp = highComp)
  | .changing highComp lowComp => Hangs g highComp lowComp ∧ comp₀ highComp = highComp
  | .storing highComp lowComp => Hangs g highComp lowComp ∧ comp₀ highComp = highComp ∧ change = true

/-- As long as nothing has changed, the neighbors that are done have the label of `u`. -/
structure Hooker.Ok (g : Graph) (comp₀ : Nat → Nat) (change : Bool) (u : Nat) (s : Hooker) : Prop where
  self : s.u = u
  todo : ∀ w ∈ s.todo, w ∈ g.outNeigh u 0
  current : s.phase ≠ .idle → s.v ∈ g.outNeigh u 0
  phase : s.phase.Ok g comp₀ change u
  covers : change = false → ∀ w ∈ g.outNeigh u 0,
    w ∈ s.todo ∨ (s.phase ≠ .idle ∧ w = s.v) ∨ comp₀ u = comp₀ w

theorem Hooker.Ok.changed (h : s.Ok g comp₀ change u) : s.Ok g comp₀ true u := by
  refine ⟨h.self, h.todo, h.current, ?_, nofun⟩
  have hPhase := h.phase
  obtain ⟨phase, hEq⟩ : ∃ phase, s.phase = phase := ⟨_, rfl⟩
  rw [hEq] at hPhase ⊢
  cases phase with
  | idle => trivial
  | first => trivial
  | second compU => exact ⟨hPhase.1, hPhase.2.1, nofun⟩
  | testing highComp lowComp => exact ⟨hPhase.1, nofun⟩
  | changing highComp lowComp => exact hPhase
  | storing highComp lowComp => exact ⟨hPhase.1, hPhase.2.1, rfl⟩

theorem Hooker.Ok.advance (h : s.Ok g comp₀ change u) (hBusy : s.phase ≠ .idle) {phase : HookPhase}
    (hPhase : phase.Ok g comp₀ change u)
    (hNext : phase ≠ .idle ∨ (change = false → comp₀ u = comp₀ s.v)) :
    ({ s with phase } : Hooker).Ok g comp₀ change u := by
  refine ⟨h.self, h.todo, fun _ => h.current hBusy, hPhase, fun hQuiet w hw => ?_⟩
  rcases h.covers hQuiet w hw with hTodo | ⟨_, rfl⟩ | hSame
  · exact Or.inl hTodo
  · rcases hNext with hOn | hSame
    · exact Or.inr (Or.inl ⟨hOn, rfl⟩)
    · exact Or.inr (Or.inr (hSame hQuiet))
  · exact Or.inr (Or.inr hSame)

/-- A round: no node becomes a root, and as long as `change` is not set nothing has moved. -/
structure RoundOk (g : Graph) (comp₀ comp : Nat → Nat) (change : Bool) : Prop where
  forest : ForestOk g.underlying.Reachable comp
  flat : ∀ u < g.numNodes, comp₀ (comp₀ u) = comp₀ u
  roots : ∀ x, comp x = x → comp₀ x = x
  quiet : change = false → comp = comp₀

def HookPhase.weight : HookPhase → Nat
  | .idle => 0
  | .first => 5
  | .second _ => 4
  | .testing _ _ => 3
  | .changing _ _ => 2
  | .storing _ _ => 1

def Hooker.weight (s : Hooker) : Nat := 6 * s.todo.length + s.phase.weight

theorem hookTest_ok (hRound : RoundOk g comp₀ comp change) (hu : u < g.numNodes)
    (hv : v ∈ g.outNeigh u 0) {compU : Nat}
    (h : compU ≤ u ∧ g.underlying.Reachable u compU ∧ (change = false → compU = comp₀ u)) :
    (hookTest compU (comp v)).Ok g comp₀ change u ∧
      (hookTest compU (comp v) ≠ .idle ∨ (change = false → comp₀ u = comp₀ v)) ∧
      (hookTest compU (comp v)).weight < 4 := by
  obtain ⟨hLe, hReach, hOld⟩ := h
  obtain ⟨hvn, hEdge⟩ := g.reachable_of_out hu hv
  have hDown := hRound.forest.descends v
  have hJoin : g.underlying.Reachable compU (comp v) :=
    hReach.symm.trans (hEdge.trans (hRound.forest.sound v))
  rw [hookTest]
  split
  · rename_i hSame
    refine ⟨trivial, Or.inr fun hQuiet => ?_, by decide⟩
    rw [← hOld hQuiet, hSame, hRound.quiet hQuiet]
  · rename_i hOther
    have hRoots : change = false → comp₀ compU = compU ∧ comp₀ (comp v) = comp v := by
      intro hQuiet
      rw [hOld hQuiet, hRound.quiet hQuiet]
      exact ⟨hRound.flat u hu, hRound.flat v hvn⟩
    dsimp only
    split
    · rename_i hGreater
      rw [Nat.add_sub_cancel_left]
      exact ⟨⟨⟨hGreater, by omega, hJoin⟩, fun hQuiet => (hRoots hQuiet).1⟩, Or.inl nofun, Nat.lt_succ_self 3⟩
    · rename_i hNot
      rw [Nat.add_sub_cancel]
      exact ⟨⟨⟨by omega, by omega, hJoin.symm⟩, fun hQuiet => (hRoots hQuiet).2⟩, Or.inl nofun,
        Nat.lt_succ_self 3⟩

/-- A thread has stored over a root of this round, or is about to. -/
def Hung (g : Graph) (comp₀ comp : Nat → Nat) (hookers : Fin g.numNodes → Hooker) : Prop :=
  (∃ x < g.numNodes, comp₀ x = x ∧ comp x ≠ x) ∨
    ∃ t highComp lowComp, (hookers t).phase = .storing highComp lowComp

structure HookTurn (g : Graph) (comp₀ comp : Nat → Nat) (change : Bool) (u : Nat) (s : Hooker)
    (comp' : Nat → Nat) (change' : Bool) (s' : Hooker) : Prop where
  round : RoundOk g comp₀ comp' change'
  ok : s'.Ok g comp₀ change' u
  weight : s'.weight < s.weight
  kept : ∀ x, comp x ≠ x → comp' x ≠ x
  stored : ∀ highComp lowComp, s.phase = .storing highComp lowComp →
    ∃ x < g.numNodes, comp₀ x = x ∧ comp' x ≠ x
  sets : change' = change ∨ (change' = true ∧ ∃ highComp lowComp, s'.phase = .storing highComp lowComp)

theorem HookTurn.of_read (hRound : RoundOk g comp₀ comp change) (hOk : s'.Ok g comp₀ change u)
    (hWeight : s'.weight < s.weight) (hNot : ∀ highComp lowComp, s.phase ≠ .storing highComp lowComp) :
    HookTurn g comp₀ comp change u s comp change s' where
  round := hRound
  ok := hOk
  weight := hWeight
  kept _ := id
  stored highComp lowComp hPhase := absurd hPhase (hNot highComp lowComp)
  sets := Or.inl rfl

/-- A root that is hung stays one no longer, whatever was stored there before. -/
theorem RoundOk.hang (h : RoundOk g comp₀ comp true) {highComp lowComp : Nat}
    (hHangs : Hangs g highComp lowComp) : RoundOk g comp₀ (Function.update comp highComp lowComp) true := by
  obtain ⟨hLess, _, hReach⟩ := hHangs
  refine ⟨⟨descends_update h.forest.descends hLess.le, fun x => ?_⟩, h.flat, fun x hx => ?_, nofun⟩
  · obtain rfl | hNe := eq_or_ne x highComp
    · rw [Function.update_self]
      exact hReach
    · rw [Function.update_of_ne hNe]
      exact h.forest.sound x
  · obtain rfl | hNe := eq_or_ne x highComp
    · rw [Function.update_self] at hx
      omega
    · rw [Function.update_of_ne hNe] at hx
      exact h.roots x hx

theorem hookStep_spec (hRound : RoundOk g comp₀ comp change) (hu : u < g.numNodes)
    (h : s.Ok g comp₀ change u) (hStep : hookStep comp change s = some (comp', change', s')) :
    HookTurn g comp₀ comp change u s comp' change' s' := by
  have hPhase := h.phase
  obtain ⟨u', todo, v, phase⟩ := s
  obtain rfl : u' = u := h.self
  cases phase with
  | idle =>
    cases todo with
    | nil => cases hStep
    | cons w todo =>
      cases hStep
      apply HookTurn.of_read hRound
      · refine ⟨rfl, fun x hx => h.todo x (List.mem_cons_of_mem w hx),
          fun _ => h.todo w List.mem_cons_self, trivial, fun hQuiet x hx => ?_⟩
        rcases h.covers hQuiet x hx with hTodo | ⟨hBusy, _⟩ | hSame
        · rcases List.mem_cons.mp hTodo with rfl | hLater
          · exact Or.inr (Or.inl ⟨nofun, rfl⟩)
          · exact Or.inl hLater
        · exact absurd rfl hBusy
        · exact Or.inr (Or.inr hSame)
      · simp only [Hooker.weight, HookPhase.weight, List.length_cons]
        omega
      · exact nofun
  | first =>
    cases hStep
    apply HookTurn.of_read hRound
    · refine h.advance nofun ⟨hRound.forest.descends u', hRound.forest.sound u', fun hQuiet => ?_⟩ (Or.inl nofun)
      rw [hRound.quiet hQuiet]
    · exact Nat.lt_succ_self _
    · exact nofun
  | second compU =>
    cases hStep
    obtain ⟨hOk, hNext, hWeight⟩ := hookTest_ok hRound hu (h.current nofun) hPhase
    apply HookTurn.of_read hRound
    · exact h.advance nofun hOk hNext
    · exact Nat.add_lt_add_left hWeight _
    · exact nofun
  | testing highComp lowComp =>
    obtain ⟨hHangs, hRoot⟩ := hPhase
    simp only [hookStep] at hStep
    split at hStep
    · rename_i hFixed
      cases hStep
      apply HookTurn.of_read hRound
      · exact h.advance nofun ⟨hHangs, hRound.roots highComp hFixed.symm⟩ (Or.inl nofun)
      · exact Nat.lt_succ_self _
      · exact nofun
    · rename_i hMoved
      cases hStep
      apply HookTurn.of_read hRound
      · refine h.advance nofun trivial (Or.inr fun hQuiet => absurd ?_ hMoved)
        rw [hRound.quiet hQuiet, hRoot hQuiet]
      · exact Nat.add_lt_add_left (show 0 < 3 by decide) _
      · exact nofun
  | changing highComp lowComp =>
    cases hStep
    obtain ⟨hHangs, hRoot⟩ := hPhase
    refine ⟨⟨hRound.forest, hRound.flat, hRound.roots, nofun⟩, ?_, Nat.lt_succ_self _, fun _ => id, nofun,
      Or.inr ⟨rfl, highComp, lowComp, rfl⟩⟩
    exact h.changed.advance nofun ⟨hHangs, hRoot, rfl⟩ (Or.inl nofun)
  | storing highComp lowComp =>
    cases hStep
    obtain ⟨hHangs, hRoot, rfl⟩ := hPhase
    have hMoved : Function.update comp highComp lowComp highComp ≠ highComp := by
      rw [Function.update_self]
      exact hHangs.1.ne
    refine ⟨hRound.hang hHangs, h.advance nofun trivial (Or.inr nofun), Nat.lt_succ_self _, fun x hx => ?_,
      fun _ _ _ => ⟨highComp, hHangs.2.1, hRoot, hMoved⟩, Or.inl rfl⟩
    obtain rfl | hNe := eq_or_ne x highComp
    · exact hMoved
    · rwa [Function.update_of_ne hNe]

/-- What a team of hooking threads keeps. -/
structure Hooking (g : Graph) (comp₀ comp : Nat → Nat) (change : Bool)
    (hookers : Fin g.numNodes → Hooker) : Prop where
  round : RoundOk g comp₀ comp change
  ok : ∀ u, (hookers u).Ok g comp₀ change u
  hung : change = true → Hung g comp₀ comp hookers

theorem Hooking.turn (h : Hooking g comp₀ comp change hookers)
    (hTurn : Interleave (fun m s m' s' => hookStep m.1 m.2 s = some (m'.1, m'.2, s'))
      ((comp, change), hookers) ((comp', change'), hookers')) :
    Hooking g comp₀ comp' change' hookers' ∧ ∑ u, (hookers' u).weight < ∑ u, (hookers u).weight := by
  obtain ⟨t, next, hStep, rfl⟩ := hTurn
  dsimp only at hStep ⊢
  obtain ⟨hRound, hOk, hWeight, hKept, hStored, hSets⟩ := hookStep_spec h.round t.isLt (h.ok t) hStep
  refine ⟨⟨hRound, fun u => ?_, fun hChange => ?_⟩, sum_update_lt Hooker.weight hookers hWeight⟩
  · obtain rfl | hNe := eq_or_ne u t
    · rwa [Function.update_self]
    · rw [Function.update_of_ne hNe]
      rcases hSets with rfl | ⟨rfl, _⟩
      · exact h.ok u
      · exact (h.ok u).changed
  · rcases hSets with rfl | ⟨_, highComp, lowComp, hPhase⟩
    · rcases h.hung hChange with ⟨x, hx, hRoot, hMoved⟩ | ⟨u, highComp, lowComp, hPhase⟩
      · exact Or.inl ⟨x, hx, hRoot, hKept x hMoved⟩
      · obtain rfl | hNe := eq_or_ne u t
        · exact Or.inl (hStored highComp lowComp hPhase)
        · exact Or.inr ⟨u, highComp, lowComp, by rwa [Function.update_of_ne hNe]⟩
    · exact Or.inr ⟨t, highComp, lowComp, by rwa [Function.update_self]⟩

theorem exists_hookStep {u : Fin g.numNodes} (comp : Nat → Nat) (change : Bool)
    (hOn : ¬ ((hookers u).todo = [] ∧ (hookers u).phase = .idle)) :
    ∃ s, Interleave (fun m s m' s' => hookStep m.1 m.2 s = some (m'.1, m'.2, s'))
      ((comp, change), hookers) s := by
  suffices hStep : ∃ s, hookStep comp change (hookers u) = some s by
    obtain ⟨⟨comp', change', next⟩, hStep⟩ := hStep
    exact ⟨((comp', change'), Function.update hookers u next), u, next, hStep, rfl⟩
  rw [hookStep]
  split
  · rename_i hPhase
    split
    · rename_i hTodo
      exact absurd ⟨hTodo, hPhase⟩ hOn
    · exact ⟨_, rfl⟩
  · exact ⟨_, rfl⟩
  · exact ⟨_, rfl⟩
  · split
    · exact ⟨_, rfl⟩
    · exact ⟨_, rfl⟩
  · exact ⟨_, rfl⟩
  · exact ⟨_, rfl⟩

/-- A round that changed something took a root away; one that did not saw equal labels only. -/
theorem Hooking.finished (h : Hooking g comp₀ comp change hookers)
    (hDone : ∀ u, (hookers u).todo = [] ∧ (hookers u).phase = .idle) :
    (change = true → ∃ x < g.numNodes, comp₀ x = x ∧ comp x ≠ x) ∧
      (change = false → Complete g comp) := by
  constructor
  · intro hChange
    refine (h.hung hChange).resolve_right ?_
    rintro ⟨u, highComp, lowComp, hPhase⟩
    rw [(hDone u).2] at hPhase
    cases hPhase
  · intro hQuiet
    have hDown := h.round.forest.descends
    have hOut : ∀ u < g.numNodes, ∀ v ∈ g.outNeigh u 0, Same comp u v := by
      intro u hu v hv
      obtain ⟨hTodo, hPhase⟩ := hDone ⟨u, hu⟩
      have hCovers := (h.ok ⟨u, hu⟩).covers hQuiet v hv
      rw [hTodo, hPhase, ← h.round.quiet hQuiet] at hCovers
      have hSame : comp u = comp v := (hCovers.resolve_left List.not_mem_nil).resolve_left fun h => h.1 rfl
      exact (same_parent hDown u).symm.trans (hSame ▸ same_parent hDown v)
    rintro u v ⟨_, hu, hv, hForward | hBackward⟩
    · exact hOut u hu v hForward
    · exact (hOut v hv u hBackward).symm

end Hooking

section Rounds

variable {g : Graph} {comp₀ comp comp' : Nat → Nat} {s t : Hooks g.numNodes} {n : Nat}

/-- How many nodes are roots. -/
def countRoots (numNodes : Nat) (comp : Nat → Nat) : Nat :=
  ((Finset.range numNodes).filter fun x => comp x = x).card

theorem RoundOk.countRoots_le {change : Bool} (h : RoundOk g comp₀ comp change) :
    countRoots g.numNodes comp ≤ countRoots g.numNodes comp₀ :=
  Finset.card_le_card (Finset.monotone_filter_right _ fun x _ => h.roots x)

theorem RoundOk.countRoots_lt {change : Bool} (h : RoundOk g comp₀ comp change)
    (hMoved : ∃ x < g.numNodes, comp₀ x = x ∧ comp x ≠ x) :
    countRoots g.numNodes comp < countRoots g.numNodes comp₀ := by
  obtain ⟨x, hx, hRoot, hNot⟩ := hMoved
  apply Finset.card_lt_card
  refine ⟨Finset.monotone_filter_right _ fun x _ => h.roots x, fun hSub => ?_⟩
  have hIn := hSub (Finset.mem_filter.mpr ⟨Finset.mem_range.mpr hx, hRoot⟩)
  exact hNot (Finset.mem_filter.mp hIn).2

theorem countRoots_eq (hForest : ForestOk g.underlying.Reachable comp)
    (hForest' : ForestOk g.underlying.Reachable comp') (hRoot : root comp' = root comp) :
    countRoots n comp' = countRoots n comp := by
  rw [countRoots, countRoots]
  congr 1
  apply Finset.filter_congr
  intro x _
  rw [← root_eq_self hForest'.descends, hRoot, root_eq_self hForest.descends]

/-- `n` counts the roots when the round began. -/
def Hooks.Ok (g : Graph) (n : Nat) (s : Hooks g.numNodes) : Prop :=
  match s.stage with
  | .test => n = countRoots g.numNodes s.comp ∧ ForestOk g.underlying.Reachable s.comp ∧
      (∀ u < g.numNodes, s.comp (s.comp u) = s.comp u) ∧ (s.change = false → Complete g s.comp)
  | .hooking hookers => ∃ comp₀, n = countRoots g.numNodes comp₀ ∧ Hooking g comp₀ s.comp s.change hookers
  | .shortcutting compressors => Compressing g s.comp compressors ∧ countRoots g.numNodes s.comp ≤ n ∧
      (s.change = true → countRoots g.numNodes s.comp < n) ∧ (s.change = false → Complete g s.comp)
  | .finished => ForestOk g.underlying.Reachable s.comp ∧
      (∀ u < g.numNodes, s.comp (s.comp u) = s.comp u) ∧ Complete g s.comp

def Hooks.order (s : Hooks n) : Nat :=
  match s.stage with
  | .test => if s.change then 4 else 1
  | .hooking _ => 3
  | .shortcutting _ => 2
  | .finished => 0

def Hooks.work (s : Hooks n) : Nat :=
  match s.stage with
  | .hooking hookers => ∑ u, (hookers u).weight
  | .shortcutting compressors => ∑ k : Fin n, (8 * s.comp k + (compressors k).phase.rank)
  | _ => 0

def hooksRank {m : Nat} (n : Nat) (s : Hooks m) : Nat ×ₗ Nat ×ₗ Nat := toLex (n, toLex (s.order, s.work))

def Hooks.At (g : Graph) (s : Hooks g.numNodes) (r : Nat ×ₗ Nat ×ₗ Nat) : Prop :=
  ∃ n, s.Ok g n ∧ r = hooksRank n s

theorem hooks_at_of_order (hOk : t.Ok g n) (hOrder : t.order < s.order) :
    ∃ r' < hooksRank n s, t.At g r' := by
  refine ⟨hooksRank n t, ?_, n, hOk, rfl⟩
  exact Prod.Lex.toLex_lt_toLex.mpr (Or.inr ⟨rfl, Prod.Lex.toLex_lt_toLex.mpr (Or.inl hOrder)⟩)

theorem hooks_at_of_work (hOk : t.Ok g n) (hOrder : t.order = s.order) (hWork : t.work < s.work) :
    ∃ r' < hooksRank n s, t.At g r' := by
  refine ⟨hooksRank n t, ?_, n, hOk, rfl⟩
  exact Prod.Lex.toLex_lt_toLex.mpr
    (Or.inr ⟨rfl, Prod.Lex.toLex_lt_toLex.mpr (Or.inr ⟨hOrder, hWork⟩)⟩)

theorem hookingStep_at {r : Nat ×ₗ Nat ×ₗ Nat} (h : s.At g r) (hStep : HookingStep g s t) :
    ∃ r' < r, t.At g r' := by
  obtain ⟨n, hOk, rfl⟩ := h
  cases hStep with
  | enter comp =>
    obtain ⟨hRoots, hForest, hFlat, _⟩ := hOk
    apply hooks_at_of_order
    · refine ⟨comp, hRoots, ⟨hForest, hFlat, fun _ => id, fun _ => rfl⟩, fun u => ?_, nofun⟩
      exact ⟨rfl, fun _ => id, fun hBusy => absurd rfl hBusy, trivial, fun _ w hw => Or.inl hw⟩
    · exact Nat.lt_succ_self 3
  | leave comp =>
    obtain ⟨_, hForest, hFlat, hComplete⟩ := hOk
    apply hooks_at_of_order
    · exact ⟨hForest, hFlat, hComplete rfl⟩
    · exact Nat.one_pos
  | hook comp comp' change change' hookers hookers' hTurn =>
    obtain ⟨comp₀, hRoots, hHooking⟩ := hOk
    obtain ⟨hNext, hWork⟩ := hHooking.turn hTurn
    exact hooks_at_of_work ⟨comp₀, hRoots, hNext⟩ rfl hWork
  | hooked comp change hookers hDone =>
    obtain ⟨comp₀, rfl, hHooking⟩ := hOk
    obtain ⟨hMoved, hComplete⟩ := hHooking.finished hDone
    apply hooks_at_of_order
    · exact ⟨compressing_start hHooking.round.forest, hHooking.round.countRoots_le,
        fun hChange => hHooking.round.countRoots_lt (hMoved hChange), hComplete⟩
    · exact Nat.lt_succ_self 2
  | shortcut comp comp' change compressors compressors' hTurn =>
    obtain ⟨hCompressing, hLe, hLess, hComplete⟩ := hOk
    obtain ⟨hNext, hRoot, hWork⟩ := hCompressing.turn hTurn
    have hCount := countRoots_eq (n := g.numNodes) hCompressing.forest hNext.forest hRoot
    apply hooks_at_of_work
    · exact ⟨hNext, hCount.trans_le hLe, fun hChange => hCount.trans_lt (hLess hChange),
        fun hQuiet => (hComplete hQuiet).of_root hRoot⟩
    · rfl
    · exact hWork
  | shortened comp change compressors hDone =>
    obtain ⟨hCompressing, hLe, hLess, hComplete⟩ := hOk
    have hFlat : ∀ u < g.numNodes, comp (comp u) = comp u := by
      intro u hu
      have hOk : (compressors ⟨u, hu⟩).phase.Ok comp (compressors ⟨u, hu⟩).n := by
        rw [hCompressing.self]
        exact hCompressing.ok ⟨u, hu⟩
      have hFixed := compressed_of_none hOk (hDone ⟨u, hu⟩)
      rwa [hCompressing.self] at hFixed
    refine ⟨_, ?_, _, ⟨rfl, hCompressing.forest, hFlat, hComplete⟩, rfl⟩
    cases change with
    | true => exact Prod.Lex.toLex_lt_toLex.mpr (Or.inl (hLess rfl))
    | false =>
      rcases hLe.lt_or_eq with hFewer | hSame
      · exact Prod.Lex.toLex_lt_toLex.mpr (Or.inl hFewer)
      · refine Prod.Lex.toLex_lt_toLex.mpr (Or.inr ⟨hSame, Prod.Lex.toLex_lt_toLex.mpr (Or.inl ?_)⟩)
        exact Nat.lt_succ_self 1

theorem hooksStart_at (g : Graph) : ∃ r, (hooksStart g).At g r :=
  ⟨_, _, ⟨rfl, ⟨fun _ => le_rfl, fun _ => .refl _⟩, fun _ _ => rfl, nofun⟩, rfl⟩

theorem Hooks.finished_of_stuck (hStuck : ∀ t, ¬ HookingStep g s t) : s.stage = .finished := by
  obtain ⟨comp, change, stage⟩ := s
  cases stage with
  | test =>
    cases change with
    | true => exact absurd (.enter comp) (hStuck _)
    | false => exact absurd (.leave comp) (hStuck _)
  | hooking hookers =>
    by_cases hDone : ∀ u, (hookers u).todo = [] ∧ (hookers u).phase = .idle
    · exact absurd (.hooked comp change hookers hDone) (hStuck _)
    · obtain ⟨u, hu⟩ := not_forall.mp hDone
      obtain ⟨⟨⟨comp', change'⟩, hookers'⟩, hTurn⟩ := exists_hookStep comp change hu
      exact absurd (.hook comp comp' change change' hookers hookers' hTurn) (hStuck _)
  | shortcutting compressors =>
    refine absurd (.shortened comp change compressors fun n => ?_) (hStuck _)
    cases hStep : compressStep comp (compressors n) with
    | none => rfl
    | some next => exact absurd (.shortcut comp next.1 change compressors _ ⟨n, next.2, hStep, rfl⟩) (hStuck _)
  | finished => rfl

/-- Flat labels of a complete forest are the least nodes of the components. -/
theorem Complete.least (h : Complete g comp) (hForest : ForestOk g.underlying.Reachable comp)
    (hFlat : ∀ u < g.numNodes, comp (comp u) = comp u) {u : Nat} (hu : u < g.numNodes) :
    IsLeast {v | g.underlying.Reachable u v} (comp u) := by
  have hRoot : ∀ u < g.numNodes, root comp u = comp u := fun u hu => by
    rw [← root_parent hForest.descends u, root_of_fixed (hFlat u hu)]
  refine ⟨hForest.sound u, fun v hv => ?_⟩
  have hSame : root comp u = root comp v := (h.same_iff hForest).mpr hv
  rw [← hRoot u hu, hSame]
  exact root_le comp v

/-- Every run of `ShiloachVishkin` ends with the labels of `Afforest`: the least nodes of the components. -/
theorem shiloachVishkin_afforest (g : Graph) (neighborRounds : Nat) :
    Acc (fun t s => HookingStep g s t) (hooksStart g) ∧
      ∀ s, ReflTransGen (HookingStep g) (hooksStart g) s → (∀ t, ¬ HookingStep g s t) →
        s.stage = .finished ∧
          (∀ u < g.numNodes, IsLeast {v | g.underlying.Reachable u v} (s.comp u)) ∧
          ∀ a, ReflTransGen (AfforestStep g neighborRounds) g.start a →
            (∀ b, ¬ AfforestStep g neighborRounds a b) → ∀ u < g.numNodes, s.comp u = a.comp u := by
  constructor
  · obtain ⟨r, hStart⟩ := hooksStart_at g
    exact acc_of_ranked (Hooks.At g) (fun _ _ _ h hStep => hookingStep_at h hStep) hStart
  · intro s hRun hStuck
    obtain ⟨r, n, hOk, _⟩ : ∃ r, s.At g r := by
      refine invariant_of_reaches (I := fun s : Hooks g.numNodes => ∃ r, s.At g r) ?_ (hooksStart_at g) hRun
      rintro s t ⟨r, h⟩ hStep
      obtain ⟨r', _, hNext⟩ := hookingStep_at h hStep
      exact ⟨r', hNext⟩
    have hStage := Hooks.finished_of_stuck hStuck
    rw [Hooks.Ok, hStage] at hOk
    obtain ⟨hForest, hFlat, hComplete⟩ := hOk
    refine ⟨hStage, fun u hu => hComplete.least hForest hFlat hu, fun a hOther hLast u hu => ?_⟩
    have hAfforest := invariant_of_reaches (I := Run.Ok g neighborRounds)
      (fun _ _ hs hStep => (afforestStep_spec hs hStep).1) (start_ok g neighborRounds) hOther
    have hEnd := hAfforest.finished hLast
    rw [Run.Ok, hEnd] at hAfforest
    obtain ⟨hForest', hComplete', hFlat'⟩ := hAfforest
    exact (hComplete.least hForest hFlat hu).unique (hComplete'.least hForest' hFlat' hu)

end Rounds

end Trident.Gapbs
