import Mathlib.Data.List.Perm.Basic
import Trident.Lib.Transition
import Trident.Graph500.EdgeList

/-! # The concurrent permutation of the edge list

`permute_edgelist` with OpenMP. A thread means to hold the slots that it has taken by the marker
-1 that it has left there; but the fields of an edge are unsigned.
-/

namespace Trident.Graph500

open Relation Transition

section Program

def getV0FromEdge (e : PackedEdge) : Int := e.i

/-- `write_edge(p, -1, -1)` -/
def marker : PackedEdge := writeEdge (-1) (-1)

/-- A thread between two statements; `rest` has the values of `k` that it has still to do. -/
inductive Permuting where
  | turn (rest : List Nat)
  | drawing (rest : List Nat) (k : Nat) (ak : PackedEdge)
  | taking (rest : List Nat) (k place : Nat) (ak : PackedEdge)
  | loading (rest : List Nat) (k place : Nat) (ak aplace : PackedEdge)
  | moving (rest : List Nat) (k place : Nat) (ak aplace t : PackedEdge)
  | storing (rest : List Nat) (k place : Nat) (ak aplace t : PackedEdge)
  | releasing (rest : List Nat) (k place : Nat) (ak aplace : PackedEdge)
  | putting (rest : List Nat) (k place : Nat) (ak aplace : PackedEdge)
  | releasingLast (rest : List Nat) (k : Nat) (ak : PackedEdge)
  | puttingLast (rest : List Nat) (k : Nat) (ak : PackedEdge)

/-- The slots that a thread has taken and not released. -/
def Permuting.held : Permuting → List Nat
  | .turn _ => []
  | .drawing _ k _ => [k]
  | .taking _ k _ _ => [k]
  | .loading _ k place _ _ => [place, k]
  | .moving _ k place _ _ _ => [place, k]
  | .storing _ k place _ _ _ => [place, k]
  | .releasing _ k place _ _ => [place, k]
  | .putting _ k place _ _ => [place, k]
  | .releasingLast _ k _ => [k]
  | .puttingLast _ k _ => [k]

structure PermuteMem where
  slots : Nat → PackedEdge
  aborted : Bool

def PermuteMem.write (m : PermuteMem) (k : Nat) (e : PackedEdge) : PermuteMem :=
  { m with slots := Function.update m.slots k e }

/-- `take_pe`: `out` is what was read; a slot that is found marked is read again. -/
inductive TakePe (m : PermuteMem) (k : Nat) : PermuteMem → Option PackedEdge → Prop
  | take (h : 0 ≤ getV0FromEdge (m.slots k)) : TakePe m k (m.write k marker) (some (m.slots k))
  | again (h : getV0FromEdge (m.slots k) < 0) : TakePe m k m none

/-- The assertion of `release_pe`. -/
def Released (m : PermuteMem) (k : Nat) : Prop := getV0FromEdge (m.slots k) = -1

/-- One step of a thread on `nelem` edges. The place that is drawn may be any from `k` on. -/
inductive PermuteStep (nelem : Nat) : PermuteMem → Permuting → PermuteMem → Permuting → Prop
  | takeK (m m' : PermuteMem) (rest : List Nat) (k : Nat) (ak : PackedEdge)
      (h : TakePe m k m' (some ak)) : PermuteStep nelem m (.turn (k :: rest)) m' (.drawing rest k ak)
  | waitK (m m' : PermuteMem) (rest : List Nat) (k : Nat) (h : TakePe m k m' none) :
      PermuteStep nelem m (.turn (k :: rest)) m' (.turn (k :: rest))
  | stay (m : PermuteMem) (rest : List Nat) (k : Nat) (ak : PackedEdge) :
      PermuteStep nelem m (.drawing rest k ak) m (.releasingLast rest k ak)
  | draw (m : PermuteMem) (rest : List Nat) (k place : Nat) (ak : PackedEdge) (hk : k < place)
      (hn : place < nelem) : PermuteStep nelem m (.drawing rest k ak) m (.taking rest k place ak)
  | takePlace (m m' : PermuteMem) (rest : List Nat) (k place : Nat) (ak aplace : PackedEdge)
      (h : TakePe m place m' (some aplace)) :
      PermuteStep nelem m (.taking rest k place ak) m' (.loading rest k place ak aplace)
  | waitPlace (m m' : PermuteMem) (rest : List Nat) (k place : Nat) (ak : PackedEdge)
      (h : TakePe m place m' none) :
      PermuteStep nelem m (.taking rest k place ak) m' (.taking rest k place ak)
  | load (m : PermuteMem) (rest : List Nat) (k place : Nat) (ak aplace : PackedEdge) :
      PermuteStep nelem m (.loading rest k place ak aplace) m
        (.moving rest k place ak aplace (m.slots place))
  | move (m : PermuteMem) (rest : List Nat) (k place : Nat) (ak aplace t : PackedEdge) :
      PermuteStep nelem m (.moving rest k place ak aplace t) (m.write place (m.slots k))
        (.storing rest k place ak aplace t)
  | store (m : PermuteMem) (rest : List Nat) (k place : Nat) (ak aplace t : PackedEdge) :
      PermuteStep nelem m (.storing rest k place ak aplace t) (m.write k t)
        (.releasing rest k place aplace ak)
  | release (m : PermuteMem) (rest : List Nat) (k place : Nat) (ak aplace : PackedEdge)
      (h : Released m place) :
      PermuteStep nelem m (.releasing rest k place ak aplace) m (.putting rest k place ak aplace)
  | fail (m : PermuteMem) (rest : List Nat) (k place : Nat) (ak aplace : PackedEdge)
      (h : ¬ Released m place) : PermuteStep nelem m (.releasing rest k place ak aplace)
        { m with aborted := true } (.releasing rest k place ak aplace)
  | put (m : PermuteMem) (rest : List Nat) (k place : Nat) (ak aplace : PackedEdge) :
      PermuteStep nelem m (.putting rest k place ak aplace) (m.write place aplace)
        (.releasingLast rest k ak)
  | releaseLast (m : PermuteMem) (rest : List Nat) (k : Nat) (ak : PackedEdge) (h : Released m k) :
      PermuteStep nelem m (.releasingLast rest k ak) m (.puttingLast rest k ak)
  | failLast (m : PermuteMem) (rest : List Nat) (k : Nat) (ak : PackedEdge) (h : ¬ Released m k) :
      PermuteStep nelem m (.releasingLast rest k ak) { m with aborted := true } (.releasingLast rest k ak)
  | putLast (m : PermuteMem) (rest : List Nat) (k : Nat) (ak : PackedEdge) :
      PermuteStep nelem m (.puttingLast rest k ak) (m.write k ak) (.turn rest)

/-- A failed assertion ends the program. -/
def RunningStep (nelem : Nat) (m : PermuteMem) (a : Permuting) (m' : PermuteMem) (b : Permuting) : Prop :=
  m.aborted = false ∧ PermuteStep nelem m a m' b

/-- `omp for`: every turn goes to some thread. -/
structure Turns (ι : Type*) (nelem : Nat) where
  turns : ι → List Nat
  total : ∀ k < nelem, ∃ i, k ∈ turns i
  inside : ∀ i, ∀ k ∈ turns i, k < nelem
  once : ∀ i, (turns i).Nodup
  apart : ∀ i j, i ≠ j → (turns i).Disjoint (turns j)

abbrev PermuteState (ι : Type*) := PermuteMem × (ι → Permuting)

variable {ι : Type*} [DecidableEq ι]

def permuteStart (edges : List PackedEdge) (schedule : Turns ι edges.length) : PermuteState ι :=
  ({ slots := fun k => edges.getD k marker, aborted := false }, fun i => .turn (schedule.turns i))

def PermuteRuns (edges : List PackedEdge) (schedule : Turns ι edges.length) : PermuteState ι → Prop :=
  ReflTransGen (Interleave (RunningStep edges.length)) (permuteStart edges schedule)

/-- What the permutation is to keep in every state. -/
structure Excludes (edges : List PackedEdge) (s : PermuteState ι) : Prop where
  asserted : s.1.aborted = false
  exclusive : ∀ i j, i ≠ j → (s.2 i).held.Disjoint (s.2 j).held
  marked : ∀ i, ∀ k ∈ (s.2 i).held, getV0FromEdge (s.1.slots k) = -1
  permuted : (∀ i, s.2 i = .turn []) → ((List.range edges.length).map s.1.slots).Perm edges

end Program

section Aborts

variable {ι : Type*} [DecidableEq ι] {edges : List PackedEdge} {schedule : Turns ι edges.length}

theorem v0_nonneg (e : PackedEdge) : 0 ≤ getV0FromEdge e := Int.natCast_nonneg _

/-- Not even the marker itself reads as the marker. -/
theorem marker_v0 : getV0FromEdge marker = 2 ^ 32 - 1 := by decide

theorem not_released (m : PermuteMem) (k : Nat) : ¬ Released m k := by
  intro h
  have hNonneg := v0_nonneg (m.slots k)
  rw [Released] at h
  omega

/-- A slot is taken at once, marked or not. -/
theorem takePe (m : PermuteMem) (k : Nat) : TakePe m k (m.write k marker) (some (m.slots k)) :=
  .take (v0_nonneg _)

/-- A turn that draws its own place fails when it releases the slot. -/
theorem alone_aborts {nelem : Nat} {m : PermuteMem} (hRunning : m.aborted = false) (k : Nat)
    (rest : List Nat) :
    ReflTransGen (Alone (RunningStep nelem)) (m, .turn (k :: rest))
      ({ m.write k marker with aborted := true }, .releasingLast rest k (m.slots k)) := by
  have hTake : Alone (RunningStep nelem) (m, .turn (k :: rest))
      (m.write k marker, .drawing rest k (m.slots k)) :=
    .turn ⟨hRunning, .takeK m _ rest k _ (takePe m k)⟩
  have hStay : Alone (RunningStep nelem) (m.write k marker, .drawing rest k (m.slots k))
      (m.write k marker, .releasingLast rest k (m.slots k)) := .turn ⟨hRunning, .stay _ rest k _⟩
  have hFail : Alone (RunningStep nelem) (m.write k marker, .releasingLast rest k (m.slots k))
      ({ m.write k marker with aborted := true }, .releasingLast rest k (m.slots k)) :=
    .turn ⟨hRunning, .failLast _ rest k _ (not_released _ k)⟩
  exact ((ReflTransGen.single hTake).tail hStay).tail hFail

theorem exists_abort (schedule : Turns ι edges.length) (hEdges : edges ≠ []) :
    ∃ s, PermuteRuns edges schedule s ∧ s.1.aborted = true := by
  obtain ⟨i, hFirst⟩ := schedule.total 0 (List.length_pos_iff.mpr hEdges)
  cases hTurns : schedule.turns i with
  | nil =>
    rw [hTurns] at hFirst
    cases hFirst
  | cons k rest =>
    have hThread : (permuteStart edges schedule).2 i = .turn (k :: rest) := congrArg Permuting.turn hTurns
    exact ⟨_, interleave_of_alone (alone_aborts rfl k rest) _ hThread, rfl⟩

/-- A thread that has not come to the end of a turn. -/
def Unreleased (turns : List Nat) : Permuting → Prop
  | .turn rest => rest = turns
  | .putting .. => False
  | .puttingLast .. => False
  | _ => True

theorem PermuteStep.unreleased {nelem : Nat} {m m' : PermuteMem} {a b : Permuting} {turns : List Nat}
    (h : PermuteStep nelem m a m' b) (ha : Unreleased turns a) : Unreleased turns b := by
  cases h with
  | waitK => exact ha
  | release _ _ _ _ _ h => exact not_released _ _ h
  | releaseLast _ _ _ h => exact not_released _ _ h
  | putLast => exact ha.elim
  | _ => trivial

theorem runs_unreleased {s : PermuteState ι} (h : PermuteRuns edges schedule s) (i : ι) :
    Unreleased (schedule.turns i) (s.2 i) := by
  have hInvariant : ∀ i, Unreleased (schedule.turns i) (s.2 i) := by
    apply invariant_of_reaches (I := fun s : PermuteState ι => ∀ i, Unreleased (schedule.turns i) (s.2 i)) _ _ h
    · rintro s t hs ⟨j, next, ⟨_, hStep⟩, hLocals⟩ i
      rw [hLocals]
      obtain rfl | hNe := eq_or_ne i j
      · rw [Function.update_self]
        exact hStep.unreleased (hs i)
      · rw [Function.update_of_ne hNe]
        exact hs i
    · exact fun i => rfl
  exact hInvariant i

theorem exists_step (nelem : Nat) (m : PermuteMem) {a : Permuting} (ha : a ≠ .turn []) :
    ∃ m' b, PermuteStep nelem m a m' b := by
  cases a with
  | turn rest =>
    cases rest with
    | nil => exact absurd rfl ha
    | cons k rest => exact ⟨_, _, .takeK m _ rest k _ (takePe m k)⟩
  | drawing rest k ak => exact ⟨_, _, .stay m rest k ak⟩
  | taking rest k place ak => exact ⟨_, _, .takePlace m _ rest k place ak _ (takePe m place)⟩
  | loading rest k place ak aplace => exact ⟨_, _, .load m rest k place ak aplace⟩
  | moving rest k place ak aplace t => exact ⟨_, _, .move m rest k place ak aplace t⟩
  | storing rest k place ak aplace t => exact ⟨_, _, .store m rest k place ak aplace t⟩
  | releasing rest k place ak aplace => exact ⟨_, _, .fail m rest k place ak aplace (not_released m place)⟩
  | putting rest k place ak aplace => exact ⟨_, _, .put m rest k place ak aplace⟩
  | releasingLast rest k ak => exact ⟨_, _, .failLast m rest k ak (not_released m k)⟩
  | puttingLast rest k ak => exact ⟨_, _, .putLast m rest k ak⟩

/-- However a run goes on, it ends with an assertion. -/
theorem stuck_aborted (hEdges : edges ≠ []) {s : PermuteState ι} (h : PermuteRuns edges schedule s)
    (hStuck : ∀ t, ¬ Interleave (RunningStep edges.length) s t) : s.1.aborted = true := by
  by_contra hRunning
  rw [Bool.not_eq_true] at hRunning
  obtain ⟨i, hFirst⟩ := schedule.total 0 (List.length_pos_iff.mpr hEdges)
  have hThread : s.2 i ≠ .turn [] := by
    intro hDone
    have hUnreleased := runs_unreleased h i
    rw [hDone] at hUnreleased
    rw [← hUnreleased] at hFirst
    cases hFirst
  obtain ⟨m', b, hStep⟩ := exists_step edges.length s.1 hThread
  exact hStuck (m', _) ⟨i, b, ⟨hRunning, hStep⟩, rfl⟩

/-- The exclusion holds where there is nothing to permute, and nowhere else. -/
theorem permute_excludes_iff (edges : List PackedEdge) (schedule : Turns ι edges.length) :
    ((∀ s, PermuteRuns edges schedule s → Excludes edges s) ↔ edges = []) ∧
      (edges ≠ [] → ∀ s, PermuteRuns edges schedule s →
        (∀ t, ¬ Interleave (RunningStep edges.length) s t) → s.1.aborted = true) := by
  refine ⟨⟨fun hAll => ?_, ?_⟩, fun hEdges s h hStuck => stuck_aborted hEdges h hStuck⟩
  · by_contra hEdges
    obtain ⟨s, hRun, hAborted⟩ := exists_abort schedule hEdges
    have hAsserted := (hAll s hRun).asserted
    rw [hAborted] at hAsserted
    cases hAsserted
  · rintro rfl s hRun
    have hNone : ∀ i, schedule.turns i = [] := fun i =>
      List.eq_nil_iff_forall_not_mem.mpr fun k hk => Nat.not_lt_zero k (schedule.inside i k hk)
    have hStart : s = permuteStart [] schedule := by
      apply invariant_of_reaches (I := fun s => s = permuteStart [] schedule) _ rfl hRun
      rintro s t rfl ⟨i, next, ⟨_, hStep⟩, _⟩
      simp only [permuteStart, hNone] at hStep
      cases hStep
    have hHeld : ∀ i, (s.2 i).held = [] := fun i => by rw [hStart]; rfl
    constructor
    · rw [hStart]
      rfl
    · intro i j _
      rw [hHeld i]
      exact List.disjoint_nil_left _
    · intro i k hk
      rw [hHeld i] at hk
      cases hk
    · intro _
      exact .nil

/-- One thread that has one edge to permute. -/
def loneTurn : Turns Unit 1 where
  turns _ := [0]
  total k hk := ⟨(), by simpa using hk⟩
  inside := by simp
  once := by simp
  apart i j hNe := absurd rfl hNe

theorem lone_edge_aborts : ¬ ∀ s, PermuteRuns [⟨0, 1⟩] loneTurn s → Excludes [⟨0, 1⟩] s := by
  intro hAll
  obtain ⟨s, hRun, hAborted⟩ := @exists_abort Unit _ [⟨0, 1⟩] loneTurn (List.cons_ne_nil _ _)
  have hAsserted := (hAll s hRun).asserted
  rw [hAborted] at hAsserted
  cases hAsserted

end Aborts

end Trident.Graph500
