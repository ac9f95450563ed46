import Mathlib.Data.Fintype.Lattice
import Trident.Lib.Transition

/-! # Teams of threads that meet at barriers

The threads of a team share a state and take turns on it. Each is in a stage, stages
are counted up, and a barrier is a stage that no thread leaves before all have come to it.
-/

namespace Trident.Barriers

open Relation Transition

variable {σ ι l : Type*} [DecidableEq ι]

section Stages

variable {stage : l → Nat} {turn : (Nat → Prop) → ι → σ × l → σ × l → Prop}
variable {s t : σ × (ι → l)} {b : Nat}

def Reached (stage : l → Nat) (threads : ι → l) (b : Nat) : Prop := ∀ j, b ≤ stage (threads j)

/-- One thread takes one step, which may ask which barriers all threads have reached. -/
def TeamStep (stage : l → Nat) (turn : (Nat → Prop) → ι → σ × l → σ × l → Prop)
    (s t : σ × (ι → l)) : Prop :=
  ∃ i next, turn (Reached stage s.2) i (s.1, s.2 i) (t.1, next) ∧ t.2 = Function.update s.2 i next

/-- Turns go up in the stages, and past the barrier `b` only once all have reached it. -/
def Keeps (stage : l → Nat) (turn : (Nat → Prop) → ι → σ × l → σ × l → Prop) (b : Nat) : Prop :=
  ∀ reached i a a', turn reached i a a' →
    stage a.2 ≤ stage a'.2 ∧ (stage a.2 ≤ b → b < stage a'.2 → reached b)

/-- No thread is past the barrier `b` before all have reached it. -/
def Together (stage : l → Nat) (threads : ι → l) (b : Nat) : Prop :=
  ∀ i, b < stage (threads i) → Reached stage threads b

theorem Reached.update {threads : ι → l} (h : Reached stage threads b) {i : ι} {next : l}
    (hNext : stage (threads i) ≤ stage next) : Reached stage (Function.update threads i next) b := by
  intro j
  obtain rfl | hne := eq_or_ne j i
  · rw [Function.update_self]
    exact (h j).trans hNext
  · rw [Function.update_of_ne hne]
    exact h j

theorem Together.step (hKeeps : Keeps stage turn b) (h : Together stage s.2 b)
    (hStep : TeamStep stage turn s t) : Together stage t.2 b := by
  obtain ⟨i, next, hTurn, hThreads⟩ := hStep
  obtain ⟨hUp, hPast⟩ := hKeeps _ _ _ _ hTurn
  dsimp only at hUp hPast
  intro j hj
  rw [hThreads] at hj ⊢
  refine Reached.update ?_ hUp
  obtain rfl | hne := eq_or_ne j i
  · rw [Function.update_self] at hj
    rcases Nat.lt_or_ge b (stage (s.2 j)) with hOld | hOld
    · exact h j hOld
    · exact hPast hOld hj
  · rw [Function.update_of_ne hne] at hj
    exact h j hj

/-- A team gets on as long as a thread that no other is behind has a turn: one in the
lowest stage is such a thread. -/
theorem exists_teamStep [Finite ι] [Nonempty ι] {top : Nat}
    (hTurn : ∀ i, stage (s.2 i) < top → Reached stage s.2 (stage (s.2 i)) →
      ∃ a', turn (Reached stage s.2) i (s.1, s.2 i) a')
    (hLeft : ∃ i, stage (s.2 i) < top) : ∃ t, TeamStep stage turn s t := by
  obtain ⟨i, hMin⟩ := Finite.exists_min fun i => stage (s.2 i)
  obtain ⟨j, hj⟩ := hLeft
  obtain ⟨⟨m, next⟩, hNext⟩ := hTurn i ((hMin j).trans_lt hj) hMin
  exact ⟨(m, Function.update s.2 i next), i, next, hNext, rfl⟩

theorem wellFounded_teamStep [Fintype ι] (weight : l → Nat)
    (hTurn : ∀ reached i a a', turn reached i a a' → weight a'.2 < weight a.2) :
    WellFounded fun t s => TeamStep stage turn s t := by
  refine wellFounded_of_decreasing (fun s => ∑ i, weight (s.2 i)) ?_
  rintro s t ⟨i, next, hNext, hThreads⟩
  rw [hThreads]
  exact sum_update_lt weight s.2 (hTurn _ _ _ _ hNext)

end Stages

end Trident.Barriers
