import Mathlib.Logic.Relation
import Mathlib.Algebra.BigOperators.Group.Finset.Basic
import Mathlib.Data.Fintype.BigOperators

/-! # Transition systems and interleaved threads

Rules for invariants of a step relation, for histories of events, and for a
family of threads that take turns on one shared state.
-/

namespace Trident.Transition

open Relation

section Invariants

variable {σ : Type*} {step : σ → σ → Prop}

theorem invariant_of_reaches {I : σ → Prop} (hStep : ∀ s t, I s → step s t → I t) {s t : σ}
    (hs : I s) (h : ReflTransGen step s t) : I t := by
  induction h with
  | refl => exact hs
  | tail _ hbc ih => exact hStep _ _ ih hbc

end Invariants

section Termination

variable {σ : Type*} {step : σ → σ → Prop}

/-- Where no run goes on for ever, every state has a run that cannot go on. -/
theorem exists_final (hEnds : WellFounded fun t s => step s t) (s : σ) :
    ∃ t, ReflTransGen step s t ∧ ∀ u, ¬ step t u := by
  induction s using hEnds.induction with
  | h s ih =>
    rcases Classical.em (∃ t, step s t) with ⟨t, hStep⟩ | hFinal
    · obtain ⟨u, hRun, hLast⟩ := ih t hStep
      exact ⟨u, ReflTransGen.head hStep hRun, hLast⟩
    · exact ⟨s, ReflTransGen.refl, fun t hStep => hFinal ⟨t, hStep⟩⟩

theorem wellFounded_of_decreasing (weight : σ → Nat) (h : ∀ s t, step s t → weight t < weight s) :
    WellFounded fun t s => step s t :=
  Subrelation.wf (fun {_ _} hStep => h _ _ hStep) (measure weight).wf

/-- Where every step lowers a rank, no run goes on for ever. -/
theorem acc_of_ranked {α : Type*} [LT α] [WellFoundedLT α] (At : σ → α → Prop)
    (hStep : ∀ s r t, At s r → step s t → ∃ r' < r, At t r') {s : σ} {r : α} (hs : At s r) :
    Acc (fun t s => step s t) s := by
  induction r using WellFoundedLT.induction generalizing s with
  | ind r ih =>
    refine ⟨s, fun t ht => ?_⟩
    obtain ⟨r', hLess, hAt⟩ := hStep s r t hs ht
    exact ih r' hLess hAt

end Termination

section Histories

variable {α : Type*} {R : List α → α → Prop} {history : List α} {e : α}

/-- Every event of the history is allowed by what came before it. -/
def Justified (R : List α → α → Prop) (history : List α) : Prop :=
  ∀ before e after, history = before ++ e :: after → R before e

theorem justified_nil : Justified R [] := by
  intro before e after h
  simp at h

theorem justified_concat_iff : Justified R (history ++ [e]) ↔ Justified R history ∧ R history e := by
  constructor
  · intro h
    refine ⟨fun before d after hSplit => h before d (after ++ [e]) ?_, h history e [] rfl⟩
    rw [hSplit, List.append_assoc, List.cons_append]
  · rintro ⟨hOld, hNew⟩ before d after hSplit
    cases List.eq_nil_or_concat after with
    | inl hNil =>
      rw [hNil] at hSplit
      obtain ⟨rfl, hLast⟩ := List.append_inj' hSplit rfl
      cases hLast
      exact hNew
    | inr hConcat =>
      obtain ⟨rest, d', rfl⟩ := hConcat
      have hSplit' : history ++ [e] = (before ++ d :: rest) ++ [d'] := by
        rw [hSplit, List.append_assoc, List.cons_append, List.concat_eq_append]
      exact hOld before d rest (List.append_inj' hSplit' rfl).1

end Histories

section Threads

variable {σ ι l : Type*} [DecidableEq ι]

/-- One thread takes one step; the locals of the others stay as they are. -/
def Interleave (step : σ → l → σ → l → Prop) (s t : σ × (ι → l)) : Prop :=
  ∃ i next, step s.1 (s.2 i) t.1 next ∧ t.2 = Function.update s.2 i next

/-- A thread runs while the others wait. -/
inductive Alone (step : σ → l → σ → l → Prop) : σ × l → σ × l → Prop
  | turn {m m' : σ} {thread next : l} (h : step m thread m' next) : Alone step (m, thread) (m', next)

theorem interleave_of_alone {step : σ → l → σ → l → Prop} {a b : σ × l}
    (h : ReflTransGen (Alone step) a b) (threads : ι → l) {i : ι} (hThread : threads i = a.2) :
    ReflTransGen (Interleave step) (a.1, threads) (b.1, Function.update threads i b.2) := by
  induction h with
  | refl => rw [← hThread, Function.update_eq_self]
  | tail _ hLast ih =>
    cases hLast with
    | @turn m m' thread next hTurn =>
      refine ih.tail ⟨i, next, ?_, (Function.update_idem ..).symm⟩
      dsimp only
      rw [Function.update_self]
      exact hTurn

/-- What a thread keeps in a step is kept for all threads. -/
theorem comp_update_eq {α : Type*} (F : l → α) (threads : ι → l) {i : ι} {next : l}
    (h : F next = F (threads i)) : F ∘ Function.update threads i next = F ∘ threads := by
  rw [Function.comp_update, h]
  exact Function.update_eq_self i (F ∘ threads)

end Threads

section Counting

variable {ι α M : Type*} [Fintype ι] [DecidableEq ι] [AddCommMonoid M]

/-- Changing one entry of a table changes a sum over it by that entry alone. -/
theorem sum_update_add (F : α → M) (g : ι → α) (i : ι) (v : α) :
    ∑ j, F (Function.update g i v j) + F (g i) = ∑ j, F (g j) + F v := by
  rw [Fintype.sum_eq_add_sum_compl i, Fintype.sum_eq_add_sum_compl i (fun j => F (g j))]
  have hRest : ∑ j ∈ {i}ᶜ, F (Function.update g i v j) = ∑ j ∈ {i}ᶜ, F (g j) := by
    apply Finset.sum_congr rfl
    intro j hj
    rw [Function.update_of_ne (by simpa using hj)]
  rw [hRest, Function.update_self, add_right_comm, add_comm (F v), add_right_comm]

theorem sum_update_lt (weight : α → Nat) (g : ι → α) {i : ι} {v : α} (h : weight v < weight (g i)) :
    ∑ j, weight (Function.update g i v j) < ∑ j, weight (g j) := by
  have hSum := sum_update_add weight g i v
  omega

end Counting

end Trident.Transition
