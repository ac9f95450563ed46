import Mathlib.Data.Finset.Card
import Mathlib.Data.Finset.Image
import Trident.Graph500.EdgeList

/-! # The roots of the searches

`run_bfs` up to its measurement loop, without a file of roots. The number of trials is kept in `k`,
but the test for a shortage reads `t`, which nothing has set.
-/

namespace Trident.Graph500

section Program

/-- `bfs_root` and `m` -/
structure Roots where
  bfsRoot : Nat → Nat
  m : Nat

def sampleTurn (hasAdj : Nat → Bool) (s : Roots) (challenge : Nat) : Roots :=
  if hasAdj challenge then
    -- check for duplicates
    if ∃ i < s.m, s.bfsRoot i = challenge then s
    else { bfsRoot := Function.update s.bfsRoot s.m challenge, m := s.m + 1 }
  else s

end Program

section Marking

/-- `v` is an end of an edge that is not a loop. -/
def HasEdge (edges : List PackedEdge) (v : Nat) : Prop := ∃ e ∈ edges, e.i ≠ e.j ∧ (v = e.i ∨ v = e.j)

instance (edges : List PackedEdge) (v : Nat) : Decidable (HasEdge edges v) :=
  inferInstanceAs (Decidable (∃ e ∈ edges, e.i ≠ e.j ∧ (v = e.i ∨ v = e.j)))

variable {nvtxScale : Nat} {edges : List PackedEdge}

end Marking

section Sampling

variable {hasAdj : Nat → Bool} {challenge : Nat → Nat} {s : Roots} {k : Nat}

/-- The vertices with an edge among the first `k` challenges. -/
def hits (hasAdj : Nat → Bool) (challenge : Nat → Nat) (k : Nat) : Finset Nat :=
  ((Finset.range k).image challenge).filter fun v => hasAdj v = true

/-- The roots after `k` trials. -/
structure SampledTo (hasAdj : Nat → Bool) (challenge : Nat → Nat) (k : Nat) (s : Roots) : Prop where
  distinct : Set.InjOn s.bfsRoot (Finset.range s.m)
  roots : (Finset.range s.m).image s.bfsRoot = hits hasAdj challenge k

theorem hits_succ (hasAdj : Nat → Bool) (challenge : Nat → Nat) (k : Nat) :
    hits hasAdj challenge (k + 1) =
      if hasAdj (challenge k) = true then insert (challenge k) (hits hasAdj challenge k)
      else hits hasAdj challenge k := by
  rw [hits, Finset.range_add_one, Finset.image_insert, Finset.filter_insert]
  rfl

theorem SampledTo.card (h : SampledTo hasAdj challenge k s) : (hits hasAdj challenge k).card = s.m := by
  rw [← h.roots, Finset.card_image_of_injOn h.distinct, Finset.card_range]

theorem SampledTo.mem_iff (h : SampledTo hasAdj challenge k s) (v : Nat) :
    v ∈ hits hasAdj challenge k ↔ ∃ i < s.m, s.bfsRoot i = v := by
  simp only [← h.roots, Finset.mem_image, Finset.mem_range]

theorem SampledTo.turn (h : SampledTo hasAdj challenge k s) :
    SampledTo hasAdj challenge (k + 1) (sampleTurn hasAdj s (challenge k)) := by
  have hSucc := hits_succ hasAdj challenge k
  rw [sampleTurn]
  split
  · next hAdj =>
    rw [if_pos hAdj] at hSucc
    split
    · next hOld =>
      rw [Finset.insert_eq_of_mem ((h.mem_iff _).mpr hOld)] at hSucc
      exact ⟨h.distinct, h.roots.trans hSucc.symm⟩
    · next hNew =>
      have hKept : ∀ i < s.m, Function.update s.bfsRoot s.m (challenge k) i = s.bfsRoot i := fun i hi =>
        Function.update_of_ne hi.ne _ _
      have hFresh : ∀ i < s.m, s.bfsRoot i ≠ challenge k := fun i hi hEq => hNew ⟨i, hi, hEq⟩
      constructor
      · intro i hi j hj hEq
        rw [Finset.mem_coe, Finset.mem_range, Nat.lt_succ_iff_lt_or_eq] at hi hj
        dsimp only at hEq
        obtain hi | rfl := hi
        · rw [hKept i hi] at hEq
          obtain hj | rfl := hj
          · rw [hKept j hj] at hEq
            exact h.distinct (Finset.mem_coe.mpr (Finset.mem_range.mpr hi))
              (Finset.mem_coe.mpr (Finset.mem_range.mpr hj)) hEq
          · rw [Function.update_self] at hEq
            exact absurd hEq (hFresh i hi)
        · rw [Function.update_self] at hEq
          obtain hj | rfl := hj
          · rw [hKept j hj] at hEq
            exact absurd hEq.symm (hFresh j hj)
          · rfl
      · dsimp only
        rw [hSucc, ← h.roots, Finset.range_add_one, Finset.image_insert, Function.update_self]
        congr 1
        apply Finset.image_congr
        intro i hi
        exact hKept i (Finset.mem_range.mp hi)
  · next hAdj =>
    rw [if_neg hAdj] at hSucc
    exact ⟨h.distinct, h.roots.trans hSucc.symm⟩

end Sampling

section Shortage

variable {openmp : Bool} {scale : Nat} {edges : List PackedEdge} {challenge : Nat → Fin (2 ^ scale)} {t : Int}

/-- The vertices with an edge among the numbers that there is time to draw. -/
def drawn (scale : Nat) (edges : List PackedEdge) (challenge : Nat → Fin (2 ^ scale)) : Finset Nat :=
  ((Finset.range (2 ^ scale)).image fun k => (challenge k).val).filter (HasEdge edges)

end Shortage

end Trident.Graph500
