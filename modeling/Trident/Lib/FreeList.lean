import Mathlib.Data.List.Range
import Mathlib.Data.List.Nodup

/-! # Slabs with a free list

Slots `0, 1, …` are carved from slabs in turn. A slot is live or stands on the
free list, which is linked through the slots themselves.
-/

namespace Trident.FreeList

inductive Chained (next : Nat → Option Nat) : Option Nat → List Nat → Prop
  | nil : Chained next none []
  | cons {x : Nat} {l : List Nat} : Chained next (next x) l → Chained next (some x) (x :: l)

theorem Chained.congr {next next' : Nat → Option Nat} {head : Option Nat} {l : List Nat}
    (h : Chained next head l) (hNext : ∀ x ∈ l, next' x = next x) : Chained next' head l := by
  induction h with
  | nil => exact .nil
  | @cons x l _ ih =>
    apply Chained.cons
    rw [hNext x List.mem_cons_self]
    exact ih fun y hy => hNext y (List.mem_cons_of_mem x hy)

theorem Chained.unique {next : Nat → Option Nat} {head : Option Nat} {l l' : List Nat}
    (h : Chained next head l) (h' : Chained next head l') : l = l' := by
  induction h generalizing l' with
  | nil =>
    cases h'
    rfl
  | cons _ ih =>
    cases h' with
    | cons hRest => rw [ih hRest]

/-- Each of the first `brk` slots is either live or once on the free list. -/
def Pool (next : Nat → Option Nat) (head : Option Nat) (brk : Nat) (live : List Nat) : Prop :=
  ∃ free, Chained next head free ∧ (live ++ free).Perm (List.range brk)

namespace Pool

variable {next next' : Nat → Option Nat} {head : Option Nat} {brk : Nat} {live : List Nat}

theorem empty : Pool next none 0 [] := ⟨[], .nil, .refl _⟩

theorem nodup (h : Pool next head brk live) : live.Nodup := by
  obtain ⟨free, _, hPerm⟩ := h
  exact (hPerm.nodup_iff.mpr List.nodup_range).of_append_left

theorem lt_brk (h : Pool next head brk live) {x : Nat} (hx : x ∈ live) : x < brk := by
  obtain ⟨free, _, hPerm⟩ := h
  exact List.mem_range.mp (hPerm.mem_iff.mp (List.mem_append_left free hx))

theorem length_le (h : Pool next head brk live) : live.length ≤ brk := by
  obtain ⟨free, _, hPerm⟩ := h
  have hLength := hPerm.length_eq
  rw [List.length_append, List.length_range] at hLength
  omega

theorem perm {live' : List Nat} (h : Pool next head brk live) (hLive : live.Perm live') :
    Pool next head brk live' := by
  obtain ⟨free, hChain, hPerm⟩ := h
  exact ⟨free, hChain, (hLive.symm.append_right free).trans hPerm⟩

theorem congr (h : Pool next head brk live) (hNext : ∀ x, x ∉ live → next' x = next x) :
    Pool next' head brk live := by
  obtain ⟨free, hChain, hPerm⟩ := h
  have hNodup := hPerm.nodup_iff.mpr List.nodup_range
  exact ⟨free, hChain.congr fun x hx => hNext x fun hLive =>
    (List.nodup_append.mp hNodup).2.2 x hLive x hx rfl, hPerm⟩

theorem take {x : Nat} (h : Pool next (some x) brk live) :
    Pool next (next x) brk (x :: live) ∧ x ∉ live := by
  obtain ⟨free, hChain, hPerm⟩ := h
  cases hChain with
  | @cons _ free hRest =>
    have hMove : (x :: live ++ free).Perm (live ++ x :: free) := List.perm_middle.symm
    refine ⟨⟨free, hRest, hMove.trans hPerm⟩, fun hLive => ?_⟩
    have hNodup := hPerm.nodup_iff.mpr List.nodup_range
    exact (List.nodup_append.mp hNodup).2.2 x hLive x List.mem_cons_self rfl

theorem give {x : Nat} (h : Pool next head brk (x :: live)) (hNext : ∀ y, y ≠ x → next' y = next y)
    (hHead : next' x = head) : Pool next' (some x) brk live := by
  obtain ⟨free, hChain, hPerm⟩ := h
  have hNodup := hPerm.nodup_iff.mpr List.nodup_range
  refine ⟨x :: free, .cons ?_, List.perm_middle.trans hPerm⟩
  rw [hHead]
  refine hChain.congr fun y hy => hNext y fun hEq => ?_
  exact (List.nodup_append.mp hNodup).2.2 x List.mem_cons_self y hy hEq.symm

theorem carve (h : Pool next head brk live) (hNext : ∀ y, y ≠ brk → next' y = next y)
    (hHead : next' brk = head) : Pool next' (some brk) (brk + 1) live := by
  obtain ⟨free, hChain, hPerm⟩ := h
  refine ⟨brk :: free, .cons ?_, ?_⟩
  · rw [hHead]
    refine hChain.congr fun y hy => hNext y ?_
    have hLt := List.mem_range.mp (hPerm.mem_iff.mp (List.mem_append_right live hy))
    omega
  · rw [List.range_succ]
    exact (List.perm_middle.trans (hPerm.cons brk)).trans (List.perm_append_singleton brk _).symm

end Pool

end Trident.FreeList
