import Mathlib.Algebra.BigOperators.Fin
import Trident.Canneal.NetlistReader

/-! # The cost of a chip that has been read

Whatever a file holds, the chip that the constructor makes of it has every net in the lists of
both its ends, so that halving the cost counts every net once, wherever the elements have been
moved.
-/

namespace Trident.Canneal

open Streams

section Costs

namespace Chip

/-- The cost of some nets from a location; `none` is a null pointer. -/
def netCost (c : Chip) (loc : Location) (nets : List Nat) : Option ℚ :=
  nets.foldlM (fun cost f => (c.elements f).presentLoc.map (addDistance cost loc)) 0

def routingCostGivenLoc (c : Chip) (e : Nat) (loc : Location) : Option ℚ := do
  let faninCost ← c.netCost loc (c.elements e).fanin
  let fanoutCost ← c.netCost loc (c.elements e).fanout
  some (faninCost + fanoutCost)

/-- The loop over `_elem_names`, whose keys are `names`. -/
def totalRoutingCost (c : Chip) (names : List Name) : Option ℚ := do
  let rval ← names.foldlM (fun rval name => do
    let elem ← c.elemNames name
    let loc ← (c.elements elem).presentLoc
    let cost ← c.routingCostGivenLoc elem loc
    some (rval + cost)) 0
  some (rval / 2)

/-- `netlist::swap_locations`. The build with threads exchanges the locations by `Swap`, where
an element that is swapped with itself waits for the pointer that it has checked out; the build
without them leaves such an element as it is. -/
def swapLocations (c : Chip) (swap : Nat × Nat) : Option Chip :=
  let (a, b) := swap
  if a = b then none
  else some ((c.update a fun e => { e with presentLoc := (c.elements b).presentLoc }).update b
    fun e => { e with presentLoc := (c.elements a).presentLoc })

/-- The keys of `_elem_names` in the order of the map. -/
structure Keys (c : Chip) (names : List Name) : Prop where
  ascending : names.Pairwise (· < ·)
  mem : ∀ name, name ∈ names ↔ ∃ i, c.elemNames name = some i

end Chip

end Costs

section Reading

variable {T : Type*} {readUnsigned : Stream → Option Nat × Stream} {readType : Stream → T × Stream}
  {c c' : Chip} {order : List Name} {name : Name}

def Chip.Located (c : Chip) : Prop := ∀ i < c.chipSize, ∃ loc, (c.elements i).presentLoc = some loc

structure Consistent (c : Chip) (order : List Name) : Prop where
  built : Built order c order
  located : c.Located

theorem Allocated.own {known : List Name} (h : Allocated known c order) : Allocated order c order where
  nodup := h.nodup
  names := h.names
  unused := h.unused
  subset := List.Subset.refl order
  room := (h.nodup.subperm h.subset).length_le.trans h.room

theorem Chip.Located.update (h : c.Located) (i : Nat) {f : Elem → Elem}
    (hf : ∃ loc, (f (c.elements i)).presentLoc = some loc) : (c.update i f).Located := by
  intro k hk
  obtain rfl | hNe := eq_or_ne k i
  · rw [update_self]
    exact hf
  · rw [update_of_ne c f hNe]
    exact h k hk

theorem nets_update (c : Chip) (i : Nat) {f : Elem → Elem}
    (hf : ∀ e, (f e).fanin = e.fanin ∧ (f e).fanout = e.fanout) (k : Nat) :
    ((c.update i f).elements k).fanin = (c.elements k).fanin ∧
      ((c.update i f).elements k).fanout = (c.elements k).fanout := by
  obtain rfl | hNe := eq_or_ne k i
  · rw [update_self]
    exact hf _
  · rw [update_of_ne c f hNe]
    exact ⟨rfl, rfl⟩

theorem Built.update (h : Built order c order) (i : Nat) {f : Elem → Elem}
    (hf : ∀ e, (f e).fanin = e.fanin ∧ (f e).fanout = e.fanout) : Built order (c.update i f) order := by
  constructor
  · exact h.allocated.update i f
  · constructor
    · intro j k
      rw [(nets_update c i hf j).1, (nets_update c i hf k).2]
      exact h.wired.converse j k
    · intro j k hk
      rw [(nets_update c i hf j).1] at hk
      exact h.wired.nets j k hk

theorem createElemIfNecessary_chipSize {i : Nat} (hCall : c.createElemIfNecessary name = some (c', i)) :
    c'.chipSize = c.chipSize := by
  rw [Chip.createElemIfNecessary] at hCall
  split at hCall
  · cases hCall
    rfl
  · split at hCall
    · cases hCall
      rfl
    · cases hCall

theorem Consistent.createElem {i : Nat} (h : Consistent c order)
    (hCall : c.createElemIfNecessary name = some (c', i)) :
    ∃ order', Consistent c' order' ∧ order.length ≤ order'.length ∧ i < order'.length := by
  obtain ⟨known, hAlloc, hKnown⟩ : ∃ known, Allocated known c order ∧ name ∈ known := by
    cases hName : c.elemNames name with
    | some j =>
      have hIndex := (h.built.allocated.names name j).mp hName
      exact ⟨order, h.built.allocated, List.mem_of_getElem? hIndex⟩
    | none =>
      have hRoom : c.unusedElem < c.chipSize := by
        rw [Chip.createElemIfNecessary, hName] at hCall
        by_contra hFull
        rw [if_neg hFull] at hCall
        cases hCall
      have hOld := h.built.allocated
      rw [hOld.unused] at hRoom
      exact ⟨name :: order, ⟨hOld.nodup, hOld.names, hOld.unused, List.subset_cons_self name order, hRoom⟩,
        List.mem_cons_self⟩
  obtain ⟨c'', i', order', hSpec, hAlloc', hPrefix, hIndex, hElements⟩ :=
    createElemIfNecessary_spec hAlloc hKnown
  rw [hSpec, Option.some_inj, Prod.mk.injEq] at hCall
  obtain ⟨rfl, rfl⟩ := hCall
  refine ⟨order', ⟨⟨hAlloc'.own, h.built.wired.mono hElements hPrefix⟩, fun k hk => ?_⟩, hPrefix.length_le,
    (List.getElem?_eq_some_iff.mp hIndex).1⟩
  rw [createElemIfNecessary_chipSize hSpec] at hk
  rw [hElements]
  exact h.located k hk

theorem Consistent.lt_chipSize (h : Consistent c order) {i : Nat} (hi : i < order.length) : i < c.chipSize :=
  hi.trans_le h.built.allocated.room

theorem Consistent.addNet (h : Consistent c order) {i j : Nat} (hi : i < order.length)
    (hj : j < order.length) : Consistent (addNet c i j) order := by
  have hi' := h.lt_chipSize hi
  have hj' := h.lt_chipSize hj
  constructor
  · exact ⟨(h.built.allocated.update _ _).update _ _, h.built.wired.addNet hi hj⟩
  · have hPresent : (c.update i fun e => { e with fanin := e.fanin ++ [j] }).Located :=
      h.located.update i (h.located i hi')
    exact hPresent.update j (hPresent j hj')

theorem readFanin_consistent {present fuel : Nat} {fin fin' : Stream} (h : Consistent c order)
    (hPresent : present < order.length) (hCall : Chip.readFanin present fuel (c, fin) = some (c', fin')) :
    ∃ order', Consistent c' order' := by
  induction fuel generalizing c order fin with
  | zero => cases hCall
  | succ fuel ih =>
    rw [Chip.readFanin] at hCall
    split at hCall
    · cases hCall
      exact ⟨order, h⟩
    · split at hCall
      · cases hCall
        exact ⟨order, h⟩
      · obtain ⟨⟨c₁, j⟩, hCreate, hRest⟩ := Option.bind_eq_some_iff.mp hCall
        obtain ⟨order₁, h₁, hLe, hj⟩ := h.createElem hCreate
        have hi : present < order₁.length := hPresent.trans_le hLe
        exact ih (h₁.addNet hi hj) hi hRest

theorem readElementsBy_consistent {fuel : Nat} {fin : Stream} (h : Consistent c order)
    (hCall : Chip.readElementsBy readType fuel (c, fin) = some c') : ∃ order', Consistent c' order' := by
  induction fuel generalizing c order fin with
  | zero => cases hCall
  | succ fuel ih =>
    rw [Chip.readElementsBy] at hCall
    split at hCall
    · cases hCall
      exact ⟨order, h⟩
    · obtain ⟨⟨c₂, fin₂⟩, hTurn, hRest⟩ := Option.bind_eq_some_iff.mp hCall
      obtain ⟨⟨c₁, i⟩, hCreate, hFanin⟩ := Option.bind_eq_some_iff.mp hTurn
      obtain ⟨order₁, h₁, _, hi⟩ := h.createElem hCreate
      have hNamed : Consistent (c₁.update i fun e => { e with itemName := (readWord fin).1.getD [] }) order₁ := by
        constructor
        · exact h₁.built.update i fun _ => ⟨rfl, rfl⟩
        · exact h₁.located.update i (h₁.located i (h₁.lt_chipSize hi))
      obtain ⟨order₂, h₂⟩ := readFanin_consistent hNamed hi hFanin
      exact ih h₂ hRest

theorem setLocations_located (ls : List Location) {i j : Nat}
    (hLocated : ∀ k < i, ∃ loc, (c.elements k).presentLoc = some loc)
    (hCall : ls.foldlM Chip.setLocation (c, i) = some (c', j)) :
    j = i + ls.length ∧ ∀ k < j, ∃ loc, (c'.elements k).presentLoc = some loc := by
  induction ls generalizing c i with
  | nil =>
    cases hCall
    exact ⟨rfl, hLocated⟩
  | cons loc ls ih =>
    rw [List.foldlM_cons, Chip.setLocation] at hCall
    split at hCall
    · have hNext : ∀ k < i + 1, ∃ loc',
          ((c.update i fun e => { e with presentLoc := some loc }).elements k).presentLoc = some loc' := by
        intro k hk
        obtain rfl | hNe := eq_or_ne k i
        · rw [update_self]
          exact ⟨loc, rfl⟩
        · rw [update_of_ne _ _ hNe]
          exact hLocated k (by omega)
      obtain ⟨rfl, hAll⟩ := ih hNext hCall
      rw [List.length_cons]
      exact ⟨by omega, hAll⟩
    · cases hCall

theorem netlistBy_consistent {maxX maxY fuel : Nat} {file : List Char}
    (hCall : netlistBy readUnsigned readType maxX maxY fuel file = some c) : ∃ order, Consistent c order := by
  rw [netlistBy] at hCall
  generalize readHeaderBy readUnsigned file = header at hCall
  obtain ⟨⟨maxX', maxY'⟩, fin⟩ := header
  obtain ⟨⟨c₀, i⟩, hPlaced, hRead⟩ := Option.bind_eq_some_iff.mp hCall
  generalize maxX'.getD maxX = x at hPlaced
  generalize maxY'.getD maxY = y at hPlaced
  have hUnused : Unused (x * y % 2 ^ 32) (emptyChip (x * y % 2 ^ 32)) :=
    ⟨rfl, fun _ => rfl, rfl, fun _ => ⟨rfl, rfl⟩⟩
  have hFits : 0 + (locations x y).length ≤ x * y % 2 ^ 32 := by
    by_contra hOver
    rw [setLocations_none _ (Nat.zero_le _) (Nat.lt_of_not_le hOver)] at hPlaced
    cases hPlaced
  obtain ⟨c₁, hSpec, hUnused₁⟩ := setLocations_spec (locations x y) hUnused hFits
  obtain ⟨hEnd, hLocated⟩ :=
    setLocations_located (locations x y) (fun k hk => absurd hk (Nat.not_lt_zero k)) hPlaced
  obtain rfl : c₁ = c₀ := congrArg Prod.fst (Option.some.inj (hSpec.symm.trans hPlaced))
  have hSize : c₁.chipSize ≤ i := by
    have hMod := Nat.mod_le (x * y) (2 ^ 32)
    rw [hUnused₁.chipSize, hEnd, locations_length]
    omega
  have hStart : Consistent c₁ [] :=
    ⟨hUnused₁.built (Nat.zero_le _), fun k hk => hLocated k (hk.trans_le hSize)⟩
  exact readElementsBy_consistent hStart hRead

end Reading

section Swapping

variable {c c' : Chip} {order : List Name}

theorem swapLocations_exchange {a b : Nat} (c : Chip) (hNe : a ≠ b) :
    ∃ c', c.swapLocations (a, b) = some c' ∧
      ∀ i, (c'.elements i).presentLoc = (c.elements (Equiv.swap a b i)).presentLoc := by
  refine ⟨_, if_neg hNe, fun i => ?_⟩
  obtain rfl | hb := eq_or_ne i b
  · rw [update_self, Equiv.swap_apply_right]
  · rw [update_of_ne _ _ hb]
    obtain rfl | ha := eq_or_ne i a
    · rw [update_self, Equiv.swap_apply_left]
    · rw [update_of_ne _ _ ha, Equiv.swap_apply_of_ne_of_ne ha hb]

/-- Swaps of distinct elements all return, and the locations are those from before, moved by
the product of the swaps. -/
theorem swaps_return {swaps : List (Nat × Nat)} (hDistinct : ∀ s ∈ swaps, s.1 ≠ s.2) (c : Chip) :
    ∃ c', swaps.foldlM Chip.swapLocations c = some c' ∧ ∀ i, (c'.elements i).presentLoc =
      (c.elements ((swaps.map fun s => Equiv.swap s.1 s.2).prod i)).presentLoc := by
  induction swaps generalizing c with
  | nil => exact ⟨c, rfl, fun _ => rfl⟩
  | cons s swaps ih =>
    rw [List.forall_mem_cons] at hDistinct
    obtain ⟨c₁, hFirst, hLoc₁⟩ := swapLocations_exchange c hDistinct.1
    obtain ⟨c', hRest, hLoc'⟩ := ih hDistinct.2 c₁
    refine ⟨c', ?_, fun i => ?_⟩
    · rw [List.foldlM_cons, hFirst]
      exact hRest
    · rw [hLoc', hLoc₁, List.map_cons, List.prod_cons, Equiv.Perm.mul_apply]

theorem swapLocations_consistent {swap : Nat × Nat} (h : Consistent c order) (ha : swap.1 < c.chipSize)
    (hb : swap.2 < c.chipSize) (hCall : c.swapLocations swap = some c') :
    Consistent c' order ∧ c'.chipSize = c.chipSize ∧
      ∀ i, (c'.elements i).fanin = (c.elements i).fanin := by
  obtain ⟨a, b⟩ := swap
  rw [Chip.swapLocations] at hCall
  split at hCall
  · cases hCall
  · cases hCall
    have hNets : ∀ (present : Option Location) (e : Elem),
        { e with presentLoc := present }.fanin = e.fanin ∧ { e with presentLoc := present }.fanout = e.fanout :=
      fun _ _ => ⟨rfl, rfl⟩
    refine ⟨⟨?_, ?_⟩, rfl, fun i => ?_⟩
    · exact (h.built.update a (hNets _)).update b (hNets _)
    · have hFirst : (c.update a fun e => { e with presentLoc := (c.elements b).presentLoc }).Located :=
        h.located.update a (h.located b hb)
      exact hFirst.update b (h.located a ha)
    · rw [(nets_update _ b (hNets _) i).1, (nets_update c a (hNets _) i).1]

theorem swaps_consistent {swaps : List (Nat × Nat)} (h : Consistent c order)
    (hSwaps : ∀ s ∈ swaps, s.1 < c.chipSize ∧ s.2 < c.chipSize)
    (hCall : swaps.foldlM Chip.swapLocations c = some c') :
    Consistent c' order ∧ c'.chipSize = c.chipSize ∧
      ∀ i, (c'.elements i).fanin = (c.elements i).fanin := by
  induction swaps generalizing c with
  | nil =>
    cases hCall
    exact ⟨h, rfl, fun _ => rfl⟩
  | cons s swaps ih =>
    rw [List.forall_mem_cons] at hSwaps
    obtain ⟨c₁, hFirst, hRest⟩ := Option.bind_eq_some_iff.mp hCall
    obtain ⟨h₁, hSize₁, hFanin₁⟩ := swapLocations_consistent h hSwaps.1.1 hSwaps.1.2 hFirst
    rw [← hSize₁] at hSwaps
    obtain ⟨h', hSize', hFanin'⟩ := ih h₁ hSwaps.2 hRest
    exact ⟨h', hSize'.trans hSize₁, fun i => (hFanin' i).trans (hFanin₁ i)⟩

end Swapping

section Sums

variable {c : Chip} {order : List Name} {loc : Nat → Location}

theorem netCost_eq {nets : List Nat} (hLoc : ∀ f ∈ nets, (c.elements f).presentLoc = some (loc f))
    (l : Location) : c.netCost l nets = some (nets.map fun f => distance l (loc f)).sum := by
  have hCosts : ∀ cost, nets.foldlM (fun cost f => (c.elements f).presentLoc.map (addDistance cost l)) cost =
      some (cost + (nets.map fun f => distance l (loc f)).sum) := by
    induction nets with
    | nil => simp
    | cons f nets ih =>
      intro cost
      rw [List.forall_mem_cons] at hLoc
      rw [List.foldlM_cons, hLoc.1, Option.map_some, List.map_cons, List.sum_cons, ← add_assoc,
        ← addDistance_eq]
      exact ih hLoc.2 _
  rw [Chip.netCost, hCosts 0, zero_add]

theorem Wired.fanout_nets (h : Wired c order) {i j : Nat} (hj : j ∈ (c.elements i).fanout) :
    i < order.length ∧ j < order.length := by
  have hCount := List.count_pos_iff.mpr hj
  rw [← h.converse] at hCount
  exact (h.nets j i (List.count_pos_iff.mp hCount)).symm

theorem sum_fanout_eq (h : Wired c order) :
    ∑ i ∈ Finset.range order.length, ((c.elements i).fanout.map fun f => distance (loc i) (loc f)).sum =
      ∑ i ∈ Finset.range order.length, ((c.elements i).fanin.map fun f => distance (loc i) (loc f)).sum := by
  have hFanin : ∀ i, ((c.elements i).fanin.map fun f => distance (loc i) (loc f)).sum =
      ∑ f ∈ Finset.range order.length, ((c.elements i).fanin.count f : ℚ) * distance (loc i) (loc f) :=
    fun i => sum_map_eq_sum _ fun f hf => Finset.mem_range.mpr (h.nets i f hf).2
  have hFanout : ∀ i, ((c.elements i).fanout.map fun f => distance (loc i) (loc f)).sum =
      ∑ f ∈ Finset.range order.length, ((c.elements f).fanin.count i : ℚ) * distance (loc f) (loc i) := by
    intro i
    rw [sum_map_eq_sum _ fun f hf => Finset.mem_range.mpr (h.fanout_nets hf).2]
    apply Finset.sum_congr rfl
    intro f _
    rw [← h.converse, distance_comm]
  simp only [hFanin, hFanout]
  exact Finset.sum_comm

def elemCost (c : Chip) (loc : Nat → Location) (i : Nat) : ℚ :=
  ((c.elements i).fanin.map fun f => distance (loc i) (loc f)).sum +
    ((c.elements i).fanout.map fun f => distance (loc i) (loc f)).sum

theorem routingCostGivenLoc_eq_elemCost (h : Consistent c order)
    (hLoc : ∀ i < c.chipSize, (c.elements i).presentLoc = some (loc i)) (i : Nat) :
    c.routingCostGivenLoc i (loc i) = some (elemCost c loc i) := by
  have hFanin : ∀ f ∈ (c.elements i).fanin, (c.elements f).presentLoc = some (loc f) := fun f hf =>
    hLoc f (h.lt_chipSize (h.built.wired.nets i f hf).2)
  have hFanout : ∀ f ∈ (c.elements i).fanout, (c.elements f).presentLoc = some (loc f) := fun f hf =>
    hLoc f (h.lt_chipSize (h.built.wired.fanout_nets hf).2)
  rw [Chip.routingCostGivenLoc, netCost_eq hFanin, netCost_eq hFanout]
  rfl

theorem sum_names (c : Chip) {g : Nat → ℚ} {names : List Name}
    (hNames : ∀ name ∈ names, ∃ i, c.elemNames name = some i ∧ (c.elements i).presentLoc = some (loc i) ∧
      c.routingCostGivenLoc i (loc i) = some (g i)) (rval : ℚ) :
    names.foldlM (fun rval name => do
      let elem ← c.elemNames name
      let loc ← (c.elements elem).presentLoc
      let cost ← c.routingCostGivenLoc elem loc
      some (rval + cost)) rval =
      some (rval + (names.map fun name => ((c.elemNames name).map g).getD 0).sum) := by
  induction names generalizing rval with
  | nil => simp
  | cons name names ih =>
    rw [List.forall_mem_cons] at hNames
    obtain ⟨i, hName, hLoc, hCost⟩ := hNames.1
    rw [List.foldlM_cons, List.map_cons, List.sum_cons, ← add_assoc, hName, Option.map_some, Option.getD_some]
    simp only [Option.bind_eq_bind, Option.bind_some, hLoc, hCost]
    exact ih hNames.2 _

theorem Chip.Keys.perm {names : List Name} (hKeys : c.Keys names) (h : Allocated order c order) :
    names.Perm order := by
  have hNodup : names.Nodup := hKeys.ascending.imp fun hLt hEq => by
    subst hEq
    exact List.lt_irrefl _ hLt
  apply (List.perm_ext_iff_of_nodup hNodup h.nodup).mpr
  intro name
  rw [hKeys.mem, List.mem_iff_getElem?]
  exact exists_congr fun i => h.names name i

theorem sum_order (h : Allocated order c order) (g : Nat → ℚ) :
    (order.map fun name => ((c.elemNames name).map g).getD 0).sum = ∑ i ∈ Finset.range order.length, g i := by
  rw [← Fin.sum_univ_eq_sum_range, ← Fin.sum_univ_fun_getElem]
  apply Finset.sum_congr rfl
  intro i _
  have hName := (h.names order[i.val] i.val).mpr (List.getElem?_eq_getElem i.isLt)
  rw [hName, Option.map_some, Option.getD_some]

theorem totalRoutingCost_eq_sum (h : Consistent c order)
    (hLoc : ∀ i < c.chipSize, (c.elements i).presentLoc = some (loc i)) {names : List Name}
    (hKeys : c.Keys names) :
    c.totalRoutingCost names = some (∑ i ∈ Finset.range c.chipSize,
      ((c.elements i).fanin.map fun f => distance (loc i) (loc f)).sum) := by
  have hTurns : ∀ name ∈ names, ∃ i, c.elemNames name = some i ∧ (c.elements i).presentLoc = some (loc i) ∧
      c.routingCostGivenLoc i (loc i) = some (elemCost c loc i) := by
    intro name hName
    obtain ⟨i, hi⟩ := (hKeys.mem name).mp hName
    have hUsed : i < order.length :=
      (List.getElem?_eq_some_iff.mp ((h.built.allocated.names name i).mp hi)).1
    exact ⟨i, hi, hLoc i (h.lt_chipSize hUsed), routingCostGivenLoc_eq_elemCost h hLoc i⟩
  have hPerm := (hKeys.perm h.built.allocated).map fun name => ((c.elemNames name).map (elemCost c loc)).getD 0
  rw [Chip.totalRoutingCost, sum_names c hTurns, zero_add, hPerm.sum_eq, sum_order h.built.allocated]
  have hBlank : ∑ i ∈ Finset.range order.length, ((c.elements i).fanin.map fun f => distance (loc i) (loc f)).sum =
      ∑ i ∈ Finset.range c.chipSize, ((c.elements i).fanin.map fun f => distance (loc i) (loc f)).sum := by
    apply Finset.sum_subset
    · exact Finset.range_subset_range.mpr h.built.allocated.room
    · intro i _ hi
      have hNone : (c.elements i).fanin = [] := by
        apply List.eq_nil_iff_forall_not_mem.mpr
        intro j hj
        exact hi (Finset.mem_range.mpr (h.built.wired.nets i j hj).1)
      rw [hNone, List.map_nil, List.sum_nil]
  simp only [elemCost, Finset.sum_add_distrib, sum_fanout_eq h.built.wired, hBlank, Option.bind_eq_bind,
    Option.bind_some, add_self_div_two]

end Sums

section Files

variable {T : Type*} {readUnsigned : Stream → Option Nat × Stream} {readType : Stream → T × Stream}

/-- The halving loses nothing, wherever the elements have been swapped to. -/
theorem cost_after_swaps {maxX maxY fuel : Nat} {file : List Char} {c : Chip}
    (hRead : netlistBy readUnsigned readType maxX maxY fuel file = some c) :
    (∀ e f, (c.elements f).fanout.count e = (c.elements e).fanin.count f) ∧
      ∀ (swaps : List (Nat × Nat)) (c' : Chip), (∀ s ∈ swaps, s.1 < c.chipSize ∧ s.2 < c.chipSize) →
        swaps.foldlM Chip.swapLocations c = some c' → ∀ names, c'.Keys names →
        ∃ loc : Nat → Location, (∀ i < c.chipSize, (c'.elements i).presentLoc = some (loc i)) ∧
          c'.totalRoutingCost names = some (∑ e ∈ Finset.range c.chipSize,
            ((c.elements e).fanin.map fun f => distance (loc e) (loc f)).sum) := by
  obtain ⟨order, h⟩ := netlistBy_consistent hRead
  constructor
  · intro e f
    exact (h.built.wired.converse e f).symm
  · intro swaps c' hSwaps hCall names hKeys
    obtain ⟨h', hSize, hFanin⟩ := swaps_consistent h hSwaps hCall
    obtain ⟨loc, hLoc⟩ : ∃ loc : Nat → Location, ∀ i < c.chipSize, (c'.elements i).presentLoc = some (loc i) := by
      rw [← hSize]
      have hOrigin : Nonempty Location := ⟨⟨0, 0⟩⟩
      choose! loc hLoc using h'.located
      exact ⟨loc, hLoc⟩
    have hCost := totalRoutingCost_eq_sum h' (hSize ▸ hLoc) hKeys
    rw [hSize] at hCost
    simp only [hFanin] at hCost
    exact ⟨loc, hLoc, hCost⟩

def joinedFile : Generated where
  numElements := 2
  x := 2
  y := 2
  xBound := Nat.one_lt_two
  yBound := Nat.one_lt_two
  room := by decide
  randType _ := ⟨0, Nat.two_pos⟩
  randomConnection i _ := ⟨1, Nat.one_lt_two⟩ - i

theorem joinedFile_cost : ∃ c c',
    netlistBy (readNumber uintMax) (readNumber intMax) 0 0 4 joinedFile.print = some c ∧
    [(0, 3), (3, 1)].foldlM Chip.swapLocations c = some c' ∧
    (∀ e f, (c.elements f).fanout.count e = (c.elements e).fanin.count f) ∧
    ∃ loc : Nat → Location, (∀ i < c.chipSize, (c'.elements i).presentLoc = some (loc i)) ∧
      c'.totalRoutingCost [[], ['a'], ['b']] = some (∑ e ∈ Finset.range c.chipSize,
        ((c.elements e).fanin.map fun f => distance (loc e) (loc f)).sum) := by
  obtain ⟨c, hCall, hBack⟩ := netlist_readBack joinedFile (by decide) 0 0
  have hSize : c.chipSize = 4 := by
    have hRun : (netlist 0 0 (joinedFile.numElements + 2) joinedFile.print).map Chip.chipSize = some 4 := by
      decide +kernel
    rw [hCall] at hRun
    exact Option.some.inj hRun
  have hSwaps : ∀ s ∈ [(0, 3), (3, 1)], s.1 < c.chipSize ∧ s.2 < c.chipSize := by
    rw [hSize]
    decide
  obtain ⟨hConverse, hCost⟩ := cost_after_swaps hCall
  refine ⟨c, _, hCall, rfl, hConverse, hCost _ _ hSwaps rfl _ ⟨by decide, fun name => ?_⟩⟩
  exact (hBack.names name).symm

end Files

end Trident.Canneal
