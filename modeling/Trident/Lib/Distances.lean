import Mathlib.Algebra.Order.BigOperators.Group.Finset
import Mathlib.Combinatorics.Enumerative.DoubleCounting
import Mathlib.Logic.Relation
import Mathlib.Order.Bounds.Basic

/-! # Distances in weighted directed graphs

A route goes along arcs and costs what they weigh together. Costs that belong to routes and that no
arc can lower are least; so are parents that are one level nearer. A cost that is found by lowering others
stays below what all vertices together can add.
-/

namespace Trident.Distances

variable {V M : Type*} {src : V}

section Routes

variable [AddCommMonoid M]

inductive Route (arc : V → V → M → Prop) (src : V) : V → M → Prop
  | start : Route arc src src 0
  | step {u v : V} {c w : M} (h : Route arc src u c) (hArc : arc u v w) : Route arc src v (c + w)

/-- The routes stay in a set that no arc leaves. -/
theorem Route.closed {arc : V → V → M → Prop} {p : V → Prop} (hSource : p src)
    (hArc : ∀ u v w, p u → arc u v w → p v) {v : V} {c : M} (h : Route arc src v c) : p v := by
  induction h with
  | start => exact hSource
  | step _ hStep ih => exact hArc _ _ _ ih hStep

variable [LinearOrder M]

def Distance (arc : V → V → M → Prop) (src v : V) (d : M) : Prop := IsLeast {c | Route arc src v c} d

/-- The least cost, or the cap where there is none below it. -/
def Capped (arc : V → V → M → Prop) (src : V) (cap : M) (v : V) (d : M) : Prop :=
  IsLeast {c | c = cap ∨ Route arc src v c} d

variable {arc : V → V → M → Prop} {cap : M} {v : V}

theorem Distance.unique {d e : M} (h : Distance arc src v d) (h' : Distance arc src v e) : d = e :=
  IsLeast.unique h h'

theorem Capped.unique {d e : M} (h : Capped arc src cap v d) (h' : Capped arc src cap v e) : d = e :=
  IsLeast.unique h h'

variable [IsOrderedAddMonoid M] {dist : V → M}

theorem Route.nonneg (hArcs : ∀ u v w, arc u v w → 0 ≤ w) {c : M} (h : Route arc src v c) : 0 ≤ c := by
  induction h with
  | start => exact le_rfl
  | step _ hArc ih => exact add_nonneg ih (hArcs _ _ _ hArc)

theorem le_of_route (hArcs : ∀ u v w, arc u v w → 0 ≤ w) (hSource : dist src = 0) (hCap : ∀ v, dist v ≤ cap)
    (hRelaxed : ∀ u v w, dist u < cap → arc u v w → dist v ≤ dist u + w) {c : M}
    (h : Route arc src v c) : dist v ≤ c := by
  induction h with
  | start => exact hSource.le
  | @step u v c w _ hArc ih =>
    obtain hLess | hGreat := lt_or_ge (dist u) cap
    · exact (hRelaxed u v w hLess hArc).trans (add_le_add_left ih w)
    · exact (hCap v).trans ((hGreat.trans ih).trans (le_add_of_nonneg_right (hArcs u v w hArc)))

/-- Costs of routes that no arc can lower are the least ones, where no arc has a negative cost. -/
theorem capped_of_relaxed (hArcs : ∀ u v w, arc u v w → 0 ≤ w) (hSource : dist src = 0)
    (hCap : ∀ v, dist v ≤ cap)
    (hSound : ∀ v, dist v < cap → Route arc src v (dist v))
    (hRelaxed : ∀ u v w, dist u < cap → arc u v w → dist v ≤ dist u + w) (v : V) :
    Capped arc src cap v (dist v) := by
  constructor
  · exact (hCap v).eq_or_lt.imp_right (hSound v)
  · rintro c (rfl | hRoute)
    · exact hCap v
    · exact le_of_route hArcs hSource hCap hRelaxed hRoute

end Routes

section Loads

variable [AddCommMonoid M] [LinearOrder M] {all nodes : Finset V} {load dist dist' : V → M} {u : V} {d w : M}

/-- A cost to which each of the `nodes` adds its load at most once; none of them is farther away. -/
structure Carried (all : Finset V) (load dist : V → M) (nodes : Finset V) (d : M) : Prop where
  subset : nodes ⊆ all
  nearer : ∀ u ∈ nodes, dist u ≤ d
  carries : d ≤ ∑ u ∈ nodes, load u

theorem Carried.lower (h : Carried all load dist nodes d) (hLe : ∀ v, dist' v ≤ dist v) :
    Carried all load dist' nodes d :=
  ⟨h.subset, fun u hu => (hLe u).trans (h.nearer u hu), h.carries⟩

theorem Carried.notMem (h : Carried all load dist nodes d) (hLess : d < dist u) : u ∉ nodes :=
  fun hu => absurd (h.nearer u hu) (not_le.mpr hLess)

variable [IsOrderedAddMonoid M]

theorem Carried.insert [DecidableEq V] (h : Carried all load dist nodes (dist u)) (hu : u ∈ all)
    (hNew : u ∉ nodes) (hNonneg : 0 ≤ w) (hLoad : w ≤ load u) :
    Carried all load dist (insert u nodes) (dist u + w) := by
  have hFarther : dist u ≤ dist u + w := le_add_of_nonneg_right hNonneg
  constructor
  · exact Finset.insert_subset hu h.subset
  · intro v hv
    obtain rfl | hOld := Finset.mem_insert.mp hv
    · exact hFarther
    · exact (h.nearer v hOld).trans hFarther
  · rw [Finset.sum_insert hNew, add_comm]
    exact add_le_add hLoad h.carries

theorem Carried.le_sum (h : Carried all load dist nodes d) (hLoad : ∀ u ∈ all, 0 ≤ load u) :
    d ≤ ∑ u ∈ all, load u :=
  h.carries.trans (Finset.sum_le_sum_of_subset_of_nonneg h.subset fun u hu _ => hLoad u hu)

end Loads

section Levels

variable {arc : V → V → Prop} {u v : V} {m n : Nat}

/-- Every arc counts one. -/
def hop (arc : V → V → Prop) (u v : V) (w : Nat) : Prop := arc u v ∧ w = 1

def Level (arc : V → V → Prop) (src v : V) (n : Nat) : Prop := Distance (hop arc) src v n

theorem Level.unique (h : Level arc src v m) (h' : Level arc src v n) : m = n := Distance.unique h h'

theorem Level.route (h : Level arc src v n) : Route (hop arc) src v n := h.1

theorem level_source : Level arc src src 0 := ⟨.start, fun c _ => Nat.zero_le c⟩

theorem exists_level (h : Route (hop arc) src v n) : ∃ m ≤ n, Level arc src v m := by
  classical
  have hSome : ∃ c, Route (hop arc) src v c := ⟨n, h⟩
  exact ⟨Nat.find hSome, Nat.find_min' hSome h, Nat.find_spec hSome, fun c hc => Nat.find_min' hSome hc⟩

theorem Level.source_iff : Level arc src v 0 ↔ v = src := by
  constructor
  · rintro ⟨hRoute, _⟩
    generalize hZero : 0 = c at hRoute
    cases hRoute with
    | start => rfl
    | step _ hArc =>
      rw [hArc.2] at hZero
      omega
  · rintro rfl
    exact level_source

theorem Level.next (h : Level arc src u m) (hArc : arc u v) : ∃ n ≤ m + 1, Level arc src v n :=
  exists_level (h.route.step ⟨hArc, rfl⟩)

/-- A vertex stands behind one of the level before. -/
theorem Level.nearer (h : Level arc src v (n + 1)) : ∃ u, arc u v ∧ Level arc src u n := by
  obtain ⟨hRoute, hLeast⟩ := h
  generalize hLength : n + 1 = c at hRoute
  cases hRoute with
  | start => omega
  | @step u _ c w hRoute hArc =>
    obtain ⟨hArc, rfl⟩ := hArc
    obtain rfl : n = c := by omega
    obtain ⟨m, hLe, hu⟩ := exists_level hRoute
    have hShort : n + 1 ≤ m + 1 := hLeast (hu.route.step ⟨hArc, rfl⟩)
    obtain rfl : m = n := by omega
    exact ⟨u, hArc, hu⟩

theorem Level.earlier (h : Level arc src v n) (hm : m ≤ n) : ∃ u, Level arc src u m := by
  induction n generalizing v with
  | zero => exact ⟨v, Nat.le_zero.mp hm ▸ h⟩
  | succ n ih =>
    obtain hLast | hEarly := Nat.eq_or_lt_of_le hm
    · exact ⟨v, hLast ▸ h⟩
    · obtain ⟨u, _, hu⟩ := h.nearer
      exact ih hu (Nat.lt_succ_iff.mp hEarly)

theorem exists_level_iff : (∃ n, Level arc src v n) ↔ Relation.ReflTransGen arc src v := by
  constructor
  · rintro ⟨n, h⟩
    exact h.route.closed .refl fun _ _ _ hu hArc => hu.tail hArc.1
  · intro h
    induction h with
    | refl => exact ⟨0, level_source⟩
    | tail _ hArc ih =>
      obtain ⟨m, hu⟩ := ih
      obtain ⟨n, _, hv⟩ := hu.next hArc
      exact ⟨n, hv⟩

/-- There are fewer levels than vertices to stand on them. -/
theorem Level.lt_card {s : Finset V} (hMem : ∀ v n, Level arc src v n → v ∈ s)
    (h : Level arc src v n) : n < s.card := by
  have hCard : (Finset.range (n + 1)).card ≤ s.card := by
    apply Finset.card_le_card_of_forall_subsingleton fun m u => Level arc src u m
    · intro m hm
      obtain ⟨u, hu⟩ := h.earlier (Nat.lt_succ_iff.mp (Finset.mem_range.mp hm))
      exact ⟨u, hMem u m hu, hu⟩
    · intro u _ m hm m' hm'
      exact hm.2.unique hm'.2
  rwa [Finset.card_range] at hCard

end Levels

section Searches

variable {arc : V → V → Prop} {parent parent' : V → Option V} {d : Nat}

/-- A tree of shortest paths: what can be reached has a parent, one level nearer. -/
structure ShortestTree (arc : V → V → Prop) (src : V) (parent : V → Option V) : Prop where
  root : parent src = some src
  visited : ∀ v, (parent v).isSome ↔ ∃ n, Level arc src v n
  nearer : ∀ v u, v ≠ src → parent v = some u →
    arc u v ∧ ∃ n, Level arc src u n ∧ Level arc src v (n + 1)

/-- Such a tree, as far as the level `d`. -/
structure SearchedTo (arc : V → V → Prop) (src : V) (d : Nat) (parent : V → Option V) : Prop where
  root : parent src = some src
  visited : ∀ v, (parent v).isSome ↔ ∃ n ≤ d, Level arc src v n
  nearer : ∀ v u, v ≠ src → parent v = some u →
    arc u v ∧ ∃ n, Level arc src u n ∧ Level arc src v (n + 1)

theorem searchedTo_zero (hRoot : parent src = some src) (hRest : ∀ v ≠ src, parent v = none) :
    SearchedTo arc src 0 parent where
  root := hRoot
  visited v := by
    obtain rfl | hNe := eq_or_ne v src
    · rw [hRoot]
      exact ⟨fun _ => ⟨0, le_rfl, level_source⟩, fun _ => rfl⟩
    · rw [hRest v hNe]
      refine ⟨nofun, fun ⟨n, hn, hLevel⟩ => ?_⟩
      rw [Nat.le_zero.mp hn, Level.source_iff] at hLevel
      exact absurd hLevel hNe
  nearer v u hNe hParent := by
    rw [hRest v hNe] at hParent
    cases hParent

/-- What a search adds to get from one level to the next. -/
structure NextLevel (arc : V → V → Prop) (src : V) (d : Nat) (parent parent' : V → Option V) :
    Prop where
  keep : ∀ v u, parent v = some u → parent' v = some u
  found : ∀ v u, parent v = none → parent' v = some u → arc u v ∧ Level arc src u d
  all : ∀ u v, Level arc src u d → arc u v → (parent' v).isSome

theorem SearchedTo.unvisited (h : SearchedTo arc src d parent) {v : V} (hv : parent v = none) {n : Nat}
    (hLevel : Level arc src v n) : d < n := by
  by_contra hEarly
  have hSome := (h.visited v).mpr ⟨n, not_lt.mp hEarly, hLevel⟩
  rw [hv] at hSome
  cases hSome

/-- What is found behind the last level stands on the next one. -/
theorem SearchedTo.level_of_arc (h : SearchedTo arc src d parent) {u v : V} (hv : parent v = none)
    (hArc : arc u v) {n : Nat} (hn : n ≤ d) (hu : Level arc src u n) :
    n = d ∧ Level arc src v (d + 1) := by
  obtain ⟨m, hLe, hLevel⟩ := hu.next hArc
  have hLater := h.unvisited hv hLevel
  obtain rfl : m = d + 1 := by omega
  exact ⟨by omega, hLevel⟩

theorem SearchedTo.next (h : SearchedTo arc src d parent) (hNext : NextLevel arc src d parent parent') :
    SearchedTo arc src (d + 1) parent' := by
  have hFound : ∀ v u, parent v = none → parent' v = some u →
      arc u v ∧ Level arc src u d ∧ Level arc src v (d + 1) := by
    intro v u hOld hNew
    obtain ⟨hArc, hu⟩ := hNext.found v u hOld hNew
    exact ⟨hArc, hu, (h.level_of_arc hOld hArc le_rfl hu).2⟩
  constructor
  · exact hNext.keep src src h.root
  · intro v
    constructor
    · intro hSome
      obtain ⟨u, hu⟩ := Option.isSome_iff_exists.mp hSome
      cases hOld : parent v with
      | none => exact ⟨d + 1, le_rfl, (hFound v u hOld hu).2.2⟩
      | some w =>
        obtain ⟨n, hn, hLevel⟩ := (h.visited v).mp (hOld ▸ rfl)
        exact ⟨n, Nat.le_succ_of_le hn, hLevel⟩
    · rintro ⟨n, hn, hLevel⟩
      obtain rfl | hEarly := Nat.eq_or_lt_of_le hn
      · obtain ⟨u, hArc, hu⟩ := hLevel.nearer
        exact hNext.all u v hu hArc
      · obtain ⟨u, hu⟩ := Option.isSome_iff_exists.mp
          ((h.visited v).mpr ⟨n, Nat.lt_succ_iff.mp hEarly, hLevel⟩)
        rw [hNext.keep v u hu]
        rfl
  · intro v u hNe hNew
    cases hOld : parent v with
    | none =>
      obtain ⟨hArc, hu, hv⟩ := hFound v u hOld hNew
      exact ⟨hArc, d, hu, hv⟩
    | some w =>
      rw [hNext.keep v w hOld, Option.some_inj] at hNew
      exact hNew ▸ h.nearer v w hNe hOld

/-- Where a level is empty, so are all behind it. -/
theorem SearchedTo.shortestTree (h : SearchedTo arc src d parent)
    (hEmpty : ∀ v, ¬ Level arc src v d) : ShortestTree arc src parent where
  root := h.root
  visited v := by
    rw [h.visited]
    constructor
    · exact fun ⟨n, _, hLevel⟩ => ⟨n, hLevel⟩
    · rintro ⟨n, hLevel⟩
      refine ⟨n, ?_, hLevel⟩
      by_contra hLate
      obtain ⟨u, hu⟩ := hLevel.earlier (not_le.mp hLate).le
      exact hEmpty u hu
  nearer := h.nearer

end Searches

end Trident.Distances
