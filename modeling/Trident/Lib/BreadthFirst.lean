import Mathlib.Combinatorics.Enumerative.DoubleCounting
import Mathlib.Combinatorics.SimpleGraph.Metric

/-! # Breadth-first search by levels

A search assigns parents. After `d` levels it has visited just the vertices up to the distance `d`,
each with a parent that is nearer to the source; one level more is any extension that visits
every neighbor of the last level.
-/

namespace Trident.BreadthFirst

variable {V : Type*} {G : SimpleGraph V} {src : V}

section Distances

theorem dist_le_succ {u v : V} (hu : G.Reachable src u) (hAdj : G.Adj u v) :
    G.Reachable src v ∧ G.dist src v ≤ G.dist src u + 1 := by
  obtain ⟨p, hp⟩ := hu.exists_walk_length_eq_dist
  have hLe := SimpleGraph.dist_le (p.concat hAdj)
  rw [SimpleGraph.Walk.length_concat, hp] at hLe
  exact ⟨hu.trans hAdj.reachable, hLe⟩

theorem exists_nearer {d : Nat} {v : V} (hv : G.Reachable src v) (hDist : G.dist src v = d + 1) :
    ∃ u, G.Adj u v ∧ G.Reachable src u ∧ G.dist src u = d := by
  obtain ⟨p, hp⟩ := hv.symm.exists_walk_length_eq_dist
  cases p with
  | nil =>
    rw [SimpleGraph.dist_self] at hDist
    omega
  | cons hAdj p =>
    rename_i u
    rw [SimpleGraph.Walk.length_cons, SimpleGraph.dist_comm, hDist] at hp
    have hLe := SimpleGraph.dist_le p
    have hu : G.Reachable src u := p.reachable.symm
    have hNext := (dist_le_succ hu hAdj.symm).2
    rw [SimpleGraph.dist_comm] at hLe
    exact ⟨u, hAdj.symm, hu, by omega⟩

theorem dist_lt_of_empty {d : Nat} (hEmpty : ∀ v, G.Reachable src v → G.dist src v ≠ d) {v : V}
    (hv : G.Reachable src v) : G.dist src v < d := by
  by_contra hNot
  obtain ⟨n, hn⟩ : ∃ n, G.dist src v = d + n := ⟨_, (Nat.add_sub_cancel' (not_lt.mp hNot)).symm⟩
  induction n generalizing v with
  | zero => exact hEmpty v hv hn
  | succ n ih =>
    obtain ⟨u, _, hu, hDist⟩ := exists_nearer hv (hn.trans (Nat.add_assoc d n 1).symm)
    exact ih hu (by omega) hDist

end Distances

section Levels

variable {parent parent' : V → Option V} {d : Nat}

structure SearchedTo (G : SimpleGraph V) (src : V) (d : Nat) (parent : V → Option V) : Prop where
  root : parent src = some src
  visited : ∀ v, (parent v).isSome ↔ G.Reachable src v ∧ G.dist src v ≤ d
  nearer : ∀ v u, v ≠ src → parent v = some u → G.Adj u v ∧ G.dist src u + 1 = G.dist src v

theorem searchedTo_zero (hRoot : parent src = some src) (hRest : ∀ v ≠ src, parent v = none) :
    SearchedTo G src 0 parent where
  root := hRoot
  visited v := by
    obtain rfl | hNe := eq_or_ne v src
    · simp [hRoot]
    · rw [hRest v hNe]
      refine ⟨nofun, fun ⟨hv, hDist⟩ => ?_⟩
      exact absurd (hv.dist_eq_zero_iff.mp (Nat.le_zero.mp hDist)).symm hNe
  nearer v u hNe hParent := by
    rw [hRest v hNe] at hParent
    cases hParent

/-- What a search adds to get from one level to the next. -/
structure NextLevel (G : SimpleGraph V) (src : V) (d : Nat) (parent parent' : V → Option V) : Prop where
  keep : ∀ v u, parent v = some u → parent' v = some u
  found : ∀ v u, parent v = none → parent' v = some u →
    G.Adj u v ∧ G.Reachable src u ∧ G.dist src u = d
  all : ∀ u v, G.Reachable src u → G.dist src u = d → G.Adj u v → (parent' v).isSome

theorem SearchedTo.next (h : SearchedTo G src d parent) (hNext : NextLevel G src d parent parent') :
    SearchedTo G src (d + 1) parent' := by
  have hFound : ∀ v u, parent v = none → parent' v = some u →
      G.Reachable src v ∧ G.dist src v = d + 1 ∧ G.Adj u v ∧ G.dist src u = d := by
    intro v u hOld hNew
    obtain ⟨hAdj, hu, hDist⟩ := hNext.found v u hOld hNew
    obtain ⟨hv, hLe⟩ := dist_le_succ hu hAdj
    have hLater : ¬ G.dist src v ≤ d := fun hEarly => by
      have hSome := (h.visited v).mpr ⟨hv, hEarly⟩
      rw [hOld] at hSome
      cases hSome
    exact ⟨hv, by omega, hAdj, hDist⟩
  constructor
  · exact hNext.keep src src h.root
  · intro v
    constructor
    · intro hSome
      obtain ⟨u, hu⟩ := Option.isSome_iff_exists.mp hSome
      cases hOld : parent v with
      | none =>
        obtain ⟨hv, hDist, _⟩ := hFound v u hOld hu
        exact ⟨hv, hDist.le⟩
      | some w =>
        obtain ⟨hv, hDist⟩ := (h.visited v).mp (hOld ▸ rfl)
        exact ⟨hv, Nat.le_succ_of_le hDist⟩
    · rintro ⟨hv, hDist⟩
      cases Nat.le_succ_iff.mp hDist with
      | inl hEarly =>
        obtain ⟨u, hu⟩ := Option.isSome_iff_exists.mp ((h.visited v).mpr ⟨hv, hEarly⟩)
        rw [hNext.keep v u hu]
        rfl
      | inr hLast =>
        obtain ⟨u, hAdj, hu, hLevel⟩ := exists_nearer hv hLast
        exact hNext.all u v hu hLevel hAdj
  · intro v u hNe hNew
    cases hOld : parent v with
    | none =>
      obtain ⟨_, hDist, hAdj, hLevel⟩ := hFound v u hOld hNew
      exact ⟨hAdj, by omega⟩
    | some w =>
      rw [hNext.keep v w hOld, Option.some_inj] at hNew
      exact hNew ▸ h.nearer v w hNe hOld

/-- A finished search: a shortest-path tree of all that can be reached. -/
structure ShortestPaths (G : SimpleGraph V) (src : V) (parent : V → Option V) : Prop where
  root : parent src = some src
  visited : ∀ v, (parent v).isSome ↔ G.Reachable src v
  nearer : ∀ v u, v ≠ src → parent v = some u → G.Adj u v ∧ G.dist src u + 1 = G.dist src v

theorem SearchedTo.shortestPaths (h : SearchedTo G src d parent)
    (hEmpty : ∀ v, G.Reachable src v → G.dist src v ≠ d) : ShortestPaths G src parent where
  root := h.root
  visited v := by
    rw [h.visited]
    exact ⟨And.left, fun hv => ⟨hv, (dist_lt_of_empty hEmpty hv).le⟩⟩
  nearer := h.nearer

end Levels

section Trees

variable {parent parent' : V → Option V}

/-- The level of a vertex, read off the parents. -/
inductive AtLevel (src : V) (parent : V → Option V) : V → Nat → Prop
  | root : AtLevel src parent src 0
  | child {u v : V} {n : Nat} (hNe : v ≠ src) (hParent : parent v = some u)
      (hLevel : AtLevel src parent u n) : AtLevel src parent v (n + 1)

theorem ShortestPaths.atLevel_iff (h : ShortestPaths G src parent) {v : V} {n : Nat} :
    AtLevel src parent v n ↔ G.Reachable src v ∧ G.dist src v = n := by
  constructor
  · intro hLevel
    induction hLevel with
    | root => exact ⟨.refl src, SimpleGraph.dist_self⟩
    | child hNe hParent _ ih =>
      obtain ⟨hAdj, hDist⟩ := h.nearer _ _ hNe hParent
      exact ⟨ih.1.trans hAdj.reachable, by omega⟩
  · rintro ⟨hv, hDist⟩
    induction n generalizing v with
    | zero =>
      rw [← hv.dist_eq_zero_iff.mp hDist]
      exact .root
    | succ n ih =>
      obtain ⟨u, hu⟩ := Option.isSome_iff_exists.mp ((h.visited v).mpr hv)
      have hNe : v ≠ src := by
        rintro rfl
        rw [SimpleGraph.dist_self] at hDist
        omega
      obtain ⟨hAdj, hNearer⟩ := h.nearer v u hNe hu
      exact .child hNe hu (ih (hv.trans hAdj.symm.reachable) (by omega))

theorem ShortestPaths.agree (h : ShortestPaths G src parent) (h' : ShortestPaths G src parent') :
    (∀ v, (parent v).isSome ↔ (parent' v).isSome) ∧
      ∀ v n, AtLevel src parent v n ↔ AtLevel src parent' v n :=
  ⟨fun v => (h.visited v).trans (h'.visited v).symm,
    fun _ _ => h.atLevel_iff.trans h'.atLevel_iff.symm⟩

theorem AtLevel.child_of {u v : V} {n : Nat} (h : AtLevel src parent v n) (hNe : v ≠ src)
    (hParent : parent v = some u) : ∃ m, n = m + 1 ∧ AtLevel src parent u m := by
  cases h with
  | root => exact absurd rfl hNe
  | child _ hOther hLevel =>
    rw [hParent, Option.some_inj] at hOther
    exact ⟨_, rfl, hOther ▸ hLevel⟩

theorem AtLevel.unique {v : V} {m n : Nat} (hm : AtLevel src parent v m)
    (hn : AtLevel src parent v n) : m = n := by
  induction hm generalizing n with
  | root =>
    cases hn with
    | root => rfl
    | child hNe => exact absurd rfl hNe
  | child hNe hParent _ ih =>
    obtain ⟨m, rfl, hm⟩ := hn.child_of hNe hParent
    rw [ih hm]

theorem AtLevel.isSome (hRoot : parent src = some src) {v : V} {n : Nat}
    (h : AtLevel src parent v n) : (parent v).isSome := by
  cases h with
  | root => rw [hRoot, Option.isSome_some]
  | child _ hParent => rw [hParent, Option.isSome_some]

theorem AtLevel.earlier {v : V} {m n : Nat} (h : AtLevel src parent v n) (hm : m ≤ n) :
    ∃ u, AtLevel src parent u m := by
  induction h with
  | root => exact ⟨src, Nat.le_zero.mp hm ▸ .root⟩
  | child hNe hParent hLevel ih =>
    cases Nat.le_succ_iff.mp hm with
    | inl hEarly => exact ih hEarly
    | inr hLast =>
      rw [hLast]
      exact ⟨_, .child hNe hParent hLevel⟩

/-- There are fewer levels than vertices to stand on them. -/
theorem AtLevel.lt_card {s : Finset V} (hMem : ∀ v n, AtLevel src parent v n → v ∈ s) {v : V}
    {n : Nat} (h : AtLevel src parent v n) : n < s.card := by
  have hCard : (Finset.range (n + 1)).card ≤ s.card := by
    apply Finset.card_le_card_of_forall_subsingleton fun m u => AtLevel src parent u m
    · intro m hm
      obtain ⟨u, hu⟩ := h.earlier (Nat.lt_succ_iff.mp (Finset.mem_range.mp hm))
      exact ⟨u, hMem u m hu, hu⟩
    · intro u _ m hm m' hm'
      exact hm.2.unique hm'.2
  rwa [Finset.card_range] at hCard

theorem AtLevel.exists_walk (hTree : ∀ v u, v ≠ src → parent v = some u → G.Adj u v) {v : V}
    {n : Nat} (h : AtLevel src parent v n) : ∃ p : G.Walk src v, p.length = n := by
  induction h with
  | root => exact ⟨.nil, rfl⟩
  | child hNe hParent _ ih =>
    obtain ⟨p, hp⟩ := ih
    exact ⟨p.concat (hTree _ _ hNe hParent), by rw [SimpleGraph.Walk.length_concat, hp]⟩

theorem level_le_length {level : V → Nat}
    (hEdge : ∀ u v, G.Adj u v → (parent u).isSome → (parent v).isSome ∧ level v ≤ level u + 1)
    {u v : V} (p : G.Walk u v) (hu : (parent u).isSome) :
    (parent v).isSome ∧ level v ≤ level u + p.length := by
  induction p with
  | nil => exact ⟨hu, Nat.le_refl _⟩
  | cons hAdj p ih =>
    obtain ⟨hNext, hLe⟩ := hEdge _ _ hAdj hu
    obtain ⟨hv, hLast⟩ := ih hNext
    rw [SimpleGraph.Walk.length_cons]
    exact ⟨hv, by omega⟩

/-- Levels that no edge leaves and that no edge skips are distances. -/
theorem shortestPaths_of_levels (level : V → Nat) (hRoot : parent src = some src)
    (hLevel : ∀ v, (parent v).isSome → AtLevel src parent v (level v))
    (hTree : ∀ v u, v ≠ src → parent v = some u → G.Adj u v)
    (hEdge : ∀ u v, G.Adj u v → (parent u).isSome → (parent v).isSome ∧ level v ≤ level u + 1) :
    ShortestPaths G src parent := by
  have hSrc : (parent src).isSome := by rw [hRoot, Option.isSome_some]
  have hZero : level src = 0 := (hLevel src hSrc).unique .root
  have hDist : ∀ v, (parent v).isSome → G.Reachable src v ∧ G.dist src v = level v := by
    intro v hv
    obtain ⟨p, hp⟩ := (hLevel v hv).exists_walk hTree
    obtain ⟨q, hq⟩ := p.reachable.exists_walk_length_eq_dist
    have hUpper := SimpleGraph.dist_le p
    have hLower := (level_le_length hEdge q hSrc).2
    exact ⟨p.reachable, by omega⟩
  constructor
  · exact hRoot
  · intro v
    constructor
    · exact fun hv => (hDist v hv).1
    · rintro ⟨p⟩
      exact (level_le_length hEdge p hSrc).1
  · intro v u hNe hParent
    have hv : (parent v).isSome := by rw [hParent, Option.isSome_some]
    obtain ⟨m, hm, hu⟩ := (hLevel v hv).child_of hNe hParent
    have hSome := hu.isSome hRoot
    have hLast := (hLevel u hSome).unique hu
    have hDistU := (hDist u hSome).2
    have hDistV := (hDist v hv).2
    exact ⟨hTree v u hNe hParent, by omega⟩

end Trees

end Trident.BreadthFirst
