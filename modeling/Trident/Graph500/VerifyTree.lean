import Trident.Lib.Loops
import Trident.Graph500.Levels

/-! # Checking a tree

`verify_bfs_tree` in one thread. A failed assertion, like an access in front of an array, is `none`.
-/

namespace Trident.Graph500

open BreadthFirst Loops

section Program

variable (bfsTree : Nat → Int)

/-- `while (parent >= 0 && level[parent] < 0 && nhop < nv)`, with `nv - nhop` hops left -/
def climb (level : Nat → Int) : Nat → Int → Nat → Option (Int × Nat)
  | 0, parent, nhop => some (parent, nhop)
  | left + 1, parent, nhop =>
    if parent ≥ 0 ∧ level parent.toNat < 0 then
      if parent ≠ bfsTree parent.toNat then
        climb level left (bfsTree parent.toNat) (nhop + 1)
      else none
    else some (parent, nhop)

/-- `while (level[parent] < 0)` and the assertion behind it -/
def assignLevels : Nat → Int → (Nat → Int) → Option (Nat → Int)
  | 0, parent, level => if parent ≥ 0 ∧ level parent.toNat = 0 then some level else none
  | nhop + 1, parent, level =>
    if parent < 0 then none
    else if level parent.toNat < 0 then
      assignLevels nhop (bfsTree parent.toNat) (Function.update level parent.toNat (nhop + 1 : Nat))
    else if level parent.toNat = (nhop + 1 : Nat) then some level
    else none

/-- `while (level[parent] > 0)`: `false` is a failed assertion. -/
def checkLevels (level : Nat → Int) : Nat → Int → Bool
  | 0, parent => decide (parent ≥ 0 ∧ ¬ level parent.toNat > 0)
  | lastlvl + 1, parent =>
    if parent < 0 then false
    else if level parent.toNat > 0 then
      decide (level parent.toNat = lastlvl) && checkLevels level lastlvl (bfsTree parent.toNat)
    else true

structure Levels where
  level : Nat → Int
  err : Int

variable (root nv : Nat)

/-- One turn of the second loop of `compute_levels`. -/
def levelTurn (k : Nat) (s : Levels) : Option Levels :=
  if s.level k ≥ 0 then some s
  else if s.err = 0 ∧ bfsTree k ≥ 0 ∧ k ≠ root then do
    let (parent, nhop) ← climb bfsTree s.level nv k 0
    if parent < 0 then some { s with err := -2 } -- Ran off the end.
    else if nhop ≥ nv then some { s with err := -1 } -- Cycle.
    else
      let level ← assignLevels bfsTree (nhop + (s.level parent.toNat).toNat) k s.level
      if checkLevels bfsTree level ((level k).toNat + 1) k then some { s with level } else none
  else some s

def startLevels (k : Nat) : Int := if k = root then 0 else -1

def computeLevels : Option Levels := forUp (levelTurn bfsTree root nv) 0 nv ⟨startLevels root, 0⟩

structure EdgeScan where
  err : Int
  seenEdge : Nat → Bool
  nedgeTraversed : Nat

/-- Mark seen tree edges. -/
def markSeen (seenEdge : Nat → Bool) (i j : Nat) : Nat → Bool :=
  if i ≠ j then
    let seenEdge := if bfsTree i = j then Function.update seenEdge i true else seenEdge
    if bfsTree j = i then Function.update seenEdge j true else seenEdge
  else seenEdge

variable (maxBfsvtx : Int) (level : Nat → Int)

/-- One turn of the loop over the edges; `terr` is `err` again when it ends. -/
def scanEdge (s : EdgeScan) (e : PackedEdge) : EdgeScan :=
  let terr := if (e.i : Int) > maxBfsvtx ∧ (e.j : Int) ≤ maxBfsvtx then -10 else s.err
  let terr := if (e.j : Int) > maxBfsvtx ∧ (e.i : Int) ≤ maxBfsvtx then -11 else terr
  if terr ≠ 0 ∨ (e.i : Int) > maxBfsvtx then { s with err := terr }
  else
    let terr := if bfsTree e.i ≥ 0 ∧ bfsTree e.j < 0 then -12 else terr
    let terr := if bfsTree e.j ≥ 0 ∧ bfsTree e.i < 0 then -13 else terr
    if terr ≠ 0 ∨ bfsTree e.i < 0 then { s with err := terr }
    else
      let lvldiff := level e.i - level e.j
      { err := if lvldiff > 1 ∨ lvldiff < -1 then -14 else terr
        seenEdge := markSeen bfsTree s.seenEdge e.i e.j
        nedgeTraversed := s.nedgeTraversed + 1 }

/-- One turn of the loop behind it. -/
def checkSeen (seenEdge : Nat → Bool) (err : Int) (k : Nat) : Int :=
  if err = 0 ∧ k ≠ root then
    let terr := if bfsTree k ≥ 0 ∧ seenEdge k = false then -15 else err
    if bfsTree k = k then -16 else terr
  else err

def verifyBfsTree (edges : List PackedEdge) : Option Int :=
  let nv := (maxBfsvtx + 1).toNat
  if (root : Int) > maxBfsvtx ∨ bfsTree root ≠ root then some (-999)
  else do
    let levels ← computeLevels bfsTree root nv
    if levels.err ≠ 0 then some levels.err
    else
      let scan := edges.foldl (scanEdge bfsTree maxBfsvtx levels.level) ⟨0, fun _ => false, 0⟩
      let err :=
        if scan.err = 0 then (List.range nv).foldl (checkSeen bfsTree root scan.seenEdge) scan.err
        else scan.err
      some (if err ≠ 0 then err else scan.nedgeTraversed)

end Program

section Levels

/-- A `bfs_tree` of `nv` cells with entries in [-1, nv - 1]; behind the last cell stands -1. -/
structure ParentArray (nv : Nat) where
  cell : Nat → Int
  range : ∀ v, -1 ≤ cell v ∧ cell v < nv
  outside : ∀ v, nv ≤ v → cell v = -1

variable {nv root : Nat} {tree : ParentArray nv} {level : Nat → Int}

theorem ParentArray.treeOk (tree : ParentArray nv) : TreeOk tree.cell := by
  intro v
  have hRange := tree.range v
  obtain hNone | hSome : tree.cell v = -1 ∨ 0 ≤ tree.cell v := by omega
  · exact Or.inl hNone
  · exact Or.inr ⟨(tree.cell v).toNat, (Int.toNat_of_nonneg hSome).symm⟩

theorem ParentArray.isSome_iff {v : Nat} : (parentOf tree.cell v).isSome ↔ 0 ≤ tree.cell v := by
  have hRange := tree.range v
  rw [isSome_parentOf]
  omega

/-- `v` is `n` hops below the root. -/
abbrev ParentArray.At (tree : ParentArray nv) (root v n : Nat) : Prop :=
  AtLevel root (parentOf tree.cell) v n

theorem ParentArray.At.exists_parent {v n : Nat} (h : tree.At root v n) (hNe : v ≠ root) :
    ∃ u m, tree.cell v = (u : Nat) ∧ u ≠ v ∧ n = m + 1 ∧ tree.At root u m := by
  cases h with
  | root => exact absurd rfl hNe
  | @child u _ m _ hParent hLevel =>
    refine ⟨u, m, tree.treeOk.parentOf_eq_some.mp hParent, ?_, rfl, hLevel⟩
    rintro rfl
    have hSame := hLevel.unique (.child hNe hParent hLevel)
    omega

theorem ParentArray.At.lt (hRoot : tree.cell root = root) {v n : Nat} (h : tree.At root v n) :
    n < nv := by
  rw [← Finset.card_range nv]
  refine h.lt_card fun u m hu => Finset.mem_range.mpr ?_
  by_contra hOut
  have hSome := hu.isSome (tree.treeOk.parentOf_eq_some.mpr hRoot)
  rw [tree.isSome_iff, tree.outside u (by omega)] at hSome
  omega

structure Leveled (tree : ParentArray nv) (root : Nat) (level : Nat → Int) : Prop where
  start : level root = 0
  sound : ∀ v, 0 ≤ level v → tree.At root v (level v).toNat

theorem leveled_start (tree : ParentArray nv) (root : Nat) : Leveled tree root (startLevels root) where
  start := if_pos rfl
  sound v hv := by
    obtain rfl | hNe := eq_or_ne v root
    · rw [startLevels, if_pos rfl]
      exact .root
    · rw [startLevels, if_neg hNe] at hv
      omega

theorem Leveled.ne_root (h : Leveled tree root level) {v : Nat} (hv : level v < 0) : v ≠ root := by
  rintro rfl
  have hRoot := h.start
  omega

theorem Leveled.eq (h : Leveled tree root level) {v n : Nat} (hv : 0 ≤ level v)
    (hn : tree.At root v n) : level v = n := by
  have hSame := (h.sound v hv).unique hn
  omega

theorem Leveled.update (h : Leveled tree root level) {v n : Nat} (hFree : level v < 0)
    (hn : tree.At root v n) : Leveled tree root (Function.update level v n) := by
  constructor
  · rw [Function.update_of_ne (h.ne_root hFree).symm]
    exact h.start
  · intro w hw
    obtain rfl | hNe := eq_or_ne w v
    · rw [Function.update_self, Int.toNat_natCast]
      exact hn
    · rw [Function.update_of_ne hNe] at hw ⊢
      exact h.sound w hw

/-- Where the climb ends inside the array, the start is as many hops below. -/
theorem climb_spec (h : Leveled tree root level) {left nhop nhop' : Nat} {parent p : Int}
    (hClimb : climb tree.cell level left parent nhop = some (p, nhop')) (hp : 0 ≤ p) :
    0 ≤ parent ∧ nhop ≤ nhop' ∧ (nhop' < nhop + left → 0 ≤ level p.toNat) ∧
      ∀ n, tree.At root p.toNat n → tree.At root parent.toNat (n + (nhop' - nhop)) := by
  induction left generalizing nhop parent with
  | zero =>
    cases hClimb
    refine ⟨hp, Nat.le_refl _, fun hLess => absurd hLess (Nat.lt_irrefl _), fun n hn => ?_⟩
    rwa [Nat.sub_self]
  | succ left ih =>
    rw [climb] at hClimb
    split at hClimb
    · rename_i hGo
      split at hClimb
      · obtain ⟨hParent, hLe, hEnd, hBelow⟩ := ih hClimb
        refine ⟨hGo.1, by omega, fun hLess => hEnd (by omega), fun n hn => ?_⟩
        have hCell : tree.cell parent.toNat = ((tree.cell parent.toNat).toNat : Nat) :=
          (Int.toNat_of_nonneg hParent).symm
        have hUp : tree.At root parent.toNat (n + (nhop' - (nhop + 1)) + 1) :=
          .child (h.ne_root hGo.2) (tree.treeOk.parentOf_eq_some.mpr hCell) (hBelow n hn)
        rwa [show n + (nhop' - nhop) = n + (nhop' - (nhop + 1)) + 1 by omega]
      · cases hClimb
    · rename_i hStop
      cases hClimb
      refine ⟨hp, Nat.le_refl _, fun _ => ?_, fun n hn => ?_⟩
      · by_contra hUnset
        exact hStop ⟨hp, by omega⟩
      · rwa [Nat.sub_self]

theorem climb_total (h : Leveled tree root level) {left nhop v n : Nat} (hv : tree.At root v n)
    (hLeft : n < left) : ∃ (p : Nat) (hops : Nat),
      climb tree.cell level left v nhop = some (↑p, nhop + hops) ∧ hops ≤ n := by
  induction n generalizing left nhop v with
  | zero =>
    cases hv
    cases left with
    | zero => omega
    | succ left =>
      refine ⟨root, 0, ?_, Nat.le_refl 0⟩
      rw [climb, if_neg]
      · rfl
      · rw [Int.toNat_natCast, h.start]
        omega
  | succ n ih =>
    cases left with
    | zero => omega
    | succ left =>
      rw [climb, Int.toNat_natCast]
      split
      · rename_i hGo
        obtain ⟨u, m, hCell, hNe, hn, hu⟩ := hv.exists_parent (h.ne_root hGo.2)
        rw [hCell, if_pos (by omega)]
        rw [← Nat.succ.inj hn] at hu
        obtain ⟨p, hops, hClimb, hLe⟩ := @ih left (nhop + 1) u hu (by omega)
        refine ⟨p, hops + 1, ?_, by omega⟩
        rw [hClimb, show nhop + 1 + hops = nhop + (hops + 1) by omega]
      · exact ⟨v, 0, rfl, Nat.zero_le _⟩

theorem assignLevels_spec (h : Leveled tree root level) {v n : Nat} (hv : tree.At root v n) :
    ∃ level', assignLevels tree.cell n v level = some level' ∧ Leveled tree root level' ∧
      0 ≤ level' v ∧ ∀ w, 0 ≤ level w → 0 ≤ level' w := by
  induction n generalizing v level with
  | zero =>
    cases hv
    have hRoot := h.start
    refine ⟨level, ?_, h, by omega, fun _ hw => hw⟩
    rw [assignLevels, Int.toNat_natCast, if_pos ⟨by omega, hRoot⟩]
  | succ n ih =>
    rw [assignLevels, if_neg (by omega), Int.toNat_natCast]
    split
    · rename_i hFree
      obtain ⟨u, m, hCell, _, hn, hu⟩ := hv.exists_parent (h.ne_root hFree)
      rw [← Nat.succ.inj hn] at hu
      rw [hCell]
      obtain ⟨level', hAssign, hLeveled, _, hKeep⟩ := ih (h.update hFree hv) hu
      have hSet : ∀ w, 0 ≤ level w ∨ w = v → 0 ≤ Function.update level v ((n + 1 : Nat) : Int) w := by
        intro w hw
        obtain rfl | hNe := eq_or_ne w v
        · rw [Function.update_self]
          omega
        · rw [Function.update_of_ne hNe]
          exact hw.resolve_right hNe
      exact ⟨level', hAssign, hLeveled, hKeep v (hSet v (Or.inr rfl)),
        fun w hw => hKeep w (hSet w (Or.inl hw))⟩
    · rename_i hSet
      rw [if_pos (h.eq (by omega) hv)]
      exact ⟨level, rfl, h, by omega, fun _ hw => hw⟩

theorem checkLevels_spec (h : Leveled tree root level) {lastlvl v : Nat}
    (hLast : level v > 0 → (lastlvl : Int) = level v + 1) :
    checkLevels tree.cell level lastlvl v = true := by
  induction lastlvl generalizing v with
  | zero =>
    rw [checkLevels, decide_eq_true_iff, Int.toNat_natCast]
    refine ⟨by omega, fun hPos => ?_⟩
    have hZero := hLast hPos
    omega
  | succ lastlvl ih =>
    rw [checkLevels, if_neg (by omega), Int.toNat_natCast]
    split
    · rename_i hPos
      have hSame := hLast hPos
      have hNe : v ≠ root := by
        rintro rfl
        have hRoot := h.start
        omega
      obtain ⟨u, m, hCell, _, hm, hu⟩ := (h.sound v (by omega)).exists_parent hNe
      rw [hCell, Bool.and_eq_true, decide_eq_true_iff]
      refine ⟨by omega, ih fun hNext => ?_⟩
      have hLevel := h.eq (by omega) hu
      omega
    · rfl

variable {k : Nat} {s s' : Levels}

/-- Before turn `k` of the second loop of `compute_levels`. -/
structure LeveledTo (tree : ParentArray nv) (root k : Nat) (s : Levels) : Prop where
  leveled : Leveled tree root s.level
  err : s.err ≤ 0
  done : s.err = 0 → ∀ v < k, 0 ≤ tree.cell v → 0 ≤ s.level v

theorem LeveledTo.next (h : LeveledTo tree root k s) (hk : s.err = 0 → 0 ≤ tree.cell k → 0 ≤ s.level k) :
    LeveledTo tree root (k + 1) s where
  leveled := h.leveled
  err := h.err
  done hErr v hv hCell := by
    rcases Nat.lt_succ_iff_lt_or_eq.mp hv with hBefore | rfl
    · exact h.done hErr v hBefore hCell
    · exact hk hErr hCell

theorem leveledTo_failed {k : Nat} {level : Nat → Int} {err : Int} (h : Leveled tree root level)
    (hErr : err < 0) : LeveledTo tree root k ⟨level, err⟩ :=
  ⟨h, hErr.le, fun hNone => absurd hNone hErr.ne⟩

theorem LeveledTo.turn (h : LeveledTo tree root k s)
    (hTurn : levelTurn tree.cell root nv k s = some s') : LeveledTo tree root (k + 1) s' := by
  rw [levelTurn] at hTurn
  split at hTurn
  · rename_i hSet
    cases hTurn
    exact h.next fun _ _ => hSet
  · rename_i hFree
    split at hTurn
    · obtain ⟨⟨parent, nhop⟩, hClimb, hTurn⟩ := Option.bind_eq_some_iff.mp hTurn
      dsimp only at hTurn
      split at hTurn
      · cases hTurn
        exact leveledTo_failed h.leveled (by decide)
      · rename_i hInside
        split at hTurn
        · cases hTurn
          exact leveledTo_failed h.leveled (by decide)
        · rename_i hHops
          obtain ⟨level, hAssign, hTurn⟩ := Option.bind_eq_some_iff.mp hTurn
          split at hTurn
          · cases hTurn
            obtain ⟨_, _, hEnd, hBelow⟩ := climb_spec h.leveled hClimb (by omega)
            have hk := hBelow _ (h.leveled.sound _ (hEnd (by omega)))
            rw [Nat.sub_zero, Nat.add_comm, Int.toNat_natCast] at hk
            obtain ⟨level', hSame, hLeveled, hNew, hKeep⟩ := assignLevels_spec h.leveled hk
            rw [hAssign] at hSame
            cases hSame
            have hKept : LeveledTo tree root k { s with level } :=
              ⟨hLeveled, h.err, fun hErr v hv hCell => hKeep v (h.done hErr v hv hCell)⟩
            exact hKept.next fun _ _ => hNew
          · cases hTurn
    · rename_i hSkip
      cases hTurn
      refine h.next fun hErr hCell => ?_
      have hRoot : k = root := by
        by_contra hNe
        exact hSkip ⟨hErr, hCell, hNe⟩
      rw [hRoot, h.leveled.start]

theorem LeveledTo.turn_total (h : LeveledTo tree root k s) (hErr : s.err = 0)
    (hRoot : tree.cell root = root) (hk : 0 ≤ tree.cell k → ∃ n, tree.At root k n) :
    ∃ s', levelTurn tree.cell root nv k s = some s' ∧ s'.err = 0 := by
  rw [levelTurn]
  split
  · exact ⟨s, rfl, hErr⟩
  · split
    · rename_i hCell
      obtain ⟨n, hn⟩ := hk hCell.2.1
      have hLess : n < nv := hn.lt hRoot
      obtain ⟨p, hops, hClimb, hLe⟩ := @climb_total _ _ _ _ h.leveled _ 0 _ _ hn hLess
      obtain ⟨_, _, hEnd, hBelow⟩ := climb_spec h.leveled hClimb (by omega)
      have hAt := hBelow _ (h.leveled.sound _ (hEnd (by omega)))
      rw [Nat.sub_zero, Nat.add_comm, Int.toNat_natCast] at hAt
      obtain ⟨level, hAssign, hLeveled, hNew, _⟩ := assignLevels_spec h.leveled hAt
      refine ⟨{ s with level }, ?_, hErr⟩
      rw [hClimb, Option.bind_eq_bind, Option.bind_some]
      dsimp only
      rw [if_neg (by omega), if_neg (by omega), hAssign, Option.bind_eq_bind, Option.bind_some,
        if_pos (checkLevels_spec hLeveled fun _ => by omega)]
    · exact ⟨s, rfl, hErr⟩

theorem leveledTo_zero : LeveledTo tree root 0 ⟨startLevels root, 0⟩ :=
  ⟨leveled_start tree root, Int.le_refl 0, fun _ _ hv => absurd hv (Nat.not_lt_zero _)⟩

theorem computeLevels_spec (h : computeLevels tree.cell root nv = some s) :
    LeveledTo tree root nv s := by
  have hAll := forUp_invariant (I := LeveledTo tree root) (fun k _ _ _ _ hk => hk.turn) leveledTo_zero h
  rwa [Nat.zero_add] at hAll

theorem computeLevels_total (hRoot : tree.cell root = root)
    (hAll : ∀ v, 0 ≤ tree.cell v → ∃ n, tree.At root v n) :
    ∃ s, computeLevels tree.cell root nv = some s ∧ s.err = 0 := by
  have hTotal := forUp_total (i := 0) (m := nv) (f := levelTurn tree.cell root nv)
    (I := fun k s => LeveledTo tree root k s ∧ s.err = 0) (s := ⟨startLevels root, 0⟩)
    (fun k s _ _ hk => by
      obtain ⟨s', hTurn, hErr⟩ := hk.1.turn_total hk.2 hRoot (hAll k)
      exact ⟨s', hTurn, hk.1.turn hTurn, hErr⟩) ⟨leveledTo_zero, rfl⟩
  obtain ⟨s, hLoop, _, hErr⟩ := hTotal
  exact ⟨s, hLoop, hErr⟩

end Levels

section Edges

variable {tree : Nat → Int} {root : Nat} {max : Int} {level : Nat → Int}

/-- Both ends are in the tree, not more than one level apart, or none is. -/
def EdgeOk (tree level : Nat → Int) (e : PackedEdge) : Prop :=
  (0 ≤ tree e.i ↔ 0 ≤ tree e.j) ∧
    (0 ≤ tree e.i → level e.i ≤ level e.j + 1 ∧ level e.j ≤ level e.i + 1)

/-- The edge is the one to the parent of `k`. -/
def PackedEdge.Marks (e : PackedEdge) (tree : Nat → Int) (k : Nat) : Prop :=
  e.i ≠ e.j ∧ (tree e.i = e.j ∧ k = e.i ∨ tree e.j = e.i ∧ k = e.j)

theorem exists_marks_iff {edges : List PackedEdge} {k : Nat} :
    (∃ e ∈ edges, e.Marks tree k) ↔ ∃ u : Nat, tree k = u ∧ (edgeGraph edges).Adj u k := by
  constructor
  · rintro ⟨e, he, hNe, ⟨hCell, rfl⟩ | ⟨hCell, rfl⟩⟩
    · exact ⟨e.j, hCell, hNe.symm, e, he, Or.inr ⟨rfl, rfl⟩⟩
    · exact ⟨e.i, hCell, hNe, e, he, Or.inl ⟨rfl, rfl⟩⟩
  · rintro ⟨u, hCell, hNe, e, he, ⟨rfl, rfl⟩ | ⟨rfl, rfl⟩⟩
    · exact ⟨e, he, hNe, Or.inr ⟨hCell, rfl⟩⟩
    · exact ⟨e, he, hNe.symm, Or.inl ⟨hCell, rfl⟩⟩

theorem update_true_iff {seenEdge : Nat → Bool} {p : Prop} [Decidable p] {i k : Nat} :
    (if p then Function.update seenEdge i true else seenEdge) k = true ↔
      seenEdge k = true ∨ p ∧ k = i := by
  obtain rfl | hNe := eq_or_ne k i
  · split <;> simp_all
  · split <;> simp_all [Function.update_of_ne]

theorem markSeen_iff {seenEdge : Nat → Bool} (e : PackedEdge) (k : Nat) :
    markSeen tree seenEdge e.i e.j k = true ↔ seenEdge k = true ∨ e.Marks tree k := by
  rw [markSeen, PackedEdge.Marks]
  split
  · rename_i hNe
    dsimp only
    rw [update_true_iff, update_true_iff, or_assoc, and_iff_right hNe]
  · rename_i hSame
    exact (or_iff_left fun hMarks => hSame hMarks.1).symm

theorem scanEdge_inside {s : EdgeScan} {e : PackedEdge} (hi : (e.i : Int) ≤ max)
    (hj : (e.j : Int) ≤ max) (hErr : s.err = 0) : scanEdge tree max level s e =
      if 0 ≤ tree e.i ∧ tree e.j < 0 then { s with err := -12 }
      else if 0 ≤ tree e.j ∧ tree e.i < 0 then { s with err := -13 }
      else if tree e.i < 0 then { s with err := 0 }
      else
        ⟨if level e.i - level e.j > 1 ∨ level e.i - level e.j < -1 then -14 else 0,
          markSeen tree s.seenEdge e.i e.j, s.nedgeTraversed + 1⟩ := by
  have hFirst : ¬ ((e.i : Int) > max ∧ (e.j : Int) ≤ max) := by omega
  have hSecond : ¬ ((e.j : Int) > max ∧ (e.i : Int) ≤ max) := by omega
  have hGo : ¬ ((0 : Int) ≠ 0 ∨ (e.i : Int) > max) := by omega
  simp only [scanEdge, if_neg hFirst, if_neg hSecond, hErr, if_neg hGo, ge_iff_le]
  rcases lt_or_ge (tree e.i) 0 with hLeft | hLeft <;> rcases lt_or_ge (tree e.j) 0 with hRight | hRight
  · simp [hLeft, hLeft.not_ge, hRight.not_ge]
  · simp [hLeft, hLeft.not_ge, hRight]
  · simp [hLeft, hRight, hRight.not_ge]
  · simp [hLeft, hLeft.not_gt, hRight.not_gt]

theorem scanEdge_failed {s : EdgeScan} {e : PackedEdge} (hErr : s.err < 0) :
    (scanEdge tree max level s e).err < 0 := by
  have hBelow : ∀ {p : Prop} [Decidable p] {a b : Int}, a < 0 → b < 0 → (if p then a else b) < 0 := by
    intro p _ a b ha hb
    split
    · exact ha
    · exact hb
  have hTerr := hBelow (p := (e.i : Int) > max ∧ (e.j : Int) ≤ max) (by decide : (-10 : Int) < 0) hErr
  have hTerr' := hBelow (p := (e.j : Int) > max ∧ (e.i : Int) ≤ max) (by decide : (-11 : Int) < 0) hTerr
  rw [scanEdge, if_pos (Or.inl hTerr'.ne)]
  exact hTerr'

theorem scanEdge_ok {s : EdgeScan} {e : PackedEdge} (hi : (e.i : Int) ≤ max) (hj : (e.j : Int) ≤ max)
    (hErr : s.err = 0) (hOk : EdgeOk tree level e) : scanEdge tree max level s e =
      if 0 ≤ tree e.i then ⟨0, markSeen tree s.seenEdge e.i e.j, s.nedgeTraversed + 1⟩
      else { s with err := 0 } := by
  obtain ⟨hBoth, hLevels⟩ := hOk
  rw [scanEdge_inside hi hj hErr, if_neg (by omega), if_neg (by omega)]
  split
  · rw [if_neg (by omega)]
  · rename_i hIn
    have hNear := hLevels (by omega)
    rw [if_neg (by omega), if_pos (by omega)]

theorem scanEdge_bad {s : EdgeScan} {e : PackedEdge} (hi : (e.i : Int) ≤ max) (hj : (e.j : Int) ≤ max)
    (hErr : s.err = 0) (hBad : ¬ EdgeOk tree level e) : (scanEdge tree max level s e).err < 0 := by
  rw [scanEdge_inside hi hj hErr]
  split
  · exact Int.negSucc_lt_zero _
  · split
    · exact Int.negSucc_lt_zero _
    · split
      · rename_i hNone
        refine absurd ⟨?_, ?_⟩ hBad <;> omega
      · dsimp only
        rw [if_pos]
        · exact Int.negSucc_lt_zero _
        · by_contra hNear
          refine hBad ⟨?_, fun _ => ?_⟩ <;> omega

variable {edges : List PackedEdge}

theorem scanEdges_failed {s : EdgeScan} (hErr : s.err < 0) :
    (edges.foldl (scanEdge tree max level) s).err < 0 := by
  induction edges generalizing s with
  | nil => exact hErr
  | cons e edges ih => exact ih (scanEdge_failed hErr)

structure Scanned (tree : Nat → Int) (edges : List PackedEdge) (s t : EdgeScan) : Prop where
  err : t.err = 0
  seen : ∀ k, t.seenEdge k = true ↔ s.seenEdge k = true ∨ ∃ e ∈ edges, 0 ≤ tree e.i ∧ e.Marks tree k
  traversed : t.nedgeTraversed = s.nedgeTraversed + edges.countP fun e => decide (0 ≤ tree e.i)

theorem scanEdges_spec (tree level : Nat → Int)
    (hEnds : ∀ e ∈ edges, (e.i : Int) ≤ max ∧ (e.j : Int) ≤ max) {s : EdgeScan} (hErr : s.err = 0) :
    ((∀ e ∈ edges, EdgeOk tree level e) ∧
      Scanned tree edges s (edges.foldl (scanEdge tree max level) s)) ∨
    (¬ (∀ e ∈ edges, EdgeOk tree level e) ∧ (edges.foldl (scanEdge tree max level) s).err < 0) := by
  induction edges generalizing s with
  | nil => exact Or.inl ⟨nofun, hErr, fun k => by simp, by simp⟩
  | cons e edges ih =>
    obtain ⟨⟨hi, hj⟩, hRest⟩ := List.forall_mem_cons.mp hEnds
    rw [List.forall_mem_cons, List.foldl_cons]
    by_cases hOk : EdgeOk tree level e
    · have hNext := scanEdge_ok (s := s) hi hj hErr hOk
      by_cases hIn : 0 ≤ tree e.i
      · rw [hNext, if_pos hIn]
        rcases ih hRest (s := ⟨0, markSeen tree s.seenEdge e.i e.j, s.nedgeTraversed + 1⟩) rfl with
          ⟨hAll, h⟩ | ⟨hNot, hNeg⟩
        · refine Or.inl ⟨⟨hOk, hAll⟩, h.err, fun k => ?_, ?_⟩
          · rw [h.seen k, markSeen_iff, List.exists_mem_cons_iff, and_iff_right hIn, or_assoc]
          · rw [h.traversed, List.countP_cons_of_pos (by simpa using hIn)]
            dsimp only
            omega
        · exact Or.inr ⟨fun hBoth => hNot hBoth.2, hNeg⟩
      · rw [hNext, if_neg hIn]
        rcases ih hRest (s := { s with err := 0 }) rfl with ⟨hAll, h⟩ | ⟨hNot, hNeg⟩
        · refine Or.inl ⟨⟨hOk, hAll⟩, h.err, fun k => ?_, ?_⟩
          · rw [h.seen k, List.exists_mem_cons_iff]
            simp only [hIn, false_and, false_or]
          · rw [h.traversed, List.countP_cons_of_neg (by simpa using hIn)]
        · exact Or.inr ⟨fun hBoth => hNot hBoth.2, hNeg⟩
    · exact Or.inr ⟨fun hBoth => hOk hBoth.1, scanEdges_failed (scanEdge_bad hi hj hErr hOk)⟩

theorem Scanned.seen_iff {n : Nat} {t : EdgeScan} (h : Scanned tree edges ⟨0, fun _ => false, n⟩ t)
    (hAll : ∀ e ∈ edges, EdgeOk tree level e) (k : Nat) :
    t.seenEdge k = true ↔ ∃ u : Nat, tree k = u ∧ (edgeGraph edges).Adj u k := by
  rw [h.seen, ← exists_marks_iff, Bool.false_eq_true, false_or]
  refine exists_congr fun e => and_congr_right fun he => and_iff_right_of_imp ?_
  rintro ⟨_, ⟨hCell, _⟩ | ⟨hCell, _⟩⟩
  · omega
  · exact (hAll e he).1.mpr (by omega)

theorem checkSeen_spec (tree : Nat → Int) (root : Nat) (seenEdge : Nat → Bool) {err : Int}
    (hErr : err ≤ 0) (k : Nat) :
    checkSeen tree root seenEdge err k ≤ 0 ∧ (checkSeen tree root seenEdge err k = 0 ↔
      err = 0 ∧ (k ≠ root → (0 ≤ tree k → seenEdge k = true) ∧ tree k ≠ k)) := by
  rw [checkSeen]
  split
  · rename_i hGo
    dsimp only
    split
    · rename_i hSelf
      exact ⟨by decide, iff_of_false (by decide) fun hAll => (hAll.2 hGo.2).2 hSelf⟩
    · rename_i hSelf
      split
      · rename_i hUnseen
        refine ⟨by decide, iff_of_false (by decide) fun hAll => ?_⟩
        have hSeen := (hAll.2 hGo.2).1 hUnseen.1
        rw [hUnseen.2] at hSeen
        cases hSeen
      · rename_i hSeen
        refine ⟨hErr, (and_iff_left fun _ => ⟨fun hIn => ?_, hSelf⟩).symm⟩
        by_contra hNot
        exact hSeen ⟨hIn, Bool.eq_false_iff.mpr hNot⟩
  · rename_i hSkip
    refine ⟨hErr, ⟨fun hNone => ⟨hNone, fun hNe => absurd ⟨hNone, hNe⟩ hSkip⟩, And.left⟩⟩

theorem checkAllSeen_spec (tree : Nat → Int) (root : Nat) (seenEdge : Nat → Bool) {err : Int}
    (hErr : err ≤ 0) (ks : List Nat) :
    ks.foldl (checkSeen tree root seenEdge) err ≤ 0 ∧
      (ks.foldl (checkSeen tree root seenEdge) err = 0 ↔
        err = 0 ∧ ∀ k ∈ ks, k ≠ root → (0 ≤ tree k → seenEdge k = true) ∧ tree k ≠ k) := by
  induction ks generalizing err with
  | nil => exact ⟨hErr, by simp⟩
  | cons k ks ih =>
    obtain ⟨hLe, hIff⟩ := checkSeen_spec tree root seenEdge hErr k
    rw [List.foldl_cons, List.forall_mem_cons]
    refine ⟨(ih hLe).1, (ih hLe).2.trans ?_⟩
    rw [hIff, and_assoc]

end Edges

section Result

variable {max : Int} {tree : ParentArray (max + 1).toNat} {root : Nat} {edges : List PackedEdge}

/-- What the loops behind `compute_levels` look for. -/
structure Consistent (edges : List PackedEdge) {nv : Nat} (tree : ParentArray nv) (root : Nat)
    (level : Nat → Int) : Prop where
  ends : ∀ e ∈ edges, EdgeOk tree.cell level e
  parents : ∀ v ≠ root, 0 ≤ tree.cell v → ∃ u : Nat, tree.cell v = u ∧ (edgeGraph edges).Adj u v

theorem returned_iff {err v : Int} {n : Nat} (hErr : err ≤ 0) :
    0 ≤ v ∧ (if err ≠ 0 then err else (n : Int)) = v ↔ err = 0 ∧ v = n := by
  split <;> omega

theorem verify_of_levels (hEnds : ∀ e ∈ edges, (e.i : Int) ≤ max ∧ (e.j : Int) ≤ max)
    (hIn : (root : Int) ≤ max) (hRoot : tree.cell root = root) {s : Levels}
    (hLevels : computeLevels tree.cell root (max + 1).toNat = some s) (hErr : s.err = 0) (v : Int) :
    0 ≤ v ∧ verifyBfsTree tree.cell root max edges = some v ↔
      Consistent edges tree root s.level ∧
        v = (edges.countP fun e => decide (0 ≤ tree.cell e.i) : Nat) := by
  have hStart : ¬ ((root : Int) > max ∨ tree.cell root ≠ root) := by
    rintro (hOut | hNe)
    · omega
    · exact hNe hRoot
  obtain ⟨t, ht⟩ : ∃ t, t = edges.foldl (scanEdge tree.cell max s.level) ⟨0, fun _ => false, 0⟩ :=
    ⟨_, rfl⟩
  have hScan := scanEdges_spec tree.cell s.level hEnds (s := ⟨0, fun _ => false, 0⟩) rfl
  rw [verifyBfsTree, if_neg hStart, hLevels]
  simp only [Option.bind_eq_bind, Option.bind_some, hErr, ne_eq, not_true, if_false, Option.some_inj]
  rw [← ht] at hScan ⊢
  obtain ⟨hAll, hScan⟩ | ⟨hBad, hNeg⟩ := hScan
  · obtain ⟨hLe, hZero⟩ := checkAllSeen_spec tree.cell root t.seenEdge hScan.err.le
      (List.range (max + 1).toNat)
    have hCount := hScan.traversed
    rw [Nat.zero_add] at hCount
    rw [if_pos hScan.err, returned_iff hLe, hZero, hCount, and_iff_right hScan.err]
    refine and_congr_left fun _ => ⟨fun hSeen => ⟨hAll, fun v hNe hCell => ?_⟩, fun h k _ hNe => ?_⟩
    · have hv : v ∈ List.range (max + 1).toNat := by
        by_contra hOut
        rw [List.mem_range, Nat.not_lt] at hOut
        rw [tree.outside v hOut] at hCell
        omega
      exact (hScan.seen_iff hAll v).mp ((hSeen v hv hNe).1 hCell)
    · refine ⟨fun hCell => (hScan.seen_iff hAll k).mpr (h.parents k hNe hCell), fun hSelf => ?_⟩
      obtain ⟨u, hu, hAdj⟩ := h.parents k hNe (by omega)
      exact hAdj.ne (by omega)
  · rw [if_neg hNeg.ne, returned_iff hNeg.le]
    exact iff_of_false (fun h => hNeg.ne h.1) fun h => hBad h.1.ends

theorem verify_accepts (hRoot : tree.cell root = root) (hIn : (root : Int) ≤ max) {v : Int} (hv : 0 ≤ v)
    (h : verifyBfsTree tree.cell root max edges = some v) :
    ∃ s, computeLevels tree.cell root (max + 1).toNat = some s ∧ s.err = 0 := by
  rw [verifyBfsTree, if_neg (by omega)] at h
  obtain ⟨s, hLevels, h⟩ := Option.bind_eq_some_iff.mp h
  refine ⟨s, hLevels, ?_⟩
  by_contra hErr
  rw [if_pos hErr, Option.some_inj] at h
  have hLe := (computeLevels_spec hLevels).err
  omega

theorem Consistent.isBfsTree {nv : Nat} {tree : ParentArray nv} {s : Levels}
    (h : Consistent edges tree root s.level) (hRoot : tree.cell root = root)
    (hLevels : LeveledTo tree root nv s) (hErr : s.err = 0) : IsBfsTree edges root tree.cell := by
  have hSet : ∀ v, 0 ≤ tree.cell v → 0 ≤ s.level v := by
    intro v hv
    refine hLevels.done hErr v ?_ hv
    by_contra hOut
    rw [tree.outside v (not_lt.mp hOut)] at hv
    omega
  apply tree.treeOk.isBfsTree
  apply shortestPaths_of_levels fun v => (s.level v).toNat
  · exact tree.treeOk.parentOf_eq_some.mpr hRoot
  · intro v hv
    exact hLevels.leveled.sound v (hSet v (tree.isSome_iff.mp hv))
  · intro v u hNe hParent
    rw [tree.treeOk.parentOf_eq_some] at hParent
    obtain ⟨w, hw, hAdj⟩ := h.parents v hNe (by omega)
    rwa [Int.natCast_inj.mp (hParent.symm.trans hw)]
  · intro u v hAdj hu
    rw [tree.isSome_iff] at hu ⊢
    obtain ⟨_, e, he, ⟨rfl, rfl⟩ | ⟨rfl, rfl⟩⟩ := hAdj
    · obtain ⟨hBoth, hNear⟩ := h.ends e he
      have hLevel := hNear hu
      exact ⟨hBoth.mp hu, by omega⟩
    · obtain ⟨hBoth, hNear⟩ := h.ends e he
      have hLevel := hNear (hBoth.mpr hu)
      exact ⟨hBoth.mpr hu, by omega⟩

theorem ParentArray.visited {nv : Nat} {tree : ParentArray nv} (h : IsBfsTree edges root tree.cell)
    (v : Nat) : 0 ≤ tree.cell v ↔ (edgeGraph edges).Reachable root v := by
  rw [← h.shortestPaths.visited, tree.isSome_iff]

theorem consistent_of_isBfsTree {nv : Nat} {tree : ParentArray nv} {s : Levels}
    (h : IsBfsTree edges root tree.cell) (hLevels : LeveledTo tree root nv s) (hErr : s.err = 0) :
    Consistent edges tree root s.level := by
  have hDist : ∀ v, 0 ≤ tree.cell v → s.level v = (edgeGraph edges).dist root v := by
    intro v hv
    have hLess : v < nv := by
      by_contra hOut
      rw [tree.outside v (not_lt.mp hOut)] at hv
      omega
    have hSet := hLevels.done hErr v hLess hv
    have hSame := (h.shortestPaths.atLevel_iff.mp (hLevels.leveled.sound v hSet)).2
    omega
  have hStep : ∀ u v, (edgeGraph edges).Adj u v → 0 ≤ tree.cell u →
      0 ≤ tree.cell v ∧ s.level v ≤ s.level u + 1 := by
    intro u v hAdj hu
    obtain ⟨hReach, hLe⟩ := dist_le_succ ((ParentArray.visited h u).mp hu) hAdj
    have hv := (ParentArray.visited h v).mpr hReach
    rw [hDist v hv, hDist u hu]
    exact ⟨hv, by omega⟩
  constructor
  · intro e he
    obtain hSame | hNe := eq_or_ne e.i e.j
    · rw [EdgeOk, hSame]
      exact ⟨Iff.rfl, fun _ => by omega⟩
    · have hAdj : (edgeGraph edges).Adj e.i e.j := ⟨hNe, e, he, Or.inl ⟨rfl, rfl⟩⟩
      have hBoth : 0 ≤ tree.cell e.i ↔ 0 ≤ tree.cell e.j :=
        ⟨fun hi => (hStep _ _ hAdj hi).1, fun hj => (hStep _ _ hAdj.symm hj).1⟩
      exact ⟨hBoth, fun hi => ⟨(hStep _ _ hAdj.symm (hBoth.mp hi)).2, (hStep _ _ hAdj hi).2⟩⟩
  · intro v hNe hv
    obtain ⟨u, hu, hAdj, _⟩ := h.nearer v hNe (by omega)
    exact ⟨u, hu, hAdj⟩

open Classical in
/-- Just the trees of shortest paths are accepted, with the number of edges in the component. -/
theorem verify_iff (max : Int) (tree : ParentArray (max + 1).toNat) (root : Nat)
    (edges : List PackedEdge) (hEnds : ∀ e ∈ edges, (e.i : Int) ≤ max ∧ (e.j : Int) ≤ max) :
    ((∃ v, 0 ≤ v ∧ verifyBfsTree tree.cell root max edges = some v) ↔ IsBfsTree edges root tree.cell) ∧
      ∀ v, 0 ≤ v → verifyBfsTree tree.cell root max edges = some v →
        v = (edges.countP fun e => decide ((edgeGraph edges).Reachable root e.i ∧
          (edgeGraph edges).Reachable root e.j) : Nat) := by
  have hSound : ∀ v, 0 ≤ v → verifyBfsTree tree.cell root max edges = some v →
      IsBfsTree edges root tree.cell ∧
        v = (edges.countP fun e => decide (0 ≤ tree.cell e.i) : Nat) ∧
        ∀ e ∈ edges, 0 ≤ tree.cell e.i ↔ 0 ≤ tree.cell e.j := by
    intro v hv h
    by_cases hStart : (root : Int) > max ∨ tree.cell root ≠ root
    · rw [verifyBfsTree, if_pos hStart, Option.some_inj] at h
      omega
    · have hIn : (root : Int) ≤ max := by omega
      have hRoot : tree.cell root = root := by omega
      obtain ⟨s, hLevels, hErr⟩ := verify_accepts hRoot hIn hv h
      obtain ⟨hConsistent, hCount⟩ := (verify_of_levels hEnds hIn hRoot hLevels hErr v).mp ⟨hv, h⟩
      exact ⟨hConsistent.isBfsTree hRoot (computeLevels_spec hLevels) hErr, hCount,
        fun e he => (hConsistent.ends e he).1⟩
  refine ⟨⟨fun ⟨v, hv, h⟩ => (hSound v hv h).1, fun h => ?_⟩, fun v hv hResult => ?_⟩
  · have hIn : (root : Int) ≤ max := by
      by_contra hOut
      have hNone := tree.outside root (by omega)
      have hRoot := h.root
      omega
    obtain ⟨s, hLevels, hErr⟩ := computeLevels_total h.root fun v hv =>
      ⟨_, h.shortestPaths.atLevel_iff.mpr ⟨(ParentArray.visited h v).mp hv, rfl⟩⟩
    have hConsistent := consistent_of_isBfsTree h (computeLevels_spec hLevels) hErr
    exact ⟨_, (verify_of_levels hEnds hIn h.root hLevels hErr _).mpr ⟨hConsistent, rfl⟩⟩
  · obtain ⟨h, hCount, hBoth⟩ := hSound v hv hResult
    rw [hCount, Int.natCast_inj]
    refine List.countP_congr fun e he => ?_
    rw [decide_eq_true_iff, decide_eq_true_iff, ← ParentArray.visited h, ← ParentArray.visited h,
      ← hBoth e he, and_self_iff]

def pairTree : ParentArray 2 where
  cell v := if v < 2 then 0 else -1
  range v := by split <;> decide
  outside v hv := if_neg (not_lt.mpr hv)

theorem pair_accepted : IsBfsTree [⟨0, 1⟩, ⟨1, 1⟩] 0 pairTree.cell :=
  (verify_iff 1 pairTree 0 [⟨0, 1⟩, ⟨1, 1⟩] (by decide)).1.mp ⟨2, by decide, by decide⟩

end Result

end Trident.Graph500
