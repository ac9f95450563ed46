import Trident.Lib.Loops
import Trident.Gapbs.BottomUp

/-! # The verifier of the breadth-first search

`BFSVerifier` searches again with one thread, in a vector that grows while its loop goes through it.
-/

namespace Trident.Gapbs

open Relation Transition Distances Loops

section Program

/-- What the serial search has: `to_visit` before the place of `it` and from it on. -/
structure Visits where
  depth : Nat → Int
  before : List Nat
  ahead : List Nat

/-- `depth` is an array of `int`. -/
def deeper (depth : Int) : Int := (depth + 1).bmod (2 ^ 32)

def visitNeighbor (u : Nat) (s : Visits) (v : Nat) : Visits :=
  if s.depth v = -1 then
    { s with depth := Function.update s.depth v (deeper (s.depth u)), ahead := s.ahead ++ [v] }
  else s

variable (g : Graph)

def visitTurn (s : Visits) : Option Visits :=
  match s.ahead with
  | [] => none
  | u :: ahead => some ((g.outNeigh u 0).foldl (visitNeighbor u) { s with before := s.before ++ [u], ahead })

def visitStart (source : Nat) : Visits where
  depth := Function.update (fun _ => -1) source 0
  before := []
  ahead := [source]

/-- Whether the loop over the nodes goes on from `u`. -/
def checkNode (source : Nat) (depth parent : Nat → Int) (u : Nat) : Bool :=
  if depth u ≠ -1 ∧ parent u ≠ -1 then
    if u = source then parent u = u ∧ depth u = 0
    else
      match (g.inNeigh u 0).find? fun v : Nat => (v : Int) = parent u with
      | some v => depth v = depth u - 1
      | none => false
  else depth u = parent u

def serialSearch (fuel source : Nat) : Option Visits := whileLoop (visitTurn g) fuel (visitStart source)

def BFSVerifier (fuel source : Nat) (parent : Nat → Int) : Option Bool :=
  (serialSearch g fuel source).map fun s => (List.range g.numNodes).all (checkNode g source s.depth parent)

end Program

section Searches

variable {g : Graph} {source u : Nat} {left : List Nat} {s s' : Visits}

def Visits.toVisit (s : Visits) : List Nat := s.before ++ s.ahead

/-- The search, but for the edges from `u` to the nodes that are left. -/
structure Visits.Ok (g : Graph) (source u : Nat) (left : List Nat) (s : Visits) : Prop where
  root : s.depth source = 0
  mem : ∀ v, v ∈ s.toVisit ↔ s.depth v ≠ -1
  nodup : s.toVisit.Nodup
  lt : ∀ v ∈ s.toVisit, v < g.numNodes
  less : ∀ v ∈ s.toVisit, s.depth v < s.toVisit.length
  sound : ∀ v ∈ s.toVisit, ∃ n : Nat, s.depth v = n ∧ Route (hop g.arc) source v n
  sorted : s.ahead.Pairwise fun v w => s.depth v ≤ s.depth w
  closed : ∀ w ∈ s.before, ∀ v, g.arc w v →
    (w = u ∧ v ∈ left) ∨ (v ∈ s.toVisit ∧ s.depth v ≤ s.depth w + 1)

/-- Nothing in the vector lies more than one step behind what is still to visit. -/
def Visits.Near (s : Visits) : Prop := ∀ w ∈ s.ahead, ∀ v ∈ s.toVisit, s.depth v ≤ s.depth w + 1

/-- The search in the turn of `u`. -/
structure Visits.Scanning (g : Graph) (source u : Nat) (left : List Nat) (s : Visits) : Prop where
  ok : s.Ok g source u left
  arc : ∀ v ∈ left, g.arc u v
  turn : u ∈ s.before
  low : ∀ w ∈ s.ahead, s.depth u ≤ s.depth w
  high : ∀ v ∈ s.toVisit, s.depth v ≤ s.depth u + 1

theorem length_le_numNodes {l : List Nat} (hNodup : l.Nodup) (hLess : ∀ v ∈ l, v < g.numNodes) :
    l.length ≤ g.numNodes := by
  have hSub : l.Subperm (List.range g.numNodes) :=
    hNodup.subperm fun v hv => List.mem_range.mpr (hLess v hv)
  simpa using hSub.length_le

theorem Visits.Scanning.skip {v : Nat} (h : s.Scanning g source u (v :: left)) (hv : s.depth v ≠ -1) :
    s.Scanning g source u left := by
  obtain ⟨hOk, hArc, hTurn, hLow, hHigh⟩ := h
  refine ⟨⟨hOk.root, hOk.mem, hOk.nodup, hOk.lt, hOk.less, hOk.sound, hOk.sorted, fun w hw x hx => ?_⟩,
    fun x hx => hArc x (List.mem_cons_of_mem v hx), hTurn, hLow, hHigh⟩
  rcases hOk.closed w hw x hx with ⟨rfl, hIn⟩ | hDone
  · rcases List.mem_cons.mp hIn with rfl | hLeft
    · have hIn := (hOk.mem x).mpr hv
      exact Or.inr ⟨hIn, hHigh x hIn⟩
    · exact Or.inl ⟨rfl, hLeft⟩
  · exact Or.inr hDone

/-- A node that comes into the vector at a depth. -/
def Visits.push (s : Visits) (v : Nat) (d : Int) : Visits :=
  { s with depth := Function.update s.depth v d, ahead := s.ahead ++ [v] }

theorem Visits.push_toVisit (s : Visits) (v : Nat) (d : Int) : (s.push v d).toVisit = s.toVisit ++ [v] :=
  (List.append_assoc ..).symm

section Pushes

variable {v : Nat} {d : Int}

theorem Visits.push_depth_self : (s.push v d).depth v = d := Function.update_self ..

theorem Visits.push_depth_of_ne {w : Nat} (hNe : w ≠ v) : (s.push v d).depth w = s.depth w :=
  Function.update_of_ne hNe ..

theorem Visits.push_depth (hFresh : v ∉ s.toVisit) {w : Nat} (hw : w ∈ s.toVisit) :
    (s.push v d).depth w = s.depth w := by
  apply Visits.push_depth_of_ne
  rintro rfl
  exact hFresh hw

/-- What holds of the nodes and their depths, and of the new one. -/
theorem Visits.forall_push (hFresh : v ∉ s.toVisit) {P : Nat → Int → Prop}
    (h : ∀ w ∈ s.toVisit, P w (s.depth w)) (hNew : P v d) :
    ∀ w ∈ (s.push v d).toVisit, P w ((s.push v d).depth w) := by
  intro w hw
  rw [Visits.push_toVisit, List.mem_append, List.mem_singleton] at hw
  rcases hw with hOld | rfl
  · rw [Visits.push_depth hFresh hOld]
    exact h w hOld
  · rw [Visits.push_depth_self]
    exact hNew

theorem Visits.Ok.push_room (h : s.Ok g source u left) (hFresh : v ∉ s.toVisit) (hv : v < g.numNodes) :
    (s.push v d).toVisit.Nodup ∧ (∀ w ∈ (s.push v d).toVisit, w < g.numNodes) ∧
      s.toVisit.length < g.numNodes := by
  have hNodup : (s.push v d).toVisit.Nodup := by
    rw [Visits.push_toVisit]
    exact List.nodup_append.mpr ⟨h.nodup, List.nodup_singleton v,
      fun a ha b hb hab => hFresh (List.mem_singleton.mp hb ▸ hab ▸ ha)⟩
  have hLt : ∀ w ∈ (s.push v d).toVisit, w < g.numNodes :=
    Visits.forall_push (P := fun w _ => w < g.numNodes) hFresh h.lt hv
  have hLength := length_le_numNodes hNodup hLt
  rw [Visits.push_toVisit, List.length_append, List.length_singleton] at hLength
  exact ⟨hNodup, hLt, hLength⟩

theorem Visits.Scanning.push (h : s.Scanning g source u (v :: left)) (hv : s.depth v = -1) :
    (s.push v (s.depth u + 1)).Scanning g source u left := by
  obtain ⟨hOk, hArc, hTurn, hLow, hHigh⟩ := h
  have hEdge := hArc v List.mem_cons_self
  have hFresh : v ∉ s.toVisit := fun hIn => (hOk.mem v).mp hIn hv
  have hu : u ∈ s.toVisit := List.mem_append_left _ hTurn
  obtain ⟨hNodup, hLt, _⟩ := hOk.push_room (d := s.depth u + 1) hFresh hEdge.in.1
  obtain ⟨n, hDepth, hRoute⟩ := hOk.sound u hu
  have hKept : ∀ w ∈ s.toVisit, (s.push v (s.depth u + 1)).depth w = s.depth w := fun w hw =>
    Visits.push_depth hFresh hw
  have hSelf : (s.push v (s.depth u + 1)).depth v = s.depth u + 1 := Visits.push_depth_self
  have hAhead : ∀ w ∈ s.ahead, w ∈ s.toVisit := fun w hw => List.mem_append_right _ hw
  have hMem : ∀ w, w ∈ (s.push v (s.depth u + 1)).toVisit ↔ w ∈ s.toVisit ∨ w = v := fun w => by
    rw [Visits.push_toVisit, List.mem_append, List.mem_singleton]
  have hRoot : source ∈ s.toVisit := (hOk.mem source).mpr (by rw [hOk.root]; decide)
  constructor
  · constructor
    · rw [hKept source hRoot, hOk.root]
    · intro w
      rw [hMem]
      obtain rfl | hNe := eq_or_ne w v
      · rw [hSelf]
        exact iff_of_true (Or.inr rfl) (by omega)
      · rw [or_iff_left hNe, hOk.mem w, Visits.push_depth_of_ne hNe]
    · exact hNodup
    · exact hLt
    · apply Visits.forall_push (P := fun _ e => e < _) hFresh
      · intro w hw
        have hLess := hOk.less w hw
        rw [Visits.push_toVisit, List.length_append]
        omega
      · have hLess := hOk.less u hu
        rw [Visits.push_toVisit, List.length_append, List.length_singleton]
        omega
    · apply Visits.forall_push (P := fun w e => ∃ n : Nat, e = n ∧ Route (hop g.arc) source w n) hFresh
      · exact hOk.sound
      · exact ⟨n + 1, by omega, hRoute.step ⟨hEdge, rfl⟩⟩
    · apply List.pairwise_append.mpr
      refine ⟨?_, List.pairwise_singleton _ v, fun w hw x hx => ?_⟩
      · apply hOk.sorted.imp_of_mem
        intro w x hw hx hLe
        rwa [hKept w (hAhead w hw), hKept x (hAhead x hx)]
      · rw [List.mem_singleton.mp hx, hKept w (hAhead w hw), hSelf]
        exact hHigh w (hAhead w hw)
    · intro w hw x hx
      have hBefore : w ∈ s.toVisit := List.mem_append_left _ hw
      rw [hMem, hKept w hBefore]
      rcases hOk.closed w hw x hx with ⟨rfl, hIn⟩ | ⟨hIn, hNear⟩
      · rcases List.mem_cons.mp hIn with rfl | hLeft
        · exact Or.inr ⟨Or.inr rfl, hSelf.le⟩
        · exact Or.inl ⟨rfl, hLeft⟩
      · rw [hKept x hIn]
        exact Or.inr ⟨Or.inl hIn, hNear⟩
  · exact fun x hx => hArc x (List.mem_cons_of_mem v hx)
  · exact hTurn
  · intro w hw
    rw [hKept u hu]
    rcases List.mem_append.mp hw with hOld | hNew
    · rw [hKept w (hAhead w hOld)]
      exact hLow w hOld
    · rw [List.mem_singleton.mp hNew, hSelf]
      omega
  · rw [hKept u hu]
    exact Visits.forall_push (P := fun _ e => e ≤ _) hFresh hHigh le_rfl

end Pushes

theorem Visits.Scanning.visit (hInt : g.numNodes ≤ 2 ^ 31) {v : Nat}
    (h : s.Scanning g source u (v :: left)) : (visitNeighbor u s v).Scanning g source u left := by
  rw [visitNeighbor]
  split
  · rename_i hv
    have hEdge := h.arc v List.mem_cons_self
    have hFresh : v ∉ s.toVisit := fun hIn => (h.ok.mem v).mp hIn hv
    obtain ⟨_, _, hRoom⟩ := h.ok.push_room (d := 0) hFresh hEdge.in.1
    have hu : u ∈ s.toVisit := List.mem_append_left _ h.turn
    obtain ⟨n, hDepth, _⟩ := h.ok.sound u hu
    have hLess := h.ok.less u hu
    -- the vector is longer than any depth in it
    have hDeeper : deeper (s.depth u) = s.depth u + 1 :=
      Int.bmod_eq_of_le_mul_two (by omega) (by omega)
    rw [hDeeper]
    exact h.push hv
  · rename_i hv
    exact h.skip hv

theorem Visits.Scanning.scan (hInt : g.numNodes ≤ 2 ^ 31) (h : s.Scanning g source u left) :
    (left.foldl (visitNeighbor u) s).Scanning g source u [] := by
  induction left generalizing s with
  | nil => exact h
  | cons v left ih => exact ih (h.visit hInt)

theorem Visits.Scanning.near (h : s.Scanning g source u []) : s.Near := by
  intro w hw v hv
  have hLow := h.low w hw
  have hHigh := h.high v hv
  omega

theorem visitStart_ok (hSource : source < g.numNodes) :
    (visitStart source).Ok g source u [] ∧ (visitStart source).Near := by
  have hDepth : ∀ v, (visitStart source).depth v = if v = source then 0 else -1 := by
    intro v
    simp only [visitStart, Function.update_apply]
  have hRoot : (visitStart source).depth source = 0 := by rw [hDepth, if_pos rfl]
  have hMem : ∀ v, v ∈ (visitStart source).toVisit ↔ v = source := fun v => List.mem_singleton
  refine ⟨⟨hRoot, fun v => ?_, List.nodup_singleton source, fun v hv => ?_, fun v hv => ?_, fun v hv => ?_,
    List.pairwise_singleton _ source, fun w hw => nomatch hw⟩, fun w hw v hv => ?_⟩
  · rw [hMem, hDepth]
    split
    · exact iff_of_true (by assumption) (by decide)
    · exact iff_of_false (by assumption) (not_not.mpr rfl)
  · rwa [(hMem v).mp hv]
  · rw [(hMem v).mp hv, hRoot]
    exact Int.zero_lt_one
  · rw [(hMem v).mp hv]
    exact ⟨0, hRoot, .start⟩
  · rw [(hMem v).mp hv, hRoot, List.mem_singleton.mp hw, hRoot]
    decide

theorem Visits.Ok.shift {w : Nat} (h : s.Ok g source u []) : s.Ok g source w [] :=
  ⟨h.root, h.mem, h.nodup, h.lt, h.less, h.sound, h.sorted, fun x hx v hv =>
    Or.inr ((h.closed x hx v hv).resolve_left fun hNone => List.not_mem_nil hNone.2)⟩

/-- A turn takes the first node that is ahead, and looks at all its edges. -/
theorem visitTurn_spec (hInt : g.numNodes ≤ 2 ^ 31) (h : s.Ok g source u [] ∧ s.Near)
    (hTurn : visitTurn g s = some s') :
    (s'.Ok g source u [] ∧ s'.Near) ∧ g.numNodes - s'.before.length < g.numNodes - s.before.length := by
  obtain ⟨hOk, hNear⟩ := h
  obtain ⟨depth, before, ahead⟩ := s
  cases ahead with
  | nil => cases hTurn
  | cons w ahead =>
    cases hTurn
    have hVisit : (⟨depth, before ++ [w], ahead⟩ : Visits).toVisit = before ++ w :: ahead :=
      List.append_assoc ..
    have hStart : (⟨depth, before ++ [w], ahead⟩ : Visits).Scanning g source w (g.outNeigh w 0) := by
      have hw : w < g.numNodes := hOk.lt w (List.mem_append_right _ List.mem_cons_self)
      obtain ⟨hFirst, hSorted⟩ := List.pairwise_cons.mp hOk.sorted
      constructor
      · constructor
        · exact hOk.root
        · rw [hVisit]
          exact hOk.mem
        · rw [hVisit]
          exact hOk.nodup
        · rw [hVisit]
          exact hOk.lt
        · rw [hVisit]
          exact hOk.less
        · rw [hVisit]
          exact hOk.sound
        · exact hSorted
        · rw [hVisit]
          intro x hx v hv
          rcases List.mem_append.mp hx with hOld | hNew
          · exact Or.inr ((hOk.closed x hOld v hv).resolve_left fun hNone => List.not_mem_nil hNone.2)
          · rw [List.mem_singleton.mp hNew] at hv ⊢
            exact Or.inl ⟨rfl, hv.2⟩
      · exact fun v hv => ⟨hw, hv⟩
      · exact List.mem_append_right _ (List.mem_singleton_self w)
      · exact hFirst
      · rw [hVisit]
        exact hNear w List.mem_cons_self
    have hEnd := hStart.scan hInt
    have hBefore : ∀ (l : List Nat) (s : Visits), (l.foldl (visitNeighbor w) s).before = s.before := by
      intro l
      induction l with
      | nil => exact fun _ => rfl
      | cons v l ih =>
        intro s
        rw [List.foldl_cons, ih, visitNeighbor]
        split <;> rfl
    refine ⟨⟨hEnd.ok.shift, hEnd.near⟩, ?_⟩
    have hLength := length_le_numNodes hOk.nodup hOk.lt
    rw [Visits.toVisit, List.length_append, List.length_cons] at hLength
    rw [hBefore]
    dsimp only at hLength ⊢
    rw [List.length_append, List.length_singleton]
    omega

/-- When nothing is ahead any more, the depths are the levels. -/
theorem Visits.Ok.level (h : s.Ok g source u []) (hEnd : visitTurn g s = none) (v : Nat) :
    (s.depth v ≠ -1 → ∃ n : Nat, s.depth v = n ∧ Level g.arc source v n) ∧
      ∀ n, Level g.arc source v n → s.depth v ≠ -1 := by
  have hAhead : s.ahead = [] := by
    rw [visitTurn] at hEnd
    split at hEnd
    · assumption
    · cases hEnd
  have hVisit : s.toVisit = s.before := by
    rw [Visits.toVisit, hAhead, List.append_nil]
  have hRoute : ∀ {w c}, Route (hop g.arc) source w c → w ∈ s.toVisit ∧ s.depth w ≤ c := by
    intro w c hw
    induction hw with
    | start => exact ⟨(h.mem source).mpr (by rw [h.root]; decide), h.root.le⟩
    | @step x w c one _ hArc ih =>
      obtain ⟨hArc, rfl⟩ := hArc
      obtain ⟨hIn, hLe⟩ := ih
      rw [hVisit] at hIn
      obtain ⟨hNext, hNear⟩ := (h.closed x hIn w hArc).resolve_left fun hNone => List.not_mem_nil hNone.2
      exact ⟨hNext, by push_cast; omega⟩
  constructor
  · intro hv
    obtain ⟨n, hn, hLast⟩ := h.sound v ((h.mem v).mpr hv)
    refine ⟨n, hn, hLast, fun c hc => ?_⟩
    have hLe := (hRoute hc).2
    omega
  · exact fun n hLevel => (h.mem v).mp (hRoute hLevel.route).1

end Searches

section Verdicts

variable {g : Graph} {source : Nat} {depth parent : Nat → Int}

/-- The depths of the nodes that can be reached are their levels; the others have -1. -/
structure Leveled (g : Graph) (source : Nat) (depth : Nat → Int) : Prop where
  level : ∀ v, depth v ≠ -1 → ∃ n : Nat, depth v = n ∧ Level g.arc source v n
  reached : ∀ v n, Level g.arc source v n → depth v ≠ -1

theorem Leveled.depth_eq (h : Leveled g source depth) {v n : Nat} (hv : Level g.arc source v n) :
    depth v = n := by
  obtain ⟨m, hm, hLevel⟩ := h.level v (h.reached v n hv)
  rw [hm, hLevel.unique hv]

theorem Leveled.depth_of_eq (h : Leveled g source depth) {v n : Nat} (hv : depth v = n) :
    Level g.arc source v n := by
  obtain ⟨m, hm, hLevel⟩ := h.level v (by omega)
  obtain rfl : m = n := by omega
  exact hLevel

/-- The edge to the parent is found where there is one, at the depth before. -/
theorem Leveled.findParent_iff (h : Leveled g source depth) {u : Nat} (hu : u < g.numNodes)
    (hNe : u ≠ source) (hReached : depth u ≠ -1) :
    ((match (g.inNeigh u 0).find? fun v : Nat => (v : Int) = parent u with
      | some v => decide (depth v = depth u - 1)
      | none => false) = true) ↔
      ∃ v n : Nat, parent u = v ∧ g.arc v u ∧ Level g.arc source v n ∧ Level g.arc source u (n + 1) := by
  obtain ⟨m, hm, hLevel⟩ := h.level u hReached
  have hPos : m ≠ 0 := by
    rintro rfl
    exact hNe (Level.source_iff.mp hLevel)
  obtain ⟨k, rfl⟩ := Nat.exists_eq_succ_of_ne_zero hPos
  cases hFind : (g.inNeigh u 0).find? fun v : Nat => (v : Int) = parent u with
  | none =>
    refine iff_of_false Bool.false_ne_true ?_
    rintro ⟨v, n, hParent, hArc, _⟩
    exact List.find?_eq_none.mp hFind v hArc.in.2 (decide_eq_true hParent.symm)
  | some v =>
    have hParent : (v : Int) = parent u := by simpa using List.find?_some hFind
    dsimp only
    rw [decide_eq_true_eq]
    constructor
    · intro hDepth
      have hv : depth v = k := by omega
      exact ⟨v, k, hParent.symm, arc_of_in hu (List.mem_of_find?_eq_some hFind), h.depth_of_eq hv, hLevel⟩
    · rintro ⟨w, n, hw, hArc, hBefore, hNext⟩
      obtain rfl : v = w := by omega
      have hSame := hNext.unique hLevel
      rw [h.depth_eq hBefore]
      omega

theorem Leveled.checkNode_iff (h : Leveled g source depth) {u : Nat} (hu : u < g.numNodes) :
    checkNode g source depth parent u = true ↔ (parent u = -1 ↔ depth u = -1) ∧
      (parent u ≠ -1 → if u = source then parent u = u else ∃ v n : Nat, parent u = v ∧ g.arc v u ∧
        Level g.arc source v n ∧ Level g.arc source u (n + 1)) := by
  rw [checkNode]
  split
  · rename_i hBoth
    obtain ⟨hDepth, hParent⟩ := hBoth
    rw [and_iff_right (iff_of_false hParent hDepth), imp_iff_right hParent]
    split
    · rename_i hSource
      have hRoot : depth u = 0 := by
        rw [hSource]
        exact h.depth_eq level_source
      rw [decide_eq_true_eq]
      exact and_iff_left hRoot
    · rename_i hNe
      exact h.findParent_iff hu hNe hDepth
  · rename_i hNot
    rw [decide_eq_true_eq]
    constructor
    · intro hSame
      have hNone : parent u = -1 := by omega
      exact ⟨iff_of_true hNone (by omega), fun hSome => absurd hNone hSome⟩
    · rintro ⟨hIff, _⟩
      by_cases hNone : parent u = -1
      · rw [hNone]
        exact hIff.mp hNone
      · exact absurd ⟨fun hDepth => hNone (hIff.mpr hDepth), hNone⟩ hNot

theorem Leveled.isBfsTree_iff (h : Leveled g source depth) (hSource : source < g.numNodes) :
    (List.range g.numNodes).all (checkNode g source depth parent) = true ↔ g.IsBfsTree source parent := by
  have hUnreached : ∀ v, depth v = -1 ↔ ¬ ReflTransGen g.arc source v := by
    intro v
    rw [← exists_level_iff, ← not_iff_not, not_not]
    constructor
    · intro hv
      obtain ⟨n, _, hLevel⟩ := h.level v hv
      exact ⟨n, hLevel⟩
    · exact fun ⟨n, hLevel⟩ => h.reached v n hLevel
  rw [List.all_eq_true]
  constructor
  · intro hAll
    have hCheck : ∀ u < g.numNodes, _ := fun u hu => (h.checkNode_iff hu).mp (hAll u (List.mem_range.mpr hu))
    constructor
    · have hRoot := hCheck source hSource
      rw [if_pos rfl] at hRoot
      refine hRoot.2 fun hNone => ?_
      exact (hUnreached source).mp (hRoot.1.mp hNone) .refl
    · exact fun v hv => (hCheck v hv).1.trans (hUnreached v)
    · intro v hv hNe hSome
      have hFound := (hCheck v hv).2 hSome
      rwa [if_neg hNe] at hFound
  · intro hTree u hu
    have hIn := List.mem_range.mp hu
    rw [h.checkNode_iff hIn]
    refine ⟨(hTree.unreached u hIn).trans (hUnreached u).symm, fun hSome => ?_⟩
    split
    · rename_i hSource
      rw [hSource]
      exact hTree.root
    · rename_i hNe
      exact hTree.nearer u hIn hNe hSome

/-- The verifier comes to a verdict, and passes the breadth-first trees alone; its vector keeps to the
space that was reserved for it. -/
theorem BFSVerifier_passes (g : Graph) (hSource : source < g.numNodes) (hInt : g.numNodes ≤ 2 ^ 31)
    (parent : Nat → Int) :
    (∃ fuel s, serialSearch g fuel source = some s ∧ s.toVisit.length ≤ g.numNodes) ∧
      (∃ fuel verdict, BFSVerifier g fuel source parent = some verdict) ∧
      ∀ fuel verdict, BFSVerifier g fuel source parent = some verdict →
        (verdict = true ↔ g.IsBfsTree source parent) := by
  have hTurns : ∀ s s' : Visits, s.Ok g source 0 [] ∧ s.Near → visitTurn g s = some s' →
      (s'.Ok g source 0 [] ∧ s'.Near) ∧ g.numNodes - s'.before.length < g.numNodes - s.before.length :=
    fun _ _ h hTurn => visitTurn_spec hInt h hTurn
  obtain ⟨fuel, last, hLoop, ⟨hOk, _⟩, hEnd⟩ := whileLoop_ends
    (fun s : Visits => g.numNodes - s.before.length) hTurns (visitStart_ok hSource)
  have hLeveled : Leveled g source last.depth :=
    ⟨fun v => (hOk.level hEnd v).1, fun v => (hOk.level hEnd v).2⟩
  refine ⟨⟨fuel, last, hLoop, length_le_numNodes hOk.nodup hOk.lt⟩,
    ⟨fuel, _, congrArg (Option.map _) hLoop⟩, fun fuel' verdict hVerdict => ?_⟩
  obtain ⟨s, hRun, rfl⟩ := Option.map_eq_some_iff.mp hVerdict
  obtain rfl := whileLoop_unique hRun hLoop
  exact hLeveled.isBfsTree_iff hSource

theorem oneArc_passes :
    (∃ fuel s, serialSearch oneArc fuel 0 = some s ∧ s.toVisit.length ≤ oneArc.numNodes) ∧
      (∃ fuel verdict, BFSVerifier oneArc fuel 0 (fun _ => 0) = some verdict) ∧
      ∀ fuel verdict, BFSVerifier oneArc fuel 0 (fun _ => 0) = some verdict →
        (verdict = true ↔ oneArc.IsBfsTree 0 fun _ => 0) :=
  BFSVerifier_passes oneArc (by decide) (by decide) _

end Verdicts

end Trident.Gapbs
