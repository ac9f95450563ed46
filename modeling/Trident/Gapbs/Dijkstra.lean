import Trident.Lib.Loops
import Trident.Gapbs.DeltaRelax

/-! # The verifier of shortest paths

`SSSPVerifier` compares with Dijkstra's algorithm. An entry of the queue stays there when its node gets
a lower distance, and is passed over when it comes up.
-/

namespace Trident.Gapbs

open Loops Distances

section Program

/-- The entries of `mq`, each a distance and a node. -/
structure Oracle where
  dist : Nat → Int
  mq : List (Int × Nat)

/-- `pair` compares the distances, and the nodes where these are the same. -/
def wnLess (a b : Int × Nat) : Bool := a.1 < b.1 || (a.1 == b.1 && a.2 < b.2)

/-- `mq.top()`, the least entry -/
def mqTop : List (Int × Nat) → Option (Int × Nat)
  | [] => none
  | a :: mq => some (mq.foldl (fun best b => if wnLess b best then b else best) a)

variable (g : WGraph)

def relaxEdge (td : Int) (s : Oracle) (wn : NodeWeight Int) : Oracle :=
  if td + wn.w < s.dist wn.v then
    { dist := Function.update s.dist wn.v (td + wn.w), mq := (td + wn.w, wn.v) :: s.mq }
  else s

/-- One turn of `while (!mq.empty())` -/
def oracleTurn (s : Oracle) : Option Oracle :=
  (mqTop s.mq).map fun (td, u) =>
    let rest : Oracle := { s with mq := s.mq.erase (td, u) }
    if td = s.dist u then (g.outNeigh u 0).foldl (relaxEdge td) rest else rest

def oracleStart (source : Nat) : Oracle where
  dist := Function.update (fun _ => kDistInf) source 0
  mq := [(0, source)]

def SSSPVerifier (fuel source : Nat) (distToTest : Nat → Int) : Option Bool :=
  (whileLoop (oracleTurn g) fuel (oracleStart source)).map fun oracle =>
    (List.range g.numNodes).foldl (fun allOk n => if distToTest n ≠ oracle.dist n then false else allOk) true

end Program

section Queue

theorem mem_of_mqTop {mq : List (Int × Nat)} {a : Int × Nat} (h : mqTop mq = some a) : a ∈ mq := by
  cases mq with
  | nil => cases h
  | cons first mq =>
    cases h
    have hFold : ∀ best ∈ first :: mq, ∀ l : List (Int × Nat), (∀ b ∈ l, b ∈ first :: mq) →
        l.foldl (fun best b => if wnLess b best then b else best) best ∈ first :: mq := by
      intro best hBest l hl
      induction l generalizing best with
      | nil => exact hBest
      | cons b l ih =>
        rw [List.foldl_cons]
        apply ih
        · split
          · exact hl b List.mem_cons_self
          · exact hBest
        · exact fun c hc => hl c (List.mem_cons_of_mem b hc)
    exact hFold first List.mem_cons_self mq fun b hb => List.mem_cons_of_mem first hb

theorem mqTop_eq_none {mq : List (Int × Nat)} : mqTop mq = none ↔ mq = [] := by
  cases mq with
  | nil => simp [mqTop]
  | cons => simp [mqTop]

end Queue

section Turns

variable {g : WGraph} {src : Nat}

/-- An edge that might lower a distance belongs to a node that waits in the queue. -/
structure Oracle.Ok (g : WGraph) (src : Nat) (s : Oracle) : Prop where
  dist : DistOk g src s.dist
  entry : ∀ e ∈ s.mq, e.1 < kDistInf
  covered : ∀ u, s.dist u < kDistInf → (s.dist u, u) ∈ s.mq ∨
    ∀ wn ∈ g.outNeigh u 0, s.dist wn.v ≤ s.dist u + wn.w

/-- While the edges of `u` are relaxed: `done` are those that have had their turn. -/
structure Expanding (g : WGraph) (src u : Nat) (td : Int) (done : List (NodeWeight Int)) (s : Oracle) : Prop where
  dist : DistOk g src s.dist
  entry : ∀ e ∈ s.mq, e.1 < kDistInf
  node : s.dist u = td
  done : ∀ wn ∈ done, s.dist wn.v ≤ td + wn.w
  covered : ∀ x ≠ u, s.dist x < kDistInf → (s.dist x, x) ∈ s.mq ∨
    ∀ wn ∈ g.outNeigh x 0, s.dist wn.v ≤ s.dist x + wn.w

def Oracle.rank (g : WGraph) (s : Oracle) : Nat ×ₗ Nat :=
  toLex (∑ v ∈ Finset.range g.numNodes, (s.dist v).toNat, s.mq.length)

theorem Expanding.edge {u : Nat} {td : Int} {done : List (NodeWeight Int)} {s : Oracle}
    (hWeights : g.WeightsFit) (hSource : src < g.numNodes) (hu : td < kDistInf) (h : Expanding g src u td done s)
    {wn : NodeWeight Int} (hwn : wn ∈ g.outNeigh u 0) :
    Expanding g src u td (done ++ [wn]) (relaxEdge td s wn) ∧
      ((relaxEdge td s wn).rank g < s.rank g ∨ relaxEdge td s wn = s) := by
  rw [relaxEdge]
  split
  · rename_i hLess
    have hNode := h.node
    have hInf : s.dist u < kDistInf := hNode ▸ hu
    have hNodeLt := h.dist.lt hSource hInf
    have hFinds : Finds g src s.dist wn.v (td + wn.w) := hNode ▸ h.dist.finds hWeights hNodeLt hInf hwn
    have hNonneg := hFinds.1.nonneg hWeights.arc_nonneg
    have hEdge := (hWeights u hNodeLt wn hwn).1
    have hNe : u ≠ wn.v := by
      rintro rfl
      omega
    have hLowers : Lowers 0 s.dist (Function.update s.dist wn.v (td + wn.w)) := lowers_update hLess hNonneg
    constructor
    · constructor
      · exact h.dist.update hWeights hFinds hLess
      · intro e he
        rcases List.mem_cons.mp he with rfl | hOld
        · exact hLess.trans_le (h.dist.cap wn.v)
        · exact h.entry e hOld
      · exact (Function.update_of_ne hNe _ _).trans hNode
      · intro e he
        rcases List.mem_append.mp he with hOld | hNew
        · exact (hLowers.le e.v).trans (h.done e hOld)
        · rw [List.mem_singleton.mp hNew]
          exact (Function.update_self wn.v (td + wn.w) s.dist).le
      · intro x hx hxInf
        dsimp only at hxInf ⊢
        obtain rfl | hOther := eq_or_ne x wn.v
        · rw [Function.update_self]
          exact Or.inl List.mem_cons_self
        · rw [Function.update_of_ne hOther] at hxInf ⊢
          refine (h.covered x hx hxInf).imp (List.mem_cons_of_mem _) fun hAll e he => ?_
          exact (hLowers.le e.v).trans (hAll e he)
    · left
      apply Prod.Lex.toLex_lt_toLex.mpr
      left
      refine Finset.sum_lt_sum (fun v _ => Int.toNat_le_toNat (hLowers.le v))
        ⟨wn.v, Finset.mem_range.mpr (g.route_lt hSource hFinds.1), ?_⟩
      rw [Function.update_self]
      exact (Int.toNat_lt_toNat (hNonneg.trans_lt hLess)).mpr hLess
  · rename_i hNot
    refine ⟨⟨h.dist, h.entry, h.node, fun e he => ?_, h.covered⟩, Or.inr rfl⟩
    rcases List.mem_append.mp he with hOld | hNew
    · exact h.done e hOld
    · rw [List.mem_singleton.mp hNew]
      exact not_lt.mp hNot

theorem Expanding.edges {u : Nat} {td : Int} {done : List (NodeWeight Int)} {s : Oracle}
    (hWeights : g.WeightsFit) (hSource : src < g.numNodes) (hu : td < kDistInf) (h : Expanding g src u td done s)
    {edges : List (NodeWeight Int)} (hEdges : ∀ wn ∈ edges, wn ∈ g.outNeigh u 0) :
    Expanding g src u td (done ++ edges) (edges.foldl (relaxEdge td) s) ∧
      ((edges.foldl (relaxEdge td) s).rank g < s.rank g ∨ edges.foldl (relaxEdge td) s = s) := by
  induction edges generalizing done s with
  | nil =>
    rw [List.append_nil]
    exact ⟨h, Or.inr rfl⟩
  | cons wn edges ih =>
    obtain ⟨hNext, hRank⟩ := h.edge hWeights hSource hu (hEdges wn List.mem_cons_self)
    obtain ⟨hLast, hRest⟩ := ih hNext fun e he => hEdges e (List.mem_cons_of_mem wn he)
    rw [List.append_assoc, List.singleton_append] at hLast
    refine ⟨hLast, ?_⟩
    rw [List.foldl_cons]
    rcases hRank with hLess | hSame
    · rcases hRest with hLess' | hSame'
      · exact Or.inl (hLess'.trans hLess)
      · rw [hSame']
        exact Or.inl hLess
    · rw [hSame] at hRest ⊢
      exact hRest

theorem oracleTurn_spec (hWeights : g.WeightsFit) (hSource : src < g.numNodes) {s s' : Oracle} (h : s.Ok g src)
    (hTurn : oracleTurn g s = some s') : s'.Ok g src ∧ s'.rank g < s.rank g := by
  obtain ⟨⟨td, u⟩, hTop, rfl⟩ := Option.map_eq_some_iff.mp hTurn
  have hMem := mem_of_mqTop hTop
  have hPop : Oracle.rank g { s with mq := s.mq.erase (td, u) } < s.rank g := by
    apply Prod.Lex.toLex_lt_toLex.mpr
    refine Or.inr ⟨rfl, ?_⟩
    rw [List.length_erase_of_mem hMem]
    exact Nat.sub_one_lt (List.length_pos_of_mem hMem).ne'
  have hOther : ∀ x ≠ u, s.dist x < kDistInf → (s.dist x, x) ∈ s.mq.erase (td, u) ∨
      ∀ wn ∈ g.outNeigh x 0, s.dist wn.v ≤ s.dist x + wn.w := by
    intro x hx hInf
    refine (h.covered x hInf).imp_left fun hIn => (List.mem_erase_of_ne ?_).mpr hIn
    exact fun hEq => hx (congrArg Prod.snd hEq)
  have hEntry : ∀ e ∈ s.mq.erase (td, u), e.1 < kDistInf := fun e he => h.entry e (List.mem_of_mem_erase he)
  dsimp only
  split
  · rename_i hCurrent
    have hInf : td < kDistInf := h.entry _ hMem
    have hStart : Expanding g src u td [] { s with mq := s.mq.erase (td, u) } :=
      ⟨h.dist, hEntry, hCurrent.symm, nofun, hOther⟩
    obtain ⟨hLast, hRank⟩ := hStart.edges hWeights hSource hInf fun wn hwn => hwn
    rw [List.nil_append] at hLast
    refine ⟨⟨hLast.dist, hLast.entry, fun x hx => ?_⟩, ?_⟩
    · obtain rfl | hNe := eq_or_ne x u
      · rw [hLast.node]
        exact Or.inr hLast.done
      · exact hLast.covered x hNe hx
    · rcases hRank with hLess | hSame
      · exact hLess.trans hPop
      · rw [hSame]
        exact hPop
  · rename_i hStale
    refine ⟨⟨h.dist, hEntry, fun x hx => ?_⟩, hPop⟩
    obtain rfl | hNe := eq_or_ne x u
    · refine (h.covered x hx).imp_left fun hIn => (List.mem_erase_of_ne ?_).mpr hIn
      exact fun hEq => hStale (congrArg Prod.fst hEq).symm
    · exact hOther x hNe hx

theorem oracleStart_ok (g : WGraph) (src : Nat) : (oracleStart src).Ok g src := by
  refine ⟨startDist_ok g src, fun e he => ?_, fun u hu => ?_⟩
  · rw [List.mem_singleton.mp he]
    show 0 < kDistInf
    decide
  · obtain rfl := startDist_lt hu
    left
    dsimp only [oracleStart]
    rw [Function.update_self]
    exact List.mem_cons_self

theorem Oracle.Ok.capped {s : Oracle} (h : s.Ok g src) (hWeights : g.WeightsFit)
    (hEmpty : oracleTurn g s = none) (v : Nat) : Capped g.arc src kDistInf v (s.dist v) := by
  have hNil : s.mq = [] := mqTop_eq_none.mp (Option.map_eq_none_iff.mp hEmpty)
  apply capped_of_relaxed hWeights.arc_nonneg h.dist.source h.dist.cap h.dist.sound
  rintro u v w hu ⟨_, wn, hwn, rfl, rfl⟩
  have hCovered := h.covered u hu
  rw [hNil] at hCovered
  exact hCovered.resolve_left List.not_mem_nil wn hwn

theorem allOk_iff (p : Nat → Prop) [DecidablePred p] (l : List Nat) (ok : Bool) :
    l.foldl (fun allOk n => if ¬ p n then false else allOk) ok = true ↔ ok = true ∧ ∀ n ∈ l, p n := by
  induction l generalizing ok with
  | nil => simp
  | cons n l ih =>
    rw [List.foldl_cons, ih, List.forall_mem_cons]
    by_cases hn : p n
    · rw [if_neg (not_not.mpr hn)]
      simp [hn]
    · rw [if_pos hn]
      simp [hn]

/-- Where the weights fit, the verifier comes to a verdict, and passes the distances alone. -/
theorem SSSPVerifier_passes (g : WGraph) (hWeights : g.WeightsFit) (hSource : src < g.numNodes)
    (distToTest : Nat → Int) :
    (∃ fuel verdict, SSSPVerifier g fuel src distToTest = some verdict) ∧
      ∀ fuel verdict, SSSPVerifier g fuel src distToTest = some verdict →
        (verdict = true ↔ ∀ v < g.numNodes, Capped g.arc src kDistInf v (distToTest v)) := by
  have hTurns : ∀ s s' : Oracle, s.Ok g src → oracleTurn g s = some s' →
      s'.Ok g src ∧ s'.rank g < s.rank g := fun _ _ hs hTurn => oracleTurn_spec hWeights hSource hs hTurn
  obtain ⟨fuel, last, hLoop, hOk, hLast⟩ := whileLoop_ends (Oracle.rank g) hTurns (oracleStart_ok g src)
  refine ⟨⟨fuel, _, congrArg (Option.map _) hLoop⟩, fun fuel' verdict hVerdict => ?_⟩
  obtain ⟨oracle, hRun, rfl⟩ := Option.map_eq_some_iff.mp hVerdict
  obtain rfl := whileLoop_unique hRun hLoop
  rw [allOk_iff (fun n => distToTest n = oracle.dist n), eq_self_iff_true, true_and]
  simp only [List.mem_range]
  refine forall₂_congr fun v _ => ?_
  have hCapped := hOk.capped hWeights hLast v
  constructor
  · intro hSame
    rwa [hSame]
  · exact fun hTest => hTest.unique hCapped

theorem oneEdge_passes :
    (∃ fuel verdict, SSSPVerifier oneEdge fuel 0 (3 * ·) = some verdict) ∧
      ∀ fuel verdict, SSSPVerifier oneEdge fuel 0 (3 * ·) = some verdict →
        (verdict = true ↔ ∀ v < oneEdge.numNodes, Capped oneEdge.arc 0 kDistInf v (3 * v : Int)) :=
  SSSPVerifier_passes oneEdge (by decide) (by decide) (3 * ·)

end Turns

end Trident.Gapbs
