import Trident.Lib.Loops
import Trident.Gapbs.BottomUp
import Trident.Gapbs.Components

/-! # The verifier of the connected components

`CCVerifier` searches once for every label, from the last node that bears it. The order in which an
`unordered_map` gives the labels is not known, so that it is a parameter.
-/

namespace Trident.Gapbs

open Relation Loops Bitmap

section Program

variable (g : Graph) (comp : Nat → Int)

/-- `label_to_source[comp[n]] = n` for one node after the other -/
def labelToSource : List (Int × Nat) :=
  (List.range g.numNodes).foldl (fun pairs n => (comp n, n) :: pairs.filter fun p => p.1 ≠ comp n) []

/-- What all searches share, and what is left of `frontier` from `it` on. -/
structure LabelSearch where
  visited : Bitmap
  ahead : List Nat

/-- A neighbor of the search for `currLabel`; `none` is `return false`. -/
def visitLabeled (currLabel : Int) (s : LabelSearch) (v : Nat) : Option LabelSearch :=
  if comp v ≠ currLabel then none
  else if ¬ GetBit s.visited v then some ⟨setBit s.visited v, s.ahead ++ [v]⟩
  else some s

def Graph.bothNeigh (u : Nat) : List Nat := g.outNeigh u 0 ++ if g.directed then g.inNeigh u 0 else []

def labelTurn (currLabel : Int) (s : Option LabelSearch) : Option (Option LabelSearch) :=
  match s with
  | none => none
  | some ⟨_, []⟩ => none
  | some ⟨visited, u :: ahead⟩ =>
    some ((g.bothNeigh u).foldlM (visitLabeled comp currLabel) ⟨visited, ahead⟩)

/-- The searches for the labels that are left; the inner `none` is `return false`. -/
def searchLabels (fuel : Nat) : List (Int × Nat) → Bitmap → Option (Option Bitmap)
  | [], visited => some (some visited)
  | (currLabel, source) :: pairs, visited =>
    match whileLoop (labelTurn g comp currLabel) fuel (some ⟨setBit visited source, [source]⟩) with
    | none => none
    | some none => some none
    | some (some s) => searchLabels fuel pairs s.visited

/-- With any memory for the bitmap, and the pairs of the map in the order `pairs`. -/
def CCVerifier (fuel : Nat) (pairs : List (Int × Nat)) (visited : Bitmap) : Option Bool :=
  (searchLabels g comp fuel pairs (reset g.numNodes visited)).map fun
    | none => false
    | some visited => (List.range g.numNodes).all fun n => GetBit visited n

end Program

section Labels

variable {g : Graph} {comp : Nat → Int}

/-- The map has each label once, with a node that bears it. -/
theorem labelToSource_spec (g : Graph) (comp : Nat → Int) :
    ((labelToSource g comp).map Prod.fst).Nodup ∧
      (∀ p ∈ labelToSource g comp, p.2 < g.numNodes ∧ comp p.2 = p.1) ∧
      ∀ n < g.numNodes, ∃ p ∈ labelToSource g comp, p.1 = comp n := by
  rw [labelToSource]
  induction g.numNodes with
  | zero => exact ⟨List.nodup_nil, nofun, fun n hn => absurd hn (Nat.not_lt_zero n)⟩
  | succ k ih =>
    obtain ⟨hNodup, hBears, hAll⟩ := ih
    rw [List.range_succ, List.foldl_append, List.foldl_cons, List.foldl_nil]
    obtain ⟨pairs, hPairs⟩ : ∃ pairs, (List.range k).foldl
        (fun pairs n => (comp n, n) :: pairs.filter fun p => p.1 ≠ comp n) [] = pairs := ⟨_, rfl⟩
    rw [hPairs] at hNodup hBears hAll ⊢
    refine ⟨?_, fun p hp => ?_, fun n hn => ?_⟩
    · rw [List.map_cons, List.nodup_cons]
      constructor
      · intro hIn
        obtain ⟨p, hp, hLabel⟩ := List.mem_map.mp hIn
        exact of_decide_eq_true (List.mem_filter.mp hp).2 hLabel
      · exact hNodup.sublist (List.filter_sublist.map Prod.fst)
    · rcases List.mem_cons.mp hp with rfl | hOld
      · exact ⟨Nat.lt_succ_self k, rfl⟩
      · obtain ⟨hLess, hLabel⟩ := hBears p (List.mem_filter.mp hOld).1
        exact ⟨Nat.lt_succ_of_lt hLess, hLabel⟩
    · by_cases hLast : comp n = comp k
      · exact ⟨_, List.mem_cons_self, hLast.symm⟩
      · have hLess : n < k := by
          refine lt_of_le_of_ne (Nat.lt_succ_iff.mp hn) ?_
          rintro rfl
          exact hLast rfl
        obtain ⟨p, hp, hLabel⟩ := hAll n hLess
        refine ⟨p, List.mem_cons_of_mem _ (List.mem_filter.mpr ⟨hp, ?_⟩), hLabel⟩
        rw [hLabel]
        exact decide_eq_true hLast

/-- A neighbor of the search is joined to the node, in either direction. -/
theorem mem_bothNeigh {u v : Nat} (hu : u < g.numNodes) (hv : v < g.numNodes) :
    v ∈ g.bothNeigh u ↔ v ∈ g.outNeigh u 0 ∨ u ∈ g.outNeigh v 0 := by
  rw [Graph.bothNeigh, List.mem_append, g.inverse v hv u hu]
  cases hDirected : g.directed with
  | true => exact Iff.rfl
  | false =>
    obtain ⟨hIndex, hNeighbors⟩ := g.undirected hDirected
    have hSame : g.inNeigh u 0 = g.outNeigh u 0 := by
      rw [CSRGraph.inNeigh, hIndex, hNeighbors]
      rfl
    rw [hSame, if_neg Bool.false_ne_true, or_self]
    exact or_iff_left List.not_mem_nil

theorem bothNeigh_reachable {u v : Nat} (hu : u < g.numNodes) (hv : v ∈ g.bothNeigh u) :
    v < g.numNodes ∧ g.underlying.Reachable u v := by
  rcases List.mem_append.mp hv with hOut | hIn
  · exact g.reachable_of_out hu hOut
  · split at hIn
    · exact g.reachable_of_in hu hIn
    · cases hIn

/-- No edge joins two labels. -/
def EdgesAgree (g : Graph) (comp : Nat → Int) : Prop :=
  ∀ u < g.numNodes, ∀ v ∈ g.bothNeigh u, comp v = comp u

/-- What no edge leaves holds of a whole component. -/
theorem reachable_closed {P : Nat → Prop} (h : ∀ u < g.numNodes, P u → ∀ v ∈ g.bothNeigh u, P v)
    {u v : Nat} (hReach : g.underlying.Reachable u v) (hu : P u) : P v := by
  obtain ⟨walk⟩ := hReach
  induction walk with
  | nil => exact hu
  | cons hAdj _ ih =>
    obtain ⟨_, hLess, hLess', hEdge⟩ := hAdj
    exact ih (h _ hLess hu _ ((mem_bothNeigh hLess hLess').mpr hEdge))

end Labels

section Searches

variable {g : Graph} {comp : Nat → Int} {currLabel : Int} {source u : Nat} {base : Bitmap}
  {left : List Nat} {s s' : LabelSearch}

/-- The search for a label, but for the neighbors of `u` that are left; `base` is from before it. -/
structure LabelSearch.Ok (g : Graph) (comp : Nat → Int) (currLabel : Int) (source : Nat) (base : Bitmap)
    (u : Nat) (left : List Nat) (s : LabelSearch) : Prop where
  sound : ∀ v < g.numNodes, GetBit s.visited v →
    GetBit base v ∨ comp v = currLabel ∧ g.underlying.Reachable source v
  keep : ∀ v, GetBit base v → GetBit s.visited v
  root : GetBit s.visited source
  ahead : ∀ v ∈ s.ahead, v < g.numNodes ∧ comp v = currLabel ∧ g.underlying.Reachable source v
  closed : ∀ w < g.numNodes, GetBit s.visited w → GetBit base w ∨ w ∈ s.ahead ∨
    ∀ v ∈ g.bothNeigh w, (w = u ∧ v ∈ left) ∨ GetBit s.visited v ∧ comp v = currLabel

def unseenNodes (g : Graph) (visited : Bitmap) : Finset Nat :=
  (Finset.range g.numNodes).filter fun v => ¬ GetBit visited v

def LabelSearch.rank (g : Graph) (s : LabelSearch) : Nat := (unseenNodes g s.visited).card + s.ahead.length

theorem LabelSearch.Ok.skip {v : Nat} (h : s.Ok g comp currLabel source base u (v :: left))
    (hSeen : GetBit s.visited v) (hLabel : comp v = currLabel) :
    s.Ok g comp currLabel source base u left := by
  refine ⟨h.sound, h.keep, h.root, h.ahead, fun w hw hBit => ?_⟩
  refine (h.closed w hw hBit).imp_right (Or.imp_right fun hAll x hx => ?_)
  rcases hAll x hx with ⟨rfl, hIn⟩ | hDone
  · rcases List.mem_cons.mp hIn with rfl | hLeft
    · exact Or.inr ⟨hSeen, hLabel⟩
    · exact Or.inl ⟨rfl, hLeft⟩
  · exact Or.inr hDone

theorem LabelSearch.Ok.push {v : Nat} (h : s.Ok g comp currLabel source base u (v :: left))
    (hv : v < g.numNodes) (hReach : g.underlying.Reachable source v) (hLabel : comp v = currLabel) :
    (⟨setBit s.visited v, s.ahead ++ [v]⟩ : LabelSearch).Ok g comp currLabel source base u left := by
  refine ⟨fun w hw hBit => ?_, fun w hBase => ?_, ?_, fun w hw => ?_, fun w hw hBit => ?_⟩
  · rcases (getBit_setBit s.visited v w).mp hBit with rfl | hOld
    · exact Or.inr ⟨hLabel, hReach⟩
    · exact h.sound w hw hOld
  · exact (getBit_setBit s.visited v w).mpr (Or.inr (h.keep w hBase))
  · exact (getBit_setBit s.visited v source).mpr (Or.inr h.root)
  · rcases List.mem_append.mp hw with hOld | hNew
    · exact h.ahead w hOld
    · rw [List.mem_singleton.mp hNew]
      exact ⟨hv, hLabel, hReach⟩
  · rcases (getBit_setBit s.visited v w).mp hBit with rfl | hOld
    · exact Or.inr (Or.inl (List.mem_append_right _ (List.mem_singleton_self w)))
    · refine (h.closed w hw hOld).imp_right (Or.imp (List.mem_append_left _) fun hAll x hx => ?_)
      rcases hAll x hx with ⟨rfl, hIn⟩ | ⟨hSeen, hSame⟩
      · rcases List.mem_cons.mp hIn with rfl | hLeft
        · exact Or.inr ⟨(getBit_setBit s.visited x x).mpr (Or.inl rfl), hLabel⟩
        · exact Or.inl ⟨rfl, hLeft⟩
      · exact Or.inr ⟨(getBit_setBit s.visited v x).mpr (Or.inr hSeen), hSame⟩

theorem LabelSearch.rank_push {v : Nat} (hv : v < g.numNodes) (hFree : ¬ GetBit s.visited v) :
    LabelSearch.rank g ⟨setBit s.visited v, s.ahead ++ [v]⟩ = s.rank g := by
  have hErase : unseenNodes g (setBit s.visited v) = (unseenNodes g s.visited).erase v := by
    ext w
    rw [unseenNodes, unseenNodes, Finset.mem_erase, Finset.mem_filter, Finset.mem_filter, getBit_setBit,
      not_or]
    exact and_left_comm
  have hMem : v ∈ unseenNodes g s.visited := Finset.mem_filter.mpr ⟨Finset.mem_range.mpr hv, hFree⟩
  have hPos := Finset.card_pos.mpr ⟨v, hMem⟩
  rw [LabelSearch.rank, LabelSearch.rank, hErase, Finset.card_erase_of_mem hMem, List.length_append,
    List.length_singleton]
  omega

/-- The neighbors of a node are all visited, or one of them has another label. -/
theorem LabelSearch.Ok.scan (hu : u < g.numNodes) (hReach : g.underlying.Reachable source u)
    (hLeft : ∀ v ∈ left, v ∈ g.bothNeigh u) (h : s.Ok g comp currLabel source base u left) :
    match left.foldlM (visitLabeled comp currLabel) s with
    | some s' => s'.Ok g comp currLabel source base u [] ∧ s'.rank g = s.rank g
    | none => ∃ v ∈ g.bothNeigh u, comp v ≠ currLabel := by
  induction left generalizing s with
  | nil => exact ⟨h, rfl⟩
  | cons v left ih =>
    have hv := hLeft v List.mem_cons_self
    obtain ⟨hLess, hEdge⟩ := bothNeigh_reachable hu hv
    have hRest : ∀ w ∈ left, w ∈ g.bothNeigh u := fun w hw => hLeft w (List.mem_cons_of_mem v hw)
    rw [List.foldlM_cons, visitLabeled]
    by_cases hLabel : comp v = currLabel
    · rw [if_neg (not_not.mpr hLabel)]
      by_cases hSeen : GetBit s.visited v
      · rw [if_neg (not_not.mpr hSeen)]
        exact ih hRest (h.skip hSeen hLabel)
      · rw [if_pos hSeen]
        have hNext := ih hRest (h.push hLess (hReach.trans hEdge) hLabel)
        rw [LabelSearch.rank_push hLess hSeen] at hNext
        exact hNext
    · rw [if_pos hLabel]
      exact ⟨v, hv, hLabel⟩

def SearchInv (g : Graph) (comp : Nat → Int) (currLabel : Int) (source : Nat) (base : Bitmap) :
    Option LabelSearch → Prop
  | some s => s.Ok g comp currLabel source base 0 []
  | none => ¬ EdgesAgree g comp

def searchRank (g : Graph) : Option LabelSearch → Nat
  | some s => s.rank g + 1
  | none => 0

theorem LabelSearch.Ok.shift {w : Nat} (h : s.Ok g comp currLabel source base u []) :
    s.Ok g comp currLabel source base w [] :=
  ⟨h.sound, h.keep, h.root, h.ahead, fun x hx hBit => (h.closed x hx hBit).imp_right
    (Or.imp_right fun hAll v hv => Or.inr ((hAll v hv).resolve_left fun hNone => List.not_mem_nil hNone.2))⟩

theorem labelTurn_spec {s s' : Option LabelSearch} (h : SearchInv g comp currLabel source base s)
    (hTurn : labelTurn g comp currLabel s = some s') :
    SearchInv g comp currLabel source base s' ∧ searchRank g s' < searchRank g s := by
  cases s with
  | none => cases hTurn
  | some s =>
    obtain ⟨visited, ahead⟩ := s
    cases ahead with
    | nil => cases hTurn
    | cons u ahead =>
      cases hTurn
      obtain ⟨hu, hLabel, hReach⟩ := h.ahead u List.mem_cons_self
      have hStart : (⟨visited, ahead⟩ : LabelSearch).Ok g comp currLabel source base u (g.bothNeigh u) := by
        refine ⟨h.sound, h.keep, h.root, fun v hv => h.ahead v (List.mem_cons_of_mem u hv),
          fun w hw hBit => ?_⟩
        rcases h.closed w hw hBit with hBase | hAhead | hAll
        · exact Or.inl hBase
        · rcases List.mem_cons.mp hAhead with rfl | hLater
          · exact Or.inr (Or.inr fun v hv => Or.inl ⟨rfl, hv⟩)
          · exact Or.inr (Or.inl hLater)
        · exact Or.inr (Or.inr fun v hv => Or.inr ((hAll v hv).resolve_left fun hNone =>
            List.not_mem_nil hNone.2))
      have hScan := hStart.scan hu hReach fun _ hv => hv
      cases hFold : (g.bothNeigh u).foldlM (visitLabeled comp currLabel) ⟨visited, ahead⟩ with
      | none =>
        rw [hFold] at hScan
        obtain ⟨v, hv, hOther⟩ := hScan
        refine ⟨fun hAgree => hOther ?_, Nat.succ_pos _⟩
        rw [hAgree u hu v hv, hLabel]
      | some s' =>
        rw [hFold] at hScan
        obtain ⟨hOk, hRank⟩ := hScan
        refine ⟨hOk.shift, ?_⟩
        simp only [LabelSearch.rank] at hRank
        simp only [searchRank, LabelSearch.rank, List.length_cons]
        omega

theorem searchInv_start (hLabel : comp source = currLabel) (hSource : source < g.numNodes) (base : Bitmap) :
    SearchInv g comp currLabel source base (some ⟨setBit base source, [source]⟩) := by
  refine ⟨fun v hv hBit => ?_, fun v hBase => ?_, ?_, fun v hv => ?_, fun w hw hBit => ?_⟩
  · rcases (getBit_setBit base source v).mp hBit with rfl | hOld
    · exact Or.inr ⟨hLabel, .refl v⟩
    · exact Or.inl hOld
  · exact (getBit_setBit base source v).mpr (Or.inr hBase)
  · exact (getBit_setBit base source source).mpr (Or.inl rfl)
  · rw [List.mem_singleton.mp hv]
    exact ⟨hSource, hLabel, .refl source⟩
  · rcases (getBit_setBit base source w).mp hBit with rfl | hOld
    · exact Or.inr (Or.inl (List.mem_singleton_self w))
    · exact Or.inl hOld

theorem labelTurn_eq_none {s : LabelSearch} (h : labelTurn g comp currLabel (some s) = none) :
    s.ahead = [] := by
  obtain ⟨visited, ahead⟩ := s
  cases ahead with
  | nil => rfl
  | cons u ahead => cases h

end Searches

section Verdicts

variable {g : Graph} {comp : Nat → Int} {done pairs : List (Int × Nat)} {base : Bitmap}

/-- The searches for the labels in `done` have ended well. -/
structure SearchedLabels (g : Graph) (comp : Nat → Int) (done : List (Int × Nat)) (base : Bitmap) : Prop where
  closed : ∀ w < g.numNodes, GetBit base w → ∀ v ∈ g.bothNeigh w, GetBit base v ∧ comp v = comp w
  sound : ∀ w < g.numNodes, GetBit base w → ∃ p ∈ done, comp w = p.1 ∧ g.underlying.Reachable p.2 w
  sources : ∀ p ∈ done, GetBit base p.2

theorem SearchedLabels.next {p : Int × Nat} (h : SearchedLabels g comp done base) {s : LabelSearch}
    (hOk : s.Ok g comp p.1 p.2 base 0 []) (hEnd : s.ahead = []) :
    SearchedLabels g comp (done ++ [p]) s.visited := by
  refine ⟨fun w hw hBit v hv => ?_, fun w hw hBit => ?_, fun q hq => ?_⟩
  · have hOld : GetBit base w → GetBit s.visited v ∧ comp v = comp w := by
      intro hBase
      obtain ⟨hSeen, hSame⟩ := h.closed w hw hBase v hv
      exact ⟨hOk.keep v hSeen, hSame⟩
    rcases hOk.closed w hw hBit with hBase | hAhead | hAll
    · exact hOld hBase
    · rw [hEnd] at hAhead
      cases hAhead
    · obtain ⟨hSeen, hLabel⟩ := (hAll v hv).resolve_left fun hNone => List.not_mem_nil hNone.2
      rcases hOk.sound w hw hBit with hBase | ⟨hOwn, _⟩
      · exact hOld hBase
      · exact ⟨hSeen, hLabel.trans hOwn.symm⟩
  · rcases hOk.sound w hw hBit with hBase | ⟨hLabel, hReach⟩
    · obtain ⟨q, hq, hOwn⟩ := h.sound w hw hBase
      exact ⟨q, List.mem_append_left _ hq, hOwn⟩
    · exact ⟨p, List.mem_append_right _ (List.mem_singleton_self p), hLabel, hReach⟩
  · rcases List.mem_append.mp hq with hOld | hNew
    · exact hOk.keep _ (h.sources q hOld)
    · rw [List.mem_singleton.mp hNew]
      exact hOk.root

/-- Searches that end have either seen whole components or met an edge between two labels. -/
def SearchesEnd (g : Graph) (comp : Nat → Int) (done : List (Int × Nat)) : Option Bitmap → Prop
  | some visited => SearchedLabels g comp done visited
  | none => ¬ EdgesAgree g comp

theorem searchLabels_spec {fuel : Nat} (hPairs : ∀ p ∈ pairs, p.2 < g.numNodes ∧ comp p.2 = p.1)
    (h : SearchedLabels g comp done base) {result : Option Bitmap}
    (hRun : searchLabels g comp fuel pairs base = some result) :
    SearchesEnd g comp (done ++ pairs) result := by
  induction pairs generalizing done base with
  | nil =>
    cases hRun
    rw [List.append_nil]
    exact h
  | cons p pairs ih =>
    obtain ⟨hSource, hLabel⟩ := hPairs p List.mem_cons_self
    have hRest : ∀ q ∈ pairs, q.2 < g.numNodes ∧ comp q.2 = q.1 := fun q hq =>
      hPairs q (List.mem_cons_of_mem p hq)
    have hTurn : ∀ s s', SearchInv g comp p.1 p.2 base s → labelTurn g comp p.1 s = some s' →
        SearchInv g comp p.1 p.2 base s' := fun _ _ hs hStep => (labelTurn_spec hs hStep).1
    rw [searchLabels] at hRun
    split at hRun
    · cases hRun
    · rename_i hLoop
      cases hRun
      exact (whileLoop_spec hTurn (searchInv_start hLabel hSource base) hLoop).1
    · rename_i s hLoop
      obtain ⟨hOk, hEnd⟩ := whileLoop_spec hTurn (searchInv_start hLabel hSource base) hLoop
      have hNext := ih hRest (h.next hOk (labelTurn_eq_none hEnd)) hRun
      rwa [List.append_assoc, List.singleton_append] at hNext

theorem searchLabels_mono {fuel fuel' : Nat} (hLe : fuel ≤ fuel') {result : Option Bitmap}
    (h : searchLabels g comp fuel pairs base = some result) :
    searchLabels g comp fuel' pairs base = some result := by
  induction pairs generalizing base with
  | nil => exact h
  | cons p pairs ih =>
    rw [searchLabels] at h ⊢
    cases hLoop : whileLoop (labelTurn g comp p.1) fuel (some ⟨setBit base p.2, [p.2]⟩) with
    | none =>
      rw [hLoop] at h
      cases h
    | some last =>
      rw [whileLoop_mono hLoop hLe]
      rw [hLoop] at h
      cases last with
      | none => exact h
      | some s => exact ih h

theorem searchLabels_ends (hPairs : ∀ p ∈ pairs, p.2 < g.numNodes ∧ comp p.2 = p.1) (base : Bitmap) :
    ∃ fuel result, searchLabels g comp fuel pairs base = some result := by
  induction pairs generalizing base with
  | nil => exact ⟨0, _, rfl⟩
  | cons p pairs ih =>
    obtain ⟨hSource, hLabel⟩ := hPairs p List.mem_cons_self
    obtain ⟨fuel, last, hLoop, _⟩ := whileLoop_ends (searchRank g)
      (fun _ _ hs hStep => labelTurn_spec hs hStep) (searchInv_start hLabel hSource base)
    cases last with
    | none => exact ⟨fuel, none, by rw [searchLabels, hLoop]⟩
    | some s =>
      obtain ⟨fuel', result, hRest⟩ := ih (fun q hq => hPairs q (List.mem_cons_of_mem p hq)) s.visited
      refine ⟨max fuel fuel', result, ?_⟩
      rw [searchLabels, whileLoop_mono hLoop (le_max_left fuel fuel')]
      exact searchLabels_mono (le_max_right fuel fuel') hRest

/-- Two nodes have one label just if they are connected. -/
def LabelsComponents (g : Graph) (comp : Nat → Int) : Prop :=
  ∀ u < g.numNodes, ∀ v < g.numNodes, comp u = comp v ↔ g.underlying.Reachable u v

theorem LabelsComponents.edgesAgree (h : LabelsComponents g comp) : EdgesAgree g comp := by
  intro u hu v hv
  obtain ⟨hLess, hReach⟩ := bothNeigh_reachable hu hv
  exact (h v hLess u hu).mpr hReach.symm

theorem SearchedLabels.labels (h : SearchedLabels g comp pairs base) (hNodup : (pairs.map Prod.fst).Nodup)
    (hAll : ∀ u < g.numNodes, GetBit base u) : LabelsComponents g comp := by
  intro u hu v hv
  constructor
  · intro hSame
    obtain ⟨p, hp, hpu, hReachU⟩ := h.sound u hu (hAll u hu)
    obtain ⟨q, hq, hqv, hReachV⟩ := h.sound v hv (hAll v hv)
    obtain rfl : p = q := List.inj_on_of_nodup_map hNodup hp hq (by rw [← hpu, ← hqv, hSame])
    exact hReachU.symm.trans hReachV
  · intro hReach
    have hClosed := reachable_closed (P := fun w => w < g.numNodes ∧ comp w = comp u)
      (fun w hw hOwn x hx => ⟨(bothNeigh_reachable hw hx).1,
        ((h.closed w hw (hAll w hw) x hx).2).trans hOwn.2⟩) hReach ⟨hu, rfl⟩
    exact hClosed.2.symm

theorem SearchedLabels.all (h : SearchedLabels g comp pairs base) (hLabels : LabelsComponents g comp)
    (hBears : ∀ p ∈ pairs, p.2 < g.numNodes ∧ comp p.2 = p.1)
    (hSome : ∀ n < g.numNodes, ∃ p ∈ pairs, p.1 = comp n) {u : Nat} (hu : u < g.numNodes) :
    GetBit base u := by
  obtain ⟨p, hp, hLabel⟩ := hSome u hu
  obtain ⟨hSource, hOwn⟩ := hBears p hp
  have hReach := (hLabels p.2 hSource u hu).mp (hOwn.trans hLabel)
  exact reachable_closed (P := GetBit base) (fun w hw hBit x hx => (h.closed w hw hBit x hx).1) hReach
    (h.sources p hp)

/-- Whatever the order of the map, the verifier comes to a verdict, and passes just the labels of the
connected components. -/
theorem CCVerifier_passes (g : Graph) (comp : Nat → Int) (hOrder : pairs.Perm (labelToSource g comp))
    (visited : Bitmap) :
    (∃ fuel verdict, CCVerifier g comp fuel pairs visited = some verdict) ∧
      ∀ fuel verdict, CCVerifier g comp fuel pairs visited = some verdict →
        (verdict = true ↔ ∀ u < g.numNodes, ∀ v < g.numNodes,
          comp u = comp v ↔ g.underlying.Reachable u v) := by
  obtain ⟨hNodup, hBears, hSome⟩ := labelToSource_spec g comp
  have hNodup : (pairs.map Prod.fst).Nodup := (hOrder.map Prod.fst).nodup_iff.mpr hNodup
  have hBears : ∀ p ∈ pairs, p.2 < g.numNodes ∧ comp p.2 = p.1 := fun p hp =>
    hBears p (hOrder.mem_iff.mp hp)
  have hSome : ∀ n < g.numNodes, ∃ p ∈ pairs, p.1 = comp n := by
    intro n hn
    obtain ⟨p, hp, hLabel⟩ := hSome n hn
    exact ⟨p, hOrder.mem_iff.mpr hp, hLabel⟩
  have hStart : SearchedLabels g comp [] (reset g.numNodes visited) :=
    ⟨fun w hw hBit => absurd hBit (getBit_reset visited hw),
      fun w hw hBit => absurd hBit (getBit_reset visited hw), nofun⟩
  constructor
  · obtain ⟨fuel, result, hRun⟩ := searchLabels_ends hBears (reset g.numNodes visited)
    exact ⟨fuel, _, congrArg (Option.map _) hRun⟩
  · intro fuel verdict hVerdict
    obtain ⟨result, hRun, rfl⟩ := Option.map_eq_some_iff.mp hVerdict
    have hSpec := searchLabels_spec hBears hStart hRun
    cases result with
    | none => exact iff_of_false Bool.false_ne_true fun hLabels => hSpec (LabelsComponents.edgesAgree hLabels)
    | some visited =>
      have hSearched : SearchedLabels g comp pairs visited := hSpec
      rw [List.all_eq_true]
      constructor
      · intro hAll
        exact hSearched.labels hNodup fun u hu => of_decide_eq_true (hAll u (List.mem_range.mpr hu))
      · intro hLabels u hu
        exact decide_eq_true (hSearched.all hLabels hBears hSome (List.mem_range.mp hu))

theorem oneArc_CCVerifier :
    (∃ fuel verdict, CCVerifier oneArc (fun _ => 7) fuel [(7, 1)] (fun _ => 0#64) = some verdict) ∧
      ∀ fuel verdict, CCVerifier oneArc (fun _ => 7) fuel [(7, 1)] (fun _ => 0#64) = some verdict →
        (verdict = true ↔ ∀ u < oneArc.numNodes, ∀ v < oneArc.numNodes,
          ((fun _ => 7) u : Int) = (fun _ => 7) v ↔ oneArc.underlying.Reachable u v) :=
  CCVerifier_passes oneArc (fun _ => 7) (List.Perm.refl _) fun _ => 0#64

end Verdicts

end Trident.Gapbs
