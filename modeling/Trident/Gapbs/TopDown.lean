import Trident.Gapbs.BottomUp

/-! # The top-down steps

`BitmapToQueue` fills the next window with the nodes of a bitmap, and `TDStep` with the nodes that it
is the first to give a parent.
-/

namespace Trident.Gapbs

open Relation Transition BlockQueue Distances Bitmap

section Gathering

variable {nt : Nat} {share : Fin nt → List Nat} {turns : List Nat}

theorem Shares.accounts (h : Shares share turns) (p : Nat → Bool) :
    Accounts [] (fun t => (share t).filter p) ((turns.filter p).count ·) := by
  intro a
  have hCount := (h.filter p).count_eq a
  rw [List.filter_flatMap, List.count_flatMap] at hCount
  dsimp only
  rw [← hCount, ← List.sum_toFinset _ (List.nodup_finRange nt), List.toFinset_finRange, List.count_nil,
    Nat.zero_add]
  rfl

theorem Shares.exists_mem (h : Shares share turns) {c : Nat} : c ∈ turns ↔ ∃ t, c ∈ share t := by
  rw [← List.Perm.mem_iff h, List.mem_flatMap]
  simp

variable {numNodes : Nat} {front : Bitmap} {q₀ q q' : SlidingQueue}
  {workers workers' : Fin nt → Worker (List Nat)}

/-- The nodes in the bitmap that the thread has not come to. -/
def Worker.unseen (front : Bitmap) (w : Worker (List Nat)) : List Nat := w.loop.filter (GetBit front ·)

def GatherInv (numNodes : Nat) (front : Bitmap) (q₀ q : SlidingQueue)
    (workers : Fin nt → Worker (List Nat)) : Prop :=
  ∃ pushed, Filling (· = []) q₀ q workers pushed ∧
    Accounts pushed (Worker.unseen front ∘ workers)
      (((List.range numNodes).filter (GetBit front ·)).count ·)

theorem gatherInv_start (h : Shares share (List.range numNodes)) (front : Bitmap) (q : SlidingQueue) :
    GatherInv numNodes front q q fun t => ⟨share t, [], .looping⟩ :=
  ⟨[], filling_start q share, h.accounts _⟩

theorem GatherInv.step (h : GatherInv numNodes front q₀ q workers)
    (hTurn : Interleave (fun m l m' l' => workerStep (gatherBody front) m () l = some (m', (), l'))
      (q, workers) (q', workers')) :
    GatherInv numNodes front q₀ q' workers' ∧
      ∑ t, (workers' t).weight List.length < ∑ t, (workers t).weight List.length := by
  obtain ⟨pushed, hFilling, hAccounts⟩ := h
  obtain ⟨t, next, hStep, rfl⟩ := hTurn
  dsimp only at hStep ⊢
  have hOver : ∀ loop, gatherBody front q () loop = none → loop = [] := by
    intro loop hNone
    cases loop with
    | nil => rfl
    | cons n todo => cases hNone
  rcases hFilling.turn hOver hStep with ⟨push, _, hBody, hNext⟩ | ⟨_, hLoop, hLess, hNext⟩
  · obtain ⟨loop, hLoop⟩ : ∃ loop, (workers t).loop = loop := ⟨_, rfl⟩
    rw [hLoop] at hBody
    cases loop with
    | nil => cases hBody
    | cons n todo =>
      rw [gatherBody, Option.some_inj, Prod.mk.injEq, Prod.mk.injEq] at hBody
      obtain ⟨_, hTodo, rfl⟩ := hBody
      refine ⟨⟨_, hNext, ?_⟩, sum_update_lt _ workers ?_⟩
      · rw [Function.comp_update]
        apply hAccounts.reserve
        rw [Function.comp_apply, Worker.unseen, Worker.unseen, hLoop, ← hTodo, List.filter_cons]
        by_cases hBit : GetBit front n
        · rw [if_pos (decide_eq_true hBit), if_pos hBit]
          exact List.Perm.refl _
        · rw [if_neg (by simpa using hBit), if_neg hBit]
          exact List.Perm.refl _
      · rw [Worker.weight, Worker.weight, hLoop, ← hTodo, List.length_cons]
        have hPhase := next.phase.weight_le
        omega
  · refine ⟨⟨pushed, hNext, ?_⟩, sum_update_lt _ workers ?_⟩
    · rw [comp_update_eq]
      · exact hAccounts
      · rw [Worker.unseen, Worker.unseen, hLoop]
    · rw [Worker.weight, Worker.weight, hLoop]
      exact Nat.add_lt_add_left hLess _

theorem GatherInv.finished (h : GatherInv numNodes front q₀ q workers)
    (hAll : ∀ t, (workers t).phase = .finished) :
    ∃ pushed, Filling (· = []) q₀ q workers pushed ∧
      pushed.Perm ((List.range numNodes).filter (GetBit front ·)) := by
  obtain ⟨pushed, hFilling, hAccounts⟩ := h
  refine ⟨pushed, hFilling, List.perm_iff_count.mpr (hAccounts.queue_count fun t => ?_)⟩
  rw [Function.comp_apply, Worker.unseen, hFilling.leaves t (Or.inr (Or.inr (hAll t)))]
  rfl

theorem GatherInv.sharedIn_le (h : GatherInv numNodes front q₀ q workers) :
    q.sharedIn ≤ q₀.sharedIn + ((List.range numNodes).filter (GetBit front ·)).length := by
  obtain ⟨pushed, hFilling, hAccounts⟩ := h
  have hSub : pushed.Subperm ((List.range numNodes).filter (GetBit front ·)) := by
    apply List.subperm_ext_iff.mpr
    intro a _
    exact (Nat.le_add_right _ _).trans (hAccounts a).le
  exact hFilling.sharedIn_le.trans (Nat.add_le_add_left hSub.length_le _)

end Gathering

section Claiming

variable {nt : Nat} {g : Graph} {q₀ q q' : SlidingQueue} {parent₀ parent parent' : Nat → Int}
  {workers workers' : Fin nt → Worker TopDown} {pushed : List Nat} {s s' : TopDown} {source k : Nat}

def TopDown.Over (s : TopDown) : Prop := s.places = [] ∧ s.neighbors = []

/-- The edge to `v` from the node at the place `c` is not looked at yet. -/
def TopDown.Open (q₀ : SlidingQueue) (s : TopDown) (c v : Nat) : Prop :=
  c ∈ s.places ∨ (s.u = q₀.shared c ∧ v ∈ s.neighbors)

structure TopDown.Ok (g : Graph) (q₀ : SlidingQueue) (parent₀ : Nat → Int) (s : TopDown) : Prop where
  places : ∀ c ∈ s.places, c ∈ q₀.places
  neighbors : ∀ v ∈ s.neighbors, s.u ∈ q₀.window ∧ v ∈ g.outNeigh s.u 0
  swapping : ∀ currVal, s.phase = .swapping currVal →
    ∃ v rest, s.neighbors = v :: rest ∧ parent₀ v < 0 ∧ currVal = parent₀ v

def TopDownPhase.weight : TopDownPhase → Nat
  | .looking => 1
  | .swapping _ => 0

def TopDown.weight (g : Graph) (q₀ : SlidingQueue) (s : TopDown) : Nat :=
  (s.places.map fun c => 2 + 2 * (g.outNeigh (q₀.shared c) 0).length).sum + 2 * s.neighbors.length +
    s.phase.weight

/-- What a step of the loop does to the parents, and which edge it is done with. -/
inductive TopDownTurn (g : Graph) (q₀ : SlidingQueue) (parent₀ parent : Nat → Int) (s : TopDown) :
    (Nat → Int) → TopDown → Option Nat → Prop
  | vertex (next : TopDown) (c : Nat) (hPlaces : s.places = c :: next.places) (hEmpty : s.neighbors = [])
      (hu : next.u = q₀.shared c) (hNeighbors : next.neighbors = g.outNeigh (q₀.shared c) 0)
      (hPhase : next.phase = .looking) : TopDownTurn g q₀ parent₀ parent s parent next none
  | look (next : TopDown) (hPlaces : next.places = s.places) (hu : next.u = s.u)
      (hNeighbors : next.neighbors = s.neighbors) (hBefore : s.phase = .looking)
      (hOk : next.Ok g q₀ parent₀) (hAfter : next.phase ≠ .looking) :
      TopDownTurn g q₀ parent₀ parent s parent next none
  | skip (next : TopDown) (v : Nat) (hPlaces : next.places = s.places) (hu : next.u = s.u)
      (hNeighbors : s.neighbors = v :: next.neighbors) (hPhase : next.phase = .looking)
      (hTaken : 0 ≤ parent v) : TopDownTurn g q₀ parent₀ parent s parent next none
  | claim (next : TopDown) (v : Nat) (hPlaces : next.places = s.places) (hu : next.u = s.u)
      (hNeighbors : s.neighbors = v :: next.neighbors) (hPhase : next.phase = .looking)
      (hFree : parent₀ v < 0) (hOld : parent v = parent₀ v) :
      TopDownTurn g q₀ parent₀ parent s (Function.update parent v s.u) next (some v)

theorem topDownBody_spec (hOk : s.Ok g q₀ parent₀)
    (hParent : ∀ v, parent₀ v < 0 → parent v = parent₀ v ∨ 0 ≤ parent v)
    (hKeep : ∀ v, 0 ≤ parent₀ v → 0 ≤ parent v) (hShared : ∀ c ∈ q₀.places, q.shared c = q₀.shared c)
    {push : Option Nat} (hBody : topDownBody g q parent s = some (parent', s', push)) :
    TopDownTurn g q₀ parent₀ parent s parent' s' push := by
  obtain ⟨places, u, neighbors, phase, scout⟩ := s
  cases neighbors with
  | nil =>
    cases places with
    | nil => cases hBody
    | cons c places =>
      have hPlace := hShared c (hOk.places c List.mem_cons_self)
      cases hBody
      exact .vertex _ c rfl rfl hPlace (congrArg (g.outNeigh · 0) hPlace) rfl
  | cons v neighbors =>
    cases phase with
    | looking =>
      simp only [topDownBody] at hBody
      split at hBody
      · rename_i hFree
        cases hBody
        have hFree₀ : parent₀ v < 0 := by
          by_contra hTaken
          have hLater := hKeep v (not_lt.mp hTaken)
          omega
        have hSame : parent v = parent₀ v := (hParent v hFree₀).resolve_right (by omega)
        apply TopDownTurn.look
        · rfl
        · rfl
        · rfl
        · rfl
        · refine ⟨hOk.places, hOk.neighbors, fun currVal hPhase => ?_⟩
          cases hPhase
          exact ⟨v, neighbors, rfl, hFree₀, hSame⟩
        · exact nofun
      · rename_i hTaken
        cases hBody
        exact .skip _ v rfl rfl rfl rfl (not_lt.mp hTaken)
    | swapping currVal =>
      obtain ⟨w, rest, hRest, hFree, rfl⟩ := hOk.swapping currVal rfl
      cases hRest
      simp only [topDownBody] at hBody
      split at hBody
      · rename_i hSame
        cases hBody
        exact .claim _ v rfl rfl rfl rfl hFree hSame
      · rename_i hOther
        cases hBody
        exact .skip _ v rfl rfl rfl rfl ((hParent v hFree).resolve_left hOther)

theorem TopDownTurn.weight_lt {push : Option Nat}
    (h : TopDownTurn g q₀ parent₀ parent s parent' s' push) : s'.weight g q₀ < s.weight g q₀ := by
  rw [TopDown.weight, TopDown.weight]
  cases h with
  | vertex next c hPlaces hEmpty hu hNeighbors hPhase =>
    rw [hPlaces, hEmpty, hNeighbors, hPhase, List.map_cons, List.sum_cons, TopDownPhase.weight]
    omega
  | look next hPlaces hu hNeighbors hBefore hOk hAfter =>
    rw [hPlaces, hNeighbors, hBefore]
    cases hPhase : s'.phase with
    | looking => exact absurd hPhase hAfter
    | swapping currVal => exact Nat.lt_succ_self _
  | skip next v hPlaces hu hNeighbors hPhase | claim next v hPlaces hu hNeighbors hPhase =>
    rw [hPlaces, hNeighbors, hPhase, List.length_cons, TopDownPhase.weight]
    omega

theorem TopDownTurn.ok {push : Option Nat} (hOk : s.Ok g q₀ parent₀)
    (h : TopDownTurn g q₀ parent₀ parent s parent' s' push) : s'.Ok g q₀ parent₀ := by
  have hTail : ∀ v, s'.places = s.places → s'.u = s.u → s.neighbors = v :: s'.neighbors →
      s'.phase = .looking → s'.Ok g q₀ parent₀ := by
    intro v hPlaces hu hNeighbors hPhase
    constructor
    · rw [hPlaces]
      exact hOk.places
    · rw [hu]
      intro w hw
      exact hOk.neighbors w (hNeighbors ▸ List.mem_cons_of_mem v hw)
    · rw [hPhase]
      exact nofun
  cases h with
  | vertex next c hPlaces hEmpty hu hNeighbors hPhase =>
    have hc := hOk.places c (hPlaces ▸ List.mem_cons_self)
    constructor
    · exact fun c' hc' => hOk.places c' (hPlaces ▸ List.mem_cons_of_mem c hc')
    · rw [hNeighbors, hu]
      exact fun v hv => ⟨List.mem_map_of_mem hc, hv⟩
    · rw [hPhase]
      exact nofun
  | look next hPlaces hu hNeighbors hBefore hOk => exact hOk
  | skip next v hPlaces hu hNeighbors hPhase | claim next v hPlaces hu hNeighbors hPhase =>
    exact hTail v hPlaces hu hNeighbors hPhase

/-- An edge stays open until its end has a parent. -/
theorem TopDownTurn.open {push : Option Nat} (h : TopDownTurn g q₀ parent₀ parent s parent' s' push)
    {c v : Nat} (hv : v ∈ g.outNeigh (q₀.shared c) 0) (hOpen : s.Open q₀ c v) :
    0 ≤ parent' v ∨ s'.Open q₀ c v := by
  cases h with
  | vertex next c' hPlaces hEmpty hu hNeighbors hPhase =>
    rw [TopDown.Open, hPlaces, hEmpty, List.mem_cons] at hOpen
    rcases hOpen with (rfl | hLeft) | ⟨_, hNone⟩
    · exact Or.inr (Or.inr ⟨hu, hNeighbors ▸ hv⟩)
    · exact Or.inr (Or.inl hLeft)
    · cases hNone
  | look next hPlaces hu hNeighbors =>
    rw [TopDown.Open, hPlaces, hu, hNeighbors]
    exact Or.inr hOpen
  | skip next w hPlaces hu hNeighbors hPhase hTaken =>
    rw [TopDown.Open, hNeighbors, List.mem_cons] at hOpen
    rw [TopDown.Open, hPlaces, hu]
    rcases hOpen with hLeft | ⟨hu', rfl | hRest⟩
    · exact Or.inr (Or.inl hLeft)
    · exact Or.inl hTaken
    · exact Or.inr (Or.inr ⟨hu', hRest⟩)
  | claim next w hPlaces hu hNeighbors =>
    rw [TopDown.Open, hNeighbors, List.mem_cons] at hOpen
    rw [TopDown.Open, hPlaces, hu]
    rcases hOpen with hLeft | ⟨hu', rfl | hRest⟩
    · exact Or.inr (Or.inl hLeft)
    · rw [Function.update_self]
      exact Or.inl (Int.natCast_nonneg _)
    · exact Or.inr (Or.inr ⟨hu', hRest⟩)

theorem TopDownTurn.parent_cases {push : Option Nat}
    (h : TopDownTurn g q₀ parent₀ parent s parent' s' push) :
    (push = none ∧ parent' = parent) ∨ ∃ v, push = some v ∧ v ∈ s.neighbors ∧ parent₀ v < 0 ∧
      parent v = parent₀ v ∧ parent' = Function.update parent v s.u := by
  cases h with
  | vertex | look | skip => exact Or.inl ⟨rfl, rfl⟩
  | claim next v hPlaces hu hNeighbors hPhase hFree hOld =>
    exact Or.inr ⟨v, rfl, hNeighbors ▸ List.mem_cons_self, hFree, hOld, rfl⟩

theorem topDownBody_eq_none (h : topDownBody g q parent s = none) : s.Over := by
  obtain ⟨places, u, neighbors, phase, scout⟩ := s
  cases neighbors with
  | nil =>
    cases places with
    | nil => exact ⟨rfl, rfl⟩
    | cons c places => cases h
  | cons v neighbors =>
    cases phase <;> · simp only [topDownBody] at h; split at h <;> cases h

/-- The nodes that are pushed are those that got a parent, an edge from the window. -/
structure TopDownInv (g : Graph) (q₀ : SlidingQueue) (parent₀ : Nat → Int) (q : SlidingQueue)
    (parent : Nat → Int) (workers : Fin nt → Worker TopDown) (pushed : List Nat) : Prop where
  filling : Filling TopDown.Over q₀ q workers pushed
  keep : ∀ v, 0 ≤ parent₀ v → parent v = parent₀ v
  found : ∀ v, parent₀ v < 0 →
    parent v = parent₀ v ∨ ∃ u ∈ q₀.window, parent v = (u : Int) ∧ v ∈ g.outNeigh u 0
  nodup : pushed.Nodup
  pushed : ∀ v, v ∈ pushed ↔ parent₀ v < 0 ∧ 0 ≤ parent v
  ok : ∀ t, (workers t).loop.Ok g q₀ parent₀
  scanned : ∀ c ∈ q₀.places, ∀ v ∈ g.outNeigh (q₀.shared c) 0,
    0 ≤ parent v ∨ ∃ t, (workers t).loop.Open q₀ c v

theorem topDownInv_start {share : Fin nt → List Nat} (hShare : Shares share q.places) :
    TopDownInv g q parent₀ q parent₀ (fun t => ⟨⟨share t, 0, [], .looking, 0⟩, [], .looping⟩) [] where
  filling := filling_start q fun t => (⟨share t, 0, [], .looking, 0⟩ : TopDown)
  keep _ _ := rfl
  found _ _ := Or.inl rfl
  nodup := List.nodup_nil
  pushed v := by
    refine iff_of_false List.not_mem_nil fun h => ?_
    omega
  ok t := by
    refine ⟨fun c hc => hShare.exists_mem.mpr ⟨t, hc⟩, fun v hv => ?_, fun currVal hPhase => ?_⟩
    · cases hv
    · cases hPhase
  scanned c hc v _ := by
    obtain ⟨t, ht⟩ := hShare.exists_mem.mp hc
    exact Or.inr ⟨t, Or.inl ht⟩

theorem forall_loop_update {next : Worker TopDown} {t : Fin nt} {P : TopDown → Prop}
    (h : ∀ t, P (workers t).loop) (hNext : P next.loop) (t' : Fin nt) :
    P (Function.update workers t next t').loop :=
  forall_update (P := fun w : Worker TopDown => P w.loop) h hNext t'

theorem exists_loop_update {next : Worker TopDown} {t : Fin nt} {P : TopDown → Prop}
    (h : ∃ t, P (workers t).loop) (hNext : P (workers t).loop → P next.loop) :
    ∃ t', P (Function.update workers t next t').loop := by
  obtain ⟨t', ht'⟩ := h
  obtain rfl | hNe := eq_or_ne t' t
  · exact ⟨t', by rw [Function.update_self]; exact hNext ht'⟩
  · exact ⟨t', by rwa [Function.update_of_ne hNe]⟩

theorem TopDownInv.keep_nonneg (h : TopDownInv g q₀ parent₀ q parent workers pushed) {v : Nat}
    (hv : 0 ≤ parent₀ v) : 0 ≤ parent v := by
  rw [h.keep v hv]
  exact hv

theorem TopDownInv.old_or_nonneg (h : TopDownInv g q₀ parent₀ q parent workers pushed) {v : Nat}
    (hv : parent₀ v < 0) : parent v = parent₀ v ∨ 0 ≤ parent v := by
  rcases h.found v hv with hOld | ⟨u, _, hu, _⟩
  · exact Or.inl hOld
  · exact Or.inr (by omega)

/-- A step of the loop keeps the invariant, with what it pushes. -/
theorem TopDownInv.turn (h : TopDownInv g q₀ parent₀ q parent workers pushed) {t : Fin nt}
    {next : Worker TopDown} {push : Option Nat}
    (hTurn : TopDownTurn g q₀ parent₀ parent (workers t).loop parent' next.loop push)
    (hFilling : Filling TopDown.Over q₀ q' (Function.update workers t next) (pushed ++ push.toList)) :
    TopDownInv g q₀ parent₀ q' parent' (Function.update workers t next) (pushed ++ push.toList) := by
  have hOk := forall_loop_update (t := t) h.ok (hTurn.ok (h.ok t))
  have hScanned : (∀ v, 0 ≤ parent v → 0 ≤ parent' v) → ∀ c ∈ q₀.places,
      ∀ v ∈ g.outNeigh (q₀.shared c) 0,
        0 ≤ parent' v ∨ ∃ t', (Function.update workers t next t').loop.Open q₀ c v := by
    intro hMono c hc v hv
    rcases h.scanned c hc v hv with hTaken | hOpen
    · exact Or.inl (hMono v hTaken)
    · by_cases hMine : (workers t).loop.Open q₀ c v
      · rcases hTurn.open hv hMine with hTaken | hStill
        · exact Or.inl hTaken
        · refine Or.inr ⟨t, ?_⟩
          rwa [Function.update_self]
      · refine Or.inr (exists_loop_update (P := fun s => s.Open q₀ c v) hOpen fun hNow => ?_)
        exact absurd hNow hMine
  rcases hTurn.parent_cases with ⟨rfl, rfl⟩ | ⟨v, rfl, hv, hFree, hOld, rfl⟩
  · rw [Option.toList_none, List.append_nil] at hFilling ⊢
    exact ⟨hFilling, h.keep, h.found, h.nodup, h.pushed, hOk, hScanned fun _ => id⟩
  · have hFresh : v ∉ pushed := fun hIn => by
      have hTaken := ((h.pushed v).mp hIn).2
      omega
    constructor
    · exact hFilling
    · intro w hw
      have hNe : w ≠ v := by
        rintro rfl
        omega
      rw [Function.update_of_ne hNe]
      exact h.keep w hw
    · intro w hw
      obtain rfl | hNe := eq_or_ne w v
      · obtain ⟨hu, hOut⟩ := (h.ok t).neighbors w hv
        rw [Function.update_self]
        exact Or.inr ⟨_, hu, rfl, hOut⟩
      · rw [Function.update_of_ne hNe]
        exact h.found w hw
    · rw [Option.toList_some]
      exact List.nodup_append.mpr ⟨h.nodup, List.nodup_singleton v, fun a ha b hb hab =>
        hFresh (List.mem_singleton.mp hb ▸ hab ▸ ha)⟩
    · intro w
      rw [Option.toList_some, List.mem_append, List.mem_singleton, h.pushed w]
      obtain rfl | hNe := eq_or_ne w v
      · rw [Function.update_self]
        exact iff_of_true (Or.inr rfl) ⟨hFree, Int.natCast_nonneg _⟩
      · rw [Function.update_of_ne hNe, or_iff_left hNe]
    · exact hOk
    · apply hScanned
      intro w hw
      obtain rfl | hNe := eq_or_ne w v
      · rw [Function.update_self]
        exact Int.natCast_nonneg _
      · rwa [Function.update_of_ne hNe]

theorem TopDownInv.step (h : TopDownInv g q₀ parent₀ q parent workers pushed)
    (hWindow : q₀.outEnd ≤ q₀.sharedIn)
    (hTurn : Interleave (fun m l m' l' => workerStep (topDownBody g) m.1 m.2 l = some (m'.1, m'.2, l'))
      ((q, parent), workers) ((q', parent'), workers')) :
    (∃ pushed', TopDownInv g q₀ parent₀ q' parent' workers' pushed') ∧
      ∑ t, (workers' t).weight (TopDown.weight g q₀) < ∑ t, (workers t).weight (TopDown.weight g q₀) := by
  obtain ⟨t, next, hStep, rfl⟩ := hTurn
  dsimp only at hStep ⊢
  have hShared : ∀ c ∈ q₀.places, q.shared c = q₀.shared c := by
    intro c hc
    rw [SlidingQueue.places, SlidingQueue.size, List.mem_range'_1] at hc
    exact h.filling.kept c (by omega)
  rcases h.filling.turn (fun _ => topDownBody_eq_none) hStep with
    ⟨push, _, hBody, hNext⟩ | ⟨rfl, hLoop, hLess, hNext⟩
  · have hLoop := topDownBody_spec (h.ok t) (fun v hv => h.old_or_nonneg hv)
      (fun v hv => h.keep_nonneg hv) hShared hBody
    refine ⟨⟨_, h.turn hLoop hNext⟩, sum_update_lt _ workers ?_⟩
    have hWeight := hLoop.weight_lt
    have hPhase := next.phase.weight_le
    rw [Worker.weight, Worker.weight]
    omega
  · refine ⟨⟨pushed, hNext, h.keep, h.found, h.nodup, h.pushed, ?_, fun c hc v hv => ?_⟩,
      sum_update_lt _ workers ?_⟩
    · exact forall_loop_update h.ok (hLoop ▸ h.ok t)
    · refine (h.scanned c hc v hv).imp_right fun hOpen => ?_
      exact exists_loop_update (P := fun s => s.Open q₀ c v) hOpen fun hMine => hLoop ▸ hMine
    · rw [Worker.weight, Worker.weight, hLoop]
      exact Nat.add_lt_add_left hLess _

/-- At the end of `TDStep` the next level has been found and pushed. -/
theorem TopDownInv.nextLevel (hInv : TopDownInv g q₀ parent₀ q parent workers pushed)
    (hAll : ∀ t, (workers t).phase = .finished) (h : SearchedTo g.arc source k (parentOf parent₀))
    (hSource : source < g.numNodes) (hWindow : ∀ u, u ∈ q₀.window ↔ Level g.arc source u k) :
    NextLevel g.arc source k (parentOf parent₀) (parentOf parent) ∧
      ∀ v, v ∈ pushed ↔ Level g.arc source v (k + 1) := by
  have hFound : ∀ v u : Nat, parent₀ v < 0 → parent v = u → g.arc u v ∧ Level g.arc source u k := by
    intro v u hFree hu
    obtain ⟨w, hw, hParent, hOut⟩ := (hInv.found v hFree).resolve_left (by omega)
    obtain rfl : w = u := by omega
    have hLevel := (hWindow w).mp hw
    exact ⟨⟨level_lt hSource hLevel, hOut⟩, hLevel⟩
  have hReached : ∀ u v, Level g.arc source u k → g.arc u v → 0 ≤ parent v := by
    intro u v hu hArc
    obtain ⟨c, hc, rfl⟩ := List.mem_map.mp ((hWindow u).mpr hu)
    refine (hInv.scanned c hc v hArc.2).resolve_right fun ⟨t, hOpen⟩ => ?_
    obtain ⟨hPlaces, hNeighbors⟩ := hInv.filling.leaves t (Or.inr (Or.inr (hAll t)))
    rw [TopDown.Open, hPlaces, hNeighbors] at hOpen
    rcases hOpen with hNone | ⟨_, hNone⟩
    · cases hNone
    · cases hNone
  refine ⟨⟨fun v u hu => ?_, fun v u hOld hNew => ?_, fun u v hu hArc => ?_⟩, fun v => ?_⟩
  · rw [parentOf_eq_some] at hu ⊢
    rw [hInv.keep v (by omega), hu]
  · exact hFound v u (parentOf_eq_none.mp hOld) (parentOf_eq_some.mp hNew)
  · rw [Option.isSome_iff_ne_none, Ne, parentOf_eq_none]
    exact not_lt.mpr (hReached u v hu hArc)
  · rw [hInv.pushed v]
    constructor
    · rintro ⟨hFree, hTaken⟩
      obtain ⟨u, hu⟩ := Int.eq_ofNat_of_zero_le hTaken
      obtain ⟨hArc, hLevel⟩ := hFound v u hFree hu
      exact (h.level_of_arc (parentOf_eq_none.mpr hFree) hArc le_rfl hLevel).2
    · intro hLevel
      obtain ⟨u, hArc, hu⟩ := hLevel.nearer
      refine ⟨?_, hReached u v hu hArc⟩
      rw [← parentOf_eq_none]
      by_contra hTaken
      obtain ⟨n, hn, hOther⟩ := (h.visited v).mp (Option.isSome_iff_ne_none.mpr hTaken)
      have hSame := hOther.unique hLevel
      omega

end Claiming

end Trident.Gapbs
