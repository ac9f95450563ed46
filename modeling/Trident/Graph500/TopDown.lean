import Trident.Graph500.Search

/-! # The top-down step

While the threads scan the frontier, each vertex that they find has exactly one place: in the queue,
or in the buffer of the thread that has found it.
-/

namespace Trident.Graph500

open Relation Transition BlockQueue

section Threads

/-- The block that a thread has reserved and not yet stored. -/
def Scan.hold (thread : Scan) : Option (Nat × List Nat) :=
  match thread.phase with
  | .storing voff count _ => some (voff, thread.buffer.take count)
  | _ => none

/-- The vertices that a thread has found and for which it has not yet reserved cells. -/
def Scan.rest (thread : Scan) : List Nat :=
  match thread.phase with
  | .flushing _ left => thread.buffer ++ left
  | .storing _ _ left => left
  | _ => thread.buffer

/-- The thread has not yet looked at the neighbor `j` of the vertex at the place `k`. -/
def Scan.Open (vlist : Nat → Nat) (thread : Scan) (k j : Nat) : Prop :=
  k ∈ thread.ks ∨ (thread.v = vlist k ∧ j ∈ thread.js)

variable (g : Csr) (m₀ : Memory)

def Memory.InFrontier (v : Nat) : Prop := ∃ k, m₀.k1 ≤ k ∧ k < m₀.k2 ∧ m₀.vlist k = v

structure ScanOk (thread : Scan) : Prop where
  ks : ∀ k ∈ thread.ks, k < m₀.k2 ∧ m₀.InFrontier (m₀.vlist k)
  js : ∀ j ∈ thread.js, m₀.InFrontier thread.v ∧ j ∈ g.neighbours thread.v
  buffer : thread.buffer.length ≤ threadBufLen
  swapping : thread.phase = .swapping → thread.js ≠ []
  flushing : ∀ count left, thread.phase = .flushing count left →
    count = thread.buffer.length ∧ left.length ≤ threadBufLen
  storing : ∀ voff count left, thread.phase = .storing voff count left →
    count = thread.buffer.length ∧ left.length ≤ threadBufLen
  finished : thread.phase = .finished → thread.ks = [] ∧ thread.js = [] ∧ thread.buffer = []

/-- The memory during the step: only cells behind the frontier and cells of new vertices change. -/
structure ScanMemory (m : Memory) : Prop where
  k1 : m.k1 = m₀.k1
  past : m.past = m₀.past
  next : m.next = m₀.next
  before : ∀ c < m₀.k2, m.vlist c = m₀.vlist c
  tree : ∀ j, m.tree j = m₀.tree j ∨
    (m₀.tree j = -1 ∧ ∃ v : Nat, m.tree j = v ∧ m₀.InFrontier v ∧ j ∈ g.neighbours v)

variable {g m₀} {m m' : Memory} {thread next : Scan}

theorem ScanMemory.unvisited (h : ScanMemory g m₀ m) {j : Nat} (hj : m.tree j = -1) : m₀.tree j = -1 := by
  rcases h.tree j with hSame | ⟨hOld, _⟩
  · rw [← hSame, hj]
  · exact hOld

theorem ScanMemory.claim (h : ScanMemory g m₀ m) {v j : Nat} (hj : m.tree j = -1)
    (hv : m₀.InFrontier v) (hNeighbour : j ∈ g.neighbours v) :
    ScanMemory g m₀ { m with tree := Function.update m.tree j v } where
  k1 := h.k1
  past := h.past
  next := h.next
  before := h.before
  tree j' := by
    obtain rfl | hNe := eq_or_ne j' j
    · exact Or.inr ⟨h.unvisited hj, v, Function.update_self .., hv, hNeighbour⟩
    · simp only [Function.update_of_ne hNe]
      exact h.tree j'

theorem TopDownStep.scanMemory (hStep : TopDownStep g m thread m' next) (h : ScanMemory g m₀ m)
    (hOk : ScanOk g m₀ thread) (hStart : ∀ start block, thread.hold = some (start, block) → m₀.k2 ≤ start) :
    ScanMemory g m₀ m' := by
  cases hStep with
  | vertex | skip | look | lose | last | finish => exact h
  | win ks v j js buffer hj =>
    obtain ⟨hv, hNeighbour⟩ := hOk.js j List.mem_cons_self
    exact h.claim hj hv hNeighbour
  | winFull ks v j js buffer hj =>
    obtain ⟨hv, hNeighbour⟩ := hOk.js j List.mem_cons_self
    exact h.claim hj hv hNeighbour
  | reserve => exact ⟨h.k1, h.past, h.next, h.before, h.tree⟩
  | store ks v js buffer voff count left =>
    have hVoff := hStart voff _ rfl
    refine ⟨h.k1, h.past, h.next, fun c hc => ?_, h.tree⟩
    rw [← h.before c hc]
    exact writeBlock_outside (Or.inl (by omega))

theorem TopDownStep.scanOk (hStep : TopDownStep g m thread m' next) (h : ScanMemory g m₀ m)
    (hOk : ScanOk g m₀ thread) : ScanOk g m₀ next := by
  obtain ⟨hks, hjs, hBuffer, hSwapping, hFlushing, hStoring, hFinished⟩ := hOk
  cases hStep with
  | vertex k ks v buffer =>
    obtain ⟨hk, hFrontier⟩ := hks k List.mem_cons_self
    refine ⟨fun k' hk' => hks k' (List.mem_cons_of_mem k hk'), fun j hj => ?_, hBuffer, nofun, nofun,
      nofun, nofun⟩
    rw [h.before k hk] at hj ⊢
    exact ⟨hFrontier, hj⟩
  | skip ks v j js buffer =>
    exact ⟨hks, fun j' hj' => hjs j' (List.mem_cons_of_mem j hj'), hBuffer, nofun, nofun, nofun, nofun⟩
  | look ks v j js buffer =>
    exact ⟨hks, hjs, hBuffer, fun _ => List.cons_ne_nil j js, nofun, nofun, nofun⟩
  | lose ks v j js buffer =>
    exact ⟨hks, fun j' hj' => hjs j' (List.mem_cons_of_mem j hj'), hBuffer, nofun, nofun, nofun, nofun⟩
  | win ks v j js buffer hj hRoom =>
    refine ⟨hks, fun j' hj' => hjs j' (List.mem_cons_of_mem j hj'), ?_, nofun, nofun, nofun, nofun⟩
    rw [List.length_append, List.length_singleton]
    exact hRoom
  | winFull ks v j js buffer hj hFull =>
    refine ⟨hks, fun j' hj' => hjs j' (List.mem_cons_of_mem j hj'), hBuffer, nofun, ?_, nofun, nofun⟩
    intro count left hPhase
    cases hPhase
    exact ⟨(Nat.le_antisymm hBuffer (not_lt.mp hFull)).symm,
      show 1 ≤ threadBufLen by decide⟩
  | last v buffer =>
    refine ⟨hks, hjs, hBuffer, nofun, ?_, nofun, nofun⟩
    intro count left hPhase
    cases hPhase
    exact ⟨rfl, Nat.zero_le _⟩
  | reserve ks v js buffer count left =>
    refine ⟨hks, hjs, hBuffer, nofun, nofun, ?_, nofun⟩
    intro voff count' left' hPhase
    cases hPhase
    exact hFlushing count left rfl
  | store ks v js buffer voff count left =>
    exact ⟨hks, hjs, (hStoring voff count left rfl).2, nofun, nofun, nofun, nofun⟩
  | finish v => exact ⟨hks, hjs, hBuffer, nofun, nofun, nofun, fun _ => ⟨rfl, rfl, rfl⟩⟩

/-- A neighbor is left behind only with a parent, and no parent is taken away. -/
theorem TopDownStep.open (hStep : TopDownStep g m thread m' next) (h : ScanMemory g m₀ m)
    (hOk : ScanOk g m₀ thread) :
    (∀ j, m.tree j ≠ -1 → m'.tree j ≠ -1) ∧
      ∀ k j, j ∈ g.neighbours (m₀.vlist k) → thread.Open m₀.vlist k j →
        next.Open m₀.vlist k j ∨ m'.tree j ≠ -1 := by
  have hClaim : ∀ j v j', m.tree j' ≠ -1 ∨ j' = j →
      Function.update m.tree j ((v : Nat) : Int) j' ≠ -1 := by
    intro j v j' hj'
    obtain rfl | hNe := eq_or_ne j' j
    · rw [Function.update_self]
      omega
    · rw [Function.update_of_ne hNe]
      exact hj'.resolve_right hNe
  cases hStep with
  | vertex k ks v buffer =>
    refine ⟨fun _ hj => hj, fun k' j hNeighbour hOpen => ?_⟩
    rcases hOpen with hk' | ⟨_, hj⟩
    · rcases List.mem_cons.mp hk' with rfl | hRest
      · refine Or.inl (Or.inr ⟨h.before k' (hOk.ks k' List.mem_cons_self).1, ?_⟩)
        rwa [h.before k' (hOk.ks k' List.mem_cons_self).1]
      · exact Or.inl (Or.inl hRest)
    · cases hj
  | skip ks v j js buffer hj =>
    refine ⟨fun _ hj => hj, fun k j' _ hOpen => ?_⟩
    rcases hOpen with hk | ⟨hv, hj'⟩
    · exact Or.inl (Or.inl hk)
    · rcases List.mem_cons.mp hj' with rfl | hRest
      · exact Or.inr hj
      · exact Or.inl (Or.inr ⟨hv, hRest⟩)
  | lose ks v j js buffer hj =>
    refine ⟨fun _ hj => hj, fun k j' _ hOpen => ?_⟩
    rcases hOpen with hk | ⟨hv, hj'⟩
    · exact Or.inl (Or.inl hk)
    · rcases List.mem_cons.mp hj' with rfl | hRest
      · exact Or.inr hj
      · exact Or.inl (Or.inr ⟨hv, hRest⟩)
  | win ks v j js buffer hj | winFull ks v j js buffer hj =>
    refine ⟨fun j' hj' => hClaim j v j' (Or.inl hj'), fun k j' _ hOpen => ?_⟩
    rcases hOpen with hk | ⟨hv, hj'⟩
    · exact Or.inl (Or.inl hk)
    · rcases List.mem_cons.mp hj' with rfl | hRest
      · exact Or.inr (hClaim j' v j' (Or.inr rfl))
      · exact Or.inl (Or.inr ⟨hv, hRest⟩)
  | look | last | reserve | store | finish => exact ⟨fun _ hj => hj, fun _ _ _ hOpen => Or.inl hOpen⟩

end Threads

section Queues

variable (m₀ : Memory)

/-- The vertices that have got their parents in this step, each counted once. -/
def found (m : Memory) (j : Nat) : Nat := if m₀.tree j = -1 ∧ m.tree j ≠ -1 then 1 else 0

/-- The cells behind the frontier, with what the threads hold. -/
def ScanQueue {nt : Nat} (m : Memory) (threads : Fin nt → Scan) (queue : List Nat) : Prop :=
  Queued m₀.k2 m.k2 m.vlist (Scan.hold ∘ threads) queue ∧
    Accounts queue (Scan.rest ∘ threads) (found m₀ m)

variable {m₀} {g : Csr} {m m' : Memory} {nt : Nat} {threads : Fin nt → Scan} {t : Fin nt}
  {thread next : Scan} {queue : List Nat}

theorem ScanQueue.quiet (h : ScanQueue m₀ m threads queue) (hThread : threads t = thread)
    (hHold : next.hold = thread.hold) (hRest : next.rest = thread.rest) :
    ScanQueue m₀ m (Function.update threads t next) queue := by
  have hHolds : Scan.hold ∘ Function.update threads t next = Scan.hold ∘ threads := by
    rw [Function.comp_update, hHold, ← hThread]
    exact Function.update_eq_self ..
  have hRests : Scan.rest ∘ Function.update threads t next = Scan.rest ∘ threads := by
    rw [Function.comp_update, hRest, ← hThread]
    exact Function.update_eq_self ..
  rw [ScanQueue, hHolds, hRests]
  exact h

theorem ScanQueue.claim (h : ScanQueue m₀ m threads queue) (hThread : threads t = thread)
    (hMemory : ScanMemory g m₀ m) {v j : Nat} (hj : m.tree j = -1) (hHold : next.hold = thread.hold)
    (hRest : next.rest = thread.rest ++ [j]) :
    ScanQueue m₀ { m with tree := Function.update m.tree j v } (Function.update threads t next) queue := by
  have hHolds : Scan.hold ∘ Function.update threads t next = Scan.hold ∘ threads := by
    rw [Function.comp_update, hHold, ← hThread]
    exact Function.update_eq_self ..
  have hFound : found m₀ { m with tree := Function.update m.tree j v } =
      Function.update (found m₀ m) j (found m₀ m j + 1) := by
    funext j'
    obtain rfl | hNe := eq_or_ne j' j
    · simp only [found, Function.update_self, hMemory.unvisited hj, hj]
      rw [if_pos ⟨trivial, by omega⟩, if_neg (by simp)]
    · simp only [found, Function.update_of_ne hNe]
  refine ⟨by rw [hHolds]; exact h.1, ?_⟩
  rw [hFound, Function.comp_update, hRest]
  refine h.2.find ?_
  rw [Function.comp_apply, hThread]
  exact List.perm_append_singleton ..

theorem TopDownStep.scanQueue (hStep : TopDownStep g m thread m' next) (hThread : threads t = thread)
    (hMemory : ScanMemory g m₀ m) (hOk : ScanOk g m₀ thread) (h : ScanQueue m₀ m threads queue) :
    ∃ queue', ScanQueue m₀ m' (Function.update threads t next) queue' := by
  cases hStep with
  | vertex | skip | look | lose | finish => exact ⟨queue, h.quiet hThread rfl rfl⟩
  | last v buffer => exact ⟨queue, h.quiet hThread rfl (List.append_nil buffer)⟩
  | win ks v j js buffer hj => exact ⟨queue, h.claim hThread hMemory hj rfl rfl⟩
  | winFull ks v j js buffer hj => exact ⟨queue, h.claim hThread hMemory hj rfl rfl⟩
  | reserve ks v js buffer count left =>
    obtain rfl : count = buffer.length := (hOk.flushing count left rfl).1
    have hFree : (Scan.hold ∘ threads) t = none := by rw [Function.comp_apply, hThread]; rfl
    have hSplit : ((Scan.rest ∘ threads) t).Perm (buffer ++ left) := by
      rw [Function.comp_apply, hThread]
      exact List.Perm.refl _
    refine ⟨queue ++ buffer, ?_, ?_⟩
    · have hHold : Scan.hold ⟨ks, v, js, buffer, .storing m.k2 buffer.length left⟩ =
          some (m.k2, buffer) := congrArg (fun block => some (m.k2, block)) List.take_length
      rw [Function.comp_update, hHold]
      exact h.1.reserve hFree buffer
    · rw [Function.comp_update]
      exact h.2.reserve hSplit
  | store ks v js buffer voff count left =>
    have hHeld : (Scan.hold ∘ threads) t = some (voff, buffer.take count) := by
      rw [Function.comp_apply, hThread]
      rfl
    refine ⟨queue, ?_, ?_⟩
    · rw [Function.comp_update]
      exact h.1.store hHeld
    · have hRests : Scan.rest ∘ Function.update threads t ⟨ks, v, js, left, .scanning⟩ =
          Scan.rest ∘ threads := by
        rw [Function.comp_update]
        refine Function.update_eq_self_iff.mpr ?_
        rw [Function.comp_apply, hThread]
        rfl
      rw [hRests]
      exact h.2

end Queues

section Phases

variable {g : Csr} {m₀ m m' : Memory} {nt : Nat} {threads threads' : Fin nt → Scan}

structure TopDownInv (g : Csr) (m₀ m : Memory) (threads : Fin nt → Scan) : Prop where
  memory : ScanMemory g m₀ m
  ok : ∀ t, ScanOk g m₀ (threads t)
  scanned : ∀ k, m₀.k1 ≤ k → k < m₀.k2 → ∀ j ∈ g.neighbours (m₀.vlist k),
    m.tree j ≠ -1 ∨ ∃ t, (threads t).Open m₀.vlist k j
  queue : ∃ queue, ScanQueue m₀ m threads queue

theorem topDownInv_start {share : Fin nt → List Nat}
    (hShare : Shares share (List.range' m₀.k1 (m₀.k2 - m₀.k1))) :
    TopDownInv g m₀ m₀ fun t => ⟨share t, 0, [], [], .scanning⟩ := by
  have hMem : ∀ k, (∃ t, k ∈ share t) ↔ m₀.k1 ≤ k ∧ k < m₀.k2 := fun k => by
    have hIn := hShare.mem_iff (a := k)
    rw [List.mem_flatMap, List.mem_range'_1] at hIn
    simp only [List.mem_finRange, true_and] at hIn
    rw [hIn]
    omega
  refine ⟨⟨rfl, rfl, rfl, fun _ _ => rfl, fun _ => Or.inl rfl⟩, fun t => ?_, fun k hLow hHigh j _ => ?_,
    [], queued_nil _ _, fun j => ?_⟩
  · refine ⟨fun k hk => ?_, nofun, Nat.zero_le _, nofun, nofun, nofun, nofun⟩
    obtain ⟨hLow, hHigh⟩ := (hMem k).mp ⟨t, hk⟩
    exact ⟨hHigh, k, hLow, hHigh, rfl⟩
  · obtain ⟨t, ht⟩ := (hMem k).mpr ⟨hLow, hHigh⟩
    exact Or.inr ⟨t, Or.inl ht⟩
  · have hNone : found m₀ m₀ j = 0 := if_neg fun h => h.2 h.1
    rw [hNone]
    simp [Scan.rest]

theorem TopDownInv.step (h : TopDownInv g m₀ m threads)
    (hTurn : Interleave (TopDownStep g) (m, threads) (m', threads')) : TopDownInv g m₀ m' threads' := by
  obtain ⟨t, next, hStep, rfl⟩ := hTurn
  obtain ⟨queue, hQueue⟩ := h.queue
  have hOk := h.ok t
  have hMemory : ScanMemory g m₀ m' := hStep.scanMemory h.memory hOk fun start block hHold =>
    (hQueue.1.held t start block hHold).1
  obtain ⟨hKeep, hOpen⟩ := hStep.open h.memory hOk
  refine ⟨hMemory, fun t' => ?_, fun k hLow hHigh j hj => ?_, hStep.scanQueue rfl h.memory hOk hQueue⟩
  · obtain rfl | hNe := eq_or_ne t' t
    · rw [Function.update_self]
      exact hStep.scanOk h.memory hOk
    · rw [Function.update_of_ne hNe]
      exact h.ok t'
  · rcases h.scanned k hLow hHigh j hj with hVisited | ⟨t', ht'⟩
    · exact Or.inl (hKeep j hVisited)
    · obtain rfl | hNe := eq_or_ne t' t
      · refine (hOpen k j hj ht').symm.imp_right fun hNext => ⟨t', ?_⟩
        rwa [Function.update_self]
      · refine Or.inr ⟨t', ?_⟩
        rwa [Function.update_of_ne hNe]

/-- What stands in the queue: vertices with parents, each once. -/
structure QueueOk (g : Csr) (m : Memory) : Prop where
  le : m.k1 ≤ m.k2
  nodup : ((List.range m.k2).map m.vlist).Nodup
  visited : ∀ k < m.k2, m.tree (m.vlist k) ≠ -1
  bound : ∀ k < m.k2, m.vlist k < g.nv

theorem QueueOk.frontier_lt (hStart : QueueOk g m₀) {v : Nat} (hv : m₀.InFrontier v) : v < g.nv := by
  obtain ⟨k, _, hk, rfl⟩ := hv
  exact hStart.bound k hk

theorem ScanQueue.new {queue : List Nat} (hQueue : ScanQueue m₀ m threads queue) :
    queue.Nodup ∧ ∀ j ∈ queue, m₀.tree j = -1 ∧ m.tree j ≠ -1 := by
  have hCount : ∀ j, queue.count j ≤ found m₀ m j := fun j => by
    have hSum := hQueue.2 j
    omega
  constructor
  · refine List.nodup_iff_count_le_one.mpr fun j => (hCount j).trans ?_
    rw [found]
    split <;> omega
  · intro j hj
    have hPos := List.count_pos_iff.mpr hj
    have hLe := hCount j
    rw [found] at hLe
    split at hLe
    · assumption
    · omega

theorem TopDownInv.found_lt (hBound : ∀ v < g.nv, ∀ j ∈ g.neighbours v, j < g.nv)
    (h : TopDownInv g m₀ m threads) (hStart : QueueOk g m₀) {j : Nat} (hOld : m₀.tree j = -1)
    (hNew : m.tree j ≠ -1) : j < g.nv := by
  rcases h.memory.tree j with hSame | ⟨_, v, _, hv, hj⟩
  · exact absurd (hSame.trans hOld) hNew
  · exact hBound v (hStart.frontier_lt hv) j hj

theorem TopDownInv.k2_le (hBound : ∀ v < g.nv, ∀ j ∈ g.neighbours v, j < g.nv)
    (h : TopDownInv g m₀ m threads) (hStart : QueueOk g m₀) : m.k2 ≤ g.nv := by
  obtain ⟨queue, hQueue⟩ := h.queue
  obtain ⟨hNodup, hNew⟩ := hQueue.new
  have hAll : ((List.range m₀.k2).map m₀.vlist ++ queue).Nodup := by
    refine List.Nodup.append hStart.nodup hNodup fun v hv hv' => ?_
    obtain ⟨k, hk, rfl⟩ := List.mem_map.mp hv
    exact hStart.visited k (List.mem_range.mp hk) (hNew _ hv').1
  have hSub : (List.range m₀.k2).map m₀.vlist ++ queue ⊆ List.range g.nv := by
    intro v hv
    rw [List.mem_range]
    rcases List.mem_append.mp hv with hOld | hIn
    · obtain ⟨k, hk, rfl⟩ := List.mem_map.mp hOld
      exact hStart.bound k (List.mem_range.mp hk)
    · exact h.found_lt hBound hStart (hNew v hIn).1 (hNew v hIn).2
  have hLength := (List.subperm_of_subset hAll hSub).length_le
  rw [List.length_append, List.length_map, List.length_range, List.length_range] at hLength
  have hTop := hQueue.1.length
  omega

/-- As long as a thread has not come to its end, it has a step; the assertions hold. -/
theorem TopDownInv.exists_step (hBound : ∀ v < g.nv, ∀ j ∈ g.neighbours v, j < g.nv)
    (h : TopDownInv g m₀ m threads) (hStart : QueueOk g m₀) {t : Fin nt} (hOn : (threads t).phase ≠ .finished) :
    ∃ s, Interleave (TopDownStep g) (m, threads) s := by
  have hk2 := h.k2_le hBound hStart
  obtain ⟨queue, hQueue⟩ := h.queue
  have hOk := h.ok t
  have hHeld := hQueue.1.held t
  obtain ⟨thread, hThread⟩ : ∃ thread, threads t = thread := ⟨_, rfl⟩
  rw [Function.comp_apply] at hHeld
  rw [hThread] at hOn hOk hHeld
  suffices hStep : ∃ m' next, TopDownStep g m thread m' next by
    obtain ⟨m', next, hStep⟩ := hStep
    have hTurn : TopDownStep g m (threads t) m' next := by rwa [hThread]
    exact ⟨(m', Function.update threads t next), t, next, hTurn, rfl⟩
  obtain ⟨ks, v, js, buffer, phase⟩ := thread
  cases phase with
  | scanning =>
    cases js with
    | nil =>
      cases ks with
      | nil =>
        obtain rfl | hBuffer := eq_or_ne buffer []
        · exact ⟨_, _, .finish m v⟩
        · exact ⟨_, _, .last m v buffer hBuffer⟩
      | cons k ks => exact ⟨_, _, .vertex m k ks v buffer⟩
    | cons j js =>
      rcases eq_or_ne (m.tree j) (-1) with hj | hj
      · exact ⟨_, _, .look m ks v j js buffer hj⟩
      · exact ⟨_, _, .skip m ks v j js buffer hj⟩
  | swapping =>
    cases js with
    | nil => exact absurd rfl (hOk.swapping rfl)
    | cons j js =>
      rcases eq_or_ne (m.tree j) (-1) with hj | hj
      · rcases Nat.lt_or_ge buffer.length threadBufLen with hRoom | hFull
        · exact ⟨_, _, .win m ks v j js buffer hj hRoom⟩
        · exact ⟨_, _, .winFull m ks v j js buffer hj (not_lt.mpr hFull)⟩
      · exact ⟨_, _, .lose m ks v j js buffer hj⟩
  | flushing count left => exact ⟨_, _, .reserve m ks v js buffer count left⟩
  | storing voff count left =>
    obtain rfl : count = buffer.length := (hOk.storing voff count left rfl).1
    obtain ⟨_, hEnd, _⟩ := hHeld voff _ rfl
    rw [List.take_length] at hEnd
    exact ⟨_, _, .store m ks v js buffer voff buffer.length left (hEnd.trans hk2)⟩
  | finished => exact absurd rfl hOn

/-- At the end the frontier has been scanned, and the new vertices stand behind it in the queue. -/
theorem TopDownInv.finished (h : TopDownInv g m₀ m threads)
    (hDone : ∀ t, (threads t).phase = .finished) :
    (∀ v, m₀.InFrontier v → ∀ j ∈ g.neighbours v, m.tree j ≠ -1) ∧
      m₀.k2 ≤ m.k2 ∧ ((List.range' m₀.k2 (m.k2 - m₀.k2)).map m.vlist).Nodup ∧
      ∀ j, j ∈ (List.range' m₀.k2 (m.k2 - m₀.k2)).map m.vlist ↔ m₀.tree j = -1 ∧ m.tree j ≠ -1 := by
  obtain ⟨queue, hQueue⟩ := h.queue
  have hEmpty : ∀ t, (Scan.rest ∘ threads) t = [] := fun t => by
    have hBuffer := ((h.ok t).finished (hDone t)).2.2
    rw [Function.comp_apply, Scan.rest, hDone t]
    exact hBuffer
  have hStored : ∀ t, (Scan.hold ∘ threads) t = none := fun t => by
    rw [Function.comp_apply, Scan.hold, hDone t]
  have hCells := hQueue.1.cells_eq hStored
  have hCount := hQueue.2.queue_count hEmpty
  have hLength := hQueue.1.length
  rw [hCells]
  refine ⟨fun v hv j hj => ?_, by omega, hQueue.new.1, fun j => ⟨hQueue.new.2 j, ?_⟩⟩
  · obtain ⟨k, hLow, hHigh, rfl⟩ := hv
    refine (h.scanned k hLow hHigh j hj).resolve_right fun ⟨t, ht⟩ => ?_
    obtain ⟨hks, hjs, _⟩ := (h.ok t).finished (hDone t)
    rw [Scan.Open, hks, hjs] at ht
    rcases ht with hk | ⟨_, hj⟩
    · cases hk
    · cases hj
  · rintro ⟨hOld, hNew⟩
    rw [← List.count_pos_iff, hCount, found, if_pos ⟨hOld, hNew⟩]
    exact Nat.one_pos

end Phases

section Termination

/-- The steps that a thread has left around its loops. -/
def ScanPhase.weight (buffer : List Nat) : ScanPhase → Nat
  | .scanning => if buffer = [] then 1 else 5
  | .swapping => 0
  | .flushing _ left => if left = [] then 4 else 8
  | .storing _ _ left => if left = [] then 3 else 7
  | .finished => 0

/-- Each neighbor that is left outweighs what it may bring about. -/
def Scan.weight (g : Csr) (vlist : Nat → Nat) (thread : Scan) : Nat :=
  10 * (thread.js.length + (thread.ks.map fun k => 1 + (g.neighbours (vlist k)).length).sum) +
    thread.phase.weight thread.buffer

variable {g : Csr} {m₀ m m' : Memory} {thread next : Scan}

theorem TopDownStep.weight_lt (hStep : TopDownStep g m thread m' next) (h : ScanMemory g m₀ m)
    (hOk : ScanOk g m₀ thread) : next.weight g m₀.vlist < thread.weight g m₀.vlist := by
  cases hStep with
  | vertex k ks v buffer =>
    rw [h.before k (hOk.ks k List.mem_cons_self).1]
    simp only [Scan.weight, List.map_cons, List.sum_cons, List.length_nil]
    omega
  | skip | lose | win | winFull =>
    simp only [Scan.weight, ScanPhase.weight, List.length_cons]
    split_ifs <;> omega
  | look ks v j js buffer =>
    simp only [Scan.weight, ScanPhase.weight]
    split_ifs <;> omega
  | last v buffer hBuffer =>
    simp only [Scan.weight, ScanPhase.weight, if_neg hBuffer, if_true]
    omega
  | reserve | store =>
    simp only [Scan.weight, ScanPhase.weight]
    split_ifs <;> omega
  | finish v =>
    simp only [Scan.weight, ScanPhase.weight, if_true]
    omega

theorem TopDownInv.weight_lt {nt : Nat} {threads threads' : Fin nt → Scan}
    (h : TopDownInv g m₀ m threads)
    (hTurn : Interleave (TopDownStep g) (m, threads) (m', threads')) :
    ∑ t, (threads' t).weight g m₀.vlist < ∑ t, (threads t).weight g m₀.vlist := by
  obtain ⟨t, next, hStep, rfl⟩ := hTurn
  exact sum_update_lt (Scan.weight g m₀.vlist) threads (hStep.weight_lt h.memory (h.ok t))

end Termination

end Trident.Graph500
