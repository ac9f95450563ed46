import Mathlib.Data.Prod.Lex
import Trident.Gapbs.TopDown

/-! # Runs of the breadth-first search

Each turn of the loop in `DOBFS`, and each `BUStep`, takes the search from one level to the next.
-/

namespace Trident.Gapbs

open Relation Transition BlockQueue Distances Bitmap

section Queues

variable {g : Graph} {source k : Nat} {q : SlidingQueue} {pushed : List Nat}

/-- Outside the loops, the queue holds nodes from before the level `k`, each of them once. -/
structure QueueOk (g : Graph) (source k : Nat) (q : SlidingQueue) : Prop where
  nodup : q.contents.Nodup
  level : ∀ u ∈ q.contents, ∃ j < k, Level g.arc source u j
  start : q.outStart ≤ q.outEnd
  full : q.outEnd = q.sharedIn

theorem length_le_of_nodup {l : List Nat} {n : Nat} (hNodup : l.Nodup) (hLess : ∀ u ∈ l, u < n) :
    l.length ≤ n := by
  have hSub : l.Subperm (List.range n) :=
    hNodup.subperm fun u hu => List.mem_range.mpr (hLess u hu)
  simpa using hSub.length_le

theorem QueueOk.append_nodup (h : QueueOk g source k q) (hPushed : pushed.Nodup)
    (hFresh : ∀ u ∈ pushed, ∀ j < k, ¬ Level g.arc source u j) : (q.contents ++ pushed).Nodup := by
  apply List.nodup_append.mpr
  refine ⟨h.nodup, hPushed, ?_⟩
  rintro u hOld _ hNew rfl
  obtain ⟨j, hj, hLevel⟩ := h.level u hOld
  exact hFresh u hNew j hj hLevel

/-- There is room for what has not been in the queue before. -/
theorem QueueOk.room (h : QueueOk g source k q) (hSource : source < g.numNodes)
    (hPushed : pushed.Nodup) (hLess : ∀ u ∈ pushed, u < g.numNodes)
    (hFresh : ∀ u ∈ pushed, ∀ j < k, ¬ Level g.arc source u j) :
    q.sharedIn + pushed.length ≤ g.numNodes := by
  have hLength := length_le_of_nodup (n := g.numNodes) (h.append_nodup hPushed hFresh) fun u hu => by
    rcases List.mem_append.mp hu with hOld | hNew
    · obtain ⟨j, _, hLevel⟩ := h.level u hOld
      exact level_lt hSource hLevel
    · exact hLess u hNew
  rwa [List.length_append, SlidingQueue.contents, List.length_map, List.length_range] at hLength

theorem QueueOk.sharedIn_le (h : QueueOk g source k q) (hSource : source < g.numNodes) :
    q.sharedIn ≤ g.numNodes :=
  h.room hSource (List.nodup_nil (α := Nat)) nofun nofun

theorem QueueOk.slide (h : QueueOk g source k q) : QueueOk g source k q.slideWindow where
  nodup := h.nodup
  level := h.level
  start := h.full.le
  full := rfl

theorem QueueOk.mem_window_of_ne (h : QueueOk g source k q) (hMore : ¬ q.Empty) : ∃ u, u ∈ q.window := by
  have hStart := h.start
  rw [SlidingQueue.Empty] at hMore
  refine ⟨_, List.mem_map_of_mem (List.mem_range'_1.mpr ⟨le_rfl, ?_⟩)⟩
  rw [SlidingQueue.size]
  omega

theorem QueueOk.window_of_empty (hEmpty : q.Empty) : q.window = [] := by
  rw [SlidingQueue.window, SlidingQueue.places, SlidingQueue.size, hEmpty, Nat.sub_self]
  rfl

/-- A loop that has pushed the level brings the queue to the next one. -/
theorem Filling.queueOk {nt : Nat} {l : Type*} {Over : l → Prop} {q₀ : SlidingQueue}
    {workers : Fin nt → Worker l} (h : Filling Over q₀ q workers pushed)
    (hAll : ∀ t, (workers t).phase = .finished) (hQueue : QueueOk g source k q₀) (hPushed : pushed.Nodup)
    (hLevel : ∀ u, u ∈ pushed → Level g.arc source u k) :
    QueueOk g source (k + 1) q.slideWindow := by
  have hContents : q.slideWindow.contents.Perm (q₀.contents ++ pushed) := h.contents hAll
  have hFresh : ∀ u ∈ pushed, ∀ j < k, ¬ Level g.arc source u j := by
    intro u hu j hj hOther
    have hSame := hOther.unique (hLevel u hu)
    omega
  constructor
  · exact hContents.nodup_iff.mpr (hQueue.append_nodup hPushed hFresh)
  · intro u hu
    rcases List.mem_append.mp (hContents.mem_iff.mp hu) with hOld | hNew
    · obtain ⟨j, hj, hLevel⟩ := hQueue.level u hOld
      exact ⟨j, Nat.lt_succ_of_lt hj, hLevel⟩
    · exact ⟨k, Nat.lt_succ_self k, hLevel u hNew⟩
  · have hCells := (h.cells hAll).1
    have hFull := hQueue.full
    have hEnd := h.outEnd
    show q.outEnd ≤ q.sharedIn
    omega
  · rfl

end Queues

section Trees

variable {g : Graph} {source : Nat} {parent : Nat → Int}

theorem isBfsTree_of_tree (h : ShortestTree g.arc source (parentOf parent)) :
    g.IsBfsTree source (trimParent g parent) := by
  have hTrim : ∀ v < g.numNodes, (trimParent g parent v = -1 ↔ parent v < 0) ∧
      (0 ≤ parent v → trimParent g parent v = parent v) := by
    intro v hv
    rw [trimParent]
    split <;> omega
  have hUnreached : ∀ v < g.numNodes,
      trimParent g parent v = -1 ↔ ¬ ReflTransGen g.arc source v := by
    intro v hv
    rw [(hTrim v hv).1, ← parentOf_eq_none, ← exists_level_iff, ← h.visited v,
      Option.not_isSome_iff_eq_none]
  have hRoot := parentOf_eq_some.mp h.root
  constructor
  · rw [trimParent, if_neg (by omega), hRoot]
  · exact hUnreached
  · intro v hv hNe hSome
    have hTaken : 0 ≤ parent v := not_lt.mp fun hFree => hSome ((hTrim v hv).1.mpr hFree)
    obtain ⟨u, hu⟩ := Int.eq_ofNat_of_zero_le hTaken
    obtain ⟨hArc, n, hLevel, hNext⟩ := h.nearer v u hNe (parentOf_eq_some.mpr hu)
    exact ⟨u, n, ((hTrim v hv).2 hTaken).trans hu, hArc, hLevel, hNext⟩

end Trees

section Searches

variable {nt : Nat} {g : Graph} {source k w : Nat} {s t : Bfs nt g.numNodes}

/-- The search has come to the level `k`; `w` is the work that is left in a loop. -/
def Bfs.Ok (g : Graph) (source k w : Nat) (s : Bfs nt g.numNodes) : Prop :=
  match s.stage with
  | .test => SearchedTo g.arc source k (parentOf s.parent) ∧ QueueOk g source (k + 1) s.queue ∧
      (∀ u, u ∈ s.queue.window ↔ Level g.arc source u k) ∧
      ∀ u < g.numNodes, GetBit s.front u → ∃ j ≤ k, Level g.arc source u j
  | .queueToBitmap setters => SearchedTo g.arc source k (parentOf s.parent) ∧
      QueueOk g source (k + 1) s.queue ∧ (∀ u, u ∈ s.queue.window ↔ Level g.arc source u k) ∧
      ¬ s.queue.Empty ∧ w = settersWeight s.front setters ∧
      ∃ front₀, (∀ u < g.numNodes, GetBit front₀ u → ∃ j ≤ k, Level g.arc source u j) ∧
        SettersInv s.queue front₀ s.front setters
  | .bottomUp old chunks => QueueOk g source (k + 1) s.queue ∧ (∃ u, Level g.arc source u k) ∧
      0 < old ∧ Fronts g source k s.front ∧ w = ∑ c, (chunks c).weight ∧
      ∃ parent₀, SearchedTo g.arc source k (parentOf parent₀) ∧
        BottomUpInv g s.front parent₀ s.parent s.curr chunks
  | .bitmapToQueue workers => SearchedTo g.arc source k (parentOf s.parent) ∧
      (∀ u < g.numNodes, GetBit s.front u ↔ Level g.arc source u k) ∧
      w = ∑ t, (workers t).weight List.length ∧
      ∃ q₀, QueueOk g source k q₀ ∧ GatherInv g.numNodes s.front q₀ s.queue workers
  | .topDown workers => (∃ u, Level g.arc source u k) ∧
      (∀ u < g.numNodes, GetBit s.front u → ∃ j ≤ k, Level g.arc source u j) ∧
      ∃ q₀ parent₀ pushed, SearchedTo g.arc source k (parentOf parent₀) ∧
        QueueOk g source (k + 1) q₀ ∧ (∀ u, u ∈ q₀.window ↔ Level g.arc source u k) ∧
        w = ∑ t, (workers t).weight (TopDown.weight g q₀) ∧
        TopDownInv g q₀ parent₀ s.queue s.parent workers pushed
  | .finished => g.IsBfsTree source s.parent ∧ s.queue.sharedIn ≤ g.numNodes

def BfsStage.order {nt n : Nat} : BfsStage nt n → Nat
  | .bitmapToQueue _ => 5
  | .test => 4
  | .queueToBitmap _ => 3
  | .bottomUp _ _ => 2
  | .topDown _ => 1
  | .finished => 0

def bfsRank (n k w : Nat) (s : Bfs nt n) : Nat ×ₗ Nat := toLex (6 * (n + 1 - k) + s.stage.order, w)

def Bfs.At (g : Graph) (source : Nat) (s : Bfs nt g.numNodes) (r : Nat ×ₗ Nat) : Prop :=
  ∃ k w, k ≤ g.numNodes ∧ s.Ok g source k w ∧ r = bfsRank g.numNodes k w s

theorem level_lt_numNodes (hSource : source < g.numNodes) (h : ∃ u, Level g.arc source u k) :
    k < g.numNodes := by
  obtain ⟨u, hu⟩ := h
  have hCard := hu.lt_card (s := Finset.range g.numNodes) fun v n hv =>
    Finset.mem_range.mpr (level_lt hSource hv)
  rwa [Finset.card_range] at hCard

theorem at_of_work {w' : Nat} (hk : k ≤ g.numNodes) (hOk : t.Ok g source k w')
    (hStage : t.stage.order = s.stage.order) (hWork : w' < w) :
    ∃ r' < bfsRank g.numNodes k w s, t.At g source r' := by
  refine ⟨_, ?_, k, w', hk, hOk, rfl⟩
  rw [bfsRank, bfsRank, hStage]
  exact Prod.Lex.toLex_lt_toLex.mpr (Or.inr ⟨rfl, hWork⟩)

theorem at_of_stage (w' : Nat) (hk : k ≤ g.numNodes) (hOk : t.Ok g source k w')
    (hStage : t.stage.order < s.stage.order) : ∃ r' < bfsRank g.numNodes k w s, t.At g source r' :=
  ⟨_, Prod.Lex.toLex_lt_toLex.mpr (Or.inl (Nat.add_lt_add_left hStage _)), k, w', hk, hOk, rfl⟩

theorem at_of_level (w' : Nat) (hk : k < g.numNodes) (hOk : t.Ok g source (k + 1) w')
    (hStage : t.stage.order < s.stage.order + 6) :
    ∃ r' < bfsRank g.numNodes k w s, t.At g source r' := by
  refine ⟨_, Prod.Lex.toLex_lt_toLex.mpr (Or.inl ?_), k + 1, w', hk, hOk, rfl⟩
  dsimp only
  omega

/-- The level that the bottom-up step leaves behind. -/
theorem BottomUpInv.searched {old : Nat} {chunks : Fin (numChunks g.numNodes) → BottomUp}
    (hOk : s.Ok g source k w) (hStage : s.stage = .bottomUp old chunks)
    (hDone : ∀ c, (chunks c).todo = [] ∧ (chunks c).phase = .looking) :
    SearchedTo g.arc source (k + 1) (parentOf s.parent) ∧
      (∀ u < g.numNodes, GetBit s.curr u ↔ Level g.arc source u (k + 1)) ∧
      (0 < ∑ c, (chunks c).awake → ∃ u, Level g.arc source u (k + 1)) := by
  rw [Bfs.Ok, hStage] at hOk
  obtain ⟨_, _, _, hFront, _, parent₀, hSearched, hInv⟩ := hOk
  obtain ⟨hNext, hBits⟩ := hInv.nextLevel hDone hSearched hFront
  exact ⟨hSearched.next hNext, hBits, hInv.level_of_awake hSearched hFront⟩

theorem dobfsStep_at {r : Nat ×ₗ Nat} (hSource : source < g.numNodes) (h : s.At g source r)
    (hStep : DobfsStep g s t) : ∃ r' < r, t.At g source r' := by
  obtain ⟨k, w, hk, hOk, rfl⟩ := h
  have hAll := hOk
  cases hStep with
  | finish hStage hEmpty =>
    rw [Bfs.Ok, hStage] at hOk
    obtain ⟨hSearched, hQueue, hWindow, _⟩ := hOk
    have hNone : ∀ v, ¬ Level g.arc source v k := by
      intro v hv
      rw [← hWindow v, QueueOk.window_of_empty hEmpty] at hv
      cases hv
    apply at_of_stage 0 hk
    · exact ⟨isBfsTree_of_tree (hSearched.shortestTree hNone), hQueue.sharedIn_le hSource⟩
    · rw [hStage]
      exact (show 0 < 4 by decide)
  | queueToBitmap hStage hMore hScout =>
    rw [Bfs.Ok, hStage] at hOk
    obtain ⟨hSearched, hQueue, hWindow, hFront⟩ := hOk
    apply at_of_stage _ hk
    · exact ⟨hSearched, hQueue, hWindow, hMore, rfl, s.front, hFront, settersInv_start s.queue s.front⟩
    · rw [hStage]
      exact Nat.lt_succ_self 3
  | setBit setters setters' front hStage hTurn =>
    rw [Bfs.Ok, hStage] at hOk
    obtain ⟨hSearched, hQueue, hWindow, hMore, rfl, front₀, hFront, hInv⟩ := hOk
    obtain ⟨hNext, hWork⟩ := hInv.step hTurn
    apply at_of_work hk
    · exact ⟨hSearched, hQueue, hWindow, hMore, rfl, front₀, hFront, hNext⟩
    · rw [hStage]
      rfl
    · exact hWork
  | bottomUp setters hStage hDone =>
    rw [Bfs.Ok, hStage] at hOk
    obtain ⟨hSearched, hQueue, hWindow, hMore, _, front₀, hFront, hInv⟩ := hOk
    have hEnd : s.queue.outEnd ≤ g.numNodes := hQueue.full.trans_le (hQueue.sharedIn_le hSource)
    have hBits := hInv.finished hEnd hDone
    have hSize : 0 < s.queue.size := by
      have hStart := hQueue.start
      rw [SlidingQueue.Empty] at hMore
      rw [SlidingQueue.size]
      omega
    apply at_of_stage _ hk
    · refine ⟨hQueue.slide, ?_, hSize, ⟨fun u hu => ?_, fun u hu hBit => ?_⟩, rfl, s.parent, hSearched, ?_⟩
      · obtain ⟨u, hu⟩ := hQueue.mem_window_of_ne hMore
        exact ⟨u, (hWindow u).mp hu⟩
      · exact (hBits u).mpr (Or.inr ((hWindow u).mpr hu))
      · rcases (hBits u).mp hBit with hOld | hNew
        · exact hFront u hu hOld
        · exact ⟨k, le_rfl, (hWindow u).mp hNew⟩
      · exact bottomUpInv_start g s.front s.curr s.parent
    · rw [hStage]
      exact Nat.lt_succ_self 2
  | scan old chunks chunks' parent curr hStage hTurn =>
    rw [Bfs.Ok, hStage] at hOk
    obtain ⟨hQueue, hLevel, hOld, hFront, rfl, parent₀, hSearched, hInv⟩ := hOk
    obtain ⟨hNext, hWork⟩ := hInv.step hTurn
    apply at_of_work hk
    · exact ⟨hQueue, hLevel, hOld, hFront, rfl, parent₀, hSearched, hNext⟩
    · rw [hStage]
      rfl
    · exact hWork
  | again old chunks hStage hDone hAgain =>
    obtain ⟨hSearched, hBits, hAwake⟩ := BottomUpInv.searched hAll hStage hDone
    rw [Bfs.Ok, hStage] at hOk
    obtain ⟨hQueue, hLevel, hOld, _⟩ := hOk
    have hSome : 0 < ∑ c, (chunks c).awake := by
      rcases hAgain with hMany | hMany
      · exact hOld.trans_le hMany
      · exact (Nat.zero_le _).trans_lt hMany
    apply at_of_level _ (level_lt_numNodes hSource hLevel)
    · refine ⟨⟨hQueue.nodup, fun u hu => ?_, hQueue.start, hQueue.full⟩, hAwake hSome, hSome,
        ⟨fun u hu => ?_, fun u hu hBit => ?_⟩, rfl, s.parent, hSearched,
        bottomUpInv_start g s.curr s.front s.parent⟩
      · obtain ⟨j, hj, hLevel⟩ := hQueue.level u hu
        exact ⟨j, Nat.lt_succ_of_lt hj, hLevel⟩
      · exact (hBits u (level_lt hSource hu)).mpr hu
      · exact ⟨k + 1, le_rfl, (hBits u hu).mp hBit⟩
    · rw [hStage]
      exact Nat.lt_add_of_pos_right (show 0 < 6 by decide)
  | bitmapToQueue old chunks share hStage hDone hEnough hShare =>
    obtain ⟨hSearched, hBits, _⟩ := BottomUpInv.searched hAll hStage hDone
    rw [Bfs.Ok, hStage] at hOk
    obtain ⟨hQueue, hLevel, _⟩ := hOk
    apply at_of_level _ (level_lt_numNodes hSource hLevel)
    · exact ⟨hSearched, hBits, rfl, s.queue, hQueue, gatherInv_start hShare s.curr s.queue⟩
    · rw [hStage]
      exact (show 5 < 2 + 6 by decide)
  | gather workers workers' queue hStage hTurn =>
    rw [Bfs.Ok, hStage] at hOk
    obtain ⟨hSearched, hBits, rfl, q₀, hQueue, hInv⟩ := hOk
    obtain ⟨hNext, hWork⟩ := hInv.step hTurn
    apply at_of_work hk
    · exact ⟨hSearched, hBits, rfl, q₀, hQueue, hNext⟩
    · rw [hStage]
      rfl
    · exact hWork
  | gathered workers hStage hDone =>
    rw [Bfs.Ok, hStage] at hOk
    obtain ⟨hSearched, hBits, _, q₀, hQueue, hInv⟩ := hOk
    obtain ⟨pushed, hFilling, hPerm⟩ := hInv.finished hDone
    have hLevel : ∀ u, u ∈ pushed ↔ Level g.arc source u k := by
      intro u
      rw [hPerm.mem_iff, List.mem_filter, List.mem_range, decide_eq_true_eq]
      constructor
      · exact fun hu => (hBits u hu.1).mp hu.2
      · intro hu
        have hIn := level_lt hSource hu
        exact ⟨hIn, (hBits u hIn).mpr hu⟩
    have hNodup : pushed.Nodup := hPerm.nodup_iff.mpr (List.nodup_range.filter _)
    apply at_of_stage 0 hk
    · refine ⟨hSearched, ?_, fun u => ?_, fun u hu hBit => ⟨k, le_rfl, (hBits u hu).mp hBit⟩⟩
      · exact hFilling.queueOk hDone hQueue hNodup fun u hu => (hLevel u).mp hu
      · rw [(hFilling.window hDone hQueue.full).mem_iff]
        exact hLevel u
    · rw [hStage]
      exact Nat.lt_succ_self 4
  | topDown share hStage hMore hScout hShare =>
    rw [Bfs.Ok, hStage] at hOk
    obtain ⟨hSearched, hQueue, hWindow, hFront⟩ := hOk
    obtain ⟨u, hu⟩ := hQueue.mem_window_of_ne hMore
    apply at_of_stage _ hk
    · exact ⟨⟨u, (hWindow u).mp hu⟩, hFront, s.queue, s.parent, [], hSearched, hQueue, hWindow, rfl,
        topDownInv_start hShare⟩
    · rw [hStage]
      exact (show 1 < 4 by decide)
  | claim workers workers' queue parent hStage hTurn =>
    rw [Bfs.Ok, hStage] at hOk
    obtain ⟨hLevel, hFront, q₀, parent₀, pushed, hSearched, hQueue, hWindow, rfl, hInv⟩ := hOk
    obtain ⟨⟨pushed', hNext⟩, hWork⟩ := hInv.step hQueue.full.le hTurn
    apply at_of_work hk
    · exact ⟨hLevel, hFront, q₀, parent₀, pushed', hSearched, hQueue, hWindow, rfl, hNext⟩
    · rw [hStage]
      rfl
    · exact hWork
  | claimed workers hStage hDone =>
    rw [Bfs.Ok, hStage] at hOk
    obtain ⟨hLevel, hFront, q₀, parent₀, pushed, hSearched, hQueue, hWindow, _, hInv⟩ := hOk
    obtain ⟨hNext, hPushed⟩ := hInv.nextLevel hDone hSearched hSource hWindow
    apply at_of_level 0 (level_lt_numNodes hSource hLevel)
    · refine ⟨hSearched.next hNext, ?_, fun u => ?_, fun u hu hBit => ?_⟩
      · exact hInv.filling.queueOk hDone hQueue hInv.nodup fun u hu => (hPushed u).mp hu
      · rw [(hInv.filling.window hDone hQueue.full).mem_iff]
        exact hPushed u
      · obtain ⟨j, hj, hLevel⟩ := hFront u hu hBit
        exact ⟨j, Nat.le_succ_of_le hj, hLevel⟩
    · rw [hStage]
      exact (show 4 < 1 + 6 by decide)

theorem dobfsStart_at (nt source : Nat) (shared : Nat → Nat) (curr front : Bitmap) :
    ∃ r, (dobfsStart g nt source shared curr front).At g source r := by
  have hInit : ∀ v, initParent g v < 0 := by
    intro v
    rw [initParent]
    split <;> omega
  have hWindow : ∀ u, u ∈ (dobfsStart g nt source shared curr front).queue.window ↔ u = source := by
    intro u
    have hCell : (dobfsStart g nt source shared curr front).queue.window = [source] := by
      show [Function.update shared 0 source 0] = [source]
      rw [Function.update_self]
    rw [hCell, List.mem_singleton]
  refine ⟨_, 0, 0, Nat.zero_le _, ⟨?_, ⟨?_, ?_, Nat.zero_le _, rfl⟩, ?_, ?_⟩, rfl⟩
  · apply searchedTo_zero
    · exact parentOf_eq_some.mpr (Function.update_self ..)
    · intro v hNe
      rw [parentOf_eq_none]
      show Function.update (initParent g) source (source : Int) v < 0
      rw [Function.update_of_ne hNe]
      exact hInit v
  · exact List.nodup_singleton _
  · intro u hu
    have hContents : (dobfsStart g nt source shared curr front).queue.contents = [source] := by
      show [Function.update shared 0 source 0] = [source]
      rw [Function.update_self]
    rw [hContents, List.mem_singleton] at hu
    rw [hu]
    exact ⟨0, Nat.one_pos, level_source⟩
  · intro u
    rw [hWindow u, Level.source_iff]
  · exact fun u hu hBit => absurd hBit (getBit_reset front hu)

/-- The reservations of the threads never leave the cells of the queue. -/
theorem Bfs.At.room {r : Nat ×ₗ Nat} (hSource : source < g.numNodes) (h : s.At g source r) :
    s.queue.sharedIn ≤ g.numNodes := by
  obtain ⟨k, w, hk, hOk, rfl⟩ := h
  obtain ⟨parent, queue, front, curr, edgesToCheck, scoutCount, stage⟩ := s
  cases stage with
  | test => exact hOk.2.1.sharedIn_le hSource
  | queueToBitmap setters => exact hOk.2.1.sharedIn_le hSource
  | bottomUp old chunks => exact hOk.1.sharedIn_le hSource
  | bitmapToQueue workers =>
    obtain ⟨_, hBits, _, q₀, hQueue, hInv⟩ := hOk
    apply hInv.sharedIn_le.trans
    apply hQueue.room hSource (List.nodup_range.filter _)
    · exact fun u hu => List.mem_range.mp (List.mem_filter.mp hu).1
    · intro u hu j hj hOther
      rw [List.mem_filter, List.mem_range, decide_eq_true_eq] at hu
      have hSame := hOther.unique ((hBits u hu.1).mp hu.2)
      omega
  | topDown workers =>
    obtain ⟨_, _, q₀, parent₀, pushed, hSearched, hQueue, hWindow, _, hInv⟩ := hOk
    apply hInv.filling.sharedIn_le.trans
    apply hQueue.room hSource hInv.nodup
    · intro v hv
      obtain ⟨hFree, hTaken⟩ := (hInv.pushed v).mp hv
      obtain ⟨u, hu, _, hOut⟩ := (hInv.found v hFree).resolve_left (by omega)
      exact g.out_lt u (level_lt hSource ((hWindow u).mp hu)) v hOut
    · intro v hv j hj hLevel
      have hFree := parentOf_eq_none.mpr ((hInv.pushed v).mp hv).1
      have hLater := hSearched.unvisited hFree hLevel
      omega
  | finished => exact hOk.2

theorem Bfs.finished_of_stuck (hTeam : 0 < nt)
    (hStuck : ∀ t, ¬ DobfsStep g s t) : s.stage = .finished := by
  obtain ⟨stage, hStage⟩ : ∃ stage, s.stage = stage := ⟨_, rfl⟩
  rw [hStage]
  cases stage with
  | test =>
    by_cases hEmpty : s.queue.Empty
    · exact absurd (.finish s hStage hEmpty) (hStuck _)
    · by_cases hScout : s.scoutCount > s.edgesToCheck.tdiv alpha
      · exact absurd (.queueToBitmap s hStage hEmpty hScout) (hStuck _)
      · obtain ⟨share, hShare⟩ := exists_shares hTeam s.queue.places
        exact absurd (.topDown s share hStage hEmpty hScout hShare) (hStuck _)
  | queueToBitmap setters =>
    by_cases hDone : ∀ c, (setters c).phase = .finished
    · exact absurd (.bottomUp s setters hStage hDone) (hStuck _)
    · obtain ⟨c, hc⟩ := not_forall.mp hDone
      obtain ⟨⟨front, setters'⟩, hTurn⟩ := exists_setterStep s.queue s.front hc
      exact absurd (.setBit s setters setters' front hStage hTurn) (hStuck _)
  | bottomUp old chunks =>
    by_cases hDone : ∀ c, (chunks c).todo = [] ∧ (chunks c).phase = .looking
    · by_cases hAgain : Again g.numNodes (∑ c, (chunks c).awake) old
      · exact absurd (.again s old chunks hStage hDone hAgain) (hStuck _)
      · obtain ⟨share, hShare⟩ := exists_shares hTeam (List.range g.numNodes)
        exact absurd (.bitmapToQueue s old chunks share hStage hDone hAgain hShare) (hStuck _)
    · obtain ⟨c, hc⟩ := not_forall.mp hDone
      obtain ⟨⟨⟨parent, curr⟩, chunks'⟩, hTurn⟩ := exists_bottomUpStep s.front s.parent
        s.curr hc
      exact absurd (.scan s old chunks chunks' parent curr hStage hTurn) (hStuck _)
  | bitmapToQueue workers =>
    by_cases hDone : ∀ t, (workers t).phase = .finished
    · exact absurd (.gathered s workers hStage hDone) (hStuck _)
    · obtain ⟨t, ht⟩ := not_forall.mp hDone
      obtain ⟨⟨queue, m, next⟩, hTurn⟩ := exists_workerStep (gatherBody s.front) s.queue () ht
      exact absurd (.gather s workers _ queue hStage ⟨t, next, hTurn, rfl⟩) (hStuck _)
  | topDown workers =>
    by_cases hDone : ∀ t, (workers t).phase = .finished
    · exact absurd (.claimed s workers hStage hDone) (hStuck _)
    · obtain ⟨t, ht⟩ := not_forall.mp hDone
      obtain ⟨⟨queue, parent, next⟩, hTurn⟩ := exists_workerStep (topDownBody g) s.queue s.parent ht
      exact absurd (.claim s workers _ queue parent hStage ⟨t, next, hTurn, rfl⟩) (hStuck _)
  | finished => rfl

/-- Every run of the search ends, within the cells of the queue and with a breadth-first tree. -/
theorem dobfs_tree (g : Graph) (hSource : source < g.numNodes) (hTeam : 0 < nt) (shared : Nat → Nat)
    (curr front : Bitmap) :
    Acc (fun t s => DobfsStep g s t) (dobfsStart g nt source shared curr front) ∧
      ∀ s, ReflTransGen (DobfsStep g) (dobfsStart g nt source shared curr front) s →
        s.queue.sharedIn ≤ g.numNodes ∧
          ((∀ t, ¬ DobfsStep g s t) → s.stage = .finished ∧ g.IsBfsTree source s.parent) := by
  obtain ⟨r, hStart⟩ := dobfsStart_at nt source shared curr front
  constructor
  · exact acc_of_ranked (Bfs.At g source) (fun _ _ _ h hStep => dobfsStep_at hSource h hStep) hStart
  · intro s hRun
    obtain ⟨r, hAt⟩ : ∃ r, s.At g source r := by
      refine invariant_of_reaches (I := fun s : Bfs nt g.numNodes => ∃ r, s.At g source r) ?_ ⟨r, hStart⟩ hRun
      rintro s t ⟨r, h⟩ hStep
      obtain ⟨r', _, hNext⟩ := dobfsStep_at hSource h hStep
      exact ⟨r', hNext⟩
    refine ⟨hAt.room hSource, fun hStuck => ?_⟩
    have hStage := Bfs.finished_of_stuck hTeam hStuck
    obtain ⟨k, w, _, hOk, _⟩ := hAt
    rw [Bfs.Ok, hStage] at hOk
    exact ⟨hStage, hOk.1⟩

theorem oneArc_tree :
    Acc (fun t s => DobfsStep oneArc s t) (dobfsStart oneArc 2 0 id (fun _ => 0#64) (fun _ => 0#64)) ∧
      ∀ s, ReflTransGen (DobfsStep oneArc) (dobfsStart oneArc 2 0 id (fun _ => 0#64) (fun _ => 0#64)) s →
        s.queue.sharedIn ≤ oneArc.numNodes ∧
          ((∀ t, ¬ DobfsStep oneArc s t) → s.stage = .finished ∧ oneArc.IsBfsTree 0 s.parent) :=
  dobfs_tree oneArc Nat.two_pos Nat.two_pos id (fun _ => 0#64) fun _ => 0#64

end Searches

end Trident.Gapbs
