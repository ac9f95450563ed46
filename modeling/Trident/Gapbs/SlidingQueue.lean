import Trident.Lib.BlockQueue

/-! # The sliding queue

`sliding_queue.h`: a queue whose appends are not seen before its window slides, and the buffers
through which the threads of a parallel loop append to it.
-/

namespace Trident.Gapbs

open Transition BlockQueue

section Program

structure SlidingQueue where
  shared : Nat → Nat
  sharedIn : Nat
  outStart : Nat
  outEnd : Nat

namespace SlidingQueue

/-- The constructor, with any memory for `shared` -/
def new (shared : Nat → Nat) : SlidingQueue := ⟨shared, 0, 0, 0⟩

def pushBack (q : SlidingQueue) (toAdd : Nat) : SlidingQueue :=
  { q with shared := Function.update q.shared q.sharedIn toAdd, sharedIn := q.sharedIn + 1 }

def Empty (q : SlidingQueue) : Prop := q.outStart = q.outEnd

instance (q : SlidingQueue) : Decidable q.Empty := inferInstanceAs (Decidable (_ = _))

def slideWindow (q : SlidingQueue) : SlidingQueue :=
  { q with outStart := q.outEnd, outEnd := q.sharedIn }

def size (q : SlidingQueue) : Nat := q.outEnd - q.outStart

/-- The places from `begin()` to `end()` -/
def places (q : SlidingQueue) : List Nat := List.range' q.outStart q.size

def window (q : SlidingQueue) : List Nat := q.places.map q.shared

end SlidingQueue

def localSize : Nat := 16384

inductive BufferPhase where
  | looping
  | pushing (toAdd : Nat)
  | flushing (toAdd : Option Nat)
  | copying (copyStart : Nat) (toAdd : Option Nat)
  | finished

/-- A thread in a parallel loop that has a `QueueBuffer`: its part of the loop, and the cells of
`local_queue` that are in use. -/
structure Worker (l : Type*) where
  loop : l
  localQueue : List Nat
  phase : BufferPhase

/-- `body` is a step of the loop, which may end in a `push_back`; the last flush comes behind the loop. -/
def workerStep {σ l : Type*} (body : SlidingQueue → σ → l → Option (σ × l × Option Nat))
    (q : SlidingQueue) (m : σ) (w : Worker l) : Option (SlidingQueue × σ × Worker l) :=
  match w.phase with
  | .looping =>
    match body q m w.loop with
    | some (m, loop, some toAdd) => some (q, m, { w with loop, phase := .pushing toAdd })
    | some (m, loop, none) => some (q, m, { w with loop })
    | none => some (q, m, { w with phase := .flushing none })
  | .pushing toAdd =>
    if w.localQueue.length = localSize then some (q, m, { w with phase := .flushing (some toAdd) })
    else some (q, m, { w with localQueue := w.localQueue ++ [toAdd], phase := .looping })
  | .flushing toAdd =>
    some ({ q with sharedIn := q.sharedIn + w.localQueue.length }, m,
      { w with phase := .copying q.sharedIn toAdd })
  | .copying copyStart toAdd =>
    some ({ q with shared := writeBlock q.shared copyStart w.localQueue }, m,
      { w with localQueue := toAdd.toList, phase := if toAdd.isSome then .looping else .finished })
  | .finished => none

/-- How an `omp for` may share out its turns. -/
def Shares {nt : Nat} (share : Fin nt → List Nat) (turns : List Nat) : Prop :=
  ((List.finRange nt).flatMap share).Perm turns

theorem exists_shares {nt : Nat} (hTeam : 0 < nt) (turns : List Nat) :
    ∃ share : Fin nt → List Nat, Shares share turns := by
  obtain ⟨n, rfl⟩ := Nat.exists_eq_succ_of_ne_zero hTeam.ne'
  refine ⟨Fin.cases turns fun _ => [], ?_⟩
  rw [Shares, List.finRange_succ, List.flatMap_cons, Fin.cases_zero]
  have hRest : ((List.finRange n).map Fin.succ).flatMap
      (Fin.cases turns (fun _ => []) : Fin (n + 1) → List Nat) = [] := by
    rw [List.flatMap_eq_nil_iff]
    intro t ht
    obtain ⟨t', _, rfl⟩ := List.mem_map.mp ht
    rfl
  rw [hRest, List.append_nil]

end Program

section Threads

variable {l : Type*}

namespace Worker

def hold (w : Worker l) : Option (Nat × List Nat) :=
  match w.phase with
  | .copying copyStart _ => some (copyStart, w.localQueue)
  | _ => none

/-- What a thread has pushed and still to bring to the queue. -/
def rest (w : Worker l) : List Nat :=
  match w.phase with
  | .looping => w.localQueue
  | .pushing toAdd => w.localQueue ++ [toAdd]
  | .flushing toAdd => w.localQueue ++ toAdd.toList
  | .copying _ toAdd => toAdd.toList
  | .finished => []

/-- The loop lies behind the thread. -/
def Leaving (w : Worker l) : Prop :=
  w.phase = .flushing none ∨ (∃ copyStart, w.phase = .copying copyStart none) ∨ w.phase = .finished

def LeavesAt (Over : l → Prop) (w : Worker l) : Prop := w.Leaving → Over w.loop

end Worker

def BufferPhase.weight : BufferPhase → Nat
  | .pushing _ => 7
  | .flushing (some _) => 6
  | .copying _ (some _) => 5
  | .looping => 4
  | .flushing none => 2
  | .copying _ none => 1
  | .finished => 0

theorem BufferPhase.weight_le (phase : BufferPhase) : phase.weight ≤ 7 := by
  cases phase with
  | looping | pushing | finished => exact Nat.le_of_ble_eq_true rfl
  | flushing toAdd | copying _ toAdd => cases toAdd <;> exact Nat.le_of_ble_eq_true rfl

def Worker.weight (loopWeight : l → Nat) (w : Worker l) : Nat := 8 * loopWeight w.loop + w.phase.weight

end Threads

section Filling

variable {l σ : Type*} {nt : Nat} {Over : l → Prop} {q₀ q q' : SlidingQueue}
  {workers : Fin nt → Worker l} {pushed : List Nat} {t : Fin nt} {next : Worker l}

/-- All that has been pushed is in the queue, or a thread has it. -/
structure Filling (Over : l → Prop) (q₀ q : SlidingQueue) (workers : Fin nt → Worker l)
    (pushed : List Nat) : Prop where
  outStart : q.outStart = q₀.outStart
  outEnd : q.outEnd = q₀.outEnd
  kept : ∀ c < q₀.sharedIn, q.shared c = q₀.shared c
  queue : ∃ queue, Queued q₀.sharedIn q.sharedIn q.shared (Worker.hold ∘ workers) queue ∧
    Accounts queue (Worker.rest ∘ workers) (pushed.count ·)
  leaves : ∀ t, (workers t).LeavesAt Over

theorem filling_start (q : SlidingQueue) (loops : Fin nt → l) :
    Filling Over q q (fun t => ⟨loops t, [], .looping⟩) [] where
  outStart := rfl
  outEnd := rfl
  kept _ _ := rfl
  queue := by
    refine ⟨[], queued_nil q.sharedIn q.shared, fun a => ?_⟩
    exact Nat.add_eq_zero_iff.mpr ⟨rfl, Finset.sum_eq_zero fun t _ => rfl⟩
  leaves t hLeaving := by
    rcases hLeaving with h | ⟨_, h⟩ | h <;> cases h

theorem forall_update {P : Worker l → Prop} (h : ∀ t, P (workers t)) (hNext : P next) (t' : Fin nt) :
    P (Function.update workers t next t') := by
  obtain rfl | hNe := eq_or_ne t' t
  · rwa [Function.update_self]
  · rw [Function.update_of_ne hNe]
    exact h t'

theorem accounts_push {queue : List Nat} {rest : Fin nt → List Nat}
    (h : Accounts queue rest (pushed.count ·)) (v : Nat) :
    Accounts queue (Function.update rest t (rest t ++ [v])) ((pushed ++ [v]).count ·) := by
  have hFound := h.find (List.perm_append_singleton v (rest t))
  intro a
  rw [hFound a]
  dsimp only
  rw [List.count_append]
  obtain rfl | hNe := eq_or_ne a v
  · rw [Function.update_self, List.count_singleton_self]
  · rw [Function.update_of_ne hNe, List.count_singleton, if_neg (by simpa using hNe.symm), Nat.add_zero]

theorem Filling.push (h : Filling Over q₀ q workers pushed) {push : Option Nat}
    (hOpen : (workers t).phase = .looping) (hLocal : next.localQueue = (workers t).localQueue)
    (hNext : next.phase = push.elim .looping .pushing) :
    Filling Over q₀ q (Function.update workers t next) (pushed ++ push.toList) := by
  obtain ⟨queue, hQueued, hAccounts⟩ := h.queue
  have hHold : next.hold = (workers t).hold := by
    rw [Worker.hold, Worker.hold, hOpen, hNext]
    cases push <;> rfl
  have hRest : next.rest = (workers t).rest ++ push.toList := by
    rw [Worker.rest, Worker.rest, hOpen, hNext, hLocal]
    cases push
    · exact (List.append_nil _).symm
    · rfl
  apply Filling.mk h.outStart h.outEnd h.kept
  · refine ⟨queue, (comp_update_eq Worker.hold workers hHold).symm ▸ hQueued, ?_⟩
    rw [Function.comp_update, hRest]
    cases push with
    | none =>
      rw [Option.toList_none, List.append_nil, List.append_nil, ← Function.comp_apply (f := Worker.rest),
        Function.update_eq_self]
      exact hAccounts
    | some v => exact accounts_push hAccounts v
  · apply forall_update (P := Worker.LeavesAt Over) h.leaves
    intro hLeaving
    rw [Worker.Leaving, hNext] at hLeaving
    cases push <;> simp at hLeaving

theorem Filling.keep (h : Filling Over q₀ q workers pushed) (hHold : next.hold = (workers t).hold)
    (hRest : next.rest = (workers t).rest) (hOver : next.LeavesAt Over) :
    Filling Over q₀ q (Function.update workers t next) pushed where
  outStart := h.outStart
  outEnd := h.outEnd
  kept := h.kept
  queue := by
    rw [comp_update_eq Worker.hold workers hHold, comp_update_eq Worker.rest workers hRest]
    exact h.queue
  leaves := forall_update (P := Worker.LeavesAt Over) h.leaves hOver

theorem Filling.flush (h : Filling Over q₀ q workers pushed) {toAdd : Option Nat}
    (hOpen : (workers t).phase = .flushing toAdd) (hLocal : next.localQueue = (workers t).localQueue)
    (hNext : next.phase = .copying q.sharedIn toAdd) (hOver : next.LeavesAt Over) :
    Filling Over q₀ { q with sharedIn := q.sharedIn + (workers t).localQueue.length }
      (Function.update workers t next) pushed where
  outStart := h.outStart
  outEnd := h.outEnd
  kept := h.kept
  queue := by
    obtain ⟨queue, hQueued, hAccounts⟩ := h.queue
    have hFree : (Worker.hold ∘ workers) t = none := by
      rw [Function.comp_apply, Worker.hold, hOpen]
    have hHold : next.hold = some (q.sharedIn, (workers t).localQueue) := by
      rw [Worker.hold, hNext, hLocal]
    have hSplit : ((Worker.rest ∘ workers) t).Perm ((workers t).localQueue ++ next.rest) := by
      rw [Function.comp_apply, Worker.rest, Worker.rest, hOpen, hNext]
    rw [Function.comp_update, Function.comp_update, hHold]
    exact ⟨_, hQueued.reserve hFree _, hAccounts.reserve hSplit⟩
  leaves := forall_update (P := Worker.LeavesAt Over) h.leaves hOver

theorem Filling.copy (h : Filling Over q₀ q workers pushed) {copyStart : Nat} {toAdd : Option Nat}
    (hOpen : (workers t).phase = .copying copyStart toAdd) (hLocal : next.localQueue = toAdd.toList)
    (hNext : next.phase = if toAdd.isSome then .looping else .finished)
    (hOver : next.LeavesAt Over) :
    Filling Over q₀ { q with shared := writeBlock q.shared copyStart (workers t).localQueue }
      (Function.update workers t next) pushed := by
  obtain ⟨queue, hQueued, hAccounts⟩ := h.queue
  have hHeld : (Worker.hold ∘ workers) t = some (copyStart, (workers t).localQueue) := by
    rw [Function.comp_apply, Worker.hold, hOpen]
  have hHold : next.hold = none := by
    rw [Worker.hold, hNext]
    cases toAdd <;> rfl
  have hRest : next.rest = (workers t).rest := by
    rw [Worker.rest, Worker.rest, hOpen, hNext, hLocal]
    cases toAdd <;> rfl
  constructor
  · exact h.outStart
  · exact h.outEnd
  · intro c hc
    have hBase := (hQueued.held t _ _ hHeld).1
    exact (writeBlock_outside (Or.inl (by omega))).trans (h.kept c hc)
  · rw [Function.comp_update, hHold, comp_update_eq Worker.rest workers hRest]
    exact ⟨queue, hQueued.store hHeld, hAccounts⟩
  · exact forall_update (P := Worker.LeavesAt Over) h.leaves hOver

/-- A step belongs to the loop, or brings a buffer nearer to its last flush. -/
theorem Filling.turn (h : Filling Over q₀ q workers pushed)
    {body : SlidingQueue → σ → l → Option (σ × l × Option Nat)} {m m' : σ}
    (hOver : ∀ loop, body q m loop = none → Over loop)
    (hTurn : workerStep body q m (workers t) = some (q', m', next)) :
    (∃ push, q' = q ∧ body q m (workers t).loop = some (m', next.loop, push) ∧
      Filling Over q₀ q' (Function.update workers t next) (pushed ++ push.toList)) ∨
    (m' = m ∧ next.loop = (workers t).loop ∧ next.phase.weight < (workers t).phase.weight ∧
      Filling Over q₀ q' (Function.update workers t next) pushed) := by
  obtain ⟨phase, hPhase⟩ : ∃ phase, (workers t).phase = phase := ⟨_, rfl⟩
  have hLeft := h.leaves t
  rw [workerStep, hPhase] at hTurn
  cases phase with
  | looping =>
    dsimp only at hTurn
    split at hTurn
    · rename_i m₁ loop toAdd hBody
      cases hTurn
      exact Or.inl ⟨some toAdd, rfl, hBody, h.push hPhase rfl rfl⟩
    · rename_i m₁ loop hBody
      cases hTurn
      exact Or.inl ⟨none, rfl, hBody, h.push hPhase rfl rfl⟩
    · rename_i hBody
      cases hTurn
      refine Or.inr ⟨rfl, rfl, ?_, h.keep ?_ ?_ fun _ => hOver _ hBody⟩
      · rw [hPhase]
        exact Nat.le_of_ble_eq_true rfl
      · rw [Worker.hold, Worker.hold, hPhase]
      · rw [Worker.rest, Worker.rest, hPhase]
        exact List.append_nil _
  | pushing toAdd =>
    dsimp only at hTurn
    split at hTurn
    · cases hTurn
      refine Or.inr ⟨rfl, rfl, ?_, h.keep ?_ ?_ ?_⟩
      · rw [hPhase]
        exact Nat.le_refl 7
      · rw [Worker.hold, Worker.hold, hPhase]
      · rw [Worker.rest, Worker.rest, hPhase]
        rfl
      · simp [Worker.LeavesAt, Worker.Leaving]
    · cases hTurn
      refine Or.inr ⟨rfl, rfl, ?_, h.keep ?_ ?_ ?_⟩
      · rw [hPhase]
        exact Nat.le_of_ble_eq_true rfl
      · rw [Worker.hold, Worker.hold, hPhase]
      · rw [Worker.rest, Worker.rest, hPhase]
      · simp [Worker.LeavesAt, Worker.Leaving]
  | flushing toAdd =>
    cases hTurn
    refine Or.inr ⟨rfl, rfl, ?_, h.flush hPhase rfl rfl ?_⟩
    · rw [hPhase]
      cases toAdd <;> exact Nat.le_of_ble_eq_true rfl
    · rintro (hNo | ⟨_, hLast⟩ | hNo)
      · cases hNo
      · cases hLast
        exact hLeft (Or.inl hPhase)
      · cases hNo
  | copying copyStart toAdd =>
    cases hTurn
    refine Or.inr ⟨rfl, rfl, ?_, h.copy hPhase rfl rfl ?_⟩
    · rw [hPhase]
      cases toAdd <;> exact Nat.le_of_ble_eq_true rfl
    · cases toAdd with
      | none => exact fun _ => hLeft (Or.inr (Or.inl ⟨_, hPhase⟩))
      | some v => simp [Worker.LeavesAt, Worker.Leaving]
  | finished => cases hTurn

theorem exists_workerStep (body : SlidingQueue → σ → l → Option (σ × l × Option Nat))
    (q : SlidingQueue) (m : σ) {w : Worker l} (hOn : w.phase ≠ .finished) : ∃ s, workerStep body q m w = some s := by
  obtain ⟨loop, localQueue, phase⟩ := w
  rw [workerStep]
  cases phase with
  | looping =>
    dsimp only
    split
    · exact ⟨_, rfl⟩
    · exact ⟨_, rfl⟩
    · exact ⟨_, rfl⟩
  | pushing toAdd =>
    dsimp only
    split
    · exact ⟨_, rfl⟩
    · exact ⟨_, rfl⟩
  | flushing | copying => exact ⟨_, rfl⟩
  | finished => exact absurd rfl hOn

/-- All that the threads may ever store lies before `pushed.length` more cells. -/
theorem Filling.sharedIn_le (h : Filling Over q₀ q workers pushed) :
    q.sharedIn ≤ q₀.sharedIn + pushed.length := by
  obtain ⟨queue, hQueued, hAccounts⟩ := h.queue
  have hSub : queue.Subperm pushed := by
    apply List.subperm_ext_iff.mpr
    intro a _
    exact (Nat.le_add_right _ _).trans (hAccounts a).le
  have hLength := hQueued.length
  have hLe := hSub.length_le
  omega

def SlidingQueue.contents (q : SlidingQueue) : List Nat := (List.range q.sharedIn).map q.shared

/-- At the end of the loop the pushed values are behind the others. -/
theorem Filling.cells (h : Filling Over q₀ q workers pushed) (hAll : ∀ t, (workers t).phase = .finished) :
    q₀.sharedIn ≤ q.sharedIn ∧
      ((List.range' q₀.sharedIn (q.sharedIn - q₀.sharedIn)).map q.shared).Perm pushed := by
  obtain ⟨queue, hQueued, hAccounts⟩ := h.queue
  have hHold : ∀ t, (Worker.hold ∘ workers) t = none := fun t => by
    rw [Function.comp_apply, Worker.hold, hAll t]
  have hRest : ∀ t, (Worker.rest ∘ workers) t = [] := fun t => by
    rw [Function.comp_apply, Worker.rest, hAll t]
  rw [hQueued.cells_eq hHold, List.perm_iff_count]
  have hLength := hQueued.length
  exact ⟨by omega, hAccounts.queue_count hRest⟩

theorem Filling.window (h : Filling Over q₀ q workers pushed) (hAll : ∀ t, (workers t).phase = .finished)
    (hWindow : q₀.outEnd = q₀.sharedIn) : q.slideWindow.window.Perm pushed := by
  have hPlaces : q.slideWindow.places = List.range' q₀.sharedIn (q.sharedIn - q₀.sharedIn) := by
    rw [← hWindow, ← h.outEnd]
    rfl
  rw [SlidingQueue.window, hPlaces]
  exact (h.cells hAll).2

theorem Filling.contents (h : Filling Over q₀ q workers pushed)
    (hAll : ∀ t, (workers t).phase = .finished) : q.contents.Perm (q₀.contents ++ pushed) := by
  obtain ⟨hLe, hCells⟩ := h.cells hAll
  have hSplit : List.range q.sharedIn =
      List.range q₀.sharedIn ++ List.range' q₀.sharedIn (q.sharedIn - q₀.sharedIn) := by
    have hAppend := List.range'_append_1 (s := 0) (m := q₀.sharedIn) (n := q.sharedIn - q₀.sharedIn)
    rw [Nat.zero_add, Nat.add_sub_cancel' hLe] at hAppend
    rw [List.range_eq_range', List.range_eq_range', hAppend]
  have hOld : (List.range q₀.sharedIn).map q.shared = q₀.contents :=
    List.map_congr_left fun c hc => h.kept c (List.mem_range.mp hc)
  rw [SlidingQueue.contents, hSplit, List.map_append, hOld]
  exact hCells.append_left _

end Filling

end Trident.Gapbs
