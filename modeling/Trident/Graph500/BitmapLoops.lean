import Mathlib.Algebra.Order.BigOperators.Group.Finset
import Trident.Graph500.Search

/-! # Loops that set bits atomically

Every turn is left to some thread, at work in one, or done; what a turn does to its own cell of
`bfs_tree` and which bit it sets does not depend on the other turns.
-/

namespace Trident.Graph500

open Relation Transition BlockQueue

section Facts

variable {nt : Nat}

/-- The thread is at work on the bit of a turn. -/
def BitPhase.At (target : Nat → Option Nat) (turn : Option Nat) : BitPhase → Prop
  | .idle => turn = none
  | .setting pos => ∃ x, turn = some x ∧ target x = some pos
  | .loaded pos _ => ∃ x, turn = some x ∧ target x = some pos

/-- The turns `done` are done and each thread is at work on its turn in `work`. -/
structure BitFacts (final : Nat → Int) (target : Nat → Option Nat) (turns : List Nat) (m₀ m : Memory)
    (threads : Fin nt → BitThread) (done : List Nat) (work : Fin nt → Option Nat) : Prop where
  vlist : m.vlist = m₀.vlist
  k1 : m.k1 = m₀.k1
  k2 : m.k2 = m₀.k2
  past : m.past = m₀.past
  accounts : Accounts done (fun t => (threads t).todo ++ (work t).toList) (turns.count ·)
  atWork : ∀ t, (threads t).phase.At target (work t)
  visited : ∀ x, (x ∈ done ∨ ∃ t, work t = some x) → m.tree x = final x
  untouched : ∀ x, x ∉ done → (∀ t, work t ≠ some x) → m.tree x = m₀.tree x
  bits : ∀ p, bmGetBit m.next p ↔ bmGetBit m₀.next p ∨ ∃ x ∈ done, target x = some p
  count : ∑ t, (threads t).count = (done.filter fun x => (target x).isSome).length

variable {final : Nat → Int} {target : Nat → Option Nat} {turns : List Nat} {m₀ m m' : Memory}
  {threads : Fin nt → BitThread} {done : List Nat} {work : Fin nt → Option Nat} {t : Fin nt}

theorem bitFacts_start {share : Fin nt → List Nat} (hShare : Shares share turns) :
    BitFacts final target turns m₀ m₀ (fun t => ⟨share t, .idle, 0⟩) [] fun _ => none where
  vlist := rfl
  k1 := rfl
  k2 := rfl
  past := rfl
  accounts x := by
    have hCount := hShare.count_eq x
    rw [List.count_flatMap] at hCount
    simp only [Option.toList_none, List.append_nil, List.count_nil, Nat.zero_add]
    rw [← hCount, ← List.sum_toFinset _ (List.nodup_finRange nt), List.toFinset_finRange]
    rfl
  atWork _ := rfl
  visited x hx := by
    rcases hx with hx | ⟨t, ht⟩
    · cases hx
    · cases ht
  untouched _ _ _ := rfl
  bits p := by simp
  count := by simp

theorem BitFacts.fresh (h : BitFacts final target turns m₀ m threads done work) (hNodup : turns.Nodup)
    {x : Nat} (hx : x ∈ (threads t).todo) : x ∉ done ∧ ∀ t', work t' ≠ some x := by
  have hOne : done.count x + ∑ t, ((threads t).todo ++ (work t).toList).count x ≤ 1 :=
    (h.accounts x).trans_le (List.nodup_iff_count_le_one.mp hNodup x)
  have hTodo := List.count_pos_iff.mpr hx
  have hOwn := Finset.single_le_sum
    (fun t _ => Nat.zero_le (((threads t).todo ++ (work t).toList).count x)) (Finset.mem_univ t)
  rw [List.count_append] at hOwn
  constructor
  · intro hDone
    have hPos := List.count_pos_iff.mpr hDone
    omega
  · intro t' hWork
    have hMine : 0 < (work t').toList.count x := by
      rw [hWork]
      simp
    obtain rfl | hNe := eq_or_ne t' t
    · omega
    · have hBoth := Finset.add_le_sum
        (fun t _ => Nat.zero_le (((threads t).todo ++ (work t).toList).count x))
        (Finset.mem_univ t) (Finset.mem_univ t') hNe.symm
      rw [List.count_append, List.count_append] at hBoth
      omega

end Facts

section Steps

variable {nt : Nat} {final : Nat → Int} {target : Nat → Option Nat} {turns : List Nat}
  {m₀ m m' : Memory} {threads threads' : Fin nt → BitThread} {done : List Nat}
  {work : Fin nt → Option Nat} {t : Fin nt} {thread next : BitThread}
  {visit : (Nat → Int) → Nat → (Nat → Int) × Option Nat}

theorem rest_update (threads : Fin nt → BitThread) (work : Fin nt → Option Nat) (t : Fin nt)
    (next : BitThread) (turn : Option Nat) :
    (fun t' => (Function.update threads t next t').todo ++ (Function.update work t turn t').toList) =
      Function.update (fun t' => (threads t').todo ++ (work t').toList) t
        (next.todo ++ turn.toList) := by
  funext t'
  obtain rfl | hNe := eq_or_ne t' t
  · simp only [Function.update_self]
  · simp only [Function.update_of_ne hNe]

theorem atWork_update (h : ∀ t', (threads t').phase.At target (work t')) {turn : Option Nat}
    (hNext : next.phase.At target turn) (t' : Fin nt) :
    (Function.update threads t next t').phase.At target (Function.update work t turn t') := by
  obtain rfl | hNe := eq_or_ne t' t
  · rw [Function.update_self, Function.update_self]
    exact hNext
  · rw [Function.update_of_ne hNe, Function.update_of_ne hNe]
    exact h t'

/-- What a loop does in a turn whose cell is as it was. -/
def Visits (visit : (Nat → Int) → Nat → (Nat → Int) × Option Nat) (m₀ : Memory) (final : Nat → Int)
    (target : Nat → Option Nat) : Prop :=
  ∀ tree x, tree x = m₀.tree x → visit tree x = (Function.update tree x (final x), target x)

theorem BitFacts.pass (h : BitFacts final target turns m₀ m threads done work) (hNodup : turns.Nodup)
    {x : Nat} {todo : List Nat} {count : Nat} (hThread : threads t = ⟨x :: todo, .idle, count⟩)
    (hNone : target x = none) :
    BitFacts final target turns m₀ { m with tree := Function.update m.tree x (final x) }
      (Function.update threads t ⟨todo, .idle, count⟩) (done ++ [x]) work := by
  have hIdle : work t = none := by
    have hAt := h.atWork t
    rwa [hThread] at hAt
  have hWork : work = Function.update work t none := by
    rw [← hIdle, Function.update_eq_self]
  obtain ⟨_, hFree⟩ := h.fresh hNodup (t := t) (x := x) (by rw [hThread]; exact List.mem_cons_self)
  constructor
  case vlist => exact h.vlist
  case k1 => exact h.k1
  case k2 => exact h.k2
  case past => exact h.past
  case accounts =>
    rw [hWork, rest_update]
    refine h.accounts.reserve ?_
    rw [hThread, hIdle, Option.toList_none, List.append_nil, List.append_nil]
    exact List.Perm.refl _
  case atWork =>
    rw [hWork]
    exact atWork_update h.atWork rfl
  case visited =>
    intro y hy
    obtain rfl | hNe := eq_or_ne y x
    · exact Function.update_self ..
    · simp only [Function.update_of_ne hNe]
      refine h.visited y (hy.imp_left fun hIn => ?_)
      simpa [hNe] using hIn
  case untouched =>
    intro y hy hOther
    rw [List.mem_append, List.mem_singleton, not_or] at hy
    simp only [Function.update_of_ne hy.2]
    exact h.untouched y hy.1 hOther
  case bits =>
    intro p
    rw [h.bits p]
    refine or_congr_right ⟨fun ⟨y, hy, hp⟩ => ⟨y, List.mem_append_left _ hy, hp⟩, fun ⟨y, hy, hp⟩ => ?_⟩
    rcases List.mem_append.mp hy with hOld | hNew
    · exact ⟨y, hOld, hp⟩
    · rw [List.mem_singleton.mp hNew, hNone] at hp
      cases hp
  case count =>
    have hSum := sum_update_add BitThread.count threads t ⟨todo, .idle, count⟩
    rw [hThread] at hSum
    rw [List.filter_append, List.length_append, ← h.count]
    simp only [List.filter_cons, hNone, Option.isSome_none, List.filter_nil, Bool.false_eq_true,
      if_false, List.length_nil]
    exact Nat.add_right_cancel hSum

theorem BitFacts.take (h : BitFacts final target turns m₀ m threads done work)
    {x pos : Nat} {todo : List Nat} {count : Nat} (hThread : threads t = ⟨x :: todo, .idle, count⟩)
    (hSome : target x = some pos) :
    BitFacts final target turns m₀ { m with tree := Function.update m.tree x (final x) }
      (Function.update threads t ⟨todo, .setting pos, count⟩) done
      (Function.update work t (some x)) := by
  have hIdle : work t = none := by
    have hAt := h.atWork t
    rwa [hThread] at hAt
  have hKept : ∀ t' y, work t' = some y → Function.update work t (some x) t' = some y := by
    intro t' y hWork
    rwa [Function.update_of_ne]
    rintro rfl
    rw [hIdle] at hWork
    cases hWork
  constructor
  case vlist => exact h.vlist
  case k1 => exact h.k1
  case k2 => exact h.k2
  case past => exact h.past
  case accounts =>
    rw [rest_update, ← List.append_nil done]
    refine h.accounts.reserve ?_
    rw [hThread, hIdle, Option.toList_none, List.append_nil, Option.toList_some]
    exact (List.perm_append_singleton x todo).symm
  case atWork => exact atWork_update h.atWork ⟨x, rfl, hSome⟩
  case visited =>
    intro y hy
    obtain rfl | hNe := eq_or_ne y x
    · exact Function.update_self ..
    · simp only [Function.update_of_ne hNe]
      refine h.visited y (hy.imp_right fun ⟨t', ht'⟩ => ⟨t', ?_⟩)
      obtain rfl | hNe' := eq_or_ne t' t
      · rw [Function.update_self, Option.some_inj] at ht'
        exact absurd ht'.symm hNe
      · rwa [Function.update_of_ne hNe'] at ht'
  case untouched =>
    intro y hy hOther
    have hNe : y ≠ x := by
      rintro rfl
      exact hOther t (Function.update_self ..)
    simp only [Function.update_of_ne hNe]
    exact h.untouched y hy fun t' hWork => hOther t' (hKept t' y hWork)
  case bits => exact h.bits
  case count =>
    have hSum := sum_update_add BitThread.count threads t ⟨todo, .setting pos, count⟩
    rw [hThread] at hSum
    rw [← h.count]
    exact Nat.add_right_cancel hSum

theorem BitFacts.stay (h : BitFacts final target turns m₀ m threads done work)
    (hThread : threads t = thread) (hTodo : next.todo = thread.todo) (hCount : next.count = thread.count)
    (hAt : next.phase.At target (work t)) :
    BitFacts final target turns m₀ m (Function.update threads t next) done work := by
  have hWork : work = Function.update work t (work t) := (Function.update_eq_self t work).symm
  refine ⟨h.vlist, h.k1, h.k2, h.past, ?_, ?_, h.visited, h.untouched, h.bits, ?_⟩
  · have hRest : (fun t' => (Function.update threads t next t').todo ++ (work t').toList) =
        fun t' => (threads t').todo ++ (work t').toList := by
      conv_lhs => rw [hWork]
      rw [rest_update, hTodo, ← hThread]
      exact Function.update_eq_self ..
    rw [hRest]
    exact h.accounts
  · rw [hWork]
    exact atWork_update h.atWork hAt
  · have hSum := sum_update_add BitThread.count threads t next
    rw [hThread, hCount] at hSum
    rw [← h.count]
    exact Nat.add_right_cancel hSum

theorem BitFacts.swap (h : BitFacts final target turns m₀ m threads done work) {pos : Nat}
    {todo : List Nat} {old : BitVec 64} {count : Nat} (hThread : threads t = ⟨todo, .loaded pos old, count⟩) :
    ∃ x, BitFacts final target turns m₀ { m with next := bmSetBit m.next pos }
      (Function.update threads t ⟨todo, .idle, count + 1⟩) (done ++ [x])
      (Function.update work t none) := by
  obtain ⟨x, hTurn, hSome⟩ : ∃ x, work t = some x ∧ target x = some pos := by
    have hAt := h.atWork t
    rwa [hThread] at hAt
  have hBefore : ∀ t' y, Function.update work t none t' = some y → work t' = some y := by
    intro t' y hWork
    rwa [Function.update_of_ne] at hWork
    rintro rfl
    rw [Function.update_self] at hWork
    cases hWork
  refine ⟨x, ?_⟩
  constructor
  case vlist => exact h.vlist
  case k1 => exact h.k1
  case k2 => exact h.k2
  case past => exact h.past
  case accounts =>
    rw [rest_update]
    refine h.accounts.reserve ?_
    rw [hThread, hTurn, Option.toList_none, List.append_nil, Option.toList_some]
    exact List.perm_append_singleton x todo
  case atWork => exact atWork_update h.atWork rfl
  case visited =>
    rintro y (hy | ⟨t', ht'⟩)
    · rcases List.mem_append.mp hy with hOld | hNew
      · exact h.visited y (Or.inl hOld)
      · exact h.visited y (Or.inr ⟨t, by rw [hTurn, List.mem_singleton.mp hNew]⟩)
    · exact h.visited y (Or.inr ⟨t', hBefore t' y ht'⟩)
  case untouched =>
    intro y hy hOther
    rw [List.mem_append, List.mem_singleton, not_or] at hy
    refine h.untouched y hy.1 fun t' hWork => ?_
    obtain rfl | hNe := eq_or_ne t' t
    · rw [hTurn, Option.some_inj] at hWork
      exact hy.2 hWork.symm
    · exact hOther t' (by rwa [Function.update_of_ne hNe])
  case bits =>
    intro p
    rw [bmGetBit_setBit, h.bits p]
    constructor
    · rintro (rfl | hOld | ⟨y, hy, hp⟩)
      · exact Or.inr ⟨x, List.mem_append_right _ (List.mem_singleton_self x), hSome⟩
      · exact Or.inl hOld
      · exact Or.inr ⟨y, List.mem_append_left _ hy, hp⟩
    · rintro (hOld | ⟨y, hy, hp⟩)
      · exact Or.inr (Or.inl hOld)
      · rcases List.mem_append.mp hy with hIn | hNew
        · exact Or.inr (Or.inr ⟨y, hIn, hp⟩)
        · rw [List.mem_singleton.mp hNew, hSome, Option.some_inj] at hp
          exact Or.inl hp.symm
  case count =>
    have hSum := sum_update_add BitThread.count threads t ⟨todo, .idle, count + 1⟩
    rw [hThread] at hSum
    rw [List.filter_append, List.length_append, ← h.count]
    simp only [List.filter_cons, hSome, Option.isSome_some, List.filter_nil, if_true, List.length_cons,
      List.length_nil]
    dsimp only at hSum
    omega

def BitInv (final : Nat → Int) (target : Nat → Option Nat) (turns : List Nat) (m₀ m : Memory)
    (threads : Fin nt → BitThread) : Prop :=
  ∃ done work, BitFacts final target turns m₀ m threads done work

theorem BitInv.vlist (h : BitInv final target turns m₀ m threads) : m.vlist = m₀.vlist := by
  obtain ⟨_, _, h⟩ := h
  exact h.vlist

theorem BitInv.past (h : BitInv final target turns m₀ m threads) : m.past = m₀.past := by
  obtain ⟨_, _, h⟩ := h
  exact h.past

theorem BitInv.step (h : BitInv final target turns m₀ m threads) (hNodup : turns.Nodup)
    (hVisits : Visits visit m₀ final target)
    (hTurn : Interleave (BitStep visit) (m, threads) (m', threads')) :
    BitInv final target turns m₀ m' threads' := by
  obtain ⟨done, work, h⟩ := h
  obtain ⟨t, next, hStep, rfl⟩ := hTurn
  obtain ⟨thread, hThread⟩ : ∃ thread, threads t = thread := ⟨_, rfl⟩
  have hStep : BitStep visit m thread m' next := hThread ▸ hStep
  have hVisit : ∀ x ∈ (threads t).todo, visit m.tree x = (Function.update m.tree x (final x), target x) :=
    fun x hx => by
      obtain ⟨hOut, hFree⟩ := h.fresh hNodup hx
      exact hVisits m.tree x (h.untouched x hOut hFree)
  rw [hThread] at hVisit
  have hAt := h.atWork t
  rw [hThread] at hAt
  cases hStep with
  | pass x todo count tree hOwn =>
    rw [hVisit x List.mem_cons_self, Prod.mk.injEq] at hOwn
    obtain ⟨rfl, hNone⟩ := hOwn
    exact ⟨_, _, h.pass hNodup hThread hNone⟩
  | take x todo count tree pos hOwn =>
    rw [hVisit x List.mem_cons_self, Prod.mk.injEq] at hOwn
    obtain ⟨rfl, hSome⟩ := hOwn
    exact ⟨_, _, h.take hThread hSome⟩
  | load todo pos count => exact ⟨done, work, h.stay hThread rfl rfl hAt⟩
  | swap todo pos count =>
    obtain ⟨x, hNext⟩ := h.swap hThread
    exact ⟨_, _, hNext⟩
  | retry todo pos old count => exact ⟨done, work, h.stay hThread rfl rfl hAt⟩

theorem bitInv_start {share : Fin nt → List Nat} (hShare : Shares share turns) :
    BitInv final target turns m₀ m₀ fun t => ⟨share t, .idle, 0⟩ := ⟨_, _, bitFacts_start hShare⟩

theorem BitInv.finished (h : BitInv final target turns m₀ m threads)
    (hDone : ∀ t, (threads t).todo = [] ∧ (threads t).phase = .idle) :
    (∀ x ∈ turns, m.tree x = final x) ∧ (∀ x, x ∉ turns → m.tree x = m₀.tree x) ∧
      (∀ p, bmGetBit m.next p ↔ bmGetBit m₀.next p ∨ ∃ x ∈ turns, target x = some p) ∧
      ∑ t, (threads t).count = (turns.filter fun x => (target x).isSome).length := by
  obtain ⟨done, work, h⟩ := h
  have hIdle : ∀ t, work t = none := fun t => by
    have hAt := h.atWork t
    rwa [(hDone t).2] at hAt
  have hPerm : done.Perm turns := by
    refine List.perm_iff_count.mpr fun x => h.accounts.queue_count (fun t => ?_) x
    rw [(hDone t).1, hIdle t]
    rfl
  refine ⟨fun x hx => h.visited x (Or.inl (hPerm.mem_iff.mpr hx)), fun x hx => ?_, fun p => ?_, ?_⟩
  · refine h.untouched x (fun hIn => hx (hPerm.mem_iff.mp hIn)) fun t ht => ?_
    rw [hIdle t] at ht
    cases ht
  · simp only [h.bits p, hPerm.mem_iff]
  · rw [h.count]
    exact (hPerm.filter _).length_eq

theorem exists_bitStep {t : Fin nt} (hOn : ¬ ((threads t).todo = [] ∧ (threads t).phase = .idle)) :
    ∃ s, Interleave (BitStep visit) (m, threads) s := by
  suffices hStep : ∃ m' next, BitStep visit m (threads t) m' next by
    obtain ⟨m', next, hStep⟩ := hStep
    exact ⟨(m', Function.update threads t next), t, next, hStep, rfl⟩
  obtain ⟨thread, hThread⟩ : ∃ thread, threads t = thread := ⟨_, rfl⟩
  rw [hThread] at hOn ⊢
  obtain ⟨todo, phase, count⟩ := thread
  cases phase with
  | idle =>
    cases todo with
    | nil => exact absurd ⟨rfl, rfl⟩ hOn
    | cons x todo =>
      obtain ⟨⟨tree, own⟩, hVisit⟩ : ∃ result, visit m.tree x = result := ⟨_, rfl⟩
      cases own with
      | none => exact ⟨_, _, .pass m x todo count tree hVisit⟩
      | some pos => exact ⟨_, _, .take m x todo count tree pos hVisit⟩
  | setting pos => exact ⟨_, _, .load m todo pos count⟩
  | loaded pos old =>
    obtain rfl | hNe := eq_or_ne old (m.next (wordOffset pos))
    · exact ⟨_, _, .swap m todo pos count⟩
    · exact ⟨_, _, .retry m todo pos old count hNe.symm⟩

end Steps

section Termination

variable {nt : Nat} {m m' : Memory} {threads threads' : Fin nt → BitThread}
  {visit : (Nat → Int) → Nat → (Nat → Int) × Option Nat}

def BitPhase.weight (nt : Nat) (bm : Bitmap) : BitPhase → Nat
  | .idle => 0
  | .setting _ => 2 * nt + 2
  | .loaded pos old => if bm (wordOffset pos) = old then 2 * nt + 1 else 2 * nt + 3

/-- A swap may send every other thread back once. -/
def BitThread.weight (nt : Nat) (bm : Bitmap) (thread : BitThread) : Nat :=
  thread.todo.length * (2 * nt + 4) + thread.phase.weight nt bm

theorem BitThread.weight_le (nt : Nat) (bm bm' : Bitmap) (thread : BitThread) :
    thread.weight nt bm' ≤ thread.weight nt bm + 2 := by
  rw [weight, weight]
  cases thread.phase with
  | idle | setting pos => exact Nat.le_add_right _ 2
  | loaded pos old =>
    simp only [BitPhase.weight]
    split <;> split <;> omega

theorem sum_bitWeight_le (bm bm' : Bitmap) (threads : Fin nt → BitThread) :
    ∑ t, (threads t).weight nt bm' ≤ ∑ t, (threads t).weight nt bm + 2 * nt := by
  have hEach : ∑ t, (threads t).weight nt bm' ≤ ∑ t, ((threads t).weight nt bm + 2) :=
    Finset.sum_le_sum fun t _ => (threads t).weight_le nt bm bm'
  rwa [Finset.sum_add_distrib, Finset.sum_const, Finset.card_univ, Fintype.card_fin, nsmul_eq_mul,
    Nat.mul_comm] at hEach

theorem bitStep_weight_lt (hTurn : Interleave (BitStep visit) (m, threads) (m', threads')) :
    ∑ t, (threads' t).weight nt m'.next < ∑ t, (threads t).weight nt m.next := by
  obtain ⟨t, next, hStep, rfl⟩ := hTurn
  obtain ⟨thread, hThread⟩ : ∃ thread, threads t = thread := ⟨_, rfl⟩
  have hStep : BitStep visit m thread m' next := hThread ▸ hStep
  cases hStep with
  | pass x todo count tree =>
    refine sum_update_lt (BitThread.weight nt m.next) threads ?_
    simp only [hThread, BitThread.weight, List.length_cons, Nat.succ_mul, BitPhase.weight]
    omega
  | take x todo count tree pos =>
    refine sum_update_lt (BitThread.weight nt m.next) threads ?_
    simp only [hThread, BitThread.weight, List.length_cons, Nat.succ_mul, BitPhase.weight]
    omega
  | load todo pos count =>
    refine sum_update_lt (BitThread.weight nt m.next) threads ?_
    simp only [hThread, BitThread.weight, BitPhase.weight, if_true]
    omega
  | swap todo pos count =>
    have hSum := sum_update_add (BitThread.weight nt m.next) threads t ⟨todo, .idle, count + 1⟩
    have hLe := sum_bitWeight_le m.next (bmSetBit m.next pos)
      (Function.update threads t ⟨todo, .idle, count + 1⟩)
    have hOld : (threads t).weight nt m.next = todo.length * (2 * nt + 4) + (2 * nt + 1) := by
      simp only [hThread, BitThread.weight, BitPhase.weight, if_true]
    have hNew : BitThread.weight nt m.next ⟨todo, .idle, count + 1⟩ =
        todo.length * (2 * nt + 4) := rfl
    rw [hOld, hNew] at hSum
    dsimp only
    omega
  | retry todo pos old count hNe =>
    refine sum_update_lt (BitThread.weight nt m.next) threads ?_
    simp only [hThread, BitThread.weight, BitPhase.weight, if_neg hNe]
    omega

end Termination

section Loops

variable {g : Csr} {m₀ m : Memory}

theorem fillVisit_visits (vlist : Nat → Nat) (m₀ : Memory) :
    Visits (fillVisit vlist) m₀ m₀.tree fun q => some (vlist q) := by
  intro tree x hx
  rw [fillVisit, ← hx, Function.update_eq_self]

/-- The parent that the loop of `bfs_bottom_up_step` leaves for a vertex. -/
def bottomUpParent (g : Csr) (past : Bitmap) (tree : Nat → Int) (i : Nat) : Int :=
  if tree i = -1 then
    match (g.neighbours i).find? fun j => bmGetBit past j with
    | some j => j
    | none => -1
  else tree i

/-- The bit that it sets. -/
def bottomUpTarget (g : Csr) (past : Bitmap) (tree : Nat → Int) (i : Nat) : Option Nat :=
  if tree i = -1 then ((g.neighbours i).find? fun j => bmGetBit past j).map fun _ => i else none

theorem bottomUpVisit_visits (g : Csr) (past : Bitmap) (m₀ : Memory) :
    Visits (bottomUpVisit g past) m₀ (bottomUpParent g past m₀.tree) (bottomUpTarget g past m₀.tree) := by
  intro tree x hx
  rw [bottomUpVisit, bottomUpParent, bottomUpTarget, ← hx]
  split
  · rename_i hFree
    cases (g.neighbours x).find? fun j => bmGetBit past j with
    | none => simp only [Option.map_none, ← hFree, Function.update_eq_self]
    | some j => rfl
  · rw [Function.update_eq_self]

theorem bottomUpTarget_eq_some {past : Bitmap} {tree : Nat → Int} {i p : Nat} :
    bottomUpTarget g past tree i = some p ↔
      i = p ∧ tree i = -1 ∧ ∃ j ∈ g.neighbours i, bmGetBit past j := by
  rw [bottomUpTarget]
  split
  · rename_i hFree
    rw [Option.map_eq_some_iff]
    constructor
    · rintro ⟨j, hFind, hp⟩
      exact ⟨hp, hFree, j, List.mem_of_find?_eq_some hFind, by simpa using List.find?_some hFind⟩
    · rintro ⟨hp, _, j, hj, hBit⟩
      have hSome : ((g.neighbours i).find? fun j => bmGetBit past j).isSome :=
        List.find?_isSome.mpr ⟨j, hj, by simpa using hBit⟩
      obtain ⟨j', hFind⟩ := Option.isSome_iff_exists.mp hSome
      exact ⟨j', hFind, hp⟩
  · rename_i hTaken
    simp [hTaken]

theorem bottomUpParent_cases (g : Csr) (past : Bitmap) (tree : Nat → Int) (i : Nat) :
    (bottomUpParent g past tree i = tree i ∧
      (tree i = -1 → ∀ j ∈ g.neighbours i, ¬ bmGetBit past j)) ∨
    (tree i = -1 ∧ ∃ j : Nat, bottomUpParent g past tree i = j ∧ j ∈ g.neighbours i ∧ bmGetBit past j) := by
  rw [bottomUpParent]
  split
  · rename_i hFree
    cases hFind : (g.neighbours i).find? fun j => bmGetBit past j with
    | none =>
      refine Or.inl ⟨hFree.symm, fun _ j hj hBit => ?_⟩
      have hNone := List.find?_eq_none.mp hFind j hj
      exact hNone (by simpa using hBit)
    | some j =>
      exact Or.inr ⟨hFree, j, rfl, List.mem_of_find?_eq_some hFind, by simpa using List.find?_some hFind⟩
  · rename_i hTaken
    exact Or.inl ⟨rfl, fun hFree => absurd hFree hTaken⟩

end Loops

end Trident.Graph500
