import Trident.Lib.Transition

/-! # A queue that threads fill in blocks

A thread reserves a block of cells by a fetch-and-add on the end of the queue and stores into it
later. The queue is what the cells will hold once all blocks are stored.
-/

namespace Trident.BlockQueue

open Transition

variable {ι α : Type*}

section Blocks

def writeBlock (cells : Nat → α) (start : Nat) (block : List α) (c : Nat) : α :=
  if start ≤ c then (block[c - start]?).getD (cells c) else cells c

theorem writeBlock_inside {cells : Nat → α} {start c : Nat} {block : List α} (hLow : start ≤ c)
    (hHigh : c < start + block.length) : block[c - start]? = some (writeBlock cells start block c) := by
  have hIn : c - start < block.length := by omega
  rw [writeBlock, if_pos hLow, List.getElem?_eq_getElem hIn, Option.getD_some]

theorem writeBlock_outside {cells : Nat → α} {start c : Nat} {block : List α}
    (h : c < start ∨ start + block.length ≤ c) : writeBlock cells start block c = cells c := by
  rw [writeBlock]
  split
  · rw [List.getElem?_eq_none (by omega)]
    rfl
  · rfl

theorem writeBlock_singleton (cells : Nat → α) (start : Nat) (a : α) :
    writeBlock cells start [a] = Function.update cells start a := by
  funext c
  obtain rfl | hNe := eq_or_ne c start
  · rw [writeBlock, if_pos le_rfl, Nat.sub_self, Function.update_self]
    rfl
  · rw [Function.update_of_ne hNe]
    apply writeBlock_outside
    rw [List.length_singleton]
    omega

theorem map_writeBlock (cells : Nat → α) (start : Nat) (block : List α) :
    (List.range' start block.length).map (writeBlock cells start block) = block := by
  refine List.ext_getElem (by rw [List.length_map, List.length_range']) fun k _ hk => ?_
  have hInside : block[start + k - start]? = some (writeBlock cells start block (start + k)) :=
    writeBlock_inside (Nat.le_add_right start k) (Nat.add_lt_add_left hk start)
  rw [Nat.add_sub_cancel_left, List.getElem?_eq_getElem hk, Option.some_inj] at hInside
  rw [List.getElem_map, List.getElem_range', Nat.one_mul, hInside]

end Blocks

section Queue

variable {base top start : Nat} {cells : Nat → α} {hold : ι → Option (Nat × List α)}
  {queue block : List α} {t : ι}

def Outside (hold : ι → Option (Nat × List α)) (c : Nat) : Prop :=
  ∀ t start block, hold t = some (start, block) → c < start ∨ start + block.length ≤ c

structure Queued (base top : Nat) (cells : Nat → α) (hold : ι → Option (Nat × List α))
    (queue : List α) : Prop where
  length : base + queue.length = top
  stored : ∀ c, base ≤ c → c < top → Outside hold c → queue[c - base]? = some (cells c)
  held : ∀ t start block, hold t = some (start, block) → base ≤ start ∧ start + block.length ≤ top ∧
    ∀ c, start ≤ c → c < start + block.length → queue[c - base]? = block[c - start]?
  apart : ∀ t t' start start' block block', t ≠ t' → hold t = some (start, block) →
    hold t' = some (start', block') → start + block.length ≤ start' ∨ start' + block'.length ≤ start

theorem queued_nil (base : Nat) (cells : Nat → α) :
    Queued base base cells (fun _ : ι => none) [] where
  length := rfl
  stored c hLow hHigh := by omega
  held _ _ _ hHeld := by cases hHeld
  apart _ _ _ _ _ _ _ hHeld := by cases hHeld

/-- When every block is stored, the cells hold the queue. -/
theorem Queued.cells_eq (h : Queued base top cells hold queue) (hAll : ∀ t, hold t = none) :
    (List.range' base (top - base)).map cells = queue := by
  have hOutside : ∀ c, Outside hold c := fun c t start block hHeld => by
    rw [hAll t] at hHeld
    cases hHeld
  have hLength := h.length
  refine List.ext_getElem? fun n => ?_
  rw [List.getElem?_map]
  cases Nat.lt_or_ge n queue.length with
  | inl hLt =>
    have hStored := h.stored (base + n) (by omega) (by omega) (hOutside _)
    rw [Nat.add_sub_cancel_left] at hStored
    rw [hStored, List.getElem?_range' (by omega), Nat.one_mul]
    rfl
  | inr hGe =>
    rw [List.getElem?_eq_none hGe, List.getElem?_eq_none (by rw [List.length_range']; omega)]
    rfl

theorem Queued.congr (h : Queued base top cells hold queue) {cells' : Nat → α}
    (hCells : ∀ c, base ≤ c → c < top → cells' c = cells c) : Queued base top cells' hold queue where
  length := h.length
  stored c hLow hHigh hOutside := by
    rw [hCells c hLow hHigh]
    exact h.stored c hLow hHigh hOutside
  held := h.held
  apart := h.apart

variable [DecidableEq ι]

theorem Queued.reserve (h : Queued base top cells hold queue) (hFree : hold t = none) (block : List α) :
    Queued base (top + block.length) cells (Function.update hold t (some (top, block)))
      (queue ++ block) := by
  have hLength := h.length
  have hOther : ∀ t' start' block', Function.update hold t (some (top, block)) t' =
      some (start', block') → (t' = t ∧ start' = top ∧ block' = block) ∨
      (t' ≠ t ∧ hold t' = some (start', block')) := by
    intro t' start' block' hHeld
    obtain rfl | hNe := eq_or_ne t' t
    · rw [Function.update_self, Option.some_inj, Prod.mk.injEq] at hHeld
      exact Or.inl ⟨rfl, hHeld.1.symm, hHeld.2.symm⟩
    · rw [Function.update_of_ne hNe] at hHeld
      exact Or.inr ⟨hNe, hHeld⟩
  constructor
  · rw [List.length_append]
    omega
  · intro c hLow hHigh hOutside
    cases Nat.lt_or_ge c top with
    | inl hLt =>
      rw [List.getElem?_append_left (by omega)]
      refine h.stored c hLow hLt fun t' start' block' hHeld => hOutside t' start' block' ?_
      rw [Function.update_of_ne, hHeld]
      rintro rfl
      rw [hFree] at hHeld
      cases hHeld
    | inr hGe =>
      have hBlock := hOutside t top block (Function.update_self ..)
      omega
  · intro t' start' block' hHeld
    rcases hOther t' start' block' hHeld with ⟨rfl, rfl, rfl⟩ | ⟨_, hOld⟩
    · refine ⟨by omega, Nat.le_refl _, fun c hLow hHigh => ?_⟩
      rw [List.getElem?_append_right (by omega)]
      congr 1
      omega
    · obtain ⟨hStart, hEnd, hQueue⟩ := h.held t' start' block' hOld
      refine ⟨hStart, by omega, fun c hLow hHigh => ?_⟩
      rw [List.getElem?_append_left (by omega)]
      exact hQueue c hLow hHigh
  · intro t₁ t₂ start₁ start₂ block₁ block₂ hNe h₁ h₂
    rcases hOther t₁ start₁ block₁ h₁ with ⟨rfl, rfl, rfl⟩ | ⟨_, hOld₁⟩
    · rcases hOther t₂ start₂ block₂ h₂ with ⟨rfl, _, _⟩ | ⟨_, hOld₂⟩
      · exact absurd rfl hNe
      · exact Or.inr (h.held t₂ start₂ block₂ hOld₂).2.1
    · rcases hOther t₂ start₂ block₂ h₂ with ⟨_, rfl, _⟩ | ⟨_, hOld₂⟩
      · exact Or.inl (h.held t₁ start₁ block₁ hOld₁).2.1
      · exact h.apart t₁ t₂ start₁ start₂ block₁ block₂ hNe hOld₁ hOld₂

theorem Queued.store (h : Queued base top cells hold queue) (hHeld : hold t = some (start, block)) :
    Queued base top (writeBlock cells start block) (Function.update hold t none) queue := by
  obtain ⟨hStart, hEnd, hQueue⟩ := h.held t start block hHeld
  have hOld : ∀ t' start' block', Function.update hold t none t' = some (start', block') →
      hold t' = some (start', block') := by
    intro t' start' block' hHeld'
    rwa [Function.update_of_ne] at hHeld'
    rintro rfl
    rw [Function.update_self] at hHeld'
    cases hHeld'
  constructor
  · exact h.length
  · intro c hLow hHigh hOutside
    rcases Nat.lt_or_ge c start with hBefore | hFrom
    · rw [writeBlock_outside (Or.inl hBefore)]
      refine h.stored c hLow hHigh fun t' start' block' hHeld' => ?_
      obtain rfl | hNe := eq_or_ne t' t
      · rw [hHeld, Option.some_inj, Prod.mk.injEq] at hHeld'
        omega
      · exact hOutside t' start' block' (by rw [Function.update_of_ne hNe, hHeld'])
    · rcases Nat.lt_or_ge c (start + block.length) with hIn | hBehind
      · rw [hQueue c hFrom hIn]
        exact writeBlock_inside hFrom hIn
      · rw [writeBlock_outside (Or.inr hBehind)]
        refine h.stored c hLow hHigh fun t' start' block' hHeld' => ?_
        obtain rfl | hNe := eq_or_ne t' t
        · rw [hHeld, Option.some_inj, Prod.mk.injEq] at hHeld'
          obtain ⟨rfl, rfl⟩ := hHeld'
          exact Or.inr hBehind
        · exact hOutside t' start' block' (by rw [Function.update_of_ne hNe, hHeld'])
  · exact fun t' start' block' hHeld' => h.held t' start' block' (hOld t' start' block' hHeld')
  · exact fun t₁ t₂ start₁ start₂ block₁ block₂ hNe h₁ h₂ =>
      h.apart t₁ t₂ start₁ start₂ block₁ block₂ hNe (hOld t₁ _ _ h₁) (hOld t₂ _ _ h₂)

end Queue

section Accounts

variable [Fintype ι] [DecidableEq α] {queue block : List α} {rest : ι → List α}
  {target : α → Nat} {t : ι}

/-- What is in the queue or still in the hands of a thread, counted together. -/
def Accounts (queue : List α) (rest : ι → List α) (target : α → Nat) : Prop :=
  ∀ a, queue.count a + ∑ t, (rest t).count a = target a

theorem Accounts.queue_count (h : Accounts queue rest target) (hAll : ∀ t, rest t = []) (a : α) :
    queue.count a = target a := by
  have hNone : ∑ t, (rest t).count a = 0 := Finset.sum_eq_zero fun t _ => by rw [hAll t]; rfl
  have hEq := h a
  rwa [hNone, Nat.add_zero] at hEq

variable [DecidableEq ι]

theorem Accounts.reserve (h : Accounts queue rest target) {left : List α}
    (hSplit : (rest t).Perm (block ++ left)) :
    Accounts (queue ++ block) (Function.update rest t left) target := by
  intro a
  have hSum := sum_update_add (List.count a) rest t left
  rw [hSplit.count_eq, List.count_append] at hSum
  rw [List.count_append, ← h a]
  omega

theorem Accounts.find (h : Accounts queue rest target) {more : List α} {a : α}
    (hMore : more.Perm (a :: rest t)) :
    Accounts queue (Function.update rest t more) (Function.update target a (target a + 1)) := by
  intro b
  have hSum := sum_update_add (List.count b) rest t more
  rw [hMore.count_eq, List.count_cons] at hSum
  have hOld := h b
  obtain rfl | hNe := eq_or_ne b a
  · rw [beq_self_eq_true, if_pos rfl] at hSum
    rw [Function.update_self]
    omega
  · rw [if_neg (by simpa using hNe.symm)] at hSum
    rw [Function.update_of_ne hNe]
    omega

end Accounts

end Trident.BlockQueue
