import Mathlib.Data.List.TakeDrop
import Mathlib.Logic.Relation

/-! # Loops over a list that their body changes

The loop keeps the index of the next element. The body sees the elements before
the current one, the current one and those behind it, and gives back the list as
it leaves it; the loop goes on at the next index of that list.
-/

namespace Trident.Cursor

open Relation

variable {α : Type*}

/-- `turns` bounds the number of elements still visited. -/
def loop (body : List α → α → List α → Option (List α)) : Nat → List α → List α → Option (List α)
  | _, front, [] => some front
  | 0, _, _ :: _ => none
  | turns + 1, front, child :: rest =>
    (body front child rest).bind fun main =>
      loop body turns (main.take (front.length + 1)) (main.drop (front.length + 1))

/-- One turn, from the elements passed and those still to come. -/
inductive Turn (body : List α → α → List α → Option (List α)) :
    List α × List α → List α × List α → Prop
  | visit {front : List α} {child : α} {rest main : List α} (hMain : body front child rest = some main) :
      Turn body (front, child :: rest) (main.take (front.length + 1), main.drop (front.length + 1))

variable {body : List α → α → List α → Option (List α)}

theorem reaches_of_loop {turns : Nat} {front rest result : List α}
    (h : loop body turns front rest = some result) :
    ReflTransGen (Turn body) (front, rest) (result, []) := by
  induction turns generalizing front rest with
  | zero =>
    cases rest with
    | nil =>
      obtain rfl := Option.some.inj h
      exact ReflTransGen.refl
    | cons child rest => exact absurd h nofun
  | succ turns ih =>
    cases rest with
    | nil =>
      obtain rfl := Option.some.inj h
      exact ReflTransGen.refl
    | cons child rest =>
      obtain ⟨main, hMain, hRest⟩ := Option.bind_eq_some_iff.mp h
      exact ReflTransGen.head (.visit hMain) (ih hRest)

/-- Where no visit fails and each lowers a potential of what is still to come, a
loop with as many turns as the potential comes to its end. -/
theorem exists_loop (potential : List α → Nat)
    (hVisit : ∀ front child rest, ∃ main, body front child rest = some main ∧
      potential (main.drop (front.length + 1)) < potential (child :: rest))
    {turns : Nat} {front rest : List α} (hTurns : potential rest ≤ turns) :
    ∃ result, loop body turns front rest = some result := by
  induction turns generalizing front rest with
  | zero =>
    cases rest with
    | nil => exact ⟨front, rfl⟩
    | cons child rest =>
      obtain ⟨main, -, hLess⟩ := hVisit front child rest
      exact absurd (Nat.lt_of_lt_of_le hLess hTurns) (Nat.not_lt_zero _)
  | succ turns ih =>
    cases rest with
    | nil => exact ⟨front, rfl⟩
    | cons child rest =>
      obtain ⟨main, hMain, hLess⟩ := hVisit front child rest
      have hRest : potential (main.drop (front.length + 1)) ≤ turns :=
        Nat.le_of_lt_succ (Nat.lt_of_lt_of_le hLess hTurns)
      obtain ⟨result, hResult⟩ := @ih (main.take (front.length + 1)) _ hRest
      exact ⟨result, by rw [loop, hMain, Option.bind_some, hResult]⟩

/-! ## The list around the index -/

section Around

variable (front : List α) (child : α) (rest : List α) (k : Nat)

theorem take_behind :
    (front ++ child :: rest).take (front.length + k + 1) = front ++ child :: rest.take k := by
  rw [Nat.add_assoc, List.take_length_add_append, List.take_succ_cons]

theorem drop_behind : (front ++ child :: rest).drop (front.length + k + 1) = rest.drop k := by
  rw [Nat.add_assoc, List.drop_length_add_append, List.drop_succ_cons]

theorem take_next : (front ++ child :: rest).take (front.length + 1) = front ++ [child] :=
  take_behind front child rest 0

theorem drop_next : (front ++ child :: rest).drop (front.length + 1) = rest :=
  drop_behind front child rest 0

end Around

theorem mem_take_append {A B : List α} {k : Nat} {e : α} (hk : A.length ≤ k) (he : e ∈ A) :
    e ∈ (A ++ B).take k := by
  rw [List.take_append, List.take_of_length_le hk]
  exact List.mem_append_left _ he

/-- An element before the index stays before it when one is inserted. -/
theorem mem_take_insert {A B : List α} {x e : α} {k : Nat} (h : e ∈ (A ++ B).take k) :
    e ∈ (A ++ x :: B).take (k + 1) := by
  rw [List.take_append, List.mem_append] at h ⊢
  rcases h with h | h
  · exact .inl (List.take_subset_take_left A (Nat.le_succ k) h)
  · rcases Nat.lt_or_ge k A.length with hk | hk
    · rw [Nat.sub_eq_zero_of_le (Nat.le_of_lt hk)] at h
      cases h
    · rw [Nat.sub_add_comm hk, List.take_succ_cons]
      exact .inr (List.mem_cons_of_mem x h)

theorem take_take_drop (B X : List α) (b : Nat) :
    B.take b ++ X.take (b - B.length) ++ B.drop b = B ++ X.take (b - B.length) := by
  rcases Nat.le_total b B.length with h | h
  · rw [Nat.sub_eq_zero_of_le h, List.take_zero, List.append_nil, List.append_nil, List.take_append_drop]
  · rw [List.take_of_length_le h, List.drop_eq_nil_of_le h, List.append_nil]

end Trident.Cursor
