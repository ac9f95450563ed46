import Mathlib.Data.List.Basic

/-! # Rows that expand into rows

A level of a tree read from left to right is a row. Each of its symbols expands
into a piece of the level below; the pieces stand in the order of the symbols.
-/

namespace Trident.Expansion

variable {α β : Type*}

inductive Expands (E : α → List β → Prop) : List α → List β → Prop
  | nil : Expands E [] []
  | cons {a : α} {w : List β} {l : List α} {r : List β} :
      E a w → Expands E l r → Expands E (a :: l) (w ++ r)

variable {E E' : α → List β → Prop}

namespace Expands

theorem nil_inv {r : List β} (h : Expands E [] r) : r = [] := by
  cases h
  rfl

theorem cons_inv {a : α} {l : List α} {r : List β} (h : Expands E (a :: l) r) :
    ∃ w r', r = w ++ r' ∧ E a w ∧ Expands E l r' := by
  cases h with
  | cons hFirst hRest => exact ⟨_, _, rfl, hFirst, hRest⟩

theorem single {a : α} {w : List β} (h : E a w) : Expands E [a] w :=
  List.append_nil w ▸ cons h nil

theorem single_inv {a : α} {r : List β} (h : Expands E [a] r) : E a r := by
  obtain ⟨w, r', rfl, hFirst, hRest⟩ := cons_inv h
  rwa [nil_inv hRest, List.append_nil]

theorem append {l l' : List α} {r r' : List β} (h : Expands E l r) (h' : Expands E l' r') :
    Expands E (l ++ l') (r ++ r') := by
  induction h with
  | nil => exact h'
  | cons hFirst _ ih =>
    rw [List.append_assoc]
    exact cons hFirst ih

theorem append_inv {l l' : List α} {r : List β} (h : Expands E (l ++ l') r) :
    ∃ w w', r = w ++ w' ∧ Expands E l w ∧ Expands E l' w' := by
  induction l generalizing r with
  | nil => exact ⟨[], r, rfl, nil, h⟩
  | cons a l ih =>
    obtain ⟨w, r', rfl, hFirst, hRest⟩ := cons_inv h
    obtain ⟨v, v', rfl, hl, hl'⟩ := ih hRest
    exact ⟨w ++ v, v', (List.append_assoc w v v').symm, cons hFirst hl, hl'⟩

/-- What one symbol of a row expands into, and what stands before and after it. -/
theorem mid_inv {A B : List α} {a : α} {r : List β} (h : Expands E (A ++ a :: B) r) :
    ∃ PA w PB, r = PA ++ (w ++ PB) ∧ Expands E A PA ∧ E a w ∧ Expands E B PB := by
  obtain ⟨PA, r', rfl, hA, hRest⟩ := append_inv h
  obtain ⟨w, PB, rfl, hFirst, hB⟩ := cons_inv hRest
  exact ⟨PA, w, PB, rfl, hA, hFirst, hB⟩

theorem mid {A B : List α} {a : α} {PA w PB : List β} (hA : Expands E A PA) (ha : E a w)
    (hB : Expands E B PB) : Expands E (A ++ a :: B) (PA ++ (w ++ PB)) :=
  append hA (cons ha hB)

/-- The symbol of the upper row that a symbol of the lower row comes from. -/
theorem split {l : List α} {P Q : List β} {b : β} (h : Expands E l (P ++ b :: Q)) :
    ∃ A a B PA w w' PB, l = A ++ a :: B ∧ Expands E A PA ∧ E a (w ++ b :: w') ∧
      Expands E B PB ∧ P = PA ++ w ∧ Q = w' ++ PB := by
  induction l generalizing P with
  | nil => exact absurd (nil_inv h) (by simp)
  | cons a l ih =>
    obtain ⟨v, r, hr, hFirst, hRest⟩ := cons_inv h
    obtain ⟨u, rfl, hu⟩ | ⟨u, rfl, hu⟩ := List.append_eq_append_iff.mp hr
    · cases u with
      | nil =>
        rw [List.nil_append] at hu
        rw [← hu] at hRest
        obtain ⟨A, c, B, PA, w, w', PB, rfl, hA, hc, hB, hP, hQ⟩ := ih (P := []) hRest
        obtain ⟨rfl, rfl⟩ := List.append_eq_nil_iff.mp hP.symm
        refine ⟨a :: A, c, B, P ++ [], [], w', PB, rfl, cons ?_ hA, hc, hB, by simp, hQ⟩
        rwa [List.append_nil] at hFirst
      | cons c u =>
        obtain ⟨rfl, rfl⟩ := List.cons.inj hu
        exact ⟨[], a, l, [], P, u, r, rfl, nil, hFirst, hRest, rfl, rfl⟩
    · rw [hu] at hRest
      obtain ⟨A, c, B, PA, w, w', PB, rfl, hA, hc, hB, rfl, rfl⟩ := ih hRest
      exact ⟨a :: A, c, B, v ++ PA, w, w', PB, rfl, cons hFirst hA, hc, hB,
        (List.append_assoc v PA w).symm, rfl⟩

theorem mono {l : List α} {r : List β} (h : Expands E l r)
    (hE : ∀ a ∈ l, ∀ w, (∀ b ∈ w, b ∈ r) → E a w → E' a w) : Expands E' l r := by
  induction h with
  | nil => exact nil
  | cons hFirst _ ih =>
    refine cons (hE _ List.mem_cons_self _ (fun b hb => List.mem_append_left _ hb) hFirst) ?_
    exact ih fun a ha w hw => hE a (List.mem_cons_of_mem _ ha) w fun b hb =>
      List.mem_append_right _ (hw b hb)

end Expands

inductive Descends (E : α → List α → Prop) : Nat → List α → List α → Prop
  | here (l : List α) : Descends E 0 l l
  | lower {n : Nat} {l m r : List α} :
      Expands E l m → Descends E n m r → Descends E (n + 1) l r

namespace Descends

variable {E : α → List α → Prop}

theorem snoc {n : Nat} {l m r : List α} (h : Descends E n l m) (hLast : Expands E m r) :
    Descends E (n + 1) l r := by
  induction h with
  | here l => exact lower hLast (here r)
  | lower hFirst _ ih => exact lower hFirst (ih hLast)

theorem append_inv {n : Nat} {l l' r : List α} (h : Descends E n (l ++ l') r) :
    ∃ w w', r = w ++ w' ∧ Descends E n l w ∧ Descends E n l' w' := by
  induction n generalizing l l' with
  | zero =>
    cases h
    exact ⟨l, l', rfl, here l, here l'⟩
  | succ n ih =>
    cases h with
    | lower hFirst hRest =>
      obtain ⟨m, m', rfl, hl, hl'⟩ := hFirst.append_inv
      obtain ⟨w, w', rfl, hw, hw'⟩ := ih hRest
      exact ⟨w, w', rfl, lower hl hw, lower hl' hw'⟩

end Descends

end Trident.Expansion
