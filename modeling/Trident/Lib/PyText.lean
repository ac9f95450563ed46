import Mathlib.Data.List.Forall2
import Mathlib.Data.List.Infix
import Mathlib.Data.List.TakeDrop
import Mathlib.Data.List.TakeWhile

/-! # Text operations of the Python scripts

`sub in text`, `text.find`, `text.split()` and `int(text)`, on lists of
characters, with the facts about decimal numbers written by a shell, and the
comprehensions whose elements can raise an exception.

The texts are the ones that shell tools write: their white space is the blank,
the tab and the ends of lines, and their numbers are of plain digits. What
Python accepts besides (the other spaces and digits of Unicode, control
characters as spaces, `_` between digits) is left out.
-/

namespace Trident.PyText

/-- `sub in text` -/
def pyIn (sub text : String) : Bool := decide (sub.toList <:+: text.toList)

theorem pyIn_iff (sub text : String) : pyIn sub text = true ↔ sub.toList <:+: text.toList := by
  simp [pyIn]

/-- A word without the separator lies on one side of it. -/
theorem infix_append_cons_iff {α : Type*} {w x y : List α} {c : α} (hc : c ∉ w) :
    w <:+: x ++ c :: y ↔ w <:+: x ∨ w <:+: y := by
  constructor
  · rintro ⟨a, b, h⟩
    rw [List.append_assoc] at h
    rcases List.append_eq_append_iff.mp h with ⟨r, hx, hr⟩ | ⟨r, ha, hr⟩
    · rcases List.append_eq_append_iff.mp hr with ⟨q, hr', hq⟩ | ⟨q, hw, hq⟩
      · exact Or.inl ⟨a, q, by rw [hx, hr', List.append_assoc]⟩
      · cases q with
        | nil => exact Or.inl ⟨a, [], by rw [hx, hw]; simp⟩
        | cons d q =>
          obtain ⟨rfl, _⟩ := List.cons.inj hq
          exact absurd (hw ▸ List.mem_append_right r List.mem_cons_self) hc
    · cases r with
      | nil =>
        cases w with
        | nil => exact Or.inl (List.nil_infix)
        | cons d w =>
          obtain ⟨rfl, _⟩ := List.cons.inj hr
          exact absurd List.mem_cons_self hc
      | cons d r =>
        obtain ⟨_, hy⟩ := List.cons.inj hr
        exact Or.inr ⟨r, b, by rw [List.append_assoc]; exact hy.symm⟩
  · rintro (h | h)
    · exact h.trans (List.prefix_append x _).isInfix
    · exact h.trans ((List.suffix_cons c y).trans (List.suffix_append x _)).isInfix

def strip (text : List Char) : List Char :=
  ((text.dropWhile Char.isWhitespace).reverse.dropWhile Char.isWhitespace).reverse

def pyNat (text : List Char) : Option Nat :=
  if text ≠ [] ∧ text.all Char.isDigit then some (Nat.ofDigitChars 10 text 0) else none

/-- `int(text)`; `none` stands for the `ValueError`. -/
def pyInt (text : List Char) : Option Int :=
  match strip text with
  | '-' :: digits => (pyNat digits).map fun n => -(n : Int)
  | '+' :: digits => (pyNat digits).map Int.ofNat
  | digits => (pyNat digits).map Int.ofNat

/-- The words collected so far end in `word`. -/
def splitFrom (word : List Char) : List Char → List (List Char)
  | [] => if word = [] then [] else [word]
  | c :: text =>
    if c.isWhitespace then (if word = [] then splitFrom [] text else word :: splitFrom [] text)
    else splitFrom (word ++ [c]) text

/-- `text.split()` -/
def pySplit (text : List Char) : List (List Char) := splitFrom [] text

/-- `text.split(',')[0]` -/
def beforeComma (text : List Char) : List Char := text.takeWhile (· != ',')

theorem isDigit_of_mem_repr {n : Nat} {c : Char} (h : c ∈ (Nat.repr n).toList) :
    c.isDigit = true := by
  rw [Nat.toList_repr] at h
  exact Nat.isDigit_of_mem_toDigits (by decide) (by decide) h

theorem not_whitespace_of_isDigit {c : Char} (h : c.isDigit = true) : c.isWhitespace = false := by
  by_contra hSpace
  simp only [Bool.not_eq_false, Char.isWhitespace, Bool.or_eq_true, decide_eq_true_eq] at hSpace
  rcases hSpace with ((rfl | rfl) | rfl) | rfl <;> exact absurd h (by decide)

theorem repr_ne_nil (n : Nat) : (Nat.repr n).toList ≠ [] := by
  rw [Nat.toList_repr]
  exact Nat.toDigits_ne_nil

theorem pyNat_repr (n : Nat) : pyNat (Nat.repr n).toList = some n := by
  have hDigits : (Nat.repr n).toList.all Char.isDigit = true :=
    List.all_eq_true.mpr fun c hc => isDigit_of_mem_repr hc
  rw [pyNat, if_pos ⟨repr_ne_nil n, hDigits⟩, Nat.toList_repr, Nat.ofDigitChars_ten_toDigits]

theorem strip_repr (n : Nat) (rest : List Char) (hRest : rest.all Char.isWhitespace = true) :
    strip ((Nat.repr n).toList ++ rest) = (Nat.repr n).toList := by
  have hSolid : ∀ c ∈ (Nat.repr n).toList, c.isWhitespace = false := fun c hc =>
    not_whitespace_of_isDigit (isDigit_of_mem_repr hc)
  have hFront : ((Nat.repr n).toList ++ rest).dropWhile Char.isWhitespace =
      (Nat.repr n).toList ++ rest := by
    cases hText : (Nat.repr n).toList with
    | nil => exact absurd hText (repr_ne_nil n)
    | cons c text =>
      have hc := hSolid c (hText ▸ List.mem_cons_self)
      rw [List.cons_append, List.dropWhile_cons_of_neg (by simp [hc])]
  have hBack : ((Nat.repr n).toList.reverse).dropWhile Char.isWhitespace =
      (Nat.repr n).toList.reverse := by
    cases hText : (Nat.repr n).toList.reverse with
    | nil => exact absurd (List.reverse_eq_nil_iff.mp hText) (repr_ne_nil n)
    | cons c text =>
      have hc := hSolid c (List.mem_reverse.mp (hText ▸ List.mem_cons_self))
      rw [List.dropWhile_cons_of_neg (by simp [hc])]
  have hGone : rest.reverse.dropWhile Char.isWhitespace = [] := by
    rw [List.dropWhile_eq_nil_iff]
    intro c hc
    exact List.all_eq_true.mp hRest c (List.mem_reverse.mp hc)
  rw [strip, hFront, List.reverse_append, List.dropWhile_append, hGone, if_pos List.isEmpty_nil, hBack,
    List.reverse_reverse]

/-- `int` reads back what the shell has printed, whatever whitespace follows. -/
theorem pyInt_repr (n : Nat) (rest : List Char) (hRest : rest.all Char.isWhitespace = true) :
    pyInt ((Nat.repr n).toList ++ rest) = some (n : Int) := by
  rw [pyInt, strip_repr n rest hRest]
  split
  · rename_i digits hText
    have h := isDigit_of_mem_repr (n := n) (hText ▸ List.mem_cons_self)
    exact absurd h (by decide)
  · rename_i digits hText
    have h := isDigit_of_mem_repr (n := n) (hText ▸ List.mem_cons_self)
    exact absurd h (by decide)
  · rw [pyNat_repr]
    rfl

section Separators

variable {α : Type*} [DecidableEq α] {d : α} {l x y z : List α}

/-- No two `d` in a row and none at the end. -/
def apart (d : α) : List α → Bool
  | [] => true
  | [a] => a ≠ d
  | a :: b :: l => (a ≠ d ∨ b ≠ d) && apart d (b :: l)

theorem apart_tail {a : α} (h : apart d (a :: l) = true) : apart d l = true := by
  cases l with
  | nil => rfl
  | cons b l => exact (Bool.and_eq_true_iff.mp h).2

theorem not_prefix_of_apart {a : α} (h : apart d (a :: l) = true) :
    ¬ d :: d :: x <+: a :: (l ++ y) := by
  rintro ⟨t, hEq⟩
  obtain ⟨rfl, hTail⟩ := List.cons.inj hEq
  cases l with
  | nil => simp [apart] at h
  | cons b l =>
    obtain ⟨rfl, _⟩ := List.cons.inj hTail
    simp [apart] at h

theorem infix_append_of_apart (h : apart d l = true) :
    d :: d :: x <:+: l ++ y ↔ d :: d :: x <:+: y := by
  induction l with
  | nil => rfl
  | cons a l ih =>
    rw [List.cons_append, List.infix_cons_iff, ih (apart_tail h),
      or_iff_right (not_prefix_of_apart h)]

theorem infix_append_of_apart_reverse (h : apart d l.reverse = true) :
    x ++ [d, d] <:+: y ++ l ↔ x ++ [d, d] <:+: y := by
  have hBack : x ++ [d, d] <:+: y ↔ (x ++ [d, d]).reverse <:+: y.reverse := List.reverse_infix.symm
  rw [hBack, ← List.reverse_infix, List.reverse_append, List.reverse_append]
  exact infix_append_of_apart h

/-- The text before the first double separator. -/
theorem prefix_double_iff (hx : apart d x = true) (hl : apart d l = true) :
    x ++ [d, d] <+: l ++ d :: d :: y ↔ x = l := by
  constructor
  · induction x generalizing l with
    | nil =>
      intro h
      cases l with
      | nil => rfl
      | cons a l => exact absurd h (not_prefix_of_apart hl)
    | cons a x ih =>
      intro h
      cases l with
      | nil =>
        obtain ⟨t, hEq⟩ := h
        obtain ⟨rfl, hTail⟩ := List.cons.inj hEq
        cases x with
        | nil => simp [apart] at hx
        | cons b x =>
          obtain ⟨rfl, _⟩ := List.cons.inj hTail
          simp [apart] at hx
      | cons b l =>
        obtain ⟨rfl, hRest⟩ := List.cons_prefix_cons.mp h
        rw [ih (apart_tail hx) (apart_tail hl) hRest]
  · rintro rfl
    exact ⟨y, by simp⟩

end Separators

section Comprehensions

variable {α β : Type} {l : List α} {r : List β}

theorem mapM_eq_some_iff {f : α → Option β} :
    l.mapM f = some r ↔ List.Forall₂ (fun a b => f a = some b) l r := by
  induction l generalizing r with
  | nil => simp [eq_comm]
  | cons a l ih =>
    rw [List.mapM_cons, List.forall₂_cons_left_iff]
    constructor
    · intro hRun
      obtain ⟨b, hb, hRest⟩ := Option.bind_eq_some_iff.mp hRun
      obtain ⟨r', hr', hEnd⟩ := Option.bind_eq_some_iff.mp hRest
      cases hEnd
      exact ⟨b, r', hb, ih.mp hr', rfl⟩
    · rintro ⟨b, r', hb, hr', rfl⟩
      rw [hb, ih.mpr hr']
      rfl

theorem mapM_flatMap {γ : Type} (f : β → Option γ) (g : α → List β) :
    (l.flatMap g).mapM f = (l.mapM fun a => (g a).mapM f).map List.flatten := by
  induction l with
  | nil => rfl
  | cons a l ih =>
    rw [List.flatMap_cons, List.mapM_append, List.mapM_cons, ih]
    cases (g a).mapM f with
    | none => rfl
    | some first =>
      cases l.mapM fun a => (g a).mapM f with
      | none => rfl
      | some rest => rfl

theorem exists_forall₂_iff {R : α → β → Prop} :
    (∃ r, List.Forall₂ R l r) ↔ ∀ a ∈ l, ∃ b, R a b := by
  induction l with
  | nil => simp
  | cons a l ih =>
    rw [List.forall_mem_cons, ← ih]
    constructor
    · rintro ⟨_, h⟩
      obtain ⟨b, r, hb, hr, rfl⟩ := List.forall₂_cons_left_iff.mp h
      exact ⟨⟨b, hb⟩, r, hr⟩
    · rintro ⟨⟨b, hb⟩, r, hr⟩
      exact ⟨b :: r, .cons hb hr⟩

/-- A comprehension whose values are related to its elements raises nothing just if every
element has such a value. -/
theorem mapM_forall₂_iff (f : α → Option β) (R : α → β → Prop) :
    (∃ r, l.mapM f = some r ∧ List.Forall₂ R l r) ↔ ∀ a ∈ l, ∃ b, f a = some b ∧ R a b := by
  rw [← exists_forall₂_iff]
  constructor
  · rintro ⟨r, hRun, hRel⟩
    exact ⟨r, (mapM_eq_some_iff.mp hRun).mp (fun _ _ => And.intro) hRel⟩
  · rintro ⟨r, h⟩
    exact ⟨r, mapM_eq_some_iff.mpr (h.imp fun _ _ => And.left), h.imp fun _ _ => And.right⟩

end Comprehensions

end Trident.PyText
