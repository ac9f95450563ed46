import Mathlib.Logic.Function.Iterate
import Trident.Lib.Streams

/-! # The files of `canneal_netlist.pl` -/

namespace Trident.Canneal

open Streams

abbrev Name := List Char

structure Line where
  name : Name
  type : Nat
  fanin : List Name

def numConnections : Nat := 5

/-- The arguments of a run that does not die, and what `rand` gives in it. -/
structure Generated where
  numElements : Nat
  x : Nat
  y : Nat
  xBound : 1 < x
  yBound : 1 < y
  room : numElements < x * y
  randType : Fin numElements → Fin 2
  randomConnection : Fin numElements → Fin numConnections → Fin numElements

/-- `$name++` on a name of small letters; its last letter is the first of the list. -/
def incrementName : Name → Name
  | [] => ['a']
  | c :: name => if c = 'z' then 'a' :: incrementName name else Char.ofNat (c.toNat + 1) :: name

def names (i : Nat) : Name := (incrementName^[i] ['a']).reverse

namespace Generated

def line (g : Generated) (i : Fin g.numElements) : Line where
  name := names i
  type := 1 + g.randType i
  fanin := (List.finRange numConnections).map fun j => names (g.randomConnection i j)

def lines (g : Generated) : List Line := (List.finRange g.numElements).map g.line

end Generated

def printLine (l : Line) : List Char :=
  l.name ++ '\t' :: (decimal l.type ++ '\t' ::
    (l.fanin.flatMap (fun name => name ++ ['\t']) ++ (['E', 'N', 'D'] ++ ['\n'])))

def Generated.print (g : Generated) : List Char :=
  decimal g.numElements ++ '\t' :: (decimal g.x ++ '\t' :: (decimal g.y ++ '\n' ::
    g.lines.flatMap printLine))

section Names

def Letter (c : Char) : Prop := 'a'.toNat ≤ c.toNat ∧ c.toNat ≤ 'z'.toNat

/-- The place of a name among the names, from 1. -/
def rank : Name → Nat
  | [] => 0
  | c :: name => c.toNat - 96 + 26 * rank name

instance (c : Char) : Decidable (Letter c) := inferInstanceAs (Decidable (_ ∧ _))

theorem Letter.next {c : Char} (hc : Letter c) (hz : c ≠ 'z') :
    Letter (Char.ofNat (c.toNat + 1)) ∧ (Char.ofNat (c.toNat + 1)).toNat = c.toNat + 1 := by
  have hAscii : ∀ k < 123, Letter (Char.ofNat k) → Char.ofNat k ≠ 'z' →
      Letter (Char.ofNat ((Char.ofNat k).toNat + 1)) ∧
        (Char.ofNat ((Char.ofNat k).toNat + 1)).toNat = (Char.ofNat k).toNat + 1 := by decide
  have h := hAscii c.toNat (Nat.lt_succ_of_le hc.2)
  rw [Char.ofNat_toNat] at h
  exact h hc hz

theorem incrementName_letters {name : Name} (hLetters : ∀ c ∈ name, Letter c) :
    ∀ c ∈ incrementName name, Letter c := by
  induction name with
  | nil => exact List.forall_mem_singleton.mpr (by decide)
  | cons d name ih =>
    rw [List.forall_mem_cons] at hLetters
    obtain rfl | hz := eq_or_ne d 'z'
    · exact List.forall_mem_cons.mpr ⟨by decide, ih hLetters.2⟩
    · rw [incrementName, if_neg hz]
      exact List.forall_mem_cons.mpr ⟨(hLetters.1.next hz).1, hLetters.2⟩

theorem rank_incrementName {name : Name} (hLetters : ∀ c ∈ name, Letter c) :
    rank (incrementName name) = rank name + 1 := by
  induction name with
  | nil => rfl
  | cons d name ih =>
    rw [List.forall_mem_cons] at hLetters
    obtain rfl | hz := eq_or_ne d 'z'
    · have hDigits : 'a'.toNat - 96 = 1 ∧ 'z'.toNat - 96 = 26 := by decide
      rw [incrementName, if_pos rfl, rank, rank, ih hLetters.2]
      omega
    · have hLow : 97 ≤ d.toNat := hLetters.1.1
      rw [incrementName, if_neg hz, rank, rank, (hLetters.1.next hz).2]
      omega

theorem names_letters (i : Nat) : ∀ c ∈ names i, Letter c := by
  have hLetters : ∀ c ∈ incrementName^[i] ['a'], Letter c := by
    induction i with
    | zero => exact List.forall_mem_singleton.mpr (by decide)
    | succ i ih =>
      rw [Function.iterate_succ_apply']
      exact incrementName_letters ih
  exact fun c hc => hLetters c (List.mem_reverse.mp hc)

theorem rank_names (i : Nat) : rank (names i).reverse = i + 1 := by
  induction i with
  | zero => rfl
  | succ i ih =>
    rw [names, List.reverse_reverse] at ih ⊢
    have hLetters : ∀ c ∈ incrementName^[i] ['a'], Letter c := fun c hc =>
      names_letters i c (List.mem_reverse.mpr hc)
    rw [Function.iterate_succ_apply', rank_incrementName hLetters, ih]

theorem names_injective : Function.Injective names := by
  intro i j h
  have hRank := rank_names i
  rw [h, rank_names j] at hRank
  omega

theorem names_ne_nil (i : Nat) : names i ≠ [] := by
  intro h
  have hRank := rank_names i
  rw [h] at hRank
  cases hRank

theorem Letter.solid {c : Char} (hc : Letter c) : isSpace c = false := by
  by_contra hSpace
  rw [Bool.not_eq_false, isSpace, decide_eq_true_eq] at hSpace
  rcases hSpace with rfl | rfl | rfl | rfl | rfl | rfl <;> exact absurd hc (by decide)

theorem names_ne_end (i : Nat) : names i ≠ ['E', 'N', 'D'] := by
  intro h
  have hLetter : Letter 'E' := names_letters i 'E' (by simp [h])
  exact absurd hLetter (by decide)

end Names

end Trident.Canneal
