import Mathlib.Data.Int.ModEq
import Mathlib.Data.List.Basic

/-! # Records

Values of a fixed size in a file of bytes: how they lie in memory, and what reads them back. A type of
the machine may have bytes that no value of the model has.
-/

namespace Trident.Records

abbrev Byte := BitVec 8

/-- How values lie in memory. -/
structure Layout (α : Type*) where
  size : Nat
  store : α → List Byte
  load : List Byte → Option α
  length_store : ∀ a, (store a).length = size

section Files

variable {α β : Type*}

/-- The value comes back from its bytes. -/
def Layout.Keeps (L : Layout α) (a : α) : Prop := L.load (L.store a) = some a

def Layout.writeAll (L : Layout α) (values : List α) : List Byte := values.flatMap L.store

/-- Nothing where the file ends before the values do. -/
def Layout.readAll (L : Layout α) : Nat → List Byte → Option (List α × List Byte)
  | 0, file => some ([], file)
  | count + 1, file =>
    if file.length < L.size then none
    else (L.load (file.take L.size)).bind fun a =>
      (L.readAll count (file.drop L.size)).map fun r => (a :: r.1, r.2)

def Layout.readOne (L : Layout α) (file : List Byte) : Option (α × List Byte) :=
  if file.length < L.size then none
  else (L.load (file.take L.size)).map fun a => (a, file.drop L.size)

variable {L : Layout α} {a : α} {values : List α}

theorem readOne_store (h : L.Keeps a) (rest : List Byte) : L.readOne (L.store a ++ rest) = some (a, rest) := by
  have hLength := L.length_store a
  rw [Layout.readOne, if_neg (by rw [List.length_append]; omega), List.take_left' hLength,
    List.drop_left' hLength, h, Option.map_some]

theorem readAll_writeAll (h : ∀ a ∈ values, L.Keeps a) (rest : List Byte) :
    L.readAll values.length (L.writeAll values ++ rest) = some (values, rest) := by
  induction values with
  | nil => rfl
  | cons a values ih =>
    have hLength := L.length_store a
    have hFile : L.writeAll (a :: values) ++ rest = L.store a ++ (L.writeAll values ++ rest) := by
      rw [Layout.writeAll, Layout.writeAll, List.flatMap_cons, List.append_assoc]
    rw [hFile, List.length_cons, Layout.readAll, if_neg (by rw [List.length_append]; omega),
      List.take_left' hLength, List.drop_left' hLength, h a List.mem_cons_self, Option.bind_some,
      ih fun b hb => h b (List.mem_cons_of_mem a hb), Option.map_some]

/-- Two values, one behind the other. -/
def Layout.pair (L : Layout α) (M : Layout β) : Layout (α × β) where
  size := L.size + M.size
  store p := L.store p.1 ++ M.store p.2
  load bytes := (L.load (bytes.take L.size)).bind fun a => (M.load (bytes.drop L.size)).map (a, ·)
  length_store p := by rw [List.length_append, L.length_store, M.length_store]

theorem keeps_pair {M : Layout β} {b : β} (ha : L.Keeps a) (hb : M.Keeps b) : (L.pair M).Keeps (a, b) := by
  have hLength := L.length_store a
  rw [Layout.Keeps, Layout.pair]
  dsimp only
  rw [List.take_left' hLength, List.drop_left' hLength, ha, hb, Option.bind_some, Option.map_some]

/-- Values that stand for others. -/
def Layout.via (L : Layout α) (into : β → α) (of : α → Option β) : Layout β where
  size := L.size
  store b := L.store (into b)
  load bytes := (L.load bytes).bind of
  length_store b := L.length_store (into b)

theorem keeps_via {into : β → α} {of : α → Option β} {b : β} (hKeeps : L.Keeps (into b))
    (hBack : of (into b) = some b) : (L.via into of).Keeps b := by
  rw [Layout.Keeps, Layout.via]
  dsimp only
  rw [hKeeps, Option.bind_some, hBack]

end Files

section Numbers

/-- Little-endian. -/
def storeDigits : Nat → Nat → List Byte
  | 0, _ => []
  | size + 1, x => BitVec.ofNat 8 x :: storeDigits size (x / 256)

def loadDigits : List Byte → Nat
  | [] => 0
  | byte :: bytes => byte.toNat + 256 * loadDigits bytes

theorem length_storeDigits (size x : Nat) : (storeDigits size x).length = size := by
  induction size generalizing x with
  | zero => rfl
  | succ size ih => rw [storeDigits, List.length_cons, ih]

theorem loadDigits_storeDigits {size x : Nat} (h : x < 256 ^ size) : loadDigits (storeDigits size x) = x := by
  induction size generalizing x with
  | zero =>
    rw [Nat.pow_zero] at h
    exact (Nat.lt_one_iff.mp h).symm
  | succ size ih =>
    have hDiv : x / 256 < 256 ^ size := Nat.div_lt_of_lt_mul (by rwa [← Nat.pow_succ'])
    rw [storeDigits, loadDigits, ih hDiv, BitVec.toNat_ofNat]
    exact Nat.mod_add_div x 256

/-- `int64_t`, in two's complement -/
def int64 : Layout Int where
  size := 8
  store x := storeDigits 8 (x % 2 ^ 64).toNat
  load bytes := some ((loadDigits bytes : Int).bmod (2 ^ 64))
  length_store _ := length_storeDigits 8 _

theorem keeps_int64 {x : Int} (hLow : -2 ^ 63 ≤ x) (hHigh : x < 2 ^ 63) : int64.Keeps x := by
  have hDigits : loadDigits (storeDigits 8 (x % 2 ^ 64).toNat) = (x % 2 ^ 64).toNat :=
    loadDigits_storeDigits (by omega)
  rw [Layout.Keeps, int64]
  dsimp only
  have hBmod : (x % 2 ^ 64).bmod (2 ^ 64) = x.bmod (2 ^ 64) := Int.emod_bmod ..
  rw [hDigits, Int.toNat_of_nonneg (by omega), hBmod]
  exact congrArg some (Int.bmod_eq_of_le (by omega) (by omega))

/-- `int64_t` where no value is negative -/
def nat64 : Layout Nat := int64.via Int.ofNat fun x => if 0 ≤ x then some x.toNat else none

theorem keeps_nat64 {x : Nat} (h : x < 2 ^ 63) : nat64.Keeps x :=
  keeps_via (keeps_int64 (by dsimp only [Int.ofNat_eq_natCast]; omega) (by dsimp only [Int.ofNat_eq_natCast]; omega))
    (if_pos (Int.natCast_nonneg x))

/-- `bool`; other bytes than these two are no value. -/
def bool : Layout Bool where
  size := 1
  store b := [if b then 1#8 else 0#8]
  load bytes := if bytes = [1#8] then some true else if bytes = [0#8] then some false else none
  length_store _ := rfl

theorem keeps_bool (b : Bool) : bool.Keeps b := by
  cases b
  · rfl
  · rfl

/-- What takes no place. -/
def unit : Layout Unit where
  size := 0
  store _ := []
  load _ := some ()
  length_store _ := rfl

theorem keeps_unit (u : Unit) : unit.Keeps u := rfl

end Numbers

end Trident.Records
