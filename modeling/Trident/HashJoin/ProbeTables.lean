import Mathlib.Algebra.Group.Nat.Defs
import Mathlib.Logic.Function.Basic
import Trident.Lib.Loops

/-! # The tables of the hash join

The elements stand in four regions, and slot `i` of the hash table points to element `i / 4` of region
`i % 4`. Allocation does not fail.
-/

namespace Trident.HashJoin

open Loops

section Program

def numRegions : Nat := 4

def elementBytes : Nat := 64

/-- An element by its region and its index there. -/
abbrev Ptr := Nat × Nat

/-- `hashtable` with `none` for NULL, and the keys of the elements. -/
structure Tables where
  hashtable : Nat → Option Ptr
  key : Ptr → UInt64

def cleared : Tables where
  hashtable _ := none
  key _ := 0

/-- The slots that `hashsize * sizeof(struct htelm *)` bytes have room for. -/
def slots (hashsize : UInt64) : Nat := (hashsize * 8).toNat / 8

def regionBytes (hashsize : UInt64) : Nat := (hashsize * 64 / 4).toNat

/-- The key is the first word of an element. -/
def keyInside (hashsize : UInt64) (p : Ptr) : Bool := elementBytes * p.2 + 8 ≤ regionBytes hashsize

def place (i : Nat) : Ptr := (i % numRegions, i / numRegions)

/-- One turn of the build loop; `none` is an access outside what is allocated. -/
def buildTurn (hashsize : UInt64) (i : Nat) (s : Tables) : Option Tables :=
  if i < slots hashsize ∧ keyInside hashsize (place i) then
    some {
      hashtable := Function.update s.hashtable i (some (place i))
      key := Function.update s.key (place i) (UInt64.ofNat i + 1) }
  else none

def build (hashsize : UInt64) : Option Tables := forUp (buildTurn hashsize) 0 hashsize.toNat cleared

/-- `e = hashtable[hash % hashsize]; if (e && e->key) { matches++; }` -/
def probe (hashsize : UInt64) (s : Tables) (hash found : UInt64) : Option UInt64 :=
  let i := (hash % hashsize).toNat
  if i < slots hashsize then
    match s.hashtable i with
    | none => some found
    | some e =>
      if keyInside hashsize e then some (if s.key e ≠ 0 then found + 1 else found)
      else none
  else none

def lookupTurn (hashsize : UInt64) (s : Tables) (hash : UInt64 × UInt64) (found : UInt64) :
    Option UInt64 := do
  let found ← probe hashsize s hash.1 found
  let found ← probe hashsize s hash.2 found
  let found ← probe hashsize s (hash.1 <<< 2) found
  probe hashsize s (hash.2 <<< 2) found

/-- The probe loop; `hash i` is the hash of the key that turn `i` reads. -/
def lookups (hashsize : UInt64) (s : Tables) (hash : Nat → UInt64 × UInt64) (nlookups : UInt64) :
    Option UInt64 :=
  forUp (fun i found => lookupTurn hashsize s (hash i) found) 0 nlookups.toNat 0

end Program

section Building

variable {hashsize : UInt64} {s s' : Tables} {i : Nat}

theorem place_injective {i j : Nat} (h : place i = place j) : i = j := by
  obtain ⟨hRegion, hIndex⟩ := Prod.mk.inj h
  rw [← Nat.div_add_mod i numRegions, ← Nat.div_add_mod j numRegions, hRegion, hIndex]

def Filled (s : Tables) (i : Nat) : Prop :=
  ∀ k < i, s.hashtable k = some (place k) ∧ s.key (place k) = UInt64.ofNat k + 1

theorem buildTurn_filled (hFilled : Filled s i) (hTurn : buildTurn hashsize i s = some s') :
    Filled s' (i + 1) := by
  rw [buildTurn] at hTurn
  split at hTurn
  · cases hTurn
    intro k hk
    obtain rfl | hNe := eq_or_ne k i
    · exact ⟨Function.update_self .., Function.update_self ..⟩
    · have hPlace : place k ≠ place i := fun hEq => hNe (place_injective hEq)
      obtain ⟨hSlot, hKey⟩ := hFilled k (by omega)
      constructor
      · rw [← hSlot]
        exact Function.update_of_ne hNe ..
      · rw [← hKey]
        exact Function.update_of_ne hPlace ..
  · cases hTurn

theorem build_filled (hBuild : build hashsize = some s) : Filled s hashsize.toNat := by
  have hLoop : ∀ n s, forUp (buildTurn hashsize) 0 n cleared = some s → Filled s n := by
    intro n
    induction n with
    | zero =>
      intro s _ k hk
      exact absurd hk (Nat.not_lt_zero k)
    | succ n ih =>
      intro s hRun
      rw [forUp_add] at hRun
      obtain ⟨s₁, hFirst, hTurn⟩ := Option.bind_eq_some_iff.mp hRun
      simp only [forUp, Nat.zero_add, Option.bind_fun_some] at hTurn
      exact buildTurn_filled (ih s₁ hFirst) hTurn
  exact hLoop _ s hBuild

theorem regionBytes_eq (hashsize : UInt64) : regionBytes hashsize = hashsize.toNat * 64 % 2 ^ 64 / 4 := by
  rw [regionBytes, UInt64.toNat_div, UInt64.toNat_mul]
  rfl

theorem slots_eq (hSize : hashsize.toNat < 2 ^ 58) : slots hashsize = hashsize.toNat := by
  have hBytes : (hashsize * 8).toNat = hashsize.toNat * 8 % 2 ^ 64 := UInt64.toNat_mul hashsize 8
  rw [slots, hBytes]
  omega

/-- The key of the last element of a region is inside, even where the element is not. -/
theorem keyInside_place (hSize : hashsize.toNat < 2 ^ 58) (hi : i < hashsize.toNat) :
    keyInside hashsize (place i) = true := by
  rw [keyInside, regionBytes_eq, decide_eq_true_eq]
  simp only [place, numRegions, elementBytes]
  omega

theorem build_succeeds (hSize : hashsize.toNat < 2 ^ 58) : ∃ s, build hashsize = some s := by
  have hLoop : ∀ n ≤ hashsize.toNat, ∃ s, forUp (buildTurn hashsize) 0 n cleared = some s := by
    intro n hn
    induction n with
    | zero => exact ⟨cleared, rfl⟩
    | succ n ih =>
      obtain ⟨s, hRun⟩ := ih (by omega)
      have hInside : n < slots hashsize ∧ keyInside hashsize (place n) = true := by
        rw [slots_eq hSize]
        exact ⟨hn, keyInside_place hSize hn⟩
      rw [forUp_add, hRun, Option.bind_some, Nat.zero_add, forUp, buildTurn, if_pos hInside]
      exact ⟨_, rfl⟩
  exact hLoop _ (Nat.le_refl _)

end Building

section Probing

variable {hashsize : UInt64} {s : Tables}

def ElementInside (hashsize : UInt64) (p : Ptr) : Prop :=
  p.1 < numRegions ∧ elementBytes * (p.2 + 1) ≤ regionBytes hashsize

structure Joined (hashsize : UInt64) (s : Tables) : Prop where
  elements : ∀ i < hashsize.toNat, ∃ p, s.hashtable i = some p ∧ ElementInside hashsize p ∧ s.key p ≠ 0
  distinct : ∀ i < hashsize.toNat, ∀ j < hashsize.toNat, s.hashtable i = s.hashtable j → i = j
  turn : ∀ hash found, lookupTurn hashsize s hash found = some (found + 4)
  total : ∀ hash nlookups, lookups hashsize s hash nlookups = some (4 * nlookups)

theorem elementInside_iff {i : Nat} (hSize : hashsize.toNat < 2 ^ 58) :
    ElementInside hashsize (place i) ↔ 4 * (i / 4 + 1) ≤ hashsize.toNat := by
  rw [ElementInside, regionBytes_eq]
  simp only [place, numRegions, elementBytes]
  omega

theorem key_ne_zero {i : Nat} (hi : i < hashsize.toNat) : UInt64.ofNat i + 1 ≠ 0 := by
  have hWord := hashsize.toNat_lt
  have hNat : (UInt64.ofNat i + 1).toNat = i + 1 := by
    rw [UInt64.toNat_add, UInt64.toNat_ofNat_of_lt' (Nat.lt_trans hi hWord), UInt64.toNat_one]
    omega
  intro hZero
  rw [hZero] at hNat
  cases hNat

theorem probe_found (hPos : 0 < hashsize.toNat) (hSize : hashsize.toNat < 2 ^ 58)
    (hFilled : Filled s hashsize.toNat) (hash found : UInt64) :
    probe hashsize s hash found = some (found + 1) := by
  have hIndex : (hash % hashsize).toNat < hashsize.toNat := by
    rw [UInt64.toNat_mod]
    exact Nat.mod_lt _ hPos
  obtain ⟨hSlot, hKey⟩ := hFilled _ hIndex
  have hNonzero : s.key (place (hash % hashsize).toNat) ≠ 0 := hKey ▸ key_ne_zero hIndex
  simp only [probe, slots_eq hSize, hIndex, if_true, hSlot, keyInside_place hSize hIndex, hNonzero, ne_eq,
    not_false_eq_true]

theorem lookupTurn_found (hPos : 0 < hashsize.toNat) (hSize : hashsize.toNat < 2 ^ 58)
    (hFilled : Filled s hashsize.toNat) (hash : UInt64 × UInt64) (found : UInt64) :
    lookupTurn hashsize s hash found = some (found + 4) := by
  simp only [lookupTurn, probe_found hPos hSize hFilled, Option.bind_eq_bind, Option.bind_some, UInt64.add_assoc]
  rfl

theorem lookups_found (hPos : 0 < hashsize.toNat) (hSize : hashsize.toNat < 2 ^ 58)
    (hFilled : Filled s hashsize.toNat) (hash : Nat → UInt64 × UInt64) (nlookups : UInt64) :
    lookups hashsize s hash nlookups = some (4 * nlookups) := by
  have hLoop : ∀ n, forUp (fun i found => lookupTurn hashsize s (hash i) found) 0 n 0 =
      some (4 * UInt64.ofNat n) := by
    intro n
    induction n with
    | zero => rfl
    | succ n ih =>
      rw [forUp_add, ih, Option.bind_some, forUp, lookupTurn_found hPos hSize hFilled]
      simp only [forUp, Option.bind_some, UInt64.ofNat_add, UInt64.mul_add]
      rfl
  rw [lookups, hLoop, UInt64.ofNat_toNat]

/-- The regions hold their elements just if each has a quarter of them. -/
theorem joined_iff (hPos : 1 ≤ hashsize.toNat) :
    (∃ s, build hashsize = some s ∧ Joined hashsize s) ↔
      hashsize.toNat % 4 = 0 ∧ hashsize.toNat < 2 ^ 58 := by
  constructor
  · rintro ⟨s, hBuild, hJoined⟩
    have hLast : hashsize.toNat - 1 < hashsize.toNat := by omega
    obtain ⟨p, hSlot, hInside, _⟩ := hJoined.elements _ hLast
    obtain rfl : p = place (hashsize.toNat - 1) :=
      Option.some.inj (hSlot.symm.trans (build_filled hBuild _ hLast).1)
    rw [ElementInside, regionBytes_eq] at hInside
    simp only [place, numRegions, elementBytes] at hInside
    omega
  · rintro ⟨hQuarter, hSize⟩
    obtain ⟨s, hBuild⟩ := build_succeeds hSize
    have hFilled := build_filled hBuild
    refine ⟨s, hBuild, fun i hi => ?_, fun i hi j hj hEq => ?_, ?_, ?_⟩
    · refine ⟨place i, (hFilled i hi).1, (elementInside_iff hSize).mpr (by omega), ?_⟩
      rw [(hFilled i hi).2]
      exact key_ne_zero hi
    · rw [(hFilled i hi).1, (hFilled j hj).1] at hEq
      exact place_injective (Option.some.inj hEq)
    · exact lookupTurn_found hPos hSize hFilled
    · exact lookups_found hPos hSize hFilled

theorem eight_joined : (∃ s, build 8 = some s ∧ Joined 8 s) ↔
    (8 : UInt64).toNat % 4 = 0 ∧ (8 : UInt64).toNat < 2 ^ 58 :=
  joined_iff (by decide)

theorem one_not_joined : ¬ ∃ s, build 1 = some s ∧ Joined 1 s := by
  rintro ⟨s, hBuild, hJoined⟩
  obtain ⟨p, hSlot, hInside, _⟩ := hJoined.elements 0 (by decide)
  obtain rfl : p = place 0 := Option.some.inj (hSlot.symm.trans (build_filled hBuild 0 (by decide)).1)
  exact absurd hInside.2 (by decide)

end Probing

end Trident.HashJoin
